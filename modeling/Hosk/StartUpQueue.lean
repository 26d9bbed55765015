import Hosk.StartUp

/-! What the helper has been given of the jobs that were published, before and after a drain. -/

namespace Hosk

namespace StartUp

/-- The slots ahead of the helper hold the jobs as they were published, until the producer has
wrapped. -/
structure Tracks (state : StartUp) : Prop where
  indices : OpBuffer.IndicesOk opbufferSz state.buffer
  length : state.buffer.opbuffer.length = opbufferSz
  slots : ∀ index, state.buffer.hlpIdx ≤ index → index < state.buffer.appIdx →
    state.published[index]? = some (state.buffer.slot index)
  count : state.buffer.hlpIdx ≤ state.buffer.appIdx ∧
      (state.buffer.hlpIdx = 0 ∨ state.buffer.hlpIdx + 2 ≤ state.buffer.appIdx) ∧
        state.published.length = state.buffer.appIdx ∨
    state.buffer.appIdx < state.buffer.hlpIdx ∧
      state.published.length = state.buffer.appIdx + opbufferSz

variable {state : StartUp} {platform : Platform}

theorem Tracks.hlp_le (tracks : state.Tracks) : state.buffer.hlpIdx ≤ state.published.length := by
  have hlp := tracks.indices.hlp
  have count := tracks.count
  omega

theorem Tracks.publish (tracks : state.Tracks) (op : Op) : (state.publish op).Tracks ∧
    (state.publish op).buffer.hlpIdx = state.buffer.hlpIdx ∧
    ((state.publish op).published = state.published ∨
      (state.publish op).published = state.published ++ [op]) := by
  have indices := OpBuffer.insert_indices tracks.indices op.key op.node
  rw [StartUp.publish]
  by_cases full : state.buffer.next state.buffer.appIdx = state.buffer.hlpIdx
  · have refused : state.buffer.opbufferInsert op.key op.node = (false, state.buffer) := if_pos full
    rw [refused]
    exact ⟨tracks, rfl, .inl rfl⟩
  · have stored : state.buffer.opbufferInsert op.key op.node = (true, { (state.buffer.setKey
        state.buffer.appIdx op.key).setNode state.buffer.appIdx op.node with
          appIdx := state.buffer.next state.buffer.appIdx }) := if_neg full
    rw [stored] at indices ⊢
    refine ⟨⟨indices, ?_, ?_, ?_⟩, rfl, .inr rfl⟩
    · show ((state.buffer.opbuffer.set _ _).set _ _).length = _
      rw [List.length_set, List.length_set]
      exact tracks.length
    · intro index late early
      have size := tracks.indices.size
      have app := tracks.indices.app
      have moved : index < (state.buffer.appIdx + 1) % state.buffer.bufSize := early
      have notMore := Nat.mod_le (state.buffer.appIdx + 1) state.buffer.bufSize
      have late' : state.buffer.hlpIdx ≤ index := late
      have inside : state.buffer.appIdx < state.buffer.opbuffer.length := by
        rw [tracks.length]
        exact app
      have keyInside : state.buffer.appIdx <
          (state.buffer.setKey state.buffer.appIdx op.key).opbuffer.length := by
        rw [OpBuffer.setKey, List.length_set]
        exact inside
      show (state.published ++ [op])[index]? = some (((state.buffer.setKey state.buffer.appIdx
        op.key).setNode state.buffer.appIdx op.node).slot index)
      by_cases fresh : state.buffer.appIdx = index
      · subst fresh
        have last : state.published.length = state.buffer.appIdx := by
          rcases tracks.count with ⟨_, _, same⟩ | ⟨wrapped, _⟩
          · exact same
          · omega
        rw [OpBuffer.setNode_slot_same op.node keyInside, OpBuffer.setKey_slot_same op.key inside,
          ← last, List.getElem?_concat_length]
      · rw [OpBuffer.setNode_slot_other op.node fresh, OpBuffer.setKey_slot_other op.key fresh]
        have old := tracks.slots index late' (by omega)
        rw [List.getElem?_append_left (List.getElem?_eq_some_iff.mp old).1]
        exact old
    · have size := tracks.indices.size
      have app := tracks.indices.app
      have hlp := tracks.indices.hlp
      have count := tracks.count
      rw [OpBuffer.next] at full
      show state.buffer.hlpIdx ≤ (state.buffer.appIdx + 1) % state.buffer.bufSize ∧
          (state.buffer.hlpIdx = 0 ∨
            state.buffer.hlpIdx + 2 ≤ (state.buffer.appIdx + 1) % state.buffer.bufSize) ∧
            (state.published ++ [op]).length = (state.buffer.appIdx + 1) % state.buffer.bufSize ∨
        (state.buffer.appIdx + 1) % state.buffer.bufSize < state.buffer.hlpIdx ∧
          (state.published ++ [op]).length =
            (state.buffer.appIdx + 1) % state.buffer.bufSize + opbufferSz
      rw [List.length_append, List.length_singleton]
      by_cases last : state.buffer.appIdx + 1 = state.buffer.bufSize
      · rw [last, Nat.mod_self] at full ⊢
        omega
      · rw [Nat.mod_eq_of_lt (by omega)] at full ⊢
        omega

theorem Tracks.take (tracks : state.Tracks) (platform : Platform) :
    (state.buffer.opbufferRemove.1 = none ∧ state.take platform = state) ∨
    (state.buffer.opbufferRemove.1 ≠ none ∧ state.buffer.hlpIdx + 3 ≤ state.buffer.appIdx ∧ ∃ op,
      state.published[state.buffer.hlpIdx]? = some op ∧
      (state.take platform).enclave = Enclave.turn platform state.enclave (.job op.job) ∧
      (state.take platform).published = state.published ∧
      (state.take platform).buffer =
        { state.buffer with hlpIdx := state.buffer.hlpIdx + 1 } ∧
      (state.take platform).Tracks) := by
  have indices := OpBuffer.remove_indices tracks.indices
  have size := tracks.indices.size
  rw [StartUp.take]
  by_cases empty : state.buffer.seemsEmpty state.buffer.appIdx state.buffer.hlpIdx
  · have none : state.buffer.opbufferRemove = (none, state.buffer) := if_pos empty
    rw [none]
    exact .inl ⟨rfl, rfl⟩
  · right
    obtain ⟨room, nextEq⟩ := OpBuffer.not_seemsEmpty (by rw [size]; exact tracks.indices.app)
      (by rw [size]; exact tracks.indices.hlp) empty
    have taken : state.buffer.opbufferRemove = (some (state.buffer.slot state.buffer.hlpIdx),
        { state.buffer with hlpIdx := state.buffer.hlpIdx + 1 }) := by
      rw [← nextEq]
      exact if_neg empty
    have count : state.published.length = state.buffer.appIdx := by
      rcases tracks.count with ⟨_, _, same⟩ | ⟨wrapped, _⟩
      · exact same
      · omega
    rw [taken] at indices ⊢
    have oldest := tracks.slots state.buffer.hlpIdx (Nat.le_refl _) (by omega)
    refine ⟨(Option.some_ne_none _), room, state.buffer.slot state.buffer.hlpIdx, oldest, rfl, rfl,
      rfl, indices, tracks.length, ?_, .inl ⟨?_, .inr ?_, count⟩⟩
    · intro index late early
      exact tracks.slots index (Nat.le_of_succ_le late) early
    · show state.buffer.hlpIdx + 1 ≤ state.buffer.appIdx
      omega
    · show state.buffer.hlpIdx + 1 + 2 ≤ state.buffer.appIdx
      omega

/-- The helper has made these calls, and its jobs are the first that were published. -/
structure Follows (setting : Setting) (state : StartUp) (calls : List Call) : Prop where
  tracks : state.Tracks
  enclave : state.enclave = setting.run calls
  jobs : jobsOf calls = (state.published.take state.buffer.hlpIdx).map Op.job

variable {setting : Setting} {calls : List Call}

theorem Follows.publish (follows : state.Follows setting calls) (op : Op) :
    (state.publish op).Follows setting calls := by
  obtain ⟨tracks, hlp, published⟩ := follows.tracks.publish op
  refine ⟨tracks, follows.enclave, ?_⟩
  rw [hlp, follows.jobs]
  rcases published with same | more
  · rw [same]
  · rw [more, List.take_append_of_le_length follows.tracks.hlp_le]

theorem Follows.call (follows : state.Follows setting calls) {call : Call} (noJob : call.asJob = none) :
    (state.callHelper setting.platform call).Follows setting (calls ++ [call]) := by
  refine ⟨⟨follows.tracks.indices, follows.tracks.length, follows.tracks.slots, follows.tracks.count⟩,
    ?_, ?_⟩
  · rw [Setting.run, Runs.run_snoc, ← Setting.run, ← follows.enclave]
    rfl
  · rw [jobsOf_snoc, noJob, follows.jobs]
    exact List.append_nil _

theorem Follows.take (follows : state.Follows setting calls) :
    (state.buffer.opbufferRemove.1 = none ∧ state.take setting.platform = state) ∨
    ∃ job, state.buffer.opbufferRemove.1 ≠ none ∧
      state.buffer.hlpIdx + 3 ≤ state.buffer.appIdx ∧
      (state.take setting.platform).Follows setting (calls ++ [.job job]) ∧
      (state.take setting.platform).published = state.published ∧
      (state.take setting.platform).buffer =
        { state.buffer with hlpIdx := state.buffer.hlpIdx + 1 } := by
  rcases follows.tracks.take setting.platform with same | ⟨some, room, op, oldest, enclave,
    published, buffer, tracks⟩
  · exact .inl same
  · right
    refine ⟨op.job, some, room, ⟨tracks, ?_, ?_⟩, published, buffer⟩
    · rw [Setting.run, Runs.run_snoc, ← Setting.run, ← follows.enclave]
      exact enclave
    · rw [jobsOf_snoc, follows.jobs, published, buffer, List.take_add_one, oldest, List.map_append]
      rfl

end StartUp

theorem Setting.populated_follows (setting : Setting) (acts : List StartUpAct) :
    ∃ calls, (setting.populated acts).Follows setting calls := by
  refine Runs.run_invariant (fun state : StartUp => ∃ calls, state.Follows setting calls) ?_ ?_ acts
  · have large : 0 < opbufferSz := by decide
    refine ⟨[], ⟨⟨rfl, large, .inl rfl⟩, List.length_replicate, ?_, ?_⟩, rfl, rfl⟩
    · exact fun index _ early => absurd early (Nat.not_lt_zero index)
    · exact .inl ⟨Nat.le_refl 0, .inl rfl, rfl⟩
  · rintro state act ⟨calls, follows⟩
    cases act with
    | publish op => exact ⟨calls, follows.publish op⟩
    | pass =>
        refine ⟨calls ++ [.pass], ?_⟩
        show (state.callHelper setting.platform .pass).Follows setting (calls ++ [.pass])
        exact follows.call rfl
    | take =>
        rcases follows.take with ⟨_, same⟩ | ⟨job, _, _, later, _⟩
        · refine ⟨calls, ?_⟩
          show (state.take setting.platform).Follows setting calls
          rwa [same]
        · exact ⟨_, later⟩

namespace StartUp

variable {setting : Setting}

/-- The drain ends, and only hands jobs over; once the producer has wrapped, it hands over none. -/
theorem Follows.drain (fuel : Nat) : ∀ {state : StartUp} {calls : List Call},
    state.Follows setting calls → state.buffer.appIdx ≤ state.buffer.hlpIdx + fuel →
    ∃ more : List Job,
      (drain setting.platform (fuel + 1) state).Follows setting (calls ++ more.map .job) ∧
      (drain setting.platform (fuel + 1) state).published = state.published ∧
      (drain setting.platform (fuel + 1) state).buffer.opbufferRemove.1 = none ∧
      ∃ hlp, (drain setting.platform (fuel + 1) state).buffer = { state.buffer with hlpIdx := hlp } ∧
        (state.buffer.appIdx < state.buffer.hlpIdx → hlp = state.buffer.hlpIdx) := by
  induction fuel with
  | zero =>
      intro state calls follows bound
      rw [StartUp.drain]
      rcases follows.take with ⟨empty, _⟩ | ⟨_, _, room, _⟩
      · rw [empty]
        exact ⟨[], by simpa using follows, rfl, empty, _, rfl, fun _ => rfl⟩
      · omega
  | succ fuel ih =>
      intro state calls follows bound
      rw [StartUp.drain]
      rcases follows.take with ⟨empty, _⟩ | ⟨job, some, room, later, published, buffer⟩
      · rw [empty]
        exact ⟨[], by simpa using follows, rfl, empty, _, rfl, fun _ => rfl⟩
      · rw [if_neg (by simpa using some)]
        obtain ⟨more, drained, publishedAfter, empty, hlp, bufferAfter, _⟩ :=
          ih later (by rw [buffer]; show state.buffer.appIdx ≤ state.buffer.hlpIdx + 1 + fuel; omega)
        refine ⟨job :: more, ?_, publishedAfter.trans published, empty, hlp, ?_, ?_⟩
        · simpa using drained
        · rw [bufferAfter, buffer]
        · intro wrapped
          omega

end StartUp

end Hosk
