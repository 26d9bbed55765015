import Hosk.SpreadPass
import Hosk.StandingTowers

/-! Runs that are given no delete job: every lowering drops its row cleanly, and the height stays
below the logarithm of the entries. -/

namespace Hosk

namespace Repr

variable {e : Enclave} {l : Layout} {platform : Platform}

/-- Where each row links only what the row below it links, the towers stand. -/
theorem towersStand_of_nested (repr : Repr e l)
    (nested : ∀ (i : Nat) low high, 1 ≤ i → (abs e l).rows[i]? = some low →
      (abs e l).rows[i + 1]? = some high → high ⊆ low) : e.TowersStand := by
  rw [Enclave.TowersStand, repr.linkedRows_eq, ← List.map_tail, List.isChain_iff_getElem]
  intro i bound address inHigh
  simp only [List.length_map, List.length_tail] at bound
  simp only [List.getElem_map, List.getElem_tail] at inHigh ⊢
  have below := List.getElem?_eq_getElem (show i + 1 < l.rows.length by omega)
  have located := List.getElem?_eq_getElem (show i + 1 + 1 < l.rows.length by omega)
  obtain ⟨p, member, rfl⟩ := List.mem_map.mp inHigh
  obtain ⟨q, inLow, same⟩ : ∃ q ∈ l.rows[i + 1], q.2 = p.2 := by
    obtain ⟨head, cells, isRow⟩ := repr.grid.heads _ (List.mem_of_getElem? below)
    obtain ⟨upper, others, isAbove⟩ := repr.grid.heads _ (List.mem_of_getElem? located)
    rw [isAbove] at member
    rcases List.mem_cons.mp member with rfl | behind
    · exact ⟨(head, 0), by rw [isRow]; exact List.mem_cons_self, rfl⟩
    · have inTail : p ∈ l.rows[i + 1 + 1].tail := by
        rw [isAbove]
        exact behind
      have linked := nested (i + 1) _ _ (Nat.succ_pos i) (Repr.abs_row below) (Repr.abs_row located)
        (List.mem_map_of_mem inTail)
      obtain ⟨q, inTail, same⟩ := List.mem_map.mp linked
      exact ⟨q, List.mem_of_mem_tail inTail, same⟩
  exact ⟨q.1, List.mem_map_of_mem inLow,
    repr.grid.towers (i + 1) _ _ p q below located member inLow same.symm⟩

theorem cleanPass_of_spread (honest : platform.Honest) (repr : Repr e l)
    (spread : (abs e l).Spread) : e.CleanPass platform := by
  intro inodes middle newLow raised drops
  obtain ⟨middle', l₁, inodes', raised', _, repr₁, _, heads, abs₁⟩ :=
    repr.raiseIndexLayer_refines honest
  obtain ⟨rfl, rfl⟩ := Prod.mk.inj (Option.some.inj (raised'.symm.trans raised))
  rcases lowers_eq platform middle' l₁ heads with ⟨stays, _⟩ | ⟨_, drops', isHead, _⟩
  · exact absurd (stays.symm.trans drops) (Option.some_ne_none newLow).symm
  · obtain rfl := Option.some.inj (drops'.symm.trans drops)
    refine repr₁.dropsCleanly_of_stand isHead (repr₁.towersStand_of_nested fun i low high _ => ?_)
    rw [abs₁]
    exact (spread.raiseIndexLayer repr.linked repr.rows_positive platform.int).nested i low high

theorem call_spread (repr : Repr e l) (spread : (abs e l).Spread)
    (call : Call) (inserts : ∀ job, call = .job job → job.node ≠ 0) :
    ((abs e l).call platform.int call).Spread := by
  cases call with
  | job job => exact spread.job repr.linked (inserts job rfl)
  | reset => exact spread.reset
  | pass =>
      have raised := spread.raiseIndexLayer repr.linked repr.rows_positive platform.int
      rw [Index.call, Index.updateIndexLayer]
      split
      · exact raised.lower
      · exact raised

end Repr

theorem Index.initial_spread : Index.initial.Spread := by
  refine ⟨fun _ none => absurd none List.not_mem_nil, rfl, ?_, fun _ _ => trivial, ?_, ?_⟩
  · exact fun i low high _ isHigh => absurd isHigh (by simp [Index.initial])
  · exact fun i low high _ isHigh => absurd isHigh (by simp [Index.initial])
  · exact fun i row _ below => absurd below (by simp [Index.initial])

/-- A run that is given no delete job returns, and its index is spread over its entries. -/
theorem Setting.run_spread (setting : Setting) {calls : List Call}
    (jobs : JobsOk setting.nodes (jobsOf calls)) (inserts : ∀ job ∈ jobsOf calls, job.node ≠ 0) :
    ∃ e l, setting.run calls = some e ∧ LevelsOnly setting.nodes e.nodes ∧ Repr e l ∧
      (abs e l).Spread ∧ abs e l = calls.foldl (Index.call setting.platform.int) Index.initial := by
  have along : Runs.Along (Enclave.turn setting.platform)
      (fun state (_ : Call) => ∀ e, state = some e → True) setting.start calls :=
    Runs.Along.of_all (fun _ _ _ _ => trivial) calls
  exact setting.run_rule (motive := fun _ index => index.Spread) Index.initial_spread
    (fun e l _ call repr spread given _ => ⟨fun _ => repr.cleanPass_of_spread setting.honest spread,
      repr.call_spread spread call given⟩) jobs
    (jobs_given inserts) along

end Hosk
