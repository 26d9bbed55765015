import Hosk.MainCore

/-!
A plan of what each call of `main` leaves out and brings home: it says when a call is in place, and
`main` makes each of its calls in place.
-/

namespace Hosk

/-- What `main` knows of an enclave: the flags that it alone writes, whether a helper thread is out,
whether a reset waits for the next helper or is the first work of the one that is out, and what
the worker that is out has started with. -/
structure Post where
  populateInit : Bool
  running : Bool
  finished : Bool
  out : Bool
  due : Bool
  resets : Bool
  worker : Option WorkerPc
  requests : Nat
  deleted : Bool

def Post.new : Post := ⟨false, false, false, false, false, false, none, 0, false⟩

structure Post.Own (post : Post) : Prop where
  home : post.resets = true → post.out = true
  taken : post.out = true → post.due = false
  starts : ∀ worker, post.worker = some worker → worker = .populating ∨ worker = .readStop
  released : post.deleted = true → post.out = false ∧ post.worker = none

structure Post.Beside (post other : Post) : Prop where
  alone : post.resets = true → other.worker = none
  paced : post.worker = some .readStop → other.out = true → other.populateInit = false
  served : post.worker = some .readStop → other.due = false

abbrev Plan := Nat → Post

namespace Plan

def change (plan : Plan) (k : Nat) (new : Post → Post) : Plan :=
  Function.update plan k (new (plan k))

def after (plan : Plan) : Instr → Plan
  | .startHelper k popAll => plan.change k fun post => { post with
      populateInit := popAll, running := true, finished := false, out := true
      resets := post.due, due := false }
  | .setPopulateInit k value => plan.change k fun post => { post with populateInit := value }
  | .setRunning k value => plan.change k fun post => { post with running := value }
  | .setFinished k value => plan.change k fun post => { post with finished := value }
  | .createHelper k => plan.change k fun post => { post with
      out := true, resets := post.due, due := false }
  | .stopHelper k => plan.change k fun post => { post with
      finished := true, out := false, resets := false, running := false }
  | .joinHelper k => plan.change k fun post => { post with out := false, resets := false }
  | .resetIndexLayer k => plan.change k fun post => { post with
      due := true, requests := post.requests + 1 }
  | .createWorker k worker => plan.change k fun post => { post with worker := some worker }
  | .joinWorker k => plan.change k fun post => { post with worker := none }
  | .storeStop => plan
  | .deleteEnclave k => plan.change k fun post => { post with deleted := true }
  | .free k => plan.change k fun post => { post with deleted := true }

def Quiet (plan : Plan) : Prop := ∀ j, (plan j).worker = none

def Unmeasured (plan : Plan) : Prop := ∀ j, (plan j).worker ≠ some .readStop

def Allows (plan : Plan) : Instr → Prop
  | .startHelper k popAll => (plan k).running = false ∧ (plan k).out = false ∧
      (plan k).deleted = false ∧ ((plan k).due = true → plan.Quiet) ∧
      (popAll = true → plan.Unmeasured)
  | .setPopulateInit k _ => (plan k).out = false
  | .createHelper k => (plan k).out = false ∧ (plan k).deleted = false ∧
      ((plan k).due = true → plan.Quiet) ∧ ((plan k).populateInit = true → plan.Unmeasured)
  | .stopHelper k => (plan k).running = true ∧ (plan k).out = true
  | .joinHelper k => (plan k).out = true ∧ (plan k).finished = true
  | .resetIndexLayer k => (plan k).out = false ∧ (plan k).due = false ∧ plan.Unmeasured
  | .createWorker k worker => (plan k).worker = none ∧ (plan k).deleted = false ∧
      (∀ j, (plan j).resets = false) ∧ (worker = .populating ∨ worker = .readStop ∧
        ∀ j, ((plan j).out = true → (plan j).populateInit = false) ∧ (plan j).due = false)
  | .joinWorker k => ∃ worker, (plan k).worker = some worker
  | .deleteEnclave k => (plan k).finished = true ∧ (plan k).out = false ∧ (plan k).worker = none
  | .free k => (plan k).out = false ∧ (plan k).worker = none
  | .setRunning _ _ | .setFinished _ _ | .storeStop => True

/-- The calls are all in place, and the last one leaves a final plan. -/
def Accepts (final : Plan) : Plan → List Instr → Prop
  | plan, [] => plan = final
  | plan, instr :: rest => plan.Allows instr ∧ Accepts final (plan.after instr) rest

theorem change_same (plan : Plan) (k : Nat) (new : Post → Post) :
    plan.change k new k = new (plan k) := Function.update_self _ _ _

theorem change_other (plan : Plan) {j k : Nat} (new : Post → Post) (other : j ≠ k) :
    plan.change k new j = plan j := Function.update_of_ne other _ _

theorem change_change (plan : Plan) (k : Nat) (first later : Post → Post) :
    (plan.change k first).change k later = plan.change k fun post => later (first post) := by
  rw [change, change_same, change, Function.update_idem]
  rfl

structure Steady (plan : Plan) : Prop where
  own : ∀ k, (plan k).Own
  beside : ∀ j k, (plan j).Beside (plan k)

variable {plan final : Plan} {k : Nat} {rest : List Instr}

theorem Steady.change (steady : plan.Steady) {new : Post → Post} (own : (new (plan k)).Own)
    (itself : (new (plan k)).Beside (new (plan k)))
    (others : ∀ j, j ≠ k → (plan j).Beside (new (plan k)) ∧ (new (plan k)).Beside (plan j)) :
    (plan.change k new).Steady := by
  constructor
  · intro i
    by_cases here : i = k
    · rw [here, change_same]
      exact own
    · rw [change_other _ _ here]
      exact steady.own i
  · intro i j
    by_cases here : i = k <;> by_cases there : j = k
    · rw [here, there, change_same]
      exact itself
    · rw [here, change_same, change_other _ _ there]
      exact (others j there).2
    · rw [there, change_same, change_other _ _ here]
      exact (others i here).1
    · rw [change_other _ _ here, change_other _ _ there]
      exact steady.beside i j

theorem Steady.aside (steady : plan.Steady) {new : Post → Post}
    (same : new (plan k) = { plan k with
      running := (new (plan k)).running, finished := (new (plan k)).finished }) :
    (plan.change k new).Steady := by
  have own := steady.own k
  have beside : ∀ post, (plan k).Beside post → (new (plan k)).Beside post := by
    intro post old
    rw [same]
    exact ⟨old.alone, old.paced, old.served⟩
  have beside' : ∀ post : Post, post.Beside (plan k) → post.Beside (new (plan k)) := by
    intro post old
    rw [same]
    exact ⟨old.alone, old.paced, old.served⟩
  refine steady.change ?_ (beside _ (beside' _ (steady.beside k k))) ?_
  · rw [same]
    exact ⟨own.home, own.taken, own.starts, own.released⟩
  · intro j _
    exact ⟨beside' _ (steady.beside j k), beside _ (steady.beside k j)⟩

theorem Steady.setPopulateInit (steady : plan.Steady) {value : Bool}
    (allowed : plan.Allows (.setPopulateInit k value)) :
    (plan.after (.setPopulateInit k value)).Steady := by
  have isIn : (plan k).out = false := allowed
  have own := steady.own k
  have itself := steady.beside k k
  rw [after]
  refine steady.change ?_ ?_ ?_
  · exact ⟨own.home, own.taken, own.starts, own.released⟩
  · exact ⟨itself.alone, fun _ out => absurd (isIn.symm.trans out) Bool.false_ne_true, itself.served⟩
  · intro j _
    have left := steady.beside j k
    have right := steady.beside k j
    constructor
    · exact ⟨left.alone, fun _ out => absurd (isIn.symm.trans out) Bool.false_ne_true, left.served⟩
    · exact ⟨right.alone, right.paced, right.served⟩

theorem Steady.createHelper (steady : plan.Steady) (allowed : plan.Allows (.createHelper k)) :
    (plan.after (.createHelper k)).Steady := by
  obtain ⟨_, present, quiet, unmeasured⟩ := allowed
  have own := steady.own k
  have paced : ∀ j, (plan j).worker = some .readStop → (plan k).populateInit = false := by
    intro j measured
    by_contra popAll
    exact unmeasured (eq_true_of_ne_false popAll) j measured
  rw [after]
  refine steady.change ?_ ?_ ?_
  · exact ⟨fun _ => rfl, fun _ => rfl, own.starts,
      fun deleted => absurd (present.symm.trans deleted) Bool.false_ne_true⟩
  · exact ⟨fun due => quiet due k, fun measured _ => paced k measured, fun _ => rfl⟩
  · intro j _
    have left := steady.beside j k
    have right := steady.beside k j
    constructor
    · exact ⟨left.alone, fun measured _ => paced j measured, fun _ => rfl⟩
    · exact ⟨fun due => quiet due j, right.paced, right.served⟩

theorem Steady.joinHelper (steady : plan.Steady) : (plan.after (.joinHelper k)).Steady := by
  have own := steady.own k
  have itself := steady.beside k k
  rw [after]
  refine steady.change ?_ ?_ ?_
  · exact ⟨fun wrong => absurd wrong Bool.false_ne_true,
      fun wrong => absurd wrong Bool.false_ne_true, own.starts,
      fun deleted => ⟨rfl, (own.released deleted).2⟩⟩
  · exact ⟨fun wrong => absurd wrong Bool.false_ne_true,
      fun _ wrong => absurd wrong Bool.false_ne_true, itself.served⟩
  · intro j _
    have left := steady.beside j k
    have right := steady.beside k j
    constructor
    · exact ⟨left.alone, fun _ wrong => absurd wrong Bool.false_ne_true, left.served⟩
    · exact ⟨fun wrong => absurd wrong Bool.false_ne_true, right.paced, right.served⟩

theorem Steady.resetIndexLayer (steady : plan.Steady) (allowed : plan.Allows (.resetIndexLayer k)) :
    (plan.after (.resetIndexLayer k)).Steady := by
  obtain ⟨isIn, _, unmeasured⟩ := allowed
  have own := steady.own k
  have itself := steady.beside k k
  rw [after]
  refine steady.change ?_ ?_ ?_
  · exact ⟨own.home, fun out => absurd (isIn.symm.trans out) Bool.false_ne_true, own.starts,
      own.released⟩
  · exact ⟨itself.alone, itself.paced, fun measured => absurd measured (unmeasured k)⟩
  · intro j _
    have left := steady.beside j k
    have right := steady.beside k j
    constructor
    · exact ⟨left.alone, left.paced, fun measured => absurd measured (unmeasured j)⟩
    · exact ⟨right.alone, right.paced, right.served⟩

theorem Steady.createWorker (steady : plan.Steady) {worker : WorkerPc}
    (allowed : plan.Allows (.createWorker k worker)) :
    (plan.after (.createWorker k worker)).Steady := by
  obtain ⟨_, present, settled, kind⟩ := allowed
  have own := steady.own k
  have never : ∀ {j}, (plan j).resets = true → False := by
    intro j resets
    exact absurd ((settled j).symm.trans resets) Bool.false_ne_true
  have measured : some worker = some .readStop → ∀ j,
      ((plan j).out = true → (plan j).populateInit = false) ∧ (plan j).due = false := by
    intro same
    rcases kind with populating | ⟨_, all⟩
    · rw [populating] at same
      exact absurd (Option.some.inj same) (by decide)
    · exact all
  rw [after]
  refine steady.change ?_ ?_ ?_
  · refine ⟨own.home, own.taken, ?_, ?_⟩
    · intro started same
      obtain rfl : worker = started := Option.some.inj same
      exact kind.imp_right And.left
    · exact fun deleted => absurd (present.symm.trans deleted) Bool.false_ne_true
  · exact ⟨fun resets => absurd resets never, fun same out => (measured same k).1 out,
      fun same => (measured same k).2⟩
  · intro j _
    have left := steady.beside j k
    constructor
    · exact ⟨fun resets => absurd resets never, left.paced, left.served⟩
    · exact ⟨fun resets => absurd resets never, fun same out => (measured same j).1 out,
        fun same => (measured same j).2⟩

theorem Steady.joinWorker (steady : plan.Steady) : (plan.after (.joinWorker k)).Steady := by
  have own := steady.own k
  have none_ne : ∀ {worker : WorkerPc}, none ≠ some worker :=
    (Option.some_ne_none _).symm
  rw [after]
  refine steady.change ?_ ?_ ?_
  · exact ⟨own.home, own.taken, fun _ wrong => absurd wrong none_ne,
      fun deleted => ⟨(own.released deleted).1, rfl⟩⟩
  · exact ⟨fun _ => rfl, fun wrong => absurd wrong none_ne, fun wrong => absurd wrong none_ne⟩
  · intro j _
    have left := steady.beside j k
    have right := steady.beside k j
    constructor
    · exact ⟨fun _ => rfl, left.paced, left.served⟩
    · exact ⟨right.alone, fun wrong => absurd wrong none_ne, fun wrong => absurd wrong none_ne⟩

theorem Steady.free (steady : plan.Steady) (allowed : plan.Allows (.free k)) :
    (plan.after (.free k)).Steady := by
  have own := steady.own k
  have itself := steady.beside k k
  rw [after]
  refine steady.change ?_ ?_ ?_
  · exact ⟨own.home, own.taken, own.starts, fun _ => allowed⟩
  · exact ⟨itself.alone, itself.paced, itself.served⟩
  · intro j _
    have left := steady.beside j k
    have right := steady.beside k j
    exact ⟨⟨left.alone, left.paced, left.served⟩, ⟨right.alone, right.paced, right.served⟩⟩

section Expand

theorem quiet_change {new : Post → Post} (same : (new (plan k)).worker = (plan k).worker)
    (quiet : plan.Quiet) : (plan.change k new).Quiet := by
  intro j
  by_cases here : j = k
  · rw [here, change_same, same]
    exact quiet k
  · rw [change_other _ _ here]
    exact quiet j

theorem unmeasured_change {new : Post → Post} (same : (new (plan k)).worker = (plan k).worker)
    (unmeasured : plan.Unmeasured) : (plan.change k new).Unmeasured := by
  intro j
  by_cases here : j = k
  · rw [here, change_same, same]
    exact unmeasured k
  · rw [change_other _ _ here]
    exact unmeasured j

theorem Accepts.startHelper {popAll : Bool}
    (accepted : Accepts final plan (.startHelper k popAll :: rest)) :
    Accepts final plan (.setPopulateInit k popAll :: .setRunning k true :: .setFinished k false ::
      .createHelper k :: rest) := by
  obtain ⟨⟨_, isIn, present, quiet, unmeasured⟩, later⟩ := accepted
  refine ⟨isIn, trivial, trivial, ?_, ?_⟩
  · simp only [after, Allows, change_change, change_same]
    refine ⟨isIn, present, ?_, ?_⟩
    · exact fun due => quiet_change rfl (quiet due)
    · exact fun all => unmeasured_change rfl (unmeasured all)
  · simp only [after, change_change] at later ⊢
    exact later

theorem Accepts.stopHelper (accepted : Accepts final plan (.stopHelper k :: rest)) :
    Accepts final plan (.setFinished k true :: .joinHelper k :: .setRunning k false :: rest) := by
  obtain ⟨⟨_, isOut⟩, later⟩ := accepted
  refine ⟨trivial, ?_, trivial, ?_⟩
  · simp only [after, Allows, change_same]
    exact ⟨isOut, trivial⟩
  · simp only [after, change_change] at later ⊢
    exact later

theorem Accepts.deleteEnclave (accepted : Accepts final plan (.deleteEnclave k :: rest)) :
    Accepts final plan (.free k :: rest) :=
  ⟨accepted.1.2, accepted.2⟩

end Expand

section Loops

def midway (n : Nat) (before now : Post) (k : Nat) : Plan := fun j =>
  if j < k then now else if j < n then before else Post.new

theorem midway_cases (n : Nat) (before now : Post) (k j : Nat) :
    midway n before now k j = before ∨ midway n before now k j = now ∨
      midway n before now k j = Post.new := by
  rw [midway]
  split
  · exact .inr (.inl rfl)
  · split
    · exact .inl rfl
    · exact .inr (.inr rfl)

theorem midway_here {n : Nat} (before now : Post) {k : Nat} (bound : k < n) :
    midway n before now k k = before := by
  rw [midway, if_neg (Nat.lt_irrefl k), if_pos bound]

theorem midway_next {n : Nat} {before now : Post} {k : Nat} (new : Post → Post) (bound : k < n)
    (same : new before = now) :
    (midway n before now k).change k new = midway n before now (k + 1) := by
  funext j
  by_cases here : j = k
  · rw [here, change_same, midway_here _ _ bound, same, midway, if_pos (Nat.lt_succ_self k)]
  · rw [change_other _ _ here, midway, midway]
    by_cases done : j < k
    · rw [if_pos done, if_pos (Nat.lt_succ_of_lt done)]
    · rw [if_neg done, if_neg (show ¬ j < k + 1 by omega)]

theorem midway_turn (n : Nat) (before now later : Post) :
    midway n before now n = midway n now later 0 := by
  funext j
  rw [midway, midway, if_neg (Nat.not_lt_zero j)]
  split
  · rfl
  · rfl

theorem accepts_loop {n : Nat} {before now : Post} (block : Nat → List Instr)
    (turn : ∀ k, k < n → ∀ rest, Accepts final (midway n before now (k + 1)) rest →
      Accepts final (midway n before now k) (block k ++ rest))
    (later : Accepts final (midway n before now n) rest) :
    Accepts final (midway n before now 0) ((List.range n).flatMap block ++ rest) := by
  have upTo : ∀ count k, k + count = n →
      Accepts final (midway n before now k) ((List.range' k count).flatMap block ++ rest) := by
    intro count
    induction count with
    | zero =>
        intro k isLast
        obtain rfl : k = n := isLast
        exact later
    | succ count ih =>
        intro k split
        rw [List.range'_succ, List.flatMap_cons, List.append_assoc]
        exact turn k (by omega) _ (ih (k + 1) (by omega))
  rw [List.range_eq_range']
  exact upTo n 0 (Nat.zero_add n)

end Loops

section Main

def helped : Post := { Post.new with populateInit := true, running := true, out := true }

def populated : Post := { helped with worker := some .populating }

def requested : Post :=
  { Post.new with populateInit := true, finished := true, due := true, requests := 1 }

def rebuilding : Post := { helped with resets := true, requests := 1 }

def spaced : Post := { Post.new with running := true, out := true, requests := 1 }

def measured : Post := { spaced with worker := some .readStop }

def closed : Post := { Post.new with finished := true, requests := 1, deleted := true }

variable {n : Nat}

theorem accepts_start (bound : k < n)
    (later : Accepts final (midway n Post.new helped (k + 1)) rest) :
    Accepts final (midway n Post.new helped k) (.startHelper k true :: rest) := by
  have unmeasured : (midway n Post.new helped k).Unmeasured := by
    intro j
    rcases midway_cases n Post.new helped k j with same | same | same <;> rw [same] <;> decide
  constructor
  · simpa [Allows, midway_here _ _ bound, Post.new] using unmeasured
  · rw [after, midway_next _ bound (by rfl)]
    exact later

theorem accepts_populate (bound : k < n)
    (later : Accepts final (midway n helped populated (k + 1)) rest) :
    Accepts final (midway n helped populated k) (.createWorker k .populating :: rest) := by
  have settled : ∀ j, (midway n helped populated k j).resets = false := by
    intro j
    rcases midway_cases n helped populated k j with same | same | same <;> rw [same] <;> rfl
  constructor
  · simpa [Allows, midway_here _ _ bound, helped, Post.new] using settled
  · rw [after, midway_next _ bound (by rfl)]
    exact later

theorem accepts_request (bound : k < n)
    (later : Accepts final (midway n populated requested (k + 1)) rest) :
    Accepts final (midway n populated requested k)
      (.joinWorker k :: .stopHelper k :: .resetIndexLayer k :: rest) := by
  have unmeasured : ∀ j, (midway n populated requested k j).worker ≠ some .readStop := by
    intro j
    rcases midway_cases n populated requested k j with same | same | same <;> rw [same] <;> decide
  refine ⟨⟨.populating, by rw [midway_here _ _ bound]; rfl⟩, ?_, ?_, ?_⟩
  · simp [after, Allows, change_same, midway_here _ _ bound, populated, helped]
  · simp only [after, Allows, change_change, change_same, midway_here _ _ bound]
    refine ⟨trivial, by rfl, fun j => ?_⟩
    by_cases here : j = k
    · rw [here, change_same]
      exact (Option.some_ne_none _).symm
    · rw [change_other _ _ here]
      exact unmeasured j
  · simp only [after, change_change]
    rw [midway_next _ bound (by rfl)]
    exact later

theorem accepts_rebuild (bound : k < n)
    (later : Accepts final (midway n requested rebuilding (k + 1)) rest) :
    Accepts final (midway n requested rebuilding k) (.startHelper k true :: rest) := by
  have quiet : (midway n requested rebuilding k).Quiet := by
    intro j
    rcases midway_cases n requested rebuilding k j with same | same | same <;> rw [same] <;> rfl
  have unmeasured : (midway n requested rebuilding k).Unmeasured := by
    intro j
    rw [quiet j]
    decide
  constructor
  · simpa [Allows, midway_here _ _ bound, requested, Post.new] using And.intro quiet unmeasured
  · rw [after, midway_next _ bound (by rfl)]
    exact later

theorem accepts_pace (bound : k < n)
    (later : Accepts final (midway n rebuilding spaced (k + 1)) rest) :
    Accepts final (midway n rebuilding spaced k)
      (.stopHelper k :: .startHelper k false :: rest) := by
  refine ⟨?_, ?_, ?_⟩
  · simp [Allows, midway_here _ _ bound, rebuilding, helped]
  · simp [after, Allows, change_same, midway_here _ _ bound, rebuilding, helped, Post.new]
  · simp only [after, change_change]
    rw [midway_next _ bound (by rfl)]
    exact later

theorem accepts_measure (bound : k < n)
    (later : Accepts final (midway n spaced measured (k + 1)) rest) :
    Accepts final (midway n spaced measured k) (.createWorker k .readStop :: rest) := by
  have settled : ∀ j, (midway n spaced measured k j).resets = false ∧
      (midway n spaced measured k j).populateInit = false ∧
      (midway n spaced measured k j).due = false := by
    intro j
    rcases midway_cases n spaced measured k j with same | same | same <;> rw [same] <;> decide
  constructor
  · have here := midway_here spaced measured bound
    refine ⟨by rw [here]; rfl, by rw [here]; rfl, fun j => (settled j).1, .inr ⟨rfl, fun j => ?_⟩⟩
    exact ⟨fun _ => (settled j).2.1, (settled j).2.2⟩
  · rw [after, midway_next _ bound (by rfl)]
    exact later

theorem accepts_join (bound : k < n)
    (later : Accepts final (midway n measured spaced (k + 1)) rest) :
    Accepts final (midway n measured spaced k) (.joinWorker k :: rest) := by
  refine ⟨⟨.readStop, by rw [midway_here _ _ bound]; rfl⟩, ?_⟩
  rw [after, midway_next _ bound (by rfl)]
  exact later

theorem accepts_close (bound : k < n)
    (later : Accepts final (midway n spaced closed (k + 1)) rest) :
    Accepts final (midway n spaced closed k) (.stopHelper k :: .deleteEnclave k :: rest) := by
  refine ⟨?_, ?_, ?_⟩
  · simp [Allows, midway_here _ _ bound, spaced]
  · simp [after, Allows, change_same, midway_here _ _ bound, spaced, Post.new]
  · simp only [after, change_change]
    rw [midway_next _ bound (by rfl)]
    exact later

/-- `main` makes each of its calls in place. -/
theorem accepts_mainCode (n : Nat) :
    Accepts (midway n spaced closed n) (fun _ => Post.new) (Program.mainCode n) := by
  have begins : (fun _ => Post.new) = midway n Post.new helped 0 := by
    funext j
    rw [midway, if_neg (Nat.not_lt_zero j), ite_self]
  rw [begins, Program.mainCode]
  refine accepts_loop _ (fun k bound rest later => accepts_start bound later) ?_
  rw [midway_turn n Post.new helped populated]
  refine accepts_loop _ (fun k bound rest later => accepts_populate bound later) ?_
  rw [midway_turn n helped populated requested]
  refine accepts_loop _ (fun k bound rest later => accepts_request bound later) ?_
  rw [midway_turn n populated requested rebuilding]
  refine accepts_loop _ (fun k bound rest later => accepts_rebuild bound later) ?_
  rw [midway_turn n requested rebuilding spaced]
  refine accepts_loop _ (fun k bound rest later => accepts_pace bound later) ?_
  rw [midway_turn n rebuilding spaced measured]
  refine accepts_loop _ (fun k bound rest later => accepts_measure bound later) ⟨trivial, ?_⟩
  rw [after, midway_turn n spaced measured spaced]
  refine accepts_loop _ (fun k bound rest later => accepts_join bound later) ?_
  rw [midway_turn n measured spaced closed, ← List.append_nil (List.flatMap _ _)]
  exact accepts_loop _ (fun k bound rest later => accepts_close bound later) rfl

end Main

end Plan

end Hosk
