import Hosk.SystemLinearizable

/-! The program on the allocators of its enclaves, with `nfree` as it is. -/

namespace Hosk

open Linearizability

def Machine.Numa (machine : Machine) : Prop := ∀ i, machine.platform i = numa

namespace System

variable {machine : Machine} {s s' : System} {i : Nat} {act : SystemAct} {call : Call}

/-- With this action the helper of an enclave makes a call. -/
inductive Helps (s : System) (i : Nat) : SystemAct → Call → Prop where
  | job {op : Op} : (s.rings i).removing = .returning op → Helps s i (.remove i) (.job op.job)
  | pass : (s.rings i).removing = .idle → Helps s i (.pass i) .pass
  | reset : (s.rings i).removing = .idle → Helps s i (.reset i) .reset

/-- What an action leaves of the enclaves. -/
inductive Changed (machine : Machine) (s : System) (act : SystemAct) (enclaves : Nat → Option Enclave) : Prop where
  | same : enclaves = s.enclaves → Changed machine s act enclaves
  | called (i : Nat) (call : Call) (e e' : Enclave) : s.Helps i act call → s.enclave i = some e →
      e.call (machine.platform i) call = some e' →
      enclaves = Function.update s.enclaves i (some e') → Changed machine s act enclaves

theorem helps_changed {s₀ : System} (acted : s₀.helps (machine.platform i) i call = some s')
    (helps : s.Helps i act call) (same : s₀.enclave i = s.enclave i) (others : s₀.enclaves = s.enclaves) :
    Changed machine s act s'.enclaves := by
  rw [System.helps, same] at acted
  simp only [Option.bind_eq_bind, Option.bind_eq_some_iff, Option.some.injEq] at acted
  obtain ⟨e, isEnclave, e', called, rfl⟩ := acted
  exact .called i call e e' helps isEnclave called (by rw [others])

theorem between_changed (acted : s.between (machine.platform i) i call = some s')
    (helps : (s.rings i).removing = .idle → s.Helps i act call) : Changed machine s act s'.enclaves := by
  rw [System.between] at acted
  split at acted
  · rename_i idle
    exact helps_changed acted (helps idle) rfl rfl
  · obtain rfl := Option.some.inj acted
    exact .same rfl

theorem app_enclaves {malloc : Malloc} (acted : s.app i malloc = some s') : s'.enclaves = s.enclaves := by
  rw [System.app] at acted
  split at acted
  · obtain rfl := Option.some.inj acted
    rfl
  · obtain rfl := Option.some.inj acted
    rfl
  · simp only [Option.bind_eq_bind, Option.bind_eq_some_iff, Option.some.injEq] at acted
    obtain ⟨_, _, _, _, rfl⟩ := acted
    rfl
  · obtain rfl := Option.some.inj acted
    rw [System.finish]
    split <;> rfl
  · split at acted
    · simp only [Option.bind_eq_bind, Option.bind_eq_some_iff, Option.some.injEq] at acted
      obtain ⟨_, _, rfl⟩ := acted
      rfl
    · obtain rfl := Option.some.inj acted
      rfl
  · obtain rfl := Option.some.inj acted
    rfl

theorem act_changed (acted : s.act machine act = some s') : Changed machine s act s'.enclaves := by
  cases act with
  | call i optype key =>
      simp only [System.act, System.call] at acted
      split at acted
      · simp only [Option.bind_eq_bind, Option.bind_eq_some_iff, Option.some.injEq] at acted
        obtain ⟨_, _, rfl⟩ := acted
        exact .same rfl
      · obtain rfl := Option.some.inj acted
        exact .same rfl
  | app i malloc => exact .same (app_enclaves acted)
  | remove i =>
      simp only [System.act, System.remove] at acted
      split at acted
      · rename_i op returning
        exact helps_changed acted (.job returning) rfl rfl
      · obtain rfl := Option.some.inj acted
        exact .same rfl
  | pass i => exact between_changed acted .pass
  | reset i => exact between_changed acted .reset

/-- This holds of what the allocator of each enclave has done. -/
def Traces (held : Nat → List Event → Prop) (s : System) : Prop :=
  ∀ i e, s.enclaves i = some e → held i e.trace

/-- A helper has only handed out blocks one behind the other. -/
def TidyBlocks (s : System) : Prop := s.Traces fun _ => Tidy

/-- No operation has the key of the sentinel. A pass that lowers its index drops the row cleanly, without
an inode of it for which `nfree` would take another block, and takes nothing from under a search of its own
application thread; there is no such search when the index is reset. -/
def Sound (s : System) : SystemAct → Prop
  | .call _ _ key => 1 ≤ key
  | .pass i => ∀ e, s.enclave i = some e → (s.rings i).removing = .idle → e.SoundPass ∧
      ∀ op pc, s.apps i = .searching op pc → e.PassesBy numa pc.inodes ∧ e.SearchSpared op.key pc
  | .reset i => ∀ op pc, s.apps i ≠ .searching op pc
  | _ => True

end System

variable {machine : Machine} {s s' : System} {linked : List Nat}
  {inner : AtomicState (Finset Nat) Operation Nat} {i : Nat} {act : SystemAct} {call : Call}

theorem SystemOk.seen (ok : SystemOk machine s linked inner) {e : Enclave} (isEnclave : s.enclave i = some e) :
    ∃ l, Repr e l ∧ Replays ((s.rings i).returned.map Op.job) (abs e l).entries ∧
      ∀ op pc, s.apps i = .searching op pc → ∃ left, Standing (· ∈ linked) e l op.key pc left := by
  obtain ⟨before, l, isBefore, repr, _, replays, stands⟩ := ok.helpers i
  rw [System.enclave, isBefore] at isEnclave
  obtain rfl := Option.some.inj isEnclave
  exact ⟨l, repr, replays, fun op pc searching => (stands op pc searching).2.2⟩

theorem System.Traces.at {held : Nat → List Event → Prop} (traces : s.Traces held) {e : Enclave}
    (isEnclave : s.enclave i = some e) : held i e.trace := by
  obtain ⟨before, isBefore, rfl⟩ := Option.map_eq_some_iff.mp isEnclave
  exact traces i before isBefore

theorem System.Traces.onward {held : Nat → List Event → Prop} (traces : s.Traces held)
    (acted : s.act machine act = some s') (ends : ∀ i call e, s.Helps i act call →
      s.enclave i = some e → Ends (e.call (machine.platform i) call) fun e' => held i e'.trace) :
    s'.Traces held := by
  intro j e isEnclave
  cases System.act_changed acted with
  | same kept =>
      rw [kept] at isEnclave
      exact traces j e isEnclave
  | called i call before after helps isBefore called changed =>
      rw [changed] at isEnclave
      by_cases same : j = i
      · subst same
        rw [Function.update_self] at isEnclave
        obtain rfl := Option.some.inj isEnclave
        exact ends j call before helps isBefore _ called
      · rw [Function.update_of_ne same] at isEnclave
        exact traces j e isEnclave

theorem System.TidyBlocks.at (tidy : s.TidyBlocks) {e : Enclave} (isEnclave : s.enclave i = some e) :
    Tidy e.trace :=
  System.Traces.at tidy isEnclave

theorem System.Sound.twins (isNuma : machine.Numa) (ok : SystemOk machine s linked inner) (tidy : s.TidyBlocks)
    (sound : s.Sound act) (helps : s.Helps i act call) {e : Enclave} (isEnclave : s.enclave i = some e) :
    Twins (e.call (machine.platform i) call) (e.call (machine.platform i).guarded call)
      fun e' => Tidy e'.trace := by
  obtain ⟨l, repr, _⟩ := ok.seen isEnclave
  rw [isNuma i]
  refine repr.call_twins (tidy.at isEnclave) call ?_
  cases helps with
  | job _ | reset _ => exact nofun
  | pass idle => exact fun _ => (sound e isEnclave idle).1.2

theorem System.Sound.undisturbed (isNuma : machine.Numa) (ok : SystemOk machine s linked inner)
    (tidy : s.TidyBlocks) (sound : s.Sound act) : s.Undisturbed machine act := by
  have frees : ∀ {i call}, s.Helps i act call → ∀ e, s.enclave i = some e →
      e.FreesGiven (machine.platform i) call :=
    fun helps e isEnclave => (sound.twins isNuma ok tidy helps isEnclave).same
  cases act with
  | call i optype key => exact sound
  | app i malloc => exact trivial
  | remove i => exact fun e op isEnclave returning => frees (.job returning) e isEnclave
  | reset i => exact ⟨fun e isEnclave idle => frees (.reset idle) e isEnclave, sound⟩
  | pass i =>
      intro e isEnclave idle
      obtain ⟨l, repr, _⟩ := ok.seen isEnclave
      have blocks := tidy.at isEnclave
      obtain ⟨passes, searches⟩ := sound e isEnclave idle
      refine ⟨frees (.pass idle) e isEnclave, ?_, fun op pc searching => ?_⟩
      · rw [isNuma i]
        exact (repr.cleanPass_iff blocks).mp passes.1
      · rw [isNuma i]
        obtain ⟨passesBy, spared⟩ := searches op pc searching
        exact ⟨(repr.passesBy_iff blocks _).mp passesBy, spared⟩

theorem System.TidyBlocks.onward (isNuma : machine.Numa) (ok : SystemOk machine s linked inner)
    (tidy : s.TidyBlocks) (sound : s.Sound act) (acted : s.act machine act = some s') : s'.TidyBlocks :=
  System.Traces.onward tidy acted fun _ _ _ helps isEnclave =>
    (sound.twins isNuma ok tidy helps isEnclave).ends

/-- From `thread_init` on. -/
def Machine.Soundly (machine : Machine) (acts : List SystemAct) : Prop :=
  Runs.Along (System.turn machine) (fun state act => ∀ s, state = some s → s.Sound act)
    (some machine.startSystem) acts

theorem Machine.Numa.starts (isNuma : machine.Numa) : machine.startSystem.TidyBlocks ∧
    ∀ i, machine.startSystem.enclaves i = Enclave.threadInit (machine.platform i).guarded
      (DataLayer.new machine.head).nodes machine.head := by
  have twins := Enclave.threadInit_twins numa_agree trivial (DataLayer.new machine.head).nodes machine.head
  have begins : ∀ i, machine.startSystem.enclaves i =
      Enclave.threadInit numa (DataLayer.new machine.head).nodes machine.head := by
    intro i
    rw [← isNuma i]
    rfl
  refine ⟨fun i e isEnclave => twins.ends e ((begins i).symm.trans isEnclave), fun i => ?_⟩
  rw [isNuma i]
  exact (begins i).trans twins.same

/-- On the allocators as they are, what is said of undisturbed runs holds of those whose lowerings are
sound. -/
theorem Machine.undisturbed_of_sound (isNuma : machine.Numa) {acts : List SystemAct}
    (soundly : machine.Soundly acts) : machine.Undisturbed acts := by
  have along : ∀ (acts : List SystemAct) s linked inner, SystemOk machine s linked inner → s.TidyBlocks →
      Runs.Along (System.turn machine) (fun state act => ∀ s, state = some s → s.Sound act) (some s) acts →
      Runs.Along (System.turn machine) (fun state act => ∀ s, state = some s → s.Undisturbed machine act)
        (some s) acts := by
    intro acts
    induction acts with
    | nil => exact fun _ _ _ _ _ _ => trivial
    | cons act rest ih =>
        rintro s linked inner ok tidy ⟨now, later⟩
        have sound := now s rfl
        have undisturbed := sound.undisturbed isNuma ok tidy
        obtain ⟨middle, linked', inner', acted, moves, _⟩ := ok.act_goes act undisturbed
        have turned : System.turn machine (some s) act = some middle := acted
        refine ⟨fun other same => Option.some.inj same ▸ undisturbed, ?_⟩
        rw [turned] at later ⊢
        exact ih middle linked' inner' (moves.ok ok) (tidy.onward isNuma ok sound acted) later
  obtain ⟨tidy, begins⟩ := isNuma.starts
  exact ⟨begins, along acts _ _ _ (SystemOk.initial machine begins) tidy soundly⟩

end Hosk
