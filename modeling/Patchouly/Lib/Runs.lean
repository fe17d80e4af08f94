import Mathlib.Logic.Basic

/-!
# Runs of a transition system

A `System` has initial states and labelled steps. `Reachable` collects the states of its runs, and
`Reachable.invariant` is the induction over a run. `guard` restricts a system to the steps whose
label meets a condition in the state before the step, and `recorded` adds a record of what the steps
give out.
-/

set_option autoImplicit false

namespace Patchouly.Lib

structure System (σ α : Type) where
  init : σ → Prop
  step : σ → α → σ → Prop

namespace System

variable {σ α τ β : Type}

/-- The states of the runs of a system. -/
inductive Reachable (S : System σ α) : σ → Prop
  | init {s : σ} (h : S.init s) : Reachable S s
  | step {s s' : σ} (a : α) (hs : Reachable S s) (h : S.step s a s') : Reachable S s'

/-- **Induction over a run**: what holds initially and is kept by every step holds throughout. -/
theorem Reachable.invariant {S : System σ α} {I : σ → Prop} (h0 : ∀ s, S.init s → I s)
    (hstep : ∀ s a s', S.Reachable s → I s → S.step s a s' → I s') {s : σ} (h : S.Reachable s) :
    I s := by
  induction h with
  | init h => exact h0 _ h
  | step a hs h ih => exact hstep _ a _ hs ih h

/-- Only the steps that meet `G` in the state before. -/
def guard (S : System σ α) (G : σ → α → Prop) : System σ α where
  init := S.init
  step s a s' := G s a ∧ S.step s a s'

/-- A run of the guarded system is a run. -/
theorem Reachable.of_guard {S : System σ α} {G : σ → α → Prop} {s : σ}
    (h : (S.guard G).Reachable s) : S.Reachable s := by
  induction h with
  | init h => exact .init h
  | step a hs h ih => exact .step a ih h.2

/-- A guard that every step meets changes nothing. -/
theorem Reachable.guard_of_forall {S : System σ α} {G : σ → α → Prop} (hG : ∀ s a, G s a) {s : σ}
    (h : S.Reachable s) : (S.guard G).Reachable s := by
  induction h with
  | init h => exact .init h
  | step a hs h ih => exact .step a ih ⟨hG _ a, h⟩

/-- A guard may be replaced by one that follows from it in every state of the run. -/
theorem Reachable.guard_mono {S : System σ α} {G G' : σ → α → Prop}
    (hG : ∀ s a, (S.guard G).Reachable s → G s a → G' s a) {s : σ} (h : (S.guard G).Reachable s) :
    (S.guard G').Reachable s := by
  induction h with
  | init h => exact .init h
  | step a hs h ih => exact .step a ih ⟨hG _ a hs h.1, h.2⟩

/-! ## Records -/

/-- A state with a record of what the steps have given out. -/
structure Recorded (σ β : Type) where
  state : σ
  record : List β

/-- The system with a record, to which every step appends what it gives out. -/
def recorded (S : System σ α) (out : σ → α → List β) : System (Recorded σ β) α where
  init r := S.init r.state ∧ r.record = []
  step r a r' := S.step r.state a r'.state ∧ r'.record = r.record ++ out r.state a

/-- A run with a record is a run. -/
theorem Reachable.of_recorded {S : System σ α} {out : σ → α → List β} {r : Recorded σ β}
    (h : (S.recorded out).Reachable r) : S.Reachable r.state := by
  induction h with
  | init h => exact .init h.1
  | step a hs h ih => exact .step a ih h.1

/-! ## Computed runs -/

section Computed

/-- The state after the labels of a list, for a system whose step is a function. -/
def runAll (next : σ → α → Option σ) : List α → σ → Option σ
  | [], s => some s
  | a :: as, s => (next s a).bind (runAll next as)

/-- The same, stopping at a step that does not meet `ok`. -/
def runGuarded (next : σ → α → Option σ) (ok : σ → α → Bool) : List α → σ → Option σ
  | [], s => some s
  | a :: as, s => if ok s a then (next s a).bind (runGuarded next ok as) else none

/-- A computed step with its record. -/
def Recorded.next (next : σ → α → Option σ) (out : σ → α → List β) (r : Recorded σ β) (a : α) :
    Option (Recorded σ β) :=
  (next r.state a).map fun s => ⟨s, r.record ++ out r.state a⟩

variable {S : System σ α} {next : σ → α → Option σ}

theorem Recorded.step_of_next {out : σ → α → List β}
    (hstep : ∀ s a s', next s a = some s' → S.step s a s') {r r' : Recorded σ β} {a : α}
    (h : r.next next out a = some r') : (S.recorded out).step r a r' := by
  obtain ⟨s, hs, rfl⟩ := Option.map_eq_some_iff.1 h
  exact ⟨hstep r.state a s hs, rfl⟩

theorem reachable_of_runAll (hstep : ∀ s a s', next s a = some s' → S.step s a s') {as : List α}
    {s s' : σ} (hs : S.Reachable s) (h : runAll next as s = some s') : S.Reachable s' := by
  induction as generalizing s with
  | nil =>
      obtain rfl := Option.some.inj h
      exact hs
  | cons a as ih =>
      obtain ⟨m, hm, hrest⟩ := Option.bind_eq_some_iff.1 h
      exact ih (.step a hs (hstep s a m hm)) hrest

/-- The guard of the actions that are in the list. -/
theorem reachable_of_runGuarded_mem {G : σ → α → Prop} {ok : σ → α → Bool}
    (hstep : ∀ s a s', next s a = some s' → S.step s a s') {as : List α}
    (hok : ∀ s, ∀ a ∈ as, ok s a = true → G s a) {s s' : σ} (hs : (S.guard G).Reachable s)
    (h : runGuarded next ok as s = some s') : (S.guard G).Reachable s' := by
  induction as generalizing s with
  | nil =>
      obtain rfl := Option.some.inj h
      exact hs
  | cons a as ih =>
      rw [runGuarded] at h
      split at h
      · next ha =>
        obtain ⟨m, hm, hrest⟩ := Option.bind_eq_some_iff.1 h
        exact ih (fun s b hb => hok s b (List.mem_cons_of_mem a hb))
          (.step a hs ⟨hok s a List.mem_cons_self ha, hstep s a m hm⟩) hrest
      · cases h

theorem reachable_of_runGuarded {G : σ → α → Prop} {ok : σ → α → Bool}
    (hstep : ∀ s a s', next s a = some s' → S.step s a s') (hok : ∀ s a, ok s a = true → G s a)
    {as : List α} {s s' : σ} (hs : (S.guard G).Reachable s)
    (h : runGuarded next ok as s = some s') : (S.guard G).Reachable s' :=
  reachable_of_runGuarded_mem hstep (fun s a _ => hok s a) hs h

end Computed

end System

end Patchouly.Lib
