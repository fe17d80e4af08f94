import Mathlib.Logic.Relation

/-!
# Deterministic machines

A machine is a function that moves to a next state or gives a result. `Halts` says that it gives a
result from a state. `Simulation` relates two machines: a move of the first is matched by moves of the
second, by none only if a measure of the first gets smaller. Then both halt from related states, with
related results, or neither does (`Simulation.halts`, `Simulation.halts_back`).
-/

set_option autoImplicit false

namespace Patchouly.Lib

section Machine

variable {σ ρ : Type} {next : σ → σ ⊕ ρ}

/-- After `n` moves from a state the machine gives a result. -/
inductive HaltsIn (next : σ → σ ⊕ ρ) : Nat → σ → ρ → Prop
  | result {s : σ} {r : ρ} (h : next s = .inr r) : HaltsIn next 0 s r
  | move {n : Nat} {s s' : σ} {r : ρ} (h : next s = .inl s') (hr : HaltsIn next n s' r) :
      HaltsIn next (n + 1) s r

def Halts (next : σ → σ ⊕ ρ) (s : σ) (r : ρ) : Prop := ∃ n, HaltsIn next n s r

/-- One move. -/
def Moves (next : σ → σ ⊕ ρ) (s s' : σ) : Prop := next s = .inl s'

theorem Halts.result {s : σ} {r : ρ} (h : next s = .inr r) : Halts next s r := ⟨0, .result h⟩

theorem Halts.move {s s' : σ} {r : ρ} (h : next s = .inl s') (hr : Halts next s' r) :
    Halts next s r := by
  obtain ⟨n, hn⟩ := hr
  exact ⟨n + 1, .move h hn⟩

/-- **Determinism**: the result and the number of moves are unique. -/
theorem HaltsIn.unique {n m : Nat} {s : σ} {r r' : ρ} (h : HaltsIn next n s r)
    (h' : HaltsIn next m s r') : n = m ∧ r = r' := by
  induction h generalizing m with
  | result hres =>
      cases h' with
      | result hres' => exact ⟨rfl, Sum.inr.inj (hres.symm.trans hres')⟩
      | move hmove' _ => cases hres.symm.trans hmove'
  | move hmove _ ih =>
      cases h' with
      | result hres' => cases hmove.symm.trans hres'
      | move hmove' hr' =>
          obtain rfl := Sum.inl.inj (hmove.symm.trans hmove')
          obtain ⟨rfl, rfl⟩ := ih hr'
          exact ⟨rfl, rfl⟩

theorem Halts.unique {s : σ} {r r' : ρ} (h : Halts next s r) (h' : Halts next s r') : r = r' := by
  obtain ⟨n, hn⟩ := h
  obtain ⟨m, hm⟩ := h'
  exact (hn.unique hm).2

theorem halts_of_result {s : σ} {r : ρ} (h : next s = .inr r) {r' : ρ} :
    Halts next s r' ↔ r' = r := by
  constructor
  · intro h'
    exact h'.unique (.result h)
  · rintro rfl
    exact .result h

theorem haltsIn_of_result {n : Nat} {s : σ} {r r' : ρ} (h : next s = .inr r) :
    HaltsIn next n s r' ↔ n = 0 ∧ r' = r := by
  constructor
  · intro h'
    exact h'.unique (.result h)
  · rintro ⟨rfl, rfl⟩
    exact .result h

theorem haltsIn_of_move {n : Nat} {s s' : σ} {r : ρ} (h : next s = .inl s') :
    HaltsIn next n s r ↔ ∃ m, n = m + 1 ∧ HaltsIn next m s' r := by
  constructor
  · intro hn
    cases hn with
    | result hres => cases hres.symm.trans h
    | move hmove hr =>
        obtain rfl := Sum.inl.inj (hmove.symm.trans h)
        exact ⟨_, rfl, hr⟩
  · rintro ⟨m, rfl, hm⟩
    exact .move h hm

theorem halts_of_move {s s' : σ} {r : ρ} (hmove : next s = .inl s') :
    Halts next s r ↔ Halts next s' r := by
  constructor
  · rintro ⟨n, h⟩
    obtain ⟨m, -, hm⟩ := (haltsIn_of_move hmove).1 h
    exact ⟨m, hm⟩
  · exact .move hmove

/-- A run that halts passes through everything it can reach. -/
theorem HaltsIn.of_moves {n : Nat} {s s' : σ} {r : ρ} (h : HaltsIn next n s r)
    (hmoves : Relation.ReflTransGen (Moves next) s s') : ∃ m ≤ n, HaltsIn next m s' r := by
  induction hmoves with
  | refl => exact ⟨n, Nat.le_refl n, h⟩
  | tail _ hmove ih =>
      obtain ⟨m, hle, hm⟩ := ih
      obtain ⟨k, rfl, hk⟩ := (haltsIn_of_move hmove).1 hm
      exact ⟨k, by omega, hk⟩

theorem HaltsIn.of_moves_pos {n : Nat} {s s' : σ} {r : ρ} (h : HaltsIn next n s r)
    (hmoves : Relation.TransGen (Moves next) s s') : ∃ m < n, HaltsIn next m s' r := by
  obtain ⟨t, hmove, hrest⟩ := Relation.TransGen.head'_iff.1 hmoves
  obtain ⟨k, rfl, hk⟩ := (haltsIn_of_move hmove).1 h
  obtain ⟨m, hle, hm⟩ := hk.of_moves hrest
  exact ⟨m, by omega, hm⟩

theorem halts_of_moves {s s' : σ} {r : ρ} (hmoves : Relation.ReflTransGen (Moves next) s s') :
    Halts next s r ↔ Halts next s' r := by
  induction hmoves with
  | refl => exact Iff.rfl
  | tail _ hmove ih => exact ih.trans (halts_of_move hmove)

/-- What every move keeps holds of all states that are reached. -/
theorem invariant_of_moves {P : σ → Prop} (hstep : ∀ s s', P s → next s = .inl s' → P s') {s s' : σ}
    (hs : P s) (hmoves : Relation.ReflTransGen (Moves next) s s') : P s' := by
  induction hmoves with
  | refl => exact hs
  | tail _ hmove ih => exact hstep _ _ ih hmove

end Machine

/-! ## Simulation -/

section Simulation

variable {σ τ ρ ρ' : Type} {f : σ → σ ⊕ ρ} {g : τ → τ ⊕ ρ'} {R : σ → τ → Prop} {Q : ρ → ρ' → Prop}
  {size : σ → Nat}

/-- The machine `g` follows the machine `f` along `R`, with results related by `Q`. -/
structure Simulation (f : σ → σ ⊕ ρ) (g : τ → τ ⊕ ρ') (R : σ → τ → Prop) (Q : ρ → ρ' → Prop)
    (size : σ → Nat) : Prop where
  move : ∀ s t s', R s t → f s = .inl s' → ∃ t', R s' t' ∧
    (Relation.TransGen (Moves g) t t' ∨
      Relation.ReflTransGen (Moves g) t t' ∧ size s' < size s)
  result : ∀ s t r, R s t → f s = .inr r → ∃ r', Q r r' ∧ Halts g t r'

namespace Simulation

theorem halts (h : Simulation f g R Q size) {s : σ} {t : τ} {r : ρ} (hst : R s t)
    (hs : Halts f s r) : ∃ r', Q r r' ∧ Halts g t r' := by
  obtain ⟨n, hn⟩ := hs
  induction hn generalizing t with
  | result hres => exact h.result _ _ _ hst hres
  | move hmove _ ih =>
      obtain ⟨t', hst', hmoves⟩ := h.move _ _ _ hst hmove
      obtain ⟨r', hq, hhalts⟩ := ih hst'
      have hreach : Relation.ReflTransGen (Moves g) t t' :=
        hmoves.elim Relation.TransGen.to_reflTransGen And.left
      exact ⟨r', hq, (halts_of_moves hreach).2 hhalts⟩

/-- A run of `g` that halts has a run of `f` behind it. The induction is on the moves of `g` that are
left, and among the moves of `f` that `g` does not see on the measure. -/
theorem halts_back (h : Simulation f g R Q size) {s : σ} {t : τ} {r' : ρ'} (hst : R s t)
    (ht : Halts g t r') : ∃ r, Q r r' ∧ Halts f s r := by
  obtain ⟨n, hn⟩ := ht
  induction n using Nat.strongRecOn generalizing s t with
  | _ n ihn =>
    induction hk : size s using Nat.strongRecOn generalizing s t with
    | _ k ihk =>
      cases hf : f s with
      | inr r =>
          obtain ⟨r'', hq, hhalts⟩ := h.result _ _ _ hst hf
          obtain rfl : r'' = r' := hhalts.unique ⟨n, hn⟩
          exact ⟨r, hq, .result hf⟩
      | inl s' =>
          obtain ⟨t', hst', hpos | ⟨hmoves, hsize⟩⟩ := h.move _ _ _ hst hf
          · obtain ⟨m, hlt, hm⟩ := hn.of_moves_pos hpos
            obtain ⟨r, hq, hr⟩ := ihn m hlt hst' hm
            exact ⟨r, hq, .move hf hr⟩
          · obtain ⟨m, hle, hm⟩ := hn.of_moves hmoves
            rcases Nat.lt_or_eq_of_le hle with hlt | rfl
            · obtain ⟨r, hq, hr⟩ := ihn m hlt hst' hm
              exact ⟨r, hq, .move hf hr⟩
            · obtain ⟨r, hq, hr⟩ := ihk (size s') (hk ▸ hsize) hst' hm rfl
              exact ⟨r, hq, .move hf hr⟩

end Simulation

end Simulation

end Patchouly.Lib
