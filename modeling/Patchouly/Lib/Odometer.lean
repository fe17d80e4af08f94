import Mathlib.Data.List.Chain

/-!
# Odometers whose wheels depend on the digits before them

`wheel pre` lists the values of the next digit when `pre` are the digits before it, and `next pre`
walks along that list. An odometer advances its last digit; a digit that has no next value goes back
to zero and the digit before it advances.

`enumerate` lists the readings wheel by wheel. Advancing walks along that list from all zeroes
(`head?_enumerate`, `isChain_enumerate`) and fails at its end (`advance_getLast`). The list is sorted
where the wheels are (`pairwise_enumerate`).
-/

set_option autoImplicit false

namespace Patchouly.Lib.Odometer

variable {α : Type}

/-- The readings of `n` more wheels, the last one turning fastest. -/
def enumerate (wheel : List α → List α) : Nat → List α → List (List α)
  | 0, _ => [[]]
  | n + 1, pre => (wheel pre).flatMap fun d => (enumerate wheel n (pre ++ [d])).map (d :: ·)

/-- The reading after a reading of the wheels after `pre`, if there is one. -/
def advance (next : List α → α → Option α) (zero : α) : List α → List α → Option (List α)
  | _, [] => none
  | pre, d :: ds =>
      match advance next zero (pre ++ [d]) ds with
      | some ds' => some (d :: ds')
      | none => (next pre d).map fun d' => d' :: List.replicate ds.length zero

/-- `next` walks along each wheel, from `zero` to its last value. -/
structure Turns (wheel : List α → List α) (next : List α → α → Option α) (zero : α) : Prop where
  head : ∀ pre, (wheel pre).head? = some zero
  linked : ∀ pre, (wheel pre).IsChain fun d d' => next pre d = some d'
  last : ∀ pre d, (wheel pre).getLast? = some d → next pre d = none

variable {wheel : List α → List α} {next : List α → α → Option α} {zero : α}

/-- The readings: each digit is on its wheel. -/
theorem mem_enumerate {n : Nat} {pre v : List α} :
    v ∈ enumerate wheel n pre ↔
      v.length = n ∧ ∀ i d, v[i]? = some d → d ∈ wheel (pre ++ v.take i) := by
  -- on the number of digits; the wheel of each digit depends on the ones before it, `pre`
  induction n generalizing pre v with
  | zero =>
      simp only [enumerate, List.mem_singleton, List.length_eq_zero_iff]
      constructor
      · rintro rfl
        simp
      · exact And.left
  | succ n ih =>
      simp only [enumerate, List.mem_flatMap, List.mem_map]
      constructor
      · rintro ⟨d, hd, ds, hds, rfl⟩
        obtain ⟨hlen, hdigits⟩ := ih.1 hds
        refine ⟨by simp [hlen], ?_⟩
        intro i e he
        cases i with
        | zero =>
            obtain rfl : d = e := by simpa using he
            simpa using hd
        | succ i => simpa using hdigits i e (by simpa using he)
      · rintro ⟨hlen, hdigits⟩
        cases v with
        | nil => cases hlen
        | cons d ds =>
            refine ⟨d, by simpa using hdigits 0 d rfl, ds, ih.2 ⟨by simpa using hlen, ?_⟩, rfl⟩
            intro i e he
            simpa using hdigits (i + 1) e (by simpa using he)

theorem length_of_mem_enumerate {n : Nat} {pre v : List α} (h : v ∈ enumerate wheel n pre) :
    v.length = n :=
  (mem_enumerate.1 h).1

/-- Over sorted wheels the readings are in lexicographic order. -/
theorem pairwise_enumerate {lt : α → α → Prop} (h : ∀ pre, (wheel pre).Pairwise lt) (n : Nat)
    (pre : List α) : (enumerate wheel n pre).Pairwise (List.Lex lt) := by
  induction n generalizing pre with
  | zero => exact List.pairwise_singleton _ _
  | succ n ih =>
      rw [enumerate, List.pairwise_flatMap]
      constructor
      · intro d hd
        rw [List.pairwise_map]
        exact (ih (pre ++ [d])).imp List.Lex.cons
      · apply (h pre).imp
        intro d d' hlt v hv w hw
        obtain ⟨ds, -, rfl⟩ := List.mem_map.1 hv
        obtain ⟨ds', -, rfl⟩ := List.mem_map.1 hw
        exact List.Lex.rel hlt

namespace Turns

variable (T : Turns wheel next zero)

include T

/-- The first reading is all zeroes. -/
theorem head?_enumerate (n : Nat) (pre : List α) :
    (enumerate wheel n pre).head? = some (List.replicate n zero) := by
  induction n generalizing pre with
  | zero => rfl
  | succ n ih =>
      obtain ⟨ds, hds⟩ := List.head?_eq_some_iff.1 (T.head pre)
      obtain ⟨vs, hvs⟩ := List.head?_eq_some_iff.1 (ih (pre ++ [zero]))
      simp [enumerate, hds, hvs, List.replicate_succ]

theorem enumerate_ne_nil (n : Nat) (pre : List α) : enumerate wheel n pre ≠ [] := by
  intro h
  have hh := T.head?_enumerate n pre
  rw [h] at hh
  cases hh

/-- The last reading has no next one. -/
theorem advance_getLast {n : Nat} {pre v : List α}
    (h : (enumerate wheel n pre).getLast? = some v) : advance next zero pre v = none := by
  induction n generalizing pre v with
  | zero =>
      obtain rfl : v = [] := by simpa [enumerate] using h.symm
      rfl
  | succ n ih =>
      -- the last reading ends the block of the last value of the first wheel
      obtain ⟨ds, hds⟩ := List.head?_eq_some_iff.1 (T.head pre)
      have hne : wheel pre ≠ [] := by simp [hds]
      obtain ⟨init, d, hw⟩ : ∃ init d, wheel pre = init ++ [d] :=
        ⟨_, _, (List.dropLast_append_getLast hne).symm⟩
      have hlast : next pre d = none := T.last pre d (by simp [hw])
      obtain ⟨vs, ds', hvs⟩ : ∃ vs ds', enumerate wheel n (pre ++ [d]) = vs ++ [ds'] :=
        ⟨_, _, (List.dropLast_append_getLast (T.enumerate_ne_nil n (pre ++ [d]))).symm⟩
      obtain rfl : d :: ds' = v := by
        simpa [enumerate, hw, hvs, List.getLast?_append] using h
      have hrest : advance next zero (pre ++ [d]) ds' = none := ih (by simp [hvs])
      simp [advance, hrest, hlast]

/-- Advancing walks along the enumeration. -/
theorem isChain_enumerate (n : Nat) (pre : List α) :
    (enumerate wheel n pre).IsChain fun v v' => advance next zero pre v = some v' := by
  induction n generalizing pre with
  | zero => exact List.isChain_singleton _
  | succ n ih =>
      have hblocks : [] ∉ (wheel pre).map fun d =>
          (enumerate wheel n (pre ++ [d])).map (d :: ·) := by
        intro h
        obtain ⟨d, -, hd⟩ := List.mem_map.1 h
        exact T.enumerate_ne_nil n _ (List.map_eq_nil_iff.1 hd)
      rw [enumerate, List.flatMap_def, List.isChain_flatten hblocks]
      constructor
      · -- inside a block the first digit stays
        intro block hb
        obtain ⟨d, -, rfl⟩ := List.mem_map.1 hb
        rw [List.isChain_map]
        apply (ih (pre ++ [d])).imp
        intro v v' hv
        simp [advance, hv]
      · -- from a block to the next one the first digit advances and the others go to zero
        rw [List.isChain_map]
        apply (T.linked pre).imp
        intro d d' hd x hx y hy
        obtain ⟨v, hv, rfl⟩ : ∃ v, (enumerate wheel n (pre ++ [d])).getLast? = some v ∧
            d :: v = x := by
          simpa [List.getLast?_map] using hx
        obtain rfl : d' :: List.replicate n zero = y := by
          simpa [List.head?_map, T.head?_enumerate] using hy
        have hlen := length_of_mem_enumerate (List.mem_of_getLast? hv)
        simp [advance, T.advance_getLast hv, hd, hlen]

end Turns

end Patchouly.Lib.Odometer
