import Mathlib.Data.List.Infix

/-!
# Pools of lists

A pool keeps lists one behind the other in one array, each followed by a stop element, and remembers
where each of them starts. `intern` looks a list up and appends it when it is new.

A list that stands in the pool stays where it is (`StandsAt.append`), so a start can be kept while the
pool grows.
-/

set_option autoImplicit false

namespace Patchouly.Lib

variable {α : Type}

/-- `xs` stands at position `i` of `data`. -/
def StandsAt (data : List α) (i : Nat) (xs : List α) : Prop := xs <+: data.drop i

theorem StandsAt.append {data xs : List α} {i : Nat} (h : StandsAt data i xs) (more : List α) :
    StandsAt (data ++ more) i xs := by
  rw [StandsAt]
  rw [List.drop_append]
  exact List.IsPrefix.trans h (List.prefix_append _ _)

theorem StandsAt.extend {data data' xs : List α} {i : Nat} (h : StandsAt data i xs)
    (hdata : data <+: data') : StandsAt data' i xs := by
  obtain ⟨more, rfl⟩ := hdata
  exact h.append more

theorem standsAt_end (data xs : List α) : StandsAt (data ++ xs) data.length xs := by
  rw [StandsAt, List.drop_left]

/-- A list that is not empty stands inside the array. -/
theorem StandsAt.lt_length {data xs : List α} {i : Nat} {x : α} (h : StandsAt data i (xs ++ [x])) :
    i < data.length := by
  have hlen := h.length_le
  rw [List.length_append, List.length_singleton, List.length_drop] at hlen
  omega

structure Pool (α : Type) where
  data : List α
  starts : List (List α × Nat)

namespace Pool

/-- The place of `xs`, and the pool in which it stands there. -/
def intern [DecidableEq α] (stop : α) (xs : List α) (pool : Pool α) : Nat × Pool α :=
  match pool.starts.lookup xs with
  | some start => (start, pool)
  | none =>
      (pool.data.length,
        ⟨pool.data ++ (xs ++ [stop]), (xs, pool.data.length) :: pool.starts⟩)

/-- Every remembered start is one. -/
def Interned [DecidableEq α] (stop : α) (pool : Pool α) : Prop :=
  ∀ xs start, pool.starts.lookup xs = some start → StandsAt pool.data start (xs ++ [stop])

variable [DecidableEq α] {stop : α} {pool : Pool α}

theorem interned_empty : Interned stop ⟨[], []⟩ := by
  intro xs start h
  cases h

/-- The pool only grows. -/
theorem prefix_intern (stop : α) (xs : List α) (pool : Pool α) :
    pool.data <+: (pool.intern stop xs).2.data := by
  rw [intern]
  split
  · exact List.prefix_refl _
  · exact List.prefix_append _ _

/-- The list stands where `intern` says, and `intern` keeps the invariant. -/
theorem Interned.intern (h : Interned stop pool) (xs : List α) :
    Interned stop (pool.intern stop xs).2 ∧
      StandsAt (pool.intern stop xs).2.data (pool.intern stop xs).1 (xs ++ [stop]) := by
  rw [Pool.intern]
  split
  · next start hstart => exact ⟨h, h xs start hstart⟩
  · next hnew =>
    refine ⟨?_, standsAt_end pool.data _⟩
    intro ys start hys
    rw [List.lookup_cons] at hys
    cases heq : ys == xs with
    | true =>
        simp only [heq, Option.some.injEq] at hys
        obtain rfl := hys
        obtain rfl := eq_of_beq heq
        exact standsAt_end pool.data _
    | false =>
        simp only [heq] at hys
        exact (h ys start hys).append _

end Pool

end Patchouly.Lib
