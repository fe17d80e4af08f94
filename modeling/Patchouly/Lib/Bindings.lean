import Mathlib.Data.List.Nodup
import Mathlib.Logic.Function.Basic

/-!
# Environments and bindings

An environment maps names to values. `bindAll` binds names to values one after the other, so a later
binding of a name shadows an earlier one. Binding distinct names gives each its own value
(`bindAll_getElem`) and leaves the others alone (`bindAll_of_notMem`).
-/

set_option autoImplicit false

namespace Patchouly.Lib

variable {α β : Type} [DecidableEq α]

def bindAll (env : α → Option β) : List α → List β → α → Option β
  | x :: xs, v :: vs => bindAll (Function.update env x (some v)) xs vs
  | _, _ => env

@[simp] theorem bindAll_nil (env : α → Option β) (vs : List β) : bindAll env [] vs = env := by
  cases vs <;> rfl

theorem bindAll_of_notMem {env : α → Option β} {xs : List α} {vs : List β} {x : α} (h : x ∉ xs) :
    bindAll env xs vs x = env x := by
  induction xs generalizing env vs with
  | nil => rw [bindAll_nil]
  | cons y xs ih =>
      have hy : x ≠ y := fun he => h (he ▸ List.mem_cons_self)
      have hxs : x ∉ xs := fun hm => h (List.mem_cons_of_mem y hm)
      cases vs with
      | nil => rfl
      | cons v vs => rw [bindAll, ih hxs, Function.update_of_ne hy]

theorem bindAll_getElem {env : α → Option β} {xs : List α} {vs : List β} (hxs : xs.Nodup) {i : Nat}
    {x : α} {v : β} (hx : xs[i]? = some x) (hv : vs[i]? = some v) :
    bindAll env xs vs x = some v := by
  induction xs generalizing env vs i with
  | nil => cases hx
  | cons y xs ih =>
      obtain ⟨hy, hxs⟩ := List.nodup_cons.1 hxs
      cases vs with
      | nil => cases hv
      | cons w vs =>
          cases i with
          | zero =>
              obtain rfl : y = x := by simpa using hx
              obtain rfl : w = v := by simpa using hv
              rw [bindAll, bindAll_of_notMem hy, Function.update_self]
          | succ i => exact ih hxs (by simpa using hx) (by simpa using hv)

/-- A value that depends on the name only. -/
theorem bindAll_map_of_mem {env : α → Option β} {xs : List α} {f : α → β} {x : α} (h : x ∈ xs) :
    bindAll env xs (xs.map f) x = some (f x) := by
  induction xs generalizing env with
  | nil => cases h
  | cons y xs ih =>
      rw [List.map_cons, bindAll]
      by_cases hx : x ∈ xs
      · exact ih hx
      · obtain rfl := (List.mem_cons.1 h).resolve_right hx
        rw [bindAll_of_notMem hx, Function.update_self]

/-- A name that is bound stays bound. -/
theorem isSome_bindAll {env : α → Option β} {xs : List α} {vs : List β} {x : α}
    (h : (env x).isSome ∨ x ∈ xs ∧ xs.length = vs.length) : (bindAll env xs vs x).isSome := by
  -- on the names; each binding changes the environment of the rest
  induction xs generalizing env vs with
  | nil =>
      rcases h with h | ⟨h, -⟩
      · rwa [bindAll_nil]
      · cases h
  | cons y xs ih =>
      cases vs with
      | nil =>
          rcases h with h | ⟨-, h⟩
          · exact h
          · cases h
      | cons v vs =>
          rw [bindAll]
          apply ih
          by_cases hy : x = y
          · left
            rw [hy, Function.update_self]
            rfl
          · rw [Function.update_of_ne hy]
            apply h.imp_right
            rintro ⟨hm, hlen⟩
            exact ⟨(List.mem_cons.1 hm).resolve_left hy, Nat.succ.inj hlen⟩

end Patchouly.Lib
