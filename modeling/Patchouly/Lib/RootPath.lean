import Mathlib.Data.List.Chain

/-!
# Paths from a root along a parent function

A `RootPath` starts at the root, goes from each node to a node whose parent it is, and repeats no
node. The path to a node is determined by the parents (`RootPath.unique`), so two paths that pass
through the same node agree up to it.
-/

set_option autoImplicit false

namespace Patchouly.Lib

variable {α : Type} {parent parent' : α → Option α} {root : α}

structure RootPath (parent : α → Option α) (root : α) (s : List α) : Prop where
  head : s.head? = some root
  linked : s.IsChain fun x y => parent y = some x
  nodup : s.Nodup

namespace RootPath

theorem singleton (parent : α → Option α) (root : α) : RootPath parent root [root] :=
  ⟨rfl, List.isChain_singleton _, by simp⟩

/-- More parents leave a path a path. -/
theorem mono (hgrow : ∀ x p, parent x = some p → parent' x = some p) {s : List α}
    (h : RootPath parent root s) : RootPath parent' root s :=
  ⟨h.head, h.linked.imp fun _ _ hp => hgrow _ _ hp, h.nodup⟩

theorem ne_nil {s : List α} (h : RootPath parent root s) : s ≠ [] := by
  rintro rfl
  cases h.head

/-- A path ends in some node. -/
theorem exists_last {s : List α} (h : RootPath parent root s) : ∃ init p, s = init ++ [p] :=
  ⟨s.dropLast, s.getLast h.ne_nil, (List.dropLast_append_getLast h.ne_nil).symm⟩

/-- One more node at the end. -/
theorem push {s : List α} {p x : α} (h : RootPath parent root (s ++ [p]))
    (hx : parent x = some p) (hnew : x ∉ s ++ [p]) : RootPath parent root (s ++ [p] ++ [x]) where
  head := by
    rw [List.head?_append, h.head]
    rfl
  linked := by
    rw [List.append_assoc]
    exact List.isChain_append_cons_cons.2 ⟨h.linked, hx, List.isChain_singleton _⟩
  nodup := by
    rw [List.nodup_append]
    refine ⟨h.nodup, by simp, ?_⟩
    intro a ha b hb he
    rw [List.mem_singleton.1 hb] at he
    exact hnew (he ▸ ha)

/-- A nonempty initial part of a path is a path. -/
theorem of_append {s t : List α} (h : RootPath parent root (s ++ t)) (hs : s ≠ []) :
    RootPath parent root s where
  head := by
    have hh := h.head
    cases s with
    | nil => exact absurd rfl hs
    | cons a s => exact hh
  linked := h.linked.left_of_append
  nodup := (List.nodup_append.1 h.nodup).1

theorem parent_of_append {s : List α} {p x : α} (h : RootPath parent root (s ++ [p, x])) :
    parent x = some p :=
  (List.isChain_append_cons_cons.1 h.linked).2.1

/-- **The path to a node is unique.** -/
theorem unique {s t : List α} {p : α} (hs : RootPath parent root (s ++ [p]))
    (ht : RootPath parent root (t ++ [p])) : s = t := by
  -- a path with a node before `p` has not returned to the root
  have hroot : ∀ {u : List α} {q : α}, RootPath parent root (u ++ [q] ++ [root]) → False := by
    intro u q hu
    have hh := hu.head
    have hmem : root ∈ u ++ [q] := by
      cases u with
      | nil => exact List.mem_of_mem_head? (by simpa using hh)
      | cons a u => exact List.mem_of_mem_head? (by simpa using hh)
    exact (List.nodup_append.1 hu.nodup).2.2 root hmem root (List.mem_singleton_self root) rfl
  induction s using List.reverseRecOn generalizing t p with
  | nil =>
      have hp : p = root := by simpa using hs.head
      subst hp
      cases t using List.reverseRecOn with
      | nil => rfl
      | append_singleton t q => exact (hroot ht).elim
  | append_singleton s q ih =>
      cases t using List.reverseRecOn with
      | nil =>
          have hp : p = root := by simpa using ht.head
          subst hp
          exact (hroot hs).elim
      | append_singleton t q' =>
          have hs' : RootPath parent root (s ++ [q, p]) := by simpa using hs
          have ht' : RootPath parent root (t ++ [q', p]) := by simpa using ht
          have hq := parent_of_append hs'
          have hq' := parent_of_append ht'
          rw [hq] at hq'
          obtain rfl := Option.some.inj hq'
          rw [ih (hs.of_append (by simp)) (ht.of_append (by simp))]

end RootPath

/-- The part of a list up to the first occurrence of `p`. -/
theorem take_idxOf_succ [DecidableEq α] {s : List α} {p : α} (h : p ∈ s) :
    ∃ init, s.take (s.idxOf p + 1) = init ++ [p] := by
  have hlt := List.idxOf_lt_length_of_mem h
  refine ⟨s.take (s.idxOf p), ?_⟩
  rw [List.take_succ_eq_append_getElem hlt, List.getElem_idxOf hlt]

end Patchouly.Lib
