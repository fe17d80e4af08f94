import Mathlib.Data.List.Nodup

/-!
# Tables by key and by first use

`setKey` puts a value into an association list in which every key stands once (`lookup_setKey`).

`record` adds an element to the ones seen so far unless it is one of them. The number of an element is
its position among them; it does not change while more elements are recorded (`idxOf_stable`).

`mapM_eq_some_iff` turns a list of partial results into an equation between two maps.
-/

set_option autoImplicit false

namespace Patchouly.Lib

/-! ## By key -/

/-- The values of a table, changed one by one. -/
theorem lookup_map {κ β γ : Type} [BEq κ] (f : β → γ) (table : List (κ × β)) (k : κ) :
    (table.map fun e => (e.1, f e.2)).lookup k = (table.lookup k).map f := by
  induction table with
  | nil => rfl
  | cons e table ih =>
      obtain ⟨a, v⟩ := e
      rw [List.map_cons, List.lookup_cons, List.lookup_cons, ih]
      cases k == a <;> rfl

section Keys

variable {κ β : Type} [BEq κ] [LawfulBEq κ] [DecidableEq κ]

def setKey (k : κ) (v : β) (table : List (κ × β)) : List (κ × β) :=
  (k, v) :: table.filter fun e => e.1 != k

omit [DecidableEq κ] in
/-- With different keys an entry is found under its key. -/
theorem lookup_of_mem {table : List (κ × β)} {k : κ} {v : β}
    (hnodup : (table.map (·.1)).Nodup) (h : (k, v) ∈ table) : table.lookup k = some v := by
  induction table with
  | nil => cases h
  | cons entry table ih =>
      rw [List.map_cons, List.nodup_cons] at hnodup
      rcases List.mem_cons.1 h with rfl | h
      · rw [List.lookup_cons_self]
      · have hne : k ≠ entry.1 := by
          rintro rfl
          exact hnodup.1 (List.mem_map.2 ⟨_, h, rfl⟩)
        rw [List.lookup_cons, beq_eq_false_iff_ne.2 hne]
        exact ih hnodup.2 h

theorem lookup_filter_ne {k k' : κ} (h : k' ≠ k) (table : List (κ × β)) :
    (table.filter fun e => e.1 != k).lookup k' = table.lookup k' := by
  induction table with
  | nil => rfl
  | cons e table ih =>
      obtain ⟨a, v⟩ := e
      by_cases ha : a = k
      · have hne : (k' == a) = false := by simpa [ha] using h
        rw [List.filter_cons_of_neg (by simpa using ha), ih, List.lookup_cons, hne]
      · rw [List.filter_cons_of_pos (by simpa using ha), List.lookup_cons, List.lookup_cons, ih]

theorem lookup_setKey (k k' : κ) (v : β) (table : List (κ × β)) :
    (setKey k v table).lookup k' = if k' = k then some v else table.lookup k' := by
  rw [setKey, List.lookup_cons]
  by_cases h : k' = k
  · simp [h]
  · have hne : (k' == k) = false := by simpa using h
    rw [hne, if_neg h]
    exact lookup_filter_ne h table

end Keys

/-! ## By first use -/

section FirstUse

variable {α : Type} [BEq α] [LawfulBEq α]

def record (seen : List α) (a : α) : List α := if a ∈ seen then seen else seen ++ [a]

theorem prefix_record (seen : List α) (a : α) : seen <+: record seen a := by
  rw [record]
  split
  · exact List.prefix_refl _
  · exact List.prefix_append _ _

theorem mem_record_iff {seen : List α} {a b : α} : b ∈ record seen a ↔ b ∈ seen ∨ b = a := by
  rw [record]
  split
  · next ha =>
    constructor
    · exact Or.inl
    · rintro (hb | rfl)
      · exact hb
      · exact ha
  · rw [List.mem_append, List.mem_singleton]

theorem mem_record (seen : List α) (a : α) : a ∈ record seen a := mem_record_iff.2 (Or.inr rfl)

theorem nodup_record {seen : List α} (h : seen.Nodup) (a : α) : (record seen a).Nodup := by
  rw [record]
  split
  · exact h
  · next hnew =>
    rw [List.nodup_append]
    refine ⟨h, List.nodup_singleton _, ?_⟩
    rintro x hx y hy rfl
    exact hnew (List.mem_singleton.1 hy ▸ hx)

theorem length_record_le (seen : List α) (a : α) : (record seen a).length ≤ seen.length + 1 := by
  rw [record]
  split
  · exact Nat.le_succ _
  · exact Nat.le_of_eq List.length_append

/-- Numbers are stable. -/
theorem idxOf_stable {seen more : List α} (h : seen <+: more) {a : α} (ha : a ∈ seen) :
    more.idxOf a = seen.idxOf a := by
  obtain ⟨rest, rfl⟩ := h
  exact List.idxOf_append_of_mem ha

/-- Looking up a number. -/
theorem lookup_mapIdx {β : Type} (f : Nat → β) (table : List α) (a : α) :
    (table.mapIdx fun i b => (b, f i)).lookup a =
      if a ∈ table then some (f (table.idxOf a)) else none := by
  induction table generalizing f with
  | nil => simp
  | cons b table ih =>
      rw [List.mapIdx_cons, List.lookup_cons, ih fun i => f (i + 1)]
      by_cases h : a = b
      · simp [h]
      · have hne : (a == b) = false := by simpa using h
        have hne' : (b == a) = false := by simpa using fun h' => h h'.symm
        simp only [hne, List.mem_cons, h, false_or, List.idxOf_cons, hne', cond_false]

end FirstUse

/-! ## Lists of partial results -/

section Partial

variable {α β : Type} {f : α → Option β} {xs : List α} {ys : List β}

theorem mapM_eq_some_iff : xs.mapM f = some ys ↔ xs.map f = ys.map some := by
  induction xs generalizing ys with
  | nil =>
      rw [List.mapM_nil, List.map_nil, eq_comm (a := []), List.map_eq_nil_iff]
      exact ⟨fun h => (Option.some.inj h).symm, fun h => congrArg some h.symm⟩
  | cons x xs ih =>
      rw [List.mapM_cons, List.map_cons]
      simp only [Option.bind_eq_bind, Option.pure_def]
      constructor
      · intro h
        obtain ⟨y, hy, h⟩ := Option.bind_eq_some_iff.1 h
        obtain ⟨zs, hzs, h⟩ := Option.bind_eq_some_iff.1 h
        obtain rfl := Option.some.inj h
        rw [List.map_cons, hy, ih.1 hzs]
      · intro h
        cases ys with
        | nil => cases h
        | cons y ys =>
            obtain ⟨hy, hys⟩ := List.cons.inj h
            rw [hy, ih.2 hys]
            rfl

/-- Every element has a result, and it is in the list. -/
theorem result_of_mapM (h : xs.mapM f = some ys) {a : α} (ha : a ∈ xs) : ∃ b ∈ ys, f a = some b := by
  have hmem : f a ∈ ys.map some := by
    rw [← mapM_eq_some_iff.1 h]
    exact List.mem_map_of_mem ha
  obtain ⟨b, hb, hab⟩ := List.mem_map.1 hmem
  exact ⟨b, hb, hab.symm⟩

/-- Every result comes from an element. -/
theorem source_of_mapM (h : xs.mapM f = some ys) {b : β} (hb : b ∈ ys) : ∃ a ∈ xs, f a = some b := by
  have hmem : some b ∈ xs.map f := by
    rw [mapM_eq_some_iff.1 h]
    exact List.mem_map_of_mem hb
  exact List.mem_map.1 hmem

/-- Where every element has a result, so has the list. -/
theorem mapM_total (h : ∀ a ∈ xs, ∃ b, f a = some b) : ∃ ys, xs.mapM f = some ys := by
  induction xs with
  | nil => exact ⟨[], rfl⟩
  | cons x xs ih =>
      obtain ⟨y, hy⟩ := h x List.mem_cons_self
      obtain ⟨ys, hys⟩ := ih fun a ha => h a (List.mem_cons_of_mem x ha)
      exact ⟨y :: ys, mapM_eq_some_iff.2 (by rw [List.map_cons, List.map_cons, hy, mapM_eq_some_iff.1 hys])⟩

theorem mapM_eq_map {g : α → β} (h : ∀ a ∈ xs, f a = some (g a)) : xs.mapM f = some (xs.map g) := by
  rw [mapM_eq_some_iff, List.map_map]
  exact List.map_congr_left h

theorem eq_map_of_mapM (dflt : β) (h : xs.mapM f = some ys) : ys = xs.map fun x => (f x).getD dflt :=
  calc ys = (ys.map some).map (·.getD dflt) := by simp [List.map_map, Function.comp_def]
    _ = (xs.map f).map (·.getD dflt) := by rw [mapM_eq_some_iff.1 h]
    _ = xs.map fun x => (f x).getD dflt := List.map_map

/-- A vector of partial results is the list of them. -/
theorem toList_mapM {n : Nat} (v : Vector α n) : (v.mapM f).map Vector.toList = v.toList.mapM f := by
  have harray : Vector.toArray <$> v.mapM f = v.toArray.mapM f := Vector.toArray_mapM
  rw [Array.mapM_eq_mapM_toList, Option.map_eq_map, Option.map_eq_map] at harray
  calc (v.mapM f).map Vector.toList
      = ((v.mapM f).map Vector.toArray).map Array.toList := (Option.map_map _ _ _).symm
    _ = ((v.toArray.toList.mapM f).map List.toArray).map Array.toList := by rw [harray]
    _ = v.toList.mapM f := by
        rw [Option.map_map]
        exact Option.map_id'

end Partial

end Patchouly.Lib
