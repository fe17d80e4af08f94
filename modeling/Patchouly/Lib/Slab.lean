import Mathlib.Data.List.Basic

/-!
# Slabs

A slab hands out integer keys for the values stored in it. Its documented design is a vector of
slots, each occupied or vacant, and a stack of the vacant ones: an insertion pops the stack and
adds a slot only when the stack is empty, a removal pushes the freed key.

`Slab` is the interface with the two parts of that design as views, and `LawfulSlab` says what the
operations do to the views. `HighWater` is the fact that keys stay small: a slab that never held
more than `n` values at once has only handed out keys below `n` (`HighWater.insert`), also when it
was filled and emptied beforehand (`highWater_of_vacant_range`). `VecSlab` is the design itself.
-/

set_option autoImplicit false

namespace Patchouly.Lib

/-- A slab type: `get?` and `remove` abort (`none`) on a vacant key. -/
class Slab (σ : Type → Type) where
  withCapacity {α : Type} (n : Nat) : σ α
  capacity {α : Type} (s : σ α) : Nat
  len {α : Type} (s : σ α) : Nat
  get? {α : Type} (s : σ α) (key : Nat) : Option α
  insert {α : Type} (s : σ α) (v : α) : Nat × σ α
  remove {α : Type} (s : σ α) (key : Nat) : Option (α × σ α)
  /-- The vector of slots. -/
  slots {α : Type} (s : σ α) : List (Option α)
  /-- The stack of vacant keys. -/
  vacant {α : Type} (s : σ α) : List Nat

/-- The documented behaviour of a slab. -/
class LawfulSlab (σ : Type → Type) [Slab σ] : Prop where
  slots_withCapacity {α : Type} (n : Nat) : Slab.slots (Slab.withCapacity n : σ α) = []
  vacant_nodup {α : Type} (s : σ α) : (Slab.vacant s).Nodup
  mem_vacant {α : Type} (s : σ α) (k : Nat) :
    k ∈ Slab.vacant s ↔ (Slab.slots s)[k]? = some none
  len_eq {α : Type} (s : σ α) : Slab.len s = (Slab.slots s).countP Option.isSome
  get?_eq {α : Type} (s : σ α) (k : Nat) : Slab.get? s k = ((Slab.slots s)[k]?).join
  insert_nil {α : Type} (s : σ α) (v : α) (h : Slab.vacant s = []) :
    (Slab.insert s v).1 = (Slab.slots s).length ∧
      Slab.slots (Slab.insert s v).2 = Slab.slots s ++ [some v] ∧
      Slab.vacant (Slab.insert s v).2 = []
  insert_cons {α : Type} (s : σ α) (v : α) (k : Nat) (ks : List Nat)
    (h : Slab.vacant s = k :: ks) :
    (Slab.insert s v).1 = k ∧ Slab.slots (Slab.insert s v).2 = (Slab.slots s).set k (some v) ∧
      Slab.vacant (Slab.insert s v).2 = ks
  remove_none {α : Type} (s : σ α) (k : Nat) (h : Slab.get? s k = none) : Slab.remove s k = none
  remove_some {α : Type} (s : σ α) (k : Nat) (v : α) (h : Slab.get? s k = some v) :
    ∃ s', Slab.remove s k = some (v, s') ∧ Slab.slots s' = (Slab.slots s).set k none ∧
      Slab.vacant s' = k :: Slab.vacant s

/-- The key that the next insertion hands out: the one freed last, or a new one. -/
def Slab.vacantKey {σ : Type → Type} [Slab σ] {α : Type} (s : σ α) : Nat :=
  (Slab.vacant s).headD (Slab.slots s).length

/-- What a slab documents about its capacity: it has the capacity it was made with until it is full. -/
class LawfulCapacity (σ : Type → Type) [Slab σ] : Prop where
  capacity_withCapacity {α : Type} (n : Nat) : Slab.capacity (Slab.withCapacity n : σ α) = n
  capacity_insert {α : Type} (s : σ α) (v : α) (h : Slab.len s < Slab.capacity s) :
    Slab.capacity (Slab.insert s v).2 = Slab.capacity s
  capacity_remove {α : Type} (s s' : σ α) (k : Nat) (v : α)
    (h : Slab.remove s k = some (v, s')) : Slab.capacity s' = Slab.capacity s

namespace LawfulSlab

variable {σ : Type → Type} [Slab σ] [LawfulSlab σ] {α : Type}

/-! ## Keys and values -/

theorem slots_of_get? {s : σ α} {k : Nat} {v : α} (h : Slab.get? s k = some v) :
    (Slab.slots s)[k]? = some (some v) := by
  rw [get?_eq] at h
  cases hk : (Slab.slots s)[k]? with
  | none => rw [hk] at h; cases h
  | some o => rw [hk] at h; simpa using h

theorem get?_of_vacant {s : σ α} {k : Nat} (h : k ∈ Slab.vacant s) : Slab.get? s k = none := by
  rw [get?_eq, (mem_vacant s k).1 h]
  rfl

theorem insert_key (s : σ α) (v : α) : (Slab.insert s v).1 = Slab.vacantKey s := by
  rw [Slab.vacantKey]
  cases hv : Slab.vacant s with
  | nil => exact (insert_nil s v hv).1
  | cons j js => exact (insert_cons s v j js hv).1

/-- **An insertion stores the value under a fresh key** and leaves all other keys alone. -/
theorem get?_insert (s : σ α) (v : α) (k : Nat) :
    Slab.get? (Slab.insert s v).2 k =
      if k = (Slab.insert s v).1 then some v else Slab.get? s k := by
  -- a new slot at the end, or the vacant slot that was freed last
  cases hv : Slab.vacant s with
  | nil =>
      obtain ⟨hkey, hslots, -⟩ := insert_nil s v hv
      rw [get?_eq, get?_eq, hslots, hkey]
      by_cases hk : k = (Slab.slots s).length
      · simp [hk]
      · rw [if_neg hk]
        by_cases hlt : k < (Slab.slots s).length
        · rw [List.getElem?_append_left hlt]
        · rw [List.getElem?_eq_none (by simp only [List.length_append, List.length_singleton]; omega),
            List.getElem?_eq_none (by omega)]
  | cons j js =>
      obtain ⟨hkey, hslots, -⟩ := insert_cons s v j js hv
      rw [get?_eq, get?_eq, hslots, hkey]
      have hj := (mem_vacant s j).1 (by rw [hv]; exact List.mem_cons_self)
      have hlt := (List.getElem?_eq_some_iff.1 hj).1
      by_cases hk : k = j
      · subst hk
        simp [hlt]
      · rw [if_neg hk, List.getElem?_set_ne (fun h => hk h.symm)]

theorem get?_insert_key (s : σ α) (v : α) : Slab.get? s (Slab.insert s v).1 = none := by
  cases hv : Slab.vacant s with
  | nil =>
      rw [(insert_nil s v hv).1, get?_eq, List.getElem?_eq_none (Nat.le_refl _)]
      rfl
  | cons j js =>
      rw [(insert_cons s v j js hv).1]
      exact get?_of_vacant (by rw [hv]; exact List.mem_cons_self)

/-- **A removal returns the stored value** and vacates its key only. -/
theorem get?_remove {s s' : σ α} {k : Nat} {v : α} (h : Slab.remove s k = some (v, s')) :
    Slab.get? s k = some v ∧
      ∀ j, Slab.get? s' j = if j = k then none else Slab.get? s j := by
  cases hk : Slab.get? s k with
  | none =>
      rw [remove_none s k hk] at h
      cases h
  | some w =>
      obtain ⟨t, ht, hslots, -⟩ := remove_some s k w hk
      rw [ht] at h
      obtain ⟨rfl, rfl⟩ := Prod.mk.inj (Option.some.inj h)
      refine ⟨rfl, fun j => ?_⟩
      have hlt := (List.getElem?_eq_some_iff.1 (slots_of_get? hk)).1
      rw [get?_eq, hslots]
      by_cases hj : j = k
      · subst hj
        simp [hlt]
      · rw [if_neg hj, List.getElem?_set_ne (fun h => hj h.symm), get?_eq]

theorem get?_withCapacity (n k : Nat) : Slab.get? (Slab.withCapacity n : σ α) k = none := by
  rw [get?_eq, slots_withCapacity]
  rfl

theorem vacant_eq_nil_of_slots {s : σ α} (h : Slab.slots s = []) : Slab.vacant s = [] := by
  apply List.eq_nil_iff_forall_not_mem.2
  intro k hk
  have hk' := (mem_vacant s k).1 hk
  rw [h] at hk'
  cases hk'

/-! ## Counting -/

/-- How many occupied slots hold a value with the property `p`. -/
def count (p : α → Bool) (s : σ α) : Nat := (Slab.slots s).countP fun o => o.any p

theorem len_eq_count (s : σ α) : Slab.len s = count (fun _ => true) s := by
  rw [len_eq, count]
  congr 1

theorem count_le_len (p : α → Bool) (s : σ α) : count p s ≤ Slab.len s := by
  rw [len_eq, count]
  apply List.countP_mono_left
  intro o _ ho
  cases o with
  | none => cases ho
  | some v => rfl

theorem count_insert (p : α → Bool) (s : σ α) (v : α) :
    count p (Slab.insert s v).2 = count p s + if p v then 1 else 0 := by
  cases hv : Slab.vacant s with
  | nil =>
      obtain ⟨-, hslots, -⟩ := insert_nil s v hv
      rw [count, hslots, List.countP_append, count]
      cases hp : p v <;> simp [hp]
  | cons j js =>
      obtain ⟨-, hslots, -⟩ := insert_cons s v j js hv
      have hj := (mem_vacant s j).1 (by rw [hv]; exact List.mem_cons_self)
      obtain ⟨hlt, hget⟩ := List.getElem?_eq_some_iff.1 hj
      rw [count, hslots, List.countP_set hlt, hget, count]
      simp

theorem count_remove (p : α → Bool) {s s' : σ α} {k : Nat} {v : α}
    (h : Slab.remove s k = some (v, s')) :
    count p s = count p s' + if p v then 1 else 0 := by
  have hk := (get?_remove h).1
  obtain ⟨t, ht, hslots, -⟩ := remove_some s k v hk
  rw [ht] at h
  obtain ⟨-, rfl⟩ := Prod.mk.inj (Option.some.inj h)
  obtain ⟨hlt, hget⟩ := List.getElem?_eq_some_iff.1 (slots_of_get? hk)
  have hpos : (if p v then 1 else 0) ≤ count p s := by
    split
    · next hp =>
      exact List.countP_pos_iff.2 ⟨some v, List.mem_of_getElem? (slots_of_get? hk), hp⟩
    · exact Nat.zero_le _
  rw [show count p t = count p s - if p v then 1 else 0 by
    rw [count, hslots, List.countP_set hlt, hget, count]
    simp]
  omega

/-! ## Small keys -/

/-- The keys from `h` on have never been handed out, or lie untouched below the vacant stack; the
other vacant keys are in use again before any of those. -/
structure HighWater (s : σ α) (h : Nat) : Prop where
  le : h ≤ (Slab.slots s).length
  stack : ∃ top, Slab.vacant s = top ++ List.range' h ((Slab.slots s).length - h) ∧
    ∀ k ∈ top, k < h

omit [LawfulSlab σ] in
theorem highWater_of_vacant_range {s : σ α} {n : Nat}
    (hs : (Slab.slots s).length = n) (hv : Slab.vacant s = List.range n) : HighWater s 0 :=
  ⟨Nat.zero_le _, [], by rw [hv, hs, List.range_eq_range']; simp, by simp⟩

theorem highWater_withCapacity (n : Nat) : HighWater (Slab.withCapacity n : σ α) 0 :=
  highWater_of_vacant_range (n := 0) (congrArg List.length (slots_withCapacity n))
    (vacant_eq_nil_of_slots (slots_withCapacity n))

/-- Below the high-water mark, the slots are occupied or on top of the vacant stack. -/
theorem HighWater.len_of_top {s : σ α} {h : Nat} (hw : HighWater s h)
    (ht : Slab.vacant s = List.range' h ((Slab.slots s).length - h)) : Slab.len s = h := by
  have hsplit : Slab.slots s = (Slab.slots s).take h ++ (Slab.slots s).drop h :=
    (List.take_append_drop h _).symm
  -- every slot below the mark is occupied, and every one above it is vacant
  have hlow : ((Slab.slots s).take h).countP Option.isSome = h := by
    have hlen : ((Slab.slots s).take h).length = h := by
      rw [List.length_take, Nat.min_eq_left hw.le]
    rw [List.countP_eq_length.2, hlen]
    intro o ho
    obtain ⟨k, hk, rfl⟩ := List.mem_iff_getElem.1 ho
    cases hval : ((Slab.slots s).take h)[k] with
    | some v => rfl
    | none =>
        exfalso
        have hkh : k < h := by rw [hlen] at hk; exact hk
        have hvac : k ∈ Slab.vacant s := by
          rw [mem_vacant, ← List.getElem?_take_of_lt hkh, List.getElem?_eq_getElem hk, hval]
        rw [ht, List.mem_range'_1] at hvac
        omega
  have hhigh : ((Slab.slots s).drop h).countP Option.isSome = 0 := by
    apply List.countP_eq_zero.2
    intro o ho
    obtain ⟨k, hk, rfl⟩ := List.mem_iff_getElem.1 ho
    rw [List.length_drop] at hk
    have hvac : h + k ∈ Slab.vacant s := by
      rw [ht, List.mem_range'_1]
      omega
    have hnone := (mem_vacant s (h + k)).1 hvac
    rw [List.getElem_drop]
    rw [List.getElem?_eq_getElem (by omega)] at hnone
    simp [Option.some.inj hnone]
  rw [len_eq, hsplit, List.countP_append, hlow, hhigh, Nat.add_zero]

/-- The keys below `h` are in use, and all others wait in order. -/
structure Dense (s : σ α) (h : Nat) : Prop where
  le : h ≤ (Slab.slots s).length
  vacant : Slab.vacant s = List.range' h ((Slab.slots s).length - h)

namespace Dense

variable {s : σ α} {h : Nat}

omit [LawfulSlab σ] in
theorem highWater (hd : Dense s h) : HighWater s h :=
  ⟨hd.le, [], hd.vacant, by simp⟩

theorem len (hd : Dense s h) : Slab.len s = h := hd.highWater.len_of_top hd.vacant

omit [LawfulSlab σ] in
theorem of_zero (hw : HighWater s 0) : Dense s 0 := by
  obtain ⟨top, hvac, htop⟩ := hw.stack
  have hnil : top = [] := List.eq_nil_iff_forall_not_mem.2 fun k hk => Nat.not_lt_zero k (htop k hk)
  rw [hnil, List.nil_append] at hvac
  exact ⟨hw.le, hvac⟩

/-- **A dense slab hands out its keys in order.** -/
theorem insert (hd : Dense s h) (v : α) :
    (Slab.insert s v).1 = h ∧ Dense (Slab.insert s v).2 (h + 1) := by
  have hvac := hd.vacant
  -- all slots are occupied, or the next one is the first that is not
  rcases Nat.eq_or_lt_of_le hd.le with heq | hlt
  · rw [heq, Nat.sub_self] at hvac
    obtain ⟨hkey, hslots, hv'⟩ := insert_nil s v hvac
    have hlen : (Slab.slots (Slab.insert s v).2).length = h + 1 := by
      rw [hslots, List.length_append, List.length_singleton, heq]
    refine ⟨hkey.trans heq.symm, Nat.le_of_eq hlen.symm, ?_⟩
    rw [hv', hlen, Nat.sub_self]
    rfl
  · obtain ⟨m, hm⟩ : ∃ m, (Slab.slots s).length - h = m + 1 :=
      ⟨(Slab.slots s).length - h - 1, by omega⟩
    rw [hm, List.range'_succ] at hvac
    obtain ⟨hkey, hslots, hv'⟩ := insert_cons s v _ _ hvac
    refine ⟨hkey, ?_, ?_⟩
    · rw [hslots, List.length_set]
      exact hlt
    · rw [hv', hslots, List.length_set]
      congr 1
      omega

end Dense

/-- **An insertion into a slab with fewer than `n` values hands out a key below `n`**, when the
high-water mark is at most `n`; the mark stays at most `n`. -/
theorem HighWater.insert {s : σ α} {h n : Nat} (hw : HighWater s h) (hn : h ≤ n)
    (hlen : Slab.len s < n) (v : α) :
    (Slab.insert s v).1 < n ∧ ∃ h' ≤ n, HighWater (Slab.insert s v).2 h' := by
  obtain ⟨top, hvac, htop⟩ := hw.stack
  cases top with
  | nil =>
      -- the key handed out is the mark itself
      have hd : Dense s h := ⟨hw.le, hvac⟩
      have hl := hd.len
      obtain ⟨hkey, hd'⟩ := hd.insert v
      exact ⟨by omega, h + 1, by omega, hd'.highWater⟩
  | cons k ks =>
      rw [List.cons_append] at hvac
      -- a slot freed earlier is used again, below the mark
      obtain ⟨hkey, hslots, hv'⟩ := insert_cons s v _ _ hvac
      have hk := htop k List.mem_cons_self
      refine ⟨by omega, h, hn, ?_, ks, ?_, fun j hj => htop j (List.mem_cons_of_mem _ hj)⟩
      · rw [hslots, List.length_set]
        exact hw.le
      · rw [hv', hslots, List.length_set]

/-- Keys handed out lie below the high-water mark. -/
theorem HighWater.key_lt {s : σ α} {h k : Nat} {v : α} (hw : HighWater s h)
    (hk : Slab.get? s k = some v) : k < h := by
  by_contra hge
  have hslot := slots_of_get? hk
  have hlt := (List.getElem?_eq_some_iff.1 hslot).1
  obtain ⟨top, hvac, -⟩ := hw.stack
  have hmem : k ∈ Slab.vacant s := by
    rw [hvac, List.mem_append, List.mem_range'_1]
    exact Or.inr ⟨by omega, by omega⟩
  rw [mem_vacant, hslot] at hmem
  cases hmem

theorem HighWater.remove {s s' : σ α} {h k : Nat} {v : α} (hw : HighWater s h)
    (hr : Slab.remove s k = some (v, s')) : HighWater s' h := by
  have hk := (get?_remove hr).1
  obtain ⟨t, ht, hslots, hvac⟩ := remove_some s k v hk
  rw [ht] at hr
  obtain ⟨-, rfl⟩ := Prod.mk.inj (Option.some.inj hr)
  obtain ⟨top, hv, htop⟩ := hw.stack
  refine ⟨?_, k :: top, ?_, ?_⟩
  · rw [hslots, List.length_set]
    exact hw.le
  · rw [hvac, hv, hslots, List.length_set, List.cons_append]
  · intro j hj
    rcases List.mem_cons.1 hj with rfl | hj
    · exact hw.key_lt hk
    · exact htop j hj

/-! ## The number of slots -/

theorem len_insert (s : σ α) (v : α) : Slab.len (Slab.insert s v).2 = Slab.len s + 1 := by
  rw [len_eq_count, count_insert, ← len_eq_count, if_pos rfl]

theorem len_remove {s s' : σ α} {k : Nat} {v : α} (h : Slab.remove s k = some (v, s')) :
    Slab.len s = Slab.len s' + 1 := by
  have hcount := count_remove (fun _ => true) h
  rw [← len_eq_count, ← len_eq_count, if_pos rfl] at hcount
  exact hcount

theorem len_le_slots (s : σ α) : Slab.len s ≤ (Slab.slots s).length := by
  rw [len_eq]
  exact List.countP_le_length

theorem slots_length_remove {s s' : σ α} {k : Nat} {v : α} (h : Slab.remove s k = some (v, s')) :
    (Slab.slots s').length = (Slab.slots s).length := by
  obtain ⟨t, ht, hslots, -⟩ := remove_some s k v (get?_remove h).1
  rw [ht] at h
  obtain ⟨-, rfl⟩ := Prod.mk.inj (Option.some.inj h)
  rw [hslots, List.length_set]

/-- Without a vacant slot all slots hold values. -/
theorem len_of_vacant_nil {s : σ α} (h : Slab.vacant s = []) :
    Slab.len s = (Slab.slots s).length := by
  apply HighWater.len_of_top ⟨Nat.le_refl _, [], by simp [h], by simp⟩
  simp [h]

/-- **A slab has as many slots as it ever held values at once**: an insertion adds a slot only when all
are occupied, and then hands out the new one. -/
theorem slots_length_insert (s : σ α) (v : α) :
    (Slab.slots (Slab.insert s v).2).length = max (Slab.slots s).length (Slab.len s + 1) ∧
      (Slab.slots (Slab.insert s v).2).length =
        max (Slab.slots s).length ((Slab.insert s v).1 + 1) := by
  cases hv : Slab.vacant s with
  | nil =>
      obtain ⟨hkey, hslots, -⟩ := insert_nil s v hv
      have hlen := len_of_vacant_nil hv
      rw [hkey, hslots, List.length_append, List.length_singleton]
      omega
  | cons j js =>
      obtain ⟨hkey, hslots, -⟩ := insert_cons s v j js hv
      have hlen : (Slab.slots (Slab.insert s v).2).length = (Slab.slots s).length := by
        rw [hslots, List.length_set]
      have hj := (mem_vacant s j).1 (by rw [hv]; exact List.mem_cons_self)
      have hlt := (List.getElem?_eq_some_iff.1 hj).1
      have hroom := len_le_slots (Slab.insert s v).2
      rw [len_insert, hlen] at hroom
      rw [hkey, hlen]
      omega

/-- A slab whose keys are below `n` and that holds `n` values has all these keys in use. -/
theorem occupied_of_full {s : σ α} {n : Nat} (hkeys : ∀ k v, Slab.get? s k = some v → k < n)
    (hlen : n ≤ Slab.len s) {k : Nat} (hk : k < n) : ∃ v, Slab.get? s k = some v := by
  have hhigh : ((Slab.slots s).drop n).countP Option.isSome = 0 := by
    apply List.countP_eq_zero.2
    intro o ho
    obtain ⟨j, hj⟩ := List.mem_iff_getElem?.1 ho
    cases o with
    | none => simp
    | some v =>
        rw [List.getElem?_drop] at hj
        have hlt := hkeys (n + j) v (by rw [get?_eq, hj]; rfl)
        omega
  -- so the slots below `n` are all there, and all occupied
  have hsplit : Slab.len s = ((Slab.slots s).take n).countP Option.isSome := by
    rw [len_eq, ← List.take_append_drop n (Slab.slots s), List.countP_append, hhigh,
      List.take_append_drop, Nat.add_zero]
  have htake : ((Slab.slots s).take n).length ≤ n := List.length_take_le _ _
  have hle : ((Slab.slots s).take n).countP Option.isSome ≤ ((Slab.slots s).take n).length :=
    List.countP_le_length
  have hall := List.countP_eq_length.1 (Nat.le_antisymm hle (by omega))
  have hlt : k < ((Slab.slots s).take n).length := by omega
  have hget := List.getElem?_eq_getElem hlt
  have hsome := hall _ (List.mem_of_getElem? hget)
  rw [List.getElem?_take_of_lt hk] at hget
  obtain ⟨v, hval⟩ := Option.isSome_iff_exists.1 hsome
  exact ⟨v, by rw [get?_eq, hget, hval]; rfl⟩

end LawfulSlab

/-! ## The documented design -/

/-- `vacant` lists the keys of the vacant slots, each once. -/
structure VacantStack {α : Type} (slots : List (Option α)) (vacant : List Nat) : Prop where
  nodup : vacant.Nodup
  mem : ∀ k, k ∈ vacant ↔ slots[k]? = some none

namespace VacantStack

variable {α : Type} {slots : List (Option α)} {vacant : List Nat} {key : Nat}

theorem grow (h : VacantStack slots []) (v : α) : VacantStack (slots ++ [some v]) [] where
  nodup := List.nodup_nil
  mem k := by
    have hk := h.mem k
    simp only [List.not_mem_nil, false_iff] at hk ⊢
    rcases Nat.lt_trichotomy k slots.length with hlt | heq | hgt
    · rw [List.getElem?_append_left hlt]
      exact hk
    · simp [heq]
    · rw [List.getElem?_eq_none (by simp only [List.length_append, List.length_singleton]; omega)]
      simp

theorem pop (h : VacantStack slots (key :: vacant)) (v : α) :
    VacantStack (slots.set key (some v)) vacant where
  nodup := (List.nodup_cons.1 h.nodup).2
  mem k := by
    have hk := h.mem k
    have hfresh := (List.nodup_cons.1 h.nodup).1
    rw [List.mem_cons] at hk
    by_cases he : k = key
    · subst he
      have hlt := (List.getElem?_eq_some_iff.1 (hk.1 (Or.inl rfl))).1
      simp [hlt, hfresh]
    · rw [List.getElem?_set_ne (fun h => he h.symm), ← hk]
      simp [he]

theorem push (h : VacantStack slots vacant) {v : α} (hv : slots[key]? = some (some v)) :
    VacantStack (slots.set key none) (key :: vacant) where
  nodup := by
    refine List.nodup_cons.2 ⟨fun hm => ?_, h.nodup⟩
    rw [h.mem, hv] at hm
    cases hm
  mem k := by
    have hlt := (List.getElem?_eq_some_iff.1 hv).1
    by_cases he : k = key
    · subst he
      simp [hlt]
    · rw [List.getElem?_set_ne (fun h => he h.symm), ← h.mem k]
      simp [he]

end VacantStack

/-- A vector of slots with the stack of its vacant keys. -/
structure VecSlab (α : Type) where
  slots : List (Option α)
  vacant : List Nat
  cap : Nat
  valid : VacantStack slots vacant

namespace VecSlab

variable {α : Type}

def withCapacity (n : Nat) : VecSlab α := ⟨[], [], n, List.nodup_nil, by simp⟩

def insert (s : VecSlab α) (v : α) : Nat × VecSlab α :=
  match h : s.vacant with
  | [] => (s.slots.length,
      ⟨s.slots ++ [some v], [], max s.cap (s.slots.length + 1), (h ▸ s.valid).grow v⟩)
  | key :: rest => (key, ⟨s.slots.set key (some v), rest, s.cap, (h ▸ s.valid).pop v⟩)

def remove (s : VecSlab α) (key : Nat) : Option (α × VecSlab α) :=
  match h : s.slots[key]? with
  | some (some v) => some (v, ⟨s.slots.set key none, key :: s.vacant, s.cap, s.valid.push h⟩)
  | _ => none

instance : Slab VecSlab where
  withCapacity n := .withCapacity n
  capacity s := s.cap
  len s := s.slots.countP Option.isSome
  get? s key := (s.slots[key]?).join
  insert s v := s.insert v
  remove s key := s.remove key
  slots s := s.slots
  vacant s := s.vacant

instance : LawfulSlab VecSlab where
  slots_withCapacity _ := rfl
  vacant_nodup s := s.valid.nodup
  mem_vacant s k := s.valid.mem k
  len_eq _ := rfl
  get?_eq _ _ := rfl
  insert_nil s v h := by
    simp only [Slab.insert, Slab.slots, Slab.vacant, VecSlab.insert] at h ⊢
    split
    · exact ⟨rfl, rfl, rfl⟩
    · next hc => rw [h] at hc; cases hc
  insert_cons s v k ks h := by
    simp only [Slab.insert, Slab.slots, Slab.vacant, VecSlab.insert] at h ⊢
    split
    · next hc => rw [h] at hc; cases hc
    · next k' ks' hc =>
      rw [h] at hc
      obtain ⟨rfl, rfl⟩ := List.cons.inj hc
      exact ⟨rfl, rfl, rfl⟩
  remove_none s k h := by
    simp only [Slab.get?, Slab.remove, VecSlab.remove] at h ⊢
    split
    · next v hv => rw [hv] at h; cases h
    · rfl
  remove_some s k v h := by
    simp only [Slab.get?, Slab.remove, Slab.slots, Slab.vacant, VecSlab.remove] at h ⊢
    split
    · next w hw =>
      rw [hw] at h
      obtain rfl := Option.some.inj h
      exact ⟨_, rfl, rfl, rfl⟩
    · next hne =>
      exfalso
      cases hk : s.slots[k]? with
      | none => rw [hk] at h; cases h
      | some o =>
          cases o with
          | none => rw [hk] at h; cases h
          | some w => exact hne w hk

instance : LawfulCapacity VecSlab where
  capacity_withCapacity _ := rfl
  capacity_insert s v h := by
    simp only [Slab.insert, Slab.capacity, Slab.len, VecSlab.insert] at h ⊢
    split
    · next hc =>
      have hall : s.slots.countP Option.isSome = s.slots.length :=
        @LawfulSlab.len_of_vacant_nil VecSlab _ _ _ s hc
      rw [hall] at h
      exact Nat.max_eq_left h
    · rfl
  capacity_remove s s' k v h := by
    simp only [Slab.remove, Slab.capacity, VecSlab.remove] at h ⊢
    split at h
    · obtain ⟨-, rfl⟩ := Prod.mk.inj (Option.some.inj h)
      rfl
    · cases h

end VecSlab

end Patchouly.Lib
