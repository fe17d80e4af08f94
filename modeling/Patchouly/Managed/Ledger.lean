import Mathlib.Data.List.Nodup
import Patchouly.Lib.Runs
import Patchouly.Managed.Allocator

/-!
# The allocator over whole runs (`src/regs.rs`)

An allocator with the values that are live, the stack slots it has handed out and the largest number
of values that were on the stack at once is a `Ledger`. `Balanced` is the invariant of the three pools:
the registers in use are those of the live values, and the stack pool has as many slots as `stackSize`
says. `Ledger.Kept` ties the pools to the records.

`allocator_runs` collects what holds in every state of every run.
-/

set_option autoImplicit false

namespace Patchouly.Managed

open Patchouly.Lib Patchouly.Core

variable {σ : Type → Type} [Slab σ] [LawfulSlab σ]

namespace Allocator

variable {checks : Bool} {a a' : Allocator σ}

/-! ## The stack pool -/

/-- The stack pool holds the values on the stack and has `stackSize` slots. -/
structure Stacked (a : Allocator σ) : Prop where
  len : Slab.len a.stackSlots = LawfulSlab.count (fun l => !isRegister l) a.slots
  size : (Slab.slots a.stackSlots).length = a.stackSize.toNat

/-- The next stack slot has a number that fits, and so has the one behind it. -/
theorem Stacked.key_lt (h : Stacked a) (hlen : Slab.len a.slots < 65535) :
    (Slab.insert a.stackSlots ()).1 + 1 < 65536 := by
  obtain ⟨hslots, hkey⟩ := LawfulSlab.slots_length_insert a.stackSlots ()
  have hcount := LawfulSlab.count_le_len (fun l => !isRegister l) a.slots
  have hsize := a.stackSize.isLt
  rw [hslots, h.len, h.size] at hkey
  omega

/-! ## Allocating -/

/-- Where the location of a new value comes from: a register as long as there is room, and a stack slot
after that. -/
inductive Taken (a a' : Allocator σ) : Location → Prop
  | register (hroom : Slab.len a.registers < Slab.capacity a.registers)
      (hregisters : a'.registers = (Slab.insert a.registers ()).2)
      (hstack : a'.stackSlots = a.stackSlots) (hsize : a'.stackSize = a.stackSize) :
      Taken a a' (.register (BitVec.ofNat 16 (Slab.insert a.registers ()).1))
  | stack (hfull : ¬ Slab.len a.registers < Slab.capacity a.registers)
      (hregisters : a'.registers = a.registers)
      (hstack : a'.stackSlots = (Slab.insert a.stackSlots ()).2)
      (hsize : a'.stackSize.toNat = max a.stackSize.toNat ((Slab.insert a.stackSlots ()).1 + 1)) :
      Taken a a' (.stack (BitVec.ofNat 16 (Slab.insert a.stackSlots ()).1))

/-- A new value and its location. -/
structure Allocated (a a' : Allocator σ) (scope : BlockId) (v : Value) (l : Location) : Prop where
  sound : Sound a'
  stacked : Stacked a'
  scope : v.scope = scope
  free : Slab.get? a.slots v.slot.toNat = none
  slots : ∀ k, Slab.get? a'.slots k = if k = v.slot.toNat then some l else Slab.get? a.slots k
  count : ∀ p, LawfulSlab.count p a'.slots = LawfulSlab.count p a.slots + if p l then 1 else 0
  taken : Taken a a' l

/-- Adding one to the number of the next stack slot gives the same with and without checks. -/
theorem plainAdd_key (checks : Bool) {key : Nat} (h : key + 1 < 65536) :
    plainAdd checks (BitVec.ofNat 16 key) 1 = some (BitVec.ofNat 16 (key + 1)) := by
  have hkey : (BitVec.ofNat 16 key).toNat = key := toNat_ofNat_of_lt (by omega)
  have hone : (1 : U16).toNat = 1 := by decide
  rw [plainAdd_of_lt checks (by rw [hkey, hone]; omega)]
  congr 1
  apply BitVec.eq_of_toNat_eq
  rw [BitVec.toNat_add, hkey, hone, toNat_ofNat_of_lt h, Nat.mod_eq_of_lt (by omega)]

/-- The slot of a reserved location completes an allocation. -/
theorem Taken.allocated {a₁ : Allocator σ} {l : Location} (htaken : Taken a a₁ l)
    (h : Reserved a₁ l) (hslots : a₁.slots = a.slots) (hlen : Slab.len a.slots < 65535)
    (hstack : Slab.len a₁.stackSlots =
      LawfulSlab.count (fun l => !isRegister l) a.slots + if !isRegister l then 1 else 0)
    (hsize : (Slab.slots a₁.stackSlots).length = a₁.stackSize.toNat) (scope : BlockId) :
    Allocated a (a₁.bindSlot l scope).2 scope (a₁.bindSlot l scope).1 l := by
  obtain ⟨hsound, hscope, hfree, hget⟩ := h.bindSlot (hslots ▸ hlen) scope
  have hcount : ∀ p, LawfulSlab.count p (a₁.bindSlot l scope).2.slots =
      LawfulSlab.count p a.slots + if p l then 1 else 0 := by
    intro p
    rw [← hslots]
    exact LawfulSlab.count_insert p a₁.slots l
  refine ⟨hsound, ⟨hstack.trans (hcount _).symm, hsize⟩, hscope, ?_, ?_, hcount, ?_⟩
  · rw [← hslots]
    exact hfree _ rfl
  · rw [← hslots]
    exact hget
  · -- the slot is taken from another pool
    cases htaken with
    | register hroom hregisters hpool hsize => exact .register hroom hregisters hpool hsize
    | stack hfull hregisters hpool hsize => exact .stack hfull hregisters hpool hsize

/-- **`allocate` fails exactly on 65535 values**, and changes nothing then. -/
theorem allocate_spec (checks : Bool) (h : Sound a) (hs : Stacked a) (scope : BlockId) :
    (65535 ≤ Slab.len a.slots ∧ a.allocate checks scope = some (none, a)) ∨
      (Slab.len a.slots < 65535 ∧ ∃ v l a', a.allocate checks scope = some (some v, a') ∧
        Allocated a a' scope v l) := by
  rw [allocate]
  split
  · next hfull => exact Or.inl ⟨hfull, rfl⟩
  · next hfull =>
    have hlen : Slab.len a.slots < 65535 := by omega
    refine Or.inr ⟨hlen, ?_⟩
    split
    · next hroom =>
      have htaken : Taken a { a with registers := (Slab.insert a.registers ()).2 } _ :=
        .register hroom rfl rfl rfl
      exact ⟨_, _, _, rfl, htaken.allocated (h.reserveRegister hlen) rfl hlen hs.len hs.size scope⟩
    · next hroom =>
      have hkey := hs.key_lt hlen
      have hsucc : (BitVec.ofNat 16 ((Slab.insert a.stackSlots ()).1 + 1)).toNat =
          (Slab.insert a.stackSlots ()).1 + 1 := toNat_ofNat_of_lt hkey
      simp only [plainAdd_key checks hkey, hsucc, Option.map_some]
      rw [if_neg (by omega)]
      generalize hs' : (if a.stackSize.toNat ≤ (Slab.insert a.stackSlots ()).1 + 1 then
        BitVec.ofNat 16 ((Slab.insert a.stackSlots ()).1 + 1) else a.stackSize) = size
      have hsize : size.toNat = max a.stackSize.toNat ((Slab.insert a.stackSlots ()).1 + 1) := by
        rw [← hs']
        split <;> omega
      -- the pool grows exactly when the new slot is the highest so far
      have hslots : (Slab.slots (Slab.insert a.stackSlots ()).2).length = size.toNat := by
        rw [(LawfulSlab.slots_length_insert a.stackSlots ()).2, hs.size, hsize]
      have hlength : Slab.len (Slab.insert a.stackSlots ()).2 =
          LawfulSlab.count (fun l => !isRegister l) a.slots + 1 := by
        rw [LawfulSlab.len_insert, hs.len]
      have htaken : Taken a
          { a with stackSlots := (Slab.insert a.stackSlots ()).2, stackSize := size } _ :=
        .stack hroom rfl rfl hsize
      exact ⟨_, _, _, rfl,
        htaken.allocated (h.reserveStack size (by omega)) rfl hlen hlength hslots scope⟩

/-! ## Dropping -/

/-- A value that is gone, with the location it had. -/
structure Dropped (a a' : Allocator σ) (v : Value) (l : Location) : Prop where
  sound : Sound a'
  stacked : Stacked a'
  slots : ∀ k, Slab.get? a'.slots k = if k = v.slot.toNat then none else Slab.get? a.slots k
  count : ∀ p, LawfulSlab.count p a.slots = LawfulSlab.count p a'.slots + if p l then 1 else 0
  size : a'.stackSize = a.stackSize
  registers : (∃ r, l = .register r ∧ Slab.remove a.registers r.toNat = some ((), a'.registers)) ∨
    (isRegister l = false ∧ a'.registers = a.registers)

/-- **A value with a location can be dropped**, which frees that location only. -/
theorem drop_spec (h : Sound a) (hs : Stacked a) {v : Value} {l : Location}
    (hv : a.location v = some l) : ∃ a', a.drop v = some a' ∧ Dropped a a' v l := by
  obtain ⟨slots, hslots, -⟩ := LawfulSlab.remove_some a.slots _ l hv
  have hcount := fun p => LawfulSlab.count_remove p hslots
  cases l with
  | register r =>
      obtain ⟨registers, hregisters, -⟩ :=
        LawfulSlab.remove_some a.registers _ () (h.register_used _ r hv)
      have hdrop : a.drop v = some { a with slots := slots, registers := registers } := by
        rw [Allocator.drop, hslots]
        simp [hregisters]
      obtain ⟨hsound, hget⟩ := drop_effect h hdrop
      refine ⟨_, hdrop, hsound, ⟨hs.len.trans (hcount _), hs.size⟩, hget, hcount, rfl, ?_⟩
      exact Or.inl ⟨r, rfl, hregisters⟩
  | stack s =>
      obtain ⟨stackSlots, hstack, -⟩ :=
        LawfulSlab.remove_some a.stackSlots _ () (h.stack_used _ s hv)
      have hdrop : a.drop v = some { a with slots := slots, stackSlots := stackSlots } := by
        rw [Allocator.drop, hslots]
        simp [hstack]
      obtain ⟨hsound, hget⟩ := drop_effect h hdrop
      have hlen : Slab.len stackSlots = LawfulSlab.count (fun l => !isRegister l) slots := by
        have hcounts := hcount fun l => !isRegister l
        rw [← hs.len, LawfulSlab.len_remove hstack] at hcounts
        exact Nat.add_right_cancel hcounts
      refine ⟨_, hdrop, hsound, ⟨hlen, ?_⟩, hget, hcount, rfl, Or.inr ⟨rfl, rfl⟩⟩
      exact (LawfulSlab.slots_length_remove hstack).trans hs.size

theorem location_of_drop {v : Value} (h : a.drop v = some a') : ∃ l, a.location v = some l := by
  simp only [drop, Option.bind_eq_bind] at h
  obtain ⟨⟨l, slots⟩, hrem, -⟩ := Option.bind_eq_some_iff.1 h
  exact ⟨l, (LawfulSlab.get?_remove hrem).1⟩

/-! ## The three pools -/

/-- **The invariant of an allocator of `regs` registers**: the register pool has room for them all, has
not handed out any other key, and each of its keys in use is the location of a value. -/
structure Balanced (regs : Nat) (a : Allocator σ) : Prop where
  sound : Sound a
  stacked : Stacked a
  capacity : Slab.capacity a.registers = regs
  registerKeys : ∃ h ≤ regs, LawfulSlab.HighWater a.registers h
  bound : ∀ r, Slab.get? a.registers r = some () →
    ∃ k, Slab.get? a.slots k = some (.register (BitVec.ofNat 16 r))

variable {regs : Nat}

theorem Balanced.register_lt (h : Balanced regs a) {r : Nat} (hr : Slab.get? a.registers r = some ()) :
    r < regs := by
  obtain ⟨mark, hle, hhigh⟩ := h.registerKeys
  exact Nat.lt_of_lt_of_le (hhigh.key_lt hr) hle

/-- When the register pool has no room, every register is the location of a value. -/
theorem Balanced.full (h : Balanced regs a)
    (hfull : ¬ Slab.len a.registers < Slab.capacity a.registers) {r : U16} (hr : r.toNat < regs) :
    ∃ k, Slab.get? a.slots k = some (.register r) := by
  rw [h.capacity] at hfull
  obtain ⟨u, hused⟩ := LawfulSlab.occupied_of_full (fun k v hk => h.register_lt hk) (by omega) hr
  have hbound := h.bound _ hused
  rwa [BitVec.ofNat_toNat, BitVec.setWidth_eq] at hbound

variable [LawfulCapacity σ]

theorem Balanced.allocated (h : Balanced regs a) {scope : BlockId} {v : Value} {l : Location}
    (halloc : Allocated a a' scope v l) : Balanced regs a' := by
  obtain ⟨mark, hle, hhigh⟩ := h.registerKeys
  -- what was bound stays bound, for the new value has a new slot
  have hkeep : ∀ r, (∃ k, Slab.get? a.slots k = some (.register r)) →
      ∃ k, Slab.get? a'.slots k = some (.register r) := by
    rintro r ⟨k, hk⟩
    refine ⟨k, ?_⟩
    rw [halloc.slots k, if_neg, hk]
    rintro rfl
    rw [halloc.free] at hk
    cases hk
  cases htaken : halloc.taken with
  | register hroom hregisters hstack hsize =>
      obtain ⟨-, mark', hle', hhigh'⟩ := hhigh.insert hle (by rw [← h.capacity]; exact hroom) ()
      refine ⟨halloc.sound, halloc.stacked, ?_, ⟨mark', hle', hregisters ▸ hhigh'⟩, ?_⟩
      · rw [hregisters, LawfulCapacity.capacity_insert _ _ hroom, h.capacity]
      · intro r hr
        rw [hregisters, LawfulSlab.get?_insert] at hr
        split at hr
        · next hkey =>
          refine ⟨v.slot.toNat, ?_⟩
          rw [halloc.slots, if_pos rfl, hkey]
        · exact hkeep _ (h.bound r hr)
  | stack hfull hregisters hstack hsize =>
      refine ⟨halloc.sound, halloc.stacked, ?_, ⟨mark, hle, hregisters ▸ hhigh⟩, ?_⟩
      · rw [hregisters, h.capacity]
      · intro r hr
        rw [hregisters] at hr
        exact hkeep _ (h.bound r hr)

theorem Balanced.dropped (h : Balanced regs a) {v : Value} {l : Location}
    (hv : a.location v = some l) (hdrop : Dropped a a' v l) (hregs : regs ≤ 65535) :
    Balanced regs a' := by
  obtain ⟨mark, hle, hhigh⟩ := h.registerKeys
  -- a register that is still in use is not the one of `v`
  have hkeep : ∀ r, Slab.get? a.registers r = some () → l ≠ .register (BitVec.ofNat 16 r) →
      ∃ k, Slab.get? a'.slots k = some (.register (BitVec.ofNat 16 r)) := by
    intro r hr hne
    obtain ⟨k, hk⟩ := h.bound r hr
    refine ⟨k, ?_⟩
    rw [hdrop.slots k, if_neg, hk]
    rintro rfl
    exact hne (Option.some.inj (hv.symm.trans hk))
  rcases hdrop.registers with ⟨reg, rfl, hremove⟩ | ⟨hstack, hregisters⟩
  · refine ⟨hdrop.sound, hdrop.stacked, ?_, ⟨mark, hle, hhigh.remove hremove⟩, ?_⟩
    · rw [LawfulCapacity.capacity_remove _ _ _ _ hremove, h.capacity]
    · intro r hr
      rw [(LawfulSlab.get?_remove hremove).2] at hr
      split at hr
      · cases hr
      · next hne =>
        apply hkeep r hr
        intro heq
        have hlt := h.register_lt hr
        rw [Location.register.inj heq, toNat_ofNat_of_lt (by omega)] at hne
        exact hne rfl
  · refine ⟨hdrop.sound, hdrop.stacked, ?_, ⟨mark, hle, hregisters ▸ hhigh⟩, ?_⟩
    · rw [hregisters, h.capacity]
    · intro r hr
      rw [hregisters] at hr
      apply hkeep r hr
      rintro rfl
      cases hstack

/-! ## The initial allocator -/

theorem fillPool_capacity (n : Nat) (pool : σ Unit) (h : Slab.len pool + n ≤ Slab.capacity pool) :
    Slab.capacity (fillPool n pool) = Slab.capacity pool := by
  induction n generalizing pool with
  | zero => rfl
  | succ n ih =>
      have hroom : Slab.capacity (Slab.insert pool ()).2 = Slab.capacity pool :=
        LawfulCapacity.capacity_insert pool () (by omega)
      rw [fillPool, ih, hroom]
      rw [LawfulSlab.len_insert, hroom]
      omega

omit [LawfulSlab σ] in
theorem drainPool_capacity {n : Nat} {pool out : σ Unit} (h : drainPool n pool = some out) :
    Slab.capacity out = Slab.capacity pool := by
  induction n generalizing pool with
  | zero =>
      obtain rfl := Option.some.inj h
      rfl
  | succ n ih =>
      obtain ⟨⟨u, rest⟩, hremove, hrest⟩ := Option.bind_eq_some_iff.1 h
      rw [ih hrest, LawfulCapacity.capacity_remove _ _ _ _ hremove]

omit [LawfulCapacity σ] in
theorem len_withCapacity {α : Type} (n : Nat) : Slab.len (Slab.withCapacity n : σ α) = 0 := by
  rw [LawfulSlab.len_eq, LawfulSlab.slots_withCapacity]
  rfl

omit [LawfulCapacity σ] in
theorem new_stacked {regs : Nat} (h : Allocator.new regs = some a) : Stacked a := by
  obtain ⟨pool, -, rfl⟩ := Option.map_eq_some_iff.1 h
  constructor
  · rw [len_withCapacity, LawfulSlab.count, LawfulSlab.slots_withCapacity]
    rfl
  · rw [LawfulSlab.slots_withCapacity]
    rfl

/-- **A new allocator** is balanced and holds nothing. -/
theorem new_balanced (regs : Nat) : ∃ a : Allocator σ, Allocator.new regs = some a ∧
    Balanced regs a ∧ (∀ k, Slab.get? a.slots k = none) ∧ Slab.len a.slots = 0 ∧
      Slab.len a.stackSlots = 0 ∧ a.stackSize = 0 := by
  obtain ⟨a, ha, hsound, hnone⟩ : ∃ a : Allocator σ, _ := new_sound regs
  obtain ⟨pool, hpool, hhigh, -⟩ : ∃ out : σ Unit, _ := drained_pool regs
  have hnew := ha
  rw [Allocator.new, hpool] at hnew
  obtain rfl := Option.some.inj hnew
  refine ⟨_, ha, ⟨hsound, new_stacked ha, ?_, ⟨0, Nat.zero_le _, hhigh⟩, ?_⟩, hnone,
    len_withCapacity 0, len_withCapacity 0, rfl⟩
  · rw [drainPool_capacity hpool, fillPool_capacity, LawfulCapacity.capacity_withCapacity]
    rw [len_withCapacity, LawfulCapacity.capacity_withCapacity, Nat.zero_add]
  · intro r hr
    exact absurd (hhigh.key_lt hr) (Nat.not_lt_zero r)

end Allocator

/-! ## The ledger -/

/-- An allocator with its history. -/
structure Ledger (σ : Type → Type) where
  allocator : Allocator σ
  /-- The values that were returned and not dropped since, with the locations they were given. -/
  live : List (Value × Location)
  /-- The stack slots handed out so far. -/
  handed : List U16
  /-- The largest number of values that were on the stack at once. -/
  peak : Nat

/-- A call of the allocator's interface. -/
inductive AllocatorOp where
  | allocate (scope : BlockId)
  | drop (value : Value)

namespace Ledger

/-- How many live values are on the stack. -/
def stackCount (live : List (Value × Location)) : Nat :=
  live.countP fun entry => !Allocator.isRegister entry.2

def stackSlot : Location → Option U16
  | .stack slot => some slot
  | .register _ => none

/-- What an `allocate` that returned `value` adds to the records. -/
def record (self : Ledger σ) (a : Allocator σ) (value : Option Value) : Ledger σ :=
  match value.bind fun v => (a.location v).map fun l => (v, l) with
  | none => { self with allocator := a }
  | some entry =>
      { allocator := a
        live := self.live ++ [entry]
        handed := self.handed ++ (stackSlot entry.2).toList
        peak := max self.peak (stackCount (self.live ++ [entry])) }

/-- One call; only a live value can be dropped. -/
def next (checks : Bool) (self : Ledger σ) : AllocatorOp → Option (Ledger σ)
  | .allocate scope =>
      (self.allocator.allocate checks scope).map fun (value, a) => self.record a value
  | .drop value => do
      let entry ← self.live.find? fun entry => entry.1 = value
      let a ← self.allocator.drop value
      return { self with
        allocator := a
        live := self.live.erase entry }

/-- A new allocator. -/
def start (regs : Nat) : Option (Ledger σ) :=
  (Allocator.new regs).map fun a => ⟨a, [], [], 0⟩

end Ledger

/-- All sequences of calls on a new allocator. -/
def ledgerSystem (σ : Type → Type) [Slab σ] (checks : Bool) (regs : Nat) :
    System (Ledger σ) AllocatorOp where
  init s := Ledger.start regs = some s
  step s op s' := s.next checks op = some s'

namespace Ledger

/-- **The invariant of the runs**: the records and the pools agree. -/
structure Kept (regs : Nat) (s : Ledger σ) : Prop where
  balanced : s.allocator.Balanced regs
  located : ∀ entry ∈ s.live, s.allocator.location entry.1 = some entry.2
  slots_nodup : (s.live.map (·.1.slot)).Nodup
  complete : ∀ k l, Slab.get? s.allocator.slots k = some l →
    ∃ entry ∈ s.live, entry.1.slot.toNat = k
  count : Slab.len s.allocator.slots = s.live.length
  stackCount : Slab.len s.allocator.stackSlots = stackCount s.live
  handed : ∀ slot ∈ s.handed, slot.toNat < s.allocator.stackSize.toNat
  peak : s.allocator.stackSize.toNat = s.peak

variable {checks : Bool} {regs : Nat} {s s' : Ledger σ}

theorem Kept.nodup (h : Kept regs s) : s.live.Nodup :=
  List.Nodup.of_map _ h.slots_nodup

/-- A live value is not in a free slot. -/
theorem Kept.slot_ne (h : Kept regs s) {v : Value}
    (hfree : Slab.get? s.allocator.slots v.slot.toNat = none) {entry : Value × Location}
    (hentry : entry ∈ s.live) : entry.1.slot ≠ v.slot := by
  intro he
  have hloc := h.located entry hentry
  rw [Allocator.location, he, hfree] at hloc
  cases hloc

/-- What an allocation adds. -/
theorem record_of_allocated {scope : BlockId} {v : Value} {l : Location} {a' : Allocator σ}
    (halloc : Allocator.Allocated s.allocator a' scope v l) :
    s.record a' (some v) =
      { allocator := a'
        live := s.live ++ [(v, l)]
        handed := s.handed ++ (stackSlot l).toList
        peak := max s.peak (Ledger.stackCount (s.live ++ [(v, l)])) } := by
  have hloc : a'.location v = some l := by
    rw [Allocator.location, halloc.slots, if_pos rfl]
  simp only [record, Option.bind_some, hloc, Option.map_some]

variable [LawfulCapacity σ]

theorem kept_start (h : start regs = some s) : Kept regs s := by
  obtain ⟨a, ha, rfl⟩ := Option.map_eq_some_iff.1 h
  obtain ⟨a', ha', hbalanced, hnone, hslots, hstack, hsize⟩ : ∃ a : Allocator σ, _ :=
    Allocator.new_balanced regs
  rw [ha] at ha'
  obtain rfl := Option.some.inj ha'
  refine ⟨hbalanced, by simp, List.nodup_nil, ?_, hslots, hstack, by simp, by rw [hsize]; rfl⟩
  intro k l hk
  rw [hnone] at hk
  cases hk

theorem Kept.allocated (h : Kept regs s) {scope : BlockId} {v : Value} {l : Location}
    {a' : Allocator σ} (halloc : Allocator.Allocated s.allocator a' scope v l) :
    Kept regs (s.record a' (some v)) := by
  rw [record_of_allocated halloc]
  have hfree : ∀ entry ∈ s.live, entry.1.slot ≠ v.slot := fun entry => h.slot_ne halloc.free
  have hstack := halloc.stacked.len
  rw [halloc.count, ← h.balanced.stacked.len, h.stackCount] at hstack
  have hcount : Ledger.stackCount (s.live ++ [(v, l)]) =
      Ledger.stackCount s.live + if !Allocator.isRegister l then 1 else 0 := by
    rw [Ledger.stackCount, List.countP_append, List.countP_singleton]
    rfl
  have hlen := halloc.count fun _ => true
  rw [← LawfulSlab.len_eq_count, ← LawfulSlab.len_eq_count, h.count] at hlen
  constructor
  case balanced => exact h.balanced.allocated halloc
  case located =>
    intro entry hentry
    rw [Allocator.location, halloc.slots]
    rcases List.mem_append.1 hentry with hentry | hentry
    · rw [if_neg fun he => hfree entry hentry (BitVec.eq_of_toNat_eq he)]
      exact h.located entry hentry
    · obtain rfl := List.mem_singleton.1 hentry
      exact if_pos rfl
  case slots_nodup =>
    rw [List.map_append, List.nodup_append]
    refine ⟨h.slots_nodup, by simp, ?_⟩
    intro slot hslot slot' hslot' he
    obtain ⟨entry, hentry, rfl⟩ := List.mem_map.1 hslot
    obtain rfl : slot' = v.slot := by simpa using hslot'
    exact hfree entry hentry he
  case complete =>
    intro k l' hk
    rw [halloc.slots] at hk
    split at hk
    · next hkv => exact ⟨(v, l), List.mem_append_right _ List.mem_cons_self, hkv.symm⟩
    · obtain ⟨entry, hentry, hslot⟩ := h.complete k l' hk
      exact ⟨entry, List.mem_append_left _ hentry, hslot⟩
  case count => simpa using hlen
  case stackCount => rw [hstack, hcount]
  case handed =>
    intro slot hslot
    rcases List.mem_append.1 hslot with hslot | hslot
    · have hold := h.handed slot hslot
      cases halloc.taken with
      | register hroom hregisters hpool hsize => rwa [hsize]
      | stack hfull hregisters hpool hsize => rw [hsize]; omega
    · -- the slot of the new value itself
      cases halloc.taken with
      | register hroom hregisters hpool hsize => cases hslot
      | stack hfull hregisters hpool hsize =>
          obtain rfl : slot = _ := by simpa [stackSlot] using hslot
          have hbound := a'.stackSize.isLt
          rw [hsize] at hbound ⊢
          rw [toNat_ofNat_of_lt (by omega)]
          omega
  case peak =>
    have hold := h.peak
    have hslots := h.balanced.stacked.size
    have hle := LawfulSlab.len_le_slots s.allocator.stackSlots
    cases halloc.taken with
    | register hroom hregisters hpool hsize =>
        rw [hsize]
        simp only [hcount, Allocator.isRegister, Bool.not_true, Bool.false_eq_true, if_false]
        have hstackCount := h.stackCount
        omega
    | stack hfull hregisters hpool hsize =>
        -- the pool grows exactly when more values than ever are on the stack
        obtain ⟨hlive, hkey⟩ := LawfulSlab.slots_length_insert s.allocator.stackSlots ()
        simp only [hcount, Allocator.isRegister, Bool.not_false, if_true]
        rw [h.stackCount] at hlive
        omega

theorem Kept.dropped (h : Kept regs s) (hregs : regs ≤ 65535) {entry : Value × Location}
    (hentry : entry ∈ s.live) {a' : Allocator σ}
    (hdrop : Allocator.Dropped s.allocator a' entry.1 entry.2) :
    Kept regs { s with
      allocator := a'
      live := s.live.erase entry } := by
  have hloc := h.located entry hentry
  have hperm := List.perm_cons_erase hentry
  -- the other live values sit in other slots
  have hother : ∀ other ∈ s.live.erase entry, other ∈ s.live ∧ other.1.slot ≠ entry.1.slot := by
    intro other hother
    refine ⟨List.mem_of_mem_erase hother, fun he => ?_⟩
    have hnodup := (hperm.map (·.1.slot)).nodup h.slots_nodup
    rw [List.map_cons, List.nodup_cons] at hnodup
    exact hnodup.1 (List.mem_map.2 ⟨other, hother, he⟩)
  have hcount : Ledger.stackCount s.live =
      Ledger.stackCount (s.live.erase entry) + if !Allocator.isRegister entry.2 then 1 else 0 := by
    rw [Ledger.stackCount, hperm.countP_eq, List.countP_cons]
    rfl
  constructor
  case balanced => exact h.balanced.dropped hloc hdrop hregs
  case located =>
    intro other hmem
    obtain ⟨hold, hne⟩ := hother other hmem
    rw [Allocator.location, hdrop.slots, if_neg fun he => hne (BitVec.eq_of_toNat_eq he)]
    exact h.located other hold
  case slots_nodup =>
    have hnodup := (hperm.map (·.1.slot)).nodup h.slots_nodup
    exact (List.nodup_cons.1 hnodup).2
  case complete =>
    intro k l hk
    rw [hdrop.slots] at hk
    split at hk
    · cases hk
    · next hne =>
      obtain ⟨other, hmem, hslot⟩ := h.complete k l hk
      refine ⟨other, (List.mem_erase_of_ne fun he => ?_).2 hmem, hslot⟩
      exact hne (by rw [← hslot, he])
  case count =>
    have hlen := hdrop.count fun _ => true
    rw [← LawfulSlab.len_eq_count, ← LawfulSlab.len_eq_count, h.count, hperm.length_eq,
      List.length_cons] at hlen
    exact (Nat.add_right_cancel hlen).symm
  case stackCount =>
    have hstack := hdrop.count fun l => !Allocator.isRegister l
    rw [← hdrop.stacked.len, ← h.balanced.stacked.len, h.stackCount, hcount] at hstack
    exact (Nat.add_right_cancel hstack).symm
  case handed =>
    rw [hdrop.size]
    exact h.handed
  case peak =>
    rw [hdrop.size]
    exact h.peak

/-- **Every call keeps the invariant.** -/
theorem Kept.next (h : Kept regs s) (hregs : regs ≤ 65535) {op : AllocatorOp}
    (hstep : s.next checks op = some s') : Kept regs s' := by
  cases op with
  | allocate scope =>
      obtain ⟨⟨value, a⟩, ha, rfl⟩ := Option.map_eq_some_iff.1 hstep
      rcases Allocator.allocate_spec checks h.balanced.sound h.balanced.stacked scope with
        ⟨-, hnone⟩ | ⟨-, v, l, a', hsome, halloc⟩
      · rw [hnone] at ha
        obtain ⟨rfl, rfl⟩ := Prod.mk.inj (Option.some.inj ha)
        exact h
      · rw [hsome] at ha
        obtain ⟨rfl, rfl⟩ := Prod.mk.inj (Option.some.inj ha)
        exact h.allocated halloc
  | drop value =>
      simp only [Ledger.next, Option.bind_eq_bind, Option.pure_def] at hstep
      obtain ⟨entry, hfind, hstep⟩ := Option.bind_eq_some_iff.1 hstep
      obtain ⟨a, ha, hstep⟩ := Option.bind_eq_some_iff.1 hstep
      obtain rfl := Option.some.inj hstep
      have hentry := List.mem_of_find?_eq_some hfind
      obtain rfl : entry.1 = value := by simpa using List.find?_some hfind
      obtain ⟨a', hdrop, heffect⟩ := Allocator.drop_spec h.balanced.sound h.balanced.stacked
        (h.located entry hentry)
      rw [ha] at hdrop
      obtain rfl := Option.some.inj hdrop
      exact h.dropped hregs hentry heffect

end Ledger

/-! ## All runs -/

/-- No key is too large for the `u16` it is narrowed to, and neither is the successor of a stack slot. -/
structure KeysFit (a : Allocator σ) : Prop where
  register : Slab.len a.registers < Slab.capacity a.registers →
    (Slab.insert a.registers ()).1 < 2 ^ 16
  stack : (Slab.insert a.stackSlots ()).1 + 1 < 2 ^ 16
  slot : ∀ l, (Slab.insert a.slots l).1 < 2 ^ 16

/-- What an `allocate` returns and leaves behind. -/
structure Allocates (regs : Nat) (s : Ledger σ) (value : Option Value) (a' : Allocator σ) : Prop where
  none_iff : value = none ↔ s.live.length = 65535
  unchanged : value = none → a' = s.allocator
  stackSize_le : s.allocator.stackSize.toNat ≤ a'.stackSize.toNat
  /-- A value goes on the stack only when all registers are live. -/
  greedy : ∀ v slot, value = some v → a'.location v = some (.stack slot) →
    ∀ r : U16, r.toNat < regs → ∃ w, (w, Location.register r) ∈ s.live

/-- The laws of the allocator in one state of a run. -/
structure AllocatorLaws (checks : Bool) (regs : Nat) (s : Ledger σ) : Prop where
  located : ∀ v l, (v, l) ∈ s.live → s.allocator.location v = some l
  distinct : (s.live.map (·.2)).Nodup
  registers : ∀ v r, (v, Location.register r) ∈ s.live → r.toNat < regs
  handed : ∀ slot ∈ s.handed, slot.toNat < s.allocator.stackSize.toNat
  peak : s.allocator.stackSize.toNat = s.peak
  keysFit : Slab.len s.allocator.slots < 65535 → KeysFit s.allocator
  allocates : ∀ scope, ∃ value a', s.allocator.allocate checks scope = some (value, a') ∧
    Allocates regs s value a'
  drops : ∀ v l, (v, l) ∈ s.live → ∃ a', s.allocator.drop v = some a' ∧
    a'.stackSize = s.allocator.stackSize

namespace Ledger

variable {checks : Bool} {regs : Nat} {s : Ledger σ}

theorem Kept.keysFit (h : Kept regs s) (hregs : regs ≤ 65535)
    (hlen : Slab.len s.allocator.slots < 65535) : KeysFit s.allocator := by
  obtain ⟨mark, hle, hhigh⟩ := h.balanced.sound.slotKeys
  obtain ⟨rmark, hrle, hrhigh⟩ := h.balanced.registerKeys
  constructor
  case register =>
    intro hroom
    rw [h.balanced.capacity] at hroom
    have hkey := (hrhigh.insert hrle hroom ()).1
    omega
  case stack => exact h.balanced.stacked.key_lt hlen
  case slot =>
    intro l
    have hkey := (hhigh.insert hle hlen l).1
    omega

theorem Kept.allocates (h : Kept regs s) (checks : Bool) (scope : BlockId) :
    ∃ value a', s.allocator.allocate checks scope = some (value, a') ∧
      Allocates regs s value a' := by
  have hslots : Slab.len s.allocator.slots ≤ 65535 := by
    obtain ⟨mark, hle, hhigh⟩ := h.balanced.sound.slotKeys
    have hkeys : ∀ k v, Slab.get? s.allocator.slots k = some v → k < 65535 :=
      fun k v hk => Nat.lt_of_lt_of_le (hhigh.key_lt hk) hle
    by_contra hgt
    obtain ⟨v, hv⟩ := LawfulSlab.occupied_of_full (n := 65536) (k := 65535)
      (fun k v hk => Nat.lt_succ_of_lt (hkeys k v hk)) (by omega) (by omega)
    exact Nat.lt_irrefl _ (hkeys _ _ hv)
  rcases Allocator.allocate_spec checks h.balanced.sound h.balanced.stacked scope with
    ⟨hfull, hnone⟩ | ⟨hroom, v, l, a', hsome, halloc⟩
  · refine ⟨none, s.allocator, hnone, ?_, fun _ => rfl, Nat.le_refl _, by simp⟩
    have hcount := h.count
    exact iff_of_true rfl (by omega)
  · refine ⟨some v, a', hsome, ?_, by simp, ?_, ?_⟩
    · have hcount := h.count
      exact iff_of_false (by simp) (by omega)
    · cases halloc.taken with
      | register hroom hregisters hpool hsize => rw [hsize]
      | stack hfull hregisters hpool hsize => rw [hsize]; exact Nat.le_max_left _ _
    · intro v' slot hv hloc r hr
      obtain rfl := Option.some.inj hv
      rw [Allocator.location, halloc.slots, if_pos rfl] at hloc
      obtain rfl := Option.some.inj hloc
      cases halloc.taken with
      | stack hfull hregisters hpool hsize =>
          -- the register pool has no room, so every register is bound to a live value
          obtain ⟨k, hk⟩ := h.balanced.full hfull hr
          obtain ⟨entry, hentry, hslot⟩ := h.complete k _ hk
          have hloc := h.located entry hentry
          rw [Allocator.location, hslot, hk] at hloc
          refine ⟨entry.1, ?_⟩
          rw [Option.some.inj hloc]
          exact hentry

theorem Kept.lawful (h : Kept regs s) (hregs : regs ≤ 65535) (checks : Bool) :
    AllocatorLaws checks regs s := by
  constructor
  case located => exact fun v l hv => h.located (v, l) hv
  case distinct =>
    refine List.Nodup.map_on ?_ h.nodup
    intro entry hentry other hother he
    have hslot := h.balanced.sound.location_inj _ _ _ (h.located entry hentry)
      (he ▸ h.located other hother)
    exact List.inj_on_of_nodup_map h.slots_nodup hentry hother (BitVec.eq_of_toNat_eq hslot)
  case registers =>
    intro v r hv
    exact h.balanced.register_lt (h.balanced.sound.register_used _ _ (h.located _ hv))
  case handed => exact h.handed
  case peak => exact h.peak
  case keysFit => exact h.keysFit hregs
  case allocates => exact h.allocates checks
  case drops =>
    intro v l hv
    obtain ⟨a', hdrop, heffect⟩ := Allocator.drop_spec h.balanced.sound h.balanced.stacked
      (h.located _ hv)
    exact ⟨a', hdrop, heffect.size⟩

end Ledger

variable [LawfulCapacity σ]

/-- **The laws of the allocator hold in every state of every run**, for every number of registers that
fits `u16`. -/
theorem allocator_runs (checks : Bool) {regs : Nat} (hregs : regs ≤ 65535) :
    (∃ a : Allocator σ, Allocator.new regs = some a) ∧
      ∀ s, (ledgerSystem σ checks regs).Reachable s → AllocatorLaws checks regs s := by
  constructor
  · obtain ⟨a, ha, -⟩ : ∃ a : Allocator σ, _ := Allocator.new_balanced regs
    exact ⟨a, ha⟩
  · intro s h
    have hkept : s.Kept regs := by
      refine System.Reachable.invariant ?_ ?_ h
      · exact fun _ h0 => Ledger.kept_start h0
      · exact fun _ _ _ _ hk hstep => hk.next hregs hstep
    exact hkept.lawful hregs checks

/-- One register: the second value is spilled, and the register is handed out again when it is free. -/
theorem allocator_runs_one : ∃ s : Ledger VecSlab, AllocatorLaws true 1 s ∧
    s.live = [(⟨1, 0⟩, .stack 0), (⟨0, 0⟩, .register 0)] ∧ s.peak = 1 := by
  have hrun : ((Ledger.start 1).bind (System.runAll (Ledger.next true)
      [.allocate 0, .allocate 0, .drop ⟨0, 0⟩, .allocate 0])).map
        (fun s : Ledger VecSlab => (s.live, s.peak)) =
          some ([(⟨1, 0⟩, .stack 0), (⟨0, 0⟩, .register 0)], 1) := by
    decide +kernel
  obtain ⟨s, hs, hstate⟩ := Option.map_eq_some_iff.1 hrun
  obtain ⟨s₀, h₀, hrest⟩ := Option.bind_eq_some_iff.1 hs
  obtain ⟨hlive, hpeak⟩ := Prod.mk.inj hstate
  have hreach : (ledgerSystem VecSlab true 1).Reachable s :=
    System.reachable_of_runAll (fun _ _ _ h => h) (.init h₀) hrest
  exact ⟨s, (allocator_runs true (by omega)).2 s hreach, hlive, hpeak⟩

end Patchouly.Managed
