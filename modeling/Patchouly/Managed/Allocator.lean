import Patchouly.Core.Stencils
import Patchouly.Lib.Slab

/-!
# The variable allocator (`src/regs.rs`)

An `Allocator` hands out `Value`s: a slot number and the block that owns the variable. The location
of a slot is a register as long as the register pool has room and a stack slot after that. The three
pools are slabs (`Patchouly.Lib.Slab`).

`Allocator.Sound` is the invariant of the allocator: the keys of its pools fit `u16`, so no cast
truncates, and different occupied slots have different locations (`Sound.location_inj`).
-/

set_option autoImplicit false

namespace Patchouly.Managed

open Patchouly.Lib Patchouly.Core

/-- `BlockId(u16)`. -/
abbrev BlockId := U16

structure Value where
  slot : U16
  scope : BlockId
  deriving DecidableEq

structure Allocator (σ : Type → Type) where
  slots : σ Location
  registers : σ Unit
  stackSlots : σ Unit
  stackSize : U16

/-- The first loop of `Allocator::new`: `n` insertions. -/
def fillPool {σ : Type → Type} [Slab σ] : Nat → σ Unit → σ Unit
  | 0, pool => pool
  | n + 1, pool => fillPool n (Slab.insert pool ()).2

/-- The second loop of `Allocator::new`: the keys below `n` are removed, highest first. -/
def drainPool {σ : Type → Type} [Slab σ] : Nat → σ Unit → Option (σ Unit)
  | 0, pool => some pool
  | n + 1, pool => (Slab.remove pool n).bind fun removed => drainPool n removed.2

namespace Allocator

variable {σ : Type → Type} [Slab σ]

def new (regs : Nat) : Option (Allocator σ) :=
  (drainPool regs (fillPool regs (Slab.withCapacity regs))).map fun regPool =>
    { slots := Slab.withCapacity 0
      registers := regPool
      stackSlots := Slab.withCapacity 0
      stackSize := 0 }

def location (self : Allocator σ) (value : Value) : Option Location :=
  Slab.get? self.slots value.slot.toNat

def drop (self : Allocator σ) (value : Value) : Option (Allocator σ) := do
  let (location, slots) ← Slab.remove self.slots value.slot.toNat
  match location with
  | .register reg =>
      let (_, registers) ← Slab.remove self.registers reg.toNat
      return { self with slots := slots, registers := registers }
  | .stack slot =>
      let (_, stackSlots) ← Slab.remove self.stackSlots slot.toNat
      return { self with slots := slots, stackSlots := stackSlots }

/-- The end of `allocate`: the location gets a slot. -/
def bindSlot (self : Allocator σ) (location : Location) (scope : BlockId) : Value × Allocator σ :=
  let (slot, slots) := Slab.insert self.slots location
  (⟨BitVec.ofNat 16 slot, scope⟩, { self with slots := slots })

/-- A stack slot whose number does not fit `u16` is lost: it stays occupied and nothing is
returned. -/
def allocate (checks : Bool) (self : Allocator σ) (scope : BlockId) :
    Option (Option Value × Allocator σ) :=
  if 65535 ≤ Slab.len self.slots then some (none, self)
  else if Slab.len self.registers < Slab.capacity self.registers then
    let (reg, registers) := Slab.insert self.registers ()
    let (value, self) :=
      { self with registers := registers }.bindSlot (.register (BitVec.ofNat 16 reg)) scope
    some (some value, self)
  else
    let (slot, stackSlots) := Slab.insert self.stackSlots ()
    let self := { self with stackSlots := stackSlots }
    if 65536 ≤ slot then some (none, self)
    else
      (plainAdd checks (BitVec.ofNat 16 slot) 1).map fun next =>
        let stackSize := if self.stackSize.toNat ≤ next.toNat then next else self.stackSize
        let (value, self) :=
          { self with stackSize := stackSize }.bindSlot (.stack (BitVec.ofNat 16 slot)) scope
        (some value, self)

/-! ## The invariant -/

/-- Whether a location is a register. -/
def isRegister : Location → Bool
  | .register _ => true
  | .stack _ => false

/-- **The invariant of the allocator.** -/
structure Sound [LawfulSlab σ] (a : Allocator σ) : Prop where
  slotKeys : ∃ h ≤ 65535, LawfulSlab.HighWater a.slots h
  registerKeys : ∃ h ≤ 65535, LawfulSlab.HighWater a.registers h
  registerCount : Slab.len a.registers = LawfulSlab.count isRegister a.slots
  register_used : ∀ k r, Slab.get? a.slots k = some (.register r) →
    Slab.get? a.registers r.toNat = some ()
  stack_used : ∀ k s, Slab.get? a.slots k = some (.stack s) →
    Slab.get? a.stackSlots s.toNat = some ()
  location_inj : ∀ j k l, Slab.get? a.slots j = some l → Slab.get? a.slots k = some l → j = k

/-- `location` is reserved in its pool and not bound to a slot yet; all else is sound. -/
structure Reserved [LawfulSlab σ] (a : Allocator σ) (location : Location) : Prop where
  slotKeys : ∃ h ≤ 65535, LawfulSlab.HighWater a.slots h
  registerKeys : ∃ h ≤ 65535, LawfulSlab.HighWater a.registers h
  registerCount : Slab.len a.registers =
    LawfulSlab.count isRegister a.slots + if isRegister location then 1 else 0
  register_used : ∀ r, location = .register r ∨
    (∃ k, Slab.get? a.slots k = some (.register r)) →
      Slab.get? a.registers r.toNat = some ()
  stack_used : ∀ s, location = .stack s ∨ (∃ k, Slab.get? a.slots k = some (.stack s)) →
    Slab.get? a.stackSlots s.toNat = some ()
  location_inj : ∀ j k l, Slab.get? a.slots j = some l → Slab.get? a.slots k = some l → j = k
  fresh : ∀ k, Slab.get? a.slots k ≠ some location

variable [LawfulSlab σ]

/-- Binding a reserved location gives a fresh slot, whose number fits `u16`. -/
theorem Reserved.bindSlot {a : Allocator σ} {location : Location} (h : Reserved a location)
    (hlen : Slab.len a.slots < 65535) (scope : BlockId) :
    Sound (a.bindSlot location scope).2 ∧ (a.bindSlot location scope).1.scope = scope ∧
      (∀ v : Value, v.slot = (a.bindSlot location scope).1.slot → a.location v = none) ∧
      ∀ k, Slab.get? (a.bindSlot location scope).2.slots k =
        if k = (a.bindSlot location scope).1.slot.toNat then some location
        else Slab.get? a.slots k := by
  obtain ⟨hw, hle, hhigh⟩ := h.slotKeys
  obtain ⟨hkey, hhigh'⟩ := hhigh.insert hle hlen location
  have hcast : (BitVec.ofNat 16 (Slab.insert a.slots location).1).toNat =
      (Slab.insert a.slots location).1 := by
    rw [toNat_ofNat_of_lt (by omega)]
  -- the key of the new slot fits `u16`, so the cast in the value keeps it
  have hget := LawfulSlab.get?_insert a.slots location
  refine ⟨⟨hhigh', h.registerKeys, ?_, ?_, ?_, ?_⟩, rfl, ?_, ?_⟩
  · rw [Allocator.bindSlot, LawfulSlab.count_insert]
    exact h.registerCount
  · intro k r hk
    simp only [Allocator.bindSlot, hget] at hk
    split at hk
    · exact h.register_used r (Or.inl (Option.some.inj hk))
    · exact h.register_used r (Or.inr ⟨k, hk⟩)
  · intro k s hk
    simp only [Allocator.bindSlot, hget] at hk
    split at hk
    · exact h.stack_used s (Or.inl (Option.some.inj hk))
    · exact h.stack_used s (Or.inr ⟨k, hk⟩)
  · intro j k l hj hk
    simp only [Allocator.bindSlot, hget] at hj hk
    split at hj
    · next hje =>
      obtain rfl := Option.some.inj hj
      split at hk
      · next hke => rw [hje, hke]
      · exact absurd hk (h.fresh k)
    · split at hk
      · obtain rfl := Option.some.inj hk
        exact absurd hj (h.fresh j)
      · exact h.location_inj j k l hj hk
  · intro v hv
    rw [Allocator.location, hv]
    simp only [Allocator.bindSlot, hcast]
    exact LawfulSlab.get?_insert_key a.slots location
  · intro k
    simp only [Allocator.bindSlot, hcast]
    exact hget k

/-- Reserving a register. -/
theorem Sound.reserveRegister {a : Allocator σ} (h : Sound a) (hlen : Slab.len a.slots < 65535) :
    Reserved { a with registers := (Slab.insert a.registers ()).2 }
      (.register (BitVec.ofNat 16 (Slab.insert a.registers ()).1)) := by
  obtain ⟨hw, hle, hhigh⟩ := h.registerKeys
  have hcount := LawfulSlab.count_le_len isRegister a.slots
  -- there are at most as many registers in use as slots, so the register's key fits as well
  obtain ⟨hkey, hhigh'⟩ := hhigh.insert hle (by rw [h.registerCount]; omega) ()
  have hcast : (BitVec.ofNat 16 (Slab.insert a.registers ()).1).toNat =
      (Slab.insert a.registers ()).1 := by
    rw [toNat_ofNat_of_lt (by omega)]
  have hget := LawfulSlab.get?_insert a.registers ()
  refine ⟨h.slotKeys, hhigh', ?_, ?_, ?_, h.location_inj, ?_⟩
  · rw [LawfulSlab.len_eq_count, LawfulSlab.count_insert, ← LawfulSlab.len_eq_count,
      h.registerCount]
    rfl
  · intro r hr
    simp only [hget]
    split
    · rfl
    · next hne =>
      rcases hr with hr | ⟨k, hk⟩
      · rw [Location.register.injEq] at hr
        rw [← hr, hcast] at hne
        exact absurd rfl hne
      · exact h.register_used k r hk
  · intro s hs
    rcases hs with hs | ⟨k, hk⟩
    · cases hs
    · exact h.stack_used k s hk
  -- the register was vacant, so no slot holds it yet
  · intro k hk
    have hused := h.register_used k _ hk
    rw [hcast, LawfulSlab.get?_insert_key] at hused
    cases hused

/-- Reserving a stack slot whose number fits. -/
theorem Sound.reserveStack {a : Allocator σ} (h : Sound a) (size : U16)
    (hkey : (Slab.insert a.stackSlots ()).1 < 65536) :
    Reserved { a with stackSlots := (Slab.insert a.stackSlots ()).2, stackSize := size }
      (.stack (BitVec.ofNat 16 (Slab.insert a.stackSlots ()).1)) := by
  have hcast : (BitVec.ofNat 16 (Slab.insert a.stackSlots ()).1).toNat =
      (Slab.insert a.stackSlots ()).1 := by
    rw [toNat_ofNat_of_lt (by omega)]
  have hget := LawfulSlab.get?_insert a.stackSlots ()
  refine ⟨h.slotKeys, h.registerKeys, h.registerCount, ?_, ?_, h.location_inj, ?_⟩
  · intro r hr
    rcases hr with hr | ⟨k, hk⟩
    · cases hr
    · exact h.register_used k r hk
  · intro s hs
    simp only [hget]
    split
    · rfl
    · next hne =>
      rcases hs with hs | ⟨k, hk⟩
      · rw [Location.stack.injEq] at hs
        rw [← hs, hcast] at hne
        exact absurd rfl hne
      · exact h.stack_used k s hk
  · intro k hk
    have hused := h.stack_used k _ hk
    rw [hcast, LawfulSlab.get?_insert_key] at hused
    cases hused

/-- An insertion into the stack pool alone keeps the allocator sound. -/
theorem Sound.loseStack {a : Allocator σ} (h : Sound a) :
    Sound { a with stackSlots := (Slab.insert a.stackSlots ()).2 } where
  slotKeys := h.slotKeys
  registerKeys := h.registerKeys
  registerCount := h.registerCount
  register_used := h.register_used
  stack_used k s hk := by
    simp only [LawfulSlab.get?_insert]
    split
    · rfl
    · exact h.stack_used k s hk
  location_inj := h.location_inj

/-- **What `allocate` does**: nothing to the slots, or a fresh slot for the returned value. -/
theorem allocate_cases {checks : Bool} {a a' : Allocator σ} {scope : BlockId} {res : Option Value}
    (h : Sound a) (ha : a.allocate checks scope = some (res, a')) :
    Sound a' ∧
      ((res = none ∧ a'.slots = a.slots) ∨
        ∃ v l, res = some v ∧ v.scope = scope ∧ a.location v = none ∧
          ∀ k, Slab.get? a'.slots k =
            if k = v.slot.toNat then some l else Slab.get? a.slots k) := by
  rw [allocate] at ha
  -- no slot left; a free register; a stack slot, if its number fits
  split at ha
  · obtain ⟨rfl, rfl⟩ := Prod.mk.inj (Option.some.inj ha)
    exact ⟨h, Or.inl ⟨rfl, rfl⟩⟩
  · next hfull =>
    have hlen : Slab.len a.slots < 65535 := by omega
    split at ha
    · obtain ⟨rfl, rfl⟩ := Prod.mk.inj (Option.some.inj ha)
      obtain ⟨hs, hscope, hfresh, hslots⟩ := (h.reserveRegister hlen).bindSlot hlen scope
      exact ⟨hs, Or.inr ⟨_, _, rfl, hscope, hfresh _ rfl, hslots⟩⟩
    · simp only at ha
      split at ha
      · obtain ⟨rfl, rfl⟩ := Prod.mk.inj (Option.some.inj ha)
        exact ⟨h.loseStack, Or.inl ⟨rfl, rfl⟩⟩
      · next hkey =>
        obtain ⟨next, -, hout⟩ := Option.map_eq_some_iff.1 ha
        obtain ⟨rfl, rfl⟩ := Prod.mk.inj hout
        obtain ⟨hs, hscope, hfresh, hslots⟩ :=
          (h.reserveStack (if a.stackSize.toNat ≤ next.toNat then next else a.stackSize)
            (by omega)).bindSlot hlen scope
        exact ⟨hs, Or.inr ⟨_, _, rfl, hscope, hfresh _ rfl, hslots⟩⟩

/-- **What `drop` does**: it vacates the slot of the value. -/
theorem drop_effect {a a' : Allocator σ} {v : Value} (h : Sound a) (hd : a.drop v = some a') :
    Sound a' ∧ ∀ k, Slab.get? a'.slots k =
      if k = v.slot.toNat then none else Slab.get? a.slots k := by
  simp only [drop, Option.bind_eq_bind, Option.pure_def] at hd
  obtain ⟨⟨location, slots⟩, hrem, hd1⟩ := Option.bind_eq_some_iff.1 hd
  obtain ⟨hold, hget⟩ := LawfulSlab.get?_remove hrem
  obtain ⟨hw, hle, hhigh⟩ := h.slotKeys
  have hcount := LawfulSlab.count_remove isRegister hrem
  -- another slot has another location, so the pool entry that goes is not in use elsewhere
  have hother : ∀ k l, Slab.get? slots k = some l → Slab.get? a.slots k = some l ∧ l ≠ location := by
    intro k l hk
    rw [hget] at hk
    split at hk
    · cases hk
    · next hne =>
      refine ⟨hk, fun hl => hne ?_⟩
      exact h.location_inj k _ l hk (hl ▸ hold)
  have hinj : ∀ j k l, Slab.get? slots j = some l → Slab.get? slots k = some l → j = k :=
    fun j k l hj hk => h.location_inj j k l (hother j l hj).1 (hother k l hk).1
  cases location with
  | register reg =>
      obtain ⟨⟨u, registers⟩, hreg, hd2⟩ := Option.bind_eq_some_iff.1 hd1
      obtain rfl := Option.some.inj hd2
      obtain ⟨hrw, hrle, hrhigh⟩ := h.registerKeys
      have hrcount := LawfulSlab.count_remove (fun _ => true) hreg
      rw [← LawfulSlab.len_eq_count, ← LawfulSlab.len_eq_count, h.registerCount, hcount] at hrcount
      refine ⟨⟨⟨hw, hle, hhigh.remove hrem⟩, ⟨hrw, hrle, hrhigh.remove hreg⟩, ?_, ?_, ?_, hinj⟩,
        hget⟩
      · simp only [isRegister, if_true] at hrcount
        exact (Nat.add_right_cancel hrcount).symm
      · intro k r hk
        obtain ⟨hk', hne⟩ := hother k _ hk
        rw [(LawfulSlab.get?_remove hreg).2, if_neg, h.register_used k r hk']
        intro he
        exact hne (congrArg Location.register (BitVec.eq_of_toNat_eq he))
      · intro k s hk
        exact h.stack_used k s (hother k _ hk).1
  | stack slot =>
      obtain ⟨⟨u, stackSlots⟩, hstack, hd2⟩ := Option.bind_eq_some_iff.1 hd1
      obtain rfl := Option.some.inj hd2
      refine ⟨⟨⟨hw, hle, hhigh.remove hrem⟩, h.registerKeys, ?_, ?_, ?_, hinj⟩, hget⟩
      · rw [h.registerCount, hcount]
        rfl
      · intro k r hk
        exact h.register_used k r (hother k _ hk).1
      · intro k s hk
        obtain ⟨hk', hne⟩ := hother k _ hk
        rw [(LawfulSlab.get?_remove hstack).2, if_neg, h.stack_used k s hk']
        intro he
        exact hne (congrArg Location.stack (BitVec.eq_of_toNat_eq he))

/-! ## The initial allocator -/

theorem fillPool_slots (n : Nat) (pool : σ Unit) (h : Slab.vacant pool = []) :
    Slab.slots (fillPool n pool) = Slab.slots pool ++ List.replicate n (some ()) ∧
      Slab.vacant (fillPool n pool) = [] := by
  induction n generalizing pool with
  | zero => exact ⟨by simp [fillPool], h⟩
  | succ n ih =>
      obtain ⟨-, hslots, hvac⟩ := LawfulSlab.insert_nil pool () h
      obtain ⟨ihs, ihv⟩ := ih (Slab.insert pool ()).2 hvac
      refine ⟨?_, ihv⟩
      rw [fillPool, ihs, hslots, List.append_assoc, List.replicate_succ]
      rfl

theorem drainPool_vacant (n : Nat) (pool : σ Unit)
    (h : ∀ k < n, Slab.get? pool k = some ()) :
    ∃ out, drainPool n pool = some out ∧
      (Slab.slots out).length = (Slab.slots pool).length ∧
      Slab.vacant out = List.range n ++ Slab.vacant pool := by
  induction n generalizing pool with
  | zero => exact ⟨pool, rfl, rfl, by simp⟩
  | succ n ih =>
      obtain ⟨rest, hrem, hslots, hvac⟩ :=
        LawfulSlab.remove_some pool n () (h n (Nat.lt_succ_self n))
      have hrest : ∀ k < n, Slab.get? rest k = some () := by
        intro k hk
        rw [(LawfulSlab.get?_remove hrem).2, if_neg (by omega)]
        exact h k (by omega)
      obtain ⟨out, hout, hlen, hv⟩ := ih rest hrest
      refine ⟨out, ?_, ?_, ?_⟩
      · rw [drainPool, hrem, Option.bind_some, hout]
      · rw [hlen, hslots, List.length_set]
      · rw [hv, hvac, List.range_succ, List.append_assoc]
        rfl

/-- The register pool is filled and drained once, which leaves all registers vacant. -/
theorem drained_pool (regs : Nat) :
    ∃ out : σ Unit, drainPool regs (fillPool regs (Slab.withCapacity regs)) = some out ∧
      LawfulSlab.HighWater out 0 ∧ Slab.len out = 0 := by
  have hempty : Slab.slots (Slab.withCapacity regs : σ Unit) = [] :=
    LawfulSlab.slots_withCapacity regs
  obtain ⟨hslots, hvac⟩ := fillPool_slots regs (Slab.withCapacity regs : σ Unit)
    (LawfulSlab.vacant_eq_nil_of_slots hempty)
  rw [hempty, List.nil_append] at hslots
  have hfull : ∀ k < regs,
      Slab.get? (fillPool regs (Slab.withCapacity regs : σ Unit)) k = some () := by
    intro k hk
    rw [LawfulSlab.get?_eq, hslots, List.getElem?_replicate, if_pos hk]
    rfl
  obtain ⟨out, hout, hlen, hv⟩ := drainPool_vacant regs _ hfull
  rw [hslots, List.length_replicate] at hlen
  rw [hvac, List.append_nil] at hv
  have hhigh := LawfulSlab.highWater_of_vacant_range hlen hv
  refine ⟨out, hout, hhigh, ?_⟩
  apply hhigh.len_of_top
  rw [hv, hlen, List.range_eq_range', Nat.sub_zero]

/-- **`new` succeeds**, with all pools empty. -/
theorem new_sound (regs : Nat) : ∃ a : Allocator σ, Allocator.new regs = some a ∧ Sound a ∧
    ∀ k, Slab.get? a.slots k = none := by
  obtain ⟨out, hout, hhigh, hzero⟩ : ∃ out : σ Unit, _ := drained_pool regs
  have hnone : ∀ k, Slab.get? (Slab.withCapacity 0 : σ Location) k = none :=
    LawfulSlab.get?_withCapacity 0
  refine ⟨_, by rw [Allocator.new, hout]; rfl, ⟨?_, ?_, ?_, ?_, ?_, ?_⟩, hnone⟩
  · exact ⟨0, by omega, LawfulSlab.highWater_withCapacity 0⟩
  · exact ⟨0, by omega, hhigh⟩
  · rw [hzero, LawfulSlab.count, LawfulSlab.slots_withCapacity]
    rfl
  · intro k r hk
    rw [hnone] at hk
    cases hk
  · intro k s hk
    rw [hnone] at hk
    cases hk
  · intro j k l hj
    rw [hnone] at hj
    cases hj

/-- A new allocator hands out its registers in order. -/
theorem new_dense {regs : Nat} {a : Allocator σ} (h : Allocator.new regs = some a) :
    LawfulSlab.Dense a.registers 0 := by
  obtain ⟨out, hout, hhigh, -⟩ : ∃ out : σ Unit, _ := drained_pool regs
  rw [Allocator.new, hout] at h
  obtain rfl := Option.some.inj h
  exact .of_zero hhigh

end Allocator

end Patchouly.Managed
