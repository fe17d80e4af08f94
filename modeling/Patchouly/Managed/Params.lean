import Patchouly.Managed.Atomicity

/-!
# Parameters

`new_param` is `new_variable` behind a check of the block's parent, and the generated code of an entry
finds its argument `k` in register `k`. A `Signature` is a machine with the locations of the parameters it
has returned.

* `entry_params`: they follow the convention as long as the register pool hands out register `k` for
  parameter `k`; a parameter made later gets another register or a stack slot.
* `params_first`: the parameters that are made before any variable follow it, as many as there are
  registers.
-/

set_option autoImplicit false

namespace Patchouly.Managed

open Patchouly.Lib Patchouly.Core Patchouly.Patch PatchFunctionBuilder

variable {σ : Type → Type} {MAX_REGS : Nat} [Slab σ]

/-- The location of the parameter a call returns. -/
def Machine.param (checks : Bool) (m : Machine σ MAX_REGS) : Op MAX_REGS → List (Option Location)
  | .newParam =>
      match m.exec checks .newParam with
      | some (.ok (some v), m') => [m'.builder.allocator.location v]
      | _ => []
  | _ => []

/-- A machine with the locations of the parameters that `newParam` has returned, each as it was then. -/
abbrev Signature (σ : Type → Type) (MAX_REGS : Nat) :=
  System.Recorded (Machine σ MAX_REGS) (Option Location)

/-- All sequences of calls on a new builder. -/
def signatureSystem (σ : Type → Type) [Slab σ] (checks : Bool) (library : StencilLibrary MAX_REGS) :
    System (Signature σ MAX_REGS) (Op MAX_REGS) :=
  (machineSystem σ checks library).recorded (Machine.param checks)

/-- Where the generated code finds its argument `k`. -/
def Delivered (k : Nat) (l : Option Location) : Prop :=
  ∃ r : U16, l = some (.register r) ∧ r.toNat = k

/-- Each parameter was in the register of its argument. -/
def Follows (params : List (Option Location)) : Prop := ∀ k, ∀ l ∈ params[k]?, Delivered k l

/-- The block of the handle takes a parameter: it has no parent, and there is a slot for a value. -/
def Machine.takesParam (m : Machine σ MAX_REGS) : Bool :=
  (m.handles.head?.bind fun id => m.builder.blocks[id.toNat]?).any (·.parent.isNone) &&
    decide (Slab.len m.builder.allocator.slots < 65535)

/-- The register pool has a register left, and hands out register `k` next. -/
def Allocator.HandsOut (a : Allocator σ) (k : Nat) : Prop :=
  Slab.len a.registers < Slab.capacity a.registers ∧ Slab.vacantKey a.registers = k

instance (a : Allocator σ) (k : Nat) : Decidable (a.HandsOut k) :=
  inferInstanceAs (Decidable (_ ∧ _))

/-- A parameter is made where it gets the register of its argument. -/
def Arrives (s : Signature σ MAX_REGS) : Op MAX_REGS → Prop
  | .newParam => s.state.takesParam = true → s.state.builder.allocator.HandsOut s.record.length
  | _ => True

instance (s : Signature σ MAX_REGS) : (op : Op MAX_REGS) → Decidable (Arrives s op)
  | .newParam => inferInstanceAs (Decidable (_ → _))
  | .createBlock | .switchToEntry | .switchToBlock _ | .newVariable | .emit .. | .branch ..
  | .endBranch .. | .ret .. | .drop => .isTrue trivial

/-! ## One parameter -/

section Param

variable [LawfulSlab σ] {checks : Bool} {m m' : Machine σ MAX_REGS}

/-- A new location is register `k` exactly when the pool has a register left and hands out `k`. -/
theorem Allocator.Taken.delivered_iff {a a' : Allocator σ} {l : Location} (hs : a.Sound)
    (hlen : Slab.len a.slots < 65535) (h : Taken a a' l) (k : Nat) :
    Delivered k (some l) ↔ a.HandsOut k := by
  cases h with
  | register hroom =>
      obtain ⟨w, hle, hhigh⟩ := hs.registerKeys
      have hcount := LawfulSlab.count_le_len isRegister a.slots
      have hkey := (hhigh.insert hle (by rw [hs.registerCount]; omega) ()).1
      have hcast : (BitVec.ofNat 16 (Slab.insert a.registers ()).1).toNat =
          Slab.vacantKey a.registers := by
        rw [toNat_ofNat_of_lt (by omega), LawfulSlab.insert_key]
      constructor
      · rintro ⟨r, hr, rfl⟩
        obtain rfl := Location.register.inj (Option.some.inj hr)
        exact ⟨hroom, hcast.symm⟩
      · rintro ⟨-, rfl⟩
        exact ⟨_, rfl, hcast⟩
  | stack hfull =>
      constructor
      · rintro ⟨r, hr, -⟩
        cases hr
      · rintro ⟨hroom, -⟩
        exact absurd hroom hfull

/-- **What `newParam` does**: it returns no value, or the one that the allocator gives to the block of the
handle. -/
theorem newParam_spec (checks : Bool) (hs : m.builder.allocator.Sound)
    (hst : m.builder.allocator.Stacked) :
    (m.takesParam = false ∧ ∀ v m', m.exec checks .newParam ≠ some (.ok (some v), m')) ∨
      (m.takesParam = true ∧ ∃ id scope v l a, m.handles.head? = some id ∧
        m.builder.blocks[id.toNat]? = some scope ∧ Allocator.Allocated m.builder.allocator a id v l ∧
          m.exec checks .newParam = some (.ok (some v),
            ⟨{ m.builder with
                allocator := a
                blocks := m.builder.blocks.set id.toNat { scope with vars := scope.vars ++ [v] } },
              m.handles⟩)) := by
  rw [Machine.exec, Machine.takesParam]
  cases hid : m.handles.head? with
  | none =>
      refine Or.inl ⟨rfl, fun v m' h => ?_⟩
      cases h
  | some id =>
      simp only [Option.bind_some]
      rw [newParam]
      cases hscope : m.builder.blocks[id.toNat]? with
      | none =>
          refine Or.inl ⟨rfl, fun v m' h => ?_⟩
          cases h
      | some scope =>
          simp only [Option.bind_some, Option.any_some]
          cases hparent : scope.parent with
          | some parent =>
              refine Or.inl ⟨rfl, fun v m' h => ?_⟩
              cases congrArg (fun o => o.map (·.1)) h
          | none =>
              simp only [Option.isSome_none, Bool.false_eq_true, if_false, newVariable,
                Option.isNone_none, Bool.true_and]
              rcases Allocator.allocate_spec checks hs hst id with
                ⟨hfull, ha⟩ | ⟨hlen, v, l, a, ha, hallocated⟩
              · -- 65535 values live
                refine Or.inl ⟨decide_eq_false (Nat.not_lt.2 hfull), fun v m' h => ?_⟩
                rw [ha] at h
                cases congrArg (fun o => o.map (·.1)) h
              · rw [ha]
                simp only [Option.bind_eq_bind, Option.bind_some, hscope]
                exact Or.inr ⟨decide_eq_true hlen, id, scope, v, l, a, rfl, hscope, hallocated, rfl⟩

end Param

/-! ## All runs -/

section Runs

variable [LawfulSlab σ] {checks : Bool} {library : StencilLibrary MAX_REGS}
  {s : Signature σ MAX_REGS} {op : Op MAX_REGS}

omit [LawfulSlab σ] in
theorem mem_param {m : Machine σ MAX_REGS} {l : Option Location} :
    l ∈ m.param checks op ↔ op = .newParam ∧ ∃ v m', m.exec checks .newParam = some (.ok (some v), m') ∧
      l = m'.builder.allocator.location v := by
  cases op with
  | newParam =>
      rw [Machine.param]
      split
      · next v m' hexec => simp [hexec]
      · next hnone =>
        refine iff_of_false List.not_mem_nil ?_
        rintro ⟨-, v, m', hexec, -⟩
        exact hnone v m' hexec
  | _ =>
      refine iff_of_false List.not_mem_nil ?_
      rintro ⟨hop, -⟩
      cases hop

omit [LawfulSlab σ] in
theorem param_length_le (checks : Bool) (m : Machine σ MAX_REGS) (op : Op MAX_REGS) :
    (m.param checks op).length ≤ 1 := by
  cases op with
  | newParam =>
      rw [Machine.param]
      split
      · exact Nat.le_refl 1
      · exact Nat.zero_le 1
  | _ => exact Nat.zero_le 1

/-- **The next parameter** is in the register of its argument exactly when it is made where the pool hands
that register out. -/
theorem arrives_iff (checks : Bool) (h : (signatureSystem σ checks library).Reachable s) :
    (∀ v m', s.state.exec checks .newParam = some (.ok (some v), m') →
      Delivered s.record.length (m'.builder.allocator.location v)) ↔ Arrives s .newParam := by
  obtain ⟨hs, hst⟩ := Machine.stacked_of_reachable h.of_recorded
  rcases newParam_spec checks hs hst with
    ⟨htakes, hnone⟩ | ⟨htakes, id, scope, v, l, a, -, -, hallocated, hexec⟩
  · rw [Arrives, htakes]
    exact iff_of_true (fun v m' hexec => absurd hexec (hnone v m')) (fun h => Bool.noConfusion h)
  · have hlen : Slab.len s.state.builder.allocator.slots < 65535 :=
      of_decide_eq_true (Bool.and_eq_true_iff.1 htakes).2
    have hl : a.location v = some l := by rw [Allocator.location, hallocated.slots, if_pos rfl]
    rw [Arrives, imp_iff_right htakes, ← hallocated.taken.delivered_iff hs hlen, ← hl]
    constructor
    · intro hall
      exact hall v _ hexec
    · intro hd v' m' hexec'
      rw [hexec] at hexec'
      obtain ⟨hv, rfl⟩ := Prod.mk.inj (Option.some.inj hexec')
      obtain rfl := Option.some.inj (Except.ok.inj hv)
      exact hd

/-- One parameter more, in the register of its argument. -/
theorem Follows.append {params new : List (Option Location)} (h : Follows params)
    (hlen : new.length ≤ 1) (hnew : ∀ l ∈ new, Delivered params.length l) :
    Follows (params ++ new) := by
  intro k l hl
  rw [Option.mem_def] at hl
  rcases Nat.lt_or_ge k params.length with hk | hk
  · rw [List.getElem?_append_left hk] at hl
    exact h k l hl
  · rw [List.getElem?_append_right hk] at hl
    obtain ⟨hlt, -⟩ := List.getElem?_eq_some_iff.1 hl
    obtain rfl : k = params.length := by omega
    exact hnew l (List.mem_of_getElem? hl)

theorem follows_of_arrives
    (h : ((signatureSystem σ checks library).guard Arrives).Reachable s) : Follows s.record := by
  refine System.Reachable.invariant (I := fun s => Follows s.record) ?_ ?_ h
  · rintro s ⟨-, hrecord⟩ k l hl
    rw [hrecord] at hl
    cases hl
  · rintro s op s' hr hfollows ⟨harrives, -, hrecord⟩
    rw [hrecord]
    refine hfollows.append (param_length_le checks s.state op) ?_
    intro l hl
    obtain ⟨rfl, v, m', hexec, rfl⟩ := mem_param.1 hl
    exact (arrives_iff checks hr.of_guard).2 harrives v m' hexec

/-- **Parameters.** In every run that makes its parameters where the register pool hands out the register
of the argument, each parameter is in that register; and the next one is exactly when it is made so, too. -/
theorem entry_params (checks : Bool) (library : StencilLibrary MAX_REGS) :
    ∀ s : Signature σ MAX_REGS, ((signatureSystem σ checks library).guard Arrives).Reachable s →
      Follows s.record ∧
        ((∀ v m', s.state.exec checks .newParam = some (.ok (some v), m') →
          Delivered s.record.length (m'.builder.allocator.location v)) ↔ Arrives s .newParam) := by
  intro s hs
  exact ⟨follows_of_arrives hs, arrives_iff checks hs.of_guard⟩

end Runs

/-! ## Parameters in front of all variables -/

section First

variable [LawfulSlab σ] [LawfulCapacity σ] {checks : Bool} {library : StencilLibrary MAX_REGS}
  {s : Signature σ MAX_REGS} {n : Nat}

/-- The entry is open, and all values are its `n` parameters. -/
structure Opened (s : Signature σ MAX_REGS) (n : Nat) : Prop where
  handles : s.state.handles = [0]
  entry : ∃ scope, s.state.builder.blocks[0]? = some scope ∧ scope.parent = none
  values : Slab.len s.state.builder.allocator.slots = n
  balanced : s.state.builder.allocator.Balanced (MAX_REGS - 1)
  registers : LawfulSlab.Dense s.state.builder.allocator.registers n
  count : s.record.length = n

theorem Opened.start (checks : Bool) (library : StencilLibrary MAX_REGS) (hregs : 0 < MAX_REGS) :
    ∃ s : Signature σ MAX_REGS, ((signatureSystem σ checks library).guard Arrives).Reachable s ∧
      Opened s 0 := by
  obtain ⟨a, ha, hbalanced, -, hlen, -⟩ : ∃ a : Allocator σ, _ := Allocator.new_balanced (MAX_REGS - 1)
  have hnew : PatchFunctionBuilder.new library =
      some ⟨library, a, [⟨.new library, none, []⟩], []⟩ := by
    rw [new, if_neg hregs.ne', ha]
    rfl
  have hreach : ((signatureSystem σ checks library).guard Arrives).Reachable
      ⟨⟨⟨library, a, [⟨.new library, none, []⟩], []⟩, []⟩, []⟩ :=
    .init ⟨Option.map_eq_some_iff.2 ⟨_, hnew, rfl⟩, rfl⟩
  exact ⟨⟨⟨⟨library, a, [⟨.new library, none, []⟩], [0]⟩, [0]⟩, []⟩,
    .step .switchToEntry hreach ⟨trivial, ⟨_, rfl⟩, rfl⟩, rfl, ⟨_, rfl, rfl⟩, hlen, hbalanced,
    Allocator.new_dense ha, rfl⟩

/-- One parameter more, while there is a register for it. -/
theorem Opened.next (h : Opened s n) (hregs : n + 1 < MAX_REGS) (hvalues : n < 65535) :
    ∃ s', ((signatureSystem σ checks library).guard Arrives).step s .newParam s' ∧
      Opened s' (n + 1) := by
  obtain ⟨entry, hentry, hparent⟩ := h.entry
  have htakes : s.state.takesParam = true := by
    simp [Machine.takesParam, h.handles, hentry, hparent, h.values, hvalues]
  have hroom : Slab.len s.state.builder.allocator.registers <
      Slab.capacity s.state.builder.allocator.registers := by
    rw [h.registers.len, h.balanced.capacity]
    omega
  obtain ⟨hkey, hdense⟩ := h.registers.insert ()
  rcases newParam_spec checks h.balanced.sound h.balanced.stacked with
    ⟨hno, -⟩ | ⟨-, id, scope, v, l, a, hid, hscope, hallocated, hexec⟩
  · rw [htakes] at hno
    cases hno
  · rw [h.handles] at hid
    obtain rfl := Option.some.inj hid
    obtain rfl : entry = scope := Option.some.inj (hentry.symm.trans hscope)
    refine ⟨⟨_, _⟩, ⟨?_, ⟨_, hexec⟩, rfl⟩, ?_⟩
    · rintro -
      rw [LawfulSlab.insert_key] at hkey
      exact ⟨hroom, hkey.trans h.count.symm⟩
    · refine ⟨h.handles, ⟨_, List.getElem?_set_self (List.getElem?_eq_some_iff.1 hentry).1, hparent⟩,
        ?_, h.balanced.allocated hallocated, ?_, ?_⟩
      · have hcount := hallocated.count fun _ => true
        rw [← LawfulSlab.len_eq_count, ← LawfulSlab.len_eq_count, h.values] at hcount
        exact hcount
      · cases hallocated.taken with
        | register hroom hregisters => exact hregisters ▸ hdense
        | stack hfull => exact absurd hroom hfull
      · rw [Machine.param, hexec, List.length_append, h.count]
        rfl

/-- **Parameters made first follow the convention**, as many as there are registers. -/
theorem params_first (checks : Bool) (library : StencilLibrary MAX_REGS) {n : Nat}
    (hregs : n < MAX_REGS) (hvalues : n ≤ 65535) :
    ∃ s : Signature σ MAX_REGS, ((signatureSystem σ checks library).guard Arrives).Reachable s ∧
      Opened s n ∧ Follows s.record := by
  obtain ⟨s, hs, hopened⟩ : ∃ s : Signature σ MAX_REGS,
      ((signatureSystem σ checks library).guard Arrives).Reachable s ∧ Opened s n := by
    induction n with
    | zero => exact Opened.start checks library hregs
    | succ n ih =>
        obtain ⟨s, hs, hopened⟩ := ih (by omega) (by omega)
        obtain ⟨s', hstep, hopened'⟩ := hopened.next hregs (by omega)
        exact ⟨s', .step .newParam hs hstep, hopened'⟩
  exact ⟨s, hs, hopened, follows_of_arrives hs⟩

end First

/-! ## Two parameters -/

/-- The signature after a list of calls that make their parameters in time. -/
def arrivingRunOf (library : StencilLibrary MAX_REGS) (ops : List (Op MAX_REGS)) :
    Option (Signature VecSlab MAX_REGS) :=
  recordedRunOf (Machine.param true) Arrives library ops

/-- Two registers. -/
def pairLibrary : StencilLibrary 3 := ⟨[0], [], ⟨[.new], [⟨0, 0, 0⟩, ⟨0, 1, 0⟩]⟩, []⟩

/-- Two parameters in front of a variable. -/
theorem entry_params_two : ∃ s,
    arrivingRunOf pairLibrary [.switchToEntry, .newParam, .newParam, .newVariable] = some s ∧
      s.record = [some (.register 0), some (.register 1)] ∧ Follows s.record := by
  have hrun : (arrivingRunOf pairLibrary [.switchToEntry, .newParam, .newParam, .newVariable]).map
      (·.record) = some [some (.register 0), some (.register 1)] := by
    decide +kernel
  obtain ⟨s, hs, hparams⟩ := Option.map_eq_some_iff.1 hrun
  exact ⟨s, hs, hparams, (entry_params true pairLibrary s
    (reachable_of_recordedRunOf (fun _ _ _ h => h) hs)).1⟩

/-- A parameter behind a variable gets the next register. -/
theorem not_entry_params : ¬ ∀ s : Signature VecSlab 3,
    (signatureSystem VecSlab true pairLibrary).Reachable s → Follows s.record := by
  intro hall
  have hrun : (arrivingRunOf pairLibrary [.switchToEntry, .newVariable]).map
      (fun s => ((s.state.exec true .newParam).map (·.1), s.record ++ s.state.param true .newParam)) =
        some (some (.ok (some ⟨1, 0⟩)), [some (.register 1)]) := by
    decide +kernel
  obtain ⟨s, hs, hstep⟩ := Option.map_eq_some_iff.1 hrun
  obtain ⟨hexec, hparams⟩ := Prod.mk.inj hstep
  obtain ⟨⟨out, m'⟩, hexec, -⟩ := Option.map_eq_some_iff.1 hexec
  have hfollows := hall ⟨m', _⟩
    (.step .newParam (reachable_of_recordedRunOf (fun _ _ _ h => h) hs).of_guard ⟨⟨out, hexec⟩, rfl⟩)
  rw [hparams] at hfollows
  obtain ⟨r, hr, hzero⟩ := hfollows 0 (some (.register 1)) rfl
  obtain rfl := Location.register.inj (Option.some.inj hr)
  cases hzero

end Patchouly.Managed
