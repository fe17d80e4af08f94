import Patchouly.Managed.Ownership
import Mathlib.Data.List.NodupEquivFin

/-!
# Lifetimes of values

A `Value` is a copy of a slot number and a block id, and the only check of it is that the block is
on the scope stack. A switch recycles the slots of the blocks it pops, so the check is right as long
as a block that lost variables does not come back on the stack. `ReentersNone` is this condition on
a step, and `Lifetimes` is the invariant of the runs that meet it: every block on the stack still
owns all values ever returned for it (`Lifetimes.complete`, `Lifetimes.open_`), and owned values sit
in different occupied slots.

`Tracked` adds two records to a machine: the values returned so far, one for each successful call,
and the blocks that lost variables.
-/

set_option autoImplicit false

namespace Patchouly.Managed

open Patchouly.Lib Patchouly.Core Patchouly.Patch PatchFunctionBuilder

variable {σ : Type → Type} [Slab σ] {MAX_REGS : Nat}

/-- A machine with its history. -/
structure Tracked (σ : Type → Type) (MAX_REGS : Nat) where
  machine : Machine σ MAX_REGS
  returned : List Value
  /-- The blocks that lost variables in a switch. -/
  drained : BlockId → Bool

namespace Tracked

/-- The builder of the machine. -/
abbrev builder (t : Tracked σ MAX_REGS) : PatchFunctionBuilder σ MAX_REGS := t.machine.builder

/-- One call, with the records brought up to date. -/
def next (checks : Bool) (t : Tracked σ MAX_REGS) (op : Op MAX_REGS) :
    Option (Tracked σ MAX_REGS) :=
  (t.machine.exec checks op).map fun (out, machine) =>
    { machine := machine
      returned := t.returned ++ out.value.toList
      drained := fun x => t.drained x ||
        decide (t.builder.varsOf x ≠ [] ∧ machine.builder.varsOf x = []) }

/-- A new builder without handles. -/
def start (library : StencilLibrary MAX_REGS) : Option (Tracked σ MAX_REGS) :=
  (PatchFunctionBuilder.new library).map fun builder => ⟨⟨builder, []⟩, [], fun _ => false⟩

end Tracked

/-- All sequences of calls on a new builder. -/
def trackedSystem (σ : Type → Type) [Slab σ] (checks : Bool) (library : StencilLibrary MAX_REGS) :
    System (Tracked σ MAX_REGS) (Op MAX_REGS) where
  init t := Tracked.start library = some t
  step t op t' := t.next checks op = some t'

/-- Any two values of different successful calls whose scopes pass the check have locations, and
different ones. -/
def NoAliasing (t : Tracked σ MAX_REGS) : Prop :=
  ∀ (i j : Nat) (v w : Value), i ≠ j → t.returned[i]? = some v → t.returned[j]? = some w →
    v.scope ∈ t.builder.currentScopes → w.scope ∈ t.builder.currentScopes →
      ∃ lv lw, t.builder.allocator.location v = some lv ∧
        t.builder.allocator.location w = some lw ∧ lv ≠ lw

/-- No block of `scopes` lost variables before, and none has variables that `b` loses by popping
`popped`. -/
def Undrained (t : Tracked σ MAX_REGS) (b : PatchFunctionBuilder σ MAX_REGS)
    (popped scopes : List BlockId) : Prop :=
  ∀ x ∈ scopes, t.drained x = false ∧ (x ∈ popped → b.varsOf x = [])

instance (t : Tracked σ MAX_REGS) (b : PatchFunctionBuilder σ MAX_REGS)
    (popped scopes : List BlockId) : Decidable (Undrained t b popped scopes) :=
  List.decidableBAll _ _

/-- The step brings no block back on the scope stack that lost variables, at an earlier switch or at
this one. -/
def ReentersNone (checks : Bool) (t : Tracked σ MAX_REGS) (op : Op MAX_REGS) : Prop :=
  ∀ p ∈ t.machine.switchPoint checks op, ∀ split ∈ p.1.splitScopes p.2,
    Undrained t p.1 split.2 (split.1 ++ [p.2])

instance (checks : Bool) (t : Tracked σ MAX_REGS) (op : Op MAX_REGS) :
    Decidable (ReentersNone checks t op) :=
  inferInstanceAs (Decidable (∀ p ∈ t.machine.switchPoint checks op,
    ∀ split ∈ p.1.splitScopes p.2, Undrained t p.1 split.2 (split.1 ++ [p.2])))

variable [LawfulSlab σ]

/-- **The invariant of the runs that never re-enter a drained block.** -/
structure Lifetimes (t : Tracked σ MAX_REGS) : Prop where
  sound : t.builder.allocator.Sound
  owned : ∀ x, ∀ v ∈ t.builder.varsOf x,
    v.scope = x ∧ ∃ l, t.builder.allocator.location v = some l
  distinct : ∀ x, ((t.builder.varsOf x).map (·.slot)).Nodup
  apart : ∀ x y, ∀ v ∈ t.builder.varsOf x, ∀ w ∈ t.builder.varsOf y, v.slot = w.slot → x = y
  complete : ∀ x, t.drained x = false → t.builder.varsOf x = t.returned.filter fun v => v.scope = x
  open_ : ∀ x ∈ t.builder.currentScopes, t.drained x = false

namespace Lifetimes

/-- The part of the invariant that needs no condition. -/
theorem toOwned {t : Tracked σ MAX_REGS} (h : Lifetimes t) : Owned t.builder :=
  ⟨h.sound, h.owned, h.distinct, h.apart⟩

/-! ## The three kinds of steps -/

theorem start {library : StencilLibrary MAX_REGS} {t : Tracked σ MAX_REGS}
    (h : Tracked.start library = some t) : Lifetimes t := by
  obtain ⟨b, hb, rfl⟩ := Option.map_eq_some_iff.1 h
  obtain ⟨hsound, howned, hdistinct, hapart⟩ := Owned.start hb
  refine ⟨hsound, howned, hdistinct, hapart, ?_, ?_⟩
  · intro x _
    exact Owned.varsOf_new hb x
  · intro x hx
    have hnil : b.currentScopes = [] := congrArg (·.currentScopes) (new_cases hb).2
    exact absurd (hnil ▸ hx) List.not_mem_nil

/-- The records after a quiet step. -/
theorem quiet {t : Tracked σ MAX_REGS} {m' : Machine σ MAX_REGS} (h : Lifetimes t)
    (hq : Quiet t.builder m'.builder) :
    Lifetimes ⟨m', t.returned ++ [], fun x => t.drained x ||
      decide (t.builder.varsOf x ≠ [] ∧ m'.builder.varsOf x = [])⟩ := by
  obtain ⟨hsound, howned, hdistinct, hapart⟩ := h.toOwned.quiet hq
  refine ⟨hsound, howned, hdistinct, hapart, ?_, ?_⟩
  · intro x hx
    simp only [Bool.or_eq_false_iff, decide_eq_false_iff_not] at hx
    change m'.builder.varsOf x = (t.returned ++ []).filter _
    rw [hq.vars x, List.append_nil]
    exact h.complete x hx.1
  · intro x hx
    change x ∈ m'.builder.currentScopes at hx
    rw [hq.currentScopes] at hx
    refine Bool.or_eq_false_iff.2 ⟨h.open_ x hx, decide_eq_false ?_⟩
    -- no variable list changes, so no block is drained
    rintro ⟨hne, hnil⟩
    rw [hq.vars x] at hnil
    exact hne hnil

/-- The records after a new variable. -/
theorem fresh {t : Tracked σ MAX_REGS} {m' : Machine σ MAX_REGS} {v : Value} (h : Lifetimes t)
    (hf : Fresh t.builder m'.builder v) :
    Lifetimes ⟨m', t.returned ++ [v], fun x => t.drained x ||
      decide (t.builder.varsOf x ≠ [] ∧ m'.builder.varsOf x = [])⟩ := by
  obtain ⟨hsound, howned, hdistinct, hapart⟩ := h.toOwned.fresh hf
  refine ⟨hsound, howned, hdistinct, hapart, ?_, ?_⟩
  · intro x hx
    simp only [Bool.or_eq_false_iff, decide_eq_false_iff_not] at hx
    change m'.builder.varsOf x = (t.returned ++ [v]).filter _
    rw [hf.vars x, List.filter_append, ← h.complete x hx.1]
    by_cases hxv : x = v.scope
    · simp [hxv]
    · simp [hxv, show ¬ v.scope = x from fun he => hxv he.symm]
  · intro x hx
    change x ∈ m'.builder.currentScopes at hx
    rw [hf.currentScopes] at hx
    refine Bool.or_eq_false_iff.2 ⟨h.open_ x hx, decide_eq_false ?_⟩
    rintro ⟨hne, hnil⟩
    rw [hf.vars x] at hnil
    split at hnil
    · simp at hnil
    · exact hne hnil

/-- The records after a switch that re-enters no drained block. -/
theorem switched {t : Tracked σ MAX_REGS} {m' : Machine σ MAX_REGS}
    {mid q : PatchFunctionBuilder σ MAX_REGS} {block : BlockId} {kept popped : List BlockId}
    (h : Lifetimes t) (hq : Quiet t.builder mid) (hpops : Pops mid q popped)
    (hb : m'.builder = { q with currentScopes := kept ++ [block] })
    (hguard : ∀ x ∈ kept ++ [block], t.drained x = false ∧ (x ∈ popped → mid.varsOf x = [])) :
    Lifetimes ⟨m', t.returned ++ [], fun x => t.drained x ||
      decide (t.builder.varsOf x ≠ [] ∧ m'.builder.varsOf x = [])⟩ := by
  have hvars : ∀ x, m'.builder.varsOf x = if x ∈ popped then [] else t.builder.varsOf x := by
    intro x
    rw [hb, ← hq.vars x]
    exact hpops.vars x
  obtain ⟨hsound, howned, hdistinct, hapart⟩ : Owned m'.builder := by
    rw [hb]
    exact ((h.toOwned.quiet hq).pops hpops).scopes _
  refine ⟨hsound, howned, hdistinct, hapart, ?_, ?_⟩
  · intro x hx
    simp only [Bool.or_eq_false_iff, decide_eq_false_iff_not, not_and] at hx
    change m'.builder.varsOf x = (t.returned ++ []).filter _
    rw [hvars x, List.append_nil, ← h.complete x hx.1]
    split
    · next hp =>
      by_contra hne
      have hnil := hx.2 fun he => hne he.symm
      simp [hvars x, hp] at hnil
    · rfl
  · intro x hx
    rw [show m'.builder.currentScopes = kept ++ [block] by rw [hb]] at hx
    obtain ⟨hnot, hpop⟩ := hguard x hx
    refine Bool.or_eq_false_iff.2 ⟨hnot, decide_eq_false ?_⟩
    rintro ⟨hne, hnil⟩
    rw [hvars x] at hnil
    split at hnil
    · next hp =>
      rw [← hq.vars x] at hne
      exact hne (hpop hp)
    · exact hne hnil

/-- **A step that re-enters no drained block keeps the invariant.** -/
theorem next {checks : Bool} {t t' : Tracked σ MAX_REGS} {op : Op MAX_REGS} (h : Lifetimes t)
    (hguard : ReentersNone checks t op) (hn : t.next checks op = some t') : Lifetimes t' := by
  obtain ⟨⟨out, m'⟩, hexec, rfl⟩ := Option.map_eq_some_iff.1 hn
  have hchange := Machine.exec_change h.sound hexec
  simp only
  cases hv : out.value with
  | none =>
      rw [hv] at hchange
      cases hchange with
      | quiet hq => exact h.quiet hq
      | switched hq hpoint hsplit hpops hb =>
          exact h.switched hq hpops hb (hguard _ hpoint _ hsplit)
  | some v =>
      rw [hv] at hchange
      cases hchange with
      | fresh hf hid => exact h.fresh hf

/-! ## No aliasing -/

omit [Slab σ] [LawfulSlab σ] in
/-- A value at two positions of a list occurs twice in every filter that keeps it. -/
theorem not_nodup_filter {vs : List Value} {i j : Nat} {v : Value} {p : Value → Bool} (hij : i ≠ j)
    (hi : vs[i]? = some v) (hj : vs[j]? = some v) (hp : p v = true) :
    ¬ ((vs.filter p).map (·.slot)).Nodup := by
  intro hn
  have htwo : 2 ≤ vs.count v := by
    rw [← List.duplicate_iff_two_le_count, List.duplicate_iff_exists_distinct_get]
    obtain ⟨hil, hi⟩ := List.getElem?_eq_some_iff.1 hi
    obtain ⟨hjl, hj⟩ := List.getElem?_eq_some_iff.1 hj
    rcases Nat.lt_or_gt_of_ne hij with hlt | hgt
    · exact ⟨⟨i, hil⟩, ⟨j, hjl⟩, hlt, by simp [hi], by simp [hj]⟩
    · exact ⟨⟨j, hjl⟩, ⟨i, hil⟩, hgt, by simp [hj], by simp [hi]⟩
  have hone := List.nodup_iff_count_le_one.1 hn.of_map v
  rw [List.count_filter hp] at hone
  omega

/-- **Under the invariant no visible value dangles and no two alias.** -/
theorem noAliasing {t : Tracked σ MAX_REGS} (h : Lifetimes t) : NoAliasing t := by
  intro i j v w hij hi hj hv hw
  -- a visible value belongs to a block that was not drained, so it is still owned
  have howns : ∀ (k : Nat) (u : Value), t.returned[k]? = some u →
      u.scope ∈ t.builder.currentScopes → u ∈ t.builder.varsOf u.scope := by
    intro k u hk hu
    rw [h.complete _ (h.open_ _ hu), List.mem_filter]
    exact ⟨List.mem_of_getElem? hk, by simp⟩
  have hov := howns i v hi hv
  have how := howns j w hj hw
  obtain ⟨-, lv, hlv⟩ := h.owned _ v hov
  obtain ⟨-, lw, hlw⟩ := h.owned _ w how
  refine ⟨lv, lw, hlv, hlw, ?_⟩
  rintro rfl
  -- one location means one slot, one slot one scope, and then one value
  have hslot : v.slot = w.slot :=
    BitVec.eq_of_toNat_eq (h.sound.location_inj _ _ lv hlv hlw)
  have hscope := h.apart _ _ v hov w how hslot
  have heq : v = w := by
    cases v
    cases w
    simp only [Value.mk.injEq]
    exact ⟨hslot, hscope⟩
  subst heq
  have hnodup := h.distinct v.scope
  rw [h.complete _ (h.open_ _ hv)] at hnodup
  exact not_nodup_filter hij hi hj (by simp) hnodup

end Lifetimes

/-! ## All runs -/

/-- **In every run that never brings a drained block back on the stack, visible values have
locations and different values have different ones.** -/
theorem noAliasing_of_reentersNone {checks : Bool} {library : StencilLibrary MAX_REGS}
    {t : Tracked σ MAX_REGS}
    (h : ((trackedSystem σ checks library).guard (ReentersNone checks)).Reachable t) :
    NoAliasing t := by
  have hinv : Lifetimes t := by
    refine System.Reachable.invariant ?_ ?_ h
    · exact fun _ h0 => Lifetimes.start h0
    · rintro t op t' - hl ⟨hguard, hn⟩
      exact hl.next hguard hn
  exact hinv.noAliasing

/-- One byte of code without relocations, as in the unit tests. -/
def testFamily {IN OUT HOLES JUMPS : Nat} : StencilFamily IN OUT 1 HOLES JUMPS :=
  ⟨[.new], [⟨0, 1, 0⟩]⟩

def testLibrary : StencilLibrary 1 := ⟨[0], [], ⟨[.new], [⟨0, 0, 0⟩, ⟨0, 1, 0⟩]⟩, []⟩

/-- Two sibling blocks below the entry; the first one's variable is dropped by the switch to the
second one. -/
def siblingOps : List (Op 1) :=
  [.createBlock, .createBlock, .switchToEntry, .newVariable,
    .branch testFamily nil nil nil #[.child 1, .child 2].toVector,
    .switchToBlock 1, .newVariable, .switchToBlock 2, .newVariable]

/-- The same, with a switch back to the first sibling in the end. -/
def reentryOps : List (Op 1) :=
  [.createBlock, .createBlock, .switchToEntry, .newVariable,
    .branch testFamily nil nil nil #[.child 1, .child 2].toVector,
    .switchToBlock 1, .newVariable, .switchToBlock 2, .switchToBlock 1]

/-- The state after a list of calls on a new builder. -/
def runOf (library : StencilLibrary MAX_REGS) (ops : List (Op MAX_REGS)) :
    Option (Tracked VecSlab MAX_REGS) :=
  (Tracked.start library).bind (System.runAll (Tracked.next false) ops)

/-- The same, stopping at a call that brings back a drained block. -/
def guardedRunOf (library : StencilLibrary MAX_REGS) (ops : List (Op MAX_REGS)) :
    Option (Tracked VecSlab MAX_REGS) :=
  (Tracked.start library).bind
    (System.runGuarded (Tracked.next false) (fun t op => decide (ReentersNone false t op)) ops)

theorem reachable_of_runOf {library : StencilLibrary MAX_REGS} {ops : List (Op MAX_REGS)}
    {t : Tracked VecSlab MAX_REGS} (h : runOf library ops = some t) :
    (trackedSystem VecSlab false library).Reachable t := by
  obtain ⟨t₀, h₀, hrest⟩ := Option.bind_eq_some_iff.1 h
  exact System.reachable_of_runAll (fun _ _ _ h => h) (.init h₀) hrest

theorem reachable_of_guardedRunOf {library : StencilLibrary MAX_REGS} {ops : List (Op MAX_REGS)}
    {t : Tracked VecSlab MAX_REGS} (h : guardedRunOf library ops = some t) :
    ((trackedSystem VecSlab false library).guard (ReentersNone false)).Reachable t := by
  obtain ⟨t₀, h₀, hrest⟩ := Option.bind_eq_some_iff.1 h
  exact System.reachable_of_runGuarded (fun _ _ _ h => h) (fun _ _ h => of_decide_eq_true h)
    (.init h₀) hrest

theorem noAliasing_siblings :
    ∃ t, guardedRunOf testLibrary siblingOps = some t ∧
      t.returned = [⟨0, 0⟩, ⟨1, 1⟩, ⟨1, 2⟩] ∧ NoAliasing t := by
  have hrun : (guardedRunOf testLibrary siblingOps).map (·.returned) =
      some [⟨0, 0⟩, ⟨1, 1⟩, ⟨1, 2⟩] := by
    decide +kernel
  obtain ⟨t, ht, hreturned⟩ := Option.map_eq_some_iff.1 hrun
  exact ⟨t, ht, hreturned, noAliasing_of_reentersNone (reachable_of_guardedRunOf ht)⟩

/-- **Without the condition a value can dangle**: after the re-entry the dropped variable passes the
scope check again. -/
theorem not_noAliasing_reentry :
    ¬ ∀ t : Tracked VecSlab 1, (trackedSystem VecSlab false testLibrary).Reachable t →
      NoAliasing t := by
  intro hall
  have hrun : (runOf testLibrary reentryOps).map (fun t =>
      (t.returned, t.builder.currentScopes, t.builder.allocator.location ⟨1, 1⟩)) =
        some ([⟨0, 0⟩, ⟨1, 1⟩], [0, 1], none) := by
    decide +kernel
  obtain ⟨t, ht, hstate⟩ := Option.map_eq_some_iff.1 hrun
  simp only [Prod.mk.injEq] at hstate
  obtain ⟨hreturned, hscopes, hnone⟩ := hstate
  obtain ⟨lv, lw, -, hlw, -⟩ := hall t (reachable_of_runOf ht) 0 1 ⟨0, 0⟩ ⟨1, 1⟩ (by decide)
    (by rw [hreturned]; rfl) (by rw [hreturned]; rfl) (by rw [hscopes]; decide)
    (by rw [hscopes]; decide)
  rw [hnone] at hlw
  cases hlw

end Patchouly.Managed
