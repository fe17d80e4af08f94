import Patchouly.Managed.Steps
import Mathlib.Data.List.Nodup

/-!
# Variables and their owners

Every variable that a block owns names that block and has a location, and no two owned variables share
a slot. `Owned` is this invariant, which every call keeps (`Owned.exec`). By it a switch frees the
variables of the blocks it pops and moves no other (`Owned.location_of_pops`).
-/

set_option autoImplicit false

namespace Patchouly.Managed

open Patchouly.Lib Patchouly.Core Patchouly.Patch PatchFunctionBuilder

variable {σ : Type → Type} [Slab σ] [LawfulSlab σ] {MAX_REGS : Nat}

/-- **The invariant of the variables of a builder.** -/
structure Owned (b : PatchFunctionBuilder σ MAX_REGS) : Prop where
  sound : b.allocator.Sound
  owned : ∀ x, ∀ v ∈ b.varsOf x, v.scope = x ∧ ∃ l, b.allocator.location v = some l
  distinct : ∀ x, ((b.varsOf x).map (·.slot)).Nodup
  apart : ∀ x y, ∀ v ∈ b.varsOf x, ∀ w ∈ b.varsOf y, v.slot = w.slot → x = y

namespace Owned

variable {b b' : PatchFunctionBuilder σ MAX_REGS}

/-- A builder without variables. -/
theorem of_empty (hs : b.allocator.Sound) (h : ∀ x, b.varsOf x = []) : Owned b := by
  refine ⟨hs, ?_, ?_, ?_⟩
  · intro x v hv
    rw [h x] at hv
    cases hv
  · intro x
    rw [h x]
    exact List.nodup_nil
  · intro x y v hv
    rw [h x] at hv
    cases hv

theorem varsOf_new {library : StencilLibrary MAX_REGS}
    (h : PatchFunctionBuilder.new library = some b) (x : BlockId) : b.varsOf x = [] := by
  rw [(new_cases h).2, PatchFunctionBuilder.varsOf]
  cases x.toNat with
  | zero => rfl
  | succ n => rfl

theorem start {library : StencilLibrary MAX_REGS} (h : PatchFunctionBuilder.new library = some b) :
    Owned b :=
  .of_empty (new_cases h).1 (varsOf_new h)

theorem quiet (h : Owned b) (hq : Quiet b b') : Owned b' := by
  refine ⟨hq.sound h.sound, ?_, ?_, ?_⟩
  · intro x v hv
    rw [hq.vars x] at hv
    rw [Allocator.location, hq.slots]
    exact h.owned x v hv
  · intro x
    rw [hq.vars x]
    exact h.distinct x
  · intro x y v hv w hw
    rw [hq.vars x] at hv
    rw [hq.vars y] at hw
    exact h.apart x y v hv w hw

/-- The slot of a new variable was free, so no owned variable has it. -/
theorem slot_ne_fresh (h : Owned b) {v : Value} (hf : Fresh b b' v) {x : BlockId} {w : Value}
    (hw : w ∈ b.varsOf x) : w.slot ≠ v.slot := by
  intro he
  obtain ⟨-, l, hl⟩ := h.owned x w hw
  have hfree := hf.free
  rw [Allocator.location, ← he] at hfree
  rw [Allocator.location, hfree] at hl
  cases hl

theorem mem_fresh {v w : Value} (hf : Fresh b b' v) {x : BlockId} (hw : w ∈ b'.varsOf x) :
    w ∈ b.varsOf x ∨ (x = v.scope ∧ w = v) := by
  rw [hf.vars x] at hw
  split at hw
  · next hx =>
    rcases List.mem_append.1 hw with hw | hw
    · exact Or.inl hw
    · exact Or.inr ⟨hx, List.mem_singleton.1 hw⟩
  · exact Or.inl hw

theorem fresh (h : Owned b) {v : Value} (hf : Fresh b b' v) : Owned b' := by
  obtain ⟨l, hslots⟩ := hf.slots
  refine ⟨hf.sound, ?_, ?_, ?_⟩
  · intro x w hw
    simp only [Allocator.location, hslots]
    rcases mem_fresh hf hw with hw | ⟨rfl, rfl⟩
    · obtain ⟨hscope, lw, hlw⟩ := h.owned x w hw
      refine ⟨hscope, lw, ?_⟩
      rw [if_neg fun he => h.slot_ne_fresh hf hw (BitVec.eq_of_toNat_eq he)]
      exact hlw
    · exact ⟨rfl, l, if_pos rfl⟩
  · intro x
    rw [hf.vars x]
    split
    · rw [List.map_append, List.nodup_append]
      refine ⟨h.distinct x, by simp, ?_⟩
      intro s hs s' hs' he
      obtain ⟨w, hw, rfl⟩ := List.mem_map.1 hs
      simp only [List.map_cons, List.map_nil, List.mem_singleton] at hs'
      exact h.slot_ne_fresh hf hw (he.trans hs')
    · exact h.distinct x
  · intro x y w hw u hu hs
    rcases mem_fresh hf hw with hxw | ⟨hx, hwv⟩
    · rcases mem_fresh hf hu with hyu | ⟨hy, huv⟩
      · exact h.apart x y w hxw u hyu hs
      · exact absurd (huv ▸ hs) (h.slot_ne_fresh hf hxw)
    · rcases mem_fresh hf hu with hyu | ⟨hy, huv⟩
      · exact absurd (hwv ▸ hs.symm) (h.slot_ne_fresh hf hyu)
      · rw [hx, hy]

/-- **A variable of a block that is not popped keeps its location.** -/
theorem location_of_pops (h : Owned b) {popped : List BlockId} (hp : Pops b b' popped) {x : BlockId}
    {v : Value} (hx : x ∉ popped) (hv : v ∈ b.varsOf x) :
    b'.allocator.location v = b.allocator.location v := by
  rw [Allocator.location, Allocator.location]
  apply hp.slots
  intro y hy w hw he
  -- a dropped variable in the same slot would have the same owner
  have hxy := h.apart y x w hw v hv (BitVec.eq_of_toNat_eq he)
  exact hx (hxy ▸ hy)

theorem mem_pops {popped : List BlockId} (hp : Pops b b' popped) {x : BlockId} {v : Value} :
    v ∈ b'.varsOf x ↔ x ∉ popped ∧ v ∈ b.varsOf x := by
  rw [hp.vars x]
  split
  · next hx => exact iff_of_false List.not_mem_nil fun h => h.1 hx
  · next hx => exact (and_iff_right hx).symm

theorem pops (h : Owned b) {popped : List BlockId} (hp : Pops b b' popped) : Owned b' := by
  refine ⟨hp.sound, ?_, ?_, ?_⟩
  · intro x v hv
    obtain ⟨hx, hv⟩ := (mem_pops hp).1 hv
    rw [h.location_of_pops hp hx hv]
    exact h.owned x v hv
  · intro x
    rw [hp.vars x]
    split
    · exact List.nodup_nil
    · exact h.distinct x
  · intro x y v hv w hw
    exact h.apart x y v ((mem_pops hp).1 hv).2 w ((mem_pops hp).1 hw).2

/-- The stack of open scopes is not part of the invariant. -/
theorem scopes (h : Owned b) (stack : List BlockId) :
    Owned { b with currentScopes := stack } :=
  ⟨h.sound, h.owned, h.distinct, h.apart⟩

/-- **Every call keeps the invariant.** -/
theorem exec {checks : Bool} {m m' : Machine σ MAX_REGS} {op : Op MAX_REGS} {out : Machine.Outcome}
    (h : Owned m.builder) (hexec : m.exec checks op = some (out, m')) : Owned m'.builder := by
  have hchange := Machine.exec_change h.sound hexec
  generalize out.value = v at hchange
  cases hchange with
  | quiet hq => exact h.quiet hq
  | fresh hf hid => exact h.fresh hf
  | switched hq hpoint hsplit hpops hb =>
      rw [hb]
      exact ((h.quiet hq).pops hpops).scopes _

end Owned

end Patchouly.Managed
