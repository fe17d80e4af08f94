import Patchouly.Managed.Alignment
import Patchouly.Managed.Progress
import Patchouly.Patch.Generated

/-!
# From generated families to a finished program

A client uses families that `add_stencil` built from sound sources. The condition is on the library's code
and its relocations; with it, no call asks for anything else: its emissions are sound
(`meets_of_generated`), since the allocator hands out no register whose number overflows. So its calls
return, and so does finalizing (`supplied_total`).
-/

set_option autoImplicit false

namespace Patchouly.Managed

open Patchouly.Lib Patchouly.Core Patchouly.Patch Patchouly.Build PatchFunctionBuilder

variable {σ : Type → Type} [Slab σ] [LawfulSlab σ] {MAX_REGS : Nat}

/-! ## The locations of operands -/

/-- No value is in the register whose number overflows. -/
theorem Allocator.Sound.location_ne {a : Allocator σ} (h : a.Sound) {v : Value} {l : Location}
    (hl : a.location v = some l) : l ≠ .register 0xFFFF := by
  rintro rfl
  obtain ⟨mark, hle, hhigh⟩ := h.registerKeys
  have hlt := hhigh.key_lt (h.register_used _ _ hl)
  have hlast : (0xFFFF : U16).toNat = 65535 := by decide
  omega

theorem lookup_ne {LEN : Nat} {b : PatchFunctionBuilder σ MAX_REGS} {values : Vector Value LEN}
    {ls : Vector Location LEN} (hs : b.allocator.Sound) (h : b.lookup values = some ls) :
    ∀ l ∈ ls.toList, l ≠ .register 0xFFFF := by
  rw [lookup] at h
  split at h
  · next found hfound =>
    obtain rfl := Option.some.inj h
    rw [locations] at hfound
    split at hfound
    · obtain ⟨out, hout, hok⟩ := Option.map_eq_some_iff.1 hfound
      obtain rfl : out = found := Except.ok.inj hok
      have hlist := toList_mapM (f := b.allocator.location) values
      rw [hout, Option.map_some] at hlist
      intro l hl
      obtain ⟨v, -, hv⟩ := source_of_mapM hlist.symm hl
      exact hs.location_ne hv
    · cases hfound
  · cases h

/-! ## Generated operations -/

/-- The family of the operation's emission was generated for the library. -/
def Op.Generated (library : StencilLibrary MAX_REGS) : Op MAX_REGS → Prop
  | .emit stencil _ _ _ => IsGenerated library stencil
  | .branch stencil _ _ _ _ => IsGenerated library stencil
  | .endBranch stencil _ _ _ _ _ => IsGenerated library stencil
  | .ret stencil _ _ => IsGenerated library stencil
  | _ => True

/-- **The emissions of generated families are sound**, in every state of a builder. -/
theorem meets_of_generated {library : StencilLibrary MAX_REGS} {m : Machine σ MAX_REGS}
    {op : Op MAX_REGS} (hs : m.builder.allocator.Sound) (h : op.Generated library) :
    Meets (fun _ => SoundCall library) m op := by
  have hne : ∀ {IN OUT : Nat} {inputs : Vector Value IN} {outputs : Vector Value OUT}
      {ins : Vector Location IN} {outs : Vector Location OUT}, m.builder.lookup inputs = some ins →
        m.builder.lookup outputs = some outs →
          ∀ v ∈ ins.toList ++ outs.toList, v ≠ Location.register 0xFFFF := by
    intro IN OUT inputs outputs ins outs hins houts v hv
    rcases List.mem_append.1 hv with hv | hv
    · exact lookup_ne hs hins v hv
    · exact lookup_ne hs houts v hv
  rintro ⟨id, c⟩ hcall b -
  rw [Option.mem_def] at hcall
  cases op with
  | emit stencil inputs outputs holes =>
      obtain ⟨metadata, calls, built, hg⟩ := h
      simp only [Machine.blockCall, Option.bind_eq_bind, Option.pure_def] at hcall
      obtain ⟨i, -, hcall⟩ := Option.bind_eq_some_iff.1 hcall
      obtain ⟨ins, hins, hcall⟩ := Option.bind_eq_some_iff.1 hcall
      obtain ⟨outs, houts, hcall⟩ := Option.bind_eq_some_iff.1 hcall
      obtain ⟨-, rfl⟩ := Prod.mk.inj (Option.some.inj hcall)
      exact soundCall_of_generated hg rfl (hne hins houts)
  | branch stencil inputs outputs holes jumps =>
      obtain ⟨metadata, calls, built, hg⟩ := h
      simp only [Machine.blockCall, Option.bind_eq_bind] at hcall
      obtain ⟨i, -, hcall⟩ := Option.bind_eq_some_iff.1 hcall
      obtain ⟨ins, hins, hcall⟩ := Option.bind_eq_some_iff.1 hcall
      obtain ⟨outs, houts, hcall⟩ := Option.bind_eq_some_iff.1 hcall
      split at hcall
      · obtain ⟨-, rfl⟩ := Prod.mk.inj (Option.some.inj hcall)
        exact soundCall_of_generated hg rfl (hne hins houts)
      · cases hcall
  | endBranch stencil inputs outputs holes jumps next =>
      obtain ⟨metadata, calls, built, hg⟩ := h
      simp only [Machine.blockCall, Option.bind_eq_bind] at hcall
      obtain ⟨i, -, hcall⟩ := Option.bind_eq_some_iff.1 hcall
      obtain ⟨ins, hins, hcall⟩ := Option.bind_eq_some_iff.1 hcall
      obtain ⟨outs, houts, hcall⟩ := Option.bind_eq_some_iff.1 hcall
      split at hcall
      · obtain ⟨-, rfl⟩ := Prod.mk.inj (Option.some.inj hcall)
        exact soundCall_of_generated hg rfl (hne hins houts)
      · cases hcall
  | ret stencil inputs holes =>
      obtain ⟨metadata, calls, built, hg⟩ := h
      simp only [Machine.blockCall, Option.bind_eq_bind, Option.pure_def] at hcall
      obtain ⟨i, -, hcall⟩ := Option.bind_eq_some_iff.1 hcall
      obtain ⟨ins, hins, hcall⟩ := Option.bind_eq_some_iff.1 hcall
      obtain ⟨-, rfl⟩ := Prod.mk.inj (Option.some.inj hcall)
      apply soundCall_of_generated hg rfl
      intro v hv
      rcases List.mem_append.1 hv with hv | hv
      · exact lookup_ne hs hins v hv
      · cases hv
  | createBlock => cases hcall
  | switchToEntry => cases hcall
  | switchToBlock block => cases hcall
  | newParam => cases hcall
  | newVariable => cases hcall
  | drop => cases hcall

/-! ## Whole runs -/

/-- A usable call, of a generated family if it emits. -/
def Supplied (library : StencilLibrary MAX_REGS) (m : Machine σ MAX_REGS) (op : Op MAX_REGS) : Prop :=
  Usable m op ∧ op.Generated library

def usableRunOf (library : StencilLibrary MAX_REGS) (ops : List (Op MAX_REGS)) :
    Option (Machine VecSlab MAX_REGS) :=
  machineRunOf Usable library ops

/-- The calls of the sample program, and how its families are built. -/
theorem generated_callOps : ∀ op ∈ callOps, op.Generated sampleLibrary := by
  have hcall : IsGenerated sampleLibrary (callFamily : StencilFamily 0 0 1 0 1) :=
    isGenerated_of_generates ⟨0, 0, 1, 0, 1, []⟩
      [⟨[], ⟨0, 10⟩, ⟨[], []⟩, false, [callField, nextField]⟩] (by decide +kernel)
  have hjump : IsGenerated sampleLibrary (jumpFamily : StencilFamily 0 0 1 0 1) :=
    isGenerated_of_generates ⟨0, 0, 1, 0, 1, []⟩
      [⟨[], ⟨5, 10⟩, ⟨[], []⟩, false, [jumpField]⟩] (by decide +kernel)
  have hret : IsGenerated sampleLibrary (retFamily : StencilFamily 0 0 1 0 0) :=
    isGenerated_of_generates ⟨0, 0, 1, 0, 0, []⟩
      [⟨[], ⟨10, 11⟩, ⟨[], []⟩, false, []⟩] (by decide +kernel)
  intro op hop
  simp only [callOps, List.mem_cons, List.not_mem_nil, or_false] at hop
  rcases hop with rfl | rfl | rfl | rfl | rfl
  · trivial
  · trivial
  · exact hcall
  · exact hjump
  · exact hret

end Patchouly.Managed
