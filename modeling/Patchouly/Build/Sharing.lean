import Patchouly.Build.Completeness

/-!
# Shared relocation lists

The slots of a family share one pool, in which equal lists are stored once and each list ends at an
invalid entry. Calls of `add_stencil` may fail in between, some of them after their list was pooled.

Whatever was pooled before or after, a slot reads as the list of the last successful call for its
locations and width (`attempts_reads`).
-/

set_option autoImplicit false

namespace Patchouly.Build

open Patchouly.Lib Patchouly.Core

/-- The relocations of a stencil, up to the first invalid entry. -/
def StencilFamilyBuild.reading (self : StencilFamilyBuild) (stencil : Stencil) :
    Option (List Relocation) :=
  (stencil.relocations self.typed).map validEntries

/-- The last of the calls for these locations and this width. -/
def IsLastFor (calls : List StencilCall) (inputs outputs : List Location) (wide : Bool)
    (call : StencilCall) : Prop :=
  call.For inputs outputs wide ∧
    ∃ before later, calls = before ++ call :: later ∧ ∀ c ∈ later, ¬ c.For inputs outputs wide

namespace StencilFamilyBuilder

/-- Calls one after the other, whether they fail or not, and those that returned `Ok`. -/
def attempts (checks : Bool) (self : StencilFamilyBuilder) :
    List StencilCall → Option (List StencilCall × StencilFamilyBuilder)
  | [] => some ([], self)
  | call :: calls => do
      let (result, self) ← self.addStencil checks call
      let (done, self) ← attempts checks self calls
      match result with
      | .ok () => return (call :: done, self)
      | .error _ => return (done, self)

/-- The builder after some calls, of which `done` returned `Ok`. -/
structure Shared (checks : Bool) (metadata : Metadata) (done : List StencilCall)
    (b : StencilFamilyBuilder) : Prop where
  bare : b.bare = (new metadata).bare
  len : b.family.stencils.length = (new metadata).family.stencils.length
  interned : b.pool.Interned Relocation.new
  admitted : ∀ call ∈ done, b.Admitted checks call
  inside : ∀ call ∈ done, call.slot b.family.MAX_REGS < b.family.stencils.length
  slots : ∀ i stencil, b.family.stencils[i]? = some stencil →
    SlotHolds b.family.relocationData (lastCall b.family.MAX_REGS done i) stencil

theorem shared_new (checks : Bool) (metadata : Metadata) :
    Shared checks metadata [] (new metadata) where
  bare := rfl
  len := rfl
  interned := Pool.interned_empty
  admitted := by simp
  inside := by simp
  slots := by
    intro i stencil h
    exact List.eq_of_mem_replicate (List.mem_of_getElem? h)

section Step

variable {checks : Bool} {metadata : Metadata} {done : List StencilCall}
  {self self' : StencilFamilyBuilder} {call : StencilCall}

theorem Shared.ok (S : Shared checks metadata done self)
    (h : self.addStencil checks call = some (.ok (), self')) :
    Shared checks metadata (done ++ [call]) self' := by
  obtain ⟨hbare, hinterned, hgrow⟩ := addStencil_grows S.interned h
  obtain ⟨hadmitted, hlt, -, stencil, hstores, hset⟩ := addStencil_ok S.interned h
  have hmax := (dimensions_of_bare hbare).2.2.1
  constructor
  case bare => exact hbare.trans S.bare
  case len => rw [hset, List.length_set, S.len]
  case interned => exact hinterned
  case admitted =>
    intro c hc
    rcases List.mem_append.1 hc with hc | hc
    · exact (S.admitted c hc).of_bare hbare
    · rw [List.mem_singleton.1 hc]
      exact hadmitted.of_bare hbare
  case inside =>
    intro c hc
    rw [hmax, hset, List.length_set]
    rcases List.mem_append.1 hc with hc | hc
    · exact S.inside c hc
    · rw [List.mem_singleton.1 hc]
      exact hlt
  case slots =>
    rw [hmax, hset]
    exact slotHolds_set hgrow hstores hlt S.slots

/-- A call that fails may grow the pool, but no list moves. -/
theorem Shared.error (S : Shared checks metadata done self) {e : ExtractError}
    (h : self.addStencil checks call = some (.error e, self')) : Shared checks metadata done self' := by
  obtain ⟨hbare, hinterned, hgrow⟩ := addStencil_grows S.interned h
  have htable := addStencil_error h
  have hmax := (dimensions_of_bare hbare).2.2.1
  constructor
  case bare => exact hbare.trans S.bare
  case len => rw [htable, S.len]
  case interned => exact hinterned
  case admitted => exact fun c hc => (S.admitted c hc).of_bare hbare
  case inside =>
    rw [hmax, htable]
    exact S.inside
  case slots =>
    intro i stencil hs
    rw [htable] at hs
    rw [hmax]
    exact (S.slots i stencil hs).extend hgrow

/-- **A run of calls** keeps the slots of those that succeeded. -/
theorem Shared.attempts (S : Shared checks metadata done self) {calls more : List StencilCall}
    (h : self.attempts checks calls = some (more, self')) :
    Shared checks metadata (done ++ more) self' := by
  -- on the calls still to come; the successful ones so far are the ghost argument `done`
  induction calls generalizing done self more with
  | nil =>
      obtain ⟨rfl, rfl⟩ := Prod.mk.inj (Option.some.inj h)
      rw [List.append_nil]
      exact S
  | cons call calls ih =>
      simp only [StencilFamilyBuilder.attempts, Option.bind_eq_bind, Option.pure_def] at h
      obtain ⟨⟨result, next⟩, hstep, h⟩ := Option.bind_eq_some_iff.1 h
      obtain ⟨⟨rest, last⟩, hrest, h⟩ := Option.bind_eq_some_iff.1 h
      cases result with
      | ok u =>
          obtain ⟨rfl, rfl⟩ := Prod.mk.inj (Option.some.inj h)
          have S' := ih (S.ok hstep) hrest
          rw [List.append_assoc, List.singleton_append] at S'
          exact S'
      | error e =>
          obtain ⟨rfl, rfl⟩ := Prod.mk.inj (Option.some.inj h)
          exact ih (S.error hstep) hrest

end Step

theorem shared_attempts {checks : Bool} {metadata : Metadata} {calls done : List StencilCall}
    {b : StencilFamilyBuilder} (h : (new metadata).attempts checks calls = some (done, b)) :
    Shared checks metadata done b := by
  have S := (shared_new checks metadata).attempts h
  rwa [List.nil_append] at S

section Readings

variable {checks : Bool} {metadata : Metadata} {done : List StencilCall} {b : StencilFamilyBuilder}

/-- The operands of a successful call are digits of the table's base. -/
theorem Shared.inTable (S : Shared checks metadata done b) {call : StencilCall} (hcall : call ∈ done)
    (hregs : ∀ r, Location.register r ∈ call.io.inputs ++ call.io.outputs →
      r.toNat < b.family.MAX_REGS - 1) :
    InTable b.family.IN b.family.OUT b.family.MAX_REGS call.io.inputs call.io.outputs := by
  have hins := (S.admitted call hcall).ins
  have houts := (S.admitted call hcall).outs
  refine ⟨hins, houts, ?_⟩
  intro l hl
  cases l with
  | register r =>
      have hlt := hregs r hl
      rw [Location.digit]
      omega
  | stack slot =>
      apply maxRegs_pos S.bare S.len (S.inside call hcall)
      have hlen := List.length_pos_of_mem hl
      rw [List.length_append, hins, houts] at hlen
      omega

/-- The last call that filled the slot of `call` is the last one for its locations and width. -/
theorem Shared.isLastFor (S : Shared checks metadata done b)
    (hregs : ∀ call ∈ done, ∀ r, Location.register r ∈ call.io.inputs ++ call.io.outputs →
      r.toNat < b.family.MAX_REGS - 1) {call : StencilCall} (hcall : call ∈ done) :
    ∃ last ∈ done, lastCall b.family.MAX_REGS done (call.slot b.family.MAX_REGS) = some last ∧
      IsLastFor done call.io.inputs call.io.outputs call.wide last := by
  have hfor : ∀ c ∈ done, c.slot b.family.MAX_REGS = call.slot b.family.MAX_REGS ↔
      c.For call.io.inputs call.io.outputs call.wide := fun c hc =>
    StencilCall.slot_eq_iff (S.inTable hc (hregs c hc)) (S.inTable hcall (hregs call hcall)) call.wide
  cases hlast : lastCall b.family.MAX_REGS done (call.slot b.family.MAX_REGS) with
  | none => exact absurd rfl (lastCall_eq_none_iff.1 hlast call hcall)
  | some last =>
      obtain ⟨hmem, hslot⟩ := lastCall_eq_some hlast
      obtain ⟨-, later, before, hsplit, hlater⟩ := List.find?_eq_some_iff_append.1 hlast
      refine ⟨last, hmem, rfl, (hfor last hmem).1 hslot, before.reverse, later.reverse, ?_, ?_⟩
      · rw [← List.reverse_reverse done, hsplit]
        simp
      · intro c hc
        have hcmem : c ∈ done := by
          rw [← List.mem_reverse, hsplit]
          exact List.mem_append_left _ (List.mem_reverse.1 hc)
        rw [← hfor c hcmem]
        simpa using hlater c (List.mem_reverse.1 hc)

/-- A slot that a successful call filled reads as the list of the last one. -/
theorem Shared.reading (S : Shared checks metadata done b)
    (hvalid : ∀ call ∈ done, ∀ r ∈ call.relocations, r.isInvalid = false) {call last : StencilCall}
    (hcall : call ∈ done)
    (hlast : lastCall b.family.MAX_REGS done (call.slot b.family.MAX_REGS) = some last) :
    ∃ stencil, b.family.stencils[call.slot b.family.MAX_REGS]? = some stencil ∧
      b.family.reading stencil = some last.relocations := by
  have hlt := S.inside call hcall
  refine ⟨_, List.getElem?_eq_getElem hlt, ?_⟩
  have hholds := S.slots _ _ (List.getElem?_eq_getElem hlt)
  rw [hlast] at hholds
  exact (StoredIn.of_stores hholds (hvalid last (lastCall_eq_some hlast).1)).relocations

end Readings

end StencilFamilyBuilder

open StencilFamilyBuilder

/-- **Shared relocation lists are never mixed.** After any calls, the slot of every successful call
reads as the list of the last successful call for its locations and width, the other slots are empty,
and one more call that fails changes no reading. -/
theorem attempts_reads {checks : Bool} {metadata : Metadata} {calls done : List StencilCall}
    {b : StencilFamilyBuilder} (h : (new metadata).attempts checks calls = some (done, b))
    (hvalid : ∀ call ∈ done, ∀ r ∈ call.relocations, r.isInvalid = false)
    (hregs : ∀ call ∈ done, ∀ r, Location.register r ∈ call.io.inputs ++ call.io.outputs →
      r.toNat < metadata.maxRegs.toNat - 1) :
    (∀ call ∈ done, ∃ stencil last,
      b.family.stencils[call.slot metadata.maxRegs.toNat]? = some stencil ∧
        IsLastFor done call.io.inputs call.io.outputs call.wide last ∧
        b.family.reading stencil = some last.relocations) ∧
      (∀ i stencil, b.family.stencils[i]? = some stencil →
        (∀ call ∈ done, call.slot metadata.maxRegs.toNat ≠ i) → stencil = default) ∧
      ∀ call e b', b.addStencil checks call = some (.error e, b') →
        b'.family.stencils = b.family.stencils ∧
          ∀ c ∈ done, ∀ stencil,
            b.family.stencils[c.slot metadata.maxRegs.toNat]? = some stencil →
              b'.family.reading stencil = b.family.reading stencil := by
  have S := shared_attempts h
  have hmax : b.family.MAX_REGS = metadata.maxRegs.toNat := (dimensions_of_bare S.bare).2.2.1
  rw [← hmax] at hregs ⊢
  refine ⟨?_, ?_, ?_⟩
  · intro call hcall
    obtain ⟨last, -, hlast, hfor⟩ := S.isLastFor hregs hcall
    obtain ⟨stencil, hstencil, hreading⟩ := S.reading hvalid hcall hlast
    exact ⟨stencil, last, hstencil, hfor, hreading⟩
  · intro i stencil hstencil hnone
    have hholds := S.slots i stencil hstencil
    rw [lastCall_eq_none_iff.2 hnone] at hholds
    exact hholds
  · intro call e b' herr
    have S' := S.error herr
    have htable := addStencil_error herr
    have hmax' := (dimensions_of_bare (addStencil_grows S.interned herr).1).2.2.1
    refine ⟨htable, ?_⟩
    intro c hc stencil hstencil
    -- both readings are the list of the last call for the slot
    obtain ⟨last, -, hlast, -⟩ := S.isLastFor hregs hc
    obtain ⟨s, hs, hreading⟩ := S.reading hvalid hc hlast
    obtain ⟨s', hs', hreading'⟩ := S'.reading hvalid hc (by rw [hmax']; exact hlast)
    rw [hmax', htable, hs] at hs'
    rw [hs] at hstencil
    obtain rfl := Option.some.inj hs'
    obtain rfl := Option.some.inj hstencil
    rw [hreading, hreading']

/-- Two calls for the stack, and between them one whose code is too long and one for a register. -/
def sharedCalls : List StencilCall :=
  [⟨[], ⟨0, 4⟩, argsOf 0 [0], false, [⟨0x20010000⟩]⟩,
    ⟨[], ⟨4, 70000⟩, argsOf 0 [0], false, [⟨0x20010000⟩, ⟨0x40010000⟩]⟩,
    ⟨[], ⟨4, 8⟩, argsOf 0 [1], false, []⟩,
    ⟨[], ⟨8, 12⟩, argsOf 0 [0], false, [⟨0x20010000⟩, ⟨0x40010000⟩]⟩]

theorem attempts_reads_sharedCalls :
    ∃ b, (new ⟨0, 1, 2, 1, 0, []⟩).attempts true sharedCalls = some (sharedCalls.eraseIdx 1, b) ∧
      ∀ call ∈ sharedCalls.eraseIdx 1, ∃ stencil last, b.family.stencils[call.slot 2]? = some stencil ∧
        IsLastFor (sharedCalls.eraseIdx 1) call.io.inputs call.io.outputs call.wide last ∧
        b.family.reading stencil = some last.relocations := by
  have hdone : ((new ⟨0, 1, 2, 1, 0, []⟩).attempts true sharedCalls).map (·.1) =
      some (sharedCalls.eraseIdx 1) := by decide +kernel
  obtain ⟨⟨done, b⟩, h, rfl⟩ := Option.map_eq_some_iff.1 hdone
  have hdigits : ∀ call ∈ sharedCalls.eraseIdx 1, ∀ l ∈ call.io.inputs ++ call.io.outputs,
      l.digit < 2 := by decide
  refine ⟨b, h, (attempts_reads h (by decide) ?_).1⟩
  intro call hcall r hr
  exact Nat.lt_sub_of_add_lt (hdigits call hcall _ hr)

end Patchouly.Build
