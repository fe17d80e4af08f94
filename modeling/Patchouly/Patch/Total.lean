import Patchouly.Patch.Sound
import Patchouly.Patch.Guard
import Patchouly.Patch.Immediate
import Patchouly.Patch.Pool

/-!
# Sound calls return

A call panics where it reads or writes outside of a slice, where a number overflows, and where an entry's
kind or encoding is unknown. `call_total` says that a sound call on the block of a run of sound calls does
none of this, and what it returns. `sound_runs` is what is known of the block behind the call.
-/

set_option autoImplicit false

namespace Patchouly.Patch

open Patchouly.Lib Patchouly.Core

/-! ## Fields -/

theorem writable_of_valid {r : Relocation} (hsize : r.size.toNat ∈ [8, 16, 32, 64])
    (hvalid : r.isInvalid = false) : PatchBlock.Writable r := by
  refine ⟨(fieldLen_pos hsize).2, ?_⟩
  have hknown : r.encoding ≠ .unknown := by
    rw [Relocation.encoding, RelocationEncoding.fromBits]
    split <;> simp
  rw [Relocation.isInvalid, decide_eq_false_iff_not] at hvalid
  cases henc : r.encoding with
  | generic => exact Or.inl rfl
  | x86Signed => exact Or.inr rfl
  | invalid => exact absurd henc hvalid
  | unknown => exact absurd henc hknown

/-- A writable field is one slice assignment. -/
theorem applyRaw_of_writable {β : Type} [ByteSlice β] {r : Relocation} (h : PatchBlock.Writable r)
    (dest : β) (start : Nat) (value : Usize) : r.applyRaw dest start value =
      ByteSlice.copyFromSlice dest (start + r.offset.toNat) (r.fieldBytes value) := by
  unfold Relocation.applyRaw
  rcases h with ⟨hlen, henc | henc⟩
  · rw [henc]
    exact if_pos hlen
  · rw [henc]
    exact if_pos hlen

theorem applyRaw_total {r : Relocation} (h : PatchBlock.Writable r) {code : List U8} {start : Nat}
    (hfit : start + r.offset.toNat + r.fieldLen ≤ code.length) (value : Usize) :
    ∃ out, r.applyRaw code start value = some out := by
  rw [applyRaw_of_writable h]
  apply copyFromSlice_isSome
  rw [Relocation.fieldBytes_length]
  exact hfit

/-- Inside a block a place is an address. -/
theorem resolve_total (checks : Bool) (d : DelayedRelocation) (value : Usize) :
    d.resolve checks 0 value = some (d.resolved 0 value) := by
  rw [DelayedRelocation.resolve, DelayedRelocation.resolved]
  split
  · have hplace := (BitVec.ofNat 64 d.location).isLt
    have hzero : (0 : Usize).toNat = 0 := rfl
    rw [plainAdd_of_lt checks (by omega)]
    rfl
  · rfl

theorem apply_total {d : DelayedRelocation} (h : PatchBlock.Writable d.relocation) {code : List U8}
    (hfit : d.fieldEnd ≤ code.length) (value : Usize) :
    ∃ out, d.apply code 0 value = some out ∧ out.length = code.length := by
  rw [DelayedRelocation.fieldEnd, DelayedRelocation.location] at hfit
  obtain ⟨out, hout⟩ := @applyRaw_total _ h code (0 + d.offset) (by omega) value
  exact ⟨out, hout, copyFromSlice_length (DelayedRelocation.apply_eq_some hout).2⟩

namespace PatchBlock

variable {MAX_REGS : Nat}

theorem drainNext_total (checks : Bool) (target : Usize) {rest : List DelayedRelocation} {code : List U8}
    (h : ∀ d ∈ rest, Writable d.relocation ∧ d.fieldEnd ≤ code.length) :
    ∃ out, drainNext checks target rest code = some out := by
  induction rest generalizing code with
  | nil => exact ⟨code, rfl⟩
  | cons d rest ih =>
      obtain ⟨hwrite, hfit⟩ := h d List.mem_cons_self
      obtain ⟨mid, hmid, hlen⟩ := apply_total hwrite hfit (d.resolved 0 target)
      have hrest : ∀ d' ∈ rest, Writable d'.relocation ∧ d'.fieldEnd ≤ mid.length := by
        intro d' hd'
        rw [hlen]
        exact h d' (List.mem_cons_of_mem d hd')
      obtain ⟨out, hout⟩ := ih hrest
      refine ⟨out, ?_⟩
      simp only [drainNext, resolve_total, hmid, Option.bind_eq_bind, Option.bind_some, hout]

end PatchBlock

/-! ## The stencil before -/

section Settle

variable {MAX_REGS : Nat} {library : StencilLibrary MAX_REGS} {l : Linked MAX_REGS}

/-- A pending field is written inside the code. -/
theorem SoundState.pending_fits (h : SoundState library l) {d : DelayedRelocation}
    (hd : d ∈ l.block.nextRelocations) :
    PatchBlock.Writable d.relocation ∧ d.fieldEnd ≤ l.block.code.length := by
  obtain ⟨k, s, hentry, -, hstop, hsound, -⟩ := h.entry_of_pending hd
  have hvalid := (h.stencils s (List.mem_of_getElem? hentry.stencil)).2 _ hentry.relocation
  refine ⟨writable_of_valid (hsound.sizes _ hentry.relocation) hvalid, ?_⟩
  rw [hstop, hentry.location.2]
  exact hsound.wellPlaced.fieldStop_le hentry.relocation

/-- The fields that a cut leaves pending lie in front of it. -/
theorem SoundState.pending_of_cut (h : SoundState library l) {init : List DelayedRelocation}
    {last : DelayedRelocation} {n : Nat} {patched : List U8}
    (hn : l.block.nextRelocations = init ++ [last])
    (hp : applyWrites [jumpWrite n last] l.block.code = some patched)
    (hsuffix : library.empty <:+ patched)
    (hbehind : ((l.block.relocations.getLast?).map (·.location)).getD 0 < last.location) :
    ∀ d ∈ init, d.fieldEnd ≤ l.block.code.length - library.empty.length := by
  intro d hd
  have hmem : d ∈ l.block.nextRelocations := by
    rw [hn]
    exact List.mem_append_left _ hd
  by_cases hempty : library.empty = []
  · rw [hempty, List.length_nil]
    exact (h.pending_fits hmem).2
  · obtain ⟨k, s, hentry, hk, hend, hjump⟩ := h.jumpEnd_of_suffix hn hp hempty hsuffix hbehind
    obtain ⟨-, -, hothers⟩ := h.le_of_jumpEnd hentry hk hend hjump
    obtain ⟨k', s', hentry', hk', -, hsound, -⟩ := h.entry_of_pending hmem
    obtain rfl : k' = k := by omega
    obtain rfl : s' = s := Option.some.inj (hentry'.stencil.symm.trans hentry.stencil)
    have hsorted := h.pending
    rw [hn, List.pairwise_append] at hsorted
    have hprec := hsorted.2.2 d hd last (List.mem_singleton_self last)
    have hpos := (fieldLen_pos (hsound.sizes _ hentry'.relocation)).1
    rw [hentry'.location.2] at hprec ⊢
    apply hothers k' (by omega) s' hentry'.stencil _ hentry'.relocation ?_ (kept_last (by omega))
    -- the popped field lies behind this one
    intro _ hsame
    rw [hentry.location.1, CopiedStencil.fieldStop, ← hsame] at hprec
    omega

/-- The last pending jump is popped, and what is left can be resolved. -/
theorem SoundState.popNext_total (h : SoundState library l) (checks : Bool) :
    ∃ m, l.block.popNext checks = some m ∧
      ∀ d ∈ m.nextRelocations, PatchBlock.Writable d.relocation ∧ d.fieldEnd ≤ m.code.length := by
  rw [PatchBlock.popNext]
  cases hlast : l.block.nextRelocations.getLast? with
  | none =>
      refine ⟨l.block, rfl, fun d hd => ?_⟩
      rw [List.getLast?_eq_none_iff.1 hlast] at hd
      cases hd
  | some last =>
      obtain ⟨init, hn⟩ := List.getLast?_eq_some_iff.1 hlast
      have hdrop : l.block.nextRelocations.dropLast = init := by rw [hn, List.dropLast_concat]
      have hinit : ∀ d ∈ init, PatchBlock.Writable d.relocation ∧ d.fieldEnd ≤ l.block.code.length := by
        intro d hd
        apply h.pending_fits
        rw [hn]
        exact List.mem_append_left _ hd
      obtain ⟨hwrite, hfit⟩ := h.pending_fits (List.mem_of_getLast? hlast)
      obtain ⟨patched, hpatched, hlen⟩ := apply_total hwrite hfit
        (last.resolved 0 (BitVec.ofNat 64 l.block.code.length))
      simp only [resolve_total, hpatched, hdrop, Option.bind_eq_bind, Option.bind_some, Option.pure_def]
      split
      · next hprune =>
        simp only [PatchBlock.prunable, Bool.and_eq_true, List.isSuffixOf_iff_suffix,
          decide_eq_true_eq, h.same] at hprune
        have hp : applyWrites [jumpWrite l.block.code.length last] l.block.code = some patched :=
          Option.bind_eq_some_iff.2 ⟨patched, (DelayedRelocation.apply_eq_some hpatched).2, rfl⟩
        refine ⟨_, rfl, fun d hd => ⟨(hinit d hd).1, ?_⟩⟩
        rw [List.length_take, hlen, h.same, Nat.min_eq_left (Nat.sub_le _ _)]
        exact h.pending_of_cut hn hp hprune.1 hprune.2 d hd
      · refine ⟨_, rfl, fun d hd => ⟨(hinit d hd).1, ?_⟩⟩
        rw [hlen]
        exact (hinit d hd).2

/-- **The stencil before is settled.** -/
theorem SoundState.settleNext_total (h : SoundState library l) (checks : Bool) :
    ∃ settled, l.block.settleNext checks = some settled := by
  obtain ⟨m, hpop, hleft⟩ := h.popNext_total checks
  obtain ⟨out, hout⟩ := PatchBlock.drainNext_total checks
    (BitVec.ofNat 64 m.code.length) hleft
  refine ⟨{ m with code := out, nextRelocations := [] }, ?_⟩
  simp only [PatchBlock.settleNext, hpop, hout, Option.bind_eq_bind, Option.bind_some, Option.pure_def]

end Settle

/-! ## The entries -/

section Entries

variable {MAX_REGS : Nat} {checks wide : Bool} {offset : Nat} {vars holes : List Usize}
  {jumps : List JumpTarget} {b b' : PatchBlock MAX_REGS} {r : Relocation}

/-- An entry that is patched, filed or put into the pool. -/
inductive Ready (wide : Bool) (vars holes : List Usize) (jumps : List JumpTarget)
    (rtSymbols : List Usize) (r : Relocation) : Prop
  | inline {value : Usize} (hvalue : inlineValue wide vars holes rtSymbols r = some value)
      (habs : r.relative = false)
  | pool {i : U16} {value : Usize} (hwide : wide = true) (hi : r.patchInfo = some (.hole i))
      (hvalue : holes[i.toNat]? = some value)
  | jump {i : U16} {j : JumpTarget} (hi : r.patchInfo = some (.target i))
      (hj : jumps[i.toNat]? = some j)
  | runtime {i : U16} {value : Usize} (hi : r.patchInfo = some (.runtime i))
      (hvalue : rtSymbols[i.toNat]? = some value) (hfits : r.supportsValue value = false)

/-- **A round of the loop.** -/
theorem patchEntry_total (checks : Bool) (hready : Ready wide vars holes jumps b.library.rtSymbols r)
    (hwrite : PatchBlock.Writable r) (hfit : offset + r.offset.toNat + r.fieldLen ≤ b.code.length) :
    ∃ b', PatchBlock.patchEntry checks wide offset vars holes jumps b r = some b' := by
  cases hready with
  | inline hvalue habs =>
      obtain ⟨out, hout⟩ := applyRaw_total hwrite hfit _
      refine ⟨{ b with code := out }, ?_⟩
      rw [patchEntry_of_inlineValue hvalue, valueToWrite, habs, if_neg Bool.false_ne_true,
        Option.bind_some, hout, Option.map_some]
  | pool hwide hi hvalue =>
      subst hwide
      simp only [PatchBlock.patchEntry, hi, hvalue, Option.bind_eq_bind, Option.bind_some,
        Option.pure_def]
      exact ⟨_, rfl⟩
  | @jump i j hi hj =>
      have hhole : ¬ (wide = true ∧ ∃ i, r.patchInfo = some (.hole i)) := by
        rintro ⟨-, i', hi'⟩
        rw [hi] at hi'
        cases hi'
      obtain ⟨-, -, hentry⟩ := @of_not_wideHole MAX_REGS checks wide offset vars holes
        b.library.rtSymbols jumps r hhole b
      rw [hentry]
      simp only [DelayedRelocation.tryApply, hi, hj, Option.bind_eq_bind, Option.bind_some]
      cases j with
      | next => exact ⟨_, rfl⟩
      | target t => exact ⟨_, rfl⟩
  | runtime hi hvalue hfits =>
      have hhole : ¬ (wide = true ∧ ∃ i, r.patchInfo = some (.hole i)) := by
        rintro ⟨-, i', hi'⟩
        rw [hi] at hi'
        cases hi'
      obtain ⟨-, -, hentry⟩ := @of_not_wideHole MAX_REGS checks wide offset vars holes
        b.library.rtSymbols jumps r hhole b
      rw [hentry]
      simp only [DelayedRelocation.tryApply, hi, hvalue, hfits, Option.bind_eq_bind, Option.bind_some,
        Bool.false_eq_true, not_false_eq_true, if_true, Option.pure_def]
      exact ⟨_, rfl⟩

/-- A round keeps the library and the length of the code. -/
theorem keeps_of_patchEntry
    (h : PatchBlock.patchEntry checks wide offset vars holes jumps b r = some b') :
    b'.library = b.library ∧ b'.code.length = b.code.length := by
  cases PatchBlock.patchEntry_cases h with
  | written value ht hv hw hb => exact ⟨by rw [hb], applyWrites_length hw⟩
  | delayed t more hne ht hb =>
      rw [hb]
      exact ⟨rfl, rfl⟩
  | pending ht hb =>
      rw [hb]
      exact ⟨rfl, rfl⟩

/-- **The loop of `copy_and_patch`.** -/
theorem patchEntries_total (checks : Bool) {relocs : List Relocation}
    (h : ∀ r ∈ validEntries relocs, Ready wide vars holes jumps b.library.rtSymbols r ∧
      PatchBlock.Writable r ∧ offset + r.offset.toNat + r.fieldLen ≤ b.code.length) :
    ∃ b', PatchBlock.patchEntries checks wide offset vars holes jumps relocs b = some b' := by
  induction relocs generalizing b with
  | nil => exact ⟨b, rfl⟩
  | cons r relocs ih =>
      rw [PatchBlock.patchEntries]
      split
      · exact ⟨b, rfl⟩
      · next hinv =>
        have hvalid : validEntries (r :: relocs) = r :: validEntries relocs := by
          simp [validEntries, hinv]
        rw [hvalid] at h
        obtain ⟨hready, hwrite, hfit⟩ := h r List.mem_cons_self
        obtain ⟨m, hm⟩ := patchEntry_total checks hready hwrite hfit
        obtain ⟨hlibrary, hlen⟩ := keeps_of_patchEntry hm
        rw [hm, Option.bind_some]
        apply ih
        intro r' hr'
        rw [hlibrary, hlen]
        exact h r' (List.mem_cons_of_mem r hr')

/-- The entries of a sound selection are ready. -/
theorem ready_of_entryFits {library : StencilLibrary MAX_REGS} {c : Call MAX_REGS}
    (hfits : EntryFits library c r)
    (hnarrow : wide = false → ∀ i, r.patchInfo = some (.hole i) →
      ∃ value, c.emission.holes.toList[i.toNat]? = some value ∧ r.supportsValue value = true) :
    Ready wide (stackVars c.vars) c.emission.holes.toList c.emission.jumps.toList library.rtSymbols
      r := by
  rw [EntryFits] at hfits
  cases hinfo : r.patchInfo with
  | none =>
      rw [hinfo] at hfits
      exact hfits.elim
  | some info =>
      rw [hinfo] at hfits
      cases info with
      | hole i =>
          cases wide with
          | true => exact .pool rfl hinfo (List.getElem?_eq_getElem hfits)
          | false =>
              obtain ⟨value, hvalue, hsupports⟩ := hnarrow rfl i hinfo
              have hinline : inlineValue false (stackVars c.vars) c.emission.holes.toList
                  library.rtSymbols r = some value := by
                rw [inlineValue, hinfo]
                exact hvalue
              exact .inline hinline (Relocation.of_supportsValue hsupports).1
      | stack i =>
          obtain ⟨hlt, habs⟩ := hfits
          have hinline : inlineValue wide (stackVars c.vars) c.emission.holes.toList
              library.rtSymbols r = some (stackVars c.vars)[i.toNat] := by
            rw [inlineValue, hinfo]
            exact List.getElem?_eq_getElem hlt
          exact .inline hinline habs
      | target i => exact .jump hinfo (List.getElem?_eq_getElem hfits)
      | runtime i =>
          have hvalue : library.rtSymbols[i.toNat]? = some library.rtSymbols[i.toNat] :=
            List.getElem?_eq_getElem hfits
          cases hsupports : r.supportsValue library.rtSymbols[i.toNat] with
          | false => exact .runtime hinfo hvalue hsupports
          | true =>
              have hinline : inlineValue wide (stackVars c.vars) c.emission.holes.toList
                  library.rtSymbols r = some library.rtSymbols[i.toNat] := by
                rw [inlineValue, hinfo]
                exact Option.filter_eq_some_iff.2 ⟨hvalue, hsupports⟩
              exact .inline hinline (Relocation.of_supportsValue hsupports).1

end Entries

/-! ## Calls -/

section Calls

variable {MAX_REGS : Nat} {library : StencilLibrary MAX_REGS} {l l' : Linked MAX_REGS}
  {c : Call MAX_REGS}

/-- What a sound call returns. -/
def Call.outcome (ended : Bool) (c : Call MAX_REGS) : Except PatchError Unit :=
  if c.isEmit && ended then .error .alreadyEnded
  else if c.vars.any fun v => decide (MAX_REGS ≤ v.digit) then .error .invalidRegister
  else
    match c.selected with
    | some (some _) => .ok ()
    | _ => .error .stencilNotFound

/-- Without the register that overflows the check is a comparison of digits. -/
theorem anyInvalidRegister_of_ne (checks : Bool) {vars : List Location}
    (h : ∀ v ∈ vars, v ≠ .register 0xFFFF) (maxRegs : Nat) :
    anyInvalidRegister checks maxRegs vars = some (vars.any fun v => decide (maxRegs ≤ v.digit)) := by
  induction vars with
  | nil => rfl
  | cons v vars ih =>
      obtain ⟨bits, hbits, hdigit⟩ := intoBits_spec checks (h v List.mem_cons_self)
      rw [anyInvalidRegister, hbits, Option.bind_some, List.any_cons, hdigit]
      by_cases hle : maxRegs ≤ v.digit
      · rw [if_pos hle, decide_eq_true hle, Bool.true_or]
      · rw [if_neg hle, decide_eq_false hle, Bool.false_or]
        exact ih fun w hw => h w (List.mem_cons_of_mem v hw)

/-- **The copy.** -/
theorem copyAndPatch_total (checks : Bool)
    {settled : PatchBlock MAX_REGS} (hlibrary : settled.library = library) {sel : SelectedStencil}
    (hselected : c.selected = some (some sel)) (hsound : SoundSelection library c sel) :
    ∃ b', settled.copyAndPatch checks c.emission.stencil sel.stencil c.emission.inputs
      c.emission.outputs c.emission.holes c.emission.jumps sel.wide settled.code.length = some b' := by
  obtain ⟨code, hcode, relocs, hrelocs, hstencil, hfits⟩ := hsound
  rw [Option.mem_def] at hcode hrelocs
  simp only [PatchBlock.copyAndPatch, hlibrary, hcode, hrelocs, Option.bind_eq_bind, Option.bind_some]
  apply patchEntries_total
  intro r hr
  refine ⟨?_, writable_of_valid (hstencil.sizes r hr) (not_isInvalid_of_mem hr), ?_⟩
  · apply ready_of_entryFits (hfits r hr)
    intro hwide i hi
    obtain ⟨wide, stencil⟩ := sel
    replace hwide : wide = false := hwide
    subst hwide
    exact supportsValue_of_narrowFits (StencilFamily.narrowFits_of_select hselected hrelocs) hr hi
  · have hin := hstencil.inside r hr
    rw [List.length_append]
    omega

/-- The emission of a sound call on a sound state. -/
theorem SoundState.emitOne_total (h : SoundState library l) (checks : Bool) (hc : SoundCall library c) :
    ∃ b', l.block.emitOne checks c.emission.stencil c.emission.inputs c.emission.outputs
      c.emission.holes c.emission.jumps = some (Call.outcome false c, b') := by
  have hregs := anyInvalidRegister_of_ne checks hc.1 MAX_REGS
  rw [Call.vars] at hregs
  rw [Call.outcome, Bool.and_false, if_neg Bool.false_ne_true, Call.vars]
  simp only [PatchBlock.emitOne, hregs, Option.bind_eq_bind, Option.bind_some, Option.pure_def]
  by_cases hany : ((c.emission.inputs.toList ++ c.emission.outputs.toList).any fun v =>
      decide (MAX_REGS ≤ v.digit)) = true
  · rw [if_pos hany, if_pos hany]
    exact ⟨_, rfl⟩
  · rw [if_neg hany, if_neg hany]
    have hdigits : ∀ v ∈ c.vars, v.digit < MAX_REGS := by
      intro v hv
      rw [Bool.not_eq_true, List.any_eq_false] at hany
      have hlt := hany v hv
      rw [decide_eq_true_eq] at hlt
      omega
    obtain ⟨selected, hselected, hsound⟩ := hc.2 hdigits
    rw [Option.mem_def] at hselected
    have hselect := hselected
    rw [Call.selected] at hselect
    rw [hselect, Option.bind_some, hselected]
    cases selected with
    | none => exact ⟨_, rfl⟩
    | some sel =>
        obtain ⟨settled, hsettled⟩ := h.settleNext_total checks
        have hlibrary : settled.library = library :=
          (PatchBlock.settleNext_cases hsettled).2.1.library.trans h.same
        obtain ⟨b', hb'⟩ := copyAndPatch_total checks hlibrary hselected (hsound sel rfl)
        simp only [hsettled, hb', Option.bind_some]
        exact ⟨b', rfl⟩

/-- A sound call that is refused for no mark is refused for its operands, or copies. -/
theorem SoundState.call_outcome (h : SoundState library l) (checks : Bool) (hc : SoundCall library c) :
    ∃ b', l.block.call checks c = some (Call.outcome l.block.ended c, b') := by
  rw [PatchBlock.call_eq, Call.outcome]
  split
  · exact ⟨_, rfl⟩
  · obtain ⟨b', hb'⟩ := (h.marked c).emitOne_total checks hc
    refine ⟨b', hb'.trans ?_⟩
    rw [Call.outcome, Bool.and_false, if_neg Bool.false_ne_true]

/-- The operands of a call that succeeds are in registers of the family. -/
theorem digits_of_call {b b' : PatchBlock MAX_REGS} {checks : Bool}
    (hc : ∀ v ∈ c.vars, v ≠ .register 0xFFFF) (h : b.call checks c = some (.ok (), b')) :
    ∀ v ∈ c.vars, v.digit < MAX_REGS := by
  have hregs := anyInvalidRegister_of_ne checks hc MAX_REGS
  rw [Call.vars] at hregs
  rw [PatchBlock.call_eq] at h
  split at h
  · cases h
  · intro v hv
    by_contra hlt
    have hany : ((c.emission.inputs.toList ++ c.emission.outputs.toList).any fun v =>
        decide (MAX_REGS ≤ v.digit)) = true :=
      List.any_eq_true.2 ⟨v, hv, decide_eq_true (Nat.le_of_not_lt hlt)⟩
    rw [hany] at hregs
    simp [PatchBlock.emitOne, hregs] at h

/-- The stencil that a sound call copies is sound. -/
theorem SoundCall.copied {b b' settled : PatchBlock MAX_REGS} {checks wide : Bool} {code : List U8}
    {relocs : List Relocation} (hc : SoundCall library c) (hlibrary : b.library = library)
    (h : b.call checks c = some (.ok (), b')) (hcopy : b.Copies checks b' c wide settled code relocs) :
    SoundStencil library.empty code (validEntries relocs) := by
  obtain ⟨sel, hsel, -, hcode, hrelocs⟩ := hcopy.source
  obtain ⟨selected, hselected, hsound⟩ := hc.2 (digits_of_call hc.1 h)
  obtain rfl : some sel = selected := Option.some.inj (hsel.symm.trans hselected)
  obtain ⟨code', hcode', relocs', hrelocs', hstencil, -⟩ := hsound sel rfl
  rw [hlibrary] at hcode
  obtain rfl : code = code' := Option.some.inj (hcode.symm.trans hcode')
  obtain rfl : relocs = relocs' := Option.some.inj (hrelocs.symm.trans hrelocs')
  exact hstencil

/-- **A sound call is clean and tidy.** -/
theorem SoundState.clean (h : SoundState library l) {checks : Bool} (hc : SoundCall library c) :
    CleanCall checks l c ∧ TidyCall checks l.block c := by
  have hcopied : ∀ p ∈ l.block.copied checks c, ∃ b' wide,
      l.block.call checks c = some (.ok (), b') ∧
        PatchBlock.Copies checks l.block b' c wide p.1 p.2.1 p.2.2 := by
    intro p hp
    rw [Option.mem_def] at hp
    have hcopies := hp
    rw [PatchBlock.copied] at hp
    split at hp
    · next b' hcall =>
      rcases PatchBlock.call_cases hcall with ⟨e, he, -⟩ | ⟨-, wide, settled, code, relocs, hcopy⟩
      · cases he
      · obtain rfl := Option.some.inj (hcopies.symm.trans (hcopy.copied hcall))
        exact ⟨b', wide, hcall, hcopy⟩
    · cases hp
  constructor
  · intro p hp
    obtain ⟨b', wide, hcall, hcopy⟩ := hcopied p hp
    exact ⟨(hc.copied h.same hcall hcopy).wellPlaced, h.cleanCut hcopy.settles⟩
  · intro p hp
    obtain ⟨b', wide, hcall, hcopy⟩ := hcopied p hp
    have hstencil := hc.copied h.same hcall hcopy
    refine ⟨hstencil.inside, fun d hd _ => ?_⟩
    exact h.link.delayed_survives (h.copying hcopy hstencil) (h.cleanCut hcopy.settles) hd

theorem SoundState.next (h : SoundState library l) {checks : Bool} (hc : SoundCall library c)
    (hn : l.next checks c = some l') : SoundState library l' := by
  obtain ⟨wide, settled, code, relocs, hcall, hcopy, -, hstencils⟩ := Linked.copies_of_next hn
  have hcopied := h.copied hcopy (hc.copied h.same hcall hcopy)
  rw [← hstencils] at hcopied
  exact hcopied

/-- The invariant holds in every run of sound calls. -/
theorem soundState_of_reachable {checks : Bool}
    (h : ((linkedSystem checks library).guard fun _ => SoundCall library).Reachable l) :
    SoundState library l := by
  refine System.Reachable.invariant ?_ ?_ h
  · rintro _ rfl
    exact SoundState.start
  · rintro l c l' - hi ⟨hc, hn⟩
    exact hi.next hc hn

/-- With calls that fail in between the block has a sound state as well. -/
theorem soundState_of_block {checks : Bool} {b : PatchBlock MAX_REGS}
    (h : ((blockSystem checks library).guard fun _ => SoundCall library).Reachable b) :
    ∃ stencils, SoundState library ⟨b, stencils⟩ := by
  refine System.Reachable.invariant (I := fun b => ∃ stencils, SoundState library ⟨b, stencils⟩)
    ?_ ?_ h
  · rintro _ rfl
    exact ⟨[], SoundState.start⟩
  · rintro b c b' - ⟨stencils, hi⟩ ⟨hc, res, hcall⟩
    rcases PatchBlock.call_marked hcall with
      ⟨e, -, rfl⟩ | ⟨rfl, wide, settled, code, relocs, hcopy⟩
    · exact ⟨stencils, hi.marked c⟩
    · exact ⟨_, hi.copied hcopy (hc.copied hi.same hcall hcopy)⟩

/-- **Sound calls return.** Behind any sound calls, failed ones included, a sound call does not panic, and
its result is the one that the mark, the operands and the selected stencil say. -/
theorem call_total {checks : Bool} {b : PatchBlock MAX_REGS}
    (h : ((blockSystem checks library).guard fun _ => SoundCall library).Reachable b)
    (hc : SoundCall library c) : ∃ b', b.call checks c = some (Call.outcome b.ended c, b') := by
  obtain ⟨stencils, hi⟩ := soundState_of_block h
  exact hi.call_outcome checks hc

end Calls

/-! ## A sound run -/

def soundRunOf {MAX_REGS : Nat} (library : StencilLibrary MAX_REGS) (calls : List (Call MAX_REGS)) :
    Option (Linked MAX_REGS) :=
  linkedRunOf (fun _ c => decide (SoundCall library c)) library calls

/-- The block behind a list of calls, of which some may fail. -/
def soundBlockOf {MAX_REGS : Nat} (library : StencilLibrary MAX_REGS) (calls : List (Call MAX_REGS)) :
    Option (PatchBlock MAX_REGS) :=
  System.runGuarded (fun b c => (b.call true c).map (·.2)) (fun _ c => decide (SoundCall library c)) calls
    (.new library)

/-- Behind the end of the block, the call that was fine before is refused. -/
theorem call_total_ended : ∃ b c b', soundBlockOf sampleLibrary callThenJump = some b ∧
    c ∈ callThenJump ∧ Call.outcome false c = .ok () ∧
      b.call true c = some (.error .alreadyEnded, b') := by
  have hrun : (soundBlockOf sampleLibrary callThenJump).map (·.ended) = some true := by decide +kernel
  obtain ⟨b, hb, hended⟩ := Option.map_eq_some_iff.1 hrun
  have hreach : ((blockSystem true sampleLibrary).guard fun _ => SoundCall sampleLibrary).Reachable b := by
    refine System.reachable_of_runGuarded ?_ (fun _ _ h => of_decide_eq_true h) (.init rfl) hb
    intro s c s' h
    obtain ⟨⟨res, s''⟩, hcall, rfl⟩ := Option.map_eq_some_iff.1 h
    exact ⟨res, hcall⟩
  obtain ⟨b', hcall⟩ := call_total (c := .emit callFamily nil nil nil) hreach (by decide +kernel)
  refine ⟨b, _, b', hb, List.mem_cons_self, by decide +kernel, ?_⟩
  rw [hcall, hended]
  rfl

end Patchouly.Patch
