import Mathlib.Data.List.Perm.Basic
import Patchouly.Build.Completeness
import Patchouly.Build.Extract
import Patchouly.Macros.Transfer

/-!
# From the macro to the tables

The macro writes the shape of a function into its metadata, and a stencil's operands and width into the
stencil's symbol. The extractor reads both back: the metadata is the shape that was expanded
(`unpack_generateMeta`), and the symbols name every vector of the iterator once for each width
(`expand_requests`). A family with one call for each of these symbols answers every selection
(`select_expanded`).

Of the functions that go on to the next stencil, the macro rejects those with a raw identifier as a name
(`expand_iff`).
-/

set_option autoImplicit false

namespace Patchouly.Build

open Patchouly.Lib Patchouly.Core Patchouly.Macros

/-! ## Metadata -/

theorem u16At_leBytes (v : U16) (rest : List U8) : u16At (leBytes v 2 ++ rest) 0 = v := by
  have htake : (leBytes v 2 ++ rest).take 2 = leBytes v 2 := List.take_left' (leBytes_length v 2)
  rw [u16At, List.drop_zero, htake, ofLeBytes_leBytes]
  apply BitVec.eq_of_toNat_eq
  rw [BitVec.toNat_ofNat]
  omega

theorem u16At_append (before rest : List U8) (start : Nat) :
    u16At (before ++ rest) (before.length + start) = u16At rest start := by
  rw [u16At, u16At, List.drop_length_add_append]

/-- Words that stand in a row are read back, by induction on the words. -/
theorem u16At_words {words : List U16} (rest : List U8) {i : Nat} {v : U16} (h : words[i]? = some v) :
    u16At ((words.flatMap fun w => leBytes w 2) ++ rest) (2 * i) = v := by
  induction words generalizing i with
  | nil => cases h
  | cons w words ih =>
      rw [List.flatMap_cons, List.append_assoc]
      cases i with
      | zero =>
          obtain rfl := Option.some.inj h
          apply u16At_leBytes
      | succ i =>
          have hstart : 2 * (i + 1) = (leBytes w 2).length + 2 * i := by
            rw [leBytes_length]
            omega
          rw [hstart, u16At_append]
          exact ih h

/-- Five words and a text are read back. -/
theorem unpack_words (inputs outputs maxRegs holes jumps : U16) (orig : List U8) :
    Metadata.unpack (leBytes inputs 2 ++ leBytes outputs 2 ++ leBytes maxRegs 2 ++ leBytes holes 2 ++
        leBytes jumps 2 ++ orig) =
      some ⟨inputs, outputs, maxRegs, holes, jumps, fromUtf8Lossy orig⟩ := by
  obtain ⟨words, hwords⟩ : ∃ words, words = [inputs, outputs, maxRegs, holes, jumps] := ⟨_, rfl⟩
  have hdata : leBytes inputs 2 ++ leBytes outputs 2 ++ leBytes maxRegs 2 ++ leBytes holes 2 ++
      leBytes jumps 2 ++ orig = (words.flatMap fun w => leBytes w 2) ++ orig := by
    rw [hwords]
    simp only [List.flatMap_cons, List.flatMap_nil, List.append_assoc, List.nil_append]
  have hlen : (words.flatMap fun w => leBytes w 2).length = 10 := by
    rw [hwords]
    rfl
  have hread : ∀ i v, words[i]? = some v →
      u16At ((words.flatMap fun w => leBytes w 2) ++ orig) (2 * i) = v :=
    fun i v h => u16At_words orig h
  rw [hdata, Metadata.unpack, if_pos (by rw [List.length_append, hlen]; omega), List.drop_left' hlen,
    hread 0 inputs (by rw [hwords]; rfl), hread 1 outputs (by rw [hwords]; rfl),
    hread 2 maxRegs (by rw [hwords]; rfl), hread 3 holes (by rw [hwords]; rfl),
    hread 4 jumps (by rw [hwords]; rfl)]

/-- What the extractor learns about a function. -/
def shapeOf (fam : Macros.StencilFamily) : Metadata where
  inputs := fam.sig.inputs
  outputs := fam.metaOutputs
  maxRegs := fam.options.getRegisters.val
  holes := BitVec.ofNat 16 fam.sig.holeNames.length
  jumps := fam.metaTargets
  signature := fromUtf8Lossy fam.orig

/-- The metadata stands under the symbol that the extractor looks up, and is read back. -/
theorem unpack_generateMeta {fam : Macros.StencilFamily} {symbol : Ident} {data : List U8}
    (h : fam.generateMeta = some (symbol, data)) :
    symbol = STENCIL_FUNC_PREFIX ++ fam.name ++ "__meta".toList ∧
      Metadata.unpack data = some (shapeOf fam) := by
  rw [StencilFamily.generateMeta] at h
  obtain ⟨name, hname, h⟩ := Option.bind_eq_some_iff.1 h
  obtain ⟨rfl, rfl⟩ := Prod.mk.inj (Option.some.inj h)
  constructor
  · rw [identNew] at hname
    split at hname
    · cases hname
    · exact (Option.some.inj hname).symm
  · apply unpack_words

/-- `fn add1(a: usize) -> usize` without registers. -/
example : (⟨"add1".toList, ⟨false, none, false, 1⟩, ⟨[.arg 0], 1, 1, [], none, []⟩, []⟩ :
    Macros.StencilFamily).generateMeta =
      some ("__patchouly__add1__meta".toList, [1, 0, 1, 0, 1, 0, 0, 0, 1, 0]) := by decide

/-! ## Symbols -/

/-- What the extractor reads from a stencil's symbol. -/
def readSymbol (checks : Bool) (symbol : Ident) : Option (Ident × Bool × StencilArgs) :=
  ((stripPrefix STENCIL_FUNC_PREFIX symbol).bind (parseName checks)).join

theorem readSymbol_stencilSymbol (checks : Bool) {name : Ident} (hid : IsIdent name)
    (hacc : acceptsName name = true) (hr : Readable name) (inputs : Nat) (v : List U16) (wide : Bool) :
    readSymbol checks (Macros.stencilSymbol name (v.take inputs) (v.drop inputs) wide) =
      some (name, wide, argsOf inputs v) := by
  have hstrip : stripPrefix STENCIL_FUNC_PREFIX
      (Macros.stencilSymbol name (v.take inputs) (v.drop inputs) wide) =
        some (stencilName name (v.take inputs) (v.drop inputs) wide) :=
    stripPrefix_append STENCIL_FUNC_PREFIX _
  rw [readSymbol, hstrip, Option.bind_some, parseName_readable checks hid hacc hr]
  rfl

/-- The widths that a function's vectors are expanded in. -/
def widthsOf (fam : Macros.StencilFamily) : List Bool :=
  if fam.sig.holeNames = [] then [false] else [false, true]

theorem generateStencil_name {fam : Macros.StencilFamily} {v : List U16} {wide : Bool} {w : Wrapper}
    (h : fam.generateStencil v wide = some w) :
    w.name = Macros.stencilSymbol fam.name (v.take fam.sig.inputs.toNat)
      (v.drop fam.sig.inputs.toNat) wide := by
  rw [StencilFamily.generateStencil] at h
  obtain ⟨name, hname, h⟩ := Option.bind_eq_some_iff.1 h
  obtain ⟨sig, -, h⟩ := Option.bind_eq_some_iff.1 h
  obtain ⟨holes, -, h⟩ := Option.bind_eq_some_iff.1 h
  obtain ⟨call, -, h⟩ := Option.bind_eq_some_iff.1 h
  obtain rfl := Option.some.inj h
  rw [identNew] at hname
  split at hname
  · cases hname
  · exact (Option.some.inj hname).symm

theorem generateStencils_names {fam : Macros.StencilFamily} {v : List U16} {ws : List Wrapper}
    (h : fam.generateStencils v = some ws) :
    ws.map (·.name) = (widthsOf fam).map fun wide =>
      Macros.stencilSymbol fam.name (v.take fam.sig.inputs.toNat) (v.drop fam.sig.inputs.toNat) wide := by
  rw [StencilFamily.generateStencils] at h
  obtain ⟨nw, hnw, h⟩ := Option.bind_eq_some_iff.1 h
  rw [widthsOf]
  by_cases hholes : fam.sig.holeNames = []
  · rw [if_pos hholes] at h ⊢
    obtain rfl := Option.some.inj h
    rw [List.map_singleton, List.map_singleton, generateStencil_name hnw]
  · rw [if_neg hholes] at h ⊢
    obtain ⟨w, hw, h⟩ := Option.bind_eq_some_iff.1 h
    obtain rfl := Option.some.inj h
    simp only [List.map_cons, List.map_nil, generateStencil_name hnw, generateStencil_name hw]

/-- The symbols of a function's vectors, by induction on the vectors. -/
theorem names_of_mapM {fam : Macros.StencilFamily} {vs : List (List U16)} {groups : List (List Wrapper)}
    (h : vs.mapM fam.generateStencils = some groups) :
    groups.flatten.map (·.name) = vs.flatMap fun v => (widthsOf fam).map fun wide =>
      Macros.stencilSymbol fam.name (v.take fam.sig.inputs.toNat) (v.drop fam.sig.inputs.toNat) wide := by
  induction vs generalizing groups with
  | nil =>
      obtain rfl := Option.some.inj h
      rfl
  | cons v vs ih =>
      rw [List.mapM_cons] at h
      obtain ⟨ws, hws, h⟩ := Option.bind_eq_some_iff.1 h
      obtain ⟨rest, hrest, h⟩ := Option.bind_eq_some_iff.1 h
      obtain rfl := Option.some.inj h
      rw [List.flatten_cons, List.map_append, List.flatMap_cons, generateStencils_names hws, ih hrest]

/-- The vectors with their widths, in another order. -/
theorem flatMap_widths_perm {fam : Macros.StencilFamily} (hholes : fam.sig.holeNames.length < 2 ^ 16)
    (vs : List (List U16)) :
    (vs.flatMap fun v => (widthsOf fam).map fun wide => (argsOf fam.sig.inputs.toNat v, wide)).Perm
      (requests (shapeOf fam) vs) := by
  have hpos : (0 : U16) < (shapeOf fam).holes ↔ fam.sig.holeNames ≠ [] := by
    rw [BitVec.lt_def, shapeOf, BitVec.toNat_ofNat, Nat.mod_eq_of_lt hholes, ← List.length_pos_iff]
    rfl
  rw [requests, widthsOf]
  by_cases hnil : fam.sig.holeNames = []
  · rw [if_pos hnil, if_neg (mt hpos.1 (not_not.2 hnil)), List.append_nil]
    exact List.Perm.of_eq (List.map_eq_flatMap ..).symm
  · rw [if_neg hnil, if_pos (hpos.2 hnil), List.map_eq_flatMap, List.map_eq_flatMap]
    have hperm := List.flatMap_append_perm vs (fun v => [(argsOf fam.sig.inputs.toNat v, false)])
      fun v => [(argsOf fam.sig.inputs.toNat v, true)]
    exact hperm.symm

/-! ## Expansion -/

section Expand

variable {fam : Macros.StencilFamily} {fuel : Nat} {symbol : Ident} {data : List U8}
  {wrappers : List Wrapper}

@[simp] theorem dropOutputs_name (fam : Macros.StencilFamily) : fam.dropOutputs.name = fam.name := by
  rw [StencilFamily.dropOutputs]
  split <;> rfl

@[simp] theorem dropOutputs_options (fam : Macros.StencilFamily) :
    fam.dropOutputs.options = fam.options := by
  rw [StencilFamily.dropOutputs]
  split <;> rfl

@[simp] theorem dropOutputs_holeNames (fam : Macros.StencilFamily) :
    fam.dropOutputs.sig.holeNames = fam.sig.holeNames := by
  rw [StencilFamily.dropOutputs]
  split <;> rfl

/-- An expansion that succeeds has the metadata and, for every vector, the wrappers. -/
theorem expand_cases (h : fam.expand fuel = some (.ok ((symbol, data), wrappers))) :
    fam.dropOutputs.generateMeta = some (symbol, data) ∧ ∃ vs groups,
      (RegPermutation.new fam.dropOutputs.sig.inputs fam.dropOutputs.metaOutputs
        fam.options.getRegisters).bind (RegPermutation.collect fuel) = some vs ∧
      vs.mapM fam.dropOutputs.generateStencils = some groups ∧ wrappers = groups.flatten := by
  rw [StencilFamily.expand] at h
  split at h
  · cases h
  · obtain ⟨perm, hperm, h⟩ := Option.bind_eq_some_iff.1 h
    obtain ⟨metadata, hmeta, h⟩ := Option.bind_eq_some_iff.1 h
    obtain ⟨vs, hvs, h⟩ := Option.bind_eq_some_iff.1 h
    obtain ⟨groups, hgroups, h⟩ := Option.bind_eq_some_iff.1 h
    obtain ⟨rfl, rfl⟩ := Prod.mk.inj (Except.ok.inj (Option.some.inj h))
    rw [dropOutputs_options] at hperm
    exact ⟨hmeta, vs, groups, Option.bind_eq_some_iff.2 ⟨perm, hperm, hvs⟩, hgroups, rfl⟩

/-- **What the macro gives out.** The metadata is the function's shape, and the symbols of the wrappers are
read back as the requests of this shape: every vector of the iterator, once for each width. -/
theorem expand_requests (checks : Bool) (hid : IsIdent fam.name) (hacc : acceptsName fam.name = true)
    (hr : Readable fam.name) (hholes : fam.sig.holeNames.length < 2 ^ 16)
    (h : fam.expand fuel = some (.ok ((symbol, data), wrappers))) :
    Metadata.unpack data = some (shapeOf fam.dropOutputs) ∧ ∃ vs,
      (RegPermutation.new (shapeOf fam.dropOutputs).inputs (shapeOf fam.dropOutputs).outputs
        fam.options.getRegisters).bind (RegPermutation.collect fuel) = some vs ∧
      (wrappers.map fun w => readSymbol checks w.name).Perm
        ((requests (shapeOf fam.dropOutputs) vs).map fun request =>
          some (fam.name, request.2, request.1)) := by
  obtain ⟨hmeta, vs, groups, hvs, hgroups, rfl⟩ := expand_cases h
  refine ⟨(unpack_generateMeta hmeta).2, vs, hvs, ?_⟩
  have hread := readSymbol_stencilSymbol checks hid hacc hr fam.dropOutputs.sig.inputs.toNat
  have hnames : groups.flatten.map (fun w => readSymbol checks w.name) =
      (vs.flatMap fun v => (widthsOf fam.dropOutputs).map fun wide =>
        (argsOf fam.dropOutputs.sig.inputs.toNat v, wide)).map fun request =>
          some (fam.name, request.2, request.1) := by
    rw [← Function.comp_def (readSymbol checks), ← List.map_map, names_of_mapM hgroups,
      List.map_flatMap, List.map_flatMap]
    simp only [List.map_map, Function.comp_def, dropOutputs_name, hread]
  rw [hnames]
  rw [← dropOutputs_holeNames] at hholes
  exact (flatMap_widths_perm hholes vs).map _

/-- **From the macro to selection.** Build a family from the metadata, with one call for each symbol, in any
order and with overflow checks. For operands in registers of the family it is complete. -/
theorem select_expanded {checks : Bool} (hid : IsIdent fam.name) (hacc : acceptsName fam.name = true)
    (hr : Readable fam.name) (hholes : fam.sig.holeNames.length < 2 ^ 16)
    (h : fam.expand fuel = some (.ok ((symbol, data), wrappers))) {metadata : Metadata}
    (hunpack : Metadata.unpack data = some metadata) {calls : List StencilCall}
    (hcalls : (calls.map fun call => some (fam.name, call.wide, call.io)).Perm
      (wrappers.map fun w => readSymbol checks w.name))
    (hcode : ∀ call ∈ calls, call.code.len ≠ 0)
    (hvalid : ∀ call ∈ calls, ∀ r ∈ call.relocations, r.isInvalid = false)
    {b : StencilFamilyBuilder}
    (hadd : (StencilFamilyBuilder.new metadata).addStencils true calls = some (.ok (), b))
    (inputs : Vector Location b.finalize.IN) (outputs : Vector Location b.finalize.OUT)
    (hlocs : ∀ i, Location.register i ∈ inputs.toList ++ outputs.toList → i < metadata.maxRegs - 1)
    (holes : Vector Usize b.finalize.HOLES) : Complete b.finalize calls inputs outputs holes := by
  obtain ⟨hdata, vs, hvs, hreads⟩ := expand_requests checks hid hacc hr hholes h
  obtain rfl := Option.some.inj (hdata.symm.trans hunpack)
  have hregs : (shapeOf fam.dropOutputs).maxRegs = fam.options.getRegisters.val := by
    rw [shapeOf, dropOutputs_options]
  -- the name is the same in all symbols, so operands and widths are as requested
  have hrequests : (calls.map fun call => (call.io, call.wide)).Perm
      (requests (shapeOf fam.dropOutputs) vs) := by
    have hinj : Function.Injective fun request : StencilArgs × Bool =>
        some (fam.name, request.2, request.1) := by
      rintro ⟨io, wide⟩ ⟨io', wide'⟩ heq
      simpa [and_comm] using heq
    rw [← List.map_perm_map_iff hinj, List.map_map]
    exact hcalls.trans hreads
  have F := StencilFamilyBuilder.filled_addStencils hadd
  have R := Requested.of_perm hregs hvs hrequests
  apply F.select_requested R hcode hvalid hlocs
  apply F.walkEnds_iff.2
  intro call hcall
  exact lastHoleUnread_of_checks hadd _ call (StencilFamilyBuilder.mem_of_walkedCall hcall)

theorem identNew_metaSymbol (name : Ident) :
    identNew ("__patchouly__".toList ++ name ++ "__meta".toList) = none ↔ '#' ∈ name := by
  have hmem : '#' ∈ "__patchouly__".toList ++ name ++ "__meta".toList ↔ '#' ∈ name := by
    have hbefore : '#' ∉ "__patchouly__".toList := by decide
    have hafter : '#' ∉ "__meta".toList := by decide
    simp only [List.mem_append, hbefore, hafter, false_or, or_false]
  rw [identNew]
  split
  · next hraw => exact iff_of_true rfl (hmem.1 hraw)
  · next hraw => exact iff_of_false (by simp) (mt hmem.2 hraw)

/-- A vector of the iterator has its wrappers. -/
theorem generateStencils_total {v : List U16} {output : ReturnType} (P : fam.Plain v output)
    (hraw : '#' ∉ fam.name) : ∃ ws, fam.generateStencils v = some ws := by
  obtain ⟨nw, hnw, -⟩ := P.generateStencil_eq hraw false
  obtain ⟨w, hw, -⟩ := P.generateStencil_eq hraw true
  simp only [StencilFamily.generateStencils, hnw, hw, Option.bind_eq_bind, Option.bind_some]
  by_cases hholes : fam.sig.holeNames = []
  · rw [if_pos hholes]
    exact ⟨[nw], rfl⟩
  · rw [if_neg hholes]
    exact ⟨[nw, w], rfl⟩

/-- A function that goes on to the next stencil is expanded exactly if its name is no raw identifier. -/
theorem expand_iff {ident : Ident} {args : List FnArg} {output : ReturnType}
    (hparse : FnSignature.parse ident args output = some (.ok fam.sig))
    (hreturns : fam.options.returns = false) (htrampoline : fam.options.trampoline = false)
    (htarget : fam.sig.targetEnum = none)
    (hfuel : (RegPermutation.locations fam.sig.inputs fam.sig.outputs fam.options.getRegisters).length + 1 ≤
      fuel) :
    (∃ metadata wrappers, fam.expand fuel = some (.ok (metadata, wrappers))) ↔ '#' ∉ fam.name := by
  have hbound := (FnSignature.valid_of_parse hparse).bound
  have hdrop : fam.dropOutputs = fam := by
    rw [StencilFamily.dropOutputs, htrampoline]
    rfl
  have houtputs : fam.metaOutputs = fam.sig.outputs := by
    rw [StencilFamily.metaOutputs, hreturns]
    rfl
  obtain ⟨perm, hperm⟩ : ∃ perm, RegPermutation.new fam.sig.inputs fam.sig.outputs
      fam.options.getRegisters = some perm := by
    rw [RegPermutation.new, plainAdd_of_lt true (by omega)]
    exact ⟨_, rfl⟩
  have hcollect := RegPermutation.collect_new hperm fuel hfuel
  have hvectors : (RegPermutation.new fam.sig.inputs fam.sig.outputs fam.options.getRegisters).bind
      (RegPermutation.collect fuel) = some _ := Option.bind_eq_some_iff.2 ⟨perm, hperm, hcollect⟩
  constructor
  · rintro ⟨⟨symbol, data⟩, wrappers, h⟩ hraw
    have hmeta := (expand_cases h).1
    rw [hdrop, StencilFamily.generateMeta, (identNew_metaSymbol fam.name).2 hraw] at hmeta
    cases hmeta
  · intro hraw
    obtain ⟨metaName, hname⟩ := Option.ne_none_iff_exists'.1 (mt (identNew_metaSymbol fam.name).1 hraw)
    obtain ⟨groups, hgroups⟩ := mapM_total fun v hv => generateStencils_total
      (StencilFamily.plain_of_mem hparse hreturns htrampoline htarget hvectors hv) hraw
    simp only [StencilFamily.expand, htrampoline, Bool.false_and, Bool.false_eq_true, if_false, hdrop,
      houtputs, hperm, StencilFamily.generateMeta, hname, hcollect, hgroups, Option.bind_eq_bind,
      Option.bind_some, Option.pure_def]
    exact ⟨_, _, rfl⟩

end Expand

end Patchouly.Build
