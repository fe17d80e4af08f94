import Patchouly.Patch.Block

/-!
# What one emission does

The functions of `Patchouly.Patch.Block` described by their effects, once for all later proofs.

* `settleNext_cases`: the previous stencil's pending jumps are written, and the code may lose a
  suffix equal to the empty stencil.
* `patchEntry_cases`: one relocation entry is written into its own field, becomes a delayed entry,
  or becomes a pending jump.
* `patchEntries_effect`: the copy of a whole relocation list (`CopyEffect`).
* `emitOne_cases`: an emission fails and changes nothing, or settles, copies and patches.
-/

set_option autoImplicit false

namespace Patchouly.Patch

open Patchouly.Lib Patchouly.Core

variable {MAX_REGS : Nat}

/-- The write that resolves a pending jump to the code position `target`. -/
def jumpWrite (target : Nat) (d : DelayedRelocation) : Write :=
  d.fieldWrite 0 (d.resolved 0 (BitVec.ofNat 64 target))

namespace PatchBlock

theorem drainNext_writes {checks : Bool} {target : Nat} {rest : List DelayedRelocation}
    {code out : List U8}
    (h : drainNext checks (BitVec.ofNat 64 target) rest code = some out) :
    applyWrites (rest.map (jumpWrite target)) code = some out := by
  induction rest generalizing code with
  | nil => exact h
  | cons d rest ih =>
      simp only [drainNext, Option.bind_eq_bind] at h
      obtain ⟨value, hv, h⟩ := Option.bind_eq_some_iff.1 h
      obtain ⟨mid, hm, h⟩ := Option.bind_eq_some_iff.1 h
      obtain ⟨-, hc⟩ := DelayedRelocation.apply_eq_some hm
      have hw : copyFromSlice code (jumpWrite target d).pos (jumpWrite target d).bytes =
          some mid := by
        rw [jumpWrite, ← DelayedRelocation.eq_of_resolve hv]
        exact hc
      simp only [List.map_cons, applyWrites, hw, Option.bind_some]
      exact ih h

/-- The fields that `settleNext` and `copyAndPatch` leave alone. -/
structure SameFrame (b b' : PatchBlock MAX_REGS) : Prop where
  library : b'.library = b.library
  ended : b'.ended = b.ended

/-- What settling the previous stencil does: with no pending jump, nothing; otherwise the last
pending jump is resolved to the end of the code, the code is cut to `b'.code.length`, and the other
pending jumps are resolved to the new end. -/
inductive Settles (b b' : PatchBlock MAX_REGS) : Prop
  | idle (hn : b.nextRelocations = []) (hc : b'.code = b.code)
  | jump (init : List DelayedRelocation) (last : DelayedRelocation) (patched : List U8)
      (hn : b.nextRelocations = init ++ [last])
      (hp : applyWrites [jumpWrite b.code.length last] b.code = some patched)
      (hcut : b'.code.length = patched.length ∨
        b.library.empty <:+ patched ∧
          b'.code.length = patched.length - b.library.empty.length ∧
          ((b.relocations.getLast?).map (·.location)).getD 0 < last.location)
      (hw : applyWrites (init.map (jumpWrite b'.code.length)) (patched.take b'.code.length) =
        some b'.code)

/-- Settling changes the code and the pending jumps only. -/
theorem settleNext_cases {checks : Bool} {b b' : PatchBlock MAX_REGS}
    (h : b.settleNext checks = some b') :
    Settles b b' ∧ SameFrame b b' ∧ b'.relocations = b.relocations ∧
      b'.constants = b.constants ∧ b'.nextRelocations = [] := by
  simp only [settleNext, Option.bind_eq_bind, Option.pure_def] at h
  obtain ⟨m, hm, h⟩ := Option.bind_eq_some_iff.1 h
  obtain ⟨code, hcode, h⟩ := Option.bind_eq_some_iff.1 h
  obtain rfl := Option.some.inj h
  have hdrain := drainNext_writes hcode
  rw [popNext] at hm
  -- without a pending jump nothing is popped, and nothing is left to resolve
  cases hlast : b.nextRelocations.getLast? with
  | none =>
      simp only [hlast, Option.some.injEq] at hm
      subst hm
      have hnil : b.nextRelocations = [] := List.getLast?_eq_none_iff.1 hlast
      rw [hnil] at hdrain
      obtain rfl := Option.some.inj hdrain
      exact ⟨.idle hnil rfl, ⟨rfl, rfl⟩, rfl, rfl, rfl⟩
  | some last =>
      simp only [hlast, Option.bind_eq_bind, Option.pure_def] at hm
      obtain ⟨value, hv, hm⟩ := Option.bind_eq_some_iff.1 hm
      obtain ⟨patched, hp, hm⟩ := Option.bind_eq_some_iff.1 hm
      obtain ⟨init, hinit⟩ := List.getLast?_eq_some_iff.1 hlast
      obtain ⟨-, hcopy⟩ := DelayedRelocation.apply_eq_some hp
      have hw : applyWrites [jumpWrite b.code.length last] b.code = some patched := by
        rw [DelayedRelocation.eq_of_resolve hv] at hcopy
        exact Option.bind_eq_some_iff.2 ⟨patched, hcopy, rfl⟩
      have hdrop : b.nextRelocations.dropLast = init := by rw [hinit]; simp
      split at hm
      · next hprune =>
        obtain rfl := Option.some.inj hm
        simp only [prunable, Bool.and_eq_true, List.isSuffixOf_iff_suffix, decide_eq_true_eq,
          hdrop] at hprune hdrain
        have hlen := applyWrites_length hdrain
        simp only [List.length_take] at hlen
        have hlen' : code.length = patched.length - b.library.empty.length := by omega
        refine ⟨.jump init last patched hinit hw (Or.inr ⟨hprune.1, hlen', hprune.2⟩) ?_,
          ⟨rfl, rfl⟩, rfl, rfl, rfl⟩
        -- the other jumps are resolved to the end of the code after the cut
        rw [show (patched.take (patched.length - b.library.empty.length)).length = code.length by
          rw [hlen, List.length_take]] at hdrain
        rw [hlen'] at hdrain ⊢
        exact hdrain
      · obtain rfl := Option.some.inj hm
        simp only [hdrop] at hdrain
        have hlen := applyWrites_length hdrain
        refine ⟨.jump init last patched hinit hw (Or.inl hlen) ?_, ⟨rfl, rfl⟩, rfl, rfl, rfl⟩
        simp only [hlen, List.take_length]
        exact hdrain

theorem Settles.length_le {b b' : PatchBlock MAX_REGS} (h : Settles b b') :
    b'.code.length ≤ b.code.length := by
  cases h with
  | idle hn hc => rw [hc]
  | jump init last patched hn hp hcut hw =>
      have hl := applyWrites_length hp
      rcases hcut with h | ⟨-, h, -⟩ <;> omega

/-! ## The copy -/

section Copy

variable {checks wide : Bool} {offset : Nat} {vars holes : List Usize} {jumps : List JumpTarget}

/-- Why an entry was filed with its target: the jump it belongs to, the runtime function it calls,
or the pool slot that holds its wide hole. -/
inductive FiledFor (library : StencilLibrary MAX_REGS) (constants holes : List Usize)
    (jumps : List JumpTarget) : DelayedRelocation → Prop
  | block {offset : Nat} {r : Relocation} {t i : U16} (hi : r.patchInfo = some (.target i))
      (hj : jumps[i.toNat]? = some (.target t)) :
      FiledFor library constants holes jumps ⟨offset, r, .block t⟩
  | next {offset : Nat} {r : Relocation} {i : U16} (hi : r.patchInfo = some (.target i))
      (hj : jumps[i.toNat]? = some .next) : FiledFor library constants holes jumps ⟨offset, r, .next⟩
  | runtime {offset : Nat} {r : Relocation} {s : U16} (hs : r.patchInfo = some (.runtime s))
      (hlt : s.toNat < library.rtSymbols.length) :
      FiledFor library constants holes jumps ⟨offset, r, .runtime s⟩
  | constant {offset : Nat} {r : Relocation} {i : U16} {index : Nat} {value : Usize}
      (hi : r.patchInfo = some (.hole i)) (hv : holes[i.toNat]? = some value)
      (hc : constants[index]? = some value) :
      FiledFor library constants holes jumps ⟨offset, r, .constant (BitVec.ofNat 16 index)⟩

theorem FiledFor.mono {library : StencilLibrary MAX_REGS} {constants more : List Usize}
    {d : DelayedRelocation} (h : FiledFor library constants holes jumps d) :
    FiledFor library (constants ++ more) holes jumps d := by
  cases h with
  | block hi hj => exact .block hi hj
  | next hi hj => exact .next hi hj
  | runtime hs hlt => exact .runtime hs hlt
  | constant hi hv hc =>
      have hlt := (List.getElem?_eq_some_iff.1 hc).1
      exact .constant hi hv (by rw [List.getElem?_append_left hlt, hc])

/-- What one entry does to the block: it is written into its own field, or becomes a delayed entry,
with a pool slot if it is a wide hole, or becomes a pending jump. -/
inductive Patches (b b' : PatchBlock MAX_REGS) (wide : Bool) (offset : Nat)
    (vars holes : List Usize) (jumps : List JumpTarget) (r : Relocation) : Prop
  | written (value : Usize) (ht : ∀ i, r.patchInfo ≠ some (.target i))
      (hv : ∀ i, r.patchInfo = some (.stack i) → r.relative = false →
        vars[i.toNat]? = some value)
      (hw : applyWrites [⟨offset + r.offset.toNat, r.fieldBytes value⟩] b.code = some b'.code)
      (hb : b' = { b with code := b'.code })
  | delayed (t : DelayedTarget) (more : List Usize) (hne : t ≠ .next)
      (ht : FiledFor b.library (b.constants ++ more) holes jumps ⟨offset, r, t⟩)
      (hb : b' = { b with
        constants := b.constants ++ more, relocations := b.relocations ++ [⟨offset, r, t⟩] })
  | pending (ht : FiledFor b.library b.constants holes jumps ⟨offset, r, .next⟩)
      (hb : b' = { b with nextRelocations := b.nextRelocations ++ [⟨offset, r, .next⟩] })

theorem patchEntry_cases {b b' : PatchBlock MAX_REGS} {r : Relocation}
    (h : patchEntry checks wide offset vars holes jumps b r = some b') :
    Patches b b' wide offset vars holes jumps r := by
  unfold patchEntry at h
  split at h
  · next i hinfo =>
    simp only [Option.bind_eq_bind, Option.pure_def] at h
    obtain ⟨value, hv, h⟩ := Option.bind_eq_some_iff.1 h
    obtain rfl := Option.some.inj h
    exact .delayed (.constant (BitVec.ofNat 16 b.constants.length)) [value] (by simp)
      (.constant hinfo hv (by simp)) rfl
  · obtain ⟨⟨code, delayed⟩, hout, rfl⟩ := Option.map_eq_some_iff.1 h
    rcases DelayedRelocation.tryApply_cases hout with
      ⟨i, j, hi, hj, hc, hd⟩ | ⟨i, hi, hlt, hc, hd⟩ | ⟨value, hnt, hd, hstack, hraw⟩
    · simp only at hc hd
      subst hc hd
      cases j with
      | next => exact .pending (.next hi hj) rfl
      | target t => exact .delayed (.block t) [] (by simp) (.block hi hj) (by simp [fileDelayed])
    · simp only at hc hd
      subst hc hd
      exact .delayed (.runtime i) [] (by simp) (.runtime hi hlt) (by simp [fileDelayed])
    · simp only at hd
      subst hd
      obtain ⟨-, -, hc⟩ := Relocation.applyRaw_eq_some hraw
      exact .written value hnt hstack (Option.bind_eq_some_iff.2 ⟨code, hc, rfl⟩) rfl

/-- The delayed entry of a jump. -/
def jumpTarget : JumpTarget → DelayedTarget
  | .next => .next
  | .target t => .block t

/-- An entry for a jump was filed with the target of its jump. -/
theorem FiledFor.jump {library : StencilLibrary MAX_REGS} {constants : List Usize}
    {d : DelayedRelocation} (h : FiledFor library constants holes jumps d) {i : U16}
    (hi : d.relocation.patchInfo = some (.target i)) :
    ∃ j, jumps[i.toNat]? = some j ∧ d.target = jumpTarget j := by
  cases h with
  | block hi' hj =>
      obtain rfl := PatchInfo.target.inj (Option.some.inj (hi.symm.trans hi'))
      exact ⟨_, hj, rfl⟩
  | next hi' hj =>
      obtain rfl := PatchInfo.target.inj (Option.some.inj (hi.symm.trans hi'))
      exact ⟨_, hj, rfl⟩
  | runtime hs hlt => cases Option.some.inj (hi.symm.trans hs)
  | constant hi' hv hc => cases Option.some.inj (hi.symm.trans hi')

/-- The effect of copying a stencil with the relocation entries `entries` to `offset`. The entries
it files are a sublist of `entries`, in order. -/
structure CopyEffect (b b' : PatchBlock MAX_REGS) (offset : Nat) (holes : List Usize)
    (jumps : List JumpTarget) (entries : List Relocation) : Prop where
  frame : SameFrame b b'
  writes : ∃ ws : List Write, applyWrites ws b.code = some b'.code ∧
    ∀ w ∈ ws, ∃ r ∈ entries, ∃ v, w = ⟨offset + r.offset.toNat, r.fieldBytes v⟩
  constants : ∃ more, b'.constants = b.constants ++ more
  relocations : ∃ new, b'.relocations = b.relocations ++ new ∧
    (new.map (·.relocation)).Sublist entries ∧
    ∀ d ∈ new, d.offset = offset ∧ d.target ≠ .next ∧
      FiledFor b'.library b'.constants holes jumps d
  pending : ∃ new, b'.nextRelocations = b.nextRelocations ++ new ∧
    (new.map (·.relocation)).Sublist entries ∧
    ∀ d ∈ new, d.offset = offset ∧ d.target = .next ∧
      FiledFor b'.library b'.constants holes jumps d
  jumps : ∀ r ∈ entries, ∀ i, r.patchInfo = some (.target i) → ∃ j, jumps[i.toNat]? = some j ∧
    (⟨offset, r, jumpTarget j⟩ ∈ b'.relocations ++ b'.nextRelocations)

theorem CopyEffect.nil (b : PatchBlock MAX_REGS) (offset : Nat) (holes : List Usize)
    (jumps : List JumpTarget) : CopyEffect b b offset holes jumps [] where
  frame := ⟨rfl, rfl⟩
  writes := ⟨[], rfl, by simp⟩
  constants := ⟨[], by simp⟩
  relocations := ⟨[], by simp, by simp, by simp⟩
  pending := ⟨[], by simp, by simp, by simp⟩
  jumps := by simp

/-- One entry in front of a copy. -/
theorem CopyEffect.cons {b m b' : PatchBlock MAX_REGS} {r : Relocation} {entries : List Relocation}
    (h : Patches b m wide offset vars holes jumps r)
    (k : CopyEffect m b' offset holes jumps entries) :
    CopyEffect b b' offset holes jumps (r :: entries) := by
  obtain ⟨hframe, ⟨ws, hws, hwsr⟩, ⟨more, hmore⟩, ⟨new, hnew, hsub, hfiled⟩,
    ⟨pend, hpend, hpsub, hpfiled⟩, hjumps⟩ := k
  -- what the rest writes is written for an entry of the whole list as well
  have hwrites : ∀ w ∈ ws, ∃ r' ∈ r :: entries, ∃ v,
      w = ⟨offset + r'.offset.toNat, r'.fieldBytes v⟩ := by
    intro w hmem
    obtain ⟨r', hr', v, hv'⟩ := hwsr w hmem
    exact ⟨r', List.mem_cons_of_mem _ hr', v, hv'⟩
  cases h with
  | written value ht hv hw hb =>
      rw [hb] at hframe hmore hnew hpend
      refine ⟨⟨hframe.1, hframe.2⟩, ⟨⟨offset + r.offset.toNat, r.fieldBytes value⟩ :: ws, ?_, ?_⟩,
        ⟨more, hmore⟩,
        ⟨new, hnew, hsub.cons _, hfiled⟩, ⟨pend, hpend, hpsub.cons _, hpfiled⟩, ?_⟩
      · rw [← List.singleton_append, applyWrites_append, hw]
        exact hws
      · intro w hmem
        rcases List.mem_cons.1 hmem with rfl | hmem
        · exact ⟨r, List.mem_cons_self, value, rfl⟩
        · exact hwrites w hmem
      · -- a jump is never written at once
        intro r' hr' i hi
        rcases List.mem_cons.1 hr' with rfl | hr'
        · exact absurd hi (ht i)
        · exact hjumps r' hr' i hi
  | delayed t extra hne ht hb =>
      subst hb
      refine ⟨⟨hframe.1, hframe.2⟩, ⟨ws, hws, hwrites⟩,
        ⟨extra ++ more, by rw [hmore, List.append_assoc]⟩,
        ⟨⟨offset, r, t⟩ :: new, by rw [hnew]; simp, hsub.cons_cons _, ?_⟩,
        ⟨pend, hpend, hpsub.cons _, hpfiled⟩, ?_⟩
      · intro d hd
        rcases List.mem_cons.1 hd with rfl | hd
        · refine ⟨rfl, hne, ?_⟩
          -- the constants only grow, so an index filed now is still right at the end
          rw [hframe.1, hmore]
          exact FiledFor.mono ht
        · exact hfiled d hd
      · intro r' hr' i hi
        rcases List.mem_cons.1 hr' with rfl | hr'
        · obtain ⟨j, hj, rfl⟩ : ∃ j, jumps[i.toNat]? = some j ∧ t = jumpTarget j := ht.jump hi
          exact ⟨j, hj, by rw [hnew]; simp⟩
        · exact hjumps r' hr' i hi
  | pending ht hb =>
      subst hb
      refine ⟨⟨hframe.1, hframe.2⟩, ⟨ws, hws, hwrites⟩, ⟨more, hmore⟩,
        ⟨new, hnew, hsub.cons _, hfiled⟩,
        ⟨⟨offset, r, .next⟩ :: pend, by rw [hpend]; simp, hpsub.cons_cons _, ?_⟩, ?_⟩
      · intro d hd
        rcases List.mem_cons.1 hd with rfl | hd
        · refine ⟨rfl, rfl, ?_⟩
          rw [hframe.1, hmore]
          exact FiledFor.mono ht
        · exact hpfiled d hd
      · intro r' hr' i hi
        rcases List.mem_cons.1 hr' with rfl | hr'
        · obtain ⟨j, hj, hnext⟩ : ∃ j, jumps[i.toNat]? = some j ∧ DelayedTarget.next = jumpTarget j :=
            ht.jump hi
          exact ⟨j, hj, by rw [hpend, ← hnext]; simp⟩
        · exact hjumps r' hr' i hi

/-- **The loop of `copyAndPatch`**, over the entries before the end marker. -/
theorem patchEntries_effect {relocs : List Relocation} {b b' : PatchBlock MAX_REGS}
    (h : patchEntries checks wide offset vars holes jumps relocs b = some b') :
    CopyEffect b b' offset holes jumps (validEntries relocs) := by
  induction relocs generalizing b with
  | nil =>
      obtain rfl := Option.some.inj h
      exact CopyEffect.nil b offset holes jumps
  | cons r relocs ih =>
      rw [patchEntries] at h
      split at h
      · next hinv =>
        obtain rfl := Option.some.inj h
        simp only [validEntries, List.takeWhile_cons, hinv, Bool.not_true, Bool.false_eq_true,
          if_false]
        exact CopyEffect.nil b offset holes jumps
      · next hinv =>
        obtain ⟨m, hm, h⟩ := Option.bind_eq_some_iff.1 h
        have hv : validEntries (r :: relocs) = r :: validEntries relocs := by
          simp [validEntries, hinv]
        rw [hv]
        exact CopyEffect.cons (patchEntry_cases hm) (ih h)

theorem Patches.library {b b' : PatchBlock MAX_REGS} {r : Relocation}
    (h : Patches b b' wide offset vars holes jumps r) : b'.library = b.library := by
  cases h with
  | written value ht hv hw hb => rw [hb]
  | delayed t more hne ht hb => rw [hb]
  | pending ht hb => rw [hb]

/-- A list of the block to which every entry appends its part gets the parts of all entries, in order. -/
theorem patchEntries_appends {α : Type} {library : StencilLibrary MAX_REGS}
    (view : PatchBlock MAX_REGS → List α)
    (part : List Relocation → List α) (hnil : part [] = [])
    (hcons : ∀ r rs, part (r :: rs) = part [r] ++ part rs)
    (hstep : ∀ b b' r, b.library = library →
      patchEntry checks wide offset vars holes jumps b r = some b' → view b' = view b ++ part [r])
    {relocs : List Relocation} {b b' : PatchBlock MAX_REGS} (hlibrary : b.library = library)
    (h : patchEntries checks wide offset vars holes jumps relocs b = some b') :
    view b' = view b ++ part (validEntries relocs) := by
  induction relocs generalizing b with
  | nil =>
      obtain rfl := Option.some.inj h
      rw [show validEntries [] = [] from rfl, hnil, List.append_nil]
  | cons r relocs ih =>
      rw [patchEntries] at h
      split at h
      · next hinv =>
        obtain rfl := Option.some.inj h
        rw [validEntries, List.takeWhile_cons, hinv]
        exact (hnil ▸ List.append_nil _).symm
      · next hinv =>
        obtain ⟨m, hm, h⟩ := Option.bind_eq_some_iff.1 h
        have hvalid : validEntries (r :: relocs) = r :: validEntries relocs := by
          simp [validEntries, hinv]
        have hm_library := (patchEntry_cases hm).library.trans hlibrary
        rw [ih hm_library h, hstep b m r hlibrary hm, hvalid, hcons r (validEntries relocs),
          List.append_assoc]

end Copy

/-! ## One emission -/

section Emit

variable {IN OUT HOLES JUMPS : Nat} {checks : Bool} {b b' : PatchBlock MAX_REGS}
  {stencils : StencilFamily IN OUT MAX_REGS HOLES JUMPS} {inputs : Vector Location IN}
  {outputs : Vector Location OUT} {holes : Vector Usize HOLES} {jumps : Vector JumpTarget JUMPS}

/-- A successful emission: the previous stencil is settled, the selected stencil's code is appended
and its entries are patched. -/
structure Emits (checks : Bool) (b : PatchBlock MAX_REGS)
    (stencils : StencilFamily IN OUT MAX_REGS HOLES JUMPS) (inputs : Vector Location IN)
    (outputs : Vector Location OUT) (holes : Vector Usize HOLES) (jumps : Vector JumpTarget JUMPS)
    (b' : PatchBlock MAX_REGS) (sel : SelectedStencil) (settled : PatchBlock MAX_REGS)
    (code : List U8) (relocs : List Relocation) : Prop where
  select : stencils.select inputs outputs holes = some (some sel)
  settle : b.settleNext checks = some settled
  fetchCode : sel.stencil.code b.library.code = some code
  fetchRelocs : sel.stencil.relocations stencils = some relocs
  patch : patchEntries checks sel.wide settled.code.length
    (stackVars (inputs.toList ++ outputs.toList)) holes.toList jumps.toList relocs
    { settled with code := settled.code ++ code } = some b'

/-- **An emission** returns an error and leaves the block alone, or does what `Emits` says. -/
theorem emitOne_cases {res : Except PatchError Unit}
    (h : b.emitOne checks stencils inputs outputs holes jumps = some (res, b')) :
    (∃ e, res = .error e ∧ b' = b) ∨
      (res = .ok () ∧ ∃ sel settled code relocs,
        Emits checks b stencils inputs outputs holes jumps b' sel settled code relocs) := by
  simp only [emitOne, Option.bind_eq_bind, Option.pure_def] at h
  obtain ⟨bad, -, h⟩ := Option.bind_eq_some_iff.1 h
  split at h
  · obtain ⟨rfl, rfl⟩ := Prod.mk.inj (Option.some.inj h)
    exact Or.inl ⟨_, rfl, rfl⟩
  · obtain ⟨selected, hsel, h⟩ := Option.bind_eq_some_iff.1 h
    cases selected with
    | none =>
        obtain ⟨rfl, rfl⟩ := Prod.mk.inj (Option.some.inj h)
        exact Or.inl ⟨_, rfl, rfl⟩
    | some sel =>
        obtain ⟨settled, hsettle, h⟩ := Option.bind_eq_some_iff.1 h
        obtain ⟨last, hcopy, h⟩ := Option.bind_eq_some_iff.1 h
        obtain ⟨rfl, rfl⟩ := Prod.mk.inj (Option.some.inj h)
        simp only [copyAndPatch, Option.bind_eq_bind] at hcopy
        obtain ⟨code, hcode, hcopy⟩ := Option.bind_eq_some_iff.1 hcopy
        obtain ⟨relocs, hrelocs, hcopy⟩ := Option.bind_eq_some_iff.1 hcopy
        rw [(settleNext_cases hsettle).2.1.library] at hcode
        exact Or.inr ⟨rfl, sel, settled, code, relocs, hsel, hsettle, hcode, hrelocs, hcopy⟩

end Emit

end PatchBlock

end Patchouly.Patch
