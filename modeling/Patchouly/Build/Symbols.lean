import Patchouly.Macros.Stencil

/-!
# External symbols of a stencil (`patchouly-build`, `extract.rs`)

A relocation of a stencil refers to an external symbol: one of those that the macro declares for the
stencil's operands, holes and jumps, or a runtime function. `getPatchType` tells them apart by the
stencil's function name.

`EmittedAs` lists the macro's symbols. They are classified as they should be
(`getPatchType_of_emittedAs`); `getPatchType_classifies` says which other symbols are.
-/

set_option autoImplicit false

namespace Patchouly.Build

open Patchouly.Lib Patchouly.Macros

inductive PatchType where
  | hole (i : U16)
  | stack (i : U16)
  | target (i : U16)
  | next
  | runtime (i : U16)
  deriving DecidableEq

/-- The digits before the first other byte. A digit is one byte, so the slice ends at a character. -/
def leadingDigits (s : Ident) : Ident := s.takeWhile Char.isDigit

def parseInt (s : Ident) : Option U16 := parseUnsigned 16 (leadingDigits s)

/-- The end of `get_patch_type`, behind the stencil's name and the underscores. -/
def patchTypeOf (name : Ident) : Option PatchType :=
  match stripPrefix "stack".toList name with
  | some name => (parseInt name).map .stack
  | none =>
      match stripPrefix "target".toList name with
      | some name => (parseInt name).map .target
      | none =>
          match stripPrefix "hole".toList name with
          | some name => (parseInt name).map .hole
          | none => none

/-- The assertion fails when the name is not followed by two underscores. -/
def getPatchType (name reloc : Ident) : Option (Option PatchType) :=
  if reloc = "copy_and_patch_next".toList then some (some .next)
  else
    match stripPrefix name reloc with
    | none => some none
    | some rest => (stripPrefix "__".toList rest).map patchTypeOf

/-- The symbols that the macro declares for a stencil, and what they stand for. -/
inductive EmittedAs (name : Ident) : Ident → PatchType → Prop
  | hole (i : U16) (wide : WidthVariant) :
      EmittedAs name (name ++ "__".toList ++ numbered "hole" i.toNat ++ WidthVariant.suffix wide)
        (.hole i)
  | stack (i : U16) : EmittedAs name (name ++ "__".toList ++ numbered "stack" i.toNat) (.stack i)
  | target (i : U16) (ident : Ident) :
      EmittedAs name (name ++ "__".toList ++ (numbered "target" i.toNat ++ '_' :: ident)) (.target i)
  | next : EmittedAs name "copy_and_patch_next".toList .next

/-- One of the macro's words with a number that fits behind it. -/
def NumberedWord (s : Ident) : Prop :=
  ∃ word ∈ ["stack".toList, "target".toList, "hole".toList], ∃ rest, s = word ++ rest ∧
    leadingDigits rest ≠ [] ∧ Nat.ofDigitChars 10 (leadingDigits rest) 0 < 2 ^ 16

/-! ## Numbers -/

theorem parseInt_decimal (i : U16) {rest : Ident} (hrest : ∀ c, rest.head? = some c → c.isDigit = false) :
    parseInt (decimal i.toNat ++ rest) = some i := by
  rw [parseInt, leadingDigits, takeWhile_decimal hrest, parseUnsigned_decimal i.isLt,
    BitVec.ofNat_toNat, BitVec.setWidth_eq]

theorem parseInt_eq_none_iff {s : Ident} : parseInt s = none ↔
    ¬ (leadingDigits s ≠ [] ∧ Nat.ofDigitChars 10 (leadingDigits s) 0 < 2 ^ 16) := by
  have hall : (leadingDigits s).all Char.isDigit = true := List.all_takeWhile
  -- a plus sign is not a digit
  have hplus : stripPlus (leadingDigits s) = leadingDigits s := by
    unfold stripPlus
    split
    · next rest he =>
      rw [he, List.all_cons] at hall
      cases hall
    · rfl
  simp only [parseInt, parseUnsigned, hplus, hall, true_and]
  split
  · next h => exact iff_of_false (by simp) (by simpa using h)
  · next h => exact iff_of_true rfl h

/-! ## Words -/

theorem patchTypeOf_stack (rest : Ident) :
    patchTypeOf ("stack".toList ++ rest) = (parseInt rest).map .stack := by
  rw [patchTypeOf, stripPrefix_append]

theorem patchTypeOf_target (rest : Ident) :
    patchTypeOf ("target".toList ++ rest) = (parseInt rest).map .target := by
  have hstack : stripPrefix "stack".toList ("target".toList ++ rest) = none :=
    stripPrefix_eq_none_iff.2 (not_prefix_of_head rfl rfl (by decide))
  simp only [patchTypeOf, hstack, stripPrefix_append]

theorem patchTypeOf_hole (rest : Ident) :
    patchTypeOf ("hole".toList ++ rest) = (parseInt rest).map .hole := by
  have hstack : stripPrefix "stack".toList ("hole".toList ++ rest) = none :=
    stripPrefix_eq_none_iff.2 (not_prefix_of_head rfl rfl (by decide))
  have htarget : stripPrefix "target".toList ("hole".toList ++ rest) = none :=
    stripPrefix_eq_none_iff.2 (not_prefix_of_head rfl rfl (by decide))
  simp only [patchTypeOf, hstack, htarget, stripPrefix_append]

/-- The lenient classification gives up exactly where no numbered word stands. -/
theorem patchTypeOf_eq_none_iff {s : Ident} : patchTypeOf s = none ↔ ¬ NumberedWord s := by
  constructor
  -- a numbered word is read by the branch of its word
  · rintro h ⟨word, hword, rest, rfl, hdigits⟩
    have hnone : parseInt rest = none := by
      simp only [List.mem_cons, List.not_mem_nil, or_false] at hword
      rcases hword with rfl | rfl | rfl
      · exact Option.map_eq_none_iff.1 (patchTypeOf_stack rest ▸ h)
      · exact Option.map_eq_none_iff.1 (patchTypeOf_target rest ▸ h)
      · exact Option.map_eq_none_iff.1 (patchTypeOf_hole rest ▸ h)
    exact parseInt_eq_none_iff.1 hnone hdigits
  · intro h
    have hword : ∀ word ∈ ["stack".toList, "target".toList, "hole".toList], ∀ rest,
        s = word ++ rest → parseInt rest = none := by
      intro word hword rest hs
      rw [parseInt_eq_none_iff]
      exact fun hdigits => h ⟨word, hword, rest, hs, hdigits⟩
    rw [patchTypeOf]
    split
    · next rest hrest =>
      rw [hword _ (by simp) rest (stripPrefix_eq_some_iff.1 hrest)]
      rfl
    · split
      · next rest hrest =>
        rw [hword _ (by simp) rest (stripPrefix_eq_some_iff.1 hrest)]
        rfl
      · split
        · next rest hrest =>
          rw [hword _ (by simp) rest (stripPrefix_eq_some_iff.1 hrest)]
          rfl
        · rfl

/-! ## Symbols -/

/-- A symbol of the stencil is classified by what follows its name. -/
theorem getPatchType_append (name rest : Ident) :
    getPatchType name (name ++ "__".toList ++ rest) = some (patchTypeOf rest) := by
  -- the name of the fall-through jump has no doubled underscore
  have hne : name ++ "__".toList ++ rest ≠ "copy_and_patch_next".toList := by
    intro h
    have hfree : NotDoubled '_' "copy_and_patch_next".toList := by
      rw [← find_double_eq_none_iff]
      decide
    rw [← h, List.append_assoc] at hfree
    exact not_notDoubled name rest hfree
  rw [getPatchType, if_neg hne, List.append_assoc, stripPrefix_append]
  simp only [stripPrefix_append, Option.map_some]

/-- **The macro's symbols** are classified as what they stand for. -/
theorem getPatchType_of_emittedAs {name s : Ident} {p : PatchType} (h : EmittedAs name s p) :
    getPatchType name s = some (some p) := by
  cases h with
  -- behind the number comes the width suffix, which is no digit
  | hole i wide =>
      have hrest : ∀ c, (WidthVariant.suffix wide).head? = some c → c.isDigit = false := by
        cases wide with
        | false =>
            intro c hc
            cases hc
        | true =>
            rintro c hc
            obtain rfl := Option.some.inj hc
            decide
      rw [List.append_assoc, getPatchType_append, numbered, List.append_assoc, patchTypeOf_hole,
        parseInt_decimal i hrest]
      rfl
  | stack i =>
      have hparse := @parseInt_decimal i [] (by simp)
      rw [List.append_nil] at hparse
      rw [getPatchType_append, numbered, patchTypeOf_stack, hparse]
      rfl
  -- behind the number comes an underscore and the jump's own name
  | target i ident =>
      have hrest : ∀ c, ('_' :: ident).head? = some c → c.isDigit = false := by
        rintro c hc
        obtain rfl := Option.some.inj hc
        decide
      rw [getPatchType_append, numbered, List.append_assoc, patchTypeOf_target,
        parseInt_decimal i hrest]
      rfl
  | next => exact if_pos rfl

/-- A symbol is classified as it should be: one of the macro's as what it stands for, any other one as
foreign. -/
def Classified (name s : Ident) : Prop :=
  (∀ p, EmittedAs name s p → getPatchType name s = some (some p)) ∧
    ((∀ p, ¬ EmittedAs name s p) → getPatchType name s = some none)

/-- **Classification.** A symbol is classified as it should be exactly when it is one of the macro's, or
does not start with the stencil's name, or continues with two underscores and not with a numbered
word. -/
theorem getPatchType_classifies (name s : Ident) :
    Classified name s ↔ (∃ p, EmittedAs name s p) ∨ ¬ name <+: s ∨
      ∃ rest, s = name ++ "__".toList ++ rest ∧ ¬ NumberedWord rest := by
  constructor
  · rintro ⟨-, hforeign⟩
    by_cases hemitted : ∃ p, EmittedAs name s p
    · exact Or.inl hemitted
    · right
      have hnone := hforeign fun p hp => hemitted ⟨p, hp⟩
      by_cases hstart : name <+: s
      · right
        obtain ⟨t, rfl⟩ := hstart
        have hne : name ++ t ≠ "copy_and_patch_next".toList := by
          intro h
          exact hemitted ⟨.next, h ▸ .next⟩
        -- a symbol that starts with the name and is not foreign was read by `patchTypeOf`
        rw [getPatchType, if_neg hne, stripPrefix_append] at hnone
        obtain ⟨rest, hrest, htype⟩ := Option.map_eq_some_iff.1 hnone
        rw [stripPrefix_eq_some_iff.1 hrest]
        exact ⟨rest, (List.append_assoc ..).symm, patchTypeOf_eq_none_iff.1 htype⟩
      · exact Or.inl hstart
  · intro h
    refine ⟨fun p hp => getPatchType_of_emittedAs hp, ?_⟩
    intro hforeign
    rcases h with ⟨p, hp⟩ | hstart | ⟨rest, rfl, hword⟩
    · exact absurd hp (hforeign p)
    · have hne : s ≠ "copy_and_patch_next".toList := by
        rintro rfl
        exact hforeign .next .next
      rw [getPatchType, if_neg hne, stripPrefix_eq_none_iff.2 hstart]
    · rw [getPatchType_append, patchTypeOf_eq_none_iff.2 hword]

/-- The name `mem` and the runtime function `memcpy`: the assertion fails. -/
theorem not_getPatchType_classifies : ¬ ∀ name s : Ident, acceptsName name = true → Classified name s := by
  intro hall
  have hnone : getPatchType "mem".toList "memcpy".toList = none := by decide
  obtain ⟨-, hforeign⟩ := hall "mem".toList "memcpy".toList (by decide)
  have hfree : ∀ p, ¬ EmittedAs "mem".toList "memcpy".toList p := by
    intro p hp
    rw [getPatchType_of_emittedAs hp] at hnone
    cases hnone
  rw [hforeign hfree] at hnone
  cases hnone

end Patchouly.Build
