import Mathlib.Data.List.Chain
import Patchouly.Lib.Words

/-!
# Text with byte offsets, decimal numbers and separators

A string is its list of characters. Offsets into it count UTF-8 bytes, and a slice at an offset that
is not on a character boundary aborts (`none`). `find` looks for a pattern and returns the byte
offset of its first occurrence.

`decimal` prints a number and `parseUnsigned` reads one back (`parseUnsigned_decimal`). A doubled
character separates two pieces as long as the first one neither contains it nor ends in the single
character (`find_double`).
-/

set_option autoImplicit false

namespace Patchouly.Lib

/-! ## Byte offsets -/

/-- Number of bytes of the text. -/
def utf8Len (s : List Char) : Nat := (s.map Char.utf8Size).sum

@[simp] theorem utf8Len_nil : utf8Len [] = 0 := rfl

@[simp] theorem utf8Len_cons (c : Char) (s : List Char) :
    utf8Len (c :: s) = c.utf8Size + utf8Len s := rfl

@[simp] theorem utf8Len_append (s t : List Char) : utf8Len (s ++ t) = utf8Len s + utf8Len t := by
  simp [utf8Len]

/-- `&s[n..]`. -/
def sliceFrom : List Char → Nat → Option (List Char)
  | s, 0 => some s
  | [], _ + 1 => none
  | c :: s, n + 1 => if c.utf8Size ≤ n + 1 then sliceFrom s (n + 1 - c.utf8Size) else none

/-- `&s[..n]`. -/
def sliceTo : List Char → Nat → Option (List Char)
  | _, 0 => some []
  | [], _ + 1 => none
  | c :: s, n + 1 =>
      if c.utf8Size ≤ n + 1 then (sliceTo s (n + 1 - c.utf8Size)).map (c :: ·) else none

/-- `&s[a..b]`. -/
def slice (s : List Char) (a b : Nat) : Option (List Char) :=
  if a ≤ b then (sliceFrom s a).bind fun t => sliceTo t (b - a) else none

theorem sliceFrom_cons {c : Char} {s : List Char} {n : Nat} (h : c.utf8Size ≤ n) :
    sliceFrom (c :: s) n = sliceFrom s (n - c.utf8Size) := by
  cases n with
  | zero => exact absurd h (Nat.not_le.2 c.utf8Size_pos)
  | succ n => rw [sliceFrom, if_pos h]

theorem sliceTo_cons {c : Char} {s : List Char} {n : Nat} (h : c.utf8Size ≤ n) :
    sliceTo (c :: s) n = (sliceTo s (n - c.utf8Size)).map (c :: ·) := by
  cases n with
  | zero => exact absurd h (Nat.not_le.2 c.utf8Size_pos)
  | succ n => rw [sliceTo, if_pos h]

/-- The end of a piece is a character boundary. -/
theorem sliceFrom_append (s t : List Char) (n : Nat) :
    sliceFrom (s ++ t) (utf8Len s + n) = sliceFrom t n := by
  induction s with
  | nil => simp
  | cons c s ih =>
      have hc : c.utf8Size ≤ utf8Len (c :: s) + n := by simp; omega
      rw [List.cons_append, sliceFrom_cons hc, ← ih]
      congr 1
      simp
      omega

theorem sliceTo_append (s t : List Char) : sliceTo (s ++ t) (utf8Len s) = some s := by
  induction s with
  | nil => simp [sliceTo]
  | cons c s ih =>
      rw [List.cons_append, sliceTo_cons (by simp), utf8Len_cons, Nat.add_sub_cancel_left, ih]
      rfl

@[simp] theorem sliceFrom_zero (s : List Char) : sliceFrom s 0 = some s := by
  cases s <;> rfl

/-- The middle piece. -/
theorem slice_append (s t u : List Char) :
    slice (s ++ (t ++ u)) (utf8Len s) (utf8Len s + utf8Len t) = some t := by
  have hfrom := sliceFrom_append s (t ++ u) 0
  rw [Nat.add_zero, sliceFrom_zero] at hfrom
  rw [slice, if_pos (Nat.le_add_right _ _), hfrom, Option.bind_some, Nat.add_sub_cancel_left]
  exact sliceTo_append t u

/-- `s.strip_prefix(pat)`. -/
def stripPrefix (pat s : List Char) : Option (List Char) :=
  if pat.isPrefixOf s then some (s.drop pat.length) else none

@[simp] theorem stripPrefix_append (pat s : List Char) : stripPrefix pat (pat ++ s) = some s := by
  simp [stripPrefix, List.isPrefixOf_iff_prefix]

theorem stripPrefix_eq_some_iff {pat s rest : List Char} :
    stripPrefix pat s = some rest ↔ s = pat ++ rest := by
  constructor
  · intro h
    rw [stripPrefix] at h
    split at h
    · next hp =>
      obtain ⟨t, rfl⟩ := List.isPrefixOf_iff_prefix.1 hp
      rw [List.drop_left] at h
      rw [Option.some.inj h]
    · cases h
  · rintro rfl
    exact stripPrefix_append pat rest

theorem stripPrefix_eq_none_iff {pat s : List Char} : stripPrefix pat s = none ↔ ¬ pat <+: s := by
  rw [Option.eq_none_iff_forall_ne_some]
  constructor
  · rintro h ⟨rest, hrest⟩
    exact h rest (stripPrefix_eq_some_iff.2 hrest.symm)
  · rintro h rest hrest
    exact h ⟨rest, (stripPrefix_eq_some_iff.1 hrest).symm⟩

/-- Texts that differ in their first character. -/
theorem not_prefix_of_head {pat s : List Char} {c d : Char} (hpat : pat.head? = some c)
    (hs : s.head? = some d) (hne : c ≠ d) : ¬ pat <+: s := by
  rintro ⟨rest, rfl⟩
  rw [List.head?_append, hpat] at hs
  exact hne (Option.some.inj hs)

/-- `s.find(pat)`: the byte offset of the first occurrence. -/
def find (pat : List Char) : List Char → Option Nat
  | [] => if pat = [] then some 0 else none
  | c :: s => if pat.isPrefixOf (c :: s) then some 0 else (find pat s).map (c.utf8Size + ·)

/-! ## A doubled separator -/

section Double

variable {u : Char}

/-- The character does not occur twice in a row. -/
def NotDoubled (u : Char) (s : List Char) : Prop := s.IsChain fun a b => a = u → b ≠ u

/-- The piece can stand before the doubled separator: the separator does not occur in it, and its
last character does not start one. -/
structure Separable (u : Char) (s : List Char) : Prop where
  notDoubled : NotDoubled u s
  last : s.getLast? ≠ some u

theorem NotDoubled.of_notMem {s : List Char} (h : u ∉ s) : NotDoubled u s := by
  induction s with
  | nil => exact List.isChain_nil
  | cons c s ih =>
      have hc : c ≠ u := fun he => h (he ▸ List.mem_cons_self)
      exact List.isChain_cons.2 ⟨fun _ _ he => absurd he hc, ih fun hm => h (List.mem_cons_of_mem c hm)⟩

theorem NotDoubled.tail {s : List Char} (h : NotDoubled u s) : NotDoubled u s.tail :=
  List.IsChain.tail h

/-- Cutting a text at a doubled character shows it. -/
theorem not_notDoubled (s t : List Char) : ¬ NotDoubled u (s ++ u :: u :: t) := by
  intro h
  have hmid := (List.isChain_append.1 h).2.1
  exact (List.isChain_cons_cons.1 hmid).1 rfl rfl

/-- A piece without the separator's character can stand anywhere. -/
theorem Separable.of_notMem {s : List Char} (h : u ∉ s) : Separable u s where
  notDoubled := .of_notMem h
  last hlast := h (List.mem_of_getLast? hlast)

theorem Separable.tail {c : Char} {s : List Char} (h : Separable u (c :: s)) : Separable u s where
  notDoubled := h.notDoubled.tail
  last hlast := by
    apply h.last
    rw [List.getLast?_cons, hlast]
    rfl

/-- Two pieces with the single character between them. -/
theorem Separable.append_cons {s t : List Char} (hs : u ∉ s) (ht : Separable u t) (hne : t ≠ [])
    (hhead : t.head? ≠ some u) : Separable u (s ++ u :: t) where
  notDoubled := by
    apply List.isChain_append.2
    refine ⟨NotDoubled.of_notMem hs, List.isChain_cons.2 ⟨?_, ht.notDoubled⟩, ?_⟩
    · rintro d hd - rfl
      exact hhead hd
    · rintro c hc d - rfl
      exact absurd (List.mem_of_getLast? hc) hs
  last := by
    rw [List.getLast?_append_of_ne_nil _ (List.cons_ne_nil u t), List.getLast?_cons]
    cases hl : t.getLast? with
    | none => exact absurd (List.getLast?_eq_none_iff.1 hl) hne
    | some d => simpa [hl] using ht.last

theorem find_double_cons {c : Char} {s : List Char} :
    find [u, u] (c :: s) =
      if c = u ∧ s.head? = some u then some 0 else (find [u, u] s).map (c.utf8Size + ·) := by
  have hp : [u, u].isPrefixOf (c :: s) = decide (c = u ∧ s.head? = some u) := by
    cases s with
    | nil => simp [List.isPrefixOf]
    | cons d s => simp [List.isPrefixOf, Bool.decide_and, eq_comm, beq_eq_decide]
  rw [find, hp]
  simp only [decide_eq_true_eq]

/-- The first separator after a piece is the one that was put there. -/
theorem find_double {s : List Char} (h : Separable u s) (t : List Char) :
    find [u, u] (s ++ u :: u :: t) = some (utf8Len s) := by
  induction s with
  | nil => simp [find_double_cons]
  | cons c s ih =>
      have hno : ¬ (c = u ∧ (s ++ u :: u :: t).head? = some u) := by
        rintro ⟨rfl, hhead⟩
        cases s with
        | nil => exact h.last rfl
        | cons d s =>
            have hd : d ≠ c := (List.isChain_cons_cons.1 h.notDoubled).1 rfl
            exact hd (by simpa using hhead)
      rw [List.cons_append, find_double_cons, if_neg hno, ih h.tail]
      rfl

theorem find_double_eq_none_iff {s : List Char} : find [u, u] s = none ↔ NotDoubled u s := by
  induction s with
  | nil => simp [find, NotDoubled]
  | cons c s ih =>
      rw [find_double_cons, NotDoubled, List.isChain_cons]
      constructor
      · intro h
        split at h
        · cases h
        · next hno =>
          refine ⟨?_, ih.1 (Option.map_eq_none_iff.1 h)⟩
          rintro d hd hc rfl
          exact hno ⟨hc, hd⟩
      · rintro ⟨hhead, hs⟩
        rw [if_neg fun hh => hhead u hh.2 hh.1 rfl, ih.2 hs]
        rfl

end Double

/-! ## Decimal numbers -/

def decimal (n : Nat) : List Char := Nat.toDigits 10 n

theorem decimal_ne_nil (n : Nat) : decimal n ≠ [] := Nat.toDigits_ne_nil

theorem isDigit_of_mem_decimal {n : Nat} {c : Char} (h : c ∈ decimal n) : c.isDigit :=
  Nat.isDigit_of_mem_toDigits (by decide) (by decide) h

theorem underscore_notMem_decimal (n : Nat) : '_' ∉ decimal n := Nat.underscore_not_in_toDigits

theorem ofDigitChars_decimal (n : Nat) : Nat.ofDigitChars 10 (decimal n) 0 = n :=
  Nat.ofDigitChars_toDigits (by decide) (by decide)

theorem decimal_injective : Function.Injective decimal := by
  intro m n h
  rw [← ofDigitChars_decimal m, h, ofDigitChars_decimal]

theorem decimal_eq_zero_iff {n : Nat} : decimal n = ['0'] ↔ n = 0 := by
  constructor
  · intro h
    exact decimal_injective (h.trans (Nat.toDigits_zero 10).symm)
  · rintro rfl
    exact Nat.toDigits_zero 10

/-- The digits of a number end where another character follows. -/
theorem takeWhile_decimal {n : Nat} {rest : List Char}
    (hrest : ∀ c, rest.head? = some c → c.isDigit = false) :
    (decimal n ++ rest).takeWhile Char.isDigit = decimal n := by
  have hend : rest.takeWhile Char.isDigit = [] := by
    cases rest with
    | nil => rfl
    | cons c rest => exact List.takeWhile_cons_of_neg (by simp [hrest c rfl])
  rw [List.takeWhile_append_of_pos fun c hc => isDigit_of_mem_decimal hc, hend, List.append_nil]

def stripPlus : List Char → List Char
  | '+' :: rest => rest
  | s => s

/-- `s.parse()` for an unsigned integer of `w` bits: digits after an optional plus sign, and a value
that fits. -/
def parseUnsigned (w : Nat) (s : List Char) : Option (BitVec w) :=
  let digits := stripPlus s
  if digits ≠ [] ∧ digits.all Char.isDigit ∧ Nat.ofDigitChars 10 digits 0 < 2 ^ w then
    some (BitVec.ofNat w (Nat.ofDigitChars 10 digits 0))
  else none

theorem stripPlus_decimal (n : Nat) : stripPlus (decimal n) = decimal n := by
  unfold stripPlus
  split
  · next rest he =>
    have hd := isDigit_of_mem_decimal (he ▸ List.mem_cons_self : '+' ∈ decimal n)
    exact absurd hd (by decide)
  · rfl

theorem parseUnsigned_decimal {w n : Nat} (h : n < 2 ^ w) :
    parseUnsigned w (decimal n) = some (BitVec.ofNat w n) := by
  have hall : (decimal n).all Char.isDigit := List.all_eq_true.2 fun _ => isDigit_of_mem_decimal
  simp only [parseUnsigned, stripPlus_decimal, ofDigitChars_decimal]
  exact if_pos ⟨decimal_ne_nil n, hall, h⟩

/-- What is joined is made of the parts and the separator. -/
theorem of_mem_intercalate {c u : Char} {parts : List (List Char)} (h : c ∈ [u].intercalate parts) :
    c = u ∨ ∃ part ∈ parts, c ∈ part := by
  induction parts with
  | nil => cases h
  | cons part parts ih =>
      by_cases hnil : parts = []
      · rw [hnil, List.intercalate_singleton] at h
        exact Or.inr ⟨part, List.mem_cons_self, h⟩
      · rw [List.intercalate_cons_of_ne_nil hnil, List.mem_append, List.mem_append] at h
        rcases h with (h | h) | h
        · exact Or.inr ⟨part, List.mem_cons_self, h⟩
        · exact Or.inl (List.mem_singleton.1 h)
        · rcases ih h with h | ⟨p, hp, hc⟩
          · exact Or.inl h
          · exact Or.inr ⟨p, List.mem_cons_of_mem part hp, hc⟩

/-- Numbers joined by a single separator are read back by splitting there. -/
theorem splitOn_decimals {l : List Nat} (h : l ≠ []) :
    (['_'].intercalate (l.map decimal)).splitOn '_' = l.map decimal := by
  apply List.splitOn_intercalate
  · intro s hs
    obtain ⟨n, -, rfl⟩ := List.mem_map.1 hs
    exact underscore_notMem_decimal n
  · simpa using h

/-! ## UTF-8 -/

/-- The rest of a character: `n` more bytes, the next one between `lo` and `hi`. -/
def continueChar : Nat → U8 → U8 → Nat → List U8 → Char × List U8
  | 0, _, _, value, bytes => (Char.ofNat value, bytes)
  | _ + 1, _, _, _, [] => ('\uFFFD', [])
  | n + 1, lo, hi, value, b :: bytes =>
      if lo ≤ b ∧ b ≤ hi then continueChar n 0x80 0xBF (value * 64 + b.toNat % 64) bytes
      else ('\uFFFD', b :: bytes)

def nextChar (b : U8) (bytes : List U8) : Char × List U8 :=
  if b < 0x80 then (Char.ofNat b.toNat, bytes)
  else if 0xC2 ≤ b ∧ b ≤ 0xDF then continueChar 1 0x80 0xBF (b.toNat % 32) bytes
  else if b = 0xE0 then continueChar 2 0xA0 0xBF 0 bytes
  else if b = 0xED then continueChar 2 0x80 0x9F 13 bytes
  else if 0xE1 ≤ b ∧ b ≤ 0xEF then continueChar 2 0x80 0xBF (b.toNat % 16) bytes
  else if b = 0xF0 then continueChar 3 0x90 0xBF 0 bytes
  else if b = 0xF4 then continueChar 3 0x80 0x8F 4 bytes
  else if 0xF1 ≤ b ∧ b ≤ 0xF3 then continueChar 3 0x80 0xBF (b.toNat % 8) bytes
  else ('\uFFFD', bytes)

/-- `String::from_utf8_lossy`, with a bound on the number of characters. -/
def decodeLossy : Nat → List U8 → List Char
  | _, [] => []
  | 0, _ => []
  | n + 1, b :: bytes => (nextChar b bytes).1 :: decodeLossy n (nextChar b bytes).2

/-- `String::from_utf8_lossy`: what does not start or continue a character is replaced. -/
def fromUtf8Lossy (bytes : List U8) : List Char := decodeLossy bytes.length bytes

/-- ASCII, a character of three bytes, and a cut one. -/
example : fromUtf8Lossy [0x41, 0xE2, 0x82, 0xAC, 0xE2, 0x82, 0x42] = ['A', '€', '\uFFFD', 'B'] := by
  decide

end Patchouly.Lib
