import Mathlib.Data.List.Basic
import Mathlib.Tactic.Ring

/-!
# Machine words and their little-endian bytes

Fixed-width words are bit vectors. `plainAdd` and `plainSub` are the ordinary `+` and `-` of a
language whose overflow behaviour is a build option: with `checks` an overflow aborts (`none`),
without it the result wraps. The wrapping operations are `+` and `-` of `BitVec` itself.

`leBytes v n` are the low `n` bytes of `v`, lowest first. Two words have the same low bytes exactly
when they agree modulo `2 ^ (8 * n)` (`leBytes_eq_iff`), and `ofLeBytes` reads the bytes back
(`ofLeBytes_leBytes`).
-/

set_option autoImplicit false

namespace Patchouly.Lib

abbrev U8 := BitVec 8
abbrev U16 := BitVec 16
abbrev U32 := BitVec 32
abbrev Usize := BitVec 64

instance : LawfulBEq U16 := inferInstance

section Plain

variable {w : Nat}

theorem toNat_ofNat_of_lt {n : Nat} (h : n < 2 ^ w) : (BitVec.ofNat w n).toNat = n := by
  rw [BitVec.toNat_ofNat, Nat.mod_eq_of_lt h]

/-- `a + b`; an overflow aborts when `checks` is set and wraps otherwise. -/
def plainAdd (checks : Bool) (a b : BitVec w) : Option (BitVec w) :=
  if checks && decide (2 ^ w ≤ a.toNat + b.toNat) then none else some (a + b)

/-- `a - b`; an underflow aborts when `checks` is set and wraps otherwise. -/
def plainSub (checks : Bool) (a b : BitVec w) : Option (BitVec w) :=
  if checks && decide (a.toNat < b.toNat) then none else some (a - b)

/-- The number as a word, if it fits. -/
def tryInto (w n : Nat) : Option (BitVec w) := if n < 2 ^ w then some (BitVec.ofNat w n) else none

theorem tryInto_eq_some {n : Nat} {a : BitVec w} (h : tryInto w n = some a) : a.toNat = n := by
  rw [tryInto] at h
  split at h
  · next hlt =>
    obtain rfl := Option.some.inj h
    exact toNat_ofNat_of_lt hlt
  · cases h

/-- Where `plainAdd` returns, it returns the wrapping sum. -/
theorem eq_of_plainAdd {checks : Bool} {a b c : BitVec w} (h : plainAdd checks a b = some c) :
    c = a + b := by
  rw [plainAdd] at h
  split at h
  · cases h
  · exact (Option.some.inj h).symm

/-- Where `plainSub` returns, it returns the wrapping difference. -/
theorem eq_of_plainSub {checks : Bool} {a b c : BitVec w} (h : plainSub checks a b = some c) :
    c = a - b := by
  rw [plainSub] at h
  split at h
  · cases h
  · exact (Option.some.inj h).symm

/-- A checked sum does not wrap. -/
theorem toNat_of_plainAdd {a b c : BitVec w} (h : plainAdd true a b = some c) :
    c.toNat = a.toNat + b.toNat := by
  rw [eq_of_plainAdd h, BitVec.toNat_add]
  apply Nat.mod_eq_of_lt
  apply Nat.lt_of_not_le
  intro hle
  rw [plainAdd, Bool.true_and, if_pos (decide_eq_true hle)] at h
  cases h

/-- One more is the next number, unless the word was the last one and the sum wraps. -/
theorem succ_of_plainAdd {checks : Bool} (hw : 0 < w) {a c : BitVec w}
    (h : plainAdd checks a 1 = some c) :
    c.toNat = a.toNat + 1 ∨ checks = false ∧ a = BitVec.allOnes w := by
  have hone : (1 : BitVec w).toNat = 1 := BitVec.toNat_one hw
  have hlt := a.isLt
  by_cases hlast : a.toNat + 1 < 2 ^ w
  · left
    rw [eq_of_plainAdd h, BitVec.toNat_add, hone, Nat.mod_eq_of_lt hlast]
  · right
    constructor
    · rw [plainAdd, hone, decide_eq_true (Nat.le_of_not_lt hlast), Bool.and_true] at h
      cases checks
      · rfl
      · cases h
    · apply BitVec.eq_of_toNat_eq
      rw [BitVec.toNat_allOnes]
      omega

theorem plainAdd_of_lt (checks : Bool) {a b : BitVec w} (h : a.toNat + b.toNat < 2 ^ w) :
    plainAdd checks a b = some (a + b) := by
  have hn : decide (2 ^ w ≤ a.toNat + b.toNat) = false := decide_eq_false (by omega)
  simp [plainAdd, hn]

theorem plainSub_of_le (checks : Bool) {a b : BitVec w} (h : b.toNat ≤ a.toNat) :
    plainSub checks a b = some (a - b) := by
  have hn : decide (a.toNat < b.toNat) = false := decide_eq_false (by omega)
  simp [plainSub, hn]

end Plain

/-! ## Little-endian bytes -/

section Bytes

variable {w : Nat}

/-- The low `n` bytes of `v`, lowest first. -/
def leBytes (v : BitVec w) (n : Nat) : List U8 :=
  (List.range n).map fun i => v.extractLsb' (8 * i) 8

/-- The number whose little-endian bytes are `bs`. -/
def ofLeBytes : List U8 → Nat
  | [] => 0
  | b :: bs => b.toNat + 2 ^ 8 * ofLeBytes bs

@[simp] theorem leBytes_length (v : BitVec w) (n : Nat) : (leBytes v n).length = n := by
  simp [leBytes]

theorem ofLeBytes_append (xs ys : List U8) :
    ofLeBytes (xs ++ ys) = ofLeBytes xs + 2 ^ (8 * xs.length) * ofLeBytes ys := by
  induction xs with
  | nil => simp [ofLeBytes]
  | cons b bs ih =>
      have hp : 2 ^ (8 * (bs.length + 1)) = 2 ^ 8 * 2 ^ (8 * bs.length) := by ring
      simp only [List.cons_append, ofLeBytes, ih, List.length_cons, hp]
      ring

theorem ofLeBytes_lt (bs : List U8) : ofLeBytes bs < 2 ^ (8 * bs.length) := by
  induction bs with
  | nil => simp [ofLeBytes]
  | cons b bs ih =>
      have hp : 2 ^ (8 * (bs.length + 1)) = 2 ^ 8 * 2 ^ (8 * bs.length) := by ring
      have hb := b.isLt
      simp only [ofLeBytes, List.length_cons, hp]
      omega

theorem leBytes_succ (v : BitVec w) (n : Nat) :
    leBytes v (n + 1) = leBytes v n ++ [v.extractLsb' (8 * n) 8] := by
  simp [leBytes, List.range_succ]

/-- **Reading back the low bytes** gives the word modulo the width of the bytes. -/
theorem ofLeBytes_leBytes (v : BitVec w) (n : Nat) :
    ofLeBytes (leBytes v n) = v.toNat % 2 ^ (8 * n) := by
  induction n with
  | zero => simp [leBytes, ofLeBytes, Nat.mod_one]
  | succ n ih =>
      have hp : 2 ^ (8 * (n + 1)) = 2 ^ (8 * n) * 2 ^ 8 := by ring
      rw [leBytes_succ, ofLeBytes_append, ih, leBytes_length, hp, Nat.mod_mul]
      simp [ofLeBytes, BitVec.extractLsb'_toNat, Nat.shiftRight_eq_div_pow]

/-- Bytes of the same length that denote the same number are equal. -/
theorem ofLeBytes_inj {xs ys : List U8} (hl : xs.length = ys.length)
    (h : ofLeBytes xs = ofLeBytes ys) : xs = ys := by
  induction xs generalizing ys with
  | nil =>
      cases ys with
      | nil => rfl
      | cons y ys => simp at hl
  | cons x xs ih =>
      cases ys with
      | nil => simp at hl
      | cons y ys =>
          simp only [ofLeBytes] at h
          have hx := x.isLt
          have hy := y.isLt
          have hhead : x = y := BitVec.eq_of_toNat_eq (by omega)
          have htail : xs = ys := ih (by simpa using hl) (by omega)
          rw [hhead, htail]

/-- **Low bytes are equal exactly when the words agree modulo the width of the bytes.** -/
theorem leBytes_eq_iff {v : Nat} (a : BitVec w) (b : BitVec v) (n : Nat) :
    leBytes a n = leBytes b n ↔ a.toNat % 2 ^ (8 * n) = b.toNat % 2 ^ (8 * n) := by
  constructor
  · intro h
    rw [← ofLeBytes_leBytes, ← ofLeBytes_leBytes, h]
  · intro h
    apply ofLeBytes_inj (by simp)
    rw [ofLeBytes_leBytes, ofLeBytes_leBytes, h]

end Bytes

/-! ## Fields as numbers -/

section Fields

/-- The number a field holds: zero-extended, or in two's complement when `signed`. -/
def fieldValue (signed : Bool) (bs : List U8) : Int :=
  if signed then (ofLeBytes bs : Int).bmod (2 ^ (8 * bs.length)) else ofLeBytes bs

/-- The numbers a field of `n` bytes can hold. -/
def FitsField (signed : Bool) (n : Nat) (v : Int) : Prop :=
  if signed then -(2 ^ (8 * n) : Int) ≤ v * 2 ∧ v * 2 < 2 ^ (8 * n) else 0 ≤ v ∧ v < 2 ^ (8 * n)

instance (signed : Bool) (n : Nat) (v : Int) : Decidable (FitsField signed n v) := by
  rw [FitsField]
  infer_instance

/-- The low bytes of an integer. -/
theorem ofLeBytes_ofInt {n : Nat} (hn : n ≤ 8) (v : Int) :
    (ofLeBytes (leBytes (BitVec.ofInt 64 v) n) : Int) = v % 2 ^ (8 * n) := by
  have hdvd : (2 ^ (8 * n) : Int) ∣ 2 ^ 64 := pow_dvd_pow 2 (by omega)
  have hpos : 0 ≤ v % ((2 ^ 64 : Nat) : Int) := Int.emod_nonneg _ (by decide)
  rw [ofLeBytes_leBytes, BitVec.toNat_ofInt, Int.natCast_emod, Int.toNat_of_nonneg hpos,
    Nat.cast_pow, Nat.cast_pow, Nat.cast_ofNat, Int.emod_emod_of_dvd _ hdvd]

/-- Two integers have the same low bytes when they differ by a multiple of the field's range. -/
theorem leBytes_ofInt_eq_iff {n : Nat} (hn : n ≤ 8) (v w : Int) :
    leBytes (BitVec.ofInt 64 v) n = leBytes (BitVec.ofInt 64 w) n ↔ (2 ^ (8 * n) : Int) ∣ v - w := by
  rw [Int.dvd_iff_emod_eq_zero, ← Int.emod_eq_emod_iff_emod_sub_eq_zero, ← ofLeBytes_ofInt hn v,
    ← ofLeBytes_ofInt hn w]
  constructor
  · intro h
    rw [h]
  · intro h
    exact ofLeBytes_inj (by simp) (Int.natCast_inj.1 h)

/-- **A field holds an integer exactly when the integer fits and the field has its low bytes.** -/
theorem fieldValue_eq_iff {signed : Bool} {bs : List U8} (hn : bs.length ≤ 8) {v : Int} :
    fieldValue signed bs = v ↔
      FitsField signed bs.length v ∧ bs = leBytes (BitVec.ofInt 64 v) bs.length := by
  have hlt : (ofLeBytes bs : Int) < 2 ^ (8 * bs.length) := by exact_mod_cast ofLeBytes_lt bs
  have hpos : 0 < 2 ^ (8 * bs.length) := Nat.two_pow_pos _
  -- equal residues give equal bytes
  have hbytes : v % 2 ^ (8 * bs.length) = ofLeBytes bs →
      bs = leBytes (BitVec.ofInt 64 v) bs.length := by
    intro h
    apply ofLeBytes_inj (by simp)
    have hread := ofLeBytes_ofInt hn v
    rw [h] at hread
    exact_mod_cast hread.symm
  unfold fieldValue FitsField
  cases signed with
  | true =>
      simp only [if_true]
      constructor
      · rintro rfl
        refine ⟨?_, hbytes ?_⟩
        · have hle := Int.le_bmod (x := (ofLeBytes bs : Int)) hpos
          have hbound := Int.bmod_lt (x := (ofLeBytes bs : Int)) hpos
          push_cast at hle hbound
          omega
        · have h := @Int.bmod_emod (ofLeBytes bs : Int) (2 ^ (8 * bs.length))
          push_cast at h
          rw [h]
          exact Int.emod_eq_of_lt (Int.natCast_nonneg _) hlt
      · rintro ⟨⟨hle, hbound⟩, hb⟩
        have hread := ofLeBytes_ofInt hn v
        rw [← hb] at hread
        rw [hread]
        have hmod := Int.emod_bmod v (2 ^ (8 * bs.length))
        push_cast at hmod
        rw [hmod]
        apply Int.bmod_eq_of_le_mul_two
        · push_cast
          exact hle
        · push_cast
          exact hbound
  | false =>
      simp only [Bool.false_eq_true, if_false]
      constructor
      · rintro rfl
        exact ⟨⟨Int.natCast_nonneg _, hlt⟩,
          hbytes (Int.emod_eq_of_lt (Int.natCast_nonneg _) hlt)⟩
      · rintro ⟨⟨hle, hbound⟩, hb⟩
        have hread := ofLeBytes_ofInt hn v
        rw [← hb] at hread
        rw [hread]
        exact Int.emod_eq_of_lt hle hbound

/-- A word as a number, in two's complement when `signed`. -/
def wordValue (signed : Bool) (w : BitVec 64) : Int := if signed then w.toInt else w.toNat

theorem ofInt_wordValue (signed : Bool) (w : BitVec 64) :
    BitVec.ofInt 64 (wordValue signed w) = w := by
  cases signed with
  | true => exact BitVec.ofInt_toInt
  | false =>
      change BitVec.ofInt 64 (w.toNat : Int) = w
      rw [BitVec.ofInt_natCast, BitVec.ofNat_toNat, BitVec.setWidth_eq]

/-- A field is shorter than a word, so its number is not cut. -/
theorem wordValue_ofInt_fieldValue (signed : Bool) {bs : List U8} (hn : bs.length ≤ 8) :
    wordValue signed (BitVec.ofInt 64 (fieldValue signed bs)) = fieldValue signed bs := by
  have hle : 2 ^ (8 * bs.length) ≤ 2 ^ 64 := Nat.pow_le_pow_right (by decide) (by omega)
  have hpos : 0 < 2 ^ (8 * bs.length) := Nat.two_pow_pos _
  have hlt := ofLeBytes_lt bs
  cases signed with
  | true =>
      have hlow := Int.le_bmod (x := (ofLeBytes bs : Int)) hpos
      have hhigh := Int.bmod_lt (x := (ofLeBytes bs : Int)) hpos
      change (BitVec.ofInt 64 ((ofLeBytes bs : Int).bmod (2 ^ (8 * bs.length)))).toInt =
        (ofLeBytes bs : Int).bmod (2 ^ (8 * bs.length))
      rw [BitVec.toInt_ofInt]
      apply Int.bmod_eq_of_le_mul_two <;> omega
  | false =>
      change ((BitVec.ofInt 64 (ofLeBytes bs : Int)).toNat : Int) = ofLeBytes bs
      rw [BitVec.ofInt_natCast, toNat_ofNat_of_lt (Nat.lt_of_lt_of_le hlt hle)]

/-- **A field extended to a word** is `w` exactly when `w` fits the field and the field has the low
bytes of `w`. -/
theorem ofInt_fieldValue_eq_iff {signed : Bool} {bs : List U8} (hn : bs.length ≤ 8)
    {w : BitVec 64} : BitVec.ofInt 64 (fieldValue signed bs) = w ↔
      FitsField signed bs.length (wordValue signed w) ∧ bs = leBytes w bs.length := by
  have hiff := @fieldValue_eq_iff signed bs hn (wordValue signed w)
  rw [ofInt_wordValue] at hiff
  rw [← hiff]
  constructor
  · rintro rfl
    exact (wordValue_ofInt_fieldValue signed hn).symm
  · intro h
    rw [h, ofInt_wordValue]

/-! ### Shifting out the high bits -/

theorem mul_bmod_mul (a : Int) {m k : Nat} (hm : 0 < m) (hk : 0 < k) :
    (a * k).bmod (m * k) = a.bmod m * k := by
  have hlow := Int.le_bmod (x := a) hm
  have hhigh := Int.bmod_lt (x := a) hm
  have hk' : (0 : Int) < k := Int.natCast_pos.2 hk
  have hsplit : a * k = a.bmod m * k + Int.bdiv a m * (m * k : Nat) := by
    rw [Int.bmod_eq_self_sub_bdiv_mul, Int.sub_mul, Int.natCast_mul, Int.mul_assoc]
    omega
  rw [hsplit, Int.add_mul_bmod_self_right]
  apply Int.bmod_eq_of_le_mul_two
  · have hle := Int.mul_le_mul_of_nonneg_right (show -(m : Int) ≤ a.bmod m * 2 by omega) hk'.le
    rw [Int.natCast_mul, Int.mul_right_comm, ← Int.neg_mul]
    exact hle
  · have hlt := Int.mul_lt_mul_of_pos_right (show a.bmod m * 2 < m by omega) hk'
    rw [Int.natCast_mul, Int.mul_right_comm]
    exact hlt

/-- Shifting left and arithmetically back keeps the low `n` bits, in two's complement. -/
theorem toInt_shift_back (v : BitVec 64) {n : Nat} (hn : n ≤ 64) :
    ((v <<< (64 - n)).sshiftRight (64 - n)).toInt = v.toInt.bmod (2 ^ n) := by
  have hpow : (2 : Nat) ^ 64 = 2 ^ n * 2 ^ (64 - n) := by
    rw [← Nat.pow_add, Nat.add_sub_cancel' hn]
  have hdvd : (2 : Nat) ^ n ∣ 2 ^ 64 := Nat.pow_dvd_pow 2 hn
  have hne : ((2 ^ (64 - n) : Nat) : Int) ≠ 0 := Int.natCast_ne_zero.2 (Nat.two_pow_pos _).ne'
  rw [BitVec.toInt_sshiftRight, BitVec.toInt_shiftLeft, Int.shiftRight_eq_div_pow,
    Nat.shiftLeft_eq, Int.natCast_mul, BitVec.toInt_eq_toNat_bmod, Int.bmod_bmod_of_dvd hdvd, hpow,
    mul_bmod_mul _ (Nat.two_pow_pos _) (Nat.two_pow_pos _), Int.mul_ediv_cancel _ hne]

end Fields

end Patchouly.Lib
