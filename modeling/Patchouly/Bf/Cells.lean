import Patchouly.Bf.Blocks

/-!
# Cells and indices

`Rel` relates a store, with its integer index and its endless tape, to a state of the stencils, with a
machine word and cells named by words, on a tape of `len` cells with 4096 more on either side. A stencil
does the same to both, as long as the cells it touches are on that padded tape (`run_op`).
-/

set_option autoImplicit false

namespace Patchouly.Bf

open Patchouly.Lib Patchouly.Core Patchouly.Managed BF

/-- The tape with its padding. -/
def Padded (len : Nat) (j : Int) : Prop := -4096 ≤ j ∧ j < len + 4096

/-- Close enough to the tape to be told from its indices by a machine word. -/
def Near (len : Nat) (i : Int) : Prop := -2 ^ 32 ≤ i ∧ i < len + 2 ^ 32

theorem ofInt_inj {i j : Int} (hi : -2 ^ 63 ≤ i ∧ i < 2 ^ 63) (hj : -2 ^ 63 ≤ j ∧ j < 2 ^ 63)
    (h : BitVec.ofInt 64 i = BitVec.ofInt 64 j) : i = j := by
  have hints := congrArg BitVec.toInt h
  rwa [BitVec.toInt_ofInt_eq_self (by decide) hi.1 hi.2,
    BitVec.toInt_ofInt_eq_self (by decide) hj.1 hj.2] at hints

theorem ofInt_sub (i : Int) (k : Nat) :
    BitVec.ofInt 64 i - BitVec.ofNat 64 k = BitVec.ofInt 64 (i - k) := by
  rw [Int.sub_eq_add_neg, BitVec.ofInt_add, BitVec.ofInt_neg, BitVec.ofInt_natCast,
    BitVec.sub_eq_add_neg]

/-- The comparison of the bounds check. -/
theorem ofInt_lt_iff {len : Nat} {i : Int} (hlen : len + 8192 < 2 ^ 63) (h : Near len i) :
    BitVec.ofInt 64 i < BitVec.ofNat 64 len ↔ Inside len i := by
  obtain ⟨hlow, hhigh⟩ := h
  rw [BitVec.lt_def, BitVec.toNat_ofInt, BitVec.toNat_ofNat]
  constructor
  · intro hlt
    constructor <;> omega
  · rintro ⟨h0, h1⟩
    omega

/-- The state and the store agree. -/
structure Rel (len : Nat) (s : Store) (m : State) : Prop where
  length : m.len = BitVec.ofNat 64 len
  index : m.i = BitVec.ofInt 64 s.index
  cells : ∀ j, Padded len j → m.mem (BitVec.ofInt 64 j) = s.tape j
  input : m.stdin = s.input
  output : m.stdout = s.output

namespace Rel

variable {len : Nat} {s : Store} {m : State}

theorem get (h : Rel len s m) {j : Int} (hj : Padded len j) :
    m.get (BitVec.ofInt 64 j) = s.tape j := h.cells j hj

theorem cell (h : Rel len s m) (hi : Padded len s.index) : m.get m.i = s.cell := by
  rw [h.index]
  exact h.cells _ hi

theorem set (h : Rel len s m) (hlen : len + 8192 < 2 ^ 63) {j : Int} (hj : Padded len j) (v : U8) :
    Rel len { s with tape := Function.update s.tape j v } (m.set (BitVec.ofInt 64 j) v) := by
  refine ⟨h.length, h.index, ?_, h.input, h.output⟩
  intro k hk
  obtain ⟨hj1, hj2⟩ := hj
  obtain ⟨hk1, hk2⟩ := hk
  simp only [State.set]
  by_cases hkj : k = j
  · subst hkj
    rw [Function.update_self, Function.update_self]
  · have hne : BitVec.ofInt 64 k ≠ BitVec.ofInt 64 j :=
      fun heq => hkj (ofInt_inj ⟨by omega, by omega⟩ ⟨by omega, by omega⟩ heq)
    rw [Function.update_of_ne hne, Function.update_of_ne hkj]
    exact h.cells k ⟨hk1, hk2⟩

theorem setCell (h : Rel len s m) (hlen : len + 8192 < 2 ^ 63) (hi : Padded len s.index) (v : U8) :
    Rel len (s.setCell v) (m.set m.i v) := by
  rw [h.index]
  exact h.set hlen hi v

theorem move (h : Rel len s m) {i : Int} {i' : Usize} (hi : i' = BitVec.ofInt 64 i) :
    Rel len { s with index := i } { m with i := i' } := ⟨h.length, hi, h.cells, h.input, h.output⟩

end Rel

section Run

variable {opts : CompileOptions} {len : Nat} {s : Store} {m : State}

theorem setWidth_ofNat (k : Nat) : (BitVec.ofNat 64 k).setWidth 8 = BitVec.ofNat 8 k := by
  apply BitVec.eq_of_toNat_eq
  rw [BitVec.toNat_setWidth, BitVec.toNat_ofNat, BitVec.toNat_ofNat]
  omega

/-- The cells that code may touch. -/
def Reach (opts : CompileOptions) (len : Nat) (j : Int) : Prop :=
  if opts.saturating then Inside len j else Padded len j

theorem Reach.padded {j : Int} (h : Reach opts len j) : Padded len j := by
  rw [Reach] at h
  split at h
  · obtain ⟨h0, h1⟩ := h
    exact ⟨by omega, by omega⟩
  · exact h

theorem reach_of_inside {j : Int} (h : Inside len j) : Reach opts len j := by
  rw [Reach]
  split
  · exact h
  · obtain ⟨h0, h1⟩ := h
    exact ⟨by omega, by omega⟩

variable (opts) (len)

/-- The cells that an operation touches are within reach. -/
def Op.Touches (op : Op) (s : Store) : Prop :=
  match op with
  | .leftRight _ => True
  | .addTo n => Reach opts len s.index ∧ Reach opts len (s.index + n)
  | _ => Reach opts len s.index

/-- Every access of the stencil is within reach. -/
def SafeAccess (stencil : BfStencil) (m : State) : Prop :=
  ∀ a ∈ stencil.accesses m, ∃ j, Reach opts len j ∧ a = BitVec.ofInt 64 j

variable {opts} {len}

theorem safeAccess_index {stencil : BfStencil} (h : Rel len s m) (htouches : Reach opts len s.index)
    (haccess : stencil.accesses m = [m.i]) : SafeAccess opts len stencil m := by
  intro a ha
  rw [haccess] at ha
  obtain rfl := List.mem_singleton.1 ha
  exact ⟨_, htouches, h.index⟩

theorem safeAccess_none {stencil : BfStencil} (haccess : stencil.accesses m = []) :
    SafeAccess opts len stencil m := by
  intro a ha
  rw [haccess] at ha
  cases ha

/-- The stencil goes on, leaves a state that agrees with the new store, and keeps to the cells within
reach. -/
def Performs (opts : CompileOptions) (len : Nat) (m : State) (stencil : BfStencil) (s' : Store) : Prop :=
  ∃ m', stencil.run m = (.jump 0, m') ∧ Rel len s' m' ∧ SafeAccess opts len stencil m

theorem run_incDec (hlen : len + 8192 < 2 ^ 63) (h : Rel len s m) {n : Int} {stencil : BfStencil}
    (hst : opStencil opts (.incDec n) = some stencil) (hreach : Reach opts len s.index) :
    Performs opts len m stencil ((Op.incDec n).effect s) := by
  have hcell := h.cell hreach.padded
  have hset := h.setCell hlen hreach.padded
  simp only [opStencil] at hst
  split_ifs at hst with h0 h1 h2 h3
  · subst h1
    obtain rfl := Option.some.inj hst
    refine ⟨_, rfl, ?_, safeAccess_index h hreach rfl⟩
    rw [hcell]
    exact hset _
  · subst h2
    obtain rfl := Option.some.inj hst
    refine ⟨_, rfl, ?_, safeAccess_index h hreach rfl⟩
    rw [hcell, Op.effect, add_minus_one]
    exact hset _
  · obtain rfl := Option.some.inj hst
    refine ⟨_, rfl, ?_, safeAccess_index h hreach rfl⟩
    have hn : BitVec.ofInt 8 n = BitVec.ofNat 8 n.natAbs := by
      rw [← BitVec.ofInt_natCast, Int.natAbs_of_nonneg (by omega)]
    rw [hcell, Op.effect, hn, setWidth_ofNat]
    exact hset _
  · obtain rfl := Option.some.inj hst
    refine ⟨_, rfl, ?_, safeAccess_index h hreach rfl⟩
    have hn : BitVec.ofInt 8 n = -BitVec.ofNat 8 n.natAbs := by
      rw [← BitVec.ofInt_natCast, ← BitVec.ofInt_neg]
      congr 1
      omega
    rw [hcell, Op.effect, hn, setWidth_ofNat, ← BitVec.sub_eq_add_neg]
    exact hset _

theorem run_leftRight (h : Rel len s m) {n : Int} {stencil : BfStencil} (hsat : opts.saturating = false)
    (hst : opStencil opts (.leftRight n) = some stencil) :
    Performs opts len m stencil ((Op.leftRight n).effect s) := by
  have hi := h.index
  simp only [opStencil, hsat, Bool.false_eq_true, if_false] at hst
  split_ifs at hst with h0 h1 h2 h3
  · subst h1
    obtain rfl := Option.some.inj hst
    refine ⟨_, rfl, h.move ?_, safeAccess_none rfl⟩
    rw [hi, BitVec.ofInt_add]
    rfl
  · subst h2
    obtain rfl := Option.some.inj hst
    refine ⟨_, rfl, h.move ?_, safeAccess_none rfl⟩
    rw [hi]
    exact ofInt_sub s.index 1
  · obtain rfl := Option.some.inj hst
    refine ⟨_, rfl, h.move ?_, safeAccess_none rfl⟩
    rw [hi, BitVec.ofInt_add, ← BitVec.ofInt_natCast, Int.natAbs_of_nonneg (by omega)]
  · obtain rfl := Option.some.inj hst
    refine ⟨_, rfl, h.move ?_, safeAccess_none rfl⟩
    rw [hi, ofInt_sub]
    congr 1
    omega

theorem run_input (hlen : len + 8192 < 2 ^ 63) (h : Rel len s m) (hreach : Reach opts len s.index) :
    Performs opts len m .read (Op.input.effect s) := by
  have hset := h.setCell hlen hreach.padded (s.input.headD 0)
  refine ⟨_, rfl, ?_, safeAccess_index h hreach rfl⟩
  rw [h.input]
  exact ⟨hset.length, hset.index, hset.cells, rfl, hset.output⟩

theorem run_output (h : Rel len s m) (hreach : Reach opts len s.index) :
    Performs opts len m .print (Op.output.effect s) := by
  refine ⟨_, rfl, ⟨h.length, h.index, h.cells, h.input, ?_⟩, safeAccess_index h hreach rfl⟩
  rw [h.cell hreach.padded, h.output]
  rfl

/-- The cell is cleared before the other one is read, which may be the same. -/
theorem run_addTo (hlen : len + 8192 < 2 ^ 63) (h : Rel len s m) {n : Int}
    (hcell : Reach opts len s.index) (hother : Reach opts len (s.index + n)) :
    Performs opts len m (.addTo (BitVec.ofInt 64 n)) ((Op.addTo n).effect s) := by
  have hto : m.i + BitVec.ofInt 64 n = BitVec.ofInt 64 (s.index + n) := by
    rw [h.index, BitVec.ofInt_add]
  refine ⟨_, rfl, ?_, ?_⟩
  · have hcleared := h.setCell hlen hcell.padded 0
    have hto' : (m.set m.i 0).i + BitVec.ofInt 64 n = BitVec.ofInt 64 (s.index + n) := hto
    rw [hto', h.cell hcell.padded, hcleared.get hother.padded]
    exact hcleared.set hlen hother.padded _
  · intro a ha
    rcases List.mem_cons.1 ha with rfl | ha
    · exact ⟨_, hcell, h.index⟩
    · obtain rfl := List.mem_singleton.1 ha
      exact ⟨_, hother, hto⟩

/-- **A stencil does what its operation does**, except for moves that saturate. -/
theorem run_op (hlen : len + 8192 < 2 ^ 63) (h : Rel len s m) {op : Op} {stencil : BfStencil}
    (hmove : ∀ n, op = .leftRight n → opts.saturating = false)
    (hst : opStencil opts op = some stencil) (htouches : op.Touches opts len s) :
    Performs opts len m stencil (op.effect s) := by
  cases op with
  | incDec n => exact run_incDec hlen h hst htouches
  | leftRight n => exact run_leftRight h (hmove n rfl) hst
  | input =>
      obtain rfl := Option.some.inj hst
      exact run_input hlen h htouches
  | output =>
      obtain rfl := Option.some.inj hst
      exact run_output h htouches
  | setZero =>
      obtain rfl := Option.some.inj hst
      have hreach : Reach opts len s.index := htouches
      exact ⟨_, rfl, h.setCell hlen hreach.padded 0, safeAccess_index h hreach rfl⟩
  | addTo n =>
      obtain rfl := Option.some.inj hst
      exact run_addTo hlen h htouches.1 htouches.2

/-- The index of a store on the tape, as a word. -/
theorem Rel.toNat_index (h : Rel len s m) (hlen : len + 8192 < 2 ^ 63) (hin : Inside len s.index) :
    m.i.toNat = s.index.toNat := by
  obtain ⟨h0, h1⟩ := hin
  rw [h.index, BitVec.toNat_ofInt]
  omega

/-- The register after a move to the right that saturates. -/
theorem right_clamped (hlen : len + 8192 < 2 ^ 63) (h : Rel len s m) (hin : Inside len s.index) {k : Usize}
    (hk : k.toNat < 2 ^ 31) :
    minUsize (saturatingAdd m.i k) (BitVec.ofNat 64 len - 1) =
      BitVec.ofInt 64 (max 0 (min (s.index + k.toNat) (len - 1))) := by
  have hidx := h.toNat_index hlen hin
  obtain ⟨h0, h1⟩ := hin
  have hlim : (BitVec.ofNat 64 len - 1).toNat = len - 1 := by
    have hone : (1 : Usize).toNat = 1 := by decide
    rw [BitVec.toNat_sub, BitVec.toNat_ofNat, hone]
    omega
  have hsum : saturatingAdd m.i k = m.i + k := if_pos (by omega)
  have hadd : (m.i + k).toNat = s.index.toNat + k.toNat := by
    rw [BitVec.toNat_add, hidx]
    omega
  apply BitVec.eq_of_toNat_eq
  rw [hsum, minUsize, BitVec.toNat_ofInt]
  split
  · next hlt =>
    rw [BitVec.lt_def, hadd, hlim] at hlt
    rw [hlim]
    omega
  · next hge =>
    rw [BitVec.lt_def, hadd, hlim] at hge
    rw [hadd]
    omega

/-- The register after a move to the left that saturates. -/
theorem left_clamped (hlen : len + 8192 < 2 ^ 63) (h : Rel len s m) (hin : Inside len s.index) {k : Usize}
    (hk : k.toNat < 2 ^ 31) :
    saturatingSub m.i k = BitVec.ofInt 64 (max 0 (min (s.index - k.toNat) (len - 1))) := by
  have hidx := h.toNat_index hlen hin
  obtain ⟨h0, h1⟩ := hin
  apply BitVec.eq_of_toNat_eq
  rw [saturatingSub, BitVec.toNat_ofInt]
  split
  · next hlt =>
    rw [BitVec.lt_def, hidx] at hlt
    have hzero : (0 : Usize).toNat = 0 := by decide
    rw [hzero]
    omega
  · next hge =>
    rw [BitVec.lt_def, hidx] at hge
    rw [BitVec.toNat_sub, hidx]
    omega

/-- A move that saturates stops at the ends of the tape. -/
theorem run_clamped (hsat : opts.saturating = true) (htape : opts.tapeSize = BitVec.ofNat 64 len)
    (hlen : len + 8192 < 2 ^ 63) (h : Rel len s m) (hin : Inside len s.index) {n : Int}
    (hn : n.natAbs < 2 ^ 31) {stencil : BfStencil} (hst : opStencil opts (.leftRight n) = some stencil) :
    Performs opts len m stencil ((Op.leftRight n).clamped len s) := by
  simp only [opStencil, hsat, if_true, htape] at hst
  split_ifs at hst with hn0 hn1 hn2 hn3
  · subst hn1
    obtain rfl := Option.some.inj hst
    have hmove := right_clamped hlen h hin (show (1 : Usize).toNat < 2 ^ 31 by decide)
    exact ⟨_, rfl, h.move hmove, safeAccess_none rfl⟩
  · subst hn2
    obtain rfl := Option.some.inj hst
    have hmove := left_clamped hlen h hin (show (1 : Usize).toNat < 2 ^ 31 by decide)
    exact ⟨_, rfl, h.move hmove, safeAccess_none rfl⟩
  · obtain rfl := Option.some.inj hst
    have hint : (BitVec.ofInt 64 n).toNat = n.natAbs := by
      rw [BitVec.toNat_ofInt]
      omega
    have hmove := right_clamped hlen h hin (show (BitVec.ofInt 64 n).toNat < 2 ^ 31 by omega)
    rw [hint, Int.natAbs_of_nonneg (by omega)] at hmove
    exact ⟨_, rfl, h.move hmove, safeAccess_none rfl⟩
  · obtain rfl := Option.some.inj hst
    have habs : (BitVec.ofNat 64 n.natAbs).toNat = n.natAbs := by
      rw [BitVec.toNat_ofNat]
      omega
    have hmove := left_clamped hlen h hin (show (BitVec.ofNat 64 n.natAbs).toNat < 2 ^ 31 by omega)
    rw [habs, show s.index - (n.natAbs : Int) = s.index + n by omega] at hmove
    exact ⟨_, rfl, h.move hmove, safeAccess_none rfl⟩

end Run

end Patchouly.Bf
