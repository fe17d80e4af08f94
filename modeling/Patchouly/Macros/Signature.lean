import Mathlib.Data.List.Forall2
import Patchouly.Macros.Stencil

/-!
# Names in a wrapper

A location vector `v` lists the inputs and then the outputs; a digit `0` is the stack and `r` is
register `r - 1`. `registerName` describes, from the vector alone, the name that
`StencilSignature::new` gives to a register parameter, and `place` the way it refers to an operand.
The names in a wrapper are pairwise distinct.
-/

set_option autoImplicit false

namespace Patchouly.Macros

open Patchouly.Lib

/-! ## Generated identifiers -/

theorem numbered_injective (stem : String) : Function.Injective (numbered stem) := by
  intro m n h
  exact decimal_injective (List.append_cancel_left h)

/-- The digits after the letters of an identifier. -/
def leadNumber (s : Ident) : List Char :=
  (s.dropWhile fun c => !c.isDigit).takeWhile Char.isDigit

theorem leadNumber_numbered {stem : String} (hstem : stem.toList.any Char.isDigit = false) (n : Nat)
    {rest : Ident} (hrest : ∀ c, rest.head? = some c → c.isDigit = false) :
    leadNumber (numbered stem n ++ rest) = decimal n := by
  obtain ⟨d, ds, hd⟩ := List.exists_cons_of_ne_nil (decimal_ne_nil n)
  have hdigit : d.isDigit := isDigit_of_mem_decimal (hd ▸ List.mem_cons_self : d ∈ decimal n)
  have hdrop : (numbered stem n ++ rest).dropWhile (fun c => !c.isDigit) = decimal n ++ rest := by
    have hno : ∀ c ∈ stem.toList, (!c.isDigit) = true := by simpa using hstem
    rw [numbered, List.append_assoc, List.dropWhile_append_of_pos hno, hd, List.cons_append,
      List.dropWhile_cons_of_neg (by simp [hdigit])]
  rw [leadNumber, hdrop, takeWhile_decimal hrest]

/-- First letter and number of an identifier. -/
def key (s : Ident) : Option Char × List Char := (s.head?, leadNumber s)

theorem key_numbered {stem : String} {c : Char} (hhead : stem.toList.head? = some c)
    (hstem : stem.toList.any Char.isDigit = false) (n : Nat) {rest : Ident}
    (hrest : ∀ c, rest.head? = some c → c.isDigit = false) :
    key (numbered stem n ++ rest) = (some c, decimal n) := by
  have hh : (numbered stem n ++ rest).head? = some c := by
    rw [numbered, List.append_assoc, List.head?_append, hhead]
    rfl
  rw [key, hh, leadNumber_numbered hstem n hrest]

theorem key_stack (n : Nat) : key (numbered "stack" n) = (some 's', decimal n) := by
  rw [← List.append_nil (numbered "stack" n)]
  exact key_numbered rfl (by decide) n (by simp)

theorem key_hole (n : Nat) : key (numbered "hole" n) = (some 'h', decimal n) := by
  rw [← List.append_nil (numbered "hole" n)]
  exact key_numbered rfl (by decide) n (by simp)

/-- A stem alone is not a numbered name. -/
theorem numbered_ne_stem (stem : String) (n : Nat) : numbered stem n ≠ stem.toList := by
  intro h
  have hnil : decimal n = [] := List.append_right_eq_self.1 h
  exact decimal_ne_nil n hnil

/-! ## Locations -/

/-- Number of operands on the stack. -/
def stackCount (v : List U16) : Nat := v.count 0

/-- Number of stack operands before operand `j`. -/
def stackBefore (v : List U16) (j : Nat) : Nat := stackCount (v.take j)

theorem stackCount_cons (d : U16) (v : List U16) :
    stackCount (d :: v) = stackCount v + if d = 0 then 1 else 0 := by
  simp only [stackCount, List.count_cons, beq_iff_eq]

theorem stackBefore_zero (v : List U16) : stackBefore v 0 = 0 := rfl

theorem stackBefore_succ (d : U16) (v : List U16) (j : Nat) :
    stackBefore (d :: v) (j + 1) = stackBefore v j + if d = 0 then 1 else 0 :=
  stackCount_cons d (v.take j)

/-- How a wrapper refers to operand `j`, whose digit is `d`; `k` stack operands come before `v`. -/
def place (k : Nat) (v : List U16) (j : Nat) (d : U16) : WrapperCallArg :=
  if d = 0 then .stack (BitVec.ofNat 16 (k + stackBefore v j)) else .reg (d - 1)

theorem place_succ (k : Nat) (d : U16) (v : List U16) (j : Nat) :
    place k (d :: v) (j + 1) = place (k + if d = 0 then 1 else 0) v j := by
  funext e
  have hk : k + (stackBefore v j + if d = 0 then 1 else 0) =
      k + (if d = 0 then 1 else 0) + stackBefore v j := by omega
  rw [place, place, stackBefore_succ, hk]

theorem locate_eq (k : Nat) (v : List U16) :
    (locate ((List.range k).map (numbered "stack")) v).2 =
        (List.range (k + stackCount v)).map (numbered "stack") ∧
      ∀ j : Nat, (locate ((List.range k).map (numbered "stack")) v).1[j]? =
        v[j]?.map (place k v j) := by
  -- on the vector; `k` stack operands were named before it
  induction v generalizing k with
  | nil => exact ⟨rfl, fun j => rfl⟩
  | cons d v ih =>
      have hcount := stackCount_cons d v
      by_cases hd : d = 0
      · -- one more name
        have hlen : ((List.range k).map (numbered "stack")).length = k := by simp
        have hnames : (List.range k).map (numbered "stack") ++ [numbered "stack" k] =
            (List.range (k + 1)).map (numbered "stack") := by
          rw [List.range_succ, List.map_append]
          rfl
        obtain ⟨hn, hl⟩ := ih (k + 1)
        simp only [locate, if_pos hd, hlen, hnames, hcount]
        constructor
        · rw [hn]
          congr 2
          omega
        · rintro (_ | j)
          · simp only [List.getElem?_cons_zero, Option.map_some, place, if_pos hd,
              stackBefore_zero, Nat.add_zero]
          · rw [List.getElem?_cons_succ, List.getElem?_cons_succ, hl j, place_succ, if_pos hd]
      · obtain ⟨hn, hl⟩ := ih k
        simp only [locate, if_neg hd, hcount, Nat.add_zero]
        constructor
        · exact hn
        · rintro (_ | j)
          · simp only [List.getElem?_cons_zero, Option.map_some, place, if_neg hd]
          · rw [List.getElem?_cons_succ, List.getElem?_cons_succ, hl j, place_succ, if_neg hd,
              Nat.add_zero]

/-! ## Registers -/

/-- Position of the last `x`, counted from `i`. -/
def lastAt (x : U16) : Nat → List U16 → Option Nat
  | _, [] => none
  | i, y :: l => (lastAt x (i + 1) l).or (if y = x then some i else none)

theorem getElem?_of_lastAt {x : U16} {i k : Nat} {l : List U16} (h : lastAt x i l = some k) :
    i ≤ k ∧ l[k - i]? = some x := by
  induction l generalizing i with
  | nil => cases h
  | cons y l ih =>
      rw [lastAt] at h
      cases hl : lastAt x (i + 1) l with
      | some k' =>
          obtain rfl : k' = k := by simpa [hl] using h
          obtain ⟨hle, hk⟩ := ih hl
          refine ⟨by omega, ?_⟩
          obtain ⟨n, hn⟩ : ∃ n, k' - i = n + 1 := ⟨k' - i - 1, by omega⟩
          have hn' : k' - (i + 1) = n := by omega
          rw [hn, List.getElem?_cons_succ, ← hn', hk]
      | none =>
          rw [hl, Option.none_or] at h
          split at h
          · next hy =>
            obtain rfl := Option.some.inj h
            simp [hy]
          · cases h

theorem lastAt_eq_none_iff {x : U16} {i : Nat} {l : List U16} : lastAt x i l = none ↔ x ∉ l := by
  induction l generalizing i with
  | nil => simp [lastAt]
  | cons y l ih =>
      rw [lastAt, Option.or_eq_none_iff, ih, List.mem_cons, not_or]
      constructor
      · rintro ⟨hl, hy⟩
        refine ⟨?_, hl⟩
        rintro rfl
        simp at hy
      · rintro ⟨hy, hl⟩
        exact ⟨hl, if_neg fun he => hy he.symm⟩

/-- The register's digit in a location vector. -/
def registerDigit (r : Nat) : U16 := BitVec.ofNat 16 (r + 1)

/-- What a wrapper uses a register parameter for. -/
inductive RegisterUse where
  | pass (r : Nat)
  | input (i : Nat) (out : Option Nat)
  | output (j : Nat)

def RegisterUse.name : RegisterUse → Ident
  | .pass r => numbered "pass" (r + 1)
  | .input i none => numbered "in" i
  | .input i (some j) => numbered "in" i ++ numbered "_out" j
  | .output j => numbered "out" j

/-- The last input and the output located in register `r`. -/
def registerUse (inputs : Nat) (v : List U16) (r : Nat) : RegisterUse :=
  match lastAt (registerDigit r) 0 (v.take inputs), lastAt (registerDigit r) 0 (v.drop inputs) with
  | some i, out => .input i out
  | none, some j => .output j
  | none, none => .pass r

/-- The name of register parameter `r` of a wrapper with `inputs` inputs. -/
def registerName (inputs : Nat) (v : List U16) (r : Nat) : Ident := (registerUse inputs v r).name

/-- The loop of `from_args` leaves in each register the last operand located there. -/
theorem assign_eq {maxRegs : U16} {i : Nat} {l : List U16} {regs : Regs}
    {perm : List WrapperCallArg}
    (hperm : List.Forall₂ (fun d a => if d = 0 then ∃ n, a = .stack n else a = .reg (d - 1)) l perm)
    (hlt : ∀ d ∈ l, d ≤ maxRegs) (hlen : regs.length = maxRegs.toNat) :
    ∃ regs', Regs.assign i perm regs = some regs' ∧ regs'.length = maxRegs.toNat ∧
      ∀ r, r < maxRegs.toNat → regs'[r]? =
        match lastAt (registerDigit r) i l with
        | some k => some (.var (BitVec.ofNat 16 k))
        | none => regs[r]? := by
  induction hperm generalizing i regs with
  | nil => exact ⟨regs, rfl, hlen, fun r _ => rfl⟩
  | @cons d a l perm ha hrest ih =>
      have hltl : ∀ e ∈ l, e ≤ maxRegs := fun e he => hlt e (List.mem_cons_of_mem d he)
      have hm := maxRegs.isLt
      by_cases hd : d = 0
      · rw [if_pos hd] at ha
        obtain ⟨n, rfl⟩ := ha
        obtain ⟨regs', hr, hl', hspec⟩ := @ih (i + 1) regs hltl hlen
        refine ⟨regs', hr, hl', ?_⟩
        intro r hr
        -- the digit of a register is not the stack's
        have hne : (d = registerDigit r) = False := by
          rw [eq_iff_iff, iff_false, hd]
          intro h0
          have h0' := congrArg BitVec.toNat h0
          rw [registerDigit, toNat_ofNat_of_lt (by omega)] at h0'
          cases h0'
        rw [hspec r hr, lastAt]
        simp only [hne, if_false, Option.or_none]
      · rw [if_neg hd] at ha
        subst ha
        have hdn : d.toNat ≠ 0 := fun h0 => hd (BitVec.eq_of_toNat_eq h0)
        have hone : (1 : U16).toNat = 1 := by decide
        have hsub : (d - 1).toNat = d.toNat - 1 := by
          rw [BitVec.toNat_sub_of_le (by rw [BitVec.le_def]; omega), hone]
        have hdm : d.toNat ≤ maxRegs.toNat := by
          rw [← BitVec.le_def]
          exact hlt d List.mem_cons_self
        obtain ⟨regs', hr, hl', hspec⟩ :=
          @ih (i + 1) (regs.set (d - 1).toNat (.var (BitVec.ofNat 16 i))) hltl (by simpa using hlen)
        refine ⟨regs', by rw [Regs.assign, if_pos (by omega)]; exact hr, hl', ?_⟩
        intro r hr
        have hiff : d = registerDigit r ↔ (d - 1).toNat = r := by
          rw [hsub]
          constructor
          · rintro rfl
            rw [registerDigit, toNat_ofNat_of_lt (by omega)]
            omega
          · intro hrr
            apply BitVec.eq_of_toNat_eq
            rw [registerDigit, toNat_ofNat_of_lt (by omega)]
            omega
        rw [hspec r hr, lastAt]
        cases lastAt (registerDigit r) (i + 1) l with
        | some k => rfl
        | none =>
            by_cases hdr : d = registerDigit r
            · have hset : (d - 1).toNat = r := hiff.1 hdr
              rw [if_pos hdr, hset, List.getElem?_set_self (by omega)]
              rfl
            · have hset : (d - 1).toNat ≠ r := fun h => hdr (hiff.2 h)
              rw [if_neg hdr, List.getElem?_set_ne hset]
              rfl

/-- The locations agree with the digits, whatever the names so far. -/
theorem locate_forall₂ (names : List Ident) (v : List U16) :
    List.Forall₂ (fun d a => if d = 0 then ∃ n, a = .stack n else a = .reg (d - 1)) v
      (locate names v).1 := by
  induction v generalizing names with
  | nil => exact List.Forall₂.nil
  | cons d v ih =>
      by_cases hd : d = 0
      · simp only [locate, if_pos hd]
        apply List.Forall₂.cons _ (ih _)
        rw [if_pos hd]
        exact ⟨_, rfl⟩
      · simp only [locate, if_neg hd]
        apply List.Forall₂.cons _ (ih _)
        rw [if_neg hd]

/-- What `StencilSignature::new` returns for a location vector. -/
structure Describes (inputs : Nat) (v : List U16) (maxRegs : U16) (sig : StencilSignature) :
    Prop where
  inputsNum : sig.inputsNum = inputs
  stackArgNames : sig.stackArgNames = (List.range (stackCount v)).map (numbered "stack")
  ioLocations : ∀ j : Nat, sig.ioLocations[j]? = v[j]?.map (place 0 v j)
  regNames : sig.regNames = (List.range maxRegs.toNat).map (registerName inputs v)

theorem new_eq {inputs : Nat} {v : List U16} {maxRegs : U16} (hin : inputs ≤ v.length)
    (hlen : v.length < 2 ^ 16) (hlt : ∀ d ∈ v, d ≤ maxRegs) :
    ∃ sig, StencilSignature.new inputs v maxRegs = some sig ∧ Describes inputs v maxRegs sig := by
  have hm := maxRegs.isLt
  have hloc := locate_eq 0 v
  have hrel := locate_forall₂ [] v
  rw [Nat.zero_add] at hloc
  simp only [List.range_zero, List.map_nil] at hloc
  obtain ⟨hnames, hlocs⟩ := hloc
  have hlocslen : inputs ≤ (locate [] v).1.length := by rw [← hrel.length_eq]; exact hin
  have hpass : (Regs.allPass maxRegs).length = maxRegs.toNat := by simp [Regs.allPass]
  -- inputs and outputs are assigned by two runs of the same loop, both from `allPass`
  obtain ⟨inRegs, hinRegs, hinLen, hinSpec⟩ :=
    @assign_eq maxRegs 0 _ (Regs.allPass maxRegs) _ (List.forall₂_take inputs hrel)
      (fun d hd => hlt d (List.mem_of_mem_take hd)) hpass
  obtain ⟨outRegs, houtRegs, houtLen, houtSpec⟩ :=
    @assign_eq maxRegs 0 _ (Regs.allPass maxRegs) _ (List.forall₂_drop inputs hrel)
      (fun d hd => hlt d (List.mem_of_mem_drop hd)) hpass
  refine ⟨⟨inputs, List.zipWith regName inRegs outRegs, (locate [] v).2, (locate [] v).1⟩,
    ?_, rfl, hnames, hlocs, ?_⟩
  · simp only [StencilSignature.new, if_pos hlocslen, Regs.fromArgs, hinRegs, houtRegs]
    rfl
  · apply List.ext_getElem?
    intro r
    by_cases hr : r < maxRegs.toNat
    · have hpassr : (Regs.allPass maxRegs)[r]? = some (.pass (BitVec.ofNat 16 (r + 1))) := by
        simp [Regs.allPass, hr]
      -- a position is a `u16` in the register table and a `Nat` in `registerUse`
      have hmod : ∀ {x i k l}, lastAt x i l = some k → i + l.length < 2 ^ 16 → k % 2 ^ 16 = k := by
        intro x i k l h hle
        obtain ⟨hik, hk⟩ := getElem?_of_lastAt h
        have hkl := (List.getElem?_eq_some_iff.1 hk).1
        exact Nat.mod_eq_of_lt (by omega)
      have hr1 : (r + 1) % 2 ^ 16 = r + 1 := Nat.mod_eq_of_lt (by omega)
      have hin := hinSpec r hr
      have hout := houtSpec r hr
      rw [List.getElem?_zipWith, hin, hout, hpassr, List.getElem?_map, List.getElem?_range hr,
        Option.map_some, registerName, registerUse]
      cases hi : lastAt (registerDigit r) 0 (v.take inputs) with
      | none =>
          cases ho : lastAt (registerDigit r) 0 (v.drop inputs) with
          | none => simp only [regName, RegisterUse.name, BitVec.toNat_ofNat, hr1]
          | some j =>
              have hj := hmod ho (by rw [List.length_drop]; omega)
              simp only [regName, RegisterUse.name, BitVec.toNat_ofNat, hj]
      | some i =>
          have hi' := hmod hi (by rw [List.length_take]; omega)
          cases ho : lastAt (registerDigit r) 0 (v.drop inputs) with
          | none => simp only [regName, RegisterUse.name, BitVec.toNat_ofNat, hi']
          | some j =>
              have hj := hmod ho (by rw [List.length_drop]; omega)
              simp only [regName, RegisterUse.name, BitVec.toNat_ofNat, hi', hj]
    · have hr' := Nat.le_of_not_lt hr
      rw [List.getElem?_eq_none (by rw [List.length_zipWith]; omega),
        List.getElem?_eq_none (by simpa using hr')]

/-! ## Distinct names -/

theorem toNat_registerDigit {r : Nat} (h : r < 65535) : (registerDigit r).toNat = r + 1 := by
  rw [registerDigit, BitVec.toNat_ofNat]
  exact Nat.mod_eq_of_lt (by omega)

theorem registerDigit_inj {r r' : Nat} (h : r < 65535) (h' : r' < 65535)
    (heq : registerDigit r = registerDigit r') : r = r' := by
  have hn := congrArg BitVec.toNat heq
  rw [toNat_registerDigit h, toNat_registerDigit h'] at hn
  omega

/-- Only one digit stands at a position. -/
theorem register_eq_of_lastAt {r r' k : Nat} {l : List U16} (h : r < 65535) (h' : r' < 65535)
    (hr : lastAt (registerDigit r) 0 l = some k) (hr' : lastAt (registerDigit r') 0 l = some k) :
    r = r' := by
  apply registerDigit_inj h h'
  exact Option.some.inj ((getElem?_of_lastAt hr).2.symm.trans (getElem?_of_lastAt hr').2)

/-- First letter and number of the name of a register parameter. -/
theorem key_name (u : RegisterUse) :
    key u.name = match u with
      | .pass r => (some 'p', decimal (r + 1))
      | .input i _ => (some 'i', decimal i)
      | .output j => (some 'o', decimal j) := by
  have hout : ∀ j c, (numbered "_out" j).head? = some c → c.isDigit = false := by
    intro j c hc
    obtain rfl : '_' = c := by simpa [numbered] using hc
    rfl
  cases u with
  | pass r =>
      rw [← List.append_nil (RegisterUse.pass r).name]
      exact key_numbered rfl (by decide) (r + 1) (by simp)
  | input i out =>
      cases out with
      | none =>
          rw [← List.append_nil (RegisterUse.input i none).name]
          exact key_numbered rfl (by decide) i (by simp)
      | some j => exact key_numbered rfl (by decide) i (hout j)
  | output j =>
      rw [← List.append_nil (RegisterUse.output j).name]
      exact key_numbered rfl (by decide) j (by simp)

/-- Where the use of a register comes from. -/
theorem registerUse_spec (inputs : Nat) (v : List U16) (r : Nat) :
    match registerUse inputs v r with
    | .pass r' => r' = r
    | .input i _ => lastAt (registerDigit r) 0 (v.take inputs) = some i
    | .output j => lastAt (registerDigit r) 0 (v.drop inputs) = some j := by
  rw [registerUse]
  cases hi : lastAt (registerDigit r) 0 (v.take inputs) with
  | some i => rfl
  | none =>
      cases ho : lastAt (registerDigit r) 0 (v.drop inputs) with
      | some j => rfl
      | none => rfl

/-- **Registers have different names.** -/
theorem registerName_inj {inputs : Nat} {v : List U16} {r r' : Nat} (h : r < 65535)
    (h' : r' < 65535) (heq : registerName inputs v r = registerName inputs v r') : r = r' := by
  have hkey := congrArg key heq
  have hspec := registerUse_spec inputs v r
  have hspec' := registerUse_spec inputs v r'
  rw [registerName, registerName, key_name, key_name] at hkey
  -- the keys are of one kind, and a number belongs to one register only
  cases hu : registerUse inputs v r with
  | pass k =>
      cases hu' : registerUse inputs v r' with
      | pass k' =>
          simp only [hu, hu', Prod.mk.injEq, true_and] at hspec hspec' hkey
          have hk := decimal_injective hkey
          omega
      | input i' out' => simp [hu, hu'] at hkey
      | output j' => simp [hu, hu'] at hkey
  | input i out =>
      cases hu' : registerUse inputs v r' with
      | pass k' => simp [hu, hu'] at hkey
      | input i' out' =>
          simp only [hu, hu', Prod.mk.injEq, true_and] at hspec hspec' hkey
          obtain rfl := decimal_injective hkey
          exact register_eq_of_lastAt h h' hspec hspec'
      | output j' => simp [hu, hu'] at hkey
  | output j =>
      cases hu' : registerUse inputs v r' with
      | pass k' => simp [hu, hu'] at hkey
      | input i' out' => simp [hu, hu'] at hkey
      | output j' =>
          simp only [hu, hu', Prod.mk.injEq, true_and] at hspec hspec' hkey
          obtain rfl := decimal_injective hkey
          exact register_eq_of_lastAt h h' hspec hspec'

theorem registerName_ne_stack (inputs : Nat) (v : List U16) (r n : Nat) :
    registerName inputs v r ≠ numbered "stack" n := by
  intro h
  have hkey := congrArg key h
  rw [registerName, key_name, key_stack] at hkey
  cases hu : registerUse inputs v r <;> simp [hu] at hkey

theorem registerName_ne_hole (inputs : Nat) (v : List U16) (r n : Nat) :
    registerName inputs v r ≠ numbered "hole" n := by
  intro h
  have hkey := congrArg key h
  rw [registerName, key_name, key_hole] at hkey
  cases hu : registerUse inputs v r <;> simp [hu] at hkey

theorem stack_ne_hole (m n : Nat) : numbered "stack" m ≠ numbered "hole" n := by
  intro h
  have hkey := congrArg key h
  simp [key_stack, key_hole] at hkey

/-! ## Operands -/

theorem stackCount_le_length (v : List U16) : stackCount v ≤ v.length := List.count_le_length

theorem stackBefore_lt_stackCount {v : List U16} {j : Nat} (h : v[j]? = some 0) :
    stackBefore v j < stackCount v := by
  have hsplit : stackCount v = stackCount (v.take j) + stackCount (v.drop j) := by
    rw [stackCount, stackCount, stackCount, ← List.count_append, List.take_append_drop]
  obtain ⟨hj, hv⟩ := List.getElem?_eq_some_iff.1 h
  rw [List.drop_eq_getElem_cons hj, hv, stackCount_cons, if_pos rfl] at hsplit
  rw [stackBefore]
  omega

/-- Later stack operands have larger numbers. -/
theorem stackBefore_lt {v : List U16} {i j : Nat} (hij : i < j) (h : v[i]? = some 0) :
    stackBefore v i < stackBefore v j := by
  have htake : stackBefore v i = stackBefore (v.take j) i := by
    rw [stackBefore, stackBefore, List.take_take, Nat.min_eq_left (Nat.le_of_lt hij)]
  rw [htake]
  apply stackBefore_lt_stackCount
  rw [List.getElem?_take, if_pos hij, h]

/-- The name a wrapper uses for operand `j`. -/
def operand (inputs : Nat) (v : List U16) (j : Nat) : Ident :=
  if v.getD j 0 = 0 then numbered "stack" (stackBefore v j)
  else registerName inputs v ((v.getD j 0).toNat - 1)

theorem operand_stack {inputs : Nat} {v : List U16} {j : Nat} (h : v[j]? = some 0) :
    operand inputs v j = numbered "stack" (stackBefore v j) := by
  rw [operand, List.getD_eq_getElem?_getD, h]
  exact if_pos rfl

theorem operand_register {inputs : Nat} {v : List U16} {j : Nat} {d : U16} (h : v[j]? = some d)
    (hd : d ≠ 0) : operand inputs v j = registerName inputs v (d.toNat - 1) := by
  rw [operand, List.getD_eq_getElem?_getD, h]
  exact if_neg hd

/-- Positions of the stack operands among operands `a` to `a + n`. -/
def stackPositions (v : List U16) (a n : Nat) : List Nat :=
  (List.range' a n).filter fun j => decide (v[j]? = some 0)

theorem mem_stackPositions {v : List U16} {a n j : Nat} :
    j ∈ stackPositions v a n ↔ (a ≤ j ∧ j < a + n) ∧ v[j]? = some 0 := by
  simp [stackPositions, List.mem_range'_1]

namespace Describes

variable {inputs : Nat} {v : List U16} {maxRegs : U16} {sig : StencilSignature}

theorem length (D : Describes inputs v maxRegs sig) : sig.ioLocations.length = v.length := by
  apply Nat.le_antisymm
  · apply Nat.le_of_not_lt
    intro hlt
    have hnone := D.ioLocations v.length
    rw [List.getElem?_eq_getElem hlt, List.getElem?_eq_none (Nat.le_refl _)] at hnone
    cases hnone
  · apply Nat.le_of_not_lt
    intro hlt
    have hsome := D.ioLocations sig.ioLocations.length
    rw [List.getElem?_eq_none (Nat.le_refl _), List.getElem?_eq_getElem hlt] at hsome
    cases hsome

theorem operandName (D : Describes inputs v maxRegs sig) (hlen : v.length < 2 ^ 16) {j : Nat}
    {d : U16} (hd : d ≤ maxRegs) (hj : v[j]? = some d) :
    StencilFamily.operandName sig (place 0 v j d) = some (operand inputs v j) := by
  by_cases h0 : d = 0
  · subst h0
    have hlt := stackBefore_lt_stackCount hj
    have hle := stackCount_le_length v
    have hmod : stackBefore v j % 2 ^ 16 = stackBefore v j := Nat.mod_eq_of_lt (by omega)
    rw [operand_stack hj, place, if_pos rfl, StencilFamily.operandName, D.stackArgNames, Nat.zero_add,
      BitVec.toNat_ofNat, hmod, List.getElem?_map, List.getElem?_range hlt]
    rfl
  · have hdn : d.toNat ≠ 0 := fun h => h0 (BitVec.eq_of_toNat_eq h)
    have hone : (1 : U16).toNat = 1 := by decide
    have hsub : (d - 1).toNat = d.toNat - 1 := by
      rw [BitVec.toNat_sub_of_le (by rw [BitVec.le_def]; omega), hone]
    rw [BitVec.le_def] at hd
    rw [operand_register hj h0, place, if_neg h0, StencilFamily.operandName, D.regNames, hsub,
      List.getElem?_map, List.getElem?_range (by omega)]
    rfl

/-- The location after the first `a` ones. -/
theorem drop_eq_cons (D : Describes inputs v maxRegs sig) {a : Nat} {d : U16} (h : v[a]? = some d) :
    sig.ioLocations.drop a = place 0 v a d :: sig.ioLocations.drop (a + 1) := by
  have ha := D.ioLocations a
  rw [h, Option.map_some] at ha
  obtain ⟨hlt, hget⟩ := List.getElem?_eq_some_iff.1 ha
  rw [List.drop_eq_getElem_cons hlt, hget]

theorem mapM_operandName (D : Describes inputs v maxRegs sig) (hlen : v.length < 2 ^ 16)
    (hlt : ∀ d ∈ v, d ≤ maxRegs) {a n : Nat} (h : a + n ≤ v.length) :
    ((sig.ioLocations.drop a).take n).mapM (StencilFamily.operandName sig) =
      some ((List.range' a n).map (operand inputs v)) := by
  induction n generalizing a with
  | zero => rfl
  | succ n ih =>
      obtain ⟨d, hd⟩ : ∃ d, v[a]? = some d := ⟨_, List.getElem?_eq_getElem (by omega)⟩
      have hname := D.operandName hlen (hlt d (List.mem_of_getElem? hd)) hd
      rw [D.drop_eq_cons hd, List.take_succ_cons, List.mapM_cons, hname, ih (by omega)]
      rfl

theorem stackOperands (D : Describes inputs v maxRegs sig) (hlen : v.length < 2 ^ 16)
    (hlt : ∀ d ∈ v, d ≤ maxRegs) {a n : Nat} (h : a + n ≤ v.length) :
    StencilFamily.stackOperands sig ((sig.ioLocations.drop a).take n) =
      some ((stackPositions v a n).map (operand inputs v)) := by
  induction n generalizing a with
  | zero => rfl
  | succ n ih =>
      obtain ⟨d, hd⟩ : ∃ d, v[a]? = some d := ⟨_, List.getElem?_eq_getElem (by omega)⟩
      have hname := D.operandName hlen (hlt d (List.mem_of_getElem? hd)) hd
      have hrest := ih (a := a + 1) (by omega)
      unfold StencilFamily.stackOperands stackPositions at hrest ⊢
      rw [D.drop_eq_cons hd, List.take_succ_cons, List.range'_succ]
      by_cases h0 : d = 0
      · subst h0
        rw [place, if_pos rfl] at hname ⊢
        rw [List.filter_cons_of_pos (by rfl), List.filter_cons_of_pos (by simp [hd]), List.mapM_cons,
          hname, hrest]
        rfl
      · rw [place, if_neg h0, List.filter_cons_of_neg (by simp), List.filter_cons_of_neg ?_, hrest]
        simpa [hd] using h0

end Describes

end Patchouly.Macros
