import Mathlib.Data.List.Range
import Patchouly.Lib.Odometer
import Patchouly.Lib.Words

/-!
# Operand location vectors (`patchouly-macros`, `perm.rs`)

`RegPermutation` is an iterator over the locations of a stencil's operands, inputs before outputs: `0`
is the stack, `r` is register `r - 1`. Its `next` is an odometer that skips an output register used
by an earlier output.

`collect` is a `for` loop over the iterator. It yields the readings of an odometer whose wheels leave
out the taken registers (`collect_new`), so the vectors are exactly the ones that `Located` describes
(`mem_locations`), in lexicographic order (`next_enumerates`). The macro crate's arithmetic aborts on overflow.
-/

set_option autoImplicit false

namespace Patchouly.Macros

open Patchouly.Lib

abbrev NonZeroU16 := { r : U16 // r ≠ 0 }

structure RegPermutation where
  inputs : Nat
  current : List U16
  registers : Option NonZeroU16
  deriving DecidableEq

namespace RegPermutation

def new (inputs outputs : U16) (registers : NonZeroU16) : Option RegPermutation :=
  (plainAdd true inputs outputs).map fun n =>
    ⟨inputs.toNat, List.replicate n.toNat 0, some registers⟩

/-- `next`'s inner `loop`: the next digit that is not taken, or `some none` when the digit has to go
back to zero. -/
def bump (registers : U16) (taken : U16 → Bool) (digit : U16) : Option (Option U16) :=
  match _h : plainAdd true digit 1 with
  | none => none
  | some digit' =>
      if registers ≤ digit' then some none
      else if taken digit' then bump registers taken digit' else some (some digit')
termination_by 2 ^ 16 - digit.toNat
decreasing_by
  have hadd := toNat_of_plainAdd _h
  have hone : (1 : U16).toNat = 1 := by decide
  have _hlt := digit'.isLt
  omega

/-- An output register that `current[inputs..i]` uses. -/
def taken (inputs : Nat) (current : List U16) (i : Nat) (digit : U16) : Bool :=
  decide (inputs ≤ i) && ((current.take i).drop inputs).contains digit

/-- `next`'s loop `'inc` over the positions below the counter, from the last one. -/
def carry (inputs : Nat) (registers : U16) :
    Nat → List U16 → Option NonZeroU16 → Option (List U16 × Option NonZeroU16)
  | 0, current, left => some (current, left)
  | i + 1, current, left => do
      let digit ← current[i]?
      match ← bump registers (taken inputs current i) digit with
      | some digit' => return (current.set i digit', left)
      | none => carry inputs registers i (current.set i 0) (if i = 0 then none else left)

def next (self : RegPermutation) : Option (Option (List U16) × RegPermutation) :=
  match self.registers with
  | none => some (none, self)
  | some registers => do
      let left := if self.current = [] then none else some registers
      let (current, left) ←
        carry self.inputs registers.val self.current.length self.current left
      return (some self.current, { self with current, registers := left })

/-- `for v in self`, with a bound on the number of steps. -/
def collect : Nat → RegPermutation → Option (List (List U16))
  | 0, _ => none
  | fuel + 1, self => do
      let (v, self) ← self.next
      match v with
      | none => return []
      | some v => return v :: (← collect fuel self)

/-! ## The wheels -/

/-- The digits from `s` on. -/
def values (registers s : Nat) : List U16 :=
  (List.range' s (registers - s)).map (BitVec.ofNat 16)

theorem values_cons {registers s : Nat} (h : s < registers) :
    values registers s = BitVec.ofNat 16 s :: values registers (s + 1) := by
  obtain ⟨k, hk⟩ : ∃ k, registers - s = k + 1 := ⟨registers - s - 1, by omega⟩
  have hk' : registers - (s + 1) = k := by omega
  rw [values, values, hk, hk', List.range'_succ, List.map_cons]

theorem values_eq_nil {registers s : Nat} (h : registers ≤ s) : values registers s = [] := by
  simp [values, Nat.sub_eq_zero_of_le h]

theorem mem_values {registers : U16} {s : Nat} {d : U16} :
    d ∈ values registers.toNat s ↔ s ≤ d.toNat ∧ d < registers := by
  have hr := registers.isLt
  simp only [values, List.mem_map, List.mem_range'_1, BitVec.lt_def]
  constructor
  · rintro ⟨k, hk, rfl⟩
    rw [toNat_ofNat_of_lt (by omega)]
    omega
  · rintro ⟨hs, hd⟩
    exact ⟨d.toNat, by omega, by simp⟩

/-- The inner loop finds the next digit that is not taken. -/
theorem bump_eq {registers : U16} (taken : U16 → Bool) {digit : U16} (h : digit < registers) :
    bump registers taken digit =
      some ((values registers.toNat (digit.toNat + 1)).find? fun d => !taken d) := by
  have hr := registers.isLt
  rw [BitVec.lt_def] at h
  -- on the distance to the bound, which the loop's measure is too
  induction hk : registers.toNat - digit.toNat generalizing digit with
  | zero => omega
  | succ k ih =>
      have hone : (1 : U16).toNat = 1 := by decide
      have hadd : plainAdd true digit 1 = some (digit + 1) := plainAdd_of_lt true (by omega)
      have hsucc : (digit + 1).toNat = digit.toNat + 1 := by
        rw [BitVec.toNat_add, hone, Nat.mod_eq_of_lt (by omega)]
      have hval : BitVec.ofNat 16 (digit.toNat + 1) = digit + 1 := by
        apply BitVec.eq_of_toNat_eq
        rw [hsucc, toNat_ofNat_of_lt (by omega)]
      rw [bump]
      split
      -- the addition cannot overflow below the bound
      · next hn =>
        rw [hadd] at hn
        cases hn
      · next digit' hs =>
        obtain rfl : digit + 1 = digit' := Option.some.inj (hadd.symm.trans hs)
        by_cases hle : registers ≤ digit + 1
        · rw [if_pos hle, values_eq_nil (by rw [BitVec.le_def, hsucc] at hle; exact hle)]
          rfl
        · have hlt : digit.toNat + 1 < registers.toNat := by
            rw [BitVec.le_def, hsucc] at hle
            omega
          rw [if_neg hle, values_cons hlt, hval, List.find?_cons]
          cases ht : taken (digit + 1) with
          | false => simp
          | true =>
              rw [if_pos rfl, ih (by omega) (by omega), hsucc]
              rfl

/-- The wheel of the next digit: zero, and every value that is not taken. -/
def wheel (inputs : Nat) (registers : U16) (pre : List U16) : List U16 :=
  0 :: (values registers.toNat 1).filter fun d => !taken inputs pre pre.length d

def after (inputs : Nat) (registers : U16) (pre : List U16) (digit : U16) : Option U16 :=
  (values registers.toNat (digit.toNat + 1)).find? fun d => !taken inputs pre pre.length d

theorem mem_wheel {inputs : Nat} {registers : NonZeroU16} {pre : List U16} {d : U16} :
    d ∈ wheel inputs registers.val pre ↔
      d < registers.val ∧ (d = 0 ∨ taken inputs pre pre.length d = false) := by
  have hr : (0 : U16) < registers.val := by
    rw [BitVec.lt_def]
    have hne : registers.val.toNat ≠ 0 := fun h =>
      registers.property (BitVec.eq_of_toNat_eq h)
    simpa using Nat.pos_of_ne_zero hne
  simp only [wheel, List.mem_cons, List.mem_filter, mem_values, Bool.not_eq_true']
  constructor
  · rintro (rfl | ⟨⟨-, hd⟩, ht⟩)
    · exact ⟨hr, Or.inl rfl⟩
    · exact ⟨hd, Or.inr ht⟩
  · rintro ⟨hd, h0 | ht⟩
    · exact Or.inl h0
    · by_cases h0 : d = 0
      · exact Or.inl h0
      · have hpos : 1 ≤ d.toNat := Nat.pos_of_ne_zero fun h => h0 (BitVec.eq_of_toNat_eq h)
        exact Or.inr ⟨⟨hpos, hd⟩, ht⟩

theorem pairwise_values (registers : U16) (s : Nat) :
    (values registers.toNat s).Pairwise (· < ·) := by
  have hr := registers.isLt
  rw [values, List.pairwise_map]
  apply (List.pairwise_lt_range' (n := registers.toNat - s)).imp_of_mem
  intro k k' hk hk' hlt
  rw [List.mem_range'_1] at hk hk'
  rw [BitVec.lt_def, toNat_ofNat_of_lt (by omega), toNat_ofNat_of_lt (by omega)]
  exact hlt

theorem pairwise_wheel (inputs : Nat) (registers : U16) (pre : List U16) :
    (wheel inputs registers pre).Pairwise (· < ·) := by
  apply List.Pairwise.cons
  · intro d hd
    exact (mem_values.1 (List.mem_of_mem_filter hd)).1
  · exact (pairwise_values registers 1).filter _

/-- The rest of a wheel, seen from any digit whose next one is searched from `s` on. -/
theorem chain_filter_values {registers : U16} {next : U16 → Option U16} {p : U16 → Bool}
    (hnext : ∀ d : U16, next d = (values registers.toNat (d.toNat + 1)).find? p) {s : Nat}
    {d : U16} (hd : next d = (values registers.toNat s).find? p) :
    (d :: (values registers.toNat s).filter p).IsChain (fun d d' => next d = some d') ∧
      ∀ e, (d :: (values registers.toNat s).filter p).getLast? = some e → next e = none := by
  have hr := registers.isLt
  induction hk : registers.toNat - s generalizing s d with
  | zero =>
      have hnil : values registers.toNat s = [] := values_eq_nil (by omega)
      rw [hnil] at hd ⊢
      refine ⟨List.isChain_singleton d, ?_⟩
      intro e he
      obtain rfl : d = e := by simpa using he
      exact hd
  | succ k ih =>
      have hval : (BitVec.ofNat 16 s).toNat = s := by
        rw [toNat_ofNat_of_lt (by omega)]
      rw [values_cons (by omega)] at hd ⊢
      cases hp : p (BitVec.ofNat 16 s) with
      | false =>
          -- a skipped value: the search goes on behind it
          have hd' : next d = (values registers.toNat (s + 1)).find? p := by simpa [hp] using hd
          simpa [hp] using ih hd' (by omega)
      | true =>
          have hs := @ih (s + 1) (BitVec.ofNat 16 s) (by rw [hnext, hval]) (by omega)
          have hlink : next d = some (BitVec.ofNat 16 s) := by simpa [hp] using hd
          simpa [hp, hlink] using hs

/-- The loops of `next` turn the wheels. -/
theorem turns (inputs : Nat) (registers : U16) :
    Odometer.Turns (wheel inputs registers) (after inputs registers) 0 := by
  have hchain := fun pre => @chain_filter_values registers (after inputs registers pre)
    (fun d => !taken inputs pre pre.length d) (fun _ => rfl) 1 0 rfl
  exact ⟨fun _ => rfl, fun pre => (hchain pre).1, fun pre => (hchain pre).2⟩

/-! ## `next` and the run -/

theorem taken_append (inputs : Nat) (pre rest : List U16) :
    taken inputs (pre ++ rest) pre.length = taken inputs pre pre.length := by
  funext d
  simp [taken]

/-- The loop over the last positions advances the odometer there, or clears them and goes on. -/
theorem carry_append (inputs : Nat) {registers : U16} {suf : List U16}
    (hsuf : ∀ d ∈ suf, d < registers) (pre : List U16) (left : Option NonZeroU16) :
    carry inputs registers (pre.length + suf.length) (pre ++ suf) left =
      match Odometer.advance (after inputs registers) 0 pre suf with
      | some suf' => some (pre ++ suf', left)
      | none => carry inputs registers pre.length (pre ++ List.replicate suf.length 0)
          (if pre = [] ∧ suf ≠ [] then none else left) := by
  induction suf generalizing pre with
  | nil => simp [Odometer.advance]
  | cons d suf ih =>
      have hd : d < registers := hsuf d List.mem_cons_self
      have htail := ih (fun e he => hsuf e (List.mem_cons_of_mem d he)) (pre ++ [d])
      simp only [List.length_append, List.length_singleton, List.append_assoc,
        List.singleton_append, Nat.add_assoc] at htail
      have hlen : pre.length + (d :: suf).length = pre.length + (1 + suf.length) := by simp; omega
      rw [hlen, htail, Odometer.advance]
      cases Odometer.advance (after inputs registers) 0 (pre ++ [d]) suf with
      | some suf' => rfl
      | none =>
          -- everything behind `d` is zero again, so `d` is the digit to advance
          have hcons : (pre ++ [d] = [] ∧ suf ≠ []) = False := by simp
          have hbump : bump registers (taken inputs pre pre.length) d =
              some (after inputs registers pre d) := bump_eq _ hd
          simp only [hcons, if_false, carry, List.getElem?_append_right (Nat.le_refl _),
            Nat.sub_self, List.getElem?_cons_zero, Option.bind_eq_bind, Option.bind_some,
            taken_append, hbump]
          cases after inputs registers pre d with
          | some d' => simp
          | none => simp [List.replicate_succ]

theorem next_eq {inputs : Nat} {v : List U16} {registers : NonZeroU16}
    (hv : ∀ d ∈ v, d < registers.val) :
    next ⟨inputs, v, some registers⟩ =
      match Odometer.advance (after inputs registers.val) 0 [] v with
      | some v' => some (some v, ⟨inputs, v', some registers⟩)
      | none => some (some v, ⟨inputs, List.replicate v.length 0, none⟩) := by
  have hc := carry_append inputs hv [] (if v = [] then none else some registers)
  simp only [List.length_nil, Nat.zero_add, List.nil_append] at hc
  simp only [next, hc, Option.bind_eq_bind, Option.pure_def]
  cases hadv : Odometer.advance (after inputs registers.val) 0 [] v with
  | some v' =>
      have hne : v ≠ [] := by
        rintro rfl
        cases hadv
      simp [hne]
  | none => by_cases hne : v = [] <;> simp [hne, carry]

/-- An exhausted iterator stays exhausted. -/
theorem next_none {self : RegPermutation} (h : self.registers = none) :
    self.next = some (none, self) := by
  simp [next, h]

/-- The loop over the iterator yields what the odometer enumerates from its reading on. -/
theorem collect_chain {inputs : Nat} {registers : NonZeroU16} {v : List U16} {vs : List (List U16)}
    (hchain : (v :: vs).IsChain fun v v' =>
      Odometer.advance (after inputs registers.val) 0 [] v = some v')
    (hlast : ∀ w, (v :: vs).getLast? = some w →
      Odometer.advance (after inputs registers.val) 0 [] w = none)
    (hdigits : ∀ w ∈ v :: vs, ∀ d ∈ w, d < registers.val) {fuel : Nat}
    (hfuel : vs.length + 2 ≤ fuel) :
    collect fuel ⟨inputs, v, some registers⟩ = some (v :: vs) := by
  -- on the readings that follow; the fuel has one turn for each and one for the end
  induction vs generalizing v fuel with
  | nil =>
      obtain ⟨fuel, rfl⟩ := Nat.exists_eq_add_of_le' hfuel
      have hstep := @next_eq inputs v registers (hdigits v List.mem_cons_self)
      rw [hlast v rfl] at hstep
      simp [collect, hstep, next_none]
  | cons w vs ih =>
      obtain ⟨fuel, rfl⟩ := Nat.exists_eq_add_of_le' hfuel
      have hstep := @next_eq inputs v registers (hdigits v List.mem_cons_self)
      rw [(List.isChain_cons_cons.1 hchain).1] at hstep
      have hrest : collect (vs.length + 2 + fuel) ⟨inputs, w, some registers⟩ = some (w :: vs) :=
        ih (List.isChain_cons_cons.1 hchain).2 (by simpa using hlast)
          (fun x hx => hdigits x (List.mem_cons_of_mem v hx)) (Nat.le_add_right _ _)
      have hfu : fuel + ((w :: vs).length + 2) = (vs.length + 2 + fuel) + 1 := by simp; omega
      rw [hfu, collect, hstep]
      simp [hrest]

/-- The vectors, in the order of the iterator. -/
def locations (inputs outputs : U16) (registers : NonZeroU16) : List (List U16) :=
  Odometer.enumerate (wheel inputs.toNat registers.val) (inputs.toNat + outputs.toNat) []

theorem locations_ne_nil (inputs outputs : U16) (registers : NonZeroU16) :
    locations inputs outputs registers ≠ [] :=
  (turns inputs.toNat registers.val).enumerate_ne_nil _ _

/-- A vector of operand locations: registers that exist, and no two outputs in one register. -/
structure Located (inputs outputs : Nat) (registers : U16) (v : List U16) : Prop where
  length : v.length = inputs + outputs
  lt : ∀ d ∈ v, d < registers
  distinct : ∀ i j d, inputs ≤ i → i < j → v[i]? = some d → v[j]? = some d → d = 0

theorem mem_locations {inputs outputs : U16} {registers : NonZeroU16} {v : List U16} :
    v ∈ locations inputs outputs registers ↔
      Located inputs.toNat outputs.toNat registers.val v := by
  simp only [locations, Odometer.mem_enumerate, List.nil_append, mem_wheel]
  constructor
  · rintro ⟨hlen, hdigits⟩
    refine ⟨hlen, ?_, ?_⟩
    · intro d hd
      obtain ⟨i, hi⟩ := List.mem_iff_getElem?.1 hd
      exact (hdigits i d hi).1
    · intro i j d hi hij hvi hvj
      obtain ⟨hj, -⟩ := List.getElem?_eq_some_iff.1 hvj
      rcases (hdigits j d hvj).2 with h0 | ht
      · exact h0
      · -- position `i` is one of the earlier outputs
        have hmem : d ∈ ((v.take j).take (v.take j).length).drop inputs.toNat := by
          apply @List.mem_of_getElem? _ _ (i - inputs.toNat)
          rw [List.getElem?_drop, List.take_length, List.getElem?_take]
          rw [if_pos (by omega), Nat.add_sub_cancel' hi, hvi]
        have hlen' : inputs.toNat ≤ (v.take j).length := by
          rw [List.length_take]
          omega
        rw [taken, decide_eq_true hlen', List.contains_iff_mem.2 hmem] at ht
        cases ht
  · rintro ⟨hlen, hlt, hdist⟩
    refine ⟨hlen, ?_⟩
    intro j d hvj
    refine ⟨hlt d (List.mem_of_getElem? hvj), ?_⟩
    -- a taken digit stands at an earlier output, so by distinctness it is 0
    cases ht : taken inputs.toNat (v.take j) (v.take j).length d with
    | false => exact Or.inr rfl
    | true =>
        left
        simp only [taken, List.take_length, Bool.and_eq_true, decide_eq_true_eq,
          List.contains_iff_mem] at ht
        obtain ⟨k, hk⟩ := List.mem_iff_getElem?.1 ht.2
        rw [List.getElem?_drop, List.getElem?_take] at hk
        split at hk
        · next hlt' => exact hdist (inputs.toNat + k) j d (Nat.le_add_right _ _) hlt' hk hvj
        · cases hk

/-- **The iterator yields the enumeration**, for every bound from some one on. -/
theorem collect_new {inputs outputs : U16} {registers : NonZeroU16} {p : RegPermutation}
    (h : new inputs outputs registers = some p) :
    (∀ fuel, (locations inputs outputs registers).length + 1 ≤ fuel →
      collect fuel p = some (locations inputs outputs registers)) := by
  simp only [new, Option.map_eq_some_iff] at h
  obtain ⟨n, hn, rfl⟩ := h
  have hsum : n.toNat = inputs.toNat + outputs.toNat := toNat_of_plainAdd hn
  intro fuel hfuel
  have T := turns inputs.toNat registers.val
  obtain ⟨vs, hvs⟩ := List.head?_eq_some_iff.1 (T.head?_enumerate n.toNat [])
  rw [locations, ← hsum] at hfuel ⊢
  rw [hvs] at hfuel ⊢
  apply collect_chain
  · rw [← hvs]
    exact T.isChain_enumerate n.toNat []
  · rw [← hvs]
    exact fun w hw => T.advance_getLast hw
  · rw [← hvs, hsum]
    intro w hw
    exact (mem_locations.1 hw).lt
  · rw [List.length_cons] at hfuel
    omega

/-- A larger bound changes nothing. -/
theorem collect_mono {fuel : Nat} {p : RegPermutation} {vs : List (List U16)}
    (h : collect fuel p = some vs) (k : Nat) : collect (fuel + k) p = some vs := by
  induction fuel generalizing p vs with
  | zero => cases h
  | succ fuel ih =>
      have hfuel : fuel + 1 + k = fuel + k + 1 := by omega
      rw [hfuel, collect]
      rw [collect] at h
      obtain ⟨⟨v, p'⟩, hn, h⟩ := Option.bind_eq_some_iff.1 h
      rw [hn]
      cases v with
      | none => exact h
      | some v =>
          obtain ⟨vs', hvs', h⟩ := Option.bind_eq_some_iff.1 h
          simpa [ih hvs'] using h

/-- Whatever the bound, a loop that ends has yielded the enumeration. -/
theorem eq_locations {inputs outputs : U16} {registers : NonZeroU16} {fuel : Nat}
    {vs : List (List U16)}
    (h : (new inputs outputs registers).bind (collect fuel) = some vs) :
    vs = locations inputs outputs registers := by
  obtain ⟨p, hp, h⟩ := Option.bind_eq_some_iff.1 h
  have hmore := collect_mono h ((locations inputs outputs registers).length + 1)
  rw [collect_new hp _ (Nat.le_add_left _ _)] at hmore
  exact (Option.some.inj hmore).symm

/-! ## Single calls -/

/-- What the call of `next` returns that comes after `k` others. -/
def callAt : Nat → RegPermutation → Option (Option (List U16))
  | 0, self => self.next.map (·.1)
  | k + 1, self => self.next.bind fun (_, self) => callAt k self

theorem callAt_none {self : RegPermutation} (h : self.registers = none) (k : Nat) :
    callAt k self = some none := by
  induction k with
  | zero => rw [callAt, next_none h, Option.map_some]
  | succ k ih =>
      rw [callAt, next_none h, Option.bind_some]
      exact ih

/-- The calls return the readings that follow each other, and `None` from then on. -/
theorem callAt_chain {inputs : Nat} {registers : NonZeroU16} {v : List U16} {vs : List (List U16)}
    (hchain : (v :: vs).IsChain fun v v' =>
      Odometer.advance (after inputs registers.val) 0 [] v = some v')
    (hlast : ∀ w, (v :: vs).getLast? = some w →
      Odometer.advance (after inputs registers.val) 0 [] w = none)
    (hdigits : ∀ w ∈ v :: vs, ∀ d ∈ w, d < registers.val) (k : Nat) :
    callAt k ⟨inputs, v, some registers⟩ = some (v :: vs)[k]? := by
  have hstep := @next_eq inputs v registers (hdigits v List.mem_cons_self)
  -- on the readings that follow; a reading is followed by another one or by the exhausted iterator
  induction vs generalizing v k with
  | nil =>
      rw [hlast v rfl] at hstep
      cases k with
      | zero => rw [callAt, hstep]; rfl
      | succ k =>
          rw [callAt, hstep, Option.bind_some]
          exact callAt_none rfl k
  | cons w vs ih =>
      rw [(List.isChain_cons_cons.1 hchain).1] at hstep
      have hw : ∀ x ∈ w :: vs, ∀ d ∈ x, d < registers.val :=
        fun x hx => hdigits x (List.mem_cons_of_mem v hx)
      cases k with
      | zero => rw [callAt, hstep]; rfl
      | succ k =>
          rw [callAt, hstep, Option.bind_some, List.getElem?_cons_succ]
          exact ih (List.isChain_cons_cons.1 hchain).2 (by simpa using hlast) hw k
            (next_eq (hw w List.mem_cons_self))

/-- **The iterator is exact**: it yields the vectors of operand locations in strictly increasing
lexicographic order, and `None` ever after. -/
theorem next_enumerates (inputs outputs : U16) (h : inputs.toNat + outputs.toNat ≤ 65535)
    (registers : NonZeroU16) :
    ∃ (p : RegPermutation) (vs : List (List U16)), new inputs outputs registers = some p ∧
      (∀ k, callAt k p = some vs[k]?) ∧ vs.Pairwise (List.Lex (· < ·)) ∧ vs.Nodup ∧
      ∀ v, v ∈ vs ↔ Located inputs.toNat outputs.toNat registers.val v := by
  have hadd := plainAdd_of_lt true (a := inputs) (b := outputs) (by omega)
  have hsum := toNat_of_plainAdd hadd
  have T := turns inputs.toNat registers.val
  have hsorted : (locations inputs outputs registers).Pairwise (List.Lex (· < ·)) :=
    Odometer.pairwise_enumerate (pairwise_wheel inputs.toNat registers.val) _ []
  refine ⟨_, locations inputs outputs registers, by rw [new, hadd]; rfl, ?_, hsorted, ?_,
    fun v => mem_locations⟩
  · intro k
    obtain ⟨vs, hvs⟩ := List.head?_eq_some_iff.1
      (T.head?_enumerate (inputs.toNat + outputs.toNat) [])
    have hcalls : callAt k ⟨inputs.toNat,
        List.replicate (inputs.toNat + outputs.toNat) 0, some registers⟩ =
          some (List.replicate (inputs.toNat + outputs.toNat) 0 :: vs)[k]? := by
      apply callAt_chain
      · rw [← hvs]
        exact T.isChain_enumerate _ []
      · rw [← hvs]
        exact fun w hw => T.advance_getLast hw
      · rw [← hvs]
        exact fun w hw => (mem_locations.1 hw).lt
    rw [locations, hvs, ← hcalls, ← hsum]
  · -- no vector comes before itself
    apply hsorted.imp
    rintro v w hlt rfl
    exact List.lt_irrefl v hlt

/-- One input and two outputs over one register: the outputs share it in no vector. -/
theorem next_enumerates_two : ∃ (p : RegPermutation) (vs : List (List U16)),
    new 1 2 ⟨2, by decide⟩ = some p ∧ (∀ k, callAt k p = some vs[k]?) ∧ [1, 1, 0] ∈ vs ∧
      [1, 1, 1] ∉ vs := by
  obtain ⟨p, vs, hp, hcalls, -, -, hmem⟩ := next_enumerates 1 2 (by decide) ⟨2, by decide⟩
  refine ⟨p, vs, hp, hcalls, (hmem _).2 ⟨rfl, by simp, ?_⟩, ?_⟩
  · intro i j d hi hij hvi hvj
    obtain ⟨hj, -⟩ := List.getElem?_eq_some_iff.1 hvj
    obtain ⟨rfl, rfl⟩ : i = 1 ∧ j = 2 := by
      simp only [List.length_cons, List.length_nil] at hj
      have hone : (1 : U16).toNat = 1 := by decide
      omega
    exact (Option.some.inj hvj).symm
  · intro hin
    exact absurd (((hmem _).1 hin).distinct 1 2 1 (by decide) (by decide) rfl rfl) (by decide)

end RegPermutation

end Patchouly.Macros
