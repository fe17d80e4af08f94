import Patchouly.Core.Stencils
import Patchouly.Macros.Stencil

/-!
# Reading stencil symbols back (`patchouly-build`, `extract.rs`, `structs.rs`)

The extractor finds a stencil's function name, operand locations and width in the symbol that the
macro gave it. `parseName` splits the symbol at doubled underscores, the first time from the second
character on. `checks` is the overflow-check setting of the build.

A function name that the macro accepts is read back exactly when its first character is one byte
long and its last one is not an underscore (`parseName_stencilName_iff`). Two stencils never share a
symbol (`stencilSymbol_injective`).
-/

set_option autoImplicit false

namespace Patchouly.Build

open Patchouly.Lib Patchouly.Core Patchouly.Macros

def STENCIL_FUNC_PREFIX : Ident := "__patchouly__".toList

structure StencilArgs where
  inputs : List Location
  outputs : List Location
  deriving DecidableEq

section Parsing

variable (checks : Bool)

/-- One turn of `parse_args`'s loop. A zero that is not written `0` overflows. -/
def parseArg (arg : Ident) : Option (Option Location) :=
  if arg = ['0'] then some (some (.stack 0))
  else
    match parseUnsigned 16 arg with
    | none => some none
    | some arg => (plainSub checks arg 1).map fun i => some (.register i)

/-- `parse_args`'s loop; it stops at the first argument that does not parse. -/
def parseArgList : List Ident → Option (Option (List Location))
  | [] => some (some [])
  | arg :: rest => do
      match ← parseArg checks arg with
      | none => return none
      | some location =>
          match ← parseArgList rest with
          | none => return none
          | some locations => return some (location :: locations)

def parseArgs (args : Ident) : Option (Option (List Location)) :=
  if args = [] then some (some []) else parseArgList checks (args.splitOn '_')

def StencilArgs.parse (inputs outputs : Ident) : Option (Option StencilArgs) := do
  match ← parseArgs checks inputs with
  | none => return none
  | some inputs =>
      match ← parseArgs checks outputs with
      | none => return none
      | some outputs => return some ⟨inputs, outputs⟩

end Parsing

/-- `SplitIter::next`: the piece from `pos` up to the next separator, and the position behind it. -/
def splitNext (s : Ident) (pos : Nat) : Option (Option Ident × Nat) :=
  if utf8Len s < pos then some (none, pos)
  else do
    let start := max pos 1
    let rest ← sliceFrom s start
    match find ['_', '_'] rest with
    | none => return (some (← sliceFrom s pos), utf8Len s + 1)
    | some «end» => return (some (← slice s pos (start + «end»)), start + «end» + 2)

/-- `parse_name` after the function name: the operand locations, then the width. -/
def parseAfterName (checks : Bool) (symName : Ident) (pos : Nat) : Option (Option (Bool × StencilArgs)) := do
  let (some inputs, pos) ← splitNext symName pos | return none
  let (some outputs, pos) ← splitNext symName pos | return none
  let some args ← StencilArgs.parse checks inputs outputs | return none
  let (last, _) ← splitNext symName pos
  return some (decide (last = some "wide".toList), args)

def parseName (checks : Bool) (symName : Ident) : Option (Option (Ident × Bool × StencilArgs)) :=
  if symName = [] then some none
  else do
    let (some name, pos) ← splitNext symName 0 | return none
    let some (wide, args) ← parseAfterName checks symName pos | return none
    return some (name, wide, args)

/-! ## Location lists -/

theorem joinLocations_cons_cons (l k : U16) (ls : List U16) :
    joinLocations (l :: k :: ls) = decimal l.toNat ++ '_' :: joinLocations (k :: ls) := by
  simp [joinLocations]

theorem joinLocations_singleton (l : U16) : joinLocations [l] = decimal l.toNat := by
  simp [joinLocations]

/-- A list that is not empty is printed with a digit first. -/
theorem head?_joinLocations (ls : List U16) : (joinLocations ls).head? ≠ some '_' := by
  intro h
  cases ls with
  | nil => cases h
  | cons l ls =>
      have hdec : (decimal l.toNat).head? = some '_' := by
        cases ls with
        | nil => simpa [joinLocations_singleton] using h
        | cons k ls =>
            rw [joinLocations_cons_cons, List.head?_append] at h
            cases hd : (decimal l.toNat).head? with
            | none => exact absurd (List.head?_eq_none_iff.1 hd) (decimal_ne_nil _)
            | some c => simpa [hd] using h
      exact underscore_notMem_decimal _ (List.mem_of_head? hdec)

theorem joinLocations_ne_nil {l : U16} {ls : List U16} : joinLocations (l :: ls) ≠ [] := by
  cases ls with
  | nil => simpa [joinLocations_singleton] using decimal_ne_nil l.toNat
  | cons k ls => simp [joinLocations_cons_cons]

/-- A printed list can stand before a separator. -/
theorem separable_joinLocations (ls : List U16) : Separable '_' (joinLocations ls) := by
  induction ls with
  | nil => exact Separable.of_notMem (List.not_mem_nil)
  | cons l ls ih =>
      have hl : '_' ∉ decimal l.toNat := underscore_notMem_decimal _
      cases ls with
      | nil =>
          rw [joinLocations_singleton]
          exact Separable.of_notMem hl
      | cons k ls =>
          rw [joinLocations_cons_cons]
          exact Separable.append_cons hl ih joinLocations_ne_nil (head?_joinLocations _)

theorem parseArg_decimal (checks : Bool) (l : U16) :
    parseArg checks (decimal l.toNat) = some (some (Location.fromBits l)) := by
  have hl := l.isLt
  unfold parseArg Location.fromBits
  by_cases h : l = 0
  · rw [if_pos h, if_pos (decimal_eq_zero_iff.2 (by rw [h]; rfl))]
  · have hne : l.toNat ≠ 0 := fun h0 => h (BitVec.eq_of_toNat_eq h0)
    have hsub : plainSub checks l 1 = some (l - 1) := by
      have hone : (1 : U16).toNat = 1 := by decide
      have hlt : decide (l.toNat < (1 : U16).toNat) = false := decide_eq_false (by omega)
      rw [plainSub, hlt, Bool.and_false]
      rfl
    rw [if_neg h, if_neg fun h0 => hne (decimal_eq_zero_iff.1 h0), parseUnsigned_decimal hl,
      BitVec.ofNat_toNat, BitVec.setWidth_eq]
    simp only [hsub, Option.map_some]

theorem parseArgList_decimals (checks : Bool) (ls : List U16) :
    parseArgList checks ((ls.map BitVec.toNat).map decimal) = some (some (ls.map Location.fromBits)) := by
  induction ls with
  | nil => rfl
  | cons l ls ih =>
      rw [List.map_cons, List.map_cons, parseArgList, parseArg_decimal, ih]
      rfl

/-- **Location lists are read back.** -/
theorem parseArgs_joinLocations (checks : Bool) (ls : List U16) :
    parseArgs checks (joinLocations ls) = some (some (ls.map Location.fromBits)) := by
  cases ls with
  | nil => rfl
  | cons l ls =>
      rw [parseArgs, if_neg joinLocations_ne_nil, joinLocations, splitOn_decimals (by simp)]
      exact parseArgList_decimals checks (l :: ls)

theorem parse_joinLocations (checks : Bool) (inputs outputs : List U16) :
    StencilArgs.parse checks (joinLocations inputs) (joinLocations outputs) =
      some (some ⟨inputs.map Location.fromBits, outputs.map Location.fromBits⟩) := by
  simp [StencilArgs.parse, parseArgs_joinLocations]

/-! ## The splitter -/

/-- A piece behind the first one, with a separator after it. -/
theorem splitNext_middle {before piece : Ident} (hpos : 1 ≤ utf8Len before)
    (hp : Separable '_' piece) (rest : Ident) :
    splitNext (before ++ (piece ++ '_' :: '_' :: rest)) (utf8Len before) =
      some (some piece, utf8Len before + utf8Len piece + 2) := by
  have hfrom := sliceFrom_append before (piece ++ '_' :: '_' :: rest) 0
  rw [Nat.add_zero, sliceFrom_zero] at hfrom
  have hlen : ¬ utf8Len (before ++ (piece ++ '_' :: '_' :: rest)) < utf8Len before := by
    rw [utf8Len_append]
    omega
  rw [splitNext, if_neg hlen]
  simp only [Nat.max_eq_left hpos, hfrom, Option.bind_eq_bind, Option.bind_some, find_double hp,
    slice_append, Option.pure_def]

/-- The last piece. -/
theorem splitNext_last {before piece : Ident} (hpos : 1 ≤ utf8Len before) (hp : NotDoubled '_' piece) :
    splitNext (before ++ piece) (utf8Len before) =
      some (some piece, utf8Len (before ++ piece) + 1) := by
  have hfrom := sliceFrom_append before piece 0
  rw [Nat.add_zero, sliceFrom_zero] at hfrom
  have hlen : ¬ utf8Len (before ++ piece) < utf8Len before := by
    rw [utf8Len_append]
    omega
  rw [splitNext, if_neg hlen]
  simp only [Nat.max_eq_left hpos, hfrom, Option.bind_eq_bind, Option.bind_some,
    find_double_eq_none_iff.2 hp, Option.pure_def]

/-- Past the end there is nothing left. -/
theorem splitNext_end {s : Ident} {pos : Nat} (h : utf8Len s < pos) :
    splitNext s pos = some (none, pos) := if_pos h

/-- The first piece may start with the separator: its first character is skipped. -/
theorem splitNext_first {c : Char} {name : Ident} (hc : c.utf8Size = 1) (hp : Separable '_' name)
    (rest : Ident) :
    splitNext (c :: name ++ '_' :: '_' :: rest) 0 =
      some (some (c :: name), utf8Len (c :: name) + 2) := by
  have hfrom : sliceFrom (c :: name ++ '_' :: '_' :: rest) 1 = some (name ++ '_' :: '_' :: rest) := by
    rw [List.cons_append, sliceFrom_cons (by omega), hc, Nat.sub_self, sliceFrom_zero]
  have hslice := slice_append [] (c :: name) ('_' :: '_' :: rest)
  rw [splitNext, if_neg (Nat.not_lt_zero _)]
  simp only [Nat.zero_max, hfrom, Option.bind_eq_bind, Option.bind_some, find_double hp,
    Option.pure_def]
  rw [List.nil_append, utf8Len_nil, Nat.zero_add, utf8Len_cons, hc] at hslice
  rw [hslice, utf8Len_cons, hc]
  rfl

/-- A first character of several bytes is cut in half. -/
theorem splitNext_wideChar {c : Char} {s : Ident} (hc : c.utf8Size ≠ 1) :
    splitNext (c :: s) 0 = none := by
  have hpos := c.utf8Size_pos
  have hfrom : sliceFrom (c :: s) 1 = none := by
    rw [sliceFrom, if_neg (by omega)]
  rw [splitNext, if_neg (Nat.not_lt_zero _)]
  simp only [Nat.zero_max, hfrom, Option.bind_eq_bind, Option.bind_none]

/-- The name that `parseName` returns is the first piece. -/
theorem parseName_of_first (checks : Bool) {s first : Ident} {pos : Nat} (hs : s ≠ [])
    (hfirst : splitNext s 0 = some (some first, pos)) :
    parseName checks s = (parseAfterName checks s pos).map fun r => r.map fun (wide, args) =>
      (first, wide, args) := by
  simp only [parseName, if_neg hs, hfirst, Option.bind_eq_bind, Option.bind_some, Option.pure_def]
  rcases parseAfterName checks s pos with _ | _ | ⟨wide, args⟩ <;> rfl

/-- What follows the name is read back, whatever the name is. -/
theorem parseAfterName_suffix (checks : Bool) {before : Ident} (hpos : 1 ≤ utf8Len before)
    (inputs outputs : List U16) (wide : WidthVariant) :
    parseAfterName checks (before ++ (joinLocations inputs ++ '_' :: '_' :: (joinLocations outputs ++
        WidthVariant.suffix wide))) (utf8Len before) =
      some (some (wide, ⟨inputs.map Location.fromBits, outputs.map Location.fromBits⟩)) := by
  have hin := separable_joinLocations inputs
  have hout := separable_joinLocations outputs
  have hargs := parse_joinLocations checks inputs outputs
  generalize joinLocations inputs = ins at hin hargs ⊢
  generalize joinLocations outputs = outs at hout hargs ⊢
  -- the text up to the outputs
  have hsplit : ∀ rest, before ++ (ins ++ '_' :: '_' :: rest) =
      (before ++ ins ++ ['_', '_']) ++ rest := by simp
  have hlen : utf8Len (before ++ ins ++ ['_', '_']) = utf8Len before + utf8Len ins + 2 := by
    simp [utf8Len]
    rfl
  have hlen1 : 1 ≤ utf8Len (before ++ ins ++ ['_', '_']) := by omega
  rw [parseAfterName]
  rw [splitNext_middle hpos hin]
  cases wide with
  | false =>
      have hlast := splitNext_last hlen1 hout.notDoubled
      have hend := splitNext_end (Nat.lt_succ_self (utf8Len (before ++ ins ++ ['_', '_'] ++ outs)))
      rw [hlen] at hlast
      simp only [WidthVariant.suffix, Bool.false_eq_true, if_false, List.append_nil, hsplit,
        Option.bind_eq_bind, Option.bind_some, hlast, hargs, hend]
      rfl
  | true =>
      -- the width is the piece behind the outputs
      have hwide : '_' ∉ "wide".toList := by decide
      have hmid := splitNext_middle hlen1 hout "wide".toList
      have hbefore : 1 ≤ utf8Len (before ++ ins ++ ['_', '_'] ++ outs ++ ['_', '_']) := by
        rw [utf8Len_append, utf8Len_append]
        omega
      have hlast := splitNext_last hbefore (NotDoubled.of_notMem hwide)
      have hlen' : utf8Len (before ++ ins ++ ['_', '_'] ++ outs ++ ['_', '_']) =
          utf8Len before + utf8Len ins + 2 + utf8Len outs + 2 := by
        rw [utf8Len_append, utf8Len_append, hlen]
        rfl
      have hsplit' : ∀ rest, before ++ ins ++ ['_', '_'] ++ (outs ++ '_' :: '_' :: rest) =
          (before ++ ins ++ ['_', '_'] ++ outs ++ ['_', '_']) ++ rest := by simp
      rw [hlen'] at hlast
      rw [hlen] at hmid
      have hsuffix : outs ++ WidthVariant.suffix true = outs ++ '_' :: '_' :: "wide".toList := rfl
      rw [hsuffix]
      simp only [hsplit, Option.bind_eq_bind, Option.bind_some, hmid, hargs]
      rw [hsplit', hlast]
      rfl

/-! ## The round trip -/

/-- The identifiers of Rust are some of these. -/
structure IsIdent (name : Ident) : Prop where
  ne_nil : name ≠ []
  ne_underscore : name ≠ ['_']

/-- The names that can be read back. -/
structure Readable (name : Ident) : Prop where
  first : ∀ c, name.head? = some c → c.utf8Size = 1
  last : name.getLast? ≠ some '_'

theorem stencilName_eq (name : Ident) (inputs outputs : List U16) (wide : WidthVariant) :
    stencilName name inputs outputs wide =
      name ++ '_' :: '_' :: (joinLocations inputs ++ '_' :: '_' :: (joinLocations outputs ++
        WidthVariant.suffix wide)) := by
  have hsep : "__".toList = ['_', '_'] := rfl
  simp [stencilName, hsep]

/-- A name the macro accepts has no separator behind its first character. -/
theorem notDoubled_tail {name : Ident} (h : acceptsName name = true) :
    NotDoubled '_' name.tail := by
  have hsep : "__".toList = ['_', '_'] := rfl
  simp only [acceptsName, hsep, Bool.not_eq_true', Bool.and_eq_false_iff] at h
  rcases h with h | h
  · exact (find_double_eq_none_iff.1 (Option.isSome_eq_false_iff.1 h |> Option.isNone_iff_eq_none.1)).tail
  · have hmem : name ∈ BUILTIN_FUNCTIONS := List.contains_iff_mem.1 (by simpa using h)
    simp only [BUILTIN_FUNCTIONS, List.mem_cons, List.not_mem_nil, or_false] at hmem
    apply find_double_eq_none_iff.1
    rcases hmem with rfl | rfl | rfl <;> decide

/-- The symbol of a name whose first character is one byte long, up to where the splitter cuts it. -/
theorem parseName_cons (checks : Bool) {c : Char} {name rest : Ident} (hc : c.utf8Size = 1)
    (hname : Separable '_' name) :
    parseName checks (c :: name ++ '_' :: '_' :: rest) =
      (parseAfterName checks (c :: name ++ '_' :: '_' :: rest) (utf8Len (c :: name) + 2)).map fun r =>
        r.map fun (wide, args) => (c :: name, wide, args) :=
  parseName_of_first checks (by simp) (splitNext_first hc hname rest)

/-- A readable name is read back with its locations and its width. -/
theorem parseName_readable (checks : Bool) {name : Ident} (hid : IsIdent name)
    (hacc : acceptsName name = true) (hr : Readable name) (inputs outputs : List U16) (wide : WidthVariant) :
    parseName checks (stencilName name inputs outputs wide) =
      some (some (name, wide,
        ⟨inputs.map Location.fromBits, outputs.map Location.fromBits⟩)) := by
  obtain ⟨c, name, rfl⟩ := List.exists_cons_of_ne_nil hid.ne_nil
  have hc : c.utf8Size = 1 := hr.first c rfl
  have hname : Separable '_' name := by
    refine ⟨notDoubled_tail hacc, ?_⟩
    intro hlast
    apply hr.last
    rw [List.getLast?_cons, hlast]
    rfl
  have hpos : 1 ≤ utf8Len (c :: name ++ ['_', '_']) := by simp [utf8Len, hc]
  -- the first character is one byte, so the parser's byte offsets stay on boundaries
  have hafter := parseAfterName_suffix checks hpos inputs outputs wide
  have hlen : utf8Len (c :: name ++ ['_', '_']) = utf8Len (c :: name) + 2 := by
    rw [utf8Len_append]
    rfl
  rw [hlen, List.append_assoc] at hafter
  rw [stencilName_eq, parseName_cons checks hc hname]
  simp only [List.cons_append, List.nil_append] at hafter ⊢
  rw [hafter]
  rfl

/-- A name that is read back is readable. -/
theorem readable_of_parseName {checks : Bool} {name : Ident} (hid : IsIdent name)
    (hacc : acceptsName name = true)
    {inputs outputs : List U16} {wide wide' : WidthVariant} {args : StencilArgs}
    (h : parseName checks (stencilName name inputs outputs wide) = some (some (name, wide', args))) :
    Readable name := by
  obtain ⟨c, name, rfl⟩ := List.exists_cons_of_ne_nil hid.ne_nil
  have hc : c.utf8Size = 1 := by
    by_contra hne
    rw [stencilName_eq, List.cons_append, parseName, if_neg (List.cons_ne_nil _ _),
      splitNext_wideChar hne] at h
    cases h
  refine ⟨by simpa using hc, ?_⟩
  intro hlast
  -- the splitter takes the last underscore of the name for the first one of the separator
  obtain ⟨init, hinit⟩ := List.getLast?_eq_some_iff.1 hlast
  cases init with
  | nil => exact hid.ne_underscore hinit
  | cons d init =>
      obtain ⟨rfl, hname⟩ := List.cons.inj hinit
      subst hname
      change IsIdent (c :: (init ++ ['_'])) at hid
      have hchain := List.isChain_append.1 (notDoubled_tail hacc : NotDoubled '_' (init ++ ['_']))
      have hsep : Separable '_' init :=
        ⟨hchain.1, fun hl => hchain.2.2 '_' hl '_' rfl rfl rfl⟩
      have hcut := fun rest => @parseName_cons checks c init ('_' :: rest) hc hsep
      change parseName checks (stencilName (c :: (init ++ ['_'])) inputs outputs wide) =
        some (some (c :: (init ++ ['_']), wide', args)) at h
      rw [stencilName_eq, List.cons_append, List.append_assoc, List.singleton_append,
        ← List.cons_append, hcut, Option.map_eq_some_iff] at h
      obtain ⟨r, -, hr⟩ := h
      obtain ⟨out, -, hout⟩ := Option.map_eq_some_iff.1 hr
      have hlen := congrArg (fun o => o.1.length) hout
      simp at hlen

/-! ## Symbols are not shared -/

/-- A symbol whose name ends in an underscore does not split in another way. -/
theorem suffix_ne_underscore_suffix {inputs outputs inputs' outputs' : List U16}
    {wide wide' : WidthVariant} :
    joinLocations inputs ++ '_' :: '_' :: (joinLocations outputs ++ WidthVariant.suffix wide) ≠
      '_' :: (joinLocations inputs' ++ '_' :: '_' ::
        (joinLocations outputs' ++ WidthVariant.suffix wide')) := by
  intro h
  -- a list before an underscore is empty: otherwise a digit stands there
  have hempty : ∀ (ls : List U16) (s t : Ident), joinLocations ls ++ s = '_' :: t →
      joinLocations ls = [] := by
    intro ls s t hls
    cases hj : joinLocations ls with
    | nil => rfl
    | cons d ds =>
        rw [hj, List.cons_append] at hls
        have hd : d = '_' := (List.cons.inj hls).1
        exact absurd (by rw [hj, hd]; rfl) (head?_joinLocations ls)
  rw [hempty _ _ _ h, List.nil_append] at h
  have h := (List.cons.inj h).2
  rw [hempty _ _ _ h.symm, List.nil_append] at h
  have h := (List.cons.inj h).2
  rw [hempty _ _ _ h, List.nil_append] at h
  cases wide with
  | false => cases h
  | true =>
      have hw : WidthVariant.suffix true = '_' :: '_' :: "wide".toList := rfl
      rw [hw] at h
      have h := (List.cons.inj h).2
      rw [hempty _ _ _ h.symm, List.nil_append] at h
      cases wide' <;> cases h

/-- Of two names with one symbol the first one is not the shorter one. -/
theorem append_eq_nil_of_stencilName_eq {name x : Ident} (hid : IsIdent name)
    (hacc : acceptsName (name ++ x) = true) {inputs outputs inputs' outputs' : List U16}
    {wide wide' : WidthVariant}
    (h : stencilName name inputs outputs wide =
      stencilName (name ++ x) inputs' outputs' wide') : x = [] := by
  rw [stencilName_eq, stencilName_eq, List.append_assoc] at h
  replace h := List.append_cancel_left h
  cases x with
  | nil => rfl
  | cons a x =>
      exfalso
      obtain ⟨ha, htail⟩ := List.cons.inj (h.trans (List.cons_append ..))
      cases x with
      | nil => exact suffix_ne_underscore_suffix (List.cons.inj htail).2
      | cons b x =>
          -- the longer name would contain the separator
          have hb := (List.cons.inj (htail.trans (List.cons_append ..))).1
          subst ha hb
          obtain ⟨c, name, rfl⟩ := List.exists_cons_of_ne_nil hid.ne_nil
          exact not_notDoubled name x (notDoubled_tail hacc)

/-- **No two stencils share a symbol.** -/
theorem eq_of_stencilName_eq {name name' : Ident} (hid : IsIdent name) (hid' : IsIdent name')
    (hacc : acceptsName name = true) (hacc' : acceptsName name' = true)
    {inputs outputs inputs' outputs' : List U16} {wide wide' : WidthVariant}
    (h : stencilName name inputs outputs wide = stencilName name' inputs' outputs' wide') :
    name = name' ∧ inputs = inputs' ∧ outputs = outputs' ∧ wide = wide' := by
  have hname : name = name' := by
    have hsplit := h
    rw [stencilName_eq, stencilName_eq] at hsplit
    rcases List.append_eq_append_iff.1 hsplit with ⟨x, rfl, -⟩ | ⟨x, rfl, -⟩
    · rw [append_eq_nil_of_stencilName_eq hid hacc' h, List.append_nil]
    · rw [append_eq_nil_of_stencilName_eq hid' hacc h.symm, List.append_nil]
  subst hname
  -- what follows the name is read back at any position
  have hsuffix := h
  rw [stencilName_eq, stencilName_eq] at hsuffix
  have hsuffix := List.append_cancel_left hsuffix
  have hbefore : 1 ≤ utf8Len ['_'] := by decide
  have hread := parseAfterName_suffix true hbefore inputs outputs wide
  rw [(List.cons.inj (List.cons.inj hsuffix).2).2, parseAfterName_suffix true hbefore] at hread
  have hpair := Option.some.inj (Option.some.inj hread)
  simp only [Prod.mk.injEq, StencilArgs.mk.injEq] at hpair
  obtain ⟨hw, hin, hout⟩ := hpair
  exact ⟨rfl, (List.map_injective_iff.2 Location.fromBits_injective hin).symm,
    (List.map_injective_iff.2 Location.fromBits_injective hout).symm, hw.symm⟩

/-- **Stencil symbols.** Without its prefix, the symbol of a stencil is read back as its function
name, width and operand locations exactly when the name's first character is one byte long and its
last one is not an underscore; and no other stencil has the same symbol. -/
theorem parseName_stencilSymbol_iff (checks : Bool) {name : Ident} (hid : IsIdent name)
    (hacc : acceptsName name = true) (inputs outputs : List U16) (wide : WidthVariant) :
    ((stripPrefix STENCIL_FUNC_PREFIX (stencilSymbol name inputs outputs wide)).bind
        (parseName checks) =
        some (some (name, wide,
          ⟨inputs.map Location.fromBits, outputs.map Location.fromBits⟩)) ↔ Readable name) ∧
      ∀ name' inputs' outputs' wide', IsIdent name' → acceptsName name' = true →
        stencilSymbol name inputs outputs wide = stencilSymbol name' inputs' outputs' wide' →
        (name, inputs, outputs, wide) = (name', inputs', outputs', wide') := by
  constructor
  · have hstrip : stripPrefix STENCIL_FUNC_PREFIX (stencilSymbol name inputs outputs wide) =
        some (stencilName name inputs outputs wide) :=
      stripPrefix_append STENCIL_FUNC_PREFIX _
    rw [hstrip, Option.bind_some]
    constructor
    · exact readable_of_parseName hid hacc
    · intro hr
      exact parseName_readable checks hid hacc hr inputs outputs wide
  · rintro name' inputs' outputs' wide' hid' hacc' h
    obtain ⟨rfl, rfl, rfl, rfl⟩ :=
      eq_of_stencilName_eq hid hid' hacc hacc' (List.append_cancel_left h)
    rfl

theorem readable_cons {c : Char} {name : Ident} (hfirst : c.utf8Size = 1)
    (hlast : (c :: name).getLast? ≠ some '_') : Readable (c :: name) := by
  refine ⟨?_, hlast⟩
  intro d hd
  obtain rfl : c = d := by simpa using hd
  exact hfirst

theorem parseName_stencilSymbol_add_const :
    (stripPrefix STENCIL_FUNC_PREFIX (stencilSymbol "_add_const".toList [9, 0] [] true)).bind
        (parseName true) =
      some (some ("_add_const".toList, true, ⟨[.register 8, .stack 0], []⟩)) :=
  (parseName_stencilSymbol_iff true ⟨by decide, by decide⟩ (by decide +kernel) [9, 0] [] true).1.2
    (readable_cons (by decide) (by decide))

/-- `foo_` is accepted, and its stencils are dropped. -/
theorem not_parseName_stencilSymbol :
    ¬ ∀ (name : Ident), IsIdent name → acceptsName name = true →
      ∀ (inputs outputs : List U16) (wide : WidthVariant),
        (stripPrefix STENCIL_FUNC_PREFIX (stencilSymbol name inputs outputs wide)).bind
          (parseName true) =
          some (some (name, wide,
            ⟨inputs.map Location.fromBits, outputs.map Location.fromBits⟩)) := by
  intro h
  have hfoo := h "foo_".toList ⟨by decide, by decide⟩ (by decide +kernel) [1] [0] false
  have hnone : (stripPrefix STENCIL_FUNC_PREFIX
      (stencilSymbol "foo_".toList [1] [0] false)).bind (parseName true) = some none := by
    decide +kernel
  rw [hnone] at hfoo
  cases hfoo

end Patchouly.Build
