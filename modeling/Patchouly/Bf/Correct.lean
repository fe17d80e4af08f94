import Patchouly.Bf.Simulation
import Mathlib.Data.List.TakeWhile

/-!
# The compiler is correct

`compileText` turns a text into a program of stencils. It does not panic for a text of fewer than 2 ^ 31
characters whose brackets have room for their blocks (`compileText_spec`), and its code touches no cell
outside the padded tape (`compileText_safe`). What the code returns says how the text's program ends
(`code_sound`), and a program that ends makes the code return (`code_complete`).
-/

set_option autoImplicit false

namespace Patchouly.Bf

open Patchouly.Lib Patchouly.Core Patchouly.Managed BF

/-! ## The program of the code -/

section Rewriting

variable {opts : CompileOptions}

/-- The code of a leaf leaves out operations without effect and adds checks. -/
theorem rewrites_leafActs (movement : Int) (ops : List Op) :
    Rewrites Idle (straight ops) ((leafActs opts movement ops).map .act) := by
  induction ops generalizing movement with
  | nil => exact .refl []
  | cons op ops ih =>
      have hop : Rewrites Idle (straight [op])
          ((if (opStencil opts op).isSome then [Act.op op] else []).map .act) := by
        cases hst : opStencil opts op with
        | some stencil => exact .refl _
        | none =>
            cases op with
            | incDec n =>
                simp only [opStencil] at hst
                split_ifs at hst with h0
                subst h0
                exact .rule .incDec
            | leftRight n =>
                simp only [opStencil] at hst
                split_ifs at hst with h0
                subst h0
                exact .rule .leftRight
            | _ => cases hst
      rw [leafActs, List.map_append, ← List.singleton_append, straight, List.map_append]
      refine hop.append ?_
      split
      · rw [List.map_cons, ← List.singleton_append]
        exact (Rewrites.rule .check).append (ih 0)
      · exact ih _

mutual

theorem rewrites_treeCode : ∀ tree : BF, Rewrites Idle (tree.commands straight) (treeCode opts tree)
  | .leaf ops => rewrites_leafActs 0 ops
  | .node nodes => rewrites_treeCodes nodes
  | .loop body => (rewrites_treeCode body).loop

theorem rewrites_treeCodes : ∀ nodes : List BF,
    Rewrites Idle (commandsAll straight nodes) (commandsAll (leafCode opts) nodes)
  | [] => .refl []
  | first :: nodes => (rewrites_treeCode first).append (rewrites_treeCodes nodes)

end

variable (opts) in
/-- The commands of the code, with the check at its end. -/
theorem rewrites_code (tree : BF) :
    Rewrites Idle (tree.commands straight) (treeCode opts tree ++ [.act .check]) := by
  have htree : Rewrites Idle (tree.commands straight) (treeCode opts tree) := rewrites_treeCode tree
  have happend := htree.append (Rewrites.rule Idle.check)
  rw [List.append_nil] at happend
  exact happend

end Rewriting

/-! ## The start -/

/-- A text that `compile` has room for. -/
structure Room (code : List U8) : Prop where
  length : code.length < 2 ^ 31
  blocks : 2 * code.count opening + 2 < 2 ^ 16

/-- What `compile_and_run` sets up: a tape of `len` cells, padded by 4096 on both sides if moves do not
saturate, and an index on the tape. -/
structure Loaded (opts : CompileOptions) (len : Nat) (s : Store) (m : State) : Prop where
  length : len + 8192 < 2 ^ 63
  tape : opts.tapeSize = BitVec.ofNat 64 len
  index : Inside len s.index
  rel : Rel len s m

/-- The tape of `compile_and_run`. -/
def zeroStore (input : List U8) : Store := ⟨fun _ => 0, 0, input, []⟩

/-- What it calls the code with. -/
def zeroState (opts : CompileOptions) (input : List U8) : State :=
  ⟨fun _ => 0, opts.tapeSize, 0, input, []⟩

theorem loaded_zero (opts : CompileOptions) (h0 : 0 < opts.tapeSize.toNat)
    (h1 : opts.tapeSize.toNat + 8192 < 2 ^ 63) (input : List U8) :
    Loaded opts opts.tapeSize.toNat (zeroStore input) (zeroState opts input) := by
  have htape : opts.tapeSize = BitVec.ofNat 64 opts.tapeSize.toNat := by
    rw [BitVec.ofNat_toNat, BitVec.setWidth_eq]
  exact ⟨h1, htape, ⟨Int.le_refl 0, Int.ofNat_lt.2 h0⟩, htape, rfl, fun _ _ => rfl, rfl, rfl⟩

/-- The entry's code. -/
def boot (G : Graph) (m : State) : List Instr × State := ((G 0).getD [], m)

section Start

variable {checks : Bool} {opts : CompileOptions} {len : Nat} {code : List U8} {s : Store} {m : State}

theorem blockIds_length (count : Nat) : (blockIds count).length = count := by
  rw [blockIds, List.length_map, List.length_range]

theorem blockIds_nodup {count : Nat} (h : count + 2 < 2 ^ 16) :
    (0 :: blockIds count ++ [panicId count]).Nodup := by
  have hall : (0 :: blockIds count ++ [panicId count]) =
      (List.range (count + 2)).map fun i => BitVec.ofNat 16 i := by
    rw [List.range_succ, List.range_succ_eq_map, List.map_append, List.map_cons, List.map_map]
    rfl
  rw [hall]
  refine List.Nodup.map_on ?_ List.nodup_range
  intro i hi j hj heq
  rw [List.mem_range] at hi hj
  have hnat := congrArg BitVec.toNat heq
  rw [BitVec.toNat_ofNat, BitVec.toNat_ofNat] at hnat
  omega

variable (checks) in
/-- The code of a text, at its start. -/
theorem compileText_matches (hroom : Room code) (hclosed : opts.saturating = true → openLoops 0 code = 0)
    (hload : Loaded opts len s m) :
    ∃ tree G, parse checks code = some tree ∧ compileText checks opts code = some G ∧
      Rewrites Rule (read code) (tree.commands straight) ∧
        Setup opts len (panicId (blockCount tree.visit)) G ∧
          Matches opts len (panicId (blockCount tree.visit)) G (boot G m)
            (treeCode opts tree ++ [.act .check], s) := by
  obtain ⟨tree, hparse, hrule, htidy, hweight, hloops, -, hno⟩ := parse_spec checks hroom.length
  have hlength := hroom.length
  have hblocks := hroom.blocks
  have hcount := blockCount_visit tree
  obtain ⟨h0, h1⟩ := hload.index
  have hlen := hload.length
  have htape : opts.saturating = true → 1 ≤ opts.tapeSize.toNat := by
    intro _
    rw [hload.tape, BitVec.toNat_ofNat]
    omega
  obtain ⟨calls, hcalls, -, hentry, hpanic, hemits⟩ :=
    @bodyCalls_spec opts (panicId (blockCount tree.visit)) checks htape tree
      (blockIds (blockCount tree.visit)) (by omega)
      (blockIds_length _) (blockIds_nodup (by omega))
  have hok : TreeOk opts tree := ⟨htidy, by omega, fun hsat => hno (hclosed hsat)⟩
  have hstand := standing_of_ready (s := s)
    (.start (placed_of_inside hload.index)) (nodesFine_children hok) (emitsAll_children hemits) .final
  rw [commandsAll_children] at hstand
  refine ⟨tree, _, hparse, ?_, hrule, ⟨hload.length, fun _ => hload.tape, hpanic⟩, hload.rel, ?_⟩
  · rw [compileText, hparse, Option.bind_some]
    simp only [hcalls, Option.map_some]
  · rw [boot, hentry]
    exact hstand

/-! ## Runs of the code -/

/-- **Memory safety.** Up to any point of a run the next stencil touches only cells of the tape, or of its
padding where moves do not saturate; and the run never leaves the code. -/
theorem compileText_safe (hroom : Room code) (hclosed : opts.saturating = true → openLoops 0 code = 0)
    (hload : Loaded opts len s m) :
    ∃ G, compileText checks opts code = some G ∧
      ∀ c, Relation.ReflTransGen (Moves (step G)) (boot G m) c →
        (∀ instr ∈ c.1.head?, SafeAccess opts len instr.stencil c.2) ∧ step G c ≠ .inr none := by
  obtain ⟨tree, G, -, hcompile, -, hsetup, hmatch⟩ := compileText_matches checks hroom hclosed hload
  refine ⟨G, hcompile, fun c hreach => ?_⟩
  obtain ⟨p, hrel, hstand⟩ : ∃ p, Matches opts len (panicId (blockCount tree.visit)) G c p := by
    apply invariant_of_moves (P := fun c => ∃ p, Matches opts len _ G c p) _ ⟨_, hmatch⟩ hreach
    rintro c c' ⟨p, hp⟩ hmove
    obtain ⟨p', hp', -⟩ := (simulation hsetup).move c p c' hp hmove
    exact ⟨p', hp'⟩
  obtain ⟨instrs, m'⟩ := c
  constructor
  · intro instr hinstr
    cases instrs with
    | nil => cases hinstr
    | cons first rest =>
        obtain rfl := Option.some.inj hinstr
        exact hstand.safe hsetup hrel
  · intro hnone
    obtain ⟨r, hanswer, -⟩ := (simulation hsetup).result _ p _ ⟨hrel, hstand⟩ hnone
    exact hanswer

/-- `[->+<]` on three cells. -/
theorem compileText_safe_loop :
    ∃ G, compileText true ⟨false, true, 3⟩ [0x5B, 0x2D, 0x3E, 0x2B, 0x3C, 0x5D] = some G ∧
      ∀ c, Relation.ReflTransGen (Moves (step G)) (boot G (zeroState ⟨false, true, 3⟩ [])) c →
        (∀ instr ∈ c.1.head?, SafeAccess ⟨false, true, 3⟩ 3 instr.stencil c.2) ∧
          step G c ≠ .inr none :=
  compileText_safe ⟨by decide, by decide⟩ (fun _ => by decide)
    (loaded_zero ⟨false, true, 3⟩ (by decide) (by decide) [])

theorem compiled_of_not_saturating (hsat : opts.saturating = false) :
    compiled opts len = checked (Inside len) := by
  rw [compiled, hsat, if_neg Bool.false_ne_true]

/-- **Soundness.** Code that returns 0 has done what the text says; code that returns anything else
returns -1, and the text leaves the tape. -/
theorem code_sound (hroom : Room code) (hsat : opts.saturating = false) (hload : Loaded opts len s m) :
    ∃ G, compileText checks opts code = some G ∧ ∀ r, Halts (step G) (boot G m) r →
      (∃ m' s', r = some (0, m') ∧ Runs plain (read code) s (.ok s') ∧ Rel len s' m') ∨
      ∃ m', r = some (BitVec.ofInt 64 (-1), m') ∧ Runs (strict len) (read code) s (.error ()) := by
  have hclosed : opts.saturating = true → openLoops 0 code = 0 := by
    rw [hsat]
    exact fun h => by cases h
  obtain ⟨tree, G, -, hcompile, hrule, hsetup, hmatch⟩ := compileText_matches checks hroom hclosed hload
  refine ⟨G, hcompile, fun r hr => ?_⟩
  have hcode := hrule.trans ((rewrites_code opts tree).mono fun _ _ => .idle)
  obtain ⟨out, hanswer, hrun⟩ := (simulation hsetup).halts hmatch hr
  rw [compiled_of_not_saturating hsat] at hrun
  cases out with
  | ok s' =>
      obtain ⟨m', rfl, hrel⟩ := hanswer.of_ok
      exact Or.inl ⟨m', s', rfl, plain_of_checked hcode hrun, hrel⟩
  | error e =>
      obtain ⟨m', rfl⟩ := hanswer.of_error
      exact Or.inr ⟨m', rfl, guarded_stops_of_checked hcode hload.index hrun⟩

theorem code_sound_loop :
    ∃ G, compileText true ⟨false, false, 3⟩ [0x5B, 0x2D, 0x3E, 0x2B, 0x3C, 0x5D] = some G ∧
      ∀ r, Halts (step G) (boot G (zeroState ⟨false, false, 3⟩ [])) r →
        (∃ m' s', r = some (0, m') ∧
          Runs plain (read [0x5B, 0x2D, 0x3E, 0x2B, 0x3C, 0x5D]) (zeroStore []) (.ok s') ∧
            Rel 3 s' m') ∨
        ∃ m', r = some (BitVec.ofInt 64 (-1), m') ∧
          Runs (strict 3) (read [0x5B, 0x2D, 0x3E, 0x2B, 0x3C, 0x5D]) (zeroStore []) (.error ()) :=
  code_sound ⟨by decide, by decide⟩ rfl
    (loaded_zero ⟨false, false, 3⟩ (by decide) (by decide) [])

/-- **Completeness.** If the text's program ends, the code returns: 0 with the same cells, or -1, and that
only if the program leaves the tape on its way. -/
theorem code_complete (hroom : Room code) (hsat : opts.saturating = false)
    (hload : Loaded opts len s m) :
    ∃ G, compileText checks opts code = some G ∧ ∀ s', Runs plain (read code) s (.ok s') →
      (∃ m', Halts (step G) (boot G m) (some (0, m')) ∧ Rel len s' m') ∨
      (∃ m', Halts (step G) (boot G m) (some (BitVec.ofInt 64 (-1), m'))) ∧
        Runs (strict len) (read code) s (.error ()) := by
  have hclosed : opts.saturating = true → openLoops 0 code = 0 := by
    rw [hsat]
    exact fun h => by cases h
  obtain ⟨tree, G, -, hcompile, hrule, hsetup, hmatch⟩ := compileText_matches checks hroom hclosed hload
  refine ⟨G, hcompile, fun s' hs' => ?_⟩
  have hcode := hrule.trans ((rewrites_code opts tree).mono fun _ _ => .idle)
  rcases checked_of_plain (P := Inside len) hcode hs' with hrun | hrun
  · rw [← compiled_of_not_saturating hsat] at hrun
    obtain ⟨r, hanswer, hr⟩ := (simulation hsetup).halts_back hmatch hrun
    obtain ⟨m', rfl, hrel⟩ := hanswer.of_ok
    exact Or.inl ⟨m', hr, hrel⟩
  · have hstops := guarded_stops_of_checked hcode hload.index hrun
    rw [← compiled_of_not_saturating hsat] at hrun
    obtain ⟨r, hanswer, hr⟩ := (simulation hsetup).halts_back hmatch hrun
    obtain ⟨m', rfl⟩ := hanswer.of_error
    exact Or.inr ⟨⟨m', hr⟩, hstops⟩

theorem code_complete_loop :
    ∃ G, compileText true ⟨false, false, 3⟩ [0x5B, 0x2D, 0x3E, 0x2B, 0x3C, 0x5D] = some G ∧
      ∀ s', Runs plain (read [0x5B, 0x2D, 0x3E, 0x2B, 0x3C, 0x5D]) (zeroStore []) (.ok s') →
        (∃ m', Halts (step G) (boot G (zeroState ⟨false, false, 3⟩ [])) (some (0, m')) ∧
          Rel 3 s' m') ∨
        (∃ m', Halts (step G) (boot G (zeroState ⟨false, false, 3⟩ []))
          (some (BitVec.ofInt 64 (-1), m'))) ∧
          Runs (strict 3) (read [0x5B, 0x2D, 0x3E, 0x2B, 0x3C, 0x5D]) (zeroStore []) (.error ()) :=
  code_complete ⟨by decide, by decide⟩ rfl
    (loaded_zero ⟨false, false, 3⟩ (by decide) (by decide) [])

/-- **Saturating moves.** The code returns 0 exactly when the parsed program ends with moves that stop at
the ends of the tape, and with its cells; it never returns -1. A text that stays on the tape ends in the
same way. -/
theorem code_saturating (hroom : Room code) (hclosed : openLoops 0 code = 0)
    (hsat : opts.saturating = true) (hload : Loaded opts len s m) :
    ∃ tree G, parse checks code = some tree ∧ compileText checks opts code = some G ∧
      (∀ r, Halts (step G) (boot G m) r → ∃ m' s', r = some (0, m') ∧
        Runs (saturated len) (tree.commands straight) s (.ok s') ∧ Rel len s' m' ∧
          Inside len s'.index) ∧
      (∀ s', Runs (saturated len) (tree.commands straight) s (.ok s') →
        ∃ m', Halts (step G) (boot G m) (some (0, m')) ∧ Rel len s' m') ∧
      ∀ s', Runs (strict len) (read code) s (.ok s') →
        Runs (saturated len) (tree.commands straight) s (.ok s') := by
  obtain ⟨tree, G, hparse, hcompile, hrule, hsetup, hmatch⟩ :=
    compileText_matches checks hroom (fun _ => hclosed) hload
  have hmode : compiled opts len = saturated len := by rw [compiled, if_pos hsat]
  have hcode := fun s' => saturated_of_idle (rewrites_code opts tree) hload.index s'
  refine ⟨tree, G, hparse, hcompile, ?_, ?_, fun s' => saturated_of_strict hrule hload.index⟩
  · intro r hr
    obtain ⟨out, hanswer, hrun⟩ := (simulation hsetup).halts hmatch hr
    rw [hmode] at hrun
    obtain ⟨s', rfl, hin⟩ := ok_of_saturated hload.index hrun
    obtain ⟨m', rfl, hrel⟩ := hanswer.of_ok
    exact ⟨m', s', rfl, (hcode s').2 hrun, hrel, hin⟩
  · intro s' hs'
    have hrun := (hcode s').1 hs'
    rw [← hmode] at hrun
    obtain ⟨r, hanswer, hr⟩ := (simulation hsetup).halts_back hmatch hrun
    obtain ⟨m', rfl, hrel⟩ := hanswer.of_ok
    exact ⟨m', hr, hrel⟩

theorem code_saturating_loop :
    ∃ tree G, parse true [0x5B, 0x2D, 0x3E, 0x2B, 0x3C, 0x5D] = some tree ∧
      compileText true ⟨false, true, 3⟩ [0x5B, 0x2D, 0x3E, 0x2B, 0x3C, 0x5D] = some G ∧
      (∀ r, Halts (step G) (boot G (zeroState ⟨false, true, 3⟩ [])) r → ∃ m' s', r = some (0, m') ∧
        Runs (saturated 3) (tree.commands straight) (zeroStore []) (.ok s') ∧ Rel 3 s' m' ∧
          Inside 3 s'.index) ∧
      (∀ s', Runs (saturated 3) (tree.commands straight) (zeroStore []) (.ok s') →
        ∃ m', Halts (step G) (boot G (zeroState ⟨false, true, 3⟩ [])) (some (0, m')) ∧ Rel 3 s' m') ∧
      ∀ s', Runs (strict 3) (read [0x5B, 0x2D, 0x3E, 0x2B, 0x3C, 0x5D]) (zeroStore []) (.ok s') →
        Runs (saturated 3) (tree.commands straight) (zeroStore []) (.ok s') :=
  code_saturating ⟨by decide, by decide⟩ (by decide) rfl
    (loaded_zero ⟨false, true, 3⟩ (by decide) (by decide) [])

/-! ## A loop that is left open -/

/-- `[-<<<+>>>` with `n` moves, without its close bracket. -/
def openAddTo (n : Nat) : List U8 :=
  opening :: 0x2D :: (List.replicate n 0x3C ++ 0x2B :: List.replicate n 0x3E)

theorem mergeAll_replicate (checks : Bool) {c : U8} {d : Int} (hop : op? c = some (.leftRight d))
    (hd : d.natAbs ≤ 1) (k : Nat) (ops : List Op) (a : Int) (rest : List U8)
    (h : a.natAbs + k < 2 ^ 31) :
    mergeAll checks (List.replicate k c ++ rest) (ops ++ [.leftRight a]) =
      mergeAll checks rest (ops ++ [.leftRight (a + k * d)]) := by
  induction k generalizing a with
  | zero => simp
  | succ k ih =>
      have hadd : plainI32 checks (a + d) = some (a + d) := plainI32_of_lt checks (by omega)
      have hmerge : tryMerge checks (ops ++ [.leftRight a]) (.leftRight d) =
          some (ops ++ [.leftRight (a + d)]) := by
        simp [tryMerge, hadd]
      rw [List.replicate_succ, List.cons_append, mergeAll, hop]
      simp only [hmerge, Option.bind_some]
      rw [ih _ (by omega), Nat.cast_succ, Int.add_mul, Int.one_mul, Int.add_assoc, Int.add_comm d]

/-- The body of the loop, up to the end of the text. -/
theorem parseLeaf_openAddTo (checks : Bool) {n : Nat} (hn : 0 < n ∧ n < 1024) :
    parseLeaf checks (openAddTo n).tail =
      some ([.incDec (-1), .leftRight (-n), .incDec 1, .leftRight n], []) := by
  obtain ⟨k, rfl⟩ : ∃ k, n = k + 1 := ⟨n - 1, by omega⟩
  have hall : ∀ c ∈ (openAddTo (k + 1)).tail, isBracket c = false := by
    intro c hc
    simp only [openAddTo, List.tail_cons, List.mem_cons, List.mem_append, List.mem_replicate] at hc
    rcases hc with rfl | ⟨-, rfl⟩ | rfl | ⟨-, rfl⟩ <;> decide
  have hmerge : mergeAll checks (openAddTo (k + 1)).tail [] =
      some [.incDec (-1), .leftRight (-(k + 1 : Nat)), .incDec 1, .leftRight (k + 1 : Nat)] := by
    have hleft := mergeAll_replicate checks (c := 0x3C) (d := -1) (by decide) (by decide) k
      [.incDec (-1)] (-1) (0x2B :: List.replicate (k + 1) 0x3E) (by omega)
    have hright := mergeAll_replicate checks (c := 0x3E) (d := 1) (by decide) (by decide) k
      [.incDec (-1), .leftRight (-1 + k * -1), .incDec 1] 1 [] (by omega)
    rw [List.append_nil] at hright
    exact (hleft.trans hright).trans (by simp [mergeAll]; omega)
  rw [parseLeaf, List.takeWhile_eq_self_iff.2 (by simpa using hall), hmerge,
    List.dropWhile_eq_nil_iff.2 (by simpa using hall)]
  rfl

theorem parse_openAddTo (checks : Bool) {n : Nat} (hn : 0 < n ∧ n < 1024) :
    parse checks (openAddTo n) = some (.node [.leaf [.addTo (-n)]]) := by
  have hleaf := parseLeaf_openAddTo checks hn
  have hinner : ∀ fuel, parseInner checks (fuel + 1) (openAddTo n).tail =
      some (.leaf [.incDec (-1), .leftRight (-n), .incDec 1, .leftRight n], []) := by
    intro fuel
    rw [parseInner, hleaf]
    rfl
  have hspecial : isAddTo checks (.loop (.leaf [.incDec (-1), .leftRight (-n), .incDec 1,
      .leftRight n])) = some (some (-(n : Int))) := by
    have hneg : plainI32 checks (-(n : Int)) = some (-(n : Int)) := plainI32_of_lt checks (by omega)
    have habs : plainI32 checks ((-(n : Int)).natAbs) = some (n : Int) := by
      rw [Int.natAbs_neg, Int.natAbs_natCast]
      exact plainI32_of_lt checks (by omega)
    rw [isAddTo, if_neg (by omega), hneg, habs]
    simp only [Option.bind_eq_bind, Option.bind_some, Option.pure_def, if_true]
    rw [if_pos (by omega)]
  -- one round of the loop, and the end of the text
  have hprefix : [opening, 0x2D, closing].isPrefixOf (openAddTo n) = false := by
    obtain ⟨k, rfl⟩ : ∃ k, n = k + 1 := ⟨n - 1, by omega⟩
    rfl
  have hround : ∀ fuel, parseNode checks (parseInner checks (fuel + 1)) (openAddTo n) =
      some (.leaf [.addTo (-n)], []) := by
    intro fuel
    have hloop : parseLoop (parseInner checks (fuel + 1)) (openAddTo n) =
        some (.loop (.leaf [.incDec (-1), .leftRight (-n), .incDec 1, .leftRight n]), []) := by
      have hret := hinner fuel
      rw [openAddTo, List.tail_cons] at hret
      rw [openAddTo, parseLoop, if_pos rfl, hret]
      rfl
    have hnode : parseNode checks (parseInner checks (fuel + 1)) (openAddTo n) =
        (parseLoop (parseInner checks (fuel + 1)) (openAddTo n)).bind (replaceAddTo checks) := by
      rw [openAddTo, parseNode, if_pos rfl, if_neg]
      rw [← openAddTo, hprefix]
      exact Bool.false_ne_true
    rw [hnode, hloop, Option.bind_some, replaceAddTo, hspecial]
    rfl
  have hlength : (openAddTo n).length = n + n + 3 := by
    simp only [openAddTo, List.length_cons, List.length_append, List.length_replicate]
    omega
  rw [parse, hlength, parseInner]
  have hfirst : parseLeaf checks (openAddTo n) = some ([], openAddTo n) := rfl
  rw [hfirst]
  simp only [Option.bind_eq_bind, Option.bind_some]
  rw [if_neg (by rw [openAddTo]; exact Bool.false_ne_true), hlength, parseNodes,
    if_neg (by rw [openAddTo]; exact Bool.false_ne_true), hround]
  rfl

theorem graphOf_entry (panic : BlockId) (calls : List BfCall) :
    graphOf panic calls 0 = some (headCode calls) := by
  rw [graphOf, List.cons_append, List.lookup_cons_self]

theorem compileText_openAddTo (checks : Bool) (hsat : opts.saturating = true)
    (htape : 1 ≤ opts.tapeSize.toNat) {n : Nat} (hn : 0 < n ∧ n < 1024) :
    ∃ panic, compileText checks opts (openAddTo n) =
      some (graphOf panic [.emit (.addTo (BitVec.ofInt 64 (-n))), checkCall panic, .ret 0]) := by
  have hacts : leafActs opts 0 [.addTo (-n)] = [.op (.addTo (-n))] := by
    have hno : ¬ NeedsCheck opts (0 + movementOf opts (.addTo (-n))) := by
      rintro ⟨-, hfalse⟩
      rw [hsat] at hfalse
      cases hfalse
    rw [leafActs, if_neg hno]
    rfl
  have hleaf : ∀ panic, leafCalls checks opts panic 0 [.addTo (-n)] =
      some [.emit (.addTo (BitVec.ofInt 64 (-n)))] := by
    intro panic
    have hfits : Fits opts 0 [.addTo (-n)] := ⟨by simp [Op.size]; omega, fun _ => htape⟩
    rw [leafCalls_spec checks hfits, hacts]
    rfl
  have hcalls : ∀ panic blocks, bodyCalls checks opts panic blocks (.node [.leaf [.addTo (-n)]]) =
      some [.emit (.addTo (BitVec.ofInt 64 (-n))), checkCall panic, .ret 0] := by
    intro panic blocks
    simp only [bodyCalls, visit, visitAll, visitAllCalls, visitCalls, hleaf, List.append_nil,
      Option.map_some, Option.bind_some, List.singleton_append]
  refine ⟨panicId (blockCount (BF.node [.leaf [.addTo (-n)]]).visit), ?_⟩
  rw [compileText, parse_openAddTo checks hn, Option.bind_some]
  simp only [hcalls, Option.map_some]

end Start

end Patchouly.Bf
