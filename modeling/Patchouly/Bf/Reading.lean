import Patchouly.Bf.Meaning
import Mathlib.Data.List.Chain

/-!
# The program of a text

`read` says what a text means, character by character with a stack of open loops: at the end of the text
the open loops are closed, and a close bracket without an open one ends the program. `BF.parse_spec` is
the correctness of the parser: up to 2 ^ 31 characters it returns, and the commands of its tree come from
the program of the text by the replacements of `Rule`.
-/

set_option autoImplicit false

namespace Patchouly.Bf

open Patchouly.Lib BF

/-! ## Reading -/

/-- The loops that are open at the end of the text are closed; each list is what stands before a loop. -/
def closeAll : List (List (Command Act)) → List (Command Act) → List (Command Act)
  | [], done => done
  | outer :: stack, done => closeAll stack (outer ++ [.loop done])

def readFrom : List (List (Command Act)) → List (Command Act) → List U8 → List (Command Act)
  | stack, done, [] => closeAll stack done
  | stack, done, c :: code =>
      if c = opening then readFrom (done :: stack) [] code
      else if c = closing then
        match stack with
        | [] => done
        | outer :: stack => readFrom stack (outer ++ [.loop done]) code
      else readFrom stack (done ++ straight (op? c).toList) code

/-- The program of a text. -/
def read (code : List U8) : List (Command Act) := readFrom [] [] code

/-- The text up to `rest` reads as `cs`. -/
def Reads (code : List U8) (cs : List (Command Act)) (rest : List U8) : Prop :=
  ∀ stack done, readFrom stack done code = readFrom stack (done ++ cs) rest

theorem Reads.refl (code : List U8) : Reads code [] code := by
  intro stack done
  rw [List.append_nil]

theorem Reads.append {code mid rest : List U8} {cs ds : List (Command Act)} (h : Reads code cs mid)
    (h' : Reads mid ds rest) : Reads code (cs ++ ds) rest := by
  intro stack done
  rw [h, h', List.append_assoc]

theorem reads_of_not_isBracket {c : U8} (h : isBracket c = false) (rest : List U8) :
    Reads (c :: rest) (straight (op? c).toList) rest := by
  intro stack done
  simp only [isBracket, Bool.or_eq_false_iff, beq_eq_false_iff_ne] at h
  simp only [readFrom, if_neg h.1, if_neg h.2]

/-- A loop, closed by its bracket or by the end of the text. -/
theorem Reads.loop {code rest : List U8} {body : List (Command Act)} (h : Reads code body rest)
    (hrest : rest = [] ∨ rest.head? = some closing) :
    Reads (opening :: code) [.loop body] rest.tail := by
  intro stack done
  simp only [readFrom, if_pos]
  rw [h, List.nil_append]
  rcases hrest with rfl | hhead
  · rfl
  · cases rest with
    | nil => cases hhead
    | cons c rest =>
        obtain rfl := Option.some.inj hhead
        have hne : closing ≠ opening := by decide
        simp only [readFrom, if_neg hne, if_pos, List.tail_cons]

/-- A stretch without brackets. -/
theorem reads_takeWhile (code : List U8) :
    Reads code (straight ((code.takeWhile fun c => !isBracket c).filterMap op?))
      (code.dropWhile fun c => !isBracket c) := by
  induction code with
  | nil => exact .refl []
  | cons c rest ih =>
      cases hc : isBracket c with
      | true =>
          rw [List.takeWhile_cons_of_neg (by simp [hc]), List.dropWhile_cons_of_neg (by simp [hc])]
          exact .refl _
      | false =>
          rw [List.takeWhile_cons_of_pos (by simp [hc]), List.dropWhile_cons_of_pos (by simp [hc])]
          have happend := (reads_of_not_isBracket hc rest).append ih
          cases hop : op? c with
          | none =>
              rw [List.filterMap_cons_none hop]
              simpa [hop] using happend
          | some op =>
              rw [List.filterMap_cons_some hop]
              simpa [hop] using happend

/-! ## Open loops -/

/-- The loops that are open at the end of the text, after `d` open ones. -/
def openLoops : Nat → List U8 → Nat
  | d, [] => d
  | d, c :: code =>
      if c = opening then openLoops (d + 1) code
      else if c = closing then
        match d with
        | 0 => 0
        | d + 1 => openLoops d code
      else openLoops d code

/-- The text up to `rest` leaves `k` loops open, which only its end does. -/
structure Leaves (code : List U8) (k : Nat) (rest : List U8) : Prop where
  count : ∀ d, openLoops d code = openLoops (d + k) rest
  atEnd : k ≠ 0 → rest = []

theorem Leaves.refl (code : List U8) : Leaves code 0 code := ⟨fun _ => rfl, fun h => absurd rfl h⟩

theorem Leaves.trans {code mid rest : List U8} {k k' : Nat} (h : Leaves code k mid)
    (h' : Leaves mid k' rest) (hend : mid = [] → rest = []) : Leaves code (k + k') rest where
  count d := by rw [h.count, h'.count, Nat.add_assoc]
  atEnd hne := by
    by_cases hk : k = 0
    · exact h'.atEnd (by omega)
    · exact hend (h.atEnd hk)

theorem Leaves.loop {code rest : List U8} {k : Nat} (h : Leaves code k rest)
    (hrest : rest = [] ∨ rest.head? = some closing) :
    Leaves (opening :: code) (if rest = [] then k + 1 else 0) rest.tail := by
  have hopen : ∀ d, openLoops d (opening :: code) = openLoops (d + 1 + k) rest := by
    intro d
    simp only [openLoops, if_pos]
    exact h.count (d + 1)
  cases rest with
  | nil =>
      refine ⟨fun d => ?_, fun _ => rfl⟩
      rw [hopen]
      simp only [openLoops, if_pos, List.tail_nil]
      omega
  | cons c rest =>
      obtain rfl : c = closing := by simpa using hrest
      obtain rfl : k = 0 := by
        by_contra hk
        exact absurd (h.atEnd hk) (List.cons_ne_nil _ _)
      have hne : closing ≠ opening := by decide
      refine ⟨fun d => ?_, fun hk => by simp at hk⟩
      rw [hopen]
      simp [openLoops, hne]

theorem leaves_dropWhile (code : List U8) : Leaves code 0 (code.dropWhile fun c => !isBracket c) := by
  induction code with
  | nil => exact .refl []
  | cons c rest ih =>
      cases hc : isBracket c with
      | true =>
          rw [List.dropWhile_cons_of_neg (by simp [hc])]
          exact .refl _
      | false =>
          rw [List.dropWhile_cons_of_pos (by simp [hc])]
          simp only [isBracket, Bool.or_eq_false_iff, beq_eq_false_iff_ne] at hc
          refine ⟨fun d => ?_, fun h => absurd rfl h⟩
          simp only [openLoops, if_neg hc.1, if_neg hc.2]
          exact ih.count d

/-! ## Leaves -/

/-- The number in an operation, without its sign. -/
def Op.size : Op → Nat
  | .incDec n | .leftRight n | .addTo n => n.natAbs
  | _ => 0

def Op.isAddTo : Op → Bool
  | .addTo _ => true
  | _ => false

namespace BF

theorem op?_spec {c : U8} {op : Op} (h : op? c = some op) : op.size ≤ 1 ∧ op.isAddTo = false := by
  rw [op?] at h
  split at h
  all_goals first
    | (obtain rfl := Option.some.inj h; decide)
    | cases h

def NoAddTo (ops : List Op) : Prop := ∀ op ∈ ops, op.isAddTo = false

def weight (ops : List Op) : Nat := (ops.map Op.size).sum

@[simp] theorem weight_nil : weight [] = 0 := rfl

@[simp] theorem weight_cons (op : Op) (ops : List Op) : weight (op :: ops) = op.size + weight ops := by
  rw [weight, List.map_cons, List.sum_cons, weight]

@[simp] theorem weight_append (ops ops' : List Op) : weight (ops ++ ops') = weight ops + weight ops' := by
  rw [weight, List.map_append, List.sum_append, weight, weight]

theorem noAddTo_append {ops ops' : List Op} : NoAddTo (ops ++ ops') ↔ NoAddTo ops ∧ NoAddTo ops' :=
  List.forall_mem_append

theorem noAddTo_singleton {op : Op} : NoAddTo [op] ↔ op.isAddTo = false := List.forall_mem_singleton

theorem tryMerge_spec (checks : Bool) {ops : List Op} {op : Op} (hops : NoAddTo ops)
    (hop : op.size ≤ 1 ∧ op.isAddTo = false) (hm : weight ops + 1 < 2 ^ 31) :
    ∃ ops', tryMerge checks ops op = some ops' ∧ weight ops' ≤ weight ops + 1 ∧ NoAddTo ops' ∧
      Rewrites Rule (straight (ops ++ [op])) (straight ops') := by
  unfold tryMerge
  split
  · next a b hlast =>
    obtain ⟨init, rfl⟩ := List.getLast?_eq_some_iff.1 hlast
    simp only [weight_append, weight_cons, weight_nil, Op.size] at hm hop ⊢
    have hret : plainI32 checks (a + b) = some (a + b) := plainI32_of_lt checks (by omega)
    refine ⟨init ++ [.incDec (a + b)], by rw [hret, Option.map_some, List.dropLast_concat], ?_, ?_, ?_⟩
    · simp only [weight_append, weight_cons, weight_nil, Op.size]
      omega
    · exact noAddTo_append.2 ⟨(noAddTo_append.1 hops).1, noAddTo_singleton.2 rfl⟩
    · simp only [List.map_append, List.append_assoc]
      exact (Rewrites.rule (.incDec a b)).append_left _
  · next a b hlast =>
    obtain ⟨init, rfl⟩ := List.getLast?_eq_some_iff.1 hlast
    simp only [weight_append, weight_cons, weight_nil, Op.size] at hm hop ⊢
    have hret : plainI32 checks (a + b) = some (a + b) := plainI32_of_lt checks (by omega)
    refine ⟨init ++ [.leftRight (a + b)], by rw [hret, Option.map_some, List.dropLast_concat], ?_, ?_,
      ?_⟩
    · simp only [weight_append, weight_cons, weight_nil, Op.size]
      omega
    · exact noAddTo_append.2 ⟨(noAddTo_append.1 hops).1, noAddTo_singleton.2 rfl⟩
    · simp only [List.map_append, List.append_assoc]
      exact (Rewrites.rule (.leftRight a b)).append_left _
  · refine ⟨_, rfl, ?_, noAddTo_append.2 ⟨hops, noAddTo_singleton.2 hop.2⟩, .refl _⟩
    simp only [weight_append, weight_cons, weight_nil]
    omega

theorem mergeAll_spec (checks : Bool) (chars : List U8) (ops : List Op) (hops : NoAddTo ops)
    (hm : weight ops + chars.length < 2 ^ 31) :
    ∃ ops', mergeAll checks chars ops = some ops' ∧ weight ops' ≤ weight ops + chars.length ∧
      NoAddTo ops' ∧ Rewrites Rule (straight (ops ++ chars.filterMap op?)) (straight ops') := by
  induction chars generalizing ops with
  | nil => exact ⟨ops, rfl, Nat.le_refl _, hops, by simpa using Rewrites.refl _⟩
  | cons c rest ih =>
      rw [List.length_cons] at hm ⊢
      cases hop : op? c with
      | none =>
          obtain ⟨ops', hret, hweight, hno, hrule⟩ := ih _ hops (by omega)
          refine ⟨ops', by simp only [mergeAll, hop, hret], by omega, hno, ?_⟩
          rw [List.filterMap_cons_none hop]
          exact hrule
      | some op =>
          obtain ⟨merged, hmerge, hweight, hno, hrule⟩ :=
            tryMerge_spec checks hops (op?_spec hop) (by omega)
          obtain ⟨ops', hret, hweight', hno', hrule'⟩ := ih _ hno (by omega)
          refine ⟨ops', by simp only [mergeAll, hop, hmerge, Option.bind_some, hret], by omega, hno', ?_⟩
          refine .trans ?_ hrule'
          rw [List.filterMap_cons_some hop, List.append_cons]
          simp only [List.map_append]
          exact Rewrites.append_right _ (by simpa using hrule)

theorem parseLeaf_spec (checks : Bool) {code : List U8} (hcode : code.length < 2 ^ 31) :
    ∃ ops rest cs, parseLeaf checks code = some (ops, rest) ∧
      rest = code.dropWhile (fun c => !isBracket c) ∧ weight ops + rest.length ≤ code.length ∧
        NoAddTo ops ∧ Reads code cs rest ∧ Rewrites Rule cs (straight ops) := by
  have hlength : (code.takeWhile fun c => !isBracket c).length +
      (code.dropWhile fun c => !isBracket c).length = code.length := by
    rw [← List.length_append, List.takeWhile_append_dropWhile]
  obtain ⟨ops, hret, hweight, hno, hrule⟩ :=
    mergeAll_spec checks (code.takeWhile fun c => !isBracket c) []
      (fun o ho => by cases ho) (by rw [weight_nil]; omega)
  rw [weight_nil] at hweight
  exact ⟨ops, _, _, by rw [parseLeaf, hret]; rfl, rfl, by omega, hno, reads_takeWhile code, hrule⟩

/-! ## Trees -/

def isLeaf : BF → Bool
  | .leaf _ => true
  | _ => false

def isNode : BF → Bool
  | .node _ => true
  | _ => false

mutual

/-- The operations of a tree, in order. -/
def ops : BF → List Op
  | .leaf ops => ops
  | .node nodes => opsAll nodes
  | .loop body => ops body

def opsAll : List BF → List Op
  | [] => []
  | first :: nodes => ops first ++ opsAll nodes

end

theorem opsAll_append (nodes nodes' : List BF) :
    opsAll (nodes ++ nodes') = opsAll nodes ++ opsAll nodes' := by
  induction nodes with
  | nil => rfl
  | cons first rest ih => simp only [List.cons_append, opsAll, ih, List.append_assoc]

mutual

/-- The number of loops. -/
def loops : BF → Nat
  | .leaf _ => 0
  | .node nodes => loopsAll nodes
  | .loop body => loops body + 1

def loopsAll : List BF → Nat
  | [] => 0
  | first :: nodes => loops first + loopsAll nodes

end

theorem loopsAll_append (nodes nodes' : List BF) :
    loopsAll (nodes ++ nodes') = loopsAll nodes + loopsAll nodes' := by
  induction nodes with
  | nil => exact (Nat.zero_add _).symm
  | cons first rest ih => simp only [List.cons_append, loopsAll, ih, Nat.add_assoc]

/-- A leaf of the parser: only its last operation adds cells. -/
structure LeafOk (ops : List Op) : Prop where
  offset : ∀ n, .addTo n ∈ ops → n ≠ 0 ∧ n.natAbs < 1024
  last : NoAddTo ops.dropLast

/-- A tree of the parser: leaves alternate with loops. -/
inductive Tidy : BF → Prop
  | leaf {ops : List Op} (h : LeafOk ops) : Tidy (.leaf ops)
  | node {nodes : List BF} (h : ∀ n ∈ nodes, Tidy n) (hn : ∀ n ∈ nodes, n.isNode = false)
      (hchain : nodes.IsChain fun a b => (a.isLeaf && b.isLeaf) = false) : Tidy (.node nodes)
  | loop {body : BF} (h : Tidy body) : Tidy (.loop body)

/-- Only the last operation adds cells, and only behind a loop that is left open. -/
def AddToLast (k : Nat) (ops : List Op) : Prop := NoAddTo ops ∨ k ≠ 0 ∧ NoAddTo ops.dropLast

theorem AddToLast.append {k : Nat} {ops ops' : List Op} (h : NoAddTo ops) (h' : AddToLast k ops') :
    AddToLast k (ops ++ ops') := by
  rcases h' with h' | ⟨hk, h'⟩
  · exact Or.inl (noAddTo_append.2 ⟨h, h'⟩)
  · refine Or.inr ⟨hk, ?_⟩
    intro op hop
    cases hnil : ops' with
    | nil =>
        rw [hnil, List.append_nil] at hop
        exact h op (List.dropLast_subset _ hop)
    | cons first more =>
        rw [List.dropLast_append_of_ne_nil (by rw [hnil]; exact List.cons_ne_nil _ _)] at hop
        exact (List.mem_append.1 hop).elim (h op) (h' op)

theorem AddToLast.noAddTo {code rest : List U8} {k : Nat} {ops : List Op} (h : AddToLast k ops)
    (hleaves : Leaves code k rest) (hrest : rest ≠ []) : NoAddTo ops :=
  h.elim id fun h' => absurd (hleaves.atEnd h'.1) hrest

theorem NoAddTo.leafOk {ops : List Op} (h : NoAddTo ops) : LeafOk ops where
  offset n hn := by
    have hadd := h _ hn
    cases hadd
  last := fun op hop => h op (List.dropLast_subset _ hop)

theorem LeafOk.append {ops ops' : List Op} (hno : NoAddTo ops) (h : LeafOk ops') :
    LeafOk (ops ++ ops') where
  offset n hn := (List.mem_append.1 hn).elim (hno.leafOk.offset n) (h.offset n)
  last := by
    rcases AddToLast.append (k := 1) hno (Or.inr ⟨Nat.one_ne_zero, h.last⟩) with hall | ⟨-, hlast⟩
    · exact fun op hop => hall op (List.dropLast_subset _ hop)
    · exact hlast

/-! ## Nodes -/

/-- What the rounds of `parse_inner` have made so far. -/
structure NodesOk (nodes : List BF) : Prop where
  tidy : ∀ n ∈ nodes, n.Tidy
  plain : ∀ n ∈ nodes, n.isNode = false
  chain : nodes.IsChain fun a b => (a.isLeaf && b.isLeaf) = false

/-- One more node: the commands and the operations are appended, and the leaves stay apart. -/
theorem pushNode_spec {nodes : List BF} {next : BF} (h : NodesOk nodes) (hno : NoAddTo (opsAll nodes))
    (htidy : next.Tidy) (hnext : next.isNode = false) :
    NodesOk (pushNode nodes next) ∧
      commandsAll straight (pushNode nodes next) =
        commandsAll straight nodes ++ next.commands straight ∧
      opsAll (pushNode nodes next) = opsAll nodes ++ next.ops ∧
      loopsAll (pushNode nodes next) = loopsAll nodes + next.loops := by
  unfold pushNode
  split
  · next before added hlast =>
    -- a leaf behind a leaf
    obtain ⟨init, rfl⟩ := List.getLast?_eq_some_iff.1 hlast
    rw [List.dropLast_concat]
    have hadded : LeafOk added := by
      cases htidy with
      | leaf hleaf => exact hleaf
    have hclean : NoAddTo before := by
      rw [opsAll_append] at hno
      exact fun op hop => hno op (List.mem_append_right _ (by simpa [opsAll, ops] using hop))
    refine ⟨⟨?_, ?_, ?_⟩, ?_, ?_, ?_⟩
    · intro n hn
      rcases List.mem_append.1 hn with hn | hn
      · exact h.tidy n (List.mem_append_left _ hn)
      · obtain rfl := List.mem_singleton.1 hn
        exact .leaf (.append hclean hadded)
    · intro n hn
      rcases List.mem_append.1 hn with hn | hn
      · exact h.plain n (List.mem_append_left _ hn)
      · obtain rfl := List.mem_singleton.1 hn
        rfl
    · obtain ⟨hinit, -, hlink⟩ := List.isChain_append.1 h.chain
      apply hinit.append (List.isChain_singleton _)
      intro a ha b hb
      obtain rfl := Option.some.inj hb
      exact hlink a ha (.leaf before) rfl
    · simp only [commandsAll_append, commandsAll, commands, List.map_append, List.append_nil,
        List.append_assoc]
    · simp only [opsAll_append, opsAll, ops, List.append_nil, List.append_assoc]
    · simp only [loopsAll_append, loopsAll, loops]
  · next n _ _ hcase =>
    refine ⟨⟨?_, ?_, ?_⟩, ?_, ?_, ?_⟩
    · exact List.forall_mem_append.2 ⟨h.tidy, List.forall_mem_singleton.2 htidy⟩
    · exact List.forall_mem_append.2 ⟨h.plain, List.forall_mem_singleton.2 hnext⟩
    · apply h.chain.append (List.isChain_singleton _)
      intro a ha b hb
      obtain rfl := Option.some.inj hb
      cases a with
      | leaf before =>
          cases n with
          | leaf added => exact absurd rfl (hcase before added ha)
          | node nodes => rfl
          | loop body => rfl
      | node nodes => rfl
      | loop body => rfl
    · simp only [commandsAll_append, commandsAll, List.append_nil]
    · simp only [opsAll_append, opsAll, List.append_nil]
    · simp only [loopsAll_append, loopsAll, Nat.add_zero]

/-! ## The parser -/

/-- What `parse_inner` makes of the text up to `rest`. -/
structure Parsed (code : List U8) (tree : BF) (rest : List U8) : Prop where
  reads : ∃ cs, Reads code cs rest ∧ Rewrites Rule cs (tree.commands straight)
  stops : rest = [] ∨ rest.head? = some closing
  weight : weight tree.ops + rest.length ≤ code.length
  loops : tree.loops + rest.count opening ≤ code.count opening
  tidy : tree.Tidy
  addTo : ∃ k, Leaves code k rest ∧ AddToLast k tree.ops
  leafAtEnd : tree.isLeaf = true → rest = []

/-- One round of the loop. -/
structure ParsedNode (code : List U8) (tree : BF) (rest : List U8) : Prop where
  reads : ∃ cs, Reads code cs rest ∧ Rewrites Rule cs (tree.commands straight)
  weight : weight tree.ops + rest.length ≤ code.length
  loops : tree.loops + rest.count opening ≤ code.count opening
  length : rest.length < code.length
  tidy : tree.Tidy
  plain : tree.isNode = false
  addTo : ∃ k, Leaves code k rest ∧ AddToLast k tree.ops

/-- **The special case** is a leaf in a loop, so its loop was left open at the end of the text. -/
theorem isAddTo_spec (checks : Bool) (body : BF) (h : weight body.ops < 2 ^ 31) :
    ∃ r, isAddTo checks (.loop body) = some r ∧ ∀ l, r = some l →
      body = .leaf [.incDec (-1), .leftRight l, .incDec 1, .leftRight (-l)] ∧ l ≠ 0 ∧
        l.natAbs < 1024 := by
  unfold isAddTo
  split
  · next tree l r hbody =>
    obtain rfl := loop.inj hbody
    simp only [BF.ops, weight_cons, weight_nil, Op.size] at h
    have hneg : plainI32 checks (-r) = some (-r) := plainI32_of_lt checks (by omega)
    have habs : plainI32 checks l.natAbs = some (l.natAbs : Int) :=
      plainI32_of_lt checks (by omega)
    simp only [hneg, habs, Option.bind_eq_bind, Option.bind_some, Option.pure_def]
    split
    · exact ⟨none, rfl, fun _ hn => by cases hn⟩
    · next hne =>
      split
      · next hopp =>
        refine ⟨_, rfl, ?_⟩
        intro n hn
        split at hn
        · next hsize =>
          obtain rfl := Option.some.inj hn
          obtain rfl : r = -l := by omega
          exact ⟨rfl, hne, by omega⟩
        · cases hn
      · exact ⟨none, rfl, fun _ hn => by cases hn⟩
  · exact ⟨none, rfl, fun _ hn => by cases hn⟩

/-- A loop and what it is replaced by. -/
theorem parsed_loop (checks : Bool) {code : List U8} {parseInner : List U8 → Option (BF × List U8)}
    (hcode : code.length < 2 ^ 31)
    (hinner : ∃ tree rest, parseInner code = some (tree, rest) ∧ Parsed code tree rest) :
    ∃ tree rest, (parseLoop parseInner (opening :: code)).bind (replaceAddTo checks) =
      some (tree, rest) ∧ ParsedNode (opening :: code) tree rest := by
  obtain ⟨body, rest, hret, hp⟩ := hinner
  obtain ⟨cs, hreads, hrule⟩ := hp.reads
  have hloop : parseLoop parseInner (opening :: code) = some (.loop body, rest.tail) := by
    simp only [parseLoop, if_pos, hret, Option.map_some]
  have hweight := hp.weight
  have hloops := hp.loops
  have hcount : rest.tail.count opening ≤ rest.count opening :=
    (List.tail_sublist rest).count_le opening
  have htail : rest.tail.length ≤ rest.length := by
    rw [List.length_tail]
    omega
  have hlength : rest.tail.length < (opening :: code).length := by
    rw [List.length_cons]
    omega
  have hreads' := hreads.loop hp.stops
  obtain ⟨k, hleaves, hadd⟩ := hp.addTo
  have hleaves' := hleaves.loop hp.stops
  obtain ⟨r, hr, hspec⟩ := isAddTo_spec checks body (by omega)
  rw [hloop, Option.bind_some, replaceAddTo, hr, Option.map_some]
  cases r with
  | none =>
      refine ⟨_, _, rfl, ⟨_, hreads', hrule.loop⟩, ?_, ?_, hlength, .loop hp.tidy, rfl, _,
        hleaves', ?_⟩
      · rw [BF.ops, List.length_cons]
        omega
      · rw [BF.loops, List.count_cons_self]
        omega
      · rcases hadd with hno | ⟨hk, hlast⟩
        · exact Or.inl hno
        · rw [if_pos (hleaves.atEnd hk)]
          exact Or.inr ⟨Nat.succ_ne_zero k, hlast⟩
  | some n =>
      obtain ⟨rfl, hne, hlt⟩ := hspec n rfl
      have hrest := hp.leafAtEnd rfl
      refine ⟨_, _, rfl, ⟨_, hreads', hrule.loop.trans (.rule (.addTo hne))⟩, ?_, ?_, hlength,
        .leaf ⟨?_, ?_⟩, rfl, _, hleaves', Or.inr ⟨by rw [if_pos hrest]; exact Nat.succ_ne_zero k, ?_⟩⟩
      · simp only [BF.ops, weight_cons, weight_nil, Op.size] at hweight ⊢
        rw [List.length_cons]
        omega
      · simp only [BF.loops, List.count_cons_self] at hloops ⊢
        omega
      · intro m hm
        obtain rfl := Op.addTo.inj (List.mem_singleton.1 hm)
        exact ⟨hne, hlt⟩
      · intro op hop
        cases hop
      · intro op hop
        cases hop

/-- **One round** in front of anything but a close bracket. -/
theorem parseNode_spec (checks : Bool) {code : List U8}
    {parseInner : List U8 → Option (BF × List U8)} (hne : code ≠ [])
    (hhead : code.head? ≠ some closing) (hcode : code.length < 2 ^ 31)
    (hinner : ∀ code', code'.length < code.length →
      ∃ tree rest, parseInner code' = some (tree, rest) ∧ Parsed code' tree rest) :
    ∃ tree rest, parseNode checks parseInner code = some (tree, rest) ∧ ParsedNode code tree rest := by
  cases code with
  | nil => exact absurd rfl hne
  | cons c code =>
      by_cases hopen : c = opening
      · subst hopen
        simp only [parseNode, if_pos]
        split
        · next hprefix =>
          -- `[-]`
          obtain ⟨rest, hrest⟩ := List.isPrefixOf_iff_prefix.1 hprefix
          obtain rfl : [0x2D, closing] ++ rest = code := (List.cons.inj hrest).2
          refine ⟨_, _, rfl, ⟨_, ?_, .rule .zero⟩, ?_, ?_, ?_, .leaf ⟨?_, ?_⟩, rfl, 0, ?_,
            Or.inl ?_⟩
          · have hminus : Reads ([0x2D, closing] ++ rest) (straight [.incDec (-1)]) (closing :: rest) :=
              reads_of_not_isBracket (c := 0x2D) (by decide) _
            exact hminus.loop (Or.inr rfl)
          · simp only [BF.ops, weight_cons, weight_nil, Op.size, List.length_drop, List.length_cons,
              List.length_append, List.length_nil]
            omega
          · rw [BF.loops, Nat.zero_add]
            exact (List.drop_sublist 3 _).count_le opening
          · simp only [List.length_drop, List.length_cons, List.length_append, List.length_nil]
            omega
          · intro n hn
            cases List.mem_singleton.1 hn
          · intro op hop
            cases hop
          · have hminus : Leaves ([0x2D, closing] ++ rest) 0 (closing :: rest) :=
              ⟨fun _ => rfl, fun h => absurd rfl h⟩
            exact hminus.loop (Or.inr rfl)
          · intro op hop
            obtain rfl := List.mem_singleton.1 hop
            rfl
        · exact parsed_loop checks (by rw [List.length_cons] at hcode; omega)
            (hinner code (Nat.lt_succ_self _))
      · have hclose : c ≠ closing := fun h => hhead (congrArg some h)
        have hbracket : isBracket c = false := by simp [isBracket, hopen, hclose]
        obtain ⟨ops, rest, cs, hret, hrest, hweight, hno, hreads, hrule⟩ := parseLeaf_spec checks hcode
        refine ⟨.leaf ops, rest, by simp only [parseNode, if_neg hopen, hret, Option.map_some],
          ⟨cs, hreads, by simpa only [commands] using hrule⟩, hweight, ?_, ?_, .leaf hno.leafOk, rfl, 0,
          by rw [hrest]; exact leaves_dropWhile _, Or.inl hno⟩
        · rw [BF.loops, Nat.zero_add, hrest]
          exact (List.dropWhile_sublist _).count_le opening
        · rw [hrest, List.dropWhile_cons_of_pos (by simp [hbracket]), List.length_cons]
          exact Nat.lt_succ_of_le (List.dropWhile_suffix _).length_le

/-- **The rounds.** What they add is read from the text, up to a close bracket or the end. -/
theorem parseNodes_spec (checks : Bool) (parseInner : List U8 → Option (BF × List U8)) {fuel : Nat}
    {nodes : List BF} {code : List U8} (hcode : code.length < 2 ^ 31) (hfuel : code.length < fuel)
    (hinner : ∀ code', code'.length < code.length →
      ∃ tree rest, parseInner code' = some (tree, rest) ∧ Parsed code' tree rest)
    (hnodes : NodesOk nodes) (hno : code ≠ [] → NoAddTo (opsAll nodes)) :
    ∃ nodes' rest cs added ops, parseNodes checks parseInner fuel nodes code = some (nodes', rest) ∧
      (rest = [] ∨ rest.head? = some closing) ∧ weight ops + rest.length ≤ code.length ∧
        NodesOk nodes' ∧ Reads code cs rest ∧ Rewrites Rule cs added ∧
          commandsAll straight nodes' = commandsAll straight nodes ++ added ∧
            opsAll nodes' = opsAll nodes ++ ops ∧
              loopsAll nodes' + rest.count opening ≤ loopsAll nodes + code.count opening ∧
                (∃ k, Leaves code k rest ∧ AddToLast k ops) ∧ (code = [] → ops = []) := by
  induction fuel generalizing nodes code with
  | zero => exact absurd hfuel (Nat.not_lt_zero _)
  | succ fuel ih =>
      by_cases hstop : code = [] ∨ code.head? = some closing
      · have hret : parseNodes checks parseInner (fuel + 1) nodes code = some (nodes, code) := by
          rw [parseNodes, if_pos]
          rcases hstop with rfl | hhead
          · rfl
          · simp [hhead]
        have hnone : AddToLast 0 [] := Or.inl fun op hop => by cases hop
        exact ⟨nodes, code, [], [], [], hret, hstop, by simp, hnodes, .refl code, .refl [],
          (List.append_nil _).symm, (List.append_nil _).symm, Nat.le_refl _, ⟨0, .refl code, hnone⟩,
          fun _ => rfl⟩
      · obtain ⟨hne, hhead⟩ := not_or.1 hstop
        obtain ⟨tree, mid, hret, hp⟩ := parseNode_spec checks hne hhead hcode hinner
        obtain ⟨cs, hreads, hrule⟩ := hp.reads
        obtain ⟨hpush, hcommands, hops, hpushed⟩ := pushNode_spec hnodes (hno hne) hp.tidy hp.plain
        have hlength := hp.length
        have hweight := hp.weight
        have hloops := hp.loops
        obtain ⟨k, hleaves, hadd⟩ := hp.addTo
        -- another round needs more text, and then no operation so far adds cells
        have hno' : mid ≠ [] → NoAddTo (opsAll (pushNode nodes tree)) := by
          intro hmid
          rw [hops]
          exact noAddTo_append.2 ⟨hno hne, hadd.noAddTo hleaves hmid⟩
        obtain ⟨nodes', rest, cs', added, ops', hret', hstops, hle, hnodes', hreads', hrule',
            hcommands', hops', hloops', ⟨k', hleaves', hadd'⟩, hdone⟩ :=
          ih (show mid.length < 2 ^ 31 by omega) (by omega) (fun code' h => hinner code' (by omega)) hpush hno'
        refine ⟨nodes', rest, cs ++ cs', tree.commands straight ++ added, tree.ops ++ ops', ?_, hstops,
          by rw [weight_append]; omega, hnodes', hreads.append hreads', hrule.append hrule', ?_, ?_,
          by omega, ?_, fun h => absurd h hne⟩
        · rw [parseNodes, if_neg (by simp [hne, hhead])]
          simp only [hret, Option.bind_eq_bind, Option.bind_some, hret']
        · rw [hcommands', hcommands, List.append_assoc]
        · rw [hops', hops, List.append_assoc]
        · refine ⟨k + k', hleaves.trans hleaves' ?_, ?_⟩
          · rintro rfl
            rw [List.length_nil] at hle
            exact List.length_eq_zero_iff.1 (by omega)
          · rcases hadd with hclean | ⟨hk, hlast⟩
            · rcases hadd' with hclean' | ⟨hk', hlast'⟩
              · exact Or.inl (noAddTo_append.2 ⟨hclean, hclean'⟩)
              · exact .append hclean (Or.inr ⟨by omega, hlast'⟩)
            · -- this round reached the end of the text, so the next one adds nothing
              obtain rfl := hdone (hleaves.atEnd hk)
              rw [List.append_nil]
              exact Or.inr ⟨by omega, hlast⟩

/-- **`parse_inner`** returns, and reads the text up to a close bracket or the end. -/
theorem parseInner_spec (checks : Bool) {fuel : Nat} {code : List U8} (hcode : code.length < 2 ^ 31)
    (hfuel : code.length < fuel) :
    ∃ tree rest, parseInner checks fuel code = some (tree, rest) ∧ Parsed code tree rest := by
  induction fuel generalizing code with
  | zero => exact absurd hfuel (Nat.not_lt_zero _)
  | succ fuel ih =>
      obtain ⟨ops, mid, cs, hret, hmid, hweight, hno, hreads, hrule⟩ := parseLeaf_spec checks hcode
      have hleaves : Leaves code 0 mid := by
        rw [hmid]
        exact leaves_dropWhile code
      rw [parseInner, hret]
      simp only [Option.bind_eq_bind, Option.bind_some]
      cases mid with
      | nil =>
          exact ⟨_, _, rfl, ⟨cs, hreads, by simpa only [commands] using hrule⟩, Or.inl rfl, hweight,
            Nat.zero_le _, .leaf hno.leafOk, ⟨0, hleaves, Or.inl hno⟩, fun _ => rfl⟩
      | cons c mid =>
          have hfirst : NodesOk [.leaf ops] := by
            refine ⟨?_, ?_, List.isChain_singleton _⟩
            · intro n hn
              obtain rfl := List.mem_singleton.1 hn
              exact .leaf hno.leafOk
            · intro n hn
              obtain rfl := List.mem_singleton.1 hn
              rfl
          have hclean : NoAddTo (opsAll [.leaf ops]) := by
            simpa [opsAll, BF.ops] using hno
          obtain ⟨nodes, rest, cs', added, ops', hret', hstops, hlength, hnodes, hreads', hrule',
              hcommands, hops, hloops, ⟨k, hleaves', hadd⟩, -⟩ :=
            parseNodes_spec checks (parseInner checks fuel) (show (c :: mid).length < 2 ^ 31 by omega)
              (Nat.lt_succ_self _) (fun code' h => ih (by omega) (by omega)) hfirst
              (fun _ => hclean)
          have hcount : (c :: mid).count opening ≤ code.count opening := by
            rw [hmid]
            exact (List.dropWhile_sublist _).count_le opening
          refine ⟨.node nodes, rest, ?_, ⟨cs ++ cs', hreads.append hreads', ?_⟩, hstops, ?_, ?_,
            .node hnodes.tidy hnodes.plain hnodes.chain, ?_, fun h => by cases h⟩
          · simp only [List.isEmpty_cons, Bool.false_eq_true, if_false, hret', Option.bind_some,
              Option.pure_def]
          · rw [commands, hcommands, commandsAll, commandsAll, commands, List.append_nil]
            exact hrule.append hrule'
          · rw [BF.ops, hops, weight_append]
            simp only [opsAll, BF.ops, List.append_nil]
            omega
          · rw [BF.loops]
            simp only [loopsAll, BF.loops] at hloops
            omega
          · refine ⟨0 + k, hleaves.trans hleaves' (fun h => absurd h (List.cons_ne_nil _ _)), ?_⟩
            rw [BF.ops, hops, Nat.zero_add]
            exact .append hclean hadd

/-- **The parser is correct.** Up to 2 ^ 31 characters it returns a tree, and the program of the tree is a
rewriting of the program of the text. -/
theorem parse_spec (checks : Bool) {code : List U8} (hcode : code.length < 2 ^ 31) :
    ∃ tree, parse checks code = some tree ∧
      Rewrites Rule (read code) (tree.commands straight) ∧ tree.Tidy ∧ weight tree.ops ≤ code.length ∧
        tree.loops ≤ code.count opening ∧
          NoAddTo tree.ops.dropLast ∧ (openLoops 0 code = 0 → NoAddTo tree.ops) := by
  obtain ⟨tree, rest, hret, hp⟩ := parseInner_spec checks hcode (Nat.lt_succ_self _)
  obtain ⟨cs, hreads, hrule⟩ := hp.reads
  have hweight := hp.weight
  have hloops := hp.loops
  refine ⟨tree, by rw [parse, hret]; rfl, ?_, hp.tidy, by omega, by omega, ?_⟩
  · -- what is left over begins with a close bracket that nothing opened
    have hread : read code = cs := by
      rw [read, hreads, List.nil_append]
      rcases hp.stops with rfl | hhead
      · rfl
      · cases rest with
        | nil => rfl
        | cons c rest =>
            obtain rfl := Option.some.inj hhead
            have hne : closing ≠ opening := by decide
            simp only [readFrom, if_neg hne, if_pos]
    rw [hread]
    exact hrule
  · obtain ⟨k, hleaves, hadd⟩ := hp.addTo
    rcases hadd with hno | ⟨hk, hlast⟩
    · exact ⟨fun op hop => hno op (List.dropLast_subset _ hop), fun _ => hno⟩
    · refine ⟨hlast, fun hclosed => ?_⟩
      rw [hleaves.count, hleaves.atEnd hk, openLoops, Nat.zero_add] at hclosed
      exact absurd hclosed hk

/-- **The parser keeps the meaning.** Without bounds the text and its tree have the same outcomes. On a tape
with bounds a text that ends has the same end as its tree, and a tree that stops has a text that stops. -/
theorem parse_meaning (checks : Bool) {code : List U8} (hcode : code.length < 2 ^ 31) :
    ∃ tree, parse checks code = some tree ∧
      (∀ s out, Runs plain (read code) s out ↔ Runs plain (tree.commands straight) s out) ∧
      (∀ len s s', Inside len s.index → Runs (strict len) (read code) s (.ok s') →
        Runs (strict len) (tree.commands straight) s (.ok s')) ∧
      ∀ len s, Inside len s.index → Runs (strict len) (tree.commands straight) s (.error ()) →
        Runs (strict len) (read code) s (.error ()) := by
  obtain ⟨tree, hparse, hrule, -⟩ := parse_spec checks hcode
  refine ⟨tree, hparse, ?_, ?_, ?_⟩
  · intro s out
    constructor
    · intro hrun
      obtain ⟨s', rfl⟩ := ok_of_runs_total (fun _ => trivial) hrun
      rcases rewrites_covers (P := fun _ => True) hrule s _ trivial (Or.inr ⟨s', rfl⟩) hrun with
        ⟨hfalse, -⟩ | ⟨t, ht, htree, -⟩
      · exact hfalse.elim
      · rw [ht]
        exact htree
    · intro hrun
      obtain ⟨s', rfl⟩ := ok_of_runs_total (fun _ => trivial) hrun
      rcases rewrites_covers_flip (P := fun _ => True) (A := False) (Or.inr fun _ => trivial) hrule s _
        trivial (Or.inr ⟨s', rfl⟩) hrun with ⟨hfalse, -⟩ | ⟨t, ht, hsource, -⟩
      · exact hfalse.elim
      · rw [ht]
        exact hsource
  · intro len s s' hs hrun
    rcases rewrites_covers (P := Inside len) hrule s _ hs (Or.inr ⟨s', rfl⟩) hrun with
      ⟨hfalse, -⟩ | ⟨t, ht, htree, -⟩
    · exact hfalse.elim
    · rw [ht]
      exact htree
  · intro len s hs hrun
    rcases rewrites_covers_flip (P := Inside len) (A := True) (Or.inl trivial) hrule s _ hs
      (Or.inl trivial) hrun with ⟨-, ⟨⟩, hsource⟩ | ⟨t, ht, -⟩
    · exact hsource
    · cases ht

theorem parse_meaning_loop :
    ∃ tree, parse true [0x5B, 0x2D, 0x3E, 0x2B, 0x3C, 0x5D] = some tree ∧
      (∀ s out, Runs plain (read [0x5B, 0x2D, 0x3E, 0x2B, 0x3C, 0x5D]) s out ↔
        Runs plain (tree.commands straight) s out) ∧
      (∀ len s s', Inside len s.index →
        Runs (strict len) (read [0x5B, 0x2D, 0x3E, 0x2B, 0x3C, 0x5D]) s (.ok s') →
          Runs (strict len) (tree.commands straight) s (.ok s')) ∧
      ∀ len s, Inside len s.index → Runs (strict len) (tree.commands straight) s (.error ()) →
        Runs (strict len) (read [0x5B, 0x2D, 0x3E, 0x2B, 0x3C, 0x5D]) s (.error ()) :=
  parse_meaning true (by decide)

/-- **Where cells are added.** Only the last operation of a text adds one cell to another, and only where a
loop is left open: a loop that its bracket closes stays a loop. -/
theorem parse_addTo (checks : Bool) {code : List U8} (hcode : code.length < 2 ^ 31) :
    ∃ tree, parse checks code = some tree ∧ NoAddTo tree.ops.dropLast ∧
      (openLoops 0 code = 0 → NoAddTo tree.ops) := by
  obtain ⟨tree, hparse, -, -, -, -, hlast, hno⟩ := parse_spec checks hcode
  exact ⟨tree, hparse, hlast, hno⟩

theorem parse_addTo_loop :
    ∃ tree, parse true [0x5B, 0x2D, 0x3E, 0x2B, 0x3C, 0x5D] = some tree ∧ NoAddTo tree.ops.dropLast ∧
      (openLoops 0 [0x5B, 0x2D, 0x3E, 0x2B, 0x3C, 0x5D] = 0 → NoAddTo tree.ops) :=
  parse_addTo true (by decide)

end BF

end Patchouly.Bf
