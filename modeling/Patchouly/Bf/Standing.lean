import Patchouly.Bf.Cells

/-!
# Where a program stands

`compiled` is the meaning of the acts that the code performs. A state of the code and the commands that
are left belong together in a handful of ways, which `Standing` lists: in front of an operation, a check, a
loop, or one of a loop's two tests, at the end, or in the block `panic`. What is known of the index differs:
inside a leaf it is within 1024 of a cell that was checked (`Placed`), at the other places only not too far
off (`Known`).
-/

set_option autoImplicit false

namespace Patchouly.Bf

open Patchouly.Lib Patchouly.Core Patchouly.Managed BF

section Standing

variable (opts : CompileOptions) (len : Nat) (panic : BlockId) (G : Graph)

/-- The meaning of the code's acts. -/
def compiled : Interp Act Store Unit :=
  if opts.saturating then saturated len else checked (Inside len)

/-- The program of a leaf, with the checks of the code. -/
def leafCode (ops : List Op) : List (Command Act) := (leafActs opts 0 ops).map .act

abbrev treeCode : BF → List (Command Act) := commands (leafCode opts)

/-- `movement` away from a cell that was checked, or from the first cell. -/
def Placed (movement : Int) (i : Int) : Prop :=
  if opts.saturating then Inside len i
  else movement.natAbs ≤ 1024 ∧ ∃ p, (Inside len p ∨ p = 0) ∧ i = p + movement

def Known (i : Int) : Prop := if opts.saturating then Inside len i else Near len i

/-- What is left of a leaf. -/
structure LeafOpen (ops : List Op) : Prop where
  ok : LeafOk ops
  weight : weight ops < 2 ^ 31
  noAddTo : opts.saturating = true → NoAddTo ops

structure TreeOk (tree : BF) : Prop where
  tidy : tree.Tidy
  weight : weight tree.ops < 2 ^ 31
  noAddTo : opts.saturating = true → NoAddTo tree.ops

def StartsWithLeaf (nodes : List BF) : Prop := ∃ first ∈ nodes.head?, first.isLeaf = true

structure NodesFine (nodes : List BF) : Prop where
  tree : ∀ n ∈ nodes, TreeOk opts n
  plain : ∀ n ∈ nodes, n.isNode = false
  chain : nodes.IsChain fun a b => (a.isLeaf && b.isLeaf) = false

/-- What follows an operation in a leaf. -/
def behind (movement : Int) (op : Op) (ops : List Op) : List Act :=
  if NeedsCheck opts (movement + movementOf opts op) then .check :: leafActs opts 0 ops
  else leafActs opts (movement + movementOf opts op) ops

/-- What is known at acts in front of nodes. -/
inductive Ready : List Act → List BF → Int → Prop
  | leaf {movement i : Int} {ops : List Op} {nodes : List BF} (hops : LeafOpen opts ops)
      (hplaced : Placed opts len movement i) (hnodes : ¬ StartsWithLeaf nodes) :
      Ready (leafActs opts movement ops) nodes i
  | check {i : Int} {ops : List Op} {nodes : List BF} (hsat : opts.saturating = false)
      (hops : LeafOpen opts ops) (hknown : Known opts len i) (hnodes : ¬ StartsWithLeaf nodes) :
      Ready (.check :: leafActs opts 0 ops) nodes i
  | start {i : Int} {nodes : List BF} (hplaced : Placed opts len 0 i) : Ready [] nodes i
  | after {i : Int} {nodes : List BF} (hknown : Known opts len i) (hnodes : ¬ StartsWithLeaf nodes) :
      Ready [] nodes i

def panicCode : List Instr := headCode panicCalls

/-- The end of the entry's code. -/
def finalCode : List Instr := [(checkCall panic).instr, ⟨.ret 0, []⟩]

/-- The code behind the code of some nodes: the end, or the second test of a loop. -/
inductive Frames : List (Command Act) → List Instr → Prop
  | final : Frames [.act .check] (finalCode panic)
  | loop {body : BF} {next tail : BlockId} {inner code rest : List Instr} {nodes : List BF}
      {cs : List (Command Act)} (hstart : G next = some (testInstr opts panic tail .next :: inner))
      (hbody : Emits opts panic G body inner [testInstr opts panic tail (.same next)])
      (hok : TreeOk opts body) (htail : G tail = some code)
      (hnodes : EmitsAll opts panic G nodes code rest) (hfine : NodesFine opts nodes)
      (hcs : Frames cs rest) :
      Frames (.loop (treeCode opts body) :: (commandsAll (leafCode opts) nodes ++ cs))
        [testInstr opts panic tail (.same next)]

/-- A loop in the code, with what follows it. -/
structure LoopAt (body : BF) (next tail : BlockId) (inner : List Instr) (cs : List (Command Act)) :
    Prop where
  start : G next = some (testInstr opts panic tail .next :: inner)
  emits : Emits opts panic G body inner [testInstr opts panic tail (.same next)]
  ok : TreeOk opts body
  follows : ∃ nodes code rest cs', cs = commandsAll (leafCode opts) nodes ++ cs' ∧
    G tail = some code ∧ EmitsAll opts panic G nodes code rest ∧ NodesFine opts nodes ∧
      Frames opts panic G cs' rest

/-- **The places of a program**: code, commands that are left, and a store. -/
inductive Standing : List Instr → List (Command Act) → Store → Prop
  | op {op : Op} {ops : List Op} {stencil : BfStencil} {movement : Int} {nodes : List BF}
      {mid rest : List Instr} {cs : List (Command Act)} {s : Store}
      (hst : opStencil opts op = some stencil) (hops : LeafOpen opts (op :: ops))
      (hplaced : Placed opts len movement s.index) (hstart : ¬ StartsWithLeaf nodes)
      (hfine : NodesFine opts nodes) (hnodes : EmitsAll opts panic G nodes mid rest)
      (hcs : Frames opts panic G cs rest) :
      Standing (⟨stencil, [.next]⟩ :: ((behind opts movement op ops).map (actInstr opts panic) ++ mid))
        (.act (.op op) :: ((behind opts movement op ops).map .act ++
          (commandsAll (leafCode opts) nodes ++ cs))) s
  | check {ops : List Op} {nodes : List BF} {mid rest : List Instr} {cs : List (Command Act)}
      {s : Store} (hsat : opts.saturating = false) (hops : LeafOpen opts ops)
      (hknown : Known opts len s.index) (hstart : ¬ StartsWithLeaf nodes)
      (hfine : NodesFine opts nodes) (hnodes : EmitsAll opts panic G nodes mid rest)
      (hcs : Frames opts panic G cs rest) :
      Standing ((checkCall panic).instr ::
          ((leafActs opts 0 ops).map (actInstr opts panic) ++ mid))
        (.act .check :: ((leafActs opts 0 ops).map .act ++
          (commandsAll (leafCode opts) nodes ++ cs))) s
  | jump {body : BF} {next tail : BlockId} {inner : List Instr} {cs : List (Command Act)} {s : Store}
      (hloop : LoopAt opts panic G body next tail inner cs) (hknown : Known opts len s.index) :
      Standing [jmpInstr next] (.loop (treeCode opts body) :: cs) s
  | start {body : BF} {next tail : BlockId} {inner : List Instr} {cs : List (Command Act)} {s : Store}
      (hloop : LoopAt opts panic G body next tail inner cs) (hknown : Known opts len s.index) :
      Standing (testInstr opts panic tail .next :: inner) (.loop (treeCode opts body) :: cs) s
  | close {body : BF} {next tail : BlockId} {inner : List Instr} {cs : List (Command Act)} {s : Store}
      (hloop : LoopAt opts panic G body next tail inner cs) (hknown : Known opts len s.index) :
      Standing [testInstr opts panic tail (.same next)] (.loop (treeCode opts body) :: cs) s
  | final {s : Store} (hknown : Known opts len s.index) :
      Standing (finalCode panic) [.act .check] s
  | panics {cs : List (Command Act)} {s : Store}
      (herror : (compiled opts len).next (cs, s) = .inr (.error ())) :
      Standing panicCode cs s
  | done {s : Store} : Standing [⟨.ret 0, []⟩] [] s

end Standing

section Lemmas

variable {opts : CompileOptions} {len : Nat} {panic : BlockId} {G : Graph}

theorem placed_of_inside {i : Int} (h : Inside len i) : Placed opts len 0 i := by
  rw [Placed]
  split
  · exact h
  · exact ⟨by decide, i, Or.inl h, (Int.add_zero i).symm⟩

theorem Placed.reach {movement i : Int} (h : Placed opts len movement i) : Reach opts len i := by
  rw [Placed] at h
  rw [Reach]
  split at h
  · rw [if_pos ‹_›]
    exact h
  · rw [if_neg ‹_›]
    obtain ⟨hmove, p, hp, rfl⟩ := h
    rcases hp with ⟨h0, h1⟩ | rfl
    · exact ⟨by omega, by omega⟩
    · exact ⟨by omega, by omega⟩

theorem Placed.known {movement i : Int} (h : Placed opts len movement i) : Known opts len i := by
  rw [Placed] at h
  rw [Known]
  split at h
  · rw [if_pos ‹_›]
    exact h
  · rw [if_neg ‹_›]
    obtain ⟨hmove, p, hp, rfl⟩ := h
    rcases hp with ⟨h0, h1⟩ | rfl
    · exact ⟨by omega, by omega⟩
    · exact ⟨by omega, by omega⟩

theorem Known.near {i : Int} (h : Known opts len i) : Near len i := by
  rw [Known] at h
  split at h
  · obtain ⟨h0, h1⟩ := h
    exact ⟨by omega, by omega⟩
  · exact h

theorem LeafOpen.tail {op : Op} {ops : List Op} (h : LeafOpen opts (op :: ops)) : LeafOpen opts ops := by
  have hweight := h.weight
  rw [weight_cons] at hweight
  refine ⟨⟨fun n hn => h.ok.offset n (List.mem_cons_of_mem _ hn), ?_⟩, by omega,
    fun hsat o ho => h.noAddTo hsat o (List.mem_cons_of_mem _ ho)⟩
  intro o ho
  cases hops : ops with
  | nil =>
      rw [hops] at ho
      cases ho
  | cons first more =>
      apply h.ok.last o
      rw [hops] at ho ⊢
      exact List.mem_cons_of_mem _ ho

/-- The first operation of a leaf that has a stencil. -/
theorem leafActs_cases {movement i : Int} {ops : List Op} (hops : LeafOpen opts ops)
    (hplaced : Placed opts len movement i) :
    leafActs opts movement ops = [] ∨ ∃ op ops' stencil, opStencil opts op = some stencil ∧
      LeafOpen opts (op :: ops') ∧
        leafActs opts movement ops = .op op :: behind opts movement op ops' := by
  induction ops with
  | nil => exact Or.inl rfl
  | cons op ops ih =>
      cases hst : opStencil opts op with
      | some stencil =>
          refine Or.inr ⟨op, ops, stencil, hst, hops, ?_⟩
          rw [leafActs, hst]
          rfl
      | none =>
          -- an operation without effect moves nothing
          have hzero : movementOf opts op = 0 := by
            cases op with
            | leftRight n =>
                simp only [opStencil] at hst
                split_ifs at hst with h0
                simp [movementOf, h0]
            | incDec n => rfl
            | addTo n => cases hst
            | input => cases hst
            | output => cases hst
            | setZero => cases hst
          have hno : ¬ NeedsCheck opts movement := by
            rintro ⟨hlt, hsat⟩
            rw [Placed, hsat] at hplaced
            simp only [Bool.false_eq_true, if_false] at hplaced
            omega
          have hsame : leafActs opts movement (op :: ops) = leafActs opts movement ops := by
            simp only [leafActs, hst, hzero, Int.add_zero, if_neg hno, Option.isSome_none,
              Bool.false_eq_true, if_false, List.nil_append]
          rw [hsame]
          exact ih hops.tail

/-! ### Trees -/

/-- The nodes of a loop's body. -/
def children : BF → List BF
  | .node nodes => nodes
  | tree => [tree]

theorem commandsAll_children (leaf : List Op → List (Command Act)) (tree : BF) :
    commandsAll leaf (children tree) = tree.commands leaf := by
  cases tree with
  | node nodes => rfl
  | leaf ops => exact List.append_nil _
  | loop body => rfl

theorem emitsAll_children {tree : BF} {code rest : List Instr} (h : Emits opts panic G tree code rest) :
    EmitsAll opts panic G (children tree) code rest := by
  cases tree with
  | node nodes => exact h
  | leaf ops => exact ⟨rest, h, rfl⟩
  | loop body => exact ⟨rest, h, rfl⟩

theorem mem_opsAll {nodes : List BF} {n : BF} (h : n ∈ nodes) :
    weight n.ops ≤ weight (opsAll nodes) ∧ ∀ op ∈ n.ops, op ∈ opsAll nodes := by
  induction nodes with
  | nil => cases h
  | cons first nodes ih =>
      rw [opsAll, weight_append]
      rcases List.mem_cons.1 h with rfl | h
      · exact ⟨Nat.le_add_right _ _, fun op hop => List.mem_append_left _ hop⟩
      · obtain ⟨hweight, hops⟩ := ih h
        exact ⟨by omega, fun op hop => List.mem_append_right _ (hops op hop)⟩

theorem NodesFine.singleton {tree : BF} (h : TreeOk opts tree) (hnode : tree.isNode = false) :
    NodesFine opts [tree] :=
  ⟨List.forall_mem_singleton.2 h, List.forall_mem_singleton.2 hnode, List.isChain_singleton _⟩

theorem nodesFine_children {tree : BF} (h : TreeOk opts tree) : NodesFine opts (children tree) := by
  cases tree with
  | leaf ops => exact .singleton h rfl
  | loop body => exact .singleton h rfl
  | node nodes =>
      have hweight := h.weight
      have hno := h.noAddTo
      cases h.tidy with
      | node htidy hplain hchain =>
          refine ⟨fun n hn => ⟨htidy n hn, ?_, ?_⟩, hplain, hchain⟩
          · change n ∈ nodes at hn
            have hle := (mem_opsAll hn).1
            rw [BF.ops] at hweight
            omega
          · intro hsat op hop
            exact hno hsat op ((mem_opsAll hn).2 op hop)

theorem NodesFine.tail {first : BF} {nodes : List BF} (h : NodesFine opts (first :: nodes)) :
    NodesFine opts nodes :=
  ⟨fun n hn => h.tree n (List.mem_cons_of_mem _ hn), fun n hn => h.plain n (List.mem_cons_of_mem _ hn),
    h.chain.tail⟩

theorem NodesFine.not_startsWithLeaf {ops : List Op} {nodes : List BF}
    (h : NodesFine opts (.leaf ops :: nodes)) : ¬ StartsWithLeaf nodes := by
  rintro ⟨first, hfirst, hleaf⟩
  have hlink := h.chain.rel_head? hfirst
  rw [hleaf] at hlink
  cases hlink

/-! ### Places -/

/-- Between nodes, in front of anything but a leaf. -/
theorem standing_after {nodes : List BF} {mid rest : List Instr} {cs : List (Command Act)} {s : Store}
    (hknown : Known opts len s.index) (hstart : ¬ StartsWithLeaf nodes) (hfine : NodesFine opts nodes)
    (hnodes : EmitsAll opts panic G nodes mid rest) (hcs : Frames opts panic G cs rest) :
    Standing opts len panic G mid (commandsAll (leafCode opts) nodes ++ cs) s := by
  cases nodes with
  | nil =>
      obtain rfl : mid = rest := hnodes
      cases hcs with
      | final => exact .final hknown
      | loop hloop hbody hok htail hnodes' hfine' hcs' =>
          exact .close ⟨hloop, hbody, hok, _, _, _, _, rfl, htail, hnodes', hfine', hcs'⟩ hknown
  | cons first nodes =>
      obtain ⟨mid', hfirst, hrest⟩ := hnodes
      cases first with
      | leaf ops => exact absurd ⟨_, rfl, rfl⟩ hstart
      | node nodes' => exact absurd (hfine.plain _ List.mem_cons_self) (by simp [isNode])
      | loop body =>
          obtain ⟨next, tail, inner, rfl, hloop, hbody, htail⟩ := hfirst
          have htree := hfine.tree _ List.mem_cons_self
          have hok : TreeOk opts body := by
            refine ⟨?_, htree.weight, htree.noAddTo⟩
            cases htree.tidy with
            | loop h => exact h
          exact .jump ⟨hloop, hbody, hok, _, _, _, _, rfl, htail, hrest, hfine.tail, hcs⟩ hknown

/-- In front of acts and nodes. -/
theorem standing_of_ready {acts : List Act} {nodes : List BF} {mid rest : List Instr}
    {cs : List (Command Act)} {s : Store} (hready : Ready opts len acts nodes s.index)
    (hfine : NodesFine opts nodes) (hnodes : EmitsAll opts panic G nodes mid rest)
    (hcs : Frames opts panic G cs rest) :
    Standing opts len panic G (acts.map (actInstr opts panic) ++ mid)
      (acts.map .act ++ (commandsAll (leafCode opts) nodes ++ cs)) s := by
  have hleaf : ∀ {movement ops nodes mid rest}, LeafOpen opts ops → Placed opts len movement s.index →
      ¬ StartsWithLeaf nodes → NodesFine opts nodes → EmitsAll opts panic G nodes mid rest →
        Frames opts panic G cs rest →
      Standing opts len panic G ((leafActs opts movement ops).map (actInstr opts panic) ++ mid)
        ((leafActs opts movement ops).map .act ++ (commandsAll (leafCode opts) nodes ++ cs)) s := by
    intro movement ops nodes mid rest hops hplaced hstart hfine hnodes hcs
    rcases leafActs_cases hops hplaced with hnil | ⟨op, ops', stencil, hst, hopen, hacts⟩
    · rw [hnil]
      exact standing_after hplaced.known hstart hfine hnodes hcs
    · rw [hacts]
      have hinstr : actInstr opts panic (.op op) = ⟨stencil, [.next]⟩ := by
        simp [actInstr, actCall, hst, BfCall.instr]
      rw [List.map_cons, hinstr]
      exact .op hst hopen hplaced hstart hfine hnodes hcs
  cases hready with
  | leaf hops hplaced hstart => exact hleaf hops hplaced hstart hfine hnodes hcs
  | check hsat hops hknown hstart => exact .check hsat hops hknown hstart hfine hnodes hcs
  | after hknown hstart => exact standing_after hknown hstart hfine hnodes hcs
  | start hplaced =>
      by_cases hstart : StartsWithLeaf nodes
      · -- a leaf starts at the checked cell
        obtain ⟨first, hfirst, hisLeaf⟩ := hstart
        cases nodes with
        | nil => cases hfirst
        | cons head nodes =>
            obtain rfl := Option.some.inj hfirst
            cases head with
            | node nodes' => cases hisLeaf
            | loop body => cases hisLeaf
            | leaf ops =>
                obtain ⟨mid', hmid, hrest⟩ := hnodes
                obtain rfl : mid = (leafActs opts 0 ops).map (actInstr opts panic) ++ mid' := hmid
                have htree := hfine.tree _ List.mem_cons_self
                have hok : LeafOpen opts ops := by
                  refine ⟨?_, htree.weight, htree.noAddTo⟩
                  cases htree.tidy with
                  | leaf h => exact h
                have hstand := hleaf hok hplaced hfine.not_startsWithLeaf hfine.tail hrest hcs
                rw [List.map_nil, List.map_nil, List.nil_append, List.nil_append, commandsAll, commands,
                  leafCode, List.append_assoc]
                exact hstand
      · exact standing_after hplaced.known hstart hfine hnodes hcs

end Lemmas

end Patchouly.Bf
