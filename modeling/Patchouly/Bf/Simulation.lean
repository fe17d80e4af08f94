import Patchouly.Bf.Standing

/-!
# The code follows the program

Every step of the code is a step of the program, or one of the steps a loop needs beside its test: the
jump to its first test, the way from the second test back to the first, and the way to `panic`.
`simulation` is this as a simulation of machines, and `Standing.safe` bounds the cells that are touched.
-/

set_option autoImplicit false

namespace Patchouly.Bf

open Patchouly.Lib Patchouly.Core Patchouly.Managed BF

section Steps

variable {G : Graph} {stencil : BfStencil} {jumps : List JumpTarget} {rest code : List Instr}
  {m m' : State} {t : Nat}

theorem step_next (hrun : stencil.run m = (.jump t, m')) (hjump : jumps[t]? = some .next) :
    step G (⟨stencil, jumps⟩ :: rest, m) = .inl (rest, m') := by
  simp only [step, hrun, hjump]

theorem step_block {block : BlockId} (hrun : stencil.run m = (.jump t, m'))
    (hjump : jumps[t]? = some (.target block)) (hblock : G block = some code) :
    step G (⟨stencil, jumps⟩ :: rest, m) = .inl (code, m') := by
  simp only [step, hrun, hjump, hblock]

theorem step_ret {n : Usize} (hrun : stencil.run m = (.ret n, m')) :
    step G (⟨stencil, jumps⟩ :: rest, m) = .inr (some (n, m')) := by
  simp only [step, hrun]

end Steps

/-- What the code is run with. -/
structure Setup (opts : CompileOptions) (len : Nat) (panic : BlockId) (G : Graph) : Prop where
  length : len + 8192 < 2 ^ 63
  tape : opts.saturating = true → opts.tapeSize = BitVec.ofNat 64 len
  panic : G panic = some panicCode

section Simulation

variable {opts : CompileOptions} {len : Nat} {panic : BlockId} {G : Graph} {s : Store} {m : State}

/-- An operation in the code. -/
def effectIn (opts : CompileOptions) (len : Nat) (op : Op) (s : Store) : Store :=
  if opts.saturating then op.clamped len s else op.effect s

theorem compiled_op (op : Op) : (compiled opts len).act (.op op) s = .ok (effectIn opts len op s) := by
  rw [compiled, effectIn]
  split <;> rfl

theorem compiled_check :
    (compiled opts len).act .check s = if Inside len s.index then .ok s else .error () := by
  rw [compiled]
  split <;> rfl

/-- The next step of the program at an act. -/
theorem next_act {act : Act} {cs : List (Command Act)} {s' : Store}
    (h : (compiled opts len).act act s = .ok s') :
    (compiled opts len).next (.act act :: cs, s) = .inl (cs, s') := by
  have hu : (compiled opts len).unroll s (.act act) = .ok ([], s') := by
    rw [Interp.unroll, h]
    rfl
  exact next_of_ok hu

theorem next_act_error {act : Act} {cs : List (Command Act)}
    (h : (compiled opts len).act act s = .error ()) :
    (compiled opts len).next (.act act :: cs, s) = .inr (.error ()) := by
  have hu : (compiled opts len).unroll s (.act act) = .error () := by
    rw [Interp.unroll, h]
    rfl
  exact next_of_error hu

/-- What is known behind an operation. -/
theorem ready_behind {op : Op} {ops : List Op} {movement : Int} {nodes : List BF}
    (hops : LeafOpen opts (op :: ops)) (hplaced : Placed opts len movement s.index)
    (hstart : ¬ StartsWithLeaf nodes) :
    Ready opts len (behind opts movement op ops) nodes (effectIn opts len op s).index := by
  have htail := hops.tail
  cases hsat : opts.saturating with
  | true =>
      -- a saturating move stays inside
      have hno : ¬ NeedsCheck opts (movement + movementOf opts op) := by
        rintro ⟨-, hfalse⟩
        rw [hsat] at hfalse
        cases hfalse
      rw [behind, if_neg hno]
      refine .leaf htail ?_ hstart
      rw [Placed, if_pos hsat] at hplaced ⊢
      obtain ⟨h0, h1⟩ := hplaced
      rw [effectIn, if_pos hsat]
      cases op with
      | leftRight n =>
          simp only [Op.clamped]
          constructor <;> omega
      | _ => exact ⟨h0, h1⟩
  | false =>
      have hknown := hplaced.known
      rw [Placed, hsat] at hplaced
      simp only [Bool.false_eq_true, if_false] at hplaced
      obtain ⟨hmove, p, hp, hindex⟩ := hplaced
      rw [effectIn, hsat, if_neg Bool.false_ne_true]
      have hstay : ∀ {i : Int}, movementOf opts op = 0 → i = s.index →
          Ready opts len (behind opts movement op ops) nodes i := by
        rintro i hzero rfl
        have hno : ¬ NeedsCheck opts (movement + movementOf opts op) := by
          rintro ⟨hlt, -⟩
          omega
        rw [behind, if_neg hno, hzero, Int.add_zero]
        refine .leaf htail ?_ hstart
        rw [Placed, hsat, if_neg Bool.false_ne_true]
        exact ⟨hmove, p, hp, hindex⟩
      cases op with
      | leftRight n =>
          have hsize := hops.weight
          simp only [weight_cons, Op.size] at hsize
          have hdelta : movementOf opts (.leftRight n) = n := by simp [movementOf, hsat]
          rw [behind, hdelta]
          have hto : (Op.effect (.leftRight n) s).index = p + (movement + n) := by
            simp only [Op.effect, hindex]
            omega
          rw [hto]
          split
          · refine .check hsat htail ?_ hstart
            rw [Known, hsat, if_neg Bool.false_ne_true]
            rcases hp with ⟨h0, h1⟩ | rfl
            · exact ⟨by omega, by omega⟩
            · exact ⟨by omega, by omega⟩
          · next hno =>
            refine .leaf htail ?_ hstart
            rw [Placed, hsat, if_neg Bool.false_ne_true]
            refine ⟨?_, p, hp, rfl⟩
            by_contra hlt
            exact hno ⟨by omega, hsat⟩
      | addTo n =>
          -- the last operation of its leaf
          have hlast : ops = [] := by
            by_contra hne
            have hmem : Op.addTo n ∈ (Op.addTo n :: ops).dropLast := by
              rw [List.dropLast_cons_of_ne_nil hne]
              exact List.mem_cons_self
            have hfalse := hops.ok.last _ hmem
            cases hfalse
          subst hlast
          rw [behind]
          split
          · exact .check hsat htail hknown hstart
          · exact .after hknown hstart
      | incDec n => exact hstay rfl rfl
      | input => exact hstay rfl rfl
      | output => exact hstay rfl rfl
      | setZero => exact hstay rfl rfl

/-- The cells of an operation are within reach. -/
theorem touches_of_placed {op : Op} {ops : List Op} {movement : Int} (hops : LeafOpen opts (op :: ops))
    (hplaced : Placed opts len movement s.index) : op.Touches opts len s := by
  cases op with
  | leftRight n => trivial
  | addTo n =>
      refine ⟨hplaced.reach, ?_⟩
      obtain ⟨-, hlt⟩ := hops.ok.offset n List.mem_cons_self
      cases hsat : opts.saturating with
      | true =>
          have hfalse := hops.noAddTo hsat _ List.mem_cons_self
          cases hfalse
      | false =>
          rw [Placed, hsat] at hplaced
          simp only [Bool.false_eq_true, if_false] at hplaced
          obtain ⟨hmove, p, hp, hindex⟩ := hplaced
          rw [Reach, hsat, if_neg Bool.false_ne_true]
          rcases hp with ⟨h0, h1⟩ | rfl
          · exact ⟨by omega, by omega⟩
          · exact ⟨by omega, by omega⟩
  | incDec n => exact hplaced.reach
  | input => exact hplaced.reach
  | output => exact hplaced.reach
  | setZero => exact hplaced.reach

/-- The stencil of an operation, in either mode. -/
theorem run_effectIn (hsetup : Setup opts len panic G) (h : Rel len s m) {op : Op} {ops : List Op}
    {movement : Int} {stencil : BfStencil} (hst : opStencil opts op = some stencil)
    (hops : LeafOpen opts (op :: ops)) (hplaced : Placed opts len movement s.index) :
    Performs opts len m stencil (effectIn opts len op s) := by
  have htouches := touches_of_placed hops hplaced
  rw [effectIn]
  cases hsat : opts.saturating with
  | false =>
      rw [if_neg Bool.false_ne_true]
      exact run_op hsetup.length h (fun _ _ => hsat) hst htouches
  | true =>
      rw [if_pos rfl]
      rw [Placed, if_pos hsat] at hplaced
      have hsize := hops.weight
      simp only [weight_cons] at hsize
      cases op with
      | leftRight n =>
          exact run_clamped hsat (hsetup.tape hsat) hsetup.length h hplaced
            (by simp only [Op.size] at hsize; omega) hst
      | incDec n => exact run_op hsetup.length h (fun _ hmove => by cases hmove) hst htouches
      | input => exact run_op hsetup.length h (fun _ hmove => by cases hmove) hst htouches
      | output => exact run_op hsetup.length h (fun _ hmove => by cases hmove) hst htouches
      | setZero => exact run_op hsetup.length h (fun _ hmove => by cases hmove) hst htouches
      | addTo n => exact run_op hsetup.length h (fun _ hmove => by cases hmove) hst htouches

/-- The bounds check. -/
theorem run_check (hsetup : Setup opts len panic G) (h : Rel len s m) (hknown : Known opts len s.index) :
    (Inside len s.index ∧ BfStencil.check.run m = (.jump 0, m)) ∨
      (¬ Inside len s.index ∧ BfStencil.check.run m = (.jump 1, m)) := by
  have hiff := ofInt_lt_iff hsetup.length hknown.near
  rw [← h.index, ← h.length] at hiff
  by_cases hin : Inside len s.index
  · exact Or.inl ⟨hin, by simp only [BfStencil.run, if_pos (hiff.2 hin)]⟩
  · exact Or.inr ⟨hin, by simp only [BfStencil.run, if_neg fun hlt => hin (hiff.1 hlt)]⟩

/-- The test of a loop: out of it, into it, or away. -/
theorem run_test (hsetup : Setup opts len panic G) (h : Rel len s m) (hknown : Known opts len s.index) :
    SafeAccess opts len (testStencil opts) m ∧
    ((Inside len s.index ∧ (compiled opts len).test s = .ok false ∧
        (testStencil opts).run m = (.jump 0, m)) ∨
      (Inside len s.index ∧ (compiled opts len).test s = .ok true ∧
        (testStencil opts).run m = (.jump 1, m)) ∨
      (opts.saturating = false ∧ (compiled opts len).test s = .error () ∧
        (testStencil opts).run m = (.jump 2, m))) := by
  have hiff := ofInt_lt_iff hsetup.length hknown.near
  rw [← h.index, ← h.length] at hiff
  have hcell : Inside len s.index → m.get m.i = s.cell := fun hin =>
    h.cell (show Reach opts len s.index from reach_of_inside hin).padded
  cases hsat : opts.saturating with
  | true =>
      rw [Known, if_pos hsat] at hknown
      have hstencil : testStencil opts = .ifZeroUnchecked := by rw [testStencil, if_pos hsat]
      have htest : (compiled opts len).test s = .ok (s.cell != 0) := by rw [compiled, if_pos hsat]; rfl
      rw [hstencil, htest]
      refine ⟨safeAccess_index h (reach_of_inside hknown) rfl, ?_⟩
      simp only [BfStencil.run, hcell hknown]
      by_cases hzero : s.cell = 0
      · left
        rw [if_pos hzero, hzero]
        exact ⟨hknown, rfl, rfl⟩
      · right
        left
        rw [if_neg hzero, bne_iff_ne.2 hzero]
        exact ⟨hknown, rfl, rfl⟩
  | false =>
      have hstencil : testStencil opts = .ifZero := by
        rw [testStencil, hsat, if_neg Bool.false_ne_true]
      have htest : (compiled opts len).test s =
          if Inside len s.index then .ok (s.cell != 0) else .error () := by
        rw [compiled, hsat, if_neg Bool.false_ne_true]
        rfl
      rw [hstencil, htest]
      by_cases hin : Inside len s.index
      · refine ⟨safeAccess_index h (reach_of_inside hin) (if_pos (hiff.2 hin)), ?_⟩
        simp only [BfStencil.run, if_pos (hiff.2 hin), if_pos hin, hcell hin]
        by_cases hzero : s.cell = 0
        · left
          rw [if_pos hzero, hzero]
          exact ⟨hin, rfl, rfl⟩
        · right
          left
          rw [if_neg hzero, bne_iff_ne.2 hzero]
          exact ⟨hin, rfl, rfl⟩
      · have hge : ¬ m.i < m.len := fun hlt => hin (hiff.1 hlt)
        refine ⟨safeAccess_none (if_neg hge), Or.inr (Or.inr ⟨rfl, if_neg hin, ?_⟩)⟩
        simp only [BfStencil.run, if_neg hge]

/-- **Safety** of the next stencil. -/
theorem Standing.safe (hsetup : Setup opts len panic G) {instr : Instr} {code : List Instr}
    {cs : List (Command Act)} (hrel : Rel len s m)
    (h : Standing opts len panic G (instr :: code) cs s) : SafeAccess opts len instr.stencil m := by
  cases h with
  | op hst hops hplaced hstart hfine hnodes hcs =>
      obtain ⟨m', -, -, hsafe⟩ := run_effectIn hsetup hrel hst hops hplaced
      exact hsafe
  | check => exact safeAccess_none rfl
  | jump => exact safeAccess_none rfl
  | start hloop hknown => exact (run_test hsetup hrel hknown).1
  | close hloop hknown => exact (run_test hsetup hrel hknown).1
  | final => exact safeAccess_none rfl
  | panics => exact safeAccess_none rfl
  | done => exact safeAccess_none rfl

/-! ### The simulation -/

variable (opts) (len) (panic) (G)

/-- The code and the program stand at one place. -/
def Matches (c : List Instr × State) (p : List (Command Act) × Store) : Prop :=
  Rel len p.2 c.2 ∧ Standing opts len panic G c.1 p.1 p.2

variable {opts} {len} {panic} {G}

/-- How many steps of the code may pass before the program moves or ends. -/
def delay (c : List Instr × State) : Nat :=
  match c.1 with
  | [] => 0
  | instr :: _ =>
      match instr.stencil, instr.jumps[1]? with
      | .ret _, _ => 0
      | .jmp, _ => 2
      | .ifZero, some (JumpTarget.target _) | .ifZeroUnchecked, some (JumpTarget.target _) => 2
      | _, _ => 1

/-- The result of the code says how the program ends. -/
def Answers (len : Nat) : Outcome → Except Unit Store → Prop
  | some (n, m), .ok s => n = 0 ∧ Rel len s m
  | some (n, _), .error () => n = BitVec.ofInt 64 (-1)
  | none, _ => False

theorem Answers.of_ok {r : Outcome} (h : Answers len r (.ok s)) : ∃ m', r = some (0, m') ∧ Rel len s m' := by
  cases r with
  | none => exact h.elim
  | some result =>
      obtain ⟨n, m'⟩ := result
      obtain ⟨rfl, hrel⟩ := h
      exact ⟨m', rfl, hrel⟩

theorem Answers.of_error {r : Outcome} (h : Answers len r (.error ())) :
    ∃ m', r = some (BitVec.ofInt 64 (-1), m') := by
  cases r with
  | none => exact h.elim
  | some result =>
      obtain ⟨n, m'⟩ := result
      obtain rfl : n = _ := h
      exact ⟨m', rfl⟩

theorem delay_testInstr_next (tail : BlockId) (inner : List Instr) (m : State) :
    delay (testInstr opts panic tail .next :: inner, m) = 1 := by
  rw [delay, testInstr, testStencil, testJumps]
  cases opts.saturating <;> rfl

theorem delay_testInstr_same (tail next : BlockId) (inner : List Instr) (m : State) :
    delay (testInstr opts panic tail (.same next) :: inner, m) = 2 := by
  rw [delay, testInstr, testStencil, testJumps]
  cases opts.saturating <;> rfl

/-- A test out of its loop. -/
theorem step_test_out {tail : BlockId} {into : JumpScope} {rest code : List Instr}
    (hrun : (testStencil opts).run m = (.jump 0, m)) (htail : G tail = some code) :
    step G (testInstr opts panic tail into :: rest, m) = .inl (code, m) := by
  refine step_block hrun ?_ htail
  rw [testJumps]
  cases opts.saturating <;> rfl

theorem step_test_next {tail : BlockId} {rest : List Instr}
    (hrun : (testStencil opts).run m = (.jump 1, m)) :
    step G (testInstr opts panic tail .next :: rest, m) = .inl (rest, m) := by
  refine step_next hrun ?_
  rw [testJumps]
  cases opts.saturating <;> rfl

theorem step_test_same {tail next : BlockId} {rest code : List Instr}
    (hrun : (testStencil opts).run m = (.jump 1, m)) (hnext : G next = some code) :
    step G (testInstr opts panic tail (.same next) :: rest, m) = .inl (code, m) := by
  refine step_block hrun ?_ hnext
  rw [testJumps]
  cases opts.saturating <;> rfl

theorem step_test_panic (hsetup : Setup opts len panic G) {tail : BlockId} {into : JumpScope}
    {rest : List Instr} (hsat : opts.saturating = false)
    (hrun : (testStencil opts).run m = (.jump 2, m)) :
    step G (testInstr opts panic tail into :: rest, m) = .inl (panicCode, m) := by
  refine step_block hrun ?_ hsetup.panic
  rw [testJumps, hsat]
  rfl

/-- The next step of the program at a loop. -/
theorem next_loop (body cs : List (Command Act)) {go : Bool}
    (h : (compiled opts len).test s = .ok go) :
    (compiled opts len).next (.loop body :: cs, s) =
      .inl ((if go then body ++ [.loop body] else []) ++ cs, s) := by
  have hu : (compiled opts len).unroll s (.loop body) =
      .ok (if go then body ++ [.loop body] else [], s) := by
    rw [Interp.unroll, h]
    rfl
  exact next_of_ok hu

theorem next_loop_error {body cs : List (Command Act)}
    (h : (compiled opts len).test s = .error ()) :
    (compiled opts len).next (.loop body :: cs, s) = .inr (.error ()) := by
  have hu : (compiled opts len).unroll s (.loop body) = .error () := by
    rw [Interp.unroll, h]
    rfl
  exact next_of_error hu

/-- A check that succeeds or fails, with the code `mid` behind it. -/
theorem move_check (hsetup : Setup opts len panic G) (hrel : Rel len s m)
    (hknown : Known opts len s.index) {mid : List Instr} {cs : List (Command Act)}
    (hmid : Inside len s.index → Standing opts len panic G mid cs s) :
    ∃ c, step G ((checkCall panic).instr :: mid, m) = .inl c ∧
      ∃ p, Matches opts len panic G c p ∧
        (Relation.TransGen (Moves (compiled opts len).next) (.act .check :: cs, s) p ∨
          p = (.act .check :: cs, s) ∧ delay c < 1) := by
  have hact : (compiled opts len).act .check s = if Inside len s.index then .ok s else .error () :=
    compiled_check
  rcases run_check hsetup hrel hknown with ⟨hin, hrun⟩ | ⟨hout, hrun⟩
  · rw [if_pos hin] at hact
    exact ⟨_, step_next hrun rfl, _, ⟨hrel, hmid hin⟩, Or.inl (.single (next_act hact))⟩
  · rw [if_neg hout] at hact
    exact ⟨_, step_block hrun rfl hsetup.panic, _, ⟨hrel, .panics (next_act_error hact)⟩,
      Or.inr ⟨rfl, Nat.zero_lt_one⟩⟩

/-- Into a loop: its body, in front of its second test. -/
theorem LoopAt.enter {body : BF} {next tail : BlockId} {inner : List Instr} {cs : List (Command Act)}
    (h : LoopAt opts panic G body next tail inner cs) (hin : Inside len s.index) :
    Standing opts len panic G inner (treeCode opts body ++ (.loop (treeCode opts body) :: cs)) s := by
  obtain ⟨nodes, code, rest, cs', rfl, htail, hnodes, hfine, hcs⟩ := h.follows
  have hstand := standing_of_ready (.start (placed_of_inside hin)) (nodesFine_children h.ok)
    (emitsAll_children h.emits) (Frames.loop h.start h.emits h.ok htail hnodes hfine hcs)
  rw [commandsAll_children] at hstand
  exact hstand

/-- Out of a loop: what follows it. -/
theorem LoopAt.leave {body : BF} {next tail : BlockId} {inner : List Instr} {cs : List (Command Act)}
    (h : LoopAt opts panic G body next tail inner cs) (hin : Inside len s.index) :
    ∃ code, G tail = some code ∧ Standing opts len panic G code cs s := by
  obtain ⟨nodes, code, rest, cs', rfl, htail, hnodes, hfine, hcs⟩ := h.follows
  exact ⟨code, htail, standing_of_ready (.start (placed_of_inside hin)) hfine hnodes hcs⟩

/-- **The code follows the program**: one step. -/
theorem Standing.move (hsetup : Setup opts len panic G) {code : List Instr}
    {cs : List (Command Act)} (hrel : Rel len s m) (h : Standing opts len panic G code cs s) :
    (∃ c, step G (code, m) = .inl c ∧ ∃ p, Matches opts len panic G c p ∧
      (Relation.TransGen (Moves (compiled opts len).next) (cs, s) p ∨
        p = (cs, s) ∧ delay c < delay (code, m))) ∨
    ∃ r r', step G (code, m) = .inr r ∧ Answers len r r' ∧
      (compiled opts len).next (cs, s) = .inr r' := by
  cases h with
  | op hst hops hplaced hstart hfine hnodes hcs =>
      obtain ⟨m', hrun, hrel', -⟩ := run_effectIn hsetup hrel hst hops hplaced
      have hready := ready_behind hops hplaced hstart
      exact Or.inl ⟨_, step_next hrun rfl, _, ⟨hrel', standing_of_ready hready hfine hnodes hcs⟩,
        Or.inl (.single (next_act (compiled_op _)))⟩
  | check hsat hops hknown hstart hfine hnodes hcs =>
      refine Or.inl (move_check hsetup hrel hknown fun hin => ?_)
      exact standing_of_ready (.leaf hops (placed_of_inside hin) hstart) hfine hnodes hcs
  | jump hloop hknown =>
      refine Or.inl ⟨_, step_block (t := 0) rfl rfl hloop.start, _, ⟨hrel, .start hloop hknown⟩,
        Or.inr ⟨rfl, ?_⟩⟩
      rw [delay_testInstr_next]
      exact Nat.one_lt_two
  | @start body next tail inner cs _ hloop hknown =>
      left
      rcases (run_test hsetup hrel hknown).2 with ⟨hin, htest, hrun⟩ | ⟨hin, htest, hrun⟩ |
        ⟨hsat, htest, hrun⟩
      · obtain ⟨code, htail, hstand⟩ := hloop.leave hin
        exact ⟨_, step_test_out hrun htail, _, ⟨hrel, hstand⟩, Or.inl (.single (next_loop _ _ htest))⟩
      · have hmove := next_loop (treeCode opts body) cs htest
        rw [if_pos rfl, List.append_assoc, List.singleton_append] at hmove
        exact ⟨_, step_test_next hrun, _, ⟨hrel, hloop.enter hin⟩, Or.inl (.single hmove)⟩
      · refine ⟨_, step_test_panic hsetup hsat hrun, _, ⟨hrel, .panics (next_loop_error htest)⟩,
          Or.inr ⟨rfl, ?_⟩⟩
        rw [delay_testInstr_next]
        exact Nat.zero_lt_one
  | close hloop hknown =>
      left
      rcases (run_test hsetup hrel hknown).2 with ⟨hin, htest, hrun⟩ | ⟨hin, htest, hrun⟩ |
        ⟨hsat, htest, hrun⟩
      · obtain ⟨code, htail, hstand⟩ := hloop.leave hin
        exact ⟨_, step_test_out hrun htail, _, ⟨hrel, hstand⟩, Or.inl (.single (next_loop _ _ htest))⟩
      · -- the first test looks again, at the same store
        refine ⟨_, step_test_same hrun hloop.start, _, ⟨hrel, .start hloop hknown⟩,
          Or.inr ⟨rfl, ?_⟩⟩
        rw [delay_testInstr_next, delay_testInstr_same]
        exact Nat.one_lt_two
      · refine ⟨_, step_test_panic hsetup hsat hrun, _, ⟨hrel, .panics (next_loop_error htest)⟩,
          Or.inr ⟨rfl, ?_⟩⟩
        rw [delay_testInstr_same]
        exact Nat.zero_lt_two
  | final hknown => exact Or.inl (move_check hsetup hrel hknown fun _ => .done)
  | panics herror => exact Or.inr ⟨_, .error (), step_ret rfl, rfl, herror⟩
  | done => exact Or.inr ⟨_, .ok s, step_ret rfl, ⟨rfl, hrel⟩, rfl⟩

/-- **The code follows the program.** -/
theorem simulation (hsetup : Setup opts len panic G) :
    Simulation (step G) (compiled opts len).next (Matches opts len panic G) (Answers len) delay := by
  constructor
  · rintro ⟨code, m⟩ ⟨cs, s⟩ c' ⟨hrel, hstand⟩ hstep
    rcases hstand.move hsetup hrel with ⟨c, hc, p, hp, hmoves⟩ | ⟨r, r', hr, -, -⟩
    · obtain rfl := Sum.inl.inj (hc.symm.trans hstep)
      refine ⟨p, hp, hmoves.imp id ?_⟩
      rintro ⟨rfl, hlt⟩
      exact ⟨.refl, hlt⟩
    · cases hr.symm.trans hstep
  · rintro ⟨code, m⟩ ⟨cs, s⟩ r ⟨hrel, hstand⟩ hstep
    rcases hstand.move hsetup hrel with ⟨c, hc, -⟩ | ⟨r', out, hr, hanswer, hnext⟩
    · cases hc.symm.trans hstep
    · obtain rfl := Sum.inr.inj (hr.symm.trans hstep)
      exact ⟨out, hanswer, .result hnext⟩

end Simulation

end Patchouly.Bf
