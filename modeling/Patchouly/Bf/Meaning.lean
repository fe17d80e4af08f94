import Patchouly.Bf.Parse
import Patchouly.Lib.Commands
import Mathlib.Logic.Function.Basic

/-!
# What operations mean

A store is a tape of bytes without ends, an index into it, the input that is left and the output. The
same commands run in two ways. `guarded P` stops at once when the index leaves `P`: with no bound it is
the plain meaning of a program, with the tape's bounds the strict one. `checked P` looks at the index at
the tests of loops and at the explicit checks only, as the compiled code does.

`Rule` lists the replacements of the parser and the compiler. A replacement may keep the index inside
where the original left it for a moment, so the strict meaning is kept in one direction only.
-/

set_option autoImplicit false

namespace Patchouly.Bf

open Patchouly.Lib

@[ext]
structure Store where
  tape : Int → U8
  index : Int
  input : List U8
  output : List U8

namespace Store

def cell (s : Store) : U8 := s.tape s.index

def setCell (s : Store) (v : U8) : Store := { s with tape := Function.update s.tape s.index v }

@[simp] theorem setCell_index (s : Store) (v : U8) : (s.setCell v).index = s.index := rfl

@[simp] theorem setCell_cell (s : Store) (v : U8) : (s.setCell v).cell = v :=
  Function.update_self ..

@[simp] theorem setCell_setCell (s : Store) (v w : U8) :
    (s.setCell v).setCell w = s.setCell w := by
  simp [setCell]

@[simp] theorem setCell_self (s : Store) : s.setCell s.cell = s := by
  simp [setCell, cell]

end Store

/-- An operation on the tape. Past its end the input reads as zero. -/
def Op.effect : Op → Store → Store
  | .incDec n, s => s.setCell (s.cell + BitVec.ofInt 8 n)
  | .leftRight n, s => { s with index := s.index + n }
  | .input, s => { s.setCell (s.input.headD 0) with input := s.input.tail }
  | .output, s => { s with output := s.output ++ [s.cell] }
  | .setZero, s => s.setCell 0
  | .addTo n, s =>
      let cleared := s.setCell 0
      { cleared with tape :=
          Function.update cleared.tape (s.index + n) (cleared.tape (s.index + n) + s.cell) }

/-- The same where moves stop at the ends of a tape of `len` cells. -/
def Op.clamped (len : Nat) : Op → Store → Store
  | .leftRight n, s => { s with index := max 0 (min (s.index + n) (len - 1)) }
  | op, s => op.effect s

/-- What a program does: an operation, or a look at the index. -/
inductive Act where
  | op (op : Op)
  | check

section Interps

variable (P : Int → Prop) [DecidablePred P]

/-- Stops as soon as the index is outside `P`. -/
def guarded : Interp Act Store Unit where
  act
    | .op op, s => if P (op.effect s).index then .ok (op.effect s) else .error ()
    | .check, s => if P s.index then .ok s else .error ()
  test s := if P s.index then .ok (s.cell != 0) else .error ()

/-- Stops at checks and tests outside `P`. -/
def checked : Interp Act Store Unit where
  act
    | .op op, s => .ok (op.effect s)
    | .check, s => if P s.index then .ok s else .error ()
  test s := if P s.index then .ok (s.cell != 0) else .error ()

end Interps

/-- The tape has no bounds. -/
abbrev plain : Interp Act Store Unit := guarded fun _ => True

/-- The indices of a tape. -/
abbrev Inside (len : Nat) (i : Int) : Prop := 0 ≤ i ∧ i < len

/-- Moves stop at the ends of the tape, so tests look at no bounds. -/
def saturated (len : Nat) : Interp Act Store Unit where
  act
    | .op op, s => .ok (op.clamped len s)
    | .check, s => if Inside len s.index then .ok s else .error ()
  test s := .ok (s.cell != 0)

abbrev strict (len : Nat) : Interp Act Store Unit := guarded (Inside len)

/-- A program of operations only. -/
abbrev straight (ops : List Op) : List (Command Act) := ops.map fun op => .act (.op op)

namespace BF

mutual

/-- The program of a tree, with the code of its leaves. -/
def commands (leafCode : List Op → List (Command Act)) : BF → List (Command Act)
  | .leaf ops => leafCode ops
  | .node nodes => commandsAll leafCode nodes
  | .loop body => [.loop (commands leafCode body)]

def commandsAll (leafCode : List Op → List (Command Act)) : List BF → List (Command Act)
  | [] => []
  | first :: nodes => commands leafCode first ++ commandsAll leafCode nodes

end

theorem commandsAll_append (leafCode : List Op → List (Command Act)) (nodes nodes' : List BF) :
    commandsAll leafCode (nodes ++ nodes') =
      commandsAll leafCode nodes ++ commandsAll leafCode nodes' := by
  induction nodes with
  | nil => rfl
  | cons first rest ih => simp only [List.cons_append, commandsAll, ih, List.append_assoc]

end BF

/-- Replacements of what has no effect on the tape, whether moves saturate or not. -/
inductive Idle : List (Command Act) → List (Command Act) → Prop
  | incDec : Idle (straight [.incDec 0]) []
  | leftRight : Idle (straight [.leftRight 0]) []
  | check : Idle [] [.act .check]

/-- The replacements. -/
inductive Rule : List (Command Act) → List (Command Act) → Prop
  | incDec (a b : Int) : Rule (straight [.incDec a, .incDec b]) (straight [.incDec (a + b)])
  | leftRight (a b : Int) :
      Rule (straight [.leftRight a, .leftRight b]) (straight [.leftRight (a + b)])
  | zero : Rule [.loop (straight [.incDec (-1)])] (straight [.setZero])
  | addTo {n : Int} (h : n ≠ 0) :
      Rule [.loop (straight [.incDec (-1), .leftRight n, .incDec 1, .leftRight (-n)])]
        (straight [.addTo n])
  | idle {cs ds : List (Command Act)} (h : Idle cs ds) : Rule cs ds

section Soundness

variable {P : Int → Prop} [DecidablePred P] {A : Prop} {s : Store} {out : Except Unit Store}

theorem guarded_op {op : Op} (h : P (op.effect s).index) :
    (guarded P).act (.op op) s = .ok (op.effect s) := if_pos h

theorem guarded_op_of_not {op : Op} (h : ¬ P (op.effect s).index) :
    (guarded P).act (.op op) s = .error () := if_neg h

theorem guarded_test (h : P s.index) : (guarded P).test s = .ok (s.cell != 0) := if_pos h

/-- One operation, and its outcome. -/
theorem runs_op {op : Op} {rest : List (Command Act)} :
    Runs (guarded P) (.act (.op op) :: rest) s out ↔
      (¬ P (op.effect s).index ∧ out = .error ()) ∨
        (P (op.effect s).index ∧ Runs (guarded P) rest (op.effect s) out) := by
  rw [runs_act_cons]
  by_cases h : P (op.effect s).index
  · simp [guarded_op h, h]
  · simp only [guarded_op_of_not h, h]
    constructor
    · rintro (⟨r, -, hout⟩ | ⟨s', hs', -⟩)
      · exact Or.inl ⟨not_false, hout⟩
      · cases hs'
    · rintro (⟨-, hout⟩ | ⟨h', -⟩)
      · exact Or.inl ⟨(), trivial, hout⟩
      · exact absurd h' not_false

/-- The guarded meaning compared with itself. -/
theorem guarded_self : CoversActs (fun s => P s.index) A (guarded P) (guarded P) := by
  constructor
  · intro a s out hs hout hrun
    cases out with
    | error r =>
        refine Or.inl ⟨hout.elim id ?_, r, hrun⟩
        rintro ⟨s', hs'⟩
        cases hs'
    | ok s' =>
        refine Or.inr ⟨s', rfl, hrun, ?_⟩
        rw [runs_act] at hrun
        cases a with
        | op op =>
            simp only [guarded] at hrun
            split at hrun
            · next h =>
              obtain rfl := Except.ok.inj hrun
              exact h
            · cases hrun
        | check =>
            simp only [guarded, if_pos hs] at hrun
            obtain rfl := Except.ok.inj hrun
            exact hs
  · intro s r hs _ htest
    exact ⟨r, htest⟩
  · intro s go hs htest
    exact Or.inl htest

/-! ### Loops that count a cell down -/

theorem incDec_incDec (a b : Int) (s : Store) :
    (Op.incDec b).effect ((Op.incDec a).effect s) = (Op.incDec (a + b)).effect s := by
  simp only [Op.effect, Store.setCell_cell, Store.setCell_setCell, BitVec.ofInt_add]
  rw [BitVec.add_assoc]

theorem add_minus_one (v : U8) : v + BitVec.ofInt 8 (-1) = v - 1 := by
  have h : BitVec.ofInt 8 (-1) = 255#8 := by decide
  rw [h]
  bv_omega

/-- A loop whose rounds take one off the cell and keep the result `final`. -/
theorem runs_countdown (round : Store → Store) {body : List (Command Act)} {Q : Store → Prop}
    {final : Store → Store}
    (hinside : ∀ s, Q s → P s.index)
    (hround : ∀ s, Q s → s.cell ≠ 0 → Runs (guarded P) body s (.ok (round s)) ∧ Q (round s) ∧
      (round s).cell = s.cell - 1 ∧ final (round s) = final s)
    (hend : ∀ s, s.cell = 0 → final s = s) (hs : Q s) :
    Runs (guarded P) [.loop body] s (.ok (final s)) := by
  induction hn : s.cell.toNat using Nat.strongRecOn generalizing s with
  | _ n ih =>
    have htest := guarded_test (hinside s hs)
    by_cases hzero : s.cell = 0
    · rw [hzero] at htest
      exact runs_loop.2 (Or.inr (Or.inl ⟨htest, by rw [hend s hzero]⟩))
    · rw [bne_iff_ne.2 hzero] at htest
      obtain ⟨hbody, hs', hcell, hfinal⟩ := hround s hs hzero
      refine runs_loop.2 (Or.inr (Or.inr ⟨htest, runs_append.2 (Or.inr ⟨_, hbody, ?_⟩)⟩))
      rw [← hfinal]
      apply ih (round s).cell.toNat _ hs' rfl
      rw [hcell, ← hn]
      bv_omega

theorem runs_zero (hs : P s.index) :
    Runs (guarded P) [.loop (straight [.incDec (-1)])] s (.ok (Op.setZero.effect s)) := by
  refine runs_countdown (Op.incDec (-1)).effect (Q := fun s => P s.index) (fun _ h => h)
    ?_ ?_ hs
  · intro s hs _
    refine ⟨runs_op.2 (Or.inr ⟨hs, runs_nil.2 rfl⟩), hs, ?_, ?_⟩
    · simp only [Op.effect, Store.setCell_cell, add_minus_one]
    · simp [Op.effect]
  · intro s hcell
    rw [Op.effect, ← hcell, Store.setCell_self]

/-- The four operations of a round that adds one cell to another. -/
def addToRound (n : Int) (s : Store) : Store :=
  (Op.leftRight (-n)).effect ((Op.incDec 1).effect
    ((Op.leftRight n).effect ((Op.incDec (-1)).effect s)))

theorem addToRound_index (n : Int) (s : Store) : (addToRound n s).index = s.index := by
  simp [addToRound, Op.effect]

theorem addToRound_tape {n : Int} (h : n ≠ 0) (s : Store) (i : Int) :
    (addToRound n s).tape i = if i = s.index then s.cell - 1
      else if i = s.index + n then s.tape i + 1 else s.tape i := by
  have hne : s.index ≠ s.index + n := by omega
  by_cases h1 : i = s.index + n
  · subst h1
    simp [addToRound, Op.effect, Store.setCell, Store.cell, h]
  · by_cases h2 : i = s.index
    · subst h2
      have hminus := add_minus_one (s.tape s.index)
      simpa [addToRound, Op.effect, Store.setCell, Store.cell, Function.update_apply, h1] using hminus
    · simp [addToRound, Op.effect, Store.setCell, Store.cell, Function.update_apply, h1, h2]

theorem addToRound_cell {n : Int} (h : n ≠ 0) (s : Store) :
    (addToRound n s).cell = s.cell - 1 := by
  rw [Store.cell, addToRound_index, addToRound_tape h, if_pos rfl]

theorem addTo_tape {n : Int} (h : n ≠ 0) (s : Store) (i : Int) :
    ((Op.addTo n).effect s).tape i = if i = s.index then 0
      else if i = s.index + n then s.tape i + s.cell else s.tape i := by
  have hne : s.index ≠ s.index + n := by omega
  by_cases h1 : i = s.index + n
  · subst h1
    simp [Op.effect, Store.setCell, h]
  · simp [Op.effect, Store.setCell, Function.update_apply, h1]

/-- A round takes one from the cell and keeps what the loop ends with. -/
theorem addTo_addToRound {n : Int} (h : n ≠ 0) (s : Store) :
    (Op.addTo n).effect (addToRound n s) = (Op.addTo n).effect s := by
  apply Store.ext
  · funext i
    simp only [addTo_tape h, addToRound_tape h, addToRound_cell h, addToRound_index]
    split
    · rfl
    · split
      · bv_omega
      · rfl
  · exact addToRound_index n s
  · rfl
  · rfl

theorem addTo_of_zero {n : Int} (h : n ≠ 0) (hzero : s.cell = 0) : (Op.addTo n).effect s = s := by
  apply Store.ext
  · funext i
    rw [addTo_tape h, hzero]
    split
    · next hi =>
      rw [hi]
      exact hzero.symm
    · split
      · exact BitVec.add_zero _
      · rfl
  · rfl
  · rfl
  · rfl

/-- The loop adds the cell to the other one if that is inside or the cell is zero, and stops else. -/
theorem runs_addTo {n : Int} (h : n ≠ 0) (hs : P s.index) :
    let round := straight [.incDec (-1), .leftRight n, .incDec 1, .leftRight (-n)]
    Runs (guarded P) [.loop round] s (.ok ((Op.addTo n).effect s)) ∨
      Runs (guarded P) [.loop round] s (.error ()) := by
  by_cases hto : P (s.index + n)
  · left
    refine runs_countdown (addToRound n) (Q := fun s => P s.index ∧ P (s.index + n))
      (fun _ h => h.1) ?_ (fun s => addTo_of_zero h) ⟨hs, hto⟩
    rintro s ⟨hs, hto⟩ -
    have hback : P (addToRound n s).index := by
      rw [addToRound_index]
      exact hs
    refine ⟨?_, ?_, addToRound_cell h s, addTo_addToRound h s⟩
    · exact runs_op.2 (Or.inr ⟨hs, runs_op.2 (Or.inr ⟨hto, runs_op.2 (Or.inr ⟨hto,
        runs_op.2 (Or.inr ⟨hback, runs_nil.2 rfl⟩)⟩)⟩)⟩)
    · rw [addToRound_index]
      exact ⟨hs, hto⟩
  · have htest := guarded_test hs
    by_cases hzero : s.cell = 0
    · left
      rw [addTo_of_zero h hzero]
      rw [hzero] at htest
      exact runs_loop.2 (Or.inr (Or.inl ⟨htest, rfl⟩))
    · -- the first move of the first round leaves the tape
      right
      rw [bne_iff_ne.2 hzero] at htest
      exact runs_loop.2 (Or.inr (Or.inr ⟨htest, runs_op.2 (Or.inr ⟨hs, runs_op.2 (Or.inl
        ⟨hto, rfl⟩)⟩)⟩))

/-! ### Soundness of the rules -/

theorem leftRight_leftRight (a b : Int) (s : Store) :
    (Op.leftRight b).effect ((Op.leftRight a).effect s) = (Op.leftRight (a + b)).effect s := by
  simp only [Op.effect, Int.add_assoc]

theorem incDec_zero (s : Store) : (Op.incDec 0).effect s = s := by
  have h : BitVec.ofInt 8 0 = 0#8 := by decide
  rw [Op.effect, h, BitVec.add_zero, Store.setCell_self]

theorem leftRight_zero (s : Store) : (Op.leftRight 0).effect s = s := by
  simp only [Op.effect, Int.add_zero]

theorem runs_op_of_inside (op : Op) (h : P (op.effect s).index) :
    Runs (guarded P) (straight [op]) s (.ok (op.effect s)) :=
  runs_op.2 (Or.inr ⟨h, runs_nil.2 rfl⟩)

/-- **The outcomes of a replacement**: those of the original, or an end where the original stops. -/
theorem rule_outcomes {cs ds : List (Command Act)} (h : Rule cs ds) (hs : P s.index) :
    (∃ s', Runs (guarded P) ds s (.ok s') ∧ P s'.index ∧
      (Runs (guarded P) cs s (.ok s') ∨ Runs (guarded P) cs s (.error ()))) ∨
    Runs (guarded P) ds s (.error ()) ∧ Runs (guarded P) cs s (.error ()) := by
  cases h with
  | incDec a b =>
      refine Or.inl ⟨_, runs_op_of_inside _ hs, hs, Or.inl ?_⟩
      rw [← incDec_incDec]
      exact runs_op.2 (Or.inr ⟨hs, runs_op_of_inside _ hs⟩)
  | leftRight a b =>
      by_cases hab : P (s.index + (a + b))
      · refine Or.inl ⟨_, runs_op_of_inside _ hab, hab, ?_⟩
        rw [← leftRight_leftRight] at *
        by_cases ha : P (s.index + a)
        · have hb : P ((Op.leftRight b).effect ((Op.leftRight a).effect s)).index := by
            rw [leftRight_leftRight]
            exact hab
          exact Or.inl (runs_op.2 (Or.inr ⟨ha, runs_op_of_inside _ hb⟩))
        · exact Or.inr (runs_op.2 (Or.inl ⟨ha, rfl⟩))
      · refine Or.inr ⟨runs_op.2 (Or.inl ⟨hab, rfl⟩), ?_⟩
        by_cases ha : P (s.index + a)
        · have hb : ¬ P ((Op.leftRight b).effect ((Op.leftRight a).effect s)).index := by
            rw [leftRight_leftRight]
            exact hab
          exact runs_op.2 (Or.inr ⟨ha, runs_op.2 (Or.inl ⟨hb, rfl⟩)⟩)
        · exact runs_op.2 (Or.inl ⟨ha, rfl⟩)
  | zero => exact Or.inl ⟨_, runs_op_of_inside _ hs, hs, Or.inl (runs_zero hs)⟩
  | addTo hn => exact Or.inl ⟨_, runs_op_of_inside _ hs, hs, runs_addTo hn hs⟩
  | idle h =>
      cases h with
      | incDec =>
          have hrun := runs_op_of_inside (.incDec 0) hs
          rw [incDec_zero] at hrun
          exact Or.inl ⟨s, runs_nil.2 rfl, hs, Or.inl hrun⟩
      | leftRight =>
          have hrun := runs_op_of_inside (.leftRight 0) (P := P) (s := s) (by
            rw [leftRight_zero]
            exact hs)
          rw [leftRight_zero] at hrun
          exact Or.inl ⟨s, runs_nil.2 rfl, hs, Or.inl hrun⟩
      | check => exact Or.inl ⟨s, runs_act.2 (if_pos hs).symm, hs, Or.inl (runs_nil.2 rfl)⟩

/-- Without bounds nothing stops. -/
theorem ok_of_runs_total (hP : ∀ i, P i) {cs : List (Command Act)} (h : Runs (guarded P) cs s out) :
    ∃ s', out = .ok s' := by
  have hact : ∀ a s, True → ∃ s', (guarded P).act a s = .ok s' ∧ True := by
    intro a s _
    cases a with
    | op op => exact ⟨_, guarded_op (hP _), trivial⟩
    | check => exact ⟨s, if_pos (hP _), trivial⟩
  obtain ⟨s', hs', -⟩ := ok_of_runs (fun _ => True) hact (fun s _ => ⟨_, guarded_test (hP _)⟩) trivial h
  exact ⟨s', hs'⟩

/-- **A program and its replacement**, in the guarded meaning. -/
theorem rewrites_covers {cs ds : List (Command Act)} (h : Rewrites Rule cs ds) :
    Covers (fun s => P s.index) False (guarded P) (guarded P) cs ds := by
  refine h.covers guarded_self ?_
  intro cs ds h s out hs hout hrun
  obtain ⟨s', rfl⟩ : ∃ s', out = .ok s' := hout.elim False.elim id
  right
  rcases rule_outcomes h hs with ⟨t, hds, hinside, hcs | hcs⟩ | ⟨-, hcs⟩
  · obtain rfl := Except.ok.inj (hrun.unique hcs)
    exact ⟨s', rfl, hds, hinside⟩
  · cases hrun.unique hcs
  · cases hrun.unique hcs

theorem rewrites_covers_flip (hA : A ∨ ∀ i, P i) {cs ds : List (Command Act)}
    (h : Rewrites Rule cs ds) :
    Covers (fun s => P s.index) A (guarded P) (guarded P) ds cs := by
  refine h.covers_flip guarded_self ?_
  intro cs ds h s out hs hout hrun
  have hstops : Runs (guarded P) cs s (.error ()) → A := by
    intro hcs
    refine hA.elim id fun hP => ?_
    obtain ⟨s', hs'⟩ := ok_of_runs_total hP hcs
    cases hs'
  rcases rule_outcomes h hs with ⟨t, hds, hinside, hcs | hcs⟩ | ⟨hds, hcs⟩
  · exact Or.inr ⟨t, hrun.unique hds, hcs, hinside⟩
  · exact Or.inl ⟨hstops hcs, (), hcs⟩
  · exact Or.inl ⟨hstops hcs, (), hcs⟩

/-! ### Checks -/

theorem checked_plain : CoversActs (fun _ => True) False (checked P) plain := by
  constructor
  · intro a s out _ hout hrun
    obtain ⟨s', rfl⟩ : ∃ s', out = .ok s' := hout.elim False.elim id
    refine Or.inr ⟨s', rfl, runs_act.2 ?_, trivial⟩
    have hact := runs_act.1 hrun
    cases a with
    | op op => exact hact
    | check =>
        simp only [checked] at hact
        split at hact
        · exact hact
        · cases hact
  · intro s r _ ha
    exact ha.elim
  · intro s go _ htest
    simp only [checked] at htest
    split at htest
    · exact Or.inl htest
    · cases htest

theorem checked_guarded : CoversActs (fun s => P s.index) True (checked P) (guarded P) := by
  constructor
  · intro a s out hs _ hrun
    have hact := runs_act.1 hrun
    cases a with
    | op op =>
        by_cases hin : P (op.effect s).index
        · exact Or.inr ⟨_, hact, runs_act.2 (guarded_op hin).symm, hin⟩
        · exact Or.inl ⟨trivial, (), runs_act.2 (guarded_op_of_not hin).symm⟩
    | check =>
        rw [show (checked P).act .check s = .ok s from if_pos hs] at hact
        exact Or.inr ⟨s, hact, runs_act.2 (if_pos hs).symm, hs⟩
  · intro s r _ _ htest
    exact ⟨r, htest⟩
  · intro s go _ htest
    exact Or.inl htest

theorem plain_checked : CoversActs (fun _ => True) True plain (checked P) := by
  constructor
  · intro a s out _ _ hrun
    have hact := runs_act.1 hrun
    cases a with
    | op op => exact Or.inr ⟨_, hact, runs_act.2 rfl, trivial⟩
    | check =>
        by_cases hin : P s.index
        · exact Or.inr ⟨s, hact, runs_act.2 (if_pos hin).symm, trivial⟩
        · exact Or.inl ⟨trivial, (), runs_act.2 (if_neg hin).symm⟩
  · intro s r _ _ htest
    cases htest
  · intro s go _ htest
    by_cases hin : P s.index
    · left
      rw [show (checked P).test s = .ok (s.cell != 0) from if_pos hin]
      exact htest
    · exact Or.inr ⟨trivial, (), if_neg hin⟩

variable {source code : List (Command Act)}

/-- An end of the checked code is the end of the program without bounds. -/
theorem plain_of_checked (h : Rewrites Rule source code) {s' : Store}
    (hrun : Runs (checked P) code s (.ok s')) : Runs plain source s (.ok s') := by
  have hcover := ((checked_plain (P := P)).commands code).trans
    (rewrites_covers_flip (P := fun _ => True) (Or.inr fun _ => trivial) h)
  rcases hcover s _ trivial (Or.inr ⟨s', rfl⟩) hrun with ⟨hfalse, -⟩ | ⟨t, ht, hsource, -⟩
  · exact hfalse.elim
  · obtain rfl := Except.ok.inj ht
    exact hsource

/-- An end of the program without bounds is an end of the checked code, or the code stops. -/
theorem checked_of_plain (h : Rewrites Rule source code) {s' : Store}
    (hrun : Runs plain source s (.ok s')) :
    Runs (checked P) code s (.ok s') ∨ Runs (checked P) code s (.error ()) := by
  rcases rewrites_covers (P := fun _ => True) h s _ trivial (Or.inr ⟨s', rfl⟩) hrun with
    ⟨hfalse, -⟩ | ⟨t, ht, hcode, -⟩
  · exact hfalse.elim
  · obtain rfl := Except.ok.inj ht
    rcases (plain_checked (P := P)).commands code s _ trivial (Or.inl trivial) hcode with
      ⟨-, ⟨⟩, hstop⟩ | ⟨t, ht, hend, -⟩
    · exact Or.inr hstop
    · obtain rfl := Except.ok.inj ht
      exact Or.inl hend

/-- Where the checked code stops, the program leaves the bounds. -/
theorem guarded_stops_of_checked (h : Rewrites Rule source code) (hs : P s.index)
    (hrun : Runs (checked P) code s (.error ())) : Runs (guarded P) source s (.error ()) := by
  have hcover := ((checked_guarded (P := P)).commands code).trans
    (rewrites_covers_flip (P := P) (A := True) (Or.inl trivial) h)
  rcases hcover s _ hs (Or.inl trivial) hrun with ⟨-, ⟨⟩, hsource⟩ | ⟨t, ht, -⟩
  · exact hsource
  · cases ht

end Soundness

/-! ### Saturation -/

section Saturation

variable {len : Nat} {s : Store}

theorem clamped_inside (op : Op) (h : Inside len s.index) : Inside len (op.clamped len s).index := by
  obtain ⟨h0, h1⟩ := h
  cases op with
  | leftRight n =>
      simp only [Op.clamped]
      constructor <;> omega
  | _ => exact ⟨h0, h1⟩

theorem clamped_of_inside (op : Op) (h : Inside len (op.effect s).index) :
    op.clamped len s = op.effect s := by
  cases op with
  | leftRight n =>
      obtain ⟨h0, h1⟩ := h
      simp only [Op.effect] at h0 h1
      simp only [Op.clamped, Op.effect, Store.mk.injEq, true_and, and_true]
      omega
  | _ => rfl

theorem saturated_check (h : Inside len s.index) : (saturated len).act .check s = .ok s := if_pos h

theorem saturated_self :
    CoversActs (fun s => Inside len s.index) False (saturated len) (saturated len) := by
  constructor
  · intro a s out hs _ hrun
    have hact := runs_act.1 hrun
    cases a with
    | op op => exact Or.inr ⟨_, hact, runs_act.2 rfl, clamped_inside op hs⟩
    | check =>
        rw [saturated_check hs] at hact
        exact Or.inr ⟨s, hact, runs_act.2 (saturated_check hs).symm, hs⟩
  · intro s r _ hfalse
    exact hfalse.elim
  · intro s go _ htest
    exact Or.inl htest

/-- A program that stays on the tape does not notice that moves saturate. -/
theorem strict_saturated :
    CoversActs (fun s => Inside len s.index) False (strict len) (saturated len) := by
  constructor
  · intro a s out hs hout hrun
    obtain ⟨s', rfl⟩ : ∃ s', out = .ok s' := hout.elim False.elim id
    have hact := runs_act.1 hrun
    cases a with
    | op op =>
        by_cases hin : Inside len (op.effect s).index
        · rw [guarded_op hin] at hact
          obtain rfl := Except.ok.inj hact
          refine Or.inr ⟨_, rfl, runs_act.2 ?_, hin⟩
          rw [← clamped_of_inside op hin]
          rfl
        · rw [guarded_op_of_not hin] at hact
          cases hact
    | check =>
        rw [show (strict len).act .check s = .ok s from if_pos hs] at hact
        obtain rfl := Except.ok.inj hact
        exact Or.inr ⟨_, rfl, runs_act.2 (saturated_check hs).symm, hs⟩
  · intro s r _ hfalse
    exact hfalse.elim
  · intro s go hs htest
    rw [guarded_test hs] at htest
    exact Or.inl htest

/-- Both sides of an idle replacement end where they start. -/
theorem idle_runs {cs ds : List (Command Act)} (h : Idle cs ds) (hs : Inside len s.index) :
    Runs (saturated len) cs s (.ok s) ∧ Runs (saturated len) ds s (.ok s) := by
  have hop : ∀ op : Op, op.effect s = s → Runs (saturated len) (straight [op]) s (.ok s) := by
    intro op heffect
    have hin : Inside len (op.effect s).index := by
      rw [heffect]
      exact hs
    have hclamped := clamped_of_inside op hin
    rw [heffect] at hclamped
    exact runs_act.2 (congrArg Except.ok hclamped).symm
  cases h with
  | incDec => exact ⟨hop _ (incDec_zero s), runs_nil.2 rfl⟩
  | leftRight => exact ⟨hop _ (leftRight_zero s), runs_nil.2 rfl⟩
  | check => exact ⟨runs_nil.2 rfl, runs_act.2 (saturated_check hs).symm⟩

theorem saturated_of_idle {cs ds : List (Command Act)} (h : Rewrites Idle cs ds)
    (hs : Inside len s.index) (s' : Store) :
    Runs (saturated len) cs s (.ok s') ↔ Runs (saturated len) ds s (.ok s') := by
  have hcovers : ∀ {cs ds : List (Command Act)},
      Covers (fun s => Inside len s.index) False (saturated len) (saturated len) cs ds →
        Runs (saturated len) cs s (.ok s') → Runs (saturated len) ds s (.ok s') := by
    intro cs ds hcover hrun
    rcases hcover s _ hs (Or.inr ⟨s', rfl⟩) hrun with ⟨hfalse, -⟩ | ⟨t, ht, hrun', -⟩
    · exact hfalse.elim
    · obtain rfl := Except.ok.inj ht
      exact hrun'
  constructor
  · apply hcovers
    refine h.covers saturated_self fun cs ds hidle s out hs _ hrun => ?_
    obtain ⟨hcs, hds⟩ := idle_runs hidle hs
    exact Or.inr ⟨s, hrun.unique hcs, hds, hs⟩
  · apply hcovers
    refine h.covers_flip saturated_self fun cs ds hidle s out hs _ hrun => ?_
    obtain ⟨hcs, hds⟩ := idle_runs hidle hs
    exact Or.inr ⟨s, hrun.unique hds, hcs, hs⟩

/-- Moves that saturate stay on the tape, and nothing stops the run. -/
theorem ok_of_saturated {cs : List (Command Act)} {out : Except Unit Store} (hs : Inside len s.index)
    (h : Runs (saturated len) cs s out) : ∃ s', out = .ok s' ∧ Inside len s'.index := by
  refine ok_of_runs (fun s => Inside len s.index) ?_ (fun s _ => ⟨_, rfl⟩) hs h
  intro a s hs
  cases a with
  | op op => exact ⟨_, rfl, clamped_inside op hs⟩
  | check => exact ⟨s, saturated_check hs, hs⟩

/-- A program that ends without leaving the tape has the same end after its replacements where moves
saturate. -/
theorem saturated_of_strict {source code : List (Command Act)} (h : Rewrites Rule source code)
    (hs : Inside len s.index) {s' : Store} (hrun : Runs (strict len) source s (.ok s')) :
    Runs (saturated len) code s (.ok s') := by
  have hcover := (rewrites_covers (P := Inside len) h).trans (strict_saturated.commands code)
  rcases hcover s _ hs (Or.inr ⟨s', rfl⟩) hrun with ⟨hfalse, -⟩ | ⟨t, ht, hcode, -⟩
  · exact hfalse.elim
  · obtain rfl := Except.ok.inj ht
    exact hcode

end Saturation

end Patchouly.Bf
