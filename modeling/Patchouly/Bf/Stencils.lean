import Patchouly.Lib.Machines
import Patchouly.Core.Relocation
import Mathlib.Logic.Function.Basic

/-!
# The stencils (`examples/bf-stencils/src/lib.rs`)

`BfStencil` names the stencils with the values in their holes, and `BfStencil.run` is the body of each.
The stencils are built in release mode, so their arithmetic wraps. A cell is named by its distance from the
tape pointer `dp`; `BfStencil.accesses` are the cells a stencil reads or writes.

A program is a map from block ids to code, and code is a list of stencils with their jump targets. `step`
follows the targets from stencil to stencil.
-/

set_option autoImplicit false

namespace Patchouly.Bf

open Patchouly.Lib Patchouly.Core

/-- The cells and the registers `len` and `i`; `stdin` and `stdout` are the other ends of `input` and
`print`. -/
structure State where
  mem : Usize → U8
  len : Usize
  i : Usize
  stdin : List U8
  stdout : List U8

inductive BfStencil where
  | add1
  | addn (n : Usize)
  | sub1
  | subn (n : Usize)
  | check
  | left1
  | leftn (n : Usize)
  | left1Sat
  | leftnSat (n : Usize)
  | right1
  | rightn (n : Usize)
  | right1Sat (lim : Usize)
  | rightnSat (n lim : Usize)
  | print
  | read
  | ifZero
  | ifZeroUnchecked
  | jmp
  | ret (n : Usize)
  | set0
  | addTo (n : Usize)
  deriving DecidableEq, Repr

/-- How a stencil ends: with the jump to one of its targets, or with a result. -/
inductive Exit where
  | jump (target : Nat)
  | ret (n : Usize)

namespace State

def get (s : State) (i : Usize) : U8 := s.mem i

def set (s : State) (i : Usize) (v : U8) : State := { s with mem := Function.update s.mem i v }

end State

def saturatingSub (a b : Usize) : Usize := if a < b then 0 else a - b

def saturatingAdd (a b : Usize) : Usize :=
  if a.toNat + b.toNat < 2 ^ 64 then a + b else BitVec.allOnes 64

/-- `Ord::min`. -/
def minUsize (a b : Usize) : Usize := if b < a then b else a

namespace BfStencil

/-- The body of a stencil. `setup_stencils!` adds the jump at its end, to target 0. -/
def run (s : State) : BfStencil → Exit × State
  | add1 => (.jump 0, s.set s.i (s.get s.i + 1))
  | addn n => (.jump 0, s.set s.i (s.get s.i + n.setWidth 8))
  | sub1 => (.jump 0, s.set s.i (s.get s.i - 1))
  | subn n => (.jump 0, s.set s.i (s.get s.i - n.setWidth 8))
  | check => (.jump (if s.i < s.len then 0 else 1), s)
  | left1 => (.jump 0, { s with i := s.i - 1 })
  | leftn n => (.jump 0, { s with i := s.i - n })
  | left1Sat => (.jump 0, { s with i := saturatingSub s.i 1 })
  | leftnSat n => (.jump 0, { s with i := saturatingSub s.i n })
  | right1 => (.jump 0, { s with i := s.i + 1 })
  | rightn n => (.jump 0, { s with i := s.i + n })
  | right1Sat lim => (.jump 0, { s with i := minUsize (saturatingAdd s.i 1) lim })
  | rightnSat n lim => (.jump 0, { s with i := minUsize (saturatingAdd s.i n) lim })
  | print => (.jump 0, { s with stdout := s.stdout ++ [s.get s.i] })
  | read => (.jump 0, { s.set s.i (s.stdin.headD 0) with stdin := s.stdin.tail })
  | ifZero => (.jump (if s.i < s.len then if s.get s.i = 0 then 0 else 1 else 2), s)
  | ifZeroUnchecked => (.jump (if s.get s.i = 0 then 0 else 1), s)
  | jmp => (.jump 0, s)
  | ret n => (.ret n, s)
  | set0 => (.jump 0, s.set s.i 0)
  | addTo n =>
      let v := s.get s.i
      let s := s.set s.i 0
      (.jump 0, s.set (s.i + n) (s.get (s.i + n) + v))

/-- The cells that a stencil touches. -/
def accesses (s : State) : BfStencil → List Usize
  | add1 | addn _ | sub1 | subn _ | print | read | ifZeroUnchecked | set0 => [s.i]
  | ifZero => if s.i < s.len then [s.i] else []
  | addTo n => [s.i, s.i + n]
  | _ => []

end BfStencil

/-! ## Programs -/

/-- A stencil with the targets of its jumps. -/
structure Instr where
  stencil : BfStencil
  jumps : List JumpTarget

abbrev Graph := U16 → Option (List Instr)

/-- How a run ends: with a result, or where there is no code. -/
abbrev Outcome := Option (Usize × State)

/-- One stencil. -/
def step (G : Graph) : List Instr × State → (List Instr × State) ⊕ Outcome
  | ([], _) => .inr none
  | (instr :: rest, s) =>
      match instr.stencil.run s with
      | (.ret n, s) => .inr (some (n, s))
      | (.jump target, s) =>
          match instr.jumps[target]? with
          | none => .inr none
          | some .next => .inl (rest, s)
          | some (.target block) =>
              match G block with
              | none => .inr none
              | some code => .inl (code, s)

end Patchouly.Bf
