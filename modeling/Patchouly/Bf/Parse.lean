import Patchouly.Lib.Words

/-!
# Parsing (`examples/bf/src/main.rs`)

`BF.parse` splits a text at its brackets. A stretch without brackets is a leaf, a list of operations in
which neighbours of one kind are merged; `[-]` and loops that add one cell to another are single
operations. An open bracket at the end of the text is closed there, and what follows a close bracket
without an open one is left out.

The loop and the recursion of the source take fuel. A panic is `none` as well: the brackets a function
asserts, and the `i32` arithmetic with `checks`.
-/

set_option autoImplicit false

namespace Patchouly.Bf

open Patchouly.Lib

/-- `incDec` and `leftRight` are added up; `setZero` is `[-]`, `addTo n` is `[->>>+<<<]` with `n` moves. -/
inductive Op where
  | incDec (n : Int)
  | leftRight (n : Int)
  | input
  | output
  | setZero
  | addTo (n : Int)
  deriving DecidableEq, Repr

inductive BF where
  | leaf (ops : List Op)
  | node (nodes : List BF)
  | loop (body : BF)

/-- The result of an `i32` operation with the value `n`. -/
def plainI32 (checks : Bool) (n : Int) : Option Int :=
  if -2 ^ 31 ≤ n ∧ n < 2 ^ 31 then some n else if checks then none else some (n.bmod (2 ^ 32))

theorem plainI32_of_lt (checks : Bool) {n : Int} (h : -2 ^ 31 ≤ n ∧ n < 2 ^ 31) :
    plainI32 checks n = some n := if_pos h

namespace BF

/-! ## Leaves -/

/-- The operation of a character, if it stands for one. -/
def op? (c : U8) : Option Op :=
  match Char.ofNat c.toNat with
  | '+' => some (.incDec 1)
  | '-' => some (.incDec (-1))
  | '<' => some (.leftRight (-1))
  | '>' => some (.leftRight 1)
  | '.' => some .output
  | ',' => some .input
  | _ => none

def opening : U8 := 0x5B
def closing : U8 := 0x5D

def isBracket (c : U8) : Bool := c == opening || c == closing

def tryMerge (checks : Bool) (ops : List Op) (op : Op) : Option (List Op) :=
  match ops.getLast?, op with
  | some (.incDec a), .incDec b =>
      (plainI32 checks (a + b)).map fun n => ops.dropLast ++ [.incDec n]
  | some (.leftRight a), .leftRight b =>
      (plainI32 checks (a + b)).map fun n => ops.dropLast ++ [.leftRight n]
  | _, _ => some (ops ++ [op])

/-- The loop of `parse_leaf`. -/
def mergeAll (checks : Bool) : List U8 → List Op → Option (List Op)
  | [], ops => some ops
  | c :: rest, ops =>
      match op? c with
      | none => mergeAll checks rest ops
      | some op => (tryMerge checks ops op).bind (mergeAll checks rest)

/-- The operations up to the next bracket, and the text from there on. -/
def parseLeaf (checks : Bool) (code : List U8) : Option (List Op × List U8) :=
  (mergeAll checks (code.takeWhile fun c => !isBracket c) []).map fun ops =>
    (ops, code.dropWhile fun c => !isBracket c)

/-! ## Loops -/

/-- The offset of a loop that adds one cell to another. -/
def isAddTo (checks : Bool) : BF → Option (Option Int)
  | .loop (.leaf [.incDec (-1), .leftRight l, .incDec 1, .leftRight r]) =>
      if l = 0 then some none
      else do
        let opposite ← plainI32 checks (-r)
        if l = opposite then
          let size ← plainI32 checks l.natAbs
          return if size < 1024 then some l else none
        else return none
  | _ => some none

/-- A leaf behind a leaf is added to it. -/
def pushNode (nodes : List BF) (node : BF) : List BF :=
  match nodes.getLast?, node with
  | some (.leaf ops), .leaf added => nodes.dropLast ++ [.leaf (ops ++ added)]
  | _, _ => nodes ++ [node]

/-- The second special case of `parse_inner`. -/
def replaceAddTo (checks : Bool) (parsed : BF × List U8) : Option (BF × List U8) :=
  (isAddTo checks parsed.1).map fun
    | some offset => (.leaf [.addTo offset], parsed.2)
    | none => parsed

section Loop

variable (checks : Bool) (parseInner : List U8 → Option (BF × List U8))

/-- `parseInner` is the recursive call. -/
def parseLoop : List U8 → Option (BF × List U8)
  | [] => none
  | c :: code =>
      if c = opening then (parseInner code).map fun (inner, code) => (.loop inner, code.tail) else none

/-- One node of `parse_inner`'s loop, in front of a bracket or a leaf. -/
def parseNode (code : List U8) : Option (BF × List U8) :=
  match code with
  | c :: _ =>
      if c = opening then
        if [opening, 0x2D, closing].isPrefixOf code then some (.leaf [.setZero], code.drop 3)
        else (parseLoop parseInner code).bind (replaceAddTo checks)
      else (parseLeaf checks code).map fun (ops, code) => (.leaf ops, code)
  | [] => none

/-- The loop of `parse_inner`. -/
def parseNodes : Nat → List BF → List U8 → Option (List BF × List U8)
  | 0, _, _ => none
  | fuel + 1, nodes, code =>
      if code.isEmpty || code.head? == some closing then some (nodes, code)
      else do
        let (next, code) ← parseNode checks parseInner code
        parseNodes fuel (pushNode nodes next) code

end Loop

def parseInner (checks : Bool) : Nat → List U8 → Option (BF × List U8)
  | 0, _ => none
  | fuel + 1, code => do
      let (first, code) ← parseLeaf checks code
      if code.isEmpty then return (.leaf first, code)
      else
        let (nodes, code) ←
          parseNodes checks (parseInner checks fuel) (code.length + 1) [.leaf first] code
        return (.node nodes, code)

/-- Every call of `parse_inner` and every round of its loop is one character further. -/
def parse (checks : Bool) (code : List U8) : Option BF :=
  (parseInner checks (code.length + 1) code).map (·.1)

end BF

/-! ## Visiting -/

inductive BfVisitOp where
  | leaf (ops : List Op)
  | intoLoop
  | outOfLoop

namespace BF

mutual

/-- The calls of the visitor, in order. -/
def visit : BF → List BfVisitOp
  | .leaf ops => [.leaf ops]
  | .node nodes => visitAll nodes
  | .loop body => .intoLoop :: visit body ++ [.outOfLoop]

def visitAll : List BF → List BfVisitOp
  | [] => []
  | first :: nodes => visit first ++ visitAll nodes

end

end BF

end Patchouly.Bf
