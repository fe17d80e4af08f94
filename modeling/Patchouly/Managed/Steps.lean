import Patchouly.Managed.Effects

/-!
# One call of the interface

`exec_runs` lists the functions of the builder that a call can run, once for all operations.
`exec_change` says what a call does to the variables, the slots and the scope stack: nothing, or it
returns a fresh value, or it ends with a switch. `exec_code` says what it does to the code: nothing,
or a new empty block, or the one `PatchBlock` call that `blockCall` names.
-/

set_option autoImplicit false

namespace Patchouly.Managed

open Patchouly.Lib Patchouly.Core Patchouly.Patch PatchFunctionBuilder

variable {σ : Type → Type} [Slab σ] {MAX_REGS : Nat}

/-- The values a call uses as operands. -/
def Op.operands : Op MAX_REGS → List Value
  | .emit _ inputs outputs _ => inputs.toList ++ outputs.toList
  | .branch _ inputs outputs _ _ => inputs.toList ++ outputs.toList
  | .endBranch _ inputs outputs _ _ _ => inputs.toList ++ outputs.toList
  | .ret _ inputs _ => inputs.toList
  | _ => []

/-- The jumps of a call. -/
def Op.jumps : Op MAX_REGS → List JumpScope
  | .branch _ _ _ _ jumps => jumps.toList
  | .endBranch _ _ _ _ jumps _ => jumps.toList
  | _ => []

/-- The value a call returns, if it returns one. -/
def Machine.Outcome.value : Machine.Outcome → Option Value
  | .ok v => v
  | .error _ => none

namespace PatchFunctionBuilder

/-- The locations of operands that pass the check. -/
def lookup {LEN : Nat} (b : PatchFunctionBuilder σ MAX_REGS) (values : Vector Value LEN) :
    Option (Vector Location LEN) :=
  match locations b.allocator b.currentScopes values with
  | some (.ok ls) => some ls
  | _ => none

theorem lookup_of_locations {LEN : Nat} {b : PatchFunctionBuilder σ MAX_REGS}
    {values : Vector Value LEN} {ls : Vector Location LEN}
    (h : locations b.allocator b.currentScopes values = some (.ok ls)) :
    b.lookup values = some ls := by
  rw [lookup, h]

/-- Whether no jump names a parent out of scope. -/
def jumpsPass (b : PatchFunctionBuilder σ MAX_REGS) (id : BlockId) (jumps : List JumpScope) : Bool :=
  match prepJumps id jumps b with
  | some (false, _) => true
  | _ => false

end PatchFunctionBuilder

namespace Machine

/-- The `PatchBlock` call that a call of the interface makes, with its block. -/
def blockCall (m : Machine σ MAX_REGS) : Op MAX_REGS → Option (BlockId × Call MAX_REGS)
  | .emit stencil inputs outputs holes => do
      let id ← m.handles.head?
      return (id, .emit stencil (← m.builder.lookup inputs) (← m.builder.lookup outputs) holes)
  | .branch stencil inputs outputs holes jumps => do
      let id ← m.handles.head?
      let inputs ← m.builder.lookup inputs
      let outputs ← m.builder.lookup outputs
      if m.builder.jumpsPass id jumps.toList then
        some (id, .branch stencil inputs outputs holes (jumps.map JumpScope.target))
      else none
  | .endBranch stencil inputs outputs holes jumps _ => do
      let id ← m.handles.head?
      let inputs ← m.builder.lookup inputs
      let outputs ← m.builder.lookup outputs
      if m.builder.jumpsPass id jumps.toList then
        some (id, .endBranch stencil inputs outputs holes (jumps.map JumpScope.target))
      else none
  | .ret stencil inputs holes => do
      let id ← m.handles.head?
      return (id, .ret stencil (← m.builder.lookup inputs) holes)
  | _ => none

/-! Where the operands and the jumps pass, the block call is read off the operation. -/

section BlockCalls

variable {m : Machine σ MAX_REGS} {id : BlockId} {IN OUT HOLES JUMPS : Nat}
  {inputs : Vector Value IN} {outputs : Vector Value OUT} {holes : Vector Usize HOLES}
  {jumps : Vector JumpScope JUMPS} {ins : Vector Location IN} {outs : Vector Location OUT}

theorem blockCall_emit {stencil : StencilFamily IN OUT MAX_REGS HOLES 1}
    (hid : m.handles.head? = some id) (hin : m.builder.lookup inputs = some ins)
    (hout : m.builder.lookup outputs = some outs) :
    m.blockCall (.emit stencil inputs outputs holes) = some (id, .emit stencil ins outs holes) := by
  simp [blockCall, hid, hin, hout]

theorem blockCall_branch {stencil : StencilFamily IN OUT MAX_REGS HOLES JUMPS}
    (hid : m.handles.head? = some id) (ins : Vector Location IN) (outs : Vector Location OUT)
    (hin : m.builder.lookup inputs = some ins) (hout : m.builder.lookup outputs = some outs)
    (hpass : m.builder.jumpsPass id jumps.toList = true) :
    m.blockCall (.branch stencil inputs outputs holes jumps) =
      some (id, .branch stencil ins outs holes (jumps.map JumpScope.target)) := by
  simp [blockCall, hid, hin, hout, hpass]

theorem blockCall_endBranch {stencil : StencilFamily IN OUT MAX_REGS HOLES JUMPS} {next : BlockId}
    (hid : m.handles.head? = some id) (ins : Vector Location IN) (outs : Vector Location OUT)
    (hin : m.builder.lookup inputs = some ins) (hout : m.builder.lookup outputs = some outs)
    (hpass : m.builder.jumpsPass id jumps.toList = true) :
    m.blockCall (.endBranch stencil inputs outputs holes jumps next) =
      some (id, .endBranch stencil ins outs holes (jumps.map JumpScope.target)) := by
  simp [blockCall, hid, hin, hout, hpass]

end BlockCalls

/-- The builder a call switches from, after its own emission, and the block it switches to. -/
def switchPoint (checks : Bool) (m : Machine σ MAX_REGS) :
    Op MAX_REGS → Option (PatchFunctionBuilder σ MAX_REGS × BlockId)
  | .switchToEntry => some (m.builder, 0)
  | .switchToBlock block => some (m.builder, block)
  | .endBranch stencil inputs outputs holes jumps next =>
      m.handles.head?.bind fun id =>
        match m.builder.endBranchCode checks id stencil inputs outputs holes jumps with
        | some (.ok (), builder) => some (builder, next)
        | _ => none
  | _ => none

/-- The code of all blocks. -/
def codes (m : Machine σ MAX_REGS) : List (PatchBlock MAX_REGS) := m.builder.blocks.map (·.block)

variable [LawfulSlab σ]

/-- What a call does to the variables, the slots and the scope stack. -/
inductive Change (checks : Bool) (m : Machine σ MAX_REGS) (op : Op MAX_REGS)
    (b' : PatchFunctionBuilder σ MAX_REGS) : Option Value → Prop
  | quiet (h : Quiet m.builder b') : Change checks m op b' none
  | fresh {v : Value} (h : Fresh m.builder b' v) (hid : m.handles.head? = some v.scope) :
      Change checks m op b' (some v)
  | switched {mid q : PatchFunctionBuilder σ MAX_REGS} {block : BlockId}
      {kept popped : List BlockId} (hq : Quiet m.builder mid)
      (hpoint : m.switchPoint checks op = some (mid, block))
      (hsplit : mid.splitScopes block = some (kept, popped)) (hpops : Pops mid q popped)
      (hb : b' = { q with currentScopes := kept ++ [block] }) : Change checks m op b' none

theorem Change.sound {checks : Bool} {m : Machine σ MAX_REGS} {op : Op MAX_REGS}
    {b' : PatchFunctionBuilder σ MAX_REGS} {v : Option Value} (hs : m.builder.allocator.Sound)
    (h : Change checks m op b' v) : b'.allocator.Sound := by
  cases h with
  | quiet hq => exact hq.sound hs
  | fresh hf hid => exact hf.sound
  | switched hq hpoint hsplit hpops hb =>
      rw [hb]
      exact hpops.sound

/-- What a call does to the code. -/
inductive CodeChange (checks : Bool) (m : Machine σ MAX_REGS) (op : Op MAX_REGS)
    (m' : Machine σ MAX_REGS) : Prop
  | same (h : m'.codes = m.codes)
  | grown (h : m'.codes = m.codes ++ [.new m.builder.library])
  | called {id : BlockId} {c : Call MAX_REGS} {b b' : PatchBlock MAX_REGS}
      {res : Except PatchError Unit} (hcall : m.blockCall op = some (id, c))
      (hb : m.codes[id.toNat]? = some b) (hb' : b.call checks c = some (res, b'))
      (h : m'.codes = m.codes.set id.toNat b')

section Exec

variable {checks : Bool} {m m' : Machine σ MAX_REGS} {op : Op MAX_REGS} {out : Outcome}

/-- What is common to all cases of a switch. -/
theorem change_of_switch (checks : Bool) (op : Op MAX_REGS)
    {mid b' : PatchFunctionBuilder σ MAX_REGS} {block : BlockId} {res : Except PatchError Unit}
    (hs : m.builder.allocator.Sound) (hq : Quiet m.builder mid)
    (hpoint : m.switchPoint checks op = some (mid, block))
    (h : mid.switchToBlock block = some (res, b')) :
    Change checks m op b' none ∧ SameCode mid b' := by
  rcases switchToBlock_cases (hq.sound hs) h with
    ⟨e, -, rfl⟩ | ⟨-, -, kept, popped, q, hsplit, hpops, rfl⟩
  · exact ⟨.quiet hq, .refl b'⟩
  · exact ⟨.switched hq hpoint hsplit hpops rfl, ⟨hpops.code.parents, hpops.code.library,
      hpops.code.codes⟩⟩

/-- What a call on the code of block `id` does to the code of all blocks. -/
theorem codes_of_onBlock {b b' : PatchFunctionBuilder σ MAX_REGS} {id : BlockId}
    {f : PatchBlock MAX_REGS → Option (Except PatchError Unit × PatchBlock MAX_REGS)}
    {res : Except PatchError Unit} (h : b.onBlock id f = some (res, b')) :
    ∃ block block', (b.blocks.map (·.block))[id.toNat]? = some block ∧
      f block = some (res, block') ∧
      b'.blocks.map (·.block) = (b.blocks.map (·.block)).set id.toNat block' := by
  obtain ⟨-, -, -, scope, block, hscope, hf, hblocks⟩ := onBlock_effect h
  refine ⟨scope.block, block, ?_, hf, ?_⟩
  · rw [List.getElem?_map, hscope]
    rfl
  · rw [hblocks, List.map_set]

section Branch

variable {IN OUT HOLES JUMPS : Nat} {b b' : PatchFunctionBuilder σ MAX_REGS} {id : BlockId}
  {inputs : Vector Value IN} {outputs : Vector Value OUT} {jumps : Vector JumpScope JUMPS}
  {f : Vector Location IN → Vector Location OUT → Vector JumpTarget JUMPS →
    PatchBlock MAX_REGS → Option (Except PatchError Unit × PatchBlock MAX_REGS)}
  {res : Except PatchError Unit}

omit [LawfulSlab σ] in
/-- **A branch** is refused, maybe after the parents were assigned, or calls the block. -/
theorem branchWith_cases (h : b.branchWith id inputs outputs jumps f = some (res, b')) :
    (∃ e, res = .error e ∧
      ((b' = b ∧ ¬ Visible b (inputs.toList ++ outputs.toList)) ∨
        (Visible b (inputs.toList ++ outputs.toList) ∧
          prepJumps id jumps.toList b = some (true, b')))) ∨
      ∃ ins outs mid, b.lookup inputs = some ins ∧ b.lookup outputs = some outs ∧
        prepJumps id jumps.toList b = some (false, mid) ∧
        mid.onBlock id (f ins outs (jumps.map JumpScope.target)) = some (res, b') := by
  simp only [branchWith, Option.bind_eq_bind, Option.pure_def] at h
  obtain ⟨⟨r, mid⟩, hprep, h1⟩ := Option.bind_eq_some_iff.1 h
  rcases branchPrep_cases hprep with ⟨e, rfl, hmid⟩ | ⟨ins, outs, targets, rfl, hp⟩
  · obtain ⟨rfl, rfl⟩ := Prod.mk.inj (Option.some.inj h1)
    exact Or.inl ⟨e, rfl, hmid⟩
  · simp only [hp.targets] at h1
    exact Or.inr ⟨ins, outs, mid, lookup_of_locations hp.inputs, lookup_of_locations hp.outputs,
      hp.prepared, h1⟩

theorem branchWith_effect (h : b.branchWith id inputs outputs jumps f = some (res, b')) :
    Quiet b b' ∧ b'.library = b.library ∧
      ((b'.blocks.map (·.block) = b.blocks.map (·.block)) ∨
        ∃ ins outs block block', b.lookup inputs = some ins ∧ b.lookup outputs = some outs ∧
          b.jumpsPass id jumps.toList = true ∧
          (b.blocks.map (·.block))[id.toNat]? = some block ∧
          f ins outs (jumps.map JumpScope.target) block = some (res, block') ∧
          b'.blocks.map (·.block) = (b.blocks.map (·.block)).set id.toNat block') := by
  rcases branchWith_cases h with
    ⟨e, -, ⟨rfl, -⟩ | ⟨-, hbad⟩⟩ | ⟨ins, outs, mid, hin, hout, hprep, hon⟩
  · exact ⟨.refl b', rfl, Or.inl rfl⟩
  · have hr := prepJumps_effect hbad
    exact ⟨hr.quiet, hr.library, Or.inl hr.codes⟩
  · have hr := prepJumps_effect hprep
    obtain ⟨hq, -, hlib, -⟩ := onBlock_effect hon
    obtain ⟨block, block', hb, hf, hcodes⟩ := codes_of_onBlock hon
    rw [hr.codes] at hb hcodes
    exact ⟨hr.quiet.trans hq, hlib.trans hr.library,
      Or.inr ⟨ins, outs, block, block', hin, hout, by rw [jumpsPass, hprep], hb, hf, hcodes⟩⟩

end Branch

/-- The call passes on the result `res` of a function that left the builder `b`; the handles change on
success only. -/
structure PassedOn (m : Machine σ MAX_REGS) (res : Except PatchError Unit)
    (b : PatchFunctionBuilder σ MAX_REGS) (out : Outcome) (m' : Machine σ MAX_REGS) : Prop where
  result : out = res.map fun _ => none
  builder : m'.builder = b
  handles : ∀ e, res = .error e → m'.handles = m.handles

section PassedOn

variable {m m' : Machine σ MAX_REGS} {res : Except PatchError Unit}
  {b : PatchFunctionBuilder σ MAX_REGS} {out : Outcome}

omit [Slab σ] [LawfulSlab σ]

theorem passedOn_opened {block : BlockId} (h : m.opened block (res, b) = (out, m')) :
    PassedOn m res b out m' := by
  cases res with
  | ok u =>
      obtain ⟨rfl, rfl⟩ := Prod.mk.inj h
      exact ⟨rfl, rfl, fun e he => by cases he⟩
  | error e =>
      obtain ⟨rfl, rfl⟩ := Prod.mk.inj h
      exact ⟨rfl, rfl, fun _ _ => rfl⟩

theorem passedOn_moved {next : BlockId} (h : m.moved next (res, b) = (out, m')) :
    PassedOn m res b out m' := by
  cases res with
  | ok u =>
      obtain ⟨rfl, rfl⟩ := Prod.mk.inj h
      exact ⟨rfl, rfl, fun e he => by cases he⟩
  | error e =>
      obtain ⟨rfl, rfl⟩ := Prod.mk.inj h
      exact ⟨rfl, rfl, fun _ _ => rfl⟩

theorem PassedOn.value (h : PassedOn m res b out m') : out.value = none := by
  rw [h.result]
  cases res with
  | ok u => rfl
  | error e => rfl

theorem PassedOn.ok {v : Option Value} (h : PassedOn m res b (.ok v) m') : res = .ok () := by
  cases res with
  | ok u => rfl
  | error e => cases h.result

theorem PassedOn.error {e : PatchError} (h : PassedOn m res b (.error e) m') :
    res = .error e ∧ m' = ⟨b, m.handles⟩ := by
  cases res with
  | ok u => cases h.result
  | error e' =>
      obtain ⟨builder, handles⟩ := m'
      obtain rfl : builder = b := h.builder
      obtain rfl : handles = m.handles := h.handles e' rfl
      exact ⟨congrArg _ (Except.error.inj h.result).symm, rfl⟩

end PassedOn

/-- **The functions of the builder that a call runs**, from `m.builder` to the builder it leaves, with the
value it returns. -/
inductive Runs (checks : Bool) (m : Machine σ MAX_REGS) (op : Op MAX_REGS) :
    PatchFunctionBuilder σ MAX_REGS → Option Value → Prop
  | idle (hjumps : op.jumps = []) : Runs checks m op m.builder none
  | created {id : BlockId} {b : PatchFunctionBuilder σ MAX_REGS} (hjumps : op.jumps = [])
      (h : m.builder.createBlock checks = some (id, b)) : Runs checks m op b none
  | named {id : BlockId} {b : PatchFunctionBuilder σ MAX_REGS} {v : Option Value}
      (hop : op = .newParam ∨ op = .newVariable) (hid : m.handles.head? = some id)
      (hcode : SameCode m.builder b)
      (h : (v = none ∧ Quiet m.builder b) ∨ ∃ u, v = some u ∧ u.scope = id ∧ Fresh m.builder b u) :
      Runs checks m op b v
  | opened {block : BlockId} {res : Except PatchError Unit} {b : PatchFunctionBuilder σ MAX_REGS}
      (hjumps : op.jumps = []) (hpoint : m.switchPoint checks op = some (m.builder, block))
      (h : m.builder.switchToBlock block = some (res, b)) : Runs checks m op b none
  | called {id : BlockId} {c : Call MAX_REGS} {res : Except PatchError Unit}
      {b : PatchFunctionBuilder σ MAX_REGS} (hjumps : op.jumps = [])
      (hcall : m.blockCall op = some (id, c))
      (h : m.builder.onBlock id (fun s => s.call checks c) = some (res, b)) : Runs checks m op b none
  | branched {IN OUT JUMPS : Nat} {id : BlockId} {inputs : Vector Value IN}
      {outputs : Vector Value OUT} {jumps : Vector JumpScope JUMPS}
      {c : Vector Location IN → Vector Location OUT → Vector JumpTarget JUMPS → Call MAX_REGS}
      {res : Except PatchError Unit} {mid b : PatchFunctionBuilder σ MAX_REGS}
      (hjumps : op.jumps = jumps.toList) (hops : op.operands = inputs.toList ++ outputs.toList)
      (hid : m.handles.head? = some id)
      (hcall : ∀ ins outs, m.builder.lookup inputs = some ins → m.builder.lookup outputs = some outs →
        m.builder.jumpsPass id jumps.toList = true →
          m.blockCall op = some (id, c ins outs (jumps.map JumpScope.target)))
      (h : m.builder.branchWith id inputs outputs jumps
        (fun ins outs targets s => s.call checks (c ins outs targets)) = some (res, mid))
      (hend : b = mid ∨ ∃ block r, m.switchPoint checks op = some (mid, block) ∧
        mid.switchToBlock block = some (r, b)) : Runs checks m op b none

omit [Slab σ] [LawfulSlab σ] in
theorem value_of_stayed {handles : List BlockId} {res : Except PatchError Unit}
    {b : PatchFunctionBuilder σ MAX_REGS}
    (h : stayed handles (fun _ => none) (res, b) = (out, m')) :
    m'.builder = b ∧ out.value = none := by
  obtain ⟨rfl, rfl⟩ := Prod.mk.inj h
  cases res with
  | ok u => exact ⟨rfl, rfl⟩
  | error e => exact ⟨rfl, rfl⟩

/-- **Inversion of a call.** -/
theorem exec_runs (hs : m.builder.allocator.Sound) (h : m.exec checks op = some (out, m')) :
    Runs checks m op m'.builder out.value := by
  cases op with
  | createBlock =>
      obtain ⟨⟨id, b⟩, hb, hout⟩ := Option.map_eq_some_iff.1 h
      obtain ⟨rfl, rfl⟩ := Prod.mk.inj hout
      exact .created rfl hb
  | switchToEntry =>
      obtain ⟨⟨res, b⟩, hb, hout⟩ := Option.map_eq_some_iff.1 h
      have hpassed := passedOn_opened hout
      obtain rfl := hpassed.builder
      rw [hpassed.value]
      exact .opened rfl rfl hb
  | switchToBlock block =>
      obtain ⟨⟨res, b⟩, hb, hout⟩ := Option.map_eq_some_iff.1 h
      have hpassed := passedOn_opened hout
      obtain rfl := hpassed.builder
      rw [hpassed.value]
      exact .opened rfl rfl hb
  | newParam =>
      obtain ⟨id, hid, h1⟩ := Option.bind_eq_some_iff.1 h
      obtain ⟨⟨res, b⟩, hb, hout⟩ := Option.map_eq_some_iff.1 h1
      obtain ⟨rfl, rfl⟩ := Prod.mk.inj hout
      obtain ⟨hcode, ⟨e, rfl, hq⟩ | ⟨v, rfl, hv, hf⟩⟩ := newParam_cases hs hb
      · exact .named (Or.inl rfl) hid hcode (Or.inl ⟨rfl, hq⟩)
      · exact .named (Or.inl rfl) hid hcode (Or.inr ⟨v, rfl, hv, hf⟩)
  | newVariable =>
      obtain ⟨id, hid, h1⟩ := Option.bind_eq_some_iff.1 h
      obtain ⟨⟨res, b⟩, hb, hout⟩ := Option.map_eq_some_iff.1 h1
      obtain ⟨rfl, rfl⟩ := Prod.mk.inj hout
      obtain ⟨hcode, ⟨e, rfl, hq⟩ | ⟨v, rfl, hv, hf⟩⟩ := newVariable_cases hs hb
      · exact .named (Or.inr rfl) hid hcode (Or.inl ⟨rfl, hq⟩)
      · exact .named (Or.inr rfl) hid hcode (Or.inr ⟨v, rfl, hv, hf⟩)
  | emit stencil inputs outputs holes =>
      obtain ⟨id, hid, h1⟩ := Option.bind_eq_some_iff.1 h
      obtain ⟨⟨res, b⟩, hb, hout⟩ := Option.map_eq_some_iff.1 h1
      obtain ⟨rfl, hv⟩ := value_of_stayed hout
      rw [hv]
      -- an operand out of scope returns before the block is reached
      rcases emit_cases hb with ⟨e, -, heq, -⟩ | ⟨ins, outs, hin, hout, hon⟩
      · rw [heq]
        exact .idle rfl
      · exact .called rfl (blockCall_emit hid (lookup_of_locations hin) (lookup_of_locations hout)) hon
  | branch stencil inputs outputs holes jumps =>
      obtain ⟨id, hid, h1⟩ := Option.bind_eq_some_iff.1 h
      obtain ⟨⟨res, b⟩, hb, hout⟩ := Option.map_eq_some_iff.1 h1
      obtain ⟨rfl, hv⟩ := value_of_stayed hout
      rw [hv]
      exact .branched (c := fun ins outs targets => .branch stencil ins outs holes targets) rfl rfl hid
        (blockCall_branch hid) hb (Or.inl rfl)
  | endBranch stencil inputs outputs holes jumps next =>
      obtain ⟨id, hid, h1⟩ := Option.bind_eq_some_iff.1 h
      obtain ⟨⟨res, b⟩, hb, hout⟩ := Option.map_eq_some_iff.1 h1
      have hpassed := passedOn_moved hout
      obtain rfl := hpassed.builder
      rw [hpassed.value]
      -- the switch follows a successful emission only
      rcases endBranch_cases hb with ⟨e, -, hcode⟩ | ⟨mid, hcode, hswitch⟩
      · exact .branched (c := fun ins outs targets => .endBranch stencil ins outs holes targets) rfl rfl
          hid (blockCall_endBranch hid) hcode (Or.inl rfl)
      · exact .branched (c := fun ins outs targets => .endBranch stencil ins outs holes targets) rfl rfl
          hid (blockCall_endBranch hid) hcode (Or.inr ⟨next, res,
            by simp only [switchPoint, hid, Option.bind_some, hcode], hswitch⟩)
  | ret stencil inputs holes =>
      obtain ⟨id, hid, h1⟩ := Option.bind_eq_some_iff.1 h
      obtain ⟨⟨res, b⟩, hb, hout⟩ := Option.map_eq_some_iff.1 h1
      obtain ⟨rfl, hv⟩ := value_of_stayed hout
      rw [hv]
      rcases ret_cases hb with ⟨e, -, heq, -⟩ | ⟨ins, hin, hon⟩
      · rw [heq]
        exact .idle rfl
      · have hcall : m.blockCall (.ret stencil inputs holes) =
            some (id, .ret stencil ins holes) := by
          simp [blockCall, hid, lookup_of_locations hin]
        exact .called rfl hcall hon
  | drop =>
      obtain ⟨id, -, hout⟩ := Option.map_eq_some_iff.1 h
      obtain ⟨rfl, rfl⟩ := Prod.mk.inj hout
      exact .idle rfl

/-- **What a call does to the variables, the slots and the scope stack.** -/
theorem exec_change (hs : m.builder.allocator.Sound) (h : m.exec checks op = some (out, m')) :
    Change checks m op m'.builder out.value := by
  have hrun := exec_runs hs h
  generalize m'.builder = b at hrun ⊢
  generalize out.value = v at hrun ⊢
  cases hrun with
  | idle hjumps => exact .quiet (.refl _)
  | created hjumps hcreate => exact .quiet (createBlock_effect hcreate).1
  | named hop hid hcode hnamed =>
      rcases hnamed with ⟨rfl, hq⟩ | ⟨u, rfl, rfl, hf⟩
      · exact .quiet hq
      · exact .fresh hf hid
  | opened hjumps hpoint hswitch => exact (change_of_switch checks op hs (.refl _) hpoint hswitch).1
  | called hjumps hcall hon => exact .quiet (onBlock_effect hon).1
  | branched hjumps hops hid hcall hbranch hend =>
      have hq := (branchWith_effect hbranch).1
      rcases hend with rfl | ⟨block, r, hpoint, hswitch⟩
      · exact .quiet hq
      · exact (change_of_switch checks op hs hq hpoint hswitch).1

/-- **What a call does to the code.** -/
theorem exec_code (hs : m.builder.allocator.Sound) (h : m.exec checks op = some (out, m')) :
    CodeChange checks m op m' ∧ m'.builder.library = m.builder.library := by
  generalize hb : m'.builder = b
  have hrun := exec_runs hs h
  rw [hb] at hrun
  generalize out.value = v at hrun
  have hcodes : m'.codes = b.blocks.map (·.block) := by rw [codes, hb]
  cases hrun with
  | idle hjumps => exact ⟨.same hcodes, rfl⟩
  | created hjumps hcreate =>
      obtain ⟨-, -, hl, hblocks⟩ := createBlock_effect hcreate
      refine ⟨.grown ?_, hl⟩
      rw [hcodes, hblocks, List.map_append]
      rfl
  | named hop hid hcode hnamed => exact ⟨.same (hcodes.trans hcode.codes), hcode.library⟩
  | opened hjumps hpoint hswitch =>
      have hc := (change_of_switch checks op hs (.refl _) hpoint hswitch).2
      exact ⟨.same (hcodes.trans hc.codes), hc.library⟩
  | called hjumps hcall hon =>
      obtain ⟨block, block', hget, hf, hset⟩ := codes_of_onBlock hon
      exact ⟨.called hcall hget hf (hcodes.trans hset), (onBlock_effect hon).2.2.1⟩
  | @branched _ _ _ _ _ _ _ _ _ mid _ hjumps hops hid hcall hbranch hend =>
      obtain ⟨hq, hl, hcases⟩ := branchWith_effect hbranch
      -- a switch behind the branch leaves the code alone
      have hmid : SameCode mid b := by
        rcases hend with rfl | ⟨block, r, hpoint, hswitch⟩
        · exact .refl b
        · exact (change_of_switch checks op hs hq hpoint hswitch).2
      have hfinal : m'.codes = mid.blocks.map (·.block) := hcodes.trans hmid.codes
      refine ⟨?_, hmid.library.trans hl⟩
      rcases hcases with hsame | ⟨ins, outs, block, block', hin, hout, hpass, hget, hf, hset⟩
      · exact .same (hfinal.trans hsame)
      · exact .called (hcall ins outs hin hout hpass) hget hf (hfinal.trans hset)

end Exec

end Machine

end Patchouly.Managed
