import Patchouly.Managed.Lifetimes
import Patchouly.Managed.Parents
import Patchouly.Lib.RootPath

/-!
# Scopes along jumps

A jump to a block assigns the block's parent, and the switch to the block keeps the scopes up to
that parent. When parents never change, the scopes below a block are the path of its ancestors, on
the stack of every jump to the block and on the stack of the block itself alike
(`RootPath.unique`). So a value that the block uses was on the stack at the jump, and when no
variable is added below the block after the jump, it was live there.

`Disciplined` is the condition on a step. `Traced` adds the accepted jumps and the operands used so
far to a tracked machine, and `Scoped` is the invariant of the runs whose steps are disciplined.
-/

set_option autoImplicit false

namespace Patchouly.Managed

open Patchouly.Lib Patchouly.Core Patchouly.Patch PatchFunctionBuilder

variable {σ : Type → Type} {MAX_REGS : Nat}

/-- Whether the call adds a variable to a block. -/
def Op.allocates : Op MAX_REGS → Bool
  | .newParam | .newVariable => true
  | _ => false

theorem Op.emits_eq_false {op : Op MAX_REGS} (h : op.allocates = true) : op.emits = false := by
  cases op with
  | newParam => rfl
  | newVariable => rfl
  | _ => cases h

/-- All variables that are not dropped yet. -/
def PatchFunctionBuilder.liveVars (b : PatchFunctionBuilder σ MAX_REGS) : List Value :=
  b.blocks.flatMap (·.vars)

theorem PatchFunctionBuilder.mem_liveVars {b : PatchFunctionBuilder σ MAX_REGS} {x : BlockId} {v : Value}
    (h : v ∈ b.varsOf x) : v ∈ b.liveVars := by
  rw [varsOf] at h
  cases hx : b.blocks[x.toNat]? with
  | none =>
      rw [hx] at h
      cases h
  | some scope =>
      rw [hx] at h
      exact List.mem_flatMap.2 ⟨scope, List.mem_of_getElem? hx, h⟩

/-- An accepted jump: its target, the parent the target has after it, and the scope stack and the
variables at the jump. -/
structure Edge where
  target : BlockId
  parent : BlockId
  scopes : List BlockId
  live : List Value
  deriving DecidableEq

/-- The scopes that the target of the jump can see, by its parent. -/
def Edge.seen (e : Edge) : List BlockId := e.scopes.take (e.scopes.idxOf e.parent + 1)

/-- A tracked machine with the accepted jumps, and the operands of the accepted emissions with the
block they were emitted into. -/
structure Traced (σ : Type → Type) (MAX_REGS : Nat) where
  tracked : Tracked σ MAX_REGS
  edges : List Edge
  uses : List (BlockId × Value)

variable [Slab σ]

namespace Traced

abbrev machine (t : Traced σ MAX_REGS) : Machine σ MAX_REGS := t.tracked.machine

abbrev builder (t : Traced σ MAX_REGS) : PatchFunctionBuilder σ MAX_REGS := t.tracked.builder

/-- The edges of a call that made `b` into `b'`. -/
def newEdges (op : Op MAX_REGS) (b b' : PatchFunctionBuilder σ MAX_REGS) : List Edge :=
  (op.jumps.filterMap JumpScope.block?).map fun target =>
    ⟨target, (b'.parentOf target).getD 0, b.currentScopes, b.liveVars⟩

/-- One call, with the records brought up to date. -/
def next (checks : Bool) (t : Traced σ MAX_REGS) (op : Op MAX_REGS) : Option (Traced σ MAX_REGS) :=
  (t.tracked.next checks op).map fun tracked =>
    match t.machine.accepted checks op with
    | none => { t with tracked := tracked }
    | some id =>
        { tracked := tracked
          edges := t.edges ++ newEdges op t.builder tracked.builder
          uses := t.uses ++ op.operands.map fun v => (id, v) }

def start (library : StencilLibrary MAX_REGS) : Option (Traced σ MAX_REGS) :=
  (Tracked.start library).map fun tracked => ⟨tracked, [], []⟩

end Traced

/-- All sequences of calls on a new builder. -/
def tracedSystem (σ : Type → Type) [Slab σ] (checks : Bool) (library : StencilLibrary MAX_REGS) :
    System (Traced σ MAX_REGS) (Op MAX_REGS) where
  init t := Traced.start library = some t
  step t op t' := t.next checks op = some t'

/-- **Scope soundness along every edge**: a value of another block that is used in the target of an
accepted jump was on the scope stack at the jump, and live. -/
def EdgesSound (t : Traced σ MAX_REGS) : Prop :=
  ∀ e ∈ t.edges, ∀ u ∈ t.uses, u.1 = e.target → u.2.scope ≠ u.1 →
    u.2.scope ∈ e.scopes ∧ u.2 ∈ e.live

/-- The discipline of a step: the call goes through the handle of the block entered last, with
values of this builder; its jumps keep assigned parents; its switch brings back no drained block and
no block that is still on the stack; and it adds no variable to a block that the target of an
earlier jump sees. -/
structure Disciplined (checks : Bool) (t : Traced σ MAX_REGS) (op : Op MAX_REGS) : Prop where
  reenters : ReentersNone checks t.tracked op
  fresh : ∀ p ∈ t.machine.switchPoint checks op, ∀ split ∈ p.1.splitScopes p.2, p.2 ∉ split.1
  current : op.emits = true → t.machine.handles.head? = t.builder.currentScopes.getLast?
  returned : ∀ v ∈ op.operands, v ∈ t.tracked.returned
  stable : (t.machine.handles.head?.all fun id => stableJumps id op.jumps t.builder) = true
  settled : op.allocates = true →
    ∀ e ∈ t.edges, (e.seen.all fun x => decide (t.machine.handles.head? ≠ some x)) = true

instance (checks : Bool) (t : Traced σ MAX_REGS) (op : Op MAX_REGS) :
    Decidable (Disciplined checks t op) :=
  decidable_of_iff
    (ReentersNone checks t.tracked op ∧
      (∀ p ∈ t.machine.switchPoint checks op, ∀ split ∈ p.1.splitScopes p.2, p.2 ∉ split.1) ∧
      (op.emits = true → t.machine.handles.head? = t.builder.currentScopes.getLast?) ∧
      (∀ v ∈ op.operands, v ∈ t.tracked.returned) ∧
      (t.machine.handles.head?.all fun id => stableJumps id op.jumps t.builder) = true ∧
      (op.allocates = true →
        ∀ e ∈ t.edges, (e.seen.all fun x => decide (t.machine.handles.head? ≠ some x)) = true))
    ⟨fun ⟨h1, h2, h3, h4, h5, h6⟩ => ⟨h1, h2, h3, h4, h5, h6⟩,
      fun ⟨h1, h2, h3, h4, h5, h6⟩ => ⟨h1, h2, h3, h4, h5, h6⟩⟩

variable [LawfulSlab σ]

/-- The used value belongs to the block that uses it, or to one on the path to that block's parent. -/
def OnPath (b : PatchFunctionBuilder σ MAX_REGS) (u : BlockId × Value) : Prop :=
  u.2.scope = u.1 ∨ ∃ s p, b.parentOf u.1 = some p ∧ RootPath b.parentOf 0 (s ++ [p]) ∧
    u.2.scope ∈ s ++ [p]

omit [Slab σ] in
/-- Paths stay where parents are only added. -/
theorem OnPath.mono {b b' : PatchFunctionBuilder σ MAX_REGS} {u : BlockId × Value} (h : OnPath b u)
    (hgrow : ∀ x p, b.parentOf x = some p → b'.parentOf x = some p) : OnPath b' u := by
  apply h.imp_right
  rintro ⟨s, p, hp, hpath, hmem⟩
  exact ⟨s, p, hgrow _ _ hp, hpath.mono hgrow, hmem⟩

/-- **The invariant of disciplined runs.** -/
structure Scoped (t : Traced σ MAX_REGS) : Prop where
  lifetimes : Lifetimes t.tracked
  stack : t.builder.currentScopes = [] ∨
    RootPath t.builder.parentOf 0 t.builder.currentScopes
  path : ∀ e ∈ t.edges, RootPath t.builder.parentOf 0 e.scopes
  parent : ∀ e ∈ t.edges, e.parent ∈ e.scopes ∧ t.builder.parentOf e.target = some e.parent
  live : ∀ e ∈ t.edges, ∀ v ∈ t.tracked.returned, v.scope ∈ e.seen → v ∈ e.live
  use : ∀ u ∈ t.uses, u.2 ∈ t.tracked.returned ∧ OnPath t.builder u

namespace Scoped

variable {t t' : Traced σ MAX_REGS}

/-- **Under the invariant every edge is sound.** -/
theorem edgesSound (h : Scoped t) : EdgesSound t := by
  intro e he u hu htarget hne
  obtain ⟨hreturned, hscope⟩ := h.use u hu
  rcases hscope with heq | ⟨s, p, hp, hpath, hmem⟩
  · exact absurd heq hne
  · obtain ⟨hparent, htp⟩ := h.parent e he
    rw [htarget, htp] at hp
    obtain rfl := Option.some.inj hp
    -- the scopes below the target are the same on both stacks
    obtain ⟨s', hs'⟩ := take_idxOf_succ hparent
    have hseen : e.seen = s' ++ [e.parent] := hs'
    have hpre : e.seen ++ e.scopes.drop (e.scopes.idxOf e.parent + 1) = e.scopes :=
      List.take_append_drop _ _
    have hpath' : RootPath t.builder.parentOf 0 (s' ++ [e.parent]) := by
      rw [← hseen]
      exact RootPath.of_append (hpre ▸ h.path e he) (by rw [hseen]; simp)
    rw [hpath.unique hpath', ← hseen] at hmem
    refine ⟨?_, h.live e he u.2 hreturned hmem⟩
    rw [← hpre]
    exact List.mem_append_left _ hmem

theorem start {library : StencilLibrary MAX_REGS} (h : Traced.start library = some t) :
    Scoped t := by
  obtain ⟨tracked, htracked, rfl⟩ := Option.map_eq_some_iff.1 h
  have hstack : tracked.builder.currentScopes = [] := by
    obtain ⟨b, hb, rfl⟩ := Option.map_eq_some_iff.1 htracked
    exact congrArg (·.currentScopes) (new_cases hb).2
  refine ⟨Lifetimes.start htracked, Or.inl hstack, ?_, ?_, ?_, ?_⟩
  · intro e he
    cases he
  · intro e he
    cases he
  · intro e he
    cases he
  · intro u hu
    cases hu

/-- The scope stack after a step is a path again. -/
theorem stack_next {checks : Bool} {op : Op MAX_REGS} {m' : Machine σ MAX_REGS} {v : Option Value}
    (h : Scoped t) (hd : Disciplined checks t op)
    (hchange : Machine.Change checks t.machine op m'.builder v)
    (hgrow : ∀ x p, t.builder.parentOf x = some p → m'.builder.parentOf x = some p) :
    m'.builder.currentScopes = [] ∨
      RootPath m'.builder.parentOf 0 m'.builder.currentScopes := by
  have hold : t.builder.currentScopes = [] ∨
      RootPath m'.builder.parentOf 0 t.builder.currentScopes :=
    h.stack.imp_right fun hp => hp.mono hgrow
  cases hchange with
  | quiet hq =>
      rw [hq.currentScopes]
      exact hold
  | fresh hf hid =>
      rw [hf.currentScopes]
      exact hold
  | @switched mid q block kept popped hq hpoint hsplit hpops hb =>
      have hpar : ∀ x, m'.builder.parentOf x = mid.parentOf x := by
        intro x
        rw [hb]
        exact hpops.code.parents x
      have hnew : block ∉ kept := hd.fresh _ hpoint _ hsplit
      rw [show m'.builder.currentScopes = kept ++ [block] by rw [hb]]
      refine Or.inr ?_
      rw [splitScopes] at hsplit
      split at hsplit
      · next hzero =>
        obtain ⟨rfl, rfl⟩ := Prod.mk.inj (Option.some.inj hsplit)
        rw [hq.currentScopes] at hnew ⊢
        rcases hold with hnil | hpath
        · rw [show t.machine.builder.currentScopes = [] from hnil, hzero]
          exact .singleton _ 0
        · -- the entry is at the bottom of the stack already
          rw [hzero] at hnew
          exact absurd (List.mem_of_mem_head? hpath.head) hnew
      -- the stack is cut behind the parent of the block, and the block is pushed
      · obtain ⟨parent, hparent, hsplit1⟩ := Option.bind_eq_some_iff.1 hsplit
        obtain ⟨index, hindex, hsplit2⟩ := Option.map_eq_some_iff.1 hsplit1
        obtain ⟨rfl, rfl⟩ := Prod.mk.inj hsplit2
        rw [hq.currentScopes] at hindex hnew ⊢
        obtain ⟨hlt, hget, -⟩ := List.idxOf?_eq_some_iff.1 hindex
        have htake : t.builder.currentScopes.take (index + 1) =
            t.builder.currentScopes.take index ++ [parent] := by
          rw [List.take_succ_eq_append_getElem hlt, hget]
        rcases hold with hnil | hpath
        · rw [show t.machine.builder.currentScopes = [] from hnil] at hlt
          exact absurd hlt (Nat.not_lt_zero _)
        · have hwhole : RootPath m'.builder.parentOf 0
              ((t.builder.currentScopes.take index ++ [parent]) ++
                t.builder.currentScopes.drop (index + 1)) := by
            rw [← htake, List.take_append_drop]
            exact hpath
          have hpre := hwhole.of_append (by simp)
          rw [htake] at hnew ⊢
          exact hpre.push (by rw [hpar block]; exact hparent) hnew

/-- A call that returns a value allocates. -/
theorem allocates_of_value {checks : Bool} {op : Op MAX_REGS} {m m' : Machine σ MAX_REGS}
    {out : Machine.Outcome} {v : Value} (hs : m.builder.allocator.Sound)
    (h : m.exec checks op = some (out, m')) (hv : out.value = some v) : op.allocates = true := by
  have hrun := Machine.exec_runs hs h
  rw [hv] at hrun
  generalize m'.builder = b at hrun
  cases hrun with
  | named hop hid hcode hnamed =>
      rcases hop with rfl | rfl
      · rfl
      · rfl

/-- Old edges: a value that is returned now belongs to no block they see. -/
theorem live_next {checks : Bool} {op : Op MAX_REGS} {out : Machine.Outcome}
    {m' : Machine σ MAX_REGS} (h : Scoped t) (hd : Disciplined checks t op)
    (hexec : t.machine.exec checks op = some (out, m')) {e : Edge} (he : e ∈ t.edges) {v : Value}
    (hv : v ∈ t.tracked.returned ++ out.value.toList) (hseen : v.scope ∈ e.seen) : v ∈ e.live := by
  have hchange := Machine.exec_change h.lifetimes.sound hexec
  rcases List.mem_append.1 hv with hv | hv
  · exact h.live e he v hv hseen
  · obtain hvalue : out.value = some v := Option.mem_toList.1 hv
    rw [hvalue] at hchange
    cases hchange with
    | fresh hf hid =>
        have hall := hd.settled (allocates_of_value h.lifetimes.sound hexec hvalue) e he
        have hne := of_decide_eq_true (List.all_eq_true.1 hall _ hseen)
        exact absurd hid hne

omit [LawfulSlab σ] in
/-- New edges: the stack and the variables at the jump, and a parent on the stack. -/
theorem newEdges_spec {checks : Bool} {op : Op MAX_REGS} {m' : Machine σ MAX_REGS} {id : BlockId}
    (hassign : JumpsAssign checks t.machine m' op) (hacc : t.machine.accepted checks op = some id)
    {e : Edge} (he : e ∈ Traced.newEdges op t.builder m'.builder) :
    e.scopes = t.builder.currentScopes ∧ e.live = t.builder.liveVars ∧ e.parent ∈ e.scopes ∧
      m'.builder.parentOf e.target = some e.parent := by
  obtain ⟨target, htarget, rfl⟩ := List.mem_map.1 he
  obtain ⟨jump, hjump, hblock⟩ := List.mem_filterMap.1 htarget
  obtain ⟨p, hp, hmem⟩ := hassign.targets id hacc jump hjump target hblock
  simp only [hp, Option.getD_some]
  exact ⟨trivial, trivial, hmem, trivial⟩

/-- A value that was returned and whose block is on the stack is live. -/
theorem mem_liveVars (h : Scoped t) {v : Value} (hv : v ∈ t.tracked.returned)
    (hopen : v.scope ∈ t.builder.currentScopes) : v ∈ t.builder.liveVars := by
  have hown : v ∈ t.builder.varsOf v.scope := by
    rw [h.lifetimes.complete _ (h.lifetimes.open_ _ hopen), List.mem_filter]
    exact ⟨hv, by simp⟩
  exact PatchFunctionBuilder.mem_liveVars hown

/-- An emission goes to the block on top of the stack. -/
theorem current_path {checks : Bool} {op : Op MAX_REGS} (h : Scoped t) (hd : Disciplined checks t op)
    (hemits : op.emits = true) {id : BlockId} (hid : t.machine.handles.head? = some id) :
    ∃ init, t.builder.currentScopes = init ++ [id] ∧ RootPath t.builder.parentOf 0 (init ++ [id]) := by
  have hlast : t.builder.currentScopes.getLast? = some id := by
    rw [← hd.current hemits, hid]
  obtain ⟨init, hinit⟩ := List.getLast?_eq_some_iff.1 hlast
  refine ⟨init, hinit, ?_⟩
  rcases h.stack with hnil | hroot
  · rw [hnil] at hinit
    simp at hinit
  · rw [hinit] at hroot
    exact hroot

/-- New edges: a value of an open scope is still owned, so it is live at the jump. -/
theorem live_new {checks : Bool} {op : Op MAX_REGS} {out : Machine.Outcome} {m' : Machine σ MAX_REGS}
    (h : Scoped t) (hexec : t.machine.exec checks op = some (out, m')) (hemits : op.emits = true)
    {e : Edge} (hscopes : e.scopes = t.builder.currentScopes) (hlive : e.live = t.builder.liveVars)
    {v : Value} (hv : v ∈ t.tracked.returned ++ out.value.toList) (hseen : v.scope ∈ e.seen) :
    v ∈ e.live := by
  have hopen : v.scope ∈ t.builder.currentScopes := by
    rw [← hscopes]
    exact List.mem_of_mem_take hseen
  have hold : v ∈ t.tracked.returned := by
    cases hvalue : out.value with
    | none => simpa [hvalue] using hv
    | some w =>
        have hno := Op.emits_eq_false (allocates_of_value h.lifetimes.sound hexec hvalue)
        rw [hemits] at hno
        cases hno
  rw [hlive]
  exact h.mem_liveVars hold hopen

omit [Slab σ] [LawfulSlab σ] in
/-- A value of an open scope is on the path of the block on top of the stack. -/
theorem onPath_of_open {b : PatchFunctionBuilder σ MAX_REGS} {init : List BlockId} {id : BlockId}
    (hroot : RootPath b.parentOf 0 (init ++ [id])) {v : Value} (hopen : v.scope ∈ init ++ [id]) :
    OnPath b (id, v) := by
  rcases List.mem_append.1 hopen with hscope | hscope
  · have hne : init ≠ [] := by
      rintro rfl
      cases hscope
    obtain ⟨s, p, rfl⟩ := (hroot.of_append hne).exists_last
    have hp : b.parentOf id = some p := RootPath.parent_of_append (by simpa using hroot)
    exact Or.inr ⟨s, p, hp, hroot.of_append hne, hscope⟩
  · exact Or.inl (List.mem_singleton.1 hscope)

/-- **A disciplined step keeps the invariant.** -/
theorem next {checks : Bool} {op : Op MAX_REGS} (h : Scoped t) (hd : Disciplined checks t op)
    (hn : t.next checks op = some t') : Scoped t' := by
  obtain ⟨tracked, htracked, ht'⟩ := Option.map_eq_some_iff.1 hn
  have hlifetimes := h.lifetimes.next hd.reenters htracked
  obtain ⟨⟨out, m'⟩, hexec, rfl⟩ := Option.map_eq_some_iff.1 htracked
  have hassign := exec_assign h.lifetimes.sound hexec hd.stable
  have hstack := h.stack_next hd (Machine.exec_change h.lifetimes.sound hexec) hassign.grow
  have hpath : ∀ e ∈ t.edges, RootPath m'.builder.parentOf 0 e.scopes :=
    fun e he => (h.path e he).mono hassign.grow
  have hparent : ∀ e ∈ t.edges, e.parent ∈ e.scopes ∧
      m'.builder.parentOf e.target = some e.parent :=
    fun e he => (h.parent e he).imp_right fun hp => hassign.grow _ _ hp
  have hlive : ∀ e ∈ t.edges, ∀ v ∈ t.tracked.returned ++ out.value.toList,
      v.scope ∈ e.seen → v ∈ e.live :=
    fun e he v hv hseen => h.live_next hd hexec he hv hseen
  have huse : ∀ u ∈ t.uses, u.2 ∈ t.tracked.returned ++ out.value.toList ∧ OnPath m'.builder u := by
    intro u hu
    obtain ⟨hret, hscope⟩ := h.use u hu
    exact ⟨List.mem_append_left _ hret, hscope.mono hassign.grow⟩
  cases hacc : t.machine.accepted checks op with
  | none =>
      -- no stencil was copied, so nothing is recorded
      simp only [hacc] at ht'
      subst ht'
      exact ⟨hlifetimes, hstack, hpath, hparent, hlive, huse⟩
  | some id =>
      simp only [hacc] at ht'
      subst ht'
      obtain ⟨c, hc⟩ := Machine.blockCall_of_accepted hacc
      obtain ⟨hemits, hid, hvisible, -⟩ := Machine.blockCall_spec hc
      obtain ⟨init, hinit, hroot⟩ := h.current_path hd hemits hid
      refine ⟨hlifetimes, hstack, ?_, ?_, ?_, ?_⟩
      · intro e he
        rcases List.mem_append.1 he with he | he
        · exact hpath e he
        · rw [(newEdges_spec hassign hacc he).1, hinit]
          exact hroot.mono hassign.grow
      · intro e he
        rcases List.mem_append.1 he with he | he
        · exact hparent e he
        · exact (newEdges_spec hassign hacc he).2.2
      · intro e he v hv hseen
        rcases List.mem_append.1 he with he | he
        · exact hlive e he v hv hseen
        · obtain ⟨hscopes, hl, -⟩ := newEdges_spec hassign hacc he
          exact h.live_new hexec hemits hscopes hl hv hseen
      · intro u hu
        rcases List.mem_append.1 hu with hu | hu
        · exact huse u hu
        · obtain ⟨v, hv, rfl⟩ := List.mem_map.1 hu
          have hopen : v.scope ∈ init ++ [id] := hinit ▸ hvisible v hv
          exact ⟨List.mem_append_left _ (hd.returned v hv), (onPath_of_open hroot hopen).mono hassign.grow⟩

end Scoped

/-! ## All runs -/

/-- **In every run of disciplined steps all edges are sound.** -/
theorem edgesSound_of_disciplined {checks : Bool} {library : StencilLibrary MAX_REGS}
    {t : Traced σ MAX_REGS}
    (h : ((tracedSystem σ checks library).guard (Disciplined checks)).Reachable t) :
    EdgesSound t := by
  have hinv : Scoped t := by
    refine System.Reachable.invariant ?_ ?_ h
    · exact fun _ h0 => Scoped.start h0
    · rintro t op t' - hs ⟨hd, hn⟩
      exact hs.next hd hn
  exact hinv.edgesSound

/-- A child block uses a variable of the entry. -/
def childOps : List (Op 1) :=
  [.createBlock, .switchToEntry, .newVariable,
    .endBranch testFamily nil nil nil (.singleton (.child 1)) 1, .newVariable,
    .emit testFamily (.singleton ⟨0, 0⟩) (.singleton ⟨1, 1⟩) nil]

theorem edgesSound_child :
    ∃ t : Traced VecSlab 1, (Traced.start testLibrary).bind (System.runGuarded (Traced.next false)
        (fun t op => decide (Disciplined false t op)) childOps) = some t ∧
      t.edges = [⟨1, 0, [0], [⟨0, 0⟩]⟩] ∧ t.uses = [(1, ⟨0, 0⟩), (1, ⟨1, 1⟩)] ∧ EdgesSound t := by
  have hrun : ((Traced.start testLibrary : Option (Traced VecSlab 1)).bind
      (System.runGuarded (Traced.next false) (fun t op => decide (Disciplined false t op))
        childOps)).map (fun t => (t.edges, t.uses)) =
        some ([⟨1, 0, [0], [⟨0, 0⟩]⟩], [(1, ⟨0, 0⟩), (1, ⟨1, 1⟩)]) := by
    decide +kernel
  obtain ⟨t, ht, hstate⟩ := Option.map_eq_some_iff.1 hrun
  obtain ⟨hedges, huses⟩ := Prod.mk.inj hstate
  obtain ⟨t₀, h₀, hrest⟩ := Option.bind_eq_some_iff.1 ht
  have hreach : ((tracedSystem VecSlab false testLibrary).guard (Disciplined false)).Reachable t :=
    System.reachable_of_runGuarded (fun _ _ _ h => h) (fun _ _ h => of_decide_eq_true h)
      (.init h₀) hrest
  exact ⟨t, ht, hedges, huses, edgesSound_of_disciplined hreach⟩

/-- Block 2 is a child of the entry until block 1 takes it over and lends it a variable. -/
def reparentOps : List (Op 1) :=
  [.createBlock, .createBlock, .switchToEntry,
    .endBranch testFamily nil nil nil #[.child 1, .child 2].toVector 1, .newVariable,
    .branch testFamily nil nil nil (.singleton (.child 2)), .switchToBlock 2,
    .emit testFamily (.singleton ⟨0, 1⟩) nil nil]

/-- **Without the discipline an edge can be unsound**: block 2 is reached from the entry as well,
where the variable of block 1 is out of scope. -/
theorem not_edgesSound_reparent :
    ¬ ∀ t : Traced VecSlab 1, (tracedSystem VecSlab false testLibrary).Reachable t →
      EdgesSound t := by
  intro hall
  have hrun : ((Traced.start testLibrary : Option (Traced VecSlab 1)).bind
      (System.runAll (Traced.next false) reparentOps)).map (fun t => (t.edges, t.uses)) =
        some ([⟨1, 0, [0], []⟩, ⟨2, 0, [0], []⟩, ⟨2, 1, [0, 1], [⟨0, 1⟩]⟩], [(2, ⟨0, 1⟩)]) := by
    decide +kernel
  obtain ⟨t, ht, hstate⟩ := Option.map_eq_some_iff.1 hrun
  obtain ⟨hedges, huses⟩ := Prod.mk.inj hstate
  obtain ⟨t₀, h₀, hrest⟩ := Option.bind_eq_some_iff.1 ht
  have hreach : (tracedSystem VecSlab false testLibrary).Reachable t :=
    System.reachable_of_runAll (fun _ _ _ h => h) (.init h₀) hrest
  have hsound := hall t hreach ⟨2, 0, [0], []⟩ (by rw [hedges]; simp) (2, ⟨0, 1⟩)
    (by rw [huses]; simp) rfl (by decide)
  exact absurd hsound.1 (by decide)

end Patchouly.Managed
