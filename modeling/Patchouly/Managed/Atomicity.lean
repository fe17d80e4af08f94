import Patchouly.Managed.Ledger
import Patchouly.Managed.Parents
import Patchouly.Managed.Programs
import Patchouly.Patch.Ending
import Mathlib.Logic.Function.Basic

/-!
# Failed calls on a builder

A call that returns an error should leave no trace. `branch_prep` assigns the parents of the jump
targets while it still looks for a parent out of scope, and before the block's own call can fail;
`end_branch` has set the `ended` mark when that call fails, and has copied its stencil when the switch
behind it fails.

* `ParentsOnly`: what `branch_prep` can leave behind.
* `failed_ops`: which failed calls leave no trace, and the runs in which all of them are such.
-/

set_option autoImplicit false

namespace Patchouly.Managed

open Patchouly.Lib Patchouly.Core Patchouly.Patch PatchFunctionBuilder

variable {σ : Type → Type} {MAX_REGS : Nat}

/-- The parent a jump names. -/
def JumpScope.named? : JumpScope → Option BlockId
  | .parent _ named => some named
  | .next | .child _ | .same _ => none

namespace PatchFunctionBuilder

/-! ## The parents that jumps ask for -/

/-- The two builders differ in the parents of blocks that an id names. -/
structure ParentsOnly (b b' : PatchFunctionBuilder σ MAX_REGS) : Prop where
  rest : b' = { b with blocks := b'.blocks }
  length : b'.blocks.length = b.blocks.length
  scopes : ∀ (i : Nat) (s s' : BlockScope MAX_REGS), b.blocks[i]? = some s →
    b'.blocks[i]? = some s' → s' = { s with parent := s'.parent } ∧ (65536 ≤ i → s' = s)

theorem ParentsOnly.refl (b : PatchFunctionBuilder σ MAX_REGS) : ParentsOnly b b := by
  refine ⟨rfl, rfl, ?_⟩
  intro i s s' hs hs'
  rw [hs] at hs'
  obtain rfl := Option.some.inj hs'
  exact ⟨rfl, fun _ => rfl⟩

theorem ParentsOnly.trans {b b' b'' : PatchFunctionBuilder σ MAX_REGS} (h : ParentsOnly b b')
    (k : ParentsOnly b' b'') : ParentsOnly b b'' := by
  refine ⟨?_, k.length.trans h.length, ?_⟩
  · rw [k.rest, h.rest]
  · intro i s s'' hs hs''
    have hi : i < b'.blocks.length := h.length ▸ (List.getElem?_eq_some_iff.1 hs).1
    have hs' := List.getElem?_eq_getElem hi
    obtain ⟨h₁, h₂⟩ := h.scopes i s _ hs hs'
    obtain ⟨k₁, k₂⟩ := k.scopes i _ s'' hs' hs''
    refine ⟨?_, fun hhigh => (k₂ hhigh).trans (h₂ hhigh)⟩
    rw [k₁, h₁]

/-- **Nothing has changed** when no parent has. -/
theorem ParentsOnly.eq_iff {b b' : PatchFunctionBuilder σ MAX_REGS} (h : ParentsOnly b b') :
    b' = b ↔ SameParents b b' := by
  constructor
  · intro heq x
    rw [heq]
  · intro hsame
    suffices hblocks : b'.blocks = b.blocks by
      rw [h.rest, hblocks]
    apply List.ext_getElem h.length
    intro i hi' hi
    have hs' := List.getElem?_eq_getElem hi'
    have hs := List.getElem?_eq_getElem hi
    obtain ⟨hparent, hhigh⟩ := h.scopes i _ _ hs hs'
    -- a block behind the last id has no parent to change
    by_cases hid : 65536 ≤ i
    · exact hhigh hid
    · have hx : (BitVec.ofNat 16 i).toNat = i := toNat_ofNat_of_lt (by omega)
      have hp := hsame (BitVec.ofNat 16 i)
      rw [parentOf, parentOf, hx, hs, hs', Option.bind_some, Option.bind_some] at hp
      rw [hparent, hp]

theorem setParent_only {b b' : PatchFunctionBuilder σ MAX_REGS} {block parent : BlockId}
    (h : b.setParent block parent = some b') : ParentsOnly b b' := by
  obtain ⟨scope, hscope, rfl⟩ := setParent_eq_some h
  refine ⟨rfl, List.length_set, ?_⟩
  intro i s s' hs hs'
  rw [List.getElem?_set] at hs'
  split at hs'
  · next hi =>
      subst hi
      rw [hscope] at hs
      obtain rfl := Option.some.inj hs
      rw [if_pos (List.getElem?_eq_some_iff.1 hscope).1] at hs'
      obtain rfl := Option.some.inj hs'
      exact ⟨rfl, fun hhigh => absurd block.isLt (by omega)⟩
  · rw [hs] at hs'
    obtain rfl := Option.some.inj hs'
    exact ⟨rfl, fun _ => rfl⟩

theorem prepJump_only {b b' : PatchFunctionBuilder σ MAX_REGS} {id : BlockId} {jump : JumpScope}
    {bad : Bool} (h : prepJump id b jump = some (bad, b')) : ParentsOnly b b' := by
  cases jump with
  | next =>
      obtain ⟨-, rfl⟩ := Prod.mk.inj (Option.some.inj h)
      exact .refl b
  | child block =>
      obtain ⟨c, hc, hcb⟩ := Option.map_eq_some_iff.1 h
      obtain ⟨-, rfl⟩ := Prod.mk.inj hcb
      exact setParent_only hc
  | same block =>
      obtain ⟨scope, -, h⟩ := Option.bind_eq_some_iff.1 h
      obtain ⟨c, hc, hcb⟩ := Option.map_eq_some_iff.1 h
      obtain ⟨-, rfl⟩ := Prod.mk.inj hcb
      exact setParent_only hc
  | parent dest parent =>
      obtain ⟨c, hc, hcb⟩ := Option.map_eq_some_iff.1 h
      obtain ⟨-, rfl⟩ := Prod.mk.inj hcb
      exact setParent_only hc

theorem prepJumps_only {b b' : PatchFunctionBuilder σ MAX_REGS} {id : BlockId}
    {jumps : List JumpScope} {bad : Bool} (h : prepJumps id jumps b = some (bad, b')) :
    ParentsOnly b b' := by
  induction jumps generalizing b bad with
  | nil =>
      obtain ⟨-, rfl⟩ := Prod.mk.inj (Option.some.inj h)
      exact .refl b
  | cons jump rest ih =>
      obtain ⟨bad₁, bad₂, m, hm, hrest, -⟩ := prepJumps_cons h
      exact (prepJump_only hm).trans (ih hrest)

/-- The parents after one jump of block `id`, from those before it. -/
def request (id : BlockId) (parents : BlockId → Option BlockId) :
    JumpScope → BlockId → Option BlockId
  | .next => parents
  | .child block => Function.update parents block (some id)
  | .same block => Function.update parents block (some ((parents id).getD 0))
  | .parent dest parent => Function.update parents dest (some parent)

/-- The jumps, made one after the other, leave every target with the parent it had. -/
def KeepsParents (b : PatchFunctionBuilder σ MAX_REGS) (id : BlockId) (jumps : List JumpScope) :
    Prop :=
  ∀ jump ∈ jumps, ∀ x ∈ jump.block?, jumps.foldl (request id) b.parentOf x = b.parentOf x

instance (b : PatchFunctionBuilder σ MAX_REGS) (id : BlockId) (jumps : List JumpScope) :
    Decidable (KeepsParents b id jumps) :=
  -- `Decidable` of a statement about all block ids would go through each of them
  @List.decidableBAll _
    (fun jump : JumpScope =>
      ∀ x ∈ jump.block?, jumps.foldl (request id) b.parentOf x = b.parentOf x)
    (fun _ => Option.decidableForallMem _) jumps

/-- Every parent that a jump names is on the scope stack. -/
def NamesOpen (b : PatchFunctionBuilder σ MAX_REGS) (jumps : List JumpScope) : Prop :=
  ∀ jump ∈ jumps, ∀ parent ∈ jump.named?, parent ∈ b.currentScopes

instance (b : PatchFunctionBuilder σ MAX_REGS) (jumps : List JumpScope) :
    Decidable (NamesOpen b jumps) :=
  @List.decidableBAll _ (fun jump : JumpScope => ∀ parent ∈ jump.named?, parent ∈ b.currentScopes)
    (fun _ => Option.decidableForallMem _) jumps

theorem foldl_request_of_not_target {id x : BlockId} {jumps : List JumpScope}
    {parents : BlockId → Option BlockId} (h : ∀ jump ∈ jumps, x ∉ jump.block?) :
    jumps.foldl (request id) parents x = parents x := by
  induction jumps generalizing parents with
  | nil => rfl
  | cons jump rest ih =>
      rw [List.foldl_cons, ih fun j hj => h j (List.mem_cons_of_mem _ hj)]
      have hx := h jump List.mem_cons_self
      cases jump with
      | next => rfl
      | child block => exact Function.update_of_ne (fun he => hx (congrArg some he.symm)) _ _
      | same block => exact Function.update_of_ne (fun he => hx (congrArg some he.symm)) _ _
      | parent dest parent => exact Function.update_of_ne (fun he => hx (congrArg some he.symm)) _ _

/-- A jump is refused when it names a parent out of scope. -/
theorem prepJump_bad {b b' : PatchFunctionBuilder σ MAX_REGS} {id : BlockId} {jump : JumpScope}
    {bad : Bool} (h : prepJump id b jump = some (bad, b')) :
    bad = false ↔ ∀ parent ∈ jump.named?, parent ∈ b.currentScopes := by
  cases jump with
  | next =>
      obtain ⟨rfl, -⟩ := Prod.mk.inj (Option.some.inj h)
      simp [JumpScope.named?]
  | child block =>
      obtain ⟨c, -, hcb⟩ := Option.map_eq_some_iff.1 h
      obtain ⟨rfl, -⟩ := Prod.mk.inj hcb
      simp [JumpScope.named?]
  | same block =>
      obtain ⟨scope, -, h⟩ := Option.bind_eq_some_iff.1 h
      obtain ⟨c, -, hcb⟩ := Option.map_eq_some_iff.1 h
      obtain ⟨rfl, -⟩ := Prod.mk.inj hcb
      simp [JumpScope.named?]
  | parent dest parent =>
      obtain ⟨c, -, hcb⟩ := Option.map_eq_some_iff.1 h
      obtain ⟨rfl, -⟩ := Prod.mk.inj hcb
      simp [JumpScope.named?]

section Jumps

variable {b b' : PatchFunctionBuilder σ MAX_REGS} {id : BlockId}
  {jumps : List JumpScope} {bad : Bool}

theorem prepJumps_bad (h : prepJumps id jumps b = some (bad, b')) :
    bad = false ↔ NamesOpen b jumps := by
  induction jumps generalizing b bad with
  | nil =>
      obtain ⟨rfl, -⟩ := Prod.mk.inj (Option.some.inj h)
      exact ⟨fun _ _ hj => absurd hj List.not_mem_nil, fun _ => rfl⟩
  | cons jump rest ih =>
      obtain ⟨bad₁, bad₂, m, hm, hrest, rfl⟩ := prepJumps_cons h
      -- the stack is the same for all jumps
      have hstack : m.currentScopes = b.currentScopes := congrArg (·.currentScopes) (prepJump_only hm).rest
      rw [Bool.or_eq_false_iff, prepJump_bad hm, ih hrest, NamesOpen, NamesOpen, hstack,
        List.forall_mem_cons]

variable [Slab σ] [LawfulSlab σ]

/-- **What the jumps do to the parents.** -/
theorem prepJumps_parents (h : prepJumps id jumps b = some (bad, b')) :
    b'.parentOf = jumps.foldl (request id) b.parentOf := by
  induction jumps generalizing b bad with
  | nil =>
      obtain ⟨-, rfl⟩ := Prod.mk.inj (Option.some.inj h)
      rfl
  | cons jump rest ih =>
      obtain ⟨bad₁, bad₂, m, hm, hrest, -⟩ := prepJumps_cons h
      have hfirst : m.parentOf = request id b.parentOf jump := by
        funext x
        rw [(prepJump_effect hm).2.1 x]
        cases jump with
        | next => rfl
        | child block => exact (Function.update_apply _ _ _ _).symm
        | same block => exact (Function.update_apply _ _ _ _).symm
        | parent dest parent => exact (Function.update_apply _ _ _ _).symm
      rw [ih hrest, hfirst, List.foldl_cons]

/-- The preparation changes nothing when every target keeps its parent. -/
theorem prepJumps_eq_iff (h : prepJumps id jumps b = some (bad, b')) :
    b' = b ↔ KeepsParents b id jumps := by
  rw [(prepJumps_only h).eq_iff, SameParents, prepJumps_parents h]
  constructor
  · intro hsame jump _ x _
    exact hsame x
  · intro hkeeps x
    by_cases hx : ∀ jump ∈ jumps, x ∉ jump.block?
    · exact foldl_request_of_not_target hx
    · push Not at hx
      obtain ⟨jump, hjump, hx⟩ := hx
      exact hkeeps jump hjump x hx

end Jumps

/-! ## A failed call on a block -/

section Failed

variable {checks : Bool} {b b' : PatchFunctionBuilder σ MAX_REGS} {id : BlockId}
  {c : Call MAX_REGS} {e : PatchError}

/-- All that a failed call on the code of a block does is to set the mark. -/
theorem onBlock_error (h : b.onBlock id (fun s => s.call checks c) = some (.error e, b')) :
    ∃ scope, b.blocks[id.toNat]? = some scope ∧
      b' = { b with blocks := b.blocks.set id.toNat { scope with block := scope.block.marked c } } := by
  simp only [onBlock, Option.bind_eq_bind, Option.pure_def] at h
  obtain ⟨scope, hscope, h⟩ := Option.bind_eq_some_iff.1 h
  obtain ⟨⟨r, block⟩, hcall, h⟩ := Option.bind_eq_some_iff.1 h
  obtain ⟨rfl, rfl⟩ := Prod.mk.inj (Option.some.inj h)
  exact ⟨scope, hscope, by rw [PatchBlock.eq_marked_of_error hcall]⟩

/-- The call sets no mark that is not there. -/
def KeepsMark (b : PatchFunctionBuilder σ MAX_REGS) (id : BlockId) (ends : Bool) : Prop :=
  ends = true → ∀ scope ∈ b.blocks[id.toNat]?, scope.block.ended = true

instance (b : PatchFunctionBuilder σ MAX_REGS) (id : BlockId) (ends : Bool) :
    Decidable (b.KeepsMark id ends) :=
  inferInstanceAs (Decidable (ends = true → ∀ scope ∈ b.blocks[id.toNat]?, scope.block.ended = true))

theorem onBlock_eq_iff (h : b.onBlock id (fun s => s.call checks c) = some (.error e, b')) :
    b' = b ↔ b.KeepsMark id c.ends := by
  obtain ⟨scope, hscope, rfl⟩ := onBlock_error h
  have hlt := (List.getElem?_eq_some_iff.1 hscope).1
  have hmark : b.KeepsMark id c.ends ↔ scope.block.marked c = scope.block := by
    rw [PatchBlock.marked_eq_self_iff, PatchFunctionBuilder.KeepsMark, hscope]
    simp [Patch.KeepsMark]
  rw [hmark]
  constructor
  · intro heq
    have hget := congrArg (fun b => b.blocks[id.toNat]?) heq
    simp only [List.getElem?_set_self hlt, hscope, Option.some.injEq] at hget
    exact congrArg (·.block) hget
  · intro heq
    rw [heq]
    have hset : b.blocks.set id.toNat scope = b.blocks := by
      rw [← (List.getElem?_eq_some_iff.1 hscope).2, List.set_getElem_self]
    rw [show ({ scope with block := scope.block } : BlockScope MAX_REGS) = scope from rfl, hset]

end Failed

/-! ## Allocators -/

section Allocators

variable [Slab σ] {checks : Bool} {b b' : PatchFunctionBuilder σ MAX_REGS} {P : Allocator σ → Prop}

theorem dropAll_kept (hdrop : ∀ a a' v, P a → a.drop v = some a' → P a') {vs : List Value}
    {a a' : Allocator σ} (hP : P a) (h : dropAll vs a = some a') : P a' := by
  induction vs generalizing a with
  | nil =>
      obtain rfl := Option.some.inj h
      exact hP
  | cons v rest ih =>
      obtain ⟨mid, hmid, hrest⟩ := Option.bind_eq_some_iff.1 h
      exact ih (hdrop a mid v hP hmid) hrest

theorem popScopes_kept (hdrop : ∀ a a' v, P a → a.drop v = some a' → P a') {popped : List BlockId}
    (hP : P b.allocator) (h : popScopes popped b = some b') : P b'.allocator := by
  induction popped generalizing b with
  | nil =>
      obtain rfl := Option.some.inj h
      exact hP
  | cons i rest ih =>
      simp only [popScopes, Option.bind_eq_bind] at h
      obtain ⟨scope, -, h⟩ := Option.bind_eq_some_iff.1 h
      obtain ⟨a, ha, hrest⟩ := Option.bind_eq_some_iff.1 h
      exact ih (dropAll_kept hdrop hP ha) hrest

theorem switchToBlock_kept (hdrop : ∀ a a' v, P a → a.drop v = some a' → P a') {block : BlockId}
    {res : Except PatchError Unit} (hP : P b.allocator)
    (h : b.switchToBlock block = some (res, b')) : P b'.allocator := by
  rw [switchToBlock] at h
  split at h
  · obtain ⟨-, rfl⟩ := Prod.mk.inj (Option.some.inj h)
    exact hP
  · split at h
    · obtain ⟨-, rfl⟩ := Prod.mk.inj (Option.some.inj h)
      exact hP
    · split at h
      · obtain ⟨-, rfl⟩ := Prod.mk.inj (Option.some.inj h)
        exact hP
      · split at h
        · obtain ⟨-, rfl⟩ := Prod.mk.inj (Option.some.inj h)
          exact hP
        · obtain ⟨q, hq, hout⟩ := Option.map_eq_some_iff.1 h
          obtain ⟨-, rfl⟩ := Prod.mk.inj hout
          have hpopped := popScopes_kept hdrop hP hq
          exact hpopped

theorem newVariable_kept
    (halloc : ∀ a a' scope v, P a → a.allocate checks scope = some (v, a') → P a') {id : BlockId}
    {res : Except PatchError Value} (hP : P b.allocator)
    (h : b.newVariable checks id = some (res, b')) : P b'.allocator := by
  simp only [newVariable, Option.bind_eq_bind, Option.pure_def] at h
  obtain ⟨⟨value, a⟩, ha, h⟩ := Option.bind_eq_some_iff.1 h
  have hPa := halloc _ _ _ _ hP ha
  cases value with
  | none =>
      obtain ⟨-, rfl⟩ := Prod.mk.inj (Option.some.inj h)
      exact hPa
  | some v =>
      obtain ⟨scope, -, h⟩ := Option.bind_eq_some_iff.1 h
      obtain ⟨-, rfl⟩ := Prod.mk.inj (Option.some.inj h)
      exact hPa

theorem newParam_kept
    (halloc : ∀ a a' scope v, P a → a.allocate checks scope = some (v, a') → P a') {id : BlockId}
    {res : Except PatchError Value} (hP : P b.allocator)
    (h : b.newParam checks id = some (res, b')) : P b'.allocator := by
  obtain ⟨scope, -, h⟩ := Option.bind_eq_some_iff.1 h
  split at h
  · obtain ⟨-, rfl⟩ := Prod.mk.inj (Option.some.inj h)
    exact hP
  · exact newVariable_kept halloc hP h

omit [Slab σ] in
theorem onBlock_allocator {id : BlockId}
    {f : PatchBlock MAX_REGS → Option (Except PatchError Unit × PatchBlock MAX_REGS)}
    {res : Except PatchError Unit} (h : b.onBlock id f = some (res, b')) :
    b'.allocator = b.allocator := by
  simp only [onBlock, Option.bind_eq_bind, Option.pure_def] at h
  obtain ⟨scope, -, h⟩ := Option.bind_eq_some_iff.1 h
  obtain ⟨⟨r, block⟩, -, h⟩ := Option.bind_eq_some_iff.1 h
  obtain ⟨-, rfl⟩ := Prod.mk.inj (Option.some.inj h)
  rfl

theorem branchWith_allocator {IN OUT JUMPS : Nat} {id : BlockId} {inputs : Vector Value IN}
    {outputs : Vector Value OUT} {jumps : Vector JumpScope JUMPS}
    {f : Vector Location IN → Vector Location OUT → Vector JumpTarget JUMPS →
      PatchBlock MAX_REGS → Option (Except PatchError Unit × PatchBlock MAX_REGS)}
    {res : Except PatchError Unit} (h : b.branchWith id inputs outputs jumps f = some (res, b')) :
    b'.allocator = b.allocator := by
  rcases Machine.branchWith_cases h with
    ⟨e, -, ⟨rfl, -⟩ | ⟨-, hbad⟩⟩ | ⟨ins, outs, mid, -, -, hprep, hon⟩
  · rfl
  · rw [(prepJumps_only hbad).rest]
  · rw [onBlock_allocator hon, (prepJumps_only hprep).rest]

end Allocators

end PatchFunctionBuilder

namespace Machine

section Pools

variable [Slab σ] [LawfulSlab σ] {checks : Bool} {m m' : Machine σ MAX_REGS} {op : Op MAX_REGS}
  {out : Outcome} {P : Allocator σ → Prop}

/-- **What allocating and dropping keep**, every call on a builder keeps. -/
theorem exec_kept (halloc : ∀ a a' scope v, P a → a.allocate checks scope = some (v, a') → P a')
    (hdrop : ∀ a a' v, P a → a.drop v = some a' → P a') (hs : m.builder.allocator.Sound)
    (hP : P m.builder.allocator) (h : m.exec checks op = some (out, m')) :
    P m'.builder.allocator := by
  by_cases hop : op = .newParam ∨ op = .newVariable
  · rcases hop with rfl | rfl
    · obtain ⟨id, -, h⟩ := Option.bind_eq_some_iff.1 h
      obtain ⟨⟨res, b⟩, hb, hout⟩ := Option.map_eq_some_iff.1 h
      obtain ⟨-, rfl⟩ := Prod.mk.inj hout
      exact newParam_kept halloc hP hb
    · obtain ⟨id, -, h⟩ := Option.bind_eq_some_iff.1 h
      obtain ⟨⟨res, b⟩, hb, hout⟩ := Option.map_eq_some_iff.1 h
      obtain ⟨-, rfl⟩ := Prod.mk.inj hout
      exact newVariable_kept halloc hP hb
  · have hrun := exec_runs hs h
    generalize m'.builder = b at hrun ⊢
    generalize out.value = v at hrun
    cases hrun with
    | idle hjumps => exact hP
    | created hjumps hcreate =>
        obtain ⟨i, -, hi⟩ := Option.map_eq_some_iff.1 hcreate
        obtain ⟨-, rfl⟩ := Prod.mk.inj hi
        exact hP
    | named hnamed hid hcode hcases => exact absurd hnamed hop
    | opened hjumps hpoint hswitch => exact switchToBlock_kept hdrop hP hswitch
    | called hjumps hcall hon => exact onBlock_allocator hon ▸ hP
    | branched hjumps hops hid hcall hbranch hend =>
        have hmid := branchWith_allocator hbranch ▸ hP
        rcases hend with rfl | ⟨block, r, hpoint, hswitch⟩
        · exact hmid
        · exact switchToBlock_kept hdrop hmid hswitch

/-- The allocator of a builder is sound, and its stack pool is as large as `stackSize` says. -/
theorem stacked_of_reachable {library : StencilLibrary MAX_REGS}
    (h : (machineSystem σ checks library).Reachable m) :
    m.builder.allocator.Sound ∧ m.builder.allocator.Stacked := by
  refine System.Reachable.invariant
    (I := fun m => m.builder.allocator.Sound ∧ m.builder.allocator.Stacked) ?_ ?_ h
  · intro m h0
    obtain ⟨b, hb, rfl⟩ := Option.map_eq_some_iff.1 h0
    refine ⟨(new_cases hb).1, ?_⟩
    rw [PatchFunctionBuilder.new] at hb
    split at hb
    · cases hb
    · obtain ⟨a, ha, rfl⟩ := Option.map_eq_some_iff.1 hb
      exact Allocator.new_stacked ha
  · rintro m op m' - ⟨hs, hstacked⟩ ⟨out, hexec⟩
    refine exec_kept (P := fun a => a.Sound ∧ a.Stacked) ?_ ?_ hs ⟨hs, hstacked⟩ hexec
    · rintro a a' scope v ⟨ha, hst⟩ halloc
      rcases Allocator.allocate_spec checks ha hst scope with
        ⟨-, heq⟩ | ⟨-, w, l, a'', heq, hallocated⟩
      · rw [heq] at halloc
        obtain ⟨-, rfl⟩ := Prod.mk.inj (Option.some.inj halloc)
        exact ⟨ha, hst⟩
      · rw [heq] at halloc
        obtain ⟨-, rfl⟩ := Prod.mk.inj (Option.some.inj halloc)
        exact ⟨hallocated.sound, hallocated.stacked⟩
    · rintro a a' v ⟨ha, hst⟩ hd
      obtain ⟨l, hl⟩ := Allocator.location_of_drop hd
      obtain ⟨a'', heq, hdropped⟩ := Allocator.drop_spec ha hst hl
      rw [heq] at hd
      obtain rfl := Option.some.inj hd
      exact ⟨hdropped.sound, hdropped.stacked⟩

end Pools

end Machine

/-! ## Failed methods -/

namespace PatchFunctionBuilder

section Methods

variable [Slab σ] [LawfulSlab σ] {checks : Bool} {b b' : PatchFunctionBuilder σ MAX_REGS}
  {id : BlockId} {e : PatchError}

theorem switchToBlock_error {block : BlockId} (hs : b.allocator.Sound)
    (h : b.switchToBlock block = some (.error e, b')) : b' = b := by
  rcases switchToBlock_cases hs h with ⟨e', -, hb⟩ | ⟨hok, -⟩
  · exact hb
  · cases hok

/-- A stacked allocator that returns nothing has lost nothing. -/
theorem newVariable_error (hs : b.allocator.Sound) (hstacked : b.allocator.Stacked)
    (h : b.newVariable checks id = some (.error e, b')) : b' = b := by
  simp only [newVariable, Option.bind_eq_bind, Option.pure_def] at h
  rcases Allocator.allocate_spec checks hs hstacked id with ⟨-, ha⟩ | ⟨-, v, l, a, ha, -⟩
  · rw [ha, Option.bind_some] at h
    exact (Prod.mk.inj (Option.some.inj h)).2.symm
  · rw [ha, Option.bind_some] at h
    obtain ⟨scope, -, h⟩ := Option.bind_eq_some_iff.1 h
    cases h

theorem newParam_error (hs : b.allocator.Sound) (hstacked : b.allocator.Stacked)
    (h : b.newParam checks id = some (.error e, b')) : b' = b := by
  obtain ⟨scope, -, h⟩ := Option.bind_eq_some_iff.1 h
  split at h
  · exact (Prod.mk.inj (Option.some.inj h)).2.symm
  · exact newVariable_error hs hstacked h

/-- **A failed branch** leaves the builder as it was when the operands were not visible, or when the
jumps change no parent and no mark was set. -/
theorem branchWith_error {IN OUT JUMPS : Nat} {inputs : Vector Value IN}
    {outputs : Vector Value OUT} {jumps : Vector JumpScope JUMPS} {ends : Bool}
    {c : Vector Location IN → Vector Location OUT → Vector JumpTarget JUMPS → Call MAX_REGS}
    (hends : ∀ ins outs targets, (c ins outs targets).ends = ends)
    (h : b.branchWith id inputs outputs jumps
      (fun ins outs targets s => s.call checks (c ins outs targets)) = some (.error e, b')) :
    b' = b ↔ ¬ Visible b (inputs.toList ++ outputs.toList) ∨
      (KeepsParents b id jumps.toList ∧ (NamesOpen b jumps.toList → b.KeepsMark id ends)) := by
  rcases Machine.branchWith_cases h with
    ⟨e', -, ⟨hb, hnot⟩ | ⟨hvis, hbad⟩⟩ | ⟨ins, outs, mid, hin, hout, hprep, hon⟩
  · exact iff_of_true hb (Or.inl hnot)
  · -- all parents are assigned before the error is returned
    have hopen : ¬ NamesOpen b jumps.toList := by
      rw [← prepJumps_bad hbad]
      exact Bool.noConfusion
    rw [prepJumps_eq_iff hbad]
    constructor
    · intro hkeeps
      exact Or.inr ⟨hkeeps, fun hn => absurd hn hopen⟩
    · rintro (hnot | ⟨hkeeps, -⟩)
      · exact absurd hvis hnot
      · exact hkeeps
  · have hvis := (Machine.visible_of_lookup hin).append (Machine.visible_of_lookup hout)
    have hopen := (prepJumps_bad hprep).1 rfl
    have hmark := onBlock_eq_iff hon
    rw [hends] at hmark
    constructor
    · intro hb
      -- the call on the block keeps the parents the jumps have assigned
      have hmid : mid = b := by
        rw [(prepJumps_only hprep).eq_iff]
        intro x
        rw [← hb, (onBlock_effect hon).2.1 x]
      rw [hmid] at hmark
      exact Or.inr ⟨(prepJumps_eq_iff hprep).1 hmid, fun _ => hmark.1 hb⟩
    · rintro (hnot | ⟨hkeeps, hkeep⟩)
      · exact absurd hvis hnot
      · rw [(prepJumps_eq_iff hprep).2 hkeeps] at hmark
        exact hmark.2 (hkeep hopen)

end Methods

end PatchFunctionBuilder

/-! ## Failed calls -/

/-- Whether the call has jumps. -/
def Op.branches : Op MAX_REGS → Bool
  | .branch .. | .endBranch .. => true
  | _ => false

/-- Whether the call ends the block. -/
def Op.ends : Op MAX_REGS → Bool
  | .endBranch .. | .ret .. => true
  | _ => false

/-- Whether the call takes its handle by value. -/
def Op.consumes : Op MAX_REGS → Bool
  | .ret .. | .drop => true
  | _ => false

namespace Machine

section Failed

variable [Slab σ]

/-- The checks of `emit_one` turn the call down. -/
def refused (checks : Bool) (m : Machine σ MAX_REGS) (op : Op MAX_REGS) : Bool :=
  (m.blockCall op).any fun p => p.2.refused checks

instance (b : PatchFunctionBuilder σ MAX_REGS) (values : List Value) :
    Decidable (Visible b values) :=
  inferInstanceAs (Decidable (∀ v ∈ values, v.scope ∈ b.currentScopes))

/-- The call, if it fails, fails before it changes anything: it has no jumps, or its operands are not
visible, or its jumps change no parent and one of them names a parent out of scope, or they change no
parent, the block takes no new mark, and the checks of `emit_one` turn it down. -/
def Traceless (checks : Bool) (m : Machine σ MAX_REGS) (op : Op MAX_REGS) : Prop :=
  op.branches = false ∨ ¬ Visible m.builder op.operands ∨
    ∀ id ∈ m.handles.head?, KeepsParents m.builder id op.jumps ∧
      (NamesOpen m.builder op.jumps →
        m.refused checks op = true ∧ m.builder.KeepsMark id op.ends)

instance (checks : Bool) (m : Machine σ MAX_REGS) (op : Op MAX_REGS) :
    Decidable (m.Traceless checks op) :=
  @instDecidableOr _ _ inferInstance
    (@instDecidableOr _ _ inferInstance (Option.decidableForallMem m.handles.head?))

variable [LawfulSlab σ] {checks : Bool} {m m' : Machine σ MAX_REGS} {op : Op MAX_REGS}

omit [LawfulSlab σ] in
theorem accepted_eq_none {id : BlockId} {c : Call MAX_REGS} {block : PatchBlock MAX_REGS}
    (hcall : m.blockCall op = some (id, c)) (hblock : m.codes[id.toNat]? = some block)
    (hfail : ∀ block', block.call checks c ≠ some (.ok (), block')) :
    m.accepted checks op = none := by
  rw [accepted, hcall, Option.bind_some]
  rw [codes, List.getElem?_map] at hblock
  obtain ⟨scope, hscope, rfl⟩ := Option.map_eq_some_iff.1 hblock
  -- `hfail` rules out the branch of the acceptance
  simp only [hscope, Option.bind_some]

omit [LawfulSlab σ] in
theorem accepted_eq_none_of_not_visible (h : ¬ Visible m.builder op.operands) :
    m.accepted checks op = none := by
  rw [Option.eq_none_iff_forall_ne_some]
  intro id hid
  obtain ⟨c, hc⟩ := blockCall_of_accepted hid
  exact h (blockCall_spec hc).2.2.1

section Branch

variable {IN OUT JUMPS : Nat} {id : BlockId} {inputs : Vector Value IN} {outputs : Vector Value OUT}
  {jumps : Vector JumpScope JUMPS}
  {c : Vector Location IN → Vector Location OUT → Vector JumpTarget JUMPS → Call MAX_REGS}
  {b' : PatchFunctionBuilder σ MAX_REGS} {e : PatchError}

/-- What a branch that fails has not passed. -/
theorem branchWith_refused (hjumps : op.jumps = jumps.toList)
    (hops : op.operands = inputs.toList ++ outputs.toList) (hid : m.handles.head? = some id)
    (hcall : ∀ ins outs, m.builder.lookup inputs = some ins → m.builder.lookup outputs = some outs →
      m.builder.jumpsPass id jumps.toList = true →
        m.blockCall op = some (id, c ins outs (jumps.map JumpScope.target)))
    (hemit : ∀ ins outs targets, (c ins outs targets).isEmit = false)
    (h : m.builder.branchWith id inputs outputs jumps
      (fun ins outs targets s => s.call checks (c ins outs targets)) = some (.error e, b')) :
    m.accepted checks op = none ∧
      (Visible m.builder op.operands → NamesOpen m.builder op.jumps → m.refused checks op = true) := by
  rcases branchWith_cases h with
    ⟨e', -, ⟨-, hnot⟩ | ⟨-, hbad⟩⟩ | ⟨ins, outs, mid, hin, hout, hprep, hon⟩
  · rw [← hops] at hnot
    exact ⟨accepted_eq_none_of_not_visible hnot, fun hvis => absurd hvis hnot⟩
  · constructor
    · rw [Option.eq_none_iff_forall_ne_some]
      intro x hx
      obtain ⟨c', hc'⟩ := blockCall_of_accepted hx
      obtain ⟨-, hhead, -, hpass⟩ := blockCall_spec hc'
      rw [hid, Option.some.injEq] at hhead
      rw [← hhead, hjumps, jumpsPass, hbad] at hpass
      cases hpass
    · intro _ hopen
      rw [hjumps, ← prepJumps_bad hbad] at hopen
      cases hopen
  · have hpass : m.builder.jumpsPass id jumps.toList = true := by rw [jumpsPass, hprep]
    have hblock := hcall ins outs hin hout hpass
    obtain ⟨block, block', hget, hf, -⟩ := codes_of_onBlock hon
    rw [show mid.blocks.map (·.block) = m.codes from (prepJumps_effect hprep).codes] at hget
    refine ⟨accepted_eq_none hblock hget ?_, fun _ _ => ?_⟩
    · intro block'' hok
      rw [hf] at hok
      cases hok
    · rw [refused, hblock]
      exact PatchBlock.refused_of_error (hemit _ _ _) hf

/-- **A failed branch** at the level of the machine. -/
theorem traceless_of_branchWith (hbranches : op.branches = true) (hjumps : op.jumps = jumps.toList)
    (hops : op.operands = inputs.toList ++ outputs.toList) (hid : m.handles.head? = some id)
    (hcall : ∀ ins outs, m.builder.lookup inputs = some ins → m.builder.lookup outputs = some outs →
      m.builder.jumpsPass id jumps.toList = true →
        m.blockCall op = some (id, c ins outs (jumps.map JumpScope.target)))
    (hemit : ∀ ins outs targets, (c ins outs targets).isEmit = false)
    (hends : ∀ ins outs targets, (c ins outs targets).ends = op.ends)
    (h : m.builder.branchWith id inputs outputs jumps
      (fun ins outs targets s => s.call checks (c ins outs targets)) = some (.error e, b')) :
    (b' = m.builder ∧ m.accepted checks op = none) ↔ m.Traceless checks op := by
  obtain ⟨hnone, hrefused⟩ := branchWith_refused hjumps hops hid hcall hemit h
  rw [branchWith_error hends h, and_iff_left hnone, Traceless, hbranches, hid, ← hops, ← hjumps]
  simp only [Bool.true_eq_false, false_or, Option.mem_some_iff, forall_eq']
  constructor
  · rintro (hnot | ⟨hkeeps, hmark⟩)
    · exact Or.inl hnot
    · by_cases hvis : Visible m.builder op.operands
      · exact Or.inr ⟨hkeeps, fun hopen => ⟨hrefused hvis hopen, hmark hopen⟩⟩
      · exact Or.inl hvis
  · rintro (hnot | ⟨hkeeps, hmark⟩)
    · exact Or.inl hnot
    · exact Or.inr ⟨hkeeps, fun hopen => (hmark hopen).2⟩

/-- A branch that passes has copied its stencil. -/
theorem accepted_of_branchWith
    (hcall : ∀ ins outs, m.builder.lookup inputs = some ins → m.builder.lookup outputs = some outs →
      m.builder.jumpsPass id jumps.toList = true →
        m.blockCall op = some (id, c ins outs (jumps.map JumpScope.target)))
    (h : m.builder.branchWith id inputs outputs jumps
      (fun ins outs targets s => s.call checks (c ins outs targets)) = some (.ok (), b')) :
    m.accepted checks op = some id := by
  rcases branchWith_cases h with ⟨e', he, -⟩ | ⟨ins, outs, mid, hin, hout, hprep, hon⟩
  · cases he
  · have hpass : m.builder.jumpsPass id jumps.toList = true := by rw [jumpsPass, hprep]
    obtain ⟨block, block', hget, hf, -⟩ := codes_of_onBlock hon
    rw [show mid.blocks.map (·.block) = m.codes from (prepJumps_effect hprep).codes, codes,
      List.getElem?_map] at hget
    obtain ⟨scope, hscope, rfl⟩ := Option.map_eq_some_iff.1 hget
    rw [accepted, hcall ins outs hin hout hpass, Option.bind_some]
    simp only [hscope, Option.bind_some, hf]

end Branch

omit [LawfulSlab σ] in
/-- An `endBranch` that has emitted and cannot switch leaves its stencil behind. -/
theorem not_traceless_of_accepted {id : BlockId} (hbranches : op.branches = true)
    (hacc : m.accepted checks op = some id) : ¬ m.Traceless checks op := by
  obtain ⟨⟨id', c⟩, hcall, hacc'⟩ := Option.bind_eq_some_iff.1 hacc
  obtain ⟨scope, hscope, hok⟩ := Option.bind_eq_some_iff.1 hacc'
  obtain ⟨-, hid, hvis, hpass⟩ := blockCall_spec hcall
  rintro (hfalse | hnot | hrefused)
  · rw [hbranches] at hfalse
    cases hfalse
  · exact hnot hvis
  · have hopen : NamesOpen m.builder op.jumps := by
      rw [jumpsPass] at hpass
      split at hpass
      · next b hb => exact (prepJumps_bad hb).1 rfl
      · cases hpass
    have hr := ((hrefused id' hid).2 hopen).1
    rw [refused, hcall, Option.any_some] at hr
    split at hok
    · next block' hcallok => exact PatchBlock.not_ok_of_refused hr hcallok
    · cases hok

end Failed

/-! ## Results of the machine -/

section Results

variable {m m' : Machine σ MAX_REGS} {b : PatchFunctionBuilder σ MAX_REGS} {e : PatchError}

theorem error_of_stayed {α : Type} {handles : List BlockId} {value : α → Option Value}
    {res : Except PatchError α} (h : stayed handles value (res, b) = (.error e, m')) :
    res = .error e ∧ m' = ⟨b, handles⟩ := by
  obtain ⟨he, rfl⟩ := Prod.mk.inj h
  cases res with
  | ok u => cases he
  | error e' => exact ⟨congrArg _ (Except.error.inj he), rfl⟩

theorem eq_self_iff : (⟨b, m.handles⟩ : Machine σ MAX_REGS) = m ↔ b = m.builder := by
  constructor
  · intro h
    exact congrArg (·.builder) h
  · rintro rfl
    rfl

end Results

/-- **A failed call leaves no trace** exactly when it fails before it changes anything. -/
theorem traceless_iff [Slab σ] [LawfulSlab σ] {checks : Bool} {m m' : Machine σ MAX_REGS}
    {op : Op MAX_REGS} {e : PatchError} (hs : m.builder.allocator.Sound)
    (hstacked : m.builder.allocator.Stacked) (hop : op.consumes = false)
    (h : m.exec checks op = some (.error e, m')) :
    (m' = m ∧ m.accepted checks op = none) ↔ m.Traceless checks op := by
  cases op with
  | createBlock =>
      obtain ⟨⟨id, b⟩, -, hout⟩ := Option.map_eq_some_iff.1 h
      cases (Prod.mk.inj hout).1
  | switchToEntry =>
      obtain ⟨⟨res, b⟩, hb, hout⟩ := Option.map_eq_some_iff.1 h
      obtain ⟨rfl, rfl⟩ := (passedOn_opened hout).error
      exact iff_of_true ⟨eq_self_iff.2 (switchToBlock_error hs hb), rfl⟩ (Or.inl rfl)
  | switchToBlock block =>
      obtain ⟨⟨res, b⟩, hb, hout⟩ := Option.map_eq_some_iff.1 h
      obtain ⟨rfl, rfl⟩ := (passedOn_opened hout).error
      exact iff_of_true ⟨eq_self_iff.2 (switchToBlock_error hs hb), rfl⟩ (Or.inl rfl)
  | newParam =>
      obtain ⟨id, -, h⟩ := Option.bind_eq_some_iff.1 h
      obtain ⟨⟨res, b⟩, hb, hout⟩ := Option.map_eq_some_iff.1 h
      obtain ⟨rfl, rfl⟩ := error_of_stayed hout
      exact iff_of_true ⟨eq_self_iff.2 (newParam_error hs hstacked hb), rfl⟩ (Or.inl rfl)
  | newVariable =>
      obtain ⟨id, -, h⟩ := Option.bind_eq_some_iff.1 h
      obtain ⟨⟨res, b⟩, hb, hout⟩ := Option.map_eq_some_iff.1 h
      obtain ⟨rfl, rfl⟩ := error_of_stayed hout
      exact iff_of_true ⟨eq_self_iff.2 (newVariable_error hs hstacked hb), rfl⟩ (Or.inl rfl)
  | emit stencil inputs outputs holes =>
      obtain ⟨id, hid, h⟩ := Option.bind_eq_some_iff.1 h
      obtain ⟨⟨res, b⟩, hb, hout⟩ := Option.map_eq_some_iff.1 h
      obtain ⟨rfl, rfl⟩ := error_of_stayed hout
      refine iff_of_true ?_ (Or.inl rfl)
      rw [eq_self_iff]
      rcases emit_cases hb with ⟨e', -, heq, hnot⟩ | ⟨ins, outs, hin, hout, hon⟩
      · exact ⟨heq, accepted_eq_none_of_not_visible hnot⟩
      · have hcall : m.blockCall (.emit stencil inputs outputs holes) =
            some (id, .emit stencil ins outs holes) :=
          blockCall_emit hid (lookup_of_locations hin) (lookup_of_locations hout)
        obtain ⟨block, block', hget, hf, -⟩ := codes_of_onBlock hon
        refine ⟨(onBlock_eq_iff (c := .emit stencil ins outs holes) hon).2 fun hends => ?_,
          accepted_eq_none hcall hget fun block'' hok => ?_⟩
        · cases hends
        · rw [PatchBlock.call, hf] at hok
          cases hok
  | branch stencil inputs outputs holes jumps =>
      obtain ⟨id, hid, h⟩ := Option.bind_eq_some_iff.1 h
      obtain ⟨⟨res, b⟩, hb, hout⟩ := Option.map_eq_some_iff.1 h
      obtain ⟨rfl, rfl⟩ := error_of_stayed hout
      rw [eq_self_iff]
      exact traceless_of_branchWith (c := fun ins outs targets => .branch stencil ins outs holes targets)
        rfl rfl rfl hid (blockCall_branch hid) (fun _ _ _ => rfl) (fun _ _ _ => rfl) hb
  | endBranch stencil inputs outputs holes jumps next =>
      obtain ⟨id, hid, h⟩ := Option.bind_eq_some_iff.1 h
      obtain ⟨⟨res, b⟩, hb, hout⟩ := Option.map_eq_some_iff.1 h
      obtain ⟨rfl, rfl⟩ := (passedOn_moved hout).error
      rw [eq_self_iff]
      rcases endBranch_cases hb with ⟨e', -, hcode⟩ | ⟨mid, hcode, -⟩
      · exact traceless_of_branchWith
          (c := fun ins outs targets => .endBranch stencil ins outs holes targets) rfl rfl rfl hid
          (blockCall_endBranch hid) (fun _ _ _ => rfl) (fun _ _ _ => rfl) hcode
      · -- the stencil was copied, and the switch failed
        have hacc : m.accepted checks (.endBranch stencil inputs outputs holes jumps next) = some id :=
          accepted_of_branchWith
            (c := fun ins outs targets => .endBranch stencil ins outs holes targets)
            (blockCall_endBranch hid) hcode
        rw [hacc]
        exact iff_of_false (fun hboth => by cases hboth.2) (not_traceless_of_accepted rfl hacc)
  | ret stencil inputs holes => cases hop
  | drop => cases hop

end Machine

/-! ## All runs -/

/-- The call, if it fails, leaves no trace; of a `ret` nothing is asked. -/
def Careful [Slab σ] (checks : Bool) (m : Machine σ MAX_REGS) (op : Op MAX_REGS) : Prop :=
  ∀ e m', op.consumes = false → m.exec checks op = some (.error e, m') → m.Traceless checks op

/-- The machine without the calls that fail, up to `ret`. -/
def succeedingMachine (σ : Type → Type) [Slab σ] (checks : Bool) (library : StencilLibrary MAX_REGS) :
    System (Machine σ MAX_REGS) (Op MAX_REGS) where
  init := (machineSystem σ checks library).init
  step m op m' := ∃ out, m.exec checks op = some (out, m') ∧
    ∀ e, out = .error e → op.consumes = true

/-- **Failed calls.** In every reachable state a failed call leaves builder and handle as they were, and
has copied no stencil, exactly when it is traceless. In a run in which every failed call is of this
kind, a failed call changes nothing, and every state is one that the successful calls alone reach. -/
theorem failed_ops [Slab σ] [LawfulSlab σ] (checks : Bool) (library : StencilLibrary MAX_REGS) :
    (∀ m, (machineSystem σ checks library).Reachable m → ∀ op e m', op.consumes = false →
      m.exec checks op = some (.error e, m') →
        ((m' = m ∧ m.accepted checks op = none) ↔ m.Traceless checks op)) ∧
    ∀ m, ((machineSystem σ checks library).guard (Careful checks)).Reachable m →
      (succeedingMachine σ checks library).Reachable m ∧
      ∀ op e m', op.consumes = false → Careful checks m op →
        m.exec checks op = some (.error e, m') → m' = m := by
  have hstep : ∀ m, (machineSystem σ checks library).Reachable m → ∀ op e m', op.consumes = false →
      m.exec checks op = some (.error e, m') →
        ((m' = m ∧ m.accepted checks op = none) ↔ m.Traceless checks op) := by
    intro m hm op e m' hop h
    obtain ⟨hs, hstacked⟩ := Machine.stacked_of_reachable hm
    exact Machine.traceless_iff hs hstacked hop h
  have hkeep : ∀ m, (machineSystem σ checks library).Reachable m → ∀ op e m', op.consumes = false →
      Careful checks m op → m.exec checks op = some (.error e, m') → m' = m := by
    intro m hm op e m' hop hcareful h
    exact ((hstep m hm op e m' hop h).2 (hcareful e m' hop h)).1
  refine ⟨hstep, fun m hm => ⟨?_, hkeep m hm.of_guard⟩⟩
  induction hm with
  | init h => exact .init h
  | step op hs h ih =>
      obtain ⟨hcareful, out, hexec⟩ := h
      by_cases hfail : ∃ e, out = .error e ∧ op.consumes = false
      · -- nothing has changed
        obtain ⟨e, rfl, hop⟩ := hfail
        rw [hkeep _ hs.of_guard op e _ hop hcareful hexec]
        exact ih
      · refine .step op ih ⟨out, hexec, fun e he => ?_⟩
        rw [← Bool.not_eq_false]
        exact fun hop => hfail ⟨e, he, hop⟩

/-- A jump from the entry to its child. -/
def linkOps : List (Op 1) :=
  [.createBlock, .switchToEntry, .branch jumpFamily nil nil nil (.singleton (.child 1))]

/-- A family without a stencil for its locations. -/
def missingFamily : StencilFamily 0 0 1 0 1 := ⟨[.new], [⟨0, 0, 0⟩]⟩

/-- The same jump again, which finds no stencil. -/
def missingBranch : Op 1 := .branch missingFamily nil nil nil (.singleton (.child 1))

theorem failed_ops_missing : ∃ m m' : Machine VecSlab 1, tidyRunOf sampleLibrary linkOps = some m ∧
    m.exec true missingBranch = some (.error .stencilNotFound, m') ∧ m' = m := by
  have hrun : (tidyRunOf sampleLibrary linkOps).map (fun m =>
      ((m.exec true missingBranch).map (·.1), decide (m.Traceless true missingBranch))) =
        some (some (.error .stencilNotFound), true) := by
    decide +kernel
  obtain ⟨m, hm, hstate⟩ := Option.map_eq_some_iff.1 hrun
  simp only [Prod.mk.injEq, decide_eq_true_eq] at hstate
  obtain ⟨hexec, htraceless⟩ := hstate
  obtain ⟨⟨out, m'⟩, hexec, rfl⟩ := Option.map_eq_some_iff.1 hexec
  have hstep := (failed_ops true sampleLibrary).1 m
    (reachable_of_machineRunOf (fun _ _ _ h => h) hm).of_guard _ _ m' rfl hexec
  exact ⟨m, m', hm, hexec, (hstep.2 htraceless).1⟩

/-- A jump that names a parent out of scope. -/
def strayBranch : Op 1 := .branch jumpFamily nil nil nil (.singleton (.parent 1 5))

/-- The refused jump has given its target another parent. -/
theorem not_failed_ops : ¬ ∀ m : Machine VecSlab 1, (machineSystem VecSlab true sampleLibrary).Reachable m →
    ∀ op e m', op.consumes = false → m.exec true op = some (.error e, m') → m' = m := by
  intro hall
  have hrun : (tidyRunOf sampleLibrary linkOps).map (fun m =>
      (m.builder.parentOf 1, (m.exec true strayBranch).map fun r => (r.1, r.2.builder.parentOf 1))) =
        some (some 0, some (.error .blockOutOfScope, some 5)) := by
    decide +kernel
  obtain ⟨m, hm, hstate⟩ := Option.map_eq_some_iff.1 hrun
  simp only [Prod.mk.injEq] at hstate
  obtain ⟨hbefore, hafter⟩ := hstate
  obtain ⟨⟨out, m'⟩, hexec, hafter⟩ := Option.map_eq_some_iff.1 hafter
  obtain ⟨rfl, hafter⟩ := Prod.mk.inj hafter
  rw [hall m (reachable_of_machineRunOf (fun _ _ _ h => h) hm).of_guard _ _ m' rfl hexec,
    hbefore] at hafter
  cases hafter

end Patchouly.Managed
