import Patchouly.Managed.Steps

/-!
# Parents assigned by jumps

A jump assigns the parent of its target. `stableJumps` says that no parent is assigned twice with
different values and that assigned parents are on the scope stack; `exec_assign` says what a call
with such jumps does to the parents. `accepted` is the block whose code took a call's emission, and
`blockCall_spec` is what the call has passed by then.
-/

set_option autoImplicit false

namespace Patchouly.Managed

open Patchouly.Lib Patchouly.Core Patchouly.Patch PatchFunctionBuilder

variable {σ : Type → Type} [Slab σ] {MAX_REGS : Nat}

/-- The block a jump leads to. -/
def JumpScope.block? : JumpScope → Option BlockId
  | .next => none
  | .child block => some block
  | .same block => some block
  | .parent dest _ => some dest

/-- Whether the call copies a stencil. -/
def Op.emits : Op MAX_REGS → Bool
  | .emit .. | .branch .. | .endBranch .. | .ret .. => true
  | _ => false

namespace PatchFunctionBuilder

/-- The jumps, made one after the other, change no parent that is assigned already, and assign
parents on the scope stack; a jump that names its parent is checked by `branchPrep` itself. -/
def stableJumps (id : BlockId) : List JumpScope → PatchFunctionBuilder σ MAX_REGS → Bool
  | [], _ => true
  | jump :: rest, b =>
      ((b.assigns id jump).all fun a =>
        (decide (b.parentOf a.1 = none) || decide (b.parentOf a.1 = some a.2)) &&
          (decide (a.2 ∈ b.currentScopes) || decide (jump = .parent a.1 a.2))) &&
      ((prepJump id b jump).all fun r => stableJumps id rest r.2)

end PatchFunctionBuilder

namespace Machine

/-- The block whose code took the call's emission. -/
def accepted (checks : Bool) (m : Machine σ MAX_REGS) (op : Op MAX_REGS) : Option BlockId :=
  (m.blockCall op).bind fun (id, c) =>
    (m.builder.blocks[id.toNat]?).bind fun scope =>
      match scope.block.call checks c with
      | some (.ok (), _) => some id
      | _ => none

theorem blockCall_of_accepted {checks : Bool} {m : Machine σ MAX_REGS} {op : Op MAX_REGS}
    {id : BlockId} (h : m.accepted checks op = some id) : ∃ c, m.blockCall op = some (id, c) := by
  obtain ⟨⟨id', c⟩, hc, h1⟩ := Option.bind_eq_some_iff.1 h
  obtain ⟨scope, -, h2⟩ := Option.bind_eq_some_iff.1 h1
  split at h2
  · obtain rfl := Option.some.inj h2
    exact ⟨c, hc⟩
  · cases h2

theorem visible_of_lookup {LEN : Nat} {b : PatchFunctionBuilder σ MAX_REGS}
    {values : Vector Value LEN} {ls : Vector Location LEN} (h : b.lookup values = some ls) :
    Visible b values.toList := by
  rw [lookup] at h
  split at h
  · next ls' hl => exact visible_of_locations hl
  · cases h

/-- What a call on a block has passed. -/
theorem blockCall_spec {m : Machine σ MAX_REGS} {op : Op MAX_REGS} {id : BlockId}
    {c : Call MAX_REGS} (h : m.blockCall op = some (id, c)) :
    op.emits = true ∧ m.handles.head? = some id ∧ Visible m.builder op.operands ∧
      m.builder.jumpsPass id op.jumps = true := by
  cases op with
  | emit stencil inputs outputs holes =>
      simp only [blockCall, Option.bind_eq_bind, Option.pure_def] at h
      obtain ⟨i, hi, h1⟩ := Option.bind_eq_some_iff.1 h
      obtain ⟨ins, hins, h2⟩ := Option.bind_eq_some_iff.1 h1
      obtain ⟨outs, houts, h3⟩ := Option.bind_eq_some_iff.1 h2
      obtain ⟨rfl, -⟩ := Prod.mk.inj (Option.some.inj h3)
      exact ⟨rfl, hi, (visible_of_lookup hins).append (visible_of_lookup houts), rfl⟩
  | branch stencil inputs outputs holes jumps =>
      simp only [blockCall, Option.bind_eq_bind] at h
      obtain ⟨i, hi, h1⟩ := Option.bind_eq_some_iff.1 h
      obtain ⟨ins, hins, h2⟩ := Option.bind_eq_some_iff.1 h1
      obtain ⟨outs, houts, h3⟩ := Option.bind_eq_some_iff.1 h2
      split at h3
      · next hpass =>
        obtain ⟨rfl, -⟩ := Prod.mk.inj (Option.some.inj h3)
        exact ⟨rfl, hi, (visible_of_lookup hins).append (visible_of_lookup houts), hpass⟩
      · cases h3
  | endBranch stencil inputs outputs holes jumps next =>
      simp only [blockCall, Option.bind_eq_bind] at h
      obtain ⟨i, hi, h1⟩ := Option.bind_eq_some_iff.1 h
      obtain ⟨ins, hins, h2⟩ := Option.bind_eq_some_iff.1 h1
      obtain ⟨outs, houts, h3⟩ := Option.bind_eq_some_iff.1 h2
      split at h3
      · next hpass =>
        obtain ⟨rfl, -⟩ := Prod.mk.inj (Option.some.inj h3)
        exact ⟨rfl, hi, (visible_of_lookup hins).append (visible_of_lookup houts), hpass⟩
      · cases h3
  | ret stencil inputs holes =>
      simp only [blockCall, Option.bind_eq_bind, Option.pure_def] at h
      obtain ⟨i, hi, h1⟩ := Option.bind_eq_some_iff.1 h
      obtain ⟨ins, hins, h2⟩ := Option.bind_eq_some_iff.1 h1
      obtain ⟨rfl, -⟩ := Prod.mk.inj (Option.some.inj h2)
      exact ⟨rfl, hi, visible_of_lookup hins, rfl⟩
  | createBlock => cases h
  | switchToEntry => cases h
  | switchToBlock block => cases h
  | newParam => cases h
  | newVariable => cases h
  | drop => cases h

end Machine

/-! ## Parents -/

section Parents

variable [LawfulSlab σ] {checks : Bool}

/-- What stable jumps do: parents are only added, and every target has one on the stack. -/
theorem prepJumps_stable {b b' : PatchFunctionBuilder σ MAX_REGS} {id : BlockId}
    {jumps : List JumpScope} {bad : Bool} (h : prepJumps id jumps b = some (bad, b'))
    (hs : stableJumps id jumps b = true) :
    (∀ x p, b.parentOf x = some p → b'.parentOf x = some p) ∧
      ∀ jump ∈ jumps, ∀ target, jump.block? = some target →
        ∃ p, b'.parentOf target = some p ∧ (bad = false → p ∈ b.currentScopes) := by
  induction jumps generalizing b bad with
  | nil =>
      obtain ⟨-, rfl⟩ := Prod.mk.inj (Option.some.inj h)
      exact ⟨fun _ _ hp => hp, by simp⟩
  | cons jump rest ih =>
      obtain ⟨bad₁, bad₂, m, hm, hrest, rfl⟩ := prepJumps_cons h
      simp only [stableJumps, Bool.and_eq_true, hm, Option.all_some] at hs
      obtain ⟨hjump, hs'⟩ := hs
      obtain ⟨hr, hpar, hcheck⟩ := prepJump_effect hm
      obtain ⟨hgrow, htargets⟩ := ih hrest hs'
      -- a stable jump gives a parent to a block that has none, or the one it has already
      have hstep : ∀ x p, b.parentOf x = some p → m.parentOf x = some p := by
        intro x p hp
        rw [hpar x]
        cases ha : b.assigns id jump with
        | none => exact hp
        | some a =>
            simp only [ha, Option.all_some, Bool.and_eq_true, Bool.or_eq_true,
              decide_eq_true_eq] at hjump
            simp only
            split
            · next hx =>
              rcases hjump.1 with hnone | hsome
              · rw [← hx, hp] at hnone
                cases hnone
              · rw [← hx, hp] at hsome
                exact hsome.symm
            · exact hp
      refine ⟨fun x p hp => hgrow x p (hstep x p hp), ?_⟩
      intro j hj target ht
      rcases List.mem_cons.1 hj with rfl | hj
      · -- the parent assigned by this jump stays
        have hassign : ∃ p, b.assigns id j = some (target, p) := by
          cases j with
          | next => cases ht
          | child block => obtain rfl := Option.some.inj ht; exact ⟨_, rfl⟩
          | same block => obtain rfl := Option.some.inj ht; exact ⟨_, rfl⟩
          | parent dest parent => obtain rfl := Option.some.inj ht; exact ⟨_, rfl⟩
        obtain ⟨p, hp⟩ := hassign
        have hmp : m.parentOf target = some p := by
          rw [hpar target, hp]
          simp
        refine ⟨p, hgrow _ _ hmp, fun hbad => ?_⟩
        simp only [hp, Option.all_some, Bool.and_eq_true, Bool.or_eq_true,
          decide_eq_true_eq] at hjump
        rcases hjump.2 with hmem | hnamed
        · exact hmem
        · exact hcheck (by simpa using (Bool.or_eq_false_iff.1 hbad).1) _ _ hnamed
      -- a later jump: preparing the first one leaves the scopes alone
      · obtain ⟨p, hp, hmem⟩ := htargets j hj target ht
        refine ⟨p, hp, fun hbad => ?_⟩
        rw [← hr.quiet.currentScopes]
        exact hmem (Bool.or_eq_false_iff.1 hbad).2

/-- What the jumps of a call do to the parents. -/
structure JumpsAssign (checks : Bool) (m m' : Machine σ MAX_REGS) (op : Op MAX_REGS) : Prop where
  grow : ∀ x p, m.builder.parentOf x = some p → m'.builder.parentOf x = some p
  targets : ∀ id, m.accepted checks op = some id → ∀ jump ∈ op.jumps, ∀ target,
    jump.block? = some target →
      ∃ p, m'.builder.parentOf target = some p ∧ p ∈ m.builder.currentScopes

omit [LawfulSlab σ] in
theorem JumpsAssign.of_same {m m' : Machine σ MAX_REGS} {op : Op MAX_REGS}
    (h : SameParents m.builder m'.builder) (hj : op.jumps = []) : JumpsAssign checks m m' op where
  grow x p hp := by rw [h x, hp]
  targets id _ jump hm := by
    rw [hj] at hm
    cases hm

section Branch

variable {IN OUT JUMPS : Nat} {m : Machine σ MAX_REGS} {b' : PatchFunctionBuilder σ MAX_REGS}
  {id : BlockId} {inputs : Vector Value IN} {outputs : Vector Value OUT}
  {jumps : Vector JumpScope JUMPS}
  {f : Vector Location IN → Vector Location OUT → Vector JumpTarget JUMPS →
    PatchBlock MAX_REGS → Option (Except PatchError Unit × PatchBlock MAX_REGS)}
  {res : Except PatchError Unit}

/-- A branch whose jumps are stable. -/
theorem branchWith_assign {op : Op MAX_REGS} {m' : Machine σ MAX_REGS}
    (hjumps : op.jumps = jumps.toList) (hops : op.operands = inputs.toList ++ outputs.toList)
    (hid : m.handles.head? = some id)
    (h : m.builder.branchWith id inputs outputs jumps f = some (res, b'))
    (hs : stableJumps id jumps.toList m.builder = true)
    (hsame : SameParents b' m'.builder) : JumpsAssign checks m m' op := by
  have haccept : ∀ {id'}, m.accepted checks op = some id' →
      id' = id ∧ Visible m.builder (inputs.toList ++ outputs.toList) ∧
        m.builder.jumpsPass id jumps.toList = true := by
    intro id' hacc
    obtain ⟨c, hc⟩ := Machine.blockCall_of_accepted hacc
    obtain ⟨-, hid', hvis, hpass⟩ := Machine.blockCall_spec hc
    rw [hid] at hid'
    obtain rfl := Option.some.inj hid'
    rw [hops] at hvis
    rw [hjumps] at hpass
    exact ⟨rfl, hvis, hpass⟩
  rcases Machine.branchWith_cases h with
    ⟨e, -, ⟨rfl, hnot⟩ | ⟨-, hbad⟩⟩ | ⟨ins, outs, mid, -, -, hprep, hon⟩
  · exact ⟨fun x p hp => by rw [hsame x, hp], fun id' hacc => absurd (haccept hacc).2.1 hnot⟩
  -- a jump did not pass: its parent is assigned all the same, but the call is not accepted
  · obtain ⟨hgrow, -⟩ := prepJumps_stable hbad hs
    refine ⟨fun x p hp => by rw [hsame x, hgrow x p hp], fun id' hacc => ?_⟩
    have hpass := (haccept hacc).2.2
    rw [jumpsPass, hbad] at hpass
    cases hpass
  · obtain ⟨hgrow, htargets⟩ := prepJumps_stable hprep hs
    obtain ⟨-, hpar, -⟩ := onBlock_effect hon
    refine ⟨fun x p hp => by rw [hsame x, hpar x, hgrow x p hp], ?_⟩
    intro id' _ jump hj target ht
    rw [hjumps] at hj
    obtain ⟨p, hp, hmem⟩ := htargets jump hj target ht
    exact ⟨p, by rw [hsame target, hpar target, hp], hmem rfl⟩

end Branch

/-- **What a call whose jumps are stable does to the parents.** -/
theorem exec_assign {m m' : Machine σ MAX_REGS} {op : Op MAX_REGS} {out : Machine.Outcome}
    (hsound : m.builder.allocator.Sound) (h : m.exec checks op = some (out, m'))
    (hs : (m.handles.head?.all fun id => stableJumps id op.jumps m.builder) = true) :
    JumpsAssign checks m m' op := by
  have hrun := Machine.exec_runs hsound h
  generalize hb : m'.builder = b at hrun
  generalize out.value = v at hrun
  cases hrun with
  | idle hjumps => exact .of_same (fun x => by rw [hb]) hjumps
  | created hjumps hcreate =>
      rw [← hb] at hcreate
      exact .of_same (createBlock_effect hcreate).2.1 hjumps
  | named hop hid hcode hnamed =>
      rw [← hb] at hcode
      rcases hop with rfl | rfl
      · exact .of_same hcode.parents rfl
      · exact .of_same hcode.parents rfl
  | opened hjumps hpoint hswitch =>
      rw [← hb] at hswitch
      exact .of_same (Machine.change_of_switch checks op hsound (.refl _) hpoint hswitch).2.parents hjumps
  | called hjumps hcall hon =>
      rw [← hb] at hon
      exact .of_same (onBlock_effect hon).2.1 hjumps
  | branched hjumps hops hid hcall hbranch hend =>
      rw [hid, hjumps] at hs
      refine branchWith_assign hjumps hops hid hbranch hs ?_
      rw [hb]
      rcases hend with rfl | ⟨block, r, hpoint, hswitch⟩
      · exact fun _ => rfl
      · have hq := (Machine.branchWith_effect hbranch).1
        exact (Machine.change_of_switch checks op hsound hq hpoint hswitch).2.parents

end Parents

end Patchouly.Managed
