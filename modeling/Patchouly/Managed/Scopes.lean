import Patchouly.Managed.Atomicity
import Patchouly.Managed.Ownership

/-!
# The scope stack

A switch keeps the stack up to the parent of the block it switches to, pops the rest, and pushes the
block. A switch to the entry keeps everything. Nothing checks that the block is not on the stack
already: it then stands there twice, or loses its variables while it stays.

* `exec_switch`: what a successful switch does to stack and variables.
* `scopes_left`: when only the scopes that are left lose their variables.
-/

set_option autoImplicit false

namespace Patchouly.Managed

open Patchouly.Lib Patchouly.Core Patchouly.Patch PatchFunctionBuilder

variable {σ : Type → Type} {MAX_REGS : Nat}

/-! ## Splitting the stack -/

/-- The block a call switches to. -/
def Op.switch? : Op MAX_REGS → Option BlockId
  | .switchToEntry => some 0
  | .switchToBlock block => some block
  | .endBranch _ _ _ _ _ next => some next
  | _ => none

/-- The scopes that a switch to `block` keeps, and those it pops, when its parent is `parent`. -/
def splitAt (scopes : List BlockId) (block : BlockId) (parent : Option BlockId) :
    Option (List BlockId × List BlockId) :=
  if block = 0 then some (scopes, [])
  else parent.bind fun parent =>
    (scopes.idxOf? parent).map fun index => (scopes.take (index + 1), scopes.drop (index + 1))

theorem splitScopes_eq (b : PatchFunctionBuilder σ MAX_REGS) (block : BlockId) :
    b.splitScopes block = splitAt b.currentScopes block (b.parentOf block) := rfl

/-- The two parts make up the stack. Only a switch to the entry can keep nothing. -/
theorem splitAt_spec {scopes kept popped : List BlockId} {block : BlockId} {parent : Option BlockId}
    (h : splitAt scopes block parent = some (kept, popped)) :
    kept ++ popped = scopes ∧ (kept = [] → block = 0 ∧ scopes = []) := by
  rw [splitAt] at h
  split at h
  · next hzero =>
      obtain ⟨rfl, rfl⟩ := Prod.mk.inj (Option.some.inj h)
      exact ⟨List.append_nil _, fun hnil => ⟨hzero, hnil⟩⟩
  · obtain ⟨p, -, h⟩ := Option.bind_eq_some_iff.1 h
    obtain ⟨index, hindex, h⟩ := Option.map_eq_some_iff.1 h
    obtain ⟨rfl, rfl⟩ := Prod.mk.inj h
    refine ⟨List.take_append_drop _ _, fun hnil => ?_⟩
    -- the parent is on the stack, so something is kept
    rcases List.take_eq_nil_iff.1 hnil with hzero | hempty
    · cases hzero
    · rw [hempty] at hindex
      cases hindex

namespace Machine

/-- The parent of a block once the jumps of the call have assigned theirs. -/
def parentFor (m : Machine σ MAX_REGS) (op : Op MAX_REGS) (block : BlockId) : Option BlockId :=
  match m.handles.head? with
  | some id => op.jumps.foldl (request id) m.builder.parentOf block
  | none => m.builder.parentOf block

/-- The block a call switches to is not on the part of the stack that is kept, and has no variables when
it is on the part that is popped. -/
def EntersAnew (m : Machine σ MAX_REGS) (op : Op MAX_REGS) : Prop :=
  ∀ block ∈ op.switch?, ∀ split ∈ splitAt m.builder.currentScopes block (m.parentFor op block),
    block ∉ split.1 ∧ (block ∈ split.2 → m.builder.varsOf block = [])

instance (m : Machine σ MAX_REGS) (op : Op MAX_REGS) : Decidable (m.EntersAnew op) :=
  @Option.decidableForallMem _
    (fun block : BlockId =>
      ∀ split ∈ splitAt m.builder.currentScopes block (m.parentFor op block),
        block ∉ split.1 ∧ (block ∈ split.2 → m.builder.varsOf block = []))
    (fun _ => Option.decidableForallMem _) op.switch?

theorem parentFor_of_no_jumps {m : Machine σ MAX_REGS} {op : Op MAX_REGS} (h : op.jumps = [])
    (block : BlockId) : m.parentFor op block = m.builder.parentOf block := by
  rw [parentFor, h]
  split <;> rfl

variable [Slab σ]

/-- What a switch to `block` does, when it keeps `kept` and pops `popped`. -/
structure Switched (m m' : Machine σ MAX_REGS) (block : BlockId) (kept popped : List BlockId) :
    Prop where
  before : kept ++ popped = m.builder.currentScopes
  after : m'.builder.currentScopes = kept ++ [block]
  vars : ∀ x v, v ∈ m'.builder.varsOf x ↔ x ∉ popped ∧ v ∈ m.builder.varsOf x
  freed : ∀ x ∈ popped, ∀ v ∈ m.builder.varsOf x, m'.builder.allocator.location v = none
  stays : ∀ x, x ∉ popped → ∀ v ∈ m.builder.varsOf x,
    m'.builder.allocator.location v = m.builder.allocator.location v

variable [LawfulSlab σ] {checks : Bool} {m m' : Machine σ MAX_REGS} {op : Op MAX_REGS}

/-- A switch from a builder that differs from the machine's in code and parents only. -/
theorem switched_of_switchToBlock (h : Owned m.builder) {mid : PatchFunctionBuilder σ MAX_REGS}
    {block : BlockId} (hq : Quiet m.builder mid)
    (hswitch : mid.switchToBlock block = some (.ok (), m'.builder)) :
    ∃ kept popped, splitAt m.builder.currentScopes block (mid.parentOf block) = some (kept, popped) ∧
      Switched m m' block kept popped := by
  have hmid := h.quiet hq
  rcases switchToBlock_cases hmid.sound hswitch with
    ⟨e, he, -⟩ | ⟨-, -, kept, popped, q, hsplit, hpops, hb⟩
  · cases he
  · rw [splitScopes_eq, hq.currentScopes] at hsplit
    have hloc : ∀ v, mid.allocator.location v = m.builder.allocator.location v := by
      intro v
      rw [Allocator.location, Allocator.location, hq.slots]
    refine ⟨kept, popped, hsplit, (splitAt_spec hsplit).1, by rw [hb], ?_, ?_, ?_⟩
    · intro x v
      rw [hb, ← hq.vars x]
      exact Owned.mem_pops hpops
    · intro x hx v hv
      rw [hb]
      rw [← hq.vars x] at hv
      exact hpops.freed x hx v hv
    · intro x hx v hv
      rw [hb, ← hloc v]
      rw [← hq.vars x] at hv
      exact hmid.location_of_pops hpops hx hv

/-- **What a successful switch does.** -/
theorem exec_switch (h : Owned m.builder) {block : BlockId} {v : Option Value}
    (hop : op.switch? = some block) (hexec : m.exec checks op = some (.ok v, m')) :
    ∃ kept popped, splitAt m.builder.currentScopes block (m.parentFor op block) =
      some (kept, popped) ∧ Switched m m' block kept popped := by
  cases op with
  | switchToEntry =>
      obtain rfl := Option.some.inj hop
      obtain ⟨⟨res, b⟩, hb, hout⟩ := Option.map_eq_some_iff.1 hexec
      have hpassed := passedOn_opened hout
      obtain rfl := hpassed.ok
      have hb' := hpassed.builder
      rw [parentFor_of_no_jumps rfl]
      exact switched_of_switchToBlock h (.refl _) (hb' ▸ hb)
  | switchToBlock target =>
      obtain rfl := Option.some.inj hop
      obtain ⟨⟨res, b⟩, hb, hout⟩ := Option.map_eq_some_iff.1 hexec
      have hpassed := passedOn_opened hout
      obtain rfl := hpassed.ok
      have hb' := hpassed.builder
      rw [parentFor_of_no_jumps rfl]
      exact switched_of_switchToBlock h (.refl _) (hb' ▸ hb)
  | endBranch stencil inputs outputs holes jumps next =>
      obtain rfl := Option.some.inj hop
      obtain ⟨id, hid, hexec⟩ := Option.bind_eq_some_iff.1 hexec
      obtain ⟨⟨res, b⟩, hb, hout⟩ := Option.map_eq_some_iff.1 hexec
      have hpassed := passedOn_moved hout
      obtain rfl := hpassed.ok
      have hb' := hpassed.builder
      rcases endBranch_cases hb with ⟨e, he, -⟩ | ⟨mid, hcode, hswitch⟩
      · cases he
      · -- the jumps assign the parents, the emission leaves them
        have hparent : mid.parentOf next =
            m.parentFor (.endBranch stencil inputs outputs holes jumps next) next := by
          rcases branchWith_cases hcode with ⟨e, he, -⟩ | ⟨ins, outs, b₁, -, -, hprep, hon⟩
          · cases he
          · rw [(onBlock_effect hon).2.1 next, prepJumps_parents hprep, parentFor, hid]
            rfl
        rw [← hparent]
        exact switched_of_switchToBlock h (branchWith_effect hcode).1 (hb' ▸ hswitch)
  | createBlock => cases hop
  | newParam => cases hop
  | newVariable => cases hop
  | emit stencil inputs outputs holes => cases hop
  | branch stencil inputs outputs holes jumps => cases hop
  | ret stencil inputs holes => cases hop
  | drop => cases hop

/-- The scope stack changes in successful switches only. -/
theorem exec_scopes {out : Outcome} (hs : m.builder.allocator.Sound)
    (h : m.exec checks op = some (out, m')) :
    m'.builder.currentScopes = m.builder.currentScopes ∨
      ∃ v block, out = .ok v ∧ op.switch? = some block := by
  cases hop : op.switch? with
  | none =>
      -- no switch point, so the call is quiet or returns a variable
      have hnone : m.switchPoint checks op = none := by
        cases op with
        | switchToEntry => cases hop
        | switchToBlock block => cases hop
        | endBranch stencil inputs outputs holes jumps next => cases hop
        | _ => rfl
      have hchange := exec_change hs h
      generalize out.value = v at hchange
      cases hchange with
      | quiet hq => exact Or.inl hq.currentScopes
      | fresh hf hid => exact Or.inl hf.currentScopes
      | switched hq hpoint hsplit hpops hb =>
          rw [hnone] at hpoint
          cases hpoint
  | some block =>
      cases out with
      | ok v => exact Or.inr ⟨v, block, rfl, rfl⟩
      | error e =>
          left
          cases op with
          | switchToEntry =>
              obtain ⟨⟨res, b⟩, hb, hout⟩ := Option.map_eq_some_iff.1 h
              obtain ⟨rfl, rfl⟩ := (passedOn_opened hout).error
              rw [switchToBlock_error hs hb]
          | switchToBlock target =>
              obtain ⟨⟨res, b⟩, hb, hout⟩ := Option.map_eq_some_iff.1 h
              obtain ⟨rfl, rfl⟩ := (passedOn_opened hout).error
              rw [switchToBlock_error hs hb]
          | endBranch stencil inputs outputs holes jumps next =>
              obtain ⟨id, -, h⟩ := Option.bind_eq_some_iff.1 h
              obtain ⟨⟨res, b⟩, hb, hout⟩ := Option.map_eq_some_iff.1 h
              obtain ⟨rfl, rfl⟩ := (passedOn_moved hout).error
              rcases endBranch_cases hb with ⟨e', -, hcode⟩ | ⟨mid, hcode, hswitch⟩
              · exact (branchWith_effect hcode).1.currentScopes
              · have hq := (branchWith_effect hcode).1
                rw [switchToBlock_error (hq.sound hs) hswitch]
                exact hq.currentScopes
          | _ => cases hop

/-! ## Scopes that are left -/

/-- The variable is gone from its block, and its slot is vacant. -/
def Freed (m : Machine σ MAX_REGS) (x : BlockId) (v : Value) : Prop :=
  v ∉ m.builder.varsOf x ∧ m.builder.allocator.location v = none

/-- The stack after a switch has no block twice and starts with the entry; the switch has freed the
variables of the scopes that were left, and all variables of the scopes that stay are where they
were. -/
structure ScopesLeft (m m' : Machine σ MAX_REGS) : Prop where
  nodup : m'.builder.currentScopes.Nodup
  entry : m'.builder.currentScopes.head? = some 0
  freed : ∀ x, ∀ v ∈ m.builder.varsOf x, m'.Freed x v ↔
    x ∈ m.builder.currentScopes ∧ x ∉ m'.builder.currentScopes
  stays : ∀ x ∈ m.builder.currentScopes, x ∈ m'.builder.currentScopes →
    ∀ v ∈ m.builder.varsOf x, v ∈ m'.builder.varsOf x ∧
      m'.builder.allocator.location v = m.builder.allocator.location v

/-- No block is on the stack twice, and the lowest one is the entry. -/
structure Nested (m : Machine σ MAX_REGS) : Prop where
  owned : Owned m.builder
  nodup : m.builder.currentScopes.Nodup
  entry : ∀ x ∈ m.builder.currentScopes.head?, x = 0

/-- **A switch** on a nested stack frees the variables of the scopes that are left, and no others,
exactly when the block enters anew. -/
theorem scopesLeft_iff (h : Nested m) {block : BlockId} {kept popped : List BlockId}
    (hs : Switched m m' block kept popped)
    (hkept : kept = [] → block = 0 ∧ m.builder.currentScopes = []) :
    ScopesLeft m m' ↔ block ∉ kept ∧ (block ∈ popped → m.builder.varsOf block = []) := by
  have hnodup := h.nodup
  rw [← hs.before, List.nodup_append] at hnodup
  obtain ⟨hk, -, hdisjoint⟩ := hnodup
  have hfreed : ∀ x, ∀ v ∈ m.builder.varsOf x, (m'.Freed x v ↔ x ∈ popped) := by
    intro x v hv
    constructor
    · rintro ⟨hgone, -⟩
      by_contra hx
      exact hgone ((hs.vars x v).2 ⟨hx, hv⟩)
    · intro hx
      exact ⟨fun hmem => ((hs.vars x v).1 hmem).1 hx, hs.freed x hx v hv⟩
  constructor
  · intro hl
    constructor
    · have hn := hl.nodup
      rw [hs.after, List.nodup_append] at hn
      intro hb
      exact hn.2.2 block hb block (List.mem_singleton.2 rfl) rfl
    · intro hb
      rw [List.eq_nil_iff_forall_not_mem]
      intro v hv
      -- the block is on the stack again, and its variable is gone
      have hout := ((hl.freed block v hv).1 ((hfreed block v hv).2 hb)).2
      rw [hs.after] at hout
      exact hout (List.mem_append_right _ (List.mem_singleton.2 rfl))
  · rintro ⟨hnew, hempty⟩
    refine ⟨?_, ?_, ?_, ?_⟩
    · rw [hs.after, List.nodup_append]
      refine ⟨hk, List.nodup_singleton _, ?_⟩
      rintro x hx y hy rfl
      exact hnew (List.mem_singleton.1 hy ▸ hx)
    · rw [hs.after]
      cases hkept' : kept with
      | nil => rw [(hkept hkept').1]; rfl
      | cons x rest =>
          have hfirst := h.entry x (by rw [← hs.before, hkept']; rfl)
          rw [hfirst]
          rfl
    · intro x v hv
      rw [hfreed x v hv, hs.after, ← hs.before, List.mem_append, List.mem_append,
        List.mem_singleton]
      constructor
      · intro hx
        refine ⟨Or.inr hx, ?_⟩
        rintro (hxk | rfl)
        · exact hdisjoint x hxk x hx rfl
        · rw [hempty hx] at hv
          cases hv
      · rintro ⟨hxk | hx, hout⟩
        · exact absurd (Or.inl hxk) hout
        · exact hx
    · intro x hx hx' v hv
      have hnot : x ∉ popped := by
        intro hp
        rw [hs.after, List.mem_append, List.mem_singleton] at hx'
        rcases hx' with hxk | rfl
        · exact hdisjoint x hxk x hp rfl
        · rw [hempty hp] at hv
          cases hv
      exact ⟨(hs.vars x v).2 ⟨hnot, hv⟩, hs.stays x hnot v hv⟩

end Machine

/-! ## All runs -/

variable [Slab σ] [LawfulSlab σ]

/-- A switch of the step, if it succeeds, enters its block anew. -/
def Entering (checks : Bool) (m : Machine σ MAX_REGS) (op : Op MAX_REGS) : Prop :=
  ∀ v m', m.exec checks op = some (.ok v, m') → m.EntersAnew op

theorem scopesLeft_iff_entersAnew {checks : Bool} {m m' : Machine σ MAX_REGS} {op : Op MAX_REGS}
    {v : Option Value} (h : m.Nested) (hop : op.switch? ≠ none)
    (hexec : m.exec checks op = some (.ok v, m')) : m.ScopesLeft m' ↔ m.EntersAnew op := by
  obtain ⟨block, hblock⟩ := Option.ne_none_iff_exists'.1 hop
  obtain ⟨kept, popped, hsplit, hswitched⟩ := Machine.exec_switch h.owned hblock hexec
  rw [Machine.scopesLeft_iff h hswitched (splitAt_spec hsplit).2, Machine.EntersAnew, hblock]
  simp only [Option.mem_some_iff, forall_eq', hsplit]

/-- The stack is nested in every run whose switches enter their blocks anew. -/
theorem nested_of_entering {checks : Bool} {library : StencilLibrary MAX_REGS}
    {m : Machine σ MAX_REGS}
    (h : ((machineSystem σ checks library).guard (Entering checks)).Reachable m) : m.Nested := by
  refine System.Reachable.invariant ?_ ?_ h
  · intro m h0
    obtain ⟨b, hb, rfl⟩ := Option.map_eq_some_iff.1 h0
    have hnil : b.currentScopes = [] := congrArg (·.currentScopes) (new_cases hb).2
    refine ⟨.start hb, ?_, ?_⟩
    · rw [hnil]
      exact List.nodup_nil
    · intro x hx
      rw [hnil] at hx
      cases hx
  · rintro m op m' - hn ⟨henter, out, hexec⟩
    have howned := hn.owned.exec hexec
    rcases Machine.exec_scopes hn.owned.sound hexec with hsame | ⟨v, block, rfl, hop⟩
    · refine ⟨howned, ?_, ?_⟩
      · rw [hsame]
        exact hn.nodup
      · rw [hsame]
        exact hn.entry
    · have hleft := (scopesLeft_iff_entersAnew hn (by rw [hop]; exact Option.some_ne_none _) hexec).2
        (henter v m' hexec)
      refine ⟨howned, hleft.nodup, ?_⟩
      intro x hx
      rw [hleft.entry] at hx
      exact (Option.some.inj hx).symm

/-- **Only scopes that are left lose their variables.** In every run whose successful switches enter
their blocks anew no block is on the scope stack twice; and the next successful switch keeps that, frees
the variables of the scopes that are left and no others, exactly when it enters its block anew. -/
theorem scopes_left (checks : Bool) (library : StencilLibrary MAX_REGS) :
    ∀ m : Machine σ MAX_REGS,
      ((machineSystem σ checks library).guard (Entering checks)).Reachable m →
        m.Nested ∧ ∀ op v m', op.switch? ≠ none → m.exec checks op = some (.ok v, m') →
          (m.ScopesLeft m' ↔ m.EntersAnew op) := by
  intro m hm
  have hnested := nested_of_entering hm
  exact ⟨hnested, fun op v m' hop hexec => scopesLeft_iff_entersAnew hnested hop hexec⟩

/-- The machine after a list of calls whose switches enter their blocks anew. -/
def enteringRunOf (library : StencilLibrary MAX_REGS) (ops : List (Op MAX_REGS)) :
    Option (Machine VecSlab MAX_REGS) :=
  machineRunOf Machine.EntersAnew library ops

/-- A variable in the entry and one in its child 1, which has the sibling 2. -/
def openOps : List (Op 1) :=
  [.createBlock, .createBlock, .switchToEntry, .newVariable,
    .branch jumpFamily nil nil nil (.singleton (.child 2)),
    .endBranch jumpFamily nil nil nil (.singleton (.child 1)) 1, .newVariable]

theorem scopes_left_sibling : ∃ m m' : Machine VecSlab 1, enteringRunOf sampleLibrary openOps = some m ∧
    m.exec true (.switchToBlock 2) = some (.ok none, m') ∧ m'.builder.currentScopes = [0, 2] ∧
      m.ScopesLeft m' := by
  have hrun : (enteringRunOf sampleLibrary openOps).map (fun m =>
      ((m.exec true (.switchToBlock 2)).map fun r => (r.1, r.2.builder.currentScopes),
        decide (m.EntersAnew (.switchToBlock 2)))) =
        some (some (.ok none, [0, 2]), true) := by
    decide +kernel
  obtain ⟨m, hm, hstate⟩ := Option.map_eq_some_iff.1 hrun
  simp only [Prod.mk.injEq, decide_eq_true_eq] at hstate
  obtain ⟨hexec, henter⟩ := hstate
  obtain ⟨⟨out, m'⟩, hexec, hafter⟩ := Option.map_eq_some_iff.1 hexec
  obtain ⟨rfl, hscopes⟩ := Prod.mk.inj hafter
  have hleft := ((scopes_left true sampleLibrary m
    (reachable_of_machineRunOf (fun _ _ _ h _ _ _ => h) hm)).2
    (.switchToBlock 2) none m' (by simp [Op.switch?]) hexec).2 henter
  exact ⟨m, m', hm, hexec, hscopes, hleft⟩

/-- A switch to the block that is open already frees its variable. -/
theorem not_scopes_left : ¬ ∀ (m m' : Machine VecSlab 1) (op : Op 1) (v : Option Value),
    (machineSystem VecSlab true sampleLibrary).Reachable m → op.switch? ≠ none →
      m.exec true op = some (.ok v, m') → m.ScopesLeft m' := by
  intro hall
  have hrun : (enteringRunOf sampleLibrary openOps).map (fun m =>
      (decide (1 ∈ m.builder.currentScopes ∧ ⟨1, 1⟩ ∈ m.builder.varsOf 1),
        (m.exec true (.switchToBlock 1)).map fun r =>
          (r.1, decide (1 ∈ r.2.builder.currentScopes ∧ ⟨1, 1⟩ ∉ r.2.builder.varsOf 1)))) =
        some (true, some (.ok none, true)) := by
    decide +kernel
  obtain ⟨m, hm, hstate⟩ := Option.map_eq_some_iff.1 hrun
  simp only [Prod.mk.injEq, decide_eq_true_eq] at hstate
  obtain ⟨⟨hbefore, hvar⟩, hexec⟩ := hstate
  obtain ⟨⟨out, m'⟩, hexec, hafter⟩ := Option.map_eq_some_iff.1 hexec
  simp only [Prod.mk.injEq, decide_eq_true_eq] at hafter
  obtain ⟨rfl, hopen, hgone⟩ := hafter
  have hleft := hall m m' (.switchToBlock 1) none (reachable_of_machineRunOf (fun _ _ _ h => h) hm).of_guard
    (by simp [Op.switch?]) hexec
  exact hgone (hleft.stays 1 hbefore hopen ⟨1, 1⟩ hvar).1

end Patchouly.Managed
