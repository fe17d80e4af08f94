import Patchouly.Managed.Identity
import Patchouly.Managed.Ownership
import Patchouly.Managed.Scopes
import Patchouly.Managed.Verdict

/-!
# Calls of the interface return

The builder indexes its blocks by the ids on the scope stack and in the handles, looks up the slots of
operands, and drops the variables of the scopes it pops. `InRange`, `Owned` and `Stacked` are the
invariants behind these; `exec_total` says that a call returns if its operands are variables that still
belong to their blocks, its jumps lead to blocks that are there, and its emission is sound.
-/

set_option autoImplicit false

namespace Patchouly.Managed

open Patchouly.Lib Patchouly.Core Patchouly.Patch PatchFunctionBuilder

variable {σ : Type → Type} {MAX_REGS : Nat}

/-! ## Ids in range -/

namespace Machine

/-- The scope stack and the live handles name blocks of the builder. -/
structure InRange (m : Machine σ MAX_REGS) : Prop where
  scopes : ∀ x ∈ m.builder.currentScopes, x.toNat < m.builder.blocks.length
  handles : ∀ x ∈ m.handles, x.toNat < m.builder.blocks.length

section Range

variable [Slab σ] [LawfulSlab σ] {checks : Bool} {m m' : Machine σ MAX_REGS} {op : Op MAX_REGS}
  {out : Outcome}

omit [Slab σ] [LawfulSlab σ] in
theorem length_of_sameCode {b b' : PatchFunctionBuilder σ MAX_REGS} (h : SameCode b b') :
    b'.blocks.length = b.blocks.length := by
  have hlen := congrArg List.length h.codes
  rwa [List.length_map, List.length_map] at hlen

/-- The block of a switch that succeeds is there. -/
theorem switchToBlock_range {b b' : PatchFunctionBuilder σ MAX_REGS} {block : BlockId}
    (hs : b.allocator.Sound) (h : b.switchToBlock block = some (.ok (), b')) :
    block.toNat < b'.blocks.length := by
  rcases switchToBlock_cases hs h with ⟨e, he, -⟩ | ⟨-, hlt, kept, popped, q, -, hpops, rfl⟩
  · cases he
  · have hlen := length_of_sameCode hpops.code
    rw [← hlen] at hlt
    exact hlt

/-- The live handles after a call: those before it, and the block of a switch that succeeds. -/
theorem exec_handles (hs : m.builder.allocator.Sound) (h : m.exec checks op = some (out, m')) :
    ∀ x ∈ m'.handles, x ∈ m.handles ∨ (x.toNat < m'.builder.blocks.length ∧
      ∃ v, out = .ok v ∧ op.switch? = some x) := by
  have hopened : ∀ {block : BlockId} {res : Except PatchError Unit}
      {b : PatchFunctionBuilder σ MAX_REGS}, m.opened block (res, b) = (out, m') →
        m.builder.switchToBlock block = some (res, b) → op.switch? = some block →
          ∀ x ∈ m'.handles, x ∈ m.handles ∨ (x.toNat < m'.builder.blocks.length ∧
            ∃ v, out = .ok v ∧ op.switch? = some x) := by
    intro block res b hout hb hop x hx
    cases res with
    | error e =>
        obtain ⟨rfl, rfl⟩ := Prod.mk.inj hout
        exact Or.inl hx
    | ok u =>
        obtain ⟨rfl, rfl⟩ := Prod.mk.inj hout
        rcases List.mem_cons.1 hx with rfl | hx
        · exact Or.inr ⟨switchToBlock_range hs hb, none, rfl, hop⟩
        · exact Or.inl hx
  have hstayed : ∀ {α : Type} {handles : List BlockId} {value : α → Option Value}
      {p : Except PatchError α × PatchFunctionBuilder σ MAX_REGS}, stayed handles value p = (out, m') →
        handles ⊆ m.handles → ∀ x ∈ m'.handles, x ∈ m.handles := by
    intro α handles value p hout hsub x hx
    obtain ⟨-, rfl⟩ := Prod.mk.inj hout
    exact hsub hx
  intro x hx
  cases op with
  | createBlock =>
      obtain ⟨p, -, hout⟩ := Option.map_eq_some_iff.1 h
      obtain ⟨-, rfl⟩ := Prod.mk.inj hout
      exact Or.inl hx
  | switchToEntry =>
      obtain ⟨⟨res, b⟩, hb, hout⟩ := Option.map_eq_some_iff.1 h
      exact hopened hout hb rfl x hx
  | switchToBlock block =>
      obtain ⟨⟨res, b⟩, hb, hout⟩ := Option.map_eq_some_iff.1 h
      exact hopened hout hb rfl x hx
  | newParam =>
      obtain ⟨id, -, h⟩ := Option.bind_eq_some_iff.1 h
      obtain ⟨p, -, hout⟩ := Option.map_eq_some_iff.1 h
      exact Or.inl (hstayed hout (List.Subset.refl _) x hx)
  | newVariable =>
      obtain ⟨id, -, h⟩ := Option.bind_eq_some_iff.1 h
      obtain ⟨p, -, hout⟩ := Option.map_eq_some_iff.1 h
      exact Or.inl (hstayed hout (List.Subset.refl _) x hx)
  | emit stencil inputs outputs holes =>
      obtain ⟨id, -, h⟩ := Option.bind_eq_some_iff.1 h
      obtain ⟨p, -, hout⟩ := Option.map_eq_some_iff.1 h
      exact Or.inl (hstayed hout (List.Subset.refl _) x hx)
  | branch stencil inputs outputs holes jumps =>
      obtain ⟨id, -, h⟩ := Option.bind_eq_some_iff.1 h
      obtain ⟨p, -, hout⟩ := Option.map_eq_some_iff.1 h
      exact Or.inl (hstayed hout (List.Subset.refl _) x hx)
  | endBranch stencil inputs outputs holes jumps next =>
      obtain ⟨id, -, h⟩ := Option.bind_eq_some_iff.1 h
      obtain ⟨⟨res, b⟩, hb, hout⟩ := Option.map_eq_some_iff.1 h
      cases res with
      | error e =>
          obtain ⟨rfl, rfl⟩ := Prod.mk.inj hout
          exact Or.inl hx
      | ok u =>
          obtain ⟨rfl, rfl⟩ := Prod.mk.inj hout
          rcases List.mem_cons.1 hx with rfl | hx
          · rcases endBranch_cases hb with ⟨e, he, -⟩ | ⟨mid, hcode, hswitch⟩
            · cases he
            · exact Or.inr ⟨switchToBlock_range ((branchWith_effect hcode).1.sound hs) hswitch, none,
                rfl, rfl⟩
          · exact Or.inl (List.mem_of_mem_tail hx)
  | ret stencil inputs holes =>
      obtain ⟨id, -, h⟩ := Option.bind_eq_some_iff.1 h
      obtain ⟨p, -, hout⟩ := Option.map_eq_some_iff.1 h
      exact Or.inl (hstayed hout (List.tail_subset _) x hx)
  | drop =>
      obtain ⟨id, -, hout⟩ := Option.map_eq_some_iff.1 h
      obtain ⟨-, rfl⟩ := Prod.mk.inj hout
      exact Or.inl (List.mem_of_mem_tail hx)

omit [LawfulSlab σ] in
/-- A switch that succeeds makes the block's handle the usable one. -/
theorem head_of_switch {block : BlockId} {v : Option Value} (hop : op.switch? = some block)
    (h : m.exec checks op = some (.ok v, m')) : m'.handles.head? = some block := by
  cases op with
  | switchToEntry =>
      obtain ⟨⟨res, b⟩, -, hout⟩ := Option.map_eq_some_iff.1 h
      cases res with
      | error e => cases (Prod.mk.inj hout).1
      | ok u =>
          obtain ⟨-, rfl⟩ := Prod.mk.inj hout
          exact hop
  | switchToBlock target =>
      obtain ⟨⟨res, b⟩, -, hout⟩ := Option.map_eq_some_iff.1 h
      cases res with
      | error e => cases (Prod.mk.inj hout).1
      | ok u =>
          obtain ⟨-, rfl⟩ := Prod.mk.inj hout
          exact hop
  | endBranch stencil inputs outputs holes jumps next =>
      obtain ⟨id, -, h⟩ := Option.bind_eq_some_iff.1 h
      obtain ⟨⟨res, b⟩, -, hout⟩ := Option.map_eq_some_iff.1 h
      cases res with
      | error e => cases (Prod.mk.inj hout).1
      | ok u =>
          obtain ⟨-, rfl⟩ := Prod.mk.inj hout
          exact hop
  | _ => cases hop

/-- **Every call keeps the ids in range.** -/
theorem InRange.exec (h : InRange m) (howned : Owned m.builder)
    (hexec : m.exec checks op = some (out, m')) : InRange m' := by
  have hgrows : m.builder.blocks.length ≤ m'.builder.blocks.length := by
    rcases length_of_exec howned.sound hexec with heq | ⟨id, hcreate⟩
    · exact Nat.le_of_eq heq.symm
    · rw [(createBlock_effect hcreate).2.2.2, List.length_append]
      exact Nat.le_add_right _ _
  have hhandles : ∀ x ∈ m'.handles, x.toNat < m'.builder.blocks.length := by
    intro x hx
    rcases exec_handles howned.sound hexec x hx with hx | ⟨hlt, -⟩
    · exact Nat.lt_of_lt_of_le (h.handles x hx) hgrows
    · exact hlt
  refine ⟨?_, hhandles⟩
  intro x hx
  rcases exec_scopes howned.sound hexec with hsame | ⟨v, block, rfl, hop⟩
  · rw [hsame] at hx
    exact Nat.lt_of_lt_of_le (h.scopes x hx) hgrows
  · -- a part of the old stack, and the block that the new handle names
    obtain ⟨kept, popped, -, hswitched⟩ := exec_switch howned hop hexec
    rw [hswitched.after] at hx
    rcases List.mem_append.1 hx with hx | hx
    · have hold : x ∈ m.builder.currentScopes := by
        rw [← hswitched.before]
        exact List.mem_append_left _ hx
      exact Nat.lt_of_lt_of_le (h.scopes x hold) hgrows
    · rw [List.mem_singleton.1 hx]
      exact hhandles block (List.mem_of_mem_head? (head_of_switch hop hexec))

/-- The invariants of all runs. -/
structure Standing (m : Machine σ MAX_REGS) : Prop where
  owned : Owned m.builder
  stacked : m.builder.allocator.Stacked
  range : InRange m

theorem standing_of_reachable {library : StencilLibrary MAX_REGS}
    (h : (machineSystem σ checks library).Reachable m) : Standing m := by
  refine ⟨?_, (stacked_of_reachable h).2, ?_⟩
  · refine System.Reachable.invariant (I := fun m => Owned m.builder) ?_ ?_ h
    · intro m h0
      obtain ⟨b, hb, rfl⟩ := Option.map_eq_some_iff.1 h0
      exact .start hb
    · rintro m op m' - hi ⟨out, hexec⟩
      exact hi.exec hexec
  · refine (System.Reachable.invariant (I := fun m => Owned m.builder ∧ InRange m) ?_ ?_ h).2
    · intro m h0
      obtain ⟨b, hb, rfl⟩ := Option.map_eq_some_iff.1 h0
      refine ⟨.start hb, ?_, ?_⟩
      · rw [(new_cases hb).2]
        exact fun x hx => absurd hx List.not_mem_nil
      · exact fun x hx => absurd hx List.not_mem_nil
    · rintro m op m' - ⟨howned, hrange⟩ ⟨out, hexec⟩
      exact ⟨howned.exec hexec, hrange.exec howned hexec⟩

end Range

end Machine

/-! ## The functions of the builder return -/

namespace PatchFunctionBuilder

section Total

variable [Slab σ] [LawfulSlab σ] {b : PatchFunctionBuilder σ MAX_REGS}

omit [Slab σ] [LawfulSlab σ] in
theorem createBlock_total (checks : Bool) (h : b.blocks.length < 65535) :
    ∃ out, b.createBlock checks = some out := by
  have hlen : (b.blocks ++ [(⟨.new b.library, none, []⟩ : BlockScope MAX_REGS)]).length =
      b.blocks.length + 1 := List.length_append
  have hcount : (BitVec.ofNat 16 (b.blocks.length + 1)).toNat = b.blocks.length + 1 :=
    toNat_ofNat_of_lt (by omega)
  have hone : (1 : U16).toNat = 1 := by decide
  rw [createBlock]
  simp only [hlen]
  rw [plainSub_of_le checks (by rw [hcount, hone]; omega), Option.map_some]
  exact ⟨_, rfl⟩

/-- Values in different slots that have locations can be dropped. -/
theorem dropAll_total {a : Allocator σ} {vs : List Value} (hs : a.Sound) (hstacked : a.Stacked)
    (hnodup : (vs.map (·.slot)).Nodup) (hlocated : ∀ v ∈ vs, ∃ l, a.location v = some l) :
    ∃ a', dropAll vs a = some a' ∧ a'.Stacked := by
  induction vs generalizing a with
  | nil => exact ⟨a, rfl, hstacked⟩
  | cons v rest ih =>
      obtain ⟨l, hl⟩ := hlocated v List.mem_cons_self
      obtain ⟨mid, hmid, hdropped⟩ := Allocator.drop_spec hs hstacked hl
      rw [List.map_cons, List.nodup_cons] at hnodup
      rw [dropAll, hmid, Option.bind_some]
      apply ih hdropped.sound hdropped.stacked hnodup.2
      intro w hw
      -- the other values are in other slots
      rw [Allocator.location, hdropped.slots, if_neg]
      · exact hlocated w (List.mem_cons_of_mem v hw)
      · intro he
        exact hnodup.1 (List.mem_map.2 ⟨w, hw, BitVec.eq_of_toNat_eq he⟩)

theorem popScopes_total {popped : List BlockId} (howned : Owned b) (hstacked : b.allocator.Stacked)
    (hrange : ∀ x ∈ popped, x.toNat < b.blocks.length) : ∃ b', popScopes popped b = some b' := by
  induction popped generalizing b with
  | nil => exact ⟨b, rfl⟩
  | cons i rest ih =>
      obtain ⟨scope, hscope⟩ : ∃ scope, b.blocks[i.toNat]? = some scope :=
        ⟨_, List.getElem?_eq_getElem (hrange i List.mem_cons_self)⟩
      have hvars := varsOf_eq hscope
      obtain ⟨a, ha, hastacked⟩ := dropAll_total howned.sound hstacked (hvars ▸ howned.distinct i)
        (fun v hv => (howned.owned i v (hvars ▸ hv)).2)
      rw [popScopes, hscope, Option.bind_eq_bind, Option.bind_some, ha, Option.bind_eq_bind,
        Option.bind_some]
      apply ih
      · -- the variables of the popped block are gone
        exact howned.pops (.cons howned.sound hscope ha (.nil (dropAll_effect howned.sound ha).1))
      · exact hastacked
      · intro x hx
        rw [List.length_set]
        exact hrange x (List.mem_cons_of_mem i hx)

theorem switchToBlock_total (howned : Owned b) (hstacked : b.allocator.Stacked)
    (hrange : ∀ x ∈ b.currentScopes, x.toNat < b.blocks.length) (block : BlockId) :
    ∃ out, b.switchToBlock block = some out := by
  rw [switchToBlock]
  split
  · exact ⟨_, rfl⟩
  · split
    · exact ⟨_, rfl⟩
    · split
      · exact ⟨_, rfl⟩
      · next parent hparent =>
        split
        · exact ⟨_, rfl⟩
        · next index hindex =>
          obtain ⟨q, hq⟩ := @popScopes_total _ _ _ _ b
            (b.currentScopes.drop (index + 1)).reverse howned hstacked
            (fun x hx => hrange x (List.mem_of_mem_drop (List.mem_reverse.1 hx)))
          rw [hq, Option.map_some]
          exact ⟨_, rfl⟩

theorem newVariable_total (checks : Bool) (hs : b.allocator.Sound) (hstacked : b.allocator.Stacked)
    {id : BlockId} (hid : id.toNat < b.blocks.length) : ∃ out, b.newVariable checks id = some out := by
  rw [newVariable]
  rcases Allocator.allocate_spec checks hs hstacked id with ⟨-, heq⟩ | ⟨-, v, l, a, heq, -⟩
  · rw [heq]
    exact ⟨_, rfl⟩
  · rw [heq]
    simp only [Option.bind_eq_bind, Option.bind_some, List.getElem?_eq_getElem hid, Option.pure_def]
    exact ⟨_, rfl⟩

theorem newParam_total (checks : Bool) (hs : b.allocator.Sound) (hstacked : b.allocator.Stacked)
    {id : BlockId} (hid : id.toNat < b.blocks.length) : ∃ out, b.newParam checks id = some out := by
  rw [newParam, List.getElem?_eq_getElem hid, Option.bind_some]
  split
  · exact ⟨_, rfl⟩
  · exact newVariable_total checks hs hstacked hid

/-- The locations of variables that still belong to their blocks can be looked up. -/
theorem locations_total {LEN : Nat} {values : Vector Value LEN} (howned : Owned b)
    (hlive : ∀ v ∈ values.toList, v.scope ∈ b.currentScopes → v ∈ b.varsOf v.scope) :
    ∃ out, locations b.allocator b.currentScopes values = some out := by
  rw [locations]
  split
  · next hvisible =>
    -- on the list of the values, where each has its location
    have hlist : values.toList.mapM b.allocator.location =
        some (values.toList.map fun v => (b.allocator.location v).getD (.stack 0)) := by
      apply mapM_eq_map
      intro v hv
      have hopen := of_decide_eq_true (List.all_eq_true.1 hvisible v hv)
      obtain ⟨-, l, hl⟩ := howned.owned _ v (hlive v hv hopen)
      rw [hl, Option.getD_some]
    have hvector := (toList_mapM values).trans hlist
    obtain ⟨ls, hls, -⟩ := Option.map_eq_some_iff.1 hvector
    rw [hls]
    exact ⟨_, rfl⟩
  · exact ⟨_, rfl⟩

omit [Slab σ] [LawfulSlab σ] in
theorem setParent_total {block : BlockId} (parent : BlockId) (h : block.toNat < b.blocks.length) :
    ∃ b', b.setParent block parent = some b' := by
  rw [setParent, List.getElem?_eq_getElem h, Option.map_some]
  exact ⟨_, rfl⟩

omit [Slab σ] [LawfulSlab σ] in
theorem prepJump_total {id : BlockId} {jump : JumpScope} (hid : id.toNat < b.blocks.length)
    (htarget : ∀ t ∈ jump.block?, t.toNat < b.blocks.length) :
    ∃ out, prepJump id b jump = some out := by
  cases jump with
  | next => exact ⟨_, rfl⟩
  | child block =>
      obtain ⟨c, hc⟩ := setParent_total id (htarget block rfl)
      exact ⟨_, by rw [prepJump, hc]; rfl⟩
  | same block =>
      obtain ⟨scope, hscope⟩ : ∃ scope, b.blocks[id.toNat]? = some scope :=
        ⟨_, List.getElem?_eq_getElem hid⟩
      obtain ⟨c, hc⟩ := setParent_total (scope.parent.getD 0) (htarget block rfl)
      exact ⟨_, by rw [prepJump, hscope, Option.bind_some, hc]; rfl⟩
  | parent dest parent =>
      obtain ⟨c, hc⟩ := setParent_total parent (htarget dest rfl)
      exact ⟨_, by rw [prepJump, hc]; rfl⟩

omit [Slab σ] [LawfulSlab σ] in
theorem prepJumps_total {id : BlockId} {jumps : List JumpScope} (hid : id.toNat < b.blocks.length)
    (htargets : ∀ jump ∈ jumps, ∀ t ∈ jump.block?, t.toNat < b.blocks.length) :
    ∃ out, prepJumps id jumps b = some out := by
  induction jumps generalizing b with
  | nil => exact ⟨_, rfl⟩
  | cons jump rest ih =>
      obtain ⟨⟨bad, mid⟩, hmid⟩ := prepJump_total hid (htargets jump List.mem_cons_self)
      have hlen := (prepJump_only hmid).length
      obtain ⟨⟨badRest, b'⟩, hrest⟩ := @ih mid (by rw [hlen]; exact hid) (by
        rw [hlen]
        exact fun j hj => htargets j (List.mem_cons_of_mem jump hj))
      refine ⟨(bad || badRest, b'), ?_⟩
      simp only [prepJumps, hmid, hrest, Option.bind_eq_bind, Option.bind_some, Option.pure_def]

end Total

end PatchFunctionBuilder

/-! ## Calls -/

/-- Whether the call is made through a block handle. -/
def Op.borrows : Op MAX_REGS → Bool
  | .createBlock | .switchToEntry | .switchToBlock _ => false
  | _ => true

def Op.creates : Op MAX_REGS → Bool
  | .createBlock => true
  | _ => false

section Calls

variable [Slab σ] {m : Machine σ MAX_REGS} {op : Op MAX_REGS}

/-- **What a client sees to before a call**: the handle it uses is alive, the operands in open scopes are
variables that have not been dropped, the jumps lead to blocks that are there, and the next id fits
16 bits. -/
structure Usable (m : Machine σ MAX_REGS) (op : Op MAX_REGS) : Prop where
  handle : op.borrows = true → m.handles ≠ []
  operands : ∀ v ∈ op.operands, v.scope ∈ m.builder.currentScopes → v ∈ m.builder.varsOf v.scope
  jumps : ∀ jump ∈ op.jumps, ∀ t ∈ jump.block?, t.toNat < m.builder.blocks.length
  room : op.creates = true → m.builder.blocks.length < 65535

-- The jumps are checked as a list: the instance for a bounded `∀` over ids would try all of them.
instance : Decidable (Usable m op) :=
  decidable_of_iff ((op.borrows = true → m.handles ≠ []) ∧
      (∀ v ∈ op.operands, v.scope ∈ m.builder.currentScopes → v ∈ m.builder.varsOf v.scope) ∧
      (op.jumps.all fun jump => jump.block?.all fun t => t.toNat < m.builder.blocks.length) = true ∧
      (op.creates = true → m.builder.blocks.length < 65535))
    ⟨fun ⟨handle, operands, jumps, room⟩ => ⟨handle, operands, by
        simpa only [List.all_eq_true, Option.all_eq_true, decide_eq_true_eq, Option.mem_def] using jumps,
        room⟩,
      fun h => ⟨h.handle, h.operands, by
        simpa only [List.all_eq_true, Option.all_eq_true, decide_eq_true_eq, Option.mem_def] using h.jumps,
        h.room⟩⟩

variable [LawfulSlab σ] {checks : Bool} {library : StencilLibrary MAX_REGS}

omit [LawfulSlab σ] in
/-- A sound block call returns, also behind the preparation of its jumps. -/
theorem onBlock_total (hblocks : ∀ block ∈ m.codes,
      ((blockSystem checks library).guard fun _ => SoundCall library).Reachable block)
    (hmeets : Meets (fun _ => SoundCall library) m op) {id : BlockId} {c : Call MAX_REGS}
    (hcall : m.blockCall op = some (id, c)) (hid : id.toNat < m.builder.blocks.length)
    {b : PatchFunctionBuilder σ MAX_REGS} (hcodes : b.blocks.map (·.block) = m.codes) :
    ∃ out, b.onBlock id (fun s => s.call checks c) = some out := by
  have hlt : id.toNat < b.blocks.length := by
    have hlen := congrArg List.length hcodes
    rw [Machine.codes, List.length_map, List.length_map] at hlen
    rwa [hlen]
  have hscope := List.getElem?_eq_getElem hlt
  have hblock : m.codes[id.toNat]? = some b.blocks[id.toNat].block := by
    rw [← hcodes, List.getElem?_map, hscope, Option.map_some]
  obtain ⟨stencils, hsound⟩ := soundState_of_block (hblocks _ (List.mem_of_getElem? hblock))
  obtain ⟨block', hrun⟩ := hsound.call_outcome checks (hmeets (id, c) hcall _ hblock)
  rw [onBlock, hscope, Option.bind_eq_bind, Option.bind_some, hrun]
  exact ⟨_, rfl⟩

theorem branchWith_length {IN OUT JUMPS : Nat} {b b' : PatchFunctionBuilder σ MAX_REGS} {id : BlockId}
    {inputs : Vector Value IN} {outputs : Vector Value OUT} {jumps : Vector JumpScope JUMPS}
    {f : Vector Location IN → Vector Location OUT → Vector JumpTarget JUMPS →
      PatchBlock MAX_REGS → Option (Except PatchError Unit × PatchBlock MAX_REGS)}
    {res : Except PatchError Unit} (h : b.branchWith id inputs outputs jumps f = some (res, b')) :
    b'.blocks.length = b.blocks.length := by
  rcases Machine.branchWith_cases h with
    ⟨e, -, ⟨rfl, -⟩ | ⟨-, hbad⟩⟩ | ⟨ins, outs, mid, -, -, hprep, hon⟩
  · rfl
  · exact (prepJumps_only hbad).length
  · obtain ⟨-, -, -, scope, block, -, -, hblocks⟩ := onBlock_effect hon
    rw [hblocks, List.length_set, (prepJumps_only hprep).length]

theorem branchWith_total {IN OUT JUMPS : Nat} {id : BlockId} {inputs : Vector Value IN}
    {outputs : Vector Value OUT} {jumps : Vector JumpScope JUMPS}
    {c : Vector Location IN → Vector Location OUT → Vector JumpTarget JUMPS → Call MAX_REGS}
    (hblocks : ∀ block ∈ m.codes,
      ((blockSystem checks library).guard fun _ => SoundCall library).Reachable block)
    (hmeets : Meets (fun _ => SoundCall library) m op) (hstanding : Machine.Standing m)
    (hp : Usable m op) (hops : op.operands = inputs.toList ++ outputs.toList)
    (hjumps : op.jumps = jumps.toList) (hid : m.handles.head? = some id)
    (hcall : ∀ ins outs, m.builder.lookup inputs = some ins → m.builder.lookup outputs = some outs →
      m.builder.jumpsPass id jumps.toList = true →
        m.blockCall op = some (id, c ins outs (jumps.map JumpScope.target))) :
    ∃ out, m.builder.branchWith id inputs outputs jumps
      (fun ins outs targets s => s.call checks (c ins outs targets)) = some out := by
  have hrange := hstanding.range.handles id (List.mem_of_mem_head? hid)
  obtain ⟨ins, hins⟩ := @locations_total _ _ _ _ m.builder _ inputs hstanding.owned
    fun v hv => hp.operands v (by rw [hops]; exact List.mem_append_left _ hv)
  obtain ⟨outs, houts⟩ := @locations_total _ _ _ _ m.builder _ outputs hstanding.owned
    fun v hv => hp.operands v (by rw [hops]; exact List.mem_append_right _ hv)
  simp only [branchWith, branchPrep, hins, Option.bind_eq_bind, Option.bind_some]
  cases ins with
  | error e => exact ⟨_, rfl⟩
  | ok ins =>
      simp only [houts, Option.bind_some]
      cases outs with
      | error e => exact ⟨_, rfl⟩
      | ok outs =>
          obtain ⟨⟨bad, mid⟩, hprep⟩ := prepJumps_total hrange (hjumps ▸ hp.jumps)
          simp only [hprep, Option.bind_some]
          cases bad with
          | true => exact ⟨_, rfl⟩
          | false =>
              have hpass : m.builder.jumpsPass id jumps.toList = true := by rw [jumpsPass, hprep]
              exact onBlock_total hblocks hmeets (hcall ins outs (lookup_of_locations hins)
                (lookup_of_locations houts) hpass) hrange (prepJumps_effect hprep).codes

/-! ### One call -/

/-- The block that a usable call goes to is there. -/
theorem handle_of_usable (hstanding : Machine.Standing m) (hp : Usable m op) (hborrows : op.borrows = true) :
    ∃ id, m.handles.head? = some id ∧ id.toNat < m.builder.blocks.length := by
  cases hhandles : m.handles with
  | nil => exact absurd hhandles (hp.handle hborrows)
  | cons id rest =>
      refine ⟨id, rfl, hstanding.range.handles id ?_⟩
      rw [hhandles]
      exact List.mem_cons_self

/-- The operands of a usable call have locations. -/
theorem operands_total (hstanding : Machine.Standing m) (hp : Usable m op) {LEN : Nat}
    {values : Vector Value LEN} (hsub : values.toList ⊆ op.operands) :
    ∃ out, locations m.builder.allocator m.builder.currentScopes values = some out := by
  apply locations_total hstanding.owned
  intro v hv
  exact hp.operands v (hsub hv)

section Blocks

variable {IN OUT HOLES JUMPS : Nat} {stencil : StencilFamily IN OUT MAX_REGS HOLES JUMPS}
  {inputs : Vector Value IN} {outputs : Vector Value OUT} {holes : Vector Usize HOLES}
  {jumps : Vector JumpScope JUMPS} {id : BlockId}

theorem emit_total {stencil : StencilFamily IN OUT MAX_REGS HOLES 1} (hblocks : ∀ block ∈ m.codes,
      ((blockSystem checks library).guard fun _ => SoundCall library).Reachable block)
    (hmeets : Meets (fun _ => SoundCall library) m (.emit stencil inputs outputs holes))
    (hstanding : Machine.Standing m) (hp : Usable m (.emit stencil inputs outputs holes))
    (hid : m.handles.head? = some id) :
    ∃ out, m.builder.emit checks id stencil inputs outputs holes = some out := by
  have hrange := hstanding.range.handles id (List.mem_of_mem_head? hid)
  obtain ⟨ins, hins⟩ := operands_total hstanding hp (List.subset_append_left inputs.toList outputs.toList)
  obtain ⟨outs, houts⟩ := operands_total hstanding hp (List.subset_append_right inputs.toList outputs.toList)
  simp only [PatchFunctionBuilder.emit, hins, Option.bind_eq_bind, Option.bind_some]
  cases ins with
  | error e => exact ⟨_, rfl⟩
  | ok ins =>
      simp only [houts, Option.bind_some]
      cases outs with
      | error e => exact ⟨_, rfl⟩
      | ok outs =>
          exact onBlock_total hblocks hmeets (Machine.blockCall_emit hid (lookup_of_locations hins)
            (lookup_of_locations houts)) hrange rfl

theorem branch_total (hblocks : ∀ block ∈ m.codes,
      ((blockSystem checks library).guard fun _ => SoundCall library).Reachable block)
    (hmeets : Meets (fun _ => SoundCall library) m (.branch stencil inputs outputs holes jumps))
    (hstanding : Machine.Standing m) (hp : Usable m (.branch stencil inputs outputs holes jumps))
    (hid : m.handles.head? = some id) :
    ∃ out, m.builder.branch checks id stencil inputs outputs holes jumps = some out :=
  branchWith_total (c := fun ins outs targets => .branch stencil ins outs holes targets) hblocks hmeets
    hstanding hp rfl rfl hid (Machine.blockCall_branch hid)

/-- The branch that ends the block leaves the variables and the scope stack alone, so the switch behind it
returns as well. -/
theorem endBranch_total {next : BlockId} (hblocks : ∀ block ∈ m.codes,
      ((blockSystem checks library).guard fun _ => SoundCall library).Reachable block)
    (hmeets : Meets (fun _ => SoundCall library) m (.endBranch stencil inputs outputs holes jumps next))
    (hstanding : Machine.Standing m) (hp : Usable m (.endBranch stencil inputs outputs holes jumps next))
    (hid : m.handles.head? = some id) :
    ∃ out, m.builder.endBranch checks id stencil inputs outputs holes jumps next = some out := by
  obtain ⟨⟨res, mid⟩, hmid⟩ := branchWith_total
    (c := fun ins outs targets => .endBranch stencil ins outs holes targets) hblocks hmeets hstanding hp
    rfl rfl hid (Machine.blockCall_endBranch hid)
  have hcode : m.builder.endBranchCode checks id stencil inputs outputs holes jumps = some (res, mid) := hmid
  simp only [PatchFunctionBuilder.endBranch, hcode, Option.bind_eq_bind, Option.bind_some]
  cases res with
  | error e => exact ⟨_, rfl⟩
  | ok u =>
      have hq := (Machine.branchWith_effect hmid).1
      have hlen : mid.blocks.length = m.builder.blocks.length := branchWith_length hmid
      apply switchToBlock_total (hstanding.owned.quiet hq)
      · rw [branchWith_allocator hmid]
        exact hstanding.stacked
      · rw [hq.currentScopes, hlen]
        exact hstanding.range.scopes

theorem ret_total {stencil : StencilFamily IN 0 MAX_REGS HOLES 0} (hblocks : ∀ block ∈ m.codes,
      ((blockSystem checks library).guard fun _ => SoundCall library).Reachable block)
    (hmeets : Meets (fun _ => SoundCall library) m (.ret stencil inputs holes))
    (hstanding : Machine.Standing m) (hp : Usable m (.ret stencil inputs holes))
    (hid : m.handles.head? = some id) :
    ∃ out, m.builder.ret checks id stencil inputs holes = some out := by
  have hrange := hstanding.range.handles id (List.mem_of_mem_head? hid)
  obtain ⟨ins, hins⟩ := operands_total hstanding hp (List.Subset.refl inputs.toList)
  simp only [PatchFunctionBuilder.ret, hins, Option.bind_eq_bind, Option.bind_some]
  cases ins with
  | error e => exact ⟨_, rfl⟩
  | ok ins =>
      have hcall : m.blockCall (.ret stencil inputs holes) = some (id, .ret stencil ins holes) := by
        simp [Machine.blockCall, hid, lookup_of_locations hins]
      exact onBlock_total hblocks hmeets hcall hrange rfl

end Blocks

omit [Slab σ] [LawfulSlab σ] in
/-- What a call hands back does not keep it from returning. -/
theorem returns_map {α : Type} {o : Option α} {f : α → Machine.Outcome × Machine σ MAX_REGS}
    (h : ∃ a, o = some a) : ∃ out m', o.map f = some (out, m') := by
  obtain ⟨a, rfl⟩ := h
  exact ⟨(f a).1, (f a).2, rfl⟩

/-- **Calls return**: a usable call whose emission is sound does not panic, behind any calls whose emissions
are sound, failed ones included. -/
theorem exec_total
    (hm : ((machineSystem σ checks library).guard (Meets fun _ => SoundCall library)).Reachable m)
    (hmeets : Meets (fun _ => SoundCall library) m op) (hp : Usable m op) :
    ∃ out m', m.exec checks op = some (out, m') := by
  have hstanding := Machine.standing_of_reachable hm.of_guard
  have hblocks := (programOf_of_reachable hm).blocks
  have hswitch := fun block => switchToBlock_total hstanding.owned hstanding.stacked
    hstanding.range.scopes block
  -- a call through a handle is the call on the block that it refers to
  have hhandle := fun hborrows : op.borrows = true => handle_of_usable hstanding hp hborrows
  cases op with
  | createBlock => exact returns_map (createBlock_total checks (hp.room rfl))
  | switchToEntry => exact returns_map (hswitch 0)
  | switchToBlock block => exact returns_map (hswitch block)
  | newParam =>
      obtain ⟨id, hid, hrange⟩ := hhandle rfl
      rw [Machine.exec, hid, Option.bind_some]
      exact returns_map (newParam_total checks hstanding.owned.sound hstanding.stacked hrange)
  | newVariable =>
      obtain ⟨id, hid, hrange⟩ := hhandle rfl
      rw [Machine.exec, hid, Option.bind_some]
      exact returns_map (newVariable_total checks hstanding.owned.sound hstanding.stacked hrange)
  | emit stencil inputs outputs holes =>
      obtain ⟨id, hid, -⟩ := hhandle rfl
      rw [Machine.exec, hid, Option.bind_some]
      exact returns_map (emit_total hblocks hmeets hstanding hp hid)
  | branch stencil inputs outputs holes jumps =>
      obtain ⟨id, hid, -⟩ := hhandle rfl
      rw [Machine.exec, hid, Option.bind_some]
      exact returns_map (branch_total hblocks hmeets hstanding hp hid)
  | endBranch stencil inputs outputs holes jumps next =>
      obtain ⟨id, hid, -⟩ := hhandle rfl
      rw [Machine.exec, hid, Option.bind_some]
      exact returns_map (endBranch_total hblocks hmeets hstanding hp hid)
  | ret stencil inputs holes =>
      obtain ⟨id, hid, -⟩ := hhandle rfl
      rw [Machine.exec, hid, Option.bind_some]
      exact returns_map (ret_total hblocks hmeets hstanding hp hid)
  | drop =>
      obtain ⟨id, hid, -⟩ := hhandle rfl
      exact returns_map ⟨id, hid⟩

end Calls

end Patchouly.Managed
