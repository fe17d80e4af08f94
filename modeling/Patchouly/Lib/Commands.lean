import Patchouly.Lib.Machines

/-!
# Commands with loops

A program is a list of actions and loops. An `Interp` says what an action does to a store and when a
loop goes on; both may stop the whole run. The program runs as a machine whose state is the list of
commands that are left, with a loop unrolled in front of itself; `Runs` is the outcome of a run.

`Covers` compares two programs, maybe under two interpretations: the outcomes of the first are the
outcomes of the second, and with `A` the second may also stop early. It goes through sequences and loops,
so a rewrite system whose rules are covered is covered (`Rewrites.covers`).
-/

set_option autoImplicit false

namespace Patchouly.Lib

inductive Command (α : Type) where
  | act (a : α)
  | loop (body : List (Command α))

/-- `Except.error` stops the run. -/
structure Interp (α σ ρ : Type) where
  act : α → σ → Except ρ σ
  test : σ → Except ρ Bool

namespace Interp

variable {α σ ρ : Type}

/-- One step of a command: what is left of it, and the store. -/
def unroll (I : Interp α σ ρ) (s : σ) : Command α → Except ρ (List (Command α) × σ)
  | .act a => (I.act a s).map fun s' => ([], s')
  | .loop body => (I.test s).map fun go => (if go then body ++ [.loop body] else [], s)

def next (I : Interp α σ ρ) :
    List (Command α) × σ → (List (Command α) × σ) ⊕ Except ρ σ
  | ([], s) => .inr (.ok s)
  | (c :: rest, s) =>
      match I.unroll s c with
      | .ok (front, s') => .inl (front ++ rest, s')
      | .error r => .inr (.error r)

end Interp

section Runs

variable {α σ ρ : Type} {I : Interp α σ ρ}

/-- The outcome of a program: the store in which it ends, or what stopped it. -/
def Runs (I : Interp α σ ρ) (cs : List (Command α)) (s : σ) (out : Except ρ σ) : Prop :=
  Halts I.next (cs, s) out

theorem Runs.unique {cs : List (Command α)} {s : σ} {out out' : Except ρ σ} (h : Runs I cs s out)
    (h' : Runs I cs s out') : out = out' := Halts.unique h h'

theorem next_nil {s : σ} : I.next ([], s) = .inr (.ok s) := rfl

theorem runs_nil {s : σ} {out : Except ρ σ} : Runs I [] s out ↔ out = .ok s :=
  halts_of_result next_nil

theorem next_of_ok {c : Command α} {rest front : List (Command α)} {s s' : σ}
    (h : I.unroll s c = .ok (front, s')) : I.next (c :: rest, s) = .inl (front ++ rest, s') := by
  rw [Interp.next, h]

theorem next_of_error {c : Command α} {rest : List (Command α)} {s : σ} {r : ρ}
    (h : I.unroll s c = .error r) : I.next (c :: rest, s) = .inr (.error r) := by
  rw [Interp.next, h]

/-- **Sequences**: the first program stops, or the second starts where the first ends. -/
theorem haltsIn_append {n : Nat} {cs ds : List (Command α)} {s : σ} {out : Except ρ σ} :
    HaltsIn I.next n (cs ++ ds, s) out ↔
      (∃ r, out = .error r ∧ HaltsIn I.next n (cs, s) (.error r)) ∨
        ∃ m k s', n = m + k ∧ HaltsIn I.next m (cs, s) (.ok s') ∧
          HaltsIn I.next k (ds, s') out := by
  induction n using Nat.strongRecOn generalizing cs s with
  | _ n ih =>
    cases cs with
    | nil =>
        simp only [haltsIn_of_result next_nil, List.nil_append]
        constructor
        · intro h
          exact Or.inr ⟨0, n, s, by omega, ⟨rfl, rfl⟩, h⟩
        · rintro (⟨r, -, -, hr⟩ | ⟨m, k, s', rfl, ⟨rfl, hs⟩, hk⟩)
          · cases hr
          · obtain rfl := Except.ok.inj hs
            rw [Nat.zero_add]
            exact hk
    | cons c rest =>
        cases hu : I.unroll s c with
        | error r =>
            simp only [List.cons_append, haltsIn_of_result (next_of_error hu)]
            constructor
            · rintro ⟨hn, rfl⟩
              exact Or.inl ⟨r, rfl, hn, rfl⟩
            · rintro (⟨r', rfl, hn, hr⟩ | ⟨m, k, s', -, ⟨-, hs⟩, -⟩)
              · exact ⟨hn, hr⟩
              · cases hs
        | ok p =>
            obtain ⟨front, t⟩ := p
            simp only [List.cons_append, haltsIn_of_move (next_of_ok hu)]
            constructor
            · rintro ⟨n, rfl, h⟩
              rw [← List.append_assoc] at h
              rcases (ih n (by omega)).1 h with ⟨r, rfl, hr⟩ | ⟨m, k, s', rfl, hm, hk⟩
              · exact Or.inl ⟨r, rfl, n, rfl, hr⟩
              · exact Or.inr ⟨m + 1, k, s', by omega, ⟨m, rfl, hm⟩, hk⟩
            · rintro (⟨r, rfl, n, rfl, hr⟩ | ⟨m', k, s', rfl, ⟨m, rfl, hm⟩, hk⟩)
              · refine ⟨n, rfl, ?_⟩
                rw [← List.append_assoc]
                exact (ih n (by omega)).2 (Or.inl ⟨r, rfl, hr⟩)
              · refine ⟨m + k, by omega, ?_⟩
                rw [← List.append_assoc]
                exact (ih (m + k) (by omega)).2 (Or.inr ⟨m, k, s', rfl, hm, hk⟩)

theorem runs_append {cs ds : List (Command α)} {s : σ} {out : Except ρ σ} :
    Runs I (cs ++ ds) s out ↔
      (∃ r, out = .error r ∧ Runs I cs s (.error r)) ∨
        ∃ s', Runs I cs s (.ok s') ∧ Runs I ds s' out := by
  constructor
  · rintro ⟨n, hn⟩
    rcases haltsIn_append.1 hn with ⟨r, rfl, hr⟩ | ⟨m, k, s', -, hm, hk⟩
    · exact Or.inl ⟨r, rfl, n, hr⟩
    · exact Or.inr ⟨s', ⟨m, hm⟩, k, hk⟩
  · rintro (⟨r, rfl, n, hr⟩ | ⟨s', ⟨m, hm⟩, k, hk⟩)
    · exact ⟨n, haltsIn_append.2 (Or.inl ⟨r, rfl, hr⟩)⟩
    · exact ⟨m + k, haltsIn_append.2 (Or.inr ⟨m, k, s', rfl, hm, hk⟩)⟩

theorem runs_act {a : α} {s : σ} {out : Except ρ σ} : Runs I [.act a] s out ↔ out = I.act a s := by
  cases hact : I.act a s with
  | error r =>
      have hu : I.unroll s (.act a) = .error r := by rw [Interp.unroll, hact]; rfl
      exact halts_of_result (next_of_error hu)
  | ok s' =>
      have hu : I.unroll s (.act a) = .ok ([], s') := by rw [Interp.unroll, hact]; rfl
      exact (halts_of_move (next_of_ok hu)).trans runs_nil

theorem runs_act_cons {a : α} {cs : List (Command α)} {s : σ} {out : Except ρ σ} :
    Runs I (.act a :: cs) s out ↔
      (∃ r, I.act a s = .error r ∧ out = .error r) ∨ ∃ s', I.act a s = .ok s' ∧ Runs I cs s' out := by
  rw [← List.singleton_append, runs_append]
  simp only [runs_act]
  constructor
  · rintro (⟨r, rfl, hr⟩ | ⟨s', hs', hrest⟩)
    · exact Or.inl ⟨r, hr.symm, rfl⟩
    · exact Or.inr ⟨s', hs'.symm, hrest⟩
  · rintro (⟨r, hr, rfl⟩ | ⟨s', hs', hrest⟩)
    · exact Or.inl ⟨r, rfl, hr.symm⟩
    · exact Or.inr ⟨s', hs'.symm, hrest⟩

/-- **Loops**: the test stops the run, ends the loop or starts another round. -/
theorem haltsIn_loop {n : Nat} {body : List (Command α)} {s : σ} {out : Except ρ σ} :
    HaltsIn I.next n ([.loop body], s) out ↔
      (∃ r, I.test s = .error r ∧ n = 0 ∧ out = .error r) ∨
      (I.test s = .ok false ∧ n = 1 ∧ out = .ok s) ∨
      (I.test s = .ok true ∧ ∃ m, n = m + 1 ∧
        HaltsIn I.next m (body ++ [.loop body], s) out) := by
  cases htest : I.test s with
  | error r =>
      have hu : I.unroll s (.loop body) = .error r := by rw [Interp.unroll, htest]; rfl
      simp [haltsIn_of_result (next_of_error hu)]
  | ok go =>
      cases go with
      | false =>
          have hu : I.unroll s (.loop body) = .ok ([], s) := by rw [Interp.unroll, htest]; rfl
          simp only [haltsIn_of_move (next_of_ok hu), List.nil_append, haltsIn_of_result next_nil]
          constructor
          · rintro ⟨m, rfl, rfl, hout⟩
            exact Or.inr (Or.inl ⟨trivial, rfl, hout⟩)
          · rintro (⟨r, hr, -⟩ | ⟨-, rfl, hout⟩ | ⟨hgo, -⟩)
            · cases hr
            · exact ⟨0, rfl, rfl, hout⟩
            · cases hgo
      | true =>
          have hu : I.unroll s (.loop body) = .ok (body ++ [.loop body], s) := by
            rw [Interp.unroll, htest]; rfl
          simp [haltsIn_of_move (next_of_ok hu)]

theorem runs_loop {body : List (Command α)} {s : σ} {out : Except ρ σ} :
    Runs I [.loop body] s out ↔
      (∃ r, I.test s = .error r ∧ out = .error r) ∨ (I.test s = .ok false ∧ out = .ok s) ∨
        (I.test s = .ok true ∧ Runs I (body ++ [.loop body]) s out) := by
  constructor
  · rintro ⟨n, hn⟩
    rcases haltsIn_loop.1 hn with ⟨r, htest, -, rfl⟩ | ⟨htest, -, rfl⟩ | ⟨htest, m, -, hm⟩
    · exact Or.inl ⟨r, htest, rfl⟩
    · exact Or.inr (Or.inl ⟨htest, rfl⟩)
    · exact Or.inr (Or.inr ⟨htest, m, hm⟩)
  · rintro (⟨r, htest, rfl⟩ | ⟨htest, rfl⟩ | ⟨htest, m, hm⟩)
    · exact ⟨0, haltsIn_loop.2 (Or.inl ⟨r, htest, rfl, rfl⟩)⟩
    · exact ⟨1, haltsIn_loop.2 (Or.inr (Or.inl ⟨htest, rfl, rfl⟩))⟩
    · exact ⟨m + 1, haltsIn_loop.2 (Or.inr (Or.inr ⟨htest, m, rfl, hm⟩))⟩

/-- Where nothing stops a run, it ends in a store, and what every action keeps holds there. -/
theorem ok_of_runs (Inv : σ → Prop) (hact : ∀ a s, Inv s → ∃ s', I.act a s = .ok s' ∧ Inv s')
    (htest : ∀ s, Inv s → ∃ go, I.test s = .ok go) {cs : List (Command α)} {s : σ} {out : Except ρ σ}
    (hs : Inv s) (h : Runs I cs s out) : ∃ s', out = .ok s' ∧ Inv s' := by
  have hunroll : ∀ c s, Inv s → ∃ front s', I.unroll s c = .ok (front, s') ∧ Inv s' := by
    intro c s hs
    cases c with
    | act a =>
        obtain ⟨s', hs', hinv⟩ := hact a s hs
        exact ⟨[], s', by rw [Interp.unroll, hs']; rfl, hinv⟩
    | loop body =>
        obtain ⟨go, hgo⟩ := htest s hs
        exact ⟨_, s, by rw [Interp.unroll, hgo]; rfl, hs⟩
  obtain ⟨n, hn⟩ := h
  induction n generalizing cs s with
  | zero =>
      cases cs with
      | nil => exact ⟨s, ((haltsIn_of_result next_nil).1 hn).2, hs⟩
      | cons c rest =>
          obtain ⟨front, s', hu, -⟩ := hunroll c s hs
          obtain ⟨m, hm, -⟩ := (haltsIn_of_move (next_of_ok hu)).1 hn
          cases hm
  | succ n ih =>
      cases cs with
      | nil => cases ((haltsIn_of_result next_nil).1 hn).1
      | cons c rest =>
          obtain ⟨front, s', hu, hinv⟩ := hunroll c s hs
          obtain ⟨m, hm, hrest⟩ := (haltsIn_of_move (next_of_ok hu)).1 hn
          obtain rfl : n = m := Nat.succ.inj hm
          exact ih hinv hrest

end Runs

/-! ## Comparing programs -/

section Covers

variable {α σ ρ ρ' ρ'' : Type} {Inv : σ → Prop} {A : Prop} {I : Interp α σ ρ} {I' : Interp α σ ρ'}
  {I'' : Interp α σ ρ''}

/-- From a store with `Inv` an end of `cs` is an end of `ds`, with `Inv` again. With `A` the second
program may stop early instead, and has to if the first one does. -/
def Covers (Inv : σ → Prop) (A : Prop) (I : Interp α σ ρ) (I' : Interp α σ ρ')
    (cs ds : List (Command α)) : Prop :=
  ∀ s out, Inv s → (A ∨ ∃ s', out = .ok s') → Runs I cs s out →
    (A ∧ ∃ r, Runs I' ds s (.error r)) ∨ ∃ s', out = .ok s' ∧ Runs I' ds s (.ok s') ∧ Inv s'

theorem covers_nil : Covers Inv A I I' [] [] := by
  intro s out hs _ h
  exact Or.inr ⟨s, runs_nil.1 h, runs_nil.2 rfl, hs⟩

theorem Covers.trans {cs ds es : List (Command α)} (h : Covers Inv A I I' cs ds)
    (h' : Covers Inv A I' I'' ds es) : Covers Inv A I I'' cs es := by
  intro s out hs hout hrun
  rcases h s out hs hout hrun with ⟨ha, r, hr⟩ | ⟨s', rfl, hr, -⟩
  · rcases h' s _ hs (Or.inl ha) hr with hearly | ⟨s', hs', -⟩
    · exact Or.inl hearly
    · cases hs'
  · rcases h' s _ hs (Or.inr ⟨s', rfl⟩) hr with hearly | ⟨t, ht, hrun', hinv⟩
    · exact Or.inl hearly
    · obtain rfl := Except.ok.inj ht
      exact Or.inr ⟨s', rfl, hrun', hinv⟩

theorem Covers.append {cs cs' ds ds' : List (Command α)} (h : Covers Inv A I I' cs ds)
    (h' : Covers Inv A I I' cs' ds') : Covers Inv A I I' (cs ++ cs') (ds ++ ds') := by
  intro s out hs hout hrun
  rcases runs_append.1 hrun with ⟨r, rfl, hr⟩ | ⟨t, ht, hrest⟩
  · rcases h s _ hs hout hr with ⟨ha, r', hr'⟩ | ⟨s', hs', -⟩
    · exact Or.inl ⟨ha, r', runs_append.2 (Or.inl ⟨r', rfl, hr'⟩)⟩
    · cases hs'
  · rcases h s _ hs (Or.inr ⟨t, rfl⟩) ht with ⟨ha, r', hr'⟩ | ⟨t', ht', hrun', hinv⟩
    · exact Or.inl ⟨ha, r', runs_append.2 (Or.inl ⟨r', rfl, hr'⟩)⟩
    · obtain rfl := Except.ok.inj ht'
      rcases h' t out hinv hout hrest with ⟨ha, r', hr'⟩ | ⟨s', rfl, hr', hinv'⟩
      · exact Or.inl ⟨ha, r', runs_append.2 (Or.inr ⟨t, hrun', hr'⟩)⟩
      · exact Or.inr ⟨s', rfl, runs_append.2 (Or.inr ⟨t, hrun', hr'⟩), hinv'⟩

/-- How the actions and the tests of two interpretations compare. -/
structure CoversActs (Inv : σ → Prop) (A : Prop) (I : Interp α σ ρ) (I' : Interp α σ ρ') : Prop where
  act : ∀ a, Covers Inv A I I' [.act a] [.act a]
  stops : ∀ s r, Inv s → A → I.test s = .error r → ∃ r', I'.test s = .error r'
  goes : ∀ s go, Inv s → I.test s = .ok go → I'.test s = .ok go ∨ A ∧ ∃ r, I'.test s = .error r

/-- A loop, by the number of steps of the first program. -/
theorem Covers.loop (hacts : CoversActs Inv A I I') {body body' : List (Command α)}
    (h : Covers Inv A I I' body body') : Covers Inv A I I' [.loop body] [.loop body'] := by
  rintro s out hs hout ⟨n, hn⟩
  induction n using Nat.strongRecOn generalizing s with
  | _ n ih =>
    rcases haltsIn_loop.1 hn with ⟨r, htest, -, rfl⟩ | ⟨htest, -, rfl⟩ | ⟨htest, m, rfl, hm⟩
    · have ha : A := hout.elim id fun ⟨s', hs'⟩ => by cases hs'
      obtain ⟨r', hr'⟩ := hacts.stops s r hs ha htest
      exact Or.inl ⟨ha, r', runs_loop.2 (Or.inl ⟨r', hr', rfl⟩)⟩
    · rcases hacts.goes s false hs htest with htest' | ⟨ha, r', hr'⟩
      · exact Or.inr ⟨s, rfl, runs_loop.2 (Or.inr (Or.inl ⟨htest', rfl⟩)), hs⟩
      · exact Or.inl ⟨ha, r', runs_loop.2 (Or.inl ⟨r', hr', rfl⟩)⟩
    · rcases (hacts.goes s true hs htest).symm with ⟨ha, r', hr'⟩ | htest'
      · exact Or.inl ⟨ha, r', runs_loop.2 (Or.inl ⟨r', hr', rfl⟩)⟩
      -- one round of both bodies, then the rest of the loop
      have hround : ∀ out', Runs I' (body' ++ [.loop body']) s out' →
          Runs I' [.loop body'] s out' :=
        fun out' h' => runs_loop.2 (Or.inr (Or.inr ⟨htest', h'⟩))
      rcases haltsIn_append.1 hm with ⟨r, rfl, hr⟩ | ⟨k, j, t, rfl, hk, hj⟩
      · rcases h s _ hs hout ⟨m, hr⟩ with ⟨ha, r', hr'⟩ | ⟨s', hs', -⟩
        · exact Or.inl ⟨ha, r', hround _ (runs_append.2 (Or.inl ⟨r', rfl, hr'⟩))⟩
        · cases hs'
      · rcases h s _ hs (Or.inr ⟨t, rfl⟩) ⟨k, hk⟩ with ⟨ha, r', hr'⟩ | ⟨t', ht', hrun', hinv⟩
        · exact Or.inl ⟨ha, r', hround _ (runs_append.2 (Or.inl ⟨r', rfl, hr'⟩))⟩
        · obtain rfl := Except.ok.inj ht'
          rcases ih j (by omega) t hinv hj with ⟨ha, r', hr'⟩ | ⟨s', rfl, hr', hinv'⟩
          · exact Or.inl ⟨ha, r', hround _ (runs_append.2 (Or.inr ⟨t, hrun', hr'⟩))⟩
          · exact Or.inr ⟨s', rfl, hround _ (runs_append.2 (Or.inr ⟨t, hrun', hr'⟩)), hinv'⟩

mutual

theorem CoversActs.command (h : CoversActs Inv A I I') : ∀ c : Command α, Covers Inv A I I' [c] [c]
  | .act a => h.act a
  | .loop body => (h.commands body).loop h

/-- A program under another interpretation. -/
theorem CoversActs.commands (h : CoversActs Inv A I I') :
    ∀ cs : List (Command α), Covers Inv A I I' cs cs
  | [] => covers_nil
  | c :: cs => (h.command c).append (h.commands cs)

end

/-- Replacing parts of a program by the pairs of `rule`, also inside loops. -/
inductive Rewrites (rule : List (Command α) → List (Command α) → Prop) :
    List (Command α) → List (Command α) → Prop
  | rule {cs ds : List (Command α)} (h : rule cs ds) : Rewrites rule cs ds
  | refl (cs : List (Command α)) : Rewrites rule cs cs
  | trans {cs ds es : List (Command α)} (h : Rewrites rule cs ds) (h' : Rewrites rule ds es) :
      Rewrites rule cs es
  | append {cs cs' ds ds' : List (Command α)} (h : Rewrites rule cs ds)
      (h' : Rewrites rule cs' ds') : Rewrites rule (cs ++ cs') (ds ++ ds')
  | loop {body body' : List (Command α)} (h : Rewrites rule body body') :
      Rewrites rule [.loop body] [.loop body']

namespace Rewrites

variable {rule : List (Command α) → List (Command α) → Prop} {cs cs' ds ds' : List (Command α)}

theorem append_left (es : List (Command α)) (h : Rewrites rule cs ds) :
    Rewrites rule (es ++ cs) (es ++ ds) := .append (.refl es) h

theorem append_right (es : List (Command α)) (h : Rewrites rule cs ds) :
    Rewrites rule (cs ++ es) (ds ++ es) := .append h (.refl es)

theorem mono {rule' : List (Command α) → List (Command α) → Prop}
    (hrule : ∀ cs ds, rule cs ds → rule' cs ds) (h : Rewrites rule cs ds) : Rewrites rule' cs ds := by
  induction h with
  | rule h => exact .rule (hrule _ _ h)
  | refl cs => exact .refl cs
  | trans _ _ ih ih' => exact ih.trans ih'
  | append _ _ ih ih' => exact ih.append ih'
  | loop _ ih => exact ih.loop

/-- **Soundness of rewriting.** -/
theorem covers (hself : CoversActs Inv A I I) (hrule : ∀ cs ds, rule cs ds → Covers Inv A I I cs ds)
    (h : Rewrites rule cs ds) : Covers Inv A I I cs ds := by
  induction h with
  | rule h => exact hrule _ _ h
  | refl cs => exact hself.commands cs
  | trans _ _ ih ih' => exact ih.trans ih'
  | append _ _ ih ih' => exact ih.append ih'
  | loop _ ih => exact ih.loop hself

/-- The same in the other direction. -/
theorem covers_flip (hself : CoversActs Inv A I I)
    (hrule : ∀ cs ds, rule cs ds → Covers Inv A I I ds cs) (h : Rewrites rule cs ds) :
    Covers Inv A I I ds cs := by
  induction h with
  | rule h => exact hrule _ _ h
  | refl cs => exact hself.commands cs
  | trans _ _ ih ih' => exact ih'.trans ih
  | append _ _ ih ih' => exact ih.append ih'
  | loop _ ih => exact ih.loop hself

end Rewrites

end Covers

end Patchouly.Lib
