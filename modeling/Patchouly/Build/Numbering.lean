import Patchouly.Build.Linking

/-!
# The numbers of runtime symbols (`patchouly-build`, `extract.rs`)

`SymbolRun` is a table of runtime symbols with the calls of `add_symbol` that made it and what each of
them returned. The table holds the first `2 ^ 16` different allowed names, in the order of their first
call (`tabled_run`).

An id belongs to one name and a name to one id, and the vector made from the table has every name at its
id, in whatever order the map is read. But `add_symbol` asks for the next id before it looks the name up,
so a full table no longer finds the names it has (`numbering_iff`).
-/

set_option autoImplicit false

namespace Patchouly.Build

open Patchouly.Lib Patchouly.Macros

/-- A table and the log of the calls so far. -/
structure SymbolRun where
  log : List (Ident × Option U16)
  table : RuntimeSymbols

section Runs

variable (demangle : Ident → Ident) (allowList : List Ident)

/-- One call. -/
def SymbolRun.next (r : SymbolRun) (name : Ident) : SymbolRun :=
  match r.table.addSymbol demangle name with
  | none => { r with log := r.log ++ [(name, none)] }
  | some (id, table) => ⟨r.log ++ [(name, some id)], table⟩

/-- The calls for `names`, one after the other, on a new table. -/
def symbolRun (names : List Ident) : SymbolRun :=
  names.foldl (SymbolRun.next demangle) ⟨[], .new allowList⟩

/-- The different allowed names, in the order of their first call. -/
def firsts (names : List Ident) : List Ident :=
  (names.filter (RuntimeSymbols.allows demangle allowList)).foldl record []

/-- No call asks for a name of the table when all ids are taken. -/
def NoneLate (names : List Ident) : Prop :=
  ∀ pre name, pre ++ [name] <+: names → name ∈ (firsts demangle allowList pre).take (2 ^ 16) →
    (firsts demangle allowList pre).length < 2 ^ 16

end Runs

/-- **A stable dense numbering.** Ids are equal exactly when the names are; a name keeps the id it got
once; and the vector has every name that got an id at that id, and nothing else. -/
structure SymbolRun.Numbering (r : SymbolRun) : Prop where
  ids : ∀ x ∈ r.log, ∀ y ∈ r.log, ∀ a ∈ x.2, ∀ b ∈ y.2, (a = b ↔ x.1 = y.1)
  kept : r.log.Pairwise fun x y => x.1 = y.1 → ∀ a ∈ x.2, y.2 = some a
  vec : ∀ entries, entries.Perm r.table.symbols →
    ∃ v, RuntimeSymbols.toVec { r.table with symbols := entries } = some v ∧ v.Nodup ∧
      (∀ name, name ∈ v ↔ ∃ id, (name, some id) ∈ r.log) ∧
      ∀ name id, (name, some id) ∈ r.log → v[id.toNat]? = some name

/-! ## First uses -/

section Firsts

variable {demangle : Ident → Ident} {allowList names : List Ident} {name : Ident}

theorem firsts_concat_of_allowed (h : RuntimeSymbols.allows demangle allowList name = true) :
    firsts demangle allowList (names ++ [name]) = record (firsts demangle allowList names) name := by
  rw [firsts, List.filter_append, List.filter_cons_of_pos h, List.filter_nil, List.foldl_append]
  rfl

theorem firsts_concat_of_refused (h : ¬ RuntimeSymbols.allows demangle allowList name = true) :
    firsts demangle allowList (names ++ [name]) = firsts demangle allowList names := by
  rw [firsts, List.filter_append, List.filter_cons_of_neg h, List.filter_nil, List.append_nil]
  rfl

theorem noneLate_concat : NoneLate demangle allowList (names ++ [name]) ↔
    NoneLate demangle allowList names ∧ (name ∈ (firsts demangle allowList names).take (2 ^ 16) →
      (firsts demangle allowList names).length < 2 ^ 16) := by
  constructor
  · intro h
    constructor
    · intro pre n hpre
      exact h pre n (hpre.trans (List.prefix_append _ _))
    · exact h names name (List.prefix_refl _)
  · rintro ⟨hold, hnew⟩ pre n hpre
    rcases List.prefix_concat_iff.1 hpre with heq | hpre
    · obtain ⟨rfl, hn⟩ := List.append_inj' heq rfl
      obtain rfl := List.head_eq_of_cons_eq hn
      exact hnew
    · exact hold pre n hpre

end Firsts

/-! ## The table and the log -/

/-- The table that is made by the calls for `names`. -/
def tableOf (demangle : Ident → Ident) (allowList names : List Ident) : List Ident :=
  (firsts demangle allowList names).take (2 ^ 16)

/-- The table holds the first names, the log has their ids, and it keeps them unless a name is late. -/
structure Tabled (demangle : Ident → Ident) (allowList names : List Ident) (r : SymbolRun) : Prop where
  allowed : r.table.allowList = allowList
  numbers : r.table.Numbers (tableOf demangle allowList names)
  logged : ∀ name id, (name, some id) ∈ r.log ↔ name ∈ tableOf demangle allowList names ∧
    id = BitVec.ofNat 16 ((tableOf demangle allowList names).idxOf name)
  kept : (r.log.Pairwise fun x y => x.1 = y.1 → ∀ a ∈ x.2, y.2 = some a) ↔
    NoneLate demangle allowList names

section Step

variable {demangle : Ident → Ident} {allowList names : List Ident} {name : Ident} {r : SymbolRun}

theorem allowed_of_mem_firsts (h : name ∈ firsts demangle allowList names) :
    RuntimeSymbols.allows demangle allowList name = true := by
  induction names using List.reverseRecOn with
  | nil => cases h
  | append_singleton names n ih =>
      by_cases hn : RuntimeSymbols.allows demangle allowList n = true
      · rw [firsts_concat_of_allowed hn, mem_record_iff] at h
        rcases h with h | rfl
        · exact ih h
        · exact hn
      · rw [firsts_concat_of_refused hn] at h
        exact ih h

theorem nodup_firsts : (firsts demangle allowList names).Nodup := by
  induction names using List.reverseRecOn with
  | nil => exact List.nodup_nil
  | append_singleton names n ih =>
      by_cases hn : RuntimeSymbols.allows demangle allowList n = true
      · rw [firsts_concat_of_allowed hn]
        exact nodup_record ih n
      · rw [firsts_concat_of_refused hn]
        exact ih

/-- A call keeps the logged ids if it returns the id that its name has. -/
theorem Tabled.kept_concat (h : Tabled demangle allowList names r) (res : Option U16) :
    ((r.log ++ [(name, res)]).Pairwise fun x y => x.1 = y.1 → ∀ a ∈ x.2, y.2 = some a) ↔
      NoneLate demangle allowList names ∧ (name ∈ tableOf demangle allowList names →
        res = some (BitVec.ofNat 16 ((tableOf demangle allowList names).idxOf name))) := by
  rw [List.pairwise_append, h.kept]
  constructor
  · rintro ⟨hold, -, hnew⟩
    refine ⟨hold, fun hmem => ?_⟩
    exact hnew _ ((h.logged name _).2 ⟨hmem, rfl⟩) _ List.mem_cons_self rfl _ rfl
  · rintro ⟨hold, hnew⟩
    refine ⟨hold, List.pairwise_singleton _ _, ?_⟩
    rintro ⟨n, id⟩ hx y hy rfl a ha
    obtain rfl := List.mem_singleton.1 hy
    obtain rfl := Option.mem_def.1 ha
    obtain ⟨hmem, rfl⟩ := (h.logged _ _).1 hx
    exact hnew hmem

/-- A call that returns nothing changes nothing. -/
theorem Tabled.refused (h : Tabled demangle allowList names r)
    (hadd : r.table.addSymbol demangle name = none)
    (htable : tableOf demangle allowList (names ++ [name]) = tableOf demangle allowList names)
    (hfull : name ∈ tableOf demangle allowList names →
      ¬ (firsts demangle allowList names).length < 2 ^ 16) :
    Tabled demangle allowList (names ++ [name]) (r.next demangle name) := by
  rw [SymbolRun.next, hadd]
  refine ⟨h.allowed, htable ▸ h.numbers, ?_, ?_⟩
  · intro n id
    rw [htable, ← h.logged n id, List.mem_append, List.mem_singleton]
    simp
  · rw [h.kept_concat, noneLate_concat]
    refine and_congr_right fun _ => ⟨fun hres hmem => ?_, fun hlt hmem => ?_⟩
    · cases hres hmem
    · exact absurd (hlt hmem) (hfull hmem)

theorem Tabled.next (h : Tabled demangle allowList names r) :
    Tabled demangle allowList (names ++ [name]) (r.next demangle name) := by
  by_cases hallow : RuntimeSymbols.allows demangle allowList name = true
  · by_cases hlt : (firsts demangle allowList names).length < 2 ^ 16
    · -- there is an id left, and the call returns the one of the name
      have htable : tableOf demangle allowList names = firsts demangle allowList names :=
        List.take_of_length_le (by omega)
      have hrecord : (record (firsts demangle allowList names) name).length ≤ 2 ^ 16 :=
        (length_record_le _ _).trans hlt
      have htable' : tableOf demangle allowList (names ++ [name]) =
          record (tableOf demangle allowList names) name := by
        rw [tableOf, firsts_concat_of_allowed hallow, List.take_of_length_le hrecord, htable]
      have hallowed : RuntimeSymbols.allows demangle r.table.allowList name = true := by
        rw [h.allowed]
        exact hallow
      obtain ⟨rt, hadd, hnumbers, hlist⟩ := h.numbers.addSymbol (by rw [htable]; exact hlt) hallowed
      rw [SymbolRun.next, hadd]
      refine ⟨hlist.trans h.allowed, htable' ▸ hnumbers, ?_, ?_⟩
      · intro n id
        rw [htable', List.mem_append, List.mem_singleton, h.logged n id, Prod.mk.injEq,
          Option.some.injEq]
        constructor
        · rintro (⟨hmem, rfl⟩ | ⟨rfl, rfl⟩)
          · exact ⟨(prefix_record _ _).mem hmem, by rw [idxOf_stable (prefix_record _ _) hmem]⟩
          · exact ⟨mem_record _ _, rfl⟩
        · rintro ⟨hmem, rfl⟩
          by_cases hn : n = name
          · exact Or.inr ⟨hn, by rw [hn]⟩
          · left
            have hold : n ∈ tableOf demangle allowList names :=
              (mem_record_iff.1 hmem).resolve_right hn
            exact ⟨hold, by rw [idxOf_stable (prefix_record _ _) hold]⟩
      · rw [h.kept_concat, noneLate_concat]
        refine and_congr_right fun _ => iff_of_true (fun hmem => ?_) fun _ => hlt
        rw [record, if_pos hmem]
    · -- all ids are taken
      have hlen : (tableOf demangle allowList names).length = 2 ^ 16 := by
        rw [tableOf, List.length_take]
        omega
      apply h.refused
      · exact h.numbers.addSymbol_full hlen.ge
      · rw [tableOf, firsts_concat_of_allowed hallow, record]
        split
        · rfl
        · exact List.take_append_of_le_length (by omega)
      · exact fun _ => hlt
  · have hnot : name ∉ tableOf demangle allowList names := fun hmem =>
      hallow (allowed_of_mem_firsts (List.mem_of_mem_take hmem))
    apply h.refused
    · rw [RuntimeSymbols.addSymbol, h.allowed, if_neg hallow]
    · rw [tableOf, firsts_concat_of_refused hallow, tableOf]
    · exact fun hmem => absurd hmem hnot

end Step

/-- **What a run of calls leaves behind.** -/
theorem tabled_run (demangle : Ident → Ident) (allowList names : List Ident) :
    Tabled demangle allowList names (symbolRun demangle allowList names) := by
  induction names using List.reverseRecOn with
  | nil =>
      refine ⟨rfl, RuntimeSymbols.numbers_new allowList, ?_, ?_⟩
      · intro name id
        exact iff_of_false List.not_mem_nil fun h => List.not_mem_nil h.1
      · exact iff_of_true List.Pairwise.nil fun pre name h =>
          absurd (List.prefix_nil.1 h) (List.append_ne_nil_of_right_ne_nil _ (List.cons_ne_nil _ _))
  | append_singleton names name ih =>
      rw [symbolRun, List.foldl_append]
      exact ih.next

/-- The order of the table is the order of the ids, so all that can fail is that a name keeps its id. -/
theorem Tabled.numbered_iff {demangle : Ident → Ident} {allowList names : List Ident} {r : SymbolRun}
    (h : Tabled demangle allowList names r) : r.Numbering ↔ NoneLate demangle allowList names := by
  have hle := h.numbers.le
  have hnodup : (tableOf demangle allowList names).Nodup :=
    nodup_firsts.sublist (List.take_sublist _ _)
  have hnumber : ∀ name ∈ tableOf demangle allowList names,
      (BitVec.ofNat 16 ((tableOf demangle allowList names).idxOf name)).toNat =
        (tableOf demangle allowList names).idxOf name := by
    intro name hname
    have hlt := List.idxOf_lt_length_iff.2 hname
    exact toNat_ofNat_of_lt (by omega)
  rw [← h.kept]
  refine ⟨fun hr => hr.kept, fun hkept => ⟨?_, hkept, ?_⟩⟩
  · rintro ⟨x, _⟩ hx ⟨y, _⟩ hy a rfl b rfl
    obtain ⟨hxmem, rfl⟩ := (h.logged x a).1 hx
    obtain ⟨hymem, rfl⟩ := (h.logged y b).1 hy
    constructor
    · intro heq
      have hidx := congrArg BitVec.toNat heq
      rw [hnumber x hxmem, hnumber y hymem] at hidx
      exact (List.idxOf_inj hxmem).1 hidx
    · rintro rfl
      rfl
  · intro entries hperm
    refine ⟨_, h.numbers.toVec_of_perm hperm, hnodup, ?_, ?_⟩
    · intro name
      constructor
      · intro hname
        exact ⟨_, (h.logged name _).2 ⟨hname, rfl⟩⟩
      · rintro ⟨id, hid⟩
        exact ((h.logged name id).1 hid).1
    · intro name id hid
      obtain ⟨hname, rfl⟩ := (h.logged name id).1 hid
      rw [hnumber name hname, List.getElem?_eq_getElem (List.idxOf_lt_length_iff.2 hname),
        List.getElem_idxOf]

/-- **Runtime symbols.** The ids are a stable dense numbering exactly when no call asks for a name of the
table after all ids are taken. -/
theorem numbering_iff (demangle : Ident → Ident) (allowList names : List Ident) :
    (symbolRun demangle allowList names).Numbering ↔ NoneLate demangle allowList names :=
  (tabled_run demangle allowList names).numbered_iff

/-- Different names that are all allowed, in the order of their numbers. -/
def manyNames (n : Nat) : List Ident := (List.range n).map (numbered "f")

theorem firsts_manyNames (n : Nat) : firsts id ["f".toList] (manyNames n) = manyNames n := by
  induction n with
  | zero => rfl
  | succ n ih =>
      have hsucc : manyNames (n + 1) = manyNames n ++ [numbered "f" n] := by
        rw [manyNames, List.range_succ, List.map_append]
        rfl
      have hallow : RuntimeSymbols.allows id ["f".toList] (numbered "f" n) = true := by
        simp [RuntimeSymbols.allows, numbered]
      have hnew : numbered "f" n ∉ manyNames n := by
        rw [manyNames, List.mem_map]
        rintro ⟨k, hk, heq⟩
        have hkn := decimal_injective (List.append_cancel_left heq)
        rw [List.mem_range] at hk
        omega
      rw [hsucc, firsts_concat_of_allowed hallow, ih, record, if_neg hnew]

/-- After 65536 names the first one is not found again. -/
theorem not_numbering : ¬ ∀ (demangle : Ident → Ident) (allowList names : List Ident),
    (symbolRun demangle allowList names).Numbering := by
  intro hall
  have hlate := (tabled_run id ["f".toList] (manyNames (2 ^ 16) ++ [numbered "f" 0])).numbered_iff.1
    (hall id ["f".toList] (manyNames (2 ^ 16) ++ [numbered "f" 0]))
  have hlen : (manyNames (2 ^ 16)).length = 2 ^ 16 := by rw [manyNames, List.length_map, List.length_range]
  have hlt := (noneLate_concat.1 hlate).2
  rw [firsts_manyNames, List.take_of_length_le hlen.le, hlen] at hlt
  have hmem : numbered "f" 0 ∈ manyNames (2 ^ 16) :=
    List.mem_map_of_mem (List.mem_range.2 (Nat.two_pow_pos 16))
  exact Nat.lt_irrefl _ (hlt hmem)

end Patchouly.Build
