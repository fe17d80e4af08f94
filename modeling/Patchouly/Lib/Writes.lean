import Mathlib.Data.List.Pairwise
import Patchouly.Lib.Words

/-!
# Ordered writes into a byte slice

`copyFromSlice dest pos src` overwrites `src.length` bytes of `dest` from `pos` on and aborts when
they do not fit. `Write` is one such operation as data; `applyWrites` performs a list of them in
order. The bytes after the list are given position by position: the last write that covers a
position decides its byte, and a position that no write covers keeps it (`applyWrites_getElem?`).

`LoggedBuffer` is a byte slice that also remembers the writes made so far. Code that is generic in
`ByteSlice` runs on a plain slice and on a logged one alike, and the log of a run performs exactly
the run's change (`LoggedBuffer.Extends`).
-/

set_option autoImplicit false

namespace Patchouly.Lib

/-- One slice assignment: `bytes` go to `pos` and the positions after it. -/
structure Write where
  pos : Nat
  bytes : List U8
  deriving DecidableEq

namespace Write

/-- The first position after the write. -/
def stop (w : Write) : Nat := w.pos + w.bytes.length

/-- The positions the write overwrites. -/
def Covers (w : Write) (x : Nat) : Prop := w.pos ≤ x ∧ x < w.stop

instance (w : Write) (x : Nat) : Decidable (w.Covers x) :=
  inferInstanceAs (Decidable (w.pos ≤ x ∧ x < w.stop))

/-- The byte the write puts at `x`, when it covers `x`. -/
def byteAt (w : Write) (x : Nat) : Option U8 :=
  if w.pos ≤ x then w.bytes[x - w.pos]? else none

theorem byteAt_of_not_covers {w : Write} {x : Nat} (h : ¬ w.Covers x) : w.byteAt x = none := by
  rw [byteAt]
  split
  · next hp =>
    have hx : ¬ x < w.stop := fun hx => h ⟨hp, hx⟩
    rw [List.getElem?_eq_none]
    simp only [stop] at hx
    omega
  · rfl

theorem byteAt_of_covers {w : Write} {x : Nat} (h : w.Covers x) :
    w.byteAt x = w.bytes[x - w.pos]? :=
  if_pos h.1

theorem byteAt_isSome {w : Write} {x : Nat} : (w.byteAt x).isSome ↔ w.Covers x := by
  constructor
  · intro h
    by_contra hc
    rw [byteAt_of_not_covers hc] at h
    cases h
  · intro h
    obtain ⟨hp, hs⟩ := h
    simp only [stop] at hs
    rw [byteAt_of_covers ⟨hp, hs⟩, List.getElem?_eq_getElem (by omega)]
    rfl

/-- Two writes without a common position. -/
def Apart (v w : Write) : Prop := ∀ x, ¬ (v.Covers x ∧ w.Covers x)

theorem apart_of_stop_le {v w : Write} (h : v.stop ≤ w.pos) : v.Apart w := by
  rintro x ⟨hv, hw⟩
  have hstop := hv.2
  have hpos := hw.1
  omega

end Write

/-! ## Slice assignment -/

/-- `dest[pos..][..src.len()].copy_from_slice(src)`; aborts when the range leaves `dest`. -/
def copyFromSlice (dest : List U8) (pos : Nat) (src : List U8) : Option (List U8) :=
  if pos + src.length ≤ dest.length then
    some (dest.take pos ++ src ++ dest.drop (pos + src.length))
  else
    none

theorem copyFromSlice_le {dest src out : List U8} {pos : Nat}
    (h : copyFromSlice dest pos src = some out) : pos + src.length ≤ dest.length := by
  rw [copyFromSlice] at h
  split at h
  · assumption
  · cases h

theorem copyFromSlice_length {dest src out : List U8} {pos : Nat}
    (h : copyFromSlice dest pos src = some out) : out.length = dest.length := by
  have hle := copyFromSlice_le h
  rw [copyFromSlice, if_pos hle] at h
  obtain rfl := Option.some.inj h
  simp only [List.length_append, List.length_take, List.length_drop]
  omega

theorem copyFromSlice_isSome {dest src : List U8} {pos : Nat} (h : pos + src.length ≤ dest.length) :
    ∃ out, copyFromSlice dest pos src = some out :=
  ⟨_, if_pos h⟩

/-- The bytes after a slice assignment. -/
theorem copyFromSlice_getElem? {dest src out : List U8} {pos : Nat}
    (h : copyFromSlice dest pos src = some out) (x : Nat) :
    out[x]? = (Write.byteAt ⟨pos, src⟩ x).or dest[x]? := by
  have hle := copyFromSlice_le h
  rw [copyFromSlice, if_pos hle] at h
  obtain rfl := Option.some.inj h
  -- before, inside and behind the slice
  by_cases hlow : x < pos
  · rw [Write.byteAt, if_neg (by simp only; omega), Option.none_or,
      List.getElem?_append_left (by simp only [List.length_append, List.length_take]; omega),
      List.getElem?_append_left (by simp only [List.length_take]; omega),
      List.getElem?_take_of_lt hlow]
  · rw [Write.byteAt, if_pos (by simp only; omega)]
    by_cases hmid : x < pos + src.length
    · have hx : x - pos < src.length := by omega
      rw [List.getElem?_append_left (by simp only [List.length_append, List.length_take]; omega),
        List.getElem?_append_right (by simp only [List.length_take]; omega)]
      simp only [List.length_take, Nat.min_eq_left (show pos ≤ dest.length by omega)]
      rw [List.getElem?_eq_getElem hx, Option.some_or]
    · have hx : src.length ≤ x - pos := by omega
      rw [List.getElem?_eq_none hx, Option.none_or,
        List.getElem?_append_right (by simp only [List.length_append, List.length_take]; omega),
        List.getElem?_drop]
      congr 1
      simp only [List.length_append, List.length_take]
      omega

/-! ## Lists of writes -/

/-- Perform the writes in order. -/
def applyWrites : List Write → List U8 → Option (List U8)
  | [], d => some d
  | w :: ws, d => (copyFromSlice d w.pos w.bytes).bind (applyWrites ws)

/-- The byte the last covering write of the list puts at `x`. -/
def lastByte : List Write → Nat → Option U8
  | [], _ => none
  | w :: ws, x => (lastByte ws x).or (w.byteAt x)

theorem applyWrites_append (ws vs : List Write) (d : List U8) :
    applyWrites (ws ++ vs) d = (applyWrites ws d).bind (applyWrites vs) := by
  induction ws generalizing d with
  | nil => rfl
  | cons w ws ih =>
      simp only [List.cons_append, applyWrites]
      cases copyFromSlice d w.pos w.bytes with
      | none => rfl
      | some d' => exact ih d'

theorem lastByte_append (ws vs : List Write) (x : Nat) :
    lastByte (ws ++ vs) x = (lastByte vs x).or (lastByte ws x) := by
  induction ws with
  | nil => simp [lastByte]
  | cons w ws ih => simp only [List.cons_append, lastByte, ih, Option.or_assoc]

/-- **The bytes after a list of writes**: the last covering write decides, the rest is unchanged. -/
theorem applyWrites_getElem? {ws : List Write} {d d' : List U8} (h : applyWrites ws d = some d')
    (x : Nat) : d'[x]? = (lastByte ws x).or d[x]? := by
  induction ws generalizing d with
  | nil =>
      obtain rfl := Option.some.inj h
      simp [lastByte]
  | cons w ws ih =>
      simp only [applyWrites, Option.bind_eq_some_iff] at h
      obtain ⟨m, hm, h⟩ := h
      rw [ih h, copyFromSlice_getElem? hm, lastByte, Option.or_assoc]

theorem applyWrites_length {ws : List Write} {d d' : List U8} (h : applyWrites ws d = some d') :
    d'.length = d.length := by
  induction ws generalizing d with
  | nil =>
      obtain rfl := Option.some.inj h
      rfl
  | cons w ws ih =>
      simp only [applyWrites, Option.bind_eq_some_iff] at h
      obtain ⟨m, hm, h⟩ := h
      rw [ih h, copyFromSlice_length hm]

/-- Every write of a list that was performed fits the slice. -/
theorem applyWrites_fits {ws : List Write} {d d' : List U8} (h : applyWrites ws d = some d') :
    ∀ w ∈ ws, w.stop ≤ d.length := by
  induction ws generalizing d with
  | nil => intro w hw; cases hw
  | cons v ws ih =>
      simp only [applyWrites, Option.bind_eq_some_iff] at h
      obtain ⟨m, hm, h⟩ := h
      intro w hw
      rcases List.mem_cons.1 hw with rfl | hw
      · exact copyFromSlice_le hm
      · rw [← copyFromSlice_length hm]
        exact ih h w hw

theorem lastByte_eq_none {ws : List Write} {x : Nat} (h : ∀ w ∈ ws, ¬ w.Covers x) :
    lastByte ws x = none := by
  induction ws with
  | nil => rfl
  | cons w ws ih =>
      rw [lastByte, ih fun v hv => h v (List.mem_cons_of_mem _ hv),
        Write.byteAt_of_not_covers (h w List.mem_cons_self), Option.none_or]

theorem lastByte_isSome {ws : List Write} {x : Nat} {w : Write} (hw : w ∈ ws) (hx : w.Covers x) :
    (lastByte ws x).isSome := by
  induction ws with
  | nil => cases hw
  | cons v ws ih =>
      rw [lastByte]
      rcases List.mem_cons.1 hw with rfl | hw
      · rw [Option.isSome_or, Write.byteAt_isSome.2 hx, Bool.or_true]
      · rw [Option.isSome_or, ih hw, Bool.true_or]

/-- Where every covering write puts the same byte, that byte is the last one. -/
theorem lastByte_of_agree {ws : List Write} {x : Nat} {w : Write} (hw : w ∈ ws) (hx : w.Covers x)
    (hagree : ∀ v ∈ ws, v.Covers x → v.byteAt x = w.byteAt x) : lastByte ws x = w.byteAt x := by
  -- on all sublists: `w` itself may stand anywhere in the list
  have key : ∀ vs : List Write, (∀ v ∈ vs, v.Covers x → v.byteAt x = w.byteAt x) →
      lastByte vs x = none ∨ lastByte vs x = w.byteAt x := by
    intro vs
    induction vs with
    | nil => intro _; exact Or.inl rfl
    | cons v vs ih =>
        intro hv
        rw [lastByte]
        rcases ih fun u hu => hv u (List.mem_cons_of_mem _ hu) with h | h
        · rw [h, Option.none_or]
          by_cases hc : v.Covers x
          · exact Or.inr (hv v List.mem_cons_self hc)
          · exact Or.inl (Write.byteAt_of_not_covers hc)
        · have hs := Write.byteAt_isSome.2 hx
          rw [← h] at hs
          rw [Option.or_of_isSome hs]
          exact Or.inr h
  rcases key ws hagree with h | h
  · have hs := lastByte_isSome hw hx
    rw [h] at hs
    cases hs
  · exact h

/-- The only covering write of the list decides its positions. -/
theorem lastByte_of_unique {ws : List Write} {x : Nat} {w : Write} (hw : w ∈ ws) (hx : w.Covers x)
    (huniq : ∀ v ∈ ws, v.Covers x → v = w) : lastByte ws x = w.byteAt x :=
  lastByte_of_agree hw hx fun v hv hc => by rw [huniq v hv hc]

/-- Of writes that are apart, one covers a position. -/
theorem lastByte_of_pairwise {ws : List Write} {x : Nat} {w : Write}
    (hp : ws.Pairwise Write.Apart) (hw : w ∈ ws) (hx : w.Covers x) :
    lastByte ws x = w.byteAt x := by
  have hsame : ws.Pairwise fun v u => v.Covers x → u.Covers x → v = u := by
    refine hp.imp ?_
    intro v u hapart hv hu
    exact absurd ⟨hv, hu⟩ (hapart x)
  apply lastByte_of_unique hw hx
  intro v hv hc
  have hflip : ws.Pairwise (flip fun v u => v.Covers x → u.Covers x → v = u) :=
    hsame.imp fun h hu hv => (h hv hu).symm
  exact hsame.forall_of_forall_of_flip (fun _ _ _ _ => rfl) hflip hv hw hc hx

/-! ## Shifted writes -/

/-- The same write in a slice that has the old one at `off`. -/
def Write.shift (off : Nat) (w : Write) : Write := ⟨off + w.pos, w.bytes⟩

theorem Write.covers_shift {off x : Nat} {w : Write} : (w.shift off).Covers (off + x) ↔ w.Covers x := by
  simp only [Covers, stop, shift]
  omega

theorem Write.byteAt_shift (off x : Nat) (w : Write) : (w.shift off).byteAt (off + x) = w.byteAt x := by
  by_cases hx : w.Covers x
  · rw [byteAt_of_covers hx, byteAt_of_covers (covers_shift.2 hx), shift, Nat.add_sub_add_left]
  · rw [byteAt_of_not_covers hx, byteAt_of_not_covers (covers_shift.not.2 hx)]

theorem lastByte_shift (off x : Nat) (ws : List Write) :
    lastByte (ws.map (Write.shift off)) (off + x) = lastByte ws x := by
  induction ws with
  | nil => rfl
  | cons w ws ih => rw [List.map_cons, lastByte, lastByte, ih, Write.byteAt_shift]

/-- The `n` bytes from `pos` on, as read back from `d`. -/
def readBytes (d : List U8) (pos n : Nat) : List U8 := (d.drop pos).take n

theorem readBytes_eq_of_getElem? {d bs : List U8} {pos : Nat}
    (h : ∀ i (hi : i < bs.length), d[pos + i]? = some bs[i]) : readBytes d pos bs.length = bs := by
  apply List.ext_getElem?
  intro i
  by_cases hi : i < bs.length
  · rw [readBytes, List.getElem?_take_of_lt hi, List.getElem?_drop, h i hi,
      List.getElem?_eq_getElem hi]
  · rw [List.getElem?_eq_none (by simp only [readBytes, List.length_take]; omega),
      List.getElem?_eq_none (by omega)]

theorem getElem?_of_readBytes {d bs : List U8} {pos i : Nat}
    (h : readBytes d pos bs.length = bs) (hi : i < bs.length) : d[pos + i]? = some bs[i] := by
  have hi' : (readBytes d pos bs.length)[i]? = bs[i]? := by rw [h]
  rw [readBytes, List.getElem?_take_of_lt hi, List.getElem?_drop,
    List.getElem?_eq_getElem hi] at hi'
  exact hi'

/-- The writes `ws` leave the bytes of `w`, or write the same ones. -/
def Write.KeptBy (w : Write) (ws : List Write) : Prop :=
  ∀ x, w.Covers x → ∀ v, lastByte ws x = some v → w.byteAt x = some v

theorem Write.keptBy_nil (w : Write) : w.KeptBy [] := by
  intro x _ v hv
  cases hv

/-- A write over which only `post` lies can be read back exactly when `post` keeps it. -/
theorem readBytes_iff_of_lastByte {post : List Write} {w : Write} {d : List U8}
    (hbyte : ∀ x, w.Covers x → d[x]? = (lastByte post x).or (w.byteAt x)) :
    readBytes d w.pos w.bytes.length = w.bytes ↔ w.KeptBy post := by
  constructor
  · intro hread x hx v hv
    have hd := hbyte x hx
    rw [hv, Option.some_or] at hd
    have hlt : x - w.pos < w.bytes.length := by
      have hstop := hx.2
      rw [Write.stop] at hstop
      have hpos := hx.1
      omega
    have hget := getElem?_of_readBytes hread hlt
    rw [show w.pos + (x - w.pos) = x from Nat.add_sub_cancel' hx.1, hd] at hget
    rw [Write.byteAt_of_covers hx, List.getElem?_eq_getElem hlt, hget]
  · intro hkept
    apply readBytes_eq_of_getElem?
    intro i hi
    have hcov : w.Covers (w.pos + i) := ⟨by omega, by rw [Write.stop]; omega⟩
    rw [hbyte _ hcov]
    have hown : w.byteAt (w.pos + i) = some w.bytes[i] := by
      rw [Write.byteAt_of_covers hcov, Nat.add_sub_cancel_left, List.getElem?_eq_getElem hi]
    -- a byte that is written again gets the value it had
    cases hlast : lastByte post (w.pos + i) with
    | none => exact hown
    | some v => rw [Option.some_or, ← hown, hkept _ hcov v hlast]

/-- **A write can be read back** exactly when the later ones keep it. -/
theorem readBytes_iff_keptBy {pre post : List Write} {w : Write} {d d' : List U8}
    (h : applyWrites (pre ++ w :: post) d = some d') :
    readBytes d' w.pos w.bytes.length = w.bytes ↔ w.KeptBy post := by
  apply readBytes_iff_of_lastByte
  intro x hx
  obtain ⟨v, hv⟩ := Option.isSome_iff_exists.1 (Write.byteAt_isSome.2 hx)
  rw [applyWrites_getElem? h, lastByte_append, lastByte, hv]
  cases lastByte post x <;> rfl

/-- Only the bytes of the window matter. -/
theorem readBytes_congr {d d' : List U8} {p q n : Nat} (h : ∀ i < n, d[p + i]? = d'[q + i]?) :
    readBytes d p n = readBytes d' q n := by
  apply List.ext_getElem?
  intro i
  by_cases hi : i < n
  · rw [readBytes, readBytes, List.getElem?_take_of_lt hi, List.getElem?_take_of_lt hi,
      List.getElem?_drop, List.getElem?_drop, h i hi]
  · rw [List.getElem?_eq_none (by simp only [readBytes, List.length_take]; omega),
      List.getElem?_eq_none (by simp only [readBytes, List.length_take]; omega)]

/-- Two windows have the same bytes exactly if they agree everywhere. -/
theorem readBytes_eq_iff {d d' : List U8} {p q n : Nat} :
    readBytes d p n = readBytes d' q n ↔ ∀ i < n, d[p + i]? = d'[q + i]? := by
  constructor
  · intro h i hi
    have hget := congrArg (·[i]?) h
    simp only [readBytes, List.getElem?_take_of_lt hi, List.getElem?_drop] at hget
    exact hget
  · exact readBytes_congr

/-! ## Generic byte slices -/

/-- A mutable byte slice: the target of slice assignments. -/
class ByteSlice (β : Type) where
  copyFromSlice : β → Nat → List U8 → Option β

instance : ByteSlice (List U8) := ⟨copyFromSlice⟩

/-- A byte slice with the writes made to it so far, oldest first. The log is a record for the
proofs: no operation reads it. -/
structure LoggedBuffer where
  bytes : List U8
  log : List Write

instance : ByteSlice LoggedBuffer where
  copyFromSlice buf pos src :=
    (copyFromSlice buf.bytes pos src).map fun bytes => ⟨bytes, buf.log ++ [⟨pos, src⟩]⟩

namespace LoggedBuffer

/-- `after` was obtained from `before` by the writes `ws`, and by nothing else. -/
structure Extends (before after : LoggedBuffer) (ws : List Write) : Prop where
  log : after.log = before.log ++ ws
  bytes : applyWrites ws before.bytes = some after.bytes

theorem Extends.refl (buf : LoggedBuffer) : Extends buf buf [] := ⟨by simp, rfl⟩

theorem Extends.trans {a b c : LoggedBuffer} {ws vs : List Write} (h : Extends a b ws)
    (k : Extends b c vs) : Extends a c (ws ++ vs) where
  log := by rw [k.log, h.log, List.append_assoc]
  bytes := by rw [applyWrites_append, h.bytes, Option.bind_some, k.bytes]

theorem extends_of_copyFromSlice {buf buf' : LoggedBuffer} {pos : Nat} {src : List U8}
    (h : ByteSlice.copyFromSlice buf pos src = some buf') : Extends buf buf' [⟨pos, src⟩] := by
  simp only [ByteSlice.copyFromSlice, Option.map_eq_some_iff] at h
  obtain ⟨bytes, hb, rfl⟩ := h
  exact ⟨rfl, by simp [applyWrites, hb]⟩

theorem copyFromSlice_of_fits {buf : LoggedBuffer} {pos : Nat} {src : List U8}
    (h : pos + src.length ≤ buf.bytes.length) :
    ∃ buf', ByteSlice.copyFromSlice buf pos src = some buf' := by
  obtain ⟨out, hout⟩ := copyFromSlice_isSome h
  exact ⟨_, by simp only [ByteSlice.copyFromSlice, hout]; rfl⟩

end LoggedBuffer

end Patchouly.Lib
