import Mathlib.Data.List.Basic

/-!
# Consecutive regions

`Tiles start regions stop` says that the regions follow each other without gap or overlap, from
`start` to `stop`. Tiles lie inside their range and are pairwise disjoint.
-/

set_option autoImplicit false

namespace Patchouly.Lib

/-- The positions from `start` up to, but not including, `stop`. -/
structure Region where
  start : Nat
  stop : Nat
  deriving DecidableEq

def Tiles : Nat → List Region → Nat → Prop
  | start, [], stop => start = stop
  | start, r :: rs, stop => r.start = start ∧ r.start ≤ r.stop ∧ Tiles r.stop rs stop

namespace Tiles

theorem start_le {start stop : Nat} {rs : List Region} (h : Tiles start rs stop) :
    start ≤ stop := by
  induction rs generalizing start with
  | nil => exact Nat.le_of_eq h
  | cons r rs ih =>
      obtain ⟨hs, hle, hrest⟩ := h
      have := ih hrest
      omega

theorem append {start mid stop : Nat} {rs ss : List Region} (h : Tiles start rs mid)
    (k : Tiles mid ss stop) : Tiles start (rs ++ ss) stop := by
  induction rs generalizing start with
  | nil =>
      rw [show start = mid from h]
      exact k
  | cons r rs ih =>
      obtain ⟨hs, hle, hrest⟩ := h
      exact ⟨hs, hle, ih hrest⟩

/-- Tiles lie inside their range. -/
theorem inside {start stop : Nat} {rs : List Region} (h : Tiles start rs stop) :
    ∀ r ∈ rs, start ≤ r.start ∧ r.start ≤ r.stop ∧ r.stop ≤ stop := by
  induction rs generalizing start with
  | nil => intro r hr; cases hr
  | cons s rs ih =>
      obtain ⟨hs, hle, hrest⟩ := h
      intro r hr
      rcases List.mem_cons.1 hr with rfl | hr
      · exact ⟨Nat.le_of_eq hs.symm, hle, hrest.start_le⟩
      · obtain ⟨h1, h2, h3⟩ := ih hrest r hr
        exact ⟨by omega, h2, h3⟩

/-- **Tiles are pairwise disjoint**: each one ends before the later ones start. -/
theorem pairwise {start stop : Nat} {rs : List Region} (h : Tiles start rs stop) :
    rs.Pairwise fun r s => r.stop ≤ s.start := by
  induction rs generalizing start with
  | nil => exact List.Pairwise.nil
  | cons r rs ih =>
      obtain ⟨-, -, hrest⟩ := h
      exact List.Pairwise.cons (fun s hs => (hrest.inside s hs).1) (ih hrest)

/-- The last tile ends with the range. -/
theorem stop_getLast? {start stop : Nat} {rs : List Region} (h : Tiles start rs stop) :
    ∀ r ∈ rs.getLast?, r.stop = stop := by
  induction rs generalizing start with
  | nil => intro r hr; cases hr
  | cons s rs ih =>
      obtain ⟨-, -, hrest⟩ := h
      intro r hr
      cases rs with
      | nil =>
          obtain rfl := Option.some.inj hr
          exact hrest
      | cons s' rs => exact ih hrest r hr

end Tiles

/-- `n` regions of `len` positions each, from `start` on. -/
def evenRegions (len : Nat) : Nat → Nat → List Region
  | _, 0 => []
  | start, n + 1 => ⟨start, start + len⟩ :: evenRegions len (start + len) n

theorem tiles_evenRegions (len start n : Nat) :
    Tiles start (evenRegions len start n) (start + n * len) := by
  induction n generalizing start with
  | zero => simp [evenRegions, Tiles]
  | succ n ih =>
      refine ⟨rfl, by simp, ?_⟩
      have h := ih (start + len)
      rw [show start + len + n * len = start + (n + 1) * len by rw [Nat.add_mul]; omega] at h
      exact h

end Patchouly.Lib
