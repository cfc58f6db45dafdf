/-
  Next-fit: items are put into bins of one capacity, in order. An item goes into the open bin,
  or, if it does not fit there, into a new one, which is the open bin from then on.

  * `nextFit_bound`: two bins in a row hold more than one capacity together, so the bins are
    at least half full on the whole.
  * `nextFit_bin_le`: the number of the open bin, by the sum of the sizes.
-/
import Mathlib.Algebra.BigOperators.Group.List.Basic
import Mathlib.Tactic

namespace Foxtails.Lib.NextFit

/-- The open bin and how full it is. -/
structure Position where
  bin : Nat
  fill : Nat
  deriving DecidableEq

def Position.add (cap : Nat) (pos : Position) (size : Nat) : Position :=
  if pos.fill + size ≤ cap then ⟨pos.bin, pos.fill + size⟩ else ⟨pos.bin + 1, size⟩

/-- The position behind these items. -/
def nextFit (cap : Nat) (sizes : List Nat) : Position := sizes.foldl (Position.add cap) ⟨0, 0⟩

variable {cap : Nat}

theorem Position.add_of_le {pos : Position} {size : Nat} (h : pos.fill + size ≤ cap) :
    pos.add cap size = ⟨pos.bin, pos.fill + size⟩ := if_pos h

theorem Position.add_of_lt {pos : Position} {size : Nat} (h : cap < pos.fill + size) :
    pos.add cap size = ⟨pos.bin + 1, size⟩ := if_neg (not_le.mpr h)

@[simp] theorem nextFit_nil : nextFit cap [] = ⟨0, 0⟩ := rfl

theorem nextFit_concat (sizes : List Nat) (size : Nat) :
    nextFit cap (sizes ++ [size]) = (nextFit cap sizes).add cap size := by
  rw [nextFit, List.foldl_append]
  rfl

/-- One item: a new bin is opened only if the last one and the item exceed the capacity. -/
theorem Position.add_bound {pos : Position} {total : Nat}
    (h : pos.bin * cap + pos.fill ≤ 2 * total) (size : Nat) :
    (pos.add cap size).bin * cap + (pos.add cap size).fill ≤ 2 * (total + size) := by
  rcases Nat.lt_or_ge cap (pos.fill + size) with hlt | hle
  · rw [Position.add_of_lt hlt]
    dsimp only
    rw [Nat.succ_mul]
    omega
  · rw [Position.add_of_le hle]
    dsimp only
    omega

/-- **The bins are at least half full on the whole.** -/
theorem nextFit_bound (cap : Nat) (sizes : List Nat) :
    (nextFit cap sizes).bin * cap + (nextFit cap sizes).fill ≤ 2 * sizes.sum := by
  induction sizes using List.reverseRecOn with
  | nil => exact Nat.le_of_eq (by simp)
  | append_singleton sizes size ih =>
    rw [nextFit_concat, List.sum_append, List.sum_singleton]
    exact Position.add_bound ih size

theorem nextFit_bin_le (hcap : 0 < cap) (sizes : List Nat) :
    (nextFit cap sizes).bin ≤ 2 * sizes.sum / cap := by
  rw [Nat.le_div_iff_mul_le hcap]
  exact le_trans (Nat.le_add_right _ _) (nextFit_bound cap sizes)

end Foxtails.Lib.NextFit
