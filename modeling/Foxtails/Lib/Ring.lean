/-
  Ring buffers: `count` elements of a list, from position `head` on, round its end.

  `contents d data head count` is the sequence a ring holds. Its lemmas say what a ring does
  to that sequence, whatever `head` is:

  * `contents_push`, `contents_pop`: writing behind the last element appends, moving `head`
    drops the first.
  * `contents_set`: writing anywhere else changes nothing.
  * `contents_unroll`: the sequence copied to the start of a larger list is the same.
-/
import Mathlib.Data.List.Basic
import Mathlib.Data.List.GetD
import Mathlib.Tactic

namespace Foxtails.Lib.Ring

variable {α : Type}

/-- Position of element `i`. -/
def pos (cap head i : Nat) : Nat := (head + i) % cap

/-- The elements in order. `d` is the value of positions that do not exist. -/
def contents (d : α) (data : List α) (head count : Nat) : List α :=
  (List.range count).map fun i => data.getD (pos data.length head i) d

theorem pos_lt {cap : Nat} (h : 0 < cap) (head i : Nat) : pos cap head i < cap := Nat.mod_lt _ h

/-- Different elements have different positions. -/
theorem pos_inj {cap head i j : Nat} (hi : i < cap) (hj : j < cap)
    (h : pos cap head i = pos cap head j) : i = j := by
  unfold pos at h
  have hmod : i % cap = j % cap := Nat.ModEq.add_left_cancel' head h
  rwa [Nat.mod_eq_of_lt hi, Nat.mod_eq_of_lt hj] at hmod

theorem pos_succ (cap head i : Nat) : pos cap ((head + 1) % cap) i = pos cap head (i + 1) := by
  unfold pos
  rw [Nat.mod_add_mod, Nat.add_assoc, Nat.add_comm 1 i]

@[simp] theorem contents_length (d : α) (data : List α) (head count : Nat) :
    (contents d data head count).length = count := by simp [contents]

theorem getElem_contents (d : α) (data : List α) (head count i : Nat)
    (h : i < (contents d data head count).length) :
    (contents d data head count)[i] = data.getD (pos data.length head i) d := by
  simp [contents]

theorem contents_congr (d : α) {data data' : List α} (hlen : data'.length = data.length)
    {head count : Nat}
    (h : ∀ i < count, data'.getD (pos data.length head i) d = data.getD (pos data.length head i) d) :
    contents d data' head count = contents d data head count := by
  unfold contents
  rw [hlen]
  exact List.map_congr_left fun i hi => h i (List.mem_range.mp hi)

/-- Writing a position that holds no element changes nothing. -/
theorem contents_set (d : α) (data : List α) (head count j : Nat) (x : α)
    (h : ∀ i < count, pos data.length head i ≠ j) :
    contents d (data.set j x) head count = contents d data head count := by
  refine contents_congr d (List.length_set) fun i hi => ?_
  rw [List.getD_eq_getElem?_getD, List.getD_eq_getElem?_getD, List.getElem?_set_ne (h i hi).symm]

/-- Writing the position behind the last element appends. -/
theorem contents_push (d : α) (data : List α) (head count : Nat) (x : α)
    (h : count < data.length) :
    contents d (data.set (pos data.length head count) x) head (count + 1) =
      contents d data head count ++ [x] := by
  have hold := contents_set d data head count (pos data.length head count) x fun i hi heq => by
    have := pos_inj (by omega) h heq
    omega
  have hnew : (data.set (pos data.length head count) x).getD (pos data.length head count) d = x := by
    rw [List.getD_eq_getElem?_getD,
      List.getElem?_set_self (pos_lt (by omega) head count), Option.getD_some]
  rw [← hold]
  unfold contents
  rw [List.range_succ, List.map_append, List.map_singleton, List.length_set, hnew]

/-- The first element, and the ring without it. -/
theorem contents_pop (d : α) (data : List α) (head count : Nat) :
    contents d data head (count + 1) =
      data.getD (pos data.length head 0) d ::
        contents d data ((head + 1) % data.length) count := by
  unfold contents
  rw [List.range_succ_eq_map, List.map_cons, List.map_map]
  congr 1
  refine List.map_congr_left fun i _ => ?_
  rw [pos_succ]
  rfl

/-- The elements copied to the start of a list are a ring with `head` 0. -/
theorem contents_unroll (d : α) (xs rest : List α) :
    contents d (xs ++ rest) 0 xs.length = xs := by
  refine List.ext_getElem (contents_length _ _ _ _) fun i h1 h2 => ?_
  rw [getElem_contents, pos, Nat.zero_add,
    Nat.mod_eq_of_lt (by rw [List.length_append]; omega), List.getD_append _ _ _ _ h2,
    List.getD_eq_getElem _ _ h2]

end Foxtails.Lib.Ring
