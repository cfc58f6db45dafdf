/-
  Singly linked lists in a store.

  `Links next p l` says that from the pointer `p` the nodes `l` follow one another, up to the
  end. The store is only seen through `next`.

  * `Links.nodup`: a list that ends passes no node twice.
  * `Links.walk_eq`: a loop that follows the links visits these nodes.
  * `Links.relink`: writing the link of one node replaces what is behind it.
  * `behind_iff`: which nodes stand behind a node.
-/
import Mathlib.Data.List.Nodup
import Mathlib.Tactic

namespace Foxtails.Lib.Chain

variable {ι : Type}

/-- The nodes from `p` to the end of the list. -/
def Links (next : ι → Option ι) : Option ι → List ι → Prop
  | p, [] => p = none
  | p, a :: l => p = some a ∧ Links next (next a) l

/-- The nodes a loop visits that starts at `p` and follows the links; it makes at most `fuel`
    rounds. -/
def walk (next : ι → Option ι) : Nat → Option ι → List ι
  | 0, _ => []
  | _ + 1, none => []
  | fuel + 1, some a => a :: walk next fuel (next a)

variable {next next' : ι → Option ι} {p : Option ι} {l l' : List ι}

theorem Links.unique (h : Links next p l) (h' : Links next p l') : l = l' := by
  induction l generalizing p l' with
  | nil =>
    cases l' with
    | nil => rfl
    | cons b l' => exact absurd (h.symm.trans h'.1) (by simp)
  | cons a l ih =>
    cases l' with
    | nil => exact absurd (h'.symm.trans h.1) (by simp)
    | cons b l' =>
      obtain rfl : a = b := Option.some.inj (h.1.symm.trans h'.1)
      rw [ih h.2 h'.2]

/-- What follows a node of the list. -/
theorem Links.behind {a : ι} {xs ys : List ι} (h : Links next p (xs ++ a :: ys)) :
    Links next (next a) ys := by
  induction xs generalizing p with
  | nil => exact h.2
  | cons x xs ih => exact ih h.2

/-- From a node of the list. -/
theorem Links.at {a : ι} {xs ys : List ι} (h : Links next p (xs ++ a :: ys)) :
    Links next (some a) (a :: ys) := ⟨rfl, h.behind⟩

theorem Links.nodup (h : Links next p l) : l.Nodup := by
  induction l generalizing p with
  | nil => exact List.nodup_nil
  | cons a l ih =>
    refine List.nodup_cons.mpr ⟨fun hmem => ?_, ih h.2⟩
    -- Behind a second `a` the list would go on as behind the first, and not end.
    obtain ⟨xs, ys, rfl⟩ := List.append_of_mem hmem
    have hsame := congrArg List.length (h.2.unique h.2.behind)
    simp only [List.length_append, List.length_cons] at hsame
    omega

theorem Links.walk_eq (h : Links next p l) {fuel : Nat} (hfuel : l.length ≤ fuel) :
    walk next fuel p = l := by
  induction l generalizing p fuel with
  | nil =>
    obtain rfl : p = none := h
    cases fuel <;> rfl
  | cons a l ih =>
    obtain ⟨rfl, h⟩ := h
    cases fuel with
    | zero => exact absurd hfuel (by simp)
    | succ fuel => rw [walk, ih h (Nat.le_of_succ_le_succ hfuel)]

/-- **Writing the link of `a`**: the list goes on behind `a` as the new link says. -/
theorem Links.relink {a : ι} {xs ys zs : List ι} (h : Links next p (xs ++ a :: ys))
    (hfront : ∀ x ∈ xs, next' x = next x) (hback : Links next' (next' a) zs) :
    Links next' p (xs ++ a :: zs) := by
  induction xs generalizing p with
  | nil => exact ⟨h.1, hback⟩
  | cons x xs ih =>
    refine ⟨h.1, ?_⟩
    rw [hfront x List.mem_cons_self]
    exact ih h.2 fun y hy => hfront y (List.mem_cons_of_mem x hy)

/-- Only the links of the nodes themselves matter. -/
theorem Links.congr (h : Links next p l) (hnext : ∀ a ∈ l, next' a = next a) :
    Links next' p l := by
  induction l generalizing p with
  | nil => exact h
  | cons a l ih =>
    refine ⟨h.1, ?_⟩
    rw [hnext a List.mem_cons_self]
    exact ih h.2 fun b hb => hnext b (List.mem_cons_of_mem a hb)

theorem Links.nil_iff (h : Links next p l) : l = [] ↔ p = none := by
  cases l with
  | nil => exact ⟨fun _ => h, fun _ => rfl⟩
  | cons a l => simp [h.1]

/-- The end of the list. -/
theorem Links.next_last {a : ι} {xs : List ι} (h : Links next p (xs ++ [a])) : next a = none :=
  h.behind

/-- The next node, by positions. -/
theorem Links.next_getElem {a : ι} {i : Nat} (h : Links next p l) (ha : l[i]? = some a) :
    next a = l[i + 1]? := by
  induction l generalizing p i with
  | nil => simp at ha
  | cons b l ih =>
    obtain ⟨-, h⟩ := h
    cases i with
    | succ i => exact ih h (by simpa using ha)
    | zero =>
      obtain rfl : b = a := by simpa using ha
      cases l with
      | nil => exact h
      | cons c l => exact h.1

/-! ## Order -/

/-- `b` stands behind `a`. -/
def Behind (l : List ι) (a b : ι) : Prop := [a, b].Sublist l

theorem behind_iff {a b : ι} {pre post : List ι} (hnodup : (pre ++ a :: post).Nodup) :
    Behind (pre ++ a :: post) a b ↔ b ∈ post := by
  rw [Behind, List.cons_sublist_iff]
  constructor
  · rintro ⟨xs, ys, hsplit, ha, hb⟩
    obtain ⟨us, vs, rfl⟩ := List.append_of_mem ha
    rw [List.append_assoc, List.cons_append] at hsplit
    have hpre : a ∉ pre := fun hmem =>
      List.disjoint_of_nodup_append hnodup hmem List.mem_cons_self
    have hpost : a ∉ post := (List.nodup_cons.mp hnodup.of_append_right).1
    obtain ⟨-, -, rfl⟩ := (List.append_cons_inj_of_notMem hpre hpost).mp hsplit
    exact List.mem_append_right vs (List.singleton_sublist.mp hb)
  · exact fun hb => ⟨pre ++ [a], post, by simp, by simp, List.singleton_sublist.mpr hb⟩

theorem Behind.trans {a b c : ι} (hnodup : l.Nodup) (hab : Behind l a b) (hbc : Behind l b c) :
    Behind l a c := by
  obtain ⟨pre, post, rfl⟩ := List.append_of_mem (hab.subset List.mem_cons_self)
  have hb := (behind_iff hnodup).mp hab
  obtain ⟨us, vs, rfl⟩ := List.append_of_mem hb
  refine (behind_iff hnodup).mpr ?_
  have hassoc : pre ++ a :: (us ++ b :: vs) = (pre ++ a :: us) ++ b :: vs := by simp
  rw [hassoc] at hnodup hbc
  have hc := (behind_iff hnodup).mp hbc
  exact List.mem_append_right us (List.mem_cons_of_mem b hc)

theorem Behind.ne {a b : ι} (hnodup : l.Nodup) (h : Behind l a b) : a ≠ b := by
  have hpair := List.Nodup.sublist h hnodup
  simpa using hpair

theorem Behind.mono {a b : ι} (h : Behind l a b) (hl : l <+: l') : Behind l' a b :=
  List.Sublist.trans h hl.sublist

theorem behind_concat {a : ι} (ha : a ∈ l) (b : ι) : Behind (l ++ [b]) a b :=
  List.Sublist.append (List.singleton_sublist.mpr ha) (List.Sublist.refl [b])

/-- The next node stands behind. -/
theorem Links.behind_next {a b : ι} (h : Links next p l) (ha : a ∈ l) (hb : next a = some b) :
    Behind l a b := by
  obtain ⟨pre, post, rfl⟩ := List.append_of_mem ha
  refine (behind_iff h.nodup).mpr ?_
  cases post with
  | nil => exact absurd (hb.symm.trans h.behind) (by simp)
  | cons c post =>
    obtain rfl : b = c := Option.some.inj (hb.symm.trans h.behind.1)
    exact List.mem_cons_self

/-- The node without a next one is the last. -/
theorem Links.getLast_of_next_none {a : ι} (h : Links next p l) (ha : a ∈ l)
    (hnone : next a = none) : l.getLast? = some a := by
  obtain ⟨pre, post, rfl⟩ := List.append_of_mem ha
  have hbehind := h.behind
  rw [hnone] at hbehind
  obtain rfl : post = [] := hbehind.nil_iff.mpr rfl
  exact List.getLast?_concat

end Foxtails.Lib.Chain
