/-
  Scanning lists: first occurrence of a pattern, splitting at a delimiter.

  `find pat xs` is the offset of the first occurrence of `pat` in `xs`. `find_eq_some_iff`
  is its specification; `find_append` moves it across a prefix that holds no occurrence.
  `split d xs` cuts `xs` at every `d` (always one piece more than there are `d`s), and
  `tokens d xs` keeps the non-empty pieces. `upto d xs` is the part before the first `d`.

  Nothing here is about a particular alphabet.
-/
import Mathlib.Data.List.Basic
import Mathlib.Data.List.Infix
import Mathlib.Data.List.TakeWhile
import Mathlib.Tactic

namespace Foxtails.Lib.Scan

variable {α : Type} [DecidableEq α]

/-! ## First occurrence -/

/-- Offset of the first occurrence of `pat` in a list. -/
def find (pat : List α) : List α → Option Nat
  | [] => if pat = [] then some 0 else none
  | x :: xs => if pat.isPrefixOf (x :: xs) then some 0 else (find pat xs).map (· + 1)

theorem find_cons_pos {pat : List α} {x : α} {xs : List α} (h : pat <+: x :: xs) :
    find pat (x :: xs) = some 0 := by
  rw [find, if_pos (List.isPrefixOf_iff_prefix.mpr h)]

theorem find_cons_neg {pat : List α} {x : α} {xs : List α} (h : ¬ pat <+: x :: xs) :
    find pat (x :: xs) = (find pat xs).map (· + 1) := by
  rw [find, if_neg (fun hp => h (List.isPrefixOf_iff_prefix.mp hp))]

/-- `find` returns `i` exactly when `pat` starts at `i` and nowhere before. -/
theorem find_eq_some_iff (pat xs : List α) (i : Nat) :
    find pat xs = some i ↔
      i ≤ xs.length ∧ pat <+: xs.drop i ∧ ∀ j < i, ¬ pat <+: xs.drop j := by
  induction xs generalizing i with
  | nil =>
    by_cases hp : pat = []
    · subst hp
      simp only [find, if_true, Option.some.injEq, List.length_nil, Nat.le_zero]
      constructor
      · rintro rfl; simp
      · exact fun h => h.1.symm
    · simp [find, hp]
  | cons x xs ih =>
    by_cases hp : pat <+: x :: xs
    · rw [find_cons_pos hp]
      constructor
      · rintro h
        obtain rfl : 0 = i := Option.some.inj h
        simp [hp]
      · rintro ⟨-, -, hno⟩
        rcases Nat.eq_zero_or_pos i with rfl | hi
        · rfl
        · exact absurd hp (hno 0 hi)
    · rw [find_cons_neg hp]
      cases i with
      | zero => simp [hp]
      | succ i =>
        simp only [Option.map_eq_some_iff, Nat.add_right_cancel_iff, exists_eq_right, ih,
          List.length_cons, List.drop_succ_cons, Nat.add_le_add_iff_right]
        refine and_congr_right fun _ => and_congr_right fun _ => ?_
        constructor
        · intro h j hj
          cases j with
          | zero => simpa using hp
          | succ j => simpa using h j (by omega)
        · intro h j hj
          simpa using h (j + 1) (by omega)

theorem find_le {pat xs : List α} {i : Nat} (h : find pat xs = some i) : i ≤ xs.length :=
  ((find_eq_some_iff pat xs i).mp h).1

theorem find_isPrefix {pat xs : List α} {i : Nat} (h : find pat xs = some i) : pat <+: xs.drop i :=
  ((find_eq_some_iff pat xs i).mp h).2.1

theorem find_first {pat xs : List α} {i j : Nat} (h : find pat xs = some i)
    (hj : pat <+: xs.drop j) : i ≤ j := by
  by_contra hlt
  exact ((find_eq_some_iff pat xs i).mp h).2.2 j (by omega) hj

/-- The pattern found at `i` ends inside the list. -/
theorem find_add_length_le {pat xs : List α} {i : Nat} (h : find pat xs = some i) :
    i + pat.length ≤ xs.length := by
  have hl := (find_isPrefix h).length_le
  have hi := find_le h
  rw [List.length_drop] at hl
  omega

theorem find_eq_none_iff (pat xs : List α) :
    find pat xs = none ↔ ∀ j ≤ xs.length, ¬ pat <+: xs.drop j := by
  induction xs with
  | nil => by_cases hp : pat = [] <;> simp [find, hp]
  | cons x xs ih =>
    by_cases hp : pat <+: x :: xs
    · rw [find_cons_pos hp]
      simp only [reduceCtorEq, false_iff, not_forall, not_not]
      exact ⟨0, Nat.zero_le _, by simpa using hp⟩
    · rw [find_cons_neg hp, Option.map_eq_none_iff, ih]
      constructor
      · intro h j hj
        cases j with
        | zero => simpa using hp
        | succ j => simpa using h j (by simpa using hj)
      · intro h j hj
        simpa using h (j + 1) (by simpa using hj)

/-- What follows does not move the first occurrence. -/
theorem find_append_left {pat xs : List α} {i : Nat} (ys : List α) (h : find pat xs = some i) :
    find pat (xs ++ ys) = some i := by
  have hlen := find_add_length_le h
  obtain ⟨hi, hp, hno⟩ := (find_eq_some_iff pat xs i).mp h
  rw [find_eq_some_iff]
  refine ⟨by rw [List.length_append]; omega, ?_, fun j hj hpj => hno j hj ?_⟩
  · rw [List.drop_append_of_le_length hi]
    exact hp.trans (List.prefix_append _ _)
  · rw [List.drop_append_of_le_length (by omega)] at hpj
    exact List.prefix_of_prefix_length_le hpj (List.prefix_append _ _)
      (by rw [List.length_drop]; omega)

/-- Before the whole of the first occurrence there is none. -/
theorem find_eq_none_of_isPrefix {pat xs ys : List α} {i : Nat} (h : find pat ys = some i)
    (hpre : xs <+: ys) (hlen : xs.length < i + pat.length) : find pat xs = none := by
  obtain ⟨t, rfl⟩ := hpre
  cases hx : find pat xs with
  | none => rfl
  | some j =>
    have hj := find_add_length_le hx
    rw [find_append_left t hx] at h
    obtain rfl := Option.some.inj h
    omega

/-- A prefix in which no occurrence starts only shifts the first occurrence. -/
theorem find_append {pat : List α} (xs ys : List α)
    (h : ∀ j < xs.length, ¬ pat <+: (xs ++ ys).drop j) :
    find pat (xs ++ ys) = (find pat ys).map (xs.length + ·) := by
  induction xs with
  | nil => simp
  | cons x xs ih =>
    have h0 : ¬ pat <+: x :: (xs ++ ys) := by simpa using h 0 (by simp)
    rw [List.cons_append, find_cons_neg h0,
      ih fun j hj => by simpa using h (j + 1) (by simpa using hj), Option.map_map]
    congr 1
    funext n
    simp only [Function.comp, List.length_cons]
    omega

/-- The same, when the first element of `pat` does not occur in the prefix. -/
theorem find_append_of_not_mem {p : α} {pat : List α} (xs ys : List α) (h : p ∉ xs) :
    find (p :: pat) (xs ++ ys) = (find (p :: pat) ys).map (xs.length + ·) := by
  refine find_append xs ys fun j hj hp => h ?_
  rw [List.drop_append_of_le_length (Nat.le_of_lt hj), List.drop_eq_getElem_cons hj,
    List.cons_append, List.cons_prefix_cons] at hp
  exact hp.1 ▸ List.getElem_mem hj

theorem find_singleton_append (x : α) (xs ys : List α) (h : x ∉ xs) :
    find [x] (xs ++ x :: ys) = some xs.length := by
  rw [find_append_of_not_mem xs _ h, find_cons_pos (by simp)]
  rfl

theorem find_singleton_eq_none {x : α} {xs : List α} : find [x] xs = none ↔ x ∉ xs := by
  induction xs with
  | nil => simp [find]
  | cons y ys ih =>
    by_cases hxy : x = y
    · subst hxy
      have h0 : find [x] (x :: ys) = some 0 := find_cons_pos (by simp)
      simp [h0]
    · rw [find_cons_neg (by simpa using hxy), Option.map_eq_none_iff, ih]
      simp [hxy]

/-- What lies before the first `x`, `x` itself, and the rest. -/
theorem find_singleton_eq_some {x : α} {xs : List α} {i : Nat} (h : find [x] xs = some i) :
    x ∉ xs.take i ∧ xs = xs.take i ++ x :: xs.drop (i + 1) ∧ i < xs.length := by
  have hlt := find_add_length_le h
  simp only [List.length_singleton] at hlt
  have hi : i < xs.length := by omega
  have hget : xs[i] = x := by
    have := find_isPrefix h
    rw [List.drop_eq_getElem_cons hi, List.cons_prefix_cons] at this
    exact this.1.symm
  refine ⟨fun hm => ?_, ?_, hi⟩
  · obtain ⟨j, hj, hjx⟩ := List.mem_take_iff_getElem.mp hm
    have : [x] <+: xs.drop j := by
      rw [List.drop_eq_getElem_cons (by omega), hjx]
      simp
    have := find_first h this
    omega
  · conv_lhs => rw [← List.take_append_drop i xs, List.drop_eq_getElem_cons (by omega), hget]

/-- A list is cut at its first `x` in one way. -/
theorem cut_unique {x : α} {as as' bs bs' : List α} (h : x ∉ as) (h' : x ∉ as')
    (heq : as ++ x :: bs = as' ++ x :: bs') : as = as' ∧ bs = bs' := by
  have hlen : as.length = as'.length := by
    have hfind := find_singleton_append x as bs h
    rw [heq, find_singleton_append x as' bs' h'] at hfind
    exact (Option.some.inj hfind).symm
  obtain ⟨has, hbs⟩ := List.append_inj heq hlen
  exact ⟨has, (List.cons.inj hbs).2⟩

/-! ## The part before a delimiter -/

/-- The elements before the first `d`. -/
def upto (d : α) (xs : List α) : List α := xs.takeWhile (· ≠ d)

theorem upto_isPrefix (d : α) (xs : List α) : upto d xs <+: xs := List.takeWhile_prefix _

theorem upto_of_not_mem {d : α} {xs : List α} (h : d ∉ xs) : upto d xs = xs := by
  unfold upto
  rw [List.takeWhile_eq_self_iff]
  intro x hx
  simpa using fun he : x = d => h (he ▸ hx)

/-- What follows a delimiter does not matter. -/
theorem upto_append_of_mem {d : α} {xs : List α} (ys : List α) (h : d ∈ xs) :
    upto d (xs ++ ys) = upto d xs := by
  unfold upto
  rw [List.takeWhile_append, if_neg]
  intro hlen
  have hall := List.takeWhile_eq_self_iff.mp
    ((List.takeWhile_prefix (fun x => decide (x ≠ d))).eq_of_length hlen)
  simpa using hall d h

theorem not_mem_upto (d : α) (xs : List α) : d ∉ upto d xs := by
  intro h
  simpa using List.mem_takeWhile_imp h

/-! ## Splitting at a delimiter -/

/-- The pieces of a list between the occurrences of `d`. -/
def split (d : α) : List α → List (List α)
  | [] => [[]]
  | x :: xs => if x = d then [] :: split d xs else (split d xs).modifyHead (x :: ·)

/-- The non-empty pieces. -/
def tokens (d : α) (xs : List α) : List (List α) := (split d xs).filter (· ≠ [])

theorem split_ne_nil (d : α) (xs : List α) : split d xs ≠ [] := by
  induction xs with
  | nil => simp [split]
  | cons x xs ih =>
    rw [split]
    split_ifs
    · simp
    · simpa [List.modifyHead_eq_nil_iff] using ih

theorem split_of_not_mem {d : α} {xs : List α} (h : d ∉ xs) : split d xs = [xs] := by
  induction xs with
  | nil => rfl
  | cons x xs ih =>
    rw [List.mem_cons, not_or] at h
    rw [split, if_neg (fun hx => h.1 hx.symm), ih h.2]
    rfl

theorem split_append_cons {d : α} (xs ys : List α) (h : d ∉ xs) :
    split d (xs ++ d :: ys) = xs :: split d ys := by
  induction xs with
  | nil => simp [split]
  | cons x xs ih =>
    rw [List.mem_cons, not_or] at h
    rw [List.cons_append, split, if_neg (fun hx => h.1 hx.symm), ih h.2]
    rfl

/-- Pieces terminated by `d`, and a last one that is not. -/
theorem split_flatten (d : α) (ls : List (List α)) (last : List α)
    (h : ∀ l ∈ ls, d ∉ l) (hlast : d ∉ last) :
    split d ((ls.map (· ++ [d])).flatten ++ last) = ls ++ [last] := by
  induction ls with
  | nil => simp [split_of_not_mem hlast]
  | cons l ls ih =>
    have ih' := ih fun l' hl' => h l' (List.mem_cons_of_mem _ hl')
    simp only [List.map_cons, List.flatten_cons, List.append_assoc, List.cons_append]
    rw [split_append_cons _ _ (h l List.mem_cons_self), List.nil_append, ih']

theorem not_mem_of_mem_split {d : α} {xs l : List α} (h : l ∈ split d xs) : d ∉ l := by
  induction xs generalizing l with
  | nil => simp only [split, List.mem_singleton] at h; simp [h]
  | cons x xs ih =>
    rw [split] at h
    split_ifs at h with hx
    · rcases List.mem_cons.mp h with rfl | h
      · simp
      · exact ih h
    · cases hs : split d xs with
      | nil => exact absurd hs (split_ne_nil d xs)
      | cons p ps =>
        rw [hs, List.modifyHead_cons] at h
        rcases List.mem_cons.mp h with rfl | h
        · have hp : d ∉ p := ih (by rw [hs]; exact List.mem_cons_self)
          simp [hp, Ne.symm hx]
        · exact ih (by rw [hs]; exact List.mem_cons_of_mem _ h)

/-- The pieces of a prefix are prefixes of the pieces. -/
theorem exists_prefix_of_mem_split {d : α} {xs ys l : List α} (h : ys <+: xs)
    (hl : l ∈ split d ys) : ∃ p ∈ split d xs, l <+: p := by
  -- The first piece is open at its end, so it is carried apart from the others.
  have key : ∀ (ys xs : List α), ys <+: xs → ∃ p ps q qs, split d ys = p :: ps ∧
      split d xs = q :: qs ∧ p <+: q ∧ ∀ l ∈ ps, ∃ r ∈ qs, l <+: r := by
    intro ys
    induction ys with
    | nil =>
      intro xs _
      obtain ⟨q, qs, hq⟩ := List.exists_cons_of_ne_nil (split_ne_nil d xs)
      exact ⟨[], [], q, qs, rfl, hq, List.nil_prefix, by simp⟩
    | cons y ys ih =>
      rintro xs ⟨t, rfl⟩
      obtain ⟨p, ps, q, qs, hp, hq, hpq, hall⟩ := ih (ys ++ t) (List.prefix_append ys t)
      rw [List.cons_append, split, split, hp, hq]
      split_ifs with hy
      · refine ⟨[], _, [], _, rfl, rfl, List.prefix_rfl, fun l hl => ?_⟩
        rcases List.mem_cons.mp hl with rfl | hl
        · exact ⟨q, List.mem_cons_self, hpq⟩
        · obtain ⟨r, hr, hlr⟩ := hall l hl
          exact ⟨r, List.mem_cons_of_mem _ hr, hlr⟩
      · exact ⟨y :: p, ps, y :: q, qs, rfl, rfl, by simpa using hpq, hall⟩
  obtain ⟨p, ps, q, qs, hp, hq, hpq, hall⟩ := key ys xs h
  rw [hp] at hl
  rw [hq]
  rcases List.mem_cons.mp hl with rfl | hl
  · exact ⟨q, List.mem_cons_self, hpq⟩
  · obtain ⟨r, hr, hlr⟩ := hall l hl
    exact ⟨r, List.mem_cons_of_mem _ hr, hlr⟩

theorem mem_tokens {d : α} {xs l : List α} : l ∈ tokens d xs ↔ l ∈ split d xs ∧ l ≠ [] := by
  simp [tokens]

/-- Every element of the list other than `d` is in some token. -/
theorem mem_iff_mem_tokens {d x : α} (hx : x ≠ d) (xs : List α) :
    x ∈ xs ↔ ∃ l ∈ tokens d xs, x ∈ l := by
  have key : x ∈ xs ↔ ∃ l ∈ split d xs, x ∈ l := by
    induction xs with
    | nil => simp [split]
    | cons y ys ih =>
      rw [split]
      split_ifs with hy
      · simp [ih, hy, hx]
      · cases hs : split d ys with
        | nil => exact absurd hs (split_ne_nil d ys)
        | cons p ps =>
          rw [hs] at ih
          simp only [List.mem_cons, ih, List.modifyHead_cons, exists_eq_or_imp, or_assoc]
  rw [key]
  constructor
  · rintro ⟨l, hl, hxl⟩
    exact ⟨l, mem_tokens.mpr ⟨hl, List.ne_nil_of_mem hxl⟩, hxl⟩
  · rintro ⟨l, hl, hxl⟩
    exact ⟨l, (mem_tokens.mp hl).1, hxl⟩

/-! ## Two tests -/

omit [DecidableEq α] in
/-- Where `p` passes what `q` passes, both pass first at one place exactly when nothing that
    `p` alone passes comes before. -/
theorem findIdx?_eq_iff {p q : α → Bool} (hqp : ∀ x, q x = true → p x = true) (xs : List α) :
    xs.findIdx? p = xs.findIdx? q ↔
      ∀ pre x post, xs = pre ++ x :: post → p x = true → q x = false → ∃ y ∈ pre, q y = true := by
  induction xs with
  | nil => simp
  | cons a xs ih =>
    rw [List.findIdx?_cons, List.findIdx?_cons]
    cases hq : q a with
    | true =>
      rw [if_pos (hqp a hq), if_pos rfl]
      refine iff_of_true rfl fun pre x post heq _ hx => ?_
      cases pre with
      | nil =>
        obtain ⟨rfl, -⟩ := List.cons.inj heq
        rw [hq] at hx
        cases hx
      | cons b pre =>
        obtain ⟨rfl, -⟩ := List.cons.inj heq
        exact ⟨a, List.mem_cons_self, hq⟩
    | false =>
      rw [if_neg Bool.false_ne_true]
      cases hp : p a with
      | true =>
        rw [if_pos rfl]
        refine iff_of_false (fun h => ?_) fun h => ?_
        · obtain ⟨n, -, hn⟩ := Option.map_eq_some_iff.mp h.symm
          omega
        · obtain ⟨y, hy, -⟩ := h [] a xs rfl hp hq
          cases hy
      | false =>
        rw [if_neg Bool.false_ne_true, (Option.map_injective Nat.succ_injective).eq_iff, ih]
        constructor
        · intro h pre x post heq hpx hqx
          cases pre with
          | nil =>
            obtain ⟨rfl, -⟩ := List.cons.inj heq
            rw [hp] at hpx
            cases hpx
          | cons b pre =>
            obtain ⟨rfl, rfl⟩ := List.cons.inj heq
            obtain ⟨y, hy, hqy⟩ := h pre x post rfl hpx hqx
            exact ⟨y, List.mem_cons_of_mem _ hy, hqy⟩
        · intro h pre x post heq hpx hqx
          obtain ⟨y, hy, hqy⟩ := h (a :: pre) x post (by rw [heq]; rfl) hpx hqx
          rcases List.mem_cons.mp hy with rfl | hy
          · rw [hq] at hqy
            cases hqy
          · exact ⟨y, hy, hqy⟩

end Foxtails.Lib.Scan
