/-
  Reads of an object of known size.

  A pointer into an object is an offset, or the bytes from it to the object's end. Every
  function here is the C operation with its bounds: it is `none` where a byte outside the object
  would be read, or where a difference of two `size_t` would be negative.

  * `sub`, `byte`, `bytes`, `memchr`, `memmem`: differences, accesses and searches.
  * `readStr`, `printStr`, `skip`: `strnlen` and the copy it measures, `%.*s`, and a loop that
    passes over white space.
  * `castInt`, `castSize`, `wrapSub`: the conversions between `size_t` and `int`, and the
    difference of two `size_t` where it may wrap.

  `memchr_eq`, `memmem_eq`, `bytes_eq`, `readStr_of_le`, `skip_eq_some_iff`: what they return
  inside; `readStr_append`, `skip_append`: where the object goes on.
-/
import Foxtails.Lib.Libc

namespace Foxtails.Lib.Object

open Foxtails.Lib.Scan Foxtails.Lib.Libc

/-! ## Conversions -/

/-- `(int) n` for a `size_t`: the low 32 bits as a signed number. -/
def castInt (n : Nat) : Int := Int.bmod n (2 ^ 32)

/-- `(size_t) i`. -/
def castSize (i : Int) : Nat := (i % (2 ^ 64 : Int)).toNat

theorem castInt_of_lt {n : Nat} (h : n < 2 ^ 31) : castInt n = n :=
  Int.bmod_eq_of_le (by omega) (by omega)

theorem castInt_bounds (n : Nat) : -2 ^ 31 ≤ castInt n ∧ castInt n < 2 ^ 31 := by
  have hlo := Int.le_bmod (x := (n : Int)) (m := 2 ^ 32) (by decide)
  have hhi := Int.bmod_lt (x := (n : Int)) (m := 2 ^ 32) (by decide)
  unfold castInt
  omega

/-- A length that is not negative as an `int` is not longer for it. -/
theorem castInt_le {n : Nat} (h : 0 ≤ castInt n) : castInt n ≤ n := by
  unfold castInt at h ⊢
  rw [Int.bmod_def] at h ⊢
  omega

theorem castSize_of_nonneg {i : Int} (h : 0 ≤ i) (hlt : i < 2 ^ 31) : castSize i = i.toNat := by
  unfold castSize
  omega

/-- A negative `int` is a huge `size_t`. -/
theorem castSize_of_neg {i : Int} (h : i < 0) (hge : -2 ^ 31 ≤ i) : 2 ^ 63 ≤ castSize i := by
  unfold castSize
  omega

/-! ## Differences, accesses, searches -/

/-- `a - b`. -/
def sub (a b : Nat) : Option Nat := if b ≤ a then some (a - b) else none

theorem sub_eq {a b : Nat} (h : b ≤ a) : sub a b = some (a - b) := if_pos h

/-- `a - b` as a `size_t`: a negative difference wraps. -/
def wrapSub (a b : Nat) : Nat := (a + (SIZE - b % SIZE)) % SIZE

theorem wrapSub_of_le {a b : Nat} (h : b ≤ a) (hlt : a < SIZE) : wrapSub a b = a - b := by
  unfold wrapSub
  simp only [SIZE] at hlt ⊢
  omega

/-- A difference that wraps is huge. -/
theorem wrapSub_of_lt {a b : Nat} (h : a < b) (hlt : b < 2 ^ 63) : 2 ^ 63 < wrapSub a b := by
  unfold wrapSub
  simp only [SIZE]
  omega

/-- `obj[i]`. -/
def byte (obj : Bytes) (i : Nat) : Option Byte := obj[i]?

/-- The `n` bytes from `off` on. -/
def bytes (obj : Bytes) (off n : Nat) : Option Bytes :=
  if off + n ≤ obj.length then some ((obj.drop off).take n) else none

theorem bytes_eq {obj : Bytes} {off n : Nat} (h : off + n ≤ obj.length) :
    bytes obj off n = some ((obj.drop off).take n) := if_pos h

/-- `memchr(obj + off, c, n)`. -/
def memchr (obj : Bytes) (off : Nat) (c : Byte) (n : Nat) : Option (Option Nat) :=
  (bytes obj off n).map fun _ => Libc.memchr obj off c n

theorem memchr_eq {obj : Bytes} {off n : Nat} (c : Byte) (h : off + n ≤ obj.length) :
    memchr obj off c n = some (Libc.memchr obj off c n) := by
  rw [memchr, bytes_eq h]
  rfl

/-- `memmem(obj + off, n, pat, |pat|)`. -/
def memmem (obj : Bytes) (off n : Nat) (pat : Bytes) : Option (Option Nat) :=
  (bytes obj off n).map fun _ => Libc.memmem obj off n pat

theorem memmem_eq {obj : Bytes} {off n : Nat} (pat : Bytes) (h : off + n ≤ obj.length) :
    memmem obj off n pat = some (Libc.memmem obj off n pat) := by
  rw [memmem, bytes_eq h]
  rfl

/-- What `memchr` finds lies in the range it searches. -/
theorem memchr_bounds {obj : Bytes} {off n i : Nat} {c : Byte}
    (h : Libc.memchr obj off c n = some i) : off ≤ i ∧ i < off + n ∧ i < obj.length := by
  unfold Libc.memchr at h
  obtain ⟨k, hk, rfl⟩ := Option.map_eq_some_iff.mp h
  have hlt := find_add_length_le hk
  rw [List.length_take, List.length_drop, List.length_singleton] at hlt
  omega

/-- What `memmem` finds lies wholly in the range it searches. -/
theorem memmem_bounds {obj pat : Bytes} {off n i : Nat}
    (h : Libc.memmem obj off n pat = some i) :
    off ≤ i ∧ i + pat.length ≤ off + n ∧ (off ≤ obj.length → i + pat.length ≤ obj.length) := by
  unfold Libc.memmem at h
  obtain ⟨k, hk, rfl⟩ := Option.map_eq_some_iff.mp h
  have hle := find_add_length_le hk
  rw [List.length_take, List.length_drop] at hle
  omega

/-! ## Strings inside an object -/

/-- The string of at most `n` bytes at the start of `obj`. -/
def readStr (obj : Bytes) (n : Nat) : Option Bytes :=
  if n ≤ obj.length ∨ NUL ∈ obj then some (strndup obj n) else none

theorem readStr_of_le {obj : Bytes} {n : Nat} (h : n ≤ obj.length) :
    readStr obj n = some (strndup obj n) := if_pos (.inl h)

theorem readStr_of_mem {obj : Bytes} (n : Nat) (h : NUL ∈ obj) :
    readStr obj n = some (strndup obj n) := if_pos (.inr h)

/-- As many bytes as a string at the start of the object has. -/
theorem readStr_of_isPrefix {obj str : Bytes} (h : str <+: obj) (hnul : NUL ∉ str) :
    readStr obj str.length = some str := by
  obtain ⟨t, rfl⟩ := h
  rw [readStr_of_le (by rw [List.length_append]; omega), strndup, List.take_left,
    upto_of_not_mem hnul]

theorem readStr_eq_upto {obj str : Bytes} {n : Nat} (h : readStr obj n = some str) :
    str = upto NUL (obj.take n) := by
  unfold readStr at h
  split_ifs at h
  · exact (Option.some.inj h).symm

/-- What is read is a string, ... -/
theorem not_mem_of_readStr {obj str : Bytes} {n : Nat} (h : readStr obj n = some str) :
    NUL ∉ str := by
  rw [readStr_eq_upto h]
  exact not_mem_upto NUL _

/-- ... the first bytes of the object. -/
theorem isPrefix_of_readStr {obj str : Bytes} {n : Nat} (h : readStr obj n = some str) :
    str <+: obj := by
  rw [readStr_eq_upto h]
  exact (upto_isPrefix NUL _).trans (List.take_prefix n obj)

/-- All of `xs` is read, and nothing else, exactly where the bound is its length. -/
theorem readStr_eq_iff {xs ys : Bytes} {c : Byte} {n : Nat} (hc : c ≠ NUL) :
    readStr (xs ++ c :: ys) n = some xs ↔ n = xs.length ∧ NUL ∉ xs := by
  constructor
  · intro h
    have hnul : NUL ∉ xs := not_mem_of_readStr h
    refine ⟨?_, hnul⟩
    unfold readStr at h
    split_ifs at h
    · have hstr : upto NUL ((xs ++ c :: ys).take n) = xs := Option.some.inj h
      rcases Nat.lt_trichotomy n xs.length with hlt | heq | hgt
      · have hle := (upto_isPrefix NUL ((xs ++ c :: ys).take n)).length_le
        rw [hstr, List.length_take] at hle
        omega
      · exact heq
      · -- `c` is among the bytes that are read, and the string goes on with it
        obtain ⟨k, hk⟩ : ∃ k, n = xs.length + (k + 1) := ⟨n - xs.length - 1, by omega⟩
        rw [hk, List.take_length_add_append, List.take_succ_cons, upto,
          List.takeWhile_append_of_pos, List.takeWhile_cons_of_pos] at hstr
        · have hlen := congrArg List.length hstr
          rw [List.length_append, List.length_cons] at hlen
          omega
        · simpa using hc
        · intro b hb
          simpa using fun he : b = NUL => hnul (he ▸ hb)
  · rintro ⟨rfl, hnul⟩
    rw [readStr_of_le (by rw [List.length_append]; omega), strndup, List.take_left,
      upto_of_not_mem hnul]

/-- A string that is in the object is there where the object goes on. -/
theorem readStr_append {obj str : Bytes} {n : Nat} (h : readStr obj n = some str) (ys : Bytes) :
    readStr (obj ++ ys) n = some str := by
  by_cases hn : n ≤ obj.length
  · rw [readStr_of_le hn] at h
    have hle : n ≤ (obj ++ ys).length := by
      rw [List.length_append]
      omega
    rw [readStr_of_le hle, ← h, strndup, strndup, List.take_append_of_le_length hn]
  · unfold readStr at h
    split at h
    · rename_i hnul
      replace hnul := hnul.resolve_left hn
      have hlong : obj.length ≤ n := by omega
      rw [readStr_of_mem n (List.mem_append_left ys hnul), ← h, strndup, strndup,
        List.take_of_length_le hlong, List.take_append, List.take_of_length_le hlong,
        upto_append_of_mem _ hnul]
    · cases h

/-- `%.*s`: a negative precision counts as none, and the whole string is read. -/
def printStr (obj : Bytes) (precision : Int) : Option Bytes :=
  if 0 ≤ precision then readStr obj precision.toNat
  else if NUL ∈ obj then some (upto NUL obj) else none

/-- Printing as many bytes as an `int` makes of a length inside the object reads behind the
    object exactly when the `int` is negative and no NUL follows. -/
theorem printStr_isSome_iff {obj : Bytes} {n : Nat} (h : n ≤ obj.length) :
    (printStr obj (castInt n)).isSome = true ↔ 0 ≤ castInt n ∨ NUL ∈ obj := by
  unfold printStr
  by_cases hneg : 0 ≤ castInt n
  · have hle := castInt_le hneg
    rw [if_pos hneg, readStr_of_le (by omega)]
    simp [hneg]
  · rw [if_neg hneg]
    by_cases hnul : NUL ∈ obj <;> simp [hnul, hneg]

/-- `while (p(*s)) s++` from the start of `obj`: how many bytes are passed over. -/
def skip (p : Byte → Bool) (obj : Bytes) : Option Nat := obj.findIdx? fun b => !p b

/-- The loop stops at the first byte it does not pass over, wherever that is. -/
theorem skip_eq_some_iff {p : Byte → Bool} {obj : Bytes} {n : Nat} :
    skip p obj = some n ↔ (∃ b ∈ obj, p b = false) ∧ n = (obj.takeWhile p).length := by
  unfold skip
  induction obj generalizing n with
  | nil => simp
  | cons b obj ih =>
    rw [List.findIdx?_cons, List.takeWhile_cons]
    cases hb : p b with
    | false =>
      rw [Bool.not_false, if_pos rfl, if_neg Bool.false_ne_true]
      constructor
      · intro h
        exact ⟨⟨b, List.mem_cons_self, hb⟩, (Option.some.inj h).symm⟩
      · rintro ⟨-, rfl⟩
        rfl
    | true =>
      simp only [Bool.not_true, Bool.false_eq_true, if_false, Option.map_eq_some_iff, ih,
        if_true, List.length_cons, List.exists_mem_cons_iff, hb, Bool.true_eq_false, false_or]
      constructor
      · rintro ⟨k, ⟨hex, rfl⟩, rfl⟩
        exact ⟨hex, rfl⟩
      · rintro ⟨hex, rfl⟩
        exact ⟨_, ⟨hex, rfl⟩, rfl⟩

theorem skip_eq_none_iff {p : Byte → Bool} {obj : Bytes} :
    skip p obj = none ↔ ∀ b ∈ obj, p b = true := by
  simp [skip]

/-- Either the loop stops at some byte, or it passes over all of them. -/
theorem all_of_not_exists {p : Byte → Bool} {obj : Bytes} (h : ¬ ∃ b ∈ obj, p b = false) :
    ∀ b ∈ obj, p b = true := by
  intro b hb
  by_contra hp
  exact h ⟨b, hb, Bool.eq_false_iff.mpr hp⟩

theorem exists_of_dropWhile {p : Byte → Bool} {obj xs : Bytes} {b : Byte}
    (h : obj.dropWhile p = b :: xs) : ∃ x ∈ obj, p x = false := by
  by_contra hall
  rw [List.dropWhile_eq_nil_iff.mpr (all_of_not_exists hall)] at h
  cases h

theorem skip_lt {p : Byte → Bool} {obj : Bytes} {n : Nat} (h : skip p obj = some n) :
    n < obj.length := by
  obtain ⟨hn, -⟩ := List.findIdx?_eq_some_iff_getElem.mp h
  exact hn

/-- The loop does not begin. -/
theorem skip_eq_zero_iff {p : Byte → Bool} {obj : Bytes} :
    skip p obj = some 0 ↔ ∃ b, obj[0]? = some b ∧ p b = false := by
  cases obj with
  | nil => simp [skip]
  | cons b obj => simp [skip, List.findIdx?_cons]

/-- A loop that stops does so where the object goes on. -/
theorem skip_append {p : Byte → Bool} {obj : Bytes} {n : Nat} (h : skip p obj = some n)
    (ys : Bytes) : skip p (obj ++ ys) = some n := by
  unfold skip at h ⊢
  rw [List.findIdx?_append, h, Option.some_or]

/-- The loop stops in the first part, ... -/
theorem skip_append_of_exists {p : Byte → Bool} {xs : Bytes} (ys : Bytes)
    (h : ∃ b ∈ xs, p b = false) : skip p (xs ++ ys) = skip p xs := by
  have hsome : skip p xs = some (xs.takeWhile p).length := skip_eq_some_iff.mpr ⟨h, rfl⟩
  unfold skip at hsome ⊢
  rw [List.findIdx?_append, hsome, Option.some_or]

/-- ... or passes over all of it. -/
theorem skip_append_of_forall {p : Byte → Bool} {xs : Bytes} (ys : Bytes)
    (h : ∀ b ∈ xs, p b = true) : skip p (xs ++ ys) = (skip p ys).map (· + xs.length) := by
  have hnone : skip p xs = none := skip_eq_none_iff.mpr h
  unfold skip at hnone ⊢
  rw [List.findIdx?_append, hnone, Option.none_or]

/-- What is left behind the bytes passed over. -/
theorem drop_skip {p : Byte → Bool} {obj : Bytes} {n : Nat} (h : skip p obj = some n) :
    obj.drop n = obj.dropWhile p := by
  obtain ⟨-, rfl⟩ := skip_eq_some_iff.mp h
  conv_lhs => rw [← List.takeWhile_append_dropWhile (p := p) (l := obj)]
  exact List.drop_left' (by rw [List.takeWhile_append_dropWhile])

/-- A byte that the loop does not pass over is left behind it. -/
theorem skip_of_mem {p : Byte → Bool} {obj : Bytes} {b : Byte} (hb : b ∈ obj) (hp : p b = false) :
    ∃ n, skip p obj = some n ∧ b ∈ obj.drop n := by
  have hskip : skip p obj = some (obj.takeWhile p).length := skip_eq_some_iff.mpr ⟨⟨b, hb, hp⟩, rfl⟩
  refine ⟨_, hskip, ?_⟩
  rw [drop_skip hskip]
  rw [← List.takeWhile_append_dropWhile (p := p) (l := obj), List.mem_append] at hb
  refine hb.resolve_left fun htake => ?_
  rw [List.mem_takeWhile_imp htake] at hp
  cases hp

end Foxtails.Lib.Object
