/-
  The C library functions a byte-oriented program calls, on lists of bytes.

  A C string is the list of its bytes before the NUL. A buffer with a length is the list of
  all its bytes; positions in it are offsets (`Nat`), so a pointer returned by `memchr` or
  `memmem` is the offset it has in the buffer it points into.

  * `memchr`, `memmem`, `strrchr`, `strndup`, `strtok`: searching and cutting.
  * `strcaseeq`, `strncmpeq`: `strcasecmp(a, b) == 0`, in the C locale, and
    `strncmp(a, b, n) == 0`.
  * `strtoul`, `strtol`, `atoi`: base 10, on LP64 (`unsigned long` and `size_t` are 64 bits).
  * `fmtNat` (`%zu`), `fmtInt` (`%i`), `fmtStr` (`%s`): the texts `snprintf` prints, and
    `snprintfReturn`, `snprintfStores`: what it returns for a text, and what it stores.

  `strtoul_fmtNat` and `atoi_fmtInt` are the round trips of the numeral functions.
-/
import Foxtails.Lib.Scan
import Mathlib.Tactic

namespace Foxtails.Lib.Libc

open Foxtails.Lib.Scan

abbrev Byte := UInt8
abbrev Bytes := List Byte

/-- The bytes of an ASCII literal. -/
def ascii (s : String) : Bytes := s.toList.map fun c => c.toNat.toUInt8

abbrev NUL : Byte := 0
abbrev LF : Byte := 10
abbrev CR : Byte := 13
abbrev SP : Byte := 32
abbrev COLON : Byte := 58

/-- One more than the largest `size_t`, and than the largest `unsigned long`. -/
abbrev SIZE : Nat := 2 ^ 64

abbrev INT_MAX : Nat := 2147483647

/-! ## Searching and cutting -/

/-- `memchr(buf + off, c, n)`, as an offset into `buf`. -/
def memchr (buf : Bytes) (off : Nat) (c : Byte) (n : Nat) : Option Nat :=
  (find [c] ((buf.drop off).take n)).map (off + ·)

/-- `memmem(buf + off, n, pat, |pat|)`, as an offset into `buf`. -/
def memmem (buf : Bytes) (off n : Nat) (pat : Bytes) : Option Nat :=
  (find pat ((buf.drop off).take n)).map (off + ·)

/-- `strrchr(s, c)`, as an offset into `s`. -/
def strrchr (s : Bytes) (c : Byte) : Option Nat :=
  (find [c] s.reverse).map fun i => s.length - 1 - i

/-- The C string that begins at the start of `buf` and is at most `n` bytes long. -/
def strndup (buf : Bytes) (n : Nat) : Bytes := upto NUL (buf.take n)

/-- The tokens that `strtok(s, d)` and the calls `strtok(NULL, d)` after it return. -/
def strtok (s : Bytes) (d : Byte) : List Bytes := tokens d s

/-! ## Comparing names -/

/-- `tolower` in the C locale. -/
def toLower (b : Byte) : Byte := if 65 ≤ b ∧ b ≤ 90 then b + 32 else b

/-- `strcasecmp(a, b) == 0`. -/
def strcaseeq (a b : Bytes) : Bool := a.map toLower == b.map toLower

theorem strcaseeq_iff (a b : Bytes) : strcaseeq a b = true ↔ a.map toLower = b.map toLower := by
  simp [strcaseeq]

@[simp] theorem strcaseeq_self (a : Bytes) : strcaseeq a a = true := by simp [strcaseeq]

theorem strcaseeq_comm (a b : Bytes) : strcaseeq a b = strcaseeq b a := by
  unfold strcaseeq
  exact BEq.comm

theorem strcaseeq_congr {a b : Bytes} (h : strcaseeq a b = true) (c : Bytes) :
    strcaseeq a c = strcaseeq b c := by
  unfold strcaseeq
  rw [(strcaseeq_iff a b).mp h]

/-- `strncmp(a, b, n) == 0`. -/
def strncmpeq (a b : Bytes) (n : Nat) : Bool := a.take n == b.take n

theorem strncmpeq_iff (a b : Bytes) (n : Nat) : strncmpeq a b n = true ↔ a.take n = b.take n := by
  simp [strncmpeq]

/-- Where `a` has `n` bytes, they are the first of `b`. -/
theorem strncmpeq_iff_begins {a b : Bytes} {n : Nat} (h : n ≤ a.length) :
    strncmpeq a b n = true ↔ a.take n <+: b := by
  rw [strncmpeq_iff, List.prefix_iff_eq_take, List.length_take_of_le h]

/-! ## Masks -/

/-- Clearing the low `k` bits of a `size_t`. -/
theorem and_clearLow {x k : Nat} (hx : x < SIZE) (hk : k ≤ 64) :
    x &&& (SIZE - 2 ^ k) = x / 2 ^ k * 2 ^ k := by
  have hmask : SIZE - 2 ^ k = (2 ^ (64 - k) - 1) <<< k := by
    rw [Nat.shiftLeft_eq, Nat.sub_mul, ← Nat.pow_add, Nat.sub_add_cancel hk, Nat.one_mul]
  rw [hmask, ← Nat.shiftRight_eq_div_pow, ← Nat.shiftLeft_eq]
  refine Nat.eq_of_testBit_eq fun i => ?_
  rw [Nat.testBit_and, Nat.testBit_shiftLeft, Nat.testBit_shiftLeft, Nat.testBit_two_pow_sub_one,
    Nat.testBit_shiftRight]
  by_cases hki : k ≤ i
  · have hi : k + (i - k) = i := by omega
    rw [hi]
    by_cases h64 : i < 64
    · have hlt : i - k < 64 - k := by omega
      simp [hki, hlt]
    · have hlt : x < 2 ^ i := lt_of_lt_of_le hx (Nat.pow_le_pow_right (by decide) (not_lt.mp h64))
      have hbit : x.testBit i = false := Nat.testBit_lt_two_pow hlt
      simp [hbit]
  · simp [hki]

/-! ## Numerals -/

/-- `isspace` in the C locale. -/
def isSpace (b : Byte) : Bool := b == SP || (9 ≤ b && b ≤ 13)

/-- `isdigit`. -/
def isDigit (b : Byte) : Bool := 48 ≤ b && b ≤ 57

/-- Value of a run of decimal digits, most significant first. -/
def digitsValue (xs : Bytes) : Nat := xs.foldl (fun acc b => 10 * acc + (b.toNat - 48)) 0

/-- The sign and the digits that `strtol` and `strtoul` read: white space, an optional sign,
    then digits up to the first byte that is none. -/
def numeral (s : Bytes) : Bool × Bytes :=
  match s.dropWhile isSpace with
  | 45 :: t => (true, t.takeWhile isDigit)
  | 43 :: t => (false, t.takeWhile isDigit)
  | t => (false, t.takeWhile isDigit)

/-- `strtoul(s, NULL, 10)`. A value past `ULONG_MAX` is `ULONG_MAX`; a minus sign negates
    modulo `2^64`. -/
def strtoul (s : Bytes) : Nat :=
  let (neg, ds) := numeral s
  let v := digitsValue ds
  if SIZE ≤ v then SIZE - 1 else if neg then (SIZE - v) % SIZE else v

/-- `strtol(s, NULL, 10)`, saturating at `LONG_MIN` and `LONG_MAX`. -/
def strtol (s : Bytes) : Int :=
  let (neg, ds) := numeral s
  let v : Int := digitsValue ds
  if neg then max (-v) (-(2 ^ 63)) else min v (2 ^ 63 - 1)

/-- `atoi(s)`: `strtol` cut down to 32 bits. -/
def atoi (s : Bytes) : Int := Int.bmod (strtol s) (2 ^ 32)

/-- `%zu`. -/
def fmtNat (n : Nat) : Bytes := (Nat.toDigits 10 n).map fun c => c.toNat.toUInt8

/-- `%i`. -/
def fmtInt : Int → Bytes
  | Int.ofNat n => fmtNat n
  | Int.negSucc n => 45 :: fmtNat (n + 1)

/-- `%s`. A null pointer prints as `(null)`. -/
def fmtStr (s : Option Bytes) : Bytes := s.getD (ascii "(null)")

/-- What `snprintf` returns when the whole text has `n` bytes: `n`, or a negative number when
    `n` does not fit an `int`. -/
def snprintfReturn (n : Nat) : Int := if n ≤ INT_MAX then n else -1

/-- What `snprintf(_, size, ...)` stores of a text: as much as leaves room for a NUL. -/
def snprintfStores (size : Nat) (text : Bytes) : Bytes :=
  if size = 0 then [] else text.take (size - 1) ++ [NUL]

/-- A buffer after `xs` has been stored at `off`. Bytes stored behind its end are not in it. -/
def store (buf : Bytes) (off : Nat) (xs : Bytes) : Bytes :=
  buf.take off ++ xs.take (buf.length - off) ++ buf.drop (off + xs.length)

theorem store_length (buf : Bytes) (off : Nat) (xs : Bytes) :
    (store buf off xs).length = buf.length := by
  simp only [store, List.length_append, List.length_take, List.length_drop]
  omega

/-- A store inside the buffer that begins with `ys` puts `ys` behind the first `off` bytes. -/
theorem take_store (buf : Bytes) (off : Nat) (ys zs : Bytes)
    (h : off + (ys ++ zs).length ≤ buf.length) :
    (store buf off (ys ++ zs)).take (off + ys.length) = buf.take off ++ ys := by
  have hoff : (buf.take off).length = off := List.length_take_of_le (by omega)
  unfold store
  rw [List.take_of_length_le (by omega : (ys ++ zs).length ≤ buf.length - off),
    ← List.append_assoc, List.append_assoc]
  exact List.take_left' (by rw [List.length_append, hoff])

theorem toNat_digitByte {c : Char} (hc : c.isDigit = true) :
    isDigit c.toNat.toUInt8 = true ∧ c.toNat.toUInt8.toNat = c.toNat := by
  have h : 48 ≤ c.toNat ∧ c.toNat ≤ 57 := Char.isDigit_iff_toNat.mp hc
  have e : c.toNat.toUInt8.toNat = c.toNat := by
    rw [Nat.toUInt8, UInt8.toNat_ofNat']
    omega
  refine ⟨?_, e⟩
  simp only [isDigit, Bool.and_eq_true, decide_eq_true_eq, UInt8.le_iff_toNat_le, e]
  exact h

theorem isDigit_of_mem_fmtNat {n : Nat} {b : Byte} (h : b ∈ fmtNat n) : isDigit b = true := by
  obtain ⟨c, hc, rfl⟩ := List.mem_map.mp h
  exact (toNat_digitByte (Nat.isDigit_of_mem_toDigits (by decide) (by decide) hc)).1

theorem not_mem_fmtNat {n : Nat} {b : Byte} (h : isDigit b = false) : b ∉ fmtNat n := fun hb => by
  rw [isDigit_of_mem_fmtNat hb] at h
  cases h

theorem fmtNat_ne_nil (n : Nat) : fmtNat n ≠ [] := by
  simp [fmtNat, Nat.toDigits_ne_nil]

theorem digitsValue_fmtNat (n : Nat) : digitsValue (fmtNat n) = n := by
  have key : ∀ (cs : List Char) (acc : Nat), (∀ c ∈ cs, c.isDigit = true) →
      (cs.map fun c => c.toNat.toUInt8).foldl (fun acc b => 10 * acc + (b.toNat - 48)) acc =
        Nat.ofDigitChars 10 cs acc := by
    intro cs
    induction cs with
    | nil => intro acc _; simp
    | cons c cs ih =>
      intro acc h
      rw [List.map_cons, List.foldl_cons, ih _ fun d hd => h d (List.mem_cons_of_mem _ hd),
        Nat.ofDigitChars_cons, (toNat_digitByte (h c List.mem_cons_self)).2]
      rfl
  unfold digitsValue fmtNat
  rw [key _ _ fun c hc => Nat.isDigit_of_mem_toDigits (by decide) (by decide) hc,
    Nat.ofDigitChars_ten_toDigits]

theorem not_isSpace_of_isDigit {b : Byte} (h : isDigit b = true) :
    isSpace b = false ∧ b ≠ 45 ∧ b ≠ 43 := by
  simp only [isDigit, Bool.and_eq_true, decide_eq_true_eq, UInt8.le_iff_toNat_le] at h
  have h1 : (48 : UInt8).toNat = 48 := rfl
  have h2 : (57 : UInt8).toNat = 57 := rfl
  refine ⟨?_, ?_, ?_⟩
  · simp only [isSpace, Bool.or_eq_false_iff, beq_eq_false_iff_ne, Bool.and_eq_false_iff,
      decide_eq_false_iff_not, UInt8.le_iff_toNat_le]
    have h9 : (9 : UInt8).toNat = 9 := rfl
    have h13 : (13 : UInt8).toNat = 13 := rfl
    refine ⟨fun hb => ?_, by omega⟩
    subst hb
    exact absurd h.1 (by decide)
  · rintro rfl; simp at h
  · rintro rfl; simp at h

theorem numeral_of_digit {b : Byte} {s : Bytes} (hb : isDigit b = true) :
    numeral (b :: s) = (false, (b :: s).takeWhile isDigit) := by
  obtain ⟨hs, hm, hp⟩ := not_isSpace_of_isDigit hb
  unfold numeral
  rw [List.dropWhile_cons_of_neg (by simp [hs])]
  split
  · rename_i h; exact absurd (List.cons.inj h).1 hm
  · rename_i h; exact absurd (List.cons.inj h).1 hp
  · rfl

theorem numeral_of_digits {s : Bytes} (hne : s ≠ []) (hs : ∀ b ∈ s, isDigit b = true) :
    numeral s = (false, s) := by
  cases s with
  | nil => exact absurd rfl hne
  | cons b bs =>
    rw [numeral_of_digit (hs b List.mem_cons_self), List.takeWhile_eq_self_iff.mpr hs]

theorem numeral_of_minus {s : Bytes} (hs : ∀ b ∈ s, isDigit b = true) :
    numeral (45 :: s) = (true, s) := by
  have hspace : (45 :: s).dropWhile isSpace = 45 :: s :=
    List.dropWhile_cons_of_neg (by decide)
  unfold numeral
  rw [hspace]
  show (true, s.takeWhile isDigit) = (true, s)
  rw [List.takeWhile_eq_self_iff.mpr hs]

/-- A run of digits that fits an `unsigned long` reads as its value. -/
theorem strtoul_of_digits {s : Bytes} (hne : s ≠ []) (hs : ∀ b ∈ s, isDigit b = true)
    (hlt : digitsValue s < SIZE) : strtoul s = digitsValue s := by
  have hnum : numeral s = (false, s) := numeral_of_digits hne hs
  unfold strtoul
  rw [hnum]
  simp only
  rw [if_neg (by omega)]
  rfl

/-- A printed number, after any white space and before a byte that is no digit, reads back. -/
theorem strtoul_fmtNat {n : Nat} (hn : n < SIZE) (sp rest : Bytes)
    (hsp : ∀ b ∈ sp, isSpace b = true) (hrest : ∀ b ∈ rest.head?, isDigit b = false) :
    strtoul (sp ++ fmtNat n ++ rest) = n := by
  have hdrop : numeral (sp ++ fmtNat n ++ rest) = numeral (fmtNat n ++ rest) := by
    unfold numeral
    rw [List.append_assoc, List.dropWhile_append_of_pos hsp]
  have htake : (fmtNat n ++ rest).takeWhile isDigit = fmtNat n := by
    rw [List.takeWhile_append_of_pos fun b hb => isDigit_of_mem_fmtNat hb]
    cases rest with
    | nil => simp
    | cons b bs => rw [List.takeWhile_cons_of_neg (by simp [hrest b (by simp)]), List.append_nil]
  have hnum : numeral (fmtNat n ++ rest) = (false, fmtNat n) := by
    cases hd : fmtNat n with
    | nil => exact absurd hd (fmtNat_ne_nil n)
    | cons b bs =>
      have hb : isDigit b = true := isDigit_of_mem_fmtNat (n := n) (by rw [hd]; simp)
      rw [List.cons_append, numeral_of_digit hb, ← List.cons_append, ← hd, htake]
  unfold strtoul
  rw [hdrop, hnum]
  simp only [digitsValue_fmtNat]
  rw [if_neg (by omega)]
  rfl

theorem strtol_fmtInt {n : Int} (hlo : -2 ^ 31 ≤ n) (hhi : n < 2 ^ 31) : strtol (fmtInt n) = n := by
  cases n with
  | ofNat n =>
    unfold strtol fmtInt
    rw [numeral_of_digits (fmtNat_ne_nil n) fun _ hb => isDigit_of_mem_fmtNat hb]
    simp only [digitsValue_fmtNat, Bool.false_eq_true, if_false]
    have hn : Int.ofNat n = (n : Int) := rfl
    omega
  | negSucc n =>
    unfold strtol fmtInt
    rw [numeral_of_minus fun _ hb => isDigit_of_mem_fmtNat hb]
    simp only [digitsValue_fmtNat, if_true]
    omega

/-- A printed `int` reads back. -/
theorem atoi_fmtInt {n : Int} (hlo : -2 ^ 31 ≤ n) (hhi : n < 2 ^ 31) : atoi (fmtInt n) = n := by
  unfold atoi
  rw [strtol_fmtInt hlo hhi]
  exact Int.bmod_eq_of_le (by omega) (by omega)

/-- A printed `int` has at most eleven bytes. -/
theorem fmtInt_length_le {n : Int} (hlo : -2 ^ 31 ≤ n) (hhi : n < 2 ^ 31) :
    (fmtInt n).length ≤ 11 := by
  have hdigits : ∀ m, m ≤ 2 ^ 31 → (fmtNat m).length ≤ 10 := fun m hm => by
    rw [fmtNat, List.length_map, Nat.length_toDigits_le_iff (by decide) (by decide)]
    omega
  cases n with
  | ofNat n =>
    have hn : Int.ofNat n = (n : Int) := rfl
    exact (hdigits n (by omega)).trans (by decide)
  | negSucc n =>
    rw [fmtInt, List.length_cons]
    exact Nat.succ_le_succ (hdigits (n + 1) (by omega))

theorem not_mem_fmtInt {n : Int} {b : Byte} (h : isDigit b = false) (hminus : b ≠ 45) :
    b ∉ fmtInt n := by
  cases n with
  | ofNat n => exact not_mem_fmtNat h
  | negSucc n =>
    rw [fmtInt, List.mem_cons, not_or]
    exact ⟨hminus, not_mem_fmtNat h⟩

example : strtoul (ascii " \t42x") = 42 ∧ strtoul (ascii "-1") = 2 ^ 64 - 1 := by decide

end Foxtails.Lib.Libc
