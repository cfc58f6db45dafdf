/-
  `__clog` of `include/clog.h`, and the buffer of a log line.

  Model (read this before the theorems). A line is put together in `char target[1024]` on the
  stack: every character of `clog_fmt`, and every conversion in it, is one call of
  `__clog_sprintf`, and the message is one of `__clog_vsprintf`. A call measures its text, and
  prints it whole if it believes there is room, else a part of it and three dots; after that
  `__clog_errno` is set and the calls that are left print nothing. Where a byte outside of
  `target` is written, or the format is not one of the C standard, `printPiece` is `none`. The texts
  are as `vsnprintf` prints them. The muted levels, which print nothing, are left out, and so is
  the making of the timestamp.

  * `print_fits`, `print_cut`: one call, with room for its text and without.
  * `clog_line`: if all that is in front of the message takes at most 1018 bytes, the line is the
    text in full, or its first 1018 bytes and three dots, and nothing is written outside.
  * `sane_pretty`: the formats of the main thread and of the workers are of this kind.
-/
import Foxtails.Lib.Object
import Foxtails.Lib.Strtok

namespace Foxtails.Log

open Foxtails.Lib Foxtails.Lib.Scan Foxtails.Lib.Libc
open Foxtails.Lib.Object (castInt castSize wrapSub castInt_of_lt castSize_of_nonneg wrapSub_of_le)

/-! ## A format -/

/-- `CLOG_BUF_LIMIT`. -/
def clogBufLimit : Nat := 1024

/-- The arguments of `__clog`, and what it finds: `clog_fmt`, whether `clog_output_fd` is `stdout`
    or `stderr`, and what is in the buffer of `clog_get_timestamp` when it is printed. -/
structure LogCall where
  fmt : Bytes
  color : Bytes
  name : Bytes
  file : Bytes
  line : Int
  func : Bytes
  timestamp : Bytes
  terminal : Bool
  message : Bytes

/-- `CLOG_COLOR_RESET`. -/
def clogColorReset : Bytes := [27, 91, 48, 109]

/-- A call of `__clog_sprintf`, or the one of `__clog_vsprintf`. The format of `percent` is a lone
    percent sign. -/
inductive Piece where
  | text (t : Bytes)
  | stamp (t : Bytes)
  | percent
  | literal (b : Byte)
  | message (t : Bytes)
  deriving DecidableEq

/-- What the call prints. -/
def Piece.bytes : Piece → Bytes
  | .text t => t
  | .stamp t => t
  | .percent => []
  | .literal b => [b]
  | .message t => t

/-- The `switch` on the character behind a percent sign. -/
def LogCall.conversion (c : LogCall) (b : Byte) : Option Piece :=
  if b = 99 then if c.terminal then some (.text c.color) else none
  else if b = 114 then if c.terminal then some (.text clogColorReset) else none
  else if b = 76 then some (.text c.name)
  else if b = 102 then some (.text c.file)
  else if b = 108 then some (.text (fmtInt c.line))
  else if b = 116 then some (.stamp c.timestamp)
  else if b = 70 then some (.text c.func)
  else if b = 37 then some .percent
  else if b = 109 then some (.message c.message)
  else none

/-- The loop over `clog_fmt`. Behind a percent sign at the end is the NUL, which is no
    conversion. -/
def LogCall.pieces (c : LogCall) : Bytes → List Piece
  | [] => []
  | [b] => if b = 37 then [] else [.literal b]
  | b :: b' :: rest =>
    if b = 37 then (c.conversion b').toList ++ c.pieces rest else .literal b :: c.pieces (b' :: rest)

/-! ## A call -/

/-- `target` and `len`. -/
structure Target where
  bytes : Bytes
  len : Int
  deriving DecidableEq

/-- Bytes stored from the offset on; `none` where one of them is outside. -/
def storeAt (bytes : Bytes) (off : Int) (xs : Bytes) : Option Bytes :=
  if 0 ≤ off ∧ off.toNat + xs.length ≤ bytes.length then some (store bytes off.toNat xs) else none

/-- `strncat(target + off, "...", 4)`. -/
def appendDots (bytes : Bytes) (off : Int) : Option Bytes :=
  if NUL ∈ bytes.drop off.toNat then
    storeAt bytes (off + (upto NUL (bytes.drop off.toNat)).length) (ascii "..." ++ [NUL])
  else none

/-- `__clog_buffer_size`, for a text of so many bytes. -/
def bufferSize (measured : Nat) : Nat := castSize (snprintfReturn measured + 1)

/-- `len +=` what a call returns. -/
def advance (len : Int) (ret : Nat) : Int := castInt ((castSize len + ret) % SIZE)

/-- The `cur_len` of a call: characters are printed with 0. -/
def Piece.curLen (len : Int) : Piece → Nat
  | .literal _ => 0
  | _ => castSize len

/-- The size `vsnprintf` is given where there is no room: the two functions subtract different
    lengths. -/
def Piece.cutSize (len : Int) (measured : Nat) : Piece → Nat
  | .message _ => wrapSub (wrapSub clogBufLimit (castSize len)) 5
  | _ => wrapSub (wrapSub clogBufLimit (bufferSize measured)) 5

/-- A call that does not find `__clog_errno` set, and whether it sets it. It has found `measured`
    bytes where it measured its text. -/
def printPiece (t : Target) (p : Piece) (measured : Nat) : Option (Target × Bool) :=
  let ret := castSize (snprintfReturn p.bytes.length)
  if p = .percent then none
  else if clogBufLimit ≤ (p.curLen t.len + bufferSize measured) % SIZE then
    (storeAt t.bytes t.len (snprintfStores (p.cutSize t.len measured) p.bytes)).bind fun bytes =>
      (appendDots bytes t.len).map fun bytes => (⟨bytes, advance t.len (ret + 4)⟩, true)
  else
    (storeAt t.bytes t.len (p.bytes ++ [NUL])).map fun bytes => (⟨bytes, advance t.len ret⟩, false)

/-- The calls one after the other. -/
def putPieces (t : Target) (errno : Bool) : List Piece → Option (Target × Bool)
  | [] => some (t, errno)
  | p :: ps =>
    if errno then putPieces t errno ps
    else (printPiece t p p.bytes.length).bind fun r => putPieces r.1 r.2 ps

/-- `target` before the first call. -/
def freshTarget (fresh : Nat → Byte) : Target := ⟨(List.range clogBufLimit).map fresh, 0⟩

/-- `__clog`, up to the callback, which reads the string in `target`. -/
def clogLine (c : LogCall) (fresh : Nat → Byte) : Option Bytes :=
  (putPieces (freshTarget fresh) false (c.pieces c.fmt)).bind fun r =>
    if NUL ∈ r.1.bytes then some (upto NUL r.1.bytes) else none

/-! ## One call -/

theorem storeAt_prefix {bytes done : Bytes} (xs : Bytes) (hdone : bytes.take done.length = done)
    (h : done.length + xs.length ≤ bytes.length) :
    ∃ bytes', storeAt bytes done.length xs = some bytes' ∧ bytes'.length = bytes.length ∧
      done ++ xs <+: bytes' := by
  have hoff : (done.length : Int).toNat = done.length := Int.toNat_natCast _
  refine ⟨store bytes done.length xs, ?_, store_length _ _ _, ?_⟩
  · unfold storeAt
    rw [if_pos ⟨Int.natCast_nonneg _, by rw [hoff]; exact h⟩, hoff]
  · have htake := take_store bytes done.length xs [] (by rwa [List.append_nil])
    rw [List.append_nil, hdone] at htake
    rw [← htake]
    exact List.take_prefix _ _

/-- What the buffer holds after some calls. -/
structure Holds (t : Target) (done : Bytes) : Prop where
  size : t.bytes.length = clogBufLimit
  len : t.len = done.length
  front : t.bytes.take done.length = done
  nul : NUL ∉ done

theorem holds_fresh (fresh : Nat → Byte) : Holds (freshTarget fresh) [] where
  size := by
    unfold freshTarget
    rw [List.length_map, List.length_range]
  len := rfl
  front := rfl
  nul := List.not_mem_nil

theorem bufferSize_eq {measured : Nat} (h : measured < INT_MAX) :
    bufferSize measured = measured + 1 := by
  have hint : INT_MAX = 2147483647 := rfl
  unfold bufferSize snprintfReturn
  rw [if_pos h.le, castSize_of_nonneg (by omega) (by omega)]
  omega

theorem return_eq {text : Bytes} (h : text.length < INT_MAX) :
    castSize (snprintfReturn text.length) = text.length := by
  have hint : INT_MAX = 2147483647 := rfl
  unfold snprintfReturn
  rw [if_pos h.le, castSize_of_nonneg (by omega) (by omega)]
  omega

theorem advance_eq {len ret : Nat} (h : len + ret < 2 ^ 31) : advance len ret = (len + ret : Nat) := by
  have hsize : SIZE = 18446744073709551616 := rfl
  unfold advance
  rw [castSize_of_nonneg (by omega) (by omega), Int.toNat_natCast, Nat.mod_eq_of_lt (by omega)]
  exact castInt_of_lt h

/-- **A call with room** prints its text behind what is there. -/
theorem print_fits {t : Target} {done : Bytes} (h : Holds t done) {p : Piece} {measured : Nat}
    (hknown : p ≠ .percent) (hnul : NUL ∉ p.bytes)
    (hroom : done.length + p.bytes.length + 1 < clogBufLimit)
    (hmeasured : done.length + measured + 1 < clogBufLimit) :
    ∃ t', printPiece t p measured = some (t', false) ∧ Holds t' (done ++ p.bytes) ∧
      done ++ p.bytes ++ [NUL] <+: t'.bytes := by
  have hlimit : clogBufLimit = 1024 := rfl
  have hsize : SIZE = 18446744073709551616 := rfl
  have hint : INT_MAX = 2147483647 := rfl
  have hshort : p.bytes.length < INT_MAX := by omega
  have hcur : p.curLen t.len ≤ done.length := by
    have hcast : castSize t.len = done.length := by
      rw [h.len, castSize_of_nonneg (by omega) (by omega), Int.toNat_natCast]
    cases p with
    | literal => exact Nat.zero_le _
    | _ => exact hcast.le
  have hcond : ¬ clogBufLimit ≤ (p.curLen t.len + bufferSize measured) % SIZE := by
    rw [bufferSize_eq (by omega), Nat.mod_eq_of_lt (by omega)]
    omega
  obtain ⟨bytes, hstore, hlength, hprefix⟩ := storeAt_prefix (p.bytes ++ [NUL]) h.front
    (by rw [h.size, List.length_append, List.length_singleton]; omega)
  rw [← List.append_assoc] at hprefix
  refine ⟨⟨bytes, advance t.len (castSize (snprintfReturn p.bytes.length))⟩, ?_, ?_, hprefix⟩
  · unfold printPiece
    dsimp only
    rw [if_neg hknown, if_neg hcond, h.len, hstore]
    rfl
  · refine ⟨hlength.trans h.size, ?_, ?_, ?_⟩
    · have hret := return_eq hshort
      have hadvance : advance done.length p.bytes.length = (done.length + p.bytes.length : Nat) :=
        advance_eq (by omega)
      rw [hret, h.len, hadvance, List.length_append]
    · have hpart : done ++ p.bytes <+: bytes := (List.prefix_append _ _).trans hprefix
      exact (List.prefix_iff_eq_take.mp hpart).symm
    · rw [List.mem_append, not_or]
      exact ⟨h.nul, hnul⟩

theorem upto_of_prefix {w bytes : Bytes} (hnul : NUL ∉ w) (h : w ++ [NUL] <+: bytes) :
    upto NUL bytes = w ∧ NUL ∈ bytes := by
  obtain ⟨rest, rfl⟩ := h
  have hmem : NUL ∈ w ++ [NUL] ++ rest :=
    List.mem_append_left _ (List.mem_append_right _ (List.mem_singleton_self NUL))
  refine ⟨?_, hmem⟩
  rw [List.append_assoc]
  exact Strtok.upto_append_cons hnul rest

/-- What is shown of a text: all of it, or its first 1018 bytes and three dots. -/
def shown (text : Bytes) : Bytes :=
  if text.length + 1 < clogBufLimit then text else text.take 1018 ++ ascii "..."

/-- **A message without room** is cut, and three dots are put behind it. -/
theorem print_cut {t : Target} {done m : Bytes} (h : Holds t done) (hnul : NUL ∉ m)
    (hfront : done.length ≤ 1018) (hshort : m.length < INT_MAX)
    (hroom : clogBufLimit ≤ done.length + m.length + 1) :
    ∃ t', printPiece t (.message m) m.length = some (t', true) ∧
      shown (done ++ m) ++ [NUL] <+: t'.bytes ∧ NUL ∉ shown (done ++ m) := by
  have hlimit : clogBufLimit = 1024 := rfl
  have hsize : SIZE = 18446744073709551616 := rfl
  have hint : INT_MAX = 2147483647 := rfl
  have hdots : (ascii "..." ++ [NUL]).length = 4 ∧ NUL ∉ ascii "..." := by decide
  have hcast : castSize t.len = done.length := by
    rw [h.len, castSize_of_nonneg (by omega) (by omega), Int.toNat_natCast]
  have hcond : clogBufLimit ≤
      ((Piece.message m).curLen t.len + bufferSize m.length) % SIZE := by
    show clogBufLimit ≤ (castSize t.len + bufferSize m.length) % SIZE
    rw [bufferSize_eq hshort, hcast, Nat.mod_eq_of_lt (by omega)]
    omega
  have hcut : (Piece.message m).cutSize t.len m.length = 1019 - done.length := by
    have hleft : wrapSub clogBufLimit done.length = 1024 - done.length :=
      wrapSub_of_le (by omega) (by omega)
    show wrapSub (wrapSub clogBufLimit (castSize t.len)) 5 = _
    rw [hcast, hleft, wrapSub_of_le (by omega) (by omega)]
    omega
  -- The part of the message that is stored, and the dots behind it.
  set part := m.take (1018 - done.length) with hpart
  have hpartLen : part.length = 1018 - done.length := by
    rw [hpart, List.length_take]
    omega
  have hpartNul : NUL ∉ part := fun hmem => hnul (List.mem_of_mem_take hmem)
  have hstores : snprintfStores (1019 - done.length) m = part ++ [NUL] := by
    have hsub : 1019 - done.length - 1 = 1018 - done.length := by omega
    unfold snprintfStores
    rw [if_neg (by omega), hsub]
  obtain ⟨bytes, hstore, hlength, hprefix⟩ := storeAt_prefix (part ++ [NUL]) h.front
    (by rw [h.size, List.length_append, List.length_singleton]; omega)
  obtain ⟨rest, hrest⟩ := hprefix
  have hdrop : bytes.drop done.length = part ++ NUL :: rest := by
    rw [← hrest, List.append_assoc, List.drop_left, List.append_assoc]
    rfl
  have hupto : upto NUL (bytes.drop done.length) = part := by
    rw [hdrop]
    exact Strtok.upto_append_cons hpartNul rest
  have hmem : NUL ∈ bytes.drop done.length := by
    rw [hdrop]
    exact List.mem_append_right _ List.mem_cons_self
  have hline : done ++ part = (done ++ m).take 1018 := by
    rw [List.take_append, List.take_of_length_le (by omega)]
  have hfrontBytes : bytes.take (done ++ part).length = done ++ part := by
    rw [← hrest, ← List.append_assoc, List.append_assoc]
    exact List.take_left
  obtain ⟨bytes', hstore', -, hprefix'⟩ := storeAt_prefix (ascii "..." ++ [NUL]) hfrontBytes
    (by rw [hlength, h.size, List.length_append, hdots.1]; omega)
  have hshown : shown (done ++ m) = (done ++ part) ++ ascii "..." := by
    unfold shown
    rw [List.length_append, if_neg (by omega), hline]
  refine ⟨⟨bytes', advance t.len (castSize (snprintfReturn m.length) + 4)⟩, ?_, ?_, ?_⟩
  · have hoff : ((done.length : Int) + (part.length : Int)) = ((done ++ part).length : Nat) := by
      rw [List.length_append]
      omega
    unfold printPiece
    dsimp only
    rw [if_neg nofun, if_pos hcond, hcut]
    show (storeAt t.bytes t.len (snprintfStores (1019 - done.length) m)).bind _ = _
    rw [hstores, h.len, hstore, Option.bind_some, appendDots, Int.toNat_natCast, if_pos hmem, hupto,
      hoff, hstore']
    rfl
  · rw [hshown, List.append_assoc]
    exact hprefix'
  · rw [hshown, List.mem_append, List.mem_append, not_or, not_or]
    exact ⟨⟨h.nul, hpartNul⟩, hdots.2⟩

/-! ## A line -/

/-- What some calls print. -/
def textOf (ps : List Piece) : Bytes := (ps.map Piece.bytes).flatten

theorem textOf_append (ps qs : List Piece) : textOf (ps ++ qs) = textOf ps ++ textOf qs := by
  unfold textOf
  rw [List.map_append, List.flatten_append]

theorem textOf_cons (p : Piece) (ps : List Piece) : textOf (p :: ps) = p.bytes ++ textOf ps := rfl

/-- The message comes last, what is in front of it takes at most 1018 bytes, and all texts are
    strings whose lengths are numbers of an `int`. -/
structure Sane (c : LogCall) (front : List Piece) : Prop where
  split : c.pieces c.fmt = front ++ [.message c.message]
  room : (textOf front).length ≤ 1018
  known : Piece.percent ∉ front
  nul : NUL ∉ textOf front
  message : NUL ∉ c.message
  short : c.message.length < INT_MAX

/-- The calls in front of the message print all of their texts. -/
theorem put_front {t : Target} {done : Bytes} (h : Holds t done) {front : List Piece}
    (hknown : Piece.percent ∉ front) (hnul : NUL ∉ textOf front)
    (hroom : done.length + (textOf front).length ≤ 1018)
    (rest : List Piece) :
    ∃ t', putPieces t false (front ++ rest) = putPieces t' false rest ∧
      Holds t' (done ++ textOf front) := by
  induction front generalizing t done with
  | nil => exact ⟨t, rfl, by simpa [textOf] using h⟩
  | cons p front ih =>
    rw [textOf_cons, List.length_append] at hroom
    rw [textOf_cons, List.mem_append, not_or] at hnul
    rw [List.mem_cons, not_or] at hknown
    have hlimit : clogBufLimit = 1024 := rfl
    have hfits : done.length + p.bytes.length + 1 < clogBufLimit := by omega
    obtain ⟨t₁, hprint, hholds, -⟩ :=
      print_fits h (fun heq => hknown.1 heq.symm) hnul.1 hfits hfits
    obtain ⟨t', hrest, hdone⟩ := ih hholds hknown.2 hnul.2 (by rw [List.length_append]; omega)
    refine ⟨t', ?_, ?_⟩
    · rw [List.cons_append, putPieces, if_neg Bool.false_ne_true, hprint, Option.bind_some]
      exact hrest
    · rw [textOf_cons, ← List.append_assoc]
      exact hdone

/-- The message, behind what is there. -/
theorem print_message {t : Target} {done m : Bytes} (h : Holds t done) (hfront : done.length ≤ 1018)
    (hnul : NUL ∉ m) (hshort : m.length < INT_MAX) :
    ∃ t' cut, printPiece t (.message m) m.length = some (t', cut) ∧
      shown (done ++ m) ++ [NUL] <+: t'.bytes ∧ NUL ∉ shown (done ++ m) := by
  by_cases hroom : done.length + m.length + 1 < clogBufLimit
  · obtain ⟨t', hprint, hholds, hprefix⟩ := print_fits h (p := .message m) nofun hnul hroom hroom
    have hshown : shown (done ++ m) = done ++ m := by
      unfold shown
      rw [if_pos (by rw [List.length_append]; exact hroom)]
    rw [hshown]
    exact ⟨t', false, hprint, hprefix, hholds.nul⟩
  · obtain ⟨t', hprint, hprefix, hnul'⟩ := print_cut h hnul hfront hshort (not_lt.mp hroom)
    exact ⟨t', true, hprint, hprefix, hnul'⟩

/-- **A line of the log.** Nothing is written outside of `target`, whatever was in it before, and
    the callback is given the text of the format with the message, or its first 1018 bytes and three
    dots where it does not fit. -/
theorem clog_line {c : LogCall} {front : List Piece} (h : Sane c front) (fresh : Nat → Byte) :
    clogLine c fresh = some (shown (textOf front ++ c.message)) := by
  obtain ⟨t, hfront, hholds⟩ := put_front (holds_fresh fresh) h.known h.nul
    (by rw [List.length_nil, Nat.zero_add]; exact h.room) [.message c.message]
  rw [List.nil_append] at hholds
  obtain ⟨t', cut, hprint, hprefix, hnul⟩ := print_message hholds h.room h.message h.short
  obtain ⟨hupto, hmem⟩ := upto_of_prefix hnul hprefix
  unfold clogLine
  rw [h.split, hfront, putPieces, if_neg Bool.false_ne_true]
  show ((printPiece t (.message c.message) c.message.length).bind _).bind _ = _
  rw [hprint, Option.bind_some, putPieces, Option.bind_some, if_pos hmem, hupto]

/-! ## The formats of the program -/

/-- `CLOG_PRETTY_FMT`. -/
def clogPrettyFmt : Bytes := ascii "%c[%L]%r %t %f:%l   %m"

/-- The format `main` sets. -/
def mainFmt : Bytes := ascii "[Foxtails] " ++ clogPrettyFmt

/-- What stands in front of `CLOG_PRETTY_FMT` in the format of a worker. -/
def workerLead (workerId : Int) : Bytes := ascii "[Worker " ++ fmtInt workerId ++ ascii "] "

/-- The format a worker sets: the string in the 128 bytes of `fmt_buf`. -/
def workerFmt (workerId : Int) : Bytes :=
  upto NUL (snprintfStores 128 (workerLead workerId ++ clogPrettyFmt))

theorem pieces_conversion (c : LogCall) (b : Byte) (rest : Bytes) :
    c.pieces (37 :: b :: rest) = (c.conversion b).toList ++ c.pieces rest := by
  rw [LogCall.pieces, if_pos rfl]

theorem pieces_literal (c : LogCall) {b : Byte} (h : b ≠ 37) (rest : Bytes) :
    c.pieces (b :: rest) = .literal b :: c.pieces rest := by
  cases rest with
  | nil =>
    show (if b = 37 then [] else [Piece.literal b]) = _
    rw [if_neg h]
    rfl
  | cons b' rest => rw [LogCall.pieces, if_neg h]

/-- Characters that are no percent signs. -/
theorem pieces_literals (c : LogCall) {bs : Bytes} (h : (37 : Byte) ∉ bs) (rest : Bytes) :
    c.pieces (bs ++ rest) = bs.map Piece.literal ++ c.pieces rest := by
  induction bs with
  | nil => rfl
  | cons b bs ih =>
    obtain ⟨hb, hbs⟩ := not_or.mp fun hmem => h (List.mem_cons.mpr hmem)
    rw [List.cons_append, pieces_literal c fun heq => hb heq.symm, ih hbs]
    rfl

/-- A color, printed on a terminal only. -/
def LogCall.colored (c : LogCall) (color : Bytes) : List Piece :=
  if c.terminal then [.text color] else []

/-- What `CLOG_PRETTY_FMT` prints in front of the message. -/
def prettyFront (c : LogCall) : List Piece :=
  c.colored c.color ++ [Piece.literal 91, .text c.name, .literal 93] ++ c.colored clogColorReset ++
  [Piece.literal SP, .stamp c.timestamp, .literal SP, .text c.file, .literal 58,
    .text (fmtInt c.line), .literal SP, .literal SP, .literal SP]

theorem pieces_pretty (c : LogCall) :
    c.pieces clogPrettyFmt = prettyFront c ++ [.message c.message] := by
  have hfmt : clogPrettyFmt = [37, 99, 91, 37, 76, 93, 37, 114, 32, 37, 116, 32, 37, 102, 58, 37, 108,
      32, 32, 32, 37, 109] := by decide
  have hnil : c.pieces [] = [] := rfl
  rw [hfmt]
  simp only [pieces_conversion, pieces_literal c (by decide : (91 : Byte) ≠ 37),
    pieces_literal c (by decide : (93 : Byte) ≠ 37), pieces_literal c (by decide : (32 : Byte) ≠ 37),
    pieces_literal c (by decide : (58 : Byte) ≠ 37), hnil]
  unfold prettyFront
  cases hterminal : c.terminal <;> simp [LogCall.conversion, LogCall.colored, hterminal, SP]

/-- The texts of a call are strings, and those in front of the message are short. -/
structure Plain (c : LogCall) : Prop where
  color : NUL ∉ c.color ∧ c.color.length ≤ 16
  name : NUL ∉ c.name ∧ c.name.length ≤ 16
  file : NUL ∉ c.file ∧ c.file.length ≤ 800
  timestamp : NUL ∉ c.timestamp ∧ c.timestamp.length < 50
  line : -2 ^ 31 ≤ c.line ∧ c.line < 2 ^ 31
  message : NUL ∉ c.message ∧ c.message.length < INT_MAX

theorem textOf_literals (bs : Bytes) : textOf (bs.map Piece.literal) = bs := by
  induction bs with
  | nil => rfl
  | cons b bs ih => rw [List.map_cons, textOf_cons, ih]; rfl

/-- **The formats of the program are sane**: characters, and then `CLOG_PRETTY_FMT`. -/
theorem sane_pretty {c : LogCall} (h : Plain c) {lead : Bytes} (hfmt : c.fmt = lead ++ clogPrettyFmt)
    (hpercent : (37 : Byte) ∉ lead) (hnul : NUL ∉ lead) (hlead : lead.length ≤ 40) :
    Sane c (lead.map Piece.literal ++ prettyFront c) where
  split := by
    rw [hfmt, pieces_literals c hpercent, pieces_pretty, List.append_assoc]
  room := by
    have hline := fmtInt_length_le h.line.1 h.line.2
    have hreset : clogColorReset.length = 4 := rfl
    have hcolor := h.color.2
    have hname := h.name.2
    have hfile := h.file.2
    have htime := h.timestamp.2
    rw [textOf_append, textOf_literals, List.length_append]
    cases hterminal : c.terminal <;>
      simp only [prettyFront, LogCall.colored, hterminal, textOf, Piece.bytes, List.map_append, List.map_cons,
        List.map_nil, List.flatten_append, List.flatten_cons, List.flatten_nil, List.length_append,
        List.length_cons, List.length_nil, if_true, Bool.false_eq_true, if_false] <;>
      omega
  known := by
    rw [List.mem_append, not_or]
    refine ⟨fun hmem => ?_, ?_⟩
    · obtain ⟨b, -, hb⟩ := List.mem_map.mp hmem
      cases hb
    · cases hterminal : c.terminal <;> simp [prettyFront, LogCall.colored, hterminal]
  nul := by
    have hline : NUL ∉ fmtInt c.line := not_mem_fmtInt (by decide) (by decide)
    have hreset : NUL ∉ clogColorReset := by decide
    rw [textOf_append, textOf_literals, List.mem_append, not_or]
    refine ⟨hnul, ?_⟩
    cases hterminal : c.terminal <;>
      simp [prettyFront, LogCall.colored, hterminal, textOf, Piece.bytes, h.color.1, h.name.1, h.file.1,
        h.timestamp.1, hline, hreset] <;>
      decide
  message := h.message.1
  short := h.message.2

theorem sane_main {c : LogCall} (h : Plain c) (hfmt : c.fmt = mainFmt) :
    Sane c ((ascii "[Foxtails] ").map Piece.literal ++ prettyFront c) :=
  sane_pretty h hfmt (by decide) (by decide) (by decide)

theorem workerLead_length {workerId : Int} (hlo : -2 ^ 31 ≤ workerId) (hhi : workerId < 2 ^ 31) :
    (workerLead workerId).length ≤ 21 := by
  have hid := fmtInt_length_le hlo hhi
  have hopen : (ascii "[Worker ").length = 8 := rfl
  have hclose : (ascii "] ").length = 2 := rfl
  unfold workerLead
  rw [List.length_append, List.length_append]
  omega

theorem not_mem_workerLead {workerId : Int} {b : Byte} (hopen : b ∉ ascii "[Worker ")
    (hclose : b ∉ ascii "] ") (hid : b ∉ fmtInt workerId) : b ∉ workerLead workerId := by
  unfold workerLead
  rw [List.mem_append, List.mem_append, not_or, not_or]
  exact ⟨⟨hopen, hid⟩, hclose⟩

/-- The format of a worker fits in `fmt_buf`. -/
theorem workerFmt_eq {workerId : Int} (hlo : -2 ^ 31 ≤ workerId) (hhi : workerId < 2 ^ 31) :
    workerFmt workerId = workerLead workerId ++ clogPrettyFmt := by
  have hlead := workerLead_length hlo hhi
  have hpretty : clogPrettyFmt.length = 22 ∧ NUL ∉ clogPrettyFmt := by decide
  have hnul : NUL ∉ workerLead workerId :=
    not_mem_workerLead (by decide) (by decide) (not_mem_fmtInt (by decide) (by decide))
  unfold workerFmt snprintfStores
  rw [if_neg (by decide), List.take_of_length_le (by rw [List.length_append]; omega)]
  apply Strtok.upto_append_cons
  rw [List.mem_append, not_or]
  exact ⟨hnul, hpretty.2⟩

theorem sane_worker {c : LogCall} (h : Plain c) {workerId : Int} (hlo : -2 ^ 31 ≤ workerId)
    (hhi : workerId < 2 ^ 31) (hfmt : c.fmt = workerFmt workerId) :
    Sane c ((workerLead workerId).map Piece.literal ++ prettyFront c) := by
  apply sane_pretty h (hfmt.trans (workerFmt_eq hlo hhi))
  · exact not_mem_workerLead (by decide) (by decide) (not_mem_fmtInt (by decide) (by decide))
  · exact not_mem_workerLead (by decide) (by decide) (not_mem_fmtInt (by decide) (by decide))
  · exact (workerLead_length hlo hhi).trans (by decide)

/-- A call of a worker with a message of 2000 bytes. -/
def longCall : LogCall where
  fmt := workerFmt 3
  color := [27, 91, 51, 50, 109]
  name := ascii "DEBUG"
  file := ascii "utils/http.c"
  line := 330
  func := ascii "http_send_response"
  timestamp := ascii "12:00:00.000"
  terminal := true
  message := List.replicate 2000 97

theorem longCall_plain : Plain longCall where
  color := by decide
  name := by decide
  file := by decide
  timestamp := by decide
  line := by decide
  message := by
    refine ⟨fun hmem => absurd (List.eq_of_mem_replicate hmem) (by decide), ?_⟩
    rw [longCall, List.length_replicate]
    decide

theorem longCall_sane : Sane longCall ((workerLead 3).map Piece.literal ++ prettyFront longCall) :=
  sane_worker longCall_plain (by decide) (by decide) rfl

theorem clog_line_long :
    clogLine longCall (fun _ => 0) = some (shown (textOf
      ((workerLead 3).map Piece.literal ++ prettyFront longCall) ++ longCall.message)) :=
  clog_line longCall_sane fun _ => 0

end Foxtails.Log
