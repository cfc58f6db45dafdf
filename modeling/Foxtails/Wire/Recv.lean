/-
  `http_recv_message`: the receive loop of `utils/http.c`.

  The buffer is an address, a capacity and the bytes stored so far; `bodyStart` is the
  address the source keeps in `body_start`. What the environment decides is in the list of
  `RecvResult`s: the chunks, what `realloc` returns, and what lies behind the stored bytes.

  * `recvLoop_split`: the loop stores exactly the bytes of the results it consumed.
  * `recvScan_of_find`, `recvTest_eq`: what finding the header end fixes, and what the
    completion test sees afterwards: an address of the buffer now, minus one of the buffer then.
-/
import Foxtails.Wire.Parse

namespace Foxtails.Wire

open Foxtails.Lib.Scan Foxtails.Lib.Libc

/-- What one `recv` brings. -/
inductive RecvResult where
  /-- A positive return value. `junk` is the memory behind the stored bytes, and `base` what
      `realloc` returns if the buffer grows in this iteration. -/
  | data (bytes junk : Bytes) (base : Nat)
  /-- Zero or negative: end of stream, EAGAIN or an error. -/
  | stop
  deriving DecidableEq, Repr

/-- The bytes of a list of results. -/
def bytesOf : List RecvResult → Bytes
  | [] => []
  | .data bytes _ _ :: rest => bytes ++ bytesOf rest
  | .stop :: rest => bytesOf rest

@[simp] theorem bytesOf_append (xs ys : List RecvResult) :
    bytesOf (xs ++ ys) = bytesOf xs ++ bytesOf ys := by
  induction xs with
  | nil => rfl
  | cons x xs ih => cases x <;> simp [bytesOf, ih]

/-- The local variables of `http_recv_message`; `buf` holds the `len` stored bytes. -/
structure RecvState where
  base : Nat
  cap : Nat := 4096
  buf : Bytes := []
  bodyStart : Option Nat := none
  contentLength : Nat := 0
  deriving DecidableEq, Repr

/-- `"Content-Length:"`. -/
def contentLengthText : Bytes := ascii "Content-Length:"

/-- The `content_length` read when the header section ends at offset `headLen` of the memory
    `mem`: the number after the first `Content-Length:` of the section. -/
def recvContentLength (mem : Bytes) (headLen : Nat) : Option Nat :=
  (memmem mem 0 headLen contentLengthText).map fun cl => strtoul (mem.drop (cl + 15))

/-- The search for the end of the header section. -/
def recvScan (expectBody : Bool) (junk : Bytes) (s : RecvState) : RecvState :=
  match s.bodyStart, memmem s.buf 0 s.buf.length CRLFCRLF with
  | none, some i =>
    { s with
      bodyStart := some (s.base + (i + 4))
      contentLength :=
        if expectBody then (recvContentLength (s.buf ++ junk) (i + 4)).getD s.contentLength
        else s.contentLength }
  | _, _ => s

/-- `(size_t)(buf + len - body_start)`, once `body_start` is set. -/
def recvTest (s : RecvState) : Option Nat :=
  s.bodyStart.map fun bodyStart =>
    (((s.base + s.buf.length : Nat) - bodyStart : Int) % (SIZE : Int)).toNat

/-- The condition of the `break`. -/
def recvComplete (s : RecvState) : Bool :=
  match recvTest s with
  | some received => s.contentLength ≤ received
  | none => false

/-- The growth of the buffer; `base` is what `realloc` returns. -/
def recvGrow (base : Nat) (s : RecvState) : RecvState :=
  if s.cap - s.buf.length < 1024 then { s with cap := 2 * s.cap, base := base } else s

/-- An iteration up to the completion test. -/
def recvData (expectBody : Bool) (bytes junk : Bytes) (s : RecvState) : RecvState :=
  recvScan expectBody junk { s with buf := s.buf ++ bytes }

/-- The loop: the state it ends in, and the results it leaves for later calls. -/
def recvLoop (expectBody : Bool) (s : RecvState) : List RecvResult → RecvState × List RecvResult
  | [] => (s, [])
  | .stop :: rest => (s, rest)
  | .data bytes junk base :: rest =>
    let s := recvData expectBody bytes junk s
    if recvComplete s then (s, rest) else recvLoop expectBody (recvGrow base s) rest

/-- The states in which the loop evaluates its completion test. -/
def recvTested (expectBody : Bool) (s : RecvState) : List RecvResult → List RecvState
  | .data bytes junk base :: rest =>
    let s := recvData expectBody bytes junk s
    s :: if recvComplete s then [] else recvTested expectBody (recvGrow base s) rest
  | _ => []

/-- `http_recv_message`: the returned bytes, and the results left over. `base` is what
    `malloc` returns. -/
def httpRecvMessage (base : Nat) (expectBody : Bool) (results : List RecvResult) :
    Bytes × List RecvResult :=
  let (s, rest) := recvLoop expectBody { base := base } results
  (s.buf, rest)

/-! ## What the steps change -/

@[simp] theorem recvScan_buf (expectBody : Bool) (junk : Bytes) (s : RecvState) :
    (recvScan expectBody junk s).buf = s.buf := by
  unfold recvScan
  split <;> rfl

@[simp] theorem recvScan_base (expectBody : Bool) (junk : Bytes) (s : RecvState) :
    (recvScan expectBody junk s).base = s.base := by
  unfold recvScan
  split <;> rfl

@[simp] theorem recvScan_cap (expectBody : Bool) (junk : Bytes) (s : RecvState) :
    (recvScan expectBody junk s).cap = s.cap := by
  unfold recvScan
  split <;> rfl

theorem recvScan_of_bodyStart {s : RecvState} (expectBody : Bool) (junk : Bytes)
    (h : s.bodyStart ≠ none) : recvScan expectBody junk s = s := by
  unfold recvScan
  split
  · rename_i hnone _
    exact absurd hnone h
  · rfl

theorem memmem_whole (buf pat : Bytes) : memmem buf 0 buf.length pat = find pat buf := by
  rw [← Nat.sub_zero buf.length, memmem_tail, List.drop_zero]
  cases find pat buf <;> simp

theorem recvScan_of_none {s : RecvState} (expectBody : Bool) (junk : Bytes)
    (h : find CRLFCRLF s.buf = none) : recvScan expectBody junk s = s := by
  unfold recvScan
  rw [memmem_whole, h]
  cases s.bodyStart <;> rfl

/-- Finding the header end fixes `body_start` as an address of the present buffer. -/
theorem recvScan_of_find {s : RecvState} {i : Nat} (expectBody : Bool) (junk : Bytes)
    (hs : s.bodyStart = none) (h : find CRLFCRLF s.buf = some i) :
    recvScan expectBody junk s =
      { s with
        bodyStart := some (s.base + (i + 4))
        contentLength :=
          if expectBody then (recvContentLength (s.buf ++ junk) (i + 4)).getD s.contentLength
          else s.contentLength } := by
  unfold recvScan
  rw [memmem_whole, h, hs]

@[simp] theorem recvData_buf (expectBody : Bool) (bytes junk : Bytes) (s : RecvState) :
    (recvData expectBody bytes junk s).buf = s.buf ++ bytes := by simp [recvData]

@[simp] theorem recvData_base (expectBody : Bool) (bytes junk : Bytes) (s : RecvState) :
    (recvData expectBody bytes junk s).base = s.base := by simp [recvData]

@[simp] theorem recvData_cap (expectBody : Bool) (bytes junk : Bytes) (s : RecvState) :
    (recvData expectBody bytes junk s).cap = s.cap := by simp [recvData]

@[simp] theorem recvGrow_buf (base : Nat) (s : RecvState) : (recvGrow base s).buf = s.buf := by
  unfold recvGrow
  split_ifs <;> rfl

@[simp] theorem recvGrow_bodyStart (base : Nat) (s : RecvState) :
    (recvGrow base s).bodyStart = s.bodyStart := by
  unfold recvGrow
  split_ifs <;> rfl

@[simp] theorem recvGrow_contentLength (base : Nat) (s : RecvState) :
    (recvGrow base s).contentLength = s.contentLength := by
  unfold recvGrow
  split_ifs <;> rfl

/-- With `body_start` at `headLen` of a buffer that was at `base`, and the buffer now at
    `s.base`, the completion test sees the distance of the two buffers too. -/
theorem recvTest_eq {s : RecvState} {base headLen : Nat} (hs : s.bodyStart = some (base + headLen)) :
    recvTest s = some ((((s.base + s.buf.length : Nat) - (base + headLen : Nat) : Int) %
      (SIZE : Int)).toNat) := by
  unfold recvTest
  rw [hs]
  rfl

/-- The loop stores the bytes of the results it consumes, in order, and consumes a result
    whenever there is one. -/
theorem recvLoop_split (expectBody : Bool) (s : RecvState) (results : List RecvResult) :
    ∃ used, results = used ++ (recvLoop expectBody s results).2 ∧
      (recvLoop expectBody s results).1.buf = s.buf ++ bytesOf used ∧
      (results ≠ [] → used ≠ []) := by
  induction results generalizing s with
  | nil => exact ⟨[], rfl, by simp [recvLoop, bytesOf], fun h => absurd rfl h⟩
  | cons r rest ih =>
    cases r with
    | stop => exact ⟨[.stop], rfl, by simp [recvLoop, bytesOf], by simp⟩
    | data bytes junk base =>
      rw [recvLoop]
      split_ifs with hc
      · exact ⟨[.data bytes junk base], rfl, by simp [bytesOf], by simp⟩
      · obtain ⟨used, hused, hbuf, -⟩ := ih (recvGrow base (recvData expectBody bytes junk s))
        refine ⟨.data bytes junk base :: used, ?_, ?_, by simp⟩
        · rw [List.cons_append, ← hused]
        · rw [hbuf]
          simp [bytesOf]

theorem recvLoop_rest_lt (expectBody : Bool) (s : RecvState) {results : List RecvResult}
    (h : results ≠ []) : (recvLoop expectBody s results).2.length < results.length := by
  obtain ⟨used, hused, -, hne⟩ := recvLoop_split expectBody s results
  have := List.length_pos_iff.mpr (hne h)
  conv_rhs => rw [hused, List.length_append]
  omega

end Foxtails.Wire
