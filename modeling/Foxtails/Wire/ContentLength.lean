/-
  The two readings of a request's body length.

  The receive loop reads the number after the first `Content-Length:` in the bytes of the
  head. The parser reads the value its header table has for that name. `mention` and
  `declared` are the two texts, in terms of the received bytes alone.

  * `recvData_contentLength`, `parsedContentLength_request`: each side reads its text.
  * `content_length_iff`: so the two lengths are equal exactly when the texts denote the same
    number, an absent text denoting 0.
  * `content_length_differs`: a header name in lower case is in the table and not in the
    search.
-/
import Foxtails.Wire.HeaderTable
import Foxtails.Wire.Recv

namespace Foxtails.Wire

open Foxtails.Lib.Scan Foxtails.Lib.Libc

/-! ## The two texts -/

/-- What follows the first `Content-Length:` of the head, which ends with the first CRLFCRLF.
    The text is not cut at the end of its line. `junk` is the memory behind the bytes. -/
def mention (buf junk : Bytes) : Option Bytes :=
  match find CRLFCRLF buf with
  | none => none
  | some i => (find contentLengthText (buf.take (i + 4))).map fun cl => (buf ++ junk).drop (cl + 15)

/-- The bytes after the first LF. -/
def afterFirstLine (buf : Bytes) : Bytes := buf.drop ((upto LF buf).length + 1)

/-- The value of the last header line called Content-Length in any letter case, if fewer than
    `httpMaxHeaders` other names come before the first such line. The lines are those of the
    block from the first line to the next blank line or NUL. -/
def declared (buf : Bytes) : Option Bytes :=
  governingValue (ascii "Content-Length")
    (lineHeaders (blockLines (headSplit (afterFirstLine buf)).1))

/-- The number a text begins with, 0 when there is none. -/
def number (text : Option Bytes) : Nat := text.elim 0 strtoul

/-- The two texts denote the same number. -/
def LengthsAgree (buf junk : Bytes) : Prop :=
  match mention buf junk, declared buf with
  | none, none => True
  | some said, none => strtoul said = 0
  | none, some value => strtoul value = 0
  | some said, some value => strtoul said = strtoul value

theorem lengthsAgree_iff (buf junk : Bytes) :
    LengthsAgree buf junk ↔ number (mention buf junk) = number (declared buf) := by
  unfold LengthsAgree number
  cases mention buf junk <;> cases declared buf <;> simp [eq_comm]

/-! ## What each side reads -/

theorem recvContentLength_eq (mem : Bytes) (headLen : Nat) :
    recvContentLength mem headLen =
      (find contentLengthText (mem.take headLen)).map fun cl => strtoul (mem.drop (cl + 15)) := by
  unfold recvContentLength memmem
  rw [List.drop_zero]
  cases find contentLengthText (mem.take headLen) <;> simp

/-- When the loop finds the end of the head, it reads `mention`. -/
theorem recvData_contentLength {s : RecvState} {bytes junk : Bytes} {i : Nat}
    (hstart : s.bodyStart = none) (hzero : s.contentLength = 0)
    (h : find CRLFCRLF (s.buf ++ bytes) = some i) :
    (recvData true bytes junk s).contentLength = number (mention (s.buf ++ bytes) junk) := by
  unfold recvData mention number
  rw [recvScan_of_find (s := { s with buf := s.buf ++ bytes }) true junk hstart h, h]
  have hle := find_add_length_le h
  have htake : (s.buf ++ bytes ++ junk).take (i + 4) = (s.buf ++ bytes).take (i + 4) :=
    List.take_append_of_le_length hle
  simp only [if_true, recvContentLength_eq, htake, hzero]
  cases find contentLengthText ((s.buf ++ bytes).take (i + 4)) <;> rfl

theorem find_singleton_upto {buf : Bytes} {b : Byte} {i : Nat} (h : find [b] buf = some i) :
    (upto b buf).length = i := by
  obtain ⟨hno, hbuf, hlt⟩ := find_singleton_eq_some h
  have hupto : upto b buf = buf.take i := by
    conv_lhs => rw [hbuf]
    unfold upto
    rw [List.takeWhile_append_of_pos]
    · simp
    · intro x hx
      simpa using fun he : x = b => hno (he ▸ hx)
  rw [hupto, List.length_take_of_le (Nat.le_of_lt hlt)]

/-- The header table of an accepted request has what its lines declare. -/
theorem request_get {buf : Bytes} (hacc : RequestAccepted buf) (k : Bytes) :
    httpGetHeader (httpRequestParse buf) k =
      governingValue k (lineHeaders (blockLines (headSplit (afterFirstLine buf)).1)) := by
  obtain ⟨request, lineEnd, h⟩ := hacc
  obtain ⟨hlf, hfresh, -⟩ := httpRequestLine_ok h
  have hrest : buf.drop (lineEnd + 1) = afterFirstLine buf := by
    unfold afterFirstLine
    rw [find_singleton_upto hlf]
  rw [httpRequestParse_ok h, hrest]
  unfold httpGetHeader
  rw [attachBody_headers, parseLines_headers, hfresh.headers, HttpHeaders.get_setAll]

/-- The parser reads `declared`. -/
theorem parsedContentLength_request {buf : Bytes} (hacc : RequestAccepted buf) :
    parsedContentLength (httpRequestParse buf) = number (declared buf) := by
  unfold parsedContentLength number
  rw [request_get hacc, ← declared]
  cases declared buf <;> rfl

/-! ## When they agree -/

/-- **The lengths are equal exactly when the two texts denote the same number**: for every
    accepted buffer that completes its head with the bytes just received, whatever was stored
    before and whatever lies behind. -/
theorem content_length_iff (s : RecvState) (bytes junk : Bytes) (hstart : s.bodyStart = none)
    (hzero : s.contentLength = 0) (hhead : find CRLFCRLF (s.buf ++ bytes) ≠ none)
    (hacc : RequestAccepted (s.buf ++ bytes)) :
    (recvData true bytes junk s).contentLength =
        parsedContentLength (httpRequestParse (s.buf ++ bytes)) ↔
      LengthsAgree (s.buf ++ bytes) junk := by
  obtain ⟨i, hi⟩ := Option.ne_none_iff_exists'.mp hhead
  rw [recvData_contentLength hstart hzero hi, parsedContentLength_request hacc, lengthsAgree_iff]

/-- A request whose only header line is `line`, with `body` behind it. -/
def postWith (line body : Bytes) : Bytes :=
  ascii "POST / HTTP/1.1" ++ CRLF ++ (line ++ CRLF ++ CRLF ++ body)

theorem postWith_accepted (line body : Bytes) : RequestAccepted (postWith line body) :=
  ⟨_, _, httpRequestLine_encode .post (ascii "/") (line ++ CRLF ++ CRLF ++ body) (by decide)
    (by decide) (by decide)⟩

/-- Both sides of `content_length_iff` on a request with the usual spelling. -/
theorem content_length_iff_usual :
    (recvData true (postWith (ascii "Content-Length: 5") (ascii "hello")) []
          { base := 0 }).contentLength =
        parsedContentLength
          (httpRequestParse (postWith (ascii "Content-Length: 5") (ascii "hello"))) ↔
      LengthsAgree (postWith (ascii "Content-Length: 5") (ascii "hello")) [] :=
  content_length_iff { base := 0 } (postWith (ascii "Content-Length: 5") (ascii "hello")) []
    rfl rfl (by decide) (postWith_accepted _ _)

/-- With the name in lower case the loop waits for 0 bytes and the parser for 5. -/
theorem content_length_differs :
    RequestAccepted (postWith (ascii "content-length: 5") (ascii "hello")) ∧
      find CRLFCRLF (postWith (ascii "content-length: 5") (ascii "hello")) ≠ none ∧
      (recvData true (postWith (ascii "content-length: 5") (ascii "hello")) []
        { base := 0 }).contentLength = 0 ∧
      parsedContentLength
        (httpRequestParse (postWith (ascii "content-length: 5") (ascii "hello"))) = 5 :=
  ⟨postWith_accepted _ _, by decide, by decide, by decide⟩

end Foxtails.Wire
