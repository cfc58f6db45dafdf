/-
  The parsers of `utils/http.c`: `http_request_parse`, `http_response_parse` and the header
  and body part they share.

  Every pointer of the source is an offset into the copied buffer, under the source's name.
  The early returns of a parser are the errors of its start-line function (`httpRequestLine`,
  `httpStatusLine`), so a buffer is accepted when that function is `.ok`.

  * `httpParseHeadersAndBody_eq`: the shared part sees nothing but the bytes after the start
    line; `headSplit` cuts these into header block and body.
  * `httpRequestLine_ok`, `httpStatusLine_ok`: what acceptance says about the buffer.
  * `httpRequestLine_encode`, `httpStatusLine_encode`: a well-formed start line is accepted.
-/
import Foxtails.Wire.Message

namespace Foxtails.Wire

open Foxtails.Lib.Scan Foxtails.Lib.Libc

abbrev CRLF : Bytes := [CR, LF]
abbrev CRLFCRLF : Bytes := [CR, LF, CR, LF]
abbrev LFLF : Bytes := [LF, LF]

/-! ## The first line -/

/-- `http_first_line`: the offset of the first LF, and the length of the line before it
    without a trailing CR. -/
def httpFirstLine (buffer : Bytes) : Option (Nat × Nat) :=
  (memchr buffer 0 LF buffer.length).map fun lineEnd =>
    (lineEnd, if 0 < lineEnd ∧ buffer[lineEnd - 1]? = some CR then lineEnd - 1 else lineEnd)

/-- The start line of `http_request_parse`: the request so far and `line_end`, or the reply
    that is returned instead. -/
def httpRequestLine (buffer : Bytes) : Except Http (Http × Nat) :=
  match httpFirstLine buffer with
  | none => .error requestTimeout
  | some (lineEnd, lineLen) =>
    match memchr buffer 0 SP lineLen with
    | none => .error badRequest
    | some methodEnd =>
      let methodLen := methodEnd
      match httpMethodFromStr (buffer.take methodLen) with
      | none => .error notImplemented
      | some method =>
        let pathStart := methodEnd + 1
        let pathRemaining := lineLen - methodLen - 1
        match memchr buffer pathStart SP pathRemaining with
        | none => .error badRequest
        | some pathEnd =>
          let pathLen := pathEnd - pathStart
          let versionStart := pathEnd + 1
          let versionLen := lineLen - versionStart
          if versionLen ≠ 8 ∨ (buffer.drop versionStart).take 8 ≠ ascii "HTTP/1.1" then
            .error versionNotSupported
          else
            .ok ({ method := some method,
                   path := some (strndup (buffer.drop pathStart) pathLen) }, lineEnd)

/-- The start line of `http_response_parse`. -/
def httpStatusLine (buffer : Bytes) : Except Http (Http × Nat) :=
  match httpFirstLine buffer with
  | none => .error badGateway
  | some (lineEnd, lineLen) =>
    match memchr buffer 0 SP lineLen with
    | none => .error badGateway
    | some versionEnd =>
      let versionLen := versionEnd
      if versionLen ≠ 8 ∨ buffer.take 8 ≠ ascii "HTTP/1.1" then .error versionNotSupported
      else
        let codeStart := versionEnd + 1
        let codeRemaining := lineLen - versionLen - 1
        match memchr buffer codeStart SP codeRemaining with
        | none => .error badGateway
        | some codeEnd =>
          -- `code_buf` holds 15 bytes and a NUL.
          let codeLen := min (codeEnd - codeStart) 15
          let codeBuf := strndup (buffer.drop codeStart) codeLen
          let reasonStart := codeEnd + 1
          let reasonLen := lineLen - reasonStart
          .ok ({ code := atoi codeBuf,
                 reason := some (strndup (buffer.drop reasonStart) reasonLen) }, lineEnd)

/-! ## Headers and body -/

/-- `header_block_end` and `body_start` of `http_parse_headers_and_body`. -/
def headerBlockBounds (buffer : Bytes) (headersStart : Nat) : Nat × Option Nat :=
  let headersRemaining := buffer.length - headersStart
  let blankCrlf := memmem buffer headersStart headersRemaining CRLFCRLF
  let blankLf := memmem buffer headersStart headersRemaining LFLF
  match blankCrlf, blankLf with
  | some c, none => (c, some (c + 4))
  | some c, some l => if c ≤ l then (c, some (c + 4)) else (l, some (l + 2))
  | none, some l => (l, some (l + 2))
  | none, none => (headersStart + headersRemaining, none)

/-- A line without a trailing CR. -/
def trimCr (line : Bytes) : Bytes := if line.getLast? = some CR then line.dropLast else line

/-- The header a line holds, if it holds a colon: what comes before the first colon, and what
    comes after it and after any spaces. -/
def lineHeader (line : Bytes) : Option HttpHeader :=
  (find [COLON] line).map fun colon =>
    ⟨line.take colon, (line.drop (colon + 1)).dropWhile (· == SP)⟩

/-- The body of the `strtok` loop. -/
def httpParseHeaderLine (msg : Http) (line : Bytes) : Http :=
  match lineHeader (trimCr line) with
  | none => msg
  | some h => (httpSetHeader msg h.name h.value).1

/-- `content_length` of `http_parse_headers_and_body`. -/
def parsedContentLength (msg : Http) : Nat :=
  match httpGetHeader msg (ascii "Content-Length") with
  | some contentLengthStr => strtoul contentLengthStr
  | none => 0

/-- `http_parse_headers_and_body`. -/
def httpParseHeadersAndBody (msg : Http) (buffer : Bytes) (headersStart : Nat) : Http :=
  let (blockEnd, bodyStart) := headerBlockBounds buffer headersStart
  let headerBlock := strndup (buffer.drop headersStart) (blockEnd - headersStart)
  let msg := (strtok headerBlock LF).foldl httpParseHeaderLine msg
  let contentLength := parsedContentLength msg
  match bodyStart with
  | none => msg
  | some bodyStart =>
    if 0 < contentLength then
      let available := buffer.length - bodyStart
      let bodyLen := if contentLength < available then contentLength else available
      if 0 < bodyLen then
        { msg with body := some ((buffer.drop bodyStart).take bodyLen), bodyLen := bodyLen }
      else msg
    else msg

/-- `http_request_parse`. -/
def httpRequestParse (buf : Bytes) : Http :=
  match httpRequestLine buf with
  | .error reply => reply
  | .ok (request, lineEnd) => httpParseHeadersAndBody request buf (lineEnd + 1)

/-- `http_response_parse`. -/
def httpResponseParse (buf : Bytes) : Http :=
  match httpStatusLine buf with
  | .error reply => reply
  | .ok (response, lineEnd) => httpParseHeadersAndBody response buf (lineEnd + 1)

/-! ## The shared part in terms of the bytes after the start line -/

/-- Header block and body of the bytes after the start line: cut at the first blank line,
    CRLFCRLF or LFLF. -/
def headSplit (rest : Bytes) : Bytes × Option Bytes :=
  match find CRLFCRLF rest, find LFLF rest with
  | some c, none => (rest.take c, some (rest.drop (c + 4)))
  | some c, some l =>
    if c ≤ l then (rest.take c, some (rest.drop (c + 4)))
    else (rest.take l, some (rest.drop (l + 2)))
  | none, some l => (rest.take l, some (rest.drop (l + 2)))
  | none, none => (rest, none)

/-- The lines the `strtok` loop sees in a header block; the copy of the block ends at a NUL. -/
def blockLines (block : Bytes) : List Bytes := strtok (upto NUL block) LF

/-- The message after the `strtok` loop over `lines`. -/
def parseLines (msg : Http) (lines : List Bytes) : Http := lines.foldl httpParseHeaderLine msg

/-- The message with as much of `content_length` bytes as `bytes` has for its body. -/
def attachBody (msg : Http) (bytes : Option Bytes) : Http :=
  match bytes with
  | none => msg
  | some bytes =>
    if 0 < min (parsedContentLength msg) bytes.length then
      { msg with body := some (bytes.take (parsedContentLength msg)),
                 bodyLen := min (parsedContentLength msg) bytes.length }
    else msg

theorem memmem_tail (buffer : Bytes) (off : Nat) (pat : Bytes) :
    memmem buffer off (buffer.length - off) pat = (find pat (buffer.drop off)).map (off + ·) := by
  unfold memmem
  rw [List.take_of_length_le (by simp)]

theorem headerBlockBounds_eq (buffer : Bytes) (off : Nat) :
    strndup (buffer.drop off) ((headerBlockBounds buffer off).1 - off) =
        upto NUL (headSplit (buffer.drop off)).1 ∧
      (headerBlockBounds buffer off).2.map (buffer.drop ·) =
        (headSplit (buffer.drop off)).2 := by
  have hall : strndup (buffer.drop off) (off + (buffer.length - off) - off) =
      upto NUL (buffer.drop off) := by
    unfold strndup
    rw [List.take_of_length_le (by simp)]
  unfold headerBlockBounds headSplit
  simp only [memmem_tail]
  cases hc : find CRLFCRLF (buffer.drop off) <;> cases hl : find LFLF (buffer.drop off)
  · exact ⟨hall, rfl⟩
  · simp [strndup, List.drop_drop, Nat.add_assoc]
  · simp [strndup, List.drop_drop, Nat.add_assoc]
  · rename_i c l
    by_cases hcl : c ≤ l
    · simp [strndup, List.drop_drop, Nat.add_assoc, hcl]
    · simp [strndup, List.drop_drop, Nat.add_assoc, hcl]

/-- The truncation of the source is `attachBody`. -/
theorem attachBody_drop (msg : Http) (buffer : Bytes) (start : Nat) :
    (if 0 < parsedContentLength msg then
      let available := buffer.length - start
      let bodyLen := if parsedContentLength msg < available then parsedContentLength msg
        else available
      if 0 < bodyLen then
        { msg with body := some ((buffer.drop start).take bodyLen), bodyLen := bodyLen }
      else msg
    else msg) = attachBody msg (some (buffer.drop start)) := by
  have hlen : (buffer.drop start).length = buffer.length - start := List.length_drop
  simp only [attachBody, hlen]
  by_cases hlt : parsedContentLength msg < buffer.length - start
  · simp only [hlt, if_true, Nat.min_eq_left (Nat.le_of_lt hlt)]
    split_ifs <;> rfl
  · have hle : buffer.length - start ≤ parsedContentLength msg := by omega
    simp only [hlt, if_false, Nat.min_eq_right hle,
      List.take_of_length_le (Nat.le_trans (Nat.le_of_eq hlen) hle),
      List.take_of_length_le (Nat.le_of_eq hlen)]
    by_cases h0 : 0 < buffer.length - start
    · rw [if_pos (by omega)]
    · simp [h0]

/-- The shared part sees nothing but the bytes after the start line. -/
theorem httpParseHeadersAndBody_eq (msg : Http) (buffer : Bytes) (off : Nat) :
    httpParseHeadersAndBody msg buffer off =
      attachBody (parseLines msg (blockLines (headSplit (buffer.drop off)).1))
        (headSplit (buffer.drop off)).2 := by
  obtain ⟨hblock, hbody⟩ := headerBlockBounds_eq buffer off
  unfold httpParseHeadersAndBody
  simp only [hblock]
  rw [← hbody]
  cases (headerBlockBounds buffer off).2 with
  | none => rfl
  | some start => exact attachBody_drop _ buffer start

/-- Nothing but the body is attached. -/
theorem attachBody_eq (msg : Http) (bytes : Option Bytes) :
    ∃ body bodyLen, attachBody msg bytes = { msg with body, bodyLen } := by
  unfold attachBody
  split
  · exact ⟨msg.body, msg.bodyLen, rfl⟩
  · split_ifs
    · exact ⟨_, _, rfl⟩
    · exact ⟨msg.body, msg.bodyLen, rfl⟩

@[simp] theorem attachBody_headers (msg : Http) (bytes : Option Bytes) :
    (attachBody msg bytes).headers = msg.headers := by
  obtain ⟨_, _, heq⟩ := attachBody_eq msg bytes
  rw [heq]

@[simp] theorem attachBody_path (msg : Http) (bytes : Option Bytes) :
    (attachBody msg bytes).path = msg.path := by
  obtain ⟨_, _, heq⟩ := attachBody_eq msg bytes
  rw [heq]

@[simp] theorem attachBody_method (msg : Http) (bytes : Option Bytes) :
    (attachBody msg bytes).method = msg.method := by
  obtain ⟨_, _, heq⟩ := attachBody_eq msg bytes
  rw [heq]

theorem httpParseHeaderLine_eq (msg : Http) (line : Bytes) :
    ∃ hs, httpParseHeaderLine msg line = { msg with headers := hs } := by
  unfold httpParseHeaderLine
  split
  · exact ⟨msg.headers, rfl⟩
  · exact ⟨_, rfl⟩

/-- The `strtok` loop changes nothing but the headers. -/
theorem parseLines_eq (msg : Http) (lines : List Bytes) :
    ∃ hs, parseLines msg lines = { msg with headers := hs } := by
  unfold parseLines
  induction lines generalizing msg with
  | nil => exact ⟨msg.headers, rfl⟩
  | cons line lines ih =>
    obtain ⟨hs, h⟩ := httpParseHeaderLine_eq msg line
    obtain ⟨hs', h'⟩ := ih (httpParseHeaderLine msg line)
    exact ⟨hs', by rw [List.foldl_cons, h', h]⟩

@[simp] theorem parseLines_path (msg : Http) (lines : List Bytes) :
    (parseLines msg lines).path = msg.path := by
  obtain ⟨hs, h⟩ := parseLines_eq msg lines
  rw [h]

@[simp] theorem parseLines_method (msg : Http) (lines : List Bytes) :
    (parseLines msg lines).method = msg.method := by
  obtain ⟨hs, h⟩ := parseLines_eq msg lines
  rw [h]

@[simp] theorem parseLines_body (msg : Http) (lines : List Bytes) :
    (parseLines msg lines).body = msg.body := by
  obtain ⟨hs, h⟩ := parseLines_eq msg lines
  rw [h]

/-! ## Accepted start lines -/

theorem httpFirstLine_eq_some {buffer : Bytes} {lineEnd lineLen : Nat}
    (h : httpFirstLine buffer = some (lineEnd, lineLen)) :
    find [LF] buffer = some lineEnd ∧ lineLen ≤ lineEnd := by
  unfold httpFirstLine memchr at h
  rw [List.drop_zero, List.take_length] at h
  simp only [Option.map_map, Option.map_eq_some_iff, Function.comp, Prod.mk.injEq,
    Nat.zero_add] at h
  obtain ⟨i, hi, rfl, rfl⟩ := h
  exact ⟨hi, by split_ifs <;> omega⟩

/-- What a start line leaves for the shared part: no header and no body yet. -/
structure Fresh (msg : Http) : Prop where
  headers : msg.headers = .empty
  body : msg.body = none
  bodyLen : msg.bodyLen = 0

theorem httpRequestLine_ok {buffer : Bytes} {request : Http} {lineEnd : Nat}
    (h : httpRequestLine buffer = .ok (request, lineEnd)) :
    find [LF] buffer = some lineEnd ∧ Fresh request ∧
      request.path.isSome ∧ request.method.isSome := by
  unfold httpRequestLine at h
  split at h
  · cases h
  rename_i e l hline
  split at h
  · cases h
  dsimp only at h
  split at h
  · cases h
  split at h
  · cases h
  split_ifs at h with hv
  simp only [Except.ok.injEq, Prod.mk.injEq] at h
  obtain ⟨rfl, rfl⟩ := h
  exact ⟨(httpFirstLine_eq_some hline).1, ⟨rfl, rfl, rfl⟩, rfl, rfl⟩

theorem httpStatusLine_ok {buffer : Bytes} {response : Http} {lineEnd : Nat}
    (h : httpStatusLine buffer = .ok (response, lineEnd)) :
    find [LF] buffer = some lineEnd ∧ Fresh response := by
  unfold httpStatusLine at h
  split at h
  · cases h
  rename_i e l hline
  split at h
  · cases h
  dsimp only at h
  split_ifs at h with hv
  split at h
  · cases h
  simp only [Except.ok.injEq, Prod.mk.injEq] at h
  obtain ⟨rfl, rfl⟩ := h
  exact ⟨(httpFirstLine_eq_some hline).1, ⟨rfl, rfl, rfl⟩⟩

/-- An accepted buffer is its first line, and what the shared part makes of the rest. -/
theorem httpRequestParse_ok {buffer : Bytes} {request : Http} {lineEnd : Nat}
    (h : httpRequestLine buffer = .ok (request, lineEnd)) :
    httpRequestParse buffer =
      attachBody (parseLines request (blockLines (headSplit (buffer.drop (lineEnd + 1))).1))
        (headSplit (buffer.drop (lineEnd + 1))).2 := by
  unfold httpRequestParse
  rw [h]
  exact httpParseHeadersAndBody_eq request buffer (lineEnd + 1)

theorem httpResponseParse_ok {buffer : Bytes} {response : Http} {lineEnd : Nat}
    (h : httpStatusLine buffer = .ok (response, lineEnd)) :
    httpResponseParse buffer =
      attachBody (parseLines response (blockLines (headSplit (buffer.drop (lineEnd + 1))).1))
        (headSplit (buffer.drop (lineEnd + 1))).2 := by
  unfold httpResponseParse
  rw [h]
  exact httpParseHeadersAndBody_eq response buffer (lineEnd + 1)

/-- The buffers `http_request_parse` takes as a request. -/
def RequestAccepted (buffer : Bytes) : Prop :=
  ∃ request lineEnd, httpRequestLine buffer = .ok (request, lineEnd)

/-- The buffers `http_response_parse` takes as a response. -/
def ResponseAccepted (buffer : Bytes) : Prop :=
  ∃ response lineEnd, httpStatusLine buffer = .ok (response, lineEnd)

/-- The replies of the error exits are `http_t` values without a path. -/
theorem httpRequestLine_error {buffer : Bytes} {reply : Http}
    (h : httpRequestLine buffer = .error reply) : reply.path = none := by
  unfold httpRequestLine at h
  split at h
  · cases h; rfl
  split at h
  · cases h; rfl
  dsimp only at h
  split at h
  · cases h; rfl
  split at h
  · cases h; rfl
  split_ifs at h
  cases h; rfl

/-- The test of `worker_callback` tells requests from error replies. -/
theorem requestAccepted_iff (buffer : Bytes) :
    RequestAccepted buffer ↔ (httpRequestParse buffer).path ≠ none := by
  constructor
  · rintro ⟨request, lineEnd, h⟩
    have hpath := (httpRequestLine_ok h).2.2.1
    rw [httpRequestParse_ok h, attachBody_path, parseLines_path]
    exact Option.isSome_iff_ne_none.mp hpath
  · intro hne
    cases h : httpRequestLine buffer with
    | error reply =>
      unfold httpRequestParse at hne
      rw [h] at hne
      exact absurd (httpRequestLine_error h) hne
    | ok r => exact ⟨r.1, r.2, h⟩

/-- `memchr` finds the first `c` behind a known start. -/
theorem memchr_append (pre mid post : Bytes) {c : Byte} {n : Nat} (hmid : c ∉ mid)
    (hn : mid.length < n) :
    memchr (pre ++ mid ++ c :: post) pre.length c n = some (pre.length + mid.length) := by
  unfold memchr
  have hdrop : (pre ++ mid ++ c :: post).drop pre.length = mid ++ c :: post := by
    rw [List.append_assoc, List.drop_left]
  obtain ⟨k, rfl⟩ : ∃ k, n = mid.length + (k + 1) := ⟨n - mid.length - 1, by omega⟩
  rw [hdrop, List.take_length_add_append, List.take_succ_cons, find_singleton_append c _ _ hmid]
  rfl

/-- The first line up to a CRLF. -/
theorem httpFirstLine_crlf {line : Bytes} (hlf : LF ∉ line) (rest : Bytes) :
    httpFirstLine (line ++ CRLF ++ rest) = some (line.length + 1, line.length) := by
  have heq : line ++ CRLF ++ rest = (line ++ [CR]) ++ LF :: rest := by simp
  have hlf' : LF ∉ line ++ [CR] := by
    rw [List.mem_append, not_or]
    exact ⟨hlf, by decide⟩
  have hfind : memchr (line ++ CRLF ++ rest) 0 LF (line ++ CRLF ++ rest).length =
      some (line.length + 1) := by
    have := memchr_append [] (line ++ [CR]) rest (n := (line ++ CRLF ++ rest).length) hlf'
      (by rw [heq]; simp)
    simpa [heq] using this
  unfold httpFirstLine
  rw [hfind]
  simp

/-- Copying a part without NUL out of a buffer. -/
theorem strndup_part (pre : Bytes) {part : Bytes} (post : Bytes) (hnul : NUL ∉ part) :
    strndup ((pre ++ part ++ post).drop pre.length) part.length = part := by
  unfold strndup
  rw [List.append_assoc, List.drop_left, List.take_left, upto_of_not_mem hnul]

/-- The request line of a method and a path without space, LF and NUL is accepted. -/
theorem httpRequestLine_encode (m : Method) (path rest : Bytes) (hsp : SP ∉ path)
    (hlf : LF ∉ path) (hnul : NUL ∉ path) :
    httpRequestLine (m.text ++ SP :: (path ++ SP :: (ascii "HTTP/1.1" ++ CRLF ++ rest))) =
      .ok ({ method := some m, path := some path }, m.text.length + path.length + 11) := by
  obtain ⟨hmsp, hmlf⟩ := m.sp_not_mem_text
  have hverlf : LF ∉ ascii "HTTP/1.1" := by decide
  have hverlen : (ascii "HTTP/1.1").length = 8 := by decide
  set buffer := m.text ++ SP :: (path ++ SP :: (ascii "HTTP/1.1" ++ CRLF ++ rest)) with hbuf
  have hline : httpFirstLine buffer =
      some (m.text.length + path.length + 11, m.text.length + path.length + 10) := by
    have hlf' : LF ∉ m.text ++ SP :: (path ++ SP :: ascii "HTTP/1.1") := by
      simp [hmlf, hlf, hverlf]; decide
    have heq : buffer = m.text ++ SP :: (path ++ SP :: ascii "HTTP/1.1") ++ CRLF ++ rest := by
      simp [hbuf]
    have hlen : (m.text ++ SP :: (path ++ SP :: ascii "HTTP/1.1")).length =
        m.text.length + path.length + 10 := by
      simp [hverlen]; omega
    rw [heq, httpFirstLine_crlf hlf' rest, hlen]
  have hsp1 : memchr buffer 0 SP (m.text.length + path.length + 10) = some m.text.length := by
    have := memchr_append [] m.text (path ++ SP :: (ascii "HTTP/1.1" ++ CRLF ++ rest))
      (n := m.text.length + path.length + 10) hmsp (by omega)
    simpa [hbuf] using this
  have hsp2 : memchr buffer (m.text.length + 1) SP
      (m.text.length + path.length + 10 - m.text.length - 1) =
        some (m.text.length + 1 + path.length) := by
    have := memchr_append (m.text ++ [SP]) path (ascii "HTTP/1.1" ++ CRLF ++ rest)
      (n := m.text.length + path.length + 10 - m.text.length - 1) hsp (by omega)
    simpa [hbuf] using this
  have hmethod : buffer.take m.text.length = m.text := by simp [hbuf]
  have hpath : strndup (buffer.drop (m.text.length + 1)) path.length = path := by
    have := strndup_part (m.text ++ [SP]) (SP :: (ascii "HTTP/1.1" ++ CRLF ++ rest)) hnul
    simpa [hbuf] using this
  have hversion : (buffer.drop (m.text.length + 1 + path.length + 1)).take 8 = ascii "HTTP/1.1" := by
    have : buffer = (m.text ++ [SP] ++ path ++ [SP]) ++ (ascii "HTTP/1.1" ++ (CRLF ++ rest)) := by
      simp [hbuf]
    rw [this, List.drop_left' (by simp; omega), List.take_left' hverlen]
  unfold httpRequestLine
  rw [hline]
  dsimp only
  rw [hsp1]
  dsimp only
  rw [hmethod, httpMethodFromStr_text]
  dsimp only
  rw [hsp2]
  dsimp only
  rw [hversion, if_neg (by simp; omega), Nat.add_sub_cancel_left, hpath]

/-- The status line of an `int` and a reason without control characters is accepted. -/
theorem httpStatusLine_encode {code : Int} (hlo : -2 ^ 31 ≤ code) (hhi : code < 2 ^ 31)
    {reason : Bytes} (rest : Bytes) (hlf : LF ∉ reason) (hnul : NUL ∉ reason) :
    httpStatusLine (ascii "HTTP/1.1" ++ SP :: (fmtInt code ++ SP :: (reason ++ CRLF ++ rest))) =
      .ok ({ code := code, reason := some reason },
        (fmtInt code).length + reason.length + 11) := by
  have hverlen : (ascii "HTTP/1.1").length = 8 := by decide
  have hversp : SP ∉ ascii "HTTP/1.1" := by decide
  have hverlf : LF ∉ ascii "HTTP/1.1" := by decide
  have hcodesp : SP ∉ fmtInt code := not_mem_fmtInt (by decide) (by decide)
  have hcodelf : LF ∉ fmtInt code := not_mem_fmtInt (by decide) (by decide)
  have hcodenul : NUL ∉ fmtInt code := not_mem_fmtInt (by decide) (by decide)
  have hcodelen := fmtInt_length_le hlo hhi
  set n := (fmtInt code).length with hn
  set buffer := ascii "HTTP/1.1" ++ SP :: (fmtInt code ++ SP :: (reason ++ CRLF ++ rest)) with hbuf
  have hline : httpFirstLine buffer = some (n + reason.length + 11, n + reason.length + 10) := by
    have hlf' : LF ∉ ascii "HTTP/1.1" ++ SP :: (fmtInt code ++ SP :: reason) := by
      simp [hcodelf, hlf, hverlf]; decide
    have heq : buffer = ascii "HTTP/1.1" ++ SP :: (fmtInt code ++ SP :: reason) ++ CRLF ++ rest := by
      simp [hbuf]
    have hlen : (ascii "HTTP/1.1" ++ SP :: (fmtInt code ++ SP :: reason)).length =
        n + reason.length + 10 := by
      simp [hverlen]; omega
    rw [heq, httpFirstLine_crlf hlf' rest, hlen]
  have hsp1 : memchr buffer 0 SP (n + reason.length + 10) = some 8 := by
    have := memchr_append [] (ascii "HTTP/1.1") (fmtInt code ++ SP :: (reason ++ CRLF ++ rest))
      (n := n + reason.length + 10) hversp (by omega)
    simpa [hbuf, hverlen] using this
  have hsp2 : memchr buffer (8 + 1) SP (n + reason.length + 10 - 8 - 1) = some (8 + 1 + n) := by
    have := memchr_append (ascii "HTTP/1.1" ++ [SP]) (fmtInt code) (reason ++ CRLF ++ rest)
      (n := n + reason.length + 10 - 8 - 1) hcodesp (by omega)
    simpa [hbuf, hverlen] using this
  have hversion : buffer.take 8 = ascii "HTTP/1.1" := List.take_left' hverlen
  have hcode : strndup (buffer.drop (8 + 1)) n = fmtInt code := by
    have := strndup_part (ascii "HTTP/1.1" ++ [SP]) (SP :: (reason ++ CRLF ++ rest)) hcodenul
    simpa [hbuf, hverlen] using this
  have hreason : strndup (buffer.drop (8 + 1 + n + 1)) reason.length = reason := by
    have := strndup_part (ascii "HTTP/1.1" ++ [SP] ++ fmtInt code ++ [SP]) (CRLF ++ rest) hnul
    have hpre : (ascii "HTTP/1.1" ++ [SP] ++ fmtInt code ++ [SP]).length = 8 + 1 + n + 1 := by
      simp [hverlen, hn]; omega
    rw [hpre] at this
    simpa [hbuf] using this
  have hcodeLen : min (8 + 1 + n - (8 + 1)) 15 = n := by omega
  have hreasonLen : n + reason.length + 10 - (8 + 1 + n + 1) = reason.length := by omega
  unfold httpStatusLine
  rw [hline]
  dsimp only
  rw [hsp1]
  dsimp only
  rw [if_neg (by rw [hversion]; simp), hsp2]
  dsimp only
  rw [hcodeLen, hcode, hreasonLen, hreason, atoi_fmtInt hlo hhi]

end Foxtails.Wire
