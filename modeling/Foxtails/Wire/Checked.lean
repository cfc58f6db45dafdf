/-
  The parsers of `utils/http.c` with their bounds.

  `checkedRequestParse` and `checkedResponseParse` are the parsers with every access, every
  search and every difference of two `size_t` in its bounds (`Lib.Object`): a parse that reads
  outside the buffer, or outside a copy it made, is `none`. The parsers of `Parse` say what
  they compute, these what they touch on the way.

  * `checkedRequestLine_eq`, `checkedStatusLine_eq`: the start lines stay inside, except for the
    word a log line complains about. `%.*s` gets its length as an `int`, and a negative one
    stands for the whole string: up to the next NUL, in the buffer or behind it.
  * `checkedHeadersAndBody_eq`: the shared part stays inside.
  * `checkedRequestParse_eq`, `checkedResponseParse_eq`: so the parsers do what `Parse` says if
    the log line comes to an end.
-/
import Foxtails.Lib.Object
import Foxtails.Wire.Grammar

namespace Foxtails.Wire

open Foxtails.Lib Foxtails.Lib.Scan Foxtails.Lib.Libc

/-! ## The parsers with their bounds -/

/-- `clog(CLOG_ERROR, "... %.*s", (int) len, buffer + start)`; `muted` is whether the log level
    keeps it from printing. -/
def logWord (muted : Bool) (buffer : Bytes) (start len : Nat) : Option Unit :=
  if muted then some ()
  else (Object.printStr (buffer.drop start) (Object.castInt len)).map fun _ => ()

/-- `http_first_line`. -/
def checkedFirstLine (buffer : Bytes) : Option (Option (Nat × Nat)) := do
  match ← Object.memchr buffer 0 LF buffer.length with
  | none => pure none
  | some lineEnd =>
    let lineLen ← Object.sub lineEnd 0
    if 0 < lineLen then
      let last ← Object.byte buffer (lineLen - 1)
      pure (some (lineEnd, if last = CR then lineLen - 1 else lineLen))
    else pure (some (lineEnd, lineLen))

/-- `!(version_len != 8 || memcmp(version_start, "HTTP/1.1", 8) != 0)`. -/
def checkedVersion (buffer : Bytes) (versionStart versionLen : Nat) : Option Bool :=
  if versionLen = 8 then (Object.bytes buffer versionStart 8).map (· == ascii "HTTP/1.1")
  else some false

/-- The start line of `http_request_parse`. -/
def checkedRequestLine (muted : Bool) (buffer : Bytes) : Option (Except Http (Http × Nat)) := do
  match ← checkedFirstLine buffer with
  | none => pure (.error requestTimeout)
  | some (lineEnd, lineLen) =>
    match ← Object.memchr buffer 0 SP lineLen with
    | none => pure (.error badRequest)
    | some methodEnd =>
      let methodLen ← Object.sub methodEnd 0
      let methodStr ← Object.bytes buffer 0 methodLen
      match httpMethodFromStr methodStr with
      | none =>
        logWord muted buffer 0 methodLen
        pure (.error notImplemented)
      | some method =>
        let pathStart := methodEnd + 1
        let pathRemaining ← (Object.sub lineLen methodLen).bind (Object.sub · 1)
        match ← Object.memchr buffer pathStart SP pathRemaining with
        | none => pure (.error badRequest)
        | some pathEnd =>
          let pathLen ← Object.sub pathEnd pathStart
          let versionStart := pathEnd + 1
          let versionLen ← Object.sub lineLen versionStart
          let supported ← checkedVersion buffer versionStart versionLen
          if supported then
            let path ← Object.readStr (buffer.drop pathStart) pathLen
            pure (.ok ({ method := some method, path := some path }, lineEnd))
          else
            logWord muted buffer versionStart versionLen
            pure (.error versionNotSupported)

/-- A string and its NUL, stored in a buffer of `size` bytes. -/
def storeStr (size : Nat) (str : Bytes) : Option Bytes :=
  if str.length < size then some (str ++ [NUL]) else none

/-- The start line of `http_response_parse`. -/
def checkedStatusLine (muted : Bool) (buffer : Bytes) : Option (Except Http (Http × Nat)) := do
  match ← checkedFirstLine buffer with
  | none => pure (.error badGateway)
  | some (lineEnd, lineLen) =>
    match ← Object.memchr buffer 0 SP lineLen with
    | none => pure (.error badGateway)
    | some versionEnd =>
      let versionLen ← Object.sub versionEnd 0
      let supported ← checkedVersion buffer 0 versionLen
      if supported then
        let codeStart := versionEnd + 1
        let codeRemaining ← (Object.sub lineLen versionLen).bind (Object.sub · 1)
        match ← Object.memchr buffer codeStart SP codeRemaining with
        | none => pure (.error badGateway)
        | some codeEnd =>
          let codeLen ← Object.sub codeEnd codeStart
          let codeLen := if codeLen ≥ 16 then 15 else codeLen
          -- the copy and its NUL in `code_buf[16]`
          let code ← Object.bytes buffer codeStart codeLen
          let codeBuf ← storeStr 16 code
          let reasonStart := codeEnd + 1
          let reasonLen ← Object.sub lineLen reasonStart
          let reason ← Object.readStr (buffer.drop reasonStart) reasonLen
          pure (.ok ({ code := atoi (upto NUL codeBuf), reason := some reason }, lineEnd))
      else
        logWord muted buffer 0 versionLen
        pure (.error versionNotSupported)

/-- `header_block_end` and `body_start`. -/
def checkedBlockBounds (buffer : Bytes) (headersStart : Nat) : Option (Nat × Option Nat) := do
  let headersRemaining ← Object.sub buffer.length headersStart
  let blankCrlf ← Object.memmem buffer headersStart headersRemaining CRLFCRLF
  let blankLf ← Object.memmem buffer headersStart headersRemaining LFLF
  pure (match blankCrlf, blankLf with
    | some c, none => (c, some (c + 4))
    | some c, some l => if c ≤ l then (c, some (c + 4)) else (l, some (l + 2))
    | none, some l => (l, some (l + 2))
    | none, none => (headersStart + headersRemaining, none))

/-- `if (hlen > 0 && line[hlen - 1] == '\r') line[hlen - 1] = '\0'`, in a copy that ends with a
    NUL. -/
def checkedTrimCr (line : Bytes) : Option Bytes :=
  if 0 < line.length then
    (Object.byte (line ++ [NUL]) (line.length - 1)).map fun last =>
      if last = CR then line.take (line.length - 1) else line
  else some line

/-- The body of the `strtok` loop. The token ends with a NUL, which is read too. -/
def checkedHeaderLine (msg : Http) (line : Bytes) : Option Http := do
  let line ← checkedTrimCr line
  match find [COLON] line with
  | none => pure msg
  | some colon =>
    let name ← Object.bytes (line ++ [NUL]) 0 colon
    let rest ← Object.bytes (line ++ [NUL]) (colon + 1) ((line ++ [NUL]).length - (colon + 1))
    let spaces ← Object.skip (· == SP) rest
    pure (httpSetHeader msg name (upto NUL (rest.drop spaces))).1

/-- `http_parse_headers_and_body`. -/
def checkedHeadersAndBody (msg : Http) (buffer : Bytes) (headersStart : Nat) : Option Http := do
  let (blockEnd, bodyStart) ← checkedBlockBounds buffer headersStart
  let blockLen ← Object.sub blockEnd headersStart
  let headerBlock ← Object.readStr (buffer.drop headersStart) blockLen
  let msg ← (strtok headerBlock LF).foldlM checkedHeaderLine msg
  let contentLength := parsedContentLength msg
  match bodyStart with
  | none => pure msg
  | some bodyStart =>
    if 0 < contentLength then
      let available ← Object.sub buffer.length bodyStart
      let bodyLen := if contentLength < available then contentLength else available
      if 0 < bodyLen then
        let body ← Object.bytes buffer bodyStart bodyLen
        pure { msg with body := some body, bodyLen := bodyLen }
      else pure msg
    else pure msg

/-- `http_request_parse`. -/
def checkedRequestParse (muted : Bool) (buf : Bytes) : Option Http := do
  match ← checkedRequestLine muted buf with
  | .error reply => pure reply
  | .ok (request, lineEnd) => checkedHeadersAndBody request buf (lineEnd + 1)

/-- `http_response_parse`. -/
def checkedResponseParse (muted : Bool) (buf : Bytes) : Option Http := do
  match ← checkedStatusLine muted buf with
  | .error reply => pure reply
  | .ok (response, lineEnd) => checkedHeadersAndBody response buf (lineEnd + 1)

/-! ## The word a log line complains about -/

/-- Where the word of a request line is that gets logged, and how long it is: the first, if it
    is no method, or all behind the second space, if that is not the version. -/
def refusedWord (line : Bytes) : Option (Nat × Nat) :=
  (find [SP] line).bind fun methodEnd =>
    if httpMethodFromStr (line.take methodEnd) = none then some (0, methodEnd)
    else
      (find [SP] (line.drop (methodEnd + 1))).bind fun pathLen =>
        let versionStart := methodEnd + 1 + pathLen + 1
        if line.drop versionStart = ascii "HTTP/1.1" then none
        else some (versionStart, line.length - versionStart)

/-- The same for a status line: the first word, if it is not the version. -/
def refusedVersion (line : Bytes) : Option (Nat × Nat) :=
  (find [SP] line).bind fun versionEnd =>
    if line.take versionEnd = ascii "HTTP/1.1" then none else some (0, versionEnd)

/-- The log line, where there is a word to complain about. -/
def logRefused (muted : Bool) (buffer : Bytes) : Option (Nat × Nat) → Option Unit
  | none => some ()
  | some (start, len) => logWord muted buffer start len

/-! ## The start lines stay inside -/

theorem checkedFirstLine_eq (buffer : Bytes) :
    checkedFirstLine buffer = some (httpFirstLine buffer) := by
  unfold checkedFirstLine httpFirstLine
  rw [Object.memchr_eq LF (Nat.le_of_eq (Nat.zero_add _))]
  cases hfind : memchr buffer 0 LF buffer.length with
  | none => rfl
  | some lineEnd =>
    have hlt := (Object.memchr_bounds hfind).2.2
    simp only [Option.bind_eq_bind, Option.bind_some, Object.sub_eq (Nat.zero_le _), Nat.sub_zero,
      Option.map_some]
    by_cases hpos : 0 < lineEnd
    · have hin : lineEnd - 1 < buffer.length := by omega
      simp [hpos, Object.byte, List.getElem?_eq_getElem hin]
    · simp [hpos]

theorem checkedVersion_eq {buffer : Bytes} {lineLen start : Nat} (h : lineLen ≤ buffer.length)
    (hstart : start ≤ lineLen) :
    checkedVersion buffer start (lineLen - start) =
      some ((buffer.take lineLen).drop start == ascii "HTTP/1.1") := by
  unfold checkedVersion
  by_cases h8 : lineLen - start = 8
  · rw [if_pos h8, Object.bytes_eq (by omega), List.drop_take, h8]
    rfl
  · have hne : (buffer.take lineLen).drop start ≠ ascii "HTTP/1.1" := by
      intro heq
      have hlen := congrArg List.length heq
      rw [List.length_drop, List.length_take_of_le h] at hlen
      exact h8 hlen
    rw [if_neg h8, beq_false_of_ne hne]

theorem checkedRequestLine_eq (muted : Bool) (buffer : Bytes) :
    checkedRequestLine muted buffer =
      (logRefused muted buffer ((startLine buffer).bind refusedWord)).map
        fun _ => httpRequestLine buffer := by
  unfold checkedRequestLine httpRequestLine
  rw [checkedFirstLine_eq]
  cases hfirst : httpFirstLine buffer with
  | none =>
    rw [httpFirstLine_eq_none_iff.mp hfirst]
    rfl
  | some bounds =>
    obtain ⟨lineEnd, lineLen⟩ := bounds
    obtain ⟨hline, hlen⟩ := startLine_of_httpFirstLine hfirst
    have hlength : (buffer.take lineLen).length = lineLen := List.length_take_of_le hlen
    rw [hline]
    simp only [Option.bind_eq_bind, Option.bind_some,
      Object.memchr_eq SP (show 0 + lineLen ≤ buffer.length by omega), memchr_line_zero]
    unfold refusedWord
    cases hsp : find [SP] (buffer.take lineLen) with
    | none => rfl
    | some methodEnd =>
      have hlt := (find_singleton_eq_some hsp).2.2
      rw [hlength] at hlt
      simp only [Option.bind_some, Object.sub_eq (Nat.zero_le _), Nat.sub_zero,
        Object.bytes_eq (show 0 + methodEnd ≤ buffer.length by omega), List.drop_zero,
        List.take_take, Nat.min_eq_left hlt.le]
      cases hm : httpMethodFromStr (buffer.take methodEnd) with
      | none =>
        simp only [if_true, logRefused]
        cases logWord muted buffer 0 methodEnd <;> rfl
      | some m =>
        have hscan₂ := memchr_line buffer lineLen (methodEnd + 1) SP
        rw [← Nat.sub_sub] at hscan₂
        simp only [Object.sub_eq hlt.le, Option.bind_some,
          Object.sub_eq (show 1 ≤ lineLen - methodEnd by omega), Object.memchr_eq SP
            (show methodEnd + 1 + (lineLen - methodEnd - 1) ≤ buffer.length by omega),
          hscan₂, reduceCtorEq, if_false]
        cases hsp₂ : find [SP] ((buffer.take lineLen).drop (methodEnd + 1)) with
        | none => rfl
        | some pathLen =>
          have hlt₂ := (find_singleton_eq_some hsp₂).2.2
          rw [List.length_drop, hlength] at hlt₂
          simp only [Option.map_some, Option.bind_some,
            Object.sub_eq (Nat.le_add_right (methodEnd + 1) pathLen),
            Object.sub_eq (show methodEnd + 1 + pathLen + 1 ≤ lineLen by omega),
            checkedVersion_eq hlen (show methodEnd + 1 + pathLen + 1 ≤ lineLen by omega), hlength,
            Nat.add_sub_cancel_left]
          have hversion := version_line hlen (methodEnd + 1 + pathLen + 1)
          by_cases hv : (buffer.take lineLen).drop (methodEnd + 1 + pathLen + 1) = ascii "HTTP/1.1"
          · have hread : pathLen ≤ (buffer.drop (methodEnd + 1)).length := by
              rw [List.length_drop]
              omega
            rw [if_neg (fun h => hversion.mp h hv), if_pos hv, hv]
            simp [Object.readStr_of_le hread, logRefused]
          · rw [if_pos (hversion.mpr hv), if_neg hv, beq_false_of_ne hv]
            simp only [Bool.false_eq_true, if_false, logRefused]
            cases logWord muted buffer (methodEnd + 1 + pathLen + 1)
              (lineLen - (methodEnd + 1 + pathLen + 1)) <;> rfl

theorem storeStr_code {buffer : Bytes} {start len : Nat} :
    storeStr 16 ((buffer.drop start).take (if len ≥ 16 then 15 else len)) =
      some ((buffer.drop start).take (min len 15) ++ [NUL]) := by
  have hlen : (if len ≥ 16 then 15 else len) = min len 15 := by split_ifs <;> omega
  have hshort : ((buffer.drop start).take (min len 15)).length < 16 := by
    rw [List.length_take]
    omega
  rw [hlen, storeStr, if_pos hshort]

theorem upto_store (str : Bytes) : upto NUL (str ++ [NUL]) = upto NUL str := by
  unfold upto
  induction str with
  | nil => rfl
  | cons b str ih =>
    rw [List.cons_append, List.takeWhile_cons, List.takeWhile_cons, ih]

theorem checkedStatusLine_eq (muted : Bool) (buffer : Bytes) :
    checkedStatusLine muted buffer =
      (logRefused muted buffer ((startLine buffer).bind refusedVersion)).map
        fun _ => httpStatusLine buffer := by
  unfold checkedStatusLine httpStatusLine
  rw [checkedFirstLine_eq]
  cases hfirst : httpFirstLine buffer with
  | none =>
    rw [httpFirstLine_eq_none_iff.mp hfirst]
    rfl
  | some bounds =>
    obtain ⟨lineEnd, lineLen⟩ := bounds
    obtain ⟨hline, hlen⟩ := startLine_of_httpFirstLine hfirst
    have hlength : (buffer.take lineLen).length = lineLen := List.length_take_of_le hlen
    rw [hline]
    simp only [Option.bind_eq_bind, Option.bind_some,
      Object.memchr_eq SP (show 0 + lineLen ≤ buffer.length by omega), memchr_line_zero]
    unfold refusedVersion
    cases hsp : find [SP] (buffer.take lineLen) with
    | none => rfl
    | some versionEnd =>
      have hlt := (find_singleton_eq_some hsp).2.2
      rw [hlength] at hlt
      have hsupported := checkedVersion_eq (show versionEnd ≤ buffer.length by omega)
        (Nat.zero_le versionEnd)
      have hversion := version_line (show versionEnd ≤ buffer.length by omega) 0
      rw [Nat.sub_zero, List.drop_zero] at hsupported hversion
      simp only [Option.bind_some, Object.sub_eq (Nat.zero_le _), Nat.sub_zero, hsupported,
        List.take_take, Nat.min_eq_left hlt.le]
      by_cases hv : buffer.take versionEnd = ascii "HTTP/1.1"
      · have hscan₂ := memchr_line buffer lineLen (versionEnd + 1) SP
        rw [← Nat.sub_sub] at hscan₂
        rw [if_neg (fun h => hversion.mp h hv), if_pos hv, hv, beq_self_eq_true, if_pos rfl,
          Object.sub_eq hlt.le, Option.bind_some, Object.sub_eq (by omega), Option.bind_some,
          Object.memchr_eq SP (by omega), hscan₂, Option.bind_some]
        cases hsp₂ : find [SP] ((buffer.take lineLen).drop (versionEnd + 1)) with
        | none => rfl
        | some codeLen =>
          have hlt₂ := (find_singleton_eq_some hsp₂).2.2
          rw [List.length_drop, hlength] at hlt₂
          have hin : versionEnd + 1 + (if codeLen ≥ 16 then 15 else codeLen) ≤ buffer.length := by
            split_ifs <;> omega
          have hread : lineLen - (versionEnd + 1 + codeLen + 1) ≤
              (buffer.drop (versionEnd + 1 + codeLen + 1)).length := by
            rw [List.length_drop]
            omega
          simp only [Option.map_some, Option.bind_some,
            Object.sub_eq (Nat.le_add_right (versionEnd + 1) codeLen), Nat.add_sub_cancel_left,
            Object.bytes_eq hin, storeStr_code, Object.readStr_of_le hread,
            Object.sub_eq (show versionEnd + 1 + codeLen + 1 ≤ lineLen by omega), upto_store]
          rfl
      · rw [if_pos (hversion.mpr hv), if_neg hv, beq_false_of_ne hv]
        simp only [Bool.false_eq_true, if_false, logRefused]
        cases logWord muted buffer 0 versionEnd <;> rfl

/-! ## Headers and body stay inside -/

theorem checkedBlockBounds_eq {buffer : Bytes} {start : Nat} (h : start ≤ buffer.length) :
    checkedBlockBounds buffer start = some (headerBlockBounds buffer start) ∧
      start ≤ (headerBlockBounds buffer start).1 ∧
      (headerBlockBounds buffer start).1 ≤ buffer.length ∧
      ∀ b ∈ (headerBlockBounds buffer start).2, b ≤ buffer.length := by
  have hin : start + (buffer.length - start) ≤ buffer.length := by omega
  unfold checkedBlockBounds headerBlockBounds
  simp only [Object.sub_eq h, Option.bind_eq_bind, Option.bind_some,
    Object.memmem_eq _ hin]
  have hcrlf : ∀ c, memmem buffer start (buffer.length - start) CRLFCRLF = some c →
      start ≤ c ∧ c + 4 ≤ buffer.length := by
    intro c hc
    have hbounds := Object.memmem_bounds hc
    exact ⟨hbounds.1, hbounds.2.2 h⟩
  have hlf : ∀ l, memmem buffer start (buffer.length - start) LFLF = some l →
      start ≤ l ∧ l + 2 ≤ buffer.length := by
    intro l hl
    have hbounds := Object.memmem_bounds hl
    exact ⟨hbounds.1, hbounds.2.2 h⟩
  cases hc : memmem buffer start (buffer.length - start) CRLFCRLF with
  | none =>
    cases hl : memmem buffer start (buffer.length - start) LFLF with
    | none =>
      refine ⟨rfl, Nat.le_add_right _ _, hin, ?_⟩
      intro b hb
      cases hb
    | some l =>
      obtain ⟨h1, h2⟩ := hlf l hl
      have hend : l ≤ buffer.length := by omega
      refine ⟨rfl, h1, hend, ?_⟩
      intro b hb
      obtain rfl := Option.some.inj hb
      exact h2
  | some c =>
    obtain ⟨h1, h2⟩ := hcrlf c hc
    cases hl : memmem buffer start (buffer.length - start) LFLF with
    | none =>
      have hend : c ≤ buffer.length := by omega
      refine ⟨rfl, h1, hend, ?_⟩
      intro b hb
      obtain rfl := Option.some.inj hb
      exact h2
    | some l =>
      obtain ⟨h3, h4⟩ := hlf l hl
      refine ⟨rfl, ?_⟩
      dsimp only
      split_ifs
      · refine ⟨h1, by omega, ?_⟩
        intro b hb
        obtain rfl := Option.some.inj hb
        exact h2
      · refine ⟨h3, by omega, ?_⟩
        intro b hb
        obtain rfl := Option.some.inj hb
        exact h4

theorem checkedTrimCr_eq (str : Bytes) : checkedTrimCr str = some (trimCr str) := by
  unfold checkedTrimCr trimCr
  by_cases hpos : 0 < str.length
  · have hlast : str.length - 1 < str.length := by omega
    have hbyte : Object.byte (str ++ [NUL]) (str.length - 1) = some (str[str.length - 1]) := by
      rw [Object.byte, List.getElem?_append_left hlast, List.getElem?_eq_getElem hlast]
    rw [if_pos hpos, hbyte, List.getLast?_eq_getElem?, List.getElem?_eq_getElem hlast,
      List.dropLast_eq_take]
    simp
  · have hnil : str = [] := List.eq_nil_of_length_eq_zero (by omega)
    rw [if_neg hpos, hnil]
    rfl

theorem checkedHeaderLine_eq (msg : Http) {line : Bytes} (h : NUL ∉ line) :
    checkedHeaderLine msg line = some (httpParseHeaderLine msg line) := by
  have hnul : NUL ∉ trimCr line := by
    unfold trimCr
    split_ifs
    · exact fun hm => h (List.mem_of_mem_dropLast hm)
    · exact h
  unfold checkedHeaderLine httpParseHeaderLine lineHeader
  rw [checkedTrimCr_eq]
  simp only [Option.bind_eq_bind, Option.bind_some]
  generalize trimCr line = line at hnul
  cases hcolon : find [COLON] line with
  | none => rfl
  | some colon =>
    have hlt := (find_singleton_eq_some hcolon).2.2
    have hlen : (line ++ [NUL]).length = line.length + 1 := List.length_append
    have hname : (line ++ [NUL]).take colon = line.take colon :=
      List.take_append_of_le_length hlt.le
    have hrest : (line ++ [NUL]).drop (colon + 1) = line.drop (colon + 1) ++ [NUL] :=
      List.drop_append_of_le_length hlt
    have hskip : Object.skip (· == SP) (line.drop (colon + 1) ++ [NUL]) =
        some ((line.drop (colon + 1) ++ [NUL]).takeWhile (· == SP)).length := by
      rw [Object.skip_eq_some_iff]
      exact ⟨⟨NUL, List.mem_append_right _ (List.mem_singleton.mpr rfl), by decide⟩, rfl⟩
    have hvalue : upto NUL ((line.drop (colon + 1) ++ [NUL]).dropWhile (· == SP)) =
        (line.drop (colon + 1)).dropWhile (· == SP) := by
      have hmem : NUL ∉ (line.drop (colon + 1)).dropWhile (· == SP) := fun hm =>
        hnul (List.drop_subset _ _ ((List.dropWhile_suffix _).subset hm))
      have hdrop : (line.drop (colon + 1) ++ [NUL]).dropWhile (· == SP) =
          (line.drop (colon + 1)).dropWhile (· == SP) ++ [NUL] := by
        rw [List.dropWhile_append]
        split_ifs with hempty
        · rw [List.isEmpty_iff.mp hempty]
          rfl
        · rfl
      rw [hdrop, upto_store, upto_of_not_mem hmem]
    rw [Option.map_some]
    simp only [Object.bytes_eq (show 0 + colon ≤ (line ++ [NUL]).length by omega),
      Object.bytes_eq (show colon + 1 + ((line ++ [NUL]).length - (colon + 1)) ≤
        (line ++ [NUL]).length by omega), List.drop_zero, hname, hrest, Option.bind_some]
    rw [List.take_of_length_le (by rw [← hrest, List.length_drop]), hskip, Option.bind_some,
      Object.drop_skip hskip, hvalue]
    rfl

theorem checkedHeaderLines_eq (msg : Http) {lines : List Bytes} (h : ∀ l ∈ lines, NUL ∉ l) :
    lines.foldlM checkedHeaderLine msg = some (lines.foldl httpParseHeaderLine msg) := by
  induction lines generalizing msg with
  | nil => rfl
  | cons l lines ih =>
    rw [List.foldlM_cons, checkedHeaderLine_eq msg (h l List.mem_cons_self), List.foldl_cons]
    exact ih _ fun l' hl' => h l' (List.mem_cons_of_mem _ hl')

/-- The copy of the header block has no NUL in it. -/
theorem nul_not_mem_strtok {str l : Bytes} (h : l ∈ strtok (upto NUL str) LF) : NUL ∉ l := by
  intro hm
  have hmem : NUL ∈ upto NUL str := (mem_iff_mem_tokens (by decide) _).mpr ⟨l, h, hm⟩
  have hne := List.mem_takeWhile_imp hmem
  simp at hne

theorem checkedHeadersAndBody_eq (msg : Http) {buffer : Bytes} {start : Nat}
    (h : start ≤ buffer.length) :
    checkedHeadersAndBody msg buffer start = some (httpParseHeadersAndBody msg buffer start) := by
  obtain ⟨hbounds, hstart, hend, hbody⟩ := checkedBlockBounds_eq h
  unfold checkedHeadersAndBody httpParseHeadersAndBody
  rw [hbounds]
  generalize headerBlockBounds buffer start = bounds at hstart hend hbody
  obtain ⟨blockEnd, bodyStart⟩ := bounds
  have hread : blockEnd - start ≤ (buffer.drop start).length := by
    rw [List.length_drop]
    exact Nat.sub_le_sub_right hend start
  simp only [Option.bind_eq_bind, Option.bind_some, Object.sub_eq hstart,
    Object.readStr_of_le hread]
  have hnul : ∀ l ∈ strtok (strndup (buffer.drop start) (blockEnd - start)) LF, NUL ∉ l := by
    intro l hl
    exact nul_not_mem_strtok hl
  rw [checkedHeaderLines_eq msg hnul, Option.bind_some]
  generalize (strtok (strndup (buffer.drop start) (blockEnd - start)) LF).foldl
    httpParseHeaderLine msg = msg
  cases bodyStart with
  | none => rfl
  | some bodyStart =>
    have hle := hbody bodyStart rfl
    dsimp only
    by_cases hpos : 0 < parsedContentLength msg
    · rw [if_pos hpos, if_pos hpos, Object.sub_eq hle, Option.bind_some]
      generalize hn : (if parsedContentLength msg < buffer.length - bodyStart then
        parsedContentLength msg else buffer.length - bodyStart) = bodyLen
      have hin : bodyStart + bodyLen ≤ buffer.length := by
        rw [← hn]
        split_ifs <;> omega
      by_cases hlen : 0 < bodyLen
      · rw [if_pos hlen, if_pos hlen, Object.bytes_eq hin]
        rfl
      · rw [if_neg hlen, if_neg hlen]
        rfl
    · rw [if_neg hpos, if_neg hpos]
      rfl

/-! ## The parsers -/

theorem lineEnd_lt {buffer : Bytes} {lineEnd : Nat} (h : find [LF] buffer = some lineEnd) :
    lineEnd + 1 ≤ buffer.length := (find_singleton_eq_some h).2.2

theorem checkedRequestParse_eq (muted : Bool) (buffer : Bytes) :
    checkedRequestParse muted buffer =
      (logRefused muted buffer ((startLine buffer).bind refusedWord)).map
        fun _ => httpRequestParse buffer := by
  unfold checkedRequestParse httpRequestParse
  rw [checkedRequestLine_eq]
  cases logRefused muted buffer ((startLine buffer).bind refusedWord) with
  | none => rfl
  | some _ =>
    rw [Option.map_some, Option.map_some, Option.bind_eq_bind, Option.bind_some]
    cases hline : httpRequestLine buffer with
    | error reply => rfl
    | ok parsed =>
      exact checkedHeadersAndBody_eq _ (lineEnd_lt (httpRequestLine_ok hline).1)

theorem checkedResponseParse_eq (muted : Bool) (buffer : Bytes) :
    checkedResponseParse muted buffer =
      (logRefused muted buffer ((startLine buffer).bind refusedVersion)).map
        fun _ => httpResponseParse buffer := by
  unfold checkedResponseParse httpResponseParse
  rw [checkedStatusLine_eq]
  cases logRefused muted buffer ((startLine buffer).bind refusedVersion) with
  | none => rfl
  | some _ =>
    rw [Option.map_some, Option.map_some, Option.bind_eq_bind, Option.bind_some]
    cases hline : httpStatusLine buffer with
    | error reply => rfl
    | ok parsed =>
      exact checkedHeadersAndBody_eq _ (lineEnd_lt (httpStatusLine_ok hline).1)

end Foxtails.Wire
