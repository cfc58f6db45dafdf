/-
  Which responses delimit themselves.

  * `ownReply_clean`, `response_clean`: what the program answers itself and what it parses
    from a backend has no line end inside a header, and `body_len` is the length of the body.
  * `self_delimiting_iff`: a response that is not for HEAD delimits itself, unless it is
    relayed from a backend whose answer holds a Content-Length of its own.
  * `relayed_length_twice`: then there are two of them.
-/
import Foxtails.Serve.Framing

namespace Foxtails.Serve

open Foxtails.Lib.Scan Foxtails.Lib.Libc Foxtails.Wire

/-! ## The program's own replies -/

theorem clean_of_items {response : Http} (hreason : LF ∉ fmtStr response.reason)
    (hheaders : ∀ h ∈ response.headers.items, COLON ∉ h.name ∧ LF ∉ h.name ∧ LF ∉ h.value)
    (hlen : response.bodyLen = (response.body.getD []).length) : Clean response :=
  ⟨hreason, hheaders, hlen⟩

theorem mimeTypeStr_no_lf (mime : Mime) : LF ∉ mimeTypeStr mime := by cases mime <;> decide

/-- The header table of a reply that is a file. -/
theorem fileHeaders (mime : Mime) :
    (httpSetContentType { notFound with code := 200, reason := some (ascii "OK") } mime).headers.items =
      [⟨ascii "Content-Type", mimeTypeStr mime⟩] := by
  cases mime <;> decide

theorem ownReply_clean {response : Http} (h : OwnReply response) : Clean response := by
  cases h with
  | notFound => exact clean_of_items (by decide) (by decide) (by decide)
  | notAllowed => exact clean_of_items (by decide) (by decide) (by decide)
  | noContent => exact clean_of_items (by decide) (by decide) (by decide)
  | notImplemented => exact clean_of_items (by decide) (by decide) (by decide)
  | badGateway => exact clean_of_items (by decide) (by decide) (by decide)
  | noRoot => exact clean_of_items (by decide) (by decide) (by decide)
  | moved loc hloc =>
    have hname : COLON ∉ ascii "Location" ∧ LF ∉ ascii "Location" := by decide
    refine clean_of_items (show LF ∉ ascii "Moved Permanently" by decide) ?_ rfl
    intro h hh
    rcases List.mem_cons.mp hh with rfl | hh
    · decide
    · rcases List.mem_singleton.mp hh with rfl
      exact ⟨hname.1, hname.2, hloc⟩
  | file mime content =>
    have hname : COLON ∉ ascii "Content-Type" ∧ LF ∉ ascii "Content-Type" := by decide
    refine clean_of_items (show LF ∉ ascii "OK" by decide) ?_ rfl
    intro h hh
    have hh : h ∈ (httpSetContentType
      { notFound with code := 200, reason := some (ascii "OK") } mime).headers.items := hh
    rw [fileHeaders, List.mem_singleton] at hh
    subst hh
    exact ⟨hname.1, hname.2, mimeTypeStr_no_lf mime⟩

/-- The names of the headers of the replies. -/
theorem ownReply_names {response : Http} (h : OwnReply response) :
    ∀ x ∈ response.headers.items,
      x.name ∈ [ascii "Content-Type", ascii "Allow", ascii "Location"] := by
  have htype : ascii "Content-Type" ∈ [ascii "Content-Type", ascii "Allow", ascii "Location"] := by
    decide
  cases h with
  | notFound => decide
  | notAllowed => decide
  | noContent => decide
  | notImplemented => decide
  | badGateway => decide
  | noRoot => decide
  | moved loc hloc =>
    intro x hx
    rcases List.mem_cons.mp hx with rfl | hx
    · exact htype
    · rw [List.mem_singleton.mp hx]
      show ascii "Location" ∈ _
      decide
  | file mime content =>
    intro x hx
    have hx : x ∈ (httpSetContentType
      { notFound with code := 200, reason := some (ascii "OK") } mime).headers.items := hx
    rw [fileHeaders, List.mem_singleton] at hx
    rw [hx]
    exact htype

/-- So a header of another name is in none. -/
theorem ownReply_other {response : Http} (h : OwnReply response) {name : Bytes}
    (hname : ∀ n ∈ [ascii "Content-Type", ascii "Allow", ascii "Location"],
      strcaseeq n name = false) :
    ∀ x ∈ response.headers.items, strcaseeq x.name name = false :=
  fun x hx => hname x.name (ownReply_names h x hx)

theorem ownReply_no_length {response : Http} (h : OwnReply response) :
    httpGetHeader response (ascii "Content-Length") = none := by
  have hother := ownReply_other h (show ∀ n ∈ _, strcaseeq n (ascii "Content-Length") = false by
    decide)
  unfold httpGetHeader HttpHeaders.get
  rw [List.find?_eq_none.mpr fun x hx => Bool.eq_false_iff.mp (hother x hx)]
  rfl

/-! ## Parsed answers -/

theorem lineHeader_clean {line : Bytes} {h : HttpHeader} (hlf : LF ∉ line)
    (hh : lineHeader line = some h) : CleanHeader h := by
  unfold lineHeader at hh
  obtain ⟨colon, hc, rfl⟩ := Option.map_eq_some_iff.mp hh
  refine ⟨(find_singleton_eq_some hc).1, fun hm => hlf (List.mem_of_mem_take hm), fun hm => ?_⟩
  exact hlf (List.mem_of_mem_drop ((List.dropWhile_suffix _).subset hm))

theorem parseLines_clean (lines : List Bytes) (hlines : ∀ l ∈ lines, LF ∉ l) {msg : Http}
    (h : ∀ x ∈ msg.headers.items, CleanHeader x) :
    ∀ x ∈ (parseLines msg lines).headers.items, CleanHeader x := by
  unfold parseLines
  induction lines generalizing msg with
  | nil => exact h
  | cons line lines ih =>
    refine ih (fun l hl => hlines l (List.mem_cons_of_mem _ hl)) ?_
    unfold httpParseHeaderLine
    split
    · exact h
    · rename_i g hg
      refine clean_of_set h (lineHeader_clean (fun hm => ?_) hg)
      exact hlines line List.mem_cons_self ((trimCr_isPrefix line).subset hm)

theorem blockLines_no_lf (block : Bytes) : ∀ l ∈ blockLines block, LF ∉ l := fun _ hl =>
  not_mem_of_mem_split (mem_tokens.mp hl).1

/-- What is copied out of the first line has no line end. -/
theorem lf_not_mem_strndup {buffer : Bytes} {lineEnd n : Nat} (start : Nat)
    (hlf : find [LF] buffer = some lineEnd) (hn : n ≤ lineEnd - start) :
    LF ∉ strndup (buffer.drop start) n := by
  intro hm
  have hslice : LF ∈ (buffer.drop start).take n := (upto_isPrefix NUL _).subset hm
  have hpre : (buffer.drop start).take n <+: (buffer.drop start).take (lineEnd - start) := by
    rw [← Nat.min_eq_left hn, ← List.take_take]
    exact List.take_prefix _ _
  have hline := hpre.subset hslice
  rw [← List.drop_take] at hline
  exact (find_singleton_eq_some hlf).1 (List.mem_of_mem_drop hline)

/-- The reason phrase is part of the first line. -/
theorem httpStatusLine_reason {buffer : Bytes} {response : Http} {lineEnd : Nat}
    (h : httpStatusLine buffer = .ok (response, lineEnd)) : LF ∉ fmtStr response.reason := by
  unfold httpStatusLine at h
  split at h
  · cases h
  rename_i e l hline
  split at h
  · cases h
  dsimp only at h
  split_ifs at h with hv
  split at h
  · cases h
  rename_i codeEnd _
  simp only [Except.ok.injEq, Prod.mk.injEq] at h
  obtain ⟨rfl, rfl⟩ := h
  obtain ⟨hlf, hle⟩ := httpFirstLine_eq_some hline
  exact lf_not_mem_strndup (codeEnd + 1) hlf (by omega)

theorem httpStatusLine_error {buffer : Bytes} {reply : Http}
    (h : httpStatusLine buffer = .error reply) :
    reply = badGateway ∨ reply = versionNotSupported := by
  unfold httpStatusLine at h
  split at h
  · cases h; exact .inl rfl
  split at h
  · cases h; exact .inl rfl
  dsimp only at h
  split_ifs at h
  · cases h; exact .inr rfl
  split at h
  · cases h; exact .inl rfl
  cases h

theorem attachBody_reason (msg : Http) (bytes : Option Bytes) :
    (attachBody msg bytes).reason = msg.reason := by
  obtain ⟨_, _, heq⟩ := attachBody_eq msg bytes
  rw [heq]

theorem attachBody_bodyLen {msg : Http} (bytes : Option Bytes) (hbody : msg.body = none)
    (hlen : msg.bodyLen = 0) :
    (attachBody msg bytes).bodyLen = ((attachBody msg bytes).body.getD []).length := by
  unfold attachBody
  split
  · rw [hbody, hlen]; rfl
  · split_ifs
    · simp
    · rw [hbody, hlen]; rfl

/-- A parsed answer is clean, accepted or not. -/
theorem response_clean (buf : Bytes) : Clean (httpResponseParse buf) := by
  cases h : httpStatusLine buf with
  | error reply =>
    have heq : httpResponseParse buf = reply := by
      unfold httpResponseParse
      rw [h]
    rw [heq]
    rcases httpStatusLine_error h with rfl | rfl
    · exact ownReply_clean .badGateway
    · exact clean_of_items (by decide) (by decide) (by decide)
  | ok r =>
    obtain ⟨response, lineEnd⟩ := r
    obtain ⟨-, hfresh⟩ := httpStatusLine_ok h
    rw [httpResponseParse_ok h]
    set lines := blockLines (headSplit (buf.drop (lineEnd + 1))).1 with hlines
    obtain ⟨hs, hparse⟩ := parseLines_eq response lines
    refine ⟨?_, ?_, ?_⟩
    · rw [attachBody_reason, hparse]
      exact (httpStatusLine_reason h : LF ∉ fmtStr response.reason)
    · rw [attachBody_headers]
      refine parseLines_clean lines (blockLines_no_lf _) ?_
      rw [hfresh.headers]
      simp [HttpHeaders.empty]
    · refine attachBody_bodyLen _ ?_ ?_
      · rw [hparse]; exact hfresh.body
      · rw [hparse]; exact hfresh.bodyLen

/-- The Content-Length of a parsed answer is the one its header lines declare. -/
theorem response_length (buf : Bytes) :
    httpGetHeader (httpResponseParse buf) (ascii "Content-Length") ≠ none ↔
      ResponseAccepted buf ∧ declared buf ≠ none := by
  cases h : httpStatusLine buf with
  | error reply =>
    have hno : ¬ ResponseAccepted buf := by
      rintro ⟨response, lineEnd, hok⟩
      rw [h] at hok
      cases hok
    have heq : httpResponseParse buf = reply := by
      unfold httpResponseParse
      rw [h]
    simp only [hno, false_and, iff_false, not_not, heq]
    rcases httpStatusLine_error h with rfl | rfl
    · decide
    · decide
  | ok r =>
    obtain ⟨response, lineEnd⟩ := r
    obtain ⟨hlf, hfresh⟩ := httpStatusLine_ok h
    have hacc : ResponseAccepted buf := ⟨response, lineEnd, h⟩
    have hrest : buf.drop (lineEnd + 1) = afterFirstLine buf := by
      unfold afterFirstLine
      rw [find_singleton_upto hlf]
    simp only [hacc, true_and]
    rw [httpResponseParse_ok h, hrest]
    unfold httpGetHeader declared
    rw [attachBody_headers, parseLines_headers, hfresh.headers, HttpHeaders.get_setAll]

/-! ## Which responses delimit themselves -/

/-- The response is relayed from a backend, and the answer is accepted and declares a
    Content-Length. -/
def RelaysLength (env : Env) (req : Http) : Prop :=
  ∃ backend, relayedFrom env req = some backend ∧
    ResponseAccepted (backend.answer req) ∧ declared (backend.answer req) ≠ none

/-- **A response delimits itself unless it relays a Content-Length**: for every route table,
    file system, backend and request other than HEAD, if the header fits the buffer. -/
theorem self_delimiting_iff (env : Env) (req : Http) (header date : Bytes)
    (hmethod : req.method ≠ some .head) (hheader : header.length = headerSize)
    (hdate : LF ∉ date)
    (hfits : (responseTexts date (fetchResponse env req)).flatten.length < headerSize) :
    (∃ bytes, httpSendResponse header date (fetchResponse env req) = some bytes ∧
        SelfDelimiting bytes) ↔
      ¬ RelaysLength env req := by
  unfold RelaysLength
  rcases fetchResponse_own_or_relayed env hmethod with ⟨hno, hown⟩ | ⟨backend, hrel, heq⟩
  · rw [selfDelimiting_iff hheader hdate (ownReply_clean hown) hfits]
    simp [ownReply_no_length hown, hno]
  · have hclean : Clean (fetchResponse env req) := heq ▸ response_clean _
    rw [selfDelimiting_iff hheader hdate hclean hfits]
    simp only [hrel, Option.some.injEq, exists_eq_left']
    rw [heq, ← response_length, not_not]

/-- A route table with one proxy route, and a backend behind it that sends `answer`. -/
def proxyEnv (answer : Bytes) : Env where
  approot := none
  fs := { realpath := fun _ => none, openRead := fun _ => none }
  routes := [⟨.proxy, 511, ascii "/", ascii "http://127.0.0.1:8000", by decide⟩]
  connect := fun _ => some ⟨65536, [.data answer [] 65536, .stop]⟩

/-- `GET /`, as `http_t`. -/
def getRoot : Http := { method := some .get, path := some (ascii "/") }

def epoch : Bytes := ascii "Thu, 01 Jan 1970 00:00:00 GMT"

/-- A file below the root, and no route. -/
def fileEnv : Env where
  approot := some (ascii "/srv")
  fs :=
    { realpath := some
      openRead := fun path =>
        if path = ascii "/srv/a.html" then
          some ⟨some 5, some (ascii "hello"), by rintro n c ⟨⟩ ⟨⟩; rfl⟩
        else none }
  routes := []
  connect := fun _ => none

def getFile : Http := { method := some .get, path := some (ascii "/a.html") }

/-- `self_delimiting_iff` for an answer with a body. -/
theorem self_delimiting_iff_file :
    (fetchResponse fileEnv getFile).body = some (ascii "hello") ∧
    ∃ bytes, httpSendResponse (List.replicate headerSize 0) epoch (fetchResponse fileEnv getFile) =
      some bytes ∧ SelfDelimiting bytes := by
  refine ⟨by decide +kernel, ?_⟩
  refine (self_delimiting_iff fileEnv getFile _ epoch (by decide) List.length_replicate (by decide)
    (by decide +kernel)).mpr ?_
  rintro ⟨backend, hrelayed, -⟩
  cases hrelayed

/-- A relayed answer with the body `ok` and its length leaves with two Content-Length fields. -/
theorem relayed_length_twice :
    (responseTexts epoch (fetchResponse
        (proxyEnv (ascii "HTTP/1.1 200 OK\r\nContent-Length: 2\r\n\r\nok")) getRoot)).flatten.length <
      headerSize ∧
    ¬ ∃ bytes, httpSendResponse (List.replicate headerSize 0) epoch (fetchResponse
        (proxyEnv (ascii "HTTP/1.1 200 OK\r\nContent-Length: 2\r\n\r\nok")) getRoot) = some bytes ∧
      SelfDelimiting bytes := by
  have hfits : (responseTexts epoch (fetchResponse
      (proxyEnv (ascii "HTTP/1.1 200 OK\r\nContent-Length: 2\r\n\r\nok")) getRoot)).flatten.length <
        headerSize := by decide +kernel
  have heq : fetchResponse (proxyEnv (ascii "HTTP/1.1 200 OK\r\nContent-Length: 2\r\n\r\nok"))
      getRoot = httpResponseParse (ascii "HTTP/1.1 200 OK\r\nContent-Length: 2\r\n\r\nok") := by
    decide
  refine ⟨hfits, ?_⟩
  rw [selfDelimiting_iff List.length_replicate (by decide) (heq ▸ response_clean _) hfits]
  decide

end Foxtails.Serve
