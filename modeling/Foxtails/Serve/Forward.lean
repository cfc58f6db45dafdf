/-
  The framing of a request that `handle_proxy` forwards.

  `FramedOnce` reads raw bytes: one Content-Length, which is the number of bytes behind the
  blank line, and no Transfer-Encoding. `http_send_request` drops a stored Content-Length and
  nothing else.

  * `request_clean`: no part of a parsed request ends a line early.
  * `fieldsOf_request`: the fields of a forwarded request are those that were written.
  * `framed_once_iff`: a forwarded request is framed once exactly when no Transfer-Encoding is
    in force among the header lines it was parsed from.
-/
import Foxtails.Serve.Relay
import Foxtails.Serve.Reparse

namespace Foxtails.Serve

open Foxtails.Lib.Scan Foxtails.Lib.Libc Foxtails.Wire

/-! ## Parsed requests -/

/-- No part of the request ends a line early, and its length is that of its body. -/
structure CleanRequest (request : Http) : Prop where
  path : LF ∉ fmtStr request.path
  headers : ∀ h ∈ request.headers.items, CleanHeader h
  bodyLen : request.bodyLen = (request.body.getD []).length

theorem memchr_lt {buf : Bytes} {off n i : Nat} {c : Byte} (h : memchr buf off c n = some i) :
    off ≤ i ∧ i - off < n := by
  unfold memchr at h
  obtain ⟨j, hj, rfl⟩ := Option.map_eq_some_iff.mp h
  have hle := find_add_length_le hj
  rw [List.length_singleton, List.length_take] at hle
  omega

/-- The path is part of the first line. -/
theorem httpRequestLine_path {buffer : Bytes} {request : Http} {lineEnd : Nat}
    (h : httpRequestLine buffer = .ok (request, lineEnd)) : LF ∉ fmtStr request.path := by
  unfold httpRequestLine at h
  split at h
  · cases h
  rename_i e l hline
  split at h
  · cases h
  rename_i methodEnd hmethodEnd
  dsimp only at h
  split at h
  · cases h
  split at h
  · cases h
  rename_i pathEnd hpathEnd
  split_ifs at h with hv
  simp only [Except.ok.injEq, Prod.mk.injEq] at h
  obtain ⟨rfl, rfl⟩ := h
  obtain ⟨hlf, hle⟩ := httpFirstLine_eq_some hline
  have hlt := memchr_lt hpathEnd
  exact lf_not_mem_strndup (methodEnd + 1) hlf (by omega)

/-- A request that is accepted is clean. -/
theorem request_clean {buf : Bytes} (hacc : RequestAccepted buf) :
    CleanRequest (httpRequestParse buf) := by
  obtain ⟨request, lineEnd, h⟩ := hacc
  obtain ⟨-, hfresh, -⟩ := httpRequestLine_ok h
  rw [httpRequestParse_ok h]
  set lines := blockLines (headSplit (buf.drop (lineEnd + 1))).1 with hlines
  obtain ⟨hs, hparse⟩ := parseLines_eq request lines
  refine ⟨?_, ?_, ?_⟩
  · rw [attachBody_path, hparse]
    exact (httpRequestLine_path h : LF ∉ fmtStr request.path)
  · rw [attachBody_headers]
    refine parseLines_clean lines (blockLines_no_lf _) ?_
    rw [hfresh.headers]
    simp [HttpHeaders.empty]
  · refine attachBody_bodyLen _ ?_ ?_
    · rw [hparse]; exact hfresh.body
    · rw [hparse]; exact hfresh.bodyLen

/-- The Transfer-Encoding in force among the header lines of a buffer. -/
def declaredEncoding (buf : Bytes) : Option Bytes :=
  governingValue (ascii "Transfer-Encoding")
    (lineHeaders (blockLines (headSplit (afterFirstLine buf)).1))

/-! ## The bytes of a forwarded request -/

/-- The bytes up to the first blank line hold one field Content-Length, whose value is the
    number of bytes after it, and no field Transfer-Encoding. -/
def FramedOnce (bytes : Bytes) : Prop :=
  ∃ i, find CRLFCRLF bytes = some i ∧
    contentLengths (fieldsOf (bytes.take i)) = [fmtNat (bytes.length - (i + 4))] ∧
    ∀ h ∈ fieldsOf (bytes.take i), strcaseeq h.name (ascii "Transfer-Encoding") = false

theorem requestLine_isLine {request : Http} (h : CleanRequest request) :
    IsLine (requestLine request) := by
  have h1 : LF ∉ ascii " " := by decide
  have h2 : LF ∉ ascii " HTTP/1.1" := by decide
  have hmethod : LF ∉ fmtStr (httpMethodToStr request.method) := by
    cases request.method with
    | none => decide
    | some m => exact m.sp_not_mem_text.2
  refine ⟨by simp [requestLine, ascii], ?_⟩
  simp only [requestLine, List.mem_append, not_or]
  exact ⟨⟨⟨hmethod, h1⟩, h.path⟩, h2⟩

theorem requestFields_clean {request : Http} (h : CleanRequest request) :
    ∀ x ∈ requestFields request, CleanHeader x := by
  intro x hx
  rcases List.mem_cons.mp hx with rfl | hx
  · have hname : COLON ∉ ascii "Content-Length" ∧ LF ∉ ascii "Content-Length" := by decide
    exact ⟨hname.1, hname.2, not_mem_fmtNat (by decide)⟩
  · exact h.headers x (List.mem_filter.mp hx).1

/-- The fields before the blank line are those that were written. -/
theorem fieldsOf_request {request : Http} (h : CleanRequest request) (body : Bytes) :
    ∃ i, find CRLFCRLF ((requestTexts request).flatten ++ body) = some i ∧
      ((requestTexts request).flatten ++ body).length - (i + 4) = body.length ∧
      List.Forall₂ ReadsBack (requestFields request)
        (fieldsOf (((requestTexts request).flatten ++ body).take i)) := by
  have htexts : (requestFields request).map (fun x => (spaced x).line) =
      (requestFields request).map fieldText :=
    List.map_congr_left fun x _ => (fieldText_eq_line x).symm
  rw [requestTexts_flatten, htexts]
  exact fieldsOf_headText (requestLine_isLine h) (requestFields_clean h) body

theorem readsBack_names {hs gs : List HttpHeader} (h : List.Forall₂ ReadsBack hs gs) :
    gs.map (·.name) = hs.map (·.name) := by
  induction h with
  | nil => rfl
  | cons hx _ ih => rw [List.map_cons, List.map_cons, hx.1, ih]

/-- A name is absent from what is read exactly when it is from what was written. -/
theorem readsBack_absent_iff {hs gs : List HttpHeader} (h : List.Forall₂ ReadsBack hs gs)
    (n : Bytes) :
    (∀ g ∈ gs, strcaseeq g.name n = false) ↔ ∀ x ∈ hs, strcaseeq x.name n = false := by
  have hmap : ∀ l : List HttpHeader, (∀ x ∈ l, strcaseeq x.name n = false) ↔
      ∀ m ∈ l.map (·.name), strcaseeq m n = false := fun l => by simp
  rw [hmap, hmap, readsBack_names h]

/-- Of the written fields only the encoder's own is called Content-Length. -/
theorem contentLengths_of_readsBack {request : Http} {fields : List HttpHeader}
    (h : List.Forall₂ ReadsBack (requestFields request) fields) :
    contentLengths fields = [fmtNat request.bodyLen] := by
  obtain ⟨g, gs, hg, hgs, rfl⟩ := List.forall₂_cons_left_iff.mp h
  have hother : ∀ x ∈ gs, strcaseeq x.name (ascii "Content-Length") = false := by
    rw [readsBack_absent_iff hgs]
    intro x hx
    simpa using (List.mem_filter.mp hx).2
  have hname : g.name = ascii "Content-Length" := hg.1
  have hvalue : g.value = fmtNat request.bodyLen :=
    hg.2 (fmtNat_plain _).1.1 (fmtNat_plain _).2
  have hnil : gs.filter (fun x => strcaseeq x.name (ascii "Content-Length")) = [] := by
    rw [List.filter_eq_nil_iff]
    intro x hx
    rw [hother x hx]
    exact Bool.false_ne_true
  unfold contentLengths
  rw [List.filter_cons_of_pos (by rw [hname, strcaseeq_self]), hnil, List.map_cons, List.map_nil,
    hvalue]

/-- The encoder writes a Transfer-Encoding exactly when one is stored. -/
theorem requestFields_absent_iff (request : Http) :
    (∀ x ∈ requestFields request, strcaseeq x.name (ascii "Transfer-Encoding") = false) ↔
      httpGetHeader request (ascii "Transfer-Encoding") = none := by
  have hne : strcaseeq (ascii "Content-Length") (ascii "Transfer-Encoding") = false := by decide
  rw [httpGetHeader, HttpHeaders.get_eq_none_iff, requestFields, List.forall_mem_cons]
  simp only [hne, true_and, List.mem_filter, Bool.not_eq_true']
  constructor
  · intro h x hx
    by_cases hname : strcaseeq x.name (ascii "Content-Length") = true
    · rw [strcaseeq_congr hname, hne]
    · exact h x ⟨hx, by simpa using hname⟩
  · exact fun h x hx => h x hx.1

/-- A clean request leaves framed once exactly when no Transfer-Encoding is stored in it. -/
theorem framedOnce_iff {header : Bytes} {request : Http} (hheader : header.length = headerSize)
    (h : CleanRequest request) (hfits : (requestTexts request).flatten.length < headerSize) :
    (∃ bytes, httpSendRequest header request = some bytes ∧ FramedOnce bytes) ↔
      httpGetHeader request (ascii "Transfer-Encoding") = none := by
  have hsend : httpSendRequest header request =
      some ((requestTexts request).flatten ++ request.body.getD []) := by
    unfold httpSendRequest
    rw [sentBytes_fits _ _ hheader hfits, h.bodyLen, List.take_length]
  obtain ⟨i, hfind, hrest, hfields⟩ := fieldsOf_request h (request.body.getD [])
  have hlengths : contentLengths (fieldsOf (((requestTexts request).flatten ++
      request.body.getD []).take i)) = [fmtNat (request.body.getD []).length] := by
    rw [contentLengths_of_readsBack hfields, ← h.bodyLen]
  unfold FramedOnce
  rw [hsend]
  simp only [Option.some.injEq, exists_eq_left', hfind, hrest, hlengths, true_and]
  rw [readsBack_absent_iff hfields, requestFields_absent_iff]

/-- **A forwarded request is framed once exactly when no Transfer-Encoding is in force** among
    the header lines of the buffer it was parsed from: for every buffer that is accepted, if
    the header fits. -/
theorem framed_once_iff {header buf : Bytes} (hheader : header.length = headerSize)
    (hacc : RequestAccepted buf)
    (hfits : (requestTexts (httpRequestParse buf)).flatten.length < headerSize) :
    (∃ bytes, httpSendRequest header (httpRequestParse buf) = some bytes ∧ FramedOnce bytes) ↔
      declaredEncoding buf = none := by
  rw [framedOnce_iff hheader (request_clean hacc) hfits, request_get hacc]
  rfl

/-- A request with the given header line. -/
def forwarded (line : Bytes) : Bytes :=
  ascii "POST / HTTP/1.1\r\n" ++ line ++ ascii "\r\nContent-Length: 2\r\n\r\nok"

theorem forwarded_accepted (line : Bytes) : RequestAccepted (forwarded line) := by
  have heq : forwarded line = Method.text .post ++ SP :: (ascii "/" ++ SP ::
      (ascii "HTTP/1.1" ++ CRLF ++ (line ++ ascii "\r\nContent-Length: 2\r\n\r\nok"))) := by
    simp [forwarded, ascii, Method.text]
  rw [heq]
  exact ⟨_, _, httpRequestLine_encode .post (ascii "/") _ (by decide) (by decide) (by decide)⟩

theorem framed_once_iff_host :
    (∃ bytes, httpSendRequest (List.replicate headerSize 0)
        (httpRequestParse (forwarded (ascii "Host: fox"))) = some bytes ∧ FramedOnce bytes) ↔
      declaredEncoding (forwarded (ascii "Host: fox")) = none :=
  framed_once_iff List.length_replicate (forwarded_accepted _) (by decide +kernel)

/-- A chunked coding is forwarded next to the encoder's Content-Length. -/
theorem chunked_forwarded :
    RequestAccepted (forwarded (ascii "transfer-encoding: chunked")) ∧
      (requestTexts (httpRequestParse
        (forwarded (ascii "transfer-encoding: chunked")))).flatten.length < headerSize ∧
      ¬ ∃ bytes, httpSendRequest (List.replicate headerSize 0)
          (httpRequestParse (forwarded (ascii "transfer-encoding: chunked"))) = some bytes ∧
        FramedOnce bytes := by
  have hacc := forwarded_accepted (ascii "transfer-encoding: chunked")
  have hfits : (requestTexts (httpRequestParse
      (forwarded (ascii "transfer-encoding: chunked")))).flatten.length < headerSize := by
    decide +kernel
  refine ⟨hacc, hfits, ?_⟩
  rw [framedOnce_iff List.length_replicate (request_clean hacc) hfits]
  decide +kernel

end Foxtails.Serve
