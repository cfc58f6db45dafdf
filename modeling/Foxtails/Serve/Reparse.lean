/-
  Responses written by `http_send_response` and read by `http_response_parse`.

  The encoder writes Date, Server, Content-Length and, if there is none, Content-Type. A
  header of the response with one of these names is then there twice, and the parser keeps
  the later one, which is the response's own.

  * `withContentType_items`: the table that is written is the response's, or one header longer.
  * `lastValue_writtenFields`: a name of the response reads as the response has it.
  * `httpResponseParse_httpSendResponse`: the response that is read is the one that was written.
-/
import Foxtails.Serve.Framing
import Foxtails.Wire.Reparse

namespace Foxtails.Serve

open Foxtails.Lib.Scan Foxtails.Lib.Libc Foxtails.Wire

/-! ## The headers that are written -/

/-- A response that can be written in one header buffer and read back. -/
structure EncodableResponse (date : Bytes) (response : Http) : Prop where
  code : -2 ^ 31 ≤ response.code ∧ response.code < 2 ^ 31
  reason : ∃ r, response.reason = some r ∧ Plain r
  headers : PlainHeaders response.headers.items
  length : ∀ h ∈ response.headers.items, strcaseeq h.name (ascii "Content-Length") = true →
    h.value = fmtNat response.bodyLen
  body : PlainBody response
  room : (lowerNames (addedFields date response.bodyLen ++
    textPlain :: response.headers.items)).card ≤ httpMaxHeaders
  fits : (responseTexts date response).flatten.length ≤ 4095

/-- What `strftime` prints: a text without control characters that begins with a weekday. -/
def IsDate (date : Bytes) : Prop := Plain date ∧ date.head? ≠ some SP

theorem withContentType_items (response : Http) :
    (withContentType response).headers.items = response.headers.items ∨
      (httpGetHeader response (ascii "Content-Type") = none ∧
        (withContentType response).headers.items = response.headers.items ++ [textPlain]) := by
  unfold withContentType
  split_ifs with hhas
  · exact .inl rfl
  · have hnone : httpGetHeader response (ascii "Content-Type") = none := by
      simpa [httpHasHeader] using hhas
    obtain ⟨hroom, hfull⟩ := HttpHeaders.set_of_get_none (mimeTypeStr .textPlain) hnone
    by_cases hlt : response.headers.items.length < httpMaxHeaders
    · exact .inr ⟨hnone, (hroom hlt).2⟩
    · exact .inl (congrArg (fun x => x.1.items) (hfull hlt))

theorem withContentType_plain {response : Http} (h : PlainHeaders response.headers.items) :
    PlainHeaders (withContentType response).headers.items := by
  rcases withContentType_items response with heq | ⟨hnone, heq⟩
  · rwa [heq]
  · rw [heq]
    have hplain : Plain textPlain.name ∧ COLON ∉ textPlain.name := by decide
    have hvalue : Plain textPlain.value ∧ textPlain.value.head? ≠ some SP := by decide
    refine ⟨?_, ?_, ?_⟩
    · rw [List.pairwise_append]
      refine ⟨h.distinct, List.pairwise_singleton _ _, fun a ha b hb => ?_⟩
      rw [List.mem_singleton.mp hb]
      exact HttpHeaders.get_eq_none_iff.mp hnone a ha
    · intro x hx
      rcases List.mem_append.mp hx with hx | hx
      · exact h.name x hx
      · exact List.mem_singleton.mp hx ▸ hplain
    · intro x hx
      rcases List.mem_append.mp hx with hx | hx
      · exact h.value x hx
      · exact List.mem_singleton.mp hx ▸ hvalue

/-- A name the response has reads in the table that is written as in the response. -/
theorem withContentType_get_of_ne_none {response : Http} {k : Bytes}
    (h : httpGetHeader response k ≠ none) :
    (withContentType response).headers.get k = httpGetHeader response k := by
  rcases withContentType_items response with heq | ⟨-, heq⟩
  · simp [httpGetHeader, HttpHeaders.get, heq]
  · unfold httpGetHeader HttpHeaders.get at h ⊢
    rw [heq, List.find?_append]
    cases hfind : response.headers.items.find? fun x => strcaseeq x.name k with
    | none => exact absurd (by rw [hfind]; rfl) h
    | some x => rfl

theorem lastValue_writtenFields {date : Bytes} {response : Http}
    (hplain : PlainHeaders response.headers.items) {k : Bytes} (h : httpGetHeader response k ≠ none) :
    lastValue k (writtenFields date response) = httpGetHeader response k := by
  have hlast : lastValue k (withContentType response).headers.items = httpGetHeader response k := by
    rw [lastValue_of_distinct (withContentType_plain hplain).distinct,
      ← withContentType_get_of_ne_none h]
    rfl
  unfold writtenFields
  rw [lastValue_append, hlast]
  exact Option.or_of_isSome (Option.isSome_iff_ne_none.mpr h)

/-- The length that is read is the encoder's, or one stored that is equal to it. -/
theorem lastValue_length {date : Bytes} {response : Http} (h : EncodableResponse date response) :
    lastValue (ascii "Content-Length") (writtenFields date response) =
      some (fmtNat response.bodyLen) := by
  cases hget : httpGetHeader response (ascii "Content-Length") with
  | some v =>
    rw [lastValue_writtenFields h.headers (by rw [hget]; simp), hget]
    unfold httpGetHeader HttpHeaders.get at hget
    obtain ⟨x, hx, rfl⟩ := Option.map_eq_some_iff.mp hget
    rw [h.length x (List.mem_of_find?_eq_some hx) (by simpa using List.find?_some hx)]
  | none =>
    have hnone : lastValue (ascii "Content-Length") (withContentType response).headers.items =
        none := by
      rw [lastValue_eq_none]
      rw [← withContentType_get] at hget
      exact HttpHeaders.get_eq_none_iff.mp hget
    unfold writtenFields
    rw [lastValue_append, hnone]
    rfl

theorem lowerNames_mono {hs gs : List HttpHeader} (h : hs ⊆ gs) : lowerNames hs ⊆ lowerNames gs := by
  intro n hn
  obtain ⟨x, hx, rfl⟩ := mem_lowerNames.mp hn
  exact mem_lowerNames.mpr ⟨x, h hx, rfl⟩

theorem writtenFields_card {date : Bytes} {response : Http} (h : EncodableResponse date response) :
    (lowerNames (writtenFields date response)).card ≤ httpMaxHeaders := by
  refine (Finset.card_le_card (lowerNames_mono ?_)).trans h.room
  unfold writtenFields
  rcases withContentType_items response with heq | ⟨-, heq⟩
  · rw [heq]
    intro x hx
    simp only [List.mem_append, List.mem_cons] at hx ⊢
    tauto
  · rw [heq]
    intro x hx
    simp only [List.mem_append, List.mem_cons, List.not_mem_nil, or_false] at hx ⊢
    tauto

/-! ## The bytes that are written -/

theorem fieldText_eq_line (h : HttpHeader) : fieldText h = (spaced h).line := by
  simp [fieldText, spaced, Field.line, ascii]

theorem writtenFields_wellFormed {date : Bytes} {response : Http} (hdate : IsDate date)
    (h : PlainHeaders response.headers.items) :
    ∀ x ∈ writtenFields date response, (spaced x).WellFormed := by
  have hnames : ∀ n ∈ [ascii "Date", ascii "Server", ascii "Content-Length"],
      Plain n ∧ COLON ∉ n := by decide
  have hfoxtails : Plain (ascii "Foxtails") ∧ (ascii "Foxtails").head? ≠ some SP := by decide
  intro x hx
  rcases List.mem_append.mp hx with hx | hx
  · simp only [addedFields, List.mem_cons, List.not_mem_nil, or_false] at hx
    rcases hx with rfl | rfl | rfl
    · exact ⟨hnames _ (by simp [spaced]), hdate⟩
    · exact ⟨hnames _ (by simp [spaced]), hfoxtails⟩
    · exact ⟨hnames _ (by simp [spaced]), fmtNat_plain _⟩
  · exact (withContentType_plain h).wellFormed hx

/-- The parser on a response that was written: the start line, and every field set in turn. -/
theorem httpResponseParse_encode {date : Bytes} (hdate : IsDate date) {response : Http}
    (h : EncodableResponse date response) {reason : Bytes} (hreason : response.reason = some reason) :
    httpResponseParse ((responseTexts date response).flatten ++ response.body.getD []) =
      attachBody { code := response.code, reason := some reason,
                   headers := HttpHeaders.empty.setAll (writtenFields date response) }
        (some (response.body.getD [])) := by
  have hplain : Plain reason := by
    obtain ⟨r, hr, hplain⟩ := h.reason
    rw [hreason, Option.some.injEq] at hr
    exact hr ▸ hplain
  set fields := (writtenFields date response).map spaced with hfields
  have hwell : ∀ f ∈ fields, f.WellFormed := by
    intro f hf
    obtain ⟨x, hx, rfl⟩ := List.mem_map.mp hf
    exact writtenFields_wellFormed hdate h.headers x hx
  have hne : fields ≠ [] := by simp [hfields, writtenFields, addedFields]
  have hlines : ∀ l ∈ fields.map Field.line, IsLine l := by
    intro l hl
    obtain ⟨f, hf, rfl⟩ := List.mem_map.mp hl
    exact (hwell f hf).isLine.1
  have htexts : (writtenFields date response).map fieldText = fields.map Field.line := by
    rw [hfields, List.map_map]
    exact List.map_congr_left fun x _ => fieldText_eq_line x
  -- The status line, and behind its line end the section of fields.
  set tail := headText (fields.map Field.line) ++ response.body.getD [] with htail
  have hbytes : (responseTexts date response).flatten ++ response.body.getD [] =
      ascii "HTTP/1.1" ++ SP :: (fmtInt response.code ++ SP :: (reason ++ CRLF ++ tail)) := by
    have h1 : ascii "HTTP/1.1 " = ascii "HTTP/1.1" ++ [SP] := by decide
    have h2 : ascii " " = [SP] := by decide
    rw [responseTexts_flatten, headText_cons, htexts, htail, statusLine, hreason, h1, h2]
    simp only [fmtStr, Option.getD_some, List.append_assoc, List.cons_append, List.nil_append]
  have hok := httpStatusLine_encode h.code.1 h.code.2 tail hplain.2.1 hplain.2.2
  have hver : (ascii "HTTP/1.1").length = 8 := by decide
  have hrest : ((responseTexts date response).flatten ++ response.body.getD []).drop
      ((fmtInt response.code).length + reason.length + 11 + 1) = tail := by
    have : ascii "HTTP/1.1" ++ SP :: (fmtInt response.code ++ SP :: (reason ++ CRLF ++ tail)) =
        (ascii "HTTP/1.1" ++ SP :: (fmtInt response.code ++ SP :: (reason ++ CRLF))) ++ tail := by
      simp
    rw [hbytes, this]
    refine List.drop_left' ?_
    simp [hver]
    omega
  rw [← hbytes] at hok
  rw [httpResponseParse_ok hok, hrest, htail, headSplit_headText _ hlines (by simpa using hne)]
  set start : Http := { code := response.code, reason := some reason } with hstart
  obtain ⟨hs, hparse⟩ := parseLines_eq start (blockLines (joined (fields.map Field.line)))
  have hheaders := parseLines_headers start (blockLines (joined (fields.map Field.line)))
  rw [lineHeaders_fields _ hne hwell, hparse, hfields, map_spaced_header] at hheaders
  rw [hparse]
  have hheaders : hs = HttpHeaders.empty.setAll (writtenFields date response) := hheaders
  rw [hheaders]

/-- What `http_response_parse` makes of what `http_send_response` wrote. -/
structure SameResponse (response parsed : Http) : Prop where
  code : parsed.code = response.code
  reason : parsed.reason = response.reason
  body : parsed.body = response.body
  bodyLen : parsed.bodyLen = response.bodyLen
  headers : ∀ k, httpGetHeader response k ≠ none →
    httpGetHeader parsed k = httpGetHeader response k

/-- **A response that is written and read is the same response**, also where the encoder adds a
    header that the response has. -/
theorem httpResponseParse_httpSendResponse {header date : Bytes}
    (hheader : header.length = headerSize) (hdate : IsDate date) {response : Http}
    (h : EncodableResponse date response) :
    ∃ bytes, httpSendResponse header date response = some bytes ∧
      SameResponse response (httpResponseParse bytes) := by
  obtain ⟨reason, hreason, -⟩ := h.reason
  have hsent := sentBytes_fits (responseTexts date response) response hheader
    (Nat.lt_succ_of_le h.fits)
  rw [h.body.take] at hsent
  refine ⟨_, hsent, ?_⟩
  set msg : Http := { code := response.code, reason := some reason,
                      headers := HttpHeaders.empty.setAll (writtenFields date response) } with hmsg
  have hget : ∀ k, httpGetHeader msg k = lastValue k (writtenFields date response) := by
    intro k
    rw [httpGetHeader, hmsg, HttpHeaders.get_setAll]
    exact (forall_governingValue_iff _).mpr (writtenFields_card h) k
  have hlength : parsedContentLength msg = (response.body.getD []).length := by
    have hsize : digitsValue (fmtNat response.bodyLen) < SIZE := by
      rw [digitsValue_fmtNat]
      exact h.body.size
    unfold parsedContentLength
    rw [hget, lastValue_length h]
    dsimp only
    rw [strtoul_of_digits (fmtNat_ne_nil _) (fun _ hb => isDigit_of_mem_fmtNat hb) hsize,
      digitsValue_fmtNat, h.body.bodyLen]
  rw [httpResponseParse_encode hdate h hreason, attachBody_exact rfl rfl hlength]
  exact
    { code := rfl
      reason := hreason.symm
      body := h.body.eq_ite
      bodyLen := h.body.bodyLen.symm
      headers := fun k hk => (hget k).trans (lastValue_writtenFields h.headers hk) }

/-- A response with a Date and a Content-Length of its own. -/
def sampleAnswer : Http where
  code := -1
  reason := some (ascii "Not quite OK")
  headers := ⟨[⟨ascii "date", ascii "today"⟩, ⟨ascii "Content-Length", ascii "7"⟩], by decide⟩
  body := some (ascii "a\r\n\r\nbc")
  bodyLen := 7

def sampleDate : Bytes := ascii "Thu, 01 Jan 1970 00:00:00 GMT"

theorem sampleAnswer_encodable : EncodableResponse sampleDate sampleAnswer where
  code := by decide
  reason := ⟨_, rfl, by decide⟩
  headers := ⟨by decide, by decide, by decide⟩
  length := by decide
  body := ⟨by decide, by decide, by decide⟩
  room := by decide +kernel
  fits := by decide +kernel

theorem httpResponseParse_httpSendResponse_sample :
    ∃ bytes, httpSendResponse (List.replicate headerSize 0) sampleDate sampleAnswer = some bytes ∧
      SameResponse sampleAnswer (httpResponseParse bytes) :=
  httpResponseParse_httpSendResponse List.length_replicate ⟨by decide, by decide⟩
    sampleAnswer_encodable

end Foxtails.Serve
