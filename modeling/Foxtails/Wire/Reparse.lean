/-
  Requests written by `http_send_request` and read by `http_request_parse`.

  `PlainHeaders` and `PlainBody` say what a message may hold so that its text is not cut
  elsewhere; requests and responses share them.

  * `lastValue_of_distinct`: with different names the last value of a name is its only one.
  * `attachBody_exact`: a body whose length is the one declared is attached whole.
  * `httpRequestParse_httpSendRequest`: the request that is read is the one that was written.
-/
import Foxtails.Wire.RoundTrip
import Foxtails.Wire.Send

namespace Foxtails.Wire

open Foxtails.Lib.Scan Foxtails.Lib.Libc

/-! ## Plain messages -/

/-- Different names, no control characters, no colon in a name, no space before a value. -/
structure PlainHeaders (hs : List HttpHeader) : Prop where
  distinct : hs.Pairwise fun a b => strcaseeq a.name b.name = false
  name : ∀ h ∈ hs, Plain h.name ∧ COLON ∉ h.name
  value : ∀ h ∈ hs, Plain h.value ∧ h.value.head? ≠ some SP

/-- No body and length 0, or a body of at least one byte and its length, a `size_t`. -/
structure PlainBody (msg : Http) : Prop where
  ne_nil : msg.body ≠ some []
  bodyLen : msg.bodyLen = (msg.body.getD []).length
  size : msg.bodyLen < SIZE

/-- A header as the encoders print it: one space behind the colon. -/
def spaced (h : HttpHeader) : Field := ⟨h.name, 1, h.value⟩

@[simp] theorem spaced_header (h : HttpHeader) : (spaced h).header = h := rfl

theorem map_spaced_header (hs : List HttpHeader) : (hs.map spaced).map Field.header = hs := by
  rw [List.map_map]
  exact List.map_id _

theorem spaced_line (h : HttpHeader) : (spaced h).line ++ CRLF = headerLine h := by
  simp [Field.line, spaced, headerLine, ascii]

theorem PlainHeaders.wellFormed {hs : List HttpHeader} (h : PlainHeaders hs) {x : HttpHeader}
    (hx : x ∈ hs) : (spaced x).WellFormed := ⟨h.name x hx, h.value x hx⟩

theorem PlainHeaders.filter {hs : List HttpHeader} (h : PlainHeaders hs) (p : HttpHeader → Bool) :
    PlainHeaders (hs.filter p) :=
  ⟨h.distinct.filter p, fun x hx => h.name x (List.mem_filter.mp hx).1,
    fun x hx => h.value x (List.mem_filter.mp hx).1⟩

/-! ## Names that are different -/

theorem lastValue_cons (k : Bytes) (h : HttpHeader) (hs : List HttpHeader) :
    lastValue k (h :: hs) =
      (lastValue k hs).or (if strcaseeq h.name k then some h.value else none) := by
  rw [← List.singleton_append, lastValue_append, lastValue_singleton]

/-- With different names the last value of a name is what `http_get_header` finds. -/
theorem lastValue_of_distinct {hs : List HttpHeader}
    (h : hs.Pairwise fun a b => strcaseeq a.name b.name = false) (k : Bytes) :
    lastValue k hs = (hs.find? fun x => strcaseeq x.name k).map (·.value) := by
  induction hs with
  | nil => rfl
  | cons x hs ih =>
    obtain ⟨hx, htail⟩ := List.pairwise_cons.mp h
    rw [lastValue_cons, ih htail, List.find?_cons]
    by_cases hk : strcaseeq x.name k = true
    · have hnone : hs.find? (fun y => strcaseeq y.name k) = none := by
        rw [List.find?_eq_none]
        intro y hy hyk
        have hxy := hx y hy
        rw [strcaseeq_congr hk, strcaseeq_comm, hyk] at hxy
        cases hxy
      simp [hk, hnone]
    · simp [hk]

/-- Headers under another name do not matter. -/
theorem find?_filter_name {k n : Bytes} (h : strcaseeq k n = false) (hs : List HttpHeader) :
    ((hs.filter fun x => !strcaseeq x.name n).find? fun x => strcaseeq x.name k) =
      hs.find? fun x => strcaseeq x.name k := by
  rw [List.find?_filter]
  refine List.find?_congr fun x _ => ?_
  by_cases hk : strcaseeq x.name k = true
  · have hn : strcaseeq x.name n = false := by rw [strcaseeq_congr hk, h]
    simp [hk, hn]
  · simp [hk]

theorem lowerNames_card_le (hs : List HttpHeader) : (lowerNames hs).card ≤ hs.length := by
  unfold lowerNames
  exact (List.toFinset_card_le _).trans_eq (List.length_map _)

/-! ## Bodies -/

theorem isNumeral_fmtNat (n : Nat) : IsNumeral (fmtNat n) n :=
  ⟨fmtNat_ne_nil n, fun _ hb => isDigit_of_mem_fmtNat hb, digitsValue_fmtNat n⟩

theorem fmtNat_plain (n : Nat) : Plain (fmtNat n) ∧ (fmtNat n).head? ≠ some SP := by
  refine ⟨⟨not_mem_fmtNat (by decide), not_mem_fmtNat (by decide), not_mem_fmtNat (by decide)⟩, ?_⟩
  exact fun h => not_mem_fmtNat (by decide) (List.mem_of_mem_head? (a := SP) h)

theorem PlainBody.take {msg : Http} (h : PlainBody msg) :
    (msg.body.getD []).take msg.bodyLen = msg.body.getD [] := by
  rw [h.bodyLen, List.take_length]

/-- A missing body is an empty one, and no other body is empty. -/
theorem PlainBody.eq_ite {msg : Http} (h : PlainBody msg) :
    (if msg.body.getD [] = [] then none else some (msg.body.getD [])) = msg.body := by
  cases hbody : msg.body with
  | none => rfl
  | some body =>
    rw [Option.getD_some, if_neg fun hnil => h.ne_nil (hbody.trans (congrArg some hnil))]

/-! ## Requests -/

/-- The headers `http_send_request` writes: its Content-Length, and the others. -/
def requestFields (request : Http) : List HttpHeader :=
  ⟨ascii "Content-Length", fmtNat request.bodyLen⟩ ::
    request.headers.items.filter fun h => !strcaseeq h.name (ascii "Content-Length")

/-- A request that can be written in one header buffer and read back. -/
structure EncodableRequest (request : Http) : Prop where
  method : request.method ≠ none
  path : ∃ p, request.path = some p ∧ SP ∉ p ∧ Plain p
  headers : PlainHeaders request.headers.items
  room : (requestFields request).length ≤ httpMaxHeaders
  body : PlainBody request
  fits : (requestTexts request).flatten.length ≤ 4095

theorem requestFields_wellFormed {request : Http} (h : PlainHeaders request.headers.items) :
    ∀ x ∈ requestFields request, (spaced x).WellFormed := by
  intro x hx
  rcases List.mem_cons.mp hx with rfl | hx
  · have hname : Plain (ascii "Content-Length") ∧ COLON ∉ ascii "Content-Length" := by decide
    exact ⟨hname, fmtNat_plain _⟩
  · exact (h.filter _).wellFormed hx

/-- What the written headers read as. -/
theorem lastValue_requestFields {request : Http} (h : PlainHeaders request.headers.items)
    (k : Bytes) :
    lastValue k (requestFields request) =
      if strcaseeq (ascii "Content-Length") k then some (fmtNat request.bodyLen)
      else httpGetHeader request k := by
  unfold requestFields
  rw [lastValue_cons, lastValue_of_distinct (h.filter _).distinct]
  by_cases hk : strcaseeq (ascii "Content-Length") k = true
  · have hnone : (request.headers.items.filter fun x =>
        !strcaseeq x.name (ascii "Content-Length")).find? (fun x => strcaseeq x.name k) = none := by
      rw [List.find?_eq_none]
      intro x hx hxk
      rw [strcaseeq_comm, ← strcaseeq_congr hk, strcaseeq_comm] at hxk
      simp [hxk] at hx
    simp [hk, hnone]
  · rw [Bool.not_eq_true] at hk
    rw [find?_filter_name (by rw [strcaseeq_comm, hk])]
    simp [hk, httpGetHeader, HttpHeaders.get]

def requestLine (request : Http) : Bytes :=
  fmtStr (httpMethodToStr request.method) ++ ascii " " ++ fmtStr request.path ++ ascii " HTTP/1.1"

/-- The texts of a request are its request line and a header section. -/
theorem requestTexts_flatten (request : Http) :
    (requestTexts request).flatten =
      headText (requestLine request :: (requestFields request).map fun h => (spaced h).line) := by
  have h1 : ascii " HTTP/1.1\r\nContent-Length: " =
      ascii " HTTP/1.1" ++ CRLF ++ (ascii "Content-Length" ++ ascii ": ") := by decide
  have h2 : ascii "\r\n" = CRLF := rfl
  have hlines : headText ((requestFields request).map fun h => (spaced h).line) =
      ((requestFields request).map headerLine).flatten ++ CRLF := by
    unfold headText
    rw [List.map_map]
    congr 2
    exact List.map_congr_left fun x _ => spaced_line x
  rw [headText_cons, hlines]
  simp only [requestTexts, requestLine, requestFields, headerLine, List.map_cons,
    List.flatten_cons, List.flatten_append, List.flatten_nil, h1, h2, List.append_assoc,
    List.append_nil]

/-- The request that is meant. -/
def requestOf (method : Method) (path : Bytes) (request : Http) : Request where
  method := method
  path := path
  fields := (requestFields request).map spaced
  body := request.body.getD []

theorem requestOf_encode {request : Http} {method : Method} {path : Bytes}
    (hmethod : request.method = some method) (hpath : request.path = some path) :
    (requestTexts request).flatten ++ request.body.getD [] =
      (requestOf method path request).encode := by
  have h1 : ascii " HTTP/1.1" = SP :: ascii "HTTP/1.1" := by decide
  have h2 : ascii " " = [SP] := by decide
  rw [requestTexts_flatten, headText_cons, Request.encode]
  simp only [requestLine, requestOf, hmethod, hpath, httpMethodToStr, fmtStr, Option.map_some,
    Option.getD_some, h1, h2, List.map_map, Function.comp_def, List.append_assoc,
    List.cons_append, List.nil_append]

theorem requestOf_wellFormed {request : Http} (h : EncodableRequest request) {method : Method}
    {path : Bytes} (hpath : request.path = some path) :
    (requestOf method path request).WellFormed where
  path := by
    obtain ⟨p, hp, hsp, -, hlf, hnul⟩ := h.path
    rw [hpath, Option.some.injEq] at hp
    subst hp
    exact ⟨hsp, hlf, hnul⟩
  fields := by
    refine ⟨by simp [requestOf, requestFields], fun f hf => ?_⟩
    obtain ⟨x, hx, rfl⟩ := List.mem_map.mp hf
    exact requestFields_wellFormed h.headers x hx
  length := by
    intro f hf hname
    obtain ⟨x, hx, rfl⟩ := List.mem_map.mp hf
    rcases List.mem_cons.mp hx with rfl | hx
    · show IsNumeral (fmtNat request.bodyLen) (request.body.getD []).length
      rw [← h.body.bodyLen]
      exact isNumeral_fmtNat _
    · have hother := (List.mem_filter.mp hx).2
      have hname : strcaseeq x.name (ascii "Content-Length") = true := hname
      simp [hname] at hother
  hasLength := fun _ => ⟨_, List.mem_map_of_mem List.mem_cons_self, rfl⟩
  size := by
    show (request.body.getD []).length < SIZE
    rw [← h.body.bodyLen]
    exact h.body.size

/-- What `http_request_parse` makes of what `http_send_request` wrote. -/
structure SameRequest (request parsed : Http) : Prop where
  method : parsed.method = request.method
  path : parsed.path = request.path
  body : parsed.body = request.body
  bodyLen : parsed.bodyLen = request.bodyLen
  headers : ∀ k, strcaseeq k (ascii "Content-Length") = false →
    httpGetHeader parsed k = httpGetHeader request k
  contentLength : httpGetHeader parsed (ascii "Content-Length") = some (fmtNat request.bodyLen)

/-- **A request that is written and read is the same request**, with a Content-Length. -/
theorem httpRequestParse_httpSendRequest {header : Bytes} (hheader : header.length = headerSize)
    {request : Http} (h : EncodableRequest request) :
    ∃ bytes, httpSendRequest header request = some bytes ∧
      SameRequest request (httpRequestParse bytes) := by
  obtain ⟨method, hmethod⟩ := Option.ne_none_iff_exists'.mp h.method
  obtain ⟨path, hpath, -⟩ := h.path
  have hsent := sentBytes_fits (requestTexts request) request hheader
    (Nat.lt_succ_of_le h.fits)
  rw [h.body.take, requestOf_encode hmethod hpath] at hsent
  refine ⟨_, hsent, ?_⟩
  have hfields : (requestOf method path request).headers = requestFields request :=
    map_spaced_header _
  have hcard : (lowerNames (requestOf method path request).headers).card ≤ httpMaxHeaders := by
    rw [hfields]
    exact (lowerNames_card_le _).trans h.room
  have hsame := (same_iff (requestOf_wellFormed h hpath)).mpr hcard
  have hget : ∀ k, httpGetHeader (httpRequestParse (requestOf method path request).encode) k =
      if strcaseeq (ascii "Content-Length") k then some (fmtNat request.bodyLen)
      else httpGetHeader request k := by
    intro k
    rw [hsame.headers, hfields]
    exact lastValue_requestFields h.headers k
  exact
    { method := hsame.method.trans hmethod.symm
      path := hsame.path.trans hpath.symm
      body := hsame.body.trans h.body.eq_ite
      bodyLen := hsame.bodyLen.trans h.body.bodyLen.symm
      headers := fun k hk => by rw [hget, strcaseeq_comm, hk]; rfl
      contentLength := by rw [hget, strcaseeq_self]; rfl }

/-- A form whose body looks like another header section, with a wrong Content-Length stored. -/
def sampleForm : Http where
  method := some .post
  path := some (ascii "/form")
  headers := ⟨[⟨ascii "Host", ascii "fox"⟩, ⟨ascii "content-length", ascii "99"⟩], by decide⟩
  body := some (ascii "a: b\r\n\r\nc")
  bodyLen := 9

theorem sampleForm_encodable : EncodableRequest sampleForm where
  method := by decide
  path := ⟨ascii "/form", rfl, by decide, by decide⟩
  headers := ⟨by decide, by decide, by decide⟩
  room := by decide
  body := ⟨by decide, by decide, by decide⟩
  fits := by decide

theorem httpRequestParse_httpSendRequest_form :
    ∃ bytes, httpSendRequest (List.replicate headerSize 0) sampleForm = some bytes ∧
      SameRequest sampleForm (httpRequestParse bytes) :=
  httpRequestParse_httpSendRequest List.length_replicate sampleForm_encodable

end Foxtails.Wire
