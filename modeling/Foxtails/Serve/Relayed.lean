/-
  Messages that are written, read and written again.

  Model (read this before the theorems). `rewritten` is what `http_request_parse` makes of a
  request that `http_send_request` wrote, `relayed` what `http_response_parse` makes of a response
  that `http_send_response` wrote, both with their tables as they are stored, header by header.

  * `setAll_over`: setting the headers of a table once more, over other values of its first names,
    gives the table.
  * `rewritten_rewritten`, `requestTexts_rewritten`: a request that was read once is written as it
    was, however often.
  * `relayed_relayed`: so is a response, but for the Date, and the one that is read has the Date of
    the first.
  * `relayed_encodable`: the second time it takes at most 95 bytes more.
-/
import Foxtails.Serve.Reparse
import Foxtails.Wire.HeaderBuffer
import Foxtails.Wire.HeaderMap

namespace Foxtails.Serve

open Foxtails.Lib.Scan Foxtails.Lib.Libc Foxtails.Wire

/-! ## Tables -/

theorem overwrite_append_of_absent {name value : Bytes} {front : List HttpHeader}
    (h : ∀ x ∈ front, strcaseeq x.name name = false) (back : List HttpHeader) :
    overwrite name value (front ++ back) = front ++ overwrite name value back := by
  induction front with
  | nil => rfl
  | cons x front ih =>
    have hx := h x List.mem_cons_self
    rw [List.cons_append, overwrite, if_neg (by rw [hx]; exact Bool.false_ne_true),
      ih fun y hy => h y (List.mem_cons_of_mem _ hy)]
    rfl

/-- A header that is set over another value of its name. -/
theorem set_over {t : HttpHeaders} {front back : List HttpHeader} {g h : HttpHeader}
    (ht : t.items = front ++ g :: back) (hname : g.name = h.name)
    (hfront : ∀ x ∈ front, strcaseeq x.name h.name = false) :
    (t.set h.name h.value).1.items = front ++ h :: back := by
  have hsame : strcaseeq g.name h.name = true := by
    rw [hname]
    exact strcaseeq_self _
  have hany : (t.items.any fun x => strcaseeq x.name h.name) = true := by
    rw [List.any_eq_true]
    exact ⟨g, by rw [ht]; exact List.mem_append_right _ List.mem_cons_self, hsame⟩
  unfold HttpHeaders.set
  rw [if_pos hany]
  show overwrite h.name h.value t.items = _
  rw [ht, overwrite_append_of_absent hfront, overwrite, if_pos hsame, hname]

/-- Headers that are set over other values of their names. -/
theorem setAll_values {t : HttpHeaders} {front old new back : List HttpHeader}
    (ht : t.items = front ++ old ++ back) (hnames : old.map (·.name) = new.map (·.name))
    (hdistinct : Distinct (front ++ new)) : (t.setAll new).items = front ++ new ++ back := by
  induction new generalizing t front old with
  | nil =>
    rw [List.map_nil, List.map_eq_nil_iff] at hnames
    rw [hnames] at ht
    exact ht
  | cons h new ih =>
    obtain ⟨g, old, rfl⟩ : ∃ g gs, old = g :: gs := by
      apply List.exists_cons_of_ne_nil
      intro hnil
      rw [hnil] at hnames
      cases hnames
    rw [List.map_cons, List.map_cons, List.cons.injEq] at hnames
    have hcross := (List.pairwise_append.mp hdistinct).2.2
    have hset := set_over (by rw [ht, List.append_assoc, List.cons_append]) hnames.1
      fun x hx => hcross x hx h List.mem_cons_self
    rw [← List.singleton_append, ← List.append_assoc] at hdistinct
    have hitems : (t.set h.name h.value).1.items = front ++ [h] ++ old ++ back := by
      rw [hset]
      simp
    show ((t.set h.name h.value).1.setAll new).items = _
    rw [ih hitems hnames.2 hdistinct]
    simp

/-- Headers of new names go behind what is there. -/
theorem setAll_new {t : HttpHeaders} {hs : List HttpHeader} (hdistinct : Distinct (t.items ++ hs))
    (hroom : (t.items ++ hs).length ≤ httpMaxHeaders) : (t.setAll hs).items = t.items ++ hs := by
  induction hs generalizing t with
  | nil => exact (List.append_nil _).symm
  | cons h hs ih =>
    have hnone : t.get h.name = none := by
      rw [HttpHeaders.get_eq_none_iff]
      intro x hx
      exact (List.pairwise_append.mp hdistinct).2.2 x hx h List.mem_cons_self
    have hlt : t.items.length < httpMaxHeaders := by
      rw [List.length_append, List.length_cons] at hroom
      omega
    have hset := ((HttpHeaders.set_of_get_none h.value hnone).1 hlt).2
    rw [← List.singleton_append, ← List.append_assoc, ← hset] at hdistinct hroom
    show ((t.set h.name h.value).1.setAll hs).items = _
    rw [ih hdistinct hroom, hset, List.append_assoc]
    rfl

/-- **A table that is set once more**, over other values of its first names, is the table. -/
theorem setAll_over {old hs : List HttpHeader} (hnames : old.map (·.name) <+: hs.map (·.name))
    (hdistinct : Distinct hs) (hroom : hs.length ≤ httpMaxHeaders) :
    (HttpHeaders.empty.setAll (old ++ hs)).items = hs := by
  have hlength : old.length ≤ hs.length := by
    have := hnames.length_le
    rwa [List.length_map, List.length_map] at this
  have hfirst : old.map (·.name) = (hs.take old.length).map (·.name) := by
    have := List.prefix_iff_eq_take.mp hnames
    rwa [List.length_map, ← List.map_take] at this
  have hsplit := List.take_append_drop old.length hs
  have htake : Distinct (hs.take old.length) := hdistinct.sublist (List.take_sublist _ _)
  have hold : (HttpHeaders.empty.setAll old).items = old :=
    setAll_new ((distinct_congr hfirst).mpr htake) (hlength.trans hroom)
  have hfront : ((HttpHeaders.empty.setAll old).setAll (hs.take old.length)).items =
      hs.take old.length := by
    have hold' : (HttpHeaders.empty.setAll old).items = [] ++ old ++ [] := by
      rw [hold, List.append_nil, List.nil_append]
    rw [setAll_values hold' hfirst htake, List.append_nil, List.nil_append]
  rw [HttpHeaders.setAll_append]
  conv_lhs => rw [← hsplit, HttpHeaders.setAll_append]
  rw [setAll_new (by rw [hfront, hsplit]; exact hdistinct) (by rw [hfront, hsplit]; exact hroom),
    hfront, hsplit]

/-- The names that are stored stay where they are. -/
theorem names_setAll (t : HttpHeaders) (hs : List HttpHeader) :
    t.items.map (·.name) <+: (t.setAll hs).items.map (·.name) := by
  induction hs generalizing t with
  | nil => exact List.prefix_rfl
  | cons h hs ih =>
    refine List.IsPrefix.trans ?_ (ih (t.set h.name h.value).1)
    by_cases hget : t.get h.name = none
    · obtain ⟨hroom, hfull⟩ := HttpHeaders.set_of_get_none h.value hget
      by_cases hlt : t.items.length < httpMaxHeaders
      · rw [(hroom hlt).2, List.map_append]
        exact List.prefix_append _ _
      · rw [hfull hlt]
    · rw [HttpHeaders.set_names_of_get h.value hget]

/-- A stored header has the name of one that was set, and the value of one of that name. -/
theorem mem_setAll {hs : List HttpHeader} {h : HttpHeader}
    (hm : h ∈ (HttpHeaders.empty.setAll hs).items) :
    (∃ g ∈ hs, g.name = h.name) ∧ ∃ g ∈ hs, g.value = h.value ∧ strcaseeq g.name h.name = true := by
  induction hs using List.reverseRecOn generalizing h with
  | nil => exact absurd hm List.not_mem_nil
  | append_singleton hs g ih =>
    have hold : h ∈ (HttpHeaders.empty.setAll hs).items →
        (∃ x ∈ hs ++ [g], x.name = h.name) ∧
          ∃ x ∈ hs ++ [g], x.value = h.value ∧ strcaseeq x.name h.name = true := by
      intro hmem
      obtain ⟨⟨x, hx, hname⟩, y, hy, hvalue⟩ := ih hmem
      exact ⟨⟨x, List.mem_append_left _ hx, hname⟩, y, List.mem_append_left _ hy, hvalue⟩
    rw [HttpHeaders.setAll_append] at hm
    obtain hmem | ⟨hvalue, hcase, hname⟩ := HttpHeaders.mem_set hm
    · exact hold hmem
    · have hlast : g ∈ hs ++ [g] := List.mem_append_right _ (List.mem_singleton_self g)
      refine ⟨?_, g, hlast, hvalue.symm, by rw [strcaseeq_comm]; exact hcase⟩
      obtain hname | ⟨x, hx, hname⟩ := hname
      · exact ⟨g, hlast, hname.symm⟩
      · obtain ⟨⟨y, hy, hy'⟩, -⟩ := ih hx
        exact ⟨y, List.mem_append_left _ hy, hy'.trans hname⟩

/-- With different names, a stored header is the one that is found. -/
theorem get_of_mem {t : HttpHeaders} (hdistinct : Distinct t.items) {x : HttpHeader}
    (hx : x ∈ t.items) {k : Bytes} (hk : strcaseeq x.name k = true) : t.get k = some x.value := by
  obtain ⟨front, back, hsplit⟩ := List.append_of_mem hx
  rw [hsplit] at hdistinct
  have hfront : ∀ y ∈ front, strcaseeq y.name k = false := by
    intro y hy
    have hother := (List.pairwise_append.mp hdistinct).2.2 y hy x List.mem_cons_self
    rw [strcaseeq_comm] at hk
    exact strcaseeq_trans_false hk hother
  have hnone : front.find? (fun y => strcaseeq y.name k) = none := by simpa using hfront
  unfold HttpHeaders.get
  rw [hsplit, List.find?_append, hnone, List.find?_cons, hk]
  rfl

/-! ## Requests -/

/-- What `http_request_parse` makes of a request that `http_send_request` wrote. -/
def rewritten (request : Http) : Http where
  method := request.method
  path := request.path
  headers := HttpHeaders.empty.setAll (requestFields request)
  body := request.body
  bodyLen := request.bodyLen

theorem requestFields_distinct {request : Http} (h : PlainHeaders request.headers.items) :
    Distinct (requestFields request) := by
  refine List.pairwise_cons.mpr ⟨?_, h.distinct.filter _⟩
  intro x hx
  have hother := (List.mem_filter.mp hx).2
  rw [strcaseeq_comm]
  simpa using hother

theorem rewritten_items {request : Http} (h : EncodableRequest request) :
    (rewritten request).headers.items = requestFields request :=
  setAll_new (requestFields_distinct h.headers) h.room

/-- The bytes that `http_send_request` writes are read as `rewritten`. -/
theorem httpRequestParse_written {request : Http} (h : EncodableRequest request) :
    httpRequestParse ((requestTexts request).flatten ++ request.body.getD []) =
      rewritten request := by
  obtain ⟨method, hmethod⟩ := Option.ne_none_iff_exists'.mp h.method
  obtain ⟨path, hpath, -⟩ := h.path
  have hwell : (requestOf method path request).WellFormed := requestOf_wellFormed h hpath
  have hfields : (requestOf method path request).headers = requestFields request :=
    map_spaced_header _
  set msg : Http := { method := some method, path := some path,
                      headers := HttpHeaders.empty.setAll (requestFields request) } with hmsg
  have hlength : parsedContentLength msg = (request.body.getD []).length := by
    have hlast := number_of_lastValue hwell
    have hcard := (lowerNames_card_le (requestFields request)).trans h.room
    rw [hfields, ← (forall_governingValue_iff _).mpr hcard, ← HttpHeaders.get_setAll] at hlast
    refine Eq.trans ?_ hlast
    unfold parsedContentLength httpGetHeader
    cases msg.headers.get (ascii "Content-Length") <;> rfl
  rw [requestOf_encode hmethod hpath, httpRequestParse_encode hwell, hfields]
  show attachBody msg (some (request.body.getD [])) = _
  rw [attachBody_exact rfl rfl hlength, h.body.eq_ite, ← h.body.bodyLen]
  unfold rewritten
  rw [hmsg, hmethod, hpath]

/-- What is written of it are the same fields. -/
theorem requestFields_rewritten {request : Http} (h : EncodableRequest request) :
    requestFields (rewritten request) = requestFields request := by
  have hskip : ((requestFields request).filter fun x =>
      !strcaseeq x.name (ascii "Content-Length")) =
        request.headers.items.filter fun x => !strcaseeq x.name (ascii "Content-Length") := by
    unfold requestFields
    rw [List.filter_cons_of_neg (by simp [strcaseeq_self]), List.filter_filter]
    simp
  conv_lhs => unfold requestFields
  rw [rewritten_items h, hskip]
  rfl

/-- So are the bytes. -/
theorem requestTexts_rewritten {request : Http} (h : EncodableRequest request) :
    (requestTexts (rewritten request)).flatten = (requestTexts request).flatten := by
  rw [requestTexts_flatten, requestTexts_flatten, requestFields_rewritten h]
  rfl

/-- A request that was read once can be written again. -/
theorem rewritten_encodable {request : Http} (h : EncodableRequest request) :
    EncodableRequest (rewritten request) where
  method := h.method
  path := h.path
  headers := by
    rw [rewritten_items h]
    exact ⟨requestFields_distinct h.headers, fun x hx => (requestFields_wellFormed h.headers x hx).1,
      fun x hx => (requestFields_wellFormed h.headers x hx).2⟩
  room := by
    rw [requestFields_rewritten h]
    exact h.room
  body := ⟨h.body.ne_nil, h.body.bodyLen, h.body.size⟩
  fits := by
    rw [requestTexts_rewritten h]
    exact h.fits

/-- **A request that is read, written and read is the one that was read.** -/
theorem rewritten_rewritten {request : Http} (h : EncodableRequest request) :
    rewritten (rewritten request) = rewritten request :=
  calc rewritten (rewritten request)
      = { rewritten request with
          headers := HttpHeaders.empty.setAll (requestFields (rewritten request)) } := rfl
    _ = rewritten request := by rw [requestFields_rewritten h]; rfl

/-! ## Responses -/

/-- What `http_response_parse` makes of a response that `http_send_response` wrote. -/
def relayed (date : Bytes) (response : Http) : Http where
  code := response.code
  reason := response.reason
  headers := HttpHeaders.empty.setAll (writtenFields date response)
  body := response.body
  bodyLen := response.bodyLen

theorem relayed_get {date : Bytes} {response : Http} (h : EncodableResponse date response)
    (k : Bytes) : httpGetHeader (relayed date response) k =
      lastValue k (writtenFields date response) := by
  unfold httpGetHeader relayed
  rw [HttpHeaders.get_setAll]
  exact (forall_governingValue_iff _).mpr (writtenFields_card h) k

/-- The bytes that `http_send_response` writes are read as `relayed`. -/
theorem httpResponseParse_written {date : Bytes} (hdate : IsDate date) {response : Http}
    (h : EncodableResponse date response) :
    httpResponseParse ((responseTexts date response).flatten ++ response.body.getD []) =
      relayed date response := by
  obtain ⟨reason, hreason, -⟩ := h.reason
  set msg : Http := { code := response.code, reason := some reason,
                      headers := HttpHeaders.empty.setAll (writtenFields date response) } with hmsg
  have hlength : parsedContentLength msg = (response.body.getD []).length := by
    have hsize : digitsValue (fmtNat response.bodyLen) < SIZE := by
      rw [digitsValue_fmtNat]
      exact h.body.size
    have hget : httpGetHeader msg (ascii "Content-Length") = some (fmtNat response.bodyLen) :=
      (relayed_get h _).trans (lastValue_length h)
    unfold parsedContentLength
    rw [hget]
    dsimp only
    rw [strtoul_of_digits (fmtNat_ne_nil _) (fun _ hb => isDigit_of_mem_fmtNat hb) hsize,
      digitsValue_fmtNat, h.body.bodyLen]
  rw [httpResponseParse_encode hdate h hreason, attachBody_exact rfl rfl hlength, h.body.eq_ite,
    ← h.body.bodyLen]
  unfold relayed
  rw [hmsg, hreason]

/-- It has the status, the body and the headers of the response that was written. -/
theorem sameResponse_relayed {date : Bytes} {response : Http} (h : EncodableResponse date response) :
    SameResponse response (relayed date response) where
  code := rfl
  reason := rfl
  body := rfl
  bodyLen := rfl
  headers := by
    intro k hk
    rw [relayed_get h, lastValue_writtenFields h.headers hk]

/-! ## The second time -/

theorem addedFields_distinct (date : Bytes) (bodyLen : Nat) :
    Distinct (addedFields date bodyLen) := by
  have hsample : Distinct (addedFields [] 0) := by
    unfold Distinct
    decide
  have hnames : (addedFields [] 0).map (·.name) = (addedFields date bodyLen).map (·.name) := rfl
  exact (distinct_congr hnames).mp hsample

/-- The names the encoder adds are the first. -/
theorem relayed_names (date : Bytes) (response : Http) :
    (addedFields date response.bodyLen).map (·.name) <+:
      (relayed date response).headers.items.map (·.name) := by
  have hadded : (HttpHeaders.empty.setAll (addedFields date response.bodyLen)).items =
      addedFields date response.bodyLen :=
    setAll_new (addedFields_distinct _ _) (by decide : 3 ≤ httpMaxHeaders)
  show _ <+: (HttpHeaders.empty.setAll (writtenFields date response)).items.map (·.name)
  unfold writtenFields
  rw [HttpHeaders.setAll_append]
  conv_lhs => rw [← hadded]
  exact names_setAll _ _

theorem relayed_distinct (date : Bytes) (response : Http) :
    Distinct (relayed date response).headers.items :=
  HttpHeaders.setAll_distinct _ List.Pairwise.nil

/-- There is always a content type: it is the response's, or there is a place for it. -/
theorem contentType_written {date : Bytes} {response : Http}
    (h : EncodableResponse date response) :
    (withContentType response).headers.get (ascii "Content-Type") ≠ none := by
  unfold withContentType
  by_cases hhas : httpHasHeader response (ascii "Content-Type") = true
  · rw [if_pos hhas]
    exact Option.isSome_iff_ne_none.mp hhas
  · rw [if_neg hhas]
    have hnone : response.headers.get (ascii "Content-Type") = none := by
      simpa [httpHasHeader, httpGetHeader] using hhas
    have hdistinct : Distinct (textPlain :: response.headers.items) := by
      refine List.pairwise_cons.mpr ⟨?_, h.headers.distinct⟩
      intro x hx
      rw [strcaseeq_comm]
      exact HttpHeaders.get_eq_none_iff.mp hnone x hx
    have hcard : (lowerNames (textPlain :: response.headers.items)).card =
        response.headers.items.length + 1 := by
      unfold lowerNames
      rw [List.toFinset_card_of_nodup ((distinct_iff_nodup _).mp hdistinct), List.length_map,
        List.length_cons]
    have hroom := (Finset.card_le_card (lowerNames_mono (List.subset_append_right _ _))).trans h.room
    have hstored := ((HttpHeaders.set_of_get_none (mimeTypeStr .textPlain) hnone).1 (by omega)).1
    show (response.headers.set _ _).1.get _ ≠ none
    rw [HttpHeaders.get_set, hstored, strcaseeq_self]
    exact Option.some_ne_none _

theorem withContentType_relayed {date : Bytes} {response : Http}
    (h : EncodableResponse date response) :
    withContentType (relayed date response) = relayed date response := by
  have hwritten : lastValue (ascii "Content-Type") (withContentType response).headers.items ≠ none := by
    rw [lastValue_of_distinct (withContentType_plain h.headers).distinct]
    exact contentType_written h
  have hget : httpGetHeader (relayed date response) (ascii "Content-Type") ≠ none := by
    rw [relayed_get h]
    unfold writtenFields
    rw [lastValue_append, Option.or_of_isSome (Option.isSome_iff_ne_none.mpr hwritten)]
    exact hwritten
  unfold withContentType
  rw [if_pos]
  exact Option.isSome_iff_ne_none.mpr hget

/-- **A response that is read, written and read is the one that was read**: the Date is that of the
    first program that wrote it. -/
theorem relayed_relayed {date : Bytes} (later : Bytes) {response : Http}
    (h : EncodableResponse date response) :
    relayed later (relayed date response) = relayed date response := by
  have hwritten : writtenFields later (relayed date response) =
      addedFields later response.bodyLen ++ (relayed date response).headers.items := by
    conv_lhs => unfold writtenFields
    rw [withContentType_relayed h]
    rfl
  have htable : (relayed later (relayed date response)).headers = (relayed date response).headers := by
    apply HttpHeaders.ext
    show (HttpHeaders.empty.setAll (writtenFields later (relayed date response))).items = _
    rw [hwritten]
    exact setAll_over (relayed_names date response) (relayed_distinct date response)
      (relayed date response).headers.bounded
  calc relayed later (relayed date response)
      = { relayed date response with
          headers := (relayed later (relayed date response)).headers } := rfl
    _ = relayed date response := by rw [htable]

theorem writtenFields_subset (date : Bytes) (response : Http) :
    writtenFields date response ⊆
      addedFields date response.bodyLen ++ textPlain :: response.headers.items := by
  unfold writtenFields
  intro x hx
  rw [List.mem_append] at hx ⊢
  refine hx.imp_right fun hitem => ?_
  obtain heq | ⟨-, heq⟩ := withContentType_items response
  · rw [heq] at hitem
    exact List.mem_cons_of_mem _ hitem
  · rw [heq, List.mem_append, List.mem_singleton] at hitem
    exact List.mem_cons.mpr hitem.symm

/-! ## Its size -/

/-- The bytes of header lines. -/
def linesLen (hs : List HttpHeader) : Nat := (hs.map lineLen).sum

theorem linesLen_append (hs gs : List HttpHeader) :
    linesLen (hs ++ gs) = linesLen hs + linesLen gs := by
  unfold linesLen
  rw [List.map_append, List.sum_append]

theorem linesLen_overwrite (name value : Bytes) (hs : List HttpHeader) :
    linesLen (overwrite name value hs) ≤ linesLen hs + lineLen ⟨name, value⟩ := by
  unfold linesLen
  induction hs with
  | nil => exact Nat.zero_le _
  | cons h hs ih =>
    rw [overwrite]
    by_cases hname : strcaseeq h.name name = true
    · have hlen : h.name.length = name.length := by
        have := congrArg List.length ((strcaseeq_iff _ _).mp hname)
        rwa [List.length_map, List.length_map] at this
      rw [if_pos hname, List.map_cons, List.map_cons, List.sum_cons, List.sum_cons]
      unfold lineLen
      dsimp only
      omega
    · rw [if_neg hname, List.map_cons, List.map_cons, List.sum_cons, List.sum_cons]
      omega

/-- Setting headers stores no more bytes than the headers have. -/
theorem linesLen_setAll (t : HttpHeaders) (hs : List HttpHeader) :
    linesLen (t.setAll hs).items ≤ linesLen t.items + linesLen hs := by
  induction hs generalizing t with
  | nil => exact Nat.le_refl _
  | cons h hs ih =>
    have hset : linesLen (t.set h.name h.value).1.items ≤ linesLen t.items + lineLen h := by
      unfold HttpHeaders.set
      split_ifs
      · exact linesLen_overwrite h.name h.value t.items
      · show linesLen (t.items ++ [h]) ≤ _
        rw [linesLen_append]
        exact Nat.le_refl _
      · exact Nat.le_add_right _ _
    have hrest := ih (t.set h.name h.value).1
    have hcons : linesLen (h :: hs) = lineLen h + linesLen hs := rfl
    show linesLen ((t.set h.name h.value).1.setAll hs).items ≤ _
    omega

theorem fmtNat_length_le {n : Nat} (h : n < SIZE) : (fmtNat n).length ≤ 20 := by
  have hsize : SIZE = 18446744073709551616 := rfl
  rw [fmtNat, List.length_map, Nat.length_toDigits_le_iff (by decide) (by decide)]
  omega

theorem responseTexts_length (date : Bytes) (response : Http) :
    (responseTexts date response).flatten.length =
      (fmtInt response.code).length + (fmtStr response.reason).length + date.length +
        (fmtNat response.bodyLen).length + 58 +
        linesLen (withContentType response).headers.items := by
  rw [List.length_flatten, responseTexts_lens]
  unfold responseLens linesLen
  simp only [List.sum_append, List.sum_cons, List.sum_nil]
  omega

theorem linesLen_addedFields (date : Bytes) (bodyLen : Nat) :
    linesLen (addedFields date bodyLen) = date.length + (fmtNat bodyLen).length + 44 := by
  have h1 : (ascii "Date").length = 4 := by decide
  have h2 : (ascii "Server").length + (ascii "Foxtails").length = 14 := by decide
  have h3 : (ascii "Content-Length").length = 14 := by decide
  simp only [linesLen, addedFields, lineLen, List.map_cons, List.map_nil, List.sum_cons,
    List.sum_nil]
  omega

/-- Written the second time, a response has the lines of the first time and three more. -/
theorem relayed_length {date : Bytes} (later : Bytes) {response : Http}
    (h : EncodableResponse date response) :
    (responseTexts later (relayed date response)).flatten.length ≤
      (responseTexts date response).flatten.length + later.length + 64 := by
  have hstored := linesLen_setAll HttpHeaders.empty (writtenFields date response)
  have hempty : linesLen HttpHeaders.empty.items = 0 := rfl
  unfold writtenFields at hstored
  rw [linesLen_append, linesLen_addedFields, hempty] at hstored
  have hdigits := fmtNat_length_le h.body.size
  rw [responseTexts_length, responseTexts_length, withContentType_relayed h]
  show (fmtInt response.code).length + (fmtStr response.reason).length + later.length +
    (fmtNat response.bodyLen).length + 58 + linesLen (HttpHeaders.empty.setAll
      (addedFields date response.bodyLen ++ (withContentType response).headers.items)).items ≤ _
  omega

/-- What is read can be written again, if there is room for the lines the encoder adds. -/
theorem relayed_encodable {date later : Bytes} (hdate : IsDate date) {response : Http}
    (h : EncodableResponse date response)
    (hfits : (responseTexts date response).flatten.length + later.length + 64 ≤ 4095) :
    EncodableResponse later (relayed date response) where
  code := h.code
  reason := h.reason
  headers := by
    refine ⟨relayed_distinct date response, fun x hx => ?_, fun x hx => ?_⟩
    · obtain ⟨⟨g, hg, hname⟩, -⟩ := mem_setAll hx
      have hwell := (writtenFields_wellFormed hdate h.headers g hg).1
      rw [← hname]
      exact hwell
    · obtain ⟨-, g, hg, hvalue, -⟩ := mem_setAll hx
      have hwell := (writtenFields_wellFormed hdate h.headers g hg).2
      rw [← hvalue]
      exact hwell
  length := by
    intro x hx hname
    have hget := (relayed_get h (ascii "Content-Length")).trans (lastValue_length h)
    have hfound := get_of_mem (relayed_distinct date response) hx hname
    exact Option.some.inj (hfound.symm.trans hget)
  body := ⟨h.body.ne_nil, h.body.bodyLen, h.body.size⟩
  room := by
    refine (Finset.card_le_card ?_).trans h.room
    intro n hn
    obtain ⟨x, hx, rfl⟩ := mem_lowerNames.mp hn
    suffices ∃ g ∈ addedFields date response.bodyLen ++ textPlain :: response.headers.items,
        g.name = x.name by
      obtain ⟨g, hg, hname⟩ := this
      exact mem_lowerNames.mpr ⟨g, hg, by rw [hname]⟩
    rw [List.mem_append, List.mem_cons] at hx
    obtain hadded | rfl | hstored := hx
    · have hnames := List.mem_map_of_mem hadded (f := fun y : HttpHeader => y.name)
      obtain ⟨g, hg, hname⟩ := List.mem_map.mp
        (show x.name ∈ (addedFields date response.bodyLen).map (·.name) from hnames)
      exact ⟨g, List.mem_append_left _ hg, hname⟩
    · exact ⟨textPlain, List.mem_append_right _ List.mem_cons_self, rfl⟩
    · obtain ⟨⟨g, hg, hname⟩, -⟩ := mem_setAll hstored
      exact ⟨g, writtenFields_subset date response hg, hname⟩
  fits := (relayed_length later h).trans hfits

end Foxtails.Serve
