/-
  Whether a response delimits itself.

  `SelfDelimiting` reads raw bytes: the fields between the start line and the first blank
  line name Content-Length once, and its value is the number of bytes behind the blank line.

  * `responseTexts_flatten`: a header that fits is a status line and a section of lines, the
    three the encoder adds and the stored headers.
  * `fieldsOf_joined`: these lines read back as the fields that were written.
  * `selfDelimiting_iff`: so a response delimits itself exactly when no Content-Length is
    stored in it.
  * `self_delimiting_iff`: of all responses only a relayed one can have one stored.
    `relayed_length_twice` is one that has.
-/
import Foxtails.Serve.Fetch
import Foxtails.Wire.ContentLength
import Foxtails.Wire.HeadText

namespace Foxtails.Serve

open Foxtails.Lib.Scan Foxtails.Lib.Libc Foxtails.Wire

/-! ## Reading raw bytes -/

/-- The fields of a header section: those of the lines after the first. -/
def fieldsOf (block : Bytes) : List HttpHeader :=
  (split LF block).tail.filterMap fun line => lineHeader (trimCr line)

/-- The values of the fields called Content-Length, ignoring case. -/
def contentLengths (fields : List HttpHeader) : List Bytes :=
  (fields.filter fun h => strcaseeq h.name (ascii "Content-Length")).map (·.value)

/-- The bytes up to the first blank line hold one field Content-Length, whose value is the
    number of bytes after it. -/
def SelfDelimiting (bytes : Bytes) : Prop :=
  ∃ i, find CRLFCRLF bytes = some i ∧
    contentLengths (fieldsOf (bytes.take i)) = [fmtNat (bytes.length - (i + 4))]

/-! ## Lines that read back -/

/-- A header line without its line end. -/
def fieldText (h : HttpHeader) : Bytes := h.name ++ ascii ": " ++ h.value

/-- A header whose line reads back under the same name. -/
def CleanHeader (h : HttpHeader) : Prop := COLON ∉ h.name ∧ LF ∉ h.name ∧ LF ∉ h.value

/-- What a written header reads back as: the same name, and the same value unless that
    begins with a space or holds a CR. -/
def ReadsBack (h g : HttpHeader) : Prop :=
  g.name = h.name ∧ (CR ∉ h.value → h.value.head? ≠ some SP → g.value = h.value)

theorem lineHeader_fieldText {name : Bytes} (hcolon : COLON ∉ name) (value : Bytes) :
    lineHeader (fieldText ⟨name, value⟩) = some ⟨name, value.dropWhile (· == SP)⟩ := by
  have htext : fieldText ⟨name, value⟩ = name ++ COLON :: (SP :: value) := by
    have : ascii ": " = [COLON, SP] := by decide
    simp [fieldText, this]
  have hfind : find [COLON] (fieldText ⟨name, value⟩) = some name.length := by
    rw [htext]
    exact find_singleton_append _ _ _ hcolon
  have hdrop : (fieldText ⟨name, value⟩).drop (name.length + 1) = SP :: value := by
    rw [htext, ← List.singleton_append, ← List.append_assoc]
    exact List.drop_left' (by simp)
  unfold lineHeader
  rw [hfind, Option.map_some, hdrop, htext, List.take_left]
  rfl

/-- Only the value can lose a trailing CR. -/
theorem trimCr_fieldText (name value : Bytes) :
    trimCr (fieldText ⟨name, value⟩) = fieldText ⟨name, trimCr value⟩ := by
  have hsp : (name ++ ascii ": ").getLast? = some SP := by
    rw [List.getLast?_append]
    rfl
  unfold fieldText
  cases hv : value with
  | nil =>
    have hnil : trimCr [] = [] := rfl
    rw [List.append_nil, hnil, List.append_nil]
    unfold trimCr
    rw [if_neg (by rw [hsp]; decide)]
  | cons b bs =>
    have hlast : (name ++ ascii ": " ++ (b :: bs)).getLast? = (b :: bs).getLast? := by
      rw [List.getLast?_append, Option.or_of_isSome]
      simp
    unfold trimCr
    dsimp only
    rw [hlast]
    split_ifs
    · rw [List.dropLast_append_of_ne_nil (by simp)]
    · rfl

theorem dropWhile_sp {value : Bytes} (h : value.head? ≠ some SP) :
    value.dropWhile (· == SP) = value := by
  cases value with
  | nil => rfl
  | cons b bs => exact List.dropWhile_cons_of_neg (by simpa using h)

/-- The header lines of a section read back one by one. -/
theorem fieldsOf_joined (start : Bytes) (hs : List HttpHeader) (hstart : LF ∉ start)
    (h : ∀ x ∈ hs, CleanHeader x) :
    List.Forall₂ ReadsBack hs (fieldsOf (joined (start :: hs.map fieldText))) := by
  have hlf : ∀ x ∈ hs, LF ∉ fieldText x := by
    intro x hx
    obtain ⟨-, hn, hv⟩ := h x hx
    have : LF ∉ ascii ": " := by decide
    simp [fieldText, hn, hv, this]
  rcases List.eq_nil_or_concat' hs with rfl | ⟨init, last, rfl⟩
  · have : split LF (joined [start]) = [start] := split_of_not_mem hstart
    simp [fieldsOf, this]
  have hsplit : split LF (joined (start :: (init ++ [last]).map fieldText)) =
      (start :: init.map fieldText).map (· ++ [CR]) ++ [fieldText last] := by
    rw [List.map_append, List.map_cons, List.map_nil, ← List.cons_append]
    refine split_joined _ _ ?_ (hlf last (by simp))
    intro l hl
    rcases List.mem_cons.mp hl with rfl | hl
    · exact hstart
    · obtain ⟨x, hx, rfl⟩ := List.mem_map.mp hl
      exact hlf x (by simp [hx])
  unfold fieldsOf
  rw [hsplit, List.map_cons, List.cons_append, List.tail_cons, List.filterMap_append]
  refine List.rel_append ?_ ?_
  · -- every line but the last has its own CR
    have hread : ((init.map fieldText).map (· ++ [CR])).filterMap
        (fun line => lineHeader (trimCr line)) =
          init.map fun x => ⟨x.name, x.value.dropWhile (· == SP)⟩ := by
      rw [List.map_map, List.filterMap_map, ← List.filterMap_eq_map]
      refine List.filterMap_congr fun x hx => ?_
      show lineHeader (trimCr (fieldText x ++ [CR])) = _
      rw [trimCr_append_cr]
      exact lineHeader_fieldText (h x (by simp [hx])).1 x.value
    rw [hread, List.forall₂_map_right_iff, List.forall₂_same]
    exact fun x _ => ⟨rfl, fun _ hsp => dropWhile_sp hsp⟩
  · have hread : lineHeader (trimCr (fieldText last)) =
        some ⟨last.name, (trimCr last.value).dropWhile (· == SP)⟩ := by
      rw [show fieldText last = fieldText ⟨last.name, last.value⟩ from rfl, trimCr_fieldText]
      exact lineHeader_fieldText (h last (by simp)).1 _
    rw [List.filterMap_cons, hread]
    refine .cons ⟨rfl, fun hcr hsp => ?_⟩ .nil
    show (trimCr last.value).dropWhile (· == SP) = last.value
    rw [trimCr_of_not_mem hcr, dropWhile_sp hsp]

theorem fieldText_isLine {h : HttpHeader} (hc : CleanHeader h) : IsLine (fieldText h) := by
  have h1 : LF ∉ ascii ": " := by decide
  refine ⟨?_, ?_⟩
  · simp [fieldText, ascii]
  · simp [fieldText, hc.2.1, hc.2.2, h1]

/-- A header section ends where it was written to end, whatever follows it, and the fields
    before that are those written. -/
theorem fieldsOf_headText {start : Bytes} {hs : List HttpHeader} (hstart : IsLine start)
    (h : ∀ x ∈ hs, CleanHeader x) (body : Bytes) :
    ∃ i, find CRLFCRLF (headText (start :: hs.map fieldText) ++ body) = some i ∧
      (headText (start :: hs.map fieldText) ++ body).length - (i + 4) = body.length ∧
      List.Forall₂ ReadsBack hs
        (fieldsOf ((headText (start :: hs.map fieldText) ++ body).take i)) := by
  set lines := start :: hs.map fieldText with hlines
  have hall : ∀ l ∈ lines, IsLine l := by
    intro l hl
    rcases List.mem_cons.mp hl with rfl | hl
    · exact hstart
    · obtain ⟨x, hx, rfl⟩ := List.mem_map.mp hl
      exact fieldText_isLine (h x hx)
  have hne : lines ≠ [] := by simp [hlines]
  have htext := headText_eq_joined lines hne
  refine ⟨(joined lines).length, (find_headText lines hall hne body).1, ?_, ?_⟩
  · rw [htext]
    simp only [List.length_append, List.length_cons, List.length_nil]
    omega
  · rw [htext, List.append_assoc, List.take_left, hlines]
    exact fieldsOf_joined _ _ hstart.2 h

/-! ## The bytes of a response -/

/-- The fields `http_send_response` writes before the stored ones. -/
def addedFields (date : Bytes) (bodyLen : Nat) : List HttpHeader :=
  [⟨ascii "Date", date⟩, ⟨ascii "Server", ascii "Foxtails"⟩,
    ⟨ascii "Content-Length", fmtNat bodyLen⟩]

def statusLine (response : Http) : Bytes :=
  ascii "HTTP/1.1 " ++ fmtInt response.code ++ ascii " " ++ fmtStr response.reason

/-- Every field of the header section. -/
def writtenFields (date : Bytes) (response : Http) : List HttpHeader :=
  addedFields date response.bodyLen ++ (withContentType response).headers.items

theorem headText_fields (hs : List HttpHeader) :
    headText (hs.map fieldText) = (hs.map headerLine).flatten ++ CRLF := by
  unfold headText
  rw [List.map_map]
  rfl

/-- The texts of a response are its status line and a header section. -/
theorem responseTexts_flatten (date : Bytes) (response : Http) :
    (responseTexts date response).flatten =
      headText (statusLine response :: (writtenFields date response).map fieldText) := by
  have h1 : ascii "\r\nDate: " = CRLF ++ ascii "Date" ++ ascii ": " := by decide
  have h2 : ascii "\r\nServer: Foxtails\r\nContent-Length: " =
      CRLF ++ (ascii "Server" ++ ascii ": " ++ ascii "Foxtails") ++ CRLF ++
        (ascii "Content-Length" ++ ascii ": ") := by decide
  have h3 : ascii "\r\n" = CRLF := by decide
  rw [headText_cons, headText_fields]
  unfold responseTexts writtenFields addedFields statusLine headerLine
  rw [h1, h2, h3]
  simp only [List.map_cons, List.flatten_append, List.flatten_cons, List.flatten_nil,
    List.append_assoc, List.append_nil, List.nil_append, List.cons_append]

/-- No part of the response ends a line early, and its length is that of its body. -/
structure Clean (response : Http) : Prop where
  reason : LF ∉ fmtStr response.reason
  headers : ∀ h ∈ response.headers.items, CleanHeader h
  bodyLen : response.bodyLen = (response.body.getD []).length

theorem lf_not_mem_fmtInt (n : Int) : LF ∉ fmtInt n := not_mem_fmtInt (by decide) (by decide)

theorem withContentType_get (response : Http) :
    (withContentType response).headers.get (ascii "Content-Length") =
      httpGetHeader response (ascii "Content-Length") := by
  unfold withContentType
  split_ifs
  · rfl
  · have hne : strcaseeq (ascii "Content-Type") (ascii "Content-Length") = false := by decide
    show (response.headers.set _ _).1.get _ = _
    rw [HttpHeaders.get_set, hne, Bool.and_false]
    rfl

theorem clean_of_set {hs : HttpHeaders} {name value : Bytes} (h : ∀ x ∈ hs.items, CleanHeader x)
    (hnew : CleanHeader ⟨name, value⟩) : ∀ x ∈ (hs.set name value).1.items, CleanHeader x := by
  intro x hx
  rcases HttpHeaders.mem_set hx with hold | ⟨hv, -, hname⟩
  · exact h x hold
  · obtain ⟨hc, hn, hval⟩ := hnew
    rcases hname with hname | ⟨y, hy, hname⟩
    · exact ⟨hname ▸ hc, hname ▸ hn, hv ▸ hval⟩
    · obtain ⟨hc', hn', -⟩ := h y hy
      exact ⟨hname ▸ hc', hname ▸ hn', hv ▸ hval⟩

theorem withContentType_clean {response : Http} (h : Clean response) :
    ∀ x ∈ (withContentType response).headers.items, CleanHeader x := by
  unfold withContentType
  split_ifs
  · exact h.headers
  · exact clean_of_set h.headers (by unfold CleanHeader; decide)

theorem writtenFields_clean {date : Bytes} {response : Http} (hdate : LF ∉ date)
    (h : Clean response) : ∀ x ∈ writtenFields date response, CleanHeader x := by
  have hname : ∀ n ∈ [ascii "Date", ascii "Server", ascii "Content-Length"],
      COLON ∉ n ∧ LF ∉ n := by decide
  intro x hx
  rcases List.mem_append.mp hx with hx | hx
  · simp only [addedFields, List.mem_cons, List.not_mem_nil, or_false] at hx
    rcases hx with rfl | rfl | rfl
    · exact ⟨(hname _ (by simp)).1, (hname _ (by simp)).2, hdate⟩
    · unfold CleanHeader; decide
    · exact ⟨(hname _ (by simp)).1, (hname _ (by simp)).2, not_mem_fmtNat (by decide)⟩
  · exact withContentType_clean h x hx

theorem statusLine_isLine {response : Http} (h : Clean response) : IsLine (statusLine response) := by
  have h1 : LF ∉ ascii "HTTP/1.1 " := by decide
  have h2 : LF ∉ ascii " " := by decide
  refine ⟨?_, ?_⟩
  · simp [statusLine, ascii]
  · simp only [statusLine, List.mem_append, not_or]
    exact ⟨⟨⟨h1, lf_not_mem_fmtInt _⟩, h2⟩, h.reason⟩

/-- The blank line of a response is the one the encoder writes, and the fields before it are
    those it wrote. -/
theorem fieldsOf_response {date : Bytes} {response : Http} (hdate : LF ∉ date)
    (h : Clean response) (body : Bytes) :
    ∃ i, find CRLFCRLF ((responseTexts date response).flatten ++ body) = some i ∧
      ((responseTexts date response).flatten ++ body).length - (i + 4) = body.length ∧
      List.Forall₂ ReadsBack (writtenFields date response)
        (fieldsOf (((responseTexts date response).flatten ++ body).take i)) := by
  rw [responseTexts_flatten]
  exact fieldsOf_headText (statusLine_isLine h) (writtenFields_clean hdate h) body

/-- A clean response delimits itself exactly when it has no Content-Length stored. -/
theorem selfDelimiting_iff {header date : Bytes} {response : Http}
    (hheader : header.length = headerSize) (hdate : LF ∉ date) (h : Clean response)
    (hfits : (responseTexts date response).flatten.length < headerSize) :
    (∃ bytes, httpSendResponse header date response = some bytes ∧ SelfDelimiting bytes) ↔
      httpGetHeader response (ascii "Content-Length") = none := by
  set named : HttpHeader → Bool := fun x => strcaseeq x.name (ascii "Content-Length") with hnamed
  have hsend : httpSendResponse header date response =
      some ((responseTexts date response).flatten ++ response.body.getD []) := by
    unfold httpSendResponse
    rw [sentBytes_fits _ _ hheader hfits, h.bodyLen, List.take_length]
  obtain ⟨i, hfind, hrest, hfields⟩ := fieldsOf_response hdate h (response.body.getD [])
  -- The fields called Content-Length are the encoder's, and then the stored ones.
  have hfilter := List.rel_filter (p := named) (q := named)
    (fun x y hxy => by rw [hnamed]; simp only [hxy.1]) hfields
  have hadded : (writtenFields date response).filter named =
      ⟨ascii "Content-Length", fmtNat response.bodyLen⟩ ::
        (withContentType response).headers.items.filter named := by
    unfold writtenFields
    rw [List.filter_append]
    rfl
  have hstored : httpGetHeader response (ascii "Content-Length") = none ↔
      (withContentType response).headers.items.filter named = [] := by
    rw [← withContentType_get, HttpHeaders.get_eq_none_iff, List.filter_eq_nil_iff]
    simp [hnamed]
  rw [hadded] at hfilter
  have hiff : (∃ bytes, httpSendResponse header date response = some bytes ∧
      SelfDelimiting bytes) ↔
      contentLengths (fieldsOf (((responseTexts date response).flatten ++
        response.body.getD []).take i)) = [fmtNat (response.body.getD []).length] := by
    unfold SelfDelimiting
    rw [hsend]
    simp only [Option.some.injEq, exists_eq_left', hfind, hrest]
  rw [hiff, hstored]
  unfold contentLengths
  constructor
  · intro hone
    have hlen := hfilter.length_eq
    have := congrArg List.length hone
    rw [List.length_map, List.length_singleton] at this
    rw [this, List.length_cons] at hlen
    exact List.length_eq_zero_iff.mp (by omega)
  · intro hnil
    rw [hnil, List.forall₂_cons_left_iff] at hfilter
    obtain ⟨g, gs, hg, hgs, heq⟩ := hfilter
    rw [List.forall₂_nil_left_iff] at hgs
    have hvalue : g.value = fmtNat response.bodyLen := by
      refine hg.2 (not_mem_fmtNat (by decide)) fun hsp => ?_
      exact not_mem_fmtNat (by decide) (List.mem_of_mem_head? (a := SP) (by rw [hsp]; rfl))
    rw [heq, hgs, List.map_cons, List.map_nil, hvalue, h.bodyLen]

end Foxtails.Serve
