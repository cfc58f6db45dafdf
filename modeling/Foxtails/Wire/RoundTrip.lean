/-
  Well-formed requests and what the parser makes of their bytes.

  A `Request` is what a client means; `encode` are its bytes. `Same` compares it with an
  `http_t`: method, path, body, and the last value of every header name.

  * `lineHeaders_fields`: the lines of the header section read back as the fields.
  * `same_iff`: a well-formed request is parsed back from its bytes exactly when its header
    names fit the table.
-/
import Foxtails.Wire.HeadText
import Foxtails.Wire.HeaderTable

namespace Foxtails.Wire

open Foxtails.Lib.Scan Foxtails.Lib.Libc

/-! ## Requests -/

/-- A header line: name, colon, `gap` spaces, value. -/
structure Field where
  name : Bytes
  gap : Nat
  value : Bytes
  deriving DecidableEq, Repr

def Field.line (f : Field) : Bytes := f.name ++ COLON :: (List.replicate f.gap SP ++ f.value)

def Field.header (f : Field) : HttpHeader := ⟨f.name, f.value⟩

structure Request where
  method : Method
  path : Bytes
  fields : List Field
  body : Bytes
  deriving DecidableEq, Repr

/-- The bytes of a request. -/
def Request.encode (r : Request) : Bytes :=
  r.method.text ++ SP :: (r.path ++ SP :: (ascii "HTTP/1.1" ++ CRLF ++
    (headText (r.fields.map Field.line) ++ r.body)))

def Request.headers (r : Request) : List HttpHeader := r.fields.map Field.header

/-- Without the control characters that end lines and strings. -/
def Plain (xs : Bytes) : Prop := CR ∉ xs ∧ LF ∉ xs ∧ NUL ∉ xs

instance (xs : Bytes) : Decidable (Plain xs) :=
  inferInstanceAs (Decidable (CR ∉ xs ∧ LF ∉ xs ∧ NUL ∉ xs))

structure Field.WellFormed (f : Field) : Prop where
  name : Plain f.name ∧ COLON ∉ f.name
  value : Plain f.value ∧ f.value.head? ≠ some SP

/-- A decimal numeral of `n`. -/
def IsNumeral (xs : Bytes) (n : Nat) : Prop :=
  xs ≠ [] ∧ (∀ b ∈ xs, isDigit b = true) ∧ digitsValue xs = n

/-- A known method, a path that ends at a space, at least one header line, and a
    Content-Length that gives the length of the body whenever there is one. -/
structure Request.WellFormed (r : Request) : Prop where
  path : SP ∉ r.path ∧ LF ∉ r.path ∧ NUL ∉ r.path
  fields : r.fields ≠ [] ∧ ∀ f ∈ r.fields, f.WellFormed
  length : ∀ f ∈ r.fields, strcaseeq f.name (ascii "Content-Length") = true →
    IsNumeral f.value r.body.length
  hasLength : r.body ≠ [] → ∃ f ∈ r.fields, f.name = ascii "Content-Length"
  size : r.body.length < SIZE

/-- The `http_t` of a request. -/
structure Same (r : Request) (msg : Http) : Prop where
  method : msg.method = some r.method
  path : msg.path = some r.path
  headers : ∀ k, httpGetHeader msg k = lastValue k r.headers
  body : msg.body = if r.body = [] then none else some r.body
  bodyLen : msg.bodyLen = r.body.length

/-! ## Lines -/

theorem Field.WellFormed.isLine {f : Field} (h : f.WellFormed) :
    IsLine f.line ∧ Plain f.line := by
  obtain ⟨⟨⟨hc, hl, hn⟩, -⟩, ⟨⟨hc', hl', hn'⟩, -⟩⟩ := h
  have plain : Plain f.line := by
    unfold Plain Field.line
    simp only [List.mem_append, List.mem_cons, List.mem_replicate, not_or, not_and]
    exact ⟨⟨hc, by decide, fun _ => by decide, hc'⟩, ⟨hl, by decide, fun _ => by decide, hl'⟩,
      ⟨hn, by decide, fun _ => by decide, hn'⟩⟩
  exact ⟨⟨by simp [Field.line], plain.2.1⟩, plain⟩

/-- A well-formed line reads back as its field. -/
theorem lineHeader_line {f : Field} (h : f.WellFormed) : lineHeader f.line = some f.header := by
  have hfind : find [COLON] f.line = some f.name.length := find_singleton_append _ _ _ h.name.2
  have hdrop : f.line.drop (f.name.length + 1) = List.replicate f.gap SP ++ f.value := by
    have : f.line = (f.name ++ [COLON]) ++ (List.replicate f.gap SP ++ f.value) := by
      simp [Field.line]
    rw [this]
    exact List.drop_left' (by simp)
  have hvalue : (List.replicate f.gap SP ++ f.value).dropWhile (· == SP) = f.value := by
    rw [List.dropWhile_append_of_pos fun b hb => by simp [List.eq_of_mem_replicate hb]]
    cases hv : f.value with
    | nil => rfl
    | cons b bs =>
      refine List.dropWhile_cons_of_neg ?_
      have := h.value.2
      rw [hv] at this
      simpa using this
  unfold lineHeader
  rw [hfind, Option.map_some, hdrop, hvalue]
  simp [Field.line, Field.header]

/-- The lines of the header section read back as the fields. -/
theorem lineHeaders_fields (fields : List Field) (hne : fields ≠ [])
    (h : ∀ f ∈ fields, f.WellFormed) :
    lineHeaders (blockLines (joined (fields.map Field.line))) = fields.map Field.header := by
  obtain ⟨init, last, rfl⟩ : ∃ init last, fields = init ++ [last] :=
    ⟨_, _, (List.dropLast_append_getLast hne).symm⟩
  have hall : ∀ l ∈ init.map Field.line ++ [last.line], IsLine l ∧ NUL ∉ l := by
    intro l hl
    have hl : l ∈ (init ++ [last]).map Field.line := by simpa using hl
    obtain ⟨f, hf, rfl⟩ := List.mem_map.mp hl
    have := (h f hf).isLine
    exact ⟨this.1, this.2.2.2⟩
  have hinit : ∀ fs : List Field, (∀ f ∈ fs, f.WellFormed) →
      lineHeaders ((fs.map Field.line).map (· ++ [CR])) = fs.map Field.header := by
    intro fs hfs
    unfold lineHeaders
    rw [List.map_map, List.filterMap_map, ← List.filterMap_eq_map]
    refine List.filterMap_congr fun f hf => ?_
    show lineHeader (trimCr (f.line ++ [CR])) = some f.header
    rw [trimCr_append_cr, lineHeader_line (hfs f hf)]
  have hlast := h last (by simp)
  have hone : lineHeaders [last.line] = [last.header] := by
    unfold lineHeaders
    simp [trimCr_of_not_mem hlast.isLine.2.1, lineHeader_line hlast]
  rw [List.map_append, List.map_cons, List.map_nil,
    blockLines_joined _ _ (fun l hl => (hall l hl).1) (fun l hl => (hall l hl).2)]
  unfold lineHeaders at hinit hone ⊢
  rw [List.filterMap_append, hinit init fun f hf => h f (by simp [hf]), hone, List.map_append]
  rfl

/-! ## The round trip -/

/-- The parser on the bytes of a well-formed request. -/
theorem httpRequestParse_encode {r : Request} (h : r.WellFormed) :
    httpRequestParse r.encode =
      attachBody { method := some r.method, path := some r.path,
                   headers := HttpHeaders.empty.setAll r.headers } (some r.body) := by
  have hlines : ∀ l ∈ r.fields.map Field.line, IsLine l := by
    intro l hl
    obtain ⟨f, hf, rfl⟩ := List.mem_map.mp hl
    exact (h.fields.2 f hf).isLine.1
  have hne : r.fields.map Field.line ≠ [] := by simpa using h.fields.1
  have hok := httpRequestLine_encode r.method r.path
    (headText (r.fields.map Field.line) ++ r.body) h.path.1 h.path.2.1 h.path.2.2
  have hver : (ascii "HTTP/1.1").length = 8 := by decide
  have hrest : r.encode.drop (r.method.text.length + r.path.length + 11 + 1) =
      headText (r.fields.map Field.line) ++ r.body := by
    have : r.encode = (r.method.text ++ SP :: (r.path ++ SP :: (ascii "HTTP/1.1" ++ CRLF))) ++
        (headText (r.fields.map Field.line) ++ r.body) := by simp [Request.encode]
    rw [this]
    refine List.drop_left' ?_
    simp [hver]
    omega
  unfold Request.encode at hrest ⊢
  rw [httpRequestParse_ok hok, hrest, headSplit_headText _ hlines hne]
  obtain ⟨hs, hparse⟩ := parseLines_eq { method := some r.method, path := some r.path }
    (blockLines (joined (r.fields.map Field.line)))
  have hheaders := parseLines_headers { method := some r.method, path := some r.path }
    (blockLines (joined (r.fields.map Field.line)))
  rw [lineHeaders_fields _ h.fields.1 h.fields.2, hparse] at hheaders
  rw [hparse]
  have hheaders : hs = HttpHeaders.empty.setAll r.headers := hheaders
  rw [hheaders]

/-- The length the parser reads is that of the body, if the table has it. -/
theorem number_of_lastValue {r : Request} (h : r.WellFormed) :
    (lastValue (ascii "Content-Length") r.headers).elim 0 strtoul = r.body.length := by
  cases hv : lastValue (ascii "Content-Length") r.headers with
  | none =>
    show 0 = r.body.length
    by_contra hne
    obtain ⟨f, hf, hname⟩ := h.hasLength fun hb => hne (by rw [hb]; rfl)
    have := lastValue_eq_none.mp hv f.header (List.mem_map.mpr ⟨f, hf, rfl⟩)
    have hself : strcaseeq f.header.name (ascii "Content-Length") = true := by
      show strcaseeq f.name _ = true
      rw [hname, strcaseeq_self]
    rw [hself] at this
    cases this
  | some v =>
    unfold lastValue at hv
    obtain ⟨g, hg, rfl⟩ := Option.map_eq_some_iff.mp hv
    obtain ⟨f, hf, rfl⟩ := List.mem_map.mp (List.mem_reverse.mp (List.mem_of_find?_eq_some hg))
    obtain ⟨hne, hdigits, hvalue⟩ := h.length f hf (by simpa [Field.header] using List.find?_some hg)
    show strtoul f.value = _
    have hsize := h.size
    rw [strtoul_of_digits hne hdigits (by omega), hvalue]

/-- A body whose length is the one declared is attached whole. -/
theorem attachBody_exact {msg : Http} {bytes : Bytes} (hbody : msg.body = none)
    (hzero : msg.bodyLen = 0) (h : parsedContentLength msg = bytes.length) :
    attachBody msg (some bytes) =
      { msg with body := if bytes = [] then none else some bytes, bodyLen := bytes.length } := by
  unfold attachBody
  dsimp only
  rw [h, Nat.min_self, List.take_length]
  cases bytes with
  | nil =>
    have hmsg : msg = { msg with body := none, bodyLen := 0 } := by rw [← hbody, ← hzero]
    rw [List.length_nil, if_neg (Nat.lt_irrefl 0), if_pos rfl]
    exact hmsg
  | cons b bytes => rfl

/-- A well-formed request is parsed back exactly when its header names fit the table. -/
theorem same_iff {r : Request} (h : r.WellFormed) :
    Same r (httpRequestParse r.encode) ↔ (lowerNames r.headers).card ≤ httpMaxHeaders := by
  rw [httpRequestParse_encode h, ← forall_governingValue_iff]
  set msg : Http := { method := some r.method, path := some r.path,
                      headers := HttpHeaders.empty.setAll r.headers } with hmsg
  have hget : ∀ k, httpGetHeader (attachBody msg (some r.body)) k = governingValue k r.headers := by
    intro k
    unfold httpGetHeader
    rw [attachBody_headers]
    exact HttpHeaders.get_setAll k r.headers
  constructor
  · exact fun hsame k => (hget k).symm.trans (hsame.headers k)
  · intro hall
    have hlen : parsedContentLength msg = r.body.length := by
      rw [← number_of_lastValue h, ← hall]
      unfold parsedContentLength httpGetHeader
      rw [hmsg]
      simp only [HttpHeaders.get_setAll]
      cases governingValue (ascii "Content-Length") r.headers <;> rfl
    refine ⟨?_, ?_, fun k => (hget k).trans (hall k), ?_, ?_⟩
    all_goals rw [attachBody_exact rfl rfl hlen]

end Foxtails.Wire
