/-
  Where a message's headers and body come from.

  For a buffer whose lines end in CRLF up to the first empty line, `FromSection` says that
  the headers come from the lines between the start line and the empty line, and that the
  body starts right after the empty line.

  * `boundary_iff`: this holds of both parsers exactly when there is a header line, or no
    colon in what the parser takes for the header block when there is none.
  * `boundary_lost`: without a header line the empty line is missed, and bytes after it
    become headers.

  The reason is one byte range: the search for the blank line starts after the LF of the
  start line. The CRLFCRLF made of the start line's end and the empty line is not in it.
-/
import Foxtails.Wire.HeadText

namespace Foxtails.Wire

open Foxtails.Lib.Scan Foxtails.Lib.Libc

/-- The name of `h` is the text before the colon of one of the lines; its value follows the
    colon, and spaces, of one of the lines whose name is the same ignoring case. -/
def HeaderFrom (lines : List Bytes) (h : HttpHeader) : Prop :=
  (∃ l ∈ lines, h.name ++ [COLON] <+: l) ∧
  ∃ l ∈ lines, ∃ (name : Bytes) (k : Nat), strcaseeq h.name name ∧
    name ++ COLON :: (List.replicate k SP ++ h.value) <+: l

/-- Headers from the lines only, and a body that starts where `tail` does. -/
def FromSection (lines : List Bytes) (tail : Bytes) (msg : Http) : Prop :=
  (∀ h ∈ msg.headers.items, HeaderFrom lines h) ∧
  ∀ body, msg.body = some body → body <+: tail

/-- What the parser takes for the header block when the empty line comes right after the
    start line: everything from the empty line to the next blank line, CRLFCRLF or LFLF, cut
    at a NUL. -/
def strayBlock (tail : Bytes) : Bytes := upto NUL (headSplit (CRLF ++ tail)).1

/-! ## Headers come from the lines -/

theorem lineHeader_eq_some {line : Bytes} {h : HttpHeader} (hh : lineHeader line = some h) :
    ∃ k, line = h.name ++ COLON :: (List.replicate k SP ++ h.value) := by
  obtain ⟨colon, hc, rfl⟩ := Option.map_eq_some_iff.mp hh
  obtain ⟨-, hline, -⟩ := find_singleton_eq_some hc
  refine ⟨((line.drop (colon + 1)).takeWhile (· == SP)).length, ?_⟩
  have hsp : List.replicate ((line.drop (colon + 1)).takeWhile (· == SP)).length SP =
      (line.drop (colon + 1)).takeWhile (· == SP) := by
    symm
    rw [List.eq_replicate_iff]
    exact ⟨rfl, fun b hb => by simpa using List.mem_takeWhile_imp hb⟩
  dsimp only
  rw [hsp, List.takeWhile_append_dropWhile]
  exact hline

theorem httpParseHeaderLine_from {lines : List Bytes} {msg : Http} {t : Bytes}
    (ht : ∃ l ∈ lines, trimCr t <+: l) (h : ∀ x ∈ msg.headers.items, HeaderFrom lines x) :
    ∀ x ∈ (httpParseHeaderLine msg t).headers.items, HeaderFrom lines x := by
  intro x hx
  unfold httpParseHeaderLine at hx
  split at hx
  · exact h x hx
  rename_i g hg
  obtain ⟨k, hline⟩ := lineHeader_eq_some hg
  obtain ⟨l, hl, hpre⟩ := ht
  rw [hline] at hpre
  rcases HttpHeaders.mem_set hx with hold | ⟨hv, hcase, hname⟩
  · exact h x hold
  · refine ⟨?_, l, hl, g.name, k, hcase, hv ▸ hpre⟩
    rcases hname with hname | ⟨x', hx', hname⟩
    · refine ⟨l, hl, List.IsPrefix.trans ?_ hpre⟩
      rw [hname, List.prefix_append_right_inj]
      simp
    · exact hname ▸ (h x' hx').1

theorem parseLines_from {lines : List Bytes} (ts : List Bytes)
    (hts : ∀ t ∈ ts, ∃ l ∈ lines, trimCr t <+: l) {msg : Http}
    (h : ∀ x ∈ msg.headers.items, HeaderFrom lines x) :
    ∀ x ∈ (parseLines msg ts).headers.items, HeaderFrom lines x := by
  unfold parseLines
  induction ts generalizing msg with
  | nil => exact h
  | cons t ts ih =>
    exact ih (fun t' ht' => hts t' (List.mem_cons_of_mem _ ht'))
      (httpParseHeaderLine_from (hts t List.mem_cons_self) h)

/-! ## A colon makes a header -/

theorem set_items_ne_nil (hs : HttpHeaders) (name value : Bytes) :
    (hs.set name value).1.items ≠ [] := by
  unfold HttpHeaders.set
  split_ifs with hany hlt
  · rw [← List.length_pos_iff, overwrite_length]
    obtain ⟨h, hh, -⟩ := List.any_eq_true.mp hany
    exact List.length_pos_of_mem hh
  · simp
  · exact fun hnil : hs.items = [] => hlt (by rw [hnil]; decide)

theorem lineHeader_isSome {line : Bytes} (h : COLON ∈ line) : (lineHeader line).isSome := by
  unfold lineHeader
  rw [Option.isSome_map, Option.isSome_iff_ne_none]
  exact fun hn => find_singleton_eq_none.mp hn h

theorem colon_mem_trimCr {t : Bytes} (h : COLON ∈ t) : COLON ∈ trimCr t := by
  unfold trimCr
  split_ifs with hcr
  · obtain ⟨s, rfl⟩ := List.getLast?_eq_some_iff.mp hcr
    rw [List.dropLast_concat]
    simpa [show COLON ≠ CR by decide] using h
  · exact h

theorem httpParseHeaderLine_ne_nil {msg : Http} {t : Bytes}
    (h : msg.headers.items ≠ [] ∨ COLON ∈ t) :
    (httpParseHeaderLine msg t).headers.items ≠ [] := by
  unfold httpParseHeaderLine
  split
  · rename_i hnone
    rcases h with h | h
    · exact h
    · have := lineHeader_isSome (colon_mem_trimCr h)
      rw [hnone] at this
      simp at this
  · exact set_items_ne_nil _ _ _

theorem parseLines_ne_nil (ts : List Bytes) {msg : Http}
    (h : msg.headers.items ≠ [] ∨ ∃ t ∈ ts, COLON ∈ t) :
    (parseLines msg ts).headers.items ≠ [] := by
  unfold parseLines
  induction ts generalizing msg with
  | nil => simpa using h
  | cons t ts ih =>
    refine ih ?_
    rcases h with h | ⟨u, hu, hc⟩
    · exact .inl (httpParseHeaderLine_ne_nil (.inl h))
    · rcases List.mem_cons.mp hu with rfl | hu
      · exact .inl (httpParseHeaderLine_ne_nil (.inr hc))
      · exact .inr ⟨u, hu, hc⟩

theorem parseLines_of_no_colon (ts : List Bytes) (h : ∀ t ∈ ts, COLON ∉ t) (msg : Http) :
    parseLines msg ts = msg := by
  unfold parseLines
  induction ts with
  | nil => rfl
  | cons t ts ih =>
    have hnone : lineHeader (trimCr t) = none := by
      unfold lineHeader
      rw [Option.map_eq_none_iff, find_singleton_eq_none]
      exact fun hc => h t List.mem_cons_self ((trimCr_isPrefix t).subset hc)
    have hline : httpParseHeaderLine msg t = msg := by
      unfold httpParseHeaderLine
      rw [hnone]
    rw [List.foldl_cons, hline]
    exact ih fun u hu => h u (List.mem_cons_of_mem _ hu)

theorem attachBody_body_isPrefix (msg : Http) (bytes : Option Bytes) (hbody : msg.body = none) :
    ∀ body, (attachBody msg bytes).body = some body → ∀ bs, bytes = some bs → body <+: bs := by
  intro body hb bs hbs
  subst hbs
  simp only [attachBody] at hb
  split_ifs at hb
  · obtain rfl := Option.some.inj hb
    exact List.take_prefix _ _
  · rw [hbody] at hb
    cases hb

/-! ## The boundary -/

/-- The shared part, on the bytes after a start line. -/
theorem attachBody_from_iff {msg : Http} (hfresh : Fresh msg) (lines : List Bytes)
    (hlines : ∀ l ∈ lines, IsLine l) (tail : Bytes) :
    FromSection lines tail
        (attachBody (parseLines msg (blockLines (headSplit (headText lines ++ tail)).1))
          (headSplit (headText lines ++ tail)).2) ↔
      lines ≠ [] ∨ COLON ∉ strayBlock tail := by
  by_cases hne : lines = []
  · -- no header line: the block is what follows the empty line
    subst hne
    simp only [headText_nil, ne_eq, not_true_eq_false, false_or]
    have hcolon : COLON ∈ strayBlock tail ↔
        ∃ t ∈ blockLines (headSplit (CRLF ++ tail)).1, COLON ∈ t :=
      mem_iff_mem_tokens (by decide) _
    constructor
    · rintro ⟨hheaders, -⟩ hc
      rw [attachBody_headers] at hheaders
      obtain ⟨h, hh⟩ := List.exists_mem_of_ne_nil _
        (parseLines_ne_nil _ (.inr (hcolon.mp hc) : msg.headers.items ≠ [] ∨ _))
      obtain ⟨⟨l, hl, -⟩, -⟩ := hheaders h hh
      simp at hl
    · intro hc
      have hno : ∀ t ∈ blockLines (headSplit (CRLF ++ tail)).1, COLON ∉ t :=
        fun t ht hct => hc (hcolon.mpr ⟨t, ht, hct⟩)
      rw [parseLines_of_no_colon _ hno]
      have hlen : parsedContentLength msg = 0 := by
        simp [parsedContentLength, httpGetHeader, hfresh.headers, HttpHeaders.get,
          HttpHeaders.empty]
      have hsame : ∀ bytes, attachBody msg bytes = msg := by
        intro bytes
        unfold attachBody
        split
        · rfl
        · simp [hlen]
      rw [hsame]
      refine ⟨fun h hh => ?_, fun body hb => ?_⟩
      · rw [hfresh.headers] at hh
        simp [HttpHeaders.empty] at hh
      · rw [hfresh.body] at hb
        cases hb
  · simp only [ne_eq, hne, not_false_eq_true, true_or, iff_true]
    rw [headSplit_headText lines hlines hne]
    refine ⟨?_, fun body hb => ?_⟩
    · rw [attachBody_headers]
      refine parseLines_from _ (fun t ht => prefix_of_mem_blockLines lines hlines ht) ?_
      rw [hfresh.headers]
      simp [HttpHeaders.empty]
    · exact attachBody_body_isPrefix _ _ ((parseLines_body _ _).trans hfresh.body) body hb _ rfl

theorem drop_startLine {start rest : Bytes} (hstart : LF ∉ start) {lineEnd : Nat}
    (h : find [LF] (start ++ CRLF ++ rest) = some lineEnd) :
    (start ++ CRLF ++ rest).drop (lineEnd + 1) = rest := by
  have hlf : LF ∉ start ++ [CR] := by simp [hstart]; decide
  have heq : start ++ CRLF ++ rest = (start ++ [CR]) ++ LF :: rest := by simp
  rw [heq, find_singleton_append LF _ _ hlf] at h
  obtain rfl := Option.some.inj h
  exact List.drop_left' (by simp)

/-- **The header section is found exactly when it is not empty**, up to inputs whose bytes
    after the empty line hold no header either: for every accepted buffer of CRLF lines, the
    headers come from the header lines and the body from what follows the empty line if and
    only if there is a header line, or no colon in the block the parser reads instead. -/
theorem boundary_iff (start : Bytes) (lines : List Bytes) (tail : Bytes) (hstart : LF ∉ start)
    (hlines : ∀ l ∈ lines, IsLine l) :
    (RequestAccepted (start ++ CRLF ++ (headText lines ++ tail)) →
      (FromSection lines tail (httpRequestParse (start ++ CRLF ++ (headText lines ++ tail))) ↔
        lines ≠ [] ∨ COLON ∉ strayBlock tail)) ∧
    (ResponseAccepted (start ++ CRLF ++ (headText lines ++ tail)) →
      (FromSection lines tail (httpResponseParse (start ++ CRLF ++ (headText lines ++ tail))) ↔
        lines ≠ [] ∨ COLON ∉ strayBlock tail)) := by
  constructor
  · rintro ⟨request, lineEnd, h⟩
    obtain ⟨hlf, hfresh, -⟩ := httpRequestLine_ok h
    rw [httpRequestParse_ok h, drop_startLine hstart hlf]
    exact attachBody_from_iff hfresh lines hlines tail
  · rintro ⟨response, lineEnd, h⟩
    obtain ⟨hlf, hfresh⟩ := httpStatusLine_ok h
    rw [httpResponseParse_ok h, drop_startLine hstart hlf]
    exact attachBody_from_iff hfresh lines hlines tail

/-- A request without header lines. -/
def bareRequest (tail : Bytes) : Bytes :=
  ascii "GET / HTTP/1.1" ++ CRLF ++ (headText [] ++ tail)

theorem bareRequest_accepted (tail : Bytes) : RequestAccepted (bareRequest tail) := by
  have h := httpRequestLine_encode .get (ascii "/") (CRLF ++ tail) (by decide) (by decide)
    (by decide)
  exact ⟨_, _, h⟩

/-- Both sides of `boundary_iff` on a request with one header line. -/
theorem boundary_iff_one_line :
    FromSection [ascii "A: b"] (ascii "C: d")
        (httpRequestParse (ascii "GET / HTTP/1.1" ++ CRLF ++
          (headText [ascii "A: b"] ++ ascii "C: d"))) ↔
      [ascii "A: b"] ≠ [] ∨ COLON ∉ strayBlock (ascii "C: d") :=
  (boundary_iff (ascii "GET / HTTP/1.1") [ascii "A: b"] (ascii "C: d") (by decide)
    (by unfold IsLine; decide)).1
    ⟨_, _, httpRequestLine_encode .get (ascii "/") (headText [ascii "A: b"] ++ ascii "C: d")
      (by decide) (by decide) (by decide)⟩

/-- Without a header line, a line of what follows the empty line becomes a header. -/
theorem boundary_lost :
    RequestAccepted (bareRequest (ascii "A: b")) ∧
      ¬ FromSection [] (ascii "A: b") (httpRequestParse (bareRequest (ascii "A: b"))) := by
  refine ⟨bareRequest_accepted _, fun h => ?_⟩
  have hmem : (⟨ascii "A", ascii "b"⟩ : HttpHeader) ∈
      (httpRequestParse (bareRequest (ascii "A: b"))).headers.items := by decide
  obtain ⟨⟨l, hl, -⟩, -⟩ := h.1 _ hmem
  simp at hl

end Foxtails.Wire
