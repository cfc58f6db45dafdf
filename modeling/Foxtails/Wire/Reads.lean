/-
  Which bytes the parsers of `utils/http.c` read.

  `Printable buffer word`: the log line about a word of the start line can be printed without
  leaving the buffer. Nothing else the parsers do depends on the buffer's bytes being where
  they are.

  * `bodyCut_of_fresh`: the body is the first `Content-Length` bytes behind the header block, or
    as many as there are.
  * `parsers_read_inside_iff`: both parsers stay inside, and cut the body so, exactly when the
    word they complain about is printable.
  * `longMethod_read_outside`: a first word of 2 GiB is not.
-/
import Foxtails.Wire.Checked

namespace Foxtails.Wire

open Foxtails.Lib Foxtails.Lib.Scan Foxtails.Lib.Libc

/-! ## The word that is logged -/

/-- The log line for a word of the start line prints nothing but bytes of the buffer: the
    word's length is not negative as an `int`, or a NUL follows. -/
def Printable (buffer : Bytes) (word : Option (Nat × Nat)) : Prop :=
  ∀ start len, word = some (start, len) → 0 ≤ Object.castInt len ∨ NUL ∈ buffer.drop start

theorem logRefused_isSome_iff {muted : Bool} {buffer : Bytes} {word : Option (Nat × Nat)}
    (h : ∀ start len, word = some (start, len) → start + len ≤ buffer.length) :
    (logRefused muted buffer word).isSome = true ↔ muted = true ∨ Printable buffer word := by
  cases word with
  | none =>
    refine iff_of_true rfl (.inr ?_)
    intro start len hword
    cases hword
  | some word =>
    obtain ⟨start, len⟩ := word
    have hin : len ≤ (buffer.drop start).length := by
      have := h start len rfl
      rw [List.length_drop]
      omega
    have hprint : Printable buffer (some (start, len)) ↔
        0 ≤ Object.castInt len ∨ NUL ∈ buffer.drop start := by
      unfold Printable
      constructor
      · intro hall
        exact hall start len rfl
      · intro hone start' len' heq
        cases heq
        exact hone
    rw [hprint, ← Object.printStr_isSome_iff hin]
    unfold logRefused logWord
    cases muted <;> simp

theorem startLine_length {buffer line : Bytes} (h : startLine buffer = some line) :
    line.length ≤ buffer.length := by
  unfold startLine at h
  obtain ⟨lineEnd, -, rfl⟩ := Option.map_eq_some_iff.mp h
  unfold trimCr
  split_ifs
  · rw [List.length_dropLast, List.length_take]
    omega
  · rw [List.length_take]
    omega

theorem refusedWord_within {line : Bytes} {start len : Nat}
    (h : refusedWord line = some (start, len)) : start + len ≤ line.length := by
  unfold refusedWord at h
  obtain ⟨methodEnd, hsp, h⟩ := Option.bind_eq_some_iff.mp h
  have hlt := (find_singleton_eq_some hsp).2.2
  split_ifs at h
  · cases h
    omega
  · obtain ⟨pathLen, hsp₂, h⟩ := Option.bind_eq_some_iff.mp h
    have hlt₂ := (find_singleton_eq_some hsp₂).2.2
    rw [List.length_drop] at hlt₂
    dsimp only at h
    split_ifs at h
    cases h
    omega

theorem refusedVersion_within {line : Bytes} {start len : Nat}
    (h : refusedVersion line = some (start, len)) : start + len ≤ line.length := by
  unfold refusedVersion at h
  obtain ⟨versionEnd, hsp, h⟩ := Option.bind_eq_some_iff.mp h
  have hlt := (find_singleton_eq_some hsp).2.2
  split_ifs at h
  cases h
  omega

/-- A word of the start line is a part of the buffer. -/
theorem word_within {buffer : Bytes} {word : Bytes → Option (Nat × Nat)}
    (hword : ∀ line start len, word line = some (start, len) → start + len ≤ line.length) :
    ∀ start len, (startLine buffer).bind word = some (start, len) →
      start + len ≤ buffer.length := by
  intro start len h
  obtain ⟨line, hline, h⟩ := Option.bind_eq_some_iff.mp h
  exact (hword line start len h).trans (startLine_length hline)

/-- The body is the first `Content-Length` bytes behind the header block, or as many as there
    are. -/
def BodyCut (msg : Http) (rest : Bytes) : Prop :=
  match (headSplit rest).2 with
  | none => msg.body = none ∧ msg.bodyLen = 0
  | some behind =>
    msg.bodyLen = min (parsedContentLength msg) behind.length ∧
      msg.body = if msg.bodyLen = 0 then none else some (behind.take msg.bodyLen)

theorem parseLines_bodyLen (msg : Http) (lines : List Bytes) :
    (parseLines msg lines).bodyLen = msg.bodyLen := by
  obtain ⟨hs, h⟩ := parseLines_eq msg lines
  rw [h]

/-- What the shared part makes of a start line's message. -/
theorem bodyCut_of_fresh {msg : Http} (h : Fresh msg) (rest : Bytes) :
    BodyCut (attachBody (parseLines msg (blockLines (headSplit rest).1)) (headSplit rest).2)
      rest := by
  generalize hm : parseLines msg (blockLines (headSplit rest).1) = m
  have hbody : m.body = none := by rw [← hm, parseLines_body, h.body]
  have hlen : m.bodyLen = 0 := by rw [← hm, parseLines_bodyLen, h.bodyLen]
  unfold BodyCut
  cases (headSplit rest).2 with
  | none => exact ⟨hbody, hlen⟩
  | some behind =>
    have hsame : parsedContentLength (attachBody m (some behind)) = parsedContentLength m := by
      unfold parsedContentLength httpGetHeader
      rw [attachBody_headers]
    dsimp only
    rw [hsame]
    by_cases hpos : 0 < min (parsedContentLength m) behind.length
    · have hattached : attachBody m (some behind) =
          { m with body := some (behind.take (parsedContentLength m))
                   bodyLen := min (parsedContentLength m) behind.length } := if_pos hpos
      rw [hattached]
      refine ⟨rfl, ?_⟩
      dsimp only
      rw [if_neg (by omega), ← List.take_eq_take_min]
    · have hattached : attachBody m (some behind) = m := if_neg hpos
      rw [hattached, hlen, hbody]
      exact ⟨by omega, rfl⟩

/-- **The parsers read inside the buffer and their copies**, form no negative length, stay
    inside `code_buf`, and cut the body as announced, exactly when the word a log line complains
    about can be printed: the log level mutes it, its length is not negative as an `int`, or a
    NUL follows it. -/
theorem parsers_read_inside_iff (muted : Bool) (buffer : Bytes) :
    (checkedRequestParse muted buffer = some (httpRequestParse buffer) ∧
        checkedResponseParse muted buffer = some (httpResponseParse buffer) ∧
        (∀ request lineEnd, httpRequestLine buffer = .ok (request, lineEnd) →
          BodyCut (httpRequestParse buffer) (buffer.drop (lineEnd + 1))) ∧
        ∀ response lineEnd, httpStatusLine buffer = .ok (response, lineEnd) →
          BodyCut (httpResponseParse buffer) (buffer.drop (lineEnd + 1))) ↔
      muted = true ∨ (Printable buffer ((startLine buffer).bind refusedWord) ∧
        Printable buffer ((startLine buffer).bind refusedVersion)) := by
  have hrequest : checkedRequestParse muted buffer = some (httpRequestParse buffer) ↔
      muted = true ∨ Printable buffer ((startLine buffer).bind refusedWord) := by
    rw [checkedRequestParse_eq, ← logRefused_isSome_iff (word_within fun _ _ _ => refusedWord_within)]
    cases logRefused muted buffer ((startLine buffer).bind refusedWord) <;> simp
  have hresponse : checkedResponseParse muted buffer = some (httpResponseParse buffer) ↔
      muted = true ∨ Printable buffer ((startLine buffer).bind refusedVersion) := by
    rw [checkedResponseParse_eq,
      ← logRefused_isSome_iff (word_within fun _ _ _ => refusedVersion_within)]
    cases logRefused muted buffer ((startLine buffer).bind refusedVersion) <;> simp
  rw [or_and_left, ← hrequest, ← hresponse]
  constructor
  · intro h
    exact ⟨h.1, h.2.1⟩
  · intro h
    refine ⟨h.1, h.2, ?_, ?_⟩
    · intro request lineEnd hok
      rw [httpRequestParse_ok hok]
      exact bodyCut_of_fresh (httpRequestLine_ok hok).2.1 _
    · intro response lineEnd hok
      rw [httpResponseParse_ok hok]
      exact bodyCut_of_fresh (httpStatusLine_ok hok).2 _

/-! ## A method of 2 GiB -/

/-- A first line whose only word has `n` bytes. -/
def longMethod (n : Nat) : Bytes := List.replicate n 65 ++ [SP] ++ [LF]

theorem httpMethodFromStr_long {str : Bytes} (h : 7 < str.length) : httpMethodFromStr str = none := by
  cases hm : httpMethodFromStr str with
  | none => rfl
  | some m =>
    have hshort : ∀ m : Method, m.text.length ≤ 7 := by
      intro m
      cases m <;> decide
    rw [httpMethodFromStr_eq_some hm] at h
    exact absurd (hshort m) (by omega)

theorem refusedWord_longMethod {n : Nat} (h : 7 < n) :
    (startLine (longMethod n)).bind refusedWord = some (0, n) := by
  have hlf : LF ∉ List.replicate n (65 : Byte) ++ [SP] := by
    rw [List.mem_append, List.mem_replicate, List.mem_singleton]
    rintro (⟨-, h⟩ | h) <;> exact absurd h (by decide)
  have hsp : SP ∉ List.replicate n (65 : Byte) := by
    rw [List.mem_replicate]
    rintro ⟨-, h⟩
    exact absurd h (by decide)
  have hline : startLine (longMethod n) = some (List.replicate n 65 ++ [SP]) := by
    unfold startLine longMethod
    rw [find_singleton_append LF _ [] hlf, Option.map_some, List.take_left, trimCr,
      List.getLast?_concat, if_neg (by decide)]
  rw [hline, Option.bind_some, refusedWord, find_singleton_append SP _ [] hsp, Option.bind_some,
    List.length_replicate, List.take_left' (List.length_replicate ..), if_pos]
  apply httpMethodFromStr_long
  rw [List.length_replicate]
  exact h

/-- The log line about a method of 2 GiB, read as a string without a length, ends behind the
    buffer. -/
theorem longMethod_read_outside :
    checkedRequestParse false (longMethod (2 ^ 31)) = none ∧
      ¬ ∀ buffer : Bytes, buffer ≠ [] →
        checkedRequestParse false buffer = some (httpRequestParse buffer) := by
  have hneg : Object.castInt (2 ^ 31) < 0 := by decide
  have hnul : ∀ n, NUL ∉ longMethod n := by
    intro n
    unfold longMethod
    rw [List.mem_append, List.mem_append, List.mem_replicate, List.mem_singleton,
      List.mem_singleton]
    rintro ((⟨-, h⟩ | h) | h) <;> exact absurd h (by decide)
  have hnone : ∀ n, 7 < n → Object.castInt n < 0 →
      checkedRequestParse false (longMethod n) = none := by
    intro n hn hneg
    rw [checkedRequestParse_eq, refusedWord_longMethod hn, logRefused, logWord]
    rw [if_neg Bool.false_ne_true, Object.printStr, if_neg (by omega), List.drop_zero,
      if_neg (hnul n)]
    rfl
  have hout := hnone (2 ^ 31) (by decide) hneg
  refine ⟨hout, fun hall => ?_⟩
  have hread := hall (longMethod (2 ^ 31)) (by
    unfold longMethod
    exact List.append_ne_nil_of_right_ne_nil _ (by decide))
  rw [hout] at hread
  cases hread

end Foxtails.Wire
