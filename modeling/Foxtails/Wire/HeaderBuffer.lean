/-
  The bound of the encoders' local buffer.

  `snprintf` returns the length of the whole text, so `header_len` counts bytes that were
  not stored. `HeaderSafe` says that no call starts behind the buffer, is told a size that
  wrapped or stores outside, and that no byte behind the buffer is read afterwards.

  * `headerSafe_iff_fits`: a list of texts is printed safely exactly when the lengths, added
    up, stay within the buffer after every text.
  * `header_safe_iff`: the condition for both encoders, in the lengths of the message's parts.
  * `long_path_unsafe`: a client's request line is long enough to break it.
-/
import Foxtails.Wire.Parse
import Foxtails.Wire.Send

namespace Foxtails.Wire

open Foxtails.Lib.Libc

/-! ## Safety -/

/-- The call starts inside the buffer, its size argument is the space left, and what it
    stores is inside. -/
structure CallSafe (c : SnprintfCall) : Prop where
  offset : c.offset ≤ headerSize
  size : c.size = headerSize - c.offset
  stores : c.offset + (snprintfStores c.size c.text).length ≤ headerSize

/-- Every call is safe, and `header_len` bytes can be read in the end. -/
def HeaderSafe (s : HeaderState) (texts : List Bytes) : Prop :=
  (∀ c ∈ snprintfCalls s texts, CallSafe c) ∧ (fillHeader s texts).headerLen ≤ headerSize

/-- With `used` bytes counted, texts of the given lengths never count more than the buffer
    has. A text too long for an `int` takes one byte off the count. -/
def FitsBuffer (used : Nat) : List Nat → Prop
  | [] => True
  | len :: lens =>
    if len ≤ INT_MAX then used + len ≤ headerSize ∧ FitsBuffer (used + len) lens
    else 0 < used ∧ FitsBuffer (used - 1) lens

/-- Without texts too long for an `int`, only the sum counts. -/
theorem fitsBuffer_iff_sum (lens : List Nat) {used : Nat} (hused : used ≤ headerSize)
    (h : ∀ len ∈ lens, len ≤ INT_MAX) : FitsBuffer used lens ↔ used + lens.sum ≤ headerSize := by
  induction lens generalizing used with
  | nil => simpa [FitsBuffer] using hused
  | cons len lens ih =>
    rw [FitsBuffer, if_pos (h len List.mem_cons_self), List.sum_cons]
    constructor
    · rintro ⟨hle, hrest⟩
      have := (ih hle fun l hl => h l (List.mem_cons_of_mem _ hl)).mp hrest
      omega
    · intro hsum
      exact ⟨by omega, (ih (by omega) fun l hl => h l (List.mem_cons_of_mem _ hl)).mpr (by omega)⟩

theorem snprintfCall_safe {s : HeaderState} (h : s.headerLen ≤ headerSize) (text : Bytes) :
    CallSafe (snprintfCall s text) := by
  have hsize : (snprintfCall s text).size = headerSize - s.headerLen := by
    have h1 : headerSize = 4096 := rfl
    have h2 : SIZE = 18446744073709551616 := rfl
    show (((headerSize : Int) - s.headerLen) % SIZE).toNat = _
    rw [Int.emod_eq_of_lt (by omega) (by omega)]
    omega
  refine ⟨h, hsize, ?_⟩
  rw [hsize]
  show s.headerLen + (snprintfStores (headerSize - s.headerLen) text).length ≤ headerSize
  unfold snprintfStores
  split_ifs
  · simpa using h
  · simp only [List.length_append, List.length_take, List.length_singleton]
    omega

/-- Once `header_len` is past the buffer, the next call or the final read is unsafe. -/
theorem not_headerSafe {s : HeaderState} (h : headerSize < s.headerLen) (texts : List Bytes) :
    ¬ HeaderSafe s texts := by
  rintro ⟨hcalls, hlen⟩
  cases texts with
  | nil =>
    have hlen : s.headerLen ≤ headerSize := hlen
    omega
  | cons text texts =>
    have hoff := (hcalls _ List.mem_cons_self).offset
    have hoff : s.headerLen ≤ headerSize := hoff
    omega

theorem headerSafe_cons {s : HeaderState} (h : s.headerLen ≤ headerSize) (text : Bytes)
    (texts : List Bytes) :
    HeaderSafe s (text :: texts) ↔ HeaderSafe (printText s text) texts := by
  unfold HeaderSafe
  rw [snprintfCalls, List.forall_mem_cons]
  exact ⟨fun hs => ⟨hs.1.2, hs.2⟩, fun hs => ⟨⟨snprintfCall_safe h text, hs.1⟩, hs.2⟩⟩

/-- Texts are printed safely exactly when their lengths fit. -/
theorem headerSafe_iff_fits (texts : List Bytes) {s : HeaderState}
    (h : s.headerLen ≤ headerSize) :
    HeaderSafe s texts ↔ FitsBuffer s.headerLen (texts.map List.length) := by
  have h1 : headerSize = 4096 := rfl
  have h2 : SIZE = 18446744073709551616 := rfl
  have h3 : INT_MAX = 2147483647 := rfl
  induction texts generalizing s with
  | nil => exact ⟨fun _ => trivial, fun _ => ⟨fun c hc => by simp [snprintfCalls] at hc, h⟩⟩
  | cons text texts ih =>
    rw [headerSafe_cons h, List.map_cons, FitsBuffer]
    have hnext : (printText s text).headerLen =
        (((s.headerLen : Int) + snprintfReturn text.length) % SIZE).toNat := rfl
    unfold snprintfReturn at hnext
    split_ifs at hnext ⊢ with hint
    · -- the usual case: `header_len` grows by the length
      rw [Int.emod_eq_of_lt (by omega) (by omega)] at hnext
      have hnext : (printText s text).headerLen = s.headerLen + text.length := by omega
      by_cases hle : s.headerLen + text.length ≤ headerSize
      · have hrest := ih (s := printText s text) (by omega)
        rw [hnext] at hrest
        exact ⟨fun hs => ⟨hle, hrest.mp hs⟩, fun hf => hrest.mpr hf.2⟩
      · exact ⟨fun hs => absurd hs (not_headerSafe (by omega) texts), fun hf => absurd hf.1 hle⟩
    · -- `snprintf` returns -1
      by_cases hpos : 0 < s.headerLen
      · rw [Int.emod_eq_of_lt (by omega) (by omega)] at hnext
        have hnext : (printText s text).headerLen = s.headerLen - 1 := by omega
        have hrest := ih (s := printText s text) (by omega)
        rw [hnext] at hrest
        exact ⟨fun hs => ⟨hpos, hrest.mp hs⟩, fun hf => hrest.mpr hf.2⟩
      · refine ⟨fun hs => absurd hs (not_headerSafe ?_ texts), fun hf => absurd hf.1 hpos⟩
        rw [h2] at hnext
        omega

/-! ## Both encoders -/

/-- The length of a header line. -/
def lineLen (h : HttpHeader) : Nat := h.name.length + h.value.length + 4

/-- Lengths of the start line with the Content-Length line, of every header line but a stored
    Content-Length, and of the empty line. -/
def requestLens (request : Http) : List Nat :=
  [(fmtStr (httpMethodToStr request.method)).length + (fmtStr request.path).length +
    (fmtNat request.bodyLen).length + 30] ++
  (request.headers.items.filter fun h => !strcaseeq h.name (ascii "Content-Length")).map lineLen ++
  [2]

/-- Lengths of the status line with the three lines the encoder adds, of every header line,
    and of the empty line. -/
def responseLens (date : Bytes) (response : Http) : List Nat :=
  [(fmtInt response.code).length + (fmtStr response.reason).length + date.length +
    (fmtNat response.bodyLen).length + 56] ++
  (withContentType response).headers.items.map lineLen ++
  [2]

theorem headerLine_length (h : HttpHeader) : (headerLine h).length = lineLen h := by
  have h1 : (ascii ": ").length = 2 := by decide
  have h2 : (ascii "\r\n").length = 2 := by decide
  simp only [headerLine, lineLen, List.length_append, h1, h2]
  omega

theorem map_headerLine_length (hs : List HttpHeader) :
    (hs.map headerLine).map List.length = hs.map lineLen := by
  rw [List.map_map]
  exact List.map_congr_left fun h _ => headerLine_length h

theorem requestTexts_lens (request : Http) :
    (requestTexts request).map List.length = requestLens request := by
  have h1 : (ascii " ").length = 1 := by decide
  have h2 : (ascii " HTTP/1.1\r\nContent-Length: ").length = 27 := by decide
  have h3 : (ascii "\r\n").length = 2 := by decide
  unfold requestTexts requestLens
  simp only [List.map_append, map_headerLine_length, List.map_cons, List.map_nil,
    List.length_append, h1, h2, h3]
  congr 3
  omega

theorem responseTexts_lens (date : Bytes) (response : Http) :
    (responseTexts date response).map List.length = responseLens date response := by
  have h1 : (ascii "HTTP/1.1 ").length = 9 := by decide
  have h2 : (ascii " ").length = 1 := by decide
  have h3 : (ascii "\r\nDate: ").length = 8 := by decide
  have h4 : (ascii "\r\nServer: Foxtails\r\nContent-Length: ").length = 36 := by decide
  have h5 : (ascii "\r\n").length = 2 := by decide
  unfold responseTexts responseLens
  simp only [List.map_append, map_headerLine_length, List.map_cons, List.map_nil,
    List.length_append, h1, h2, h3, h4, h5]
  congr 3
  omega

/-- **The header buffer is respected exactly when the lengths fit**: for every message, every
    date text and whatever the buffer holds before, the calls and the final read of either
    encoder stay inside if and only if the lengths of its lines never add up to more than the
    buffer has. -/
theorem header_safe_iff (header date : Bytes) (msg : Http) :
    (HeaderSafe { header := header } (requestTexts msg) ↔ FitsBuffer 0 (requestLens msg)) ∧
    (HeaderSafe { header := header } (responseTexts date msg) ↔
      FitsBuffer 0 (responseLens date msg)) := by
  constructor
  · rw [headerSafe_iff_fits _ (Nat.zero_le _), requestTexts_lens]
  · rw [headerSafe_iff_fits _ (Nat.zero_le _), responseTexts_lens]

/-- A client's request with a path of 4100 bytes. -/
def longRequest : Bytes :=
  Method.get.text ++ SP :: (List.replicate 4100 97 ++ SP ::
    (ascii "HTTP/1.1" ++ CRLF ++ ascii "A: b\r\n\r\n"))

theorem longRequest_path : (httpRequestParse longRequest).path = some (List.replicate 4100 97) := by
  have h := httpRequestLine_encode .get (List.replicate 4100 97) (ascii "A: b\r\n\r\n")
    (fun hm => absurd (List.eq_of_mem_replicate hm) (by decide))
    (fun hm => absurd (List.eq_of_mem_replicate hm) (by decide))
    (fun hm => absurd (List.eq_of_mem_replicate hm) (by decide))
  unfold longRequest
  rw [httpRequestParse_ok h, attachBody_path, parseLines_path]

/-- Forwarding it runs `header_len` past the buffer with the first `snprintf`. -/
theorem long_path_unsafe :
    ¬ HeaderSafe { header := List.replicate headerSize 0 }
      (requestTexts (httpRequestParse longRequest)) := by
  rw [headerSafe_iff_fits _ (Nat.zero_le _), requestTexts_lens]
  show ¬ FitsBuffer 0 _
  unfold requestLens
  rw [longRequest_path, List.append_assoc, List.singleton_append, FitsBuffer]
  have hsize : headerSize = 4096 := rfl
  have hlen : (fmtStr (some (List.replicate 4100 (97 : Byte)))).length = 4100 := by
    show (List.replicate 4100 (97 : Byte)).length = 4100
    exact List.length_replicate
  rw [hlen]
  split_ifs
  · exact fun h => absurd h.1 (by omega)
  · exact fun h => absurd h.1 (by omega)

end Foxtails.Wire
