/-
  The encoders of `utils/http.c`: `http_send_request` and `http_send_response`.

  Both print a list of texts into the 4096 bytes of `header`, one `snprintf` a text, and add
  up what the calls return. `requestTexts` and `responseTexts` are the texts; the rest is
  shared: `snprintfCalls` is the list of calls with their arguments, `fillHeader` the buffer
  and `header_len` after them.

  * `fillHeader_fits`: texts that fit, with a byte to spare, are in the buffer one after the
    other and nothing else counts.
  * `sentBytes_fits`: what is sent then.
-/
import Foxtails.Wire.Message

namespace Foxtails.Wire

open Foxtails.Lib.Libc

/-! ## The texts -/

/-- A header line, `"%s: %s\r\n"`. -/
def headerLine (h : HttpHeader) : Bytes := h.name ++ ascii ": " ++ h.value ++ ascii "\r\n"

/-- What `http_send_request` prints, one text a call. A stored Content-Length is skipped. -/
def requestTexts (request : Http) : List Bytes :=
  [fmtStr (httpMethodToStr request.method) ++ ascii " " ++ fmtStr request.path ++
    ascii " HTTP/1.1\r\nContent-Length: " ++ fmtNat request.bodyLen ++ ascii "\r\n"] ++
  (request.headers.items.filter fun h => !strcaseeq h.name (ascii "Content-Length")).map
    headerLine ++
  [ascii "\r\n"]

/-- `http_send_response` sets a content type when there is none. -/
def withContentType (response : Http) : Http :=
  if httpHasHeader response (ascii "Content-Type") then response
  else httpSetContentType response .textPlain

/-- What `http_send_response` prints; `date` is the output of its `strftime`. -/
def responseTexts (date : Bytes) (response : Http) : List Bytes :=
  [ascii "HTTP/1.1 " ++ fmtInt response.code ++ ascii " " ++ fmtStr response.reason ++
    ascii "\r\nDate: " ++ date ++ ascii "\r\nServer: Foxtails\r\nContent-Length: " ++
    fmtNat response.bodyLen ++ ascii "\r\n"] ++
  (withContentType response).headers.items.map headerLine ++
  [ascii "\r\n"]

/-! ## The buffer -/

/-- `sizeof(header)`. -/
def headerSize : Nat := 4096

structure HeaderState where
  header : Bytes
  headerLen : Nat := 0

/-- `snprintf(header + offset, size, ...)`, printing `text`. -/
structure SnprintfCall where
  offset : Nat
  size : Nat
  text : Bytes
  deriving DecidableEq, Repr

/-- The call for the next text; `sizeof(header) - header_len` is a `size_t`. -/
def snprintfCall (s : HeaderState) (text : Bytes) : SnprintfCall :=
  { offset := s.headerLen
    size := (((headerSize : Int) - s.headerLen) % SIZE).toNat
    text := text }

/-- The call, and `header_len +=` what it returns. -/
def printText (s : HeaderState) (text : Bytes) : HeaderState :=
  let c := snprintfCall s text
  { header := store s.header c.offset (snprintfStores c.size c.text)
    headerLen := (((s.headerLen : Int) + snprintfReturn text.length) % SIZE).toNat }

/-- The calls that print the texts. -/
def snprintfCalls (s : HeaderState) : List Bytes → List SnprintfCall
  | [] => []
  | text :: texts => snprintfCall s text :: snprintfCalls (printText s text) texts

/-- Buffer and `header_len` after the last call. -/
def fillHeader (s : HeaderState) (texts : List Bytes) : HeaderState := texts.foldl printText s

/-- The bytes passed to `send`; `none` when they are read from behind the buffer. -/
def sentBytes (s : HeaderState) (msg : Http) : Option Bytes :=
  if s.headerLen ≤ s.header.length then
    match msg.body with
    | none => some (s.header.take s.headerLen)
    | some body => some (s.header.take s.headerLen ++ body.take msg.bodyLen)
  else none

/-- `http_send_request`; `header` is what the buffer holds before. -/
def httpSendRequest (header : Bytes) (request : Http) : Option Bytes :=
  sentBytes (fillHeader { header := header } (requestTexts request)) request

/-- `http_send_response`. -/
def httpSendResponse (header date : Bytes) (response : Http) : Option Bytes :=
  sentBytes (fillHeader { header := header } (responseTexts date response)) response

/-! ## Texts that fit -/

/-- A text that fits goes behind what is there. -/
theorem printText_fits {s : HeaderState} (text : Bytes) (hlen : s.header.length = headerSize)
    (h : s.headerLen + text.length < headerSize) :
    (printText s text).header.length = headerSize ∧
      (printText s text).headerLen = s.headerLen + text.length ∧
      (printText s text).header.take (s.headerLen + text.length) =
        s.header.take s.headerLen ++ text := by
  have hsize : headerSize = 4096 := rfl
  have hint : INT_MAX = 2147483647 := rfl
  have hwrap : (((headerSize : Int) - s.headerLen) % SIZE).toNat = headerSize - s.headerLen := by
    rw [Int.emod_eq_of_lt (by omega) (by have : SIZE = 18446744073709551616 := rfl; omega)]
    omega
  have hstores : snprintfStores (headerSize - s.headerLen) text = text ++ [NUL] := by
    unfold snprintfStores
    rw [if_neg (by omega), List.take_of_length_le (by omega)]
  refine ⟨?_, ?_, ?_⟩
  · show (store s.header s.headerLen _).length = headerSize
    rw [store_length, hlen]
  · show (((s.headerLen : Int) + snprintfReturn text.length) % SIZE).toNat = _
    unfold snprintfReturn
    rw [if_pos (by omega), Int.emod_eq_of_lt (by omega)
      (by have : SIZE = 18446744073709551616 := rfl; omega)]
    omega
  · show (store s.header s.headerLen (snprintfStores
      (((headerSize : Int) - s.headerLen) % SIZE).toNat text)).take _ = _
    rw [hwrap, hstores]
    refine take_store _ _ _ _ ?_
    rw [List.length_append, List.length_singleton, hlen]
    omega

/-- Texts that fit are in the buffer, one after the other. -/
theorem fillHeader_fits (texts : List Bytes) {s : HeaderState}
    (hlen : s.header.length = headerSize)
    (h : s.headerLen + texts.flatten.length < headerSize) :
    (fillHeader s texts).header.length = headerSize ∧
      (fillHeader s texts).headerLen = s.headerLen + texts.flatten.length ∧
      (fillHeader s texts).header.take (s.headerLen + texts.flatten.length) =
        s.header.take s.headerLen ++ texts.flatten := by
  unfold fillHeader
  induction texts generalizing s with
  | nil => simp [hlen]
  | cons text texts ih =>
    rw [List.flatten_cons, List.length_append] at h ⊢
    obtain ⟨hlen', hhl, htake⟩ := printText_fits text hlen (by omega)
    obtain ⟨h1, h2, h3⟩ := ih hlen' (by omega)
    rw [List.foldl_cons]
    refine ⟨h1, by rw [h2, hhl]; omega, ?_⟩
    rw [hhl, htake, Nat.add_assoc] at h3
    rw [h3, List.append_assoc]

/-- A message whose header fits is sent as its texts and its body. -/
theorem sentBytes_fits (texts : List Bytes) {header : Bytes} (msg : Http)
    (hlen : header.length = headerSize) (h : texts.flatten.length < headerSize) :
    sentBytes (fillHeader { header := header } texts) msg =
      some (texts.flatten ++ (msg.body.getD []).take msg.bodyLen) := by
  obtain ⟨h1, h2, h3⟩ := fillHeader_fits texts (s := { header := header }) hlen
    (by simpa using h)
  simp only [Nat.zero_add, List.take_zero, List.nil_append] at h2 h3
  unfold sentBytes
  rw [if_pos (by omega), h2, h3]
  cases msg.body <;> simp

end Foxtails.Wire
