/-
  `http_t`: methods, MIME types, headers and the literal replies of `include/http.h`.

  `Http` is the one record the program uses for requests and responses; a field that is a
  null pointer in C is `none`. `HttpHeaders` carries the bound `HTTP_MAX_HEADERS` of its
  array, so a message with more headers cannot be built.

  * `get_set`: what `http_get_header` finds after `http_set_header`.
  * `mem_set`: where a stored header comes from.
-/
import Foxtails.Lib.Libc

namespace Foxtails.Wire

open Foxtails.Lib.Libc

/-! ## Methods -/

/-- The `REQUEST_*` constants. -/
inductive Method where
  | get | head | post | put | delete | connect | options | trace | patch
  deriving DecidableEq, Repr

/-- The bit of a method in a route's mask. -/
def Method.mask : Method → Nat
  | .get => 1 <<< 0
  | .head => 1 <<< 1
  | .post => 1 <<< 2
  | .put => 1 <<< 3
  | .delete => 1 <<< 4
  | .connect => 1 <<< 5
  | .options => 1 <<< 6
  | .trace => 1 <<< 7
  | .patch => 1 <<< 8

/-- `http_method_from_str`; the `-1` of an unknown method is `none`. -/
def httpMethodFromStr (str : Bytes) : Option Method :=
  match str.length with
  | 3 =>
    if str = ascii "GET" then some .get
    else if str = ascii "PUT" then some .put
    else none
  | 4 =>
    if str = ascii "HEAD" then some .head
    else if str = ascii "POST" then some .post
    else none
  | 5 =>
    if str = ascii "PATCH" then some .patch
    else if str = ascii "TRACE" then some .trace
    else none
  | 6 => if str = ascii "DELETE" then some .delete else none
  | 7 =>
    if str = ascii "OPTIONS" then some .options
    else if str = ascii "CONNECT" then some .connect
    else none
  | _ => none

def Method.text : Method → Bytes
  | .get => ascii "GET"
  | .head => ascii "HEAD"
  | .post => ascii "POST"
  | .put => ascii "PUT"
  | .delete => ascii "DELETE"
  | .connect => ascii "CONNECT"
  | .options => ascii "OPTIONS"
  | .trace => ascii "TRACE"
  | .patch => ascii "PATCH"

/-- `http_method_to_str`. The method field of a zeroed `http_t` is `none`, and has no name. -/
def httpMethodToStr (method : Option Method) : Option Bytes := method.map Method.text

theorem httpMethodFromStr_text (m : Method) : httpMethodFromStr m.text = some m := by
  cases m <;> decide

theorem Method.sp_not_mem_text (m : Method) : SP ∉ m.text ∧ LF ∉ m.text := by
  cases m <;> decide

/-! ## MIME types -/

/-- The `MIME_*` constants. -/
inductive Mime where
  | textPlain | textHtml | textCss | textJavascript
  | applicationJson | applicationXml | applicationPdf | applicationOctetStream
  | imagePng | imageJpeg | imageGif | imageSvg | imageIco
  deriving DecidableEq, Repr

/-- `mime_type_from_ext`. -/
def mimeTypeFromExt (ext : Bytes) : Mime :=
  if ext = ascii "js" then .textJavascript
  else if ext = ascii "css" then .textCss
  else if ext = ascii "xml" then .applicationXml
  else if ext = ascii "pdf" then .applicationPdf
  else if ext = ascii "png" then .imagePng
  else if ext = ascii "jpg" then .imageJpeg
  else if ext = ascii "gif" then .imageGif
  else if ext = ascii "svg" then .imageSvg
  else if ext = ascii "ico" then .imageIco
  else if ext = ascii "txt" then .textPlain
  else if ext = ascii "html" then .textHtml
  else if ext = ascii "json" then .applicationJson
  else if ext = ascii "jpeg" then .imageJpeg
  else .applicationOctetStream

/-- `mime_type_str`. -/
def mimeTypeStr : Mime → Bytes
  | .textPlain => ascii "text/plain"
  | .textHtml => ascii "text/html"
  | .textCss => ascii "text/css"
  | .textJavascript => ascii "text/javascript"
  | .applicationJson => ascii "application/json"
  | .applicationXml => ascii "application/xml"
  | .applicationPdf => ascii "application/pdf"
  | .applicationOctetStream => ascii "application/octet-stream"
  | .imagePng => ascii "image/png"
  | .imageJpeg => ascii "image/jpeg"
  | .imageGif => ascii "image/gif"
  | .imageSvg => ascii "image/svg+xml"
  | .imageIco => ascii "image/x-icon"

/-! ## Headers -/

structure HttpHeader where
  name : Bytes
  value : Bytes
  deriving DecidableEq, Repr

/-- `HTTP_MAX_HEADERS`. -/
def httpMaxHeaders : Nat := 32

/-- `http_headers_t`: `items[0 .. len)`. -/
@[ext] structure HttpHeaders where
  items : List HttpHeader
  bounded : items.length ≤ httpMaxHeaders
  deriving DecidableEq

def HttpHeaders.empty : HttpHeaders := ⟨[], Nat.zero_le _⟩

/-- Replace the value of the first header called `name`, ignoring case. -/
def overwrite (name value : Bytes) : List HttpHeader → List HttpHeader
  | [] => []
  | h :: hs =>
    if strcaseeq h.name name then { h with value := value } :: hs
    else h :: overwrite name value hs

@[simp] theorem overwrite_length (name value : Bytes) (hs : List HttpHeader) :
    (overwrite name value hs).length = hs.length := by
  induction hs with
  | nil => rfl
  | cons h hs ih => rw [overwrite]; split_ifs <;> simp [ih]

/-- The table part of `http_set_header`, with the `bool` it returns. -/
def HttpHeaders.set (hs : HttpHeaders) (name value : Bytes) : HttpHeaders × Bool :=
  if hs.items.any fun h => strcaseeq h.name name then
    (⟨overwrite name value hs.items, by rw [overwrite_length]; exact hs.bounded⟩, true)
  else if hlt : hs.items.length < httpMaxHeaders then
    (⟨hs.items ++ [⟨name, value⟩], by simpa using hlt⟩, true)
  else (hs, false)

/-- The table part of `http_get_header`. -/
def HttpHeaders.get (hs : HttpHeaders) (name : Bytes) : Option Bytes :=
  (hs.items.find? fun h => strcaseeq h.name name).map (·.value)

theorem find?_overwrite (name value k : Bytes) (hs : List HttpHeader)
    (hmem : hs.any fun h => strcaseeq h.name name) :
    ((overwrite name value hs).find? fun h => strcaseeq h.name k).map (·.value) =
      if strcaseeq name k then some value
      else (hs.find? fun h => strcaseeq h.name k).map (·.value) := by
  induction hs with
  | nil => simp at hmem
  | cons h hs ih =>
    rw [overwrite]
    by_cases hn : strcaseeq h.name name = true
    · have hk : strcaseeq h.name k = strcaseeq name k := strcaseeq_congr hn k
      rw [if_pos hn, List.find?_cons, List.find?_cons]
      simp only [hk]
      cases strcaseeq name k <;> rfl
    · have hmem' : hs.any fun h => strcaseeq h.name name := by
        simpa [hn] using hmem
      rw [if_neg hn, List.find?_cons, List.find?_cons]
      by_cases hk : strcaseeq h.name k = true
      · have hnk : strcaseeq name k = false := by
          by_contra hnk
          rw [Bool.not_eq_false] at hnk
          rw [strcaseeq_comm, strcaseeq_congr hnk, strcaseeq_comm] at hn
          exact hn hk
        simp [hk, hnk]
      · simp only [hk]
        exact ih hmem'

/-- After a set that was stored, the name reads the new value; every other name, and every
    name after a set that was refused, reads what it read before. -/
theorem HttpHeaders.get_set (hs : HttpHeaders) (name value k : Bytes) :
    (hs.set name value).1.get k =
      if (hs.set name value).2 && strcaseeq name k then some value else hs.get k := by
  unfold HttpHeaders.set
  by_cases hmem : hs.items.any (fun h => strcaseeq h.name name) = true
  · rw [if_pos hmem]
    simpa [HttpHeaders.get] using find?_overwrite name value k hs.items hmem
  · rw [if_neg hmem]
    by_cases hlt : hs.items.length < httpMaxHeaders
    · rw [dif_pos hlt]
      simp only [HttpHeaders.get, List.find?_append, Bool.true_and]
      by_cases hk : strcaseeq name k = true
      · have hnone : hs.items.find? (fun h => strcaseeq h.name k) = none := by
          rw [List.find?_eq_none]
          intro h hh hhk
          refine hmem (List.any_eq_true.mpr ⟨h, hh, ?_⟩)
          rw [strcaseeq_comm, strcaseeq_congr hk, strcaseeq_comm]
          exact hhk
        simp [hnone, hk]
      · simp [hk]
    · rw [dif_neg hlt]
      simp

theorem mem_overwrite {name value : Bytes} {hs : List HttpHeader} {h : HttpHeader}
    (hm : h ∈ overwrite name value hs) :
    h ∈ hs ∨ (h.value = value ∧ strcaseeq h.name name ∧ ∃ h' ∈ hs, h'.name = h.name) := by
  induction hs with
  | nil => simp [overwrite] at hm
  | cons h' hs ih =>
    rw [overwrite] at hm
    split_ifs at hm with hn
    · rcases List.mem_cons.mp hm with rfl | hm
      · exact .inr ⟨rfl, hn, h', List.mem_cons_self, rfl⟩
      · exact .inl (List.mem_cons_of_mem _ hm)
    · rcases List.mem_cons.mp hm with rfl | hm
      · exact .inl List.mem_cons_self
      · rcases ih hm with hm | ⟨hv, hc, g, hg, hgn⟩
        · exact .inl (List.mem_cons_of_mem _ hm)
        · exact .inr ⟨hv, hc, g, List.mem_cons_of_mem _ hg, hgn⟩

/-- A header of the table after a set was there before, or holds the new value under the new
    name or under a stored name equal to it ignoring case. -/
theorem HttpHeaders.mem_set {hs : HttpHeaders} {name value : Bytes} {h : HttpHeader}
    (hm : h ∈ (hs.set name value).1.items) :
    h ∈ hs.items ∨ (h.value = value ∧ strcaseeq h.name name ∧
      (h.name = name ∨ ∃ h' ∈ hs.items, h'.name = h.name)) := by
  unfold HttpHeaders.set at hm
  split_ifs at hm with hany hlt
  · rcases mem_overwrite hm with hm | ⟨hv, hc, hx⟩
    · exact .inl hm
    · exact .inr ⟨hv, hc, .inr hx⟩
  · rcases List.mem_append.mp hm with hm | hm
    · exact .inl hm
    · rw [List.mem_singleton] at hm
      subst hm
      exact .inr ⟨rfl, strcaseeq_self _, .inl rfl⟩
  · exact .inl hm

/-! ## `http_t` -/

/-- `http_t`; the defaults are those of `{0}`. -/
structure Http where
  method : Option Method := none
  path : Option Bytes := none
  code : Int := 0
  reason : Option Bytes := none
  headers : HttpHeaders := .empty
  body : Option Bytes := none
  bodyLen : Nat := 0
  deriving DecidableEq

/-- `http_set_header`. -/
def httpSetHeader (msg : Http) (name value : Bytes) : Http × Bool :=
  let (headers, stored) := msg.headers.set name value
  ({ msg with headers := headers }, stored)

/-- `http_get_header`. -/
def httpGetHeader (msg : Http) (name : Bytes) : Option Bytes := msg.headers.get name

/-- `http_has_header`. -/
def httpHasHeader (msg : Http) (name : Bytes) : Bool := (httpGetHeader msg name).isSome

/-- `http_is_keep_alive`. -/
def httpIsKeepAlive (msg : Http) : Bool :=
  match httpGetHeader msg (ascii "Connection") with
  | some value => !strcaseeq value (ascii "close")
  | none => true

/-- `http_set_content_type`. -/
def httpSetContentType (msg : Http) (mime : Mime) : Http :=
  (httpSetHeader msg (ascii "Content-Type") (mimeTypeStr mime)).1

/-! ## Literal replies -/

def textPlain : HttpHeader := ⟨ascii "Content-Type", ascii "text/plain"⟩

def allowed : HttpHeader := ⟨ascii "Allow", ascii "GET, HEAD, POST, PUT, DELETE, PATCH"⟩

theorem one_header_fits (h : HttpHeader) : [h].length ≤ httpMaxHeaders := by
  unfold httpMaxHeaders
  exact Nat.le_of_ble_eq_true rfl

/-- A reply whose body is the text `body`. -/
def textReply (code : Int) (reason body : Bytes) (headers : HttpHeaders) : Http :=
  { code := code, reason := some reason, headers := headers, body := some body,
    bodyLen := body.length }

/-- The replies whose body is their reason, with the content type as only header. -/
def statusReply (code : Int) (reason : Bytes) : Http :=
  textReply code reason reason ⟨[textPlain], one_header_fits textPlain⟩

def notImplemented : Http := statusReply 501 (ascii "Not Implemented")
def notFound : Http := statusReply 404 (ascii "Not Found")
def badRequest : Http := statusReply 400 (ascii "Bad Request")
def versionNotSupported : Http := statusReply 505 (ascii "HTTP Version Not Supported")
def requestTimeout : Http := statusReply 408 (ascii "Request Timeout")
def badGateway : Http := statusReply 502 (ascii "Bad Gateway")

def notAllowed : Http :=
  textReply 405 (ascii "Method Not Allowed") (ascii "Method Not Allowed")
    ⟨[textPlain, allowed], by decide⟩

def noContent : Http :=
  { code := 204, reason := some (ascii "No Content"), headers := ⟨[allowed], by decide⟩ }

/-- `HTTP_MOVED(loc)`. -/
def httpMoved (loc : Bytes) : Http :=
  textReply 301 (ascii "Moved Permanently") (ascii "Moved Permanently")
    ⟨[textPlain, ⟨ascii "Location", loc⟩], by simp [httpMaxHeaders]⟩

end Foxtails.Wire
