/-
  What a response says about its connection, and what becomes of the connection.

  `worker_callback` decides by the request whether the connection is armed again. The response
  says that it is closed when a header Connection with the value close is written in it
  (`SaysClose`), and that is a header of a relayed answer.

  * `saysClose_written_iff`: the encoder adds no such header.
  * `fetchResponse_headers`: the headers of a response are those of a reply of the program, which
    has none either, or those of a backend's answer.
  * `connection_close_iff`: a response that says so is the last of its connection exactly when it
    would have been so anyway, or no backend said so.
-/
import Foxtails.Serve.Connection
import Foxtails.Serve.Relay
import Foxtails.Serve.Reparse
import Foxtails.Wire.HeaderMap

namespace Foxtails.Serve

open Foxtails.Lib.Scan Foxtails.Lib.Libc Foxtails.Wire

/-! ## What a response says -/

/-- There is a header Connection with the value close, ignoring case. -/
def SaysClose (hs : List HttpHeader) : Prop :=
  ∃ h ∈ hs, strcaseeq h.name (ascii "Connection") = true ∧
    strcaseeq h.value (ascii "close") = true

theorem saysClose_append (hs gs : List HttpHeader) :
    SaysClose (hs ++ gs) ↔ SaysClose hs ∨ SaysClose gs := by
  unfold SaysClose
  constructor
  · rintro ⟨h, hmem, hclose⟩
    rcases List.mem_append.mp hmem with hmem | hmem
    · exact .inl ⟨h, hmem, hclose⟩
    · exact .inr ⟨h, hmem, hclose⟩
  · rintro (⟨h, hmem, hclose⟩ | ⟨h, hmem, hclose⟩)
    · exact ⟨h, List.mem_append_left gs hmem, hclose⟩
    · exact ⟨h, List.mem_append_right hs hmem, hclose⟩

/-- Headers of other names say nothing. -/
theorem not_saysClose {hs : List HttpHeader}
    (h : ∀ x ∈ hs, strcaseeq x.name (ascii "Connection") = false) : ¬ SaysClose hs := by
  rintro ⟨x, hx, hname, -⟩
  rw [h x hx] at hname
  cases hname

/-- The encoder adds no header Connection. -/
theorem saysClose_written_iff (date : Bytes) (response : Http) :
    SaysClose (writtenFields date response) ↔ SaysClose response.headers.items := by
  have hadded : ¬ SaysClose (addedFields date response.bodyLen) := by
    have hdate : strcaseeq (ascii "Date") (ascii "Connection") = false := by decide
    have hserver : strcaseeq (ascii "Server") (ascii "Connection") = false := by decide
    have hlength : strcaseeq (ascii "Content-Length") (ascii "Connection") = false := by decide
    apply not_saysClose
    intro x hx
    simp only [addedFields, List.mem_cons, List.not_mem_nil, or_false] at hx
    rcases hx with rfl | rfl | rfl
    · exact hdate
    · exact hserver
    · exact hlength
  have htype : ¬ SaysClose [textPlain] := by
    have hname : strcaseeq textPlain.name (ascii "Connection") = false := by decide
    apply not_saysClose
    intro x hx
    rw [List.mem_singleton.mp hx]
    exact hname
  have hstored : SaysClose (withContentType response).headers.items ↔
      SaysClose response.headers.items := by
    rcases withContentType_items response with heq | ⟨-, heq⟩
    · rw [heq]
    · rw [heq, saysClose_append, or_iff_left htype]
  rw [writtenFields, saysClose_append, or_iff_right hadded, hstored]

/-- In a table with one header for each name, it is the value that is read for Connection. -/
theorem saysClose_iff_get {t : HttpHeaders} (h : Distinct t.items) :
    SaysClose t.items ↔
      ∃ v, t.get (ascii "Connection") = some v ∧ strcaseeq v (ascii "close") = true := by
  constructor
  · rintro ⟨x, hx, hname, hclose⟩
    have hsome : (t.items.find? fun y => strcaseeq y.name (ascii "Connection")).isSome := by
      rw [List.find?_isSome]
      exact ⟨x, hx, hname⟩
    obtain ⟨y, hfind⟩ := Option.isSome_iff_exists.mp hsome
    have hyname : strcaseeq y.name (ascii "Connection") = true :=
      List.find?_some (p := fun z : HttpHeader => strcaseeq z.name (ascii "Connection")) hfind
    have heq : x = y := by
      by_contra hne
      have hsymm : Std.Symm fun a b : HttpHeader => strcaseeq a.name b.name = false :=
        ⟨fun a b hab => strcaseeq_comm a.name b.name ▸ hab⟩
      have hxy := List.Pairwise.forall h hx (List.mem_of_find?_eq_some hfind) hne
      rw [strcaseeq_congr hname, strcaseeq_comm, hyname] at hxy
      cases hxy
    subst heq
    exact ⟨x.value, by rw [HttpHeaders.get, hfind, Option.map_some], hclose⟩
  · rintro ⟨v, hget, hclose⟩
    obtain ⟨x, hfind, rfl⟩ := Option.map_eq_some_iff.mp hget
    have hname : strcaseeq x.name (ascii "Connection") = true :=
      List.find?_some (p := fun z : HttpHeader => strcaseeq z.name (ascii "Connection")) hfind
    exact ⟨x, List.mem_of_find?_eq_some hfind, hname, hclose⟩

/-! ## Where the headers of a response come from -/

/-- No reply of the program has a header Connection. -/
theorem ownReply_not_saysClose {response : Http} (h : OwnReply response) :
    ¬ SaysClose response.headers.items := by
  have hname : ∀ n ∈ [ascii "Content-Type", ascii "Allow", ascii "Location"],
      strcaseeq n (ascii "Connection") = false := by decide
  exact not_saysClose (ownReply_other h hname)

/-- What the HEAD cases drop is no header. -/
theorem servePath_headers (env : Env) (req : Http) :
    ∃ own, OwnReply own ∧ (servePath env req).headers = own.headers := by
  by_cases h : req.method = some .head
  · refine ⟨getPath env (req.path.getD []), getPath_own env _, ?_⟩
    unfold servePath
    rw [h]
  · exact ⟨_, servePath_own env h, rfl⟩

/-- The headers of a response are those of a reply of the program, or those of the answer that is
    relayed. -/
theorem fetchResponse_headers (env : Env) (req : Http) :
    (relayedFrom env req = none ∧
      ∃ own, OwnReply own ∧ (fetchResponse env req).headers = own.headers) ∨
    ∃ backend, relayedFrom env req = some backend ∧
      (fetchResponse env req).headers = (httpResponseParse (backend.answer req)).headers := by
  unfold fetchResponse relayedFrom
  cases env.routes.find? (routeMatches req) with
  | none => exact .inl ⟨rfl, servePath_headers env req⟩
  | some route =>
    dsimp only
    unfold routeHandler
    cases htype : route.type with
    | «alias» => exact .inl ⟨rfl, servePath_headers env { req with path := some route.dest }⟩
    | reroute => exact .inl ⟨rfl, _, .moved _ route.dest_line, rfl⟩
    | proxy =>
      dsimp only
      unfold handleProxy
      rw [if_pos rfl]
      cases socketCreateAuto env route.dest with
      | none => exact .inl ⟨rfl, _, .notFound, rfl⟩
      | some backend =>
        dsimp only
        simp only [List.length_eq_zero_iff]
        by_cases hnil : backend.answer req = []
        · rw [if_pos hnil]
          exact .inl ⟨by simp [hnil], _, .badGateway, rfl⟩
        · rw [if_neg hnil]
          refine .inr ⟨backend, by simp [hnil], ?_⟩
          split_ifs <;> rfl

/-! ## Answers of a backend -/

/-- The value of the last header line called Connection, if fewer than `httpMaxHeaders` other names
    come before the first such line. -/
def declaredConnection (buf : Bytes) : Option Bytes :=
  governingValue (ascii "Connection") (lineHeaders (blockLines (headSplit (afterFirstLine buf)).1))

/-- The answer is accepted, and the value of its header Connection is close. -/
def AnswersClose (buf : Bytes) : Prop :=
  ResponseAccepted buf ∧
    ∃ v, declaredConnection buf = some v ∧ strcaseeq v (ascii "close") = true

theorem saysClose_response_iff (buf : Bytes) :
    SaysClose (httpResponseParse buf).headers.items ↔ AnswersClose buf := by
  unfold AnswersClose
  cases h : httpStatusLine buf with
  | error reply =>
    have hno : ¬ ResponseAccepted buf := by
      rintro ⟨response, lineEnd, hok⟩
      rw [h] at hok
      cases hok
    have heq : httpResponseParse buf = reply := by
      unfold httpResponseParse
      rw [h]
    rw [heq]
    refine iff_of_false ?_ fun hacc => hno hacc.1
    rcases httpStatusLine_error h with rfl | rfl
    · exact not_saysClose (by decide)
    · exact not_saysClose (by decide)
  | ok r =>
    obtain ⟨response, lineEnd⟩ := r
    obtain ⟨hlf, hfresh⟩ := httpStatusLine_ok h
    have hrest : buf.drop (lineEnd + 1) = afterFirstLine buf := by
      unfold afterFirstLine
      rw [find_singleton_upto hlf]
    have hheaders : (httpResponseParse buf).headers =
        HttpHeaders.empty.setAll
          (lineHeaders (blockLines (headSplit (afterFirstLine buf)).1)) := by
      rw [httpResponseParse_ok h, hrest, attachBody_headers, parseLines_headers, hfresh.headers]
    have hempty : Distinct HttpHeaders.empty.items := List.Pairwise.nil
    rw [hheaders, saysClose_iff_get (HttpHeaders.setAll_distinct _ hempty),
      HttpHeaders.get_setAll, and_iff_right ⟨response, lineEnd, h⟩]
    rfl

/-! ## The callback -/

/-- The response is relayed, and the backend's answer says that its connection is closed. -/
def RelaysClose (env : Env) (req : Http) : Prop :=
  ∃ backend, relayedFrom env req = some backend ∧ AnswersClose (backend.answer req)

/-- A response says close if and only if that is relayed. -/
theorem saysClose_fetched_iff (env : Env) (req : Http) :
    SaysClose (fetchResponse env req).headers.items ↔ RelaysClose env req := by
  unfold RelaysClose
  rcases fetchResponse_headers env req with ⟨hno, own, hown, heq⟩ | ⟨backend, hrel, heq⟩
  · rw [heq, hno]
    refine iff_of_false (ownReply_not_saysClose hown) ?_
    rintro ⟨backend, hsome, -⟩
    cases hsome
  · rw [heq, hrel, saysClose_response_iff]
    constructor
    · intro h
      exact ⟨backend, rfl, h⟩
    · rintro ⟨backend', hsome, h⟩
      obtain rfl := Option.some.inj hsome
      exact h

/-- What a call does with a request that is accepted. -/
theorem workerCallback_handed {fetch : Http → Http} {rearmed : Bool} {base : Nat}
    {results : List RecvResult} {req : Http} {buf : Bytes}
    (h : (workerCallback fetch rearmed base results).handed = some (req, buf)) :
    (workerCallback fetch rearmed base results).sent = some (fetch req) ∧
      (workerCallback fetch rearmed base results).kept = (httpIsKeepAlive req && rearmed) := by
  revert h
  unfold workerCallback
  dsimp only
  split_ifs
  · intro h
    cases h
  · split
    · intro h
      cases h
    · intro h
      obtain ⟨rfl, -⟩ := Prod.mk.inj (Option.some.inj h)
      exact ⟨rfl, rfl⟩

/-- **A response that says close is the last one exactly when the request asked for that, or arming
    the connection fails, or no close is relayed**: for every request that is accepted, every route
    table, file system and backend. -/
theorem connection_close_iff (env : Env) (rearmed : Bool) (base : Nat)
    (results : List RecvResult) (date : Bytes) {req : Http} {buf : Bytes}
    (h : (workerCallback (fetchResponse env) rearmed base results).handed = some (req, buf)) :
    (∀ response, (workerCallback (fetchResponse env) rearmed base results).sent = some response →
        SaysClose (writtenFields date response) →
          (workerCallback (fetchResponse env) rearmed base results).kept = false) ↔
      httpIsKeepAlive req = false ∨ rearmed = false ∨ ¬ RelaysClose env req := by
  obtain ⟨hsent, hkept⟩ := workerCallback_handed h
  rw [hsent, hkept, ← saysClose_fetched_iff, ← saysClose_written_iff date, Bool.and_eq_false_iff]
  constructor
  · intro hlast
    by_cases hclose : SaysClose (writtenFields date (fetchResponse env req))
    · rcases hlast _ rfl hclose with hreq | harm
      · exact .inl hreq
      · exact .inr (.inl harm)
    · exact .inr (.inr hclose)
  · rintro (hreq | harm | hno) response hresponse hclose
    · exact .inl hreq
    · exact .inr harm
    · obtain rfl := Option.some.inj hresponse
      exact absurd hclose hno

/-- `GET /` in one chunk, on a connection that stays open. -/
def rootRequest : List RecvResult := [.data (ascii "GET / HTTP/1.1\r\n\r\n") [] 65536]

/-- The same, as the last of its connection. -/
def closingRequest : List RecvResult :=
  [.data (ascii "GET / HTTP/1.1\r\nConnection: close\r\n\r\n") [] 65536]

def closingEnv : Env := proxyEnv (ascii "HTTP/1.1 200 OK\r\nConnection: close\r\n\r\n")

/-- `connection_close_iff` where both sides say close. -/
theorem connection_close_iff_both :
    (∃ response, (workerCallback (fetchResponse closingEnv) true 65536 closingRequest).sent =
        some response ∧ SaysClose (writtenFields epoch response)) ∧
    ∀ response, (workerCallback (fetchResponse closingEnv) true 65536 closingRequest).sent =
        some response → SaysClose (writtenFields epoch response) →
      (workerCallback (fetchResponse closingEnv) true 65536 closingRequest).kept = false := by
  have hhanded : (workerCallback (fetchResponse closingEnv) true 65536 closingRequest).handed =
      some ({ getRoot with headers := ⟨[⟨ascii "Connection", ascii "close"⟩], by decide⟩ },
        ascii "GET / HTTP/1.1\r\nConnection: close\r\n\r\n") := by decide +kernel
  refine ⟨⟨_, (workerCallback_handed hhanded).1, ?_⟩, ?_⟩
  · exact ⟨⟨ascii "Connection", ascii "close"⟩, by decide +kernel, by decide, by decide⟩
  · exact (connection_close_iff closingEnv true 65536 closingRequest epoch hhanded).mpr
      (.inl (by decide +kernel))

/-- The close of a backend is relayed, and the connection is armed again. -/
theorem relayed_close_kept :
    (workerCallback (fetchResponse closingEnv) true 65536 rootRequest).handed =
      some (getRoot, ascii "GET / HTTP/1.1\r\n\r\n") ∧
    ∃ response, (workerCallback (fetchResponse closingEnv) true 65536 rootRequest).sent =
        some response ∧
      SaysClose (writtenFields epoch response) ∧
      (workerCallback (fetchResponse closingEnv) true 65536 rootRequest).kept = true := by
  refine ⟨by decide +kernel, fetchResponse closingEnv getRoot, by decide +kernel, ?_,
    by decide +kernel⟩
  exact ⟨⟨ascii "Connection", ascii "close"⟩, by decide +kernel, by decide, by decide⟩

end Foxtails.Serve
