/-
  A request that is passed on by one program after another.

  Model (read this before the theorems). `Serves origin dates env req`: the program with `env`
  answers `req` itself and is `origin`, or it has a proxy route for it, and what
  `http_send_request` passes to `send` is received by a call of `worker_callback` of the next
  program, and what the socket takes of that call's response is what comes back. Every program on
  the way may have other routes and other files. The bytes of a hop arrive in any chunks, as one
  whole; `dates` are those the responses were written with, that of `origin` last.

  * `fetchResponse_small`: what a program answers itself fits a header buffer, with room for the
    lines that the next programs add.
  * `hop`: a request that is passed on is answered with `relayed` of what the next program answers.
  * `hops_transparent`: so with any number of programs in between the response is the one of
    `origin`, with its Date.
-/
import Foxtails.Serve.Deliver
import Foxtails.Serve.Relay
import Foxtails.Serve.Relayed

namespace Foxtails.Serve

open Foxtails.Lib.Scan Foxtails.Lib.Libc Foxtails.Wire

/-! ## Replies that fit -/

/-- A table of at most two plain headers, none of them a Content-Length, with room for more in a
    header buffer. -/
structure SmallTable (hs : List HttpHeader) : Prop where
  plain : PlainHeaders hs
  noLength : ∀ h ∈ hs, strcaseeq h.name (ascii "Content-Length") = false
  few : hs.length ≤ 2
  short : linesLen hs ≤ 3800

structure SmallReply (response : Http) : Prop where
  code : -2 ^ 31 ≤ response.code ∧ response.code < 2 ^ 31
  reason : ∃ r, response.reason = some r ∧ Plain r ∧ r.length ≤ 32
  headers : SmallTable response.headers.items
  body : PlainBody response

theorem small_one {name value : Bytes} (hname : Plain name ∧ COLON ∉ name)
    (hother : strcaseeq name (ascii "Content-Length") = false)
    (hvalue : Plain value ∧ value.head? ≠ some SP)
    (hshort : name.length + value.length ≤ 3796) : SmallTable [⟨name, value⟩] where
  plain := ⟨List.pairwise_singleton _ _, fun x hx => by rw [List.mem_singleton.mp hx]; exact hname,
    fun x hx => by rw [List.mem_singleton.mp hx]; exact hvalue⟩
  noLength := fun x hx => by rw [List.mem_singleton.mp hx]; exact hother
  few := Nat.le_succ 1
  short := by
    show name.length + value.length + 4 + 0 ≤ 3800
    omega

theorem small_textPlain : SmallTable [textPlain] :=
  small_one (by decide) (by decide) (by decide) (by decide)

theorem small_allowed : SmallTable [allowed] :=
  small_one (by decide) (by decide) (by decide) (by decide)

/-- The content type and one more. -/
theorem small_two {name value : Bytes} (hsmall : SmallTable [⟨name, value⟩])
    (hname : strcaseeq textPlain.name name = false)
    (hshort : name.length + value.length ≤ 3770) : SmallTable [textPlain, ⟨name, value⟩] where
  plain := by
    refine ⟨List.pairwise_pair.mpr hname, fun x hx => ?_, fun x hx => ?_⟩
    · obtain rfl | hx := List.mem_cons.mp hx
      · exact small_textPlain.plain.name _ (List.mem_singleton_self _)
      · exact hsmall.plain.name x hx
    · obtain rfl | hx := List.mem_cons.mp hx
      · exact small_textPlain.plain.value _ (List.mem_singleton_self _)
      · exact hsmall.plain.value x hx
  noLength := by
    intro x hx
    obtain rfl | hx := List.mem_cons.mp hx
    · exact small_textPlain.noLength _ (List.mem_singleton_self _)
    · exact hsmall.noLength x hx
  few := Nat.le_refl 2
  short := by
    have htext : lineLen textPlain = 26 := by decide
    show lineLen textPlain + (name.length + value.length + 4 + 0) ≤ 3800
    omega

theorem small_textReply {code : Int} {reason body : Bytes} {headers : HttpHeaders}
    (hcode : -2 ^ 31 ≤ code ∧ code < 2 ^ 31) (hreason : Plain reason ∧ reason.length ≤ 32)
    (hbody : body ≠ [] ∧ body.length < SIZE) (hheaders : SmallTable headers.items) :
    SmallReply (textReply code reason body headers) where
  code := hcode
  reason := ⟨reason, rfl, hreason⟩
  headers := hheaders
  body := ⟨fun h => hbody.1 (Option.some.inj h), rfl, hbody.2⟩

/-- A small reply can be written, and what is read of it can be written again. -/
theorem SmallReply.encodable {response : Http} (h : SmallReply response) {date : Bytes}
    (hdate : date.length < 32) :
    EncodableResponse date response ∧ (responseTexts date response).flatten.length ≤ 4000 := by
  have hlength : (responseTexts date response).flatten.length ≤ 4000 := by
    obtain ⟨reason, hreason, -, hreasonLen⟩ := h.reason
    have hcodeLen := fmtInt_length_le h.code.1 h.code.2
    have hdigits := fmtNat_length_le h.body.size
    have hlines : linesLen (withContentType response).headers.items ≤ 3826 := by
      have htext : linesLen [textPlain] = 26 := by decide
      have hshort := h.headers.short
      obtain heq | ⟨-, heq⟩ := withContentType_items response
      · rw [heq]
        omega
      · rw [heq, linesLen_append]
        omega
    rw [responseTexts_length, hreason]
    show _ + reason.length + _ + _ + _ + _ ≤ _
    omega
  refine ⟨⟨h.code, ?_, h.headers.plain, ?_, h.body, ?_, by omega⟩, hlength⟩
  · obtain ⟨reason, hreason, hplain, -⟩ := h.reason
    exact ⟨reason, hreason, hplain⟩
  · intro x hx hname
    rw [h.headers.noLength x hx] at hname
    cases hname
  · have hfew := h.headers.few
    have hmax : httpMaxHeaders = 32 := rfl
    refine (lowerNames_card_le _).trans ?_
    rw [List.length_append, List.length_cons]
    show 3 + _ ≤ _
    omega

/-! ## What a program answers itself -/

/-- The targets of the redirects are plain texts that fit in a header, and the sizes of the files
    are numbers of a `size_t`. -/
structure Modest (env : Env) : Prop where
  targets : ∀ route ∈ env.routes, route.type = .reroute →
    Plain route.dest ∧ route.dest.head? ≠ some SP ∧ route.dest.length ≤ 3700
  sizes : ∀ path file n, env.fs.openRead path = some file → file.size = some n → n < SIZE

theorem small_notFound : SmallReply notFound :=
  small_textReply (by decide) (by decide) (by decide) small_textPlain

theorem small_badGateway : SmallReply badGateway :=
  small_textReply (by decide) (by decide) (by decide) small_textPlain

theorem small_notImplemented : SmallReply notImplemented :=
  small_textReply (by decide) (by decide) (by decide) small_textPlain

theorem small_notAllowed : SmallReply notAllowed :=
  small_textReply (by decide) (by decide) (by decide)
    (small_two small_allowed (by decide) (by decide))

theorem small_noContent : SmallReply noContent where
  code := by decide
  reason := ⟨_, rfl, by decide, by decide⟩
  headers := small_allowed
  body := ⟨by decide, by decide, by decide⟩

theorem small_moved {loc : Bytes} (hplain : Plain loc) (hhead : loc.head? ≠ some SP)
    (hlen : loc.length ≤ 3700) : SmallReply (httpMoved loc) := by
  have hname : (ascii "Location").length = 8 := by decide
  refine small_textReply (by decide) (by decide) (by decide) ?_
  exact small_two (small_one (by decide) (by decide) ⟨hplain, hhead⟩ (by omega)) (by decide) (by omega)

/-- A file that is read, or an empty one. -/
theorem small_file (mime : Mime) {content : Option Bytes} (hne : content ≠ some [])
    (hsize : (content.getD []).length < SIZE) :
    SmallReply { httpSetContentType { notFound with code := 200, reason := some (ascii "OK") } mime with
      body := content, bodyLen := (content.getD []).length } where
  code := by
    show -2 ^ 31 ≤ (200 : Int) ∧ (200 : Int) < 2 ^ 31
    decide
  reason := ⟨ascii "OK", rfl, by decide, by decide⟩
  headers := by
    show SmallTable (httpSetContentType
      { notFound with code := 200, reason := some (ascii "OK") } mime).headers.items
    have hvalue : Plain (mimeTypeStr mime) ∧ (mimeTypeStr mime).head? ≠ some SP := by
      cases mime <;> decide
    have hlen : (ascii "Content-Type").length + (mimeTypeStr mime).length ≤ 3796 := by
      cases mime <;> decide
    rw [fileHeaders]
    exact small_one (by decide) (by decide) hvalue hlen
  body := ⟨hne, rfl, hsize⟩

theorem getPath_small {env : Env} (hmodest : Modest env) (url : Bytes) :
    SmallReply (getPath env url) := by
  unfold getPath
  split
  · exact small_textReply (by decide) (by decide) (by decide) small_textPlain
  dsimp only
  split_ifs
  · exact small_notFound
  split
  · exact small_notFound
  rename_i file hfile
  split
  · exact small_notFound
  · exact small_file _ (Option.some_ne_none _).symm (by decide)
  · exact small_notFound
  · rename_i size content hne hsize hcontent
    have hlen := file.length_eq size content hsize hcontent
    rw [← hlen]
    refine small_file _ ?_ (hlen.trans_lt (hmodest.sizes _ file size hfile hsize))
    intro hnil
    rw [Option.some.inj hnil] at hlen
    exact hne hlen.symm

theorem servePath_small {env : Env} (hmodest : Modest env) {req : Http}
    (h : req.method ≠ some .head) : SmallReply (servePath env req) := by
  unfold servePath
  split
  · exact getPath_small hmodest _
  · exact absurd ‹_› h
  all_goals first
    | exact small_notAllowed
    | exact small_noContent
    | exact small_notImplemented

/-- A response that is not relayed fits. -/
theorem fetchResponse_small {env : Env} (hmodest : Modest env) {req : Http}
    (h : req.method ≠ some .head) (hown : relayedFrom env req = none) :
    SmallReply (fetchResponse env req) := by
  unfold relayedFrom at hown
  unfold fetchResponse
  cases hfind : env.routes.find? (routeMatches req) with
  | none => exact servePath_small hmodest h
  | some route =>
    rw [hfind] at hown
    dsimp only at hown ⊢
    unfold routeHandler
    cases htype : route.type with
    | «alias» => exact servePath_small hmodest h
    | reroute =>
      obtain ⟨hplain, hhead, hlen⟩ := hmodest.targets route (List.mem_of_find?_eq_some hfind) htype
      exact small_moved hplain hhead hlen
    | proxy =>
      rw [if_pos htype] at hown
      dsimp only
      unfold handleProxy
      cases hsocket : socketCreateAuto env route.dest with
      | none => exact small_notFound
      | some backend =>
        rw [hsocket, Option.filter_some] at hown
        have hnil : (backend.answer req).length = 0 := by
          by_contra hne
          rw [if_pos (by simpa using hne)] at hown
          cases hown
        dsimp only
        rw [if_pos hnil]
        exact small_badGateway

/-! ## A hop -/

/-- The routing and the handlers read the method and the path of a request. -/
theorem routeMatches_congr {req req' : Http} (hmethod : req'.method = req.method)
    (hpath : req'.path = req.path) : routeMatches req' = routeMatches req := by
  funext route
  unfold routeMatches
  rw [hmethod, hpath]

theorem answer_congr (backend : Backend) {req req' : Http} (hmethod : req'.method = req.method) :
    backend.answer req' = backend.answer req := by
  unfold Backend.answer
  rw [hmethod]

theorem relayedFrom_congr (env : Env) {req req' : Http} (hmethod : req'.method = req.method)
    (hpath : req'.path = req.path) : relayedFrom env req' = relayedFrom env req := by
  unfold relayedFrom
  rw [routeMatches_congr hmethod hpath]
  simp only [answer_congr _ hmethod]

theorem fetchResponse_congr (env : Env) {req req' : Http} (hmethod : req'.method = req.method)
    (hpath : req'.path = req.path) : fetchResponse env req' = fetchResponse env req := by
  have hserve : ∀ p, servePath env { req' with path := p } = servePath env { req with path := p } := by
    intro p
    unfold servePath
    dsimp only
    rw [hmethod]
  have hown : servePath env req' = servePath env req := by
    unfold servePath
    rw [hmethod, hpath]
  have hproxy : ∀ route, handleProxy env req' route = handleProxy env req route := by
    intro route
    unfold handleProxy
    simp only [answer_congr _ hmethod, hmethod]
  have hhandler : ∀ route, routeHandler env req' route = routeHandler env req route := by
    intro route
    unfold routeHandler handleAlias
    rw [hserve, hproxy]
  unfold fetchResponse
  rw [routeMatches_congr hmethod hpath, hown]
  simp only [hhandler]

/-- The bytes that a call of `worker_callback` parses. -/
def ClientCall.received (call : ClientCall) : Bytes :=
  (httpRecvMessage call.base true call.results).1

/-- `strftime` has printed a date into the 32 bytes of `date`, there is memory for the response,
    and the socket takes all of it. -/
structure ClientCall.Undisturbed (call : ClientCall) (response : Http) : Prop where
  date : IsDate call.date
  dateLen : call.date.length < 32
  palloc : call.palloc = true
  took : ∃ n, call.result = .took n ∧ (call.complete response).length ≤ n

theorem ending_taken {call : ClientCall} {fetch : Http → Http} (hne : call.received ≠ [])
    (hpath : (httpRequestParse call.received).path ≠ none) :
    (call.ending fetch).taken = call.taken (fetch (httpRequestParse call.received)) := by
  unfold ClientCall.ending
  unfold ClientCall.received at hne hpath ⊢
  dsimp only
  generalize (httpRecvMessage call.base true call.results).1 = buf at hne hpath ⊢
  rw [if_neg fun h => hne (List.length_eq_zero_iff.mp h)]
  cases hp : (httpRequestParse buf).path with
  | none => exact absurd hp hpath
  | some path =>
    dsimp only
    cases httpIsKeepAlive (httpRequestParse buf) <;> cases call.rearmed <;> rfl

/-- A response that fits is taken whole by an undisturbed call. -/
theorem taken_undisturbed {call : ClientCall} {response : Http} (h : call.Undisturbed response)
    (henc : EncodableResponse call.date response) :
    call.taken response = (responseTexts call.date response).flatten ++ response.body.getD [] := by
  have hsends : call.Sends response := by
    refine ⟨?_, .inr h.palloc, h.took⟩
    exact Nat.lt_succ_of_le henc.fits
  rw [(taken_eq_complete_iff call response).mpr hsends]
  unfold ClientCall.complete
  rw [henc.body.take]

/-- What the next program parses. -/
theorem received_rewritten {req : Http} {header : Bytes} {call : ClientCall}
    (henc : EncodableRequest req) (hheader : header.length = headerSize)
    (hsent : httpSendRequest header req = some call.received) :
    httpRequestParse call.received = rewritten req := by
  have hbytes := sentBytes_fits (requestTexts req) req hheader (Nat.lt_succ_of_le henc.fits)
  rw [henc.body.take] at hbytes
  rw [Option.some.inj (hsent.symm.trans hbytes)]
  exact httpRequestParse_written henc

/-- **One hop.** A request that is passed on arrives as `rewritten`, and the answer to it comes
    back as `relayed`. -/
theorem hop {env next : Env} {req : Http} {backend : Backend} {header : Bytes} {call : ClientCall}
    (henc : EncodableRequest req) (hmethod : req.method ≠ some .head)
    (hrelayed : relayedFrom env req = some backend) (hheader : header.length = headerSize)
    (hsent : httpSendRequest header req = some call.received)
    (hcall : call.Undisturbed (fetchResponse next (httpRequestParse call.received)))
    (hback : backend.answer req = (call.ending (fetchResponse next)).taken)
    (hfits : EncodableResponse call.date (fetchResponse next (rewritten req))) :
    fetchResponse env req = relayed call.date (fetchResponse next (rewritten req)) := by
  have hparse := received_rewritten henc hheader hsent
  have hne : call.received ≠ [] := by
    intro hnil
    rw [hnil] at hparse
    have hnone : (httpRequestParse []).path = none := by decide
    obtain ⟨p, hp, -⟩ := henc.path
    rw [hparse] at hnone
    exact absurd (hp.symm.trans hnone) (Option.some_ne_none p)
  have hpath : (httpRequestParse call.received).path ≠ none := by
    obtain ⟨p, hp, -⟩ := henc.path
    rw [hparse]
    exact fun hnone => absurd (hp.symm.trans hnone) (Option.some_ne_none p)
  rw [ending_taken hne hpath, hparse] at hback
  rw [hparse] at hcall
  rw [taken_undisturbed hcall hfits] at hback
  obtain ⟨hnone, -⟩ | ⟨backend', hsome, hfetch⟩ := fetchResponse_own_or_relayed env hmethod
  · rw [hrelayed] at hnone
    cases hnone
  · rw [hrelayed] at hsome
    rw [hfetch, ← Option.some.inj hsome, hback]
    exact httpResponseParse_written hcall.date hfits

/-! ## Any number of hops -/

/-- The program with `env` answers the request, by way of the programs in between. -/
inductive Serves (origin : Env) : List Bytes → Env → Http → Prop where
  | origin {req : Http} (hown : relayedFrom origin req = none) : Serves origin [] origin req
  | hop {dates : List Bytes} {env next : Env} {req : Http} {backend : Backend} {header : Bytes}
      {call : ClientCall}
      (hrelayed : relayedFrom env req = some backend) (hheader : header.length = headerSize)
      -- What is sent is received by a call of the next program,
      (hsent : httpSendRequest header req = some call.received)
      (hnext : Serves origin dates next (httpRequestParse call.received))
      -- and what its socket takes comes back.
      (hcall : call.Undisturbed (fetchResponse next (httpRequestParse call.received)))
      (hback : backend.answer req = (call.ending (fetchResponse next)).taken) :
      Serves origin (call.date :: dates) env req

/-- The response of the origin at the end of the way: as it is where there is no way, else as it was
    read from the origin. -/
def delivered (dates : List Bytes) (response : Http) : Http :=
  dates.getLast?.elim response fun date => relayed date response

theorem delivered_cons (date : Bytes) {dates : List Bytes} {response : Http}
    (h : ∀ d ∈ dates, EncodableResponse d response) :
    delivered (date :: dates) response = relayed date (delivered dates response) := by
  unfold delivered
  cases hlast : dates.getLast? with
  | none =>
    rw [List.getLast?_eq_none_iff.mp hlast]
    rfl
  | some last =>
    rw [List.getLast?_cons, hlast]
    exact (relayed_relayed date (h last (List.mem_of_getLast? hlast))).symm

/-- The dates of a way are those of undisturbed calls. -/
theorem Serves.dates {origin env : Env} {dates : List Bytes} {req : Http}
    (h : Serves origin dates env req) : ∀ d ∈ dates, IsDate d ∧ d.length < 32 := by
  induction h with
  | origin => exact fun _ hd => absurd hd List.not_mem_nil
  | hop _ _ _ _ hcall _ ih =>
    intro d hd
    obtain rfl | hd := List.mem_cons.mp hd
    · exact ⟨hcall.date, hcall.dateLen⟩
    · exact ih d hd

/-- What is delivered can be written once more. -/
theorem delivered_encodable {dates : List Bytes} {response : Http} (h : SmallReply response)
    (hdates : ∀ d ∈ dates, IsDate d ∧ d.length < 32) {date : Bytes} (hdate : date.length < 32) :
    EncodableResponse date (delivered dates response) := by
  unfold delivered
  cases hlast : dates.getLast? with
  | none => exact (h.encodable hdate).1
  | some last =>
    obtain ⟨hisDate, hlen⟩ := hdates last (List.mem_of_getLast? hlast)
    obtain ⟨henc, hfits⟩ := h.encodable hlen
    exact relayed_encodable hisDate henc (by omega)

theorem serves_delivered {origin : Env} (hmodest : Modest origin) {dates : List Bytes} {env : Env}
    {req : Http} (h : Serves origin dates env req) (henc : EncodableRequest req)
    (hmethod : req.method ≠ some .head) :
    SmallReply (fetchResponse origin req) ∧
      fetchResponse env req = delivered dates (fetchResponse origin req) := by
  induction h with
  | origin hown => exact ⟨fetchResponse_small hmodest hmethod hown, rfl⟩
  | @hop dates env next req backend header call hrelayed hheader hsent hnext hcall hback ih =>
    have hparse := received_rewritten henc hheader hsent
    rw [hparse] at ih
    obtain ⟨hsmall, hdelivered⟩ := ih (rewritten_encodable henc) hmethod
    have hsame : fetchResponse origin (rewritten req) = fetchResponse origin req :=
      fetchResponse_congr origin rfl rfl
    rw [hsame] at hsmall hdelivered
    have hfits : EncodableResponse call.date (fetchResponse next (rewritten req)) := by
      rw [hdelivered]
      exact delivered_encodable hsmall hnext.dates hcall.dateLen
    refine ⟨hsmall, ?_⟩
    rw [hop henc hmethod hrelayed hheader hsent hcall hback hfits, hdelivered]
    rw [delivered_cons call.date fun d hd => (hsmall.encodable (hnext.dates d hd).2).1]

/-- **Any number of programs in between change nothing.** For every request that can be written and
    is not HEAD, the program at the front answers with the status, the body and every header of what
    `origin` answers; what it answers is what the first program behind `origin` has read, Date and
    all, however many more there are. -/
theorem hops_transparent {origin : Env} (hmodest : Modest origin) {dates : List Bytes} {env : Env}
    {req : Http} (h : Serves origin dates env req) (henc : EncodableRequest req)
    (hmethod : req.method ≠ some .head) :
    SameResponse (fetchResponse origin req) (fetchResponse env req) ∧
      fetchResponse env req = delivered dates (fetchResponse origin req) := by
  obtain ⟨hsmall, hdelivered⟩ := serves_delivered hmodest h henc hmethod
  refine ⟨?_, hdelivered⟩
  rw [hdelivered]
  unfold delivered
  cases hlast : dates.getLast? with
  | none => exact ⟨rfl, rfl, rfl, rfl, fun _ _ => rfl⟩
  | some last =>
    have hlen := (h.dates last (List.mem_of_getLast? hlast)).2
    exact sameResponse_relayed (hsmall.encodable hlen).1

/-! ## Two programs in front of a third -/

theorem clear_header_length : (List.replicate headerSize (0 : Byte)).length = headerSize :=
  List.length_replicate

/-- A call that receives the bytes in one chunk, on a socket with room for the response. -/
def quickCall (bytes : Bytes) : ClientCall where
  results := [.data bytes [] 65536]
  base := 65536
  rearmed := true
  header := List.replicate headerSize 0
  header_length := clear_header_length
  date := sampleDate
  palloc := true
  result := .took headerSize

theorem recvMessage_single (expectBody : Bool) (base : Nat) (bytes : Bytes)
    {rest : List RecvResult} (hrest : rest = [] ∨ rest = [.stop]) :
    (httpRecvMessage base expectBody (.data bytes [] 65536 :: rest)).1 = bytes := by
  have hlast : ∀ s : RecvState, (recvLoop expectBody s rest).1 = s := by
    intro s
    obtain rfl | rfl := hrest <;> rfl
  unfold httpRecvMessage recvLoop
  dsimp only
  split_ifs
  · rw [recvData_buf]
    rfl
  · rw [hlast, recvGrow_buf, recvData_buf]
    rfl

theorem quickCall_received (bytes : Bytes) : (quickCall bytes).received = bytes :=
  recvMessage_single true _ bytes (.inl rfl)

/-- A program that answers `POST` itself, with its refusal. -/
def plainOrigin : Env where
  approot := none
  fs := { realpath := fun _ => none, openRead := fun _ => none }
  routes := []
  connect := fun _ => none

def sampleFormBytes : Bytes := (requestTexts sampleForm).flatten ++ sampleForm.body.getD []

/-- A program that passes everything on to the given one. -/
def inFrontOf (next : Env) : Env :=
  proxyEnv ((quickCall sampleFormBytes).ending (fetchResponse next)).taken

theorem sampleForm_sent {req : Http}
    (h : (requestTexts req).flatten = (requestTexts sampleForm).flatten)
    (hbody : req.body = sampleForm.body) (hlen : req.bodyLen = sampleForm.bodyLen) :
    httpSendRequest (List.replicate headerSize 0) req =
      some (quickCall sampleFormBytes).received := by
  have hfits : (requestTexts req).flatten.length < headerSize := by
    rw [h]
    decide
  rw [quickCall_received]
  unfold httpSendRequest
  rw [sentBytes_fits _ _ List.length_replicate hfits, h, hbody, hlen]
  rfl

theorem answer_single (answer : Bytes) (req : Http) :
    (⟨65536, [.data answer [] 65536, .stop]⟩ : Backend).answer req = answer :=
  recvMessage_single _ _ answer (.inr rfl)

theorem relayedFrom_proxyEnv {answer : Bytes} (hne : answer ≠ []) {req : Http}
    (hmethod : req.method = sampleForm.method) (hpath : req.path = sampleForm.path) :
    relayedFrom (proxyEnv answer) req = some ⟨65536, [.data answer [] 65536, .stop]⟩ := by
  have hroute : (proxyEnv answer).routes.find? (routeMatches sampleForm) =
      some ⟨.proxy, 511, ascii "/", ascii "http://127.0.0.1:8000", by decide⟩ := by
    show (proxyEnv []).routes.find? (routeMatches sampleForm) = _
    decide
  have hsocket : socketCreateAuto (proxyEnv answer) (ascii "http://127.0.0.1:8000") =
      some ⟨65536, [.data answer [] 65536, .stop]⟩ := rfl
  rw [relayedFrom_congr _ hmethod hpath]
  unfold relayedFrom
  rw [hroute]
  dsimp only
  rw [if_pos rfl, hsocket, Option.filter_some, if_pos]
  rw [answer_single]
  simpa using hne

theorem quickCall_undisturbed {response : Http}
    (h : ((quickCall sampleFormBytes).complete response).length ≤ headerSize) :
    (quickCall sampleFormBytes).Undisturbed response where
  date := ⟨by decide, by decide⟩
  dateLen := by decide
  palloc := rfl
  took := ⟨headerSize, rfl, h⟩

/-- One more program in front. -/
theorem serves_inFrontOf {dates : List Bytes} {next : Env} {req response : Http}
    (hreq : req = sampleForm ∨ req = rewritten sampleForm)
    (hnext : Serves plainOrigin dates next (rewritten sampleForm))
    (hfetch : fetchResponse next (rewritten sampleForm) = response)
    (henc : EncodableResponse sampleDate response)
    (hshort : ((quickCall sampleFormBytes).complete response).length ≤ headerSize) :
    Serves plainOrigin (sampleDate :: dates) (inFrontOf next) req := by
  have hparse : httpRequestParse (quickCall sampleFormBytes).received = rewritten sampleForm := by
    rw [quickCall_received]
    exact httpRequestParse_written sampleForm_encodable
  have hsent : httpSendRequest (List.replicate headerSize 0) req =
      some (quickCall sampleFormBytes).received := by
    obtain rfl | rfl := hreq
    · exact sampleForm_sent rfl rfl rfl
    · exact sampleForm_sent (requestTexts_rewritten sampleForm_encodable) rfl rfl
  have hsame : req.method = sampleForm.method ∧ req.path = sampleForm.path := by
    obtain rfl | rfl := hreq <;> exact ⟨rfl, rfl⟩
  have hcall := quickCall_undisturbed hshort
  have hne : ((quickCall sampleFormBytes).ending (fetchResponse next)).taken ≠ [] := by
    rw [ending_taken, hparse, hfetch, taken_undisturbed hcall henc]
    · exact List.append_ne_nil_of_left_ne_nil (by simp [responseTexts, ascii]) _
    · rw [quickCall_received]
      decide
    · rw [hparse]
      decide
  rw [← hfetch, ← hparse] at hcall
  rw [← hparse] at hnext
  exact Serves.hop (relayedFrom_proxyEnv hne hsame.1 hsame.2) List.length_replicate hsent hnext hcall
    (answer_single _ req)

theorem modest_plainOrigin : Modest plainOrigin := by
  refine ⟨fun _ h => absurd h List.not_mem_nil, ?_⟩
  intro _ _ _ h
  cases h

theorem serves_two : Serves plainOrigin [sampleDate, sampleDate]
    (inFrontOf (inFrontOf plainOrigin)) sampleForm := by
  have hnotAllowed : EncodableResponse sampleDate notAllowed ∧
      (responseTexts sampleDate notAllowed).flatten.length ≤ 4000 :=
    small_notAllowed.encodable (by decide)
  have hmiddle : Serves plainOrigin [sampleDate] (inFrontOf plainOrigin) (rewritten sampleForm) :=
    serves_inFrontOf (.inr rfl) (.origin rfl) rfl hnotAllowed.1 (by decide +kernel)
  have hfetch : fetchResponse (inFrontOf plainOrigin) (rewritten sampleForm) =
      relayed sampleDate notAllowed :=
    (serves_delivered modest_plainOrigin hmiddle (rewritten_encodable sampleForm_encodable)
      (by decide)).2
  have hdate : IsDate sampleDate ∧ sampleDate.length < 32 := by
    unfold IsDate
    decide
  refine serves_inFrontOf (.inl rfl) hmiddle hfetch ?_ (by decide +kernel)
  exact relayed_encodable hdate.1 hnotAllowed.1 (by omega)

/-- A form that two programs pass on. -/
theorem hops_transparent_two :
    SameResponse (fetchResponse plainOrigin sampleForm)
        (fetchResponse (inFrontOf (inFrontOf plainOrigin)) sampleForm) ∧
      fetchResponse (inFrontOf (inFrontOf plainOrigin)) sampleForm =
        delivered [sampleDate, sampleDate] (fetchResponse plainOrigin sampleForm) :=
  hops_transparent modest_plainOrigin serves_two sampleForm_encodable (by decide)

end Foxtails.Serve
