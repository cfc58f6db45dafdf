/-
  What the client's socket takes of a response.

  `http_send_response` makes one call of `send` on a socket that does not block, and returns
  nothing; `worker_callback` decides without it whether the connection stays. A `send` that fails
  is taken to return: the source sets neither `MSG_NOSIGNAL` nor a handler for SIGPIPE, and a
  client that has closed its side would end the program there.
  `ClientCall.ending` is a call of the callback with that `send` in it.

  * `sentBytes_complete_iff`: what is passed to `send` is the whole message exactly when the
    header fits.
  * `delivered_iff`: a connection that is kept has taken its whole response, and one that is
    not is removed, exactly when the connection is closed anyway, or the header fits, there is
    memory for the message and `send` takes every byte.
  * `wire_eq`: then a connection takes the responses of its calls one after the other.
-/
import Foxtails.Serve.Connection
import Foxtails.Wire.Send

namespace Foxtails.Serve

open Foxtails.Lib.Scan Foxtails.Lib.Libc Foxtails.Wire

/-! ## The whole message -/

theorem fillHeader_length (texts : List Bytes) (s : HeaderState) :
    (fillHeader s texts).header.length = s.header.length := by
  unfold fillHeader
  induction texts generalizing s with
  | nil => rfl
  | cons text texts ih =>
    rw [List.foldl_cons, ih]
    exact store_length _ _ _

/-- A header one byte too long: the last text loses its last byte to the NUL. -/
theorem fillHeader_exact (texts : List Bytes) {header : Bytes}
    (hlen : header.length = headerSize) (h : texts.flatten.length + 2 = headerSize) :
    ∃ front, (fillHeader { header := header } (texts ++ [[CR, LF]])).header = front ++ [CR, NUL] := by
  have hsize : headerSize = 4096 := rfl
  obtain ⟨h1, h2, -⟩ := fillHeader_fits texts (s := { header := header }) hlen
    (by show 0 + _ < _; omega)
  have hoff : (fillHeader { header := header } texts).headerLen = 4094 := by
    rw [h2]
    show 0 + _ = _
    omega
  have hfill : (fillHeader { header := header } (texts ++ [[CR, LF]])).header =
      store (fillHeader { header := header } texts).header 4094 ([CR, NUL] ++ []) := by
    rw [fillHeader, List.foldl_append, List.foldl_cons, List.foldl_nil, ← fillHeader]
    simp only [printText, snprintfCall, hoff]
    rfl
  refine ⟨(fillHeader { header := header } texts).header.take 4094, ?_⟩
  rw [hfill, ← take_store _ 4094 [CR, NUL] [] (by rw [h1]; decide)]
  rw [List.take_of_length_le (by rw [store_length, h1]; decide)]

/-- What is passed to `send` begins with the header and the body only if the header fits. -/
theorem fits_of_sentBytes {texts : List Bytes} {header bytes : Bytes} {msg : Http}
    (hlen : header.length = headerSize)
    (hsent : sentBytes (fillHeader { header := header } (texts ++ [[CR, LF]])) msg = some bytes)
    (hpre : (texts ++ [[CR, LF]]).flatten ++ (msg.body.getD []).take msg.bodyLen <+: bytes) :
    (texts ++ [[CR, LF]]).flatten.length < headerSize := by
  set s := fillHeader { header := header } (texts ++ [[CR, LF]]) with hs
  have hslen : s.header.length = headerSize := (fillHeader_length _ _).trans hlen
  have hflat : (texts ++ [[CR, LF]]).flatten = texts.flatten ++ [CR, LF] := by
    rw [List.flatten_append, List.flatten_singleton]
  rw [hflat, List.append_assoc] at hpre
  rw [hflat, List.length_append]
  have hcrlf : [CR, LF].length = 2 := rfl
  by_contra hge
  have hfit : s.headerLen ≤ s.header.length := by
    by_contra hgt
    rw [sentBytes, if_neg hgt] at hsent
    cases hsent
  have hbytes : bytes = s.header.take s.headerLen ++ (msg.body.getD []).take msg.bodyLen := by
    rw [sentBytes, if_pos hfit] at hsent
    cases hbody : msg.body with
    | none => simpa [hbody] using hsent.symm
    | some body => simpa [hbody] using hsent.symm
  -- By the lengths the buffer is full, and its last byte is the NUL.
  have hlength := hpre.length_le
  simp only [hbytes, List.length_append, List.length_take_of_le hfit] at hlength
  have hfull : s.header.take s.headerLen = s.header := List.take_of_length_le (by omega)
  obtain ⟨front, hfront⟩ := fillHeader_exact texts hlen (by omega)
  obtain ⟨rest, hrest⟩ := hpre
  rw [hbytes, hfull, hs, hfront] at hrest
  have hfrontLen : front.length = texts.flatten.length := by
    have h := congrArg List.length hfront
    rw [List.length_append, ← hs] at h
    have hnul : [CR, NUL].length = 2 := rfl
    omega
  simp only [List.append_assoc] at hrest
  have htail := (List.append_inj hrest hfrontLen.symm).2
  exact absurd (List.append_inj htail rfl).1 (by decide)

/-- What `http_send_response` passes to `send` begins with the whole message exactly when the
    header fits; it is nothing else then. -/
theorem response_prefix_iff {header : Bytes} (date : Bytes) (response : Http)
    (hlen : header.length = headerSize) :
    (∃ bytes, httpSendResponse header date response = some bytes ∧
        (responseTexts date response).flatten ++
          (response.body.getD []).take response.bodyLen <+: bytes) ↔
      (responseTexts date response).flatten.length < headerSize := by
  refine ⟨fun ⟨bytes, hsent, hpre⟩ => fits_of_sentBytes hlen hsent hpre, fun hfits => ?_⟩
  exact ⟨_, sentBytes_fits _ response hlen hfits, List.prefix_rfl⟩

/-! ## Sending -/

/-- `send` on a socket that does not block: an error, or how many of the bytes it took. -/
inductive SendResult where
  | error
  | took (n : Nat)
  deriving DecidableEq, Repr

/-- The bytes that are in the socket after `send`. -/
def SendResult.taken : SendResult → Bytes → Bytes
  | .error, _ => []
  | .took n, bytes => bytes.take n

/-- What a call of `worker_callback` meets: the results of `recv` and of `malloc`, whether
    `EPOLL_CTL_MOD` succeeds, and for its response the bytes on the stack where `header` is,
    the date, whether `palloc` succeeds, and the result of `send`. -/
structure ClientCall where
  results : List RecvResult
  base : Nat
  rearmed : Bool
  header : Bytes
  header_length : header.length = headerSize
  date : Bytes
  palloc : Bool
  result : SendResult

/-- The bytes the socket takes of a response. A body is first copied behind its header. -/
def ClientCall.taken (call : ClientCall) (response : Http) : Bytes :=
  if response.body.isSome && !call.palloc then []
  else
    match httpSendResponse call.header call.date response with
    | some bytes => call.result.taken bytes
    | none => []

/-- The response, header and body. -/
def ClientCall.complete (call : ClientCall) (response : Http) : Bytes :=
  (responseTexts call.date response).flatten ++ (response.body.getD []).take response.bodyLen

/-- How a call of `worker_callback` ends. -/
structure Ending where
  response : Option Http
  taken : Bytes
  armed : Bool
  removed : Bool

/-- `worker_callback`, with the `send` of its response. -/
def ClientCall.ending (fetch : Http → Http) (call : ClientCall) : Ending :=
  let (buf, _) := httpRecvMessage call.base true call.results
  if buf.length = 0 then { response := none, taken := [], armed := false, removed := true }
  else
    let req := httpRequestParse buf
    match req.path with
    | none => { response := some req, taken := call.taken req, armed := false, removed := true }
    | some _ =>
      let response := fetch req
      if httpIsKeepAlive req then
        if call.rearmed then
          { response := some response, taken := call.taken response, armed := true,
            removed := false }
        else
          { response := some response, taken := call.taken response, armed := false,
            removed := true }
      else
        { response := some response, taken := call.taken response, armed := false,
          removed := true }

/-- It is the callback of `Connection`. -/
theorem ending_callback (fetch : Http → Http) (call : ClientCall) :
    (call.ending fetch).response =
        (workerCallback fetch call.rearmed call.base call.results).sent ∧
      (call.ending fetch).armed =
        (workerCallback fetch call.rearmed call.base call.results).kept := by
  unfold ClientCall.ending workerCallback
  dsimp only
  generalize (httpRecvMessage call.base true call.results).1 = buf
  by_cases hnil : buf.length = 0
  · simp [hnil]
  · rw [if_neg hnil, if_neg hnil]
    cases (httpRequestParse buf).path with
    | none => exact ⟨rfl, rfl⟩
    | some path =>
      dsimp only
      cases httpIsKeepAlive (httpRequestParse buf) <;> cases call.rearmed <;> exact ⟨rfl, rfl⟩

/-! ## Delivered -/

/-- A connection that stays has taken its whole response; one that does not is removed. -/
def Ending.Delivered (call : ClientCall) (e : Ending) : Prop :=
  (e.armed = true → ∃ response, e.response = some response ∧ e.taken = call.complete response) ∧
    (e.armed = false → e.removed = true)

/-- The header fits, there is memory for the message, and `send` takes all of it. -/
def ClientCall.Sends (call : ClientCall) (response : Http) : Prop :=
  (responseTexts call.date response).flatten.length < headerSize ∧
    (response.body = none ∨ call.palloc = true) ∧
    ∃ n, call.result = .took n ∧ (call.complete response).length ≤ n

/-- The call receives a request that is answered, and arms the connection again. -/
def ClientCall.Keeps (call : ClientCall) (req : Http) : Prop :=
  (httpRecvMessage call.base true call.results).1 ≠ [] ∧
    httpRequestParse (httpRecvMessage call.base true call.results).1 = req ∧ req.path ≠ none ∧
    httpIsKeepAlive req = true ∧ call.rearmed = true

theorem complete_ne_nil (call : ClientCall) (response : Http) : call.complete response ≠ [] := by
  intro hnil
  have hlen := congrArg List.length hnil
  simp only [ClientCall.complete, responseTexts, List.flatten_append, List.flatten_singleton,
    List.length_append, List.length_nil] at hlen
  have hcrlf : (ascii "\r\n").length = 2 := rfl
  omega

/-- A prefix of the message is taken, so all of it only when it is passed on and taken. -/
theorem taken_eq_complete_iff (call : ClientCall) (response : Http) :
    call.taken response = call.complete response ↔ call.Sends response := by
  have hne : call.complete response ≠ [] := complete_ne_nil call response
  unfold ClientCall.Sends
  by_cases hmem : response.body = none ∨ call.palloc = true
  · have hif : (response.body.isSome && !call.palloc) = false := by
      rcases hmem with hnone | hpalloc
      · simp [hnone]
      · simp [hpalloc]
    rw [ClientCall.taken, if_neg (by simp [hif])]
    cases hsent : httpSendResponse call.header call.date response with
    | none =>
      refine ⟨fun h => absurd h.symm hne, fun ⟨hfits, _⟩ => ?_⟩
      rw [httpSendResponse, sentBytes_fits _ response call.header_length hfits] at hsent
      cases hsent
    | some bytes =>
      constructor
      · intro h
        cases hresult : call.result with
        | error =>
          rw [hresult] at h
          exact absurd h.symm hne
        | took n =>
          rw [hresult] at h
          have htake : bytes.take n = call.complete response := h
          have hpre : call.complete response <+: bytes := htake ▸ List.take_prefix n bytes
          have hfits := (response_prefix_iff call.date response call.header_length).mp
            ⟨bytes, hsent, hpre⟩
          exact ⟨hfits, hmem, n, rfl, htake ▸ List.length_take_le n bytes⟩
      · rintro ⟨hfits, -, n, hresult, hn⟩
        rw [httpSendResponse, sentBytes_fits _ response call.header_length hfits,
          Option.some.injEq] at hsent
        rw [hresult, ← hsent]
        exact List.take_of_length_le hn
  · have hif : (response.body.isSome && !call.palloc) = true := by
      push Not at hmem
      simp [Option.isSome_iff_ne_none, hmem.1, hmem.2]
    rw [ClientCall.taken, if_pos hif]
    simp [hne.symm, hmem]

/-- The end of the callback, in terms of what it keeps. -/
theorem ending_armed_iff (fetch : Http → Http) (call : ClientCall) :
    ((call.ending fetch).armed = false → (call.ending fetch).removed = true) ∧
      ((call.ending fetch).armed = true ↔ ∃ req, call.Keeps req) ∧
      ∀ req, call.Keeps req → (call.ending fetch).response = some (fetch req) ∧
        (call.ending fetch).taken = call.taken (fetch req) := by
  unfold ClientCall.ending ClientCall.Keeps
  dsimp only
  generalize (httpRecvMessage call.base true call.results).1 = buf
  by_cases hnil : buf = []
  · simp [hnil]
  rw [if_neg fun h => hnil (List.length_eq_zero_iff.mp h)]
  cases hpath : (httpRequestParse buf).path with
  | none => simp [hpath]
  | some path =>
    dsimp only
    cases hkeep : httpIsKeepAlive (httpRequestParse buf) <;> cases call.rearmed <;>
      simp [hnil, hpath, hkeep]

/-- **A connection that stays has taken its whole response, and one that does not is removed,
    exactly when it does not stay anyway, or the header fits, there is memory, and `send` takes
    every byte.** -/
theorem delivered_iff (fetch : Http → Http) (call : ClientCall) :
    (call.ending fetch).Delivered call ↔ ∀ req, call.Keeps req → call.Sends (fetch req) := by
  obtain ⟨hremoved, harmed, hkeeps⟩ := ending_armed_iff fetch call
  constructor
  · intro hdelivered req hkeep
    obtain ⟨hresponse, htaken⟩ := hkeeps req hkeep
    obtain ⟨response, hsome, hcomplete⟩ := hdelivered.1 (harmed.mpr ⟨req, hkeep⟩)
    rw [hresponse, Option.some.injEq] at hsome
    subst hsome
    rw [htaken] at hcomplete
    exact (taken_eq_complete_iff call _).mp hcomplete
  · intro hsends
    refine ⟨fun h => ?_, hremoved⟩
    obtain ⟨req, hkeep⟩ := harmed.mp h
    obtain ⟨hresponse, htaken⟩ := hkeeps req hkeep
    exact ⟨_, hresponse, htaken.trans ((taken_eq_complete_iff call _).mpr (hsends req hkeep))⟩

/-! ## A connection -/

/-- The calls of a connection that was kept after each of them have put the responses into the
    socket one after the other, if every call could send its own. -/
theorem wire_eq (fetch : Http → Http) (calls : List ClientCall)
    (hkept : ∀ call ∈ calls, (call.ending fetch).armed = true)
    (hsends : ∀ call ∈ calls, ∀ req, call.Keeps req → call.Sends (fetch req)) :
    ∃ responses, calls.map (fun call => (call.ending fetch).response) = responses.map some ∧
      calls.flatMap (fun call => (call.ending fetch).taken) =
        (List.zipWith ClientCall.complete calls responses).flatten := by
  induction calls with
  | nil => exact ⟨[], rfl, rfl⟩
  | cons call calls ih =>
    obtain ⟨responses, hresponses, hwire⟩ :=
      ih (fun c hc => hkept c (List.mem_cons_of_mem call hc))
        (fun c hc => hsends c (List.mem_cons_of_mem call hc))
    have hdelivered := (delivered_iff fetch call).mpr (hsends call List.mem_cons_self)
    obtain ⟨response, hsome, htaken⟩ := hdelivered.1 (hkept call List.mem_cons_self)
    refine ⟨response :: responses, ?_, ?_⟩
    · rw [List.map_cons, List.map_cons, hsome, hresponses]
    · rw [List.flatMap_cons, htaken, hwire, List.zipWith_cons_cons, List.flatten_cons]

/-! ## A full socket -/

/-- A request whose response does not fit the socket: `send` takes one byte. -/
def slowClient : ClientCall where
  results := [.data (ascii "GET / HTTP/1.1\r\n\r\n") [] 0]
  base := 0
  rearmed := true
  header := List.replicate headerSize 0
  header_length := List.length_replicate
  date := ascii "Thu, 01 Jan 1970 00:00:00 GMT"
  palloc := true
  result := .took 1

theorem short_send_kept :
    (slowClient.ending fun _ => notFound).armed = true ∧
      ¬ (slowClient.ending fun _ => notFound).Delivered slowClient := by
  have harmed : (slowClient.ending fun _ => notFound).armed = true := by decide +kernel
  refine ⟨harmed, fun h => ?_⟩
  obtain ⟨response, hresponse, htaken⟩ := h.1 harmed
  have hnotFound : (slowClient.ending fun _ => notFound).response = some notFound := by
    decide +kernel
  rw [hnotFound, Option.some.injEq] at hresponse
  subst hresponse
  have hone : (slowClient.ending fun _ => notFound).taken.length = 1 := by decide +kernel
  have hmore : (slowClient.complete notFound).length ≠ 1 := by decide +kernel
  exact hmore (htaken ▸ hone)

end Foxtails.Serve
