/-
  Responses to HEAD.

  Each handler drops the body on its own: `serve_path` in its HEAD case, `handle_proxy` after
  it parsed an answer. A redirect, and the replies `handle_proxy` makes itself, keep theirs.

  * `httpSendResponse_headOnly_iff`: nothing is written behind the header exactly when there is
    no body to write.
  * `head_iff`: the response to HEAD has no body exactly when the request is not redirected and
    a backend that is asked answers.
-/
import Foxtails.Serve.Fetch

namespace Foxtails.Serve

open Foxtails.Lib.Scan Foxtails.Lib.Libc Foxtails.Wire

/-! ## Bytes behind the header -/

/-- No byte of the response is written behind its blank line, whenever its header fits. -/
def HeadOnly (response : Http) : Prop :=
  ∀ header date : Bytes, header.length = headerSize →
    (responseTexts date response).flatten.length < headerSize →
    httpSendResponse header date response = some (responseTexts date response).flatten

theorem httpSendResponse_headOnly_iff {response : Http} {header date : Bytes}
    (hlen : header.length = headerSize)
    (hfits : (responseTexts date response).flatten.length < headerSize) :
    httpSendResponse header date response = some (responseTexts date response).flatten ↔
      (response.body.getD []).take response.bodyLen = [] := by
  rw [httpSendResponse, sentBytes_fits _ response hlen hfits, Option.some.injEq,
    List.append_right_eq_self]

theorem headOnly_of_no_body {response : Http} (h : response.body = none) : HeadOnly response := by
  intro header date hlen hfits
  rw [httpSendResponse_headOnly_iff hlen hfits, h]
  simp

/-! ## Which handlers drop the body -/

theorem servePath_head (env : Env) {req : Http} (h : req.method = some .head) :
    (servePath env req).body = none := by
  unfold servePath
  rw [h]

/-- The backend of a proxy can be reached and sends something. -/
def Answers (env : Env) (req : Http) (route : Route) : Prop :=
  ∃ backend, socketCreateAuto env route.dest = some backend ∧ backend.answer req ≠ []

theorem handleProxy_head (env : Env) {req : Http} (route : Route)
    (h : req.method = some .head) :
    (handleProxy env req route).body = none ↔ Answers env req route := by
  unfold handleProxy Answers
  cases socketCreateAuto env route.dest with
  | none =>
    -- `NOT_FOUND` has a text.
    refine ⟨fun hbody => (by cases hbody), ?_⟩
    rintro ⟨_, hnone, -⟩
    cases hnone
  | some backend =>
    by_cases hnil : backend.answer req = []
    · simp only [hnil, List.length_nil, if_true]
      refine ⟨fun hbody => (by cases hbody), ?_⟩
      rintro ⟨_, ⟨⟩, hne⟩
      exact absurd hnil hne
    · simp only [List.length_eq_zero_iff, hnil, if_false, h, if_true]
      exact ⟨fun _ => ⟨backend, rfl, hnil⟩, fun _ => trivial⟩

/-- The request is not redirected, and a proxy it goes to answers. -/
def NotRedirectedAndAnswered (env : Env) (req : Http) : Prop :=
  ∀ route, env.routes.find? (routeMatches req) = some route →
    route.type ≠ .reroute ∧ (route.type = .proxy → Answers env req route)

/-- **The response to HEAD has no body, and nothing is written behind its header, exactly when
    the request is not redirected and a proxy it goes to answers.** -/
theorem head_iff (env : Env) (req : Http) (h : req.method = some .head) :
    ((fetchResponse env req).body = none ∧ HeadOnly (fetchResponse env req)) ↔
      NotRedirectedAndAnswered env req := by
  have hbody : ((fetchResponse env req).body = none ∧ HeadOnly (fetchResponse env req)) ↔
      (fetchResponse env req).body = none :=
    ⟨fun hboth => hboth.1, fun hnone => ⟨hnone, headOnly_of_no_body hnone⟩⟩
  rw [hbody]
  unfold fetchResponse NotRedirectedAndAnswered
  cases env.routes.find? (routeMatches req) with
  | none => exact ⟨fun _ _ hsome => (by cases hsome), fun _ => servePath_head env h⟩
  | some route =>
    simp only [Option.some.injEq, forall_eq']
    unfold routeHandler
    cases htype : route.type with
    | «alias» =>
      have halias : (handleAlias env req route).body = none := servePath_head env h
      simp [halias]
    | reroute =>
      have hmoved : (handleReroute route).body ≠ none := fun hnone => by cases hnone
      simp [hmoved]
    | proxy => simp [handleProxy_head env route h]

/-! ## A redirect -/

/-- A redirect for GET and HEAD. -/
def movedEnv : Env where
  approot := none
  fs := { realpath := fun _ => none, openRead := fun _ => none }
  routes := [⟨.reroute, Method.mask .get ||| Method.mask .head, ascii "/old", ascii "/new", by decide⟩]
  connect := fun _ => none

def headOld : Http := { method := some .head, path := some (ascii "/old") }

theorem head_redirect_keeps_body :
    headOld.method = some .head ∧
      ¬ ((fetchResponse movedEnv headOld).body = none ∧ HeadOnly (fetchResponse movedEnv headOld)) := by
  refine ⟨rfl, fun h => ?_⟩
  have hbody : (fetchResponse movedEnv headOld).body = some (ascii "Moved Permanently") := by rfl
  rw [hbody] at h
  exact absurd h.1 (by decide)

/-- A path without a route is answered without a body. -/
theorem head_iff_unrouted :
    NotRedirectedAndAnswered { movedEnv with routes := [] } headOld ∧
      (fetchResponse { movedEnv with routes := [] } headOld).body = none ∧
      HeadOnly (fetchResponse { movedEnv with routes := [] } headOld) :=
  have hroutes : NotRedirectedAndAnswered { movedEnv with routes := [] } headOld :=
    fun _ hsome => (by cases hsome)
  ⟨hroutes, (head_iff { movedEnv with routes := [] } headOld rfl).mpr hroutes⟩

end Foxtails.Serve
