/-
  Which route answers a request.

  The loop of `fetch_response` leaves with the first route that `routeMatches`. `routes.conf`
  calls the second column a mountpoint: a proxy answers for its own path and for what lies
  below it. `verify_url` decides "below" by looking at the byte behind the prefix; the loop
  does not, so a proxy mounted at `/api` also takes `/apiary`.

  * `fetchResponse_eq_answer`: the response is that of the route the loop leaves with.
  * `mounted_iff`: that route is the first one mounted for the path, and there is none exactly
    when none is mounted, unless a proxy whose mountpoint is a mere byte prefix of the path
    comes before all of those.
-/
import Foxtails.Serve.Confine

namespace Foxtails.Serve

open Foxtails.Lib.Scan Foxtails.Lib.Libc Foxtails.Wire

abbrev QUESTION : Byte := 63

/-! ## Mountpoints -/

/-- The path starts with `src`, and `src` ends at a boundary of the path: it ends in a slash,
    or a slash or the query follows. -/
def isAbove (src path : Bytes) : Bool :=
  src.isPrefixOf path &&
    (src.getLast? == some SLASH || path[src.length]? == some SLASH ||
      path[src.length]? == some QUESTION)

/-- The route takes the request's method. -/
def Route.takes (route : Route) (req : Http) : Bool :=
  route.methods &&& (req.method.elim 0 Method.mask) != 0

/-- The route takes the request's method and is mounted at the path or, a proxy, above it. -/
def mountedFor (req : Http) (route : Route) : Bool :=
  route.takes req &&
    (req.path == some route.src ||
      (route.type == .proxy && isAbove route.src (req.path.getD [])))

/-- A proxy whose mountpoint is a byte prefix of the path, though neither the path nor above
    it. -/
def capturedBy (req : Http) (route : Route) : Prop :=
  route.takes req = true ∧ route.type = .proxy ∧ req.path ≠ some route.src ∧
    route.src <+: req.path.getD [] ∧ isAbove route.src (req.path.getD []) = false

theorem routeMatches_of_mountedFor {req : Http} {route : Route}
    (h : mountedFor req route = true) : routeMatches req route = true := by
  unfold mountedFor isAbove at h
  unfold routeMatches
  rw [Bool.and_eq_true] at h ⊢
  refine ⟨h.1, ?_⟩
  rw [Bool.or_eq_true] at h ⊢
  refine h.2.imp_right fun hproxy => ?_
  rw [Bool.and_eq_true, Bool.and_eq_true] at hproxy
  rw [Bool.and_eq_true]
  exact ⟨hproxy.1, hproxy.2.1⟩

/-- The loop's test passes more than the mounted routes: those that capture the path. -/
theorem routeMatches_and_not_mountedFor {req : Http} {route : Route} :
    routeMatches req route = true ∧ mountedFor req route = false ↔ capturedBy req route := by
  have htest : routeMatches req route = (route.takes req &&
    (req.path == some route.src ||
      (route.type == .proxy && route.src.isPrefixOf (req.path.getD [])))) := rfl
  rw [htest]
  unfold mountedFor capturedBy
  rw [← List.isPrefixOf_iff_prefix]
  by_cases hpath : req.path = some route.src
  · cases route.takes req <;> simp [hpath]
  · have hne : (req.path == some route.src) = false := by simpa using hpath
    rw [hne]
    cases route.takes req <;> cases route.src.isPrefixOf (req.path.getD []) <;>
      by_cases htype : route.type = .proxy <;> simp [htype, hpath, isAbove]

/-! ## The route that answers -/

/-- The place in the table of the route with which the loop of `fetch_response` leaves. -/
def usedRoute (env : Env) (req : Http) : Option Nat := env.routes.findIdx? (routeMatches req)

/-- The place in the table of the first route mounted for the request. -/
def mountedRoute (env : Env) (req : Http) : Option Nat := env.routes.findIdx? (mountedFor req)

/-- The response of the route at a place of the table; without one, the static file. -/
def answer (env : Env) (req : Http) (place : Option Nat) : Http :=
  match place.bind fun i => env.routes[i]? with
  | some route => routeHandler env req route
  | none => servePath env req

theorem fetchResponse_eq_answer (env : Env) (req : Http) :
    fetchResponse env req = answer env req (usedRoute env req) := by
  unfold fetchResponse answer usedRoute
  rewrite [← List.find?_eq_bind_findIdx?_getElem?]
  rfl

/-- A proxy captures the request and no route mounted for it comes before. -/
def Shadowed (req : Http) (routes : List Route) : Prop :=
  ∃ pre route post, routes = pre ++ route :: post ∧ capturedBy req route ∧
    ∀ r ∈ pre, mountedFor req r = false

/-- **The first mounted route answers, or the static file if there is none, exactly when no
    proxy that only shares the path's first bytes stands before it.** -/
theorem mounted_iff (env : Env) (req : Http) :
    (fetchResponse env req = answer env req (usedRoute env req) ∧
        usedRoute env req = mountedRoute env req ∧
        (usedRoute env req = none ↔ ∀ route ∈ env.routes, mountedFor req route = false)) ↔
      ¬ Shadowed req env.routes := by
  have hsame : usedRoute env req = mountedRoute env req ↔ ¬ Shadowed req env.routes := by
    unfold usedRoute mountedRoute Shadowed
    rw [findIdx?_eq_iff (fun _ => routeMatches_of_mountedFor)]
    push Not
    refine forall₄_congr fun pre route post heq => ?_
    rw [← routeMatches_and_not_mountedFor]
    simp
  constructor
  · intro h
    exact hsame.mp h.2.1
  · intro h
    refine ⟨fetchResponse_eq_answer env req, hsame.mpr h, ?_⟩
    rw [hsame.mpr h]
    exact List.findIdx?_eq_none_iff

/-! ## A proxy above a name it only begins -/

/-- A proxy at `/api`, and behind it an alias for `/apiary`. -/
def apiaryEnv : Env where
  approot := none
  fs := ⟨fun _ => none, fun _ => none⟩
  routes :=
    [⟨.proxy, 511, ascii "/api", ascii "http://127.0.0.1:4001", by decide⟩,
     ⟨.alias, 511, ascii "/apiary", ascii "/bees.html", by decide⟩]
  connect := fun _ => none

def apiaryRequest : Http := { method := some .get, path := some (ascii "/apiary") }

/-- The proxy takes the request of the alias behind it. -/
theorem apiary_captured :
    usedRoute apiaryEnv apiaryRequest = some 0 ∧ mountedRoute apiaryEnv apiaryRequest = some 1 ∧
      ¬ ∀ (env : Env) (req : Http), usedRoute env req = mountedRoute env req := by
  have hused : usedRoute apiaryEnv apiaryRequest = some 0 := by decide
  have hmounted : mountedRoute apiaryEnv apiaryRequest = some 1 := by decide
  refine ⟨hused, hmounted, fun hall => ?_⟩
  have h := hall apiaryEnv apiaryRequest
  rw [hused, hmounted] at h
  cases h

end Foxtails.Serve
