/-
  `fetch_response` of `worker_loop.c`: static files, aliases, redirects and proxies.

  `Env` is what it reads besides the request: the configured root, the file system, the route
  table, and what contacting a backend brings.

  * `fetchResponse_own_or_relayed`: a response is one the program makes itself (`OwnReply`),
    or the parsed answer of a backend (`relayedFrom`).
-/
import Foxtails.Wire.Recv
import Foxtails.Wire.Send

namespace Foxtails.Serve

open Foxtails.Lib.Scan Foxtails.Lib.Libc Foxtails.Wire

/-! ## What is outside -/

/-- A file opened for reading: `st_size`, unless `fstat` fails, and the mapped bytes, unless
    `mmap` fails. -/
structure OpenFile where
  size : Option Nat
  content : Option Bytes
  length_eq : ∀ n c, size = some n → content = some c → c.length = n

/-- `realpath` and `open(_, O_RDONLY)`. -/
structure FileSystem where
  realpath : Bytes → Option Bytes
  openRead : Bytes → Option OpenFile

/-- A connected backend: where the receive buffer is allocated, and what `recv` brings. -/
structure Backend where
  base : Nat
  results : List RecvResult

/-- The `ROUTE_TYPE_*` constants. -/
inductive RouteType where
  | alias | reroute | proxy
  deriving DecidableEq, Repr

/-- `route_t`. The table is read line by line, so a target holds no LF. -/
structure Route where
  type : RouteType
  methods : Nat
  src : Bytes
  dest : Bytes
  dest_line : LF ∉ dest
  deriving DecidableEq

structure Env where
  approot : Option Bytes
  fs : FileSystem
  routes : List Route
  connect : Bytes → Option Backend

/-! ## Static files -/

/-- `get_mime_type`: the extension starts at the last dot, which may not be the first byte. -/
def getMimeType (path : Bytes) : Mime :=
  match strrchr path 46 with
  | none => .textPlain
  | some 0 => .textPlain
  | some dot => mimeTypeFromExt (path.drop (dot + 1))

/-- `verify_url` returns 1, which refuses the path. -/
def verifyUrl (fs : FileSystem) (approot fullPath : Bytes) : Bool :=
  match fs.realpath approot with
  | none => true
  | some rootReal =>
    match fs.realpath fullPath with
    | none => true
    | some fullReal =>
      if !rootReal.isPrefixOf fullReal then true
      else
        match fullReal[rootReal.length]? with
        | none => false
        | some b => b != 47

/-- `get_path`. -/
def getPath (env : Env) (url : Bytes) : Http :=
  match env.approot with
  | none =>
    textReply 500 (ascii "Internal Server Error")
      (ascii "Internal Server Error (app.root key could not be found in config)")
      ⟨[textPlain], one_header_fits textPlain⟩
  | some approot =>
    let fullPath := approot ++ url
    if verifyUrl env.fs approot fullPath then notFound
    else
      match env.fs.openRead fullPath with
      | none => notFound
      | some file =>
        let resp := httpSetContentType { notFound with code := 200, reason := some (ascii "OK") }
          (getMimeType fullPath)
        match file.size, file.content with
        | none, _ => notFound
        | some 0, _ => { resp with body := none, bodyLen := 0 }
        | some _, none => notFound
        | some size, some content => { resp with body := some content, bodyLen := size }

/-- `serve_path`. -/
def servePath (env : Env) (req : Http) : Http :=
  match req.method with
  | some .get => getPath env (req.path.getD [])
  | some .head => { getPath env (req.path.getD []) with body := none }
  | some .post => notAllowed
  | some .put => notAllowed
  | some .delete => notAllowed
  | some .connect => notAllowed
  | some .options => noContent
  | some .trace => notAllowed
  | some .patch => notAllowed
  | none => notImplemented

/-! ## Routes -/

/-- `handle_alias`. -/
def handleAlias (env : Env) (req : Http) (route : Route) : Http :=
  servePath env { req with path := some route.dest }

/-- `handle_reroute`. -/
def handleReroute (route : Route) : Http := httpMoved route.dest

/-- `socket_create_auto`, up to the connection itself. -/
def socketCreateAuto (env : Env) (url : Bytes) : Option Backend :=
  if url.length < (ascii "http://").length then none
  else if (ascii "http://").isPrefixOf url then env.connect url
  else none

/-- The bytes `handle_proxy` receives; only a request other than HEAD expects a body. -/
def Backend.answer (backend : Backend) (req : Http) : Bytes :=
  (httpRecvMessage backend.base (req.method != some .head) backend.results).1

/-- `handle_proxy`. -/
def handleProxy (env : Env) (req : Http) (route : Route) : Http :=
  match socketCreateAuto env route.dest with
  | none => notFound
  | some backend =>
    let buf := backend.answer req
    if buf.length = 0 then badGateway
    else
      let resp := httpResponseParse buf
      if req.method = some .head then { resp with body := none } else resp

/-- The handler of a route. -/
def routeHandler (env : Env) (req : Http) (route : Route) : Http :=
  match route.type with
  | .alias => handleAlias env req route
  | .reroute => handleReroute route
  | .proxy => handleProxy env req route

/-- The test of the routing loop: the method, and the path or, for a proxy, a prefix of it. -/
def routeMatches (req : Http) (route : Route) : Bool :=
  route.methods &&& (req.method.elim 0 Method.mask) != 0 &&
    (req.path == some route.src ||
      (route.type == .proxy && route.src.isPrefixOf (req.path.getD [])))

/-- `fetch_response`. -/
def fetchResponse (env : Env) (req : Http) : Http :=
  match env.routes.find? (routeMatches req) with
  | some route => routeHandler env req route
  | none => servePath env req

/-! ## Two kinds of responses -/

/-- The backend whose answer is relayed for a request: that of the first route that matches,
    if it is a proxy, can be reached, and answers at all. -/
def relayedFrom (env : Env) (req : Http) : Option Backend :=
  match env.routes.find? (routeMatches req) with
  | some route =>
    if route.type = .proxy then
      (socketCreateAuto env route.dest).filter fun backend => (backend.answer req).length ≠ 0
    else none
  | none => none

/-- A reply the program makes itself: a literal, a file, or a redirect. -/
inductive OwnReply : Http → Prop where
  | notFound : OwnReply notFound
  | notAllowed : OwnReply notAllowed
  | noContent : OwnReply noContent
  | notImplemented : OwnReply notImplemented
  | badGateway : OwnReply badGateway
  | noRoot : OwnReply (textReply 500 (ascii "Internal Server Error")
      (ascii "Internal Server Error (app.root key could not be found in config)")
      ⟨[textPlain], one_header_fits textPlain⟩)
  | moved (loc : Bytes) (h : LF ∉ loc) : OwnReply (httpMoved loc)
  | file (mime : Mime) (content : Option Bytes) : OwnReply
      { httpSetContentType { Wire.notFound with code := 200, reason := some (ascii "OK") } mime with
        body := content, bodyLen := (content.getD []).length }

theorem getPath_own (env : Env) (url : Bytes) : OwnReply (getPath env url) := by
  unfold getPath
  split
  · exact .noRoot
  dsimp only
  split_ifs
  · exact .notFound
  split
  · exact .notFound
  rename_i file _
  split
  · exact .notFound
  · exact .file _ none
  · exact .notFound
  · rename_i size content _ hsize hcontent
    rw [← file.length_eq _ _ hsize hcontent]
    exact .file _ (some content)

theorem servePath_own (env : Env) {req : Http} (h : req.method ≠ some .head) :
    OwnReply (servePath env req) := by
  unfold servePath
  split
  · exact getPath_own env _
  · exact absurd ‹_› h
  all_goals first
    | exact .notAllowed
    | exact .noContent
    | exact .notImplemented

/-- A response is made by the program itself or relayed. -/
theorem fetchResponse_own_or_relayed (env : Env) {req : Http} (h : req.method ≠ some .head) :
    (relayedFrom env req = none ∧ OwnReply (fetchResponse env req)) ∨
      ∃ backend, relayedFrom env req = some backend ∧
        fetchResponse env req = httpResponseParse (backend.answer req) := by
  unfold fetchResponse relayedFrom
  cases env.routes.find? (routeMatches req) with
  | none => exact .inl ⟨rfl, servePath_own env h⟩
  | some route =>
    dsimp only
    unfold routeHandler
    cases htype : route.type with
    | «alias» => exact .inl ⟨rfl, servePath_own env h⟩
    | reroute => exact .inl ⟨rfl, .moved _ route.dest_line⟩
    | proxy =>
      dsimp only
      unfold handleProxy
      rw [if_pos rfl]
      cases socketCreateAuto env route.dest with
      | none => exact .inl ⟨rfl, .notFound⟩
      | some backend =>
        dsimp only
        simp only [List.length_eq_zero_iff]
        by_cases hnil : backend.answer req = []
        · rw [if_pos hnil]
          exact .inl ⟨by simp [hnil], .badGateway⟩
        · rw [if_neg hnil, if_neg h]
          exact .inr ⟨backend, by simp [hnil], rfl⟩

end Foxtails.Serve
