/-
  `routes_parse` in the pool.

  Model (read this before the theorems). This is the loop of `Routing.Parse` again, with the
  memory it works in: a line is copied behind a snapshot, `strtok` writes to the copy, and
  `route_str_to_methods` makes and cuts a copy of its own; the snapshot is restored, and the two
  strings of a route are made from the mapped file, in memory that is handed out once more. A
  route that is stored has the addresses of its strings. `none` is what it is in
  `Routing.Parse`, and a failed assertion of the pool, and a NULL for a string.

  * `storeLine_refines`, `routesParseIn_refines`: the same table as without the pool, and all its
    strings are where the table says; or memory was refused.
  * `routesParseMapped_some`: the same where lines may go on behind the end of the file.
  * `lineWise_iff`: when the table is that of the lines.
-/
import Foxtails.Routing.Table
import Foxtails.Cpool.Strings

namespace Foxtails.Routing

open Foxtails.Lib.Scan Foxtails.Lib.Libc Foxtails.Lib.Lines Foxtails.Lib.Object Foxtails.Lib.Strtok
  Foxtails.Lib.Malloc Foxtails.Lib.Run Foxtails.Config Foxtails.Wire Foxtails.Serve Foxtails.Cpool

/-- `route_t`. -/
structure StoredRoute where
  type : RouteType
  methods : Nat
  src : Nat
  dest : Nat
  deriving DecidableEq

/-- `route_str_to_methods`. -/
def methodsIn (A : Allocator) (h : Heap) (str : Bytes) : Option (Heap × Option Nat) :=
  if isAll str then some (h, some requestAll)
  else do
    let (h, copy) ← h.pstrdup A str
    return (h.write copy (methodsOfList str).2, (methodsOfList str).1)

/-- A copied line. -/
def storeRoute (A : Allocator) (h : Heap) (routes : List StoredRoute) (l : Line Byte)
    (str : Bytes) : Option (Heap × List StoredRoute) := do
  let h ← h.save A
  let (h, line) ← h.pstrndup A str
  let h := h.write line (lineTokens str).2
  match (lineTokens str).1 with
  | none => return (← h.restore A, routes)
  | some t =>
    match routeStrToType t.typeStr with
    | none => return (← h.restore A, routes)
    | some type =>
      let (h, methods) ← methodsIn A h t.methodsStr
      let h ← h.restore A
      match methods with
      | none => return (h, routes)
      | some methods =>
        let destStr ← readStr ((l.toEnd LF).drop t.targetOff) t.targetLen
        let (h, dest) ← h.pstrndup A destStr
        let srcStr ← readStr ((l.toEnd LF).drop t.routeOff) t.routeLen
        let (h, src) ← h.pstrndup A srcStr
        return (h, ← appendRoute routes { type, methods, src, dest })

/-- The body of the loop. -/
def storeLine (A : Allocator) (s : Heap × List StoredRoute) (l : Line Byte) :
    Option (Heap × List StoredRoute) :=
  match readLine l with
  | .passed => some s
  | .outside => none
  | .copy str => storeRoute A s.1 s.2 l str

/-- `routes_parse`. -/
def routesParseIn (A : Allocator) (h : Heap) (f : File) : Option (Heap × List StoredRoute) :=
  (lines LF f.bytes).foldlM (storeLine A) (h, [])

variable {A : Allocator} {h h' : Heap} {d : Nat} {l : Line Byte} {str : Bytes}

/-- A stored route is the route `r`, with its strings in the pool. -/
structure Stored (d : Nat) (h : Heap) (s : StoredRoute) (r : ParsedRoute) : Prop where
  type : s.type = r.type
  methods : s.methods = r.methods
  src : Holds d h s.src r.src
  dest : Holds d h s.dest r.dest

theorem Stored.mono {s : StoredRoute} {r : ParsedRoute} (hstored : Stored d h s r)
    (hkept : Kept d h h') : Stored d h' s r :=
  ⟨hstored.type, hstored.methods, hstored.src.mono hkept le_rfl, hstored.dest.mono hkept le_rfl⟩

/-- The pool is as deep as before, and the table is `routes`. -/
structure Table (d : Nat) (s : Heap × List StoredRoute) (routes : List ParsedRoute) : Prop where
  sound : Sound s.1 d
  stored : List.Forall₂ (Stored d s.1) s.2 routes

/-- The same result: there is a table or there is none. -/
def Refines (d : Nat) : Option (Heap × List StoredRoute) → Option (List ParsedRoute) → Prop
  | some s, some routes => Table d s routes
  | none, none => True
  | _, _ => False

/-- The same, unless memory was refused. -/
def RefinesOr (refused : Prop) (d : Nat) :
    Option (Heap × List StoredRoute) → Option (List ParsedRoute) → Prop
  | some s, some routes => Table d s routes
  | none, none => True
  | none, some _ => refused
  | some _, none => False

theorem refinesOr_none {refused : Prop} (hrefused : refused) (routes : Option (List ParsedRoute)) :
    RefinesOr refused d none routes := by
  cases routes with
  | none => exact trivial
  | some routes => exact hrefused

theorem RefinesOr.refines {refused : Prop} {stored : Option (Heap × List StoredRoute)}
    {routes : Option (List ParsedRoute)} (h : RefinesOr refused d stored routes)
    (hnot : ¬ refused) : Refines d stored routes := by
  cases stored with
  | none =>
    cases routes with
    | none => exact trivial
    | some routes => exact absurd h hnot
  | some s =>
    cases routes with
    | none => exact h
    | some routes => exact h

/-! ## A line -/

theorem methodsIn_cases (A : Allocator) (hsound : Sound h (d + 1))
    (hlen : str.length + 1 < SIZE) :
    (methodsIn A h str = none ∧ ¬ A.Answers) ∨
      ∃ h', methodsIn A h str = some (h', routeStrToMethods str) ∧ Sound h' (d + 1) ∧
        Kept d h h' := by
  unfold methodsIn routeStrToMethods
  by_cases hall : isAll str = true
  · rw [if_pos hall, if_pos hall]
    exact .inr ⟨h, rfl, hsound, fun a ha _ => ⟨ha, rfl⟩⟩
  · rw [if_neg hall, if_neg hall, pstrdup_eq A h hlen]
    rcases hsound.pstrndup_cases A hlen with
      ⟨hnull, hrefused⟩ | ⟨h₁, copy, hcopy, hsound₁, hholds, hkept⟩
    · rw [hnull]
      exact .inl ⟨rfl, hrefused⟩
    · have hobj : (methodsOfList str).2.length = str.length + 1 := by
        rw [methodsOfList, methodsLoop_length, Cursor.start, List.length_append,
          List.length_singleton]
      obtain ⟨hsound₂, hkept₂⟩ := hsound₁.write hholds (Nat.lt_succ_self d) hobj
      rw [hcopy]
      exact .inr ⟨_, rfl, hsound₂, (hkept d).trans hkept₂⟩

theorem Table.append {refused : Prop} {s : Heap × List StoredRoute} {routes : List ParsedRoute}
    (htable : Table d s routes) (hsound : Sound h' d) (hkept : Kept d s.1 h') {q : StoredRoute}
    {r : ParsedRoute} (hq : Stored d h' q r) :
    RefinesOr refused d ((appendRoute s.2 q).bind fun stored => some (h', stored))
      (appendRoute routes r) := by
  have hlength := htable.stored.length_eq
  unfold appendRoute
  rw [hlength]
  split_ifs
  · exact trivial
  · refine ⟨hsound, List.rel_append ?_ (.cons hq .nil)⟩
    exact htable.stored.imp fun _ _ hstored => hstored.mono hkept

/-- A line that is no route leaves the table as it is. -/
theorem Table.restore {s : Heap × List StoredRoute} {routes : List ParsedRoute}
    (htable : Table d s routes) (hsound : Sound h (d + 1)) (hkept : Kept d s.1 h) :
    ∃ h', h.restore A = some h' ∧ Kept d s.1 h' ∧ Table d (h', s.2) routes := by
  obtain ⟨h', hrestore, hsound', hkept'⟩ := hsound.restore (A := A)
  refine ⟨h', hrestore, hkept.trans hkept', hsound', ?_⟩
  exact htable.stored.imp fun _ _ hstored => hstored.mono (hkept.trans hkept')

theorem storeRoute_refines (A : Allocator) (hd : d < maxSaveDepth)
    (hsize : (l.toEnd LF).length < 2 ^ 63) (hread : readLine l = .copy str)
    {s : Heap × List StoredRoute} {routes : List ParsedRoute} (htable : Table d s routes) :
    RefinesOr (¬ A.Answers) d (storeRoute A s.1 s.2 l str)
      (match lineRoute l str with
        | .malformed => some routes
        | .outside => none
        | .route r => appendRoute routes r) := by
  have hpart := isPrefix_toEnd_of_readLine hread
  have hlen : str.length + 1 < SIZE := by
    have hle := hpart.length_le
    simp only [SIZE]
    omega
  obtain ⟨h₁, hsave, hsound₁, hkept₁⟩ := htable.sound.save (A := A) hd
  unfold storeRoute
  simp only [hsave, Option.bind_eq_bind, Option.bind_some]
  rcases hsound₁.pstrndup_cases A hlen with
    ⟨hnull, hrefused⟩ | ⟨h₂, line, hline, hsound₂, hholds, hkept₂⟩
  · rw [hnull]
    exact refinesOr_none hrefused _
  obtain ⟨hsound₃, hkept₃⟩ :=
    hsound₂.write hholds (Nat.lt_succ_self d) (lineTokens_length str)
  have hkept := (hkept₁ d).trans ((hkept₂ d).trans hkept₃)
  obtain ⟨h₄, hrestore, -, htable₄⟩ := htable.restore (A := A) hsound₃ hkept
  unfold lineRoute
  simp only [hline, Option.bind_some]
  cases htokens : (lineTokens str).1 with
  | none =>
    simp only [hrestore, Option.bind_some]
    exact htable₄
  | some t =>
    cases htype : routeStrToType t.typeStr with
    | none =>
      simp only [htype, hrestore, Option.bind_some]
      exact htable₄
    | some type =>
      have hle := methodsStr_length_le (not_mem_of_readLine hread) htokens
      simp only [htype]
      rcases methodsIn_cases A hsound₃ (show t.methodsStr.length + 1 < SIZE by omega) with
        ⟨hnull, hrefused⟩ | ⟨h₅, hmethods, hsound₅, hkept₅⟩
      · rw [hnull]
        exact refinesOr_none hrefused _
      obtain ⟨h₆, hrestore₆, hkept₆, htable₆⟩ :=
        htable.restore (A := A) hsound₅ (hkept.trans hkept₅)
      simp only [hmethods, hrestore₆, Option.bind_some]
      cases hmask : routeStrToMethods t.methodsStr with
      | none => exact htable₆
      | some methods =>
        have hfits : ∀ {off n : Nat} {w : Bytes},
            readStr ((l.toEnd LF).drop off) n = some w → w.length + 1 < SIZE := by
          intro off n w hw
          have hle := (isPrefix_of_readStr hw).length_le
          rw [List.length_drop] at hle
          simp only [SIZE]
          omega
        dsimp only
        cases hdest : readStr ((l.toEnd LF).drop t.targetOff) t.targetLen with
        | none => exact trivial
        | some destStr =>
          simp only [Option.bind_some]
          rcases htable₆.sound.pstrndup_cases A (hfits hdest) with
            ⟨hnull, hrefused⟩ | ⟨h₇, dest, hdup₇, hsound₇, hholds₇, hkept₇⟩
          · rw [hnull]
            exact refinesOr_none hrefused _
          simp only [hdup₇, Option.bind_some]
          cases hsrc : readStr ((l.toEnd LF).drop t.routeOff) t.routeLen with
          | none => exact trivial
          | some srcStr =>
            simp only [Option.bind_some]
            rcases hsound₇.pstrndup_cases A (hfits hsrc) with
              ⟨hnull, hrefused⟩ | ⟨h₈, src, hdup₈, hsound₈, hholds₈, hkept₈⟩
            · rw [hnull]
              exact refinesOr_none hrefused _
            simp only [hdup₈, Option.bind_some]
            exact htable₆.append hsound₈ ((hkept₇ d).trans (hkept₈ d))
              ⟨rfl, rfl, hholds₈, hholds₇.mono (hkept₈ d) le_rfl⟩

/-- **A line does the same to both tables**, unless memory is refused. -/
theorem storeLine_refines (A : Allocator) (hd : d < maxSaveDepth)
    (hsize : (l.toEnd LF).length < 2 ^ 63) {s : Heap × List StoredRoute}
    {routes : List ParsedRoute} (htable : Table d s routes) :
    RefinesOr (¬ A.Answers) d (storeLine A s l) (routesLine routes l) := by
  unfold storeLine routesLine
  cases hread : readLine l with
  | passed => exact htable
  | outside => exact trivial
  | copy str => exact storeRoute_refines A hd hsize hread htable

/-- The loop, by its lines. -/
theorem storeLines_refines (A : Allocator) (hd : d < maxSaveDepth) {ls : List (Line Byte)}
    (hsize : ∀ l ∈ ls, (l.toEnd LF).length < 2 ^ 63) {s : Heap × List StoredRoute}
    {routes : List ParsedRoute} (htable : Table d s routes) :
    RefinesOr (¬ A.Answers) d (ls.foldlM (storeLine A) s) (ls.foldlM routesLine routes) := by
  induction ls generalizing s routes with
  | nil => exact htable
  | cons l ls ih =>
    rw [List.foldlM_cons, List.foldlM_cons]
    have hline := storeLine_refines A hd (hsize l List.mem_cons_self) htable
    cases hs : storeLine A s l with
    | none =>
      cases hroutes : routesLine routes l with
      | none => exact trivial
      | some routes' =>
        rw [hs, hroutes] at hline
        exact refinesOr_none hline _
    | some s' =>
      cases hroutes : routesLine routes l with
      | none =>
        rw [hs, hroutes] at hline
        exact hline.elim
      | some routes' =>
        rw [hs, hroutes] at hline
        exact ih (fun l hl => hsize l (List.mem_cons_of_mem _ hl)) hline

theorem routesParseIn_refines (hA : A.Answers) (hd : d < maxSaveDepth) (hsound : Sound h d)
    (f : File) : Refines d (routesParseIn A h f) (routesParse f) :=
  (storeLines_refines A hd (fun _ hl => length_lt_of_mem hl) ⟨hsound, .nil⟩).refines
    (not_not.mpr hA)

/-! ## A mapped file -/

/-- `routes_parse`, where reads that leave the file go on behind it. -/
def routesParseMapped (A : Allocator) (h : Heap) (m : Mapping) :
    Option (Heap × List StoredRoute) := m.memoryLines.foldlM (storeLine A) (h, [])

/-- The routes of its lines. -/
def mappedRoutes (m : Mapping) : List ParsedRoute :=
  m.memoryLines.filterMap fun l => (seen l).join

theorem routesParseMapped_nil {m : Mapping} (hbehind : m.behind = []) :
    routesParseMapped A h m = routesParseIn A h m.file := by
  rw [routesParseMapped, routesParseIn, memoryLines_nil hbehind]

theorem routesParseMapped_refines (A : Allocator) (hd : d < maxSaveDepth) (hsound : Sound h d)
    (m : Mapping) : RefinesOr (¬ A.Answers) d (routesParseMapped A h m)
      (m.memoryLines.foldlM routesLine []) :=
  storeLines_refines A hd (fun _ hl => length_lt_of_mem_memoryLines hl) ⟨hsound, .nil⟩

/-- No line is read from memory that is not there. -/
theorem seen_ne_none {m : Mapping} (hpadded : Padded m.behind) (hl : l ∈ m.memoryLines) :
    seen l ≠ none := by
  have hnul : NUL ∈ l.toEnd LF := by
    have hcount := padded_of_mem_memoryLines hpadded hl
    refine List.mem_append_right _ (List.mem_cons_of_mem _ (List.count_pos_iff.mp ?_))
    exact lt_of_lt_of_le Nat.zero_lt_two hcount
  have hread := readLine_ne_outside hnul
  unfold seen
  split
  · exact Option.some_ne_none _
  · next houtside => exact absurd houtside hread
  · exact Option.some_ne_none _

/-- The table has all routes, of fewer than 2^32. -/
theorem mappedRoutes_eq {m : Mapping} (hpadded : Padded m.behind)
    (hlen : (mappedRoutes m).length < 2 ^ 32) :
    m.memoryLines.foldlM routesLine [] = some (mappedRoutes m) := by
  have hseen : m.memoryLines.mapM seen = some (m.memoryLines.map fun l => (seen l).join) :=
    mapM_seen_eq.mpr ⟨fun l hl => seen_ne_none hpadded hl, rfl⟩
  have hroutes : (m.memoryLines.map fun l => (seen l).join).reduceOption = mappedRoutes m := by
    rw [List.reduceOption, List.filterMap_map]
    rfl
  rw [routesLines_eq [] _ (by decide), hseen, Option.bind_some, hroutes, List.nil_append,
    if_pos hlen]

/-- **A call of `routes_parse`** returns with the pool as deep as it was, and all strings of the
    table are where it says. -/
theorem routesParseMapped_some (hA : A.Answers) (hd : d < maxSaveDepth) (hsound : Sound h d)
    {m : Mapping} (hpadded : Padded m.behind) (hlen : (mappedRoutes m).length < 2 ^ 32) :
    ∃ s, routesParseMapped A h m = some s ∧ Table d s (mappedRoutes m) := by
  have hrefines := (routesParseMapped_refines A hd hsound m).refines (not_not.mpr hA)
  rw [mappedRoutes_eq hpadded hlen] at hrefines
  cases hparse : routesParseMapped A h m with
  | none =>
    rw [hparse] at hrefines
    exact hrefines.elim
  | some s =>
    rw [hparse] at hrefines
    exact ⟨s, rfl, hrefines⟩

/-! ## The table that is returned -/

/-- `routes_parse` returns the routes `routes`: at its return, their strings are in the pool, in
    memory that no snapshot behind the call takes back. -/
def Returns (A : Allocator) (h : Heap) (f : File) (routes : List ParsedRoute) : Prop :=
  ∃ h' stored, routesParseIn A h f = some (h', stored) ∧
    List.Forall₂ (Stored h.state.pool.snapshots.length h') stored routes

theorem Stored.unique {d' : Nat} {s : StoredRoute} {r r' : ParsedRoute} (hsound : Sound h d')
    (hr : Stored d h s r) (hr' : Stored d h s r') : r = r' := by
  obtain ⟨type, methods, src, dest⟩ := r
  obtain ⟨type', methods', src', dest'⟩ := r'
  obtain rfl : type = type' := hr.type.symm.trans hr'.type
  obtain rfl : methods = methods' := hr.methods.symm.trans hr'.methods
  obtain rfl : src = src' := hr.src.unique hsound hr'.src
  obtain rfl : dest = dest' := hr.dest.unique hsound hr'.dest
  rfl

theorem returns_iff (hA : A.Answers) (hsound : Sound h d) (hd : d < maxSaveDepth) (f : File)
    (routes : List ParsedRoute) : Returns A h f routes ↔ routesParse f = some routes := by
  have hrefines := routesParseIn_refines hA hd hsound f
  obtain rfl := hsound.depth
  constructor
  · rintro ⟨h', stored, hparse, hstored⟩
    rw [hparse] at hrefines
    cases hroutes : routesParse f with
    | none =>
      rw [hroutes] at hrefines
      exact hrefines.elim
    | some routes' =>
      rw [hroutes] at hrefines
      obtain ⟨hsound', hstored'⟩ := hrefines
      have hunique : Relator.RightUnique (Stored h.state.pool.snapshots.length h') :=
        fun _ _ _ hr hr' => hr.unique hsound' hr'
      exact congrArg some (hunique.forall₂ hstored' hstored)
  · intro hparse
    rw [hparse] at hrefines
    cases hstored : routesParseIn A h f with
    | none =>
      rw [hstored] at hrefines
      exact hrefines.elim
    | some s =>
      rw [hstored] at hrefines
      exact ⟨s.1, s.2, hstored, hrefines.stored⟩

/-- The table of a file is that of its lines, in their order, and that of two files is that of
    the one followed by the other. -/
structure LineWise (A : Allocator) (h : Heap) (f : RoutesFile) : Prop where
  table : Returns A h f.file f.routes
  split : ∀ f₁ f₂ : RoutesFile, f.texts = f₁.texts ++ f₂.texts → ∃ routes₁ routes₂,
    Returns A h f₁.file routes₁ ∧ Returns A h f₂.file routes₂ ∧
      Returns A h f.file (routes₁ ++ routes₂)

/-- **`routes_parse` is line-wise** if and only if every line fits, and there are fewer than 2^32
    routes. It is called with any pool that is not full of snapshots; `main` calls it with none. -/
theorem lineWise_iff (A : Allocator) (hA : A.Answers) (blockSize : Nat)
    (hfits : sizeofBlock + blockSize ≤ ptrdiffMax) (p : Pool)
    (hinit : cpoolInit A blockSize = some p) (s : State) (hrun : Reach (step A) Any (start p) s)
    (hdepth : s.pool.snapshots.length < maxSaveDepth) (bytes : Nat → Byte) (f : RoutesFile) :
    LineWise A ⟨s, bytes⟩ f ↔ (∀ t ∈ f.texts, Fits t) ∧ f.routes.length < 2 ^ 32 := by
  have hsound : Sound ⟨s, bytes⟩ s.pool.snapshots.length :=
    sound_of_reached ⟨blockSize, p, hfits, hinit, hrun⟩
  have hreturns : ∀ (f : File) (routes : List ParsedRoute),
      Returns A ⟨s, bytes⟩ f routes ↔ routesParse f = some routes :=
    returns_iff hA hsound hdepth
  rw [← table_iff]
  constructor
  · intro h
    exact (hreturns _ _).mp h.table
  · intro h
    refine ⟨(hreturns _ _).mpr h, fun f₁ f₂ htexts => ?_⟩
    obtain ⟨hfit, hlt⟩ := (table_iff f).mp h
    have hroutes : f.routes = f₁.routes ++ f₂.routes := by
      rw [RoutesFile.routes, htexts, List.filterMap_append]
      rfl
    rw [htexts] at hfit
    rw [hroutes, List.length_append] at hlt
    have h₁ := (table_iff f₁).mpr ⟨fun t ht => hfit t (List.mem_append_left _ ht), by omega⟩
    have h₂ := (table_iff f₂).mpr ⟨fun t ht => hfit t (List.mem_append_right _ ht), by omega⟩
    rw [hroutes] at h
    exact ⟨f₁.routes, f₂.routes, (hreturns _ _).mpr h₁, (hreturns _ _).mpr h₂,
      (hreturns _ _).mpr h⟩

theorem answers_bump : bump.Answers := fun _ _ _ => Option.some_ne_none _

/-- A pool like that of `main`. -/
theorem init_bump : ∃ p, cpoolInit bump 1024 = some p ∧ p.snapshots.length = 0 :=
  Option.map_eq_some_iff.mp
    (show (cpoolInit bump 1024).map (fun p => p.snapshots.length) = some 0 by decide +kernel)

/-- Routes among other lines. -/
def mixed : RoutesFile where
  texts := [ascii "# routes", ascii "GET,POST /api  proxy\t10.0.0.1", ascii "", ascii "GET /x alias",
    ascii "* / ALIAS www"]
  lf := by decide
  nul := by decide
  size_lt := by decide

/-- `lineWise_iff` for these lines. -/
theorem lineWise_iff_mixed : ∃ p, cpoolInit bump 1024 = some p ∧ mixed.routes.length = 2 ∧
    LineWise bump ⟨start p, fun _ => 0⟩ mixed := by
  obtain ⟨p, hinit, hsnapshots⟩ := init_bump
  have hfits : ∀ t ∈ mixed.texts, Fits t := by
    intro t ht
    refine fits_of_length_lt ?_
    revert t
    decide
  have hdepth : (start p).pool.snapshots.length < maxSaveDepth := by
    rw [start, hsnapshots]
    decide
  have hlength : mixed.routes.length = 2 := by decide +kernel
  exact ⟨p, hinit, hlength, (lineWise_iff bump answers_bump 1024 (by decide) p hinit (start p)
    .start hdepth _ mixed).mpr ⟨hfits, by rw [hlength]; decide⟩⟩

/-- A route with a long path, ... -/
def longText (n : Nat) : Bytes := ascii "GET /a alias /" ++ List.replicate n 98

theorem mem_longText {n : Nat} {b : Byte} (hb : b ∈ longText n) :
    b ∈ ascii "GET /a alias /" ∨ b = 98 :=
  (List.mem_append.mp hb).imp_right List.eq_of_mem_replicate

theorem length_longText (n : Nat) : (longText n).length = 14 + n := by
  rw [longText, List.length_append, List.length_replicate]
  rfl

theorem head_longText (n : Nat) : (longText n).head? ≠ some HASH :=
  fun h => absurd (Option.some.inj h) (by decide)

theorem not_blank {w : Bytes} (h : w.any isBlank = false) : ∀ b ∈ w, isBlank b = false := by
  simpa using h

theorem routeOf_longText (n : Nat) : routeOf (longText n) =
    some { type := .alias, methods := Method.get.mask, src := ascii "/a",
           dest := 47 :: List.replicate n 98 } := by
  have htext : longText n = ascii "GET" ++ SP :: (ascii "/a" ++ SP :: (ascii "alias" ++
      SP :: (47 :: List.replicate n 98))) := rfl
  have hdest : ∀ b ∈ (47 : Byte) :: List.replicate n 98, isBlank b = false := by
    intro b hb
    rcases List.mem_cons.mp hb with rfl | hb
    · rfl
    · rw [List.eq_of_mem_replicate hb]
      rfl
  have hwords : words isBlank (longText n) =
      [ascii "GET", ascii "/a", ascii "alias", 47 :: List.replicate n 98] := by
    rw [htext, words_word _ (not_blank rfl) (by decide) rfl,
      words_word _ (not_blank rfl) (by decide) rfl, words_word _ (not_blank rfl) (by decide) rfl,
      words_of_not hdest (List.cons_ne_nil _ _)]
  have htype : routeStrToType (ascii "alias") = some .alias := by decide
  have hmethods : routeStrToMethods (ascii "GET") = some Method.get.mask := by decide +kernel
  unfold routeOf
  rw [if_neg (head_longText n), hwords]
  dsimp only
  rw [htype, hmethods]

/-- What is left of the line where its length is that of its first part. -/
theorem not_fits_longText {n : Nat} (hpos : 0 < n) (hlen : castInt (14 + n) = 14) :
    seenText (longText n) = some (routeOf (longText 0)) ∧ ¬ Fits (longText n) := by
  have hcut : cut (longText n) = longText 0 := by
    rw [cut, length_longText, hlen, longText, longText, List.replicate_zero, List.append_nil]
    exact List.take_left' rfl
  refine ⟨?_, fun h => ?_⟩
  · rw [seenText, if_neg (head_longText n), length_longText, hlen, if_neg (by decide), hcut]
  · have hroute := (h.resolve_left (head_longText n)).2
    rw [hcut, routeOf_longText, routeOf_longText] at hroute
    have hdest := (List.cons.inj (ParsedRoute.mk.inj (Option.some.inj hroute)).2.2.2).2
    have hlength := congrArg List.length hdest
    rw [List.length_replicate, List.length_replicate] at hlength
    omega

/-- ... of 2^32 bytes behind its first one. -/
def longFile : RoutesFile where
  texts := [longText (2 ^ 32)]
  lf := by
    intro t ht hb
    rw [List.mem_singleton.mp ht] at hb
    rcases mem_longText hb with hb | hb
    · revert hb
      decide
    · cases hb
  nul := by
    intro t ht hb
    rw [List.mem_singleton.mp ht] at hb
    rcases mem_longText hb with hb | hb
    · revert hb
      decide
    · cases hb
  size_lt := by
    rw [ended_cons, List.length_append, length_longText]
    decide

/-- Its length is cut to an `int`, and its path with it. -/
theorem long_line_cut : ∃ p, cpoolInit bump 1024 = some p ∧
    Returns bump ⟨start p, fun _ => 0⟩ longFile.file
      [{ type := .alias, methods := Method.get.mask, src := ascii "/a", dest := ascii "/" }] ∧
    ¬ LineWise bump ⟨start p, fun _ => 0⟩ longFile := by
  obtain ⟨p, hinit, hsnapshots⟩ := init_bump
  have hsound : Sound ⟨start p, fun _ => 0⟩ 0 := ⟨inv_start (by decide) hinit, hsnapshots⟩
  obtain ⟨hseen, hnot⟩ := not_fits_longText (n := 2 ^ 32) (by decide) (by decide)
  have hreturns := returns_iff answers_bump hsound (by decide) longFile.file
  refine ⟨p, hinit, (hreturns _).mpr ?_, fun h => ?_⟩
  · rw [routesParse_file, longFile, List.mapM_cons, hseen, routeOf_longText]
    rfl
  · have hfits := ((table_iff longFile).mp ((hreturns _).mp h.table)).1
    exact hnot (hfits _ (List.mem_singleton_self _))

end Foxtails.Routing
