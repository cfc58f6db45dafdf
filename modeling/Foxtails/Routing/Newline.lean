/-
  A file, and the file with a newline behind it.

  Both loops run while there is a newline in the rest of the file. So a last line without one is
  never looked at: the newline makes no difference where that line makes none, and no more of the
  file is read than the lines that end. A read that leaves the file finds the zeros of the last
  page, and with the newline it finds that first; where the file ends with its page, there is
  nothing behind it, and the program is killed.

  * `seen_pair`: what comes of a line of the file, with the newline and without.
  * `routes_newline_iff`: when the table is the same.
  * `newline_iff`: when `routes_parse` and `config_get` give the same.
-/
import Foxtails.Routing.Memory
import Foxtails.Config.Newline

namespace Foxtails.Routing

open Foxtails.Lib.Scan Foxtails.Lib.Libc Foxtails.Lib.Lines Foxtails.Lib.Strtok Foxtails.Config

variable {l : Line Byte} {m m' : Mapping} {text z z' : Bytes} {r : ParsedRoute}

/-! ## Words with a newline -/

/-- Where a route leads to is the fourth word. -/
theorem routeOf_dest (h : routeOf text = some r) : (words isBlank text)[3]? = some r.dest := by
  unfold routeOf at h
  split_ifs at h
  split at h
  · next methodsStr src typeStr dest ws hwords =>
    rw [hwords]
    split at h
    · rw [← Option.some.inj h]
      rfl
    · cases h
  · cases h

theorem exists_four {ws : List Bytes} (h : 4 ≤ ws.length) :
    ∃ a b c d rest, ws = a :: b :: c :: d :: rest := by
  rcases ws with _ | ⟨a, _ | ⟨b, _ | ⟨c, _ | ⟨d, rest⟩⟩⟩⟩
  · cases h
  · simp at h
  · simp at h
  · simp at h
  · exact ⟨a, b, c, d, rest, rfl⟩

/-- A route is its first four words. -/
theorem routeOf_congr {text' : Bytes} (hhead : text'.head? = text.head?)
    (hwords : (words isBlank text').take 4 = (words isBlank text).take 4) :
    routeOf text' = routeOf text := by
  have hlen : min 4 (words isBlank text').length = min 4 (words isBlank text).length := by
    rw [← List.length_take, ← List.length_take, hwords]
  unfold routeOf
  rw [hhead]
  by_cases hfour : 4 ≤ (words isBlank text).length
  · obtain ⟨a, b, c, d, ws, hws⟩ := exists_four hfour
    obtain ⟨a', b', c', d', ws', hws'⟩ :=
      exists_four (show 4 ≤ (words isBlank text').length by omega)
    rw [hws, hws'] at hwords
    obtain ⟨rfl, rfl, rfl, rfl⟩ : a' = a ∧ b' = b ∧ c' = c ∧ d' = d := by simpa using hwords
    rw [hws, hws']
  · rw [List.take_of_length_le (by omega), List.take_of_length_le (by omega)] at hwords
    rw [hwords]

/-- A newline at the end leaves a route as it is if it is in none of its words. -/
theorem routeOf_concat_iff (hne : text ≠ []) : routeOf (text ++ [LF]) = routeOf text ↔
    (routeOf (text ++ [LF]) ≠ none → (words isBlank (text ++ [LF])).length ≠ 4) := by
  have hblank : ∀ x ∈ [LF], isBlank x = false := List.forall_mem_singleton.mpr rfl
  have hcons : ([LF] : Bytes) ≠ [] := List.cons_ne_nil _ _
  constructor
  · intro heq hroute hlen
    obtain ⟨r, hr⟩ := Option.ne_none_iff_exists'.mp hroute
    have hdest := routeOf_dest (heq.symm.trans hr)
    have hdest' := routeOf_dest hr
    rcases words_append_word isBlank text with hwords | ⟨ws, w, hwords, hmore⟩
    · rw [hwords [LF] hcons hblank, List.length_append, List.length_singleton] at hlen
      rw [List.getElem?_eq_none (by omega)] at hdest
      cases hdest
    · rw [hmore [LF] hcons hblank] at hdest' hlen
      have hws : ws.length = 3 := by
        rw [List.length_append, List.length_singleton] at hlen
        omega
      rw [hwords, ← hws, List.getElem?_concat_length] at hdest
      rw [← hws, List.getElem?_concat_length, ← hdest] at hdest'
      exact absurd (Option.some.inj hdest') (by simp)
  · intro h
    by_cases hroute : routeOf (text ++ [LF]) = none
    · rw [hroute]
      by_contra hsome
      obtain ⟨r, hr⟩ := Option.ne_none_iff_exists'.mp (Ne.symm hsome)
      obtain ⟨r', hr'⟩ := routeOf_of_isPrefix (List.prefix_append text [LF]) hr
      rw [hroute] at hr'
      cases hr'
    · obtain ⟨r, hr⟩ := Option.ne_none_iff_exists'.mp hroute
      have hle := (List.getElem?_eq_some_iff.mp (routeOf_dest hr)).1
      have hlen := h hroute
      refine routeOf_congr (List.head?_append_of_ne_nil _ hne) ?_
      rcases words_append_word isBlank text with hwords | ⟨ws, w, hwords, hmore⟩
      · rw [hwords [LF] hcons hblank] at hle hlen ⊢
        rw [List.length_append, List.length_singleton] at hle hlen
        rw [List.take_append_of_le_length (by omega)]
      · rw [hmore [LF] hcons hblank] at hle hlen ⊢
        rw [List.length_append, List.length_singleton] at hle hlen
        rw [hwords, List.take_append_of_le_length (by omega),
          List.take_append_of_le_length (by omega)]

/-! ## The table -/

/-- The line gives the same before zeros, and before a newline and zeros; `padded` says that there
    are any. Only one that is copied to the end of the file can do otherwise. -/
def SteadyRoute (padded : Prop) (l : Line Byte) : Prop :=
  readLine l = .outside → padded ∧
    (routeOf (l.toEnd LF ++ [LF]) ≠ none → (words isBlank (l.toEnd LF ++ [LF])).length ≠ 4)

theorem seen_outside {c : Prop} [Decidable c] {str : Bytes}
    (h : readLine l = if c then .outside else .copy str) :
    seen l = if c then none else some (routeOf str) := by
  unfold seen
  rw [h]
  split_ifs <;> rfl

theorem seen_extend (h : readLine l ≠ .outside) (ys : Bytes) : seen (l.extend ys) = seen l := by
  unfold seen
  rw [readLine_extend h]

theorem seen_eq_none_iff : seen l = none ↔ readLine l = .outside := by
  unfold seen
  cases readLine l with
  | passed => exact iff_of_false (fun h => by cases h) Reading.noConfusion
  | outside => exact iff_of_true rfl rfl
  | copy str => exact iff_of_false (fun h => by cases h) Reading.noConfusion

/-- **A line of the file, and of the file with the newline.** -/
theorem seen_pair (hsize : (l.toEnd LF ++ z).length < 2 ^ 63)
    (hsize' : (l.toEnd LF ++ LF :: z').length < 2 ^ 63) (hz : Zeros z) (hz' : Zeros z') :
    seen (l.extend z) ≠ none ∧ seen (l.extend (LF :: z')) = seen (l.extend z) ↔
      SteadyRoute (z ≠ [] ∧ z' ≠ []) l := by
  unfold SteadyRoute
  by_cases hread : readLine l = .outside
  · have hne : l.toEnd LF ≠ [] := List.append_ne_nil_of_right_ne_nil _ (List.cons_ne_nil _ _)
    rw [seen_outside (readLine_zeros hsize hread hz),
      seen_outside (readLine_newline hsize' hread hz'), ← routeOf_concat_iff hne]
    by_cases hnil : z = []
    · simp [hnil, hread]
    · by_cases hnil' : z' = []
      · simp [hnil, hnil', hread]
      · simp [hnil, hnil', hread]
  · rw [seen_extend hread, seen_extend hread, Ne, seen_eq_none_iff]
    exact iff_of_true ⟨hread, rfl⟩ fun h => absurd h hread

/-- With the newline, there is still a route where there was one. -/
theorem seen_mono (hsize : (l.toEnd LF ++ z).length < 2 ^ 63)
    (hsize' : (l.toEnd LF ++ LF :: z').length < 2 ^ 63) (hz : Zeros z) (hz' : Zeros z')
    (hread' : seen (l.extend (LF :: z')) ≠ none) (h : (seen (l.extend z)).join.isSome) :
    (seen (l.extend (LF :: z'))).join.isSome := by
  by_cases hread : readLine l = .outside
  · rw [seen_outside (readLine_zeros hsize hread hz)] at h
    rw [seen_outside (readLine_newline hsize' hread hz')] at hread' ⊢
    have hnil : z ≠ [] := by
      rintro rfl
      cases h
    have hnil' : z' ≠ [] := by
      rintro rfl
      exact hread' rfl
    rw [if_neg hnil, Option.join_some] at h
    rw [if_neg hnil', Option.join_some]
    obtain ⟨r, hr⟩ := Option.isSome_iff_exists.mp h
    exact Option.isSome_iff_exists.mpr
      (routeOf_of_isPrefix (List.prefix_append (l.toEnd LF) [LF]) hr)
  · rw [seen_extend hread] at h ⊢
    exact h

/-- The line can be read, and is no route. -/
def NoRoute (l : Line Byte) : Prop := seen l = some none

/-- The table is all that is seen, of fewer than 2^32 routes. -/
theorem routesLines_some_iff {ls : List (Line Byte)} {routes : List ParsedRoute} :
    ls.foldlM routesLine [] = some routes ↔ (∀ l ∈ ls, seen l ≠ none) ∧
      (ls.filterMap fun l => (seen l).join) = routes ∧ routes.length < 2 ^ 32 := by
  rw [routesLines_eq [] _ (by decide)]
  constructor
  · intro h
    obtain ⟨rs, hrs, h⟩ := Option.bind_eq_some_iff.mp h
    obtain ⟨hread, rfl⟩ := mapM_seen_eq.mp hrs
    split_ifs at h with hlt
    rw [List.nil_append, List.reduceOption, List.filterMap_map] at h hlt
    obtain rfl := Option.some.inj h
    exact ⟨hread, rfl, hlt⟩
  · rintro ⟨hread, rfl, hlt⟩
    rw [mapM_seen_eq.mpr ⟨hread, rfl⟩, Option.bind_some, List.nil_append, List.reduceOption,
      List.filterMap_map]
    exact if_pos hlt

/-- **The table is the same** of a file before zeros, and with a newline behind it before zeros,
    if and only if every line is steady, there are fewer than 2^32 routes, and the last line is
    none. -/
theorem routes_newline_iff (hg : m'.file.bytes = m.file.bytes ++ [LF]) (hz : Zeros m.behind)
    (hz' : Zeros m'.behind) :
    (∃ routes, m.memoryLines.foldlM routesLine [] = some routes ∧
      m'.memoryLines.foldlM routesLine [] = some routes) ↔
      (∀ l ∈ lines LF m.file.bytes, SteadyRoute (m.behind ≠ [] ∧ m'.behind ≠ []) l) ∧
      (mappedRoutes m).length < 2 ^ 32 ∧ NoRoute (m.file.lastLine.extend m'.behind) := by
  have hpair : ∀ l ∈ lines LF m.file.bytes, seen (l.extend m.behind) ≠ none ∧
      seen (l.extend (LF :: m'.behind)) = seen (l.extend m.behind) ↔
        SteadyRoute (m.behind ≠ [] ∧ m'.behind ≠ []) l := fun l hl =>
    seen_pair (length_lt_newline hg hl).1 (length_lt_newline hg hl).2 hz hz'
  constructor
  · rintro ⟨routes, h, h'⟩
    obtain ⟨hread, hroutes, hfew⟩ := routesLines_some_iff.mp h
    obtain ⟨hread', hroutes', -⟩ := routesLines_some_iff.mp h'
    rw [memoryLines_newline hg, List.forall_mem_append, List.forall_mem_singleton,
      List.forall_mem_map] at hread'
    rw [memoryLines_newline hg, List.filterMap_append, List.filterMap_map, ← hroutes,
      Mapping.memoryLines, List.filterMap_map] at hroutes'
    rw [Mapping.memoryLines, List.forall_mem_map] at hread
    obtain ⟨hall, hnil⟩ := (filterMap_eq_append_iff fun l hl hsome =>
      seen_mono (length_lt_newline hg hl).1 (length_lt_newline hg hl).2 hz hz' (hread'.1 l hl)
        hsome).mp hroutes'.symm
    refine ⟨fun l hl => (hpair l hl).mp ⟨hread l hl, ?_⟩, ?_, ?_⟩
    · obtain ⟨r, hr⟩ := Option.ne_none_iff_exists'.mp (hread l hl)
      obtain ⟨r', hr'⟩ := Option.ne_none_iff_exists'.mp (hread'.1 l hl)
      have hjoin : (seen (l.extend m.behind)).join = (seen (l.extend (LF :: m'.behind))).join :=
        hall l hl
      rw [hr, hr', Option.join_some, Option.join_some] at hjoin
      rw [hr, hr', hjoin]
    · rw [mappedRoutes, hroutes]
      exact hfew
    · obtain ⟨r, hr⟩ := Option.ne_none_iff_exists'.mp hread'.2
      cases r with
      | none => exact hr
      | some r =>
        rw [List.filterMap_cons_some (b := r) (by rw [hr]; rfl)] at hnil
        cases hnil
  · rintro ⟨hsteady, hfew, hlast⟩
    have hread : ∀ l ∈ lines LF m.file.bytes, seen (l.extend m.behind) ≠ none :=
      fun l hl => ((hpair l hl).mpr (hsteady l hl)).1
    have hsame : ∀ l ∈ lines LF m.file.bytes,
        seen (l.extend (LF :: m'.behind)) = seen (l.extend m.behind) :=
      fun l hl => ((hpair l hl).mpr (hsteady l hl)).2
    refine ⟨mappedRoutes m, routesLines_some_iff.mpr ⟨?_, rfl, hfew⟩,
      routesLines_some_iff.mpr ⟨?_, ?_, hfew⟩⟩
    · rw [Mapping.memoryLines, List.forall_mem_map]
      exact hread
    · rw [memoryLines_newline hg, List.forall_mem_append, List.forall_mem_singleton,
        List.forall_mem_map, hlast]
      refine ⟨fun l hl => ?_, Option.some_ne_none _⟩
      rw [hsame l hl]
      exact hread l hl
    · rw [memoryLines_newline hg, List.filterMap_append, List.filterMap_map,
        List.filterMap_cons_none (by rw [hlast]; rfl), List.filterMap_nil, List.append_nil,
        mappedRoutes, Mapping.memoryLines, List.filterMap_map]
      refine List.filterMap_congr fun l hl => ?_
      show (seen (l.extend (LF :: m'.behind))).join = (seen (l.extend m.behind)).join
      rw [hsame l hl]

/-! ## Both loops -/

/-- `routes_parse` gives a table of both files, and `config_get` a result for every section and
    key, and they are the same of both. -/
def Same (m m' : Mapping) : Prop :=
  (∃ routes, m.memoryLines.foldlM routesLine [] = some routes ∧
    m'.memoryLines.foldlM routesLine [] = some routes) ∧
  ∀ sect key, ∃ r, (gotOf (configLines sect key none m.memoryLines)).returned = some r ∧
    (gotOf (configLines sect key none m'.memoryLines)).returned = some r

/-- Wherever a loop gets to what is behind the last newline, nothing is there for it; and the
    lines before it are read in the file, or there is nothing behind them but white space. -/
structure LastIdle (m m' : Mapping) : Prop where
  routes : ∀ l ∈ lines LF m.file.bytes, SteadyRoute (m.behind ≠ [] ∧ m'.behind ≠ []) l
  few : (mappedRoutes m).length < 2 ^ 32
  noRoute : NoRoute (m.file.lastLine.extend m'.behind)
  steady : ∀ sect key, Reached sect key (·.extend m.behind)
    (Steady (m.behind ≠ [] ∧ m'.behind ≠ []) key) none (lines LF m.file.bytes)
  idle : ∀ sect key found, configLines sect key none m.memoryLines = .ok found →
    Idle key found (m.file.lastLine.extend m'.behind)

/-- **A newline behind the file makes no difference if and only if** the lines before the last one
    are steady **and the last line is idle.** The pages of both files are filled with zeros. -/
theorem newline_iff (m m' : Mapping) (hg : m'.file.bytes = m.file.bytes ++ [LF])
    (hz : Zeros m.behind) (hz' : Zeros m'.behind) : Same m m' ↔ LastIdle m m' := by
  have hroutes := routes_newline_iff hg hz hz'
  have hget : ∀ sect key : Bytes, (∃ v,
      (gotOf (configLines sect key none m.memoryLines)).returned = some v ∧
        (gotOf (configLines sect key none m'.memoryLines)).returned = some v) ↔ _ :=
    fun sect key => configGet_newline_iff hg hz hz'
  constructor
  · rintro ⟨htable, hsame⟩
    obtain ⟨hsteady, hfew, hlast⟩ := hroutes.mp htable
    exact ⟨hsteady, hfew, hlast, fun sect key => ((hget sect key).mp (hsame sect key)).1,
      fun sect key => ((hget sect key).mp (hsame sect key)).2⟩
  · intro h
    exact ⟨hroutes.mpr ⟨h.routes, h.few, h.noRoute⟩,
      fun sect key => (hget sect key).mpr ⟨h.steady sect key, h.idle sect key⟩⟩

/-- A value, a key without one, and a line of white space that does not end, before zeros ... -/
def lastBlank : Mapping := ⟨⟨ascii "[server]\nlog-level = 0\nport =\n\t", by decide⟩, [NUL, NUL],
  by decide⟩

/-- ... and with a newline. -/
def lastBlankEnded : Mapping := ⟨⟨ascii "[server]\nlog-level = 0\nport =\n\t\n", by decide⟩, [NUL],
  by decide⟩

theorem lines_lastBlank : lines LF lastBlank.file.bytes =
    [⟨ascii "[server]", ascii "log-level = 0\nport =\n\t"⟩,
      ⟨ascii "log-level = 0", ascii "port =\n\t"⟩, ⟨ascii "port =", ascii "\t"⟩] := by
  decide +kernel

/-- `newline_iff` for these lines: the port is the empty string with the newline and without. -/
theorem newline_iff_lastBlank : Same lastBlank lastBlankEnded ∧
    (gotOf (configLines (ascii "server") (ascii "port") none lastBlank.memoryLines)).returned =
      some (some []) := by
  have hread : ∀ l ∈ lines LF lastBlank.file.bytes, readLine l = .copy l.text := by
    rw [lines_lastBlank]
    decide +kernel
  have hlast : readLine (lastBlank.file.lastLine.extend [NUL]) = .copy (ascii "\t") := by
    decide +kernel
  have hz' : Zeros lastBlankEnded.behind := List.forall_mem_singleton.mpr rfl
  have hz : Zeros lastBlank.behind := List.forall_mem_cons.mpr ⟨rfl, hz'⟩
  refine ⟨(newline_iff lastBlank lastBlankEnded rfl hz hz').mpr
    ⟨?_, by decide +kernel, seen_copy hlast, ?_, ?_⟩, by decide +kernel⟩
  · intro l hl houtside
    rw [hread l hl] at houtside
    cases houtside
  · intro sect key pre l post found hls _
    have hl : l ∈ lines LF lastBlank.file.bytes := by
      rw [hls]
      exact List.mem_append_right pre List.mem_cons_self
    rw [Steady, hread l hl]
    rw [lines_lastBlank] at hl
    intro _ hopen e he _
    rcases List.mem_cons.mp hl with rfl | hl
    · exact absurd rfl hopen
    rcases List.mem_cons.mp hl with rfl | hl
    · obtain rfl : 9 = e := Option.some.inj he
      exact .inl (.inl ⟨EQUALS, ascii " 0", by decide, .inl (by decide)⟩)
    · obtain rfl := List.mem_singleton.mp hl
      obtain rfl : 4 = e := Option.some.inj he
      have hblank : Blank (ascii "\n\t") :=
        List.forall_mem_cons.mpr ⟨by decide, List.forall_mem_singleton.mpr (by decide)⟩
      exact .inr ⟨⟨EQUALS, [], by decide, hblank⟩, List.cons_ne_nil _ _, List.cons_ne_nil _ _⟩
  · intro sect key found _
    have hidle : Idle key found (lastBlank.file.lastLine.extend [NUL]) := by
      rw [Idle, hlast]
      intro _ _ e he
      cases he
    exact hidle

/-- A key that does not end, and with a newline; ... -/
def lastKey : Mapping := ⟨⟨ascii "[server]\nport = 8080", by decide⟩, [NUL, NUL], by decide⟩
def lastKeyEnded : Mapping := ⟨portFile, [NUL], by decide⟩

/-- ... and a route. -/
def lastRoute : Mapping := ⟨⟨ascii "GET / alias www\n* /api proxy 10.0.0.1", by decide⟩, [NUL, NUL],
  by decide⟩
def lastRouteEnded : Mapping := ⟨⟨ascii "GET / alias www\n* /api proxy 10.0.0.1\n", by decide⟩, [NUL],
  by decide⟩

/-- Neither is there without a newline behind it. -/
theorem last_line_lost :
    (lastKeyEnded.file.bytes = lastKey.file.bytes ++ [LF] ∧
      lastKey.file.bytes.getLast? ≠ some LF ∧
      (gotOf (configLines (ascii "server") (ascii "port") none lastKey.memoryLines)).returned =
        some none ∧
      (gotOf (configLines (ascii "server") (ascii "port") none lastKeyEnded.memoryLines)).returned =
        some (some (ascii "8080")) ∧
      ¬ Same lastKey lastKeyEnded) ∧
    lastRouteEnded.file.bytes = lastRoute.file.bytes ++ [LF] ∧
      lastRoute.file.bytes.getLast? ≠ some LF ∧
      (lastRoute.memoryLines.foldlM routesLine []).map List.length = some 1 ∧
      (lastRouteEnded.memoryLines.foldlM routesLine []).map List.length = some 2 ∧
      ¬ Same lastRoute lastRouteEnded := by
  have hkey : (gotOf (configLines (ascii "server") (ascii "port") none
      lastKey.memoryLines)).returned = some none := by
    decide +kernel
  have hkey' : (gotOf (configLines (ascii "server") (ascii "port") none
      lastKeyEnded.memoryLines)).returned = some (some (ascii "8080")) := by
    decide +kernel
  have hroutes : (lastRoute.memoryLines.foldlM routesLine []).map List.length = some 1 := by
    decide +kernel
  have hroutes' : (lastRouteEnded.memoryLines.foldlM routesLine []).map List.length = some 2 := by
    decide +kernel
  refine ⟨⟨rfl, by decide, hkey, hkey', fun h => ?_⟩, rfl, by decide, hroutes, hroutes',
    fun h => ?_⟩
  · obtain ⟨r, hr, hr'⟩ := h.2 (ascii "server") (ascii "port")
    rw [hkey] at hr
    rw [hkey', ← hr] at hr'
    cases hr'
  · obtain ⟨routes, hr, hr'⟩ := h.1
    rw [hr] at hroutes
    rw [hr', hroutes] at hroutes'
    cases hroutes'

end Foxtails.Routing
