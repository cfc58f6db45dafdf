/-
  The route table as a function of the lines.

  `seen l` is what the loop makes of a line: a route, nothing, or a read of bytes outside the
  file. The table is made of what is seen, in the order of the lines, as long as it has fewer
  than 2^32 routes.

  * `routesLine_eq`, `routesLines_eq`: one line, and all of them.
  * `seen_plain`: what is seen of a line without a NUL.
  * `table_iff`: the table is the routes the lines stand for exactly where every line fits.
-/
import Foxtails.Routing.Parse
import Mathlib.Data.List.ReduceOption

namespace Foxtails.Routing

open Foxtails.Lib.Scan Foxtails.Lib.Libc Foxtails.Lib.Lines Foxtails.Lib.Object Foxtails.Lib.Strtok
  Foxtails.Config

/-- What the loop makes of a line. -/
def seen (l : Line Byte) : Option (Option ParsedRoute) :=
  match readLine l with
  | .passed => some none
  | .outside => none
  | .copy str => some (routeOf str)

variable {l : Line Byte} {str : Bytes}

theorem seen_copy (h : readLine l = .copy str) : seen l = some (routeOf str) := by
  rw [seen, h]

/-- A route is seen in a copied line. -/
theorem copy_of_seen {r : ParsedRoute} (h : seen l = some (some r)) :
    ∃ str, readLine l = .copy str ∧ routeOf str = some r := by
  unfold seen at h
  split at h
  · cases h
  · cases h
  · exact ⟨_, ‹_›, Option.some.inj h⟩

/-- A copied line is no comment. -/
theorem head_of_copy (h : readLine l = .copy str) : str.head? ≠ some HASH := by
  intro hhead
  obtain ⟨t, rfl⟩ := List.head?_eq_some_iff.mp hhead
  obtain ⟨u, hu⟩ := isPrefix_toEnd_of_readLine h
  cases htext : l.text with
  | nil =>
    rw [readLine_nil htext] at h
    cases h
  | cons b text =>
    rw [Line.toEnd, htext] at hu
    have hb : HASH = b := (List.cons.inj hu).1
    rw [readLine_passed (.inl (by rw [htext, ← hb]; rfl))] at h
    cases h

theorem routesLine_eq (routes : List ParsedRoute) (l : Line Byte) :
    routesLine routes l = match seen l with
      | none => none
      | some none => some routes
      | some (some r) => appendRoute routes r := by
  unfold routesLine seen
  cases hread : readLine l with
  | passed => rfl
  | outside => rfl
  | copy str =>
    dsimp only
    rw [lineRoute_eq (not_mem_of_readLine hread) (isPrefix_toEnd_of_readLine hread)
      (head_of_copy hread)]
    cases routeOf str <;> rfl

/-- The table of some lines behind the routes that are there: all that is seen, as long as it
    is fewer than 2^32. -/
theorem routesLines_eq (routes : List ParsedRoute) (ls : List (Line Byte))
    (hlen : routes.length < 2 ^ 32) :
    ls.foldlM routesLine routes = (ls.mapM seen).bind fun rs =>
      if (routes ++ rs.reduceOption).length < 2 ^ 32 then some (routes ++ rs.reduceOption)
      else none := by
  induction ls generalizing routes with
  | nil =>
    show some routes = if (routes ++ []).length < 2 ^ 32 then some (routes ++ []) else none
    rw [List.append_nil, if_pos hlen]
  | cons l ls ih =>
    rw [List.foldlM_cons, List.mapM_cons, routesLine_eq]
    cases hseen : seen l with
    | none => rfl
    | some r =>
      cases r with
      | none =>
        show ls.foldlM routesLine routes = _
        rw [ih routes hlen]
        cases ls.mapM seen <;> rfl
      | some r =>
        show appendRoute routes r >>= _ = _
        have hlonger : ∀ rs : List (Option ParsedRoute),
            routes ++ (some r :: rs).reduceOption = routes ++ [r] ++ rs.reduceOption := by
          intro rs
          rw [List.reduceOption_cons_of_some, List.append_assoc, List.singleton_append]
        unfold appendRoute
        by_cases hfull : routes.length + 1 = 2 ^ 32
        · -- `realloc` is asked for no bytes
          rw [if_pos (by rw [hfull, Nat.mod_self])]
          cases ls.mapM seen with
          | none => rfl
          | some rs =>
            show none = if _ then _ else none
            rw [if_neg]
            rw [hlonger, List.length_append, List.length_append, List.length_singleton]
            omega
        · have hlt : (routes ++ [r]).length < 2 ^ 32 := by
            rw [List.length_append, List.length_singleton]
            omega
          rw [if_neg (by omega)]
          show ls.foldlM routesLine (routes ++ [r]) = _
          rw [ih _ hlt]
          cases ls.mapM seen with
          | none => rfl
          | some rs =>
            show (if _ then _ else _) = if _ then _ else _
            rw [hlonger]

theorem routesParse_eq (f : File) :
    routesParse f = ((lines LF f.bytes).mapM seen).bind fun rs =>
      if rs.reduceOption.length < 2 ^ 32 then some rs.reduceOption else none :=
  routesLines_eq [] _ (by decide)

theorem mapM_seen_eq {ls : List (Line Byte)} {rs : List (Option ParsedRoute)} :
    ls.mapM seen = some rs ↔ (∀ l ∈ ls, seen l ≠ none) ∧ rs = ls.map fun l => (seen l).join := by
  induction ls generalizing rs with
  | nil => simp [eq_comm]
  | cons l ls ih =>
    rw [List.mapM_cons, List.forall_mem_cons, List.map_cons]
    cases hl : seen l with
    | none => exact iff_of_false (fun h => by cases h) fun h => h.1.1 rfl
    | some r =>
      constructor
      · intro h
        rw [Option.bind_eq_bind, Option.bind_some] at h
        obtain ⟨rs', hrs', h⟩ := Option.bind_eq_some_iff.mp h
        obtain ⟨hread, rfl⟩ := ih.mp hrs'
        exact ⟨⟨Option.some_ne_none r, hread⟩, (Option.some.inj h).symm⟩
      · rintro ⟨⟨-, hread⟩, rfl⟩
        rw [ih.mpr ⟨hread, rfl⟩]
        rfl

/-- The routes of the table are those that were seen. -/
theorem mem_routesParse {f : File} {routes : List ParsedRoute} (h : routesParse f = some routes)
    {r : ParsedRoute} : r ∈ routes ↔ ∃ l ∈ lines LF f.bytes, seen l = some (some r) := by
  rw [routesParse_eq] at h
  obtain ⟨rs, hrs, hif⟩ := Option.bind_eq_some_iff.mp h
  split_ifs at hif
  obtain rfl := Option.some.inj hif
  obtain ⟨-, rfl⟩ := mapM_seen_eq.mp hrs
  rw [List.reduceOption_mem_iff, List.mem_map]
  refine exists_congr fun l => and_congr_right fun _ => ?_
  exact Option.join_eq_some_iff

/-! ## Lines without a NUL -/

/-- The part of a line that its length as an `int` leaves. -/
def cut (text : Bytes) : Bytes := text.take (castInt text.length).toNat

theorem routeOf_nil : routeOf [] = none := rfl

/-- Without a NUL, the loop sees the route of the part that is left; nothing is left where the
    length is negative. -/
theorem seen_plain {text rest : Bytes} (hnul : NUL ∉ (Line.mk text rest).toEnd LF)
    (hsize : ((Line.mk text rest).toEnd LF).length < 2 ^ 63) :
    seen ⟨text, rest⟩ =
      if text.head? = some HASH then some none
      else if castInt text.length < 0 then none
      else some (routeOf (cut text)) := by
  unfold seen
  by_cases hcomment : text.head? = some HASH
  · rw [readLine_passed (.inl hcomment), if_pos hcomment]
  · rw [if_neg hcomment]
    have hlen : lineLen ⟨text, rest⟩ = castInt text.length := rfl
    rcases lt_trichotomy (castInt text.length) 0 with hneg | hzero | hpos
    · rw [readLine_negative hsize (hlen ▸ hneg) hcomment, if_neg hnul, if_pos hneg]
    · have hcut : cut text = [] := by
        rw [cut, hzero]
        exact List.take_zero
      rw [readLine_passed (.inr (hlen ▸ hzero)), if_neg (by omega), hcut, routeOf_nil]
    · obtain ⟨n, hn, -, hnpos, hle⟩ := lineLen_cut (l := ⟨text, rest⟩) (hlen ▸ hpos)
      have hcut : cut text = text.take n := by
        rw [cut, ← hlen, hn]
        rfl
      rw [readLine_cut hn hnpos hle hcomment, if_neg (by omega), hcut, upto_of_not_mem]
      exact fun h => hnul (List.mem_append_left _ (List.mem_of_mem_take h))

/-- A line is read as it is, or at least it stands for the same route in what is left of it. -/
def Fits (text : Bytes) : Prop :=
  text.head? = some HASH ∨ 0 ≤ castInt text.length ∧ routeOf (cut text) = routeOf text

/-- A line whose length is an `int` fits. -/
theorem fits_of_length_lt {text : Bytes} (h : text.length < 2 ^ 31) : Fits text := by
  have hlen : castInt text.length = text.length := castInt_of_lt h
  have hcut : cut text = text := by
    rw [cut, hlen, Int.toNat_natCast, List.take_length]
  exact .inr ⟨by omega, by rw [hcut]⟩

/-- What is seen of a text. -/
def seenText (text : Bytes) : Option (Option ParsedRoute) :=
  if text.head? = some HASH then some none
  else if castInt text.length < 0 then none
  else some (routeOf (cut text))

theorem mapM_seen {texts : List Bytes} (hnul : ∀ t ∈ texts, NUL ∉ t)
    (hsize : (ended LF texts).length < 2 ^ 63) :
    (endedLines LF texts).mapM seen = texts.mapM seenText := by
  induction texts with
  | nil => rfl
  | cons t texts ih =>
    have hended : NUL ∉ ended LF texts := by
      intro h
      obtain ⟨xs, hxs, hmem⟩ := List.mem_flatten.mp h
      obtain ⟨u, hu, rfl⟩ := List.mem_map.mp hxs
      rcases List.mem_append.mp hmem with hmem | hmem
      · exact hnul u (List.mem_cons_of_mem t hu) hmem
      · exact absurd (List.mem_singleton.mp hmem) (by decide)
    have htoEnd : NUL ∉ (Line.mk t (ended LF texts)).toEnd LF := by
      rw [Line.toEnd, List.mem_append, List.mem_cons, not_or, not_or]
      exact ⟨hnul t List.mem_cons_self, by decide, hended⟩
    rw [ended_cons] at hsize
    have htail : (ended LF texts).length < 2 ^ 63 := by
      rw [List.length_append, List.length_cons] at hsize
      omega
    have hseen : seen ⟨t, ended LF texts⟩ = seenText t := seen_plain htoEnd hsize
    rw [endedLines, List.mapM_cons, List.mapM_cons, hseen,
      ih (fun u hu => hnul u (List.mem_cons_of_mem t hu)) htail]

/-- A route that is cut is still one: the first three words of the whole line are the same. -/
theorem routeOf_of_isPrefix {text : Bytes} {r : ParsedRoute} (hpart : str <+: text)
    (hr : routeOf str = some r) : ∃ r', routeOf text = some r' := by
  unfold routeOf at hr ⊢
  split_ifs at hr with hcomment
  have hhead : text.head? ≠ some HASH := by
    obtain ⟨t, rfl⟩ := hpart
    cases str with
    | nil => cases hr
    | cons b str => exact hcomment
  rw [if_neg hhead]
  split at hr
  · next methodsStr src typeStr dest ws hwords =>
    obtain ⟨init, w, hinit⟩ : ∃ init w, dest :: ws = init ++ [w] :=
      ⟨_, _, (List.dropLast_append_getLast (List.cons_ne_nil dest ws)).symm⟩
    have hsplit : words isBlank str = (methodsStr :: src :: typeStr :: init) ++ [w] := by
      rw [hwords, hinit]
      rfl
    obtain ⟨w', more, hmore⟩ := words_of_isPrefix hpart hsplit
    obtain ⟨dest', ws', hdest⟩ : ∃ dest' ws', init ++ w' :: more = dest' :: ws' :=
      List.exists_cons_of_ne_nil (List.append_ne_nil_of_right_ne_nil _ (List.cons_ne_nil _ _))
    rw [hmore, List.cons_append, List.cons_append, List.cons_append, hdest]
    dsimp only
    split at hr
    · exact ⟨_, rfl⟩
    · cases hr
  · cases hr

/-! ## Files of lines -/

/-- A routes file: lines that end, without a NUL. -/
structure RoutesFile where
  texts : List Bytes
  lf : ∀ t ∈ texts, LF ∉ t
  nul : ∀ t ∈ texts, NUL ∉ t
  size_lt : (ended LF texts).length < 2 ^ 63

def RoutesFile.file (f : RoutesFile) : File := ⟨ended LF f.texts, f.size_lt⟩

/-- The routes the lines stand for. -/
def RoutesFile.routes (f : RoutesFile) : List ParsedRoute := f.texts.filterMap routeOf

theorem routesParse_file (f : RoutesFile) :
    routesParse f.file = (f.texts.mapM seenText).bind fun rs =>
      if rs.reduceOption.length < 2 ^ 32 then some rs.reduceOption else none := by
  have hlines : lines LF f.file.bytes = endedLines LF f.texts := lines_ended f.lf
  rw [routesParse_eq, hlines, mapM_seen f.nul f.size_lt]

theorem seenText_of_fits {text : Bytes} (h : Fits text) : seenText text = some (routeOf text) := by
  unfold seenText
  by_cases hcomment : text.head? = some HASH
  · rw [if_pos hcomment, routeOf, if_pos hcomment]
  · obtain ⟨hnonneg, hcut⟩ := h.resolve_left hcomment
    rw [if_neg hcomment, if_neg (not_lt.mpr hnonneg), hcut]

theorem mapM_seenText_of_fits {texts : List Bytes} (h : ∀ t ∈ texts, Fits t) :
    texts.mapM seenText = some (texts.map routeOf) := by
  induction texts with
  | nil => rfl
  | cons t texts ih =>
    rw [List.mapM_cons, seenText_of_fits (h t List.mem_cons_self),
      ih fun u hu => h u (List.mem_cons_of_mem t hu)]
    rfl

/-- What is seen of a line is what it stands for, and it fits, or something else is seen; a
    route is seen only where there is one. -/
theorem seenText_cases {text : Bytes} {r : Option ParsedRoute} (h : seenText text = some r) :
    (r = routeOf text ∧ Fits text) ∨ r ≠ routeOf text ∧ ∃ q, routeOf text = some q := by
  unfold seenText at h
  by_cases hcomment : text.head? = some HASH
  · rw [if_pos hcomment] at h
    obtain rfl := Option.some.inj h
    exact .inl ⟨by rw [routeOf, if_pos hcomment], .inl hcomment⟩
  · rw [if_neg hcomment] at h
    split_ifs at h with hneg
    obtain rfl := Option.some.inj h
    by_cases heq : routeOf (cut text) = routeOf text
    · exact .inl ⟨heq, .inr ⟨not_lt.mp hneg, heq⟩⟩
    · refine .inr ⟨heq, ?_⟩
      cases hcut : routeOf (cut text) with
      | none => exact Option.ne_none_iff_exists'.mp fun h => heq (hcut.trans h.symm)
      | some q => exact routeOf_of_isPrefix (List.take_prefix _ _) hcut

/-- The table has no more routes than the lines stand for; if it has these, every line fits. -/
theorem mapM_seenText {texts : List Bytes} {rs : List (Option ParsedRoute)}
    (h : texts.mapM seenText = some rs) :
    rs.reduceOption.length ≤ (texts.filterMap routeOf).length ∧
      (rs.reduceOption = texts.filterMap routeOf → ∀ t ∈ texts, Fits t) := by
  induction texts generalizing rs with
  | nil =>
    obtain rfl : [] = rs := Option.some.inj h
    exact ⟨le_rfl, fun _ t ht => by cases ht⟩
  | cons t texts ih =>
    rw [List.mapM_cons] at h
    obtain ⟨r, hr, h⟩ := Option.bind_eq_some_iff.mp h
    obtain ⟨rs', hrs, h⟩ := Option.bind_eq_some_iff.mp h
    obtain rfl := Option.some.inj h
    obtain ⟨hle, hfits⟩ := ih hrs
    rcases seenText_cases hr with ⟨rfl, hfit⟩ | ⟨hne, q, hq⟩
    · -- the line is seen as it is
      have hall : (rs'.reduceOption = texts.filterMap routeOf) → ∀ u ∈ t :: texts, Fits u := by
        intro heq u hu
        rcases List.mem_cons.mp hu with rfl | hu
        · exact hfit
        · exact hfits heq u hu
      cases hq : routeOf t with
      | none =>
        rw [List.reduceOption_cons_of_none, List.filterMap_cons_none hq]
        exact ⟨hle, hall⟩
      | some q =>
        rw [List.reduceOption_cons_of_some, List.filterMap_cons_some hq]
        refine ⟨Nat.succ_le_succ hle, fun heq => hall (List.cons.inj heq).2⟩
    · -- it stands for a route that is not seen
      rw [List.filterMap_cons_some hq]
      cases r with
      | none =>
        rw [List.reduceOption_cons_of_none, List.length_cons]
        refine ⟨Nat.le_succ_of_le hle, fun heq => ?_⟩
        rw [heq, List.length_cons] at hle
        omega
      | some r =>
        rw [List.reduceOption_cons_of_some]
        refine ⟨Nat.succ_le_succ hle, fun heq => ?_⟩
        exact absurd (hq.trans (congrArg some (List.cons.inj heq).1.symm)) (Ne.symm hne)

/-- **The table is the routes the lines stand for** if and only if every line fits and there are
    fewer than 2^32 of them. -/
theorem table_iff (f : RoutesFile) :
    routesParse f.file = some f.routes ↔ (∀ t ∈ f.texts, Fits t) ∧ f.routes.length < 2 ^ 32 := by
  rw [routesParse_file, RoutesFile.routes]
  constructor
  · intro h
    obtain ⟨rs, hrs, h⟩ := Option.bind_eq_some_iff.mp h
    split_ifs at h with hlen
    have heq := Option.some.inj h
    exact ⟨(mapM_seenText hrs).2 heq, heq ▸ hlen⟩
  · rintro ⟨hfits, hlen⟩
    have hmap : f.texts.mapM seenText = some (f.texts.map routeOf) :=
      mapM_seenText_of_fits hfits
    have hreduce : (f.texts.map routeOf).reduceOption = f.texts.filterMap routeOf := by
      rw [List.reduceOption, List.filterMap_map]
      rfl
    rw [hmap]
    show (if _ then _ else _) = _
    rw [hreduce, if_pos hlen]

end Foxtails.Routing
