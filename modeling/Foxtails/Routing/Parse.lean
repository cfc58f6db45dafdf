/-
  `routes_parse` of `utils/routing.c`, on the bytes of the file it has mapped.

  Model (read this before the theorems). A line is copied and cut with `strtok`; a route is
  made of the offsets of its words in the copy, which are taken in the mapped file. The table
  is the list of its routes: `append_route` makes room with `realloc`, which succeeds, except
  that the length is an `unsigned int`: for 2^32 routes it asks for no bytes at all, and the
  table is gone. The log is left out. The pool the copies and the routes are made in is the
  subject of `Routing.Memory`.

  * `methodsLoop_eq`: `route_str_to_methods` on the items of its list.
  * `lineTokens_cases`: the four words of a line.
  * `lineRoute_eq`: a copied line gives the route it stands for.
-/
import Foxtails.Lib.Strtok
import Foxtails.Config.Line
import Foxtails.Serve.Fetch

namespace Foxtails.Routing

open Foxtails.Lib.Scan Foxtails.Lib.Libc Foxtails.Lib.Lines Foxtails.Lib.Object Foxtails.Lib.Strtok
  Foxtails.Config Foxtails.Wire Foxtails.Serve

/-- The delimiters of a line: space, tab and vertical tab. -/
def isBlank (b : Byte) : Bool := b == SP || b == 9 || b == 11

/-- The delimiter of a list of methods. -/
def isComma (b : Byte) : Bool := b == 44

/-- `REQUEST_ALL`. -/
def requestAll : Nat :=
  [Method.get, .head, .post, .put, .delete, .connect, .options, .trace, .patch].foldl
    (fun methods m => methods ||| m.mask) 0

/-- `route_t`, with the strings it points to. -/
structure ParsedRoute where
  type : RouteType
  methods : Nat
  src : Bytes
  dest : Bytes
  deriving DecidableEq

/-- `route_str_to_type`, with `none` for -1. -/
def routeStrToType (str : Bytes) : Option RouteType :=
  if strcaseeq str (ascii "alias") then some .alias
  else if strcaseeq str (ascii "reroute") then some .reroute
  else if strcaseeq str (ascii "proxy") then some .proxy
  else none

/-- A token of the list, behind spaces and tabs. -/
def methodOfToken (tok : Bytes) : Option Method :=
  httpMethodFromStr (tok.dropWhile fun b => b == SP || b == 9)

/-- The loop over the list: the methods, or `none` for -1, and the copy as the loop leaves it.
    A call of `strtok` moves on, so the length of the list is fuel enough. -/
def methodsLoop : Nat → Cursor → Nat → Option Nat × Bytes
  | 0, c, _ => (none, c.obj)
  | fuel + 1, c, methods =>
    match c.call isComma with
    | (none, c) => (some methods, c.obj)
    | (some off, c) =>
      match methodOfToken (strAt c.obj off) with
      | none => (none, c.obj)
      | some m => methodsLoop fuel c (methods ||| m.mask)

/-- Every method, without a look at the list. -/
def isAll (str : Bytes) : Bool := str == ascii "*" || strcaseeq str (ascii "ALL")

/-- `route_str_to_methods` on the copy of its argument. -/
def methodsOfList (str : Bytes) : Option Nat × Bytes :=
  methodsLoop (str.length + 1) (Cursor.start str) 0

/-- `route_str_to_methods`, with `none` for -1. -/
def routeStrToMethods (str : Bytes) : Option Nat :=
  if isAll str then some requestAll else (methodsOfList str).1

/-- The words of a line: two as strings, and where the others are. -/
structure Tokens where
  methodsStr : Bytes
  routeOff : Nat
  routeLen : Nat
  typeStr : Bytes
  targetOff : Nat
  targetLen : Nat
  deriving DecidableEq

/-- The four calls of `strtok`: the words, and the copy as the calls leave it. -/
def lineTokens (str : Bytes) : Option Tokens × Bytes :=
  match (Cursor.start str).call isBlank with
  | (none, c) => (none, c.obj)
  | (some methodsOff, c) =>
    match c.call isBlank with
    | (none, c) => (none, c.obj)
    | (some routeOff, c) =>
      match c.call isBlank with
      | (none, c) => (none, c.obj)
      | (some typeOff, c) =>
        match c.call isBlank with
        | (none, c) => (none, c.obj)
        | (some targetOff, c) =>
          (some
            { methodsStr := strAt c.obj methodsOff
              routeOff
              routeLen := (strAt c.obj routeOff).length
              typeStr := strAt c.obj typeOff
              targetOff
              targetLen := (strAt c.obj targetOff).length }, c.obj)

inductive LineRoute where
  | malformed
  /-- Bytes outside the file are read. -/
  | outside
  | route (r : ParsedRoute)
  deriving DecidableEq

/-- A copied line. -/
def lineRoute (l : Line Byte) (str : Bytes) : LineRoute :=
  match (lineTokens str).1 with
  | none => .malformed
  | some t =>
    match routeStrToType t.typeStr with
    | none => .malformed
    | some type =>
      match routeStrToMethods t.methodsStr with
      | none => .malformed
      | some methods =>
        match readStr ((l.toEnd LF).drop t.targetOff) t.targetLen,
          readStr ((l.toEnd LF).drop t.routeOff) t.routeLen with
        | some dest, some src => .route { type, methods, src, dest }
        | _, _ => .outside

/-- `append_route`: the table, unless it is gone. -/
def appendRoute {α : Type} (routes : List α) (r : α) : Option (List α) :=
  if (routes.length + 1) % 2 ^ 32 = 0 then none else some (routes ++ [r])

/-- The body of the loop. -/
def routesLine (routes : List ParsedRoute) (l : Line Byte) : Option (List ParsedRoute) :=
  match readLine l with
  | .passed => some routes
  | .outside => none
  | .copy str =>
    match lineRoute l str with
    | .malformed => some routes
    | .outside => none
    | .route r => appendRoute routes r

/-- `routes_parse`: the table, or `none` where bytes outside the file are read or the table is
    gone. -/
def routesParse (f : File) : Option (List ParsedRoute) := (lines LF f.bytes).foldlM routesLine []

/-! ## The words of a list and of a line -/

variable {l : Line Byte} {str : Bytes}

theorem isBlank_nul : isBlank NUL = false := rfl

theorem isComma_nul : isComma NUL = false := rfl

theorem methodsLoop_eq (hstr : NUL ∉ str) (fuel : Nat) (c : Cursor) (methods : Nat) (hat : c.At str)
    (hfuel : str.length < fuel + c.pos) :
    (methodsLoop fuel c methods).1 = (words isComma (str.drop c.pos)).foldlM
      (fun methods w => (methodOfToken w).map fun m => methods ||| m.mask) methods := by
  induction fuel generalizing c methods with
  | zero =>
    have hle := hat.le
    omega
  | succ fuel ih =>
    rcases call_cases isComma_nul hstr hat with ⟨hwords, c', hcall, -⟩ | ⟨off, w, c', hcall, hcut⟩
    · rw [methodsLoop, hcall, hwords]
      rfl
    · have hprogress := hcut.progress
      rw [methodsLoop, hcall, hcut.words_eq, List.foldlM_cons]
      dsimp only
      rw [hcut.str]
      cases methodOfToken w with
      | none => rfl
      | some m => exact ih c' _ hcut.next (by omega)

/-- The methods of a list: those of its items, if each names one. -/
theorem methodsOfList_eq (hstr : NUL ∉ str) :
    (methodsOfList str).1 = (words isComma str).foldlM
      (fun methods w => (methodOfToken w).map fun m => methods ||| m.mask) 0 :=
  methodsLoop_eq hstr _ _ 0 (at_start str) (Nat.lt_succ_self _)

/-- The loop writes inside of its copy. -/
theorem methodsLoop_length (fuel : Nat) (c : Cursor) (methods : Nat) :
    (methodsLoop fuel c methods).2.length = c.obj.length := by
  induction fuel generalizing c methods with
  | zero => rfl
  | succ fuel ih =>
    have hlength := call_length isComma c
    rw [methodsLoop]
    cases hcall : c.call isComma with
    | mk off c' =>
      rw [hcall] at hlength
      cases off with
      | none => exact hlength
      | some off =>
        dsimp only
        cases methodOfToken (strAt c'.obj off) with
        | none => exact hlength
        | some m => exact (ih c' _).trans hlength

/-- The words that the offsets stand for. -/
structure TokensOf (str : Bytes) (t : Tokens) (w₁ w₂ w₃ w₄ : Bytes) : Prop where
  methodsStr : t.methodsStr = w₁
  typeStr : t.typeStr = w₃
  routeLen : t.routeLen = w₂.length
  route : (str.drop t.routeOff).take w₂.length = w₂
  targetLen : t.targetLen = w₄.length
  target : (str.drop t.targetOff).take w₄.length = w₄

/-- **The first four words of a line**, or fewer and the line is malformed. -/
theorem lineTokens_cases (hstr : NUL ∉ str) :
    ((lineTokens str).1 = none ∧ (words isBlank str).length < 4) ∨
      ∃ t w₁ w₂ w₃ w₄ ws, (lineTokens str).1 = some t ∧
        words isBlank str = w₁ :: w₂ :: w₃ :: w₄ :: ws ∧ TokensOf str t w₁ w₂ w₃ w₄ := by
  have hdrop : words isBlank str = words isBlank (str.drop (Cursor.start str).pos) := rfl
  rw [hdrop]
  unfold lineTokens
  rcases call_cases isBlank_nul hstr (at_start str) with
    ⟨hwords, c₁, hcall, -⟩ | ⟨o₁, w₁, c₁, hcall, hcut₁⟩
  · rw [hcall, hwords]
    exact .inl ⟨rfl, by decide⟩
  rw [hcall, hcut₁.words_eq]
  dsimp only
  rcases call_cases isBlank_nul hstr hcut₁.next with
    ⟨hwords, c₂, hcall, -⟩ | ⟨o₂, w₂, c₂, hcall, hcut₂⟩
  · rw [hcall, hwords]
    exact .inl ⟨rfl, by simp⟩
  rw [hcall, hcut₂.words_eq]
  dsimp only
  rcases call_cases isBlank_nul hstr hcut₂.next with
    ⟨hwords, c₃, hcall, -⟩ | ⟨o₃, w₃, c₃, hcall, hcut₃⟩
  · rw [hcall, hwords]
    exact .inl ⟨rfl, by simp⟩
  rw [hcall, hcut₃.words_eq]
  dsimp only
  rcases call_cases isBlank_nul hstr hcut₃.next with
    ⟨hwords, c₄, hcall, -⟩ | ⟨o₄, w₄, c₄, hcall, hcut₄⟩
  · rw [hcall, hwords]
    exact .inl ⟨rfl, by simp⟩
  rw [hcall, hcut₄.words_eq]
  -- a word that is followed by another one has its NUL, and keeps it
  have h₁ := hcut₁.closed (by rw [hcut₂.words_eq]; exact List.cons_ne_nil _ _)
  have h₂ := hcut₂.closed (by rw [hcut₃.words_eq]; exact List.cons_ne_nil _ _)
  have h₃ := hcut₃.closed (by rw [hcut₄.words_eq]; exact List.cons_ne_nil _ _)
  have hpos₂ := hcut₂.progress
  have hpos₃ := hcut₃.progress
  have hstr₁ : strAt c₄.obj o₁ = w₁ :=
    hcut₄.keeps (hcut₃.keeps (hcut₂.keeps hcut₁.str h₁) (by omega)) (by omega)
  have hstr₂ : strAt c₄.obj o₂ = w₂ := hcut₄.keeps (hcut₃.keeps hcut₂.str h₂) (by omega)
  have hstr₃ : strAt c₄.obj o₃ = w₃ := hcut₄.keeps hcut₃.str h₃
  exact .inr ⟨_, w₁, w₂, w₃, w₄, _, rfl, rfl, hstr₁, hstr₃, congrArg List.length hstr₂,
    hcut₂.part, congrArg List.length hcut₄.str, hcut₄.part⟩

theorem methodsStr_length_le (hstr : NUL ∉ str) {t : Tokens} (h : (lineTokens str).1 = some t) :
    t.methodsStr.length ≤ str.length := by
  rcases lineTokens_cases hstr with ⟨hnone, -⟩ | ⟨t', w₁, w₂, w₃, w₄, ws, hsome, hwords, htokens⟩
  · rw [hnone] at h
    cases h
  · rw [hsome] at h
    obtain rfl := Option.some.inj h
    have hmem : w₁ ∈ words isBlank str := by
      rw [hwords]
      exact List.mem_cons_self
    rw [htokens.methodsStr]
    exact length_le_of_mem_words hmem

/-- The calls write inside of the copy. -/
theorem lineTokens_length (str : Bytes) : (lineTokens str).2.length = str.length + 1 := by
  have hstart : (Cursor.start str).obj.length = str.length + 1 := by
    rw [Cursor.start, List.length_append, List.length_singleton]
  have hcall : ∀ (c c' : Cursor) (off : Option Nat), c.obj.length = str.length + 1 →
      c.call isBlank = (off, c') → c'.obj.length = str.length + 1 := by
    intro c c' off hc hcall
    have hlength := call_length isBlank c
    rw [hcall] at hlength
    exact hlength.trans hc
  unfold lineTokens
  split
  · next c h => exact hcall _ _ _ hstart h
  · next o c h =>
    have hc := hcall _ _ _ hstart h
    split
    · next c' h' => exact hcall _ _ _ hc h'
    · next o' c' h' =>
      have hc' := hcall _ _ _ hc h'
      split
      · next c'' h'' => exact hcall _ _ _ hc' h''
      · next o'' c'' h'' =>
        have hc'' := hcall _ _ _ hc' h''
        split
        · next c''' h''' => exact hcall _ _ _ hc'' h'''
        · next o''' c''' h''' => exact hcall _ _ _ hc'' h'''

/-! ## The route a line stands for -/

/-- What a line says: nothing in a comment; else its first four words, if the third is a type
    and the first names methods. -/
def routeOf (text : Bytes) : Option ParsedRoute :=
  if text.head? = some HASH then none
  else
    match words isBlank text with
    | methodsStr :: src :: typeStr :: dest :: _ =>
      match routeStrToType typeStr, routeStrToMethods methodsStr with
      | some type, some methods => some { type, methods, src, dest }
      | _, _ => none
    | _ => none

/-- A word of the copy is read in the mapped file. -/
theorem readStr_word {w : Bytes} {off : Nat} (hnul : NUL ∉ str) (hpart : str <+: l.toEnd LF)
    (hw : (str.drop off).take w.length = w) :
    readStr ((l.toEnd LF).drop off) w.length = some w := by
  have hword : w <+: str.drop off := hw ▸ List.take_prefix _ _
  refine readStr_of_isPrefix (hword.trans (hpart.drop off)) fun h => ?_
  exact hnul (List.mem_of_mem_drop (hword.subset h))

/-- **A copied line gives the route it stands for**, and nothing where it stands for none. -/
theorem lineRoute_eq (hnul : NUL ∉ str) (hpart : str <+: l.toEnd LF)
    (hcomment : str.head? ≠ some HASH) :
    lineRoute l str = match routeOf str with
      | none => .malformed
      | some r => .route r := by
  unfold lineRoute routeOf
  rw [if_neg hcomment]
  rcases lineTokens_cases hnul with ⟨hnone, hlt⟩ | ⟨t, w₁, w₂, w₃, w₄, ws, hsome, hwords, htokens⟩
  · rw [hnone]
    dsimp only
    split
    · next h =>
      rfl
    · next r h =>
      split at h
      · next hwords =>
        rw [hwords] at hlt
        simp only [List.length_cons] at hlt
        omega
      · cases h
  · obtain ⟨rfl, rfl, hlen₂, hroute, hlen₄, htarget⟩ := htokens
    rw [hsome, hwords]
    dsimp only
    rw [hlen₂, hlen₄, readStr_word hnul hpart hroute, readStr_word hnul hpart htarget]
    cases routeStrToType t.typeStr with
    | none => rfl
    | some type =>
      cases routeStrToMethods t.methodsStr with
      | none => rfl
      | some methods => rfl

end Foxtails.Routing
