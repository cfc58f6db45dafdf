/-
  The methods of a route.

  `route_str_to_methods` gathers the bits of the methods that the items of a list name. Its result
  is a mask or -1; the mask of no methods is 0, which is not -1.

  * `testBit_mask`: the bit of a method.
  * `itemsMask_spec`: the loop over the items: exactly their bits, or -1.
  * `stands_iff`: the result is what the word stands for exactly when the word has an item.
  * `route_methods_iff`: so the routes of a table can match a request exactly when no line has a
    word for its methods that is nothing but commas.
-/
import Foxtails.Routing.Table
import Foxtails.Wire.Grammar

namespace Foxtails.Routing

open Foxtails.Lib.Scan Foxtails.Lib.Libc Foxtails.Lib.Lines Foxtails.Lib.Object Foxtails.Lib.Strtok
  Foxtails.Config Foxtails.Wire Foxtails.Serve

/-! ## Bits -/

/-- A method has one bit. -/
theorem mask_eq_two_pow (m : Method) : ∃ j, m.mask = 2 ^ j := by
  cases m with
  | get => exact ⟨0, rfl⟩
  | head => exact ⟨1, rfl⟩
  | post => exact ⟨2, rfl⟩
  | put => exact ⟨3, rfl⟩
  | delete => exact ⟨4, rfl⟩
  | connect => exact ⟨5, rfl⟩
  | options => exact ⟨6, rfl⟩
  | trace => exact ⟨7, rfl⟩
  | patch => exact ⟨8, rfl⟩

theorem testBit_mask (m : Method) (k : Nat) : m.mask.testBit k = true ↔ m.mask = 2 ^ k := by
  obtain ⟨j, hj⟩ := mask_eq_two_pow m
  rw [hj, Nat.testBit_two_pow, decide_eq_true_iff]
  constructor
  · intro h
    rw [h]
  · intro h
    exact Nat.pow_right_injective le_rfl h

/-- A request of some method can match. -/
def CanMatch (methods : Nat) : Prop := ∃ m : Method, methods &&& m.mask ≠ 0

theorem canMatch_of_testBit {methods k : Nat} {m : Method} (h : methods.testBit k = true)
    (hm : m.mask = 2 ^ k) : CanMatch methods := by
  refine ⟨m, fun hzero => ?_⟩
  have hbit := Nat.testBit_and methods m.mask k
  rw [hzero, Nat.zero_testBit, h, (testBit_mask m k).mpr hm] at hbit
  cases hbit

theorem not_canMatch_zero : ¬ CanMatch 0 := by
  rintro ⟨m, hm⟩
  exact hm (Nat.zero_and m.mask)

/-! ## The items of a list -/

/-- The bits of some methods, and no others. -/
def HasBits (mask : Nat) (items : List Bytes) : Prop :=
  ∀ k, mask.testBit k = true ↔ ∃ m : Method, m.text ∈ items ∧ m.mask = 2 ^ k

/-- An item without a blank is taken as it is. -/
theorem methodOfToken_eq_some {w : Bytes} (hblank : ∀ b ∈ w, isBlank b = false) (m : Method) :
    methodOfToken w = some m ↔ w = m.text := by
  have hdrop : w.dropWhile (fun b => b == SP || b == 9) = w := by
    cases w with
    | nil => rfl
    | cons b w =>
      have hb := hblank b List.mem_cons_self
      simp only [isBlank, Bool.or_eq_false_iff] at hb
      exact List.dropWhile_cons_of_neg (by simp [hb.1.1, hb.1.2])
  unfold methodOfToken
  rw [hdrop]
  constructor
  · exact httpMethodFromStr_eq_some
  · intro h
    rw [h, httpMethodFromStr_text]

/-- The loop over the items: the bits of all of them are added, or one of them is no method. -/
theorem itemsMask_spec (items : List Bytes) (methods : Nat)
    (hblank : ∀ w ∈ items, ∀ b ∈ w, isBlank b = false) :
    (∃ mask, items.foldlM (fun methods w => (methodOfToken w).map fun m => methods ||| m.mask)
        methods = some mask ∧ (∀ w ∈ items, ∃ m : Method, w = m.text) ∧
      ∀ k, mask.testBit k = true ↔
        methods.testBit k = true ∨ ∃ m : Method, m.text ∈ items ∧ m.mask = 2 ^ k) ∨
    (items.foldlM (fun methods w => (methodOfToken w).map fun m => methods ||| m.mask)
        methods = none ∧ ¬ ∀ w ∈ items, ∃ m : Method, w = m.text) := by
  induction items generalizing methods with
  | nil =>
    refine .inl ⟨methods, rfl, fun w hw => (List.not_mem_nil hw).elim, fun k => ?_⟩
    simp
  | cons w items ih =>
    have hw := hblank w List.mem_cons_self
    have hrest : ∀ v ∈ items, ∀ b ∈ v, isBlank b = false :=
      fun v hv => hblank v (List.mem_cons_of_mem w hv)
    rw [List.foldlM_cons]
    cases hm : methodOfToken w with
    | none =>
      refine .inr ⟨rfl, fun hall => ?_⟩
      obtain ⟨m, htext⟩ := hall w List.mem_cons_self
      rw [(methodOfToken_eq_some hw m).mpr htext] at hm
      cases hm
    | some m =>
      have htext := (methodOfToken_eq_some hw m).mp hm
      show (∃ mask, items.foldlM _ (methods ||| m.mask) = some mask ∧ _) ∨
        (items.foldlM _ (methods ||| m.mask) = none ∧ _)
      rcases ih (methods ||| m.mask) hrest with ⟨mask, hfold, hall, hbits⟩ | ⟨hfold, hno⟩
      · refine .inl ⟨mask, hfold, ?_, fun k => ?_⟩
        · intro v hv
          rcases List.mem_cons.mp hv with rfl | hv
          · exact ⟨m, htext⟩
          · exact hall v hv
        · rw [hbits k, Nat.testBit_or, Bool.or_eq_true, testBit_mask, or_assoc]
          refine or_congr_right ?_
          constructor
          · rintro (hk | ⟨m', hmem, hk⟩)
            · exact ⟨m, htext ▸ List.mem_cons_self, hk⟩
            · exact ⟨m', List.mem_cons_of_mem w hmem, hk⟩
          · rintro ⟨m', hmem, hk⟩
            rcases List.mem_cons.mp hmem with heq | hmem
            · left
              rw [← Method.text_injective (heq.trans htext)]
              exact hk
            · exact .inr ⟨m', hmem, hk⟩
      · exact .inr ⟨hfold, fun hall => hno fun v hv => hall v (List.mem_cons_of_mem w hv)⟩

/-! ## What a word stands for -/

/-- Every method; or the items of a list, if there is one and each names a method; or an error. -/
structure Stands (str : Bytes) (result : Option Nat) : Prop where
  all : isAll str = true → result = some requestAll
  methods : isAll str = false → words isComma str ≠ [] →
    (∀ w ∈ words isComma str, ∃ m : Method, w = m.text) →
      ∃ mask, result = some mask ∧ HasBits mask (words isComma str)
  error : isAll str = false →
    (words isComma str = [] ∨ ¬ ∀ w ∈ words isComma str, ∃ m : Method, w = m.text) → result = none

variable {str : Bytes}

theorem items_not_blank (hblank : ∀ b ∈ str, isBlank b = false) :
    ∀ w ∈ words isComma str, ∀ b ∈ w, isBlank b = false :=
  fun _ hw b hb => hblank b ((of_mem_words hw).1.subset hb)

/-- The word `*`, or `all` in any letter case, has an item. -/
theorem exists_item_of_isAll (h : isAll str = true) : ∃ b ∈ str, isComma b = false := by
  unfold isAll at h
  rcases Bool.or_eq_true _ _ ▸ h with h | h
  · obtain rfl := eq_of_beq h
    exact ⟨_, List.mem_cons_self, by decide⟩
  · rw [strcaseeq_iff] at h
    cases str with
    | nil => cases h
    | cons b str =>
      refine ⟨b, List.mem_cons_self, ?_⟩
      have hb : toLower b = toLower 65 := (List.cons.inj h).1
      by_contra hcomma
      rw [Bool.not_eq_false] at hcomma
      have h44 : b = 44 := by simpa [isComma] using hcomma
      rw [h44] at hb
      exact absurd hb (by decide)

/-- **The result is what the word stands for if and only if the word has an item**: a byte other
    than a comma. -/
theorem stands_iff (hnul : NUL ∉ str) (hblank : ∀ b ∈ str, isBlank b = false) :
    Stands str (routeStrToMethods str) ↔ ∃ b ∈ str, isComma b = false := by
  unfold routeStrToMethods
  cases hall : isAll str with
  | true =>
    refine iff_of_true ⟨fun _ => rfl, fun h => ?_, fun h => ?_⟩ (exists_item_of_isAll hall)
    · rw [hall] at h
      cases h
    · rw [hall] at h
      cases h
  | false =>
    have hitem : (∃ b ∈ str, isComma b = false) ↔ words isComma str ≠ [] := by
      rw [Ne, words_eq_nil_iff]
      simp
    rw [hitem, if_neg Bool.false_ne_true, methodsOfList_eq hnul]
    constructor
    · intro h hnil
      have herror := h.error hall (.inl hnil)
      rw [hnil] at herror
      cases herror
    · intro hne
      rcases itemsMask_spec (words isComma str) 0 (items_not_blank hblank) with
        ⟨mask, hfold, hnames, hbits⟩ | ⟨hfold, hno⟩
      · rw [hfold]
        refine ⟨fun h => ?_, fun _ _ _ => ⟨mask, rfl, fun k => ?_⟩, fun _ h => ?_⟩
        · rw [hall] at h
          cases h
        · rw [hbits k, Nat.zero_testBit, or_iff_right Bool.false_ne_true]
        · rcases h with h | h
          · exact absurd h hne
          · exact absurd hnames h
      · rw [hfold]
        refine ⟨fun h => ?_, fun _ _ hnames => absurd hnames hno, fun _ _ => rfl⟩
        rw [hall] at h
        cases h

/-- A result that is no error matches some request if and only if the word has an item. -/
theorem canMatch_iff (hnul : NUL ∉ str) (hblank : ∀ b ∈ str, isBlank b = false) {methods : Nat}
    (h : routeStrToMethods str = some methods) :
    CanMatch methods ↔ ∃ b ∈ str, isComma b = false := by
  cases hall : isAll str with
  | true =>
    rw [routeStrToMethods, hall, if_pos rfl] at h
    obtain rfl := Option.some.inj h
    exact iff_of_true ⟨.get, by decide⟩ (exists_item_of_isAll hall)
  | false =>
    constructor
    · intro hmatch
      by_contra hno
      push Not at hno
      have hnil : words isComma str = [] := by
        rw [words_eq_nil_iff]
        intro b hb
        simpa using hno b hb
      rw [routeStrToMethods, hall, if_neg Bool.false_ne_true, methodsOfList_eq hnul, hnil] at h
      obtain rfl := Option.some.inj h
      exact not_canMatch_zero hmatch
    · intro hitem
      have hstands := (stands_iff hnul hblank).mpr hitem
      have hne : words isComma str ≠ [] := by
        obtain ⟨b, hb, hcomma⟩ := hitem
        exact words_ne_nil hb hcomma
      have hnames : ∀ w ∈ words isComma str, ∃ m : Method, w = m.text := by
        by_contra hno
        rw [hstands.error hall (.inr hno)] at h
        cases h
      obtain ⟨mask, hmask, hbits⟩ := hstands.methods hall hne hnames
      obtain rfl := Option.some.inj (hmask.symm.trans h)
      obtain ⟨w, hw⟩ := List.exists_mem_of_ne_nil _ hne
      obtain ⟨m, rfl⟩ := hnames w hw
      obtain ⟨k, hk⟩ := mask_eq_two_pow m
      exact canMatch_of_testBit ((hbits k).mpr ⟨m, hw, hk⟩) hk

/-! ## The routes of a table -/

/-- The `ROUTE_TYPE_*` constants as numbers. -/
def RouteType.value : RouteType → Nat
  | .alias => 0
  | .reroute => 1
  | .proxy => 2

/-- `route_handlers`. -/
def routeHandlers : List (Env → Http → Route → Http) :=
  [handleAlias, fun _ _ route => handleReroute route, handleProxy]

/-- The handler of a route is the one its type indexes. -/
theorem routeHandlers_get (env : Env) (req : Http) (route : Route) :
    routeHandlers[RouteType.value route.type]?.map (fun handler => handler env req route) =
      some (routeHandler env req route) := by
  unfold routeHandler
  cases route.type <;> rfl

/-- A route can match, and there is a handler for it. -/
def Usable (r : ParsedRoute) : Prop :=
  RouteType.value r.type < routeHandlers.length ∧ CanMatch r.methods

theorem type_in_range (type : RouteType) : RouteType.value type < routeHandlers.length := by
  cases type <;> decide

/-- The word for the methods has an item. -/
def HasItem (str : Bytes) : Prop :=
  ∃ methodsStr ws, words isBlank str = methodsStr :: ws ∧ ∃ b ∈ methodsStr, isComma b = false

/-- The route of a line is usable if and only if its word for the methods has an item. -/
theorem usable_iff (hnul : NUL ∉ str) {r : ParsedRoute} (h : routeOf str = some r) :
    Usable r ↔ HasItem str := by
  unfold routeOf at h
  split_ifs at h
  split at h
  · rename_i methodsStr src typeStr dest ws hwords
    split at h
    · rename_i type methods htype hmethods
      obtain rfl := Option.some.inj h
      have hmem : methodsStr ∈ words isBlank str := by
        rw [hwords]
        exact List.mem_cons_self
      obtain ⟨hpart, hblank⟩ := of_mem_words hmem
      have hmatch := canMatch_iff (fun h => hnul (hpart.subset h)) hblank hmethods
      rw [Usable, and_iff_right (type_in_range type), hmatch]
      constructor
      · intro hitem
        exact ⟨methodsStr, _, hwords, hitem⟩
      · rintro ⟨methodsStr', ws', hwords', hitem⟩
        rw [(List.cons.inj (hwords.symm.trans hwords')).1]
        exact hitem
    · cases h
  · cases h

/-- **The methods of a route**: the result for a word is what the word stands for if and only if the
    word has an item; and every route of a table is usable if and only if every line that is a route
    has an item in its word for the methods. -/
theorem route_methods_iff (str : Bytes) (f : File) :
    (NUL ∉ str → (∀ b ∈ str, isBlank b = false) →
      (Stands str (routeStrToMethods str) ↔ ∃ b ∈ str, isComma b = false)) ∧
    ∀ routes, routesParse f = some routes →
      ((∀ r ∈ routes, Usable r) ↔
        ∀ l ∈ lines LF f.bytes, ∀ text, readLine l = .copy text → routeOf text ≠ none →
          HasItem text) := by
  refine ⟨stands_iff, fun routes h => ?_⟩
  constructor
  · intro husable l hl str hcopy hroute
    obtain ⟨r, hr⟩ := Option.ne_none_iff_exists'.mp hroute
    have hseen : seen l = some (some r) := by
      rw [seen_copy hcopy, hr]
    exact (usable_iff (not_mem_of_readLine hcopy) hr).mp
      (husable r ((mem_routesParse h).mpr ⟨l, hl, hseen⟩))
  · intro hitems r hr
    obtain ⟨l, hl, hseen⟩ := (mem_routesParse h).mp hr
    obtain ⟨str, hcopy, hroute⟩ := copy_of_seen hseen
    refine (usable_iff (not_mem_of_readLine hcopy) hroute).mpr (hitems l hl str hcopy ?_)
    rw [hroute]
    exact Option.some_ne_none r

/-- A file with a route. -/
def getFile : File := ⟨ascii "GET /old reroute /new\n", by decide⟩

/-- Both parts of `route_methods_iff` where they have something to say. -/
theorem route_methods_iff_two :
    ((Stands (ascii "GET,,POST,GET") (routeStrToMethods (ascii "GET,,POST,GET")) ↔
        ∃ b ∈ ascii "GET,,POST,GET", isComma b = false) ∧
      routeStrToMethods (ascii "GET,,POST,GET") = some (Method.mask .get ||| Method.mask .post)) ∧
    ∃ routes, routesParse getFile = some routes ∧ routes.length = 1 ∧
      ((∀ r ∈ routes, Usable r) ↔ ∀ l ∈ lines LF getFile.bytes, ∀ text,
        readLine l = .copy text → routeOf text ≠ none → HasItem text) := by
  obtain ⟨hword, htable⟩ := route_methods_iff (ascii "GET,,POST,GET") getFile
  refine ⟨⟨hword (by decide) (by decide +kernel), by decide +kernel⟩,
    [⟨.reroute, Method.mask .get, ascii "/old", ascii "/new"⟩], ?_, rfl, htable _ ?_⟩
  · decide +kernel
  · decide +kernel

/-- The mask of a comma is 0, and the route of such a line matches no request. -/
theorem comma_matches_nothing :
    (¬ Stands (ascii ",") (routeStrToMethods (ascii ","))) ∧
    ∃ routes, routesParse ⟨ascii ", /a alias /b\n", by decide⟩ = some routes ∧
      ¬ ∀ r ∈ routes, Usable r := by
  constructor
  · intro h
    have herror := h.error (by decide) (.inl (by decide))
    exact absurd herror (by decide)
  · refine ⟨[⟨.alias, 0, ascii "/a", ascii "/b"⟩], by decide +kernel, fun h => ?_⟩
    exact not_canMatch_zero (h _ List.mem_cons_self).2

end Foxtails.Routing
