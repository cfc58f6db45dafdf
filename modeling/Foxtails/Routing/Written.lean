/-
  The tables that a routes file can give.

  Model (read this before the theorems). `writtenRoute r` is a line for the route `r`: the methods
  of its mask, each with a comma behind it and one more in front, its source, its type and its
  target, with spaces between them. The mask of no methods is then a word of one comma, which
  `route_str_to_methods` takes.

  * `routeOf_written`: the line stands for the route, if the route is `Writable`.
  * `routesParse_written`: a table of writable routes is read back from its lines.
  * `writable_of_seen`: every route that is read in a file of less than 2 GiB is writable.
  * `tables_iff`: so the tables that such files give are the tables of writable routes.
-/
import Foxtails.Routing.Methods

namespace Foxtails.Routing

open Foxtails.Lib.Scan Foxtails.Lib.Libc Foxtails.Lib.Lines Foxtails.Lib.Object Foxtails.Lib.Strtok
  Foxtails.Config Foxtails.Wire Foxtails.Serve

/-! ## Lines for routes -/

def RouteType.text : RouteType → Bytes
  | .alias => ascii "alias"
  | .reroute => ascii "reroute"
  | .proxy => ascii "proxy"

def allMethods : List Method :=
  [.get, .head, .post, .put, .delete, .connect, .options, .trace, .patch]

/-- The names of the methods of a mask. -/
def methodNames (methods : Nat) : List Bytes :=
  (allMethods.filter fun m => methods &&& m.mask != 0).map Method.text

/-- A list of methods, with a comma in front of it. -/
def methodsText (methods : Nat) : Bytes := 44 :: ended 44 (methodNames methods)

def writtenRoute (r : ParsedRoute) : Bytes :=
  methodsText r.methods ++ SP :: (r.src ++ SP :: (RouteType.text r.type ++ SP :: r.dest))

def writtenTable (routes : List ParsedRoute) : Bytes := ended LF (routes.map writtenRoute)

/-- A word of a line. -/
structure IsWord (w : Bytes) : Prop where
  ne_nil : w ≠ []
  plain : ∀ b ∈ w, isBlank b = false ∧ b ≠ LF ∧ b ≠ NUL

structure Writable (r : ParsedRoute) : Prop where
  methods : r.methods < 2 ^ 9
  src : IsWord r.src
  dest : IsWord r.dest

/-! ## Methods -/

/-- A property of the bytes of a text, byte by byte. -/
theorem forall_of_all {p : Byte → Prop} [DecidablePred p] {bs : Bytes}
    (h : (bs.all fun b => decide (p b)) = true) : ∀ b ∈ bs, p b := fun b hb =>
  of_decide_eq_true (List.all_eq_true.mp h b hb)

theorem text_plain (m : Method) :
    m.text ≠ [] ∧ ∀ b ∈ m.text, isBlank b = false ∧ b ≠ LF ∧ b ≠ NUL ∧ isComma b = false := by
  cases m <;> exact ⟨by decide, forall_of_all (by decide)⟩

theorem mem_allMethods (m : Method) : m ∈ allMethods := by cases m <;> decide

theorem mem_methodNames {methods : Nat} {w : Bytes} :
    w ∈ methodNames methods ↔ ∃ m : Method, methods &&& m.mask ≠ 0 ∧ w = m.text := by
  unfold methodNames
  rw [List.mem_map]
  refine exists_congr fun m => ?_
  rw [List.mem_filter, bne_iff_ne, eq_comm]
  exact and_congr_left fun _ => and_iff_right (mem_allMethods m)

theorem words_ended {ts : List Bytes} (h : ∀ t ∈ ts, t ≠ [] ∧ ∀ b ∈ t, isComma b = false) :
    words isComma (ended 44 ts) = ts := by
  induction ts with
  | nil => rfl
  | cons t ts ih =>
    obtain ⟨hne, hplain⟩ := h t List.mem_cons_self
    rw [ended_cons, words_word _ hplain hne rfl, ih fun u hu => h u (List.mem_cons_of_mem t hu)]

theorem words_methodsText (methods : Nat) : words isComma (methodsText methods) = methodNames methods := by
  have hnames : ∀ t ∈ methodNames methods, t ≠ [] ∧ ∀ b ∈ t, isComma b = false := by
    intro t ht
    obtain ⟨m, -, rfl⟩ := mem_methodNames.mp ht
    exact ⟨(text_plain m).1, fun b hb => ((text_plain m).2 b hb).2.2.2⟩
  have hskip : words isComma ([44] ++ ended 44 (methodNames methods)) =
      words isComma (ended 44 (methodNames methods)) := words_skip _ (forall_of_all (by decide))
  exact hskip.trans (words_ended hnames)

theorem methodsText_plain (methods : Nat) :
    ∀ b ∈ methodsText methods, isBlank b = false ∧ b ≠ LF ∧ b ≠ NUL := by
  intro b hb
  obtain rfl | hb := List.mem_cons.mp hb
  · decide
  · obtain ⟨t, ht, hb⟩ := List.mem_flatten.mp hb
    obtain ⟨w, hw, rfl⟩ := List.mem_map.mp ht
    obtain ⟨m, -, rfl⟩ := mem_methodNames.mp hw
    obtain hb | hb := List.mem_append.mp hb
    · obtain ⟨h1, h2, h3, -⟩ := (text_plain m).2 b hb
      exact ⟨h1, h2, h3⟩
    · rw [List.mem_singleton.mp hb]
      decide

/-- A mask has the bits of its methods. -/
theorem hasBits_methodNames {methods : Nat} (h : methods < 2 ^ 9) :
    HasBits methods (methodNames methods) := by
  have hevery : ∀ k < 9, ∃ m ∈ allMethods, m.mask = 2 ^ k := by decide
  intro k
  constructor
  · intro hbit
    have hk : k < 9 := by
      by_contra hge
      have hsmall : methods < 2 ^ k := h.trans_le (Nat.pow_le_pow_right (by decide) (not_lt.mp hge))
      rw [Nat.testBit_lt_two_pow hsmall] at hbit
      cases hbit
    obtain ⟨m, -, hm⟩ := hevery k hk
    refine ⟨m, mem_methodNames.mpr ⟨m, fun hzero => ?_, rfl⟩, hm⟩
    have hand := Nat.testBit_and methods m.mask k
    rw [hzero, Nat.zero_testBit, hbit, (testBit_mask m k).mpr hm] at hand
    cases hand
  · rintro ⟨m, hmem, hm⟩
    obtain ⟨m', hne, htext⟩ := mem_methodNames.mp hmem
    rw [← Method.text_injective htext, hm] at hne
    by_contra hbit
    rw [Bool.not_eq_true] at hbit
    apply hne
    apply Nat.eq_of_testBit_eq
    intro j
    rw [Nat.testBit_and, Nat.testBit_two_pow, Nat.zero_testBit]
    by_cases hj : k = j
    · rw [← hj, hbit, Bool.false_and]
    · rw [decide_eq_false hj, Bool.and_false]

theorem routeStrToMethods_text {methods : Nat} (h : methods < 2 ^ 9) :
    routeStrToMethods (methodsText methods) = some methods := by
  have hnul : NUL ∉ methodsText methods := fun hmem => (methodsText_plain methods _ hmem).2.2 rfl
  have hall : isAll (methodsText methods) = false := by
    have hcase : strcaseeq (methodsText methods) (ascii "ALL") = false := by
      rw [← Bool.not_eq_true, strcaseeq_iff]
      intro heq
      exact absurd (congrArg List.head? heq) (by decide : some (toLower 44) ≠ some (toLower 65))
    unfold isAll
    rw [hcase, Bool.or_false]
    apply beq_false_of_ne
    intro heq
    exact absurd (congrArg List.head? heq) (by decide : some (44 : Byte) ≠ some 42)
  have hblank : ∀ w ∈ methodNames methods, ∀ b ∈ w, isBlank b = false := by
    intro w hw b hb
    obtain ⟨m, -, rfl⟩ := mem_methodNames.mp hw
    exact ((text_plain m).2 b hb).1
  unfold routeStrToMethods
  rw [hall, if_neg Bool.false_ne_true, methodsOfList_eq hnul, words_methodsText]
  obtain ⟨mask, hfold, -, hbits⟩ | ⟨-, hno⟩ := itemsMask_spec (methodNames methods) 0 hblank
  · rw [hfold]
    congr 1
    apply Nat.eq_of_testBit_eq
    intro k
    rw [Bool.eq_iff_iff, hbits k, hasBits_methodNames h k]
    simp
  · refine absurd (fun w hw => ?_) hno
    obtain ⟨m, -, rfl⟩ := mem_methodNames.mp hw
    exact ⟨m, rfl⟩

/-! ## One line -/

theorem routeStrToType_text (type : RouteType) :
    routeStrToType (RouteType.text type) = some type := by
  cases type <;> decide

theorem isWord_type (type : RouteType) : IsWord (RouteType.text type) := by
  cases type with
  | «alias» => exact ⟨by decide, forall_of_all (by decide)⟩
  | reroute => exact ⟨by decide, forall_of_all (by decide)⟩
  | proxy => exact ⟨by decide, forall_of_all (by decide)⟩

theorem isWord_methods (methods : Nat) : IsWord (methodsText methods) :=
  ⟨List.cons_ne_nil _ _, methodsText_plain methods⟩

theorem IsWord.not_blank {w : Bytes} (h : IsWord w) : ∀ b ∈ w, isBlank b = false :=
  fun b hb => (h.plain b hb).1

/-- **A written route is read back.** -/
theorem routeOf_written {r : ParsedRoute} (h : Writable r) : routeOf (writtenRoute r) = some r := by
  have hsp : isBlank SP = true := rfl
  have hmethods := isWord_methods r.methods
  have htype := isWord_type r.type
  have hwords : words isBlank (writtenRoute r) =
      [methodsText r.methods, r.src, RouteType.text r.type, r.dest] := by
    unfold writtenRoute
    rw [words_word _ hmethods.not_blank hmethods.ne_nil hsp,
      words_word _ h.src.not_blank h.src.ne_nil hsp,
      words_word _ htype.not_blank htype.ne_nil hsp, words_of_not h.dest.not_blank h.dest.ne_nil]
  have hhead : (writtenRoute r).head? ≠ some HASH := by
    show some (44 : Byte) ≠ some HASH
    decide
  unfold routeOf
  rw [if_neg hhead, hwords]
  dsimp only
  rw [routeStrToType_text, routeStrToMethods_text h.methods]

theorem writtenRoute_plain {r : ParsedRoute} (h : Writable r) :
    LF ∉ writtenRoute r ∧ NUL ∉ writtenRoute r := by
  have hsp : SP ≠ LF ∧ SP ≠ NUL := by decide
  have hall : ∀ b ∈ writtenRoute r, b ≠ LF ∧ b ≠ NUL := by
    intro b hb
    unfold writtenRoute at hb
    simp only [List.mem_append, List.mem_cons] at hb
    obtain hb | rfl | hb | rfl | hb | rfl | hb := hb
    · exact (methodsText_plain r.methods b hb).2
    · exact hsp
    · exact (h.src.plain b hb).2
    · exact hsp
    · exact ((isWord_type r.type).plain b hb).2
    · exact hsp
    · exact (h.dest.plain b hb).2
  exact ⟨fun hmem => (hall _ hmem).1 rfl, fun hmem => (hall _ hmem).2 rfl⟩

/-! ## Whole files -/

theorem length_le_ended (ts : List Bytes) : ts.length ≤ (ended LF ts).length := by
  induction ts with
  | nil => exact Nat.le_refl 0
  | cons t ts ih =>
    rw [ended_cons, List.length_append, List.length_cons, List.length_cons]
    omega

theorem length_lt_ended {t : Bytes} {ts : List Bytes} (h : t ∈ ts) :
    t.length < (ended LF ts).length := by
  have hsub : t ++ [LF] <:+: ended LF ts :=
    List.infix_of_mem_flatten (List.mem_map.mpr ⟨t, h, rfl⟩)
  have hle := hsub.length_le
  rw [List.length_append, List.length_singleton] at hle
  omega

/-- **A table that is written is read back.** -/
theorem routesParse_written {routes : List ParsedRoute} (h : ∀ r ∈ routes, Writable r)
    (hsize : (writtenTable routes).length < 2 ^ 31) :
    ∃ f : File, f.bytes = writtenTable routes ∧ routesParse f = some routes := by
  let f : RoutesFile :=
    { texts := routes.map writtenRoute
      lf := by
        intro t ht
        obtain ⟨r, hr, rfl⟩ := List.mem_map.mp ht
        exact (writtenRoute_plain (h r hr)).1
      nul := by
        intro t ht
        obtain ⟨r, hr, rfl⟩ := List.mem_map.mp ht
        exact (writtenRoute_plain (h r hr)).2
      size_lt := hsize.trans (by decide) }
  have hfits : ∀ t ∈ f.texts, Fits t := fun t ht => fits_of_length_lt ((length_lt_ended ht).trans hsize)
  have hroutes : (f.texts.map routeOf).reduceOption = routes := by
    have hmap : f.texts.map routeOf = routes.map some := by
      rw [List.map_map]
      exact List.map_congr_left fun r hr => routeOf_written (h r hr)
    rw [hmap]
    unfold List.reduceOption
    rw [List.filterMap_map]
    exact List.filterMap_some
  have hcount : routes.length < 2 ^ 32 := by
    have hle := length_le_ended (routes.map writtenRoute)
    rw [List.length_map] at hle
    have hsize' : (ended LF (routes.map writtenRoute)).length < 2 ^ 31 := hsize
    omega
  refine ⟨f.file, rfl, ?_⟩
  rw [routesParse_file, mapM_seenText_of_fits hfits]
  show (if _ then _ else _) = _
  rw [hroutes, if_pos hcount]

/-! ## What can be read -/

/-- A mask that was read has bits of methods only. -/
theorem methods_lt {str : Bytes} {methods : Nat} (hnul : NUL ∉ str)
    (hblank : ∀ b ∈ str, isBlank b = false) (h : routeStrToMethods str = some methods) :
    methods < 2 ^ 9 := by
  unfold routeStrToMethods at h
  split_ifs at h with hall
  · rw [← Option.some.inj h]
    decide
  · rw [methodsOfList_eq hnul] at h
    obtain ⟨mask, hfold, -, hbits⟩ | ⟨hnone, -⟩ :=
      itemsMask_spec (words isComma str) 0 (items_not_blank hblank)
    · rw [h] at hfold
      obtain rfl := Option.some.inj hfold
      apply Nat.lt_pow_two_of_testBit
      intro k hk
      by_contra hbit
      rw [Bool.not_eq_false, hbits k, Nat.zero_testBit] at hbit
      obtain hbit | ⟨m, -, hm⟩ := hbit
      · cases hbit
      · have hmask : m.mask < 2 ^ 9 := by cases m <;> decide
        rw [hm] at hmask
        exact absurd ((Nat.pow_lt_pow_iff_right (by decide)).mp hmask) (by omega)
    · rw [h] at hnone
      cases hnone

theorem isWord_of_mem {str w : Bytes} (hlf : LF ∉ str) (hnul : NUL ∉ str)
    (h : w ∈ words isBlank str) : IsWord w := by
  obtain ⟨hinside, hblank⟩ := of_mem_words h
  refine ⟨?_, fun b hb => ⟨hblank b hb, ?_, ?_⟩⟩
  · unfold words at h
    simpa using (List.mem_filter.mp h).2
  · rintro rfl
    exact hlf (hinside.subset hb)
  · rintro rfl
    exact hnul (hinside.subset hb)

/-- The route that a text without line ends stands for is writable. -/
theorem writable_of_routeOf {str : Bytes} {r : ParsedRoute} (hlf : LF ∉ str) (hnul : NUL ∉ str)
    (h : routeOf str = some r) : Writable r := by
  unfold routeOf at h
  split_ifs at h
  split at h
  · next methodsStr src typeStr dest ws hwords =>
    have hword : ∀ w ∈ [methodsStr, src, typeStr, dest], IsWord w := by
      intro w hw
      refine isWord_of_mem hlf hnul ?_
      rw [hwords]
      simp only [List.mem_cons, List.not_mem_nil, or_false] at hw ⊢
      tauto
    split at h
    · next type methods htype hmethods =>
      obtain rfl := Option.some.inj h
      have hfirst := hword methodsStr (by simp)
      exact
        { methods := methods_lt (fun hmem => (hfirst.plain _ hmem).2.2 rfl) hfirst.not_blank hmethods
          src := hword src (by simp)
          dest := hword dest (by simp) }
    · cases h
  · cases h

/-- A copied line of a file of less than 2 GiB has no end in it. -/
theorem lf_of_copy {f : File} (hsize : f.bytes.length < 2 ^ 31) {l : Line Byte}
    (hl : l ∈ lines LF f.bytes) {str : Bytes} (h : readLine l = .copy str) : LF ∉ str := by
  obtain ⟨hlf, hsuffix⟩ := mem_lines hl
  have hlen : l.text.length < 2 ^ 31 := by
    have hle := hsuffix.length_le
    rw [Line.toEnd, List.length_append] at hle
    omega
  by_cases hpassed : l.text.head? = some HASH ∨ lineLen l = 0
  · rw [readLine_passed hpassed] at h
    cases h
  · obtain ⟨hcomment, -⟩ := not_or.mp hpassed
    have hne : l.text ≠ [] := by
      intro hnil
      rw [readLine_nil hnil] at h
      cases h
    rw [readLine_whole hne hlen hcomment] at h
    obtain rfl := Reading.copy.inj h
    exact fun hmem => hlf ((upto_isPrefix NUL _).subset hmem)

/-- **The tables that files give.** A table of routes comes from some file of less than 2 GiB if and
    only if every route is writable, as long as the lines for it take less than that. -/
theorem tables_iff (routes : List ParsedRoute) (hsize : (writtenTable routes).length < 2 ^ 31) :
    (∃ f : File, f.bytes.length < 2 ^ 31 ∧ routesParse f = some routes) ↔
      ∀ r ∈ routes, Writable r := by
  constructor
  · rintro ⟨f, hf, hparse⟩ r hr
    obtain ⟨l, hl, hseen⟩ := (mem_routesParse hparse).mp hr
    obtain ⟨str, hcopy, hroute⟩ := copy_of_seen hseen
    exact writable_of_routeOf (lf_of_copy hf hl hcopy) (not_mem_of_readLine hcopy) hroute
  · intro h
    obtain ⟨f, hbytes, hparse⟩ := routesParse_written h hsize
    exact ⟨f, by rw [hbytes]; exact hsize, hparse⟩

/-- A route for no method at all, and one for every method. -/
def sampleTable : List ParsedRoute :=
  [⟨.proxy, 0, ascii "/api", ascii "http://127.0.0.1:8000"⟩, ⟨.alias, 511, ascii "/", ascii "/a,b#c"⟩]

theorem tables_iff_sample :
    (∃ f : File, f.bytes.length < 2 ^ 31 ∧ routesParse f = some sampleTable) ↔
      ∀ r ∈ sampleTable, Writable r :=
  tables_iff sampleTable (by decide)

end Foxtails.Routing
