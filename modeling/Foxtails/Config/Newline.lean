/-
  `config_get` on a file, and on the file with a newline behind it.

  What is behind the last newline of a file is in no line. With a newline behind it, it is the
  last line; the lines before it do what they did, as long as nothing is read that is not in the
  file. Where a read leaves the file, the newline comes before the zeros of the page.

  * `line_pair`: a line of the file and of the file that goes on, before zeros.
  * `same_lines_iff`: two loops that go on together give the same exactly if they do at each line
    they get to.
  * `configGet_newline_iff`: when `config_get` gives the same.
-/
import Foxtails.Config.Behind
import Foxtails.Config.Memory

namespace Foxtails.Config

open Foxtails.Lib.Scan Foxtails.Lib.Libc Foxtails.Lib.Lines Foxtails.Lib.Object

variable {l l' : Line Byte} {str str' key sect z z' : Bytes} {e : Nat} {found : Found}

/-! ## Lines that leave the file -/

/-- Only a line whose length is negative as an `int` is copied from outside, without a NUL. -/
theorem readLine_outside_iff (hsize : (l.toEnd LF).length < 2 ^ 63) : readLine l = .outside ↔
    ¬ (l.text.head? = some HASH ∨ lineLen l = 0) ∧ lineLen l < 0 ∧ NUL ∉ l.toEnd LF := by
  by_cases hpassed : l.text.head? = some HASH ∨ lineLen l = 0
  · rw [readLine_passed hpassed]
    exact iff_of_false Reading.noConfusion fun h => h.1 hpassed
  · obtain ⟨hcomment, hzero⟩ := not_or.mp hpassed
    rcases lt_or_gt_of_ne hzero with hneg | hpos
    · rw [readLine_negative hsize hneg hcomment]
      by_cases hnul : NUL ∈ l.toEnd LF
      · rw [if_pos hnul]
        exact iff_of_false Reading.noConfusion fun h => h.2.2 hnul
      · rw [if_neg hnul]
        exact iff_of_true rfl ⟨hpassed, hneg, hnul⟩
    · obtain ⟨n, hn, -, hnpos, hle⟩ := lineLen_cut hpos
      rw [readLine_cut hn hnpos hle hcomment]
      exact iff_of_false Reading.noConfusion fun h => absurd h.2.1 (by omega)

/-- The copy of such a line goes on to the zeros, with all of the file. -/
theorem readLine_zeros (hsize : (l.toEnd LF ++ z).length < 2 ^ 63) (h : readLine l = .outside)
    (hz : Zeros z) :
    readLine (l.extend z) = if z = [] then .outside else .copy (l.toEnd LF) := by
  by_cases hne : z = []
  · rw [if_pos hne, hne, Line.extend, List.append_nil]
    exact h
  · have hlen : (l.toEnd LF).length < 2 ^ 63 := by
      rw [List.length_append] at hsize
      omega
    obtain ⟨hpassed, hneg, hnul⟩ := (readLine_outside_iff hlen).mp h
    have hmem : NUL ∈ (l.extend z).toEnd LF := by
      rw [Line.toEnd_extend]
      exact List.mem_append_right _ (nul_mem_zeros hz hne)
    have hsize' : ((l.extend z).toEnd LF).length < 2 ^ 63 := by rwa [Line.toEnd_extend]
    rw [readLine_negative hsize' hneg (not_or.mp hpassed).1, if_pos hmem, if_neg hne,
      Line.toEnd_extend, upto_append_of_not_mem _ hnul]
    have hupto := upto_zeros hz z.length
    rw [List.take_length] at hupto
    rw [hupto, List.append_nil]

/-- With a newline behind the file, the copy has it too. -/
theorem readLine_newline (hsize : (l.toEnd LF ++ LF :: z).length < 2 ^ 63)
    (h : readLine l = .outside) (hz : Zeros z) :
    readLine (l.extend (LF :: z)) = if z = [] then .outside else .copy (l.toEnd LF ++ [LF]) := by
  have hlen : (l.toEnd LF).length < 2 ^ 63 := by
    rw [List.length_append] at hsize
    omega
  have htoEnd : (l.extend [LF]).toEnd LF = l.toEnd LF ++ [LF] := Line.toEnd_extend LF l _
  have hsize' : ((l.extend [LF]).toEnd LF ++ z).length < 2 ^ 63 := by
    rwa [htoEnd, List.append_assoc]
  have houtside : readLine (l.extend [LF]) = .outside := by
    obtain ⟨hpassed, hneg, hnul⟩ := (readLine_outside_iff hlen).mp h
    rw [List.length_append] at hsize'
    refine (readLine_outside_iff (by omega)).mpr ⟨hpassed, hneg, ?_⟩
    rw [htoEnd, List.mem_append, not_or]
    exact ⟨hnul, by decide⟩
  have hextend : l.extend (LF :: z) = (l.extend [LF]).extend z := by
    rw [Line.extend, Line.extend, Line.extend, List.append_assoc]
    rfl
  rw [hextend, readLine_zeros hsize' houtside hz, htoEnd]

/-! ## Two lines -/

/-- Both lines are gone on with, or both are left with the same. -/
def SameStep (r r' : Except (Got × Found) Found) : Prop :=
  (∃ found, r = .ok found ∧ r' = .ok found) ∨
    ∃ p p' v, r = .error p ∧ r' = .error p' ∧ p.1.returned = some v ∧ p'.1.returned = some v

/-- Both lines are gone on with, or both are left, or one is left where nothing can be read. -/
def InStep (r r' : Except (Got × Found) Found) : Prop :=
  (∃ found, r = .ok found ∧ r' = .ok found) ∨ (∃ p p', r = .error p ∧ r' = .error p') ∨
    ∃ p : Got × Found, p.1.returned = none ∧ (r = .error p ∨ r' = .error p)

/-- Two lines go together, and they give the same exactly where `P` holds. -/
structure Compares (r r' : Except (Got × Found) Found) (P : Prop) : Prop where
  inStep : InStep r r'
  same : SameStep r r' ↔ P

section

variable {r r' : Except (Got × Found) Found} {p p' : Got × Found} {P Q : Prop}

theorem Compares.of_same (h : SameStep r r') (hP : P) : Compares r r' P := by
  refine ⟨?_, iff_of_true h hP⟩
  rcases h with hok | ⟨p, p', v, hp, hp', -, -⟩
  · exact .inl hok
  · exact .inr (.inl ⟨p, p', hp, hp'⟩)

theorem Compares.of_null (f : Found) (hP : P) :
    Compares (.error (.null, f)) (.error (.null, f)) P :=
  .of_same (.inr ⟨_, _, none, rfl, rfl, rfl, rfl⟩) hP

theorem Compares.of_outside (hp : p.1.returned = none) (h : r = .error p ∨ r' = .error p)
    (hP : ¬ P) : Compares r r' P := by
  refine ⟨.inr (.inr ⟨p, hp, h⟩), iff_of_false ?_ hP⟩
  rintro (⟨found, rfl, rfl⟩ | ⟨q, q', v, rfl, rfl, hq, hq'⟩)
  · rcases h with h | h <;> cases h
  · rcases h with h | h
    · rw [Except.error.inj h, hp] at hq
      cases hq
    · rw [Except.error.inj h, hp] at hq'
      cases hq'

theorem Compares.of_error : Compares (.error p) (.error p')
    (∃ v, p.1.returned = some v ∧ p'.1.returned = some v) := by
  refine ⟨.inr (.inl ⟨p, p', rfl, rfl⟩), ?_⟩
  constructor
  · rintro (⟨found, h, -⟩ | ⟨q, q', v, hq, hq', hv, hv'⟩)
    · cases h
    · obtain rfl := Except.error.inj hq
      obtain rfl := Except.error.inj hq'
      exact ⟨v, hv, hv'⟩
  · rintro ⟨v, hv, hv'⟩
    exact .inr ⟨p, p', v, rfl, rfl, hv, hv'⟩

theorem Compares.congr (h : Compares r r' P) (hPQ : P ↔ Q) : Compares r r' Q :=
  ⟨h.inStep, h.same.trans hPQ⟩

end

/-- The loop does the same with the two copies, but for the value. -/
structure Alike (str str' : Bytes) : Prop where
  opens : str'.head? = some OPEN ↔ str.head? = some OPEN
  search : ∀ sect, searchLine sect str' = searchLine sect str
  keyEnd : keyEnd str' = keyEnd str
  key : ∀ key e, Config.keyEnd str = some e → strncmpeq str' key e = strncmpeq str key e

theorem Alike.refl (str : Bytes) : Alike str str := ⟨Iff.rfl, fun _ => rfl, rfl, fun _ _ _ => rfl⟩

/-- A newline at the end of a copy is in no name. -/
theorem alike_concat (hne : str ≠ []) : Alike str (str ++ [LF]) := by
  have hhead : (str ++ [LF]).head? = str.head? := List.head?_append_of_ne_nil _ hne
  have hkeyEnd : keyEnd (str ++ [LF]) = keyEnd str := by
    unfold keyEnd
    rw [List.findIdx?_append]
    cases str.findIdx? _ <;> rfl
  refine ⟨by rw [hhead], fun sect => ?_, hkeyEnd, fun key e he => ?_⟩
  · unfold searchLine
    rw [hhead]
    by_cases hopen : str.head? = some OPEN
    · rw [if_pos hopen, if_pos hopen]
      cases hclose : find [CLOSE] str with
      | none =>
        have hno : find [CLOSE] (str ++ [LF]) = none := by
          rw [find_singleton_eq_none] at hclose ⊢
          rw [List.mem_append, not_or]
          exact ⟨hclose, by decide⟩
        rw [hno]
      | some i =>
        have hlt := (find_singleton_eq_some hclose).2.2
        have hname : ((str ++ [LF]).drop 1).take (i - 1) = (str.drop 1).take (i - 1) := by
          rw [List.drop_append_of_le_length (List.length_pos_of_ne_nil hne),
            List.take_append_of_le_length (by rw [List.length_drop]; omega)]
        rw [find_append_left _ hclose]
        dsimp only
        rw [strncmpeq, strncmpeq, hname]
    · rw [if_neg hopen, if_neg hopen]
  · have hlt := keyEnd_lt he
    rw [strncmpeq, strncmpeq, List.take_append_of_le_length hlt.le]

/-- `P` of the end of the key, if the line is in the section and has the key. -/
def AtKey (key : Bytes) (found : Found) (str : Bytes) (P : Nat → Prop) : Prop :=
  found.isSome = true → str.head? ≠ some OPEN → ∀ e, keyEnd str = some e →
    strncmpeq str key e = true → P e

theorem configLine_pair (hread : readLine l = .copy str) (hread' : readLine l' = .copy str')
    (halike : Alike str str') :
    Compares (configLine sect key found l) (configLine sect key found l')
      (AtKey key found str fun e => ∃ v, (configValue l str e).returned = some v ∧
        (configValue l' str' e).returned = some v) := by
  cases found with
  | none =>
    have hvacuous : AtKey key none str fun e => ∃ v, (configValue l str e).returned = some v ∧
        (configValue l' str' e).returned = some v := fun h => by cases h
    rw [configLine_search hread, configLine_search hread', halike.search]
    cases hsearch : searchLine sect str with
    | ok found => exact .of_same (.inl ⟨found, rfl, rfl⟩) hvacuous
    | error r =>
      rw [searchLine_null hsearch]
      exact .of_null none hvacuous
  | some name =>
    rw [configLine_entry hread, configLine_entry hread']
    unfold entryLine AtKey
    by_cases hopen : str.head? = some OPEN
    · rw [if_pos hopen, if_pos (halike.opens.mpr hopen)]
      exact .of_null _ fun _ h => absurd hopen h
    · rw [if_neg hopen, if_neg (halike.opens.not.mpr hopen), halike.keyEnd]
      cases he : keyEnd str with
      | none => exact .of_null _ fun _ _ e h => by cases h
      | some e =>
        dsimp only
        rw [halike.key key e he]
        by_cases hkey : strncmpeq str key e = true
        · rw [if_pos hkey, if_pos hkey]
          refine Compares.of_error.congr ?_
          constructor
          · rintro h - - e' he' -
            obtain rfl := Option.some.inj he'
            exact h
          · intro h
            exact h rfl hopen e rfl hkey
        · rw [if_neg hkey, if_neg hkey]
          refine .of_same (.inl ⟨_, rfl, rfl⟩) fun _ _ e' he' hkey' => ?_
          obtain rfl := Option.some.inj he'
          exact absurd hkey' hkey

/-! ## A line of the file -/

/-- The line gives the same before zeros, and before a newline and zeros; `padded` says that there
    are any. It can be read, and if it is in the section and has the key, the value is read in the
    file, or there is nothing but white space to the end of the file. A copy that leaves the file
    has all that is left of it. -/
def Steady (padded : Prop) (key : Bytes) (found : Found) (l : Line Byte) : Prop :=
  match readLine l with
  | .passed => True
  | .outside => padded ∧ AtKey key found (l.toEnd LF) (BlankEnd l (l.toEnd LF))
  | .copy str => AtKey key found str fun e => ReadInside l str e ∨ (BlankEnd l str e ∧ padded)

theorem line_pair (hsize : (l.toEnd LF ++ z).length < 2 ^ 63)
    (hsize' : (l.toEnd LF ++ LF :: z').length < 2 ^ 63) (hz : Zeros z) (hz' : Zeros z') :
    Compares (configLine sect key found (l.extend z))
      (configLine sect key found (l.extend (LF :: z')))
      (Steady (z ≠ [] ∧ z' ≠ []) key found l) := by
  have hlen : (l.toEnd LF ++ [LF]).length < 2 ^ 63 := by
    simp only [List.length_append, List.length_cons, List.length_nil] at hsize' ⊢
    omega
  have hlt : (l.toEnd LF).length < 2 ^ 63 := by
    rw [List.length_append] at hsize
    omega
  unfold Steady
  cases hread : readLine l with
  | passed =>
    have hne : readLine l ≠ .outside := by
      rw [hread]
      exact Reading.noConfusion
    rw [configLine_passed (by rw [readLine_extend hne, hread]),
      configLine_passed (by rw [readLine_extend hne, hread])]
    exact .of_same (.inl ⟨found, rfl, rfl⟩) trivial
  | copy str =>
    have hne : readLine l ≠ .outside := by
      rw [hread]
      exact Reading.noConfusion
    refine (configLine_pair ((readLine_extend hne z).trans hread)
      ((readLine_extend hne _).trans hread) (.refl str)).congr ?_
    refine forall_congr' fun _ => forall_congr' fun _ => forall_congr' fun e =>
      forall_congr' fun he => forall_congr' fun _ => ?_
    dsimp only
    rw [configValue_same_iff (not_mem_of_readLine hread) (isPrefix_toEnd_of_readLine hread)
      (keyEnd_lt he).le hz hz', configValue_inside_iff hlt hread he]
  | outside =>
    have hread₁ := readLine_zeros hsize hread hz
    have hread₂ := readLine_newline hsize' hread hz'
    dsimp only
    by_cases hne : z = []
    · rw [if_pos hne] at hread₁
      exact .of_outside rfl (.inl (configLine_outside hread₁)) fun h => h.1.1 hne
    · by_cases hne' : z' = []
      · rw [if_pos hne'] at hread₂
        exact .of_outside rfl (.inr (configLine_outside hread₂)) fun h => h.1.2 hne'
      · rw [if_neg hne] at hread₁
        rw [if_neg hne'] at hread₂
        have hnul : NUL ∉ l.toEnd LF := ((readLine_outside_iff hlt).mp hread).2.2
        have hcons : l.toEnd LF ≠ [] := List.append_ne_nil_of_right_ne_nil _ (List.cons_ne_nil _ _)
        refine (configLine_pair hread₁ hread₂ (alike_concat hcons)).congr ?_
        rw [and_iff_right ⟨hne, hne'⟩]
        refine forall_congr' fun _ => forall_congr' fun _ => forall_congr' fun e =>
          forall_congr' fun he => forall_congr' fun _ => ?_
        exact configValue_whole_same_iff hnul (keyEnd_lt he).le hlen hz hz' hne hne'

/-! ## The last line -/

/-- What is behind the last newline, as the line that a newline makes of it. -/
def File.lastLine (f : File) : Line Byte := ⟨unended LF f.bytes, []⟩

/-- The line can be read; and if it is in the section, it does not have the key. -/
def Idle (key : Bytes) (found : Found) (l : Line Byte) : Prop :=
  match readLine l with
  | .passed => True
  | .outside => False
  | .copy str => found.isSome = true → str.head? ≠ some OPEN →
      ∀ e, keyEnd str = some e → strncmpeq str key e = false

theorem configValue_ne_null : configValue l str e ≠ .null := by
  unfold configValue
  split
  · exact Got.noConfusion
  · dsimp only
    split
    · exact Got.noConfusion
    · split
      · exact Got.noConfusion
      · split <;> exact Got.noConfusion

/-- A line is idle if and only if the loop is not left there with anything but NULL. -/
theorem configLine_null_iff :
    (∀ r, configLine sect key found l = .error r → r.1 = .null) ↔ Idle key found l := by
  unfold Idle
  cases hread : readLine l with
  | passed =>
    refine iff_of_true (fun r hr => ?_) trivial
    rw [configLine_passed hread] at hr
    cases hr
  | outside =>
    refine iff_of_false (fun h => ?_) id
    cases h _ (configLine_outside hread)
  | copy str =>
    rw [configLine_left_iff (P := (· = .null)) rfl hread]
    refine imp_congr_right fun _ => imp_congr_right fun _ => forall_congr' fun e =>
      imp_congr_right fun _ => ?_
    rw [imp_iff_not configValue_ne_null, Bool.not_eq_true]

/-- NULL is returned where nothing is found, and nowhere else. -/
theorem returned_eq_null_iff {got : Got} : got.returned = some none ↔ got = .null := by
  cases got with
  | null => exact iff_of_true rfl rfl
  | outside => exact iff_of_false (fun h => by cases h) Got.noConfusion
  | value v => exact iff_of_false (fun h => by cases h) Got.noConfusion

/-- Behind the other lines, NULL is returned where the last one is idle. -/
theorem configLines_null_iff :
    (gotOf (configLines sect key found [l])).returned = some none ↔ Idle key found l := by
  have hnull : (∀ r, configLine sect key found l = .error r → r.1 = .null) ↔ Idle key found l :=
    configLine_null_iff
  rw [returned_eq_null_iff, ← hnull]
  cases hline : configLine sect key found l with
  | ok found' =>
    rw [configLines_cons_ok hline]
    exact iff_of_true rfl fun r hr => (by cases hr)
  | error r =>
    rw [configLines_cons_error hline]
    constructor
    · intro h r' hr'
      rw [← Except.error.inj hr']
      exact h
    · intro h
      exact h r rfl

/-! ## Two loops -/

section

variable {ls : List (Line Byte)} {last : Line Byte} {φ φ' : Line Byte → Line Byte}
  {P : Found → Line Byte → Prop}

/-- `P` holds of every line that the loop gets to, from `found` on. -/
def Reached (sect key : Bytes) (φ : Line Byte → Line Byte) (P : Found → Line Byte → Prop)
    (found : Found) (ls : List (Line Byte)) : Prop :=
  ∀ pre l post found', ls = pre ++ l :: post →
    configLines sect key found (pre.map φ) = .ok found' → P found' l

theorem reached_cons_iff : Reached sect key φ P found (l :: ls) ↔
    P found l ∧ ∀ found', configLine sect key found (φ l) = .ok found' →
      Reached sect key φ P found' ls := by
  constructor
  · intro h
    refine ⟨h [] l ls found rfl rfl, fun found' hline pre l' post found'' hls hpre => ?_⟩
    refine h (l :: pre) l' post found'' (by rw [hls]; rfl) ?_
    rw [List.map_cons, configLines_cons_ok hline]
    exact hpre
  · rintro ⟨hl, hrest⟩ pre l' post found'' hls hpre
    cases pre with
    | nil =>
      obtain ⟨rfl, rfl⟩ := List.cons.inj hls
      obtain rfl : found = found'' := Except.ok.inj hpre
      exact hl
    | cons k pre =>
      obtain ⟨rfl, rfl⟩ := List.cons.inj hls
      rw [List.map_cons] at hpre
      cases hline : configLine sect key found (φ l) with
      | ok found' =>
        rw [configLines_cons_ok hline] at hpre
        exact hrest found' hline pre l' post found'' rfl hpre
      | error r =>
        rw [configLines_cons_error hline] at hpre
        cases hpre

/-- **Two loops that go on together**, the second with one more line behind the others, give the
    same if and only if they do at every line they get to, and that line is idle where they do not
    end before it. -/
theorem same_lines_iff (hpair : ∀ found, ∀ l ∈ ls, Compares (configLine sect key found (φ l))
      (configLine sect key found (φ' l)) (P found l)) :
    (∃ v, (gotOf (configLines sect key found (ls.map φ))).returned = some v ∧
      (gotOf (configLines sect key found (ls.map φ' ++ [last]))).returned = some v) ↔
      Reached sect key φ P found ls ∧
        ∀ found', configLines sect key found (ls.map φ) = .ok found' → Idle key found' last := by
  induction ls generalizing found with
  | nil =>
    have hreached : Reached sect key φ P found [] := fun pre l post found' hls => by simp at hls
    rw [and_iff_right hreached]
    constructor
    · rintro ⟨v, hv, hlast⟩ found' hfound'
      obtain rfl : found = found' := Except.ok.inj hfound'
      obtain rfl : none = v := Option.some.inj hv
      exact configLines_null_iff.mp hlast
    · intro h
      exact ⟨none, rfl, configLines_null_iff.mpr (h found rfl)⟩
  | cons l ls ih =>
    obtain ⟨hstep, hsame⟩ := hpair found l List.mem_cons_self
    rw [reached_cons_iff, List.map_cons, List.map_cons, List.cons_append]
    rcases hstep with ⟨found', hr, hr'⟩ | ⟨p, p', hr, hr'⟩ | ⟨p, hp, hr⟩
    · have hl : P found l := hsame.mp (.inl ⟨found', hr, hr'⟩)
      have hgoOn : (∀ f, (.ok found' : Except (Got × Found) Found) = .ok f →
          Reached sect key φ P f ls) ↔ Reached sect key φ P found' ls :=
        ⟨fun h => h found' rfl, fun h f hf => Except.ok.inj hf ▸ h⟩
      rw [configLines_cons_ok hr, configLines_cons_ok hr', hr, hgoOn, and_iff_right hl]
      exact ih fun f l hl => hpair f l (List.mem_cons_of_mem _ hl)
    · rw [hr, hr', Compares.of_error.same] at hsame
      rw [configLines_cons_error hr, configLines_cons_error hr', hr, ← hsame]
      exact ⟨fun h => ⟨⟨h, fun _ hf => by cases hf⟩, fun _ hf => by cases hf⟩, fun h => h.1.1⟩
    · have hnot : ¬ P found l := fun hl =>
        (Compares.of_outside hp hr not_false).same.mp (hsame.mpr hl)
      refine iff_of_false ?_ fun h => hnot h.1.1
      rintro ⟨v, hv, hv'⟩
      rcases hr with hr | hr
      · rw [configLines_cons_error hr, gotOf, hp] at hv
        cases hv
      · rw [configLines_cons_error hr, gotOf, hp] at hv'
        cases hv'

end

/-! ## The call -/

variable {m m' : Mapping}

/-- The lines of the file with the newline are those of the file, and what was behind them. -/
theorem memoryLines_newline (hg : m'.file.bytes = m.file.bytes ++ [LF]) :
    m'.memoryLines = (lines LF m.file.bytes).map (·.extend (LF :: m'.behind)) ++
      [m.file.lastLine.extend m'.behind] := by
  rw [Mapping.memoryLines, hg, lines_concat, List.map_append, List.map_map]
  refine congrArg (· ++ _) (List.map_congr_left fun l _ => ?_)
  show (l.extend [LF]).extend m'.behind = l.extend (LF :: m'.behind)
  rw [Line.extend, Line.extend, Line.extend, List.append_assoc]
  rfl

theorem length_lt_newline (hg : m'.file.bytes = m.file.bytes ++ [LF])
    (hl : l ∈ lines LF m.file.bytes) : (l.toEnd LF ++ m.behind).length < 2 ^ 63 ∧
      (l.toEnd LF ++ LF :: m'.behind).length < 2 ^ 63 := by
  have hle : (l.toEnd LF).length ≤ m.file.bytes.length := (mem_lines hl).2.length_le
  have hsize := m.size_lt
  have hsize' := m'.size_lt
  rw [hg, List.append_assoc] at hsize'
  rw [List.length_append] at hsize hsize'
  rw [List.length_append, List.length_append]
  exact ⟨(Nat.add_le_add_right hle _).trans_lt hsize,
    (Nat.add_le_add_right hle _).trans_lt hsize'⟩

/-- **`config_get` gives the same** of a file before zeros, and with a newline behind it before
    zeros, if and only if every line it gets to is steady, and the last line is idle where it gets
    to that. -/
theorem configGet_newline_iff (hg : m'.file.bytes = m.file.bytes ++ [LF]) (hz : Zeros m.behind)
    (hz' : Zeros m'.behind) :
    (∃ v, (gotOf (configLines sect key none m.memoryLines)).returned = some v ∧
      (gotOf (configLines sect key none m'.memoryLines)).returned = some v) ↔
      Reached sect key (·.extend m.behind) (Steady (m.behind ≠ [] ∧ m'.behind ≠ []) key) none
        (lines LF m.file.bytes) ∧
      ∀ found, configLines sect key none m.memoryLines = .ok found →
        Idle key found (m.file.lastLine.extend m'.behind) := by
  rw [memoryLines_newline hg]
  refine same_lines_iff fun found l hl => ?_
  obtain ⟨hsize, hsize'⟩ := length_lt_newline hg hl
  exact line_pair hsize hsize' hz hz'

end Foxtails.Config
