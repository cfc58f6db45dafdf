/-
  `config_get` against what the file says.

  A name is compared as far as the name in the file goes, so a shorter name is taken for the
  one that was asked for. `Clean` says that this does not happen: the first section whose name
  begins the one asked for is that section, and so is the first key in it. A line that is cut,
  at a NUL or because its length does not fit an `int`, may end the search where its name is
  not in the copy, and gives no whole value.

  * `configValue_whole_iff`: the value is returned exactly where the whole line was copied.
  * `withinLines_iff`, `searchLines_iff`: the loop inside of the section, and before it.
  * `config_get_exact_iff`: `config_get` is a lookup exactly where the file is clean.
-/
import Foxtails.Config.Value
import Foxtails.Config.Format

namespace Foxtails.Config

open Foxtails.Lib.Scan Foxtails.Lib.Libc Foxtails.Lib.Lines Foxtails.Lib.Object

variable {l : Line Byte} {i : Item} {items : List Item} {str sect key value : Bytes}
  {before after : Nat}

/-! ## The value of an entry -/

theorem entry_toEnd {k : Bytes} (rest : Bytes) :
    Line.toEnd LF ⟨(Item.entry k before after value).text, rest⟩ =
      k ++ (assigned before after value ++ LF :: rest) := by
  rw [Line.toEnd, Item.text, List.append_assoc]

/-- The offsets in a copied entry: the byte behind the key that is no white space is the `=`,
    if it is in the copy. -/
theorem offsets_of_entry {k rest : Bytes} {b : Byte} {value' : Bytes}
    (hstr : str <+: k ++ (assigned before after value ++ LF :: rest)) (he : k.length ≤ str.length)
    (hdrop : (str.drop k.length).dropWhile isSpace = b :: value') :
    str.length - value'.length = k.length + before + 1 := by
  obtain ⟨t, ht⟩ := hstr
  have hnone : ∃ x ∈ str.drop k.length, isSpace x = false := exists_of_dropWhile hdrop
  have hskip : skip isSpace (str.drop k.length) = some before := by
    have hobj : str.drop k.length ++ t =
        spaces before ++ (EQUALS :: (spaces after ++ value) ++ LF :: rest) := by
      rw [← List.drop_append_of_le_length he, ht, List.drop_left, assigned, List.append_assoc]
    rw [← skip_append_of_exists t hnone, hobj]
    exact skip_spaces ⟨EQUALS, rfl, by decide⟩
  have hlen := congrArg List.length (drop_skip hskip)
  rw [hdrop, List.length_drop, List.length_drop, List.length_cons] at hlen
  omega

/-- What follows the `=` of an entry. -/
theorem drop_entry {k : Bytes} (rest : Bytes) :
    (Line.toEnd LF ⟨(Item.entry k before after value).text, rest⟩).drop (k.length + before + 1) =
      spaces after ++ (value ++ LF :: rest) := by
  have hsplit : k ++ (assigned before after value ++ LF :: rest) =
      (k ++ spaces before ++ [EQUALS]) ++ (spaces after ++ (value ++ LF :: rest)) := by
    simp [assigned]
  rw [entry_toEnd, hsplit]
  refine List.drop_left' ?_
  simp [spaces, Nat.add_assoc]

theorem drop_entry_value {k : Bytes} (rest : Bytes) :
    (Line.toEnd LF ⟨(Item.entry k before after value).text, rest⟩).drop
      (k.length + before + 1 + after) = value ++ LF :: rest := by
  rw [← List.drop_drop, drop_entry]
  exact List.drop_left' (by rw [spaces, List.length_replicate])

theorem skip_to_value {k rest : Bytes} (hwf : (Item.entry k before after value).WellFormed) :
    skip isSpace (spaces after ++ (value ++ LF :: rest)) = some after := by
  obtain ⟨-, -, c, hc, hspace⟩ := hwf
  refine skip_spaces ⟨c, ?_, hspace⟩
  obtain ⟨t, rfl⟩ := List.head?_eq_some_iff.mp hc
  rfl

theorem length_entry (k : Bytes) (before after : Nat) (value : Bytes) :
    (Item.entry k before after value).text.length =
      k.length + before + 1 + after + value.length := by
  simp only [Item.text, assigned, spaces, List.length_append, List.length_cons,
    List.length_replicate]
  omega

/-- **The value is returned if and only if the whole line was copied.** -/
theorem configValue_whole_iff {k rest : Bytes} (hwf : (Item.entry k before after value).WellFormed)
    (hl : l = ⟨(Item.entry k before after value).text, rest⟩)
    (hsize : (l.toEnd LF).length < 2 ^ 63) (hstr : str <+: l.toEnd LF) (hnul : NUL ∉ str)
    (he : keyEnd str = some k.length) :
    (configValue l str k.length).returned = some (some value) ↔ str = l.text := by
  have hlt : k.length < str.length := keyEnd_lt he
  have htext : l.text.length = k.length + before + 1 + after + value.length := by
    rw [hl]
    exact length_entry k before after value
  have htoEnd : (l.toEnd LF).length = l.text.length + (rest.length + 1) := by
    rw [hl, Line.toEnd, List.length_append, List.length_cons]
  have hobj : l.toEnd LF = k ++ (assigned before after value ++ LF :: rest) := by
    rw [hl]
    exact entry_toEnd rest
  -- two first parts of one object are equal where they are as long
  have hwhole : str = l.text ↔ str.length = l.text.length := by
    refine ⟨congrArg List.length, fun hlen => ?_⟩
    exact (List.prefix_of_prefix_length_le hstr (List.prefix_append _ _) hlen.le).eq_of_length hlen
  cases hdrop : (str.drop k.length).dropWhile isSpace with
  | nil =>
    rw [configValue_blank hlt.le (List.dropWhile_eq_nil_iff.mp hdrop)]
    refine iff_of_false (fun h => by cases h) ?_
    rintro rfl
    have hmem : EQUALS ∈ l.text.drop k.length := by
      rw [hl, Item.text, List.drop_left]
      exact List.mem_append_right _ List.mem_cons_self
    have hspace : isSpace EQUALS = true := List.dropWhile_eq_nil_iff.mp hdrop EQUALS hmem
    exact absurd hspace (by decide)
  | cons b value' =>
    have hoff := offsets_of_entry (hobj ▸ hstr) hlt.le hdrop
    have hat := at_of_drop hstr hlt.le hdrop
    have hbefore := hat.before
    rw [hoff] at hbefore
    have hdropOff : (l.toEnd LF).drop (k.length + before + 1) =
        spaces after ++ (value ++ LF :: rest) := by
      rw [hl]
      exact drop_entry rest
    have hdropValue : (l.toEnd LF).drop (k.length + before + 1 + after) = value ++ LF :: rest := by
      rw [hl]
      exact drop_entry_value rest
    have hlen := hstr.length_le
    have hwrap : wrapSub value'.length after = value.length ↔ str.length = l.text.length := by
      rcases Nat.lt_or_ge value'.length after with hshort | hlong
      · have hhuge := wrapSub_of_lt hshort (by omega)
        omega
      · rw [wrapSub_of_le hlong (by simp only [SIZE]; omega)]
        omega
    rw [configValue_eq hnul hlt.le hdrop]
    dsimp only
    rw [hoff, hdropOff, skip_to_value hwf]
    dsimp only
    rw [hdropValue]
    have hread : readStr (value ++ LF :: rest) (wrapSub value'.length after) = some value ↔
        str = l.text := by
      rw [readStr_eq_iff (by decide), hwrap, ← hwhole]
      refine and_iff_left_of_imp ?_
      rintro rfl hmem
      refine hnul ?_
      rw [hl, Item.text, assigned]
      simp [hmem]
    rw [← hread]
    cases readStr (value ++ LF :: rest) (wrapSub value'.length after) with
    | none => exact iff_of_false (fun h => by cases h) fun h => by cases h
    | some s => simp [Got.returned]

/-! ## What is to be returned -/

/-- The result is `want`, and a value is that of an entry with exactly this key. -/
def Right (items : List Item) (key : Bytes) (want : Option Bytes) : Got → Prop
  | .null => want = none
  | .outside => False
  | .value v => want = some v.str ∧ ∃ before after,
      .entry key before after v.str ∈ items ∧
        v.line.text = (Item.entry key before after v.str).text

/-- A line is an entry in one way. -/
theorem entry_inj {k k' v v' : Bytes} {m n m' n' : Nat} (h : (Item.entry k m n v).WellFormed)
    (h' : (Item.entry k' m' n' v').WellFormed)
    (htext : (Item.entry k m n v).text = (Item.entry k' m' n' v').text) : k = k' ∧ v = v' := by
  obtain ⟨⟨-, hsp, heq, -⟩, -, hv⟩ := h
  obtain ⟨⟨-, hsp', heq', -⟩, -, hv'⟩ := h'
  simp only [Item.text] at htext
  have hend : keyEnd (k ++ (assigned m n v ++ [])) = some k.length := keyEnd_entry ⟨hsp, heq⟩ []
  have hend' : keyEnd (k' ++ (assigned m' n' v' ++ [])) = some k'.length :=
    keyEnd_entry ⟨hsp', heq'⟩ []
  rw [List.append_nil] at hend hend'
  rw [htext, hend'] at hend
  obtain ⟨hk, hrest⟩ := List.append_inj htext (Option.some.inj hend).symm
  have hskip : skip isSpace (spaces m ++ EQUALS :: (spaces n ++ v)) = some m :=
    skip_spaces ⟨_, rfl, by decide⟩
  have hskip' : skip isSpace (spaces m' ++ EQUALS :: (spaces n' ++ v')) = some m' :=
    skip_spaces ⟨_, rfl, by decide⟩
  unfold assigned at hrest
  rw [hrest, hskip'] at hskip
  obtain rfl := Option.some.inj hskip
  have hvalue := (List.cons.inj (List.append_cancel_left hrest)).2
  have hskip := skip_spaces (n := n) hv
  rw [hvalue, skip_spaces hv'] at hskip
  obtain rfl := Option.some.inj hskip
  exact ⟨hk, List.append_cancel_left hvalue⟩

/-- What is returned for a line comes from that line. -/
theorem configValue_cases (l : Line Byte) (str : Bytes) (e : Nat) :
    configValue l str e = .outside ∨ ∃ v, configValue l str e = .value v ∧ v.line = l := by
  unfold configValue
  split
  · exact .inl rfl
  · dsimp only
    split
    · exact .inl rfl
    · split
      · exact .inl rfl
      · split
        · exact .inl rfl
        · exact .inr ⟨_, rfl, rfl⟩

/-- The line that is taken for the key is right if and only if its key is the one that was
    asked for, it was copied whole, and its value is wanted. -/
theorem right_configValue_iff {k rest : Bytes} {want : Option Bytes}
    (hwf : ∀ i ∈ items, i.WellFormed) (hmem : Item.entry k before after value ∈ items)
    (hl : l = ⟨(Item.entry k before after value).text, rest⟩)
    (hsize : (l.toEnd LF).length < 2 ^ 63) (hstr : str <+: l.toEnd LF) (hnul : NUL ∉ str)
    (he : keyEnd str = some k.length) :
    Right items key want (configValue l str k.length) ↔
      k = key ∧ str = l.text ∧ want = some value := by
  have hiff := configValue_whole_iff (hwf _ hmem) hl hsize hstr hnul he
  rcases configValue_cases l str k.length with houtside | ⟨v, hv, hline⟩
  · rw [houtside] at hiff ⊢
    refine iff_of_false id fun h => ?_
    have hreturned := hiff.mpr h.2.1
    cases hreturned
  · rw [hv] at hiff ⊢
    have hstr : str = l.text ↔ v.str = value := by
      rw [← hiff]
      simp [Got.returned]
    rw [hstr]
    constructor
    · rintro ⟨hwant, m, n, hentry, htext⟩
      rw [hline, hl] at htext
      obtain ⟨hkey, hvalue⟩ := entry_inj (hwf _ hmem) (hwf _ hentry) htext
      exact ⟨hkey, hvalue.symm, hwant.trans (congrArg some hvalue.symm)⟩
    · rintro ⟨rfl, rfl, hwant⟩
      exact ⟨hwant, before, after, hmem, by rw [hline, hl]⟩

/-! ## The loop -/

/-- How the loop ends, with what `config_get` returns. -/
def outcome : Except (Got × Found) Found → Got × Found
  | .ok found => (.null, found)
  | .error result => result

theorem configGet_eq (f : File) (sect key : Bytes) :
    configGet f sect key = outcome (configLines sect key none (lines LF f.bytes)) := by
  unfold configGet outcome
  rfl

/-- A line of the section: it is passed over, and the lines behind it are `behind`; or it is
    taken for the key, and then its key is `key`, it was copied whole and its value is wanted;
    or it ends the search, and nothing is wanted. -/
def CleanKey (key : Bytes) (want : Option Bytes) (i : Item) (behind : Prop) : Reading → Prop
  | .passed => behind
  | .outside => False
  | .copy str =>
    match i with
    | .entry k _ _ value =>
      if keyEnd str = none then want = none
      else if k <+: key then k = key ∧ str = i.text ∧ want = some value
      else behind
    | _ => want = none

theorem cleanKey_entry {key k value str : Bytes} {want : Option Bytes} {m n : Nat} {behind : Prop} :
    CleanKey key want (.entry k m n value) behind (.copy str) =
      if keyEnd str = none then want = none
      else if k <+: key then k = key ∧ str = (Item.entry k m n value).text ∧ want = some value
      else behind := rfl

/-- The lines of the section, up to the one that ends the search. -/
def CleanKeys (key : Bytes) (want : Option Bytes) : List Item → Prop
  | [] => want = none
  | i :: items => CleanKey key want i (CleanKeys key want items) (readLine (i.line items))

/-- A line in front of the section. One that is taken for the section has its name, and the
    lines behind it are clean. -/
def CleanSection (sect : Bytes) (want : Option Bytes) (i : Item) (within behind : Prop) :
    Reading → Prop
  | .passed => behind
  | .outside => False
  | .copy str =>
    match i with
    | .sect name =>
      if CLOSE ∉ str then want = none
      else if name <+: sect then name = sect ∧ within
      else behind
    | _ => behind

theorem cleanSection_sect {sect name str : Bytes} {want : Option Bytes} {within behind : Prop} :
    CleanSection sect want (.sect name) within behind (.copy str) =
      if CLOSE ∉ str then want = none
      else if name <+: sect then name = sect ∧ within
      else behind := rfl

/-- The lines up to the section, and its lines. -/
def CleanSections (sect key : Bytes) (want : Option Bytes) : List Item → Prop
  | [] => want = none
  | i :: items =>
    CleanSection sect want i (CleanKeys key want items) (CleanSections sect key want items)
      (readLine (i.line items))

variable {want : Option Bytes}

/-- Nothing and comments are not copied. -/
theorem readLine_text (h : readLine (i.line items) = .copy str) :
    (∃ name, i = .sect name) ∨ ∃ k m n v, i = .entry k m n v := by
  cases i with
  | empty =>
    rw [readLine_nil rfl] at h
    cases h
  | comment text =>
    rw [readLine_passed (.inl rfl)] at h
    cases h
  | sect name => exact .inl ⟨name, rfl⟩
  | entry k m n v => exact .inr ⟨k, m, n, v, rfl⟩

/-- The copy of an entry does not begin like a section. -/
theorem head_of_entry {k : Bytes} (hwf : (Item.entry k before after value).WellFormed)
    (h : readLine ((Item.entry k before after value).line items) = .copy str) :
    str.head? ≠ some OPEN := by
  obtain ⟨⟨hne, -, -, -, hopen, -⟩, -⟩ := hwf
  obtain ⟨t, ht⟩ := isPrefix_toEnd_of_readLine h
  rw [Item.line, entry_toEnd] at ht
  intro hhead
  obtain ⟨b, k', rfl⟩ := List.exists_cons_of_ne_nil hne
  obtain ⟨s, rfl⟩ := List.head?_eq_some_iff.mp hhead
  refine hopen ?_
  rw [List.head?_cons, (List.cons.inj ht).1]

/-- Where the copy of an entry reaches behind the key. -/
theorem keyEnd_of_copy {k : Bytes} (hwf : (Item.entry k before after value).WellFormed)
    (h : readLine ((Item.entry k before after value).line items) = .copy str)
    (he : keyEnd str ≠ none) : keyEnd str = some k.length ∧ str.take k.length = k := by
  obtain ⟨⟨-, hsp, heq, -⟩, -⟩ := hwf
  have hpart := isPrefix_toEnd_of_readLine h
  rw [Item.line, entry_toEnd] at hpart
  obtain ⟨e, he⟩ := Option.ne_none_iff_exists'.mp he
  have hkey := keyEnd_of_prefix hpart he
  rw [keyEnd_entry ⟨hsp, heq⟩] at hkey
  obtain rfl := Option.some.inj hkey
  refine ⟨he, ?_⟩
  have hlt := keyEnd_lt he
  obtain ⟨t, ht⟩ := hpart
  have htake := congrArg (List.take k.length) ht
  rwa [List.take_append_of_le_length hlt.le, List.take_left] at htake

/-- An entry in the section. -/
theorem entryLine_of_entry {k : Bytes} (sect key name : Bytes)
    (hwf : (Item.entry k before after value).WellFormed)
    (h : readLine ((Item.entry k before after value).line items) = .copy str) :
    configLine sect key (some name) ((Item.entry k before after value).line items) =
      if keyEnd str = none then .error (.null, some name)
      else if k <+: key then
        .error (configValue ((Item.entry k before after value).line items) str k.length, some name)
      else .ok (some name) := by
  rw [configLine_entry h, entryLine, if_neg (head_of_entry hwf h)]
  by_cases he : keyEnd str = none
  · rw [if_pos he, he]
  · obtain ⟨hend, htake⟩ := keyEnd_of_copy hwf h he
    rw [if_neg he, hend]
    dsimp only
    have hbegins : strncmpeq str key k.length = true ↔ k <+: key := by
      rw [strncmpeq_iff_begins (keyEnd_lt hend).le, htake]
    simp only [hbegins]

/-- A section line in the section ends it. -/
theorem entryLine_of_sect {name name' : Bytes}
    (h : readLine ((Item.sect name').line items) = .copy str) :
    configLine sect key (some name) ((Item.sect name').line items) = .error (.null, some name) := by
  rw [configLine_entry h, entryLine, if_pos (head_of_readLine h rfl (by decide))]

/-- A section line in the search. -/
theorem searchLine_of_sect {name : Bytes} (sect key : Bytes) (hwf : (Item.sect name).WellFormed)
    (h : readLine ((Item.sect name).line items) = .copy str) :
    configLine sect key none ((Item.sect name).line items) =
      if CLOSE ∉ str then .error (.null, none)
      else if name <+: sect then .ok (some name) else .ok none := by
  rw [configLine_search h, searchLine, if_pos (head_of_readLine h rfl (by decide))]
  by_cases hclose : CLOSE ∈ str
  · have hpart := isPrefix_toEnd_of_readLine h
    have hobj : ((Item.sect name).line items).toEnd LF =
        (OPEN :: name) ++ CLOSE :: (LF :: itemsText items) := by
      simp [Item.line, Line.toEnd, Item.text]
    have hnot : CLOSE ∉ OPEN :: name := by
      rw [List.mem_cons, not_or]
      exact ⟨by decide, hwf.1⟩
    obtain ⟨e, he⟩ := Option.ne_none_iff_exists'.mp
      (fun hnone => find_singleton_eq_none.mp hnone hclose)
    obtain ⟨t, ht⟩ := hpart
    have hfind := find_append_left t he
    rw [ht, hobj, find_singleton_append _ _ _ hnot, List.length_cons] at hfind
    obtain rfl := Option.some.inj hfind
    have hlt := find_add_length_le he
    rw [List.length_singleton] at hlt
    have htake : (str.drop 1).take name.length = name := by
      have h := congrArg (fun xs => (List.drop 1 xs).take name.length) (ht.trans hobj)
      rwa [List.drop_append_of_le_length (by omega),
        List.take_append_of_le_length (by rw [List.length_drop]; omega), List.cons_append,
        List.drop_succ_cons, List.drop_zero, List.take_left] at h
    have hbegins : strncmpeq (str.drop 1) sect name.length = true ↔ name <+: sect := by
      rw [strncmpeq_iff_begins (by rw [List.length_drop]; omega), htake]
    rw [if_neg (not_not.mpr hclose), he]
    dsimp only
    rw [Nat.add_sub_cancel, htake]
    simp only [hbegins]
  · rw [if_pos hclose, find_singleton_eq_none.mpr hclose]

/-- An entry in the search. -/
theorem searchLine_of_entry {k : Bytes} (hwf : (Item.entry k before after value).WellFormed)
    (h : readLine ((Item.entry k before after value).line items) = .copy str) :
    configLine sect key none ((Item.entry k before after value).line items) = .ok none := by
  rw [configLine_search h, searchLine, if_neg (head_of_entry hwf h)]

/-- **In the section**, what is returned is right exactly where the keys are clean. -/
theorem withinLines_iff {name : Bytes} (all : List Item) (hwf : ∀ i ∈ all, i.WellFormed)
    (hsub : items ⊆ all) (hsize : (itemsText items).length < 2 ^ 63) :
    Right all key want (outcome (configLines sect key (some name) (itemLines items))).1 ↔
      CleanKeys key want items := by
  induction items with
  | nil => exact Iff.rfl
  | cons i items ih =>
    have hi : i ∈ all := hsub List.mem_cons_self
    rw [itemsText_cons, List.length_append, List.length_cons] at hsize
    have ih := ih (fun j hj => hsub (List.mem_cons_of_mem i hj)) (by omega)
    rw [itemLines, CleanKeys]
    cases hread : readLine (i.line items) with
    | passed => rw [configLines_cons_ok (configLine_passed hread), ih, CleanKey]
    | outside =>
      rw [configLines_cons_error (configLine_outside hread)]
      exact Iff.rfl
    | copy str =>
      rcases readLine_text hread with ⟨name', rfl⟩ | ⟨k, m, n, v, rfl⟩
      · rw [configLines_cons_error (entryLine_of_sect hread)]
        exact Iff.rfl
      · have hline := entryLine_of_entry sect key name (hwf _ hi) hread
        rw [cleanKey_entry]
        split_ifs at hline ⊢ with hcut hkey
        · rw [configLines_cons_error hline]
          exact Iff.rfl
        · rw [configLines_cons_error hline]
          have hend := (keyEnd_of_copy (hwf _ hi) hread hcut).1
          refine right_configValue_iff hwf hi rfl ?_ (isPrefix_toEnd_of_readLine hread)
            (not_mem_of_readLine hread) hend
          rw [Item.line, Line.toEnd, List.length_append, List.length_cons]
          exact hsize
        · rw [configLines_cons_ok hline, ih]

/-- In the section, `found_section` stays as it is. -/
theorem outcome_within {name : Bytes} (ls : List (Line Byte)) :
    (outcome (configLines sect key (some name) ls)).2 = some name := by
  induction ls with
  | nil => rfl
  | cons l ls ih =>
    have hline : (outcome (configLine sect key (some name) l)).2 = some name := by
      cases hread : readLine l with
      | passed => rw [configLine_passed hread, outcome]
      | outside => rw [configLine_outside hread, outcome]
      | copy str =>
        rw [configLine_entry hread, entryLine]
        split
        · rfl
        · split
          · rfl
          · split <;> rfl
    cases h : configLine sect key (some name) l with
    | ok found =>
      rw [h] at hline
      obtain rfl : found = some name := hline
      rw [configLines_cons_ok h, ih]
    | error r =>
      rw [h] at hline
      rw [configLines_cons_error h, hline]

/-- **Before the section**, what is returned is right and the section is the one that was asked
    for exactly where the sections are clean. -/
theorem searchLines_iff (all : List Item) (hwf : ∀ i ∈ all, i.WellFormed)
    (hsub : items ⊆ all) (hsize : (itemsText items).length < 2 ^ 63) :
    (Right all key want (outcome (configLines sect key none (itemLines items))).1 ∧
        ∀ name, (outcome (configLines sect key none (itemLines items))).2 = some name →
          name = sect) ↔
      CleanSections sect key want items := by
  have hnone : ∀ {g : Got}, (Right all key want g ∧ ∀ name, none = some name → name = sect) ↔
      Right all key want g := fun {g} => and_iff_left fun _ h => by cases h
  induction items with
  | nil => exact hnone
  | cons i items ih =>
    have hi : i ∈ all := hsub List.mem_cons_self
    have hitems : items ⊆ all := fun j hj => hsub (List.mem_cons_of_mem i hj)
    rw [itemsText_cons, List.length_append, List.length_cons] at hsize
    have ih := ih hitems (by omega)
    rw [itemLines, CleanSections]
    cases hread : readLine (i.line items) with
    | passed =>
      rw [configLines_cons_ok (configLine_passed hread)]
      exact ih
    | outside =>
      rw [configLines_cons_error (configLine_outside hread)]
      exact hnone
    | copy str =>
      rcases readLine_text hread with ⟨name, rfl⟩ | ⟨k, m, n, v, rfl⟩
      · have hline := searchLine_of_sect sect key (hwf _ hi) hread
        rw [cleanSection_sect]
        by_cases hclose : CLOSE ∉ str
        · rw [if_pos hclose] at hline ⊢
          rw [configLines_cons_error hline]
          exact hnone
        · rw [if_neg hclose] at hline ⊢
          by_cases hname : name <+: sect
          · rw [if_pos hname] at hline ⊢
            rw [configLines_cons_ok hline, outcome_within,
              withinLines_iff all hwf hitems (by omega), and_comm]
            refine and_congr_left fun _ => ⟨fun h => h name rfl, fun h name' hname' => ?_⟩
            rw [← Option.some.inj hname', h]
          · rw [if_neg hname] at hline ⊢
            rw [configLines_cons_ok hline]
            exact ih
      · rw [configLines_cons_ok (searchLine_of_entry (hwf _ hi) hread)]
        exact ih

/-! ## The theorem -/

/-- `config_get` returns what the file says, from an entry with exactly this key, and has
    taken no other section for the one that was asked for. -/
def Exact (c : ConfigFile) (sect key : Bytes) : Prop :=
  Right c.items key (lookup sect key c.items) (configGet c.file sect key).1 ∧
    ∀ name, (configGet c.file sect key).2 = some name → name = sect

/-- No other name is taken for the section or for the key. -/
def Clean (c : ConfigFile) (sect key : Bytes) : Prop :=
  CleanSections sect key (lookup sect key c.items) c.items

/-- **`config_get` is exact lookup if and only if the file is clean** for the names. -/
theorem config_get_exact_iff (c : ConfigFile) (sect key : Bytes) :
    Exact c sect key ↔ Clean c sect key := by
  unfold Exact
  rw [configGet_eq, show lines LF c.file.bytes = itemLines c.items from lines_itemsText c.wellFormed]
  exact searchLines_iff c.items c.wellFormed (List.Subset.refl _) c.size_lt

/-! ## Plain files -/

/-- A line that is copied whole. -/
def Item.Plain (i : Item) : Prop := i.text.length < 2 ^ 31 ∧ NUL ∉ i.text

theorem readLine_sect {name : Bytes} (h : (Item.sect name).Plain) :
    readLine ((Item.sect name).line items) = .copy (Item.sect name).text := by
  have hcomment : (Item.sect name).text.head? ≠ some HASH := by
    rw [Item.text, List.head?_cons]
    decide
  rw [readLine_whole (List.cons_ne_nil _ _) h.1 hcomment]
  exact congrArg Reading.copy (upto_of_not_mem h.2)

theorem readLine_entry {k : Bytes} (hwf : (Item.entry k before after value).WellFormed)
    (h : (Item.entry k before after value).Plain) :
    readLine ((Item.entry k before after value).line items) =
      .copy (Item.entry k before after value).text := by
  obtain ⟨⟨hne, -, -, -, -, hcomment⟩, -⟩ := hwf
  have hhead : (Item.entry k before after value).text.head? ≠ some HASH := by
    rwa [Item.text, List.head?_append_of_ne_nil _ hne]
  rw [readLine_whole (List.append_ne_nil_of_left_ne_nil hne _) h.1 hhead]
  exact congrArg Reading.copy (upto_of_not_mem h.2)

theorem right_returned {want : Option Bytes} {g : Got} (h : Right items key want g) :
    g.returned = some want := by
  cases g with
  | null => exact congrArg some h.symm
  | outside => exact absurd h id
  | value v => exact congrArg some h.1.symm

/-- `[serv]` in front of `[server]`. -/
def servFile : ConfigFile where
  items := [.sect (ascii "serv"), .entry (ascii "port") 1 1 (ascii "1"), .sect (ascii "server"),
    .entry (ascii "port") 1 1 (ascii "8080")]
  wellFormed := by decide
  size_lt := by decide

/-- `[serv]` is taken for `[server]`: the port is not the one the file gives. -/
theorem prefix_section_taken : ¬ Exact servFile (ascii "server") (ascii "port") := by
  intro h
  have hreturned := right_returned h.1
  revert hreturned
  decide +kernel

end Foxtails.Config
