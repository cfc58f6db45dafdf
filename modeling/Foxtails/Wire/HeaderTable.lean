/-
  The header table after a sequence of `http_set_header` calls.

  `setAll t hs` sets the headers of `hs` in order. The table holds at most
  `httpMaxHeaders` names and never drops one, so what it ends up with for a name depends on
  how many other names came first:

  * `length_setAll`: from the empty table, the number of stored headers is the number of
    different names, cut at `httpMaxHeaders`.
  * `get_setAll`: a name reads its last value, if fewer than `httpMaxHeaders` other names
    came before it, and nothing otherwise.
  * `forall_governingValue_iff`: every name reads its last value exactly when there are at
    most `httpMaxHeaders` names.
  * `parseLines_headers`: the parser's loop is `setAll` on the headers its lines hold.
-/
import Foxtails.Wire.Parse

namespace Foxtails.Wire

open Foxtails.Lib.Scan Foxtails.Lib.Libc

/-- The table after setting every header of the list. -/
def HttpHeaders.setAll (t : HttpHeaders) (hs : List HttpHeader) : HttpHeaders :=
  hs.foldl (fun t h => (t.set h.name h.value).1) t

/-- The value of the last header called `k`, ignoring case. -/
def lastValue (k : Bytes) (hs : List HttpHeader) : Option Bytes :=
  (hs.reverse.find? fun h => strcaseeq h.name k).map (·.value)

/-- The different names of a list of headers, in lower case. -/
def lowerNames (hs : List HttpHeader) : Finset Bytes :=
  (hs.map fun h => h.name.map toLower).toFinset

theorem HttpHeaders.setAll_append (t : HttpHeaders) (hs gs : List HttpHeader) :
    t.setAll (hs ++ gs) = (t.setAll hs).setAll gs := List.foldl_append

theorem lastValue_append (k : Bytes) (hs gs : List HttpHeader) :
    lastValue k (hs ++ gs) = (lastValue k gs).or (lastValue k hs) := by
  unfold lastValue
  rw [List.reverse_append, List.find?_append]
  cases gs.reverse.find? fun h => strcaseeq h.name k <;> rfl

theorem lastValue_singleton (k : Bytes) (h : HttpHeader) :
    lastValue k [h] = if strcaseeq h.name k then some h.value else none := by
  unfold lastValue
  by_cases hk : strcaseeq h.name k = true <;> simp [hk]

theorem lastValue_eq_none {k : Bytes} {hs : List HttpHeader} :
    lastValue k hs = none ↔ ∀ h ∈ hs, strcaseeq h.name k = false := by
  simp [lastValue]

/-! ## One set -/

theorem HttpHeaders.get_eq_none_iff {t : HttpHeaders} {k : Bytes} :
    t.get k = none ↔ ∀ h ∈ t.items, strcaseeq h.name k = false := by
  simp [HttpHeaders.get]

theorem strcaseeq_trans_false {a b c : Bytes} (hab : strcaseeq a b = true)
    (hcb : strcaseeq c b = false) : strcaseeq c a = false := by
  rw [strcaseeq_comm, strcaseeq_congr hab, strcaseeq_comm]
  exact hcb

/-- A set of a name that is there is stored. -/
theorem HttpHeaders.set_stored_of_get {t : HttpHeaders} {name value : Bytes}
    (h : t.get name ≠ none) : (t.set name value).2 = true := by
  have hany : t.items.any (fun h => strcaseeq h.name name) = true := by
    by_contra hno
    refine h (HttpHeaders.get_eq_none_iff.mpr fun g hg => ?_)
    simp only [List.any_eq_true, not_exists, not_and] at hno
    simpa using hno g hg
  unfold HttpHeaders.set
  rw [if_pos hany]

/-- A set of a name that is not there is stored at the end if there is room, and refused
    otherwise. -/
theorem HttpHeaders.set_of_get_none {t : HttpHeaders} {name : Bytes} (value : Bytes)
    (h : t.get name = none) :
    (t.items.length < httpMaxHeaders → (t.set name value).2 = true ∧
      (t.set name value).1.items = t.items ++ [⟨name, value⟩]) ∧
    (¬ t.items.length < httpMaxHeaders → t.set name value = (t, false)) := by
  have hany : ¬ t.items.any (fun h => strcaseeq h.name name) = true := by
    intro hany
    obtain ⟨g, hg, hgn⟩ := List.any_eq_true.mp hany
    rw [HttpHeaders.get_eq_none_iff.mp h g hg] at hgn
    cases hgn
  constructor
  · intro hlt
    unfold HttpHeaders.set
    rw [if_neg hany, dif_pos hlt]
    exact ⟨rfl, rfl⟩
  · intro hge
    unfold HttpHeaders.set
    rw [if_neg hany, dif_neg hge]

theorem overwrite_names (name value : Bytes) (hs : List HttpHeader) :
    (overwrite name value hs).map (·.name) = hs.map (·.name) := by
  induction hs with
  | nil => rfl
  | cons h hs ih => rw [overwrite]; split_ifs <;> simp [ih]

/-- A set of a name that is there changes no name. -/
theorem HttpHeaders.set_names_of_get {t : HttpHeaders} {name : Bytes} (value : Bytes)
    (h : t.get name ≠ none) :
    (t.set name value).1.items.map (·.name) = t.items.map (·.name) := by
  have hany : t.items.any (fun h => strcaseeq h.name name) = true := by
    by_contra hno
    refine h (HttpHeaders.get_eq_none_iff.mpr fun g hg => ?_)
    simp only [List.any_eq_true, not_exists, not_and] at hno
    simpa using hno g hg
  unfold HttpHeaders.set
  rw [if_pos hany]
  exact overwrite_names name value t.items

/-! ## Runs of sets -/

theorem HttpHeaders.get_setAll_of_none {t : HttpHeaders} {k : Bytes} (hs : List HttpHeader)
    (h : t.get k = none) (hno : ∀ g ∈ hs, strcaseeq g.name k = false) :
    (t.setAll hs).get k = none := by
  induction hs generalizing t with
  | nil => exact h
  | cons g hs ih =>
    refine ih ?_ fun g' hg' => hno g' (List.mem_cons_of_mem _ hg')
    rw [HttpHeaders.get_set, hno g List.mem_cons_self, Bool.and_false]
    exact h

/-- A stored name keeps its place: later sets of it always succeed. -/
theorem HttpHeaders.get_setAll_of_stored {t : HttpHeaders} {k v : Bytes} (hs : List HttpHeader)
    (h : t.get k = some v) : (t.setAll hs).get k = some ((lastValue k hs).getD v) := by
  induction hs generalizing t v with
  | nil => exact h
  | cons g hs ih =>
    rw [← List.singleton_append, lastValue_append, lastValue_singleton,
      HttpHeaders.setAll_append]
    have hset : (t.setAll [g]).get k = some (if strcaseeq g.name k then g.value else v) := by
      show (t.set g.name g.value).1.get k = _
      rw [HttpHeaders.get_set]
      by_cases hk : strcaseeq g.name k = true
      · have hst : (t.set g.name g.value).2 = true := by
          refine HttpHeaders.set_stored_of_get fun hnone => ?_
          have : t.get k = none := by
            rw [HttpHeaders.get_eq_none_iff] at hnone ⊢
            exact fun x hx => strcaseeq_trans_false (strcaseeq_comm g.name k ▸ hk) (hnone x hx)
          rw [this] at h
          cases h
        simp [hst, hk]
      · simp [hk, h]
    rw [ih hset]
    cases lastValue k hs with
    | some w => rfl
    | none => by_cases hk : strcaseeq g.name k = true <;> simp [hk]

/-- A full table stays without the names it does not have. -/
theorem HttpHeaders.get_setAll_of_full {t : HttpHeaders} {k : Bytes} (hs : List HttpHeader)
    (h : t.get k = none) (hfull : t.items.length = httpMaxHeaders) :
    (t.setAll hs).get k = none := by
  induction hs generalizing t with
  | nil => exact h
  | cons g hs ih =>
    rcases hg : t.get g.name with _ | v
    · have := (HttpHeaders.set_of_get_none g.value hg).2 (by omega)
      show ((t.set g.name g.value).1.setAll hs).get k = none
      rw [this]
      exact ih h hfull
    · have hne : t.get g.name ≠ none := by rw [hg]; simp
      refine ih ?_ ?_
      · have hk : strcaseeq g.name k = false := by
          by_contra hk
          rw [Bool.not_eq_false] at hk
          refine hne (HttpHeaders.get_eq_none_iff.mpr fun x hx => ?_)
          exact strcaseeq_trans_false hk (HttpHeaders.get_eq_none_iff.mp h x hx)
        rw [HttpHeaders.get_set, hk, Bool.and_false]
        exact h
      · have := congrArg List.length (HttpHeaders.set_names_of_get g.value hne)
        simpa [hfull] using this

theorem mem_lowerNames {n : Bytes} {hs : List HttpHeader} :
    n ∈ lowerNames hs ↔ ∃ h ∈ hs, h.name.map toLower = n := by
  simp [lowerNames]

theorem lowerNames_concat (hs : List HttpHeader) (h : HttpHeader) :
    lowerNames (hs ++ [h]) = insert (h.name.map toLower) (lowerNames hs) := by
  ext n
  simp only [mem_lowerNames, List.mem_append, List.mem_singleton, Finset.mem_insert]
  constructor
  · rintro ⟨g, hg | rfl, rfl⟩
    · exact .inr ⟨g, hg, rfl⟩
    · exact .inl rfl
  · rintro (rfl | ⟨g, hg, rfl⟩)
    · exact ⟨h, .inr rfl, rfl⟩
    · exact ⟨g, .inl hg, rfl⟩

theorem HttpHeaders.get_eq_none_iff_lower {t : HttpHeaders} {k : Bytes} :
    t.get k = none ↔ k.map toLower ∉ lowerNames t.items := by
  rw [HttpHeaders.get_eq_none_iff, mem_lowerNames]
  simp only [not_exists, not_and]
  refine forall₂_congr fun h _ => ?_
  rw [← Bool.not_eq_true, strcaseeq_iff]

/-- The stored headers are as many as the different names, cut at `httpMaxHeaders`; while
    none has been refused, the names are the same. -/
theorem HttpHeaders.length_setAll (hs : List HttpHeader) :
    (HttpHeaders.empty.setAll hs).items.length = min httpMaxHeaders (lowerNames hs).card ∧
      ((lowerNames hs).card ≤ httpMaxHeaders →
        lowerNames (HttpHeaders.empty.setAll hs).items = lowerNames hs) := by
  induction hs using List.reverseRecOn with
  | nil => exact ⟨rfl, fun _ => rfl⟩
  | append_singleton hs h ih =>
    obtain ⟨hlen, hnames⟩ := ih
    set t := HttpHeaders.empty.setAll hs with ht
    have hset : HttpHeaders.empty.setAll (hs ++ [h]) = (t.set h.name h.value).1 := by
      rw [HttpHeaders.setAll_append, ← ht]
      rfl
    rw [hset, lowerNames_concat]
    by_cases hget : t.get h.name = none
    · have hnew : h.name.map toLower ∉ lowerNames t.items :=
        HttpHeaders.get_eq_none_iff_lower.mp hget
      obtain ⟨hroom, hrefuse⟩ := HttpHeaders.set_of_get_none h.value hget
      by_cases hlt : t.items.length < httpMaxHeaders
      · have hsame := hnames (by omega)
        rw [(hroom hlt).2, Finset.card_insert_of_notMem (hsame ▸ hnew)]
        refine ⟨by simp; omega, fun _ => ?_⟩
        rw [lowerNames_concat, hsame]
      · rw [hrefuse hlt]
        dsimp only
        have hcard : httpMaxHeaders ≤ (lowerNames hs).card := by omega
        have hle : (lowerNames hs).card ≤ (insert (h.name.map toLower) (lowerNames hs)).card :=
          Finset.card_le_card (Finset.subset_insert _ _)
        refine ⟨by omega, fun hins => ?_⟩
        have hsame := hnames (by omega)
        rw [Finset.card_insert_of_notMem (hsame ▸ hnew)] at hins
        omega
    · have hold : h.name.map toLower ∈ lowerNames t.items := by
        by_contra hno
        exact hget (HttpHeaders.get_eq_none_iff_lower.mpr hno)
      have hmap := HttpHeaders.set_names_of_get h.value hget
      have hlen' : (t.set h.name h.value).1.items.length = t.items.length := by
        simpa using congrArg List.length hmap
      have hlow : lowerNames (t.set h.name h.value).1.items = lowerNames t.items := by
        unfold lowerNames
        have := congrArg (List.map (List.map toLower)) hmap
        rw [List.map_map, List.map_map] at this
        exact congrArg List.toFinset this
      rw [hlen', hlow]
      by_cases hcard : (lowerNames hs).card ≤ httpMaxHeaders
      · have hsame := hnames hcard
        rw [Finset.insert_eq_of_mem (hsame ▸ hold)]
        exact ⟨hlen, fun _ => hsame⟩
      · have hle : (lowerNames hs).card ≤ (insert (h.name.map toLower) (lowerNames hs)).card :=
          Finset.card_le_card (Finset.subset_insert _ _)
        exact ⟨by omega, fun hins => absurd hins (by omega)⟩

/-- The headers before the first one called `k`. -/
def beforeName (k : Bytes) (hs : List HttpHeader) : List HttpHeader :=
  hs.takeWhile fun h => !strcaseeq h.name k

/-- The value the table ends up with for `k`: the last one, if there was room for the name. -/
def governingValue (k : Bytes) (hs : List HttpHeader) : Option Bytes :=
  if (lowerNames (beforeName k hs)).card < httpMaxHeaders then lastValue k hs else none

theorem HttpHeaders.get_setAll (k : Bytes) (hs : List HttpHeader) :
    (HttpHeaders.empty.setAll hs).get k = governingValue k hs := by
  have hsplit : hs = beforeName k hs ++ hs.dropWhile (fun h => !strcaseeq h.name k) :=
    List.takeWhile_append_dropWhile.symm
  have hbefore : ∀ g ∈ beforeName k hs, strcaseeq g.name k = false := fun g hg => by
    simpa using List.mem_takeWhile_imp hg
  have hnone : (HttpHeaders.empty.setAll (beforeName k hs)).get k = none :=
    HttpHeaders.get_setAll_of_none _ rfl hbefore
  unfold governingValue
  cases hd : hs.dropWhile (fun h => !strcaseeq h.name k) with
  | nil =>
    rw [hd, List.append_nil] at hsplit
    have hlast : lastValue k hs = none := by
      rw [lastValue_eq_none, hsplit]
      exact hbefore
    rw [hlast, ite_self, hsplit]
    exact hnone
  | cons h rest =>
    rw [hd] at hsplit
    have hk : strcaseeq h.name k = true := by
      have hne : hs.dropWhile (fun h => !strcaseeq h.name k) ≠ [] := by rw [hd]; simp
      have := List.head_dropWhile_not (fun h : HttpHeader => !strcaseeq h.name k) hne
      simpa [hd] using this
    have hlen := (HttpHeaders.length_setAll (beforeName k hs)).1
    set t := HttpHeaders.empty.setAll (beforeName k hs) with ht
    have hget : t.get h.name = none := by
      rw [HttpHeaders.get_eq_none_iff] at hnone ⊢
      exact fun g hg => strcaseeq_trans_false hk (hnone g hg)
    obtain ⟨hroom, hrefuse⟩ := HttpHeaders.set_of_get_none h.value hget
    have hrun : HttpHeaders.empty.setAll hs = (t.set h.name h.value).1.setAll rest := by
      conv_lhs => rw [hsplit]
      rw [HttpHeaders.setAll_append, ← ht]
      rfl
    rw [hrun]
    split_ifs with hcard
    · have hstored : (t.set h.name h.value).1.get k = some h.value := by
        rw [HttpHeaders.get_set, (hroom (by omega)).1, hk]
        rfl
      rw [HttpHeaders.get_setAll_of_stored rest hstored]
      have hlast : lastValue k hs = (lastValue k rest).or (some h.value) := by
        conv_lhs => rw [hsplit]
        rw [lastValue_append, ← List.singleton_append, lastValue_append, lastValue_singleton,
          if_pos hk, Option.or_assoc]
        rfl
      rw [hlast]
      cases lastValue k rest <;> rfl
    · have hfull : t.items.length = httpMaxHeaders := by omega
      rw [hrefuse (by omega)]
      exact HttpHeaders.get_setAll_of_full rest hnone hfull

theorem beforeName_subset (k : Bytes) (hs : List HttpHeader) :
    lowerNames (beforeName k hs) ⊆ lowerNames hs := by
  intro n hn
  obtain ⟨h, hh, rfl⟩ := mem_lowerNames.mp hn
  exact mem_lowerNames.mpr ⟨h, (List.takeWhile_prefix _).subset hh, rfl⟩

/-- Every name reads its last value exactly when there are not more names than places. -/
theorem forall_governingValue_iff (hs : List HttpHeader) :
    (∀ k, governingValue k hs = lastValue k hs) ↔ (lowerNames hs).card ≤ httpMaxHeaders := by
  constructor
  · intro hall
    by_contra hcard
    -- Some name is not among the stored ones.
    obtain ⟨hlen, -⟩ := HttpHeaders.length_setAll hs
    have hstored : (lowerNames (HttpHeaders.empty.setAll hs).items).card ≤ httpMaxHeaders :=
      calc (lowerNames (HttpHeaders.empty.setAll hs).items).card
          ≤ ((HttpHeaders.empty.setAll hs).items.map fun h => h.name.map toLower).length :=
            List.toFinset_card_le _
        _ ≤ httpMaxHeaders := by rw [List.length_map]; omega
    obtain ⟨n, hn, hno⟩ := Finset.exists_mem_notMem_of_card_lt_card
      (show (lowerNames (HttpHeaders.empty.setAll hs).items).card < (lowerNames hs).card by omega)
    obtain ⟨h, hh, rfl⟩ := mem_lowerNames.mp hn
    have hlast : lastValue h.name hs = none := by
      rw [← hall h.name, ← HttpHeaders.get_setAll]
      exact HttpHeaders.get_eq_none_iff_lower.mpr hno
    have := lastValue_eq_none.mp hlast h hh
    rw [strcaseeq_self] at this
    cases this
  · intro hcard k
    unfold governingValue
    split_ifs with hlt
    · rfl
    · -- All places were taken before `k`, so all names were there before `k`.
      have hsame := Finset.eq_of_subset_of_card_le (beforeName_subset k hs) (by omega)
      symm
      rw [lastValue_eq_none]
      intro h hh
      by_contra hk
      rw [Bool.not_eq_false, strcaseeq_iff] at hk
      have hmem : h.name.map toLower ∈ lowerNames (beforeName k hs) := by
        rw [hsame]
        exact mem_lowerNames.mpr ⟨h, hh, rfl⟩
      obtain ⟨g, hg, hgn⟩ := mem_lowerNames.mp hmem
      have hgk : strcaseeq g.name k = true := by rw [strcaseeq_iff, hgn, hk]
      have := List.mem_takeWhile_imp hg
      simp [hgk] at this

/-- A governing value is the value of one of the headers called `k`. -/
theorem exists_of_governingValue {k v : Bytes} {hs : List HttpHeader}
    (h : governingValue k hs = some v) : ∃ g ∈ hs, strcaseeq g.name k = true ∧ g.value = v := by
  unfold governingValue at h
  split_ifs at h
  unfold lastValue at h
  obtain ⟨g, hg, rfl⟩ := Option.map_eq_some_iff.mp h
  exact ⟨g, List.mem_reverse.mp (List.mem_of_find?_eq_some hg),
    by simpa using List.find?_some hg, rfl⟩

/-! ## The parser's loop -/

/-- The headers that a list of lines holds. -/
def lineHeaders (ts : List Bytes) : List HttpHeader := ts.filterMap fun t => lineHeader (trimCr t)

theorem parseLines_headers (msg : Http) (ts : List Bytes) :
    (parseLines msg ts).headers = msg.headers.setAll (lineHeaders ts) := by
  unfold parseLines
  induction ts generalizing msg with
  | nil => rfl
  | cons t ts ih =>
    rw [List.foldl_cons, ih]
    unfold httpParseHeaderLine lineHeaders
    cases hl : lineHeader (trimCr t) with
    | none => simp [hl]
    | some h => simp [hl, httpSetHeader, HttpHeaders.setAll]

end Foxtails.Wire
