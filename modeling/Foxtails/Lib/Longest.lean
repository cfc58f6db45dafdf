/-
  Tables that are asked by the beginning of a name.

  A row has a name, a list, and is meant by every name that its own name begins.
  `firstPrefix` takes the first such row of a table, `longestPrefix` the one with the longest name.

  * `longestPrefix_eq_some_iff`: what the longest row is, for names that differ.
  * `firstPrefix_eq_longestPrefix`: where longer names stand in front, the first row is the longest.
  * `firstPrefix_longerFirst`: so it is in the table sorted that way.
-/
import Mathlib.Data.List.MinMax
import Mathlib.Data.List.Sort
import Mathlib.Tactic

namespace Foxtails.Lib.Longest

variable {α β : Type} {name : List α} {table : List (List α × β)} {e : List α × β}

/-! ## Tables -/

/-- No two rows have one name. -/
def Distinct (table : List (List α × β)) : Prop := (table.map Prod.fst).Nodup

/-- No name stands in front of a longer one. -/
def LongerFirst (table : List (List α × β)) : Prop :=
  table.Pairwise fun e e' => e'.1.length ≤ e.1.length

/-- The table with longer names in front. -/
def longerFirst (table : List (List α × β)) : List (List α × β) :=
  table.insertionSort fun e e' => e'.1.length ≤ e.1.length

theorem longerFirst_perm (table : List (List α × β)) : (longerFirst table).Perm table :=
  List.perm_insertionSort _ table

theorem longerFirst_ordered (table : List (List α × β)) : LongerFirst (longerFirst table) := by
  have htotal : Std.Total fun e e' : List α × β => e'.1.length ≤ e.1.length :=
    ⟨fun e e' => Nat.le_total _ _⟩
  have htrans : IsTrans (List α × β) fun e e' => e'.1.length ≤ e.1.length :=
    ⟨fun _ _ _ h h' => h'.trans h⟩
  exact List.pairwise_insertionSort _ table

theorem Distinct.perm {table' : List (List α × β)} (h : Distinct table) (hperm : table'.Perm table) :
    Distinct table' := (hperm.map Prod.fst).nodup_iff.mpr h

theorem Distinct.eq {e' : List α × β} (h : Distinct table) (he : e ∈ table) (he' : e' ∈ table)
    (hname : e.1 = e'.1) : e = e' := List.inj_on_of_nodup_map h he he' hname

theorem Distinct.map {γ : Type} (f : β → γ) (h : Distinct table) :
    Distinct (table.map (Prod.map id f)) := by
  unfold Distinct
  rw [List.map_map]
  exact h

/-- Two names of one length that begin a name are the same. -/
theorem eq_of_prefix {a b : List α} (ha : a <+: name) (hb : b <+: name)
    (hlen : a.length = b.length) : a = b :=
  (List.prefix_of_prefix_length_le ha hb hlen.le).eq_of_length hlen

/-! ## The first row and the longest -/

variable [DecidableEq α]

instance (table : List (List α × β)) : Decidable (Distinct table) :=
  inferInstanceAs (Decidable (List.Nodup _))

/-- The first row whose name begins this one. -/
def firstPrefix (name : List α) (table : List (List α × β)) : Option (List α × β) :=
  table.find? fun e => e.1 <+: name

/-- The row with the longest name that begins this one. -/
def longestPrefix (name : List α) (table : List (List α × β)) : Option (List α × β) :=
  (table.filter fun e => e.1 <+: name).argmax fun e => e.1.length

theorem firstPrefix_cons_of_begins (h : e.1 <+: name) :
    firstPrefix name (e :: table) = some e := List.find?_cons_of_pos (decide_eq_true h)

theorem firstPrefix_cons_of_not (h : ¬ e.1 <+: name) :
    firstPrefix name (e :: table) = firstPrefix name table :=
  List.find?_cons_of_neg (by simpa using h)

theorem longestPrefix_eq_some_iff (hdistinct : Distinct table) :
    longestPrefix name table = some e ↔
      e ∈ table ∧ e.1 <+: name ∧ ∀ e' ∈ table, e'.1 <+: name → e'.1.length ≤ e.1.length := by
  have hmem : ∀ e', (e' ∈ table.filter fun e => e.1 <+: name) ↔ e' ∈ table ∧ e'.1 <+: name := by
    intro e'
    rw [List.mem_filter, decide_eq_true_iff]
  unfold longestPrefix
  constructor
  · intro h
    obtain ⟨he, hbegins⟩ := (hmem e).mp (List.argmax_mem h)
    refine ⟨he, hbegins, fun e' he' hb => ?_⟩
    exact List.le_of_mem_argmax (f := fun e : List α × β => e.1.length)
      ((hmem e').mpr ⟨he', hb⟩) h
  · rintro ⟨he, hbegins, hlongest⟩
    cases hmax : (table.filter fun e => e.1 <+: name).argmax fun e => e.1.length with
    | none =>
      have hnil := List.argmax_eq_none.mp hmax
      have hfound := (hmem e).mpr ⟨he, hbegins⟩
      rw [hnil] at hfound
      exact absurd hfound List.not_mem_nil
    | some m =>
      obtain ⟨hm, hmbegins⟩ := (hmem m).mp (List.argmax_mem hmax)
      have hle := List.le_of_mem_argmax (f := fun e : List α × β => e.1.length)
        ((hmem e).mpr ⟨he, hbegins⟩) hmax
      have hname := eq_of_prefix hmbegins hbegins (Nat.le_antisymm (hlongest m hm hmbegins) hle)
      rw [hdistinct.eq hm he hname]

/-- A row is found by its own name. -/
theorem longestPrefix_self (hdistinct : Distinct table) (he : e ∈ table) :
    longestPrefix e.1 table = some e := by
  rw [longestPrefix_eq_some_iff hdistinct]
  exact ⟨he, List.prefix_refl _, fun e' _ h => h.length_le⟩

theorem longestPrefix_perm {table' : List (List α × β)} (hdistinct : Distinct table)
    (hperm : table'.Perm table) (name : List α) :
    longestPrefix name table' = longestPrefix name table := by
  apply Option.ext
  intro e
  rw [longestPrefix_eq_some_iff hdistinct, longestPrefix_eq_some_iff (hdistinct.perm hperm)]
  simp only [hperm.mem_iff]

/-- **The first row is the longest one** where longer names stand in front. -/
theorem firstPrefix_eq_longestPrefix (hdistinct : Distinct table) (hordered : LongerFirst table)
    (name : List α) : firstPrefix name table = longestPrefix name table := by
  induction table with
  | nil => rfl
  | cons r table ih =>
    obtain ⟨hshorter, hordered⟩ := List.pairwise_cons.mp hordered
    by_cases hbegins : r.1 <+: name
    · rw [firstPrefix_cons_of_begins hbegins, eq_comm, longestPrefix_eq_some_iff hdistinct]
      refine ⟨List.mem_cons_self, hbegins, fun e he _ => ?_⟩
      obtain rfl | he := List.mem_cons.mp he
      · exact le_rfl
      · exact hshorter e he
    · have hskip : longestPrefix name (r :: table) = longestPrefix name table := by
        unfold longestPrefix
        rw [List.filter_cons_of_neg (by simpa using hbegins)]
      rw [firstPrefix_cons_of_not hbegins, hskip]
      exact ih (List.nodup_cons.mp hdistinct).2 hordered

/-- What the rows stand for does not matter to which row it is. -/
theorem longestPrefix_map {γ : Type} (f : β → γ) (hdistinct : Distinct table) (name : List α) :
    longestPrefix name (table.map (Prod.map id f)) =
      (longestPrefix name table).map (Prod.map id f) := by
  apply Option.ext
  intro e
  rw [longestPrefix_eq_some_iff (hdistinct.map f), Option.map_eq_some_iff]
  constructor
  · rintro ⟨he, hbegins, hlongest⟩
    obtain ⟨r, hr, rfl⟩ := List.mem_map.mp he
    refine ⟨r, (longestPrefix_eq_some_iff hdistinct).mpr ⟨hr, hbegins, fun r' hr' hb => ?_⟩, rfl⟩
    exact hlongest (Prod.map id f r') (List.mem_map_of_mem hr') hb
  · rintro ⟨r, hr, rfl⟩
    obtain ⟨hmem, hbegins, hlongest⟩ := (longestPrefix_eq_some_iff hdistinct).mp hr
    refine ⟨List.mem_map_of_mem hmem, hbegins, fun e' he' hb => ?_⟩
    obtain ⟨r', hr', rfl⟩ := List.mem_map.mp he'
    exact hlongest r' hr' hb

/-- **The longest row of a table is the first one** of the table with longer names in front. -/
theorem firstPrefix_longerFirst (hdistinct : Distinct table) (name : List α) :
    firstPrefix name (longerFirst table) = longestPrefix name table := by
  have hperm := longerFirst_perm table
  rw [firstPrefix_eq_longestPrefix (hdistinct.perm hperm) (longerFirst_ordered table),
    longestPrefix_perm hdistinct hperm]

end Foxtails.Lib.Longest
