/-
  A config file as a table of sections, and a table as a config file.

  Model (read this before the theorems). `tableOf` takes the sections of a file, each with its
  entries, in order; comments, and what stands in front of the first section, are no part of it.
  A name is compared as far as the name in the file goes, so the table is asked by the beginning
  of a name (`resolve`). `Settings` is a table that can be written, and `Settings.written` writes it
  with longer names in front of shorter ones, sections and keys alike.

  * `configGet_resolve`: in a plain file `config_get` asks the table.
  * `tableOf_itemsOf`: a table that is written is the table of the file.
  * `settings_read_back`: so what is written this way is read back, and any other name has the
    value of the longest name that begins it.
-/
import Foxtails.Config.Lookup
import Foxtails.Lib.Longest

namespace Foxtails.Config

open Foxtails.Lib.Scan Foxtails.Lib.Libc Foxtails.Lib.Lines Foxtails.Lib.Object Foxtails.Lib.Longest

/-- Keys and values. -/
abbrev Entries := List (Bytes × Bytes)

/-- The names of sections and what they hold. -/
abbrev Sections := List (Bytes × Entries)

/-- The entries up to the next section. -/
def entriesOf : List Item → Entries
  | [] => []
  | .sect _ :: _ => []
  | .entry key _ _ value :: items => (key, value) :: entriesOf items
  | _ :: items => entriesOf items

def tableOf : List Item → Sections
  | [] => []
  | .sect name :: items => (name, entriesOf items) :: tableOf items
  | _ :: items => tableOf items

/-- The first section whose name begins the one asked for, and in it the first such key. -/
def resolve (sect key : Bytes) (table : Sections) : Option Bytes :=
  (firstPrefix sect table).bind fun r => (firstPrefix key r.2).map Prod.snd

variable {i : Item} {items : List Item} {sect key value : Bytes}

/-! ## The loop in a plain file -/

theorem keyEnd_text {before after : Nat}
    (hwf : (Item.entry key before after value).WellFormed) :
    keyEnd (Item.entry key before after value).text = some key.length := by
  obtain ⟨⟨-, hsp, heq, -⟩, -⟩ := hwf
  have hend : keyEnd (key ++ (assigned before after value ++ [])) = some key.length :=
    keyEnd_entry ⟨hsp, heq⟩ []
  rwa [List.append_nil] at hend

theorem itemsText_lt_of_cons {n : Nat} (h : (itemsText (i :: items)).length < n) :
    (itemsText items).length < n := by
  rw [itemsText_cons, List.length_append, List.length_cons] at h
  omega

/-- In the section. -/
theorem withinLines_plain (hwf : ∀ i ∈ items, i.WellFormed) (hplain : ∀ i ∈ items, i.Plain)
    (hsize : (itemsText items).length < 2 ^ 63) (name : Bytes) :
    (outcome (configLines sect key (some name) (itemLines items))).1.returned =
      some ((firstPrefix key (entriesOf items)).map Prod.snd) := by
  induction items with
  | nil => rfl
  | cons i items ih =>
    obtain ⟨hi, hwf'⟩ := List.forall_mem_cons.mp hwf
    obtain ⟨hp, hplain'⟩ := List.forall_mem_cons.mp hplain
    have ih := ih hwf' hplain' (itemsText_lt_of_cons hsize)
    rw [itemLines]
    cases i with
    | empty =>
      rw [configLines_cons_ok (configLine_passed (readLine_nil rfl))]
      exact ih
    | comment text =>
      rw [configLines_cons_ok (configLine_passed (readLine_passed (.inl rfl)))]
      exact ih
    | sect name' =>
      rw [configLines_cons_error (entryLine_of_sect (readLine_sect hp))]
      rfl
    | entry k m n v =>
      have hread : readLine ((Item.entry k m n v).line items) = .copy (Item.entry k m n v).text :=
        readLine_entry hi hp
      have hend := keyEnd_text hi
      have hline := entryLine_of_entry sect key name hi hread
      rw [if_neg (by rw [hend]; exact Option.some_ne_none _)] at hline
      by_cases hbegins : k <+: key
      · have hwhole := (configValue_whole_iff hi (l := (Item.entry k m n v).line items) rfl
          (by rwa [itemsText_cons] at hsize) (List.prefix_append _ _)
          (fun hmem => hp.2 hmem) hend).mpr rfl
        rw [if_pos hbegins] at hline
        rw [configLines_cons_error hline, entriesOf, firstPrefix_cons_of_begins hbegins]
        exact hwhole
      · rw [if_neg hbegins] at hline
        rw [configLines_cons_ok hline, ih, entriesOf, firstPrefix_cons_of_not hbegins]

/-- Before the section. -/
theorem searchLines_plain (hwf : ∀ i ∈ items, i.WellFormed) (hplain : ∀ i ∈ items, i.Plain)
    (hsize : (itemsText items).length < 2 ^ 63) :
    (outcome (configLines sect key none (itemLines items))).1.returned =
      some (resolve sect key (tableOf items)) := by
  induction items with
  | nil => rfl
  | cons i items ih =>
    obtain ⟨hi, hwf'⟩ := List.forall_mem_cons.mp hwf
    obtain ⟨hp, hplain'⟩ := List.forall_mem_cons.mp hplain
    have hshort := itemsText_lt_of_cons hsize
    have ih := ih hwf' hplain' hshort
    rw [itemLines]
    cases i with
    | empty =>
      rw [configLines_cons_ok (configLine_passed (readLine_nil rfl))]
      exact ih
    | comment text =>
      rw [configLines_cons_ok (configLine_passed (readLine_passed (.inl rfl)))]
      exact ih
    | entry k m n v =>
      rw [configLines_cons_ok (searchLine_of_entry hi (readLine_entry hi hp))]
      exact ih
    | sect name =>
      have hclose : ¬ CLOSE ∉ (Item.sect name).text := by simp [Item.text]
      have hread : readLine ((Item.sect name).line items) = .copy (Item.sect name).text :=
        readLine_sect hp
      have hline := searchLine_of_sect sect key hi hread
      rw [if_neg hclose] at hline
      by_cases hbegins : name <+: sect
      · rw [if_pos hbegins] at hline
        rw [configLines_cons_ok hline, withinLines_plain hwf' hplain' hshort, tableOf, resolve,
          firstPrefix_cons_of_begins hbegins]
        rfl
      · rw [if_neg hbegins] at hline
        rw [configLines_cons_ok hline, ih, tableOf, resolve, resolve, firstPrefix_cons_of_not hbegins]

/-- **In a plain file** `config_get` asks the table of its sections. -/
theorem configGet_resolve (c : ConfigFile) (hplain : ∀ i ∈ c.items, i.Plain) (sect key : Bytes) :
    (configGet c.file sect key).1.returned = some (resolve sect key (tableOf c.items)) := by
  rw [configGet_eq, show lines LF c.file.bytes = itemLines c.items from lines_itemsText c.wellFormed]
  exact searchLines_plain c.wellFormed hplain c.size_lt

/-! ## Writing a table -/

def sectionItems (r : Bytes × Entries) : List Item :=
  .sect r.1 :: r.2.map fun e => .entry e.1 1 1 e.2

/-- The lines of a table. -/
def itemsOf (table : Sections) : List Item := table.flatMap sectionItems

theorem itemsOf_cons (r : Bytes × Entries) (table : Sections) :
    itemsOf (r :: table) = sectionItems r ++ itemsOf table := List.flatMap_cons

/-- The entries of a section end where the next section begins. -/
theorem entriesOf_append (entries : Entries) (table : Sections) :
    entriesOf (entries.map (fun e => .entry e.1 1 1 e.2) ++ itemsOf table) = entries := by
  induction entries with
  | nil =>
    cases table with
    | nil => rfl
    | cons r table => rfl
  | cons e entries ih => exact congrArg (e :: ·) ih

theorem tableOf_entries (entries : Entries) (items : List Item) :
    tableOf (entries.map (fun e => .entry e.1 1 1 e.2) ++ items) = tableOf items := by
  induction entries with
  | nil => rfl
  | cons e entries ih => exact ih

/-- **A table that is written** is the table of the file. -/
theorem tableOf_itemsOf (table : Sections) : tableOf (itemsOf table) = table := by
  induction table with
  | nil => rfl
  | cons r table ih =>
    rw [itemsOf_cons, sectionItems, List.cons_append, tableOf, entriesOf_append, tableOf_entries, ih]

/-- Longer names in front, of the sections and in each of them. -/
def ordered (table : Sections) : Sections := longerFirst (table.map (Prod.map id longerFirst))

theorem itemsOf_ordered_perm (table : Sections) : (itemsOf (ordered table)).Perm (itemsOf table) := by
  have hsections : (itemsOf (ordered table)).Perm (itemsOf (table.map (Prod.map id longerFirst))) :=
    (longerFirst_perm _).flatMap_right _
  refine hsections.trans ?_
  unfold itemsOf
  rw [List.flatMap_map]
  refine List.Perm.flatMap_left _ fun r _ => List.Perm.cons _ ?_
  exact (longerFirst_perm r.2).map _

theorem itemsText_perm {items' : List Item} (h : items'.Perm items) :
    (itemsText items').length = (itemsText items).length :=
  ((h.map _).flatten).length_eq

/-- A table with names and values that can be written, in a file of less than 2 GiB. -/
structure Settings where
  sections : Sections
  distinct : Distinct sections
  distinct_keys : ∀ r ∈ sections, Distinct r.2
  wellFormed : ∀ i ∈ itemsOf sections, i.WellFormed ∧ NUL ∉ i.text
  size_lt : (itemsText (itemsOf sections)).length < 2 ^ 31

namespace Settings

/-- The file for the table. -/
def written (t : Settings) : ConfigFile where
  items := itemsOf (ordered t.sections)
  wellFormed := fun i hi => (t.wellFormed i ((itemsOf_ordered_perm _).mem_iff.mp hi)).1
  size_lt := by
    rw [itemsText_perm (itemsOf_ordered_perm _)]
    exact t.size_lt.trans (by decide)

/-- The value of the longest key that begins the one asked for, in the section with the longest
    such name. -/
def nearest (t : Settings) (sect key : Bytes) : Option Bytes :=
  (longestPrefix sect t.sections).bind fun r => (longestPrefix key r.2).map Prod.snd

theorem written_plain (t : Settings) : ∀ i ∈ t.written.items, i.Plain := by
  intro i hi
  refine ⟨?_, (t.wellFormed i ((itemsOf_ordered_perm _).mem_iff.mp hi)).2⟩
  have hsize := t.size_lt
  rw [← itemsText_perm (itemsOf_ordered_perm _)] at hsize
  have hpart : (i.text ++ [LF]).length ≤ (itemsText t.written.items).length :=
    (List.sublist_flatten_of_mem (List.mem_map_of_mem (f := fun i => i.text ++ [LF]) hi)).length_le
  rw [List.length_append] at hpart
  exact Nat.lt_of_le_of_lt ((Nat.le_add_right _ _).trans hpart) hsize

theorem resolve_ordered (t : Settings) (sect key : Bytes) :
    resolve sect key (ordered t.sections) = t.nearest sect key := by
  unfold resolve ordered nearest
  rw [firstPrefix_longerFirst (t.distinct.map _), longestPrefix_map _ t.distinct]
  cases h : longestPrefix sect t.sections with
  | none => rfl
  | some r =>
    have hr := ((longestPrefix_eq_some_iff t.distinct).mp h).1
    show (firstPrefix key (longerFirst r.2)).map Prod.snd = (longestPrefix key r.2).map Prod.snd
    rw [firstPrefix_longerFirst (t.distinct_keys r hr)]

theorem nearest_self (t : Settings) {sect key value : Bytes} {entries : Entries}
    (hsect : (sect, entries) ∈ t.sections) (hkey : (key, value) ∈ entries) :
    t.nearest sect key = some value := by
  have hrow : longestPrefix sect t.sections = some (sect, entries) :=
    longestPrefix_self t.distinct hsect
  have hentry : longestPrefix key entries = some (key, value) :=
    longestPrefix_self (t.distinct_keys _ hsect) hkey
  rw [nearest, hrow, Option.bind_some, hentry, Option.map_some]

end Settings

/-- **What is written with longer names in front is read back**: every setting of the table has its
    value, and any other name that of the longest name that begins it, in the section with the
    longest such name. -/
theorem settings_read_back (t : Settings) (sect key : Bytes) :
    (configGet t.written.file sect key).1.returned = some (t.nearest sect key) ∧
      ∀ entries value, (sect, entries) ∈ t.sections → (key, value) ∈ entries →
        (configGet t.written.file sect key).1.returned = some (some value) := by
  have hread : (configGet t.written.file sect key).1.returned = some (t.nearest sect key) := by
    rw [configGet_resolve t.written t.written_plain]
    show some (resolve sect key (tableOf (itemsOf (ordered t.sections)))) = _
    rw [tableOf_itemsOf, t.resolve_ordered]
  refine ⟨hread, fun entries value hsect hkey => ?_⟩
  rw [hread, t.nearest_self hsect hkey]

/-- The sections of `servFile`. -/
def servSettings : Settings where
  sections :=
    [(ascii "serv", [(ascii "port", ascii "1")]), (ascii "server", [(ascii "port", ascii "8080")])]
  distinct := by decide
  distinct_keys := by decide
  wellFormed := by decide +kernel
  size_lt := by decide +kernel

/-- Written this way, `[serv]` is not taken for `[server]`, but still for `[service]`. -/
example : (configGet servSettings.written.file (ascii "server") (ascii "port")).1.returned =
      some (some (ascii "8080")) ∧
    (configGet servSettings.written.file (ascii "service") (ascii "port")).1.returned =
      some (some (ascii "1")) := by
  decide +kernel

end Foxtails.Config
