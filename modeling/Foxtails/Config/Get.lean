/-
  `config_get` of `utils/config.c`.

  Model (read this before the theorems). `configGet` is the loop over the lines of the file.
  Its state is `found_section`; the line that set it is kept with it, which the source does
  not do. A string that is returned comes with the offsets it was made from. `Got.outside` is
  a read of a byte outside the mapped file or outside the copy of the line. The warnings and
  the line numbers in them are left out, and so is the pool the copies are made in; it is in
  `Config.Memory`.

  The copy of a line is the object `line ++ [NUL]`; the loop that passes over the white space
  in front of a value runs on the mapped file.

  * `configLine_passed`, `configLine_outside`, `configLine_search`, `configLine_entry`: what a
    line does that is passed over, cannot be copied, is not in the section, or is.
-/
import Foxtails.Config.Line

namespace Foxtails.Config

open Foxtails.Lib.Scan Foxtails.Lib.Libc Foxtails.Lib.Lines Foxtails.Lib.Object

/-- `[`. -/
abbrev OPEN : Byte := 91

/-- `]`. -/
abbrev CLOSE : Byte := 93

/-- `=`. -/
abbrev EQUALS : Byte := 61

/-- A string that is returned, and how `config_get` came to it. -/
structure Value where
  line : Line Byte
  /-- Where `strpbrk` found the end of the key. -/
  keyEnd : Nat
  /-- `value_off` and `value_len` before the loop over white space. -/
  off : Nat
  len : Nat
  /-- The rounds of that loop. -/
  skipped : Nat
  str : Bytes
  deriving DecidableEq

inductive Got where
  | null
  /-- A byte outside the file or the copied line is read. -/
  | outside
  | value (v : Value)
  deriving DecidableEq

/-- What the caller gets: NULL, or a string. -/
def Got.returned : Got → Option (Option Bytes)
  | .null => some none
  | .outside => none
  | .value v => some (some v.str)

/-- `found_section`: false, or the name in the line that set it. -/
abbrev Found := Option Bytes

/-- `strpbrk(line, " =")`. -/
def keyEnd (str : Bytes) : Option Nat := str.findIdx? fun b => b == SP || b == EQUALS

/-- The line has the key that was asked for. -/
def configValue (l : Line Byte) (str : Bytes) (e : Nat) : Got :=
  match skip isSpace ((str ++ [NUL]).drop e) with
  | none => .outside
  | some n =>
    let off := e + n + 1
    match find [NUL] ((str ++ [NUL]).drop off) with
    | none => .outside
    | some len =>
      match skip isSpace ((l.toEnd LF).drop off) with
      | none => .outside
      | some skipped =>
        match readStr ((l.toEnd LF).drop (off + skipped)) (wrapSub len skipped) with
        | none => .outside
        | some value => .value { line := l, keyEnd := e, off, len, skipped, str := value }

/-- A copied line, inside the section. -/
def entryLine (key : Bytes) (found : Found) (l : Line Byte) (str : Bytes) :
    Except (Got × Found) Found :=
  if str.head? = some OPEN then .error (.null, found)
  else
    match keyEnd str with
    | none => .error (.null, found)
    | some e => if strncmpeq str key e then .error (configValue l str e, found) else .ok found

/-- A copied line, before the section was found. -/
def searchLine (sect : Bytes) (str : Bytes) : Except (Got × Found) Found :=
  if str.head? = some OPEN then
    match find [CLOSE] str with
    | none => .error (.null, none)
    | some e =>
      if strncmpeq (str.drop 1) sect (e - 1) then .ok (some ((str.drop 1).take (e - 1)))
      else .ok none
  else .ok none

/-- The body of the loop. -/
def configLine (sect key : Bytes) (found : Found) (l : Line Byte) :
    Except (Got × Found) Found :=
  match readLine l with
  | .passed => .ok found
  | .outside => .error (.outside, found)
  | .copy str => if found.isSome then entryLine key found l str else searchLine sect str

/-- The loop over some lines, from `found_section` on. -/
def configLines (sect key : Bytes) (found : Found) (ls : List (Line Byte)) :
    Except (Got × Found) Found := ls.foldlM (configLine sect key) found

/-- `config_get`: what it returns, and what it took for the section. -/
def configGet (f : File) (sect key : Bytes) : Got × Found :=
  match configLines sect key none (lines LF f.bytes) with
  | .ok found => (.null, found)
  | .error result => result

variable {l : Line Byte} {sect key : Bytes} {found : Found}

theorem configLine_passed (h : readLine l = .passed) : configLine sect key found l = .ok found := by
  rw [configLine, h]

theorem configLine_outside (h : readLine l = .outside) :
    configLine sect key found l = .error (.outside, found) := by
  rw [configLine, h]

/-- A copied line before the section was found. -/
theorem configLine_search {str : Bytes} (h : readLine l = .copy str) :
    configLine sect key none l = searchLine sect str := by
  rw [configLine, h]
  rfl

/-- A copied line in the section. -/
theorem configLine_entry {str name : Bytes} (h : readLine l = .copy str) :
    configLine sect key (some name) l = entryLine key (some name) l str := by
  rw [configLine, h]
  rfl

/-- Outside of the section nothing is returned but NULL. -/
theorem searchLine_null {str : Bytes} {r : Got × Found} (h : searchLine sect str = .error r) :
    r = (.null, none) := by
  unfold searchLine at h
  split at h
  · split at h
    · exact (Except.error.inj h).symm
    · split at h <;> cases h
  · cases h

theorem configLines_cons_ok {found' : Found} {ls : List (Line Byte)}
    (h : configLine sect key found l = .ok found') :
    configLines sect key found (l :: ls) = configLines sect key found' ls := foldlM_cons_ok h

theorem configLines_cons_error {r : Got × Found} {ls : List (Line Byte)}
    (h : configLine sect key found l = .error r) :
    configLines sect key found (l :: ls) = .error r := foldlM_cons_error h

variable {f : File}

theorem configGet_ok (h : configLines sect key none (lines LF f.bytes) = .ok found) :
    configGet f sect key = (.null, found) := by
  rw [configGet, h]

theorem configGet_error {r : Got × Found}
    (h : configLines sect key none (lines LF f.bytes) = .error r) : configGet f sect key = r := by
  rw [configGet, h]

end Foxtails.Config
