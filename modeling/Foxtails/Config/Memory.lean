/-
  `config_get` in the pool.

  Model (read this before the theorems). This is the loop of `Config.Get` again, with the memory
  it works in: a line is copied behind a snapshot, every way out of the body and every way on to
  the next line restores it, and a string that is returned is made from the mapped file behind
  that. A call is killed where it reads through NULL, or from memory that is not there; it is
  aborted where an assertion of the pool fails.

  Reads that leave the file go on with the bytes behind it (`Mapping`). `strchr` leaves the copy
  of a line where white space ends it; what it comes to there is the argument `beyond`, with
  `none` for the NULL that the source tests for.

  * `configLineIn_balanced`: a line leaves the pool as deep as it was.
  * `configGetIn_balanced`: so does a call, and the string it returns is made behind its last
    restore. It is the string of `Config.Get`.
-/
import Foxtails.Config.Get
import Foxtails.Cpool.Strings

namespace Foxtails.Config

open Foxtails.Lib.Scan Foxtails.Lib.Libc Foxtails.Lib.Lines Foxtails.Lib.Object Foxtails.Lib.Malloc
  Foxtails.Cpool

/-- Why a call does not return. -/
inductive Stop where
  /-- An assertion fails. -/
  | aborted
  /-- Memory is read that is not there. -/
  | killed
  deriving DecidableEq

/-- Going on with what there is, or stopping. -/
def orStop {α : Type} (stop : Stop) : Option α → Except Stop α
  | none => .error stop
  | some a => .ok a

@[simp] theorem orStop_some {α β : Type} (stop : Stop) (a : α) (f : α → Except Stop β) :
    (orStop stop (some a) >>= f) = f a := rfl

@[simp] theorem orStop_none {α β : Type} (stop : Stop) (f : α → Except Stop β) :
    (orStop stop none >>= f) = .error stop := rfl

/-- What the body of the loop ends with. -/
inductive Next where
  /-- The next line, with `found_section`. -/
  | goOn (found : Bool)
  /-- A return, with NULL or a string. -/
  | leave (r : Option Nat)
  deriving DecidableEq

/-- `cpool_restore`, and the end of the body. -/
def restoreAnd (A : Allocator) (h : Heap) (next : Next) : Except Stop (Heap × Next) := do
  let h ← orStop .aborted (h.restore A)
  return (h, next)

/-- The return behind `value_off` and `value_len`. -/
def valueFrom (A : Allocator) (h : Heap) (l : Line Byte) (off len : Nat) :
    Except Stop (Heap × Next) := do
  let h ← orStop .aborted (h.restore A)
  let skipped ← orStop .killed (skip isSpace ((l.toEnd LF).drop off))
  let value ← orStop .killed (readStr ((l.toEnd LF).drop (off + skipped)) (wrapSub len skipped))
  let (h, r) ← orStop .aborted (h.pstrndupOrNull A value)
  return (h, .leave r)

/-- The line has the key that was asked for. -/
def valueIn (A : Allocator) (beyond : Option Nat) (h : Heap) (l : Line Byte) (str : Bytes)
    (e : Nat) : Except Stop (Heap × Next) := do
  let n ← orStop .killed (skip isSpace ((str ++ [NUL]).drop e))
  let off := e + n + 1
  match (find [NUL] ((str ++ [NUL]).drop off)).or beyond with
  | none => restoreAnd A h (.leave none)
  | some len => valueFrom A h l off len

/-- A copied line. -/
def copiedLine (A : Allocator) (beyond : Option Nat) (sect key : Bytes) (found : Bool) (h : Heap)
    (l : Line Byte) (str : Bytes) : Except Stop (Heap × Next) :=
  if found then
    if str.head? = some OPEN then restoreAnd A h (.leave none)
    else
      match keyEnd str with
      | none => restoreAnd A h (.leave none)
      | some e =>
        if strncmpeq str key e then valueIn A beyond h l str e
        else restoreAnd A h (.goOn true)
  else if str.head? = some OPEN then
    match find [CLOSE] str with
    | none => restoreAnd A h (.leave none)
    | some e => restoreAnd A h (.goOn (strncmpeq (str.drop 1) sect (e - 1)))
  else restoreAnd A h (.goOn false)

/-- The body of the loop. -/
def configLineIn (A : Allocator) (beyond : Option Nat) (sect key : Bytes) (found : Bool) (h : Heap)
    (l : Line Byte) : Except Stop (Heap × Next) :=
  match readLine l with
  | .passed => .ok (h, .goOn found)
  | .outside => .error .killed
  | .copy str => do
    let h ← orStop .aborted (h.save A)
    let (h, line) ← orStop .aborted (h.pstrndupOrNull A str)
    -- `line[0]` is read without a test
    let _ ← orStop .killed line
    copiedLine A beyond sect key found h l str

/-- The loop over some lines, from `found_section` on. -/
def configLinesIn (A : Allocator) (beyond : Option Nat) (sect key : Bytes) (found : Bool)
    (h : Heap) : List (Line Byte) → Except Stop (Heap × Option Nat)
  | [] => .ok (h, none)
  | l :: ls =>
    match configLineIn A beyond sect key found h l with
    | .error stop => .error stop
    | .ok (h, .goOn found) => configLinesIn A beyond sect key found h ls
    | .ok (h, .leave r) => .ok (h, r)

/-- `config_get`. -/
def configGetIn (A : Allocator) (beyond : Option Nat) (h : Heap) (m : Mapping)
    (sect key : Bytes) : Except Stop (Heap × Option Nat) :=
  configLinesIn A beyond sect key false h m.memoryLines

/-! ## What a call may come to -/

variable {A : Allocator} {beyond : Option Nat} {h h' : Heap} {d : Nat} {l : Line Byte}
  {str sect key : Bytes} {safe safe' : Prop}

/-- The string was made by the last call of the pool, behind `d` snapshots, and the call before
    was the restore that led there. -/
structure Made (A : Allocator) (d : Nat) (h : Heap) (addr : Nat) (str : Bytes) : Prop where
  holds : Holds d h addr str
  last : ∃ h₁ h₂ : Heap, h₁.restore A = some h₂ ∧ h₂.pstrndup A str = some (h, addr)

/-- The return of a call that was entered with the pool `h`, at depth `d`, where `Config.Get`
    says `got`. -/
structure Returned (A : Allocator) (d : Nat) (h : Heap) (got : Got) (h' : Heap)
    (r : Option Nat) : Prop where
  sound : Sound h' d
  kept : Kept d h h'
  made : ∀ addr, r = some addr → ∃ str, Made A d h' addr str ∧ ∀ v, got = .value v → v.str = str
  null : got = .null → r = none
  answered : A.Answers → ∀ v, got = .value v → r ≠ none

/-- A call returns so, unless it is killed: not where it is safe, and by an allocation that is
    refused or where `Config.Get` leaves the file or the copy. No assertion fails. -/
def Balanced (A : Allocator) (d : Nat) (h : Heap) (got : Got) (safe : Prop) :
    Except Stop (Heap × Option Nat) → Prop
  | .error stop => stop = .killed ∧ ¬ safe ∧ (A.Answers → got = .outside)
  | .ok (h', r) => Returned A d h got h' r

/-- The same of a line, where `Config.Get` goes on or leaves with `result`. -/
def LineBalanced (A : Allocator) (d : Nat) (h : Heap) (result : Except (Got × Found) Found)
    (safe : Prop) : Except Stop (Heap × Next) → Prop
  | .error stop => stop = .killed ∧ ¬ safe ∧ (A.Answers → ∃ f, result = .error (.outside, f))
  | .ok (h', .goOn found) =>
    (Sound h' d ∧ Kept d h h') ∧ ∃ f : Found, result = .ok f ∧ f.isSome = found
  | .ok (h', .leave r) => ∃ got f, result = .error (got, f) ∧ Returned A d h got h' r

theorem returned_null {got : Got} (hsound : Sound h' d) (hkept : Kept d h h')
    (hvalue : ∀ v, got ≠ .value v) : Returned A d h got h' none :=
  ⟨hsound, hkept, fun _ haddr => (by cases haddr), fun _ => rfl, fun _ v hv => absurd hv (hvalue v)⟩

/-- The end of a call that went on with the pool `h'`. -/
theorem Balanced.after {got : Got} {result : Except Stop (Heap × Option Nat)}
    (hbalanced : Balanced A d h' got safe' result) (hkept : Kept d h h') (hsafe : safe → safe') :
    Balanced A d h got safe result := by
  cases result with
  | error stop =>
    obtain ⟨hkilled, hnot, houtside⟩ := hbalanced
    exact ⟨hkilled, fun hs => hnot (hsafe hs), houtside⟩
  | ok result =>
    exact ⟨hbalanced.sound, hkept.trans hbalanced.kept, hbalanced.made, hbalanced.null,
      hbalanced.answered⟩

/-- A string that `Config.Get` returns is returned, where memory is given for it. -/
theorem Balanced.value {v : Value} {result : Except Stop (Heap × Option Nat)}
    (hbalanced : Balanced A d h (.value v) safe result) (hA : A.Answers) :
    ∃ h' addr, result = .ok (h', some addr) ∧ Sound h' d ∧ Holds d h' addr v.str := by
  cases result with
  | error stop => cases hbalanced.2.2 hA
  | ok result =>
    obtain ⟨h', r⟩ := result
    obtain ⟨addr, rfl⟩ := Option.ne_none_iff_exists'.mp (hbalanced.answered hA v rfl)
    obtain ⟨str, hmade, hstr⟩ := hbalanced.made addr rfl
    rw [← hstr v rfl] at hmade
    exact ⟨h', addr, rfl, hbalanced.sound, hmade.holds⟩

/-! ## A line -/

/-- The pool behind the copy of a line, which is entered at depth `d` with `h`. -/
structure Copied (d : Nat) (h h' : Heap) : Prop where
  sound : Sound h' (d + 1)
  kept : Kept d h h'

theorem Copied.restore (hcopied : Copied d h h') :
    ∃ h'', h'.restore A = some h'' ∧ Sound h'' d ∧ Kept d h h'' := by
  obtain ⟨h'', hrestore, hsound, hkept⟩ := hcopied.sound.restore (A := A)
  exact ⟨h'', hrestore, hsound, hcopied.kept.trans hkept⟩

theorem Copied.goOn (hcopied : Copied d h h') (f : Found) :
    LineBalanced A d h (.ok f) safe (restoreAnd A h' (.goOn f.isSome)) := by
  obtain ⟨h'', hrestore, hspec⟩ := hcopied.restore (A := A)
  rw [restoreAnd, hrestore, orStop_some]
  exact ⟨hspec, f, rfl, rfl⟩

theorem Copied.leave (hcopied : Copied d h h') {got : Got} (hvalue : ∀ v, got ≠ .value v)
    (f : Found) :
    LineBalanced A d h (.error (got, f)) safe (restoreAnd A h' (.leave none)) := by
  obtain ⟨h'', hrestore, hsound, hkept⟩ := hcopied.restore (A := A)
  rw [restoreAnd, hrestore, orStop_some]
  exact ⟨got, f, rfl, returned_null hsound hkept hvalue⟩

/-- The string is made behind the restore. -/
theorem Copied.valueFrom (hcopied : Copied d h h') (hsize : (l.toEnd LF).length < 2 ^ 63)
    {off len : Nat} (hnul : safe → NUL ∈ (l.toEnd LF).drop off) {got : Got} (hnull : got ≠ .null)
    (hskip : skip isSpace ((l.toEnd LF).drop off) = none → got = .outside)
    (hread : ∀ n, skip isSpace ((l.toEnd LF).drop off) = some n →
      readStr ((l.toEnd LF).drop (off + n)) (wrapSub len n) = none → got = .outside)
    (hvalue : ∀ n str, skip isSpace ((l.toEnd LF).drop off) = some n →
      readStr ((l.toEnd LF).drop (off + n)) (wrapSub len n) = some str →
      ∀ v, got = .value v → v.str = str) (f : Found) :
    LineBalanced A d h (.error (got, f)) safe (valueFrom A h' l off len) := by
  obtain ⟨h₁, hrestore, hsound₁, hkept₁⟩ := hcopied.restore (A := A)
  have hsafe : safe → ∃ n, skip isSpace ((l.toEnd LF).drop off) = some n ∧
      NUL ∈ (l.toEnd LF).drop (off + n) := by
    intro hs
    obtain ⟨n, hskip, hmem⟩ := skip_of_mem (hnul hs) (show isSpace NUL = false by decide)
    rw [List.drop_drop] at hmem
    exact ⟨n, hskip, hmem⟩
  unfold Config.valueFrom
  rw [hrestore, orStop_some]
  cases hn : skip isSpace ((l.toEnd LF).drop off) with
  | none =>
    refine ⟨rfl, fun hs => ?_, fun _ => ⟨f, by rw [hskip hn]⟩⟩
    obtain ⟨n, hn', -⟩ := hsafe hs
    rw [hn] at hn'
    cases hn'
  | some n =>
    rw [orStop_some]
    cases hstr : readStr ((l.toEnd LF).drop (off + n)) (wrapSub len n) with
    | none =>
      refine ⟨rfl, fun hs => ?_, fun _ => ⟨f, by rw [hread n hn hstr]⟩⟩
      obtain ⟨n', hn', hmem⟩ := hsafe hs
      obtain rfl := Option.some.inj (hn.symm.trans hn')
      rw [readStr_of_mem _ hmem] at hstr
      cases hstr
    | some str =>
      have hlen : str.length + 1 < SIZE := by
        have hle := (isPrefix_of_readStr hstr).length_le
        rw [List.length_drop] at hle
        simp only [SIZE]
        omega
      obtain ⟨h₂, r, hdup, hsound₂, hkept₂, hmade, hanswers⟩ :=
        hsound₁.pstrndupOrNull (A := A) hlen
      rw [orStop_some, hdup, orStop_some]
      refine ⟨got, f, rfl, hsound₂, hkept₁.trans (hkept₂ d), fun addr haddr => ?_,
        fun h => absurd h hnull, fun hA _ _ => hanswers hA⟩
      obtain ⟨hlast, hholds⟩ := hmade addr haddr
      exact ⟨str, ⟨hholds, h', h₁, hrestore, hlast⟩, hvalue n str hn hstr⟩

/-- Behind the copy of a line and the byte that ends it there is a NUL to come. -/
theorem nul_mem_drop (hpart : str <+: l.toEnd LF) (hnul : NUL ∉ str) (hpadded : Padded l.rest)
    {off : Nat} (hoff : off ≤ str.length + 1) : NUL ∈ (l.toEnd LF).drop off := by
  obtain ⟨t, ht⟩ := hpart
  have hcount : 2 ≤ t.count NUL := by
    have hall : (l.toEnd LF).count NUL = str.count NUL + t.count NUL := by
      rw [← ht, List.count_append]
    rw [List.count_eq_zero_of_not_mem hnul, Line.toEnd, List.count_append, List.count_cons] at hall
    unfold Padded at hpadded
    omega
  have hmem : NUL ∈ t.drop 1 := by
    cases t with
    | nil => cases hcount
    | cons b t =>
      rw [List.count_cons] at hcount
      refine List.count_pos_iff.mp ?_
      show 0 < t.count NUL
      split_ifs at hcount <;> omega
  have hsub : (l.toEnd LF).drop (str.length + 1) = t.drop 1 := by
    rw [← ht, ← List.drop_drop, List.drop_left]
  rw [← hsub] at hmem
  exact List.drop_subset_drop_left _ hoff hmem

theorem Copied.value (hcopied : Copied d h h') (hsize : (l.toEnd LF).length < 2 ^ 63)
    (hpart : str <+: l.toEnd LF) (hnul : NUL ∉ str) {e : Nat} (he : e ≤ str.length) (f : Found) :
    LineBalanced A d h (.error (configValue l str e, f)) (A.Answers ∧ Padded l.rest)
      (valueIn A beyond h' l str e) := by
  obtain ⟨n, hspace, hmem⟩ : ∃ n, skip isSpace ((str ++ [NUL]).drop e) = some n ∧
      NUL ∈ ((str ++ [NUL]).drop e).drop n := by
    refine skip_of_mem ?_ (by decide)
    rw [List.drop_append_of_le_length he]
    exact List.mem_append_right _ (List.mem_singleton_self _)
  have hoff : e + n + 1 ≤ str.length + 1 := by
    have hlt := skip_lt hspace
    rw [List.length_drop, List.length_append, List.length_singleton] at hlt
    omega
  have hread : A.Answers ∧ Padded l.rest → NUL ∈ (l.toEnd LF).drop (e + n + 1) :=
    fun hsafe => nul_mem_drop hpart hnul hsafe.2 hoff
  unfold valueIn configValue
  rw [hspace, orStop_some]
  dsimp only
  cases hfind : find [NUL] ((str ++ [NUL]).drop (e + n + 1)) with
  | none =>
    cases beyond with
    | none => exact hcopied.leave (fun _ => Got.noConfusion) f
    | some len =>
      show LineBalanced A d h (.error (.outside, f)) _ _
      exact hcopied.valueFrom hsize hread (by decide) (fun _ => rfl) (fun _ _ _ => rfl)
        (fun _ _ _ _ v hgot => by cases hgot) f
  | some len =>
    dsimp only [Option.or]
    refine hcopied.valueFrom hsize hread ?_ ?_ ?_ ?_ f
    · split
      · exact Got.noConfusion
      · split
        · exact Got.noConfusion
        · exact Got.noConfusion
    · intro hskip
      rw [hskip]
    · intro n hskip hstr
      rw [hskip]
      dsimp only
      rw [hstr]
    · intro n str hskip hstr v hgot
      rw [hskip] at hgot
      dsimp only at hgot
      rw [hstr] at hgot
      rw [← Got.value.inj hgot]

theorem Copied.line (hcopied : Copied d h h') (hsize : (l.toEnd LF).length < 2 ^ 63)
    (found : Found) (hread : readLine l = .copy str) :
    LineBalanced A d h (configLine sect key found l) (A.Answers ∧ Padded l.rest)
      (copiedLine A beyond sect key found.isSome h' l str) := by
  unfold copiedLine
  cases found with
  | some name =>
    rw [configLine_entry hread, Option.isSome_some, if_pos rfl, entryLine]
    split_ifs
    · exact hcopied.leave (fun _ => Got.noConfusion) _
    · cases hkey : keyEnd str with
      | none => exact hcopied.leave (fun _ => Got.noConfusion) _
      | some e =>
        dsimp only
        split_ifs
        · have he := (List.findIdx?_eq_some_iff_getElem.mp hkey).1
          exact hcopied.value hsize (isPrefix_toEnd_of_readLine hread) (not_mem_of_readLine hread)
            he.le _
        · exact hcopied.goOn (some name)
  | none =>
    rw [configLine_search hread, Option.isSome_none, if_neg Bool.false_ne_true, searchLine]
    split_ifs
    · cases hclose : find [CLOSE] str with
      | none => exact hcopied.leave (fun _ => Got.noConfusion) _
      | some e =>
        dsimp only
        split_ifs with hname
        · rw [hname]
          exact hcopied.goOn (some _)
        · rw [Bool.not_eq_true] at hname
          rw [hname]
          exact hcopied.goOn none
    · exact hcopied.goOn none

/-- **A line** leaves the pool as deep as it was, on every way out of the body. -/
theorem configLineIn_balanced (hsound : Sound h d) (hd : d < maxSaveDepth)
    (hsize : (l.toEnd LF).length < 2 ^ 63) (found : Found) :
    LineBalanced A d h (configLine sect key found l) (A.Answers ∧ Padded l.rest)
      (configLineIn A beyond sect key found.isSome h l) := by
  unfold configLineIn
  cases hread : readLine l with
  | passed =>
    rw [configLine_passed hread]
    exact ⟨⟨hsound, fun a ha _ => ⟨ha, rfl⟩⟩, found, rfl, rfl⟩
  | outside =>
    refine ⟨rfl, fun hsafe => readLine_ne_outside ?_ hread,
      fun _ => ⟨found, configLine_outside hread⟩⟩
    exact nul_mem_drop (List.nil_prefix) List.not_mem_nil hsafe.2 (Nat.zero_le _)
  | copy str =>
    have hlen : str.length + 1 < SIZE := by
      have hle := (isPrefix_toEnd_of_readLine hread).length_le
      simp only [SIZE]
      omega
    obtain ⟨h₁, hsave, hsound₁, hkept₁⟩ := hsound.save (A := A) hd
    obtain ⟨h₂, line, hdup, hsound₂, hkept₂, -, hanswers⟩ :=
      hsound₁.pstrndupOrNull (A := A) hlen
    dsimp only
    rw [hsave, orStop_some, hdup, orStop_some]
    cases line with
    | none => exact ⟨rfl, fun hsafe => hanswers hsafe.1 rfl, fun hA => absurd rfl (hanswers hA)⟩
    | some addr => exact Copied.line ⟨hsound₂, (hkept₁ d).trans (hkept₂ d)⟩ hsize found hread

/-! ## A call -/

/-- What `Config.Get` returns where the loop ends so. -/
def gotOf : Except (Got × Found) Found → Got
  | .ok _ => .null
  | .error r => r.1

theorem configLinesIn_balanced (hsound : Sound h d) (hd : d < maxSaveDepth) (found : Found)
    {ls : List (Line Byte)} (hsize : ∀ l ∈ ls, (l.toEnd LF).length < 2 ^ 63) :
    Balanced A d h (gotOf (configLines sect key found ls))
      (A.Answers ∧ ∀ l ∈ ls, Padded l.rest)
      (configLinesIn A beyond sect key found.isSome h ls) := by
  induction ls generalizing h found with
  | nil => exact returned_null hsound (fun a ha _ => ⟨ha, rfl⟩) fun _ => Got.noConfusion
  | cons l ls ih =>
    have hline : LineBalanced A d h (configLine sect key found l) (A.Answers ∧ Padded l.rest)
        (configLineIn A beyond sect key found.isSome h l) :=
      configLineIn_balanced hsound hd (hsize l List.mem_cons_self) found
    have hrest : ∀ l ∈ ls, (l.toEnd LF).length < 2 ^ 63 :=
      fun l hl => hsize l (List.mem_cons_of_mem _ hl)
    rw [configLinesIn]
    cases hbody : configLineIn A beyond sect key found.isSome h l with
    | error stop =>
      rw [hbody] at hline
      obtain ⟨hkilled, hnot, houtside⟩ := hline
      refine ⟨hkilled, fun hsafe => hnot (hsafe.imp_right fun hall => hall l List.mem_cons_self),
        fun hA => ?_⟩
      obtain ⟨f, hresult⟩ := houtside hA
      rw [configLines_cons_error hresult]
      rfl
    | ok result =>
      rw [hbody] at hline
      obtain ⟨h₁, next⟩ := result
      cases next with
      | goOn =>
        obtain ⟨⟨hsound₁, hkept₁⟩, found', hresult, rfl⟩ := hline
        rw [configLines_cons_ok hresult]
        exact (ih hsound₁ found' hrest).after hkept₁ fun hsafe => hsafe.imp_right fun hall l hl =>
          hall l (List.mem_cons_of_mem _ hl)
      | leave r =>
        obtain ⟨got, found', hresult, hreturned⟩ := hline
        rw [configLines_cons_error hresult]
        exact hreturned

/-- **A call of `config_get`** returns with the pool as deep as it was, and no assertion fails. -/
theorem configGetIn_balanced (hsound : Sound h d) (hd : d < maxSaveDepth) (m : Mapping) :
    Balanced A d h (gotOf (configLines sect key none m.memoryLines))
      (A.Answers ∧ Padded m.behind) (configGetIn A beyond h m sect key) :=
  (configLinesIn_balanced hsound hd none fun _ hl => length_lt_of_mem_memoryLines hl).after
    (fun _ ha _ => ⟨ha, rfl⟩) fun hsafe => hsafe.imp_right fun hpadded _ hl =>
      padded_of_mem_memoryLines hpadded hl

/-- Without bytes to read behind the file, it is the string of `Config.Get`. -/
theorem configGetIn_refines (hsound : Sound h d) (hd : d < maxSaveDepth) {m : Mapping}
    (hbehind : m.behind = []) :
    Balanced A d h (configGet m.file sect key).1 (A.Answers ∧ Padded m.behind)
      (configGetIn A beyond h m sect key) := by
  have hbalanced : Balanced A d h (gotOf (configLines sect key none m.memoryLines))
      (A.Answers ∧ Padded m.behind) (configGetIn A beyond h m sect key) :=
    configGetIn_balanced hsound hd m
  rw [memoryLines_nil hbehind] at hbalanced
  cases hlines : configLines sect key none (lines LF m.file.bytes) with
  | ok found =>
    rw [hlines] at hbalanced
    rw [configGet_ok hlines]
    exact hbalanced
  | error result =>
    rw [hlines] at hbalanced
    rw [configGet_error hlines]
    exact hbalanced

end Foxtails.Config
