/-
  `__clog` in several threads at once.

  Model (read this before the theorems). Every thread has its own `target`, but `__clog_errno` is
  one variable: a thread sets it to 0 where it begins a line, reads it at the beginning of every
  call, and sets it to 1 behind a call that has cut its text. `look` and `print` are the two parts of
  a call; any steps of other threads come between them. `__clog_timebuf` is one buffer too, and
  another thread may write a timestamp there after this one has been measured, so `print` is told
  what was measured. A thread that writes a byte outside of its `target` is stopped and marked.

  * `loggerInv_enter`, `loggerInv_look`, `loggerInv_print`: what a step makes of the line of its
    thread.
  * `clog_inside`: in every run no thread writes outside of its `target`, and a line that is done is
    made of some of its texts, in order, with the message behind them or without it; or nothing was
    printed, and `target` is as it was.
  * `line_skipped`: another thread's long message can make a line vanish; then the callback is given
    what was on the stack.
-/
import Foxtails.Lib.Run
import Foxtails.Log.Clog

namespace Foxtails.Log

open Foxtails.Lib Foxtails.Lib.Scan Foxtails.Lib.Libc Foxtails.Lib.Run

/-- A thread: the call of `__clog` it is in or was in last, and the calls it still makes there.
    `entry` is what `target` was where the line began, `errno` what the next call has read. -/
structure Logger where
  call : Option LogCall := none
  pieces : List Piece := []
  target : Target := ⟨[], 0⟩
  entry : Target := ⟨[], 0⟩
  errno : Option Bool := none
  outside : Bool := false

/-- `__clog_errno`, and the threads. -/
structure State where
  errno : Bool := false
  loggers : Nat → Logger := fun _ => {}

inductive Action where
  | enter (i : Nat) (c : LogCall) (fresh : Nat → Byte)
  | look (i : Nat)
  | print (i : Nat) (measured : Nat)

def State.put (s : State) (i : Nat) (l : Logger) : State :=
  { s with loggers := Function.update s.loggers i l }

@[simp] theorem put_same (s : State) (i : Nat) (l : Logger) : (s.put i l).loggers i = l :=
  Function.update_self ..

theorem put_other (s : State) {i j : Nat} (l : Logger) (h : j ≠ i) :
    (s.put i l).loggers j = s.loggers j := Function.update_of_ne h ..

/-- A thread at the beginning of a line; `fresh` is what is on its stack. -/
def Logger.enter (l : Logger) (c : LogCall) (fresh : Nat → Byte) : Logger :=
  { call := some c, pieces := c.pieces c.fmt, target := freshTarget fresh,
    entry := freshTarget fresh, outside := l.outside }

/-- The beginning of a call. -/
def Logger.look (l : Logger) (errno : Bool) : Logger := { l with errno := some errno }

/-- The rest of a call, behind the look at `__clog_errno`: the thread, and whether it sets it. -/
def Logger.print (l : Logger) (p : Piece) (rest : List Piece) (measured : Nat) (seen : Bool) :
    Logger × Bool :=
  if seen then ({ l with pieces := rest, errno := none }, false)
  else
    match printPiece l.target p measured with
    | none => ({ l with pieces := [], errno := none, outside := true }, false)
    | some (target, cut) => ({ l with pieces := rest, errno := none, target := target }, cut)

def step (s : State) : Action → Option State
  | .enter i c fresh =>
    if (s.loggers i).pieces = [] then
      some (({ s with errno := false } : State).put i ((s.loggers i).enter c fresh))
    else none
  | .look i =>
    if (s.loggers i).pieces ≠ [] ∧ (s.loggers i).errno = none then
      some (s.put i ((s.loggers i).look s.errno))
    else none
  | .print i measured =>
    match (s.loggers i).pieces, (s.loggers i).errno with
    | p :: rest, some seen =>
      let r := (s.loggers i).print p rest measured seen
      some (({ s with errno := s.errno || r.2 } : State).put i r.1)
    | _, _ => none

/-- The size of `__clog_timebuf`. -/
def clogTimeLimit : Nat := 50

/-- A sane line in front of whose message a second timestamp has room. -/
structure SaneLine (c : LogCall) (front : List Piece) : Prop extends Sane c front where
  again : (textOf front).length + clogTimeLimit ≤ 1018

/-- What is measured is the text that is printed, but for a timestamp. -/
def Measured (p : Piece) (measured : Nat) : Prop :=
  measured = p.bytes.length ∨ (∃ t, p = .stamp t) ∧ measured < clogTimeLimit

/-- A line is begun with a format like those of the program. -/
def SaneAction (s : State) : Action → Prop
  | .enter _ c _ => ∃ front, SaneLine c front
  | .look _ => True
  | .print i measured => ∀ p ∈ (s.loggers i).pieces.head?, Measured p measured

/-! ## A thread -/

/-- Some of the texts in front of the message are in `target`, in order; with no text the buffer is
    as it was. -/
structure Partial (l : Logger) (past kept : List Piece) : Prop where
  sublist : kept.Sublist past
  holds : Holds l.target (textOf kept)
  ended : kept ≠ [] → textOf kept ++ [NUL] <+: l.target.bytes
  fresh : kept = [] → l.target = l.entry

/-- What a line that is done leaves in `target`: the string that the callback reads is made of some
    of the texts and the message, or of some of the texts alone; or nothing was printed, and
    `target` is as it was. -/
inductive Printed (c : LogCall) (front : List Piece) (l : Logger) : Prop where
  | message (kept : List Piece) (hkept : kept.Sublist front) (hend : NUL ∈ l.target.bytes)
      (hline : upto NUL l.target.bytes = shown (textOf kept ++ c.message))
  | texts (kept : List Piece) (hkept : kept.Sublist front) (hne : kept ≠ [])
      (hend : NUL ∈ l.target.bytes) (hline : upto NUL l.target.bytes = textOf kept)
  | nothing (htarget : l.target = l.entry)

/-- What holds of a thread in a line of which `front` are the texts in front of the message. -/
inductive Along (c : LogCall) (front : List Piece) (l : Logger) : Prop where
  | front (past todo kept : List Piece) (hfront : front = past ++ todo)
      (hpieces : l.pieces = todo ++ [.message c.message]) (hkept : Partial l past kept)
  | done (hpieces : l.pieces = []) (hprinted : Printed c front l)

structure LoggerInv (l : Logger) : Prop where
  inside : l.outside = false
  idle : l.call = none → l.pieces = []
  along : ∀ c, l.call = some c → ∃ front, SaneLine c front ∧ Along c front l

theorem textOf_sublist {kept front : List Piece} (h : kept.Sublist front) :
    (textOf kept).length ≤ (textOf front).length ∧ (NUL ∉ textOf front → NUL ∉ textOf kept) := by
  have hsub : (textOf kept).Sublist (textOf front) := (h.map Piece.bytes).flatten
  exact ⟨hsub.length_le, fun hnul hmem => hnul (hsub.subset hmem)⟩

theorem logger_print {l : Logger} {p : Piece} {measured : Nat} {target : Target} {cut : Bool}
    (h : printPiece l.target p measured = some (target, cut)) (rest : List Piece) :
    l.print p rest measured false =
      ({ l with pieces := rest, errno := none, target := target }, cut) := by
  unfold Logger.print
  rw [if_neg Bool.false_ne_true, h]

theorem logger_skip (l : Logger) (p : Piece) (rest : List Piece) (measured : Nat) :
    l.print p rest measured true = ({ l with pieces := rest, errno := none }, false) := rfl

/-- A text in front of the message, printed or not. -/
theorem along_text {c : LogCall} {past todo kept : List Piece} {p : Piece} {l : Logger}
    (hsane : SaneLine c (past ++ p :: todo)) (h : Partial l past kept) (rest : List Piece)
    {measured : Nat} (hmeasured : Measured p measured) (seen : Bool) :
    ∃ kept', Partial (l.print p rest measured seen).1 (past ++ [p]) kept' ∧
      (l.print p rest measured seen).1.pieces = rest ∧
      (l.print p rest measured seen).1.outside = l.outside := by
  cases seen with
  | true =>
    rw [logger_skip]
    exact ⟨kept, ⟨h.sublist.trans (List.sublist_append_left _ _), h.holds, h.ended, h.fresh⟩, rfl,
      rfl⟩
  | false =>
    have hsub : (kept ++ [p]).Sublist (past ++ p :: todo) := by
      refine h.sublist.append ?_
      exact List.singleton_sublist.mpr List.mem_cons_self
    obtain ⟨hlength, hnul⟩ := textOf_sublist hsub
    have htext : textOf (kept ++ [p]) = textOf kept ++ p.bytes := by
      rw [textOf_append, textOf_cons]
      exact congrArg _ (List.append_nil _)
    have hlimit : clogBufLimit = 1024 := rfl
    have hroom := hsane.again
    rw [htext] at hlength hnul
    rw [List.length_append] at hlength
    have hnulText := hnul hsane.nul
    rw [List.mem_append, not_or] at hnulText
    have hknown : p ≠ .percent := by
      rintro rfl
      exact hsane.known (List.mem_append_right _ List.mem_cons_self)
    have hfits : (textOf kept).length + measured + 1 < clogBufLimit := by
      obtain rfl | ⟨-, hstamp⟩ := hmeasured
      · omega
      · omega
    obtain ⟨t', hprint, hholds, hprefix⟩ :=
      print_fits h.holds hknown hnulText.2 (by omega) hfits
    rw [logger_print hprint]
    rw [← htext] at hholds hprefix
    refine ⟨kept ++ [p], ⟨h.sublist.append (List.Sublist.refl _), hholds, fun _ => hprefix,
      fun hnil => ?_⟩, rfl, rfl⟩
    exact absurd hnil (List.append_ne_nil_of_right_ne_nil _ (List.cons_ne_nil _ _))

/-- The message, printed or not. -/
theorem along_message {c : LogCall} {front kept : List Piece} {l : Logger} (hsane : Sane c front)
    (h : Partial l front kept) {measured : Nat} (hmeasured : Measured (.message c.message) measured)
    (seen : Bool) :
    Printed c front (l.print (.message c.message) [] measured seen).1 ∧
      (l.print (.message c.message) [] measured seen).1.pieces = [] ∧
      (l.print (.message c.message) [] measured seen).1.outside = l.outside := by
  have hlength : measured = c.message.length := by
    obtain heq | ⟨⟨t, ht⟩, -⟩ := hmeasured
    · exact heq
    · cases ht
  cases seen with
  | true =>
    rw [logger_skip]
    refine ⟨?_, rfl, rfl⟩
    by_cases hne : kept = []
    · exact .nothing (h.fresh hne)
    · obtain ⟨hupto, hmem⟩ := upto_of_prefix h.holds.nul (h.ended hne)
      exact .texts kept h.sublist hne hmem hupto
  | false =>
    have hshort := (textOf_sublist h.sublist).1.trans hsane.room
    obtain ⟨t', cut, hprint, hprefix, hnul⟩ :=
      print_message h.holds hshort hsane.message hsane.short
    rw [hlength, logger_print hprint]
    obtain ⟨hupto, hmem⟩ := upto_of_prefix hnul hprefix
    exact ⟨.message kept h.sublist hmem hupto, rfl, rfl⟩

theorem print_call (l : Logger) (p : Piece) (rest : List Piece) (measured : Nat) (seen : Bool) :
    (l.print p rest measured seen).1.call = l.call := by
  unfold Logger.print
  cases seen with
  | true => rfl
  | false =>
    rw [if_neg Bool.false_ne_true]
    cases printPiece l.target p measured <;> rfl

/-- **One call of a thread**, whatever it has read. -/
theorem loggerInv_print {l : Logger} (h : LoggerInv l) {p : Piece} {rest : List Piece}
    (hpieces : l.pieces = p :: rest) {measured : Nat} (hmeasured : Measured p measured)
    (seen : Bool) : LoggerInv (l.print p rest measured seen).1 := by
  obtain ⟨c, hcall⟩ : ∃ c, l.call = some c := by
    rw [← Option.ne_none_iff_exists']
    intro hnone
    rw [h.idle hnone] at hpieces
    cases hpieces
  obtain ⟨front, hsane, halong⟩ := h.along c hcall
  have hcall' := (print_call l p rest measured seen).trans hcall
  suffices (l.print p rest measured seen).1.outside = l.outside ∧
      Along c front (l.print p rest measured seen).1 by
    refine ⟨this.1.trans h.inside, fun hnone => ?_, fun c' hc' => ?_⟩
    · rw [hcall'] at hnone
      cases hnone
    · rw [hcall'] at hc'
      obtain rfl := Option.some.inj hc'
      exact ⟨front, hsane, this.2⟩
  cases halong with
  | done hnil hprinted =>
    rw [hnil] at hpieces
    cases hpieces
  | front past todo kept hfront htodo hkept =>
    rw [hpieces] at htodo
    cases todo with
    | nil =>
      obtain ⟨rfl, rfl⟩ := List.cons.inj htodo
      rw [List.append_nil] at hfront
      rw [← hfront] at hkept
      obtain ⟨hprinted, hnil, hout⟩ := along_message hsane.toSane hkept hmeasured seen
      exact ⟨hout, .done hnil hprinted⟩
    | cons q todo =>
      obtain ⟨rfl, rfl⟩ := List.cons.inj htodo
      rw [hfront] at hsane
      obtain ⟨kept', hkept', hleft, hout⟩ := along_text hsane hkept _ hmeasured seen
      refine ⟨hout, .front (past ++ [p]) todo kept' ?_ hleft hkept'⟩
      rw [hfront, List.append_assoc]
      rfl

/-- A thread that begins a line. -/
theorem loggerInv_enter {l : Logger} (h : LoggerInv l) {c : LogCall} {front : List Piece}
    (hsane : SaneLine c front) (fresh : Nat → Byte) :
    LoggerInv (l.enter c fresh) where
  inside := h.inside
  idle := fun hnone => by cases hnone
  along := by
    intro c' hc'
    obtain rfl := Option.some.inj hc'
    refine ⟨front, hsane, .front [] front [] rfl hsane.split ?_⟩
    exact ⟨List.Sublist.refl _, holds_fresh fresh, fun hne => absurd rfl hne, fun _ => rfl⟩

/-- A look at `__clog_errno`. -/
theorem loggerInv_look {l : Logger} (h : LoggerInv l) (errno : Bool) :
    LoggerInv (l.look errno) where
  inside := h.inside
  idle := h.idle
  along := by
    intro c hc
    obtain ⟨front, hsane, halong⟩ := h.along c hc
    refine ⟨front, hsane, ?_⟩
    cases halong with
    | done hnil hprinted =>
      refine .done hnil ?_
      cases hprinted with
      | message kept hkept hend hline => exact .message kept hkept hend hline
      | texts kept hkept hne hend hline => exact .texts kept hkept hne hend hline
      | nothing htarget => exact .nothing htarget
    | front past todo kept hfront hpieces hkept =>
      exact .front past todo kept hfront hpieces
        ⟨hkept.sublist, hkept.holds, hkept.ended, hkept.fresh⟩

/-! ## All threads -/

def LogInv (s : State) : Prop := ∀ i, LoggerInv (s.loggers i)

theorem LogInv.put {s : State} (h : LogInv s) (i : Nat) {l : Logger} (hl : LoggerInv l) :
    LogInv (s.put i l) := by
  intro j
  by_cases hj : j = i
  · rw [hj, put_same]
    exact hl
  · rw [put_other s l hj]
    exact h j

theorem logInv_step {s s' : State} {a : Action} (h : LogInv s) (hok : SaneAction s a)
    (hstep : step s a = some s') : LogInv s' := by
  cases a with
  | enter i c fresh =>
    obtain ⟨front, hsane⟩ := hok
    dsimp only [step] at hstep
    split_ifs at hstep
    obtain rfl := Option.some.inj hstep
    exact LogInv.put (s := { s with errno := false }) h i (loggerInv_enter (h i) hsane fresh)
  | look i =>
    dsimp only [step] at hstep
    split_ifs at hstep
    obtain rfl := Option.some.inj hstep
    exact h.put i (loggerInv_look (h i) s.errno)
  | print i measured =>
    dsimp only [step] at hstep
    cases hpieces : (s.loggers i).pieces with
    | nil =>
      rw [hpieces] at hstep
      cases hstep
    | cons p rest =>
      cases hseen : (s.loggers i).errno with
      | none =>
        rw [hpieces, hseen] at hstep
        cases hstep
      | some seen =>
        have hmeasured : Measured p measured := hok p (by rw [hpieces]; rfl)
        rw [hpieces, hseen] at hstep
        obtain rfl := Option.some.inj hstep
        exact LogInv.put (s := { s with errno := _ }) h i (loggerInv_print (h i) hpieces hmeasured seen)

theorem logInv_start : LogInv {} := by
  intro i
  exact ⟨rfl, fun _ => rfl, fun c hc => by cases hc⟩

/-- **No thread writes outside of its buffer**, in any run of any number of threads that log with
    the program's formats, and a line that is done is what is shown of some of its texts, in order,
    and the message, or some of its texts alone, or nothing at all: then the buffer is as it was. -/
theorem clog_inside {s : State} (h : Reach step SaneAction {} s) (i : Nat) :
    (s.loggers i).outside = false ∧
      ∀ c, (s.loggers i).call = some c → (s.loggers i).pieces = [] →
        ∃ front, SaneLine c front ∧ Printed c front (s.loggers i) := by
  have hinv := h.invariant LogInv logInv_start fun _ _ _ hs hok hstep => logInv_step hs hok hstep
  refine ⟨(hinv i).inside, fun c hc hnil => ?_⟩
  obtain ⟨front, hsane, halong⟩ := (hinv i).along c hc
  refine ⟨front, hsane, ?_⟩
  cases halong with
  | done _ hprinted => exact hprinted
  | front past todo kept _ hpieces _ =>
    rw [hnil] at hpieces
    exact absurd hpieces.symm (List.append_ne_nil_of_right_ne_nil _ (List.cons_ne_nil _ _))

/-! ## A line that vanishes -/

variable {s : State} {i : Nat}

/-- The next state, with the thread that has made the step and the others. -/
structure Next (s s' : State) (i : Nat) (errno : Bool) (l : Logger) : Prop where
  reach : Reach step SaneAction {} s'
  errno : s'.errno = errno
  same : s'.loggers i = l
  other : ∀ j, j ≠ i → s'.loggers j = s.loggers j

theorem exists_enter (h : Reach step SaneAction {} s) (hidle : (s.loggers i).pieces = [])
    {c : LogCall} {front : List Piece} (hsane : SaneLine c front) (fresh : Nat → Byte) :
    ∃ s', Next s s' i false ((s.loggers i).enter c fresh) := by
  have hok : SaneAction s (.enter i c fresh) := ⟨front, hsane⟩
  have hstep : step s (.enter i c fresh) =
      some (({ s with errno := false } : State).put i ((s.loggers i).enter c fresh)) := if_pos hidle
  refine ⟨_, .next h hok hstep, rfl, ?_, ?_⟩
  · exact put_same _ _ _
  · exact fun j hj => put_other _ _ hj

theorem exists_look (h : Reach step SaneAction {} s)
    (hbusy : (s.loggers i).pieces ≠ [] ∧ (s.loggers i).errno = none) :
    ∃ s', Next s s' i s.errno ((s.loggers i).look s.errno) := by
  have hok : SaneAction s (.look i) := trivial
  have hstep : step s (.look i) = some (s.put i ((s.loggers i).look s.errno)) := if_pos hbusy
  refine ⟨_, .next h hok hstep, rfl, ?_, ?_⟩
  · exact put_same _ _ _
  · exact fun j hj => put_other _ _ hj

theorem exists_print (h : Reach step SaneAction {} s) {p : Piece} {rest : List Piece} {seen : Bool}
    (hpieces : (s.loggers i).pieces = p :: rest) (hseen : (s.loggers i).errno = some seen) :
    ∃ s', Next s s' i (s.errno || ((s.loggers i).print p rest p.bytes.length seen).2)
      ((s.loggers i).print p rest p.bytes.length seen).1 := by
  have hok : SaneAction s (.print i p.bytes.length) := by
    intro q hq
    rw [hpieces] at hq
    obtain rfl := Option.some.inj hq
    exact .inl rfl
  have hstep : step s (.print i p.bytes.length) = some (({ s with errno :=
      s.errno || ((s.loggers i).print p rest p.bytes.length seen).2 } : State).put i
        ((s.loggers i).print p rest p.bytes.length seen).1) := by
    dsimp only [step]
    rw [hpieces, hseen]
  refine ⟨_, .next h hok hstep, rfl, ?_, ?_⟩
  · exact put_same _ _ _
  · exact fun j hj => put_other _ _ hj

/-- A line that is nothing but its message. -/
def bareCall (message : Bytes) : LogCall where
  fmt := ascii "%m"
  color := []
  name := []
  file := []
  line := 0
  func := []
  timestamp := []
  terminal := false
  message := message

theorem bareCall_sane {message : Bytes} (hnul : NUL ∉ message) (hshort : message.length < INT_MAX) :
    SaneLine (bareCall message) [] where
  split := rfl
  room := Nat.zero_le _
  known := List.not_mem_nil
  nul := List.not_mem_nil
  message := hnul
  short := hshort
  again := by decide

/-- A thread that is done with a line which began with `fresh` on the stack. -/
structure Done (l : Logger) (message : Bytes) (fresh : Nat → Byte) : Prop where
  call : l.call = some (bareCall message)
  pieces : l.pieces = []
  entry : l.entry = freshTarget fresh

/-- **A line can vanish.** A thread has read the flag for a message that does not fit; another one
    begins a line, and then the first sets the flag: both lines are done, the first is printed, and
    the buffer of the other is as it was. -/
theorem line_skipped {m : Bytes} (hnul : NUL ∉ m) (hsize : m.length < INT_MAX)
    (hlong : clogBufLimit ≤ m.length + 1) (fresh : Nat → Byte) :
    ∃ s, Reach step SaneAction {} s ∧ Done (s.loggers 0) (ascii "ready") fresh ∧
      (s.loggers 0).target = freshTarget fresh ∧ Done (s.loggers 1) m fresh ∧
      NUL ∈ (s.loggers 1).target.bytes := by
  have hshort : SaneLine (bareCall (ascii "ready")) [] := bareCall_sane (by decide) (by decide)
  have hother : (0 : Nat) ≠ 1 := by decide
  obtain ⟨s₁, h₁⟩ := exists_enter (i := 1) .start rfl (bareCall_sane hnul hsize) fresh
  have hbusy : (s₁.loggers 1).pieces ≠ [] ∧ (s₁.loggers 1).errno = none := by
    rw [h₁.same]
    exact ⟨List.cons_ne_nil _ _, rfl⟩
  obtain ⟨s₂, h₂⟩ := exists_look h₁.reach hbusy
  rw [h₁.same, h₁.errno] at h₂
  have hidle : (s₂.loggers 0).pieces = [] := by
    rw [h₂.other 0 hother, h₁.other 0 hother]
  obtain ⟨s₃, h₃⟩ := exists_enter h₂.reach hidle hshort fresh
  have hlong₃ := (h₃.other 1 hother.symm).trans h₂.same
  have hpieces : (s₃.loggers 1).pieces = [.message m] := by
    rw [hlong₃]
    rfl
  have hseen : (s₃.loggers 1).errno = some false := by
    rw [hlong₃]
    rfl
  have htarget : (s₃.loggers 1).target = freshTarget fresh := by
    rw [hlong₃]
    rfl
  obtain ⟨s₄, h₄⟩ := exists_print h₃.reach hpieces hseen
  -- The message is cut, and the flag is set while the other line has only begun.
  have hfront : clogBufLimit ≤ ([] : Bytes).length + m.length + 1 := by
    rwa [List.length_nil, Nat.zero_add]
  obtain ⟨t, hprint, hprefix, hshown⟩ :=
    print_cut (holds_fresh fresh) hnul (Nat.zero_le _) hsize hfront
  rw [← htarget] at hprint
  have hmeasured : (Piece.message m).bytes.length = m.length := rfl
  have hset : s₄.errno = true := by
    rw [h₄.errno, hmeasured, logger_print hprint, Bool.or_true]
  have hcut := h₄.same
  rw [hmeasured, logger_print hprint, hlong₃] at hcut
  have hready := (h₄.other 0 hother).trans h₃.same
  have hbusy' : (s₄.loggers 0).pieces ≠ [] ∧ (s₄.loggers 0).errno = none := by
    rw [hready]
    exact ⟨List.cons_ne_nil _ _, rfl⟩
  obtain ⟨s₅, h₅⟩ := exists_look h₄.reach hbusy'
  rw [hready, hset] at h₅
  have hmessage : (s₅.loggers 0).pieces = [.message (ascii "ready")] := by
    rw [h₅.same]
    rfl
  have hflag : (s₅.loggers 0).errno = some true := by
    rw [h₅.same]
    rfl
  obtain ⟨s₆, h₆⟩ := exists_print h₅.reach hmessage hflag
  have hskip := h₆.same
  rw [logger_skip, h₅.same] at hskip
  have hlong₆ := (h₆.other 1 hother.symm).trans ((h₅.other 1 hother.symm).trans hcut)
  refine ⟨s₆, h₆.reach, ⟨?_, ?_, ?_⟩, ?_, ⟨?_, ?_, ?_⟩, ?_⟩
  · rw [hskip]
    rfl
  · rw [hskip]
  · rw [hskip]
    rfl
  · rw [hskip]
    rfl
  · rw [hlong₆]
    rfl
  · rw [hlong₆]
  · rw [hlong₆]
    rfl
  · rw [hlong₆]
    exact And.right <| upto_of_prefix hshown hprefix

theorem not_mem_freshTarget {fresh : Nat → Byte} (h : ∀ n, fresh n ≠ NUL) :
    NUL ∉ (freshTarget fresh).bytes := by
  unfold freshTarget
  rw [List.mem_map]
  rintro ⟨n, -, hn⟩
  exact h n hn

/-- The texts in front of a bare message. -/
theorem front_bareCall {message : Bytes} {front : List Piece}
    (h : SaneLine (bareCall message) front) : front = [] := by
  have hsplit : [Piece.message message] = front ++ [.message message] := h.split
  exact (List.append_cancel_right (List.nil_append _ ▸ hsplit)).symm

/-- `clog_inside` for both lines of `line_skipped`, with no end in what is on the stack: the first
    is cut, and the callback of the other is given a buffer in which no string ends. -/
theorem clog_inside_skipped :
    ∃ s : State, Reach step SaneAction {} s ∧ (∀ i, (s.loggers i).outside = false) ∧
      upto NUL (s.loggers 1).target.bytes = shown (List.replicate 2000 97) ∧
      (s.loggers 0).pieces = [] ∧ (s.loggers 0).target = freshTarget (fun _ => 97) ∧
      NUL ∉ (s.loggers 0).target.bytes := by
  have hnul : NUL ∉ List.replicate 2000 (97 : Byte) := by
    intro hmem
    exact absurd (List.eq_of_mem_replicate hmem) (by decide)
  have hstack : NUL ∉ (freshTarget fun _ => 97).bytes := not_mem_freshTarget fun _ => by decide
  obtain ⟨s, hreach, hdone₀, htarget, hdone₁, hend⟩ := line_skipped hnul
    (by rw [List.length_replicate]; decide) (by rw [List.length_replicate]; decide) fun _ => 97
  refine ⟨s, hreach, fun i => (clog_inside hreach i).1, ?_, hdone₀.pieces, ?_, htarget ▸ hstack⟩
  · obtain ⟨front, hsane, hprinted⟩ := (clog_inside hreach 1).2 _ hdone₁.call hdone₁.pieces
    obtain rfl := front_bareCall hsane
    cases hprinted with
    | message kept hkept hmem hline =>
      rw [hline, List.sublist_nil.mp hkept]
      rfl
    | texts kept hkept hne => exact absurd (List.sublist_nil.mp hkept) hne
    | nothing hsame =>
      rw [hsame, hdone₁.entry] at hend
      exact absurd hend hstack
  · obtain ⟨front, hsane, hprinted⟩ := (clog_inside hreach 0).2 _ hdone₀.call hdone₀.pieces
    cases hprinted with
    | message kept hkept hmem => exact absurd (htarget ▸ hmem) hstack
    | texts kept hkept hne hmem => exact absurd (htarget ▸ hmem) hstack
    | nothing hsame => rw [hsame, hdone₀.entry]

end Foxtails.Log
