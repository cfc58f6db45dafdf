/-
  The completion test of the receive loop while the buffer grows.

  Setting: a head that ends with its first CRLFCRLF and holds one line `Content-Length: n`
  (`Framed`), n body bytes, and any delivery of them in chunks that fit (`Delivered`).
  `body_start` is an address of the buffer the header end was found in. If a later `realloc`
  moves the buffer, the test compares addresses of two buffers.

  * `recvData_good`: while the buffer has not moved since, an iteration leaves `body_start`
    at the present end of the head.
  * `recv_exact`: if it never moves between the header end and the last body byte, every
    test sees the number of body bytes stored, and the loop ends with the whole message.
  * `stays_of_exact`: one move, and the next test is off by the distance.
  * `recv_message_iff`: both together. `recv_stops_early`: a message cut off by a move.
-/
import Foxtails.Wire.Recv

namespace Foxtails.Wire

open Foxtails.Lib.Scan Foxtails.Lib.Libc

/-! ## Messages and deliveries -/

/-- A header section that ends with its first CRLFCRLF and says `Content-Length:` once, in a
    line of its own that gives the length of `body`. -/
structure Framed (head body : Bytes) : Prop where
  ends : find CRLFCRLF head = some (head.length - 4)
  line : ∃ pre post,
    head = pre ++ CRLF ++ (contentLengthText ++ SP :: fmtNat body.length) ++ CRLF ++ post
  once : ∀ i j, contentLengthText <+: head.drop i → contentLengthText <+: head.drop j → i = j

/-- Capacity after the growth step of an iteration that ends with `len` bytes stored. -/
def grownCap (cap len : Nat) : Nat := if cap - len < 1024 then 2 * cap else cap

/-- Address after the growth step, when `realloc` would return `base'`. -/
def grownBase (base cap len base' : Nat) : Nat := if cap - len < 1024 then base' else base

/-- Until `total` bytes are stored, every `recv` brings a non-empty chunk no larger than the
    space offered, and every block lies in the address space. -/
def Delivered (total base len cap : Nat) : List RecvResult → Prop
  | .data bytes _ base' :: rest =>
    let len' := len + bytes.length
    0 < bytes.length ∧ bytes.length ≤ cap - len ∧
      (len' < total →
        grownBase base cap len' base' + grownCap cap len' ≤ SIZE ∧
          Delivered total (grownBase base cap len' base') len' (grownCap cap len') rest)
  | _ => False

/-- No growth between the arrival of the header end, at offset `headLen`, and the arrival of
    the last of `total` bytes moves the buffer. -/
def StaysPut (headLen total base len cap : Nat) : List RecvResult → Prop
  | .data bytes _ base' :: rest =>
    let len' := len + bytes.length
    len' < total →
      (headLen ≤ len' → grownBase base cap len' base' = base) ∧
        StaysPut headLen total (grownBase base cap len' base') len' (grownCap cap len') rest
  | _ => True

theorem recvGrow_cap (base : Nat) (s : RecvState) :
    (recvGrow base s).cap = grownCap s.cap s.buf.length := by
  unfold recvGrow grownCap
  split_ifs <;> rfl

theorem recvGrow_base (base : Nat) (s : RecvState) :
    (recvGrow base s).base = grownBase s.base s.cap s.buf.length base := by
  unfold recvGrow grownBase
  split_ifs <;> rfl

/-- A message that is delivered fits the address space. -/
theorem total_le_of_delivered {total base len cap : Nat} (results : List RecvResult)
    (hlen : len ≤ cap) (hblock : base + cap ≤ SIZE)
    (h : Delivered total base len cap results) : total ≤ SIZE := by
  induction results generalizing base len cap with
  | nil => exact h.elim
  | cons r rest ih =>
    cases r with
    | stop => exact h.elim
    | data bytes junk base' =>
      obtain ⟨-, hfit, hrest⟩ := h
      by_cases hlt : len + bytes.length < total
      · obtain ⟨hblock', hrest⟩ := hrest hlt
        refine ih ?_ hblock' hrest
        unfold grownCap
        split_ifs <;> omega
      · omega

theorem Framed.head_pos {head body : Bytes} (h : Framed head body) : 0 < head.length := by
  have := find_add_length_le h.ends
  have h4 : CRLFCRLF.length = 4 := rfl
  omega

/-! ## What the loop reads in the head -/

/-- The number the loop reads in a framed head is the length of the body. -/
theorem recvContentLength_framed {head body : Bytes} (h : Framed head body)
    (hsize : body.length < SIZE) (rest : Bytes) :
    recvContentLength (head ++ rest) head.length = some body.length := by
  obtain ⟨pre, post, hhead⟩ := h.line
  have hat : contentLengthText <+: head.drop (pre.length + 2) := by
    have : head = (pre ++ CRLF) ++ (contentLengthText ++
        (SP :: fmtNat body.length ++ CRLF ++ post)) := by rw [hhead]; simp
    rw [this, List.drop_left' (by simp)]
    exact List.prefix_append _ _
  -- The only occurrence is the one in that line.
  have hfind : find contentLengthText head = some (pre.length + 2) := by
    cases hf : find contentLengthText head with
    | none =>
      refine absurd hat ((find_eq_none_iff _ _).mp hf _ ?_)
      rw [hhead]
      simp
    | some i => rw [h.once i _ (find_isPrefix hf) hat]
  have hdrop : (head ++ rest).drop (pre.length + 2 + 15) =
      [SP] ++ fmtNat body.length ++ (CR :: LF :: (post ++ rest)) := by
    have : head ++ rest = (pre ++ CRLF ++ contentLengthText) ++
        ([SP] ++ fmtNat body.length ++ (CR :: LF :: (post ++ rest))) := by rw [hhead]; simp
    rw [this]
    refine List.drop_left' ?_
    have : contentLengthText.length = 15 := rfl
    simp [this]
  have hsp : ∀ b ∈ [SP], isSpace b = true := List.forall_mem_singleton.mpr rfl
  have hcr : ∀ b ∈ (CR :: LF :: (post ++ rest)).head?, isDigit b = false := by
    simp only [List.head?_cons, Option.mem_some_iff, forall_eq']
    decide
  unfold recvContentLength memmem
  rw [List.drop_zero, List.take_left, hfind]
  simp only [Option.map_some, Nat.zero_add]
  rw [hdrop, strtoul_fmtNat hsize [SP] _ hsp hcr]

/-- `bodyStart` and `contentLength` are what they should be for a buffer at `s.base`. -/
structure Good (head body : Bytes) (s : RecvState) : Prop where
  before : s.buf.length < head.length → s.bodyStart = none ∧ s.contentLength = 0
  after : head.length ≤ s.buf.length →
    s.bodyStart = some (s.base + head.length) ∧ s.contentLength = body.length

/-- Stored bytes and message, of which one continues the other. -/
def Along (msg buf : Bytes) : Prop := buf <+: msg ∨ msg <+: buf

theorem head_isPrefix_of_along {head body buf : Bytes} (h : Along (head ++ body) buf)
    (hlen : head.length ≤ buf.length) : head <+: buf := by
  rcases h with h | h
  · exact List.prefix_of_prefix_length_le (List.prefix_append _ _) h hlen
  · exact (List.prefix_append _ _).trans h

theorem isPrefix_head_of_along {head body buf : Bytes} (h : Along (head ++ body) buf)
    (hlen : buf.length < head.length) : buf <+: head := by
  rcases h with h | h
  · exact List.prefix_of_prefix_length_le h (List.prefix_append _ _) (Nat.le_of_lt hlen)
  · have := ((List.prefix_append head body).trans h).length_le
    omega

/-- One iteration keeps `Good` up to the completion test. -/
theorem recvData_good {head body bytes : Bytes} {s : RecvState} (junk : Bytes)
    (h : Framed head body) (hsize : body.length < SIZE) (hs : Good head body s)
    (halong : Along (head ++ body) (s.buf ++ bytes)) :
    Good head body (recvData true bytes junk s) := by
  have hend := find_add_length_le h.ends
  have h4 : CRLFCRLF.length = 4 := rfl
  unfold recvData
  set t : RecvState := { s with buf := s.buf ++ bytes } with ht
  have hlen : s.buf.length ≤ t.buf.length := by simp [ht]
  rcases Nat.lt_or_ge t.buf.length head.length with hlt | hge
  · -- The header end has not arrived.
    have hnone : find CRLFCRLF t.buf = none :=
      find_eq_none_of_isPrefix h.ends (isPrefix_head_of_along halong hlt) (by omega)
    rw [recvScan_of_none true junk hnone]
    exact ⟨fun _ => hs.before (by omega), fun hle => by omega⟩
  rcases Nat.lt_or_ge s.buf.length head.length with hold | hold
  · -- It is in this chunk.
    obtain ⟨hstart, hzero⟩ := hs.before hold
    obtain ⟨rest, hrest⟩ := head_isPrefix_of_along halong hge
    have hfind : find CRLFCRLF t.buf = some (head.length - 4) := by
      show find CRLFCRLF (s.buf ++ bytes) = _
      rw [← hrest]
      exact find_append_left rest h.ends
    have hread : recvContentLength (t.buf ++ junk) head.length = some body.length := by
      show recvContentLength (s.buf ++ bytes ++ junk) head.length = _
      rw [← hrest, List.append_assoc]
      exact recvContentLength_framed h hsize _
    rw [recvScan_of_find (s := t) true junk hstart hfind, Nat.sub_add_cancel (by omega)]
    refine ⟨fun hlt => by simp only at hlt; omega, fun _ => ⟨rfl, ?_⟩⟩
    simp only [if_true, hread, Option.getD_some]
  · -- It was there before.
    obtain ⟨hstart, hlength⟩ := hs.after hold
    have hsome : t.bodyStart ≠ none := by rw [ht, hstart]; simp
    rw [recvScan_of_bodyStart true junk hsome]
    exact ⟨fun hlt => by omega, fun _ => ⟨hstart, hlength⟩⟩

/-! ## The completion test -/

/-- In a good state the test sees the body bytes stored so far. -/
theorem recvTest_good {head body : Bytes} {s : RecvState} (hs : Good head body s)
    (hhead : 0 < head.length) (hlen : s.buf.length ≤ SIZE) :
    recvTest s = if head.length ≤ s.buf.length then some (s.buf.length - head.length) else none := by
  split_ifs with hle
  · rw [recvTest_eq (hs.after hle).1]
    have : ((s.base + s.buf.length : Nat) - (s.base + head.length : Nat) : Int) =
        ((s.buf.length - head.length : Nat) : Int) := by omega
    rw [this, Int.emod_eq_of_lt (by omega) (by omega), Int.toNat_natCast]
  · unfold recvTest
    rw [(hs.before (by omega)).1]
    rfl

theorem recvComplete_good {head body : Bytes} {s : RecvState} (hs : Good head body s)
    (hhead : 0 < head.length) (hlen : s.buf.length ≤ SIZE) :
    recvComplete s = true ↔ head.length + body.length ≤ s.buf.length := by
  unfold recvComplete
  rw [recvTest_good hs hhead hlen]
  split_ifs with hle
  · rw [(hs.after hle).2]
    simp only [decide_eq_true_eq]
    omega
  · simp only [false_iff]
    omega

/-- Growing in place keeps a good state. -/
theorem recvGrow_good {head body : Bytes} {s : RecvState} {base : Nat} (hs : Good head body s)
    (hstay : head.length ≤ s.buf.length → (recvGrow base s).base = s.base) :
    Good head body (recvGrow base s) := by
  refine ⟨fun hlt => ?_, fun hle => ?_⟩
  · rw [recvGrow_buf] at hlt
    simpa using hs.before hlt
  · rw [recvGrow_buf] at hle
    rw [hstay hle, recvGrow_bodyStart, recvGrow_contentLength]
    exact hs.after hle

/-- After a move the next test is off by the distance. -/
theorem base_eq_of_exact {s : RecvState} {base headLen : Nat}
    (hs : s.bodyStart = some (base + headLen)) (hbase : base < SIZE) (hbase' : s.base < SIZE)
    (hle : headLen ≤ s.buf.length)
    (hexact : ∀ v, recvTest s = some v → v = s.buf.length - headLen) : s.base = base := by
  have h := hexact _ (recvTest_eq hs)
  have hsize : SIZE = 18446744073709551616 := rfl
  rw [hsize] at h hbase hbase'
  omega

/-! ## Whole runs -/

/-- What the loop has stored is as long as `total` allows, and goes on along the message. -/
structure Underway (head body : Bytes) (s : RecvState) (results : List RecvResult) : Prop where
  good : Good head body s
  short : s.buf.length < head.length + body.length
  room : s.buf.length ≤ s.cap
  block : s.base + s.cap ≤ SIZE
  delivered : Delivered (head.length + body.length) s.base s.buf.length s.cap results
  along : head ++ body <+: s.buf ++ bytesOf results

theorem Underway.along_chunk {head body bytes junk : Bytes} {s : RecvState} {base : Nat}
    {rest : List RecvResult} (h : Underway head body s (.data bytes junk base :: rest)) :
    Along (head ++ body) (s.buf ++ bytes) := by
  have hb := h.along
  rw [bytesOf, ← List.append_assoc] at hb
  rcases Nat.le_total (s.buf ++ bytes).length (head ++ body).length with hle | hle
  · exact .inl (List.prefix_of_prefix_length_le (List.prefix_append _ _) hb hle)
  · exact .inr (List.prefix_of_prefix_length_le hb (List.prefix_append _ _) hle)

/-- The state after an iteration that neither completes the message nor moves the buffer. -/
theorem Underway.next {head body bytes junk : Bytes} {s : RecvState} {base : Nat}
    {rest : List RecvResult} (hf : Framed head body) (hsize : body.length < SIZE)
    (h : Underway head body s (.data bytes junk base :: rest))
    (hlt : s.buf.length + bytes.length < head.length + body.length)
    (hstay : head.length ≤ s.buf.length + bytes.length →
      grownBase s.base s.cap (s.buf.length + bytes.length) base = s.base) :
    Underway head body (recvGrow base (recvData true bytes junk s)) rest := by
  obtain ⟨-, hfit, hrest⟩ := h.delivered
  obtain ⟨hblock, hrest⟩ := hrest hlt
  have hroom := h.room
  refine ⟨?_, ?_, ?_, ?_, ?_, ?_⟩
  · refine recvGrow_good (recvData_good junk hf hsize h.good h.along_chunk) fun hle => ?_
    rw [recvGrow_base]
    simpa using hstay (by simpa using hle)
  · simpa using hlt
  · rw [recvGrow_cap, recvGrow_buf]
    simp only [recvData_buf, recvData_cap, List.length_append, grownCap]
    split_ifs <;> omega
  · simpa [recvGrow_base, recvGrow_cap] using hblock
  · simpa [recvGrow_base, recvGrow_cap] using hrest
  · simpa [bytesOf] using h.along

/-- The state in which the completion test is evaluated. -/
theorem Underway.tested {head body bytes junk : Bytes} {s : RecvState} {base : Nat}
    {rest : List RecvResult} (hf : Framed head body) (hsize : body.length < SIZE)
    (h : Underway head body s (.data bytes junk base :: rest)) :
    Good head body (recvData true bytes junk s) ∧
      (recvData true bytes junk s).buf.length ≤ SIZE ∧
      (recvComplete (recvData true bytes junk s) = true ↔
        head.length + body.length ≤ s.buf.length + bytes.length) := by
  have hfit := h.delivered.2.1
  have hblock := h.block
  have hroom := h.room
  have hgood := recvData_good junk hf hsize h.good h.along_chunk
  have hlen : (recvData true bytes junk s).buf.length ≤ SIZE := by
    rw [recvData_buf, List.length_append]
    omega
  refine ⟨hgood, hlen, ?_⟩
  rw [recvComplete_good hgood hf.head_pos hlen, recvData_buf, List.length_append]

/-- Every test of the run sees the number of body bytes stored. -/
def Exact (headLen : Nat) (tested : List RecvState) : Prop :=
  ∀ s ∈ tested, ∀ received, recvTest s = some received → received = s.buf.length - headLen

/-- If the buffer stays put until the message is there, the loop ends with all of it, and
    every test is exact. -/
theorem recv_exact {head body : Bytes} (hf : Framed head body) (hsize : body.length < SIZE)
    (results : List RecvResult) {s : RecvState} (h : Underway head body s results)
    (hstay : StaysPut head.length (head.length + body.length) s.base s.buf.length s.cap results) :
    head ++ body <+: (recvLoop true s results).1.buf ∧
      Exact head.length (recvTested true s results) := by
  induction results generalizing s with
  | nil => exact h.delivered.elim
  | cons r rest ih =>
    cases r with
    | stop => exact h.delivered.elim
    | data bytes junk base =>
      obtain ⟨hgood, hlen, hcomplete⟩ := h.tested hf hsize
      have hhere : ∀ received, recvTest (recvData true bytes junk s) = some received →
          received = (recvData true bytes junk s).buf.length - head.length := by
        intro received hr
        rw [recvTest_good hgood hf.head_pos hlen] at hr
        split_ifs at hr
        exact (Option.some.inj hr).symm
      rw [recvLoop, recvTested]
      by_cases hc : recvComplete (recvData true bytes junk s) = true
      · rw [if_pos hc, if_pos hc]
        refine ⟨?_, fun t ht => ?_⟩
        · rcases h.along_chunk with hpre | hpre
          · -- the chunk ends the message exactly
            have hle := hcomplete.mp hc
            have heq := hpre.eq_of_length_le (by simpa using hle)
            rw [recvData_buf, heq]
          · rw [recvData_buf]
            exact hpre
        · rw [List.mem_singleton] at ht
          exact ht ▸ hhere
      · rw [if_neg hc, if_neg hc]
        have hlt : s.buf.length + bytes.length < head.length + body.length := by
          have := mt hcomplete.mpr hc
          omega
        obtain ⟨hput, hputs⟩ := hstay hlt
        have hnext := h.next hf hsize hlt hput
        have := ih hnext (by simpa [recvGrow_base, recvGrow_cap] using hputs)
        refine ⟨this.1, fun t ht => ?_⟩
        rcases List.mem_cons.mp ht with rfl | ht
        · exact hhere
        · exact this.2 t ht

/-- If every test is exact, the buffer stayed put until the message was there. -/
theorem stays_of_exact {head body : Bytes} (hf : Framed head body) (hsize : body.length < SIZE)
    (results : List RecvResult) {s : RecvState} (h : Underway head body s results)
    (hexact : Exact head.length (recvTested true s results)) :
    StaysPut head.length (head.length + body.length) s.base s.buf.length s.cap results := by
  induction results generalizing s with
  | nil => exact h.delivered.elim
  | cons r rest ih =>
    cases r with
    | stop => exact h.delivered.elim
    | data bytes junk base =>
      intro hlt
      obtain ⟨hgood, hlen, hcomplete⟩ := h.tested hf hsize
      have hc : ¬ recvComplete (recvData true bytes junk s) = true :=
        fun hc => absurd (hcomplete.mp hc) (by omega)
      rw [recvTested] at hexact
      rw [if_neg hc] at hexact
      have hput : head.length ≤ s.buf.length + bytes.length →
          grownBase s.base s.cap (s.buf.length + bytes.length) base = s.base := by
        intro hle
        obtain ⟨hsome, hfit, hrest⟩ := h.delivered
        obtain ⟨hblock, hrest⟩ := hrest hlt
        -- The message is not complete, so another chunk comes, and its test is exact.
        cases rest with
        | nil => exact hrest.elim
        | cons r rest =>
          cases r with
          | stop => exact hrest.elim
          | data bytes' junk' base' =>
            set g := recvGrow base (recvData true bytes junk s) with hg
            have hstart : g.bodyStart = some (s.base + head.length) := by
              rw [hg, recvGrow_bodyStart, (hgood.after (by simpa using hle)).1, recvData_base]
            have hgbase : g.base =
                grownBase s.base s.cap (s.buf.length + bytes.length) base := by
              rw [hg, recvGrow_base]
              simp
            have hnext : recvData true bytes' junk' g = { g with buf := g.buf ++ bytes' } := by
              unfold recvData
              exact recvScan_of_bodyStart true junk' (by simp [hstart])
            have hex := hexact (recvData true bytes' junk' g)
              (List.mem_cons_of_mem _ (by rw [recvTested]; exact List.mem_cons_self))
            rw [hnext] at hex
            have hroom := h.room
            have hold := h.block
            have hpos := hrest.1
            have hspace := hrest.2.1
            rw [← hgbase]
            refine base_eq_of_exact (s := { g with buf := g.buf ++ bytes' }) hstart ?_ ?_ ?_ hex
            · omega
            · show g.base < SIZE
              rw [hgbase]
              omega
            · simp [hg]
              omega
      refine ⟨hput, ?_⟩
      have hnext := h.next hf hsize hlt hput
      have := ih hnext fun t ht => hexact t (List.mem_cons_of_mem _ ht)
      simpa [recvGrow_base, recvGrow_cap] using this

/-! ## The message received -/

theorem underway_start {head body : Bytes} {results : List RecvResult} {base : Nat}
    (hf : Framed head body) (hblock : base + 4096 ≤ SIZE)
    (hdel : Delivered (head.length + body.length) base 0 4096 results)
    (hbytes : head ++ body <+: bytesOf results) :
    Underway head body { base := base } results :=
  ⟨⟨fun _ => ⟨rfl, rfl⟩, fun hle => absurd hf.head_pos (by simpa using hle)⟩,
    Nat.add_pos_left hf.head_pos _, Nat.zero_le _, hblock, hdel, hbytes⟩

/-- **The message is received exactly when the buffer stays put**: for every framed message
    and every delivery of it, the returned buffer begins with the whole message and every
    test sees the number of body bytes stored, if and only if no growth between the arrival
    of the header end and the arrival of the last byte moves the buffer. -/
theorem recv_message_iff (base : Nat) (head body : Bytes) (results : List RecvResult)
    (hf : Framed head body) (hblock : base + 4096 ≤ SIZE)
    (hdel : Delivered (head.length + body.length) base 0 4096 results)
    (hbytes : head ++ body <+: bytesOf results) :
    (head ++ body <+: (httpRecvMessage base true results).1 ∧
        Exact head.length (recvTested true { base := base } results)) ↔
      StaysPut head.length (head.length + body.length) base 0 4096 results := by
  have hstart := underway_start hf hblock hdel hbytes
  have hsize : body.length < SIZE := by
    have := total_le_of_delivered results (Nat.zero_le _) hblock hdel
    have := hf.head_pos
    omega
  constructor
  · exact fun h => stays_of_exact hf hsize results hstart h.2
  · exact fun h => recv_exact hf hsize results hstart h

theorem once_of_find {head : Bytes} {p : Nat} (h : find contentLengthText head = some p)
    (hno : find contentLengthText (head.drop (p + 1)) = none) :
    ∀ i j, contentLengthText <+: head.drop i → contentLengthText <+: head.drop j → i = j := by
  have hall : ∀ i, contentLengthText <+: head.drop i → i = p := by
    intro i hi
    have hle := find_first h hi
    by_contra hne
    refine (find_eq_none_iff _ _).mp hno (i - (p + 1)) ?_ ?_
    · have := hi.length_le
      have : 0 < contentLengthText.length := by decide
      rw [List.length_drop] at *
      omega
    · rw [List.drop_drop, show p + 1 + (i - (p + 1)) = i by omega]
      exact hi
  exact fun i j hi hj => (hall i hi).trans (hall j hj).symm

/-- The head of a request with a body of 6000 bytes. -/
def longHead : Bytes := ascii "POST / HTTP/1.1\r\nContent-Length: 6000\r\n\r\n"

def longBody : Bytes := List.replicate 6000 0

theorem framed_long : Framed longHead longBody := by
  refine ⟨by decide, ⟨ascii "POST / HTTP/1.1", CRLF, ?_⟩, once_of_find (p := 17) ?_ ?_⟩
  · unfold longBody
    rw [List.length_replicate]
    decide
  · decide
  · decide

/-- The head and 3500 body bytes, one byte more, and the rest; the buffer grows after the
    first chunk, and `realloc` returns `moved`. -/
def threeChunks (moved : Nat) : List RecvResult :=
  [.data (longHead ++ List.replicate 3500 0) [] moved, .data [0] [] moved,
    .data (List.replicate 2499 0) [] moved]

theorem threeChunks_bytes (moved : Nat) : bytesOf (threeChunks moved) = longHead ++ longBody := by
  have hbody : longBody = List.replicate 3500 0 ++ ([0] ++ List.replicate 2499 0) := by
    unfold longBody
    rw [← List.replicate_one, ← List.replicate_add, ← List.replicate_add]
  rw [hbody]
  simp only [threeChunks, bytesOf, List.append_assoc, List.append_nil]

theorem threeChunks_delivered (moved : Nat) (h : moved + 16384 ≤ SIZE) :
    Delivered (longHead.length + longBody.length) 65536 0 4096 (threeChunks moved) := by
  have hhead : longHead.length = 41 := by decide
  have hsize : SIZE = 18446744073709551616 := rfl
  simp [threeChunks, Delivered, hhead, longBody, grownBase, grownCap, hsize,
    -List.reduceReplicate] at h ⊢
  omega

/-- Both sides of `recv_message_iff` when `realloc` extends the block in place. -/
theorem recv_message_iff_in_place :
    (longHead ++ longBody <+: (httpRecvMessage 65536 true (threeChunks 65536)).1 ∧
        Exact longHead.length (recvTested true { base := 65536 } (threeChunks 65536))) ↔
      StaysPut longHead.length (longHead.length + longBody.length) 65536 0 4096
        (threeChunks 65536) :=
  recv_message_iff 65536 longHead longBody (threeChunks 65536) framed_long (by decide)
    (threeChunks_delivered 65536 (by decide)) (threeChunks_bytes 65536 ▸ List.prefix_rfl)

/-- The buffer moves up by 64 KiB with 3500 of 6000 body bytes stored: the loop takes the
    next byte for the last one. -/
theorem recv_stops_early :
    Framed longHead longBody ∧
      Delivered (longHead.length + longBody.length) 65536 0 4096 (threeChunks 131072) ∧
      bytesOf (threeChunks 131072) = longHead ++ longBody ∧
      (httpRecvMessage 65536 true (threeChunks 131072)).1.length = 3542 ∧
      longHead.length + longBody.length = 6041 :=
  ⟨framed_long, threeChunks_delivered _ (by decide), threeChunks_bytes _, by decide +kernel,
    by decide +kernel⟩

end Foxtails.Wire
