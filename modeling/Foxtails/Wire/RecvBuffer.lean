/-
  The buffer of `http_recv_message`.

  Model (read this before the theorems). The buffer is a block of `cap` bytes, of which `len` are
  stored; `cap` and `len` are `size_t`. `recv` stores a chunk behind the stored bytes, and a chunk
  that does not fit would be cut off at the end of the block. `malloc` and `realloc` succeed; a
  block that grows keeps its bytes, and the others are any (`fresh`).

  * `Stores`, `Room`: what is stored, and that at least 1024 bytes of the block are free.
  * `stores_data`, `room_grow`: a chunk that fits takes the room, and the growth gives it back.
  * `recv_room`: so there is room at every call of `recv`, for every sequence of chunks that fit, and
    what is stored are the chunks one behind the other.
  * `recvLoopIn_refines`: what is stored is what the loop of `Wire.Recv` stores.
-/
import Foxtails.Wire.Recv
import Foxtails.Lib.Object

namespace Foxtails.Wire

open Foxtails.Lib.Scan Foxtails.Lib.Libc
open Foxtails.Lib.Object (wrapSub wrapSub_of_le)

/-! ## The loop -/

/-- What one `recv` brings; `base` and `fresh` are what `realloc` returns if the block grows. -/
inductive RecvEvent where
  | data (bytes : Bytes) (base : Nat) (fresh : Nat → Byte)
  | stop

/-- The local variables of `http_recv_message`, with the block `buf` points to. -/
structure RecvBuffer where
  base : Nat
  block : Bytes
  cap : Nat
  len : Nat
  bodyStart : Option Nat
  contentLength : Nat

/-- `malloc(4096)`. -/
def recvStart (base : Nat) (fresh : Nat → Byte) : RecvBuffer :=
  { base, block := (List.range 4096).map fresh, cap := 4096, len := 0, bodyStart := none,
    contentLength := 0 }

/-- `recv(fd, buf + len, cap - len, 0)` with these bytes, and `len += n`. -/
def recvInto (bytes : Bytes) (m : RecvBuffer) : RecvBuffer :=
  { m with block := store m.block m.len bytes, len := (m.len + bytes.length) % SIZE }

/-- The search for the end of the header section. -/
def recvScanIn (expectBody : Bool) (m : RecvBuffer) : RecvBuffer :=
  match m.bodyStart, memmem m.block 0 m.len CRLFCRLF with
  | none, some i =>
    { m with
      bodyStart := some (m.base + (i + 4))
      contentLength :=
        if expectBody then (recvContentLength m.block (i + 4)).getD m.contentLength
        else m.contentLength }
  | _, _ => m

/-- The condition of the `break`. -/
def recvCompleteIn (m : RecvBuffer) : Bool :=
  match m.bodyStart with
  | none => false
  | some bodyStart =>
    m.contentLength ≤ (((m.base + m.len : Nat) - bodyStart : Int) % (SIZE : Int)).toNat

/-- The block after `realloc(buf, size)`. -/
def reallocTo (size : Nat) (block : Bytes) (fresh : Nat → Byte) : Bytes :=
  block.take size ++ (List.range (size - block.length)).map fresh

/-- `if (cap - len < 1024) buf = realloc(buf, cap *= 2)`. -/
def recvGrowIn (base : Nat) (fresh : Nat → Byte) (m : RecvBuffer) : RecvBuffer :=
  if wrapSub m.cap m.len < 1024 then
    { m with base := base, cap := 2 * m.cap % SIZE
             block := reallocTo (2 * m.cap % SIZE) m.block fresh }
  else m

/-- An iteration up to the completion test. -/
def recvDataIn (expectBody : Bool) (bytes : Bytes) (m : RecvBuffer) : RecvBuffer :=
  recvScanIn expectBody (recvInto bytes m)

/-- The state the loop ends in. -/
def recvLoopIn (expectBody : Bool) (m : RecvBuffer) : List RecvEvent → RecvBuffer
  | [] => m
  | .stop :: _ => m
  | .data bytes base fresh :: rest =>
    let m := recvDataIn expectBody bytes m
    if recvCompleteIn m then m else recvLoopIn expectBody (recvGrowIn base fresh m) rest

/-- The states in which the loop calls `recv`. -/
def recvCalls (expectBody : Bool) (m : RecvBuffer) : List RecvEvent → List RecvBuffer
  | .data bytes base fresh :: rest =>
    let m' := recvDataIn expectBody bytes m
    m :: if recvCompleteIn m' then [] else recvCalls expectBody (recvGrowIn base fresh m') rest
  | _ => [m]

/-- Every chunk is at most the space offered, and `cap` does not overflow where the block grows. -/
def Offered (expectBody : Bool) (m : RecvBuffer) : List RecvEvent → Prop
  | .data bytes base fresh :: rest =>
    let m' := recvDataIn expectBody bytes m
    bytes.length ≤ wrapSub m.cap m.len ∧
      (recvCompleteIn m' = false → (wrapSub m'.cap m'.len < 1024 → 2 * m'.cap < SIZE) ∧
        Offered expectBody (recvGrowIn base fresh m') rest)
  | _ => True

/-- The bytes that some calls brought. -/
def chunks : List RecvEvent → Bytes
  | [] => []
  | .data bytes _ _ :: rest => bytes ++ chunks rest
  | .stop :: rest => chunks rest

/-! ## The room -/

/-- These bytes are stored, in a block of `cap` bytes. -/
structure Stores (received : Bytes) (m : RecvBuffer) : Prop where
  block : m.block.length = m.cap
  large : 4096 ≤ m.cap
  size : m.cap < SIZE
  len : m.len ≤ m.cap
  stored : m.block.take m.len = received

/-- There are at least 1024 bytes free behind them. -/
structure Room (received : Bytes) (m : RecvBuffer) : Prop extends Stores received m where
  free : 1024 ≤ wrapSub m.cap m.len

variable {m : RecvBuffer} {received : Bytes} {events : List RecvEvent} {expectBody : Bool}

theorem room_start (base : Nat) (fresh : Nat → Byte) : Room [] (recvStart base fresh) := by
  have hcap : (recvStart base fresh).cap = 4096 := rfl
  have hlen : (recvStart base fresh).len = 0 := rfl
  refine ⟨⟨?_, hcap.ge, by rw [hcap]; decide, Nat.zero_le _, rfl⟩, by rw [hcap, hlen]; decide⟩
  rw [recvStart, List.length_map, List.length_range]

/-- The search does not touch the block. -/
theorem recvScanIn_block (expectBody : Bool) (m : RecvBuffer) :
    (recvScanIn expectBody m).block = m.block ∧ (recvScanIn expectBody m).len = m.len ∧
      (recvScanIn expectBody m).cap = m.cap := by
  unfold recvScanIn
  split
  · exact ⟨rfl, rfl, rfl⟩
  · exact ⟨rfl, rfl, rfl⟩

theorem Stores.scan (h : Stores received m) (expectBody : Bool) :
    Stores received (recvScanIn expectBody m) := by
  obtain ⟨hblock, hlen, hcap⟩ := recvScanIn_block expectBody m
  refine ⟨?_, hcap ▸ h.large, hcap ▸ h.size, ?_, ?_⟩
  · rw [hblock, hcap, h.block]
  · rw [hlen, hcap]
    exact h.len
  · rw [hblock, hlen, h.stored]

/-- A chunk that is at most the space offered goes behind the stored bytes. -/
theorem stores_into (h : Stores received m) {bytes : Bytes}
    (hfit : bytes.length ≤ wrapSub m.cap m.len) :
    Stores (received ++ bytes) (recvInto bytes m) := by
  have hle := h.len
  have hlt := h.size
  rw [wrapSub_of_le hle hlt] at hfit
  have hlen : (m.len + bytes.length) % SIZE = m.len + bytes.length :=
    Nat.mod_eq_of_lt (by omega)
  refine ⟨?_, h.large, h.size, ?_, ?_⟩
  · exact (store_length m.block m.len bytes).trans h.block
  · show (m.len + bytes.length) % SIZE ≤ m.cap
    rw [hlen]
    omega
  · show (store m.block m.len bytes).take ((m.len + bytes.length) % SIZE) = received ++ bytes
    have htake := take_store m.block m.len bytes [] (by rw [List.append_nil, h.block]; omega)
    rw [List.append_nil] at htake
    rw [hlen, htake, h.stored]

theorem stores_data (h : Stores received m) {bytes : Bytes} (expectBody : Bool)
    (hfit : bytes.length ≤ wrapSub m.cap m.len) :
    Stores (received ++ bytes) (recvDataIn expectBody bytes m) :=
  (stores_into h hfit).scan expectBody

/-- The growth: a block with less than 1024 bytes free becomes twice as large. -/
theorem room_grow (h : Stores received m) (base : Nat) (fresh : Nat → Byte)
    (hcap : wrapSub m.cap m.len < 1024 → 2 * m.cap < SIZE) :
    Room received (recvGrowIn base fresh m) := by
  have hlarge := h.large
  have hle := h.len
  unfold recvGrowIn
  by_cases hgrow : wrapSub m.cap m.len < 1024
  · have hlt := hcap hgrow
    have hsize : 2 * m.cap % SIZE = 2 * m.cap := Nat.mod_eq_of_lt hlt
    have hlen : m.len ≤ 2 * m.cap := by omega
    rw [if_pos hgrow, hsize]
    refine ⟨⟨?_, ?_, hlt, hlen, ?_⟩, ?_⟩
    · show (reallocTo (2 * m.cap) m.block fresh).length = 2 * m.cap
      rw [reallocTo, List.length_append, List.length_map, List.length_range, List.length_take,
        h.block]
      omega
    · show 4096 ≤ 2 * m.cap
      omega
    · show (reallocTo (2 * m.cap) m.block fresh).take m.len = received
      have hall : m.block.take (2 * m.cap) = m.block :=
        List.take_of_length_le (by rw [h.block]; omega)
      rw [reallocTo, hall, List.take_append_of_le_length (by rw [h.block]; exact hle), h.stored]
    · -- twice `cap`, less `len`, is at least `cap`
      show 1024 ≤ wrapSub (2 * m.cap) m.len
      rw [wrapSub_of_le hlen hlt]
      omega
  · rw [if_neg hgrow]
    exact ⟨h, not_lt.mp hgrow⟩

/-- With a last call of `recv` that brings nothing. -/
theorem room_last (h : Room received m) :
    (∀ k c, [m][k]? = some c → Room (received ++ chunks (events.take k)) c) ∧
      (chunks (events.take 1) = [] → Stores (received ++ chunks (events.take [m].length)) m) := by
  constructor
  · intro k c hk
    cases k with
    | zero =>
      obtain rfl := Option.some.inj hk
      rw [List.take_zero, chunks, List.append_nil]
      exact h
    | succ k => cases hk
  · intro hnil
    rw [List.length_singleton, hnil, List.append_nil]
    exact h.toStores

/-- The room at every call, and the block when the loop is left. -/
theorem room_loop (h : Room received m) (hoffered : Offered expectBody m events) :
    (∀ k c, (recvCalls expectBody m events)[k]? = some c →
      Room (received ++ chunks (events.take k)) c) ∧
    Stores (received ++ chunks (events.take (recvCalls expectBody m events).length))
      (recvLoopIn expectBody m events) := by
  induction events generalizing m received with
  | nil => exact ⟨(room_last h).1, (room_last h).2 rfl⟩
  | cons event rest ih =>
    cases event with
    | stop => exact ⟨(room_last h).1, (room_last h).2 rfl⟩
    | data bytes base fresh =>
      obtain ⟨hfit, hrest⟩ := hoffered
      have hdata := stores_data h.toStores expectBody hfit
      have hlater : ∀ k, received ++ chunks ((RecvEvent.data bytes base fresh :: rest).take (k + 1)) =
          received ++ bytes ++ chunks (rest.take k) := by
        intro k
        rw [List.take_succ_cons, chunks, List.append_assoc]
      have hnow : Room (received ++ chunks ((RecvEvent.data bytes base fresh :: rest).take 0)) m := by
        rw [List.take_zero, chunks, List.append_nil]
        exact h
      rw [recvCalls, recvLoopIn]
      by_cases hc : recvCompleteIn (recvDataIn expectBody bytes m) = true
      · rw [if_pos hc, if_pos hc]
        constructor
        · intro k c hk
          cases k with
          | zero =>
            obtain rfl := Option.some.inj hk
            exact hnow
          | succ k => cases hk
        · rw [List.length_singleton, hlater, List.take_zero, chunks, List.append_nil]
          exact hdata
      · rw [if_neg hc, if_neg hc]
        obtain ⟨hcap, hoffered⟩ := hrest (Bool.eq_false_iff.mpr hc)
        obtain ⟨hcalls, hend⟩ := ih (room_grow hdata base fresh hcap) hoffered
        constructor
        · intro k c hk
          cases k with
          | zero =>
            obtain rfl := Option.some.inj hk
            exact hnow
          | succ k =>
            rw [hlater]
            exact hcalls k c hk
        · rw [List.length_cons, hlater]
          exact hend

/-- **There is room at every call of `recv`**: for every sequence of chunks that are at most the
    space offered, `len` is at most `cap`, at least 1024 bytes of the block of `cap` bytes are
    offered, and the stored bytes are all the chunks that came before, one behind the other; and so
    are those that are returned. -/
theorem recv_room (expectBody : Bool) (base : Nat) (fresh : Nat → Byte) (events : List RecvEvent)
    (hoffered : Offered expectBody (recvStart base fresh) events) :
    (∀ k m, (recvCalls expectBody (recvStart base fresh) events)[k]? = some m →
      m.len ≤ m.cap ∧ 1024 ≤ wrapSub m.cap m.len ∧ m.block.length = m.cap ∧
        m.block.take m.len = chunks (events.take k)) ∧
    (recvLoopIn expectBody (recvStart base fresh) events).block.take
        (recvLoopIn expectBody (recvStart base fresh) events).len =
      chunks (events.take (recvCalls expectBody (recvStart base fresh) events).length) := by
  obtain ⟨hcalls, hend⟩ := room_loop (room_start base fresh) hoffered
  constructor
  · intro k m hk
    have hroom := hcalls k m hk
    exact ⟨hroom.len, hroom.free, hroom.block, hroom.stored⟩
  · exact hend.stored

/-- One chunk that fills the first block. -/
def fullChunk : List RecvEvent := [.data (List.replicate 4096 65) 131072 fun _ => 0, .stop]

theorem fullChunk_offered : Offered true (recvStart 65536 fun _ => 0) fullChunk := by
  have hcap : (recvDataIn true (List.replicate 4096 65) (recvStart 65536 fun _ => 0)).cap = 4096 :=
    (recvScanIn_block true _).2.2
  refine ⟨?_, fun _ => ⟨fun _ => ?_, trivial⟩⟩
  · rw [List.length_replicate]
    exact (by decide : 4096 ≤ wrapSub 4096 0)
  · rw [hcap]
    decide

/-- `recv_room` on it: the second call has 4096 bytes of a block of 8192. -/
theorem recv_room_full :
    (∀ k m, (recvCalls true (recvStart 65536 fun _ => 0) fullChunk)[k]? = some m →
      m.len ≤ m.cap ∧ 1024 ≤ wrapSub m.cap m.len ∧ m.block.length = m.cap ∧
        m.block.take m.len = chunks (fullChunk.take k)) ∧
    (recvLoopIn true (recvStart 65536 fun _ => 0) fullChunk).block.take
        (recvLoopIn true (recvStart 65536 fun _ => 0) fullChunk).len =
      chunks (fullChunk.take (recvCalls true (recvStart 65536 fun _ => 0) fullChunk).length) :=
  recv_room true 65536 (fun _ => 0) fullChunk fullChunk_offered

/-! ## The loop on the stored bytes -/

/-- The state of the loop of `Wire.Recv`. -/
def RecvBuffer.view (m : RecvBuffer) : RecvState :=
  { base := m.base, cap := m.cap, buf := m.block.take m.len, bodyStart := m.bodyStart,
    contentLength := m.contentLength }

/-- What the calls bring, with what lies behind the stored bytes. -/
def resultsOf (expectBody : Bool) (m : RecvBuffer) : List RecvEvent → List RecvResult
  | .data bytes base fresh :: rest =>
    let m' := recvDataIn expectBody bytes m
    .data bytes (m'.block.drop m'.len) base ::
      if recvCompleteIn m' then [] else resultsOf expectBody (recvGrowIn base fresh m') rest
  | _ => []

theorem Stores.view_length (h : Stores received m) : m.view.buf.length = m.len :=
  List.length_take_of_le (h.len.trans h.block.ge)

theorem Stores.view_scan (h : Stores received m) (expectBody : Bool) :
    (recvScanIn expectBody m).view = recvScan expectBody (m.block.drop m.len) m.view := by
  have hfind : memmem m.view.buf 0 m.view.buf.length CRLFCRLF =
      memmem m.block 0 m.len CRLFCRLF := by
    rw [h.view_length, memmem, memmem, List.drop_zero, List.drop_zero, RecvBuffer.view,
      List.take_take, Nat.min_self]
  have hmem : m.view.buf ++ m.block.drop m.len = m.block := List.take_append_drop m.len m.block
  have hstart : m.view.bodyStart = m.bodyStart := rfl
  unfold recvScanIn recvScan
  rw [hfind, hmem, hstart]
  cases hbody : m.bodyStart with
  | some b => rfl
  | none =>
    cases hscan : memmem m.block 0 m.len CRLFCRLF with
    | none => rfl
    | some i => rfl

theorem Stores.view_data (h : Stores received m) {bytes : Bytes} (expectBody : Bool)
    (hfit : bytes.length ≤ wrapSub m.cap m.len) :
    (recvDataIn expectBody bytes m).view =
      recvData expectBody bytes ((recvDataIn expectBody bytes m).block.drop
        (recvDataIn expectBody bytes m).len) m.view := by
  have hinto := stores_into h hfit
  have hview : (recvInto bytes m).view = { m.view with buf := m.view.buf ++ bytes } := by
    have hbuf : (recvInto bytes m).view.buf = m.view.buf ++ bytes :=
      hinto.stored.trans (congrArg (· ++ bytes) h.stored.symm)
    rw [← hbuf]
    rfl
  obtain ⟨hblock, hlen, -⟩ := recvScanIn_block expectBody (recvInto bytes m)
  unfold recvData recvDataIn
  rw [hinto.view_scan expectBody, hview, hblock, hlen]

theorem Stores.view_complete (h : Stores received m) :
    recvComplete m.view = recvCompleteIn m := by
  have hstart : m.view.bodyStart = m.bodyStart := rfl
  unfold recvComplete recvTest recvCompleteIn
  rw [h.view_length, hstart]
  cases m.bodyStart <;> rfl

theorem Stores.view_grow (h : Stores received m) (base : Nat) (fresh : Nat → Byte)
    (hcap : wrapSub m.cap m.len < 1024 → 2 * m.cap < SIZE) :
    (recvGrowIn base fresh m).view = recvGrow base m.view := by
  have hstored := (room_grow h base fresh hcap).stored
  have hfree : m.view.cap - m.view.buf.length = wrapSub m.cap m.len := by
    rw [h.view_length, wrapSub_of_le h.len h.size]
    rfl
  unfold recvGrowIn recvGrow at *
  rw [hfree]
  by_cases hgrow : wrapSub m.cap m.len < 1024
  · rw [if_pos hgrow] at hstored
    rw [if_pos hgrow, if_pos hgrow]
    have hbuf : (reallocTo (2 * m.cap % SIZE) m.block fresh).take m.len = m.block.take m.len :=
      hstored.trans h.stored.symm
    have hsize : 2 * m.cap % SIZE = 2 * m.cap := Nat.mod_eq_of_lt (hcap hgrow)
    unfold RecvBuffer.view
    dsimp only
    rw [hbuf, hsize]
  · rw [if_neg hgrow, if_neg hgrow]

/-- **The loop on the block is the loop on the stored bytes.** -/
theorem recvLoopIn_refines (h : Stores received m) (hoffered : Offered expectBody m events) :
    (recvLoop expectBody m.view (resultsOf expectBody m events)).1 =
      (recvLoopIn expectBody m events).view := by
  induction events generalizing m received with
  | nil => rfl
  | cons event rest ih =>
    cases event with
    | stop => rfl
    | data bytes base fresh =>
      obtain ⟨hfit, hrest⟩ := hoffered
      have hdata := stores_data h expectBody hfit
      rw [resultsOf, recvLoop, recvLoopIn, ← h.view_data expectBody hfit, hdata.view_complete]
      by_cases hc : recvCompleteIn (recvDataIn expectBody bytes m) = true
      · rw [if_pos hc, if_pos hc, if_pos hc]
      · rw [if_neg hc, if_neg hc, if_neg hc]
        obtain ⟨hcap, hoffered⟩ := hrest (Bool.eq_false_iff.mpr hc)
        rw [← hdata.view_grow base fresh hcap]
        exact ih (room_grow hdata base fresh hcap).toStores hoffered

/-- What is returned is what `http_recv_message` returns there. -/
theorem recvMessage_bytes (expectBody : Bool) (base : Nat) (fresh : Nat → Byte)
    (events : List RecvEvent) (hoffered : Offered expectBody (recvStart base fresh) events) :
    (httpRecvMessage base expectBody (resultsOf expectBody (recvStart base fresh) events)).1 =
      (recvLoopIn expectBody (recvStart base fresh) events).block.take
        (recvLoopIn expectBody (recvStart base fresh) events).len := by
  have hrefines := recvLoopIn_refines (room_start base fresh).toStores hoffered
  have hview : (recvStart base fresh).view = { base := base } := rfl
  rw [hview] at hrefines
  exact congrArg RecvState.buf hrefines

end Foxtails.Wire
