/-
  When a message is there, in terms of the chunks that have arrived.

  The head ends with the first CRLFCRLF of the bytes that arrived. The number after the first
  `Content-Length:` of the head is what has to follow it, and what has followed is counted in
  addresses: from the end of the head in the block it came in, to the end of the stored bytes
  in the block they are in now. `Complete` says so without the loop; the blocks come from the
  sizes of the chunks (`grownCap`) and from what `realloc` returns (`grownBase`).

  * `follows_next`: the loop's variables are what the chunks say, after every iteration.
  * `recvComplete_iff`: so the completion test after a chunk is `Complete` of the chunks.
  * `complete_of_address`: while the block has not moved, that is a count of bytes.
-/
import Foxtails.Wire.ContentLength
import Foxtails.Wire.Growth
import Mathlib.Data.List.Infix

namespace Foxtails.Wire

open Foxtails.Lib.Scan Foxtails.Lib.Libc

/-! ## Blocks -/

/-- The block that holds the bytes: its address, its capacity, how many are stored. -/
structure Block where
  base : Nat
  cap : Nat
  len : Nat
  deriving DecidableEq, Repr

/-- A chunk is stored, and the block grows when less than 1024 bytes are free. -/
def Block.store (b : Block) : RecvResult → Block
  | .data bytes _ base' =>
    { base := grownBase b.base b.cap (b.len + bytes.length) base'
      cap := grownCap b.cap (b.len + bytes.length)
      len := b.len + bytes.length }
  | .stop => b

/-- The block behind these chunks; `base` is what `malloc` returned. -/
def blockAfter (base : Nat) (chunks : List RecvResult) : Block :=
  chunks.foldl Block.store { base := base, cap := 4096, len := 0 }

/-- The address of the block while the last of these chunks is in it and not yet followed by a
    growth. -/
def address (base : Nat) (chunks : List RecvResult) : Nat := (blockAfter base chunks.dropLast).base

theorem blockAfter_concat (base : Nat) (chunks : List RecvResult) (c : RecvResult) :
    blockAfter base (chunks ++ [c]) = (blockAfter base chunks).store c := by
  unfold blockAfter
  rw [List.foldl_append]
  rfl

theorem address_concat (base : Nat) (chunks : List RecvResult) (c : RecvResult) :
    address base (chunks ++ [c]) = (blockAfter base chunks).base := by
  unfold address
  rw [List.dropLast_concat]

/-! ## What the chunks say -/

/-- The memory behind the last of these chunks. -/
def junkOf (chunks : List RecvResult) : Bytes :=
  match chunks.getLast? with
  | some (.data _ junk _) => junk
  | _ => []

/-- The first of these chunks, up to the one with which the head is there. -/
def headChunks (chunks : List RecvResult) : Option (List RecvResult) :=
  chunks.inits.find? fun arrived => (find CRLFCRLF (bytesOf arrived)).isSome

/-- Where the head ends in the bytes of `arrived`. -/
def headEnd (arrived : List RecvResult) : Nat :=
  (find CRLFCRLF (bytesOf arrived)).elim 0 (· + 4)

/-- The number after the first `Content-Length:` of the head that is there with `arrived`, 0
    without one. -/
def announced (arrived : List RecvResult) : Nat :=
  number (mention (bytesOf arrived) (junkOf arrived))

/-- From the end of the head, in the block it was found in, to the end of the bytes of
    `chunks` in their block. -/
def behindHead (base : Nat) (arrived chunks : List RecvResult) : Nat :=
  (((address base chunks + (bytesOf chunks).length : Nat) -
    (address base arrived + headEnd arrived : Nat) : Int) % (SIZE : Int)).toNat

/-- With `chunks`, the head is there and what it announces. -/
def Complete (base : Nat) (chunks : List RecvResult) : Prop :=
  ∃ arrived ∈ headChunks chunks, announced arrived ≤ behindHead base arrived chunks

instance (base : Nat) (chunks : List RecvResult) : Decidable (Complete base chunks) :=
  inferInstanceAs (Decidable (∃ arrived ∈ headChunks chunks, _))

theorem headChunks_concat (chunks : List RecvResult) (c : RecvResult) :
    headChunks (chunks ++ [c]) = (headChunks chunks).or
      (if (find CRLFCRLF (bytesOf (chunks ++ [c]))).isSome then some (chunks ++ [c]) else none) := by
  unfold headChunks
  rw [List.inits_append, List.find?_append]
  congr 1
  simp only [List.inits, List.tail_cons, List.map_cons, List.map_nil, List.find?_singleton]

theorem headEnd_le {chunks arrived : List RecvResult} (h : headChunks chunks = some arrived) :
    headEnd arrived ≤ (bytesOf chunks).length := by
  unfold headChunks at h
  obtain ⟨more, rfl⟩ := (List.mem_inits _ _).mp (List.mem_of_find?_eq_some h)
  have hfound : (find CRLFCRLF (bytesOf arrived)).isSome = true := by simpa using List.find?_some h
  obtain ⟨i, hi⟩ := Option.isSome_iff_exists.mp hfound
  have hle := find_add_length_le hi
  have h4 : CRLFCRLF.length = 4 := rfl
  unfold headEnd
  rw [hi, bytesOf_append, List.length_append]
  show i + 4 ≤ _
  omega

/-- While the block is where the head was found, `Complete` counts bytes. -/
theorem complete_of_address {base : Nat} {arrived chunks : List RecvResult}
    (hhead : headChunks chunks = some arrived) (haddr : address base chunks = address base arrived)
    (hsize : (bytesOf chunks).length < SIZE) :
    Complete base chunks ↔ headEnd arrived + announced arrived ≤ (bytesOf chunks).length := by
  have hle := headEnd_le hhead
  have hbehind : behindHead base arrived chunks = (bytesOf chunks).length - headEnd arrived := by
    unfold behindHead
    rw [haddr, Int.emod_eq_of_lt (by omega) (by omega)]
    omega
  unfold Complete
  simp only [hhead, Option.mem_some_iff, exists_eq_left', hbehind]
  omega

/-! ## What the loop knows -/

/-- The variables of the loop behind these chunks. -/
structure Follows (base : Nat) (chunks : List RecvResult) (s : RecvState) : Prop where
  block : blockAfter base chunks = { base := s.base, cap := s.cap, len := s.buf.length }
  buf : s.buf = bytesOf chunks
  bodyStart : s.bodyStart = (headChunks chunks).map fun arrived =>
    address base arrived + headEnd arrived
  contentLength : s.contentLength = (headChunks chunks).elim 0 announced

theorem follows_start (base : Nat) : Follows base [] { base := base } :=
  ⟨rfl, rfl, rfl, rfl⟩

section Step

variable {base : Nat} {chunks : List RecvResult} {s : RecvState} (h : Follows base chunks s)
  (bytes junk : Bytes) (base' : Nat)

include h

theorem follows_bytes :
    bytesOf (chunks ++ [.data bytes junk base']) = s.buf ++ bytes := by
  rw [bytesOf_append, h.buf]
  simp [bytesOf]

theorem follows_address :
    address base (chunks ++ [.data bytes junk base']) = s.base := by
  rw [address_concat, h.block]

/-- The iteration reads of the head what the chunks say. -/
theorem follows_scan :
    (recvData true bytes junk s).bodyStart =
        ((headChunks (chunks ++ [.data bytes junk base'])).map fun arrived =>
          address base arrived + headEnd arrived) ∧
      (recvData true bytes junk s).contentLength =
        (headChunks (chunks ++ [.data bytes junk base'])).elim 0 announced := by
  have hstart := h.bodyStart
  have hlength := h.contentLength
  rw [headChunks_concat, follows_bytes h bytes junk base']
  cases hc : headChunks chunks with
  | some arrived =>
    -- The head was there before: nothing is searched.
    rw [hc] at hstart hlength
    unfold recvData
    rw [recvScan_of_bodyStart true junk (by simp [hstart])]
    exact ⟨hstart, hlength⟩
  | none =>
    rw [hc] at hstart hlength
    rw [Option.none_or]
    cases hf : find CRLFCRLF (s.buf ++ bytes) with
    | none =>
      unfold recvData
      rw [recvScan_of_none true junk hf]
      exact ⟨hstart, hlength⟩
    | some i =>
      have hread : (recvData true bytes junk s).contentLength =
          number (mention (s.buf ++ bytes) junk) := recvData_contentLength hstart hlength hf
      have hjunk : junkOf (chunks ++ [.data bytes junk base']) = junk := by simp [junkOf]
      constructor
      · unfold recvData
        rw [recvScan_of_find (s := { s with buf := s.buf ++ bytes }) true junk hstart hf]
        simp [headEnd, follows_bytes h, follows_address h, hf]
      · rw [hread]
        simp [announced, follows_bytes h, hjunk]

/-- **The completion test sees whether the message is there.** -/
theorem recvComplete_iff :
    recvComplete (recvData true bytes junk s) = true ↔
      Complete base (chunks ++ [.data bytes junk base']) := by
  obtain ⟨hstart, hlength⟩ := follows_scan h bytes junk base'
  unfold recvComplete Complete
  cases hc : headChunks (chunks ++ [.data bytes junk base']) with
  | none =>
    rw [hc] at hstart
    simp [recvTest, hstart]
  | some arrived =>
    rw [hc] at hstart hlength
    rw [recvTest_eq hstart, hlength]
    simp [behindHead, follows_bytes h, follows_address h]

/-- What the chunks say holds behind the next one too. -/
theorem follows_next :
    Follows base (chunks ++ [.data bytes junk base'])
      (recvGrow base' (recvData true bytes junk s)) := by
  obtain ⟨hstart, hlength⟩ := follows_scan h bytes junk base'
  refine ⟨?_, ?_, ?_, ?_⟩
  · rw [blockAfter_concat, h.block, recvGrow_base, recvGrow_cap]
    simp [Block.store]
  · rw [follows_bytes h]
    simp
  · rw [recvGrow_bodyStart, hstart]
  · rw [recvGrow_contentLength, hlength]

end Step

end Foxtails.Wire
