import Durastream.Lib.FrameCode
import Durastream.Utils

/-!
# The frame format

A record on disk is a frame: four bytes of length, four bytes of CRC-32, then
the payload, both numbers big-endian.  `packFrame` builds a frame, `iterFrames`
walks a byte string frame by frame and stops at the first torn or corrupt one.

The loop of `iter_frames` is `frameAt`, one turn at a position, iterated by
`iterFramesFrom`.  A turn moves forward by at least eight bytes, so the length of
the data is fuel enough.  `frameCode` packs the format as a self-delimiting code,
and `iterFrames_payloads` and `iterFrames_ends` say that the loop is the decoder
of that code.
-/

namespace Durastream

/-- `bytes`. -/
abbrev Bytes := List UInt8

/-! ## Numbers -/

/-- `HEADER.size`. -/
def headerSize : Nat := 8

/-- `MAX_PAYLOAD`: the largest length the `u32` field holds. -/
def maxPayload : Nat := 0xFFFFFFFF

/-- A `u32`, big-endian. -/
def packU32 (n : Nat) : Bytes :=
  [UInt8.ofNat (n / 2 ^ 24), UInt8.ofNat (n / 2 ^ 16), UInt8.ofNat (n / 2 ^ 8), UInt8.ofNat n]

/-- The number four bytes stand for. -/
def unpackU32 : Bytes → Nat
  | [a, b, c, d] => ((a.toNat * 2 ^ 8 + b.toNat) * 2 ^ 8 + c.toNat) * 2 ^ 8 + d.toNat
  | _ => 0

@[simp] theorem packU32_length (n : Nat) : (packU32 n).length = 4 := rfl

theorem unpackU32_packU32 {n : Nat} (h : n < 2 ^ 32) : unpackU32 (packU32 n) = n := by
  simp only [packU32, unpackU32, UInt8.toNat_ofNat']
  omega

theorem packU32_unpackU32 {b : Bytes} (h : b.length = 4) : packU32 (unpackU32 b) = b := by
  match b, h with
  | [a, b, c, d], _ =>
      have ha := a.toNat_lt
      have hb := b.toNat_lt
      have hc := c.toNat_lt
      have hd := d.toNat_lt
      simp only [packU32, unpackU32, List.cons.injEq, and_true]
      refine ⟨?_, ?_, ?_, ?_⟩ <;> apply UInt8.toNat.inj <;> rw [UInt8.toNat_ofNat'] <;> omega

theorem unpackU32_lt (b : Bytes) : unpackU32 b < 2 ^ 32 := by
  unfold unpackU32
  split
  · next a b c d =>
      have ha := a.toNat_lt
      have hb := b.toNat_lt
      have hc := c.toNat_lt
      have hd := d.toNat_lt
      omega
  · decide

/-! ## The checksum -/

/-- One bit of the reflected CRC-32 division. -/
def crcBit (c : UInt32) : UInt32 :=
  if c &&& 1 = 1 then (c >>> 1) ^^^ 0xEDB88320 else c >>> 1

/-- One byte. -/
def crcByte (c : UInt32) (b : UInt8) : UInt32 :=
  Nat.repeat crcBit 8 (c ^^^ b.toUInt32)

/-- `zlib.crc32`, CRC-32/ISO-HDLC. -/
def crc32 (d : Bytes) : Nat :=
  (d.foldl crcByte 0xFFFFFFFF ^^^ 0xFFFFFFFF).toNat

theorem crc32_lt (d : Bytes) : crc32 d < 2 ^ 32 := UInt32.toNat_lt _

/-! ## Frames -/

/-- `HEADER.pack(length, crc)`. -/
def headerPack (length crc : Nat) : Bytes := packU32 length ++ packU32 crc

/-- `HEADER.unpack(header)`. -/
def headerUnpack (header : Bytes) : Nat × Nat :=
  (unpackU32 (header.take 4), unpackU32 (header.drop 4))

/-- The header and the payload. -/
def frame (payload : Bytes) : Bytes := headerPack payload.length (crc32 payload) ++ payload

/-- `pack_frame`. -/
def packFrame (payload : Bytes) : Except Error Bytes :=
  if payload.length > maxPayload then .error (.payloadTooLarge payload.length)
  else .ok (frame payload)

/-- `data[start:stop]`. -/
def slice (data : Bytes) (start stop : Nat) : Bytes := (data.take stop).drop start

/-- One turn of the loop of `iter_frames`: the payload of the frame at `pos` and
the position after it, or `none` where the loop ends. -/
def frameAt (data : Bytes) (pos : Nat) : Option (Bytes × Nat) :=
  if pos + headerSize ≤ data.length then
    let (length, crc) := headerUnpack (slice data pos (pos + headerSize))
    let stop := pos + headerSize + length
    if stop > data.length then none -- torn tail: header promises bytes we don't have
    else
      let payload := slice data (pos + headerSize) stop
      if crc32 payload ≠ crc then none -- corruption: reject everything from here on
      else some (payload, stop)
  else none

/-- The loop of `iter_frames` from `pos`, at most `fuel` turns. -/
def iterFramesFrom (data : Bytes) : Nat → Nat → List (Bytes × Nat)
  | 0, _ => []
  | fuel + 1, pos =>
      match frameAt data pos with
      | none => []
      | some (payload, stop) => (payload, stop) :: iterFramesFrom data fuel stop

/-- `iter_frames`: each payload with the position where its frame ends. -/
def iterFrames (data : Bytes) : List (Bytes × Nat) := iterFramesFrom data data.length 0

@[simp] theorem headerPack_length (l c : Nat) : (headerPack l c).length = headerSize := rfl

@[simp] theorem frame_length (p : Bytes) : (frame p).length = headerSize + p.length := by
  simp [frame]

theorem headerUnpack_headerPack {l c : Nat} (hl : l < 2 ^ 32) (hc : c < 2 ^ 32) :
    headerUnpack (headerPack l c) = (l, c) := by
  have h4 : (packU32 l).length = 4 := rfl
  rw [headerUnpack, headerPack, ← h4, List.take_left, List.drop_left,
    unpackU32_packU32 hl, unpackU32_packU32 hc]

theorem headerPack_headerUnpack {h : Bytes} (hlen : h.length = headerSize) :
    headerPack (headerUnpack h).1 (headerUnpack h).2 = h := by
  have h8 : h.length = 8 := hlen
  rw [headerPack, headerUnpack, packU32_unpackU32 (by simp [h8]),
    packU32_unpackU32 (by simp [h8]), List.take_append_drop]

/-- A turn at `pos` is a turn at the front of what is left. -/
theorem frameAt_eq_drop (data : Bytes) (pos : Nat) (h : pos ≤ data.length) :
    frameAt data pos = (frameAt (data.drop pos) 0).map fun r => (r.1, pos + r.2) := by
  have hslice : ∀ a b, slice data (pos + a) (pos + b) = slice (data.drop pos) a b := by
    intro a b
    rw [slice, slice, List.take_drop, List.drop_drop]
  have h0 := hslice 0 headerSize
  rw [Nat.add_zero] at h0
  unfold frameAt
  rw [h0, Nat.zero_add, List.length_drop]
  by_cases hhdr : headerSize ≤ data.length - pos
  · rw [if_pos (by omega), if_pos hhdr]
    dsimp only
    by_cases hstop : headerSize + (headerUnpack (slice (data.drop pos) 0 headerSize)).1 >
        data.length - pos
    · rw [if_pos (by omega), if_pos hstop]
      rfl
    · rw [if_neg (by omega), if_neg hstop, Nat.add_assoc, hslice]
      split <;> rfl
  · rw [if_neg (by omega), if_neg hhdr]
    rfl

/-- The front of a word that starts with a frame. -/
theorem frameAt_frame_append {p : Bytes} (t : Bytes) (h : p.length ≤ maxPayload) :
    frameAt (frame p ++ t) 0 = some (p, (frame p).length) := by
  have hl : p.length < 2 ^ 32 := by
    unfold maxPayload at h
    omega
  have hhdr : slice (frame p ++ t) 0 headerSize = headerPack p.length (crc32 p) := by
    rw [slice, frame, List.append_assoc, List.drop_zero,
      ← headerPack_length p.length (crc32 p), List.take_left]
  have hbody : slice (frame p ++ t) headerSize (headerSize + p.length) = p := by
    rw [slice, ← frame_length, List.take_left, frame,
      ← headerPack_length p.length (crc32 p), List.drop_left]
  unfold frameAt
  rw [Nat.zero_add, hhdr, headerUnpack_headerPack hl (crc32_lt p), if_pos (by simp; omega)]
  dsimp only
  rw [if_neg (by simp), hbody, if_neg (by simp), frame_length]

/-- What a turn at the front recognises is a frame. -/
theorem frame_of_frameAt {d p : Bytes} {n : Nat} (h : frameAt d 0 = some (p, n)) :
    p.length ≤ maxPayload ∧ frame p <+: d ∧ n = (frame p).length := by
  unfold frameAt at h
  rw [Nat.zero_add] at h
  split at h
  · next hhdr =>
      have hslice : slice d 0 headerSize = d.take headerSize := rfl
      rw [hslice] at h
      generalize hu : headerUnpack (d.take headerSize) = u at h
      obtain ⟨length, crc⟩ := u
      dsimp only at h
      split at h
      · cases h
      · next hstop =>
          split at h
          · cases h
          · next hcrc =>
              rw [Option.some.injEq, Prod.mk.injEq] at h
              obtain ⟨hp, rfl⟩ := h
              rw [Decidable.not_not, hp] at hcrc
              have hplen : p.length = length := by
                rw [← hp, slice, List.length_drop, List.length_take]
                omega
              have hpack : headerPack length crc = d.take headerSize := by
                have hback := headerPack_headerUnpack (h := d.take headerSize)
                  (by rw [List.length_take]; omega)
                rwa [hu] at hback
              have hlt : length < 2 ^ 32 := by
                have hlt := unpackU32_lt ((d.take headerSize).take 4)
                rwa [show unpackU32 ((d.take headerSize).take 4) = length from
                  congrArg Prod.fst hu] at hlt
              refine ⟨by unfold maxPayload; omega, ?_, by rw [frame_length, hplen]⟩
              refine ⟨d.drop (headerSize + length), ?_⟩
              rw [frame, hplen, hcrc, hpack, ← hp, slice, List.drop_take,
                Nat.add_sub_cancel_left, ← List.take_add, List.take_append_drop]
  · cases h

/-- The frame format as a self-delimiting code. -/
def frameCode : FrameCode UInt8 Bytes where
  Valid p := p.length ≤ maxPayload
  enc := frame
  dec d := frameAt d 0
  dec_enc _ t h := frameAt_frame_append t h
  enc_dec _ _ _ h := frame_of_frameAt h
  enc_pos p := by
    rw [frame_length, headerSize]
    omega

/-! ## The loop is the decoder -/

/-- The loop at a position yields what the decoder finds in the rest. -/
theorem iterFramesFrom_eq (data : Bytes) (fuel pos : Nat) (h : pos ≤ data.length) :
    iterFramesFrom data fuel pos =
      (frameCode.itemsFuel fuel (data.drop pos)).zip
        (frameCode.marksFrom pos (frameCode.itemsFuel fuel (data.drop pos))).tail := by
  induction fuel generalizing pos with
  | zero => rfl
  | succ fuel ih =>
      rw [iterFramesFrom, frameAt_eq_drop data pos h, FrameCode.itemsFuel]
      cases hdec : frameCode.dec (data.drop pos) with
      | none =>
          rw [show frameAt (data.drop pos) 0 = none from hdec]
          rfl
      | some r =>
          obtain ⟨p, n⟩ := r
          obtain ⟨_, _, _, hle⟩ := FrameCode.split_of_dec hdec
          rw [List.length_drop] at hle
          rw [show frameAt (data.drop pos) 0 = some (p, n) from hdec]
          have hn : n = (frameCode.enc p).length := (frameCode.enc_dec _ _ _ hdec).2.2
          simp only [Option.map_some]
          rw [ih (pos + n) (by omega), List.drop_drop, FrameCode.marksFrom, List.tail_cons, ← hn]
          cases frameCode.itemsFuel fuel (data.drop (pos + n)) <;> rfl

/-- `iter_frames` yields the records of the longest intact prefix, each with the
end of its frame. -/
theorem iterFrames_eq (data : Bytes) :
    iterFrames data =
      (frameCode.items data).zip (frameCode.marks (frameCode.items data)).tail := by
  rw [iterFrames, iterFramesFrom_eq data _ 0 (Nat.zero_le _), List.drop_zero]
  rfl

theorem iterFrames_payloads (data : Bytes) :
    (iterFrames data).map Prod.fst = frameCode.items data := by
  rw [iterFrames_eq, List.map_fst_zip (by simp)]

theorem iterFrames_ends (data : Bytes) :
    (iterFrames data).map Prod.snd = (frameCode.marks (frameCode.items data)).tail := by
  rw [iterFrames_eq, List.map_snd_zip (by simp)]

example : crc32 [0x31, 0x32, 0x33, 0x34, 0x35, 0x36, 0x37, 0x38, 0x39] = 0xCBF43926 := by
  decide +kernel

end Durastream
