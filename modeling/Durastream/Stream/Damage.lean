import Durastream.Lib.Crc
import Durastream.Stream.Recovery

/-!
# Damage to a log

The checksum of a frame is CRC-32, and a CRC-32 sees every burst: bytes that change only
within 32 bits of each other never keep it.  So where one record of a log is damaged
like this, or its checksum is changed in any way, `read` raises for exactly the ranges
that have the record, says which record it is, and returns the rest as before.  Opening
the log with its lock keeps the records before it.

`bits` takes the bits of a byte from the low end, the order in which the division does.
-/

namespace Durastream

/-! ## The checksum as a division -/

/-- The polynomial of CRC-32, reflected. -/
def crcPoly : BitVec 32 := 0xEDB88320#32

/-- The bits of a byte string. -/
def bits (d : Bytes) : List Bool := d.flatMap fun b => Crc.lowBits 8 b.toBitVec

theorem bits_length (d : Bytes) : (bits d).length = 8 * d.length := by
  induction d with
  | nil => rfl
  | cons b d ih =>
      rw [bits, List.flatMap_cons, List.length_append, Crc.lowBits_length, List.length_cons]
      rw [show (d.flatMap fun b => Crc.lowBits 8 b.toBitVec).length = 8 * d.length from ih]
      omega

theorem crcBit_toBitVec (c : UInt32) : (crcBit c).toBitVec = Crc.shift crcPoly c.toBitVec := by
  have hlow : (c &&& 1 = 1) ↔ c.toBitVec.getLsbD 0 = true := by
    rw [← UInt32.toBitVec_inj, UInt32.toBitVec_and]
    show c.toBitVec &&& 1#32 = 1#32 ↔ _
    rw [BitVec.and_one_eq_setWidth_ofBool_getLsbD]
    cases c.toBitVec.getLsbD 0 <;> decide
  unfold crcBit Crc.shift
  by_cases h : c &&& 1 = 1
  · rw [if_pos h, if_pos (hlow.mp h)]
    rfl
  · rw [if_neg h, if_neg fun hbit => h (hlow.mpr hbit)]
    rfl

theorem crcByte_toBitVec (c : UInt32) (b : UInt8) :
    (crcByte c b).toBitVec = Crc.feed crcPoly c.toBitVec (Crc.lowBits 8 b.toBitVec) := by
  have hsteps : ∀ c : UInt32,
      (Nat.repeat crcBit 8 c).toBitVec = Crc.shifts crcPoly 8 c.toBitVec := by
    intro c
    simp only [Nat.repeat, crcBit_toBitVec, Crc.shifts]
  have hbyte : (c ^^^ b.toUInt32).toBitVec = c.toBitVec ^^^ b.toBitVec.setWidth 32 := rfl
  have hout : b.toBitVec.setWidth 32 >>> 8 = 0#32 := by
    apply BitVec.eq_of_getLsbD_eq
    intro i hi
    rw [BitVec.getLsbD_ushiftRight, BitVec.getLsbD_setWidth, BitVec.getLsbD_zero,
      BitVec.getLsbD_of_ge b.toBitVec _ (by omega), Bool.and_false]
  rw [crcByte, hsteps, hbyte, Crc.shifts_xor, hout, BitVec.xor_zero,
    Crc.lowBits_setWidth (by omega)]

theorem foldl_crcByte (c : UInt32) (d : Bytes) :
    (d.foldl crcByte c).toBitVec = Crc.feed crcPoly c.toBitVec (bits d) := by
  induction d generalizing c with
  | nil => rfl
  | cons b d ih =>
      rw [List.foldl_cons, ih, crcByte_toBitVec, ← Crc.feed_append]
      rfl

/-! ## Bursts -/

/-- Two byte strings that differ, and only within 32 bits of each other. -/
def Burst (p q : Bytes) : Prop :=
  ∃ front as bs back, as.length = bs.length ∧ as.length ≤ 32 ∧ as ≠ bs ∧
    bits p = front ++ as ++ back ∧ bits q = front ++ bs ++ back

theorem Burst.length_eq {p q : Bytes} (h : Burst p q) : q.length = p.length := by
  obtain ⟨front, as, bs, back, hlen, -, -, hp, hq⟩ := h
  have hp' := congrArg List.length hp
  have hq' := congrArg List.length hq
  rw [bits_length] at hp' hq'
  simp only [List.length_append] at hp' hq'
  omega

theorem Burst.crc32_ne {p q : Bytes} (h : Burst p q) : crc32 q ≠ crc32 p := by
  obtain ⟨front, as, bs, back, hlen, hshort, hne, hp, hq⟩ := h
  intro heq
  have hxor := UInt32.toNat.inj heq
  have hfold : q.foldl crcByte 0xFFFFFFFF = p.foldl crcByte 0xFFFFFFFF := by
    have := congrArg (· ^^^ (0xFFFFFFFF : UInt32)) hxor
    simpa [UInt32.xor_assoc] using this
  have hfeed := congrArg UInt32.toBitVec hfold
  rw [foldl_crcByte, foldl_crcByte, hp, hq] at hfeed
  exact Crc.feed_ne_of_burst (by decide) _ front back hlen hshort hne hfeed.symm

/-- What is left of the frame of a record after a burst in the payload, or any change of
the checksum. -/
inductive Damaged (p : Bytes) : Bytes → Prop where
  | payload (q : Bytes) : Burst p q → Damaged p (headerPack p.length (crc32 p) ++ q)
  | checksum (crc : Bytes) :
      crc.length = 4 → crc ≠ packU32 (crc32 p) → Damaged p (packU32 p.length ++ crc ++ p)

/-- A header whose checksum is not that of the payload. -/
theorem frameAt_mismatch {q : Bytes} {crc : Nat} (t : Bytes) (hq : q.length ≤ maxPayload)
    (hcrc : crc < 2 ^ 32) (hne : crc32 q ≠ crc) :
    frameAt (headerPack q.length crc ++ q ++ t) 0 = none := by
  have hl : q.length < 2 ^ 32 := by
    unfold maxPayload at hq
    omega
  have hhdr : slice (headerPack q.length crc ++ q ++ t) 0 headerSize = headerPack q.length crc := by
    rw [slice, List.drop_zero, List.append_assoc, ← headerPack_length q.length crc, List.take_left]
  have hbody :
      slice (headerPack q.length crc ++ q ++ t) headerSize (headerSize + q.length) = q := by
    have hlen : (headerPack q.length crc ++ q).length = headerSize + q.length := by simp
    rw [slice, ← hlen, List.take_left, ← headerPack_length q.length crc, List.drop_left]
  unfold frameAt
  rw [Nat.zero_add, hhdr, headerUnpack_headerPack hl hcrc, if_pos (by simp)]
  dsimp only
  rw [if_neg (by simp), hbody, if_pos hne]

namespace Damaged

variable {p f : Bytes}

/-- A damaged frame has its length, and a checksum that is wrong. -/
theorem shape (h : Damaged p f) : ∃ (q : Bytes) (crc : Nat), f = headerPack q.length crc ++ q ∧
    q.length = p.length ∧ crc < 2 ^ 32 ∧ crc32 q ≠ crc := by
  cases h with
  | payload q hburst =>
      exact ⟨q, crc32 p, by rw [hburst.length_eq], hburst.length_eq, crc32_lt p, hburst.crc32_ne⟩
  | checksum crc hlen hne =>
      refine ⟨p, unpackU32 crc, ?_, rfl, unpackU32_lt crc, fun heq => hne ?_⟩
      · rw [headerPack, packU32_unpackU32 hlen]
      · rw [heq, packU32_unpackU32 hlen]

theorem length_eq (h : Damaged p f) : f.length = (frame p).length := by
  obtain ⟨q, crc, rfl, hlen, -, -⟩ := h.shape
  rw [List.length_append, headerPack_length, frame_length, hlen]

/-- A walk ends at a damaged frame. -/
theorem records_append (h : Damaged p f) (hfit : p.length ≤ maxPayload) (t : Bytes) :
    records (f ++ t) = [] := by
  obtain ⟨q, crc, rfl, hlen, hcrc, hne⟩ := h.shape
  exact records_eq_nil_iff.mpr (frameAt_mismatch t (hlen ▸ hfit) hcrc hne)

end Damaged

/-! ## Reading around the damage -/

/-- `read` depends on the bytes of its range alone. -/
theorem read_congr (name : Name) (isOpen : Bool) {data data' : Bytes} {index : List Nat}
    {offset : Int} {stop : Option Int} {lo hi start want : Nat} (hlo : lo = (max offset 0).toNat)
    (hhi : hi = readStop (nextOffset index) stop) (hstart : start = index.getD lo 0)
    (hwant : want = index.getD hi 0 - start)
    (h : lo < hi → (data.drop start).take want = (data'.drop start).take want) :
    read name isOpen data index offset stop = read name isOpen data' index offset stop := by
  rw [read_eq name isOpen data index offset stop hlo hhi hstart hwant rfl,
    read_eq name isOpen data' index offset stop hlo hhi hstart hwant rfl]
  by_cases hempty : hi ≤ lo
  · rw [if_pos hempty, if_pos hempty]
  · rw [h (Nat.lt_of_not_le hempty)]

section Damage

variable {rs qs : List Bytes} {p f t : Bytes}

/-- A range with the damaged record. -/
theorem read_damaged_of_mem (hfit : Fits (rs ++ p :: qs)) (hf : Damaged p f) (name : Name)
    {offset : Int} {stop : Option Int} (hlo : (max offset 0).toNat ≤ rs.length)
    (hhi : rs.length < readStop (rs.length + 1 + qs.length) stop) :
    read name true (frames rs ++ f ++ frames qs ++ t) (marks (rs ++ p :: qs)) offset stop =
      .error (.badChecksum name rs.length) := by
  obtain ⟨lo, hlo'⟩ : ∃ lo : Nat, lo = (max offset 0).toNat := ⟨_, rfl⟩
  have hcount : (rs ++ p :: qs).length = rs.length + 1 + qs.length := by
    simp only [List.length_append, List.length_cons]
    omega
  obtain ⟨hi, hhi'⟩ : ∃ hi : Nat, hi = readStop (nextOffset (marks (rs ++ p :: qs))) stop :=
    ⟨_, rfl⟩
  have hle : hi ≤ (rs ++ p :: qs).length := by
    rw [hhi', nextOffset_marks]
    exact readStop_le _ _
  rw [← hlo'] at hlo
  rw [← hcount, ← nextOffset_marks (rs ++ p :: qs), ← hhi'] at hhi
  -- the records of the range are those before the damaged one, and some more
  obtain ⟨k, hk⟩ : ∃ k, hi = rs.length + (k + 1) := ⟨hi - rs.length - 1, by omega⟩
  have htake : ((rs ++ p :: qs).take hi).drop lo = rs.drop lo ++ p :: qs.take k := by
    rw [hk, List.take_length_add_append, List.take_succ_cons, List.drop_append_of_le_length hlo]
  have hwant : _ = (frames (((rs ++ p :: qs).take hi).drop lo)).length :=
    (frames_range (by omega) hle).2
  rw [htake] at hwant
  have hstart : (marks (rs ++ p :: qs)).getD lo 0 = (frames (rs.take lo)).length := by
    rw [marks_getD (by omega), List.take_append_of_le_length hlo]
  -- and the bytes of the range start with their frames
  obtain ⟨rest, hrest⟩ : ∃ rest, ((frames rs ++ f ++ frames qs ++ t).drop
      ((marks (rs ++ p :: qs)).getD lo 0)).take (frames (rs.drop lo ++ p :: qs.take k)).length =
        frames (rs.drop lo) ++ (f ++ rest) ∧
      (frames (rs.drop lo) ++ (f ++ rest)).length =
        (frames (rs.drop lo ++ p :: qs.take k)).length := by
    have hsplit : frames rs = frames (rs.take lo) ++ frames (rs.drop lo) := by
      rw [← frames_append, List.take_append_drop]
    have hqs : frames (qs.take k) <+: frames qs ++ t :=
      (frames_mono (List.take_prefix k qs)).trans (List.prefix_append _ _)
    obtain ⟨u, hu⟩ := hqs
    have hlen : (frames (rs.drop lo ++ p :: qs.take k)).length =
        (frames (rs.drop lo) ++ (f ++ frames (qs.take k))).length := by
      rw [frames_append, List.length_append, List.length_append, List.length_append, hf.length_eq]
      show _ + (frame p ++ frames (qs.take k)).length = _
      rw [List.length_append]
    refine ⟨frames (qs.take k), ?_, hlen.symm⟩
    have hbytes : frames rs ++ f ++ frames qs ++ t =
        frames (rs.take lo) ++ (frames (rs.drop lo) ++ (f ++ frames (qs.take k)) ++ u) := by
      rw [hsplit, List.append_assoc _ (frames qs), ← hu]
      simp only [List.append_assoc]
    rw [hstart, hlen, hbytes, List.drop_left, List.take_left]
  obtain ⟨hgot, hlong⟩ := hrest
  have hdrop : Fits (rs.drop lo) := hfit.of_subset fun x hx =>
    List.mem_append_left _ (List.mem_of_mem_drop hx)
  have hp : p.length ≤ maxPayload := hfit p (by simp)
  have hfound : records (frames (rs.drop lo) ++ (f ++ rest)) = rs.drop lo := by
    rw [records_frames_append hdrop, hf.records_append hp, List.append_nil]
  rw [read_eq name true _ _ offset stop hlo' hhi' rfl hwant.symm hgot.symm, if_neg (by omega),
    if_neg (by simp), if_neg (by omega), hfound, List.length_drop, if_pos (by omega)]
  congr 2
  omega

/-- A range without the damaged record. -/
theorem read_damaged_of_not_mem (hfit : Fits (rs ++ p :: qs)) (hf : Damaged p f) (name : Name)
    {offset : Int} {stop : Option Int}
    (hout : ¬((max offset 0).toNat ≤ rs.length ∧
      rs.length < readStop (rs.length + 1 + qs.length) stop)) :
    read name true (frames rs ++ f ++ frames qs ++ t) (marks (rs ++ p :: qs)) offset stop =
      .ok (((rs ++ p :: qs).take (readStop (rs.length + 1 + qs.length) stop)).drop
        (max offset 0).toNat) := by
  have hcount : (rs ++ p :: qs).length = rs.length + 1 + qs.length := by
    simp only [List.length_append, List.length_cons]
    omega
  have hwhole : frames (rs ++ p :: qs) ++ t = frames rs ++ (frame p ++ (frames qs ++ t)) := by
    rw [frames_append, List.append_assoc]
    show frames rs ++ (frame p ++ frames qs ++ t) = _
    rw [List.append_assoc]
  have hdamaged : frames rs ++ f ++ frames qs ++ t = frames rs ++ (f ++ (frames qs ++ t)) := by
    simp only [List.append_assoc]
  rw [← hcount, ← read_marks name hfit (List.prefix_append _ t)]
  refine read_congr name true rfl rfl rfl rfl fun hlt => ?_
  rw [nextOffset_marks] at hlt ⊢
  rw [← hcount] at hout
  have hle := readStop_le (rs ++ p :: qs).length stop
  rw [hwhole, hdamaged]
  rcases Nat.lt_or_ge rs.length (max offset 0).toNat with hafter | hbefore
  · -- the range begins behind the damaged frame
    have hstart : (frames rs ++ frame p).length ≤
        (marks (rs ++ p :: qs)).getD (max offset 0).toNat 0 := by
      rw [marks_getD (by omega)]
      have hpre : rs ++ [p] <+: (rs ++ p :: qs).take (max offset 0).toNat := by
        refine List.prefix_take_iff.mpr ⟨⟨qs, by simp⟩, ?_⟩
        rw [List.length_append, List.length_singleton]
        omega
      have hlen := (frames_mono hpre).length_le
      rwa [frames_append, show frames [p] = frame p from List.append_nil _] at hlen
    rw [List.length_append] at hstart
    obtain ⟨k, hk⟩ := Nat.exists_eq_add_of_le hstart
    have hskip : ∀ g : Bytes, g.length = (frame p).length →
        (frames rs ++ (g ++ (frames qs ++ t))).drop ((frames rs).length + (frame p).length + k) =
          (frames qs ++ t).drop k := by
      intro g hg
      rw [← hg, ← List.drop_drop, ← List.drop_drop, List.drop_left, List.drop_left]
    rw [hk, hskip f hf.length_eq, hskip (frame p) rfl]
  · -- the range ends before it
    have hend : readStop (rs ++ p :: qs).length stop ≤ rs.length := by
      by_contra hnot
      exact hout ⟨hbefore, by omega⟩
    have hstop : (marks (rs ++ p :: qs)).getD (readStop (rs ++ p :: qs).length stop) 0 ≤
        (frames rs).length := by
      rw [marks_getD hle, List.take_append_of_le_length hend]
      exact (frames_mono (List.take_prefix _ rs)).length_le
    have hstart : (marks (rs ++ p :: qs)).getD (max offset 0).toNat 0 ≤
        (marks (rs ++ p :: qs)).getD (readStop (rs ++ p :: qs).length stop) 0 := by
      rw [marks_getD hle, marks_getD (by omega)]
      exact (frames_mono (List.take_prefix_take_left (by omega))).length_le
    rw [List.take_drop, List.take_drop, Nat.add_sub_cancel' hstart,
      List.take_append_of_le_length hstop, List.take_append_of_le_length hstop]

/-- Damage within 32 bits of each other in the payload of one record, or any damage of its
checksum, is never passed off as data.  `read` raises for the ranges that have the record
and names it, other ranges are as before, and opening the log with its lock keeps the
records before it. -/
theorem read_damaged (hfit : Fits (rs ++ p :: qs)) (hf : Damaged p f) (name : Name)
    (sizes : Nat → Nat) (t : Bytes) (offset : Int) (stop : Option Int) :
    let data := frames rs ++ f ++ frames qs ++ t
    let lo := (max offset 0).toNat
    let hi := readStop (rs.length + 1 + qs.length) stop
    readChunked name true sizes data (marks (rs ++ p :: qs)) offset stop =
        (if lo ≤ rs.length ∧ rs.length < hi then .error (.badChecksum name rs.length)
        else .ok (((rs ++ p :: qs).take hi).drop lo)) ∧
      recover data = (marks rs, frames rs) := by
  dsimp only
  refine ⟨?_, ?_⟩
  · rw [readChunked_eq]
    split
    · next hin => exact read_damaged_of_mem hfit hf name hin.1 hin.2
    · next hout => exact read_damaged_of_not_mem hfit hf name hout
  · have hrs : Fits rs := hfit.of_subset (List.subset_append_left _ _)
    have hp : p.length ≤ maxPayload := hfit p (by simp)
    have hrecords : records (frames rs ++ f ++ frames qs ++ t) = rs := by
      rw [List.append_assoc, List.append_assoc, records_frames_append hrs,
        hf.records_append hp, List.append_nil]
    rw [recover_eq, hrecords]

/-- Three bits of the second of three records change. -/
theorem read_damaged_threeBits :
    readChunked ['t'] true (fun _ => 0) (frames [[1]] ++ (headerPack 2 (crc32 [7, 8]) ++ [6, 9]) ++
      frames [[3]] ++ []) (marks ([[1]] ++ [7, 8] :: [[3]])) 0 none =
        .error (.badChecksum ['t'] 1) ∧
      recover (frames [[1]] ++ (headerPack 2 (crc32 [7, 8]) ++ [6, 9]) ++ frames [[3]] ++ []) =
        (marks [[1]], frames [[1]]) := by
  have hfit : Fits ([[1]] ++ [7, 8] :: [[3]]) := by
    unfold Fits
    decide
  have hburst : Burst [7, 8] [6, 9] :=
    ⟨[], [true, true, true, false, false, false, false, false, false],
      [false, true, true, false, false, false, false, false, true],
      [false, false, true, false, false, false, false], by decide⟩
  exact read_damaged hfit (.payload [6, 9] hburst) ['t'] (fun _ => 0) [] 0 none

end Damage

end Durastream
