import Durastream.Stream.Machine
import Durastream.Stream.Reading

/-!
# Recovering a torn append

An opening scans the file once, for the size it had, and what it indexes is what
`iter_frames` finds in these bytes (`scan_iterFrames`).

A machine that loses power in an append may leave a log whose length has grown
further than its data: the old bytes, the front of the batch's frames, then
zeros.  `recover` is what an opening with the lock makes of a log, with both
calls of `_recover` successful (`run_opening`).  It keeps the records of the
longest intact prefix and cuts the rest off (`recover_eq`).

Eight zero bytes are the frame of the empty payload, whose CRC is 0.  So zeros
at a frame boundary read as records.  `recover_zeroFilled_iff` says when the
zeros are cut off: when behind the frames of the batch that are still whole no
further frame passes the test of length and CRC.
-/

namespace Durastream

/-! ## The index an opening builds -/

/-- A handle with the index of a scan reads the records that the walk finds in the
bytes scanned, as long as these are still in its file. -/
theorem readChunked_scan (name : Name) (sizes : Nat → Nat) (d data : Bytes) (size : Nat)
    (hdata : d.take (lastMark (scan d size)) <+: data) (offset : Int) (stop : Option Int) :
    readChunked name true sizes data (scan d size) offset stop =
      .ok ((((iterFrames (d.take size)).map Prod.fst).take
        (readStop (nextOffset (scan d size)) stop)).drop (max offset 0).toNat) := by
  have hfound : (iterFrames (d.take size)).map Prod.fst = records (d.take size) :=
    iterFrames_payloads _
  have hfront : frames (records (d.take size)) <+: d :=
    (frames_records_isPrefix (d.take size)).trans (List.take_prefix size d)
  rw [scan_eq, lastMark_marks, ← List.prefix_iff_eq_take.mp hfront] at hdata
  rw [readChunked_eq, scan_eq, read_marks name (Fits.records _) hdata, nextOffset_marks, hfound]

/-- The scan and the walk agree, whatever the size says: an opening indexes what
`iter_frames` finds in the bytes of that size, the reads of the index return it, and
cutting the file at its end never makes a file longer that is as long as was
scanned. -/
theorem scan_iterFrames (d : Bytes) (size : Nat) :
    scan d size = 0 :: (iterFrames (d.take (min size d.length))).map Prod.snd ∧
      (∀ name sizes data offset stop, d.take (lastMark (scan d size)) <+: data →
        readChunked name true sizes data (scan d size) offset stop =
          .ok ((((iterFrames (d.take (min size d.length))).map Prod.fst).take
            (readStop (nextOffset (scan d size)) stop)).drop (max offset 0).toNat)) ∧
      (scan d size).IsChain (fun i j => i + 8 ≤ j) ∧
      (scan d size).Pairwise (· < ·) ∧
      lastMark (scan d size) ≤ size ∧
      ∀ f : CrashFile UInt8, min size d.length ≤ f.data.length →
        (f.truncate (lastMark (scan d size))).data <+: f.data := by
  have hclamp : d.take (min size d.length) = d.take size := List.take_eq_take_min.symm
  have hlast : lastMark (scan d size) ≤ (d.take size).length := by
    rw [scan_eq, lastMark_marks]
    exact (frames_records_isPrefix _).length_le
  rw [List.length_take] at hlast
  have hchain : (scan d size).IsChain fun i j => i + 8 ≤ j := by
    rw [scan_eq]
    refine FrameCode.marksFrom_isChain (fun p b => ?_) 0 _
    show p + headerSize ≤ p + (frame b).length
    rw [frame_length]
    omega
  rw [hclamp]
  refine ⟨?_, ?_, hchain, ?_, by omega, ?_⟩
  · rw [iterFrames_ends, scan_eq]
    show marks (records (d.take size)) = 0 :: (marks (records (d.take size))).tail
    cases records (d.take size) <;> rfl
  · exact fun name sizes data offset stop hdata =>
      readChunked_scan name sizes d data size hdata offset stop
  · exact (hchain.imp fun i j h => by omega).pairwise
  · intro f hf
    rw [CrashFile.data_truncate f (Nat.le_trans hlast hf)]
    exact List.take_prefix _ _

/-! ## Opening with the lock -/

/-- `_recover` of a handle with the lock: the index and the bytes it leaves in the
log. -/
def recover (data : Bytes) : List Nat × Bytes :=
  let size := data.length
  let index := scan data size
  if lastMark index ≠ size then (index, data.take (lastMark index)) -- torn/corrupt tail, drop it
  else (index, data)

/-- Recovery keeps the records of the longest intact prefix. -/
theorem recover_eq (data : Bytes) :
    recover data = (marks (records data), frames (records data)) := by
  have hfront := frames_records_isPrefix data
  unfold recover
  dsimp only
  rw [scan_length, lastMark_marks]
  split
  · rw [← List.prefix_iff_eq_take.mp hfront]
  · next hend => rw [hfront.eq_of_length (not_not.mp hend)]

/-- The calls of `_recover` on a log with these bytes. -/
def recoverActs (data : Bytes) : List LogAct :=
  if lastMark (scan data data.length) ≠ data.length then [.io (.truncate true), .io (.sync true)]
  else []

/-- An opening with the lock whose calls succeed ends with a handle on what
`recover` leaves. -/
theorem run_opening {s : LogState} (closed : Bool) (h : s.owner = .absent) :
    ∃ t, Lts.run LogState.step s (.openOwner closed :: recoverActs s.file.data) = some t ∧
      t.owner = .live ⟨s.name, (recover s.file.data).1, closed, .idle⟩ ∧
      t.file.data = (recover s.file.data).2 := by
  rw [Lts.run_cons, LogState.step, h]
  dsimp only
  rw [Option.bind_some, LogState.opened, recoverActs, recover]
  split
  · refine ⟨_, rfl, rfl, ?_⟩
    have hle : lastMark (scan s.file.data s.file.data.length) ≤ s.file.data.length := by
      rw [scan_length, lastMark_marks]
      exact (frames_records_isPrefix s.file.data).length_le
    rw [CrashFile.data_sync, CrashFile.data_truncate _ hle]
  · exact ⟨_, rfl, rfl, rfl⟩

/-! ## A batch cut off by a power failure -/

/-- How many records of a batch have their frames at the front of these bytes. -/
def intactCount : List Bytes → Bytes → Nat
  | [], _ => 0
  | p :: ps, d => if frame p <+: d then intactCount ps (d.drop (frame p).length) + 1 else 0

/-- Behind the frames of the batch that are still whole, no further frame passes
the test of length and CRC. -/
def CutBehind (batch : List Bytes) (tail : Bytes) : Prop :=
  frameAt tail (frames (batch.take (intactCount batch tail))).length = none

/-- Opening the log finds the old records and a prefix of the batch, and leaves
nothing else in the log. -/
def RecoversPrefix (rs batch : List Bytes) (data : Bytes) : Prop :=
  ∃ c, c <+: batch ∧ recover data = (marks (rs ++ c), frames (rs ++ c))

variable {rs batch : List Bytes}

/-- The records counted are at the front. -/
theorem frames_intactCount (batch : List Bytes) (tail : Bytes) :
    frames (batch.take (intactCount batch tail)) <+: tail := by
  induction batch generalizing tail with
  | nil => exact List.nil_prefix
  | cons p ps ih =>
      rw [intactCount]
      split
      · next hp =>
          obtain ⟨t, rfl⟩ := hp
          rw [List.drop_left]
          obtain ⟨u, hu⟩ := ih t
          refine ⟨u, ?_⟩
          show frame p ++ frames (ps.take (intactCount ps t)) ++ u = _
          rw [List.append_assoc, hu]
      · exact List.nil_prefix

/-- What recovery finds in the tail is a prefix of the batch if and only if the
scan ends behind the frames that are still whole. -/
theorem records_isPrefix_iff (hfit : Fits batch) (tail : Bytes) :
    records tail <+: batch ↔ CutBehind batch tail := by
  unfold CutBehind
  induction batch generalizing tail with
  | nil => exact List.prefix_nil.trans records_eq_nil_iff
  | cons p ps ih =>
      rw [intactCount]
      split
      · next hp =>
          obtain ⟨t, rfl⟩ := hp
          have hps : Fits ps := hfit.of_subset fun q hq => List.mem_cons_of_mem p hq
          have hone : Fits [p] := hfit.of_subset fun q hq => by simp_all
          have hrecords : records (frame p ++ t) = p :: records t := by
            have h := records_frames_append hone t
            rwa [show frames [p] = frame p from List.append_nil _] at h
          have hfront := (frames_intactCount ps t).length_le
          have hframes : (frames ((p :: ps).take (intactCount ps t + 1))).length =
              (frame p).length + (frames (ps.take (intactCount ps t))).length := by
            show (frame p ++ frames (ps.take _)).length = _
            rw [List.length_append]
          rw [hrecords, List.cons_prefix_cons, List.drop_left, hframes,
            frameAt_eq_drop _ _ (by rw [List.length_append]; omega), ← List.drop_drop,
            List.drop_left, Option.map_eq_none_iff]
          have hih := ih hps t
          rw [frameAt_eq_drop _ _ hfront, Option.map_eq_none_iff] at hih
          simpa using hih
      · next hp =>
          show _ ↔ frameAt tail 0 = none
          rw [← records_eq_nil_iff]
          constructor
          · intro h
            cases hfound : records tail with
            | nil => rfl
            | cons q qs =>
                rw [hfound] at h
                obtain ⟨rfl, -⟩ := List.cons_prefix_cons.mp h
                have hwhole := frames_records_isPrefix tail
                rw [hfound] at hwhole
                exact absurd ((List.prefix_append _ _).trans hwhole) hp
          · intro h
            rw [h]
            exact List.nil_prefix

/-- Opening a log with a tail behind its old records keeps these and what it
finds in the tail. -/
theorem recoversPrefix_iff (hrs : Fits rs) (hbatch : Fits batch) (tail : Bytes) :
    RecoversPrefix rs batch (frames rs ++ tail) ↔ records tail <+: batch := by
  have hfound : recover (frames rs ++ tail) =
      (marks (rs ++ records tail), frames (rs ++ records tail)) := by
    rw [recover_eq, records_frames_append hrs]
  constructor
  · rintro ⟨c, hc, heq⟩
    rw [hfound] at heq
    have hc' : Fits c := hbatch.of_subset hc.subset
    have hlogs := congrArg (records ∘ Prod.snd) heq
    simp only [Function.comp_apply] at hlogs
    rw [records_frames (hrs.append (Fits.records tail)), records_frames (hrs.append hc')] at hlogs
    rwa [List.append_cancel_left hlogs]
  · exact fun h => ⟨records tail, h, hfound⟩

/-- A log whose end is filled with zeros is recovered to its old records and a
prefix of the batch if and only if no frame passes the test behind the frames of
the batch that are still whole. -/
theorem recover_zeroFilled_iff (hrs : Fits rs) (hbatch : Fits batch) (k z : Nat) :
    RecoversPrefix rs batch (frames rs ++ ((frames batch).take k ++ List.replicate z 0)) ↔
      CutBehind batch ((frames batch).take k ++ List.replicate z 0) :=
  (recoversPrefix_iff hrs hbatch _).trans (records_isPrefix_iff hbatch _)

/-- Zeros inside a payload are cut off. -/
theorem recover_zeroFilled_iff_inPayload :
    RecoversPrefix [[7]] [[1], [2]] (frames [[7]] ++ ((frames [[1], [2]]).take 17 ++
      List.replicate 1 0)) :=
  (recover_zeroFilled_iff (by simp [Fits, maxPayload]) (by simp [Fits, maxPayload]) 17 1).mpr
    (by unfold CutBehind; decide +kernel)

/-- Eight zeros or more at a frame boundary of the batch are taken for a record,
unless the batch has the empty payload there. -/
theorem recover_zeros_at_boundary (hrs : Fits rs) {done rest : List Bytes} {p : Bytes}
    (hbatch : Fits (done ++ p :: rest)) (hp : p ≠ []) {z : Nat} (hz : 8 ≤ z) :
    ¬RecoversPrefix rs (done ++ p :: rest) (frames rs ++
      ((frames (done ++ p :: rest)).take (frames done).length ++ List.replicate z 0)) := by
  have hempty : List.replicate z (0 : UInt8) = frames [[]] ++ List.replicate (z - 8) 0 := by
    have hframe : frames [[]] = List.replicate 8 0 := by decide +kernel
    rw [hframe, List.replicate_append_replicate, Nat.add_sub_cancel' hz]
  have hdone : Fits done := hbatch.of_subset fun q hq => List.mem_append_left _ hq
  have hone : Fits [[]] := by simp [Fits]
  rw [recoversPrefix_iff hrs hbatch, frames_append, List.take_left, records_frames_append hdone,
    List.prefix_append_right_inj, hempty, records_frames_append hone]
  exact fun h => hp (List.cons_prefix_cons.mp h).1.symm

/-- An append of one record had written nothing when the power failed, and the
file was extended by eight zero bytes: an empty record is recovered. -/
theorem recover_zeros :
    recover (frames [[7]] ++ ((frames [[1]]).take 0 ++ List.replicate 8 0)) =
        (marks [[7], []], frames [[7], []]) ∧
      ¬RecoversPrefix [[7]] [[1]]
        (frames [[7]] ++ ((frames [[1]]).take 0 ++ List.replicate 8 0)) := by
  have hfound : recover (frames [[7]] ++ ((frames [[1]]).take 0 ++ List.replicate 8 0)) =
      (marks [[7], []], frames [[7], []]) := by decide +kernel
  refine ⟨hfound, ?_⟩
  rintro ⟨c, hc, heq⟩
  rw [hfound] at heq
  have hlen : (frames [[7], []]).length = (frames ([[7]] ++ c)).length :=
    congrArg (fun r => r.2.length) heq
  rcases List.prefix_cons_iff.mp hc with rfl | ⟨c', rfl, hc'⟩
  · exact absurd hlen (by decide +kernel)
  · rw [List.prefix_nil] at hc'
    subst hc'
    exact absurd hlen (by decide +kernel)

end Durastream
