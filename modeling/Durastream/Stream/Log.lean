import Durastream.Codec

/-!
# The log of one stream

`_scan` builds the index of a log: `0`, then the end of every intact frame.  It
reads the file forward, a header and a payload at a time, and stops at the first
frame that is torn, corrupt or past the declared size.  `scan_eq` says that this
is the decoder of the format on the first `size` bytes, so an index and the bytes
it was built from always agree.

`read` takes the bytes between two entries of the index, decodes them again and
compares the number of records.  `read_marks` says what it returns where the
index is that of a list of records at the front of the file.
-/

namespace Durastream

/-! ## Records and their frames -/

/-- The records of the longest intact prefix of a log. -/
def records (data : Bytes) : List Bytes := frameCode.items data

/-- The frames of a list of records, one after another. -/
def frames (rs : List Bytes) : Bytes := frameCode.encAll rs

/-- The index of a log that holds exactly these records. -/
def marks (rs : List Bytes) : List Nat := frameCode.marks rs

/-- Every record fits a frame. -/
def Fits (rs : List Bytes) : Prop := ∀ p ∈ rs, p.length ≤ maxPayload

theorem Fits.nil : Fits [] := by
  intro p hp
  cases hp

theorem Fits.append {rs ps : List Bytes} (hr : Fits rs) (hp : Fits ps) : Fits (rs ++ ps) := by
  intro p hmem
  rcases List.mem_append.mp hmem with h | h
  · exact hr p h
  · exact hp p h

theorem Fits.of_subset {rs ps : List Bytes} (hr : Fits rs) (h : ps ⊆ rs) : Fits ps :=
  fun p hp => hr p (h hp)

theorem Fits.records (data : Bytes) : Fits (records data) := FrameCode.valid_of_mem_items data

@[simp] theorem frames_nil : frames [] = [] := rfl

@[simp] theorem frames_append (rs ps : List Bytes) :
    frames (rs ++ ps) = frames rs ++ frames ps := FrameCode.encAll_append frameCode rs ps

theorem frames_mono {rs ps : List Bytes} (h : rs <+: ps) : frames rs <+: frames ps :=
  FrameCode.encAll_isPrefix frameCode h

@[simp] theorem records_nil : records [] = [] := rfl

/-- The records of a log that starts with whole frames. -/
theorem records_frames_append {rs : List Bytes} (h : Fits rs) (t : Bytes) :
    records (frames rs ++ t) = rs ++ records t :=
  FrameCode.items_encAll_append (c := frameCode) h t

theorem records_frames {rs : List Bytes} (h : Fits rs) : records (frames rs) = rs :=
  FrameCode.items_encAll (c := frameCode) h

/-- The records of a log, framed again, are the front of the log. -/
theorem frames_records_isPrefix (data : Bytes) : frames (records data) <+: data :=
  FrameCode.encAll_items_isPrefix data

theorem records_mono {d d' : Bytes} (h : d <+: d') : records d <+: records d' :=
  FrameCode.items_mono h

/-- Records framed at the front of a log are found there. -/
theorem isPrefix_records {rs : List Bytes} {d : Bytes} (hv : Fits rs) (h : frames rs <+: d) :
    rs <+: records d := FrameCode.prefix_items hv h

/-- Frames cut anywhere still give some of the records, in order, and no others. -/
theorem records_of_isPrefix_frames {rs : List Bytes} {t : Bytes} (hv : Fits rs)
    (h : t <+: frames rs) : records t <+: rs := FrameCode.items_of_prefix_encAll hv h

theorem records_take {d : Bytes} {k : Nat} (h : (frames (records d)).length ≤ k) :
    records (d.take k) = records d := FrameCode.items_take_of_encAll_length_le h

theorem marks_getElem? (rs : List Bytes) (i : Nat) (h : i ≤ rs.length) :
    (marks rs)[i]? = some (frames (rs.take i)).length := FrameCode.marks_getElem? rs i h

/-- The entries of the index are the ends of the frames. -/
theorem marks_getD {rs : List Bytes} {i : Nat} (h : i ≤ rs.length) :
    (marks rs).getD i 0 = (frames (rs.take i)).length := by
  rw [List.getD_eq_getElem?_getD, marks_getElem? rs i h, Option.getD_some]

/-! ## Packing a batch -/

theorem packFrame_ok {p q : Bytes} (h : packFrame p = .ok q) :
    p.length ≤ maxPayload ∧ q = frame p := by
  unfold packFrame at h
  split at h
  · cases h
  · next hfit =>
      cases h
      exact ⟨Nat.le_of_not_gt hfit, rfl⟩

/-- Packing a batch gives its frames, if every payload fits. -/
theorem mapM_packFrame {payloads packed : List Bytes} (h : payloads.mapM packFrame = .ok packed) :
    Fits payloads ∧ packed = payloads.map frame := by
  induction payloads generalizing packed with
  | nil =>
      cases h
      exact ⟨Fits.nil, rfl⟩
  | cons p ps ih =>
      rw [List.mapM_cons] at h
      cases hp : packFrame p with
      | error e =>
          rw [hp] at h
          cases h
      | ok q =>
          cases hps : ps.mapM packFrame with
          | error e =>
              rw [hp, hps] at h
              cases h
          | ok qs =>
              rw [hp, hps] at h
              cases h
              obtain ⟨hfit, rfl⟩ := packFrame_ok hp
              obtain ⟨hfits, rfl⟩ := ih hps
              refine ⟨?_, rfl⟩
              intro x hx
              rcases List.mem_cons.mp hx with rfl | hx
              · exact hfit
              · exact hfits x hx

theorem mapM_packFrame_of_fits {payloads : List Bytes} (h : Fits payloads) :
    payloads.mapM packFrame = .ok (payloads.map frame) := by
  induction payloads with
  | nil => rfl
  | cons p ps ih =>
      have hp : packFrame p = .ok (frame p) := by
        rw [packFrame, if_neg (Nat.not_lt.mpr (h p List.mem_cons_self))]
      have hps := ih fun q hq => h q (List.mem_cons_of_mem p hq)
      rw [List.mapM_cons, hp, hps]
      rfl

theorem flatten_map_frame (rs : List Bytes) : (rs.map frame).flatten = frames rs :=
  List.flatMap_def.symm

/-! ## Scanning -/

/-- One turn of the loop of `_scan`: `r` is what the file still has to give.
The end of the frame and what is left to read after it. -/
def scanAt (r : Bytes) (size pos : Nat) : Option (Nat × Bytes) :=
  if pos + headerSize ≤ size then
    let header := r.take headerSize
    if header.length < headerSize then none -- file shrank under us
    else
      let (length, crc) := headerUnpack header
      let stop := pos + headerSize + length
      if stop > size then none -- torn tail: header promises bytes we don't have
      else
        let payload := (r.drop headerSize).take length
        if payload.length < length ∨ crc32 payload ≠ crc then none
        else some (stop, (r.drop headerSize).drop length)
  else none

/-- The loop of `_scan` from `pos`, at most `fuel` turns. -/
def scanFrom (size : Nat) : Nat → Nat → Bytes → List Nat
  | 0, _, _ => []
  | fuel + 1, pos, r =>
      match scanAt r size pos with
      | none => []
      | some (stop, r') => stop :: scanFrom size fuel stop r'

/-- `_scan(path, size)` on a file with these bytes. -/
def scan (data : Bytes) (size : Nat) : List Nat := 0 :: scanFrom size size 0 data

/-- A turn of the scan is a turn of the decoder on what the size leaves. -/
theorem scanAt_eq (r : Bytes) (size pos : Nat) :
    scanAt r size pos =
      (frameCode.dec (r.take (size - pos))).map fun b => (pos + b.2, r.drop b.2) := by
  show _ = (frameAt (r.take (size - pos)) 0).map _
  have hlen : (r.take (size - pos)).length = min (size - pos) r.length := List.length_take
  have hhdrlen : (r.take headerSize).length = min headerSize r.length := List.length_take
  unfold scanAt frameAt
  rw [Nat.zero_add, hlen]
  dsimp only
  rw [hhdrlen]
  have hpos : 0 < headerSize := by decide
  by_cases hsize : pos + headerSize ≤ size
  · rw [if_pos hsize]
    by_cases hhdr : min headerSize r.length < headerSize
    · have hno : ¬headerSize ≤ min (size - pos) r.length := by omega
      rw [if_pos hhdr, if_neg hno]
      rfl
    · have hyes : headerSize ≤ min (size - pos) r.length := by omega
      have hslice : slice (r.take (size - pos)) 0 headerSize = r.take headerSize := by
        rw [slice, List.drop_zero, List.take_take, Nat.min_eq_left (by omega)]
      rw [if_neg hhdr, if_pos hyes, hslice]
      generalize (headerUnpack (r.take headerSize)).1 = length
      generalize (headerUnpack (r.take headerSize)).2 = crc
      by_cases hstop : pos + headerSize + length > size
      · have htorn : headerSize + length > min (size - pos) r.length := by omega
        rw [if_pos hstop, if_pos htorn]
        rfl
      · have hbody : slice (r.take (size - pos)) headerSize (headerSize + length) =
            (r.drop headerSize).take length := by
          rw [slice, List.take_take, Nat.min_eq_left (by omega), List.drop_take,
            Nat.add_sub_cancel_left]
        rw [if_neg hstop, hbody, List.length_take, List.length_drop]
        by_cases hshort : headerSize + length > min (size - pos) r.length
        · rw [if_pos hshort, if_pos (Or.inl (by omega))]
          rfl
        · rw [if_neg hshort]
          by_cases hcrc : crc32 ((r.drop headerSize).take length) ≠ crc
          · rw [if_pos hcrc, if_pos (Or.inr hcrc)]
            rfl
          · have hfull : ¬(min length (r.length - headerSize) < length ∨
                crc32 ((r.drop headerSize).take length) ≠ crc) := by
              rintro (h | h)
              · omega
              · exact hcrc h
            rw [if_neg hcrc, if_neg hfull, List.drop_drop]
            simp only [Option.map_some, Nat.add_assoc]
  · have hno : ¬headerSize ≤ min (size - pos) r.length := by omega
    rw [if_neg hsize, if_neg hno]
    rfl

theorem scanFrom_eq (size fuel pos : Nat) (r : Bytes) :
    scanFrom size fuel pos r =
      (frameCode.marksFrom pos (frameCode.itemsFuel fuel (r.take (size - pos)))).tail := by
  induction fuel generalizing pos r with
  | zero => rfl
  | succ fuel ih =>
      rw [scanFrom, scanAt_eq, FrameCode.itemsFuel]
      cases hdec : frameCode.dec (r.take (size - pos)) with
      | none => rfl
      | some b =>
          obtain ⟨p, n⟩ := b
          have hn : n = (frameCode.enc p).length := (frameCode.enc_dec _ _ _ hdec).2.2
          have hrest : (r.drop n).take (size - (pos + n)) = (r.take (size - pos)).drop n := by
            rw [List.drop_take, Nat.sub_add_eq]
          simp only [Option.map_some]
          rw [ih, hrest, FrameCode.marksFrom, List.tail_cons, ← hn]
          cases frameCode.itemsFuel fuel ((r.take (size - pos)).drop n) <;> rfl

/-- `_scan` indexes the records of the longest intact prefix of the first `size`
bytes. -/
theorem scan_eq (data : Bytes) (size : Nat) :
    scan data size = marks (records (data.take size)) := by
  have hfuel : frameCode.itemsFuel size (data.take size) = records (data.take size) := by
    have hlen : (data.take size).length ≤ size := List.length_take_le size data
    have hstable := FrameCode.itemsFuel_stable (c := frameCode) (data.take size).length
      (size - (data.take size).length) (data.take size) (Nat.le_refl _)
    rwa [Nat.add_sub_cancel' hlen] at hstable
  rw [scan, scanFrom_eq, Nat.sub_zero, hfuel]
  cases records (data.take size) <;> rfl

theorem scan_length (data : Bytes) : scan data data.length = marks (records data) := by
  rw [scan_eq, List.take_length]

/-! ## The index -/

/-- `DurableStream.next_offset`: the number of records indexed. -/
def nextOffset (index : List Nat) : Nat := index.length - 1

/-- `index[-1]`. -/
def lastMark (index : List Nat) : Nat := index.getLastD 0

@[simp] theorem nextOffset_marks (rs : List Bytes) : nextOffset (marks rs) = rs.length := by
  rw [nextOffset, marks, FrameCode.marks_length, Nat.add_sub_cancel]

@[simp] theorem lastMark_marks (rs : List Bytes) : lastMark (marks rs) = (frames rs).length := by
  rw [lastMark, marks, List.getLastD_eq_getLast?, FrameCode.marks_getLast?, Option.getD_some]
  rfl

/-- The end of each frame of a batch appended at `stop`, as the loop after a
successful sync computes them. -/
def frameEnds (stop : Nat) : List Bytes → List Nat
  | [] => []
  | p :: ps => (stop + (frame p).length) :: frameEnds (stop + (frame p).length) ps

theorem frameEnds_eq (stop : Nat) (ps : List Bytes) :
    frameEnds stop ps = (frameCode.marksFrom stop ps).tail := by
  induction ps generalizing stop with
  | nil => rfl
  | cons p ps ih =>
      rw [frameEnds, ih, FrameCode.marksFrom, List.tail_cons]
      show _ = frameCode.marksFrom (stop + (frame p).length) ps
      cases ps <;> rfl

/-- The ends of a batch extend the index of the records before it. -/
theorem marks_append_frameEnds (rs ps : List Bytes) :
    marks rs ++ frameEnds (lastMark (marks rs)) ps = marks (rs ++ ps) := by
  rw [frameEnds_eq, lastMark_marks]
  exact (FrameCode.marks_append rs ps).symm

/-! ## Walking a log -/

/-- The records of an index, each with its end. -/
theorem zip_marks (rs : List Bytes) :
    rs.zip (marks rs).tail = rs.mapIdx fun i p => (p, (frames (rs.take (i + 1))).length) := by
  apply List.ext_getElem
  · simp [marks]
  · intro i hi _
    have hlt : i < rs.length := by
      rw [List.length_zip] at hi
      omega
    have hmark := marks_getElem? rs (i + 1) hlt
    obtain ⟨hlen, hget⟩ := List.getElem?_eq_some_iff.mp hmark
    rw [List.getElem_zip, List.getElem_mapIdx, List.getElem_tail, hget]

/-- A log that starts with whole frames is walked over these first. -/
theorem iterFrames_frames_append {rs : List Bytes} (h : Fits rs) (t : Bytes) :
    iterFrames (frames rs ++ t) =
      (rs.mapIdx fun i p => (p, (frames (rs.take (i + 1))).length)) ++
        (iterFrames t).map fun r => (r.1, (frames rs).length + r.2) := by
  have hitems : frameCode.items (frames rs ++ t) = rs ++ frameCode.items t :=
    records_frames_append h t
  have hlen : rs.length = (frameCode.marks rs).tail.length := by simp
  have hne : frameCode.marks rs ≠ [] := by
    rw [← List.length_pos_iff, FrameCode.marks_length]
    omega
  have hshift : (frameCode.marksFrom (frames rs).length (frameCode.items t)).tail =
      (frameCode.marks (frameCode.items t)).tail.map ((frames rs).length + ·) := by
    rw [List.map_tail]
    exact congrArg List.tail (FrameCode.marksFrom_add (c := frameCode) (frames rs).length 0 _)
  have hsnd : (fun r : Bytes × Nat => (r.1, (frames rs).length + r.2)) =
      Prod.map id ((frames rs).length + ·) := rfl
  rw [iterFrames_eq, hitems, FrameCode.marks_append, List.tail_append_of_ne_nil hne,
    List.zip_append hlen, iterFrames_eq t, hsnd, ← List.zip_map_right, ← hshift]
  exact congrArg (· ++ _) (zip_marks rs)

/-- The last position of the walk is the end of the records it found. -/
theorem iterFrames_lastPos (d : Bytes) :
    ((iterFrames d).map Prod.snd).getLastD 0 = (frames (records d)).length := by
  have hcons : marks (records d) = 0 :: (marks (records d)).tail := by
    cases records d <;> rfl
  rw [iterFrames_ends, ← lastMark_marks, lastMark, hcons, List.getLastD_cons]
  rfl

/-- The frame format round-trips, and what the walk finds is canonical. -/
theorem iterFrames_packFrame :
    (∀ payloads : List Bytes, (∀ p ∈ payloads, p.length ≤ 0xFFFFFFFF) → ∀ t : Bytes,
      ∃ packed, payloads.mapM packFrame = .ok packed ∧
        iterFrames (packed.flatten ++ t) =
          (payloads.mapIdx fun i p => (p, (packed.take (i + 1)).flatten.length)) ++
            (iterFrames t).map fun r => (r.1, packed.flatten.length + r.2)) ∧
    (∀ d : Bytes, ∃ packed, ((iterFrames d).map Prod.fst).mapM packFrame = .ok packed ∧
      packed.flatten = d.take (((iterFrames d).map Prod.snd).getLastD 0) ∧
      ∀ payloads packed' : List Bytes, payloads.mapM packFrame = .ok packed' →
        packed'.flatten <+: d → packed'.flatten <+: packed.flatten) ∧
    ∀ p : Bytes, 0xFFFFFFFF < p.length → packFrame p = .error (.payloadTooLarge p.length) := by
  refine ⟨?_, ?_, ?_⟩
  · intro payloads hfit t
    refine ⟨payloads.map frame, mapM_packFrame_of_fits hfit, ?_⟩
    simp only [← List.map_take, flatten_map_frame]
    exact iterFrames_frames_append hfit t
  · intro d
    have hfound : (iterFrames d).map Prod.fst = records d := iterFrames_payloads d
    have hfront := frames_records_isPrefix d
    refine ⟨(records d).map frame, ?_, ?_, ?_⟩
    · rw [hfound, mapM_packFrame_of_fits (Fits.records d)]
    · rw [flatten_map_frame, iterFrames_lastPos]
      exact List.prefix_iff_eq_take.mp hfront
    · intro payloads packed' hpack hd
      obtain ⟨hfit, rfl⟩ := mapM_packFrame hpack
      rw [flatten_map_frame] at hd ⊢
      rw [flatten_map_frame]
      exact frames_mono (isPrefix_records hfit hd)
  · intro p hp
    exact if_pos hp

/-! ## Reading -/

/-- `DurableStream.read` on a handle with this index, whose file has these
bytes.  `isOpen` is false once the file is closed.  However the loop over
`file.read` splits the range, it ends with all of its bytes or at the end of the
file. -/
def read (name : Name) (isOpen : Bool) (data : Bytes) (index : List Nat) (offset : Int)
    (stop : Option Int) : Except Error (List Bytes) :=
  let last : Int := nextOffset index
  let stop := match stop with
    | none => last
    | some e => min e last
  let offset := max offset 0
  if offset ≥ stop then .ok []
  else if ¬ isOpen then .error (.streamClosed name)
  else
    let startByte := index.getD offset.toNat 0
    let want := index.getD stop.toNat 0 - startByte
    let got := (data.drop startByte).take want
    if got.length < want then .error (.logTooShort name)
    else
      let found := (iterFrames got).map Prod.fst
      if (found.length : Int) ≠ stop - offset then
        .error (.badChecksum name (offset + found.length))
      else .ok found

/-- The end of the range `read` serves from `n` records. -/
def readStop (n : Nat) : Option Int → Nat
  | none => n
  | some e => (min e n).toNat

theorem readStop_le (n : Nat) (stop : Option Int) : readStop n stop ≤ n := by
  cases stop with
  | none => exact Nat.le_refl n
  | some e =>
      rw [readStop]
      omega

/-- `read` in terms of the clamped range. -/
theorem read_eq (name : Name) (isOpen : Bool) (data : Bytes) (index : List Nat) (offset : Int)
    (stop : Option Int) {lo hi start want : Nat} {got : Bytes} (hlo : lo = (max offset 0).toNat)
    (hhi : hi = readStop (nextOffset index) stop) (hstart : start = index.getD lo 0)
    (hwant : want = index.getD hi 0 - start) (hgot : got = (data.drop start).take want) :
    read name isOpen data index offset stop =
      if hi ≤ lo then .ok []
      else if ¬ isOpen then .error (.streamClosed name)
      else if got.length < want then .error (.logTooShort name)
      else if (records got).length ≠ hi - lo then
        .error (.badChecksum name ((lo + (records got).length : Nat) : Int))
      else .ok (records got) := by
  have hstop : (match stop with
      | none => ((nextOffset index : Nat) : Int)
      | some e => min e (nextOffset index : Nat)).toNat = hi := by
    rw [hhi]
    cases stop <;> rfl
  have hfound : (iterFrames got).map Prod.fst = records got := iterFrames_payloads got
  unfold read
  dsimp only
  generalize (match stop with
      | none => ((nextOffset index : Nat) : Int)
      | some e => min e (nextOffset index : Nat)) = e at hstop
  by_cases hempty : max offset 0 ≥ e
  · rw [if_pos hempty, if_pos (by omega)]
  · have hlt : ¬hi ≤ lo := by omega
    rw [if_neg hempty, if_neg hlt, ← hlo, hstop, ← hstart, ← hwant, ← hgot, hfound]
    split
    · rfl
    · split
      · rfl
      · by_cases hcount : (records got).length = hi - lo
        · rw [if_neg (by omega), if_neg (by omega)]
        · rw [if_pos (by omega), if_pos hcount, show max offset 0 = lo by omega]
          rfl

/-- The records of an index between two of its entries, framed, are as long as
the bytes between these. -/
theorem frames_range {rs : List Bytes} {lo hi : Nat} (hle : lo ≤ hi) (hhi : hi ≤ rs.length) :
    frames (rs.take lo) ++ frames ((rs.take hi).drop lo) = frames (rs.take hi) ∧
      (marks rs).getD hi 0 - (marks rs).getD lo 0 = (frames ((rs.take hi).drop lo)).length := by
  have htake : rs.take lo = (rs.take hi).take lo := by
    rw [List.take_take, Nat.min_eq_left hle]
  have hmid : frames (rs.take lo) ++ frames ((rs.take hi).drop lo) = frames (rs.take hi) := by
    rw [← frames_append, htake, List.take_append_drop]
  refine ⟨hmid, ?_⟩
  rw [marks_getD hhi, marks_getD (by omega), ← hmid, List.length_append, Nat.add_sub_cancel_left]

/-- An open handle whose index is that of records at the front of its file reads
exactly the records asked for. -/
theorem read_marks (name : Name) {data : Bytes} {rs : List Bytes} (hfit : Fits rs)
    (hdata : frames rs <+: data) (offset : Int) (stop : Option Int) :
    read name true data (marks rs) offset stop =
      .ok ((rs.take (readStop rs.length stop)).drop (max offset 0).toNat) := by
  obtain ⟨lo, hlo⟩ : ∃ lo : Nat, lo = (max offset 0).toNat := ⟨_, rfl⟩
  obtain ⟨hi, hhi⟩ : ∃ hi : Nat, hi = readStop rs.length stop := ⟨_, rfl⟩
  have hle : hi ≤ rs.length := hhi ▸ readStop_le rs.length stop
  have hstop : hi = readStop (nextOffset (marks rs)) stop := by rw [nextOffset_marks, hhi]
  rw [read_eq name true data (marks rs) offset stop hlo hstop rfl rfl rfl, ← hlo, ← hhi]
  by_cases hempty : hi ≤ lo
  · rw [if_pos hempty, List.drop_eq_nil_of_le (by rw [List.length_take]; omega)]
  · -- the two entries of the index delimit the frames of the records asked for
    obtain ⟨hmid, hwant⟩ := frames_range (Nat.le_of_not_le hempty) hle
    have hgot : (data.drop ((marks rs).getD lo 0)).take (frames ((rs.take hi).drop lo)).length =
        frames ((rs.take hi).drop lo) := by
      have htake := List.take_prefix hi rs
      obtain ⟨t, ht⟩ := (frames_mono htake).trans hdata
      rw [marks_getD (by omega), ← ht, ← hmid, List.append_assoc, List.drop_left, List.take_left]
    have hmem : Fits ((rs.take hi).drop lo) := hfit.of_subset fun p hp =>
      List.mem_of_mem_take (List.mem_of_mem_drop hp)
    rw [if_neg hempty, if_neg (by simp), hwant, hgot, if_neg (Nat.lt_irrefl _), records_frames hmem,
      if_neg]
    rw [Decidable.not_not, List.length_drop, List.length_take]
    omega

/-- A handle whose file is closed reads only empty ranges. -/
theorem read_closed (name : Name) (data : Bytes) (rs : List Bytes) (offset : Int)
    (stop : Option Int) :
    read name false data (marks rs) offset stop =
      if readStop rs.length stop ≤ (max offset 0).toNat then .ok []
      else .error (.streamClosed name) := by
  rw [read_eq name false data (marks rs) offset stop rfl rfl rfl rfl rfl, nextOffset_marks]
  rfl

/-! ## Batches in a log -/

/-- Index entries of records at the front are the same in a longer log. -/
theorem marks_mono {rs ps : List Bytes} (h : rs <+: ps) : marks rs <+: marks ps := by
  obtain ⟨t, rfl⟩ := h
  exact ⟨_, (FrameCode.marks_append (c := frameCode) rs t).symm⟩

/-- The batch `b` is in a log with these bytes, from record `start` on. -/
def Held (d : Bytes) (start : Nat) (b : List Bytes) : Prop :=
  ∃ rs, Fits rs ∧ rs.length = start + b.length ∧ rs.drop start = b ∧ frames rs <+: d

/-- A handle with this index returns the batch `b` for these records. -/
def Serves (index : List Nat) (d : Bytes) (start : Nat) (b : List Bytes) : Prop :=
  ∃ rs, Fits rs ∧ rs.length = start + b.length ∧ rs.drop start = b ∧ frames rs <+: d ∧
    marks rs <+: index

variable {d d' : Bytes} {index index' : List Nat} {start : Nat} {b rs ps : List Bytes}

theorem Held.mono (h : Held d start b) (hd : d <+: d') : Held d' start b := by
  obtain ⟨rs, hfit, hlen, hdrop, hframes⟩ := h
  exact ⟨rs, hfit, hlen, hdrop, hframes.trans hd⟩

theorem Held.records (h : Held d start b) :
    ((Durastream.records d).take (start + b.length)).drop start = b := by
  obtain ⟨rs, hfit, hlen, hdrop, hframes⟩ := h
  rw [← hlen, ← List.prefix_iff_eq_take.mp (isPrefix_records hfit hframes), hdrop]

theorem Held.take (h : Held d start b) {k : Nat}
    (hk : (frames (Durastream.records d)).length ≤ k) : Held (d.take k) start b := by
  obtain ⟨rs, hfit, hlen, hdrop, hframes⟩ := h
  have hle := (frames_mono (isPrefix_records hfit hframes)).length_le
  exact ⟨rs, hfit, hlen, hdrop, List.prefix_take_iff.mpr ⟨hframes, Nat.le_trans hle hk⟩⟩

/-- A scan of the log finds the batch. -/
theorem Held.serves (h : Held d start b) : Serves (marks (Durastream.records d)) d start b := by
  obtain ⟨rs, hfit, hlen, hdrop, hframes⟩ := h
  exact ⟨rs, hfit, hlen, hdrop, hframes, marks_mono (isPrefix_records hfit hframes)⟩

theorem Serves.mono (h : Serves index d start b) (hd : d <+: d') : Serves index d' start b := by
  obtain ⟨rs, hfit, hlen, hdrop, hframes, hmarks⟩ := h
  exact ⟨rs, hfit, hlen, hdrop, hframes.trans hd, hmarks⟩

/-- Of two lists of records at the front of a log, the shorter is the front of
the longer. -/
theorem isPrefix_of_frames (hrs : Fits rs) (hps : Fits ps) (hr : frames rs <+: d)
    (hp : frames ps <+: d) (hlen : rs.length ≤ ps.length) : rs <+: ps :=
  List.prefix_of_prefix_length_le (isPrefix_records hrs hr) (isPrefix_records hps hp) hlen

/-- A read of records that an index has is one on the index of these records. -/
theorem read_of_marks_isPrefix (name : Name) {isOpen : Bool} {data : Bytes} {n : Nat}
    (hmarks : marks rs <+: index) (hn : n ≤ rs.length) (hstart : start ≤ n) :
    read name isOpen data index start (some n) =
      read name isOpen data (marks rs) start (some n) := by
  obtain ⟨t, rfl⟩ := hmarks
  have hlen : (marks rs).length = rs.length + 1 := FrameCode.marks_length (c := frameCode) rs
  have hstop : min (n : Int) (nextOffset (marks rs ++ t) : Nat) = n := by
    rw [nextOffset, List.length_append, hlen]
    omega
  have hstop' : min (n : Int) (nextOffset (marks rs) : Nat) = n := by
    rw [nextOffset_marks]
    omega
  have hget : ∀ i ≤ rs.length, (marks rs ++ t).getD i 0 = (marks rs).getD i 0 := by
    intro i hi
    rw [List.getD_eq_getElem?_getD, List.getD_eq_getElem?_getD,
      List.getElem?_append_left (by omega)]
  unfold read
  dsimp only
  rw [hstop, hstop', show (max (start : Int) 0).toNat = start by omega,
    show ((n : Nat) : Int).toNat = n by omega, hget start (by omega), hget n hn]

/-- What is served is read. -/
theorem Serves.read (h : Serves index d start b) (name : Name) :
    Durastream.read name true d index start (some (start + b.length : Nat)) = .ok b := by
  obtain ⟨rs, hfit, hlen, hdrop, hframes, hmarks⟩ := h
  rw [← hlen, read_of_marks_isPrefix name hmarks (Nat.le_refl _) (by omega),
    read_marks name hfit hframes, readStop,
    show (min (rs.length : Int) rs.length).toNat = rs.length by omega,
    List.take_length, show (max (start : Int) 0).toNat = start by omega, hdrop]

end Durastream
