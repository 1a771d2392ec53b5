import Durastream.Stream.Log

/-!
# Reading a log that has changed

The index of a handle is that of the records its log had, but nothing keeps other
programs from writing the file.  `readChunked` is `read` with its loop over
`file.read`, which may return fewer bytes than asked for.  However the system
splits the range, `readChunked` is `read` (`readChunked_eq`).

`read` decodes the range again and compares the number of records with the index.
It does not compare where they end.  So bytes that hold the right number of
intact frames with other boundaries pass for the records of the index: the range
is `Reframed`.  `read_faithful_iff` says that these are the only bytes that do.
-/

namespace Durastream

/-! ## Short reads -/

/-- The loop over `file.read` in `read`, at most `fuel` turns.  `rest` is what the
file has from the position on, `left` is `want - got`, and `sizes` says how much
the system gives, which is at least a byte before the end of the file.  The
chunks, or `none` at the end of the file. -/
def readLoop (sizes : Nat → Nat) : Nat → Bytes → Nat → Option (List Bytes)
  | 0, _, _ => some []
  | fuel + 1, rest, left =>
      if left = 0 then some []
      else
        let chunk := rest.take (min (sizes left + 1) left)
        if chunk = [] then none
        else (readLoop sizes fuel (rest.drop chunk.length) (left - chunk.length)).map (chunk :: ·)

/-- `DurableStream.read` with the loop that fills the range. -/
def readChunked (name : Name) (isOpen : Bool) (sizes : Nat → Nat) (data : Bytes)
    (index : List Nat) (offset : Int) (stop : Option Int) : Except Error (List Bytes) :=
  let last : Int := nextOffset index
  let stop := match stop with
    | none => last
    | some e => min e last
  let offset := max offset 0
  if offset ≥ stop then .ok []
  else if ¬ isOpen then .error (.streamClosed name)
  else
    let startByte := index.getD offset.toNat 0
    let want := index.getD stop.toNat 0 - startByte
    match readLoop sizes want (data.drop startByte) want with
    | none => .error (.logTooShort name)
    | some chunks =>
        let found := (iterFrames chunks.flatten).map Prod.fst
        if (found.length : Int) ≠ stop - offset then
          .error (.badChecksum name (offset + found.length))
        else .ok found

/-- The loop ends with all of the range or at the end of the file. -/
theorem readLoop_eq (sizes : Nat → Nat) (fuel : Nat) (rest : Bytes) (left : Nat)
    (h : left ≤ fuel) :
    (readLoop sizes fuel rest left).map List.flatten =
      if rest.length < left then none else some (rest.take left) := by
  induction fuel generalizing rest left with
  | zero =>
      cases Nat.le_zero.mp h
      rfl
  | succ fuel ih =>
      rw [readLoop]
      dsimp only
      by_cases hleft : left = 0
      · subst hleft
        rw [if_pos rfl, if_neg (Nat.not_lt_zero _)]
        rfl
      · rw [if_neg hleft]
        obtain ⟨n, hn⟩ : ∃ n, n = min (sizes left + 1) left := ⟨_, rfl⟩
        rw [← hn]
        have hlen : (rest.take n).length = min n rest.length := List.length_take
        by_cases hend : rest.take n = []
        · have hzero : (rest.take n).length = 0 := by rw [hend]; rfl
          rw [if_pos hend, if_pos (by omega)]
          rfl
        · have hpos : 0 < (rest.take n).length := List.length_pos_iff.mpr hend
          have hle : n ≤ left := by omega
          rw [if_neg hend, Option.map_map]
          have hcons : List.flatten ∘ (rest.take n :: ·) = (rest.take n ++ ·) ∘ List.flatten := rfl
          rw [hcons, ← Option.map_map, ih _ _ (by omega), List.length_drop]
          by_cases hshort : rest.length < left
          · rw [if_pos hshort, if_pos (by omega)]
            rfl
          · have hfull : (rest.take n).length = n := by omega
            rw [if_neg hshort, if_neg (by omega), hfull, Option.map_some, ← List.take_add,
              Nat.add_sub_cancel' hle]

/-- Short reads change nothing. -/
theorem readChunked_eq (name : Name) (isOpen : Bool) (sizes : Nat → Nat) (data : Bytes)
    (index : List Nat) (offset : Int) (stop : Option Int) :
    readChunked name isOpen sizes data index offset stop =
      read name isOpen data index offset stop := by
  have hfilled : ∀ start want : Nat, ∀ e : Int,
      (match readLoop sizes want (data.drop start) want with
      | none => .error (.logTooShort name)
      | some chunks =>
          let found := (iterFrames chunks.flatten).map Prod.fst
          if (found.length : Int) ≠ e - max offset 0 then
            .error (.badChecksum name (max offset 0 + found.length))
          else .ok found) =
      let got := (data.drop start).take want
      if got.length < want then Except.error (Error.logTooShort name)
      else
        let found := (iterFrames got).map Prod.fst
        if (found.length : Int) ≠ e - max offset 0 then
          .error (.badChecksum name (max offset 0 + found.length))
        else .ok found := by
    intro start want e
    have hloop := readLoop_eq sizes want (data.drop start) want (Nat.le_refl _)
    have hlen : ((data.drop start).take want).length = min want (data.drop start).length :=
      List.length_take
    dsimp only
    by_cases hshort : (data.drop start).length < want
    · rw [if_pos hshort, Option.map_eq_none_iff] at hloop
      rw [hloop, if_pos (by omega)]
    · rw [if_neg hshort, Option.map_eq_some_iff] at hloop
      obtain ⟨chunks, hchunks, hflat⟩ := hloop
      rw [hchunks, if_neg (by omega), ← hflat]
  cases stop with
  | none => simp only [readChunked, read, hfilled]
  | some e => simp only [readChunked, read, hfilled]

/-! ## Boundaries -/

theorem records_eq_nil_iff {d : Bytes} : records d = [] ↔ frameAt d 0 = none := by
  constructor
  · intro h
    cases hdec : frameCode.dec d with
    | none => exact hdec
    | some b =>
        have hcons := FrameCode.items_of_dec hdec
        rw [show frameCode.items d = [] from h] at hcons
        cases hcons
  · exact fun h => FrameCode.items_of_dec_none (c := frameCode) h

/-- Frames are as long as their payloads say. -/
theorem frames_length_congr {ps qs : List Bytes} (h : ps.map List.length = qs.map List.length) :
    (frames ps).length = (frames qs).length := by
  have hsum : ∀ rs : List Bytes,
      (frames rs).length = ((rs.map List.length).map (headerSize + ·)).sum := by
    intro rs
    induction rs with
    | nil => rfl
    | cons p rs ih =>
        show (frame p ++ frames rs).length = _
        rw [List.length_append, frame_length, ih]
        rfl
  rw [hsum, hsum, h]

/-- Frames that end at the same places have payloads of the same lengths. -/
theorem map_length_eq_of_ends {ps qs : List Bytes} (hlen : ps.length = qs.length)
    (h : ∀ k < ps.length, (frames (ps.take (k + 1))).length = (frames (qs.take (k + 1))).length) :
    ps.map List.length = qs.map List.length := by
  induction ps generalizing qs with
  | nil => rw [List.length_eq_zero_iff.mp hlen.symm]
  | cons p ps ih =>
      cases qs with
      | nil => cases hlen
      | cons q qs =>
          have hcons : ∀ (r : Bytes) (rs : List Bytes) (k : Nat),
              (frames ((r :: rs).take (k + 1))).length =
                headerSize + r.length + (frames (rs.take k)).length := by
            intro r rs k
            show (frame r ++ frames (rs.take k)).length = _
            rw [List.length_append, frame_length]
          have hhead := h 0 (Nat.succ_pos _)
          rw [hcons, hcons, List.take_zero, List.take_zero] at hhead
          have hpq : p.length = q.length := by omega
          have htail : ∀ k < ps.length,
              (frames (ps.take (k + 1))).length = (frames (qs.take (k + 1))).length := by
            intro k hk
            have hnext := h (k + 1) (Nat.succ_lt_succ hk)
            rw [hcons, hcons] at hnext
            omega
          rw [List.map_cons, List.map_cons, hpq, ih (Nat.succ.inj hlen) htail]

/-! ## What passes for the records of the index -/

/-- What `read` promises of a range: the records it returns are, framed again,
the bytes that are now there, with the boundaries of the index, and an exception
is a `CorruptStream`. -/
def Faithful (data : Bytes) (index : List Nat) (lo hi : Nat) : Except Error (List Bytes) → Prop
  | .ok ps =>
      ps.length = hi - lo ∧ ∃ packed, ps.mapM packFrame = .ok packed ∧
        packed.flatten = slice data (index.getD lo 0) (index.getD hi 0) ∧
        ∀ k < ps.length,
          index[lo + k + 1]? = some (index.getD lo 0 + (packed.take (k + 1)).flatten.length)
  | .error (.logTooShort _) => True
  | .error (.badChecksum _ _) => True
  | .error _ => False

/-- The bytes that the index gives to the records from `lo` to `hi` hold as many
intact frames as that, and no more, but with other boundaries. -/
def Reframed (rs : List Bytes) (data : Bytes) (lo hi : Nat) : Prop :=
  ∃ pre ps t post, data = pre ++ (frames ps ++ t) ++ post ∧
    pre.length = (frames (rs.take lo)).length ∧
    (frames ps ++ t).length = (frames ((rs.take hi).drop lo)).length ∧
    Fits ps ∧ ps.length = hi - lo ∧ frameAt t 0 = none ∧
    ps.map List.length ≠ ((rs.take hi).drop lo).map List.length

variable {rs : List Bytes} {data : Bytes} {lo hi : Nat}

/-- A reframed range is as long as the index says and has the right number of
records. -/
theorem Reframed.records (h : Reframed rs data lo hi) :
    ∃ ps, Durastream.records ((data.drop (frames (rs.take lo)).length).take
        (frames ((rs.take hi).drop lo)).length) = ps ∧ ps.length = hi - lo ∧
      (frames ((rs.take hi).drop lo)).length ≤ (data.drop (frames (rs.take lo)).length).length ∧
      ps.map List.length ≠ ((rs.take hi).drop lo).map List.length := by
  obtain ⟨pre, ps, t, post, rfl, hpre, hlen, hfit, hcount, hend, hne⟩ := h
  have hdrop : (pre ++ (frames ps ++ t) ++ post).drop (frames (rs.take lo)).length =
      frames ps ++ t ++ post := by
    rw [← hpre, List.append_assoc, List.drop_left]
  refine ⟨ps, ?_, hcount, ?_, hne⟩
  · rw [hdrop, ← hlen, List.take_left, records_frames_append hfit,
      records_eq_nil_iff.mpr hend, List.append_nil]
  · rw [hdrop, ← hlen]
    simp only [List.length_append]
    omega

/-- Bytes with the right number of records have their boundaries or are a
reframed range. -/
theorem Reframed.intro {got : Bytes}
    (hgot : got = (data.drop (frames (rs.take lo)).length).take
      (frames ((rs.take hi).drop lo)).length)
    (hlen : got.length = (frames ((rs.take hi).drop lo)).length)
    (hlt : lo < hi) (hcount : (Durastream.records got).length = hi - lo)
    (hne : (Durastream.records got).map List.length ≠ ((rs.take hi).drop lo).map List.length) :
    Reframed rs data lo hi := by
  obtain ⟨t, ht⟩ := frames_records_isPrefix got
  have hstart : (frames (rs.take lo)).length ≤ data.length := by
    have hne : got ≠ [] := by
      rintro rfl
      rw [records_nil] at hcount
      cases Nat.sub_ne_zero_of_lt hlt hcount.symm
    have hpos := List.length_pos_iff.mpr hne
    rw [hgot, List.length_take, List.length_drop] at hpos
    omega
  have hrest := records_frames_append (Fits.records got) t
  rw [ht] at hrest
  refine ⟨data.take (frames (rs.take lo)).length, Durastream.records got, t,
    (data.drop (frames (rs.take lo)).length).drop (frames ((rs.take hi).drop lo)).length,
    ?_, ?_, ?_, Fits.records got, hcount, ?_, hne⟩
  · rw [ht, hgot, List.append_assoc, List.take_append_drop, List.take_append_drop]
  · rw [List.length_take, Nat.min_eq_left hstart]
  · rw [ht, hlen]
  · exact records_eq_nil_iff.mp
      (List.append_cancel_left (hrest.symm.trans (List.append_nil _).symm))

/-- Where the `k`-th record of a range ends. -/
theorem frames_take_range {k : Nat} (hk : lo + k ≤ hi) (hhi : hi ≤ rs.length) :
    (frames (rs.take (lo + k))).length =
      (frames (rs.take lo)).length + (frames (((rs.take hi).drop lo).take k)).length := by
  obtain ⟨hsplit, -⟩ := frames_range (Nat.le_add_right lo k) (Nat.le_trans hk hhi)
  have htake : ((rs.take hi).drop lo).take k = (rs.take (lo + k)).drop lo := by
    rw [List.take_drop, List.take_take, Nat.min_eq_left hk]
  rw [htake, ← hsplit, List.length_append]

/-- Records with the boundaries of the index are faithful to the range. -/
theorem Faithful.intro {got : Bytes} (hlt : lo < hi) (hhi : hi ≤ rs.length)
    (hgot : got = (data.drop (frames (rs.take lo)).length).take
      (frames ((rs.take hi).drop lo)).length)
    (hlen : got.length = (frames ((rs.take hi).drop lo)).length)
    (heq : (records got).map List.length = ((rs.take hi).drop lo).map List.length) :
    Faithful data (marks rs) lo hi (.ok (records got)) := by
  obtain ⟨hmid, -⟩ := frames_range (Nat.le_of_lt hlt) hhi
  have hcount : (records got).length = ((rs.take hi).drop lo).length := by
    have h := congrArg List.length heq
    rwa [List.length_map, List.length_map] at h
  have hrange : ((rs.take hi).drop lo).length = hi - lo := by
    rw [List.length_drop, List.length_take, Nat.min_eq_left hhi]
  have hwhole : frames (records got) = got :=
    (frames_records_isPrefix got).eq_of_length ((frames_length_congr heq).trans hlen.symm)
  refine ⟨hcount.trans hrange, (records got).map frame,
    mapM_packFrame_of_fits (Fits.records got), ?_, ?_⟩
  · rw [flatten_map_frame, hwhole, marks_getD (by omega), marks_getD hhi, slice, List.drop_take,
      ← hmid, List.length_append, Nat.add_sub_cancel_left]
    exact hgot
  · intro k hk
    have hends : (frames ((records got).take (k + 1))).length =
        (frames (((rs.take hi).drop lo).take (k + 1))).length := by
      apply frames_length_congr
      rw [List.map_take, List.map_take, heq]
    have hend : lo + (k + 1) ≤ hi := by omega
    rw [Nat.add_assoc, marks_getElem? rs _ (by omega), marks_getD (by omega), ← List.map_take,
      flatten_map_frame, hends, frames_take_range hend hhi]

/-- Records faithful to a range have its boundaries. -/
theorem Faithful.map_length {ps : List Bytes} (hhi : hi ≤ rs.length)
    (h : Faithful data (marks rs) lo hi (.ok ps)) :
    ps.map List.length = ((rs.take hi).drop lo).map List.length := by
  obtain ⟨hcount, packed, hpack, -, hends⟩ := h
  obtain ⟨-, rfl⟩ := mapM_packFrame hpack
  have hrange : ((rs.take hi).drop lo).length = hi - lo := by
    rw [List.length_drop, List.length_take, Nat.min_eq_left hhi]
  refine map_length_eq_of_ends (hcount.trans hrange.symm) fun k hk => ?_
  have hend := hends k hk
  have hk' : lo + (k + 1) ≤ hi := by omega
  rw [Nat.add_assoc, marks_getElem? rs _ (by omega), marks_getD (by omega), ← List.map_take,
    flatten_map_frame, frames_take_range hk' hhi, Option.some.injEq] at hend
  exact (Nat.add_left_cancel hend).symm

/-- However the file was changed and however its reads are split, a read of a
nonempty range keeps its promise unless the range has been reframed. -/
theorem read_faithful_iff (name : Name) (isOpen : Bool) (sizes : Nat → Nat) (data : Bytes)
    (offset : Int) (stop : Option Int)
    (hrange : (max offset 0).toNat < readStop rs.length stop) :
    Faithful data (marks rs) (max offset 0).toNat (readStop rs.length stop)
        (readChunked name isOpen sizes data (marks rs) offset stop) ↔
      isOpen = true ∧ ¬Reframed rs data (max offset 0).toNat (readStop rs.length stop) := by
  obtain ⟨lo, hlo⟩ : ∃ lo : Nat, lo = (max offset 0).toNat := ⟨_, rfl⟩
  obtain ⟨hi, hhi⟩ : ∃ hi : Nat, hi = readStop rs.length stop := ⟨_, rfl⟩
  have hle : hi ≤ rs.length := hhi ▸ readStop_le rs.length stop
  have hstop : hi = readStop (nextOffset (marks rs)) stop := by rw [nextOffset_marks, hhi]
  rw [readChunked_eq, ← hlo, ← hhi]
  rw [← hlo, ← hhi] at hrange
  obtain ⟨-, hwant⟩ := frames_range (Nat.le_of_lt hrange) hle
  obtain ⟨got, hgot⟩ : ∃ got, got = (data.drop (frames (rs.take lo)).length).take
      (frames ((rs.take hi).drop lo)).length := ⟨_, rfl⟩
  have hstart : (frames (rs.take lo)).length = (marks rs).getD lo 0 := (marks_getD (by omega)).symm
  rw [read_eq name isOpen data (marks rs) offset stop hlo hstop hstart
    (by rw [hstart]; exact hwant.symm) hgot, if_neg (by omega)]
  cases isOpen with
  | false => exact ⟨False.elim, fun h => by cases h.1⟩
  | true =>
      rw [if_neg (by simp)]
      by_cases hshort : got.length < (frames ((rs.take hi).drop lo)).length
      · rw [if_pos hshort]
        refine ⟨fun _ => ⟨rfl, fun h => ?_⟩, fun _ => trivial⟩
        obtain ⟨ps, -, -, henough, -⟩ := h.records
        rw [hgot, List.length_take] at hshort
        omega
      · rw [if_neg hshort]
        by_cases hcount : (records got).length = hi - lo
        · rw [if_neg (not_not.mpr hcount)]
          constructor
          · refine fun h => ⟨rfl, fun hre => ?_⟩
            obtain ⟨ps, hps, -, -, hne⟩ := hre.records
            rw [← hgot] at hps
            exact hne (hps ▸ h.map_length hle)
          · rintro ⟨-, hre⟩
            have hlen : got.length = (frames ((rs.take hi).drop lo)).length := by
              rw [hgot, List.length_take] at hshort ⊢
              omega
            refine Faithful.intro hrange hle hgot hlen ?_
            by_contra hne
            exact hre (.intro hgot hlen hrange hcount hne)
        · rw [if_pos hcount]
          refine ⟨fun _ => ⟨rfl, fun h => ?_⟩, fun _ => trivial⟩
          obtain ⟨ps, hps, hpslen, -, -⟩ := h.records
          rw [← hgot] at hps
          exact hcount (hps ▸ hpslen)

/-- A log that has lost its end is no reframed range. -/
theorem read_faithful_iff_truncated :
    ¬Reframed [[1], [2]] ((frames [[1], [2]]).take 12) 0 2 := by
  refine ((read_faithful_iff ['t'] true (fun _ => 0) _ 0 none (by decide)).mp ?_).2
  rw [show readChunked ['t'] true (fun _ => 0) ((frames [[1], [2]]).take 12) (marks [[1], [2]]) 0
    none = .error (.logTooShort ['t']) by decide +kernel]
  trivial

/-- A record of ten bytes is overwritten by the frame of the empty payload and
ten bytes that are no frame: a read of the record returns the empty payload. -/
theorem read_reframed :
    let old := frame (List.replicate 10 0)
    let new := List.replicate 8 0 ++ List.replicate 10 255
    let index := scan old old.length
    readChunked ['t'] true (fun _ => 0) new index 0 none = .ok [[]] ∧
      ¬Faithful new index 0 1 (readChunked ['t'] true (fun _ => 0) new index 0 none) := by
  intro old new index
  have hread : readChunked ['t'] true (fun _ => 0) new index 0 none = .ok [[]] := by decide +kernel
  refine ⟨hread, ?_⟩
  rw [hread]
  rintro ⟨-, packed, hpack, hflat, -⟩
  obtain ⟨-, rfl⟩ := mapM_packFrame hpack
  exact absurd hflat (by decide +kernel)

end Durastream
