import Durastream.Stream.Machine

/-!
# Durability over whole runs

What a log holds is accounted for by the appends made on it: `Accounts rs₀ as rs`
says that `rs` is `rs₀` followed by what each attempt of `as` gave, oldest first.
An append that returned gave its whole batch, at the offset it returned; one
whose rollback succeeded gave nothing; only one that was torn, by a crash or by a
failed rollback, may have given a prefix of its batch.

The invariant ties the three levels together.  `disk` says that whatever a power
loss can leave is accounted for, and `owner` that the index of the live handle is
that of accounted records.  A sync is what turns the first into the second: after
it there is only one content left on the disk.
-/

namespace Durastream

/-! ## Accounting for records -/

/-- What an attempt may have added to the records before it. -/
def Attempt.Gives (a : Attempt) (base c : List Bytes) : Prop :=
  match a.fate with
  | .returned next => c = a.batch ∧ next = (base ++ c).length
  | .rolledBack => c = []
  | .torn => c <+: a.batch

/-- The records `rs` are `rs₀` and then what each attempt gave, oldest first.
The attempts are listed newest first. -/
def Accounts (rs₀ : List Bytes) : List Attempt → List Bytes → Prop
  | [], rs => rs = rs₀
  | a :: as, rs => ∃ base c, rs = base ++ c ∧ a.Gives base c ∧ Accounts rs₀ as base

namespace Accounts

variable {rs₀ rs b c : List Bytes} {as : List Attempt}

theorem torn (h : Accounts rs₀ as rs) (hc : c <+: b) :
    Accounts rs₀ (⟨b, .torn⟩ :: as) (rs ++ c) := ⟨rs, c, rfl, hc, h⟩

/-- An attempt that was cut off may have given nothing. -/
theorem torn_nothing (h : Accounts rs₀ as rs) : Accounts rs₀ (⟨b, .torn⟩ :: as) rs := by
  have ht := h.torn (b.nil_prefix)
  rwa [List.append_nil] at ht

theorem rolledBack (h : Accounts rs₀ as rs) : Accounts rs₀ (⟨b, .rolledBack⟩ :: as) rs :=
  ⟨rs, [], (List.append_nil rs).symm, rfl, h⟩

theorem returned (h : Accounts rs₀ as rs) :
    Accounts rs₀ (⟨b, .returned (rs ++ b).length⟩ :: as) (rs ++ b) := ⟨rs, b, rfl, ⟨rfl, rfl⟩, h⟩

/-- A batch that was acknowledged is there whole, at the offset it returned. -/
theorem acknowledged {next : Nat} (h : Accounts rs₀ as rs) (hb : ⟨b, .returned next⟩ ∈ as) :
    next ≤ rs.length ∧ (rs.take next).drop (next - b.length) = b := by
  induction as generalizing rs with
  | nil => cases hb
  | cons a as ih =>
      obtain ⟨base, c, rfl, hgives, hbase⟩ := h
      rcases List.mem_cons.mp hb with rfl | hb
      · obtain ⟨rfl, rfl⟩ := hgives
        refine ⟨Nat.le_refl _, ?_⟩
        rw [List.take_length, List.length_append, Nat.add_sub_cancel, List.drop_left]
      · obtain ⟨hle, hdrop⟩ := ih hbase hb
        refine ⟨by rw [List.length_append]; omega, ?_⟩
        rw [List.take_append_of_le_length hle, hdrop]

end Accounts

/-! ## One system call of an append -/

/-- The append in progress, as a crash would record it. -/
def Writer.pending (w : Writer) : List Attempt := w.pc.batch.toList.map fun b => ⟨b, .torn⟩

/-- Whatever a power loss leaves of the file is accounted for. -/
def DiskAccounts (rs₀ : List Bytes) (f : CrashFile UInt8) (as : List Attempt) : Prop :=
  f.Every fun d => Accounts rs₀ as (records d)

/-- The records of whole frames followed by a part of more frames. -/
theorem accounts_part {rs₀ rs b : List Bytes} {as : List Attempt} {t : Bytes} (hrs : Fits rs)
    (hb : Fits b) (h : Accounts rs₀ as rs) (ht : t <+: frames b) :
    Accounts rs₀ (⟨b, .torn⟩ :: as) (records (frames rs ++ t)) := by
  rw [records_frames_append hrs]
  exact h.torn (records_of_isPrefix_frames hb ht)

/-- Writing on, after `done`, what is left of a batch. -/
theorem DiskAccounts.write {rs₀ rs b : List Bytes} {as : List Attempt} {f : CrashFile UInt8}
    {done rest bs : Bytes} (h : DiskAccounts rs₀ f (⟨b, .torn⟩ :: as)) (hrs : Fits rs) (hb : Fits b)
    (has : Accounts rs₀ as rs) (hdata : f.data = frames rs ++ done)
    (hdone : done ++ rest = frames b) (hbs : bs <+: rest) :
    DiskAccounts rs₀ (f.write bs) (⟨b, .torn⟩ :: as) := by
  refine CrashFile.Every.write h ?_
  intro k
  rw [hdata, List.append_assoc]
  refine accounts_part hrs hb has ?_
  rw [← hdone]
  exact (List.prefix_append_right_inj done).mpr ((bs.take_prefix k).trans hbs)

/-- One system call of an append keeps disk and index accounted for. -/
theorem Writer.Step.accounts {rs₀ rs : List Bytes} {as : List Attempt} {f f' : CrashFile UInt8}
    {w w' : Writer} {fate : Option Fate} (hstep : Writer.Step f w f' w' fate)
    (hok : w.Ok f.data rs) (has : Accounts rs₀ as rs)
    (hdisk : DiskAccounts rs₀ f (w.pending ++ as)) :
    DiskAccounts rs₀ f' (w'.pending ++ (LogState.ended w.pc fate ++ as)) ∧
      Accounts rs₀ (LogState.ended w.pc fate ++ as) (Writer.Ok.after rs w.pc fate) := by
  have hfile := hok.file
  cases hstep with
  | chunk b rest n hpc hn =>
      rw [hpc] at hfile
      obtain ⟨hfit, _, done, hdata, hdone⟩ := hfile
      rw [Writer.pending, hpc] at hdisk
      exact ⟨hdisk.write hok.fits hfit has hdata hdone (rest.take_prefix n), has⟩
  | written b rest hpc =>
      rw [hpc] at hfile
      obtain ⟨hfit, _, done, hdata, hdone⟩ := hfile
      rw [Writer.pending, hpc] at hdisk
      exact ⟨hdisk.write hok.fits hfit has hdata hdone (List.prefix_refl rest), has⟩
  | writeErr b rest n hpc hn =>
      rw [hpc] at hfile
      obtain ⟨hfit, _, done, hdata, hdone⟩ := hfile
      rw [Writer.pending, hpc] at hdisk
      exact ⟨hdisk.write hok.fits hfit has hdata hdone (rest.take_prefix n), has⟩
  | synced b hpc =>
      rw [hpc] at hfile
      obtain ⟨hfit, _, hdata⟩ := hfile
      have hnext : nextOffset (w.index ++ frameEnds (lastMark w.index) b) = (rs ++ b).length := by
        rw [hok.index, marks_append_frameEnds, nextOffset_marks]
      have hret : Accounts rs₀ (LogState.ended w.pc (some (.returned (nextOffset
          (w.index ++ frameEnds (lastMark w.index) b)))) ++ as) (rs ++ b) := by
        rw [hnext, hpc]
        exact has.returned
      have hafter : Writer.Ok.after rs w.pc (some (.returned (nextOffset
          (w.index ++ frameEnds (lastMark w.index) b)))) = rs ++ b := by
        rw [Writer.Ok.after, hpc]
        rfl
      rw [hafter]
      refine ⟨CrashFile.Every.sync ?_, hret⟩
      rw [hdata, ← frames_append, records_frames (hok.fits.append hfit)]
      exact hret
  | syncErr b hpc =>
      rw [Writer.pending, hpc] at hdisk
      exact ⟨hdisk, has⟩
  | cut b hpc =>
      rw [hpc] at hfile
      obtain ⟨hfit, _, t, ht, hdata⟩ := hfile
      rw [Writer.pending, hpc] at hdisk
      refine ⟨CrashFile.Every.truncate hok.data_cut.1 hdisk ?_, has⟩
      intro k hk
      rw [hok.index, lastMark_marks] at hk
      rw [hdata, List.take_append, List.take_of_length_le hk]
      have htake := List.take_prefix (k - (frames rs).length) t
      exact accounts_part hok.fits hfit has (htake.trans ht)
  | cutErr b hpc =>
      rw [Writer.pending, hpc] at hdisk
      refine ⟨?_, ?_⟩
      · rw [hpc]
        exact hdisk
      · rw [hpc]
        exact has.torn_nothing
  | rolledBack b hpc =>
      rw [hpc] at hfile
      obtain ⟨_, _, hdata⟩ := hfile
      have hback : Accounts rs₀ (LogState.ended w.pc (some .rolledBack) ++ as) rs := by
        rw [hpc]
        exact has.rolledBack
      refine ⟨CrashFile.Every.sync ?_, hback⟩
      rw [hdata, records_frames hok.fits]
      exact hback
  | rollSyncErr b hpc =>
      rw [Writer.pending, hpc] at hdisk
      refine ⟨?_, ?_⟩
      · rw [hpc]
        exact hdisk
      · rw [hpc]
        exact has.torn_nothing

/-! ## The invariant of a run -/

/-- Disk and index are accounted for by the appends made so far. -/
structure LogState.Durable (rs₀ : List Bytes) (s : LogState) : Prop where
  disk : DiskAccounts rs₀ s.file (s.pending ++ s.attempts)
  owner : match s.owner with
    | .absent => True
    | .recTruncate w => w.pc = .idle ∧ w.index = marks (records s.file.data)
    | .recSync w => w.pc = .idle ∧ ∃ rs, w.Ok s.file.data rs ∧ s.file.data = frames rs
    | .live w => ∃ rs, w.Ok s.file.data rs ∧ Accounts rs₀ s.attempts rs

namespace LogState.Durable

variable {rs₀ : List Bytes} {s t : LogState}

theorem init (name : Name) (d : Bytes) : (LogState.init name d).Durable (records d) :=
  ⟨CrashFile.Every.ofDisk rfl, trivial⟩

/-- A scan that ends at the end of the file has found only whole frames. -/
theorem frames_records_eq {d : Bytes} (h : (frames (records d)).length = d.length) :
    frames (records d) = d := (frames_records_isPrefix d).eq_of_length h

theorem openOwner (h : s.Durable rs₀) (howner : s.owner = .absent) (closed : Bool) :
    ({ s with owner := s.opened closed } : LogState).Durable rs₀ := by
  have hpending : s.pending = [] := by rw [pending, howner]
  have hdisk : DiskAccounts rs₀ s.file s.attempts := by
    have hd := h.disk
    rwa [hpending, List.nil_append] at hd
  have hindex : scan s.file.data s.file.data.length = marks (records s.file.data) :=
    scan_length s.file.data
  unfold opened
  dsimp only
  rw [hindex, lastMark_marks]
  split
  · exact ⟨hdisk, rfl, rfl⟩
  · next hlen =>
      have hall := frames_records_eq (Decidable.not_not.mp hlen)
      refine ⟨hdisk, records s.file.data, ⟨Fits.records _, rfl, ?_, fun _ => hall.symm⟩, hdisk.data⟩
      exact frames_records_isPrefix _

theorem recCut {w : Writer} (h : s.Durable rs₀) (howner : s.owner = .recTruncate w) :
    ({ s with
      file := s.file.truncate (lastMark w.index), owner := .recSync w } :
        LogState).Durable rs₀ := by
  obtain ⟨hdisk, hown⟩ := h
  rw [howner] at hown
  obtain ⟨hidle, hindex⟩ := hown
  obtain ⟨hlast, hle, hdata⟩ := recovered_cut hindex
  rw [pending, howner] at hdisk
  refine ⟨CrashFile.Every.truncate hle hdisk ?_, hidle, records s.file.data, ?_, hdata⟩
  · intro k hk
    rw [records_take (hlast ▸ hk)]
    exact hdisk.data
  · exact .recovered hidle hindex

/-- Every step keeps disk and index accounted for. -/
theorem step {a : LogAct} (h : s.Durable rs₀) (hstep : LogState.Step s a t) : t.Durable rs₀ := by
  obtain ⟨hdisk, hown⟩ := h
  cases hstep with
  | openOwner closed howner => exact openOwner ⟨hdisk, hown⟩ howner closed
  | openView size => exact ⟨hdisk, hown⟩
  | closeView i => exact ⟨hdisk, hown⟩
  | refused payloads => exact ⟨hdisk, hown⟩
  | started payloads w w' howner hidle hbegin =>
      rw [howner] at hown
      obtain ⟨rs, hok, has⟩ := hown
      have hpending : s.pending = [] := by
        rw [pending, howner]
        dsimp only
        rw [hidle]
        rfl
      rw [hpending, List.nil_append] at hdisk
      have hok' := hok.begin hidle hbegin
      obtain ⟨_, _, _, _, _, rfl⟩ := Writer.begin_started hbegin
      exact ⟨hdisk.mono fun _ hd => hd.torn_nothing, rs, hok', has⟩
  | recCut w howner => exact recCut ⟨hdisk, hown⟩ howner
  | recFailed w a howner =>
      refine ⟨?_, trivial⟩
      rcases howner with howner | howner
      · rwa [pending, howner] at hdisk
      · rwa [pending, howner] at hdisk
  | recSynced w howner =>
      rw [howner] at hown
      obtain ⟨hidle, rs, hok, hdata⟩ := hown
      rw [pending, howner] at hdisk
      have hrec : records s.file.data = rs := by rw [hdata, records_frames hok.fits]
      have hacc := hdisk.data
      rw [hrec] at hacc
      refine ⟨?_, rs, hok, hacc⟩
      have hpending : w.pending = [] := by
        rw [Writer.pending, hidle]
        rfl
      show DiskAccounts rs₀ s.file.sync (w.pending ++ s.attempts)
      rw [hpending]
      exact CrashFile.Every.sync hdisk.data
  | io w w' a f fate howner hw =>
      rw [howner] at hown
      obtain ⟨rs, hok, has⟩ := hown
      rw [pending, howner] at hdisk
      obtain ⟨hdisk', has'⟩ := hw.accounts hok has hdisk
      exact ⟨hdisk', _, hok.step hw, has'⟩
  | closeOwner w howner hidle =>
      refine ⟨?_, trivial⟩
      rw [pending, howner] at hdisk
      dsimp only at hdisk
      rwa [hidle] at hdisk
  | crash => exact ⟨hdisk, trivial⟩
  | powerLoss i k m => exact ⟨CrashFile.Every.powerLoss hdisk i k m, trivial⟩

end LogState.Durable

/-- `rs` are the records of the longest prefix of `d` that is a concatenation of
encoded frames. -/
structure LongestIntact (d : Bytes) (rs : List Bytes) : Prop where
  fits : Fits rs
  isPrefix : frames rs <+: d
  longest : ∀ ps, Fits ps → frames ps <+: d → ps <+: rs

theorem longestIntact_records (d : Bytes) : LongestIntact d (records d) :=
  ⟨Fits.records d, frames_records_isPrefix d, fun _ => isPrefix_records⟩

/-- A handle on accounted records returns every acknowledged batch at its offset. -/
theorem Writer.Ok.read_acknowledged {rs₀ rs b : List Bytes} {as : List Attempt}
    {f : CrashFile UInt8} {w : Writer} {next : Nat} (hok : w.Ok f.data rs)
    (has : Accounts rs₀ as rs) (hb : ⟨b, .returned next⟩ ∈ as) :
    Durastream.read w.name true f.data w.index (next - b.length : Nat) (some next) = .ok b := by
  obtain ⟨hle, hdrop⟩ := has.acknowledged hb
  have hstop : readStop rs.length (some (next : Int)) = next := by
    rw [readStop]
    omega
  have hstart : (max ((next - b.length : Nat) : Int) 0).toNat = next - b.length := by omega
  rw [hok.read, hstop, hstart, hdrop]

/-- After any run from any bytes on disk, the live handle serves the records of
the longest intact prefix of these bytes and then exactly what the appends made
on the log account for.  So it returns every acknowledged batch at the offset
that `append_many` returned. -/
theorem served_accounted (name : Name) (d : Bytes) (acts : List LogAct) (s : LogState)
    (w : Writer) (hrun : Lts.run LogState.step (.init name d) acts = some s)
    (howner : s.owner = .live w) :
    ∃ rs₀ rs, LongestIntact d rs₀ ∧ Accounts rs₀ s.attempts rs ∧
      read w.name true s.file.data w.index 0 none = .ok rs ∧
      ∀ b (next : Nat), ⟨b, .returned next⟩ ∈ s.attempts →
        read w.name true s.file.data w.index (next - b.length : Nat) (some next) = .ok b := by
  have hinv : s.Durable (records d) :=
    Lts.run_invariant (fun _ _ _ hs hstep => hs.step (LogState.step_cases hstep)) hrun
      (LogState.Durable.init name d)
  have hown := hinv.owner
  rw [howner] at hown
  obtain ⟨rs, hok, has⟩ := hown
  refine ⟨records d, rs, longestIntact_records d, has, ?_, fun b next => hok.read_acknowledged has⟩
  rw [hok.read 0 none, readStop, List.take_length]
  rfl

/-- An acknowledged batch on a log with a torn tail, then a batch that a power
loss cuts off after its first record, then a reopening. -/
def tornRun : List LogAct :=
  [.openOwner false, .io (.truncate true), .io (.sync true), .append [[1], [2]],
    .io (.write 10), .io (.write 8), .io (.sync true), .append [[3], [4]], .io (.write 12),
    .powerLoss 0 40 40, .openOwner false, .io (.truncate true), .io (.sync true)]

theorem served_accounted_tornRun :
    ∃ s w, Lts.run LogState.step (.init ['t'] (frames [[7]] ++ [0, 0])) tornRun = some s ∧
      s.owner = .live w ∧ ∃ rs₀ rs, LongestIntact (frames [[7]] ++ [0, 0]) rs₀ ∧
        Accounts rs₀ s.attempts rs ∧ read w.name true s.file.data w.index 0 none = .ok rs ∧
        ∀ b (next : Nat), ⟨b, .returned next⟩ ∈ s.attempts →
          read w.name true s.file.data w.index (next - b.length : Nat) (some next) = .ok b := by
  have hmap : (Lts.run LogState.step (.init ['t'] (frames [[7]] ++ [0, 0])) tornRun).map
      LogState.owner = some (.live ⟨['t'], [0, 9, 18, 27, 36], false, .idle⟩) := by
    decide +kernel
  obtain ⟨s, hrun, howner⟩ := Option.map_eq_some_iff.mp hmap
  exact ⟨s, _, hrun, howner, served_accounted ['t'] _ tornRun s _ hrun howner⟩

end Durastream
