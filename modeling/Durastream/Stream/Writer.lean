import Durastream.Lib.CrashFile
import Durastream.Stream.Log

/-!
# Appending to a log

The part of a handle that `_append_locked` works on, and its system calls one by
one.  An append takes the handle's lock, so a handle has at most one in progress:
`AppendPc` says which call comes next.

* write: `_write_all` writes the frames of the batch, in as many short writes as
  the system makes of it.
* sync: a successful sync ends the append, and the index grows by the end of each
  frame.
* roll back: an `OSError` in either cuts the log back to the last durable end and
  syncs.  If that fails as well, the handle refuses further appends.

`Writer.Ok` ties the index, the bytes of the file and the call in progress
together.  `Writer.Step` lists what one call can do, and `Writer.Ok.step` says
that every one of them keeps `Ok`.
-/

namespace Durastream

/-- The next system call of `_append_locked`, with the batch it is about. -/
inductive AppendPc where
  /-- No append in progress: the lock is free. -/
  | idle
  /-- The loop of `_write_all`, with what is left to write. -/
  | writing (batch : List Bytes) (rest : Bytes)
  | syncing (batch : List Bytes)
  /-- The rollback's `ftruncate`. -/
  | rollTruncate (batch : List Bytes)
  /-- The rollback's sync. -/
  | rollSync (batch : List Bytes)
deriving DecidableEq

/-- The batch of the append in progress. -/
def AppendPc.batch : AppendPc → Option (List Bytes)
  | .idle => none
  | .writing b _ => some b
  | .syncing b => some b
  | .rollTruncate b => some b
  | .rollSync b => some b

/-- What an append reads and changes of its handle. -/
structure Writer where
  name : Name
  index : List Nat
  closed : Bool
  pc : AppendPc
deriving DecidableEq

/-- What happens to one system call. -/
inductive IoAct where
  /-- `file.write` accepts this many bytes. -/
  | write (n : Nat)
  /-- `OSError` after this many bytes. -/
  | writeErr (n : Nat)
  /-- `fsync` or `fdatasync`. -/
  | sync (ok : Bool)
  /-- `ftruncate`. -/
  | truncate (ok : Bool)
deriving DecidableEq

/-- How an append that got as far as writing ends. -/
inductive Fate where
  /-- `append_many` returned this next offset. -/
  | returned (next : Nat)
  /-- It raised, and both calls of the rollback succeeded. -/
  | rolledBack
  /-- It raised and the rollback failed, or a crash cut it off. -/
  | torn
deriving DecidableEq

/-- How `_append_locked` begins. -/
inductive Begun where
  | raised (e : Error)
  | returned (next : Nat)
  | started (w : Writer)
deriving DecidableEq

/-- `_append_locked` up to the first write. -/
def Writer.begin (w : Writer) (writable isOpen : Bool) (payloads : List Bytes) : Begun :=
  match payloads.mapM packFrame with
  | .error e => .raised e
  | .ok packed =>
      if w.closed then .raised (.streamClosed w.name)
      else if ¬writable then .raised (.streamLocked w.name)
      else if packed = [] then .returned (nextOffset w.index)
      else if ¬isOpen then .raised (.streamClosed w.name)
      else .started { w with pc := .writing payloads packed.flatten }

/-- The system call an append is at, with its effect on the file and the handle. -/
def Writer.step (f : CrashFile UInt8) (w : Writer) :
    IoAct → Option (CrashFile UInt8 × Writer × Option Fate)
  | .write n =>
      match w.pc with
      | .writing b rest =>
          if n ≤ rest.length then
            let w' := if rest.drop n = [] then { w with pc := .syncing b }
              else { w with pc := .writing b (rest.drop n) }
            some (f.write (rest.take n), w', none)
          else none
      | _ => none
  | .writeErr n =>
      match w.pc with
      | .writing b rest =>
          if n ≤ rest.length then
            some (f.write (rest.take n), { w with pc := .rollTruncate b }, none)
          else none
      | _ => none
  | .sync true =>
      match w.pc with
      | .syncing b =>
          let index := w.index ++ frameEnds (lastMark w.index) b
          some (f.sync, { w with index := index, pc := .idle }, some (.returned (nextOffset index)))
      | .rollSync _ => some (f.sync, { w with pc := .idle }, some .rolledBack)
      | _ => none
  | .sync false =>
      match w.pc with
      | .syncing b => some (f, { w with pc := .rollTruncate b }, none)
      | .rollSync _ => some (f, { w with closed := true, pc := .idle }, some .torn)
      | _ => none
  | .truncate true =>
      match w.pc with
      | .rollTruncate b => some (f.truncate (lastMark w.index), { w with pc := .rollSync b }, none)
      | _ => none
  | .truncate false =>
      match w.pc with
      | .rollTruncate _ => some (f, { w with closed := true, pc := .idle }, some .torn)
      | _ => none

/-! ## What a call can do -/

/-- The calls of an append, one constructor for each way a call can end. -/
inductive Writer.Step (f : CrashFile UInt8) (w : Writer) :
    CrashFile UInt8 → Writer → Option Fate → Prop where
  | chunk (b : List Bytes) (rest : Bytes) (n : Nat) :
      w.pc = .writing b rest → n ≤ rest.length →
      Step f w (f.write (rest.take n)) { w with pc := .writing b (rest.drop n) } none
  | written (b : List Bytes) (rest : Bytes) :
      w.pc = .writing b rest →
      Step f w (f.write rest) { w with pc := .syncing b } none
  | writeErr (b : List Bytes) (rest : Bytes) (n : Nat) :
      w.pc = .writing b rest → n ≤ rest.length →
      Step f w (f.write (rest.take n)) { w with pc := .rollTruncate b } none
  | synced (b : List Bytes) :
      w.pc = .syncing b →
      Step f w f.sync { w with index := w.index ++ frameEnds (lastMark w.index) b, pc := .idle }
        (some (.returned (nextOffset (w.index ++ frameEnds (lastMark w.index) b))))
  | syncErr (b : List Bytes) :
      w.pc = .syncing b → Step f w f { w with pc := .rollTruncate b } none
  | cut (b : List Bytes) :
      w.pc = .rollTruncate b →
      Step f w (f.truncate (lastMark w.index)) { w with pc := .rollSync b } none
  | cutErr (b : List Bytes) :
      w.pc = .rollTruncate b → Step f w f { w with closed := true, pc := .idle } (some .torn)
  | rolledBack (b : List Bytes) :
      w.pc = .rollSync b → Step f w f.sync { w with pc := .idle } (some .rolledBack)
  | rollSyncErr (b : List Bytes) :
      w.pc = .rollSync b → Step f w f { w with closed := true, pc := .idle } (some .torn)

theorem Writer.step_cases {f f' : CrashFile UInt8} {w w' : Writer} {a : IoAct}
    {fate : Option Fate} (h : w.step f a = some (f', w', fate)) : Writer.Step f w f' w' fate := by
  cases a with
  | write n =>
      cases hpc : w.pc with
      | writing b rest =>
          simp only [Writer.step, hpc] at h
          split at h
          · next hn =>
              cases h
              split
              · next hdrop =>
                  rw [List.take_of_length_le (List.drop_eq_nil_iff.mp hdrop)]
                  exact .written b rest hpc
              · exact .chunk b rest n hpc hn
          · cases h
      | _ => simp [Writer.step, hpc] at h
  | writeErr n =>
      cases hpc : w.pc with
      | writing b rest =>
          simp only [Writer.step, hpc] at h
          split at h
          · next hn =>
              cases h
              exact .writeErr b rest n hpc hn
          · cases h
      | _ => simp [Writer.step, hpc] at h
  | sync ok =>
      cases ok with
      | true =>
          cases hpc : w.pc with
          | syncing b =>
              simp only [Writer.step, hpc] at h
              cases h
              exact .synced b hpc
          | rollSync b =>
              simp only [Writer.step, hpc] at h
              cases h
              exact .rolledBack b hpc
          | _ => simp [Writer.step, hpc] at h
      | false =>
          cases hpc : w.pc with
          | syncing b =>
              simp only [Writer.step, hpc] at h
              cases h
              exact .syncErr b hpc
          | rollSync b =>
              simp only [Writer.step, hpc] at h
              cases h
              exact .rollSyncErr b hpc
          | _ => simp [Writer.step, hpc] at h
  | truncate ok =>
      cases ok with
      | true =>
          cases hpc : w.pc with
          | rollTruncate b =>
              simp only [Writer.step, hpc] at h
              cases h
              exact .cut b hpc
          | _ => simp [Writer.step, hpc] at h
      | false =>
          cases hpc : w.pc with
          | rollTruncate b =>
              simp only [Writer.step, hpc] at h
              cases h
              exact .cutErr b hpc
          | _ => simp [Writer.step, hpc] at h

/-- Only a successful sync ends an append. -/
theorem Writer.act_of_returned {f f' : CrashFile UInt8} {w w' : Writer} {a : IoAct} {next : Nat}
    (h : w.step f a = some (f', w', some (.returned next))) : a = .sync true := by
  cases a with
  | write n => cases hpc : w.pc <;> simp [Writer.step, hpc] at h
  | writeErr n => cases hpc : w.pc <;> simp [Writer.step, hpc] at h
  | sync ok =>
      cases ok with
      | true => rfl
      | false => cases hpc : w.pc <;> simp [Writer.step, hpc] at h
  | truncate ok => cases ok <;> cases hpc : w.pc <;> simp [Writer.step, hpc] at h

/-- A call of an append is made while one is in progress. -/
theorem Writer.Step.busy {f f' : CrashFile UInt8} {w w' : Writer} {fate : Option Fate}
    (h : Writer.Step f w f' w' fate) : w.pc ≠ .idle := by
  cases h with
  | _ => simp_all

/-- A handle that refuses appends goes on refusing them. -/
theorem Writer.Step.closed_mono {f f' : CrashFile UInt8} {w w' : Writer} {fate : Option Fate}
    (h : Writer.Step f w f' w' fate) (hclosed : w.closed = true) : w'.closed = true := by
  cases h with
  | cutErr b hpc => rfl
  | rollSyncErr b hpc => rfl
  | _ => exact hclosed

theorem Writer.Step.name {f f' : CrashFile UInt8} {w w' : Writer} {fate : Option Fate}
    (h : Writer.Step f w f' w' fate) : w'.name = w.name := by
  cases h with
  | _ => rfl

/-- What a call of an append does to the handle, by how it ends the append. -/
theorem Writer.Step.ends {f f' : CrashFile UInt8} {w w' : Writer} {fate : Option Fate}
    (h : Writer.Step f w f' w' fate) :
    match fate with
    | none => w'.pc.batch = w.pc.batch ∧ w'.index = w.index
    | some (.returned next) =>
        w'.pc = .idle ∧ w'.index = w.index ++ frameEnds (lastMark w.index) (w.pc.batch.getD []) ∧
          next = nextOffset w'.index
    | some .rolledBack => w'.pc = .idle ∧ w'.index = w.index ∧ w'.closed = w.closed
    | some .torn => w'.pc = .idle ∧ w'.index = w.index ∧ w'.closed = true := by
  cases h with
  | synced b hpc =>
      rw [hpc]
      exact ⟨rfl, rfl, rfl⟩
  | cutErr b hpc => exact ⟨rfl, rfl, rfl⟩
  | rolledBack b hpc => exact ⟨rfl, rfl, rfl⟩
  | rollSyncErr b hpc => exact ⟨rfl, rfl, rfl⟩
  | _ => simp_all [AppendPc.batch]

/-- How an append of payloads that fit begins. -/
theorem Writer.begin_of_fits {w : Writer} {writable isOpen : Bool} {payloads : List Bytes}
    (h : Fits payloads) : w.begin writable isOpen payloads =
      if w.closed then .raised (.streamClosed w.name)
      else if ¬writable then .raised (.streamLocked w.name)
      else if payloads = [] then .returned (nextOffset w.index)
      else if ¬isOpen then .raised (.streamClosed w.name)
      else .started { w with pc := .writing payloads (frames payloads) } := by
  have hframes : (payloads.map frame).flatten = frames payloads := by
    rw [← List.flatMap_def]
    rfl
  rw [Writer.begin, mapM_packFrame_of_fits h]
  simp only [hframes, List.map_eq_nil_iff]

/-- An append that starts has an open, writable, unclosed handle and a nonempty
batch that fits. -/
theorem Writer.begin_started {w w' : Writer} {writable isOpen : Bool} {payloads : List Bytes}
    (h : w.begin writable isOpen payloads = .started w') :
    w.closed = false ∧ writable = true ∧ isOpen = true ∧ payloads ≠ [] ∧ Fits payloads ∧
      w' = { w with pc := .writing payloads (frames payloads) } := by
  unfold Writer.begin at h
  split at h
  · cases h
  · next packed hpack =>
      obtain ⟨hfit, rfl⟩ := mapM_packFrame hpack
      split at h
      · cases h
      · next hclosed =>
          split at h
          · cases h
          · next hwritable =>
              split at h
              · cases h
              · next hne =>
                  split at h
                  · cases h
                  · next hopen =>
                      cases h
                      refine ⟨by simpa using hclosed, by simpa using hwritable,
                        by simpa using hopen, by simpa using hne, hfit, ?_⟩
                      rw [← List.flatMap_def]
                      rfl

/-- Only an empty batch returns at once. -/
theorem Writer.begin_ne_returned {w : Writer} {writable isOpen : Bool} {payloads : List Bytes}
    {next : Nat} (hne : payloads ≠ []) : w.begin writable isOpen payloads ≠ .returned next := by
  intro h
  unfold Writer.begin at h
  split at h
  · cases h
  · next packed hpack =>
      obtain ⟨-, rfl⟩ := mapM_packFrame hpack
      have hpacked : payloads.map frame ≠ [] := by simpa using hne
      rw [if_neg hpacked] at h
      split at h
      · cases h
      · split at h
        · cases h
        · split at h <;> cases h

/-! ## The invariant of a handle that owns its log -/

/-- The index is that of the records `rs`, and the file holds their frames
followed by what the call in progress has left there. -/
structure Writer.Ok (w : Writer) (data : Bytes) (rs : List Bytes) : Prop where
  fits : Fits rs
  index : w.index = marks rs
  file : match w.pc with
    | .idle => frames rs <+: data ∧ (w.closed = false → data = frames rs)
    | .writing b rest =>
        Fits b ∧ w.closed = false ∧ ∃ done, data = frames rs ++ done ∧ done ++ rest = frames b
    | .syncing b => Fits b ∧ w.closed = false ∧ data = frames rs ++ frames b
    | .rollTruncate b =>
        Fits b ∧ w.closed = false ∧ ∃ t, t <+: frames b ∧ data = frames rs ++ t
    | .rollSync b => Fits b ∧ w.closed = false ∧ data = frames rs

/-- `_recover` cuts the file at the end of the records that it has found. -/
theorem recovered_cut {f : CrashFile UInt8} {index : List Nat}
    (hindex : index = marks (records f.data)) :
    lastMark index = (frames (records f.data)).length ∧ lastMark index ≤ f.data.length ∧
      (f.truncate (lastMark index)).data = frames (records f.data) := by
  have hpre := frames_records_isPrefix f.data
  have hlast : lastMark index = (frames (records f.data)).length := by
    rw [hindex, lastMark_marks]
  have hle : lastMark index ≤ f.data.length := hlast ▸ hpre.length_le
  refine ⟨hlast, hle, ?_⟩
  rw [CrashFile.data_truncate _ hle, hlast]
  exact (List.prefix_iff_eq_take.mp hpre).symm

namespace Writer.Ok

variable {w w' : Writer} {f f' : CrashFile UInt8} {rs : List Bytes}

/-- The handle that `_recover` makes. -/
theorem recovered (hidle : w.pc = .idle) (hindex : w.index = marks (records f.data)) :
    w.Ok (f.truncate (lastMark w.index)).data (records f.data) := by
  refine ⟨Fits.records _, hindex, ?_⟩
  rw [hidle, (recovered_cut hindex).2.2]
  exact ⟨List.prefix_refl _, fun _ => rfl⟩

/-- The frames of the indexed records are at the front of the file. -/
theorem isPrefix (h : w.Ok f.data rs) : frames rs <+: f.data := by
  have hfile := h.file
  cases hpc : w.pc with
  | idle =>
      rw [hpc] at hfile
      exact hfile.1
  | writing b rest =>
      rw [hpc] at hfile
      obtain ⟨_, _, done, hdata, _⟩ := hfile
      exact ⟨done, hdata.symm⟩
  | syncing b =>
      rw [hpc] at hfile
      exact ⟨frames b, hfile.2.2.symm⟩
  | rollTruncate b =>
      rw [hpc] at hfile
      obtain ⟨_, _, t, _, hdata⟩ := hfile
      exact ⟨t, hdata.symm⟩
  | rollSync b =>
      rw [hpc] at hfile
      exact ⟨[], by rw [List.append_nil]; exact hfile.2.2.symm⟩

/-- An append only starts while the handle is not closed. -/
theorem closed_of_busy {data : Bytes} (h : w.Ok data rs) (hbusy : w.pc ≠ .idle) :
    w.closed = false := by
  have hfile := h.file
  cases hpc : w.pc with
  | idle => exact absurd hpc hbusy
  | _ =>
      rw [hpc] at hfile
      exact hfile.2.1

/-- The batch of an append in progress fits. -/
theorem fits_batch {data : Bytes} (h : w.Ok data rs) {b : List Bytes}
    (hbatch : w.pc.batch = some b) : Fits b := by
  have hfile := h.file
  cases hpc : w.pc with
  | idle =>
      rw [hpc] at hbatch
      cases hbatch
  | _ =>
      rw [hpc] at hfile hbatch
      cases hbatch
      exact hfile.1

/-- The rollback cuts the file at the end of the indexed records. -/
theorem data_cut (h : w.Ok f.data rs) :
    lastMark w.index ≤ f.data.length ∧ (f.truncate (lastMark w.index)).data = frames rs := by
  have hle : lastMark w.index ≤ f.data.length := by
    rw [h.index, lastMark_marks]
    exact h.isPrefix.length_le
  refine ⟨hle, ?_⟩
  rw [CrashFile.data_truncate f hle, h.index, lastMark_marks]
  exact (List.prefix_iff_eq_take.mp h.isPrefix).symm

/-- The records after a step: those before it, and the batch if it returned. -/
def after (rs : List Bytes) (pc : AppendPc) : Option Fate → List Bytes
  | some (.returned _) => rs ++ pc.batch.getD []
  | _ => rs

@[simp] theorem after_none (rs : List Bytes) (pc : AppendPc) : after rs pc none = rs := rfl

/-- The records before a call are those after it, or the front of them. -/
theorem isPrefix_after (rs : List Bytes) (pc : AppendPc) (fate : Option Fate) :
    rs <+: after rs pc fate := by
  cases fate with
  | none => exact List.prefix_refl rs
  | some x =>
      cases x with
      | returned next => exact ⟨_, rfl⟩
      | rolledBack => exact List.prefix_refl rs
      | torn => exact List.prefix_refl rs

/-- Every system call of an append keeps the invariant. -/
theorem step {fate : Option Fate} (h : w.Ok f.data rs) (hstep : Writer.Step f w f' w' fate) :
    w'.Ok f'.data (after rs w.pc fate) := by
  have hfile := h.file
  cases hstep with
  | chunk b rest n hpc hn =>
      rw [hpc] at hfile
      obtain ⟨hfit, hclosed, done, hdata, hdone⟩ := hfile
      refine ⟨h.fits, h.index, hfit, hclosed, done ++ rest.take n, ?_, ?_⟩
      · rw [CrashFile.data_write, hdata, List.append_assoc, after_none]
      · rw [List.append_assoc, List.take_append_drop, hdone]
  | written b rest hpc =>
      rw [hpc] at hfile
      obtain ⟨hfit, hclosed, done, hdata, hdone⟩ := hfile
      refine ⟨h.fits, h.index, hfit, hclosed, ?_⟩
      rw [CrashFile.data_write, hdata, List.append_assoc, hdone, after_none]
  | writeErr b rest n hpc hn =>
      rw [hpc] at hfile
      obtain ⟨hfit, hclosed, done, hdata, hdone⟩ := hfile
      refine ⟨h.fits, h.index, hfit, hclosed, done ++ rest.take n, ?_, ?_⟩
      · exact ⟨rest.drop n, by rw [List.append_assoc, List.take_append_drop, hdone]⟩
      · rw [CrashFile.data_write, hdata, List.append_assoc, after_none]
  | synced b hpc =>
      rw [hpc] at hfile
      obtain ⟨hfit, -, hdata⟩ := hfile
      have hdata' : f.data = frames (rs ++ b) := by rw [hdata, frames_append]
      have hbatch : after rs w.pc (some (.returned (nextOffset
          (w.index ++ frameEnds (lastMark w.index) b)))) = rs ++ b := by
        rw [after, hpc]
        rfl
      rw [hbatch]
      refine ⟨h.fits.append hfit, ?_, ?_⟩
      · show w.index ++ frameEnds (lastMark w.index) b = marks (rs ++ b)
        rw [h.index, marks_append_frameEnds]
      · exact ⟨⟨[], by rw [List.append_nil]; exact hdata'.symm⟩, fun _ => hdata'⟩
  | syncErr b hpc =>
      rw [hpc] at hfile
      obtain ⟨hfit, hclosed, hdata⟩ := hfile
      exact ⟨h.fits, h.index, hfit, hclosed, frames b, List.prefix_refl _, hdata⟩
  | cut b hpc =>
      rw [hpc] at hfile
      obtain ⟨hfit, hclosed, _⟩ := hfile
      exact ⟨h.fits, h.index, hfit, hclosed, h.data_cut.2⟩
  | cutErr b hpc =>
      exact ⟨h.fits, h.index, h.isPrefix, fun hc => absurd hc (by simp)⟩
  | rolledBack b hpc =>
      rw [hpc] at hfile
      obtain ⟨_, _, hdata⟩ := hfile
      exact ⟨h.fits, h.index, h.isPrefix, fun _ => hdata⟩
  | rollSyncErr b hpc =>
      exact ⟨h.fits, h.index, h.isPrefix, fun hc => absurd hc (by simp)⟩

/-- A call keeps whatever is known of the contents, if more of them never hurts
and the indexed records alone suffice. -/
theorem every {P : Bytes → Prop} {fate : Option Fate} (h : w.Ok f.data rs)
    (hmono : ∀ d d', d <+: d' → P d → P d') (hframes : P (frames rs)) (hf : f.Every P)
    (hstep : Writer.Step f w f' w' fate) : f'.Every P := by
  have hdata : ∀ xs, P (f.data ++ xs) := fun xs => hmono _ _ ⟨xs, rfl⟩ hf.data
  cases hstep with
  | chunk b rest n hpc hn => exact hf.write fun k => hdata _
  | written b rest hpc => exact hf.write fun k => hdata _
  | writeErr b rest n hpc hn => exact hf.write fun k => hdata _
  | synced b hpc => exact .sync hf.data
  | syncErr b hpc => exact hf
  | cut b hpc =>
      refine hf.truncate h.data_cut.1 ?_
      intro k hk
      rw [h.index, lastMark_marks] at hk
      exact hmono _ _ (List.prefix_take_iff.mpr ⟨h.isPrefix, hk⟩) hframes
  | cutErr b hpc => exact hf
  | rolledBack b hpc => exact .sync hf.data
  | rollSyncErr b hpc => exact hf

/-- An append that returned has put its batch behind the indexed records. -/
theorem returned {next : Nat} (h : w.Ok f.data rs)
    (hstep : Writer.Step f w f' w' (some (.returned next))) :
    ∃ b, w.pc.batch = some b ∧ next = rs.length + b.length ∧ f' = f.sync ∧
      f.data = frames (rs ++ b) := by
  have hfile := h.file
  cases hstep with
  | synced b hpc =>
      rw [hpc] at hfile
      refine ⟨b, by rw [hpc]; rfl, ?_, rfl, ?_⟩
      · rw [h.index, marks_append_frameEnds, nextOffset_marks, List.length_append]
      · rw [frames_append]
        exact hfile.2.2

/-- An index only grows. -/
theorem index_isPrefix {fate : Option Fate} (hstep : Writer.Step f w f' w' fate) :
    w.index <+: w'.index := by
  cases hstep with
  | synced b hpc => exact List.prefix_append _ _
  | _ => exact List.prefix_refl _

/-- Starting an append keeps the invariant. -/
theorem begin {writable isOpen : Bool} {payloads : List Bytes} (h : w.Ok f.data rs)
    (hidle : w.pc = .idle) (hbegin : w.begin writable isOpen payloads = .started w') :
    w'.Ok f.data rs := by
  obtain ⟨hclosed, _, _, _, hfit, rfl⟩ := Writer.begin_started hbegin
  have hfile := h.file
  rw [hidle] at hfile
  refine ⟨h.fits, h.index, hfit, hclosed, [], ?_, List.nil_append _⟩
  rw [List.append_nil]
  exact hfile.2 hclosed

/-- Closing an idle handle keeps the invariant. -/
theorem close {data : Bytes} (h : w.Ok data rs) (hidle : w.pc = .idle) :
    ({ w with closed := true } : Writer).Ok data rs := by
  obtain ⟨name, index, closed, pc⟩ := w
  cases hidle
  exact ⟨h.fits, h.index, h.file.1, (fun h => by cases h)⟩

/-- A close that may have failed. -/
theorem close_or {data : Bytes} (h : w.Ok data rs) (hidle : w.pc = .idle) (b : Bool) :
    ({ w with closed := w.closed || b } : Writer).Ok data rs := by
  cases b with
  | false => rwa [Bool.or_false]
  | true =>
      rw [Bool.or_true]
      exact h.close hidle

/-- An idle handle reads exactly the records it has indexed. -/
theorem read (h : w.Ok f.data rs) (offset : Int) (stop : Option Int) :
    Durastream.read w.name true f.data w.index offset stop =
      .ok ((rs.take (readStop rs.length stop)).drop (max offset 0).toNat) := by
  rw [h.index]
  exact read_marks w.name h.fits h.isPrefix offset stop

end Writer.Ok

end Durastream
