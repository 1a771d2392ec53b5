import Durastream.Lib.Replaced
import Durastream.Stream.Durability
import Durastream.Stream.Visibility
import Durastream.Tokens

/-!
# The work queue

`demos/work_queue.py` on the log of its stream.  A worker reads the jobs from its
checkpoint on, a chunk at a time, and writes a new checkpoint after each chunk.  The
process may crash at any step, the power may fail, and the worker may be stopped or an
exception may end it; another worker then starts from the checkpoint.  Producers append
to the stream all the while.  The Store is not closed while a worker runs.

The checkpoint is written to a file beside it, synced and renamed.  Nobody syncs the
directory, so a power loss may bring back an older checkpoint.  `none_lost` says that no
checkpoint is ever ahead of the jobs that are done, and `repeats_bounded` how far it may
be behind.

`done` records the jobs that were processed, with their offsets.  The code has no such
record; the theorems are about it.
-/

namespace Durastream

/-- `CHUNK`. -/
def chunkSize : Nat := 1000

/-- `read_checkpoint`, given what the file has. -/
def readCheckpoint : Option Token → Except NumberError Int
  | none => .ok 0
  | some text => int (strip text)

/-- Where a worker is. -/
inductive WorkerPc where
  | absent
  /-- `while offset < q.next_offset`. -/
  | test (offset : Int)
  /-- `q.read(offset, offset + CHUNK)`. -/
  | read (offset : Int)
  /-- The loop over the chunk, after `k` of its jobs. -/
  | jobs (offset : Int) (chunk : List Bytes) (k : Nat)
  /-- `open(tmp, "w")`. -/
  | create (offset : Int)
  /-- `f.write(str(offset))` and `f.flush()`. -/
  | write (offset : Int)
  | sync (offset : Int)
  /-- `os.replace(tmp, path)`. -/
  | replace (offset : Int)
  /-- `run_worker` has returned; the next offset was `next` at the last test. -/
  | returned (next : Nat)

/-- How far a worker has got with the jobs. -/
def WorkerPc.offset : WorkerPc → Option Int
  | .absent => none
  | .test offset => some offset
  | .read offset => some offset
  | .jobs offset _ k => some (offset + k)
  | .create offset => some offset
  | .write offset => some offset
  | .sync offset => some offset
  | .replace offset => some offset
  | .returned next => some next

def WorkerPc.runs : WorkerPc → Bool
  | .absent => false
  | .returned _ => false
  | _ => true

/-- A worker that does not run and has got somewhere has returned. -/
theorem WorkerPc.returned_of_offset {pc : WorkerPc} {next : Nat} (hruns : pc.runs = false)
    (hoffset : pc.offset = some (next : Int)) : pc = .returned next := by
  cases pc with
  | absent => cases hoffset
  | returned n =>
      cases hoffset
      rfl
  | _ => cases hruns

structure WorkQueue where
  log : LogState
  checkpoint : ReplacedFile Char
  worker : WorkerPc
  done : List (Nat × Bytes)

inductive QueueAct where
  /-- A step of the log that does not end the process. -/
  | log (a : LogAct)
  | crash
  /-- What is left of the log, and of the checkpoint. -/
  | powerLoss (i k m j i' k' m' : Nat) (beside : Option (CrashFile Char))
  /-- `run_worker`, up to its first test. -/
  | start
  /-- The worker goes on. -/
  | work
  /-- `stop_after`, or an exception. -/
  | stop

namespace WorkQueue

/-- A queue on disk, without a checkpoint. -/
def init (name : Name) (data : Bytes) : WorkQueue := ⟨.init name data, .ofDisk none, .absent, []⟩

/-- The worker goes on to its next step. -/
def work (s : WorkQueue) (w : Writer) : Option WorkQueue :=
  match s.worker with
  | .absent => none
  | .test offset =>
      some { s with worker :=
        if offset < nextOffset w.index then .read offset else .returned (nextOffset w.index) }
  | .read offset =>
      if w.pc = .idle then
        match Durastream.read s.log.name true s.log.file.data w.index offset
          (some (offset + chunkSize)) with
        | .ok chunk => some { s with worker := .jobs offset chunk 0 }
        | .error _ => some { s with worker := .absent }
      else none
  | .jobs offset chunk k =>
      match chunk[k]? with
      | some raw =>
          some { s with
            worker := .jobs offset chunk (k + 1), done := s.done ++ [(offset.toNat + k, raw)] }
      | none => some { s with worker := .create (offset + chunk.length) }
  | .create offset => some { s with checkpoint := s.checkpoint.create, worker := .write offset }
  | .write offset =>
      match str offset with
      | .ok text => some { s with checkpoint := s.checkpoint.write text, worker := .sync offset }
      | .error _ => some { s with worker := .absent }
  | .sync offset => some { s with checkpoint := s.checkpoint.sync, worker := .replace offset }
  | .replace offset => some { s with checkpoint := s.checkpoint.rename, worker := .test offset }
  | .returned _ => none

def step (s : WorkQueue) : QueueAct → Option WorkQueue
  | .log a =>
      match a with
      | .crash => none
      | .powerLoss _ _ _ => none
      | .closeOwner =>
          if s.worker.runs then none else (s.log.step a).map fun l => { s with log := l }
      | _ => (s.log.step a).map fun l => { s with log := l }
  | .crash => (s.log.step .crash).map fun l => { s with log := l, worker := .absent }
  | .powerLoss i k m j i' k' m' beside =>
      (s.log.step (.powerLoss i k m)).map fun l =>
        { s with
          log := l, checkpoint := s.checkpoint.powerLoss j i' k' m' beside, worker := .absent }
  | .start =>
      match s.log.owner with
      | .live _ =>
          if s.worker.runs then none
          else
            match readCheckpoint s.checkpoint.data with
            | .ok offset => some { s with worker := .test offset }
            | .error _ => some { s with worker := .absent }
      | _ => none
  | .work =>
      match s.log.owner with
      | .live w => s.work w
      | _ => none
  | .stop => if s.worker.runs then some { s with worker := .absent } else none

variable {s t : WorkQueue} {a : QueueAct} {w : Writer}

/-- The ways a worker can go on. -/
inductive Work (s : WorkQueue) (w : Writer) : WorkQueue → Prop
  | test (offset : Int) (hpc : s.worker = .test offset) :
      Work s w { s with
        worker :=
          if offset < nextOffset w.index then .read offset else .returned (nextOffset w.index) }
  | read (offset : Int) (chunk : List Bytes) (hpc : s.worker = .read offset)
      (hread : Durastream.read s.log.name true s.log.file.data w.index offset
        (some (offset + chunkSize)) = .ok chunk) :
      Work s w { s with worker := .jobs offset chunk 0 }
  | job (offset : Int) (chunk : List Bytes) (k : Nat) (raw : Bytes)
      (hpc : s.worker = .jobs offset chunk k) (hraw : chunk[k]? = some raw) :
      Work s w { s with
        worker := .jobs offset chunk (k + 1), done := s.done ++ [(offset.toNat + k, raw)] }
  | chunkDone (offset : Int) (chunk : List Bytes) (k : Nat)
      (hpc : s.worker = .jobs offset chunk k) (hraw : chunk[k]? = none) :
      Work s w { s with worker := .create (offset + chunk.length) }
  | create (offset : Int) (hpc : s.worker = .create offset) :
      Work s w { s with checkpoint := s.checkpoint.create, worker := .write offset }
  | write (offset : Int) (text : Token) (hpc : s.worker = .write offset)
      (htext : str offset = .ok text) :
      Work s w { s with checkpoint := s.checkpoint.write text, worker := .sync offset }
  | sync (offset : Int) (hpc : s.worker = .sync offset) :
      Work s w { s with checkpoint := s.checkpoint.sync, worker := .replace offset }
  | replace (offset : Int) (hpc : s.worker = .replace offset) :
      Work s w { s with checkpoint := s.checkpoint.rename, worker := .test offset }
  /-- The read or `str` raises. -/
  | raised : Work s w { s with worker := .absent }

theorem work_cases (h : s.work w = some t) : Work s w t := by
  unfold work at h
  split at h
  · cases h
  · next offset hpc =>
      cases h
      exact .test offset hpc
  · next offset hpc =>
      split at h
      · split at h
        · next chunk hread =>
            cases h
            exact .read offset chunk hpc hread
        · cases h
          exact .raised
      · cases h
  · next offset chunk k hpc =>
      split at h
      · next raw hraw =>
          cases h
          exact .job offset chunk k raw hpc hraw
      · next hraw =>
          cases h
          exact .chunkDone offset chunk k hpc hraw
  · next offset hpc =>
      cases h
      exact .create offset hpc
  · next offset hpc =>
      split at h
      · next text htext =>
          cases h
          exact .write offset text hpc htext
      · cases h
        exact .raised
  · next offset hpc =>
      cases h
      exact .sync offset hpc
  · next offset hpc =>
      cases h
      exact .replace offset hpc
  · cases h

/-- The ways a step can go. -/
inductive Step (s : WorkQueue) : QueueAct → WorkQueue → Prop
  | log (a : LogAct) (l : LogState) (hl : s.log.step a = some l) :
      Step s (.log a) { s with log := l }
  | crash (l : LogState) (hl : s.log.step .crash = some l) :
      Step s .crash { s with log := l, worker := .absent }
  | powerLoss (i k m j i' k' m' : Nat) (beside : Option (CrashFile Char)) (l : LogState)
      (hl : s.log.step (.powerLoss i k m) = some l) :
      Step s (.powerLoss i k m j i' k' m' beside)
        { s with
          log := l, checkpoint := s.checkpoint.powerLoss j i' k' m' beside, worker := .absent }
  | start (offset : Int) (hread : readCheckpoint s.checkpoint.data = .ok offset) :
      Step s .start { s with worker := .test offset }
  /-- The checkpoint cannot be read. -/
  | refused : Step s .start { s with worker := .absent }
  | work (w : Writer) (t : WorkQueue) (howner : s.log.owner = .live w) (hwork : Work s w t) :
      Step s .work t
  | stop : Step s .stop { s with worker := .absent }

theorem step_cases (h : s.step a = some t) : Step s a t := by
  cases a with
  | log a =>
      have hlog : (s.log.step a).map (fun l => { s with log := l }) = some t →
          Step s (.log a) t := by
        intro hmap
        obtain ⟨l, hl, rfl⟩ := Option.map_eq_some_iff.mp hmap
        exact .log a l hl
      simp only [step] at h
      split at h
      · cases h
      · cases h
      · split at h
        · cases h
        · exact hlog h
      · exact hlog h
  | crash =>
      simp only [step] at h
      obtain ⟨l, hl, rfl⟩ := Option.map_eq_some_iff.mp h
      exact .crash l hl
  | powerLoss i k m j i' k' m' beside =>
      simp only [step] at h
      obtain ⟨l, hl, rfl⟩ := Option.map_eq_some_iff.mp h
      exact .powerLoss i k m j i' k' m' beside l hl
  | start =>
      simp only [step] at h
      split at h
      · split at h
        · cases h
        · split at h
          · next offset hread =>
              cases h
              exact .start offset hread
          · cases h
            exact .refused
      · cases h
  | work =>
      simp only [step] at h
      split at h
      · next w howner => exact .work w t howner (work_cases h)
      · cases h
  | stop =>
      simp only [step] at h
      split at h
      · cases h
        exact .stop
      · cases h

/-- Every opening of the log is safe. -/
def opensSafely (s : WorkQueue) : QueueAct → Prop
  | .log a => SafeOpening s.log a
  | _ => True

instance (s : WorkQueue) (a : QueueAct) : Decidable (s.opensSafely a) := by
  cases a <;> unfold opensSafely <;> infer_instance

/-! ## The file beside the checkpoint -/

/-- The text of an offset is read as the offset. -/
theorem readCheckpoint_str {n : Nat} {text : Token} (h : .ok text = str n) :
    readCheckpoint (some text) = .ok n := by
  have hneg : ¬(n : Int) < 0 := by omega
  rw [str, Int.natAbs_natCast, if_neg hneg] at h
  split at h
  · cases h
  · next hlen =>
      cases h
      rw [readCheckpoint, strip_toDigits, int_toDigits (Nat.not_lt.mp hlen)]

/-- The file beside the checkpoint has what the worker wrote to it. -/
def Beside (s : WorkQueue) : Prop :=
  match s.worker with
  | .write _ => ∃ g ∈ s.checkpoint.beside, g.data = []
  | .sync offset => ∃ g ∈ s.checkpoint.beside, .ok g.data = str offset
  | .replace offset => ∃ g ∈ s.checkpoint.beside, .ok g.data = str offset ∧ g.settled = true
  | _ => True

namespace Beside

theorem work (h : s.Beside) (hwork : Work s w t) : t.Beside := by
  unfold Beside at h
  cases hwork with
  | test offset hpc => split <;> trivial
  | read offset chunk hpc hread => trivial
  | job offset chunk k raw hpc hraw => trivial
  | chunkDone offset chunk k hpc hraw => trivial
  | create offset hpc => exact s.checkpoint.beside_create
  | write offset text hpc htext =>
      rw [hpc] at h
      obtain ⟨g, hg, hempty⟩ := h
      refine ⟨g.write text, ?_, ?_⟩
      · show g.write text ∈ s.checkpoint.beside.map _
        rw [Option.mem_def.mp hg]
        rfl
      · rw [CrashFile.data_write, hempty, htext]
        rfl
  | sync offset hpc =>
      rw [hpc] at h
      obtain ⟨g, hg, htext⟩ := h
      refine ⟨g.sync, ?_, htext, g.settled_sync⟩
      show g.sync ∈ s.checkpoint.beside.map _
      rw [Option.mem_def.mp hg]
      rfl
  | replace offset hpc => trivial
  | raised => trivial

theorem step (h : s.Beside) (hstep : Step s a t) : t.Beside := by
  cases hstep with
  | log a l hl => exact h
  | work w t howner hwork => exact h.work hwork
  | _ => trivial

end Beside

/-! ## No job is lost -/

/-- The first `n` jobs are on the device, and are done. -/
def Processed (s : WorkQueue) (n : Nat) : Prop :=
  n ≤ (durable s.log.file).length ∧
    ∀ i r, i < n → (durable s.log.file)[i]? = some r → (i, r) ∈ s.done

/-- A checkpoint that says so many jobs are done, which they are. -/
def Reached (s : WorkQueue) (text : Option Token) : Prop :=
  ∃ n : Nat, readCheckpoint text = .ok n ∧ s.Processed n

/-- Only jobs of the stream are done.  Those below every checkpoint that a power loss can
leave are, and those the worker has left behind. -/
structure Ok (s : WorkQueue) : Prop where
  log : s.log.Visible
  done : ∀ i r, (i, r) ∈ s.done → (durable s.log.file)[i]? = some r
  checkpoint : s.checkpoint.Every s.Reached
  worker : ∀ offset ∈ s.worker.offset, ∃ n : Nat, offset = n ∧ s.Processed n
  chunk : ∀ offset chunk k, s.worker = .jobs offset chunk k →
    0 ≤ offset ∧ chunk <+: (durable s.log.file).drop offset.toNat ∧ k ≤ chunk.length

/-- What is done stays done. -/
theorem Processed.mono {n : Nat} (h : s.Processed n)
    (hdurable : durable s.log.file <+: durable t.log.file) (hdone : s.done ⊆ t.done) :
    t.Processed n := by
  obtain ⟨hle, hall⟩ := h
  refine ⟨Nat.le_trans hle hdurable.length_le, fun i r hi hr => hdone (hall i r hi ?_)⟩
  obtain ⟨rest, hrest⟩ := hdurable
  rwa [← hrest, List.getElem?_append_left (Nat.lt_of_lt_of_le hi hle)] at hr

namespace Ok

theorem init (name : Name) (data : Bytes) : (WorkQueue.init name data).Ok where
  log := .init name data
  done := fun _ _ h => absurd h List.not_mem_nil
  checkpoint := .ofDisk ⟨0, rfl, Nat.zero_le _, fun _ _ h => absurd h (Nat.not_lt_zero _)⟩
  worker := fun _ h => by cases h
  chunk := fun _ _ _ h => by cases h

/-- A step of the log takes nothing back. -/
theorem log_step (h : s.Ok) {a : LogAct} {l : LogState} (hsafe : SafeOpening s.log a)
    (hl : s.log.step a = some l) : ({ s with log := l } : WorkQueue).Ok := by
  obtain ⟨hlog, hmono⟩ := h.log.step hsafe (LogState.step_cases hl)
  have hprocessed : ∀ n, s.Processed n → ({ s with log := l } : WorkQueue).Processed n :=
    fun n hn => hn.mono hmono (List.Subset.refl _)
  refine ⟨hlog, fun i r hr => ?_, h.checkpoint.mono fun d hd => ?_, fun offset ho => ?_,
    fun offset chunk k hpc => ?_⟩
  · have hold := h.done i r hr
    obtain ⟨rest, hrest⟩ := hmono
    rw [← hrest, List.getElem?_append_left (List.getElem?_eq_some_iff.mp hold).1, hold]
  · obtain ⟨n, hread, hn⟩ := hd
    exact ⟨n, hread, hprocessed n hn⟩
  · obtain ⟨n, hn, hp⟩ := h.worker offset ho
    exact ⟨n, hn, hprocessed n hp⟩
  · obtain ⟨hle, hchunk, hk⟩ := h.chunk offset chunk k hpc
    exact ⟨hle, hchunk.trans (hmono.drop _), hk⟩

/-- The worker is at a place where it relies on no more than how far it has got. -/
theorem moves (h : s.Ok) {f : ReplacedFile Char} {pc : WorkerPc} (hf : f.Every s.Reached)
    (hoffset : ∀ offset ∈ pc.offset, ∃ n : Nat, offset = n ∧ s.Processed n)
    (hjobs : ∀ offset chunk k, pc ≠ .jobs offset chunk k) :
    ({ s with checkpoint := f, worker := pc } : WorkQueue).Ok :=
  ⟨h.log, h.done, hf, hoffset, fun _ _ _ heq => absurd heq (hjobs _ _ _)⟩

theorem leaves (h : s.Ok) : ({ s with worker := .absent } : WorkQueue).Ok :=
  h.moves h.checkpoint (fun _ ho => by cases ho) (by simp)

/-- The handle of the worker reads what is on the device. -/
theorem reads (h : s.Ok) (howner : s.log.owner = .live w) :
    ∃ rs, w.Ok s.log.file.data rs ∧ durable s.log.file = rs := by
  have hown := h.log.owner
  rw [howner] at hown
  obtain ⟨rs, hok, hsync⟩ := hown
  exact ⟨rs, hok, durable_eq hok.fits hok.isPrefix hsync⟩

theorem test (h : s.Ok) (howner : s.log.owner = .live w) {offset : Int}
    (hpc : s.worker = .test offset) :
    ({ s with worker :=
      if offset < nextOffset w.index then .read offset
      else .returned (nextOffset w.index) } : WorkQueue).Ok := by
  obtain ⟨n, rfl, hn⟩ := h.worker offset (by rw [hpc]; rfl)
  split
  · exact h.moves h.checkpoint (fun o ho => ⟨n, by cases ho; rfl, hn⟩) (by simp)
  · next hle =>
      obtain ⟨rs, hok, hdurable⟩ := h.reads howner
      rw [hok.index, nextOffset_marks] at hle ⊢
      have hall : n = rs.length := by
        have hle' := hn.1
        rw [hdurable] at hle'
        omega
      rw [hall] at hn
      exact h.moves h.checkpoint (fun o ho => ⟨_, by cases ho; rfl, hn⟩) (by simp)

theorem read (h : s.Ok) (howner : s.log.owner = .live w) {offset : Int} {chunk : List Bytes}
    (hpc : s.worker = .read offset)
    (hread : Durastream.read s.log.name true s.log.file.data w.index offset
      (some (offset + chunkSize)) = .ok chunk) :
    ({ s with worker := .jobs offset chunk 0 } : WorkQueue).Ok := by
  obtain ⟨n, rfl, hn⟩ := h.worker offset (by rw [hpc]; rfl)
  obtain ⟨rs, hok, hdurable⟩ := h.reads howner
  rw [hok.index, read_marks _ hok.fits hok.isPrefix, show (max (n : Int) 0).toNat = n by omega,
    Except.ok.injEq] at hread
  refine ⟨h.log, h.done, h.checkpoint, fun o ho => ⟨n, by cases ho; simp, hn⟩, fun o c k heq => ?_⟩
  cases heq
  refine ⟨Int.natCast_nonneg n, ?_, Nat.zero_le _⟩
  show chunk <+: (durable s.log.file).drop (n : Int).toNat
  rw [← hread, hdurable, Int.toNat_natCast]
  have htake := List.take_prefix (readStop rs.length (some ((n : Int) + chunkSize))) rs
  exact htake.drop n

/-- A job is done. -/
theorem job (h : s.Ok) {offset : Int} {chunk : List Bytes} {k : Nat} {raw : Bytes}
    (hpc : s.worker = .jobs offset chunk k) (hraw : chunk[k]? = some raw) :
    ({ s with
      worker := .jobs offset chunk (k + 1)
      done := s.done ++ [(offset.toNat + k, raw)] } : WorkQueue).Ok := by
  obtain ⟨hpos, hchunk, hk⟩ := h.chunk offset chunk k hpc
  obtain ⟨hlt, hraw'⟩ := List.getElem?_eq_some_iff.mp hraw
  obtain ⟨m, hm, hp⟩ := h.worker _ (by rw [hpc]; rfl)
  have hplace : m = offset.toNat + k := by omega
  have hdurable : (durable s.log.file)[offset.toNat + k]? = some raw := by
    obtain ⟨rest, hrest⟩ := hchunk
    rw [← List.getElem?_drop, ← hrest, List.getElem?_append_left hlt, hraw]
  have hprocessed : ∀ n, s.Processed n → ({ s with
      worker := .jobs offset chunk (k + 1)
      done := s.done ++ [(offset.toNat + k, raw)] } : WorkQueue).Processed n :=
    fun n hn => hn.mono List.prefix_rfl (List.subset_append_left _ _)
  refine ⟨h.log, fun i r hr => ?_, h.checkpoint.mono fun d hd => ?_, fun o ho => ?_,
    fun o c k' heq => ?_⟩
  · rcases List.mem_append.mp hr with hr | hr
    · exact h.done i r hr
    · cases List.mem_singleton.mp hr
      exact hdurable
  · obtain ⟨n, hread, hn⟩ := hd
    exact ⟨n, hread, hprocessed n hn⟩
  · cases ho
    have hlength := (List.getElem?_eq_some_iff.mp (hplace ▸ hdurable)).1
    refine ⟨m + 1, by omega, hlength, fun i r hi hr => ?_⟩
    by_cases him : i < m
    · exact (hprocessed m hp).2 i r him hr
    · have heq : i = offset.toNat + k := by omega
      have hr' : (durable s.log.file)[i]? = some r := hr
      rw [heq, hdurable] at hr'
      cases hr'
      rw [heq]
      exact List.mem_append_right _ List.mem_cons_self
  · cases heq
    exact ⟨hpos, hchunk, hlt⟩

/-- The chunk is done. -/
theorem chunkDone (h : s.Ok) {offset : Int} {chunk : List Bytes} {k : Nat}
    (hpc : s.worker = .jobs offset chunk k) (hraw : chunk[k]? = none) :
    ({ s with worker := .create (offset + chunk.length) } : WorkQueue).Ok := by
  obtain ⟨-, -, hk⟩ := h.chunk offset chunk k hpc
  have hend : k = chunk.length := Nat.le_antisymm hk (List.getElem?_eq_none_iff.mp hraw)
  refine h.moves h.checkpoint (fun o ho => ?_) (by simp)
  cases ho
  rw [← hend]
  exact h.worker _ (by rw [hpc]; rfl)

theorem replace (h : s.Ok) (hbeside : s.Beside) {offset : Int}
    (hpc : s.worker = .replace offset) :
    ({ s with checkpoint := s.checkpoint.rename, worker := .test offset } : WorkQueue).Ok := by
  obtain ⟨n, rfl, hn⟩ := h.worker offset (by rw [hpc]; rfl)
  rw [Beside, hpc] at hbeside
  obtain ⟨g, hg, htext, hsettled⟩ := hbeside
  have hreached : s.Reached (some g.data) := ⟨n, readCheckpoint_str htext, hn⟩
  exact h.moves (h.checkpoint.rename hg hreached hsettled)
    (fun o ho => ⟨n, by cases ho; rfl, hn⟩) (by simp)

/-- A step of the worker. -/
theorem work (h : s.Ok) (hbeside : s.Beside) (howner : s.log.owner = .live w)
    (hwork : Work s w t) : t.Ok := by
  have hoffset : ∀ offset ∈ s.worker.offset, ∃ n : Nat, offset = n ∧ s.Processed n := h.worker
  cases hwork with
  | test offset hpc => exact h.test howner hpc
  | read offset chunk hpc hread => exact h.read howner hpc hread
  | job offset chunk k raw hpc hraw => exact h.job hpc hraw
  | chunkDone offset chunk k hpc hraw => exact h.chunkDone hpc hraw
  | create offset hpc =>
      rw [hpc] at hoffset
      exact h.moves h.checkpoint.create hoffset (by simp)
  | write offset text hpc htext =>
      rw [hpc] at hoffset
      exact h.moves (h.checkpoint.write text) hoffset (by simp)
  | sync offset hpc =>
      rw [hpc] at hoffset
      exact h.moves h.checkpoint.sync hoffset (by simp)
  | replace offset hpc => exact h.replace hbeside hpc
  | raised => exact h.leaves

theorem step (h : s.Ok) (hbeside : s.Beside) (hsafe : s.opensSafely a) (hstep : Step s a t) :
    t.Ok := by
  cases hstep with
  | log a l hl => exact h.log_step hsafe hl
  | crash l hl => exact (h.log_step (a := .crash) trivial hl).leaves
  | powerLoss i k m j i' k' m' beside l hl =>
      have hlog := h.log_step (a := .powerLoss i k m) trivial hl
      exact hlog.moves (hlog.checkpoint.powerLoss j i' k' m' beside) (fun _ ho => by cases ho)
        (by simp)
  | start offset hread =>
      obtain ⟨n, hn, hp⟩ := h.checkpoint.data
      rw [hn] at hread
      cases hread
      exact h.moves h.checkpoint (fun o ho => ⟨n, by cases ho; rfl, hp⟩) (by simp)
  | refused => exact h.leaves
  | work w t howner hwork => exact h.work hbeside howner hwork
  | stop => exact h.leaves

end Ok

/-! ## How far a checkpoint may be behind -/

/-- The worker is no more than a chunk ahead of the checkpoint. -/
def Ahead (c : Nat) : WorkerPc → Prop
  | .absent => True
  | .test offset => offset = c
  | .read offset => offset = c
  | .jobs offset chunk k => offset = c ∧ chunk.length ≤ chunkSize ∧ k ≤ chunk.length
  | .create offset => c ≤ offset ∧ offset ≤ c + chunkSize
  | .write offset => c ≤ offset ∧ offset ≤ c + chunkSize
  | .sync offset => c ≤ offset ∧ offset ≤ c + chunkSize
  | .replace offset => c ≤ offset ∧ offset ≤ c + chunkSize
  | .returned _ => True

/-- The jobs that are done are less than a chunk ahead of the checkpoint. -/
structure Near (s : WorkQueue) (c : Nat) : Prop where
  checkpoint : readCheckpoint s.checkpoint.data = .ok c
  done : ∀ i r, (i, r) ∈ s.done → i < c + chunkSize
  worker : Ahead c s.worker

namespace Near

variable {c : Nat}

/-- A read gives no more than a chunk, also where some of it is not on the device. -/
theorem length_chunk {rs₀ chunk : List Bytes} (h : s.log.Durable rs₀)
    (howner : s.log.owner = .live w)
    (hread : Durastream.read s.log.name true s.log.file.data w.index c
      (some ((c : Int) + chunkSize)) = .ok chunk) : chunk.length ≤ chunkSize := by
  have hown := h.owner
  rw [howner] at hown
  obtain ⟨rs, hok, -⟩ := hown
  rw [hok.index, read_marks _ hok.fits hok.isPrefix, Except.ok.injEq] at hread
  rw [← hread, List.length_drop, List.length_take, readStop]
  omega

/-- The worker goes on, and the checkpoint reads as before. -/
theorem moves (h : s.Near c) (l : LogState) {f : ReplacedFile Char} {pc : WorkerPc}
    (hf : f.data = s.checkpoint.data) (hpc : Ahead c pc) :
    ({ s with log := l, checkpoint := f, worker := pc } : WorkQueue).Near c :=
  ⟨hf ▸ h.checkpoint, h.done, hpc⟩

/-- A job of the chunk is done. -/
theorem job (h : s.Near c) {offset : Int} {chunk : List Bytes} {k : Nat} {raw : Bytes}
    (hpc : s.worker = .jobs offset chunk k) (hraw : chunk[k]? = some raw) :
    ({ s with
      worker := .jobs offset chunk (k + 1)
      done := s.done ++ [(offset.toNat + k, raw)] } : WorkQueue).Near c := by
  have hplace := h.worker
  rw [hpc] at hplace
  obtain ⟨rfl, hlen, -⟩ := hplace
  have hlt := (List.getElem?_eq_some_iff.mp hraw).1
  refine ⟨h.checkpoint, fun i r hr => ?_, rfl, hlen, hlt⟩
  rcases List.mem_append.mp hr with hr | hr
  · exact h.done i r hr
  · cases List.mem_singleton.mp hr
    rw [Int.toNat_natCast]
    omega

/-- The new checkpoint is where the worker is. -/
theorem replace (h : s.Near c) (hbeside : s.Beside) {offset : Int}
    (hpc : s.worker = .replace offset) :
    ∃ c', ({ s with checkpoint := s.checkpoint.rename, worker := .test offset } :
      WorkQueue).Near c' := by
  have hplace := h.worker
  rw [hpc] at hplace
  obtain ⟨hle, -⟩ := hplace
  rw [Beside, hpc] at hbeside
  obtain ⟨g, hg, htext, -⟩ := hbeside
  obtain ⟨m, rfl⟩ := Int.eq_ofNat_of_zero_le (Int.le_trans (Int.natCast_nonneg c) hle)
  refine ⟨m, ?_, fun i r hr => ?_, rfl⟩
  · show readCheckpoint s.checkpoint.rename.data = _
    rw [ReplacedFile.data_rename hg, readCheckpoint_str htext]
  · have hlt := h.done i r hr
    omega

/-- A step of the worker. -/
theorem work {rs₀ : List Bytes} (h : s.Near c) (hlog : s.log.Durable rs₀) (hbeside : s.Beside)
    (howner : s.log.owner = .live w) (hwork : Work s w t) : ∃ c', t.Near c' := by
  have hplace := h.worker
  cases hwork with
  | test offset hpc =>
      rw [hpc] at hplace
      refine ⟨c, h.moves _ rfl ?_⟩
      split
      · exact hplace
      · trivial
  | read offset chunk hpc hread =>
      rw [hpc] at hplace
      cases hplace
      exact ⟨c, h.moves _ rfl ⟨rfl, length_chunk hlog howner hread, Nat.zero_le _⟩⟩
  | job offset chunk k raw hpc hraw => exact ⟨c, h.job hpc hraw⟩
  | chunkDone offset chunk k hpc hraw =>
      rw [hpc] at hplace
      obtain ⟨rfl, hlen, -⟩ := hplace
      exact ⟨c, h.moves _ rfl ⟨by omega, by omega⟩⟩
  | create offset hpc =>
      rw [hpc] at hplace
      exact ⟨c, h.moves _ rfl hplace⟩
  | write offset text hpc htext =>
      rw [hpc] at hplace
      exact ⟨c, h.moves _ rfl hplace⟩
  | sync offset hpc =>
      rw [hpc] at hplace
      exact ⟨c, h.moves _ rfl hplace⟩
  | replace offset hpc => exact h.replace hbeside hpc
  | raised => exact ⟨c, h.moves _ rfl trivial⟩

/-- Whatever happens but a power loss. -/
theorem step {rs₀ : List Bytes} (h : s.Near c) (hlog : s.log.Durable rs₀) (hbeside : s.Beside)
    (hpower : ∀ i k m j i' k' m' beside, a ≠ .powerLoss i k m j i' k' m' beside)
    (hstep : Step s a t) : ∃ c', t.Near c' := by
  cases hstep with
  | log a l hl => exact ⟨c, h.moves l rfl h.worker⟩
  | crash l hl => exact ⟨c, h.moves l rfl trivial⟩
  | powerLoss i k m j i' k' m' beside l hl => exact absurd rfl (hpower i k m j i' k' m' beside)
  | start offset hread =>
      rw [h.checkpoint] at hread
      cases hread
      exact ⟨c, h.moves _ rfl rfl⟩
  | refused => exact ⟨c, h.moves _ rfl trivial⟩
  | work w t howner hwork => exact h.work hlog hbeside howner hwork
  | stop => exact ⟨c, h.moves _ rfl trivial⟩

end Near

/-- The log is accounted for in every run. -/
theorem durable_step {rs₀ : List Bytes} (h : s.log.Durable rs₀) (hstep : Step s a t) :
    t.log.Durable rs₀ := by
  have hlog : ∀ {a l}, s.log.step a = some l → l.Durable rs₀ :=
    fun hl => h.step (LogState.step_cases hl)
  cases hstep with
  | log a l hl => exact hlog hl
  | crash l hl => exact hlog hl
  | powerLoss i k m j i' k' m' beside l hl => exact hlog hl
  | work w t howner hwork => cases hwork <;> exact h
  | _ => exact h

/-! ## The results -/

/-- A process crashes before the sync of an append, the next owner finds the record and a
worker does its job, and then the power fails.  The job that comes to the same offset is
not done. -/
def lostBehindCheckpoint : List QueueAct :=
  [.log (.openOwner false), .log (.append [[1]]), .log (.io (.write 9)), .crash,
    .log (.openOwner false), .start, .work, .work, .work, .work, .work, .work, .work, .work,
    .powerLoss 0 0 0 0 0 0 0 none, .log (.openOwner false), .log (.append [[2]]),
    .log (.io (.write 9)), .log (.io (.sync true)), .start, .work]

/-- An opening that is not safe loses a job. -/
theorem job_lost :
    ∃ s, Lts.run step (init ['t'] []) lostBehindCheckpoint = some s ∧ s.worker = .returned 1 ∧
      (durable s.log.file)[0]? = some [2] ∧ (0, [2]) ∉ s.done := by
  have hmap : (Lts.run step (init ['t'] []) lostBehindCheckpoint).map (fun s =>
      (s.worker.runs, s.worker.offset, (durable s.log.file)[0]?, decide ((0, [2]) ∈ s.done))) =
        some (false, some 1, some [2], false) := by
    decide +kernel
  obtain ⟨s, hrun, hview⟩ := Option.map_eq_some_iff.mp hmap
  simp only [Prod.mk.injEq] at hview
  obtain ⟨hruns, hoffset, hdurable, hdone⟩ := hview
  refine ⟨s, hrun, ?_, hdurable, of_decide_eq_false hdone⟩
  exact WorkerPc.returned_of_offset hruns hoffset

/-- If every opening of the log is safe, no job is lost, whatever crashes: what is done
are jobs of the stream, once at least for each below any checkpoint that a power loss can
leave, and for each below the next offset at which a worker has returned. -/
theorem none_lost (name : Name) (data : Bytes) (acts : List QueueAct) (s : WorkQueue)
    (hrun : Lts.run step (init name data) acts = some s)
    (hsafe : Lts.Meets step opensSafely (init name data) acts) :
    (∀ i r, (i, r) ∈ s.done → (durable s.log.file)[i]? = some r) ∧
      (∀ j i k m beside, ∃ c : Nat,
        readCheckpoint (s.checkpoint.powerLoss j i k m beside).data = .ok c ∧ s.Processed c) ∧
      ∀ next, s.worker = .returned next → s.Processed next := by
  have hinv := Lts.run_invariant_of_meets (I := fun s : WorkQueue => s.Beside ∧ s.Ok)
    (fun s a t h hsafe hstep =>
      ⟨h.1.step (step_cases hstep), h.2.step h.1 hsafe (step_cases hstep)⟩) hrun hsafe
    ⟨trivial, .init name data⟩
  obtain ⟨-, hok⟩ := hinv
  refine ⟨hok.done, fun j i k m beside => (hok.checkpoint.powerLoss j i k m beside).data, ?_⟩
  intro next hpc
  obtain ⟨n, hn, hp⟩ := hok.worker next (by rw [hpc]; rfl)
  cases hn
  exact hp

/-- A worker crashes in the middle of a chunk, and the next one does it all. -/
def crashedInChunk : List QueueAct :=
  [.log (.openOwner false), .log (.append [[1], [2]]), .log (.io (.write 18)),
    .log (.io (.sync true)), .start, .work, .work, .work, .crash]

/-- The next worker of the queue. -/
def doneAgain : List QueueAct :=
  [.log (.openOwner false), .start, .work, .work, .work, .work, .work, .work, .work, .work, .work,
    .work]

theorem none_lost_doneAgain :
    ∃ s, Lts.run step (init ['t'] []) (crashedInChunk ++ doneAgain) = some s ∧
      s.worker = .returned 2 ∧ s.Processed 2 := by
  have hmap : (Lts.run step (init ['t'] []) (crashedInChunk ++ doneAgain)).map (fun s =>
      (s.worker.runs, s.worker.offset)) = some (false, some 2) := by
    decide +kernel
  obtain ⟨s, hrun, hview⟩ := Option.map_eq_some_iff.mp hmap
  obtain ⟨hruns, hoffset⟩ := Prod.mk.inj hview
  have hreturned : s.worker = .returned 2 := WorkerPc.returned_of_offset hruns hoffset
  have hlost := none_lost ['t'] [] _ s hrun (by decide +kernel)
  exact ⟨s, hrun, hreturned, hlost.2.2 2 hreturned⟩

/-- Without a power loss, no job that is done is a chunk or more ahead of the checkpoint, so
a worker that starts repeats a chunk at most.  The openings need not be safe: a worker may
do jobs that are not on the device yet. -/
theorem repeats_bounded (name : Name) (data : Bytes) (acts : List QueueAct) (s : WorkQueue)
    (hrun : Lts.run step (init name data) acts = some s)
    (hpower : ∀ i k m j i' k' m' beside, .powerLoss i k m j i' k' m' beside ∉ acts) :
    ∃ c : Nat, readCheckpoint s.checkpoint.data = .ok c ∧
      ∀ i r, (i, r) ∈ s.done → i < c + chunkSize := by
  have hmeets : Lts.Meets step (fun _ a => ∀ i k m j i' k' m' beside,
      a ≠ .powerLoss i k m j i' k' m' beside) (init name data) acts :=
    .of_mem fun a ha i k m j i' k' m' beside heq => hpower i k m j i' k' m' beside (heq ▸ ha)
  have hinv := Lts.run_invariant_of_meets
    (I := fun s : WorkQueue => s.log.Durable (records data) ∧ s.Beside ∧ ∃ c, s.Near c)
    (fun s a t h hpower hstep => by
      obtain ⟨hlog, hbeside, c, hn⟩ := h
      have hcases := step_cases hstep
      exact ⟨durable_step hlog hcases, hbeside.step hcases, hn.step hlog hbeside hpower hcases⟩)
    hrun hmeets
      ⟨.init name data, trivial, 0, rfl, fun _ _ hr => absurd hr List.not_mem_nil, trivial⟩
  obtain ⟨-, -, c, hn⟩ := hinv
  exact ⟨c, hn.checkpoint, hn.done⟩

/-- A process crashes before the sync of an append.  The next one finds both records, and
crashes when it has done the first of them. -/
def crashedUnsynced : List QueueAct :=
  [.log (.openOwner false), .log (.append [[1], [2]]), .log (.io (.write 18)), .crash,
    .log (.openOwner false), .start, .work, .work, .work, .crash]

theorem repeats_bounded_crashedUnsynced :
    ∃ s, Lts.run step (init ['t'] []) crashedUnsynced = some s ∧ (0, [1]) ∈ s.done ∧
      ∃ c : Nat, readCheckpoint s.checkpoint.data = .ok c ∧
        ∀ i r, (i, r) ∈ s.done → i < c + chunkSize := by
  have hsome : (Lts.run step (init ['t'] []) crashedUnsynced).any
      (fun s => (0, [1]) ∈ s.done) = true := by
    decide +kernel
  obtain ⟨s, hrun, hdone⟩ := (Option.any_eq_true _ _).mp hsome
  exact ⟨s, hrun, of_decide_eq_true hdone,
    repeats_bounded ['t'] [] crashedUnsynced s hrun (by simp [crashedUnsynced])⟩

end WorkQueue

end Durastream
