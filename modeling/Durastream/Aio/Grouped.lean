import Durastream.Aio.Flushes
import Durastream.Stream.Recovery

/-!
# The batch writer over its log

In `Batching` an append is one step: it makes its whole batch durable, or none of it.
Here it is what it is, the system calls of `_append_locked` on the log of the stream, in
a thread of its own.  Other threads append to the stream as well, and the lock of the
stream lets one append through at a time.  Nobody deletes the stream or closes its Store.

`Ok.refines` says that the tasks cannot tell the difference.  `accepted_survives` is what
the class promises: a reader sees no record that a power loss can take, and a crash can
only lose what is still in the buffer or being appended.
-/

namespace Durastream

/-- Whose append has the lock of the stream. -/
inductive Appender where
  /-- That of a flush, in its thread. -/
  | flush (t : Nat)
  /-- That of another thread. -/
  | thread
deriving DecidableEq

/-- A batch writer and the log of its stream. -/
structure Grouping where
  batching : Batching
  file : CrashFile UInt8
  writer : Writer
  writable : Bool
  appender : Option Appender

inductive GroupAct where
  /-- A step on the event loop. -/
  | loop (a : BatchAct)
  /-- The thread of a flush's append has the lock. -/
  | begin (t : Nat)
  /-- Another thread appends, up to its first system call. -/
  | append (payloads : List Bytes)
  /-- The next system call of the append in progress. -/
  | io (a : IoAct)
  /-- `close` of the stream; `ok` if it persists the flag. -/
  | close (ok : Bool)

/-- What happens on the event loop, and not in the thread of an append. -/
def BatchAct.onLoop : BatchAct → Bool
  | .appended _ _ => false
  | .other _ => false
  | _ => true

namespace Batching

/-- The thread of a flush's append is done. -/
def answered (s : Batching) (t : Nat) (stream : List (Bool × Bytes)) (result : Except Error Nat) :
    Option Batching :=
  match s.tasks[t]? with
  | some task =>
      match task.append with
      | some ⟨batch, none⟩ =>
          some { s with
            stream := stream
            tasks := s.tasks.set t { task with append := some ⟨batch, some result⟩ } }
      | _ => none
  | none => none

end Batching

namespace Grouping

/-- A batch writer of a handle on a log with these whole frames. -/
def init (name : Name) (data : Bytes) (closed writable : Bool) : Grouping where
  batching := .init (records data)
  file := .ofDisk (frames (records data))
  writer := ⟨name, marks (records data), closed, .idle⟩
  writable := writable
  appender := none

/-- The append in progress ends. -/
def ended (s : Grouping) (who : Appender) (batch : List Bytes) (fate : Fate) : Option Batching :=
  match who, fate with
  | .flush t, .returned next =>
      s.batching.answered t (s.batching.stream ++ batch.map fun p => (true, p)) (.ok next)
  | .flush t, _ => s.batching.answered t s.batching.stream (.error .osError)
  | .thread, .returned _ =>
      some { s.batching with stream := s.batching.stream ++ batch.map fun p => (false, p) }
  | .thread, _ => some s.batching

def step (s : Grouping) : GroupAct → Option Grouping
  | .loop a =>
      if a.onLoop then (s.batching.step a).map fun b => { s with batching := b } else none
  | .begin t =>
      match (s.batching.tasks[t]?).bind FlushTask.append with
      | some ⟨batch, none⟩ =>
          match batch.mapM packFrame with
          | .error e => -- outside the lock
              (s.batching.answered t s.batching.stream (.error e)).map fun b =>
                { s with batching := b }
          | .ok _ =>
              if s.appender.isNone then
                match s.writer.begin s.writable true batch with
                | .raised e =>
                    (s.batching.answered t s.batching.stream (.error e)).map fun b =>
                      { s with batching := b }
                | .returned next =>
                    (s.batching.answered t s.batching.stream (.ok next)).map fun b =>
                      { s with batching := b }
                | .started w => some { s with writer := w, appender := some (.flush t) }
              else none
      | _ => none
  | .append payloads =>
      match payloads.mapM packFrame with
      | .error _ => some s
      | .ok _ =>
          if s.appender.isNone then
            match s.writer.begin s.writable true payloads with
            | .started w => some { s with writer := w, appender := some .thread }
            | _ => some s
          else none
  | .io a =>
      match s.appender, s.writer.step s.file a with
      | some _, some (file, w, none) => some { s with file := file, writer := w }
      | some who, some (file, w, some fate) =>
          (s.ended who (s.writer.pc.batch.getD []) fate).map fun b =>
            { s with batching := b, file := file, writer := w, appender := none }
      | _, _ => none
  | .close ok =>
      if s.appender.isNone then
        some { s with writer := { s.writer with closed := s.writer.closed || ok && s.writable } }
      else none

/-- No cancellation hits the wait for an append that has not succeeded. -/
def waitsOut (s : Grouping) : GroupAct → Bool
  | .loop a => s.batching.waitsOut a
  | _ => true

end Grouping

/-! ## What the event loop does to an append -/

namespace FlushTask

/-- A task has a batch once it has had the lock. -/
def Before (task : FlushTask) : Prop :=
  task.pc = .sleeping ∨ task.pc = .acquire → task.append = none

/-- The task goes on, and starts an append only if it has made none. -/
structure Goes (task task' : FlushTask) : Prop where
  append : task'.append = task.append ∨ task.append = none
  before : task'.Before

theorem before_of_pc {task : FlushTask} (hsleeping : task.pc ≠ .sleeping)
    (hacquire : task.pc ≠ .acquire) :
    task.Before := fun h => absurd h (not_or.mpr ⟨hsleeping, hacquire⟩)

end FlushTask

namespace Batching

variable {s s' : Batching} {t c : Nat} {task task' : FlushTask} {a : BatchAct}

/-- A task that gets the lock. -/
theorem locked_goes (s : Batching) (t : Nat) (hnone : task.append = none) :
    ∃ task', (s.locked t task).tasks = s.tasks.set t task' ∧ task.Goes task' ∧
      (s.locked t task).stream = s.stream := by
  unfold locked
  split
  · exact ⟨_, rfl, ⟨.inr hnone, FlushTask.before_of_pc (by simp) (by simp)⟩, rfl⟩
  · exact ⟨_, rfl, ⟨.inr hnone, FlushTask.before_of_pc (by simp) (by simp)⟩, rfl⟩

/-- A task that comes to the lock. -/
theorem enter_goes (s : Batching) (t : Nat) (hnone : task.append = none) :
    ∃ task', (s.enter t task).tasks = s.tasks.set t task' ∧ task.Goes task' ∧
      (s.enter t task).stream = s.stream := by
  unfold enter
  split
  · exact ⟨_, rfl, ⟨.inr hnone, FlushTask.before_of_pc (by simp) (by simp)⟩, rfl⟩
  · split
    · exact locked_goes s t hnone
    · exact ⟨_, rfl, ⟨.inr hnone, fun _ => hnone⟩, rfl⟩

theorem taskStep_goes (hbefore : task.Before) (hloop : a.onLoop = true)
    (hstep : s.taskStep t task a = some s') :
    ∃ task', s'.tasks = s.tasks.set t task' ∧ task.Goes task' ∧ s'.stream = s.stream := by
  have hdone : ∀ r, task.Goes { task with pc := .done r } := fun r =>
    ⟨.inl rfl, FlushTask.before_of_pc (by simp) (by simp)⟩
  unfold taskStep at hstep
  split at hstep
  · split at hstep
    · next hpc =>
        cases hstep
        have hnone := hbefore (.inl hpc)
        obtain ⟨task', htasks, hgoes, hstream⟩ := enter_goes
          { s with w := { s.w with timer := none } } t
          (show ({ task with before := s.accepted.length } : FlushTask).append = none from hnone)
        exact ⟨task', htasks, ⟨.inr hnone, hgoes.before⟩, hstream⟩
    · cases hstep
  · split at hstep
    · next hgrant =>
        cases hstep
        exact locked_goes _ t (hbefore (.inr hgrant.1))
    · cases hstep
  · cases hloop
  · split at hstep <;> cases hstep <;> exact ⟨_, rfl, hdone _, rfl⟩
  · split at hstep
    · cases hstep
      exact ⟨_, rfl, hdone _, rfl⟩
    · cases hstep
      exact ⟨_, rfl, hdone _, rfl⟩
    · split at hstep
      · cases hstep
        exact ⟨_, rfl, ⟨.inl rfl, FlushTask.before_of_pc (by simp) (by simp)⟩, rfl⟩
      · cases hstep
        exact ⟨_, rfl, hdone _, rfl⟩
    · cases hstep
      exact ⟨_, rfl, hdone _, rfl⟩
    · cases hstep
  · cases hstep

/-- Each task goes on, and others may come. -/
structure Goes (s s' : Batching) : Prop where
  stream : s'.stream = s.stream
  append : ∀ (t : Nat) (task : FlushTask), s.tasks[t]? = some task →
    ∃ task' : FlushTask, s'.tasks[t]? = some task' ∧
      (task'.append = task.append ∨ task.append = none)
  before : (∀ task ∈ s.tasks, task.Before) → ∀ task ∈ s'.tasks, task.Before

namespace Goes

theorem of_same (htasks : s'.tasks = s.tasks) (hstream : s'.stream = s.stream) : s.Goes s' :=
  ⟨hstream, fun t task ht => ⟨task, by rw [htasks, ht], .inl rfl⟩, by rw [htasks]; exact id⟩

theorem trans {u : Batching} (h : s.Goes s') (h' : s'.Goes u) : s.Goes u := by
  refine ⟨h'.stream.trans h.stream, fun t task ht => ?_,
    fun hbefore => h'.before (h.before hbefore)⟩
  obtain ⟨task', ht', happend⟩ := h.append t task ht
  obtain ⟨task'', ht'', happend'⟩ := h'.append t task' ht'
  refine ⟨task'', ht'', ?_⟩
  rcases happend with heq | hnone
  · rw [← heq]
    exact happend'
  · exact .inr hnone

/-- One task goes on. -/
theorem of_set (ht : s.tasks[t]? = some task) (htasks : s'.tasks = s.tasks.set t task')
    (hgoes : task.Goes task') (hstream : s'.stream = s.stream) : s.Goes s' := by
  refine ⟨hstream, fun c other hc => ?_, fun hbefore other hmem => ?_⟩
  · rw [htasks]
    by_cases hct : t = c
    · subst hct
      rw [ht] at hc
      cases hc
      exact ⟨task', List.getElem?_set_self (List.getElem?_eq_some_iff.mp ht).1, hgoes.append⟩
    · exact ⟨other, by rw [List.getElem?_set_ne hct, hc], .inl rfl⟩
  · rw [htasks] at hmem
    rcases List.mem_or_eq_of_mem_set hmem with hmem | rfl
    · exact hbefore other hmem
    · exact hgoes.before

theorem addTask (s : Batching) (caller : Caller) : s.Goes (s.addTask caller) := by
  refine ⟨rfl, fun c other hc => ⟨other, ?_, .inl rfl⟩, fun hbefore other hmem => ?_⟩
  · rw [Batching.addTask, List.getElem?_append_left (List.getElem?_eq_some_iff.mp hc).1, hc]
  · rcases List.mem_append.mp hmem with hmem | hmem
    · exact hbefore other hmem
    · rw [List.mem_singleton.mp hmem]
      exact fun _ => rfl

theorem callFlush (s : Batching) (caller : Caller) : s.Goes (s.callFlush caller) := by
  obtain ⟨task', htasks, hgoes, hstream⟩ := enter_goes (s.addTask caller) s.tasks.length
    (show (⟨caller, .sleeping, none, s.accepted.length⟩ : FlushTask).append = none from rfl)
  exact (addTask s caller).trans (.of_set List.getElem?_concat_length htasks hgoes hstream)

theorem cancelTimer (s : Batching) : s.Goes s.cancelTimer := by
  unfold Batching.cancelTimer
  split
  · exact .of_same rfl rfl
  · split
    · next task ht =>
        split
        · exact .of_set ht rfl ⟨.inl rfl, FlushTask.before_of_pc (by simp) (by simp)⟩ rfl
        · exact .of_same rfl rfl
    · exact .of_same rfl rfl

theorem write {payload : Bytes} (hstep : s.step (.write payload) = some s') : s.Goes s' := by
  simp only [Batching.step] at hstep
  split at hstep
  · cases hstep
    exact .of_same rfl rfl
  · split at hstep
    · cases hstep
      exact .of_same rfl rfl
    · have haccepted : s.Goes { s with
          w := { s.w with buf := s.w.buf ++ [payload] }
          accepted := s.accepted ++ [payload] } := .of_same rfl rfl
      split at hstep
      · cases hstep
        exact haccepted
      · cases hstep
        exact (haccepted.trans (addTask _ .timer)).trans (.of_same rfl rfl)

/-- A step on the event loop leaves the stream and the appends in progress alone. -/
theorem of_step (hbefore : ∀ task ∈ s.tasks, task.Before) (hloop : a.onLoop = true)
    (hstep : s.step a = some s') : s.Goes s' := by
  have htask : ∀ (t : Nat), a.onLoop = true →
      ((s.tasks[t]?).bind fun task => s.taskStep t task a) = some s' → s.Goes s' := by
    intro t hloop hbind
    obtain ⟨task, ht, hgo⟩ := Option.bind_eq_some_iff.mp hbind
    obtain ⟨task', htasks, hgoes, hstream⟩ :=
      taskStep_goes (hbefore task (List.mem_of_getElem? ht)) hloop hgo
    exact .of_set ht htasks hgoes hstream
  cases a with
  | write payload => exact write hstep
  | flush =>
      cases hstep
      exact callFlush s .flush
  | close =>
      cases hstep
      exact (cancelTimer s).trans (callFlush _ .close)
  | wake t => exact htask t hloop hstep
  | grant t => exact htask t hloop hstep
  | resume t => exact htask t hloop hstep
  | cancel t => exact htask t hloop hstep
  | appended t failure => cases hloop
  | other payload => cases hloop

/-- An append goes on. -/
theorem running (h : s.Goes s') {batch : List Bytes}
    (hbatch : (s.tasks[t]?).bind FlushTask.append = some ⟨batch, none⟩) :
    (s'.tasks[t]?).bind FlushTask.append = some ⟨batch, none⟩ := by
  obtain ⟨task, ht, happend⟩ := Option.bind_eq_some_iff.mp hbatch
  obtain ⟨task', ht', heq | hnone⟩ := h.append t task ht
  · rw [ht', Option.bind_some, heq, happend]
  · rw [hnone] at happend
    cases happend

end Goes

/-- The thread of an append that runs. -/
theorem answered_cases {stream : List (Bool × Bytes)} {result : Except Error Nat}
    (h : s.answered t stream result = some s') :
    ∃ (task : FlushTask) (batch : List Bytes), s.tasks[t]? = some task ∧
      task.append = some ⟨batch, none⟩ ∧
      s' = { s with
        stream := stream
        tasks := s.tasks.set t { task with append := some ⟨batch, some result⟩ } } := by
  unfold answered at h
  split at h
  · next task ht =>
      split at h
      · next batch happend =>
          cases h
          exact ⟨task, batch, ht, happend, rfl⟩
      · cases h
  · cases h

/-- An append that has raised is one that fails in one step. -/
theorem step_of_raised {e : Error} (h : s.answered t s.stream (.error e) = some s') :
    s.step (.appended t (some e)) = some s' := by
  obtain ⟨task, batch, ht, happend, rfl⟩ := answered_cases h
  simp only [Batching.step, ht, Option.bind_some, taskStep, happend]
  rfl

/-- An append that has returned the next offset is one that succeeds in one step. -/
theorem step_of_returned {batch : List Bytes} {next : Nat}
    (hbatch : (s.tasks[t]?).bind FlushTask.append = some ⟨batch, none⟩)
    (hnext : next = s.stream.length + batch.length)
    (h : s.answered t (s.stream ++ batch.map fun p => (true, p)) (.ok next) = some s') :
    s.step (.appended t none) = some s' := by
  obtain ⟨task, batch', ht, happend, rfl⟩ := answered_cases h
  rw [ht, Option.bind_some, happend] at hbatch
  cases hbatch
  simp only [Batching.step, ht, Option.bind_some, taskStep, happend, hnext, List.length_append,
    List.length_map]

/-- Only tasks that have taken a batch get an answer. -/
theorem before_of_answered {stream : List (Bool × Bytes)} {result : Except Error Nat}
    (h : s.answered t stream result = some s') (hbefore : ∀ task ∈ s.tasks, task.Before) :
    ∀ task ∈ s'.tasks, task.Before := by
  obtain ⟨task, batch, ht, happend, rfl⟩ := answered_cases h
  intro other hmem
  rcases List.mem_or_eq_of_mem_set hmem with hmem | rfl
  · exact hbefore other hmem
  · intro hpc
    rw [hbefore task (List.mem_of_getElem? ht) hpc] at happend
    cases happend

/-- Another appender makes its records durable one after another. -/
theorem run_other (s : Batching) (payloads : List Bytes) :
    Lts.run Batching.step s (payloads.map .other) =
      some { s with stream := s.stream ++ payloads.map fun p => (false, p) } := by
  induction payloads generalizing s with
  | nil => simp
  | cons p ps ih =>
      rw [List.map_cons, Lts.run_cons, Batching.step, Option.bind_some, ih]
      simp

end Batching

/-! ## What a step can do -/

namespace Grouping

inductive Step (s : Grouping) : GroupAct → Grouping → Prop where
  | loop (a : BatchAct) (b : Batching) :
      a.onLoop = true → s.batching.step a = some b → Step s (.loop a) { s with batching := b }
  | oversized (t : Nat) (e : Error) (batch : List Bytes) (b : Batching) :
      (s.batching.tasks[t]?).bind FlushTask.append = some ⟨batch, none⟩ → ¬Fits batch →
      s.batching.answered t s.batching.stream (.error e) = some b →
      Step s (.begin t) { s with batching := b }
  | refused (t : Nat) (e : Error) (b : Batching) :
      s.appender = none → s.batching.answered t s.batching.stream (.error e) = some b →
      Step s (.begin t) { s with batching := b }
  | empty (t next : Nat) (b : Batching) :
      s.appender = none → (s.batching.tasks[t]?).bind FlushTask.append = some ⟨[], none⟩ →
      next = nextOffset s.writer.index →
      s.batching.answered t s.batching.stream (.ok next) = some b →
      Step s (.begin t) { s with batching := b }
  | started (t : Nat) (batch : List Bytes) (w : Writer) :
      (s.batching.tasks[t]?).bind FlushTask.append = some ⟨batch, none⟩ → s.appender = none →
      s.writer.begin s.writable true batch = .started w →
      Step s (.begin t) { s with writer := w, appender := some (.flush t) }
  | startedAside (payloads : List Bytes) (w : Writer) :
      s.appender = none → s.writer.begin s.writable true payloads = .started w →
      Step s (.append payloads) { s with writer := w, appender := some .thread }
  | aside (payloads : List Bytes) : Step s (.append payloads) s
  | went (a : IoAct) (file : CrashFile UInt8) (w : Writer) :
      Writer.Step s.file s.writer file w none →
      Step s (.io a) { s with file := file, writer := w }
  | ended (a : IoAct) (who : Appender) (file : CrashFile UInt8) (w : Writer) (fate : Fate)
      (b : Batching) :
      s.appender = some who → Writer.Step s.file s.writer file w (some fate) →
      s.ended who (s.writer.pc.batch.getD []) fate = some b →
      Step s (.io a) { s with batching := b, file := file, writer := w, appender := none }
  | closed (ok : Bool) :
      s.appender = none →
      Step s (.close ok)
        { s with writer := { s.writer with closed := s.writer.closed || ok && s.writable } }

variable {s s' : Grouping} {a : GroupAct}

theorem begin_cases {t : Nat} (h : s.step (.begin t) = some s') : Step s (.begin t) s' := by
  simp only [step] at h
  split at h
  · next batch hbatch =>
      split at h
      · next e hpack =>
          obtain ⟨b, hb, rfl⟩ := Option.map_eq_some_iff.mp h
          refine .oversized t e batch b hbatch (fun hfit => ?_) hb
          rw [mapM_packFrame_of_fits hfit] at hpack
          cases hpack
      · split at h
        · next hfree =>
            split at h
            · next e hbegin =>
                obtain ⟨b, hb, rfl⟩ := Option.map_eq_some_iff.mp h
                exact .refused t e b (Option.isNone_iff_eq_none.mp hfree) hb
            · next next hbegin =>
                obtain ⟨b, hb, rfl⟩ := Option.map_eq_some_iff.mp h
                have hempty : batch = [] :=
                  Decidable.not_not.mp fun hne => Writer.begin_ne_returned hne hbegin
                subst hempty
                rw [Writer.begin_of_fits Fits.nil, if_pos rfl] at hbegin
                refine .empty t next b (Option.isNone_iff_eq_none.mp hfree) hbatch ?_ hb
                split at hbegin
                · cases hbegin
                · split at hbegin
                  · cases hbegin
                  · cases hbegin
                    rfl
            · next w hbegin =>
                cases h
                exact .started t batch w hbatch (Option.isNone_iff_eq_none.mp hfree) hbegin
        · cases h
  · cases h

theorem step_cases (h : s.step a = some s') : Step s a s' := by
  cases a with
  | loop a =>
      simp only [step] at h
      split at h
      · next hloop =>
          obtain ⟨b, hb, rfl⟩ := Option.map_eq_some_iff.mp h
          exact .loop a b hloop hb
      · cases h
  | begin t => exact begin_cases h
  | append payloads =>
      simp only [step] at h
      split at h
      · cases h
        exact .aside payloads
      · split at h
        · next hfree =>
            split at h
            · next w hbegin =>
                cases h
                exact .startedAside payloads w (Option.isNone_iff_eq_none.mp hfree) hbegin
            · cases h
              exact .aside payloads
        · cases h
  | io a =>
      simp only [step] at h
      split at h
      · next file w _ hw =>
          cases h
          exact .went a file w (Writer.step_cases hw)
      · next who file w fate hwho hw =>
          obtain ⟨b, hb, rfl⟩ := Option.map_eq_some_iff.mp h
          exact .ended a who file w fate b hwho (Writer.step_cases hw) hb
      · cases h
  | close ok =>
      simp only [step] at h
      split at h
      · next hfree =>
          cases h
          exact .closed ok (Option.isNone_iff_eq_none.mp hfree)
      · cases h

/-! ## The log and the tasks -/

/-- The log holds what the tasks take to be in the stream, a power loss leaves it, and
the lock of the stream is held by the append in progress. -/
structure Ok (s : Grouping) : Prop where
  before : ∀ task ∈ s.batching.tasks, task.Before
  writer : s.writer.Ok s.file.data (s.batching.stream.map Prod.snd)
  disk : s.file.Every fun d => s.batching.stream.map Prod.snd <+: records d
  free : s.appender = none → s.writer.pc = .idle
  flush : ∀ t, s.appender = some (.flush t) → ∃ batch,
    (s.batching.tasks[t]?).bind FlushTask.append = some ⟨batch, none⟩ ∧
      s.writer.pc.batch = some batch

namespace Ok

theorem init (name : Name) (data : Bytes) (closed writable : Bool) :
    (Grouping.init name data closed writable).Ok := by
  have hstream : (Grouping.init name data closed writable).batching.stream.map Prod.snd =
      records data := by
    show ((records data).map fun p => (false, p)).map Prod.snd = _
    rw [List.map_map]
    exact List.map_id _
  refine ⟨fun task hmem => absurd hmem List.not_mem_nil, ?_, ?_, fun _ => rfl,
    fun t h => by cases h⟩
  · rw [hstream]
    exact ⟨Fits.records data, rfl, List.prefix_rfl, fun _ => rfl⟩
  · rw [hstream]
    refine CrashFile.Every.ofDisk ?_
    rw [records_frames (Fits.records data)]

/-- An append starts. -/
theorem starts (h : s.Ok) (hfree : s.appender = none) {batch : List Bytes} {w : Writer}
    (hbegin : s.writer.begin s.writable true batch = .started w) (who : Appender)
    (hwho : ∀ t, who = .flush t →
      (s.batching.tasks[t]?).bind FlushTask.append = some ⟨batch, none⟩) :
    ({ s with writer := w, appender := some who } : Grouping).Ok := by
  refine ⟨h.before, h.writer.begin (h.free hfree) hbegin, h.disk, (fun hnone => by cases hnone), ?_⟩
  intro t ht
  obtain ⟨-, -, -, -, -, rfl⟩ := Writer.begin_started hbegin
  exact ⟨batch, hwho t (Option.some.inj ht), rfl⟩

/-- What the disk holds after a system call that does not end an append with success. -/
theorem disk_step (h : s.Ok) {file : CrashFile UInt8} {w : Writer} {fate : Option Fate}
    (hstep : Writer.Step s.file s.writer file w fate) :
    file.Every fun d => s.batching.stream.map Prod.snd <+: records d := by
  refine h.writer.every (fun d d' hd hpre => hpre.trans (records_mono hd)) ?_ h.disk hstep
  rw [records_frames h.writer.fits]

theorem went (h : s.Ok) {file : CrashFile UInt8} {w : Writer}
    (hstep : Writer.Step s.file s.writer file w none) :
    ({ s with file := file, writer := w } : Grouping).Ok := by
  refine ⟨h.before, h.writer.step hstep, h.disk_step hstep,
    fun hnone => absurd (h.free hnone) hstep.busy, fun t ht => ?_⟩
  obtain ⟨batch, hbatch, hpc⟩ := h.flush t ht
  exact ⟨batch, hbatch, hstep.ends.1.trans hpc⟩

/-- An append fails, and the log has the records it had. -/
theorem fails (h : s.Ok) {file : CrashFile UInt8} {w : Writer} {fate : Fate} {b : Batching}
    (hstep : Writer.Step s.file s.writer file w (some fate)) (hfate : ∀ next, fate ≠ .returned next)
    (hbefore : ∀ task ∈ b.tasks, task.Before) (hstream : b.stream = s.batching.stream) :
    ({ s with batching := b, file := file, writer := w, appender := none } : Grouping).Ok := by
  have hwriter := h.writer.step hstep
  have hidle : w.pc = .idle := by
    have hends := hstep.ends
    cases fate with
    | returned next => exact absurd rfl (hfate next)
    | rolledBack => exact hends.1
    | torn => exact hends.1
  have hafter : Writer.Ok.after (s.batching.stream.map Prod.snd) s.writer.pc (some fate) =
      s.batching.stream.map Prod.snd := by
    cases fate with
    | returned next => exact absurd rfl (hfate next)
    | rolledBack => rfl
    | torn => rfl
  rw [hafter] at hwriter
  refine ⟨hbefore, ?_, ?_, fun _ => hidle, fun t ht => by cases ht⟩
  · rw [hstream]
    exact hwriter
  · rw [hstream]
    exact h.disk_step hstep

/-- An append succeeds, and its batch is on the disk. -/
theorem succeeds (h : s.Ok) {file : CrashFile UInt8} {w : Writer} {next : Nat} {b : Batching}
    (hstep : Writer.Step s.file s.writer file w (some (.returned next)))
    (hbefore : ∀ task ∈ b.tasks, task.Before)
    (hstream : b.stream.map Prod.snd =
      s.batching.stream.map Prod.snd ++ s.writer.pc.batch.getD []) :
    ({ s with batching := b, file := file, writer := w, appender := none } : Grouping).Ok := by
  obtain ⟨batch, hbatch, -, rfl, hdata⟩ := h.writer.returned hstep
  have hwriter := h.writer.step hstep
  rw [Writer.Ok.after, ← hstream] at hwriter
  rw [hbatch, Option.getD_some] at hstream
  refine ⟨hbefore, hwriter, CrashFile.Every.sync ?_, fun _ => hstep.ends.1, fun t ht => by cases ht⟩
  rw [hdata, ← hstream, records_frames hwriter.fits]

/-- The stream with a batch of this writer, or of another. -/
theorem stream_append (stream : List (Bool × Bytes)) (own : Bool) (batch : List Bytes) :
    (stream ++ batch.map fun p => (own, p)).map Prod.snd = stream.map Prod.snd ++ batch := by
  rw [List.map_append, List.map_map]
  exact congrArg _ (List.map_id _)

/-- The append in progress ends, in one step of the batch writer or some of others. -/
theorem refines_ended (h : s.Ok) {who : Appender} {file : CrashFile UInt8} {w : Writer}
    {fate : Fate} {b : Batching} (hwho : s.appender = some who)
    (hstep : Writer.Step s.file s.writer file w (some fate))
    (hb : s.ended who (s.writer.pc.batch.getD []) fate = some b) :
    ({ s with batching := b, file := file, writer := w, appender := none } : Grouping).Ok ∧
      ((∃ t failure, s.batching.step (.appended t failure) = some b) ∨
        ∃ payloads : List Bytes,
          Lts.run Batching.step s.batching (payloads.map .other) = some b) := by
  cases who with
  | flush t =>
      obtain ⟨batch, hbatch, hpc⟩ := h.flush t hwho
      rw [hpc, Option.getD_some] at hb
      have hfails : (∀ next, fate ≠ .returned next) →
          s.batching.answered t s.batching.stream (.error .osError) = some b →
          ({ s with batching := b, file := file, writer := w, appender := none } : Grouping).Ok ∧
            ((∃ t failure, s.batching.step (.appended t failure) = some b) ∨
              ∃ payloads : List Bytes,
                Lts.run Batching.step s.batching (payloads.map .other) = some b) := by
        intro hfate hb
        refine ⟨h.fails hstep hfate (Batching.before_of_answered hb h.before) ?_,
          .inl ⟨t, _, Batching.step_of_raised hb⟩⟩
        obtain ⟨task, batch', -, -, rfl⟩ := Batching.answered_cases hb
        rfl
      cases fate with
      | returned next =>
          obtain ⟨batch', hpc', hnext, -, -⟩ := h.writer.returned hstep
          rw [hpc] at hpc'
          cases hpc'
          rw [List.length_map] at hnext
          refine ⟨h.succeeds hstep (Batching.before_of_answered hb h.before) ?_,
            .inl ⟨t, none, Batching.step_of_returned hbatch hnext hb⟩⟩
          obtain ⟨task, batch', -, -, rfl⟩ := Batching.answered_cases hb
          rw [hpc, Option.getD_some]
          exact stream_append _ true batch
      | rolledBack => exact hfails (fun _ heq => by cases heq) hb
      | torn => exact hfails (fun _ heq => by cases heq) hb
  | thread =>
      cases fate with
      | returned next =>
          cases hb
          exact ⟨h.succeeds hstep h.before (stream_append _ false _),
            .inr ⟨_, Batching.run_other _ _⟩⟩
      | rolledBack =>
          cases hb
          exact ⟨h.fails hstep (fun _ heq => by cases heq) h.before rfl, .inr ⟨[], rfl⟩⟩
      | torn =>
          cases hb
          exact ⟨h.fails hstep (fun _ heq => by cases heq) h.before rfl, .inr ⟨[], rfl⟩⟩

/-- Every step of the batch writer and its log is, for the tasks, none or some of those
of the batch writer alone. -/
theorem refines (h : s.Ok) (hstep : Step s a s') :
    s'.Ok ∧ ∃ as, Lts.run Batching.step s.batching as = some s'.batching ∧
      (s.waitsOut a = true →
        Lts.Meets Batching.step (fun b a => b.waitsOut a = true) s.batching as) := by
  have hone : ∀ {b : Batching} (c : BatchAct), s.batching.step c = some b →
      (s.waitsOut a = true → s.batching.waitsOut c = true) →
      ∃ as, Lts.run Batching.step s.batching as = some b ∧
        (s.waitsOut a = true →
          Lts.Meets Batching.step (fun b a => b.waitsOut a = true) s.batching as) := by
    intro b c hb hwaits
    refine ⟨[c], by rw [Lts.run_cons, hb]; rfl, fun hw => ⟨hwaits hw, ?_⟩⟩
    split <;> trivial
  have hnone : ∃ as, Lts.run Batching.step s.batching as = some s.batching ∧
      (s.waitsOut a = true →
        Lts.Meets Batching.step (fun b a => b.waitsOut a = true) s.batching as) :=
    ⟨[], rfl, fun _ => trivial⟩
  cases hstep with
  | loop a b hloop hb =>
      have hgoes := Batching.Goes.of_step h.before hloop hb
      refine ⟨⟨hgoes.before h.before, ?_, ?_, h.free, fun t ht => ?_⟩, hone a hb id⟩
      · rw [hgoes.stream]
        exact h.writer
      · rw [hgoes.stream]
        exact h.disk
      · obtain ⟨batch, hbatch, hpc⟩ := h.flush t ht
        exact ⟨batch, hgoes.running hbatch, hpc⟩
  | oversized t e batch b hbatch hlong hb =>
      refine ⟨?_, hone _ (Batching.step_of_raised hb) fun _ => rfl⟩
      have hbefore := Batching.before_of_answered hb h.before
      obtain ⟨task, batch', ht, -, rfl⟩ := Batching.answered_cases hb
      refine ⟨hbefore, h.writer, h.disk, h.free, fun c hc => ?_⟩
      obtain ⟨batch'', hbatch'', hpc⟩ := h.flush c hc
      -- what has the lock fits, so it is another one
      have hct : t ≠ c := by
        rintro rfl
        rw [hbatch''] at hbatch
        cases hbatch
        exact hlong (h.writer.fits_batch hpc)
      refine ⟨batch'', ?_, hpc⟩
      show ((s.batching.tasks.set t _)[c]?).bind FlushTask.append = _
      rw [List.getElem?_set_ne hct, hbatch'']
  | refused t e b hfree hb =>
      refine ⟨?_, hone _ (Batching.step_of_raised hb) fun _ => rfl⟩
      have hbefore := Batching.before_of_answered hb h.before
      obtain ⟨task, batch, -, -, rfl⟩ := Batching.answered_cases hb
      refine ⟨hbefore, h.writer, h.disk, h.free, fun t ht => ?_⟩
      rw [show s.appender = some (.flush t) from ht] at hfree
      cases hfree
  | empty t next b hfree hbatch hnext hb =>
      rw [h.writer.index, nextOffset_marks, List.length_map] at hnext
      have hb' : s.batching.answered t (s.batching.stream ++ [].map fun p => (true, p)) (.ok next) =
          some b := by rwa [List.map_nil, List.append_nil]
      refine ⟨?_, hone _ (Batching.step_of_returned hbatch hnext hb') fun _ => rfl⟩
      have hbefore := Batching.before_of_answered hb h.before
      obtain ⟨task, batch, -, -, rfl⟩ := Batching.answered_cases hb
      refine ⟨hbefore, h.writer, h.disk, h.free, fun t ht => ?_⟩
      rw [show s.appender = some (.flush t) from ht] at hfree
      cases hfree
  | started t batch w hbatch hfree hbegin =>
      refine ⟨h.starts hfree hbegin _ fun t' ht' => ?_, hnone⟩
      cases ht'
      exact hbatch
  | startedAside payloads w hfree hbegin =>
      exact ⟨h.starts hfree hbegin _ fun t ht => (by cases ht), hnone⟩
  | aside payloads => exact ⟨h, hnone⟩
  | went a file w hw => exact ⟨h.went hw, hnone⟩
  | ended a who file w fate b hwho hw hb =>
      obtain ⟨hok, ⟨t, failure, hrun⟩ | ⟨payloads, hrun⟩⟩ := h.refines_ended hwho hw hb
      · exact ⟨hok, hone _ hrun fun _ => rfl⟩
      · refine ⟨hok, _, hrun, fun _ => ?_⟩
        have hall : ∀ c ∈ payloads.map BatchAct.other, ∃ p, c = .other p := by
          intro c hc
          obtain ⟨p, -, rfl⟩ := List.mem_map.mp hc
          exact ⟨p, rfl⟩
        refine (Lts.Meets.of_mem hall).mono fun b c hc => ?_
        obtain ⟨p, rfl⟩ := hc
        rfl
  | closed ok hfree =>
      refine ⟨⟨h.before, ?_, h.disk, fun _ => h.free hfree, fun t ht => ?_⟩, hnone⟩
      · exact h.writer.close_or (h.free hfree) _
      · rw [show s.appender = some (.flush t) from ht] at hfree
        cases hfree

/-- A power loss changes no read of what is in the stream. -/
theorem read_recovered (h : s.Ok) (i k m : Nat) (offset : Int) {stop : Nat}
    (hstop : stop ≤ s.batching.stream.length) :
    read s.writer.name true (recover (s.file.powerLoss i k m).data).2
        (recover (s.file.powerLoss i k m).data).1 offset (some stop) =
      read s.writer.name true s.file.data s.writer.index offset (some stop) := by
  have hpre := (h.disk.powerLoss i k m).data
  have hlen := hpre.length_le
  rw [List.length_map] at hlen
  rw [recover_eq, read_marks _ (Fits.records _) List.prefix_rfl, h.writer.read]
  have hold : readStop (s.batching.stream.map Prod.snd).length (some (stop : Int)) = stop := by
    rw [readStop, List.length_map]
    omega
  have hnew :
      readStop (records (s.file.powerLoss i k m).data).length (some (stop : Int)) = stop := by
    rw [readStop]
    omega
  obtain ⟨rest, hrest⟩ := hpre
  rw [hold, hnew, ← hrest, List.take_append_of_le_length (by rw [List.length_map]; exact hstop)]

end Ok

/-! ## The results -/

/-- Whatever the tasks do and wherever an append stands: the tasks are in a state that the
batch writer alone can reach; a reader gets the records that have been appended; and
after a power loss it gets the same records from the same offsets. -/
theorem seen_durable (name : Name) (data : Bytes) (closed writable : Bool) (acts : List GroupAct)
    (s : Grouping) (hrun : Lts.run step (init name data closed writable) acts = some s) :
    (∃ as, Lts.run Batching.step (.init (records data)) as = some s.batching) ∧
      read s.writer.name true s.file.data s.writer.index 0 none =
        .ok (s.batching.stream.map Prod.snd) ∧
      ∀ (i k m : Nat) (offset : Int) (stop : Nat), stop ≤ s.batching.stream.length →
        read s.writer.name true (recover (s.file.powerLoss i k m).data).2
            (recover (s.file.powerLoss i k m).data).1 offset (some stop) =
          read s.writer.name true s.file.data s.writer.index offset (some stop) := by
  have hinv : s.Ok ∧ ∃ as, Lts.run Batching.step (.init (records data)) as = some s.batching := by
    refine Lts.run_invariant (I := fun s : Grouping => s.Ok ∧
      ∃ as, Lts.run Batching.step (.init (records data)) as = some s.batching) ?_ hrun
      ⟨.init name data closed writable, [], rfl⟩
    rintro s a t ⟨hok, as, has⟩ hstep
    obtain ⟨hok', bs, hbs, -⟩ := hok.refines (step_cases hstep)
    exact ⟨hok', as ++ bs, by rw [Lts.run_append, has, Option.bind_some, hbs]⟩
  obtain ⟨hok, hreach⟩ := hinv
  refine ⟨hreach, ?_, fun i k m offset stop hstop => hok.read_recovered i k m offset hstop⟩
  rw [hok.writer.read, readStop, List.take_length]
  rfl

/-- The thread of a flush is in the middle of a write, after one that another thread's
append has waited for. -/
def writingBehindThread : List GroupAct :=
  [.loop (.write [1]), .append [[9]], .loop .flush, .io (.write 9), .io (.sync true), .begin 1,
    .io (.write 4)]

theorem seen_durable_writingBehindThread :
    ∃ s, Lts.run step (init ['t'] [] false true) writingBehindThread = some s ∧
      read s.writer.name true s.file.data s.writer.index 0 none =
        .ok (s.batching.stream.map Prod.snd) ∧
      read s.writer.name true (recover (s.file.powerLoss 0 2 2).data).2
          (recover (s.file.powerLoss 0 2 2).data).1 0 (some 1) =
        read s.writer.name true s.file.data s.writer.index 0 (some 1) := by
  have hmap : (Lts.run step (init ['t'] [] false true) writingBehindThread).map
      (fun s => s.batching.stream.length) = some 1 := by decide +kernel
  obtain ⟨s, hrun, hlen⟩ := Option.map_eq_some_iff.mp hmap
  obtain ⟨-, hread, hlost⟩ := seen_durable ['t'] [] false true writingBehindThread s hrun
  exact ⟨s, hrun, hread, hlost 0 2 2 0 1 hlen.ge⟩

/-- What was accepted is in the log, being appended or in the buffer, in this order, and
a power loss takes nothing that is in the log.  So once `flush` has returned `n`, the
first `n` records of the log are there for good, and have what was accepted before. -/
theorem accepted_survives (name : Name) (data : Bytes) (closed writable : Bool)
    (acts : List GroupAct) (s : Grouping)
    (hrun : Lts.run step (init name data closed writable) acts = some s)
    (hwaits : Lts.Meets step (fun s a => s.waitsOut a = true) (init name data closed writable)
      acts) (i k m : Nat) :
    (∃ rest, read s.writer.name true (recover (s.file.powerLoss i k m).data).2
        (recover (s.file.powerLoss i k m).data).1 0 none =
      .ok (s.batching.stream.map Prod.snd ++ rest)) ∧
    s.batching.accepted =
      ownRecords s.batching.stream ++ s.batching.inFlight ++ s.batching.w.buf ∧
    ∀ (t : Nat) (task : FlushTask) (n : Nat), s.batching.tasks[t]? = some task →
      task.pc = .done (.returned n) →
      n ≤ s.batching.stream.length ∧ ∃ asked, task.before ≤ asked ∧
        ownRecords (s.batching.stream.take n) = s.batching.accepted.take asked := by
  have hinv : s.Ok ∧ s.batching.Orderly ∧ s.batching.Honest := by
    refine Lts.run_invariant_of_meets
      (I := fun s : Grouping => s.Ok ∧ s.batching.Orderly ∧ s.batching.Honest) ?_ hrun hwaits
      ⟨.init name data closed writable, .init _, .init _⟩
    rintro s a t ⟨hok, ho, hf⟩ hw hstep
    obtain ⟨hok', as, has, hmeets⟩ := hok.refines (step_cases hstep)
    refine ⟨hok', Lts.run_invariant_of_meets (I := fun b : Batching => b.Orderly ∧ b.Honest) ?_ has
      (hmeets hw) ⟨ho, hf⟩⟩
    rintro b c b' ⟨ho, hf⟩ hw hstep
    exact ⟨ho.step hw hstep, hf.step ho hstep⟩
  obtain ⟨hok, ho, hf⟩ := hinv
  obtain ⟨rest, hrest⟩ := (hok.disk.powerLoss i k m).data
  refine ⟨⟨rest, ?_⟩, ho.conserved_run.1, fun t task n ht hpc => ?_⟩
  · rw [recover_eq, read_marks _ (Fits.records _) List.prefix_rfl, readStop, List.take_length,
      hrest]
    rfl
  · have hown : s.batching.own <+: s.batching.accepted := by
      rw [ho.conserved, List.append_assoc]
      exact List.prefix_append _ _
    obtain ⟨hle, hbefore⟩ := (hf task (List.mem_of_getElem? ht)).answered n (.inl hpc)
    have hbelow : ownRecords (s.batching.stream.take n) <+: s.batching.accepted :=
      (ownRecords_isPrefix (List.take_prefix n s.batching.stream)).trans hown
    exact ⟨hle, _, hbefore, List.prefix_iff_eq_take.mp hbelow⟩

/-- Another thread appends before the flush, whose write fails after a part of a frame.
The next flush appends the record with one that was written meanwhile. -/
def retriedBehindThread : List GroupAct :=
  [.loop (.write [1]), .append [[9]], .loop .flush, .io (.write 9), .io (.sync true), .begin 1,
    .io (.write 4), .loop (.write [2]), .io (.writeErr 2), .io (.truncate true), .io (.sync true),
    .loop (.resume 1), .loop .flush, .begin 2, .io (.write 18), .io (.sync true), .loop (.resume 2)]

theorem accepted_survives_retriedBehindThread :
    ∃ s, Lts.run step (init ['t'] [] false true) retriedBehindThread = some s ∧
      (∃ rest, read s.writer.name true (recover (s.file.powerLoss 0 0 0).data).2
          (recover (s.file.powerLoss 0 0 0).data).1 0 none =
        .ok (s.batching.stream.map Prod.snd ++ rest)) ∧
      ∃ asked, 2 ≤ asked ∧
        ownRecords (s.batching.stream.take 3) = s.batching.accepted.take asked := by
  have hmap : ((Lts.run step (init ['t'] [] false true) retriedBehindThread).bind fun s =>
      (s.batching.tasks[2]?).map fun task => (task.before, task.pc)) =
        some (2, .done (.returned 3)) := by decide +kernel
  obtain ⟨s, hrun, htask⟩ := Option.bind_eq_some_iff.mp hmap
  obtain ⟨task, ht, htask⟩ := Option.map_eq_some_iff.mp htask
  obtain ⟨hbefore, hpc⟩ := Prod.mk.inj htask
  obtain ⟨hrest, -, hflush⟩ := accepted_survives ['t'] [] false true retriedBehindThread s hrun
    (by decide +kernel) 0 0 0
  obtain ⟨-, asked, hasked, htake⟩ := hflush 2 task 3 ht hpc
  exact ⟨s, hrun, hrest, asked, hbefore ▸ hasked, htake⟩

end Grouping

end Durastream
