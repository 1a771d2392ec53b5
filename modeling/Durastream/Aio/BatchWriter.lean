import Durastream.Lib.Lts
import Durastream.Lib.Table
import Durastream.Codec

/-!
# The batch writer

`AsyncBatchWriter` on one event loop.  A `FlushTask` is a task that runs `flush`:
one that was called, the one inside `close`, or a timer (`_flush_later`).  Its
`FlushPc` is the await where it stands, and one action runs it on to the next.

* `sleeping`: the `asyncio.sleep` of a timer.
* `acquire`: `async with self._lock`.
* `shield`: `await asyncio.shield(task)` in `_append`.
* `wait`: `await asyncio.wait([task])`, after a cancellation.

The inner task of `_append` is an `Append`.  It runs `append_many` in a thread,
which no cancellation stops; `append_many` appends its whole batch or none of it.
The lock goes to the tasks that wait for it in the order in which they came, and a
task that comes while others wait does not overtake them, even where the lock is free.

`accepted` records what `write` has accepted, and `before` how much of it there was
when a flush was called.  The code has neither; the theorems are about them.
-/

namespace Durastream

/-- Who runs a flush. -/
inductive Caller where
  | flush
  | close
  | timer
deriving DecidableEq

/-- How a task ends. -/
inductive Ended where
  | returned (n : Nat)
  | raised (e : Error)
  | cancelled
deriving DecidableEq

/-- The inner task of `_append`. -/
structure Append where
  batch : List Bytes
  /-- What `append_many` returned or raised, `none` while it runs. -/
  result : Option (Except Error Nat)

inductive FlushPc where
  | sleeping
  | acquire
  | shield
  | wait
  | done (r : Ended)
deriving DecidableEq

structure FlushTask where
  caller : Caller
  pc : FlushPc
  append : Option Append
  before : Nat

structure AsyncBatchWriter where
  /-- `_buf`. -/
  buf : List Bytes
  /-- The task that holds `_lock`. -/
  lock : Option Nat
  /-- The tasks that wait for `_lock`, in the order in which they came. -/
  waiters : List Nat
  /-- `_timer`. -/
  timer : Option Nat
  /-- `_error`. -/
  error : Option Error
  /-- `_closed`. -/
  closed : Bool

/-- A writer, the tasks that have called it, and its stream. -/
structure Batching where
  w : AsyncBatchWriter
  tasks : List FlushTask
  /-- The records of the stream, and whether they are of this writer. -/
  stream : List (Bool × Bytes)
  accepted : List Bytes

inductive BatchAct where
  | write (payload : Bytes)
  | flush
  | close
  /-- The sleep of a timer is over. -/
  | wake (t : Nat)
  /-- A task that waits for the lock is granted it. -/
  | grant (t : Nat)
  /-- The `append_many` of a task returns, or raises the error. -/
  | appended (t : Nat) (failure : Option Error)
  /-- Another appender of the stream appends a record. -/
  | other (payload : Bytes)
  /-- A task whose await is over goes on. -/
  | resume (t : Nat)
  /-- `CancelledError` is raised where the task stands. -/
  | cancel (t : Nat)

namespace Batching

/-- A writer of a stream. -/
def init (stream : List Bytes) : Batching :=
  ⟨⟨[], none, [], none, none, false⟩, [], stream.map fun p => (false, p), []⟩

def setTask (s : Batching) (t : Nat) (task : FlushTask) : Batching :=
  { s with tasks := s.tasks.set t task }

/-- Task `t` ends. -/
def finish (s : Batching) (t : Nat) (task : FlushTask) (r : Ended) : Batching :=
  let w := match task.caller, r with
    | .close, .returned _ => { s.w with closed := true }
    | .timer, .raised e => { s.w with error := some e }
    | _, _ => s.w
  { s with w := w, tasks := s.tasks.set t { task with pc := .done r } }

/-- The part of `flush` under the lock, up to the first await. -/
def locked (s : Batching) (t : Nat) (task : FlushTask) : Batching :=
  if s.w.buf = [] then s.finish t task (.returned s.stream.length)
  else
    { s with
      w := { s.w with buf := [], lock := some t }
      tasks := s.tasks.set t { task with pc := .shield, append := some ⟨s.w.buf, none⟩ } }

/-- `flush` up to the first await. -/
def enter (s : Batching) (t : Nat) (task : FlushTask) : Batching :=
  match s.w.error with
  | some e => ({ s with w := { s.w with error := none } } : Batching).finish t task (.raised e)
  | none =>
      if s.w.lock = none ∧ s.w.waiters = [] then s.locked t task
      else
        { s with
          w := { s.w with waiters := s.w.waiters ++ [t] }
          tasks := s.tasks.set t { task with pc := .acquire } }

/-- `_append` is over: what is not durable goes back to the buffer, and the lock is
released. -/
def release (s : Batching) (t : Nat) (task : FlushTask) (r : Ended) : Batching :=
  let buf := match task.append with
    | some ⟨batch, some (.error _)⟩ => batch ++ s.w.buf
    | _ => s.w.buf
  ({ s with w := { s.w with buf := buf, lock := none } } : Batching).finish t task r

/-- `timer.cancel()` in `close`. -/
def cancelTimer (s : Batching) : Batching :=
  let s' := { s with w := { s.w with timer := none } }
  match s.w.timer with
  | none => s'
  | some t =>
      match s.tasks[t]? with
      | some task =>
          if task.pc = .sleeping then s'.setTask t { task with pc := .done .cancelled } else s'
      | none => s'

/-- A new task, which is number `s.tasks.length`. -/
def addTask (s : Batching) (caller : Caller) : Batching :=
  { s with tasks := s.tasks ++ [⟨caller, .sleeping, none, s.accepted.length⟩] }

/-- A task calls `flush`, or `close`. -/
def callFlush (s : Batching) (caller : Caller) : Batching :=
  (s.addTask caller).enter s.tasks.length ⟨caller, .sleeping, none, s.accepted.length⟩

def taskStep (s : Batching) (t : Nat) (task : FlushTask) : BatchAct → Option Batching
  | .wake _ =>
      if task.pc = .sleeping then
        some (({ s with w := { s.w with timer := none } } : Batching).enter t
          { task with before := s.accepted.length })
      else none
  | .grant _ =>
      if task.pc = .acquire ∧ s.w.lock = none ∧ s.w.waiters.head? = some t then
        some (({ s with w := { s.w with waiters := s.w.waiters.tail } } : Batching).locked t task)
      else none
  | .appended _ failure =>
      match task.append with
      | some ⟨batch, none⟩ =>
          match failure with
          | some e => some (s.setTask t { task with append := some ⟨batch, some (.error e)⟩ })
          | none =>
              let stream := s.stream ++ batch.map fun p => (true, p)
              some { s with
                stream := stream
                tasks := s.tasks.set t
                  { task with append := some ⟨batch, some (.ok stream.length)⟩ } }
      | _ => none
  | .resume _ =>
      match task.pc, task.append with
      | .shield, some ⟨_, some (.ok n)⟩ => some (s.release t task (.returned n))
      | .shield, some ⟨_, some (.error e)⟩ => some (s.release t task (.raised e))
      | .wait, some ⟨_, some _⟩ => some (s.release t task .cancelled)
      | _, _ => none
  | .cancel _ =>
      match task.pc with
      | .sleeping => some (s.setTask t { task with pc := .done .cancelled })
      | .acquire =>
          let waiters := s.w.waiters.erase t
          some (({ s with w := { s.w with waiters := waiters } } :
            Batching).finish t task .cancelled)
      | .shield =>
          match task.append with
          | some ⟨_, none⟩ => some (s.setTask t { task with pc := .wait })
          | _ => some (s.release t task .cancelled)
      | .wait =>
          -- the rest of the `finally` is skipped
          some (({ s with w := { s.w with lock := none } } : Batching).finish t task .cancelled)
      | .done _ => none
  | _ => none

def step (s : Batching) : BatchAct → Option Batching
  | .write payload =>
      match s.w.error with
      | some _ => some { s with w := { s.w with error := none } }
      | none =>
          if s.w.closed then some s
          else
            let s' := { s with
              w := { s.w with buf := s.w.buf ++ [payload] }
              accepted := s.accepted ++ [payload] }
            match s.w.timer with
            | some _ => some s'
            | none =>
                some { s'.addTask .timer with
                  w := { s'.w with timer := some s.tasks.length } }
  | .flush => some (s.callFlush .flush)
  | .close => some (s.cancelTimer.callFlush .close)
  | .wake t => (s.tasks[t]?).bind fun task => s.taskStep t task (.wake t)
  | .grant t => (s.tasks[t]?).bind fun task => s.taskStep t task (.grant t)
  | .appended t failure => (s.tasks[t]?).bind fun task => s.taskStep t task (.appended t failure)
  | .other payload => some { s with stream := s.stream ++ [(false, payload)] }
  | .resume t => (s.tasks[t]?).bind fun task => s.taskStep t task (.resume t)
  | .cancel t => (s.tasks[t]?).bind fun task => s.taskStep t task (.cancel t)

section Projections

variable (s : Batching) (t : Nat) (task : FlushTask) (r : Ended)

@[simp] theorem lock_finish : (s.finish t task r).w.lock = s.w.lock := by
  unfold finish
  dsimp only
  split <;> rfl

@[simp] theorem buf_finish : (s.finish t task r).w.buf = s.w.buf := by
  unfold finish
  dsimp only
  split <;> rfl

end Projections

end Batching

/-! ## Records and where they are -/

namespace FlushTask

/-- The task has the lock. -/
def Holds (task : FlushTask) : Prop := task.pc = .shield ∨ task.pc = .wait

instance (task : FlushTask) : Decidable task.Holds := by
  unfold Holds
  infer_instance

/-- Its batch is being appended. -/
def appending (task : FlushTask) : Bool := task.append.any fun a => a.result.isNone

/-- Its batch, while it is not durable and the task may yet put it back. -/
def inFlight (task : FlushTask) : List Bytes :=
  match task.append with
  | some ⟨batch, none⟩ => batch
  | some ⟨batch, some (.error _)⟩ => if task.Holds then batch else []
  | _ => []

/-- The task has nothing to do with the lock. -/
structure Quiet (task : FlushTask) : Prop where
  holds : ¬task.Holds
  appending : task.appending = false

theorem Quiet.inFlight {task : FlushTask} (h : task.Quiet) : task.inFlight = [] := by
  have happend := h.appending
  unfold FlushTask.appending at happend
  unfold FlushTask.inFlight
  split
  · next heq => simp [heq] at happend
  · exact if_neg h.holds
  · rfl

/-- A task that has ended is quiet. -/
theorem quiet_done {task : FlushTask} (h : task.appending = false) (r : Ended) :
    ({ task with pc := .done r } : FlushTask).Quiet :=
  ⟨fun hholds => hholds.elim (fun heq => by cases heq) fun heq => (by cases heq), h⟩

end FlushTask

namespace Batching

/-- The records of the stream that this writer has appended. -/
def own (s : Batching) : List Bytes := (s.stream.filter Prod.fst).map Prod.snd

def inFlight (s : Batching) : List Bytes := s.tasks.flatMap FlushTask.inFlight

/-- What was accepted is durable, being appended or in the buffer, in this order, and
at most one batch is being appended. -/
def Conserved (s : Batching) : Prop :=
  s.accepted = s.own ++ s.inFlight ++ s.w.buf ∧
    (s.tasks.filter FlushTask.appending).length ≤ 1

/-- No cancellation hits a task that waits, after a cancellation, for an append that has
not succeeded. -/
def waitsOut (s : Batching) : BatchAct → Bool
  | .cancel t =>
      match s.tasks[t]? with
      | some task => task.pc != .wait || task.append.any fun a => a.result.any Except.toBool
      | none => true
  | _ => true

/-- What the task with the lock has in flight. -/
def current (s : Batching) : List Bytes :=
  match s.w.lock with
  | some t => (s.tasks[t]?).elim [] FlushTask.inFlight
  | none => []

/-- Only the task with the lock appends. -/
structure Orderly (s : Batching) : Prop where
  holder : ∀ t, s.w.lock = some t → ∃ task : FlushTask, s.tasks[t]? = some task ∧ task.Holds
  quiet : ∀ (t : Nat) (task : FlushTask), s.tasks[t]? = some task → s.w.lock ≠ some t → task.Quiet
  conserved : s.accepted = s.own ++ s.current ++ s.w.buf

variable {s s' : Batching} {t c : Nat} {task task' : FlushTask} {a : BatchAct}

/-! ### Tasks of the next state -/

theorem task_set (htasks : s'.tasks = s.tasks.set t task') (hc : s'.tasks[c]? = some task) :
    c = t ∧ task = task' ∨ c ≠ t ∧ s.tasks[c]? = some task := by
  rw [htasks] at hc
  exact List.getElem?_set_cases hc

theorem task_concat (htasks : s'.tasks = s.tasks ++ [task']) (hc : s'.tasks[c]? = some task) :
    c = s.tasks.length ∧ task = task' ∨ s.tasks[c]? = some task := by
  rw [htasks] at hc
  exact (List.getElem?_concat_cases hc).symm

/-! ### The invariant -/

namespace Orderly

theorem init (stream : List Bytes) : (Batching.init stream).Orderly := by
  refine ⟨fun _ h => (by cases h), fun t task h => absurd h (by simp [Batching.init]), ?_⟩
  simp [Batching.init, own, current, List.filter_map, Function.comp_def]

/-- The task with the lock and the others. -/
theorem split (ho : s.Orderly) (ht : s.tasks[t]? = some task) (hlock : s.w.lock = some t) :
    ∃ front back, s.tasks = front ++ task :: back ∧ ∀ other ∈ front ++ back, other.Quiet := by
  obtain ⟨hlt, rfl⟩ := List.getElem?_eq_some_iff.mp ht
  refine ⟨s.tasks.take t, s.tasks.drop (t + 1), ?_, ?_⟩
  · rw [List.getElem_cons_drop, List.take_append_drop]
  · intro other hmem
    have hother : ∃ j, s.tasks[j]? = some other ∧ j ≠ t := by
      rcases List.mem_append.mp hmem with hmem | hmem
      · obtain ⟨j, hj⟩ := List.mem_iff_getElem?.mp hmem
        rw [List.getElem?_take] at hj
        split at hj
        · next hjt => exact ⟨j, hj, Nat.ne_of_lt hjt⟩
        · cases hj
      · obtain ⟨j, hj⟩ := List.mem_iff_getElem?.mp hmem
        rw [List.getElem?_drop] at hj
        exact ⟨t + 1 + j, hj, by omega⟩
    obtain ⟨j, hj, hne⟩ := hother
    refine ho.quiet j other hj ?_
    rw [hlock]
    exact fun heq => hne (Option.some.inj heq).symm

/-- Nobody has the lock. -/
theorem all_quiet (ho : s.Orderly) (hlock : s.w.lock = none) : ∀ task ∈ s.tasks, task.Quiet := by
  intro task hmem
  obtain ⟨t, ht⟩ := List.mem_iff_getElem?.mp hmem
  exact ho.quiet t task ht (by simp [hlock])

theorem conserved_run (ho : s.Orderly) : s.Conserved := by
  have hquiet : ∀ tasks : List FlushTask, (∀ task ∈ tasks, task.Quiet) →
      tasks.flatMap FlushTask.inFlight = [] ∧ tasks.filter FlushTask.appending = [] := by
    intro tasks hall
    refine ⟨List.flatMap_eq_nil_iff.mpr fun task hmem => (hall task hmem).inFlight, ?_⟩
    exact List.filter_eq_nil_iff.mpr fun task hmem => by simp [(hall task hmem).appending]
  have hcons := ho.conserved
  cases hlock : s.w.lock with
  | none =>
      obtain ⟨hflat, hfilter⟩ := hquiet _ (ho.all_quiet hlock)
      rw [current, hlock] at hcons
      exact ⟨by rw [hcons, inFlight, hflat], by simp [hfilter]⟩
  | some t =>
      obtain ⟨task, ht, -⟩ := ho.holder t hlock
      obtain ⟨front, back, htasks, hothers⟩ := ho.split ht hlock
      obtain ⟨hfront, hfront'⟩ := hquiet front fun task hmem =>
        hothers task (List.mem_append_left _ hmem)
      obtain ⟨hback, hback'⟩ := hquiet back fun task hmem =>
        hothers task (List.mem_append_right _ hmem)
      have hflat : s.inFlight = task.inFlight := by
        rw [inFlight, htasks, List.flatMap_append, List.flatMap_cons, hfront, hback]
        simp
      have hcurrent : s.current = task.inFlight := by
        rw [current, hlock]
        simp [ht]
      refine ⟨by rw [hcons, hflat, hcurrent], ?_⟩
      rw [htasks, List.filter_append, List.filter_cons, hfront', hback']
      split <;> simp

/-- Task `t` goes on, and the lock of the others stays as it is. -/
theorem set (ho : s.Orderly) (ht : s.tasks[t]? = some task)
    (htasks : s'.tasks = s.tasks.set t task')
    (hholder : ∀ j, s'.w.lock = some j → j = t ∧ task'.Holds ∨ j ≠ t ∧ s.w.lock = some j)
    (hquiet : s'.w.lock ≠ some t → task'.Quiet)
    (hkeep : ∀ j, j ≠ t → s.w.lock = some j → s'.w.lock = some j)
    (hcons : s'.accepted = s'.own ++ s'.current ++ s'.w.buf) : s'.Orderly := by
  have hlt := (List.getElem?_eq_some_iff.mp ht).1
  refine ⟨?_, ?_, hcons⟩
  · intro j hlock
    rcases hholder j hlock with ⟨rfl, hholds⟩ | ⟨hne, hlock⟩
    · exact ⟨task', by rw [htasks, List.getElem?_set_self hlt], hholds⟩
    · obtain ⟨other, hj, hholds⟩ := ho.holder j hlock
      exact ⟨other, by rw [htasks, List.getElem?_set_ne hne.symm, hj], hholds⟩
  · intro j other hj hlock
    rcases task_set htasks hj with ⟨rfl, rfl⟩ | ⟨hjt, hj⟩
    · exact hquiet hlock
    · exact ho.quiet j other hj fun heq => hlock (hkeep j hjt heq)

/-- A task without the lock goes on without it. -/
theorem aside (ho : s.Orderly) (ht : s.tasks[t]? = some task)
    (htasks : s'.tasks = s.tasks.set t task') (hout : s.w.lock ≠ some t)
    (hlock : s'.w.lock = s.w.lock) (hquiet : task'.Quiet) (hstream : s'.stream = s.stream)
    (haccepted : s'.accepted = s.accepted) (hbuf : s'.w.buf = s.w.buf) : s'.Orderly := by
  refine ho.set ht htasks ?_ (fun _ => hquiet) (fun j _ heq => hlock ▸ heq) ?_
  · intro j heq
    rw [hlock] at heq
    exact .inr ⟨fun hjt => hout (hjt ▸ heq), heq⟩
  · have hcurrent : s'.current = s.current := by
      rw [current, current, hlock]
      cases hholder : s.w.lock with
      | none => rfl
      | some j =>
          have hjt : t ≠ j := fun heq => hout (heq ▸ hholder)
          simp only [htasks, List.getElem?_set_ne hjt]
    rw [hcurrent, own, hstream, haccepted, hbuf]
    exact ho.conserved

/-- A task takes the lock, or goes on with it. -/
theorem takes (ho : s.Orderly) (ht : s.tasks[t]? = some task)
    (htasks : s'.tasks = s.tasks.set t task') (hfree : s.w.lock = none ∨ s.w.lock = some t)
    (hlock : s'.w.lock = some t) (hholds : task'.Holds)
    (hcons : s'.accepted = s'.own ++ task'.inFlight ++ s'.w.buf) : s'.Orderly := by
  have hlt := (List.getElem?_eq_some_iff.mp ht).1
  refine ho.set ht htasks ?_ (fun hne => absurd hlock hne) ?_ ?_
  · intro j heq
    rw [hlock] at heq
    exact .inl ⟨(Option.some.inj heq).symm, hholds⟩
  · intro j hne heq
    rcases hfree with hnone | hsome
    · rw [hnone] at heq
      cases heq
    · rw [hsome] at heq
      exact absurd (Option.some.inj heq).symm hne
  · have hcurrent : s'.current = task'.inFlight := by
      rw [current, hlock]
      simp [htasks, List.getElem?_set_self hlt]
    rw [hcurrent]
    exact hcons

/-- A task gives the lock back. -/
theorem leaves (ho : s.Orderly) (ht : s.tasks[t]? = some task)
    (htasks : s'.tasks = s.tasks.set t task') (hhad : s.w.lock = some t)
    (hlock : s'.w.lock = none) (hquiet : task'.Quiet)
    (hcons : s'.accepted = s'.own ++ s'.w.buf) : s'.Orderly := by
  refine ho.set ht htasks ?_ (fun _ => hquiet) ?_ ?_
  · intro j heq
    rw [hlock] at heq
    cases heq
  · intro j hne heq
    rw [hhad] at heq
    exact absurd (Option.some.inj heq).symm hne
  · rw [current, hlock, List.append_nil]
    exact hcons

/-- What a task with the lock has in flight is all there is. -/
theorem conserved_of_lock (ho : s.Orderly) (ht : s.tasks[t]? = some task)
    (hlock : s.w.lock = some t) : s.accepted = s.own ++ task.inFlight ++ s.w.buf := by
  have hcons := ho.conserved
  rw [current, hlock] at hcons
  simpa [ht] using hcons

theorem conserved_of_free (ho : s.Orderly) (hlock : s.w.lock = none) :
    s.accepted = s.own ++ s.w.buf := by
  have hcons := ho.conserved
  rw [current, hlock] at hcons
  simpa using hcons

/-- A task that is under the lock has it. -/
theorem lock_of_holds (ho : s.Orderly) (ht : s.tasks[t]? = some task) (hholds : task.Holds) :
    s.w.lock = some t :=
  Decidable.not_not.mp fun hne => (ho.quiet t task ht hne).holds hholds

theorem lock_of_appending (ho : s.Orderly) (ht : s.tasks[t]? = some task)
    (happend : task.appending = true) : s.w.lock = some t := by
  refine Decidable.not_not.mp fun hne => ?_
  rw [(ho.quiet t task ht hne).appending] at happend
  cases happend

theorem not_lock (ho : s.Orderly) (ht : s.tasks[t]? = some task) (hout : ¬task.Holds) :
    s.w.lock ≠ some t := by
  intro hlock
  obtain ⟨task', ht', hholds⟩ := ho.holder t hlock
  rw [ht] at ht'
  cases ht'
  exact hout hholds

/-! ### One lemma for each thing a task does -/

/-- Fields that have nothing to do with records have changed. -/
theorem of_same (ho : s.Orderly) (htasks : s'.tasks = s.tasks) (hlock : s'.w.lock = s.w.lock)
    (hbuf : s'.w.buf = s.w.buf) (hstream : s'.stream = s.stream)
    (haccepted : s'.accepted = s.accepted) : s'.Orderly := by
  refine ⟨?_, ?_, ?_⟩
  · rw [hlock, htasks]
    exact ho.holder
  · rw [hlock, htasks]
    exact ho.quiet
  · rw [haccepted, hbuf, own, hstream, current, hlock, htasks]
    exact ho.conserved

theorem finish (ho : s.Orderly) (ht : s.tasks[t]? = some task) (hout : s.w.lock ≠ some t)
    (happend : task'.appending = false) (r : Ended) : (s.finish t task' r).Orderly :=
  ho.aside ht rfl hout (lock_finish s t task' r) (FlushTask.quiet_done happend r) rfl rfl
    (buf_finish s t task' r)

theorem locked (ho : s.Orderly) (ht : s.tasks[t]? = some task) (hfree : s.w.lock = none)
    (happend : task'.appending = false) : (s.locked t task').Orderly := by
  unfold Batching.locked
  split
  · exact ho.finish ht (by simp [hfree]) happend _
  · refine ho.takes ht rfl (.inl hfree) rfl (.inl rfl) ?_
    show s.accepted = s.own ++ s.w.buf ++ []
    rw [List.append_nil]
    exact ho.conserved_of_free hfree

theorem enter (ho : s.Orderly) (ht : s.tasks[t]? = some task) (hout : s.w.lock ≠ some t)
    (happend : task'.appending = false) : (s.enter t task').Orderly := by
  unfold Batching.enter
  split
  · have hsame : ({ s with w := { s.w with error := none } } : Batching).Orderly :=
      ho.of_same rfl rfl rfl rfl rfl
    exact hsame.finish ht hout happend _
  · split
    · next hfree => exact ho.locked ht hfree.1 happend
    · exact ho.aside ht rfl hout rfl
        ⟨fun hholds => hholds.elim (fun heq => by cases heq) fun heq => (by cases heq), happend⟩
        rfl rfl rfl

/-- `_append` ends, with its batch durable or back in the buffer. -/
theorem release (ho : s.Orderly) (ht : s.tasks[t]? = some task) (hholds : task.Holds)
    (happend : task.appending = false) (r : Ended) : (s.release t task r).Orderly := by
  have hlock := ho.lock_of_holds ht hholds
  have hcons := ho.conserved_of_lock ht hlock
  refine ho.leaves ht rfl hlock (lock_finish _ t task r) (FlushTask.quiet_done happend r) ?_
  show s.accepted = s.own ++ (s.release t task r).w.buf
  rw [Batching.release, buf_finish, hcons, FlushTask.inFlight, List.append_assoc]
  cases hinner : task.append with
  | none => rfl
  | some a =>
      obtain ⟨batch, result⟩ := a
      cases result with
      | none => simp [FlushTask.appending, hinner] at happend
      | some res =>
          cases res with
          | ok n => rfl
          | error e => simp [hholds]

theorem addTask (ho : s.Orderly) (caller : Caller) : (s.addTask caller).Orderly := by
  have hold : ∀ (j : Nat) (task : FlushTask), s.tasks[j]? = some task →
      (s.addTask caller).tasks[j]? = some task := by
    intro j task hj
    rw [Batching.addTask, List.getElem?_append_left (List.getElem?_eq_some_iff.mp hj).1, hj]
  refine ⟨?_, ?_, ?_⟩
  · intro j hlock
    obtain ⟨task, hj, hholds⟩ := ho.holder j hlock
    exact ⟨task, hold j task hj, hholds⟩
  · intro j task hj hlock
    rcases (task_concat rfl hj).symm with hj | ⟨-, rfl⟩
    · exact ho.quiet j task hj hlock
    · exact ⟨fun hholds => hholds.elim (fun heq => by cases heq) fun heq => (by cases heq), rfl⟩
  · have hcurrent : (s.addTask caller).current = s.current := by
      show (match s.w.lock with
        | some t => ((s.addTask caller).tasks[t]?).elim [] FlushTask.inFlight
        | none => []) = s.current
      rw [current]
      cases hlock : s.w.lock with
      | none => rfl
      | some j =>
          obtain ⟨task, hj, -⟩ := ho.holder j hlock
          simp only [hold j task hj, hj]
    rw [hcurrent]
    exact ho.conserved

theorem callFlush (ho : s.Orderly) (caller : Caller) : (s.callFlush caller).Orderly := by
  have ht : (s.addTask caller).tasks[s.tasks.length]? =
      some ⟨caller, .sleeping, none, s.accepted.length⟩ := List.getElem?_concat_length
  have hout : ¬(⟨caller, .sleeping, none, s.accepted.length⟩ : FlushTask).Holds :=
    fun hholds => hholds.elim (fun heq => by cases heq) fun heq => by cases heq
  have hadd := ho.addTask caller
  exact hadd.enter ht (hadd.not_lock ht hout) rfl

theorem cancelTimer (ho : s.Orderly) : s.cancelTimer.Orderly := by
  unfold Batching.cancelTimer
  have hsame : ({ s with w := { s.w with timer := none } } : Batching).Orderly :=
    ho.of_same rfl rfl rfl rfl rfl
  split
  · exact hsame
  · next t _ =>
      split
      · next task ht =>
          split
          · next hpc =>
              have hout : ¬task.Holds := by
                rintro (heq | heq) <;> simp [hpc] at heq
              have hlock := ho.not_lock ht hout
              exact ho.aside ht rfl hlock rfl
                (FlushTask.quiet_done (ho.quiet t task ht hlock).appending _) rfl rfl rfl
          · exact hsame
      · exact hsame

/-- A task that does not have the lock. -/
theorem appending_of_not_holds (ho : s.Orderly) (ht : s.tasks[t]? = some task)
    (hout : ¬task.Holds) : task.appending = false :=
  (ho.quiet t task ht (ho.not_lock ht hout)).appending

theorem appended (ho : s.Orderly) (ht : s.tasks[t]? = some task) {failure : Option Error}
    (hstep : s.taskStep t task (.appended t failure) = some s') : s'.Orderly := by
  simp only [taskStep] at hstep
  split at hstep
  · next batch hinner =>
      have hlock := ho.lock_of_appending ht (by simp [FlushTask.appending, hinner])
      have hcons := ho.conserved_of_lock ht hlock
      obtain ⟨task', ht', hholds⟩ := ho.holder t hlock
      rw [ht] at ht'
      cases ht'
      simp only [FlushTask.inFlight, hinner] at hcons
      cases failure with
      | some e =>
          cases hstep
          refine ho.takes ht rfl (.inr hlock) hlock hholds ?_
          have hflight : ({ task with append := some ⟨batch, some (.error e)⟩ } :
              FlushTask).inFlight = batch := if_pos hholds
          rw [hflight]
          exact hcons
      | none =>
          cases hstep
          refine ho.takes ht rfl (.inr hlock) hlock hholds ?_
          rw [hcons]
          simp [own, FlushTask.inFlight, List.filter_map, Function.comp_def]
  · cases hstep

theorem resume (ho : s.Orderly) (ht : s.tasks[t]? = some task)
    (hstep : s.taskStep t task (.resume t) = some s') : s'.Orderly := by
  simp only [taskStep] at hstep
  split at hstep
  · next hpc hinner =>
      cases hstep
      exact ho.release ht (.inl hpc) (by simp [FlushTask.appending, hinner]) _
  · next hpc hinner =>
      cases hstep
      exact ho.release ht (.inl hpc) (by simp [FlushTask.appending, hinner]) _
  · next hpc hinner =>
      cases hstep
      exact ho.release ht (.inr hpc) (by simp [FlushTask.appending, hinner]) _
  · cases hstep

/-- A cancellation, unless it hits the wait for an append that has not succeeded. -/
theorem cancel (ho : s.Orderly) (ht : s.tasks[t]? = some task)
    (hwaits : s.waitsOut (.cancel t) = true)
    (hstep : s.taskStep t task (.cancel t) = some s') : s'.Orderly := by
  cases hpc : task.pc with
  | sleeping =>
      simp only [taskStep, hpc] at hstep
      cases hstep
      have hout : ¬task.Holds := by
        rintro (heq | heq) <;> simp [hpc] at heq
      exact ho.aside ht rfl (ho.not_lock ht hout) rfl
        (FlushTask.quiet_done (ho.appending_of_not_holds ht hout) _) rfl rfl rfl
  | acquire =>
      simp only [taskStep, hpc] at hstep
      cases hstep
      have hout : ¬task.Holds := by
        rintro (heq | heq) <;> simp [hpc] at heq
      have hsame : ({ s with w := { s.w with waiters := s.w.waiters.erase t } } :
          Batching).Orderly := ho.of_same rfl rfl rfl rfl rfl
      exact hsame.finish ht (ho.not_lock ht hout) (ho.appending_of_not_holds ht hout) _
  | shield =>
      have hlock := ho.lock_of_holds ht (.inl hpc)
      have hcons := ho.conserved_of_lock ht hlock
      simp only [taskStep, hpc] at hstep
      split at hstep
      · next batch hinner =>
          cases hstep
          refine ho.takes ht rfl (.inr hlock) hlock (.inr rfl) ?_
          have hflight : ({ task with pc := .wait } : FlushTask).inFlight = task.inFlight := by
            simp only [FlushTask.inFlight, hinner]
          rw [hflight]
          exact hcons
      · next hinner =>
          cases hstep
          refine ho.release ht (.inl hpc) ?_ _
          unfold FlushTask.appending
          cases happend : task.append with
          | none => rfl
          | some a =>
              obtain ⟨batch, result⟩ := a
              cases result with
              | none => exact absurd happend (hinner batch)
              | some res => rfl
  | wait =>
      have hlock := ho.lock_of_holds ht (.inr hpc)
      have hcons := ho.conserved_of_lock ht hlock
      simp only [taskStep, hpc] at hstep
      cases hstep
      -- the append has succeeded, so nothing is left to put back
      have hdone : ∃ batch n, task.append = some ⟨batch, some (.ok n)⟩ := by
        simp only [waitsOut, ht, hpc, bne_self_eq_false, Bool.false_or] at hwaits
        cases hinner : task.append with
        | none => simp [hinner] at hwaits
        | some a =>
            obtain ⟨batch, result⟩ := a
            cases result with
            | none => simp [hinner] at hwaits
            | some res =>
                cases res with
                | error e => simp [hinner, Except.toBool] at hwaits
                | ok n => exact ⟨batch, n, rfl⟩
      obtain ⟨batch, n, hinner⟩ := hdone
      rw [FlushTask.inFlight, hinner, List.append_nil] at hcons
      refine ho.leaves ht rfl hlock (lock_finish _ t task _) (FlushTask.quiet_done ?_ _) ?_
      · simp [FlushTask.appending, hinner]
      · rw [buf_finish]
        exact hcons
  | done r => simp [taskStep, hpc] at hstep

theorem write (ho : s.Orderly) {payload : Bytes}
    (hstep : s.step (.write payload) = some s') : s'.Orderly := by
  simp only [step] at hstep
  split at hstep
  · cases hstep
    exact ho.of_same rfl rfl rfl rfl rfl
  · split at hstep
    · cases hstep
      exact ho
    · have haccepted : ({ s with
          w := { s.w with buf := s.w.buf ++ [payload] }
          accepted := s.accepted ++ [payload] } : Batching).Orderly := by
        refine ⟨ho.holder, ho.quiet, ?_⟩
        show s.accepted ++ [payload] = s.own ++ s.current ++ (s.w.buf ++ [payload])
        rw [ho.conserved, List.append_assoc _ s.w.buf]
      split at hstep
      · cases hstep
        exact haccepted
      · cases hstep
        exact (haccepted.addTask .timer).of_same rfl rfl rfl rfl rfl

/-- Every step keeps the invariant, if no cancellation hits the wait of another. -/
theorem step (ho : s.Orderly) (hwaits : s.waitsOut a = true) (hstep : s.step a = some s') :
    s'.Orderly := by
  cases a with
  | write payload => exact ho.write hstep
  | flush =>
      cases hstep
      exact ho.callFlush .flush
  | close =>
      cases hstep
      exact ho.cancelTimer.callFlush .close
  | wake t =>
      obtain ⟨task, ht, hstep⟩ := Option.bind_eq_some_iff.mp hstep
      simp only [taskStep] at hstep
      split at hstep
      · next hpc =>
          cases hstep
          have hout : ¬task.Holds := by
            rintro (heq | heq) <;> simp [hpc] at heq
          have hsame : ({ s with w := { s.w with timer := none } } : Batching).Orderly :=
            ho.of_same rfl rfl rfl rfl rfl
          have happend := ho.appending_of_not_holds ht hout
          exact hsame.enter ht (ho.not_lock ht hout) happend
      · cases hstep
  | grant t =>
      obtain ⟨task, ht, hstep⟩ := Option.bind_eq_some_iff.mp hstep
      simp only [taskStep] at hstep
      split at hstep
      · next hfree =>
          cases hstep
          have hout : ¬task.Holds := by
            rintro (heq | heq) <;> simp [hfree.1] at heq
          have hsame : ({ s with w := { s.w with waiters := s.w.waiters.tail } } :
              Batching).Orderly := ho.of_same rfl rfl rfl rfl rfl
          exact hsame.locked ht hfree.2.1 (ho.appending_of_not_holds ht hout)
      · cases hstep
  | appended t failure =>
      obtain ⟨task, ht, hstep⟩ := Option.bind_eq_some_iff.mp hstep
      exact ho.appended ht hstep
  | other payload =>
      cases hstep
      refine ⟨ho.holder, ho.quiet, ?_⟩
      have hown : ({ s with stream := s.stream ++ [(false, payload)] } : Batching).own = s.own := by
        simp [own]
      rw [hown]
      exact ho.conserved
  | resume t =>
      obtain ⟨task, ht, hstep⟩ := Option.bind_eq_some_iff.mp hstep
      exact ho.resume ht hstep
  | cancel t =>
      obtain ⟨task, ht, hstep⟩ := Option.bind_eq_some_iff.mp hstep
      exact ho.cancel ht hwaits hstep

end Orderly

/-! ## The results -/

/-- A flush is cancelled twice while it appends, and another one runs. -/
def cancelledTwice : List BatchAct :=
  [.write [1], .flush, .cancel 1, .cancel 1, .write [2], .flush, .appended 2 none]

/-- A second cancellation gives the lock back while the append runs on: after
`cancelledTwice`, the later record is durable and the earlier one is not. -/
theorem overtaken :
    ¬∀ (stream : List Bytes) (acts : List BatchAct) (s : Batching),
      Lts.run step (init stream) acts = some s → s.Conserved := by
  intro hall
  have hmap : (Lts.run step (init []) cancelledTwice).map (fun s =>
      (s.accepted, s.own, s.inFlight, s.w.buf)) = some ([[1], [2]], [[2]], [[1]], []) := by
    decide +kernel
  obtain ⟨s, hrun, heq⟩ := Option.map_eq_some_iff.mp hmap
  simp only [Prod.mk.injEq] at heq
  obtain ⟨haccepted, hown, hflight, hbuf⟩ := heq
  have hconserved := (hall [] cancelledTwice s hrun).1
  rw [haccepted, hown, hflight, hbuf] at hconserved
  revert hconserved
  decide

/-- In a run in which no cancellation hits the wait for an append that has not succeeded,
the accepted records are those that are durable, in flight and in the buffer. -/
theorem accepted_conserved (stream : List Bytes) (acts : List BatchAct) (s : Batching)
    (hrun : Lts.run step (init stream) acts = some s)
    (hwaits : Lts.Meets step (fun s a => s.waitsOut a = true) (init stream) acts) :
    s.Conserved :=
  (Lts.run_invariant_of_meets (fun _ _ _ ho hwaits hstep => Orderly.step ho hwaits hstep) hrun
    hwaits (.init stream)).conserved_run

/-- A flush is cancelled once and fails, and the next one appends its records. -/
def cancelledOnce : List BatchAct :=
  [.write [1], .flush, .cancel 1, .write [2], .flush, .appended 1 (some .osError), .resume 1,
    .grant 2, .appended 2 none, .resume 2]

theorem accepted_conserved_cancelledOnce :
    ∃ s, Lts.run step (init []) cancelledOnce = some s ∧ s.Conserved := by
  have hsome : (Lts.run step (init []) cancelledOnce).isSome = true := by decide +kernel
  obtain ⟨s, hrun⟩ := Option.isSome_iff_exists.mp hsome
  exact ⟨s, hrun, accepted_conserved [] cancelledOnce s hrun (by decide +kernel)⟩

end Batching

end Durastream
