import Durastream.Aio.BatchWriter

/-!
# Closing the batch writer

A `close()` cancels the timer that sleeps and then runs a flush like any other, so it
stands in line for the lock; only when its flush has returned does it set `_closed`.
In the meantime `write` accepts records and starts timers.  A record that is accepted
after the flush has taken its batch stays in the buffer of a closed writer.

`Queued` is what the line for the lock guarantees in the runs in which no `write` is
accepted while a `close()` is under way: the timers that are not over are in line before
the `close()`, and when it returns nothing is left.  The lock discipline of `Orderly`
says the rest.
-/

namespace Durastream

namespace FlushTask

/-- The task is not over. -/
def live (task : FlushTask) : Bool :=
  match task.pc with
  | .done _ => false
  | _ => true

/-- The task waits for the lock or has it. -/
def stands (task : FlushTask) : Bool :=
  match task.pc with
  | .sleeping | .done _ => false
  | _ => true

/-- A `close()` that is under way. -/
def closing (task : FlushTask) : Bool := task.caller = .close && task.live

/-- A `close()` that has returned. -/
def Closed (task : FlushTask) : Prop := task.caller = .close ∧ ∃ n, task.pc = .done (.returned n)

theorem Holds.stands {task : FlushTask} (h : task.Holds) : task.stands = true := by
  rcases h with h | h <;> simp [FlushTask.stands, h]

theorem live_of_stands {task : FlushTask} (h : task.stands = true) : task.live = true := by
  unfold live
  split
  · next r hpc => simp [stands, hpc] at h
  · rfl

theorem asleep_or_stands {task : FlushTask} (h : task.live = true) :
    task.pc = .sleeping ∨ task.stands = true := by
  cases hpc : task.pc with
  | sleeping => exact .inl rfl
  | done r => simp [live, hpc] at h
  | acquire | shield | wait => simp [stands, hpc]

theorem Closed.not_live {task : FlushTask} (h : task.Closed) : task.live = false := by
  obtain ⟨-, n, hpc⟩ := h
  simp [live, hpc]

end FlushTask

namespace Batching

/-- `write` accepts a record: it raises neither a pending error nor that the writer is
closed. -/
def accepts (s : Batching) : Bool := s.w.error.isNone && !s.w.closed

/-- No `write` is accepted while a `close()` is under way. -/
def refuses (s : Batching) : BatchAct → Bool
  | .write _ => !(s.accepts && s.tasks.any FlushTask.closing)
  | _ => true

/-- A timer that is not over. -/
def Ticking (s : Batching) (t : Nat) : Prop :=
  ∃ task : FlushTask, s.tasks[t]? = some task ∧ task.caller = .timer ∧ task.live = true

/-- The tasks in line for the lock, the one that has it first. -/
def line (s : Batching) : List Nat := s.w.lock.toList ++ s.w.waiters

/-- What a `close()` that has returned promises. -/
structure Drained (s : Batching) : Prop where
  /-- What was accepted is durable, once and in this order. -/
  durable : s.own = s.accepted
  buf : s.w.buf = []
  /-- No `append_many` runs, nor is there a batch to put back. -/
  inFlight : s.inFlight = []
  appending : ∀ task ∈ s.tasks, task.appending = false
  timer : ∀ t, ¬s.Ticking t
  /-- Every `write` raises. -/
  refuses : s.accepts = false

/-- The writer has stopped. -/
structure Stopped (s : Batching) : Prop where
  buf : s.w.buf = []
  lock : s.w.lock = none
  closed : s.w.closed = true
  timer : ∀ t, ¬s.Ticking t

/-- The line for the lock, in the runs in which no `write` is accepted while a `close()`
is under way. -/
structure Queued (s : Batching) : Prop where
  nodup : s.line.Nodup
  stands : ∀ t ∈ s.line, ∃ task : FlushTask, s.tasks[t]? = some task ∧ task.stands = true
  inLine : ∀ (t : Nat) (task : FlushTask), s.tasks[t]? = some task → task.stands = true →
    t ∈ s.line
  /-- Only the timer of the writer sleeps. -/
  asleep : ∀ (t : Nat) (task : FlushTask), s.tasks[t]? = some task → task.pc = .sleeping →
    task.caller = .timer ∧ s.w.timer = some t
  /-- The timers that are not over come before every `close()` that is not. -/
  ahead : ∀ (c : Nat) (task : FlushTask), s.tasks[c]? = some task → task.closing = true →
    s.w.timer = none ∧ ∀ t, s.Ticking t → [t, c].Sublist s.line
  /-- A `close()` that has the lock has taken the whole buffer. -/
  taken : ∀ (c : Nat) (task : FlushTask), s.tasks[c]? = some task → task.caller = .close →
    s.w.lock = some c → s.w.buf = []
  closed : ∀ (c : Nat) (task : FlushTask), s.tasks[c]? = some task → task.Closed → s.Stopped

variable {s s' : Batching} {t c : Nat} {task task' old : FlushTask} {a : BatchAct}

/-- A write adds to what was accepted exactly if it is accepted. -/
theorem accepted_write {payload : Bytes} (hstep : s.step (.write payload) = some s') :
    s'.accepted = if s.accepts then s.accepted ++ [payload] else s.accepted := by
  simp only [step] at hstep
  split at hstep
  · next e herror =>
      cases hstep
      simp [accepts, herror]
  · next herror =>
      split at hstep
      · next hclosed =>
          cases hstep
          simp [accepts, hclosed]
      · next hclosed =>
          have haccepts : s.accepts = true := by simp [accepts, herror, hclosed]
          split at hstep <;> cases hstep <;> rw [haccepts] <;> rfl

/-! ### Tasks of the next state -/

/-- A timer of the next state, where one task has gone on. -/
theorem Ticking.of_set (h : s'.Ticking c) (htasks : s'.tasks = s.tasks.set t task') :
    c = t ∧ task'.caller = .timer ∧ task'.live = true ∨ c ≠ t ∧ s.Ticking c := by
  obtain ⟨other, hc, hcaller, hlive⟩ := h
  rcases task_set htasks hc with ⟨heq, rfl⟩ | ⟨hne, hc⟩
  · exact .inl ⟨heq, hcaller, hlive⟩
  · exact .inr ⟨hne, other, hc, hcaller, hlive⟩

theorem stands_set (htasks : s'.tasks = s.tasks.set t task') (hct : c ≠ t)
    (hc : ∃ task : FlushTask, s.tasks[c]? = some task ∧ task.stands = true) :
    ∃ task : FlushTask, s'.tasks[c]? = some task ∧ task.stands = true := by
  obtain ⟨task, hget, hstands⟩ := hc
  exact ⟨task, by rw [htasks, List.getElem?_set_ne hct.symm, hget], hstands⟩

section Finish

variable {r : Ended}

@[simp] theorem waiters_finish : (s.finish t task r).w.waiters = s.w.waiters := by
  unfold finish
  dsimp only
  split <;> rfl

@[simp] theorem timer_finish : (s.finish t task r).w.timer = s.w.timer := by
  unfold finish
  dsimp only
  split <;> rfl

@[simp] theorem line_finish : (s.finish t task r).line = s.line := by
  rw [line, line, lock_finish, waiters_finish]

theorem closed_finish (h : s.w.closed = true) : (s.finish t task r).w.closed = true := by
  unfold finish
  dsimp only
  split <;> first | rfl | exact h

/-- A `close()` returns, with nothing left behind. -/
theorem stopped_finish {n : Nat} (hcaller : task.caller = .close) (hbuf : s.w.buf = [])
    (hlock : s.w.lock = none) (htimer : ∀ j, j ≠ t → ¬s.Ticking j) :
    (s.finish t task (.returned n)).Stopped := by
  refine ⟨by rw [buf_finish, hbuf], by rw [lock_finish, hlock], by simp [finish, hcaller], ?_⟩
  intro j hticking
  rcases hticking.of_set rfl with ⟨-, hother, -⟩ | ⟨hjt, hticking⟩
  · rw [hcaller] at hother
    cases hother
  · exact htimer j hjt hticking

end Finish

/-- What is known of the task that comes to the lock does not matter. -/
theorem enter_setTask : (s.setTask t old).enter t task = s.enter t task := by
  unfold enter locked finish setTask
  simp only [List.set_set]

/-- The task that has the lock is the first in line. -/
theorem line_of_lock (hlock : s.w.lock = some t) : s.line = t :: s.w.waiters := by
  rw [line, hlock]
  rfl

theorem line_of_free (hfree : s.w.lock = none) : s.line = s.w.waiters := by
  rw [line, hfree]
  rfl

namespace Queued

theorem init (stream : List Bytes) : (Batching.init stream).Queued := by
  have hnone : ∀ (t : Nat) (task : FlushTask), (Batching.init stream).tasks[t]? ≠ some task := by
    intro t task h
    cases h
  exact ⟨.nil, fun t hmem => (by cases hmem), fun t task ht => absurd ht (hnone t task),
    fun t task ht => absurd ht (hnone t task), fun c task hc => absurd hc (hnone c task),
    fun c task hc => absurd hc (hnone c task), fun c task hc => absurd hc (hnone c task)⟩

/-- No timer sleeps, so whoever is not over is in line. -/
theorem inLine_of_live (hq : s.Queued) (hnone : s.w.timer = none) (ht : s.tasks[t]? = some task)
    (hlive : task.live = true) : t ∈ s.line := by
  rcases FlushTask.asleep_or_stands hlive with hsleep | hstands
  · have htimer := (hq.asleep t task ht hsleep).2
    rw [hnone] at htimer
    cases htimer
  · exact hq.inLine t task ht hstands

/-- Who does not stand is not in line. -/
theorem not_mem_line (hq : s.Queued) (ht : s.tasks[t]? = some task)
    (hout : task.stands = false) : t ∉ s.line := by
  intro hmem
  obtain ⟨other, hother, hstands⟩ := hq.stands t hmem
  rw [ht] at hother
  cases hother
  rw [hout] at hstands
  cases hstands

/-- While a `close()` is first in line, no timer is left. -/
theorem no_timer (hq : s.Queued) (hc : s.tasks[c]? = some task) (hclosing : task.closing = true)
    {rest : List Nat} (hline : s.line = c :: rest) (t : Nat) : ¬s.Ticking t := by
  intro hticking
  have hahead := (hq.ahead c task hc hclosing).2 t hticking
  have hnodup := hq.nodup
  rw [hline] at hahead hnodup
  have hct : t ≠ c := by
    rintro rfl
    obtain ⟨other, hother, hcaller, -⟩ := hticking
    rw [hc] at hother
    cases hother
    simp [FlushTask.closing, hcaller] at hclosing
  cases hahead with
  | cons _ hrest => exact (List.nodup_cons.mp hnodup).1 (hrest.subset (by simp))
  | cons_cons _ => exact hct rfl

/-- A task in line goes on and stays there. -/
theorem goes_on (hq : s.Queued) (ht : s.tasks[t]? = some task)
    (htasks : s'.tasks = s.tasks.set t task') (hstands : task.stands = true)
    (hstands' : task'.stands = true) (hcaller : task'.caller = task.caller)
    (hline : s'.line = s.line) (htimer : s'.w.timer = s.w.timer) (hbusy : ¬s.Stopped)
    (htaken : ∀ (c : Nat) (task : FlushTask), s'.tasks[c]? = some task → task.caller = .close →
      s'.w.lock = some c → s'.w.buf = []) : s'.Queued := by
  have hlt := (List.getElem?_eq_some_iff.mp ht).1
  have hlive := FlushTask.live_of_stands hstands
  have hlive' := FlushTask.live_of_stands hstands'
  refine ⟨hline ▸ hq.nodup, ?_, ?_, ?_, ?_, htaken, ?_⟩
  · intro j hmem
    rw [hline] at hmem
    by_cases hjt : j = t
    · subst hjt
      exact ⟨task', by rw [htasks, List.getElem?_set_self hlt], hstands'⟩
    · exact stands_set htasks hjt (hq.stands j hmem)
  · intro c other hc hother
    rw [hline]
    rcases task_set htasks hc with ⟨rfl, rfl⟩ | ⟨-, hc⟩
    · exact hq.inLine c task ht hstands
    · exact hq.inLine c other hc hother
  · intro c other hc hsleep
    rcases task_set htasks hc with ⟨-, rfl⟩ | ⟨-, hc⟩
    · simp [FlushTask.stands, hsleep] at hstands'
    · rw [htimer]
      exact hq.asleep c other hc hsleep
  · intro c other hc hclosing
    have hold : s.w.timer = none ∧ ∀ j, s.Ticking j → [j, c].Sublist s.line := by
      rcases task_set htasks hc with ⟨rfl, rfl⟩ | ⟨-, hc⟩
      · refine hq.ahead c task ht ?_
        rw [FlushTask.closing, hlive', hcaller] at hclosing
        rw [FlushTask.closing, hlive]
        exact hclosing
      · exact hq.ahead c other hc hclosing
    rw [htimer, hline]
    refine ⟨hold.1, fun j hticking => hold.2 j ?_⟩
    rcases hticking.of_set htasks with ⟨rfl, hj, -⟩ | ⟨-, hticking⟩
    · exact ⟨task, ht, hcaller ▸ hj, hlive⟩
    · exact hticking
  · intro c other hc hclosed
    rcases task_set htasks hc with ⟨-, rfl⟩ | ⟨-, hc⟩
    · rw [hclosed.not_live] at hlive'
      cases hlive'
    · exact absurd (hq.closed c other hc hclosed) hbusy

/-- A task ends, and leaves the line if it is there. -/
theorem ends (hq : s.Queued) (htasks : s'.tasks = s.tasks.set t task')
    (hdead : task'.live = false) (hline : s'.line = s.line.erase t)
    (htimer : ∀ j, j ≠ t → s.w.timer = some j → s'.w.timer = some j)
    (hnone : s.w.timer = none → s'.w.timer = none)
    (hlock : ∀ j, j ≠ t → s'.w.lock = some j → s.w.lock = some j ∧ s'.w.buf = s.w.buf)
    (hstop : s.Stopped → s'.w.buf = [] ∧ s'.w.lock = none ∧ s'.w.closed = true)
    (hclosed : task'.Closed → s'.Stopped) : s'.Queued := by
  have hticking : ∀ j, s'.Ticking j → j ≠ t ∧ s.Ticking j := by
    intro j h
    rcases h.of_set htasks with ⟨-, -, hlive⟩ | hold
    · rw [hdead] at hlive
      cases hlive
    · exact hold
  have hnodup : s'.line.Nodup := by
    rw [hline]
    exact hq.nodup.erase t
  refine ⟨hnodup, ?_, ?_, ?_, ?_, ?_, ?_⟩
  · intro j hmem
    rw [hline] at hmem
    have hjt := (hq.nodup.mem_erase_iff.mp hmem).1
    exact stands_set htasks hjt (hq.stands j (List.mem_of_mem_erase hmem))
  · intro c other hc hother
    rw [hline]
    rcases task_set htasks hc with ⟨-, rfl⟩ | ⟨hct, hc⟩
    · rw [FlushTask.live_of_stands hother] at hdead
      cases hdead
    · exact (List.mem_erase_of_ne hct).mpr (hq.inLine c other hc hother)
  · intro c other hc hsleep
    rcases task_set htasks hc with ⟨-, rfl⟩ | ⟨hct, hc⟩
    · simp [FlushTask.live, hsleep] at hdead
    · obtain ⟨hcaller, hold⟩ := hq.asleep c other hc hsleep
      exact ⟨hcaller, htimer c hct hold⟩
  · intro c other hc hclosing
    rcases task_set htasks hc with ⟨-, rfl⟩ | ⟨hct, hc⟩
    · simp [FlushTask.closing, hdead] at hclosing
    · obtain ⟨hold, hahead⟩ := hq.ahead c other hc hclosing
      refine ⟨hnone hold, fun j h => ?_⟩
      obtain ⟨hjt, h⟩ := hticking j h
      have hsub := (hahead j h).erase t
      rw [List.erase_of_not_mem (by simp [hjt.symm, hct.symm])] at hsub
      rwa [hline]
  · intro c other hc hcaller hlock'
    rcases task_set htasks hc with ⟨rfl, rfl⟩ | ⟨hct, hc⟩
    · -- the task is not in line any more
      have hmem : c ∈ s.line.erase c := by
        rw [← hline, line_of_lock hlock']
        exact List.mem_cons_self
      exact absurd rfl (hq.nodup.mem_erase_iff.mp hmem).1
    · obtain ⟨hold, hbuf⟩ := hlock c hct hlock'
      rw [hbuf]
      exact hq.taken c other hc hcaller hold
  · intro c other hc hother
    rcases task_set htasks hc with ⟨-, rfl⟩ | ⟨-, hc⟩
    · exact hclosed hother
    · have hstopped := hq.closed c other hc hother
      obtain ⟨hbuf, hfree, hshut⟩ := hstop hstopped
      exact ⟨hbuf, hfree, hshut, fun j h => hstopped.timer j (hticking j h).2⟩

/-- A task that is not in line joins it, at its end. -/
theorem joins (hq : s.Queued) (ht : s.tasks[t]? = some old) (hold : old.live = false)
    (htasks : s'.tasks = s.tasks.set t task') (hstands : task'.stands = true)
    (hline : s'.line = s.line ++ [t])
    (htimer : s'.w.timer = s.w.timer) (hclose : task'.caller = .close → s.w.timer = none)
    (hfree : task'.caller = .timer → ∀ task ∈ s.tasks, ¬task.Closed ∧ task.closing = false)
    (hstop : s.Stopped → s'.w.buf = [] ∧ s'.w.lock = none ∧ s'.w.closed = true)
    (htaken : ∀ (c : Nat) (task : FlushTask), s'.tasks[c]? = some task → task.caller = .close →
      s'.w.lock = some c → s'.w.buf = []) : s'.Queued := by
  have hlt := (List.getElem?_eq_some_iff.mp ht).1
  have hout : t ∉ s.line := by
    refine hq.not_mem_line ht (Bool.eq_false_iff.mpr fun hstands => ?_)
    rw [FlushTask.live_of_stands hstands] at hold
    cases hold
  have hlive := FlushTask.live_of_stands hstands
  have hself : s'.tasks[t]? = some task' := by rw [htasks, List.getElem?_set_self hlt]
  refine ⟨?_, ?_, ?_, ?_, ?_, htaken, ?_⟩
  · rw [hline]
    exact List.nodup_append.mpr ⟨hq.nodup, by simp, fun j hj k hk heq =>
      hout (List.mem_singleton.mp hk ▸ heq ▸ hj)⟩
  · intro j hmem
    rw [hline] at hmem
    by_cases hjt : j = t
    · subst hjt
      exact ⟨task', hself, hstands⟩
    · refine stands_set htasks hjt (hq.stands j ?_)
      rcases List.mem_append.mp hmem with hmem | hmem
      · exact hmem
      · exact absurd (List.mem_singleton.mp hmem) hjt
  · intro c other hc hother
    rw [hline]
    rcases task_set htasks hc with ⟨rfl, rfl⟩ | ⟨-, hc⟩
    · exact List.mem_append_right _ List.mem_cons_self
    · exact List.mem_append_left _ (hq.inLine c other hc hother)
  · intro c other hc hsleep
    rcases task_set htasks hc with ⟨-, rfl⟩ | ⟨-, hc⟩
    · simp [FlushTask.stands, hsleep] at hstands
    · rw [htimer]
      exact hq.asleep c other hc hsleep
  · intro c other hc hclosing
    rw [htimer, hline]
    rcases task_set htasks hc with ⟨rfl, rfl⟩ | ⟨hct, hc⟩
    · -- a `close()` comes after all that are in line
      have hnone := hclose (by simpa [FlushTask.closing, hlive] using hclosing)
      refine ⟨hnone, fun j hticking => ?_⟩
      have hmem : j ∈ s.line := by
        rcases hticking.of_set htasks with ⟨rfl, hcaller, -⟩ | ⟨-, other, hj, -, hother⟩
        · simp [FlushTask.closing, hcaller] at hclosing
        · exact hq.inLine_of_live hnone hj hother
      exact List.Sublist.append (List.singleton_sublist.mpr hmem) (List.Sublist.refl [c])
    · obtain ⟨hnone, hahead⟩ := hq.ahead c other hc hclosing
      refine ⟨hnone, fun j hticking => ?_⟩
      rcases hticking.of_set htasks with ⟨-, hcaller, -⟩ | ⟨-, hticking⟩
      · rw [(hfree hcaller other (List.mem_of_getElem? hc)).2] at hclosing
        cases hclosing
      · exact (hahead j hticking).trans (List.sublist_append_left _ _)
  · intro c other hc hclosed
    rcases task_set htasks hc with ⟨-, rfl⟩ | ⟨-, hc⟩
    · rw [hclosed.not_live] at hlive
      cases hlive
    · have hstopped := hq.closed c other hc hclosed
      obtain ⟨hbuf, hfree', hshut⟩ := hstop hstopped
      refine ⟨hbuf, hfree', hshut, fun j hticking => ?_⟩
      rcases hticking.of_set htasks with ⟨-, hcaller, -⟩ | ⟨-, hticking⟩
      · exact (hfree hcaller other (List.mem_of_getElem? hc)).1 hclosed
      · exact hstopped.timer j hticking

/-- Nothing that the line depends on has changed. -/
theorem of_same (hq : s.Queued) (htasks : s'.tasks = s.tasks) (hlock : s'.w.lock = s.w.lock)
    (hwaiters : s'.w.waiters = s.w.waiters) (htimer : s'.w.timer = s.w.timer)
    (hbuf : s'.w.buf = s.w.buf) (hclosed : s'.w.closed = s.w.closed) : s'.Queued := by
  have hline : s'.line = s.line := by rw [line, line, hlock, hwaiters]
  have hticking : ∀ j, s'.Ticking j → s.Ticking j := by
    rintro j ⟨other, hj, h⟩
    exact ⟨other, htasks ▸ hj, h⟩
  refine ⟨hline ▸ hq.nodup, ?_, ?_, ?_, ?_, ?_, ?_⟩ <;> rw [htasks]
  · rw [hline]
    exact hq.stands
  · rw [hline]
    exact hq.inLine
  · rw [htimer]
    exact hq.asleep
  · intro c task hc hclosing
    rw [htimer, hline]
    obtain ⟨hnone, hahead⟩ := hq.ahead c task hc hclosing
    exact ⟨hnone, fun j h => hahead j (hticking j h)⟩
  · rw [hlock, hbuf]
    exact hq.taken
  · intro c task hc hother
    have hstopped := hq.closed c task hc hother
    exact ⟨hbuf ▸ hstopped.buf, hlock ▸ hstopped.lock, hclosed ▸ hstopped.closed,
      fun j h => hstopped.timer j (hticking j h)⟩

/-! ### One lemma for each thing a task does -/

/-- A new task that is over at once. -/
theorem arrives (hq : s.Queued) (htasks : s'.tasks = s.tasks ++ [task']) (hw : s'.w = s.w)
    (hdead : task'.pc = .done .cancelled) : s'.Queued := by
  have hline : s'.line = s.line := by rw [line, line, hw]
  have hlive : task'.live = false := by simp [FlushTask.live, hdead]
  have hticking : ∀ j, s'.Ticking j → s.Ticking j := by
    rintro j ⟨other, hj, hcaller, hother⟩
    rcases task_concat htasks hj with ⟨-, rfl⟩ | hj
    · rw [hlive] at hother
      cases hother
    · exact ⟨other, hj, hcaller, hother⟩
  have hstands : ∀ j ∈ s.line,
      ∃ task : FlushTask, s'.tasks[j]? = some task ∧ task.stands = true := by
    intro j hmem
    obtain ⟨other, hj, hother⟩ := hq.stands j hmem
    refine ⟨other, ?_, hother⟩
    rw [htasks, List.getElem?_append_left (List.getElem?_eq_some_iff.mp hj).1, hj]
  refine ⟨hline ▸ hq.nodup, hline ▸ hstands, ?_, ?_, ?_, ?_, ?_⟩
  · intro c other hc hother
    rcases task_concat htasks hc with ⟨-, rfl⟩ | hc
    · rw [FlushTask.live_of_stands hother] at hlive
      cases hlive
    · rw [hline]
      exact hq.inLine c other hc hother
  · intro c other hc hsleep
    rcases task_concat htasks hc with ⟨-, rfl⟩ | hc
    · rw [hdead] at hsleep
      cases hsleep
    · rw [hw]
      exact hq.asleep c other hc hsleep
  · intro c other hc hclosing
    rcases task_concat htasks hc with ⟨-, rfl⟩ | hc
    · simp [FlushTask.closing, hlive] at hclosing
    · rw [hw, hline]
      obtain ⟨hnone, hahead⟩ := hq.ahead c other hc hclosing
      exact ⟨hnone, fun j h => hahead j (hticking j h)⟩
  · intro c other hc hcaller hlock
    rw [hw] at hlock ⊢
    rcases task_concat htasks hc with ⟨rfl, rfl⟩ | hc
    · -- the lock is not with the new task
      have hmem : s.tasks.length ∈ s.line := line_of_lock hlock ▸ List.mem_cons_self
      obtain ⟨other, hother, -⟩ := hq.stands _ hmem
      exact absurd (List.getElem?_eq_some_iff.mp hother).1 (Nat.lt_irrefl _)
    · exact hq.taken c other hc hcaller hlock
  · intro c other hc hclosed
    rcases task_concat htasks hc with ⟨-, rfl⟩ | hc
    · obtain ⟨-, n, hpc⟩ := hclosed
      rw [hdead] at hpc
      cases hpc
    · have hstopped := hq.closed c other hc hclosed
      exact ⟨hw ▸ hstopped.buf, hw ▸ hstopped.lock, hw ▸ hstopped.closed,
        fun j h => hstopped.timer j (hticking j h)⟩

/-- A task that has left the line ends. -/
theorem finishes {u : Batching} (hq : s.Queued) (htasks : u.tasks = s.tasks)
    (hlock : u.w.lock = s.w.lock) (htimer : u.w.timer = s.w.timer) (hbuf : u.w.buf = s.w.buf)
    (hshut : u.w.closed = s.w.closed) (hline : u.line = s.line.erase t) {r : Ended}
    (hclosed : task.caller = .close → ∀ n, r = .returned n → (u.finish t task r).Stopped) :
    (u.finish t task r).Queued := by
  have hset : (u.finish t task r).tasks = s.tasks.set t { task with pc := .done r } := by
    rw [← htasks]
    rfl
  have hlock' : (u.finish t task r).w.lock = s.w.lock := (lock_finish u t task r).trans hlock
  have hbuf' : (u.finish t task r).w.buf = s.w.buf := (buf_finish u t task r).trans hbuf
  have htimer' : (u.finish t task r).w.timer = s.w.timer := timer_finish.trans htimer
  refine hq.ends hset rfl (line_finish.trans hline) ?_ ?_ ?_ ?_ ?_
  · intro j _ h
    rwa [htimer']
  · intro h
    rwa [htimer']
  · intro j _ h
    exact ⟨hlock' ▸ h, hbuf'⟩
  · intro h
    exact ⟨hbuf'.trans h.buf, hlock'.trans h.lock, closed_finish (hshut.trans h.closed)⟩
  · rintro ⟨hcaller, n, hpc⟩
    exact hclosed hcaller n (by simpa using hpc)

/-- A task that is not in line ends. -/
theorem finish (hq : s.Queued) (hout : t ∉ s.line) {r : Ended}
    (hclosed : task.caller = .close → ∀ n, r = .returned n → (s.finish t task r).Stopped) :
    (s.finish t task r).Queued :=
  hq.finishes rfl rfl rfl rfl rfl (List.erase_of_not_mem hout).symm hclosed

/-- A task comes to the lock. -/
theorem enter (hq : s.Queued) (ht : s.tasks[t]? = some old) (hold : old.live = false)
    (hclose : task.caller = .close → s.w.timer = none)
    (hfree : task.caller = .timer → ∀ task ∈ s.tasks, ¬task.Closed ∧ task.closing = false) :
    (s.enter t task).Queued := by
  have hout : t ∉ s.line := by
    refine hq.not_mem_line ht (Bool.eq_false_iff.mpr fun hstands => ?_)
    rw [FlushTask.live_of_stands hstands] at hold
    cases hold
  unfold Batching.enter
  split
  · have hsame : ({ s with w := { s.w with error := none } } : Batching).Queued :=
      hq.of_same rfl rfl rfl rfl rfl rfl
    exact hsame.finish hout fun _ n h => by cases h
  · split
    · next hnobody =>
        have hline : s.line = [] := by rw [line, hnobody.1, hnobody.2]; rfl
        unfold Batching.locked
        split
        · next hbuf =>
            refine hq.finish hout fun hcaller n h => ?_
            cases h
            refine stopped_finish hcaller hbuf hnobody.1 fun j _ hticking => ?_
            obtain ⟨other, hj, -, hother⟩ := hticking
            have hmem := hq.inLine_of_live (hclose hcaller) hj hother
            rw [hline] at hmem
            cases hmem
        · next hbuf =>
            refine hq.joins ht hold rfl rfl ?_ rfl hclose hfree (fun h => absurd h.buf hbuf)
              fun _ _ _ _ _ => rfl
            rw [hline, line, hnobody.2]
            rfl
    · refine hq.joins ht hold rfl rfl ?_ rfl hclose hfree
        (fun h => ⟨h.buf, h.lock, h.closed⟩) ?_
      · rw [line, line, List.append_assoc]
      · intro c other hc hcaller hlock
        have hheld : s.w.lock = some c := hlock
        rcases task_set rfl hc with ⟨rfl, -⟩ | ⟨-, hc⟩
        · exact absurd (line_of_lock hheld ▸ List.mem_cons_self) hout
        · exact hq.taken c other hc hcaller hheld

theorem callFlush (hq : s.Queued) (caller : Caller) (hcaller : caller ≠ .timer)
    (hclose : caller = .close → s.w.timer = none) : (s.callFlush caller).Queued := by
  -- the task has not come yet
  let absent : FlushTask := ⟨caller, .done .cancelled, none, 0⟩
  have htasks : ((s.addTask caller).setTask s.tasks.length absent).tasks = s.tasks ++ [absent] := by
    show (s.tasks ++ [_]).set s.tasks.length _ = _
    simp
  have harrived : ((s.addTask caller).setTask s.tasks.length absent).Queued :=
    hq.arrives htasks rfl rfl
  have ht : ((s.addTask caller).setTask s.tasks.length absent).tasks[s.tasks.length]? =
      some absent := by
    rw [htasks]
    exact List.getElem?_concat_length
  rw [Batching.callFlush, ← enter_setTask]
  exact harrived.enter ht rfl hclose fun h => absurd h hcaller

/-- A timer that sleeps is over, with or without `_timer`. -/
theorem retires (hq : s.Queued) (ht : s.tasks[t]? = some task) (hsleep : task.pc = .sleeping)
    (htasks : s'.tasks = s.tasks.set t { task with pc := .done .cancelled })
    (hw : s'.w = s.w ∨ s'.w = { s.w with timer := none }) : s'.Queued := by
  have hout : t ∉ s.line := hq.not_mem_line ht (by simp [FlushTask.stands, hsleep])
  have htimer := (hq.asleep t task ht hsleep).2
  have hline : s'.line = s.line := by
    rcases hw with hw | hw <;> rw [line, line, hw]
  refine hq.ends htasks rfl ?_ ?_ ?_ ?_ ?_ ?_
  · rw [hline, List.erase_of_not_mem hout]
  · intro j hjt h
    rw [htimer] at h
    exact absurd (Option.some.inj h).symm hjt
  · intro h
    rw [htimer] at h
    cases h
  · intro j _ h
    rcases hw with hw | hw <;> rw [hw] at h ⊢ <;> exact ⟨h, rfl⟩
  · intro h
    rcases hw with hw | hw <;> rw [hw] <;> exact ⟨h.buf, h.lock, h.closed⟩
  · rintro ⟨-, n, h⟩
    cases h

/-- No timer sleeps, so `_timer` may go. -/
theorem untimed (hq : s.Queued)
    (hawake : ∀ (t : Nat) (task : FlushTask), s.tasks[t]? = some task → task.pc ≠ .sleeping) :
    ({ s with w := { s.w with timer := none } } : Batching).Queued :=
  ⟨hq.nodup, hq.stands, hq.inLine, fun t task ht h => absurd h (hawake t task ht),
    fun c task hc h => ⟨rfl, (hq.ahead c task hc h).2⟩, hq.taken, fun c task hc h =>
      have hstopped := hq.closed c task hc h
      ⟨hstopped.buf, hstopped.lock, hstopped.closed, hstopped.timer⟩⟩

theorem cancelTimer (hq : s.Queued) : s.cancelTimer.Queued ∧ s.cancelTimer.w.timer = none := by
  have huntimed : (∀ (t : Nat) (task : FlushTask), s.w.timer = some t → s.tasks[t]? = some task →
      task.pc ≠ .sleeping) → ({ s with w := { s.w with timer := none } } : Batching).Queued := by
    intro hawake
    refine hq.untimed fun t task ht hsleep => ?_
    exact hawake t task (hq.asleep t task ht hsleep).2 ht hsleep
  unfold Batching.cancelTimer
  split
  · next htimer =>
      refine ⟨huntimed fun t task h => ?_, rfl⟩
      rw [htimer] at h
      cases h
  · next t htimer =>
      have hsame : ∀ (j : Nat) (task : FlushTask), s.w.timer = some j → s.tasks[j]? = some task →
          s.tasks[t]? = some task := by
        intro j task h hj
        rw [htimer] at h
        cases h
        exact hj
      split
      · next task ht =>
          split
          · next hsleep => exact ⟨hq.retires ht hsleep rfl (.inr rfl), rfl⟩
          · next hsleep =>
              refine ⟨huntimed fun j other h hj => ?_, rfl⟩
              have hother := hsame j other h hj
              rw [ht] at hother
              cases hother
              exact hsleep
      · next ht =>
          refine ⟨huntimed fun j other h hj => ?_, rfl⟩
          rw [hsame j other h hj] at ht
          cases ht

/-- The task that has the lock ends. -/
theorem leaves (hq : s.Queued) (hlock : s.w.lock = some t)
    (htasks : s'.tasks = s.tasks.set t task') (hdead : task'.live = false)
    (hfree : s'.w.lock = none) (hwaiters : s'.w.waiters = s.w.waiters)
    (htimer : s'.w.timer = s.w.timer) (hclosed : task'.Closed → s'.Stopped) : s'.Queued := by
  refine hq.ends htasks hdead ?_ ?_ ?_ ?_ ?_ hclosed
  · rw [line_of_lock hlock, List.erase_cons_head, line_of_free hfree, hwaiters]
  · intro j _ h
    rwa [htimer]
  · intro h
    rwa [htimer]
  · intro j _ h
    rw [hfree] at h
    cases h
  · intro h
    rw [h.lock] at hlock
    cases hlock

/-- `_append` ends. -/
theorem release (hq : s.Queued) (ho : s.Orderly) (ht : s.tasks[t]? = some task)
    (hholds : task.Holds) {r : Ended}
    (hok : ∀ n, r = .returned n → ∃ batch m, task.append = some ⟨batch, some (.ok m)⟩) :
    (s.release t task r).Queued := by
  have hlock := ho.lock_of_holds ht hholds
  have hfree : (s.release t task r).w.lock = none := lock_finish _ t task r
  refine hq.leaves hlock rfl rfl hfree waiters_finish timer_finish ?_
  rintro ⟨hcaller, n, hpc⟩
  cases hpc
  obtain ⟨batch, m, happend⟩ := hok n rfl
  have hclosing : task.closing = true := by
    simp [FlushTask.closing, show task.caller = .close from hcaller,
      FlushTask.live_of_stands hholds.stands]
  refine stopped_finish hcaller ?_ rfl fun j _ => hq.no_timer ht hclosing (line_of_lock hlock) j
  simp only [happend]
  exact hq.taken t task ht hcaller hlock

/-- The first in line is granted the lock. -/
theorem grant (hq : s.Queued) (ht : s.tasks[t]? = some task) (hpc : task.pc = .acquire)
    (hfree : s.w.lock = none) (hhead : s.w.waiters.head? = some t) :
    (({ s with w := { s.w with waiters := s.w.waiters.tail } } :
      Batching).locked t task).Queued := by
  have hwaiters : s.w.waiters = t :: s.w.waiters.tail := List.eq_cons_of_mem_head? hhead
  have hline : s.line = t :: s.w.waiters.tail := by rw [line_of_free hfree]; exact hwaiters
  have hstands : task.stands = true := by simp [FlushTask.stands, hpc]
  unfold Batching.locked
  split
  · next hbuf =>
      refine hq.finishes (u := { s with w := { s.w with waiters := s.w.waiters.tail } })
        rfl rfl rfl rfl rfl ?_ fun hcaller n _ => ?_
      · rw [hline, List.erase_cons_head]
        exact line_of_free hfree
      · have hclosing : task.closing = true := by
          simp [FlushTask.closing, hcaller, FlushTask.live_of_stands hstands]
        exact stopped_finish hcaller hbuf hfree fun j _ => hq.no_timer ht hclosing hline j
  · next hbuf =>
      refine hq.goes_on ht rfl hstands rfl rfl ?_ rfl (fun h => hbuf h.buf) fun _ _ _ _ _ => rfl
      rw [hline]
      rfl

/-- A task that has the lock goes on. -/
theorem holds (hq : s.Queued) (ho : s.Orderly) (ht : s.tasks[t]? = some task)
    (hholds : task.Holds) (htasks : s'.tasks = s.tasks.set t task') (hholds' : task'.Holds)
    (hcaller : task'.caller = task.caller) (hw : s'.w = s.w) : s'.Queued := by
  have hlock := ho.lock_of_holds ht hholds
  refine hq.goes_on ht htasks hholds.stands hholds'.stands hcaller (by rw [line, line, hw])
    (by rw [hw]) ?_ ?_
  · intro h
    rw [h.lock] at hlock
    cases hlock
  · intro c other hc hclose hheld
    rw [hw] at hheld ⊢
    rw [hlock] at hheld
    cases hheld
    rcases task_set htasks hc with ⟨-, rfl⟩ | ⟨hne, -⟩
    · exact hq.taken t task ht (hcaller ▸ hclose) hlock
    · exact absurd rfl hne

/-- A timer starts, while no `close()` is under way or over. -/
theorem starts (hq : s.Queued) (hnone : s.w.timer = none) (hopen : ¬s.w.closed = true)
    (hclosing : ∀ task ∈ s.tasks, task.closing = false) :
    ({ s.addTask .timer with w := { s.w with timer := some s.tasks.length } } :
      Batching).Queued := by
  have hget : ∀ {c : Nat} {task : FlushTask}, (s.addTask .timer).tasks[c]? = some task →
      c = s.tasks.length ∧ task = ⟨.timer, .sleeping, none, s.accepted.length⟩ ∨
        s.tasks[c]? = some task := fun hc => task_concat rfl hc
  refine ⟨hq.nodup, ?_, ?_, ?_, ?_, ?_, ?_⟩
  · intro j hmem
    obtain ⟨other, hj, hstands⟩ := hq.stands j hmem
    exact ⟨other, (List.getElem?_append_left (List.getElem?_eq_some_iff.mp hj).1).trans hj, hstands⟩
  · intro c other hc hstands
    rcases hget hc with ⟨-, rfl⟩ | hc
    · cases hstands
    · exact hq.inLine c other hc hstands
  · intro c other hc hsleep
    rcases hget hc with ⟨rfl, rfl⟩ | hc
    · exact ⟨rfl, rfl⟩
    · have htimer := (hq.asleep c other hc hsleep).2
      rw [hnone] at htimer
      cases htimer
  · intro c other hc hother
    rcases hget hc with ⟨-, rfl⟩ | hc
    · cases hother
    · rw [hclosing other (List.mem_of_getElem? hc)] at hother
      cases hother
  · intro c other hc hcaller hlock
    rcases hget hc with ⟨-, rfl⟩ | hc
    · cases hcaller
    · exact hq.taken c other hc hcaller hlock
  · intro c other hc hclosed
    rcases hget hc with ⟨-, rfl⟩ | hc
    · cases hclosed.1
    · exact absurd (hq.closed c other hc hclosed).closed hopen

/-- A `write` that is accepted while no `close()` is under way. -/
theorem write (hq : s.Queued) (ho : s.Orderly) {payload : Bytes}
    (hrefuses : s.refuses (.write payload) = true)
    (hstep : s.step (.write payload) = some s') : s'.Queued := by
  simp only [step] at hstep
  split at hstep
  · cases hstep
    exact hq.of_same rfl rfl rfl rfl rfl rfl
  · next herror =>
      split at hstep
      · cases hstep
        exact hq
      · next hopen =>
          have hclosing : ∀ task ∈ s.tasks, task.closing = false := by
            have hany : s.tasks.any FlushTask.closing = false := by
              simpa [refuses, accepts, herror, hopen] using hrefuses
            exact fun task hmem => Bool.eq_false_iff.mpr (List.any_eq_false.mp hany task hmem)
          have hbuffered : ({ s with
              w := { s.w with buf := s.w.buf ++ [payload] }
              accepted := s.accepted ++ [payload] } : Batching).Queued := by
            refine ⟨hq.nodup, hq.stands, hq.inLine, hq.asleep, hq.ahead, ?_, ?_⟩
            · -- a `close()` with the lock is under way
              intro c task hc hcaller hlock
              obtain ⟨holder, hholder, hholds⟩ := ho.holder c hlock
              have hsame : s.tasks[c]? = some task := hc
              rw [hholder] at hsame
              cases hsame
              have hfalse := hclosing task (List.mem_of_getElem? hc)
              simp [FlushTask.closing, hcaller, FlushTask.live_of_stands hholds.stands] at hfalse
            · intro c task hc hclosed
              exact absurd (hq.closed c task hc hclosed).closed hopen
          split at hstep
          · cases hstep
            exact hbuffered
          · next htimer =>
              cases hstep
              exact hbuffered.starts htimer hopen hclosing

theorem cancel (hq : s.Queued) (ho : s.Orderly) (ht : s.tasks[t]? = some task)
    (hstep : s.taskStep t task (.cancel t) = some s') : s'.Queued := by
  cases hpc : task.pc with
  | sleeping =>
      simp only [taskStep, hpc] at hstep
      cases hstep
      exact hq.retires ht hpc rfl (.inl rfl)
  | acquire =>
      simp only [taskStep, hpc] at hstep
      cases hstep
      have hout : s.w.lock ≠ some t := ho.not_lock ht (by simp [FlushTask.Holds, hpc])
      have hlist : t ∉ s.w.lock.toList := by simpa using hout
      refine hq.finishes (u := { s with w := { s.w with waiters := s.w.waiters.erase t } })
        rfl rfl rfl rfl rfl ?_ fun _ n h => by cases h
      rw [line, line, List.erase_append_right _ hlist]
  | shield =>
      simp only [taskStep, hpc] at hstep
      split at hstep
      · cases hstep
        exact hq.holds ho ht (.inl hpc) rfl (.inr rfl) rfl rfl
      · cases hstep
        exact hq.release ho ht (.inl hpc) fun _ h => by cases h
  | wait =>
      simp only [taskStep, hpc] at hstep
      cases hstep
      refine hq.leaves (ho.lock_of_holds ht (.inr hpc)) rfl rfl (lock_finish _ t task _)
        waiters_finish timer_finish ?_
      rintro ⟨-, n, h⟩
      cases h
  | done r => simp [taskStep, hpc] at hstep

/-- Every step of these runs keeps the line. -/
theorem step (hq : s.Queued) (ho : s.Orderly) (hrefuses : s.refuses a = true)
    (hstep : s.step a = some s') : s'.Queued := by
  cases a with
  | write payload => exact hq.write ho hrefuses hstep
  | flush =>
      cases hstep
      exact hq.callFlush .flush (fun h => by cases h) fun h => by cases h
  | close =>
      cases hstep
      exact hq.cancelTimer.1.callFlush .close (fun h => by cases h) fun _ => hq.cancelTimer.2
  | wake t =>
      obtain ⟨task, ht, hstep⟩ := Option.bind_eq_some_iff.mp hstep
      simp only [taskStep] at hstep
      split at hstep
      · next hpc =>
          cases hstep
          obtain ⟨hcaller, htimer⟩ := hq.asleep t task ht hpc
          -- no `close()` is under way or over while a timer sleeps
          have hnobody : ∀ (c : Nat) (other : FlushTask), s.tasks[c]? = some other →
              ¬other.Closed ∧ other.closing = false := by
            intro c other hc
            constructor
            · intro hclosed
              exact (hq.closed c other hc hclosed).timer t
                ⟨task, ht, hcaller, by simp [FlushTask.live, hpc]⟩
            · refine Bool.eq_false_iff.mpr fun hclosing => ?_
              have hnone := (hq.ahead c other hc hclosing).1
              rw [htimer] at hnone
              cases hnone
          have hretired : (({ s with w := { s.w with timer := none } } : Batching).setTask t
              { task with pc := .done .cancelled }).Queued := hq.retires ht hpc rfl (.inr rfl)
          have hlt := (List.getElem?_eq_some_iff.mp ht).1
          rw [← enter_setTask]
          refine hretired.enter (List.getElem?_set_self hlt) rfl ?_ ?_
          · intro h
            rw [show task.caller = .close from h] at hcaller
            cases hcaller
          · intro _ other hmem
            obtain ⟨c, hc⟩ := List.mem_iff_getElem?.mp hmem
            rcases task_set rfl hc with ⟨-, rfl⟩ | ⟨-, hc⟩
            · refine ⟨fun hclosed => ?_, by simp [FlushTask.closing, FlushTask.live]⟩
              obtain ⟨-, n, hpc⟩ := hclosed
              cases hpc
            · exact hnobody c other hc
      · cases hstep
  | grant t =>
      obtain ⟨task, ht, hstep⟩ := Option.bind_eq_some_iff.mp hstep
      simp only [taskStep] at hstep
      split at hstep
      · next hgrant =>
          cases hstep
          exact hq.grant ht hgrant.1 hgrant.2.1 hgrant.2.2
      · cases hstep
  | appended t failure =>
      obtain ⟨task, ht, hstep⟩ := Option.bind_eq_some_iff.mp hstep
      simp only [taskStep] at hstep
      split at hstep
      · next batch hinner =>
          have hlock := ho.lock_of_appending ht (by simp [FlushTask.appending, hinner])
          obtain ⟨holder, hholder, hholds⟩ := ho.holder t hlock
          rw [ht] at hholder
          cases hholder
          split at hstep <;> cases hstep <;>
            exact hq.holds ho ht hholds rfl hholds rfl rfl
      · cases hstep
  | other payload =>
      cases hstep
      exact hq.of_same rfl rfl rfl rfl rfl rfl
  | resume t =>
      obtain ⟨task, ht, hstep⟩ := Option.bind_eq_some_iff.mp hstep
      simp only [taskStep] at hstep
      split at hstep
      · next batch n hpc hinner =>
          cases hstep
          exact hq.release ho ht (.inl hpc) fun _ _ => ⟨batch, n, hinner⟩
      · next hpc _ =>
          cases hstep
          exact hq.release ho ht (.inl hpc) fun _ h => by cases h
      · next hpc _ =>
          cases hstep
          exact hq.release ho ht (.inr hpc) fun _ h => by cases h
      · cases hstep
  | cancel t =>
      obtain ⟨task, ht, hstep⟩ := Option.bind_eq_some_iff.mp hstep
      exact hq.cancel ho ht hstep

end Queued

/-! ## The results -/

/-- Whoever has stopped under the lock discipline has drained. -/
theorem Stopped.drained (hs : s.Stopped) (ho : s.Orderly) : s.Drained := by
  have hquiet := ho.all_quiet hs.lock
  refine ⟨?_, hs.buf, ?_, fun task hmem => (hquiet task hmem).appending, hs.timer, ?_⟩
  · rw [ho.conserved_of_free hs.lock, hs.buf, List.append_nil]
  · exact List.flatMap_eq_nil_iff.mpr fun task hmem => (hquiet task hmem).inFlight
  · simp [accepts, hs.closed]

/-- A record is written while the append of `close()` runs. -/
def writtenWhileClosing : List BatchAct :=
  [.write [1], .close, .write [2], .appended 1 none, .resume 1]

/-- The writer is closed with a record in its buffer. -/
theorem close_leaves_record :
    ¬∀ (stream : List Bytes) (acts : List BatchAct) (s : Batching) (c : Nat) (task : FlushTask),
      Lts.run step (init stream) acts = some s → (∀ t, .cancel t ∉ acts) →
      s.tasks[c]? = some task → task.Closed → s.Drained := by
  intro hall
  have hmap : (Lts.run step (init []) writtenWhileClosing).map (fun s =>
      (s.w.buf, (s.tasks[1]?).map fun task => (task.caller, task.pc))) =
        some ([[2]], some (.close, .done (.returned 1))) := by decide +kernel
  obtain ⟨s, hrun, heq⟩ := Option.map_eq_some_iff.mp hmap
  obtain ⟨hbuf, htask⟩ := Prod.mk.inj heq
  obtain ⟨task, hc, htask⟩ := Option.map_eq_some_iff.mp htask
  obtain ⟨hcaller, hpc⟩ := Prod.mk.inj htask
  have hdrained := hall [] writtenWhileClosing s 1 task hrun (by simp [writtenWhileClosing]) hc
    ⟨hcaller, 1, hpc⟩
  rw [hdrained.buf] at hbuf
  cases hbuf

/-- In a run in which no `write` is accepted while a `close()` is under way, nothing is
left of the writer once a `close()` has returned: what was accepted is durable, and
every `write` raises. -/
theorem close_drains (stream : List Bytes) (acts : List BatchAct) (s : Batching)
    (hrun : Lts.run step (init stream) acts = some s)
    (hwaits : Lts.Meets step (fun s a => s.waitsOut a = true) (init stream) acts)
    (hrefuses : Lts.Meets step (fun s a => s.refuses a = true) (init stream) acts)
    (c : Nat) (task : FlushTask) (hc : s.tasks[c]? = some task) (hclosed : task.Closed) :
    s.Drained := by
  have hinv : s.Orderly ∧ s.Queued := by
    refine Lts.run_invariant_of_meets (I := fun s => s.Orderly ∧ s.Queued) ?_ hrun
      (hwaits.and hrefuses) ⟨.init stream, .init stream⟩
    rintro s a s' ⟨ho, hq⟩ ⟨hwaits, hrefuses⟩ hstep
    exact ⟨ho.step hwaits hstep, hq.step ho hrefuses hstep⟩
  exact (hinv.2.closed c task hc hclosed).drained hinv.1

/-- `close()` waits for a timer whose append fails, and appends its records. -/
def closedBehindTimer : List BatchAct :=
  [.write [1], .wake 0, .write [2], .close, .appended 0 (some .osError), .resume 0, .grant 2,
    .appended 2 none, .resume 2]

theorem close_drains_behindTimer :
    ∃ s, Lts.run step (init []) closedBehindTimer = some s ∧ s.Drained := by
  have hmap : ((Lts.run step (init []) closedBehindTimer).bind fun s =>
      (s.tasks[2]?).map fun task => (task.caller, task.pc)) =
        some (.close, .done (.returned 2)) := by decide +kernel
  obtain ⟨s, hrun, htask⟩ := Option.bind_eq_some_iff.mp hmap
  obtain ⟨task, hc, htask⟩ := Option.map_eq_some_iff.mp htask
  obtain ⟨hcaller, hpc⟩ := Prod.mk.inj htask
  exact ⟨s, hrun, close_drains [] closedBehindTimer s hrun (by decide +kernel) (by decide +kernel) 2
    task hc ⟨hcaller, 2, hpc⟩⟩

end Batching

end Durastream
