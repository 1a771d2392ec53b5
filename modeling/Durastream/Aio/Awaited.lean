import Durastream.Aio.Drain

/-!
# No record stays behind in the buffer

A record that `write` has buffered is appended later by someone: a timer that still
sleeps, or a timer or a `close()` that stands in line for the lock.  A `flush` that was
called may be cancelled and does not count.  Where nobody comes, an append has failed and
its batch is the front of the buffer, until the next `write` that is accepted starts a
timer or somebody calls `flush` again.

The argument follows `_timer`.  It is set while the timer sleeps, so a `write` that finds
none starts one, and once a timer has cleared it the timer is in line.  Only a pending
error keeps it from getting there, and while an error is pending the buffer is empty or
starts with what was not appended.
-/

namespace Durastream

/-- Only timers sleep, and who has the lock has taken a batch. -/
structure FlushTask.Sound (task : FlushTask) : Prop where
  asleep : task.pc = .sleeping → task.caller = .timer
  holds : task.Holds → task.append ≠ none

theorem FlushTask.Sound.of_done {task : FlushTask} {r : Ended} :
    ({ task with pc := .done r } : FlushTask).Sound :=
  ⟨fun h => (by cases h), fun h => by rcases h with h | h <;> cases h⟩

namespace Batching

/-- The buffer starts with the batch of an append that has failed. -/
def FailedFirst (s : Batching) : Prop :=
  ∃ task ∈ s.tasks, ∃ batch e,
    task.append = some ⟨batch, some (.error e)⟩ ∧ batch ≠ [] ∧ batch <+: s.w.buf

/-- A timer sleeps, or a timer or a `close()` is in line for the lock. -/
def Awaited (s : Batching) : Prop :=
  s.w.timer ≠ none ∨
    ∃ t ∈ s.w.waiters, ∃ task : FlushTask, s.tasks[t]? = some task ∧ task.caller ≠ .flush

/-- No record is left behind. -/
def Kept (s : Batching) : Prop := s.w.buf = [] ∨ s.FailedFirst ∨ s.Awaited

/-- Who is cancelled has called `flush`. -/
def spares (s : Batching) : BatchAct → Bool
  | .cancel t => (s.tasks[t]?).all fun task => task.caller = .flush
  | _ => true

/-- Where the tasks of the line and of `_timer` stand, and what a pending error tells. -/
structure Lined (s : Batching) : Prop where
  nodup : s.w.waiters.Nodup
  waiters : ∀ t ∈ s.w.waiters, ∃ task : FlushTask, s.tasks[t]? = some task ∧ task.pc = .acquire
  timer : ∀ t, s.w.timer = some t →
    ∃ task : FlushTask, s.tasks[t]? = some task ∧ task.pc = .sleeping ∧ task.caller = .timer
  batch : ∀ task ∈ s.tasks, ∀ inner, task.append = some inner → inner.batch ≠ []
  /-- A task has a batch once it has had the lock. -/
  before : ∀ task ∈ s.tasks, task.pc = .sleeping ∨ task.pc = .acquire → task.append = none
  error : s.w.error ≠ none → s.w.buf = [] ∨ s.FailedFirst

variable {s s' : Batching} {t c : Nat} {task task' old : FlushTask} {a : BatchAct} {r : Ended}

/-! ### What stays true of the buffer -/

/-- An append that has failed stays so. -/
theorem FailedFirst.set (h : s.FailedFirst) (ht : s.tasks[t]? = some old)
    (htasks : s'.tasks = s.tasks.set t task')
    (hkeep : ∀ batch e, old.append = some ⟨batch, some (.error e)⟩ → task'.append = old.append)
    (hbuf : s.w.buf <+: s'.w.buf) : s'.FailedFirst := by
  obtain ⟨hlt, -⟩ := List.getElem?_eq_some_iff.mp ht
  obtain ⟨task, hmem, batch, e, happend, hne, hpre⟩ := h
  obtain ⟨j, hj⟩ := List.mem_iff_getElem?.mp hmem
  by_cases hjt : j = t
  · rw [hjt, ht] at hj
    cases hj
    refine ⟨task', ?_, batch, e, (hkeep batch e happend).trans happend, hne, hpre.trans hbuf⟩
    rw [htasks]
    exact List.mem_set hlt task'
  · refine ⟨task, List.mem_iff_getElem?.mpr ⟨j, ?_⟩, batch, e, happend, hne, hpre.trans hbuf⟩
    rw [htasks, List.getElem?_set_ne (Ne.symm hjt), hj]

theorem FailedFirst.mono (h : s.FailedFirst) (htasks : s.tasks ⊆ s'.tasks)
    (hbuf : s.w.buf <+: s'.w.buf) : s'.FailedFirst := by
  obtain ⟨task, hmem, batch, e, happend, hne, hpre⟩ := h
  exact ⟨task, htasks hmem, batch, e, happend, hne, hpre.trans hbuf⟩

/-- A task that is not in line goes on. -/
theorem Awaited.set (h : s.Awaited) (hout : t ∉ s.w.waiters)
    (htasks : s'.tasks = s.tasks.set t task') (htimer : s'.w.timer = s.w.timer)
    (hwaiters : s.w.waiters ⊆ s'.w.waiters) : s'.Awaited := by
  rcases h with h | ⟨j, hmem, other, hj, hcaller⟩
  · exact .inl (by rwa [htimer])
  · refine .inr ⟨j, hwaiters hmem, other, ?_, hcaller⟩
    have hjt : t ≠ j := fun heq => hout (heq ▸ hmem)
    rw [htasks, List.getElem?_set_ne hjt, hj]

/-- The lists of tasks and waiters have grown. -/
theorem Awaited.mono (h : s.Awaited) (htasks : s.tasks <+: s'.tasks)
    (htimer : s.w.timer ≠ none → s'.w.timer ≠ none) (hwaiters : s'.w.waiters = s.w.waiters) :
    s'.Awaited := by
  rcases h with h | ⟨j, hmem, other, hj, hcaller⟩
  · exact .inl (htimer h)
  · obtain ⟨rest, hrest⟩ := htasks
    refine .inr ⟨j, hwaiters ▸ hmem, other, ?_, hcaller⟩
    rw [← hrest, List.getElem?_append_left (List.getElem?_eq_some_iff.mp hj).1, hj]

theorem Kept.mono (h : s.Kept) (htasks : s.tasks <+: s'.tasks) (hbuf : s'.w.buf = s.w.buf)
    (htimer : s.w.timer ≠ none → s'.w.timer ≠ none) (hwaiters : s'.w.waiters = s.w.waiters) :
    s'.Kept := by
  rcases h with h | h | h
  · exact .inl (hbuf.trans h)
  · exact .inr (.inl (h.mono htasks.subset (hbuf ▸ List.prefix_rfl)))
  · exact .inr (.inr (h.mono htasks htimer hwaiters))

namespace Lined

theorem init (stream : List Bytes) : (Batching.init stream).Lined :=
  ⟨.nil, fun _ hmem => absurd hmem List.not_mem_nil, fun _ h => (by cases h),
    fun _ hmem => absurd hmem List.not_mem_nil, fun _ hmem => absurd hmem List.not_mem_nil,
    fun h => absurd rfl h⟩

theorem out_of_line (h : s.Lined) (ht : s.tasks[t]? = some task) (hpc : task.pc ≠ .acquire) :
    t ∉ s.w.waiters := by
  intro hmem
  obtain ⟨other, hother, hacquire⟩ := h.waiters t hmem
  rw [ht] at hother
  cases hother
  exact hpc hacquire

theorem not_timer (h : s.Lined) (ht : s.tasks[t]? = some task) (hpc : task.pc ≠ .sleeping) :
    s.w.timer ≠ some t := by
  intro htimer
  obtain ⟨other, hother, hsleep, -⟩ := h.timer t htimer
  rw [ht] at hother
  cases hother
  exact hpc hsleep

/-- The tasks are those that were there. -/
theorem of_tasks (h : s.Lined) (htasks : s'.tasks = s.tasks)
    (hwaiters : s'.w.waiters.Sublist s.w.waiters)
    (htimer : ∀ j, s'.w.timer = some j → s.w.timer = some j)
    (herror : s'.w.error ≠ none → s'.w.buf = [] ∨ s'.FailedFirst) : s'.Lined := by
  refine ⟨h.nodup.sublist hwaiters, fun j hmem => ?_, fun j hj => ?_, ?_, ?_, herror⟩
  · rw [htasks]
    exact h.waiters j (hwaiters.subset hmem)
  · rw [htasks]
    exact h.timer j (htimer j hj)
  · rw [htasks]
    exact h.batch
  · rw [htasks]
    exact h.before

/-- A task goes on. -/
theorem set (h : s.Lined) (htasks : s'.tasks = s.tasks.set t task') (hlt : t < s.tasks.length)
    (hnodup : s'.w.waiters.Nodup)
    (hwaiters : ∀ j ∈ s'.w.waiters, j = t ∧ task'.pc = .acquire ∨ j ≠ t ∧ j ∈ s.w.waiters)
    (htimer : ∀ j, s'.w.timer = some j → j ≠ t ∧ s.w.timer = some j)
    (hbatch : ∀ inner, task'.append = some inner → inner.batch ≠ [])
    (hbefore : task'.pc = .sleeping ∨ task'.pc = .acquire → task'.append = none)
    (herror : s'.w.error ≠ none → s'.w.buf = [] ∨ s'.FailedFirst) : s'.Lined := by
  refine ⟨hnodup, fun j hmem => ?_, fun j hj => ?_, fun task hmem => ?_, fun task hmem => ?_,
    herror⟩
  · rcases hwaiters j hmem with ⟨rfl, hpc⟩ | ⟨hjt, hmem⟩
    · exact ⟨task', by rw [htasks, List.getElem?_set_self hlt], hpc⟩
    · obtain ⟨other, hother, hpc⟩ := h.waiters j hmem
      exact ⟨other, by rw [htasks, List.getElem?_set_ne hjt.symm, hother], hpc⟩
  · obtain ⟨hjt, hj⟩ := htimer j hj
    obtain ⟨other, hother, hsleep⟩ := h.timer j hj
    exact ⟨other, by rw [htasks, List.getElem?_set_ne hjt.symm, hother], hsleep⟩
  · rw [htasks] at hmem
    rcases List.mem_or_eq_of_mem_set hmem with hmem | rfl
    · exact h.batch task hmem
    · exact hbatch
  · rw [htasks] at hmem
    rcases List.mem_or_eq_of_mem_set hmem with hmem | rfl
    · exact h.before task hmem
    · exact hbefore

/-- A task ends.  A timer that raises leaves an error, so its batch is in the buffer. -/
theorem finish (h : s.Lined) (ht : s.tasks[t]? = some old) (happend : task.append = old.append)
    (hout : t ∉ s.w.waiters) (htimer : s.w.timer ≠ some t)
    (hraised : ∀ e, r = .raised e → task.caller = .timer → s.w.buf = [] ∨ s.FailedFirst) :
    (s.finish t task r).Lined := by
  have hset : (s.finish t task r).tasks = s.tasks.set t { task with pc := .done r } := rfl
  have hlift : s.w.buf = [] ∨ s.FailedFirst →
      (s.finish t task r).w.buf = [] ∨ (s.finish t task r).FailedFirst := by
    rw [buf_finish]
    exact Or.imp_right fun hfailed =>
      hfailed.set ht hset (fun _ _ _ => happend) (by rw [buf_finish])
  have hw : (s.finish t task r).w.waiters = s.w.waiters ∧
      (s.finish t task r).w.timer = s.w.timer := by
    unfold Batching.finish
    dsimp only
    split <;> exact ⟨rfl, rfl⟩
  refine h.set hset (List.getElem?_eq_some_iff.mp ht).1 (hw.1 ▸ h.nodup) (fun j hmem => ?_)
    (fun j hj => ?_) (fun inner hinner => ?_) (fun hpc => ?_) fun herror => hlift ?_
  · rw [hw.1] at hmem
    exact .inr ⟨fun heq => hout (heq ▸ hmem), hmem⟩
  · rw [hw.2] at hj
    exact ⟨fun heq => htimer (heq ▸ hj), hj⟩
  · exact h.batch old (List.mem_of_getElem? ht) inner (happend ▸ hinner)
  · rcases hpc with hpc | hpc <;> cases hpc
  · unfold Batching.finish at herror
    dsimp only at herror
    split at herror
    · exact h.error herror
    · next e hcaller => exact hraised e rfl hcaller
    · exact h.error herror

end Lined

/-- A task ends, with the buffer as it was. -/
theorem Kept.finish (h : s.Kept) (ht : s.tasks[t]? = some old) (happend : task.append = old.append)
    (hout : t ∉ s.w.waiters) : (s.finish t task r).Kept := by
  have hw : (s.finish t task r).w.waiters = s.w.waiters ∧
      (s.finish t task r).w.timer = s.w.timer := by
    unfold Batching.finish
    dsimp only
    split <;> exact ⟨rfl, rfl⟩
  rcases h with h | h | h
  · exact .inl (by rw [buf_finish, h])
  · exact .inr (.inl (h.set ht rfl (fun _ _ _ => happend) (by rw [buf_finish])))
  · exact .inr (.inr (h.set hout rfl hw.2 (by rw [hw.1]; exact List.Subset.refl _)))

namespace Lined

/-- The part of `flush` under the lock takes the whole buffer. -/
theorem locked (h : s.Lined) (ht : s.tasks[t]? = some old) (happend : task.append = old.append)
    (hout : t ∉ s.w.waiters) (htimer : s.w.timer ≠ some t) :
    (s.locked t task).Lined ∧ (s.locked t task).w.buf = [] := by
  unfold Batching.locked
  split
  · next hbuf =>
      exact ⟨h.finish ht happend hout htimer fun e he => (by cases he), by rw [buf_finish, hbuf]⟩
  · next hbuf =>
      refine ⟨h.set rfl (List.getElem?_eq_some_iff.mp ht).1 h.nodup (fun j hmem => ?_)
        (fun j hj => ?_) (fun inner hinner => ?_) (fun hpc => ?_) fun _ => .inl rfl, rfl⟩
      · exact .inr ⟨fun heq => hout (heq ▸ hmem), hmem⟩
      · exact ⟨fun heq => htimer (heq ▸ hj), hj⟩
      · cases hinner
        exact hbuf
      · rcases hpc with hpc | hpc <;> cases hpc

/-- A task comes to the lock.  Unless it raises a pending error, it takes the buffer or is
in line to do so. -/
theorem enter (h : s.Lined) (ht : s.tasks[t]? = some old) (happend : task.append = old.append)
    (hsleep : old.pc = .sleeping) (htimer : s.w.timer ≠ some t)
    (hkept : task.caller = .flush → s.Kept) :
    (s.enter t task).Lined ∧ (s.enter t task).Kept := by
  have hout := h.out_of_line ht (by simp [hsleep])
  have hnone := h.before old (List.mem_of_getElem? ht) (.inl hsleep)
  unfold Batching.enter
  split
  · next e herror =>
      have hfailed := h.error (by simp [herror])
      have hclear : ({ s with w := { s.w with error := none } } : Batching).Lined :=
        h.of_tasks rfl (List.Sublist.refl _) (fun _ hj => hj) fun hne => absurd rfl hne
      have hsame : ({ s with w := { s.w with error := none } } : Batching).Kept :=
        hfailed.imp_right .inl
      exact ⟨hclear.finish ht happend hout htimer fun _ _ _ => hfailed,
        hsame.finish ht happend hout⟩
  · next herror =>
      split
      · obtain ⟨hlined, hbuf⟩ := h.locked ht happend hout htimer
        exact ⟨hlined, .inl hbuf⟩
      · refine ⟨h.set rfl (List.getElem?_eq_some_iff.mp ht).1 ?_ (fun j hmem => ?_)
          (fun j hj => ?_) (fun inner hinner => ?_) (fun _ => happend.trans hnone)
          fun hne => absurd herror hne, ?_⟩
        · refine List.nodup_append.mpr ⟨h.nodup, List.nodup_singleton t, fun j hj k hk => ?_⟩
          rw [List.mem_singleton.mp hk]
          exact fun heq => hout (heq ▸ hj)
        · rcases List.mem_append.mp hmem with hmem | hmem
          · exact .inr ⟨fun heq => hout (heq ▸ hmem), hmem⟩
          · exact .inl ⟨List.mem_singleton.mp hmem, rfl⟩
        · exact ⟨fun heq => htimer (heq ▸ hj), hj⟩
        · rw [show task.append = none from happend.trans hnone] at hinner
          cases hinner
        · by_cases hcaller : task.caller = .flush
          · rcases hkept hcaller with hbuf | hfailed | hawaited
            · exact .inl hbuf
            · exact .inr (.inl (hfailed.set ht rfl (fun _ _ _ => happend) List.prefix_rfl))
            · exact .inr (.inr (hawaited.set hout rfl rfl (List.subset_append_left _ _)))
          · refine .inr (.inr (.inr ⟨t, List.mem_append_right _ (List.mem_singleton_self t),
              { task with pc := .acquire }, ?_, hcaller⟩))
            exact List.getElem?_set_self (List.getElem?_eq_some_iff.mp ht).1

theorem addTask (h : s.Lined) (caller : Caller) : (s.addTask caller).Lined := by
  have hold : ∀ (j : Nat) (task : FlushTask), s.tasks[j]? = some task →
      (s.addTask caller).tasks[j]? = some task := by
    intro j task hj
    rw [Batching.addTask, List.getElem?_append_left (List.getElem?_eq_some_iff.mp hj).1, hj]
  refine ⟨h.nodup, fun j hmem => ?_, fun j hj => ?_, fun task hmem => ?_, fun task hmem => ?_,
    fun hne => (h.error hne).imp_right fun hfailed => ?_⟩
  · obtain ⟨task, hget, hpc⟩ := h.waiters j hmem
    exact ⟨task, hold j task hget, hpc⟩
  · obtain ⟨task, hget, hpc⟩ := h.timer j hj
    exact ⟨task, hold j task hget, hpc⟩
  · rcases List.mem_append.mp hmem with hmem | hmem
    · exact h.batch task hmem
    · rw [List.mem_singleton.mp hmem]
      exact fun inner hinner => by cases hinner
  · rcases List.mem_append.mp hmem with hmem | hmem
    · exact h.before task hmem
    · rw [List.mem_singleton.mp hmem]
      exact fun _ => rfl
  · exact hfailed.mono (List.subset_append_left _ _) List.prefix_rfl

/-- A task calls `flush`, or `close`. -/
theorem callFlush (h : s.Lined) (caller : Caller) (hkept : caller = .flush → s.Kept) :
    (s.callFlush caller).Lined ∧ (s.callFlush caller).Kept := by
  refine (h.addTask caller).enter List.getElem?_concat_length rfl rfl (fun htimer => ?_)
    fun hcaller => (hkept hcaller).mono (List.prefix_append _ _) rfl (fun h => h) rfl
  obtain ⟨task, hget, -⟩ := h.timer _ htimer
  exact absurd (List.getElem?_eq_some_iff.mp hget).1 (Nat.lt_irrefl _)

theorem cancelTimer (h : s.Lined) : s.cancelTimer.Lined := by
  have hcleared : ({ s with w := { s.w with timer := none } } : Batching).Lined :=
    h.of_tasks rfl (List.Sublist.refl _) (fun _ hj => (by cases hj)) h.error
  unfold Batching.cancelTimer
  split
  · exact hcleared
  · split
    · next task ht =>
        split
        · next hsleep =>
            have hout := h.out_of_line ht (by simp [hsleep])
            refine hcleared.set rfl (List.getElem?_eq_some_iff.mp ht).1 h.nodup (fun j hmem => ?_)
              (fun _ hj => (by cases hj)) (h.batch task (List.mem_of_getElem? ht)) (fun hpc => ?_)
              fun hne => (h.error hne).imp_right fun hfailed => ?_
            · exact .inr ⟨fun heq => hout (heq ▸ hmem), hmem⟩
            · rcases hpc with hpc | hpc <;> cases hpc
            · exact hfailed.set ht rfl (fun _ _ _ => rfl) List.prefix_rfl
        · exact hcleared
    · exact hcleared

/-- `_append` is over.  What is not durable is the front of the buffer. -/
theorem release (h : s.Lined) (hkept : s.Kept) (ht : s.tasks[t]? = some task)
    (hholds : task.Holds) (hraised : ∀ e, r = .raised e →
      ∃ batch, task.append = some ⟨batch, some (.error e)⟩) :
    (s.release t task r).Lined ∧ (s.release t task r).Kept := by
  have hmem := List.mem_of_getElem? ht
  have hacquire : task.pc ≠ .acquire := by
    rintro heq
    rcases hholds with hpc | hpc <;> rw [heq] at hpc <;> cases hpc
  have hsleep : task.pc ≠ .sleeping := by
    rintro heq
    rcases hholds with hpc | hpc <;> rw [heq] at hpc <;> cases hpc
  have hout := h.out_of_line ht hacquire
  have htimer := h.not_timer ht hsleep
  unfold Batching.release
  split
  · next batch e happend =>
      have hfailed : ({ s with w := { s.w with buf := batch ++ s.w.buf, lock := none } } :
          Batching).FailedFirst :=
        ⟨task, hmem, batch, e, happend, h.batch task hmem _ happend, List.prefix_append _ _⟩
      have hlined : ({ s with w := { s.w with buf := batch ++ s.w.buf, lock := none } } :
          Batching).Lined :=
        h.of_tasks rfl (List.Sublist.refl _) (fun _ hj => hj) fun _ => .inr hfailed
      have hkept' : ({ s with w := { s.w with buf := batch ++ s.w.buf, lock := none } } :
          Batching).Kept := .inr (.inl hfailed)
      exact ⟨hlined.finish ht rfl hout htimer fun _ _ _ => .inr hfailed, hkept'.finish ht rfl hout⟩
  · next hnot =>
      have hlined : ({ s with w := { s.w with lock := none } } : Batching).Lined :=
        h.of_tasks rfl (List.Sublist.refl _) (fun _ hj => hj) h.error
      have hkept' : ({ s with w := { s.w with lock := none } } : Batching).Kept :=
        hkept.mono List.prefix_rfl rfl (fun h => h) rfl
      refine ⟨hlined.finish ht rfl hout htimer fun e he _ => ?_, hkept'.finish ht rfl hout⟩
      obtain ⟨batch, happend⟩ := hraised e he
      exact absurd happend (hnot batch e)

end Lined

/-! ### What a task has -/

/-- A task that comes to the lock. -/
theorem enter_tasks (s : Batching) (t : Nat) (task : FlushTask) :
    ∃ task', (s.enter t task).tasks = s.tasks.set t task' ∧ task'.Sound := by
  unfold enter
  split
  · exact ⟨_, rfl, .of_done⟩
  · split
    · unfold locked
      split
      · exact ⟨_, rfl, .of_done⟩
      · exact ⟨_, rfl, ⟨fun h => (by cases h), fun _ => by simp⟩⟩
    · exact ⟨_, rfl, ⟨fun h => (by cases h), fun h => by rcases h with h | h <;> cases h⟩⟩

theorem taskStep_tasks (hsound : task.Sound) (hstep : s.taskStep t task a = some s') :
    ∃ task', s'.tasks = s.tasks.set t task' ∧ task'.Sound := by
  unfold taskStep at hstep
  split at hstep
  · split at hstep
    · cases hstep
      exact enter_tasks { s with w := { s.w with timer := none } } t
        { task with before := s.accepted.length }
    · cases hstep
  · split at hstep
    · cases hstep
      unfold locked
      split
      · exact ⟨_, rfl, .of_done⟩
      · exact ⟨_, rfl, ⟨fun h => (by cases h), fun _ => by simp⟩⟩
    · cases hstep
  · split at hstep
    · split at hstep <;> cases hstep <;> exact ⟨_, rfl, ⟨hsound.asleep, fun _ => by simp⟩⟩
    · cases hstep
  · split at hstep <;> cases hstep <;> exact ⟨_, rfl, .of_done⟩
  · split at hstep
    · cases hstep
      exact ⟨_, rfl, .of_done⟩
    · cases hstep
      exact ⟨_, rfl, .of_done⟩
    · next hpc =>
        split at hstep
        · cases hstep
          exact ⟨_, rfl, ⟨fun h => (by cases h), fun _ => hsound.holds (.inl hpc)⟩⟩
        · cases hstep
          exact ⟨_, rfl, .of_done⟩
    · cases hstep
      exact ⟨_, rfl, .of_done⟩
    · cases hstep
  · cases hstep

def Sound (s : Batching) : Prop := ∀ task ∈ s.tasks, task.Sound

namespace Sound

theorem of_set (h : s.Sound) (htasks : s'.tasks = s.tasks.set t task') (hnew : task'.Sound) :
    s'.Sound := by
  intro other hmem
  rw [htasks] at hmem
  rcases List.mem_or_eq_of_mem_set hmem with hmem | rfl
  · exact h other hmem
  · exact hnew

theorem of_concat (h : s.Sound) (htasks : s'.tasks = s.tasks ++ [task']) (hnew : task'.Sound) :
    s'.Sound := by
  intro other hmem
  rw [htasks] at hmem
  rcases List.mem_append.mp hmem with hmem | hmem
  · exact h other hmem
  · rw [List.mem_singleton.mp hmem]
    exact hnew

theorem callFlush (h : s.Sound) (caller : Caller) : (s.callFlush caller).Sound := by
  obtain ⟨task', htasks, hnew⟩ := enter_tasks (s.addTask caller) s.tasks.length
    ⟨caller, .sleeping, none, s.accepted.length⟩
  have happend : (s.callFlush caller).tasks = s.tasks ++ [task'] := by
    rw [Batching.callFlush, htasks, addTask]
    simp
  exact h.of_concat happend hnew

theorem cancelTimer (h : s.Sound) : s.cancelTimer.Sound := by
  unfold Batching.cancelTimer
  split
  · exact h
  · split
    · split
      · exact h.of_set rfl .of_done
      · exact h
    · exact h

theorem step (h : s.Sound) (hstep : s.step a = some s') : s'.Sound := by
  have htask : ∀ (t : Nat) (b : BatchAct),
      ((s.tasks[t]?).bind fun task => s.taskStep t task b) = some s' → s'.Sound := by
    intro t b hbind
    obtain ⟨task, ht, hgo⟩ := Option.bind_eq_some_iff.mp hbind
    obtain ⟨task', htasks, hnew⟩ := taskStep_tasks (h task (List.mem_of_getElem? ht)) hgo
    exact h.of_set htasks hnew
  cases a with
  | write payload =>
      simp only [Batching.step] at hstep
      split at hstep
      · cases hstep
        exact h
      · split at hstep
        · cases hstep
          exact h
        · split at hstep
          · cases hstep
            exact h
          · cases hstep
            exact h.of_concat rfl
              ⟨fun _ => rfl, fun hholds => by rcases hholds with hpc | hpc <;> cases hpc⟩
  | flush =>
      cases hstep
      exact h.callFlush .flush
  | close =>
      cases hstep
      exact h.cancelTimer.callFlush .close
  | wake t => exact htask t _ hstep
  | grant t => exact htask t _ hstep
  | appended t failure => exact htask t _ hstep
  | other payload =>
      cases hstep
      exact h
  | resume t => exact htask t _ hstep
  | cancel t => exact htask t _ hstep

end Sound

/-! ### Every step -/

namespace Lined

theorem write (h : s.Lined) (hkept : s.Kept) {payload : Bytes}
    (hstep : s.step (.write payload) = some s') : s'.Lined ∧ s'.Kept := by
  simp only [Batching.step] at hstep
  split at hstep
  · cases hstep
    exact ⟨h.of_tasks rfl (List.Sublist.refl _) (fun _ hj => hj) fun hne => absurd rfl hne,
      hkept.mono List.prefix_rfl rfl (fun h => h) rfl⟩
  · next herror =>
      split at hstep
      · cases hstep
        exact ⟨h, hkept⟩
      · have hlined : ({ s with
            w := { s.w with buf := s.w.buf ++ [payload] }
            accepted := s.accepted ++ [payload] } : Batching).Lined :=
          h.of_tasks rfl (List.Sublist.refl _) (fun _ hj => hj) fun hne => absurd herror hne
        split at hstep
        · next t htimer =>
            cases hstep
            exact ⟨hlined, .inr (.inr (.inl (by simp [htimer])))⟩
        · cases hstep
          have hadd := hlined.addTask .timer
          refine ⟨⟨hadd.nodup, hadd.waiters, fun j hj => ?_, hadd.batch, hadd.before,
            fun hne => absurd herror hne⟩, .inr (.inr (.inl (by simp)))⟩
          cases hj
          exact ⟨_, List.getElem?_concat_length, rfl, rfl⟩

theorem wake (h : s.Lined) (ht : s.tasks[t]? = some task) (hcaller : task.pc = .sleeping →
    task.caller = .timer) (hstep : s.taskStep t task (.wake t) = some s') :
    s'.Lined ∧ s'.Kept := by
  simp only [taskStep] at hstep
  split at hstep
  · next hsleep =>
      cases hstep
      have hcleared : ({ s with w := { s.w with timer := none } } : Batching).Lined :=
        h.of_tasks rfl (List.Sublist.refl _) (fun _ hj => (by cases hj)) h.error
      refine hcleared.enter ht rfl hsleep (by simp) fun hflush => ?_
      have htimer := hcaller hsleep
      rw [show task.caller = .flush from hflush] at htimer
      cases htimer
  · cases hstep

theorem grant (h : s.Lined) (ht : s.tasks[t]? = some task)
    (hstep : s.taskStep t task (.grant t) = some s') : s'.Lined ∧ s'.Kept := by
  simp only [taskStep] at hstep
  split at hstep
  · next hfirst =>
      cases hstep
      obtain ⟨hpc, -, hhead⟩ := hfirst
      have hline : s.w.waiters = t :: s.w.waiters.tail := List.eq_cons_of_mem_head? hhead
      have hnodup := h.nodup
      rw [hline] at hnodup
      have hlined : ({ s with w := { s.w with waiters := s.w.waiters.tail } } : Batching).Lined :=
        h.of_tasks rfl (List.tail_sublist _) (fun _ hj => hj) h.error
      obtain ⟨hnext, hbuf⟩ := hlined.locked ht rfl (List.nodup_cons.mp hnodup).1
        (h.not_timer ht (by simp [hpc]))
      exact ⟨hnext, .inl hbuf⟩
  · cases hstep

theorem appended (h : s.Lined) (hkept : s.Kept) (ht : s.tasks[t]? = some task)
    {failure : Option Error} (hstep : s.taskStep t task (.appended t failure) = some s') :
    s'.Lined ∧ s'.Kept := by
  have hmem := List.mem_of_getElem? ht
  simp only [taskStep] at hstep
  split at hstep
  · next batch happend =>
      have hpc : ¬(task.pc = .sleeping ∨ task.pc = .acquire) := by
        intro hpc
        rw [h.before task hmem hpc] at happend
        cases happend
      have hout := h.out_of_line ht fun heq => hpc (.inr heq)
      have htimer := h.not_timer ht fun heq => hpc (.inl heq)
      -- the result alone is new
      have hgoes : ∀ (result : Option (Except Error Nat)) (s' : Batching),
          s'.w = s.w → s'.tasks = s.tasks.set t { task with append := some ⟨batch, result⟩ } →
          s'.Lined ∧ s'.Kept := by
        intro result s' hw htasks
        have hfailed : s.FailedFirst → s'.FailedFirst := fun hfailed =>
          hfailed.set ht htasks (fun batch' e heq => by rw [happend] at heq; cases heq)
            (by rw [hw])
        refine ⟨h.set htasks (List.getElem?_eq_some_iff.mp ht).1 (hw ▸ h.nodup)
          (fun j hj => ?_) (fun j hj => ?_) (fun inner hinner => ?_)
          (fun heq => absurd heq hpc) fun hne => ?_, ?_⟩
        · rw [hw] at hj
          exact .inr ⟨fun heq => hout (heq ▸ hj), hj⟩
        · rw [hw] at hj
          exact ⟨fun heq => htimer (heq ▸ hj), hj⟩
        · cases hinner
          exact h.batch task hmem ⟨batch, none⟩ happend
        · rw [hw] at hne ⊢
          exact (h.error hne).imp_right hfailed
        · rcases hkept with hbuf | hold | hawaited
          · exact .inl (by rw [hw, hbuf])
          · exact .inr (.inl (hfailed hold))
          · exact .inr (.inr (hawaited.set hout htasks (by rw [hw])
              (by rw [hw]; exact List.Subset.refl _)))
      split at hstep
      · cases hstep
        exact hgoes _ _ rfl rfl
      · cases hstep
        exact hgoes _ _ rfl rfl
  · cases hstep

theorem resume (h : s.Lined) (hkept : s.Kept) (ht : s.tasks[t]? = some task)
    (hstep : s.taskStep t task (.resume t) = some s') : s'.Lined ∧ s'.Kept := by
  simp only [taskStep] at hstep
  split at hstep
  · next hpc hinner =>
      cases hstep
      exact h.release hkept ht (.inl hpc) fun e he => by cases he
  · next batch e hpc hinner =>
      cases hstep
      refine h.release hkept ht (.inl hpc) fun e' he => ?_
      cases he
      exact ⟨batch, hinner⟩
  · next hpc hinner =>
      cases hstep
      exact h.release hkept ht (.inr hpc) fun e he => by cases he
  · cases hstep

/-- A `flush` is cancelled. -/
theorem cancel (h : s.Lined) (hkept : s.Kept) (hsound : s.Sound)
    (ht : s.tasks[t]? = some task) (hcaller : task.caller = .flush)
    (hstep : s.taskStep t task (.cancel t) = some s') : s'.Lined ∧ s'.Kept := by
  have hmem := List.mem_of_getElem? ht
  cases hpc : task.pc with
  | sleeping =>
      have htimer := (hsound task hmem).asleep hpc
      rw [hcaller] at htimer
      cases htimer
  | acquire =>
      simp only [taskStep, hpc] at hstep
      cases hstep
      have hout : t ∉ s.w.waiters.erase t := fun hin => (h.nodup.mem_erase_iff.mp hin).1 rfl
      have hlined : ({ s with w := { s.w with waiters := s.w.waiters.erase t } } :
          Batching).Lined :=
        h.of_tasks rfl List.erase_sublist (fun _ hj => hj) h.error
      have hkept' : ({ s with w := { s.w with waiters := s.w.waiters.erase t } } :
          Batching).Kept := by
        refine hkept.imp_right (Or.imp_right (Or.imp_right ?_))
        rintro ⟨j, hj, other, hother, hne⟩
        refine ⟨j, (List.mem_erase_of_ne fun heq => ?_).mpr hj, other, hother, hne⟩
        rw [heq, ht] at hother
        cases hother
        exact hne hcaller
      exact ⟨hlined.finish ht rfl hout (h.not_timer ht (by simp [hpc])) fun e he => (by cases he),
        hkept'.finish ht rfl hout⟩
  | shield =>
      simp only [taskStep, hpc] at hstep
      split at hstep
      · next batch hinner =>
          cases hstep
          have hout := h.out_of_line ht (by simp [hpc])
          have htimer := h.not_timer ht (by simp [hpc])
          have hfailed : s.FailedFirst → (s.setTask t { task with pc := .wait }).FailedFirst :=
            fun hfailed => hfailed.set ht rfl (fun _ _ _ => rfl) List.prefix_rfl
          refine ⟨h.set rfl (List.getElem?_eq_some_iff.mp ht).1 h.nodup
            (fun j hj => .inr ⟨fun heq => hout (heq ▸ hj), hj⟩)
            (fun j hj => ⟨fun heq => htimer (heq ▸ hj), hj⟩) (h.batch task hmem)
            (fun heq => ?_) fun hne => (h.error hne).imp_right hfailed, ?_⟩
          · rcases heq with heq | heq <;> cases heq
          · rcases hkept with hbuf | hold | hawaited
            · exact .inl hbuf
            · exact .inr (.inl (hfailed hold))
            · exact .inr (.inr (hawaited.set hout rfl rfl (List.Subset.refl _)))
      · cases hstep
        exact h.release hkept ht (.inl hpc) fun e he => by cases he
  | wait =>
      simp only [taskStep, hpc] at hstep
      cases hstep
      have hlined : ({ s with w := { s.w with lock := none } } : Batching).Lined :=
        h.of_tasks rfl (List.Sublist.refl _) (fun _ hj => hj) h.error
      have hkept' : ({ s with w := { s.w with lock := none } } : Batching).Kept :=
        hkept.mono List.prefix_rfl rfl (fun h => h) rfl
      have hout := h.out_of_line ht (by simp [hpc])
      exact ⟨hlined.finish ht rfl hout (h.not_timer ht (by simp [hpc])) fun e he => (by cases he),
        hkept'.finish ht rfl hout⟩
  | done r => simp [taskStep, hpc] at hstep

theorem step (h : s.Lined) (hkept : s.Kept) (hsound : s.Sound) (hspares : s.spares a = true)
    (hstep : s.step a = some s') : s'.Lined ∧ s'.Kept := by
  cases a with
  | write payload => exact h.write hkept hstep
  | flush =>
      cases hstep
      exact h.callFlush .flush fun _ => hkept
  | close =>
      cases hstep
      exact h.cancelTimer.callFlush .close fun heq => by cases heq
  | wake t =>
      obtain ⟨task, ht, hgo⟩ := Option.bind_eq_some_iff.mp hstep
      exact h.wake ht (hsound task (List.mem_of_getElem? ht)).asleep hgo
  | grant t =>
      obtain ⟨task, ht, hgo⟩ := Option.bind_eq_some_iff.mp hstep
      exact h.grant ht hgo
  | appended t failure =>
      obtain ⟨task, ht, hgo⟩ := Option.bind_eq_some_iff.mp hstep
      exact h.appended hkept ht hgo
  | other payload =>
      cases hstep
      exact ⟨h.of_tasks rfl (List.Sublist.refl _) (fun _ hj => hj) h.error,
        hkept.mono List.prefix_rfl rfl (fun h => h) rfl⟩
  | resume t =>
      obtain ⟨task, ht, hgo⟩ := Option.bind_eq_some_iff.mp hstep
      exact h.resume hkept ht hgo
  | cancel t =>
      obtain ⟨task, ht, hgo⟩ := Option.bind_eq_some_iff.mp hstep
      refine h.cancel hkept hsound ht ?_ hgo
      simpa [spares, ht] using hspares

end Lined

theorem kept_of_run {stream : List Bytes} {acts : List BatchAct}
    (hrun : Lts.run step (init stream) acts = some s)
    (hspares : Lts.Meets step (fun s a => s.spares a = true) (init stream) acts) :
    (s.Lined ∧ s.Kept) ∧ s.Sound :=
  Lts.run_invariant_of_meets (I := fun s : Batching => (s.Lined ∧ s.Kept) ∧ s.Sound)
    (fun _ _ _ h hspares hstep => ⟨h.1.1.step h.1.2 h.2 hspares hstep, h.2.step hstep⟩) hrun hspares
    ⟨⟨.init stream, .inl rfl⟩, fun _ hmem => absurd hmem List.not_mem_nil⟩

/-- In every run in which only calls of `flush` are cancelled, whatever appends fail: if a
record is in the buffer, a timer sleeps that will flush it, or a timer or a `close()` waits for
the lock, or the buffer starts with the batch of an append that has failed. -/
theorem buffer_awaited (stream : List Bytes) (acts : List BatchAct) (s : Batching)
    (hrun : Lts.run step (init stream) acts = some s)
    (hspares : Lts.Meets step (fun s a => s.spares a = true) (init stream) acts) :
    s.w.buf = [] ∨ s.FailedFirst ∨
      (∃ t, s.w.timer = some t ∧ ∃ task : FlushTask,
        s.tasks[t]? = some task ∧ task.caller = .timer ∧ task.pc = .sleeping) ∨
      ∃ t ∈ s.w.waiters, ∃ task : FlushTask,
        s.tasks[t]? = some task ∧ task.caller ≠ .flush ∧ task.pc = .acquire := by
  obtain ⟨⟨hlined, hkept⟩, -⟩ := kept_of_run hrun hspares
  rcases hkept with hbuf | hfailed | htimer | ⟨t, hmem, task, ht, hcaller⟩
  · exact .inl hbuf
  · exact .inr (.inl hfailed)
  · obtain ⟨t, ht⟩ := Option.ne_none_iff_exists'.mp htimer
    obtain ⟨task, hget, hsleep, hcaller⟩ := hlined.timer t ht
    exact .inr (.inr (.inl ⟨t, ht, task, hget, hcaller, hsleep⟩))
  · obtain ⟨other, hother, hpc⟩ := hlined.waiters t hmem
    rw [ht] at hother
    cases hother
    exact .inr (.inr (.inr ⟨t, hmem, task, ht, hcaller, hpc⟩))

/-- A timer stands in line behind a flush, and both flushes that were called are cancelled. -/
def behindCancelled : List BatchAct :=
  [.write [1], .flush, .write [2], .flush, .wake 0, .cancel 2, .cancel 1]

theorem buffer_awaited_behindCancelled :
    ∃ s, Lts.run step (init []) behindCancelled = some s ∧ s.w.buf = [[2]] ∧
      ∃ t ∈ s.w.waiters, ∃ task : FlushTask,
        s.tasks[t]? = some task ∧ task.caller ≠ .flush ∧ task.pc = .acquire := by
  have hmap : (Lts.run step (init []) behindCancelled).map (fun s =>
      (s.w.buf, s.w.timer, s.tasks.all fun task =>
        task.append.all fun inner => inner.result.isNone)) = some ([[2]], none, true) := by
    decide +kernel
  obtain ⟨s, hrun, hview⟩ := Option.map_eq_some_iff.mp hmap
  simp only [Prod.mk.injEq] at hview
  obtain ⟨hbuf, htimer, hresults⟩ := hview
  refine ⟨s, hrun, hbuf, ?_⟩
  rcases buffer_awaited [] behindCancelled s hrun (by decide +kernel) with
    hempty | hfailed | ⟨t, ht, -⟩ | hawaited
  · rw [hbuf] at hempty
    cases hempty
  · obtain ⟨task, hmem, batch, e, happend, -⟩ := hfailed
    have hnone := List.all_eq_true.mp hresults task hmem
    simp [happend] at hnone
  · rw [htimer] at ht
    cases ht
  · exact hawaited

/-- No timer wakes, the lock is granted to nobody, no append is under way and no task whose
append is over goes on. -/
def Idle (s : Batching) : Prop :=
  ∀ t, s.step (.wake t) = none ∧ s.step (.grant t) = none ∧ s.step (.appended t none) = none ∧
    s.step (.resume t) = none

/-- All tasks are over. -/
theorem idle_of_over (hover : ∀ task ∈ s.tasks, task.live = false ∧ task.appending = false) :
    s.Idle := by
  intro t
  cases ht : s.tasks[t]? with
  | none => simp [step, ht]
  | some task =>
      obtain ⟨hdead, hdone⟩ := hover task (List.mem_of_getElem? ht)
      have happended : s.taskStep t task (.appended t none) = none := by
        simp only [taskStep]
        split
        · next batch hinner => simp [FlushTask.appending, hinner] at hdone
        · rfl
      cases hpc : task.pc with
      | done r =>
          simp only [step, ht, Option.bind_some, happended]
          simp [taskStep, hpc]
      | sleeping | acquire | shield | wait => simp [FlushTask.live, hpc] at hdead

namespace Idle

variable (h : s.Idle)

include h

/-- The task with the lock could go on. -/
theorem lock_free (ho : s.Orderly) (hsound : s.Sound) : s.w.lock = none := by
  cases hlock : s.w.lock with
  | none => rfl
  | some t =>
      obtain ⟨task, ht, hholds⟩ := ho.holder t hlock
      obtain ⟨-, -, happended, hresume⟩ := h t
      simp only [step, ht, Option.bind_some] at happended hresume
      obtain ⟨⟨batch, result⟩, happend⟩ :=
        Option.ne_none_iff_exists'.mp ((hsound task (List.mem_of_getElem? ht)).holds hholds)
      cases result with
      | none => simp [taskStep, happend] at happended
      | some result =>
          rcases hholds with hpc | hpc
          · cases result <;> simp [taskStep, hpc, happend] at hresume
          · simp [taskStep, hpc, happend] at hresume

theorem not_awaited (ho : s.Orderly) (hsound : s.Sound) (hlined : s.Lined) : ¬s.Awaited := by
  rintro (htimer | ⟨t, hmem, -⟩)
  · obtain ⟨t, ht⟩ := Option.ne_none_iff_exists'.mp htimer
    obtain ⟨task, hget, hsleep, -⟩ := hlined.timer t ht
    have hwake := (h t).1
    simp [step, hget, taskStep, hsleep] at hwake
  · obtain ⟨c, hhead⟩ : ∃ c, s.w.waiters.head? = some c := by
      cases hline : s.w.waiters with
      | nil => exact absurd (hline ▸ hmem) List.not_mem_nil
      | cons c rest => exact ⟨c, rfl⟩
    obtain ⟨task, hget, hpc⟩ := hlined.waiters c (List.mem_of_mem_head? hhead)
    have hgrant := (h c).2.1
    simp [step, hget, taskStep, hpc, h.lock_free ho hsound, hhead] at hgrant

end Idle

/-- In a run in which only calls of `flush` are cancelled, and none of them again while it
waits for its append, unless that has succeeded: once the tasks have gone on as far as they
can, without any more calls, everything that was accepted is durable, once and in order,
unless an append has failed; then its records are the front of the buffer, and what is
durable and what is in the buffer is all that was accepted. -/
theorem accepted_durable_of_idle (stream : List Bytes) (acts : List BatchAct) (s : Batching)
    (hrun : Lts.run step (init stream) acts = some s)
    (hmeets : Lts.Meets step (fun s a => s.spares a = true ∧ s.waitsOut a = true) (init stream)
      acts) (hidle : s.Idle) :
    s.own = s.accepted ∨ s.FailedFirst ∧ s.own ++ s.w.buf = s.accepted := by
  obtain ⟨⟨hlined, hkept⟩, hsound⟩ := kept_of_run hrun (hmeets.mono fun _ _ h => h.1)
  have ho : s.Orderly := Lts.run_invariant_of_meets
    (fun _ _ _ ho hwaits hstep => Orderly.step ho hwaits hstep) hrun
    (hmeets.mono fun _ _ h => h.2) (.init stream)
  have hcons := ho.conserved_of_free (hidle.lock_free ho hsound)
  rcases hkept with hbuf | hfailed | hawaited
  · exact .inl (by rw [hcons, hbuf, List.append_nil])
  · exact .inr ⟨hfailed, hcons.symm⟩
  · exact absurd hawaited (hidle.not_awaited ho hsound hlined)

/-- The append of the cancelled flush succeeds, and the timer in line appends the rest. -/
def timerFlushes : List BatchAct :=
  behindCancelled ++
    [.appended 1 none, .resume 1, .grant 0, .appended 0 none, .resume 0]

theorem accepted_durable_of_idle_timerFlushes :
    ∃ s, Lts.run step (init []) timerFlushes = some s ∧ s.accepted = [[1], [2]] ∧
      s.own = s.accepted := by
  have hmap : (Lts.run step (init []) timerFlushes).map (fun s =>
      (s.accepted, s.tasks.all fun task =>
        !task.live && !task.appending && task.append.all fun inner =>
          inner.result.all Except.toBool)) = some ([[1], [2]], true) := by
    decide +kernel
  obtain ⟨s, hrun, hview⟩ := Option.map_eq_some_iff.mp hmap
  obtain ⟨haccepted, hall⟩ := Prod.mk.inj hview
  have hover : ∀ task ∈ s.tasks, (task.live = false ∧ task.appending = false) ∧
      task.append.all (fun inner => inner.result.all Except.toBool) = true := by
    intro task hmem
    have htask := List.all_eq_true.mp hall task hmem
    simpa only [Bool.and_eq_true, Bool.not_eq_true'] using htask
  refine ⟨s, hrun, haccepted, ?_⟩
  rcases accepted_durable_of_idle [] timerFlushes s hrun (by decide +kernel)
    (idle_of_over fun task hmem => (hover task hmem).1) with hown | ⟨hfailed, -⟩
  · exact hown
  · obtain ⟨task, hmem, batch, e, happend, -⟩ := hfailed
    have hok := (hover task hmem).2
    simp [happend, Except.toBool] at hok

end Batching

end Durastream
