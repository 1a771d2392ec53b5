import Durastream.Aio.BatchWriter

/-!
# What a flush promises

A `flush` that returns `n` has made durable what was accepted before it was called:
these records are in the stream, at offsets below `n`.

Each task has a promise of its own, which is made in three places.  A task that takes
the lock finds what was accepted before in the stream or in the buffer it takes, since
nobody else has anything in flight (`FlushTask.Honest.flight`).  When its append
succeeds, the batch is in the stream below the offset that `append_many` returned
(`FlushTask.Honest.answered`).  A stream only grows, so the promise then stands.
-/

namespace Durastream

/-- The records of this writer in a stream. -/
def ownRecords (stream : List (Bool × Bytes)) : List Bytes :=
  (stream.filter Prod.fst).map Prod.snd

@[simp] theorem ownRecords_append (xs ys : List (Bool × Bytes)) :
    ownRecords (xs ++ ys) = ownRecords xs ++ ownRecords ys := by
  rw [ownRecords, List.filter_append, List.map_append, ownRecords, ownRecords]

@[simp] theorem ownRecords_batch (batch : List Bytes) :
    ownRecords (batch.map fun p => (true, p)) = batch := by
  simp [ownRecords, List.filter_map, Function.comp_def]

theorem ownRecords_isPrefix {xs ys : List (Bool × Bytes)} (h : xs <+: ys) :
    ownRecords xs <+: ownRecords ys := by
  obtain ⟨zs, rfl⟩ := h
  rw [ownRecords_append]
  exact List.prefix_append _ _

/-- The first `before` records of this writer are in the stream below offset `n`. -/
def Covers (stream : List (Bool × Bytes)) (before n : Nat) : Prop :=
  n ≤ stream.length ∧ before ≤ (ownRecords (stream.take n)).length

/-- What is below an offset stays there. -/
theorem Covers.mono {xs ys : List (Bool × Bytes)} {before n : Nat} (h : Covers xs before n)
    (hpre : xs <+: ys) : Covers ys before n := by
  obtain ⟨hle, hbefore⟩ := h
  refine ⟨Nat.le_trans hle hpre.length_le, ?_⟩
  obtain ⟨zs, rfl⟩ := hpre
  rwa [List.take_append_of_le_length hle]

namespace FlushTask

/-- The offset that a task has returned, or is about to. -/
def Answers (task : FlushTask) (n : Nat) : Prop :=
  task.pc = .done (.returned n) ∨ ∃ batch, task.append = some ⟨batch, some (.ok n)⟩

/-- What a task promises about the records accepted before it came. -/
structure Honest (task : FlushTask) (s : Batching) : Prop where
  asked : task.before ≤ s.accepted.length
  asleep : task.pc = .sleeping → task.append = none
  /-- They are in the stream and in the batch being appended. -/
  flight : ∀ batch, task.append = some ⟨batch, none⟩ → task.before ≤ s.own.length + batch.length
  answered : ∀ n, task.Answers n → Covers s.stream task.before n

variable {task : FlushTask} {s s' : Batching}

theorem Honest.mono (h : task.Honest s) (haccepted : s.accepted <+: s'.accepted)
    (hstream : s.stream <+: s'.stream) : task.Honest s' := by
  refine ⟨Nat.le_trans h.asked haccepted.length_le, h.asleep, ?_,
    fun n hn => (h.answered n hn).mono hstream⟩
  intro batch happend
  have hown : s.own.length ≤ s'.own.length := (ownRecords_isPrefix hstream).length_le
  exact Nat.le_trans (h.flight batch happend) (Nat.add_le_add_right hown _)

/-- A task that comes now. -/
theorem Honest.new (s : Batching) (caller : Caller) :
    (⟨caller, .sleeping, none, s.accepted.length⟩ : FlushTask).Honest s := by
  refine ⟨Nat.le_refl _, fun _ => rfl, fun batch h => (by cases h), ?_⟩
  rintro n (h | ⟨batch, h⟩) <;> cases h

/-- A task goes on, and returns nothing it has not earned. -/
theorem Honest.goto (h : task.Honest s) {pc : FlushPc} (hawake : pc ≠ .sleeping)
    (hreturned : ∀ n, pc = .done (.returned n) → Covers s.stream task.before n) :
    ({ task with pc := pc } : FlushTask).Honest s := by
  refine ⟨h.asked, fun hpc => absurd hpc hawake, h.flight, ?_⟩
  rintro n (hpc | happend)
  · exact hreturned n hpc
  · exact h.answered n (.inr happend)

end FlushTask

namespace Batching

/-- Every task keeps its promise. -/
def Honest (s : Batching) : Prop := ∀ task ∈ s.tasks, task.Honest s

variable {s s' : Batching} {t : Nat} {task task' : FlushTask} {a : BatchAct} {r : Ended}

namespace Honest

theorem init (stream : List Bytes) : (Batching.init stream).Honest :=
  fun _ hmem => absurd hmem List.not_mem_nil

theorem grows (hf : s.Honest) (htasks : s'.tasks = s.tasks) (haccepted : s.accepted <+: s'.accepted)
    (hstream : s.stream <+: s'.stream) : s'.Honest := by
  intro task hmem
  rw [htasks] at hmem
  exact (hf task hmem).mono haccepted hstream

/-- One task goes on. -/
theorem set (hf : s.Honest) (htasks : s'.tasks = s.tasks.set t task')
    (haccepted : s.accepted <+: s'.accepted) (hstream : s.stream <+: s'.stream)
    (hnew : task'.Honest s') : s'.Honest := by
  intro task hmem
  rw [htasks] at hmem
  rcases List.mem_or_eq_of_mem_set hmem with hmem | rfl
  · exact (hf task hmem).mono haccepted hstream
  · exact hnew

theorem addTask (hf : s.Honest) (caller : Caller) : (s.addTask caller).Honest := by
  intro task hmem
  rcases List.mem_append.mp hmem with hmem | hmem
  · exact (hf task hmem).mono List.prefix_rfl List.prefix_rfl
  · rw [List.mem_singleton.mp hmem]
    exact .new (s.addTask caller) caller

theorem finish (hf : s.Honest) (htask : task.Honest s)
    (hr : ∀ n, r = .returned n → Covers s.stream task.before n) : (s.finish t task r).Honest := by
  refine hf.set rfl List.prefix_rfl List.prefix_rfl ?_
  have hdone : ({ task with pc := .done r } : FlushTask).Honest s :=
    htask.goto (by simp) fun n hn => hr n (by cases hn; rfl)
  exact hdone.mono List.prefix_rfl List.prefix_rfl

/-- The task that takes the lock takes all that was accepted and is not durable. -/
theorem locked (hf : s.Honest) (htask : task.Honest s) (hcons : s.accepted = s.own ++ s.w.buf) :
    (s.locked t task).Honest := by
  unfold Batching.locked
  split
  · next hbuf =>
      refine hf.finish htask fun n hn => ?_
      cases hn
      have hasked := htask.asked
      rw [hcons, hbuf, List.append_nil] at hasked
      refine ⟨Nat.le_refl _, ?_⟩
      rw [List.take_length]
      exact hasked
  · refine hf.set rfl List.prefix_rfl List.prefix_rfl ⟨htask.asked, fun h => (by cases h), ?_, ?_⟩
    · intro batch happend
      cases happend
      show task.before ≤ s.own.length + s.w.buf.length
      rw [← List.length_append, ← hcons]
      exact htask.asked
    · rintro n (h | ⟨batch, h⟩) <;> cases h

theorem enter (hf : s.Honest) (htask : task.Honest s)
    (hcons : s.w.lock = none → s.accepted = s.own ++ s.w.buf) : (s.enter t task).Honest := by
  unfold Batching.enter
  split
  · have hsame : ({ s with w := { s.w with error := none } } : Batching).Honest :=
      hf.grows rfl List.prefix_rfl List.prefix_rfl
    exact hsame.finish (htask.mono List.prefix_rfl List.prefix_rfl) fun n hn => by cases hn
  · split
    · next hfree => exact hf.locked htask (hcons hfree.1)
    · refine hf.set rfl List.prefix_rfl List.prefix_rfl ?_
      have hwaits : ({ task with pc := .acquire } : FlushTask).Honest s :=
        htask.goto (by simp) fun n hn => by cases hn
      exact hwaits.mono List.prefix_rfl List.prefix_rfl

theorem callFlush (hf : s.Honest) (ho : s.Orderly) (caller : Caller) :
    (s.callFlush caller).Honest :=
  (hf.addTask caller).enter (.new (s.addTask caller) caller)
    fun hfree => (ho.addTask caller).conserved_of_free hfree

theorem cancelTimer (hf : s.Honest) : s.cancelTimer.Honest := by
  have hsame : ({ s with w := { s.w with timer := none } } : Batching).Honest :=
    hf.grows rfl List.prefix_rfl List.prefix_rfl
  unfold Batching.cancelTimer
  split
  · exact hsame
  · split
    · next task ht =>
        split
        · refine hsame.set rfl List.prefix_rfl List.prefix_rfl ?_
          have htask := hf task (List.mem_of_getElem? ht)
          exact (htask.goto (by simp) fun n hn => by cases hn).mono List.prefix_rfl List.prefix_rfl
        · exact hsame
    · exact hsame

theorem release (hf : s.Honest) (htask : task.Honest s)
    (hr : ∀ n, r = .returned n → Covers s.stream task.before n) : (s.release t task r).Honest := by
  refine finish ?_ (htask.mono List.prefix_rfl List.prefix_rfl) hr
  exact hf.grows rfl List.prefix_rfl List.prefix_rfl

theorem appended (hf : s.Honest) (htask : task.Honest s) {failure : Option Error}
    (hstep : s.taskStep t task (.appended t failure) = some s') : s'.Honest := by
  simp only [taskStep] at hstep
  split at hstep
  · next batch hinner =>
      split at hstep
      · cases hstep
        refine hf.set rfl List.prefix_rfl List.prefix_rfl
          ⟨htask.asked, fun hpc => (by rw [htask.asleep hpc] at hinner; cases hinner),
            fun _ h => (by cases h), ?_⟩
        rintro n (hpc | ⟨batch', happend⟩)
        · exact htask.answered n (.inl hpc)
        · cases happend
      · cases hstep
        -- the batch comes after all that was durable
        have hlater : s.stream <+: s.stream ++ batch.map fun p => (true, p) :=
          List.prefix_append _ _
        refine hf.set rfl List.prefix_rfl hlater
          ⟨htask.asked, fun hpc => (by rw [htask.asleep hpc] at hinner; cases hinner),
            fun _ h => (by cases h), ?_⟩
        rintro n (hpc | ⟨batch', happend⟩)
        · exact (htask.answered n (.inl hpc)).mono hlater
        · cases happend
          have hlen : (ownRecords (s.stream ++ batch.map fun p => (true, p))).length =
              s.own.length + batch.length := by
            rw [ownRecords_append, ownRecords_batch, List.length_append]
            rfl
          refine ⟨Nat.le_refl _, ?_⟩
          rw [List.take_length, hlen]
          exact htask.flight batch hinner
  · cases hstep

theorem cancel (hf : s.Honest) (htask : task.Honest s)
    (hstep : s.taskStep t task (.cancel t) = some s') : s'.Honest := by
  have hsame : ∀ w, ({ s with w := w } : Batching).Honest :=
    fun w => hf.grows rfl List.prefix_rfl List.prefix_rfl
  cases hpc : task.pc with
  | sleeping =>
      simp only [taskStep, hpc] at hstep
      cases hstep
      refine hf.set rfl List.prefix_rfl List.prefix_rfl ?_
      exact (htask.goto (by simp) fun n hn => by cases hn).mono List.prefix_rfl List.prefix_rfl
  | acquire =>
      simp only [taskStep, hpc] at hstep
      cases hstep
      exact (hsame _).finish (htask.mono List.prefix_rfl List.prefix_rfl) fun n hn => by cases hn
  | shield =>
      simp only [taskStep, hpc] at hstep
      split at hstep
      · cases hstep
        refine hf.set rfl List.prefix_rfl List.prefix_rfl ?_
        exact (htask.goto (by simp) fun n hn => by cases hn).mono List.prefix_rfl List.prefix_rfl
      · cases hstep
        exact hf.release htask fun n hn => by cases hn
  | wait =>
      simp only [taskStep, hpc] at hstep
      cases hstep
      exact (hsame _).finish (htask.mono List.prefix_rfl List.prefix_rfl) fun n hn => by cases hn
  | done r => simp [taskStep, hpc] at hstep

/-- Every step keeps the promises. -/
theorem step (hf : s.Honest) (ho : s.Orderly) (hstep : s.step a = some s') : s'.Honest := by
  cases a with
  | write payload =>
      simp only [Batching.step] at hstep
      split at hstep
      · cases hstep
        exact hf.grows rfl List.prefix_rfl List.prefix_rfl
      · split at hstep
        · cases hstep
          exact hf
        · have haccepted : ({ s with
              w := { s.w with buf := s.w.buf ++ [payload] }
              accepted := s.accepted ++ [payload] } : Batching).Honest :=
            hf.grows rfl (List.prefix_append _ _) List.prefix_rfl
          split at hstep
          · cases hstep
            exact haccepted
          · cases hstep
            exact (haccepted.addTask .timer).grows rfl List.prefix_rfl List.prefix_rfl
  | flush =>
      cases hstep
      exact hf.callFlush ho .flush
  | close =>
      cases hstep
      exact hf.cancelTimer.callFlush ho.cancelTimer .close
  | wake t =>
      obtain ⟨task, ht, hstep⟩ := Option.bind_eq_some_iff.mp hstep
      simp only [taskStep] at hstep
      split at hstep
      · next hpc =>
          cases hstep
          have htask := hf task (List.mem_of_getElem? ht)
          have hsame : ({ s with w := { s.w with timer := none } } : Batching).Honest :=
            hf.grows rfl List.prefix_rfl List.prefix_rfl
          have hnone := htask.asleep hpc
          refine hsame.enter ⟨Nat.le_refl _, fun _ => hnone, ?_, ?_⟩
            fun hfree => ho.conserved_of_free hfree
          · intro batch happend
            rw [show task.append = some ⟨batch, none⟩ from happend] at hnone
            cases hnone
          · rintro n (hdone | ⟨batch, happend⟩)
            · rw [show task.pc = .done (.returned n) from hdone] at hpc
              cases hpc
            · rw [show task.append = some ⟨batch, some (.ok n)⟩ from happend] at hnone
              cases hnone
      · cases hstep
  | grant t =>
      obtain ⟨task, ht, hstep⟩ := Option.bind_eq_some_iff.mp hstep
      simp only [taskStep] at hstep
      split at hstep
      · next hgrant =>
          cases hstep
          have hsame :
              ({ s with w := { s.w with waiters := s.w.waiters.tail } } : Batching).Honest :=
            hf.grows rfl List.prefix_rfl List.prefix_rfl
          have htask := hf task (List.mem_of_getElem? ht)
          exact hsame.locked (htask.mono List.prefix_rfl List.prefix_rfl)
            (ho.conserved_of_free hgrant.2.1)
      · cases hstep
  | appended t failure =>
      obtain ⟨task, ht, hstep⟩ := Option.bind_eq_some_iff.mp hstep
      exact hf.appended (hf task (List.mem_of_getElem? ht)) hstep
  | other payload =>
      cases hstep
      exact hf.grows rfl List.prefix_rfl (List.prefix_append _ _)
  | resume t =>
      obtain ⟨task, ht, hstep⟩ := Option.bind_eq_some_iff.mp hstep
      have htask := hf task (List.mem_of_getElem? ht)
      simp only [taskStep] at hstep
      split at hstep
      · next batch n hpc hinner =>
          cases hstep
          refine hf.release htask fun m hm => ?_
          cases hm
          exact htask.answered n (.inr ⟨batch, hinner⟩)
      · cases hstep
        exact hf.release htask fun n hn => by cases hn
      · cases hstep
        exact hf.release htask fun n hn => by cases hn
      · cases hstep
  | cancel t =>
      obtain ⟨task, ht, hstep⟩ := Option.bind_eq_some_iff.mp hstep
      exact hf.cancel (hf task (List.mem_of_getElem? ht)) hstep

end Honest

/-! ## The result -/

/-- Without cancellations, a flush that returned `n` has what was accepted before it was
called in the stream below offset `n`.  What this writer has in the stream is what was
accepted first, each record once and in the order of the writes. -/
theorem flush_durable (stream : List Bytes) (acts : List BatchAct) (s : Batching)
    (hrun : Lts.run step (init stream) acts = some s) (hcancel : ∀ t, .cancel t ∉ acts)
    (t : Nat) (task : FlushTask) (n : Nat) (ht : s.tasks[t]? = some task)
    (hpc : task.pc = .done (.returned n)) :
    s.own <+: s.accepted ∧ n ≤ s.stream.length ∧
      ∃ m, task.before ≤ m ∧ ownRecords (s.stream.take n) = s.accepted.take m := by
  have hwaits : Lts.Meets step (fun s a => s.waitsOut a = true) (init stream) acts := by
    have hnone : ∀ a ∈ acts, ∀ t, a ≠ .cancel t := fun a hmem t heq => hcancel t (heq ▸ hmem)
    refine (Lts.Meets.of_mem hnone).mono fun s a hne => ?_
    cases a with
    | cancel t => exact absurd rfl (hne t)
    | _ => rfl
  have hinv : s.Orderly ∧ s.Honest := by
    refine Lts.run_invariant_of_meets (I := fun s => s.Orderly ∧ s.Honest) ?_ hrun hwaits
      ⟨.init stream, .init stream⟩
    rintro s a s' ⟨ho, hf⟩ hwaits hstep
    exact ⟨ho.step hwaits hstep, hf.step ho hstep⟩
  obtain ⟨ho, hf⟩ := hinv
  have hown : s.own <+: s.accepted := by
    rw [ho.conserved, List.append_assoc]
    exact List.prefix_append _ _
  obtain ⟨hle, hbefore⟩ := (hf task (List.mem_of_getElem? ht)).answered n (.inl hpc)
  have hbelow : ownRecords (s.stream.take n) <+: s.accepted :=
    (ownRecords_isPrefix (List.take_prefix n s.stream)).trans hown
  exact ⟨hown, hle, _, hbefore, List.prefix_iff_eq_take.mp hbelow⟩

/-- A flush fails while another record is written; another appender is served, and the
next flush appends both records. -/
def flushedAgain : List BatchAct :=
  [.write [1], .flush, .write [2], .appended 1 (some .osError), .resume 1, .other [9], .flush,
    .appended 2 none, .other [8], .resume 2]

theorem flush_durable_flushedAgain :
    ∃ s, Lts.run step (init []) flushedAgain = some s ∧ s.own <+: s.accepted ∧
      ∃ m, 2 ≤ m ∧ ownRecords (s.stream.take 3) = s.accepted.take m := by
  have hmap : ((Lts.run step (init []) flushedAgain).bind fun s =>
      (s.tasks[2]?).map fun task => (task.before, task.pc)) =
        some (2, .done (.returned 3)) := by decide +kernel
  obtain ⟨s, hrun, htask⟩ := Option.bind_eq_some_iff.mp hmap
  obtain ⟨task, ht, htask⟩ := Option.map_eq_some_iff.mp htask
  obtain ⟨hbefore, hpc⟩ := Prod.mk.inj htask
  obtain ⟨hown, -, m, hm, htake⟩ := flush_durable [] flushedAgain s hrun
    (by simp [flushedAgain]) 2 task 3 ht hpc
  exact ⟨s, hrun, hown, m, hbefore ▸ hm, htake⟩

end Batching

end Durastream
