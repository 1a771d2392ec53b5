import Durastream.Aio.Wakeups

/-!
# A subscriber of a closed stream ends

`subscribe` ends once the stream is closed and drained.  Each step of the task leaves it
less to go (`Subscriber.toGo`): a step that yields has one record less before it, and
between two yields the task goes round its loop at most once, since a replay from disk
leaves no hole between the buffer and `pos`, and an empty buffer at the end of a closed
stream is the end.  It is never stuck, since a task that waits on a closed stream has been
woken or will be.
-/

namespace Durastream

namespace Subscriber

/-- How far the task is from its next yield or its end, on a closed stream with `n`
records. -/
def rank (x : Subscriber) (n : Nat) : Nat :=
  match x.pc with
  | .top => if x.sub.stale then 7 else if n ≤ x.pos ∧ x.sub.start ≤ x.pos then 4 else 10
  | .startRead => if x.sub.stale then 12 else 6
  | .checkRead => if x.sub.stale ∨ n ≤ x.pos ∧ x.pos < x.sub.start then 11 else 5
  | .reading => if n ≤ x.pos then 13 else 4
  | .fetched (.ok batch) => if batch = [] then 12 else 3
  | .fetched (.error _) => 1
  | .replay _ _ => 12
  | .yielded => 11
  | .testClosed => if n ≤ x.pos then 3 else 9
  | .testEnd => if n ≤ x.pos then 2 else 8
  | .testWait => 12
  | .waiting => 11
  | .returned => 0
  | .raised => 0

/-- A bound for the steps left on a closed stream with `n` records. -/
def toGo (x : Subscriber) (n : Nat) : Nat := 14 * (n - x.next) + x.rank n

theorem rank_top_le (x : Subscriber) (n : Nat) (hpc : x.pc = .top) : x.rank n ≤ 10 := by
  simp only [rank, hpc]
  split
  · decide
  · split <;> decide

theorem rank_le (x : Subscriber) (n : Nat) : x.rank n ≤ 13 := by
  unfold rank
  split <;> (try split) <;> (try split) <;> decide

variable {x x' : Subscriber} {m : LiveStream}

/-- The task goes back to the top of its loop. -/
theorem toGo_of_top {n : Nat} (hpc : x'.pc = .top) (hnext : x.next = x'.pos)
    (hrank : 11 ≤ x.rank n) : x'.toGo n < x.toGo n := by
  have hle := rank_top_le x' n hpc
  simp only [toGo, hnext, show x'.next = x'.pos by simp [next, hpc]]
  omega

/-- A record is yielded. -/
theorem toGo_of_yield {n : Nat} (hnext : x'.next = x.next + 1) (hn : x'.next ≤ n)
    (hrank : x'.rank n ≤ 12) : x'.toGo n < x.toGo n := by
  simp only [toGo]
  omega

/-- What has been yielded is there. -/
theorem Exact.next_le (h : x.Exact m) (hpc : x.pc ≠ .raised) (hout : x.out ≠ []) :
    x.next ≤ m.records.length := by
  have hlen := h.out.length_le
  have hpos := List.length_pos_iff.mpr hout
  rw [List.length_drop] at hlen
  rw [← h.next hpc]
  omega

end Subscriber

namespace Sub

theorem start_dropBefore_le {sub : Sub} {pos : Nat} (h : sub.start ≤ pos) :
    (sub.dropBefore pos sub.buf).start ≤ pos := by
  generalize hbuf : sub.buf = buf
  induction buf generalizing sub with
  | nil => exact h
  | cons record rest ih =>
      rw [dropBefore]
      split
      · next hlt =>
          rw [popleft, hbuf]
          exact ih hlt rfl
      · exact h

end Sub

namespace Subscriber

variable {x x' : Subscriber} {m : LiveStream}

theorem toGo_replayed {batch : List Bytes} {k : Nat} (h : (x.replayed batch k).Exact m)
    (hk : k ≤ batch.length) (hnext : x.next = x.pos + k)
    (hrank : 12 ≤ x.rank m.records.length ∨ k < batch.length) :
    (x.replayed batch k).toGo m.records.length < x.toGo m.records.length := by
  revert h
  unfold replayed
  split
  · next record hget =>
      intro h
      refine toGo_of_yield (by rw [hnext]; rfl) ?_ (Nat.le_refl _)
      exact h.next_le (by simp) (by simp)
  · next hnone =>
      intro _
      have hk' : k = batch.length := Nat.le_antisymm hk (List.getElem?_eq_none_iff.mp hnone)
      refine toGo_of_top rfl (by rw [hnext, hk']) ?_
      exact Nat.le_trans (by decide) (hrank.resolve_right (by omega))

theorem toGo_top (h : x.Exact m) (hpc : x.pc = .top) (hrun : x.run m = some x') :
    x'.toGo m.records.length < x.toGo m.records.length := by
  have hnew := h.top hpc hrun
  simp only [run, hpc] at hrun
  split at hrun
  · next hstale =>
      cases hrun
      simp [toGo, rank, next, hpc, hstale, Sub.clear]
  · next hfresh =>
      have hbefore := @Sub.start_dropBefore_le x.sub x.pos
      generalize x.sub.dropBefore x.pos x.sub.buf = sub₀ at hrun hbefore
      -- without a hole, the buffer starts no later than at `pos`
      have hraised : ∃ sub : Sub, (if sub₀.buf = [] then
          { sub₀ with start := max sub₀.start x.pos } else sub₀) = sub ∧
            (x.sub.start ≤ x.pos → sub.start ≤ x.pos) := by
        split
        · exact ⟨_, rfl, fun hle => Nat.max_le.mpr ⟨hbefore hle, Nat.le_refl _⟩⟩
        · exact ⟨_, rfl, hbefore⟩
      obtain ⟨sub, heq, hle⟩ := hraised
      rw [heq] at hrun
      split at hrun
      · next hhole =>
          cases hrun
          have hold : ¬(m.records.length ≤ x.pos ∧ x.sub.start ≤ x.pos) := fun hboth =>
            Nat.not_lt.mpr (hle hboth.2) hhole
          simp [toGo, rank, next, hpc, hfresh, hold]
      · split at hrun
        · next record sub' hpop =>
            cases hrun
            refine toGo_of_yield (by simp [next, hpc]) ?_ (by simp [rank])
            exact hnew.next_le (by simp) (by simp)
        · cases hrun
          simp only [toGo, rank, next, hpc, if_neg hfresh]
          split
          · split <;> omega
          · next hmore => rw [if_neg fun hboth => hmore hboth.1]; omega

/-- On a closed stream, every step of the task leaves it less to go. -/
theorem toGo_run (h : x.Exact m) (hm : m.Ok) (hclosed : m.closed = true)
    (hrun : x.run m = some x') : x'.toGo m.records.length < x.toGo m.records.length := by
  have hnew := h.run hm hrun
  have hcount := hm.nextOffset_of_closed hclosed
  cases hpc : x.pc with
  | top => exact toGo_top h hpc hrun
  | startRead =>
      simp only [run, hpc, hcount] at hrun
      cases hrun
      cases hstale : x.sub.stale with
      | true =>
          simp only [toGo, rank, next, hpc, hstale]
          split <;> simp_all
      | false =>
          have hnone : ¬(m.records.length ≤ x.pos ∧ x.pos < m.records.length) := by omega
          simp [toGo, rank, next, hpc, hstale, hnone]
  | checkRead =>
      simp only [run, hpc, hcount] at hrun
      cases hrun
      by_cases hend : m.records.length ≤ x.pos
      · simp only [toGo, rank, next, hpc, ge_iff_le, if_pos hend]
        cases hstale : x.sub.stale with
        | true => simp
        | false =>
            by_cases hhole : x.sub.start ≤ x.pos
            · simp [hend, hhole, Nat.not_lt.mpr hhole]
            · simp [hend, hhole, Nat.lt_of_not_le hhole]
      · simp only [toGo, rank, next, hpc, ge_iff_le, if_neg hend]
        split <;> omega
  | reading => simp [run, hpc] at hrun
  | fetched r =>
      simp only [run, hpc] at hrun
      cases r with
      | error e =>
          cases hrun
          simp [toGo, rank, next, hpc]
      | ok batch =>
          cases hrun
          refine toGo_replayed hnew (Nat.zero_le _) (by simp [next, hpc]) ?_
          by_cases hempty : batch = []
          · exact .inl (by simp [rank, hpc, hempty])
          · exact .inr (List.length_pos_iff.mpr hempty)
  | replay batch k =>
      simp only [run, hpc] at hrun
      cases hrun
      exact toGo_replayed hnew (h.replay batch k hpc).2 (by simp [next, hpc])
        (.inl (by simp [rank, hpc]))
  | yielded =>
      simp only [run, hpc] at hrun
      cases hrun
      exact toGo_of_top rfl (by simp [next, hpc]) (by simp [rank, hpc])
  | testClosed =>
      simp only [run, hpc, hclosed, if_true] at hrun
      cases hrun
      simp only [toGo, rank, next, hpc]
      split <;> omega
  | testEnd =>
      simp only [run, hpc, hcount] at hrun
      split at hrun
      · next hend =>
          cases hrun
          simp [toGo, rank, next, hpc, show m.records.length ≤ x.pos from hend]
      · next hmore =>
          cases hrun
          simp [toGo, rank, next, hpc, show ¬m.records.length ≤ x.pos from hmore]
  | testWait =>
      simp only [run, hpc, hclosed] at hrun
      cases hrun
      exact toGo_of_top (by simp) (by simp [next, hpc]) (by simp [rank, hpc])
  | waiting =>
      simp only [run, hpc] at hrun
      split at hrun
      · cases hrun
        exact toGo_of_top rfl (by simp [next, hpc]) (by simp [rank, hpc])
      · cases hrun
  | returned => simp [run, hpc] at hrun
  | raised => simp [run, hpc] at hrun

end Subscriber

/-- A read of the whole rest. -/
theorem LiveStream.Ok.read_open {m : LiveStream} (hm : m.Ok) (hfree : m.adding = none)
    (hopen : m.isOpen = true) (pos : Nat) :
    Durastream.read m.name m.isOpen m.data m.index pos none = .ok (m.records.drop pos) := by
  have hindex := hm.index_of_free (by simp [pending, hfree])
  have hfit : Fits m.records := .records m.data
  have hdata : frames m.records <+: m.data := by rw [hm.data]
  have hpos : (max (pos : Int) 0).toNat = pos := by omega
  rw [hopen, hindex, read_marks m.name hfit hdata, readStop, List.take_length, hpos]

namespace Subscriber

variable {x x' : Subscriber} {m : LiveStream}

@[simp] theorem offset_replayed (x : Subscriber) (batch : List Bytes) (k : Nat) :
    (x.replayed batch k).offset = x.offset := by
  unfold replayed
  split <;> rfl

/-- Where the task goes from the top of its loop. -/
theorem run_top (hpc : x.pc = .top) :
    ∃ sub : Sub, x.run m = some { x with sub := sub, pc := .startRead } ∨
      x.run m = some { x with sub := sub } ∨
      x.run m = some { x with sub := sub, pc := .testClosed } ∨
      ∃ record, x.run m = some { x with
        pos := x.pos + 1, sub := sub, pc := .yielded, out := x.out ++ [record] } := by
  simp only [run, hpc]
  split
  · exact ⟨_, .inl rfl⟩
  · generalize x.sub.dropBefore x.pos x.sub.buf = sub₀
    generalize (if sub₀.buf = [] then { sub₀ with start := max sub₀.start x.pos } else sub₀) = sub
    split
    · exact ⟨_, .inr (.inl rfl)⟩
    · split
      · exact ⟨_, .inr (.inr (.inr ⟨_, rfl⟩))⟩
      · exact ⟨_, .inr (.inr (.inl rfl))⟩

/-- A task that cannot go on is at an await. -/
theorem suspended_of_stuck (hstuck : x.run m = none) : x.suspended = true := by
  cases hpc : x.pc with
  | top =>
      obtain ⟨sub, h | h | h | ⟨record, h⟩⟩ := run_top (m := m) hpc <;>
        rw [h] at hstuck <;> cases hstuck
  | testClosed | testEnd =>
      simp only [run, hpc] at hstuck
      split at hstuck <;> cases hstuck
  | startRead | checkRead | testWait => simp [run, hpc] at hstuck
  | _ => simp [suspended, hpc]

theorem offset_of_run (hrun : x.run m = some x') : x'.offset = x.offset := by
  cases hpc : x.pc with
  | top =>
      obtain ⟨sub, h | h | h | ⟨record, h⟩⟩ := run_top (m := m) hpc <;>
        rw [h] at hrun <;> cases hrun <;> rfl
  | fetched r =>
      cases r <;> simp only [run, hpc] at hrun <;> cases hrun
      · rfl
      · exact offset_replayed x _ 0
  | replay batch k =>
      simp only [run, hpc] at hrun
      cases hrun
      exact offset_replayed x batch k
  | startRead | checkRead | yielded | testWait =>
      simp only [run, hpc] at hrun
      cases hrun
      rfl
  | testClosed | testEnd | waiting =>
      simp only [run, hpc] at hrun
      split at hrun <;> cases hrun <;> rfl
  | reading | returned | raised => simp [run, hpc] at hrun

/-- The read of a closed stream. -/
theorem toGo_fetched (hpc : x.pc = .reading) :
    ({ x with pc := .fetched (.ok (m.records.drop x.pos)) } : Subscriber).toGo m.records.length <
      x.toGo m.records.length := by
  simp only [toGo, rank, next, hpc, List.drop_eq_nil_iff]
  split <;> omega

/-- No read of the task has failed, and it is not waiting for an event in vain. -/
structure Going (x : Subscriber) : Prop where
  raised : x.pc ≠ .raised
  fetched : ∀ e, x.pc ≠ .fetched (.error e)
  waiting : x.pc = .waiting → x.sub.event = true

/-- A task of a closed stream goes on unless it has returned. -/
theorem Going.run (h : x.Going) (hclosed : m.closed = true) (hrun : x.run m = some x') :
    x'.Going := by
  have hpcs : ∀ y : Subscriber, y.pc = .top ∨ y.pc = .startRead ∨ y.pc = .checkRead ∨
      y.pc = .reading ∨ (∃ batch k, y.pc = .replay batch k) ∨ y.pc = .yielded ∨
      y.pc = .testClosed ∨ y.pc = .testEnd ∨ y.pc = .returned → y.Going := by
    intro y hy
    rcases hy with hy | hy | hy | hy | ⟨batch, k, hy⟩ | hy | hy | hy | hy <;>
      exact ⟨by simp [hy], by simp [hy], by simp [hy]⟩
  have hreplayed : ∀ batch k, (x.replayed batch k).Going := by
    intro batch k
    unfold replayed
    split <;> exact hpcs _ (by simp)
  cases hpc : x.pc with
  | top =>
      obtain ⟨sub, h | h | h | ⟨record, h⟩⟩ := run_top (m := m) hpc <;>
        rw [h] at hrun <;> cases hrun <;> exact hpcs _ (by simp [hpc])
  | startRead =>
      simp only [Subscriber.run, hpc] at hrun
      cases hrun
      exact hpcs _ (by simp)
  | checkRead =>
      simp only [Subscriber.run, hpc] at hrun
      split at hrun <;> cases hrun <;> exact hpcs _ (by simp)
  | reading => simp [Subscriber.run, hpc] at hrun
  | fetched r =>
      simp only [Subscriber.run, hpc] at hrun
      cases r with
      | error e => exact absurd hpc (h.fetched e)
      | ok batch =>
          cases hrun
          exact hreplayed batch 0
  | replay batch k =>
      simp only [Subscriber.run, hpc] at hrun
      cases hrun
      exact hreplayed batch k
  | yielded =>
      simp only [Subscriber.run, hpc] at hrun
      cases hrun
      exact hpcs _ (by simp)
  | testClosed =>
      simp only [Subscriber.run, hpc, hclosed, if_true] at hrun
      cases hrun
      exact hpcs _ (by simp)
  | testEnd =>
      simp only [Subscriber.run, hpc] at hrun
      split at hrun <;> cases hrun <;> exact hpcs _ (by simp)
  | testWait =>
      simp only [Subscriber.run, hpc, hclosed] at hrun
      cases hrun
      exact hpcs _ (by simp)
  | waiting =>
      simp only [Subscriber.run, hpc] at hrun
      split at hrun
      · cases hrun
        exact hpcs _ (by simp)
      · cases hrun
  | returned => simp [Subscriber.run, hpc] at hrun
  | raised => simp [Subscriber.run, hpc] at hrun

theorem Going.returned (h : x.Going) (hstuck : x.run m = none) (hpc : x.pc ≠ .reading) :
    x.pc = .returned := by
  have hsuspended := suspended_of_stuck hstuck
  cases hpc' : x.pc with
  | returned => rfl
  | reading => exact absurd hpc' hpc
  | raised => exact absurd hpc' h.raised
  | fetched r => cases r <;> simp [Subscriber.run, hpc'] at hstuck
  | waiting => simp [Subscriber.run, hpc', h.waiting hpc'] at hstuck
  | replay _ _ | yielded => simp [Subscriber.run, hpc'] at hstuck
  | _ => simp [suspended, hpc'] at hsuspended

end Subscriber

namespace Fanout

/-- No task but subscriber `j` is running. -/
def Yields (s : Fanout) (j : Nat) : Prop :=
  (∀ i y, i ≠ j → s.subscribers[i]? = some y → y.suspended = true) ∧
    s.waiters.all Waiter.suspended = true

/-- The subscriber may go on. -/
theorem Yields.idle {s : Fanout} {j : Nat} {x : Subscriber} (h : s.Yields j)
    (hx : s.subscribers[j]? = some x) (hsuspended : x.suspended = true) : s.idle = true := by
  refine Bool.and_eq_true_iff.mpr ⟨List.all_eq_true.mpr fun y hmem => ?_, h.2⟩
  obtain ⟨i, hi⟩ := List.mem_iff_getElem?.mp hmem
  by_cases hij : i = j
  · rw [hij, hx] at hi
    cases hi
    exact hsuspended
  · exact h.1 i y hij hi

theorem Yields.set {s : Fanout} {j : Nat} {x : Subscriber} (h : s.Yields j) :
    (s.setSubscriber j x).Yields j := by
  refine ⟨fun i y hij hi => h.1 i y hij ?_, h.2⟩
  rwa [setSubscriber, List.getElem?_set_ne (Ne.symm hij)] at hi

theorem Yields.settle {s : Fanout} {j : Nat} (h : s.Yields j) : s.settle.Yields j := by
  unfold Fanout.settle
  split
  · exact h
  · exact h

/-- Subscriber `j` of a closed stream, while it runs alone. -/
structure Draining (s : Fanout) (j : Nat) (x : Subscriber) (m : LiveStream) (bound : Nat) :
    Prop where
  stream : s.stream = m
  yields : s.Yields j
  subscriber : s.subscribers[j]? = some x
  exact : x.Exact m
  going : x.Going
  toGo : x.toGo m.records.length ≤ bound

/-- What the task does next. -/
theorem Draining.step {s t : Fanout} {j bound : Nat} {x : Subscriber} {m : LiveStream}
    {a : FanoutAct} (h : s.Draining j x m bound) (hm : m.Ok) (hclosed : m.closed = true)
    (hopen : m.isOpen = true) (ha : a = .run j ∨ a = .read j) (hstep : s.step a = some t) :
    ∃ x' bound', t.Draining j x' m bound' ∧ x'.offset = x.offset ∧ bound' < bound := by
  obtain ⟨hlt, -⟩ := List.getElem?_eq_some_iff.mp h.subscriber
  have hget : ∀ x' : Subscriber, (s.setSubscriber j x').subscribers[j]? = some x' :=
    fun x' => List.getElem?_set_self hlt
  rcases ha with rfl | rfl
  · simp only [Fanout.step, h.subscriber] at hstep
    split at hstep
    · obtain ⟨x', hrun, rfl⟩ := Option.map_eq_some_iff.mp hstep
      rw [h.stream] at hrun
      have hless := Subscriber.toGo_run h.exact hm hclosed hrun
      refine ⟨x', x'.toGo m.records.length, ⟨?_, h.yields.set.settle, ?_, h.exact.run hm hrun,
        h.going.run hclosed hrun, Nat.le_refl _⟩, Subscriber.offset_of_run hrun,
        Nat.lt_of_lt_of_le hless h.toGo⟩
      · rw [stream_settle]
        exact h.stream
      · rw [subscribers_settle]
        exact hget x'
    · cases hstep
  · have hfree : m.adding = none := by
      cases hadding : m.adding with
      | none => rfl
      | some p =>
          have hopen' := hm.open_of_adding (by simp [hadding])
          rw [hclosed] at hopen'
          cases hopen'
    simp only [Fanout.step, lockStep, h.subscriber, h.stream, hfree, Option.isNone_none,
      if_true] at hstep
    split at hstep
    · next hpc =>
        cases hstep
        rw [hm.read_open hfree hopen]
        have hless := Subscriber.toGo_fetched (m := m) hpc
        refine ⟨_, _, ⟨h.stream, h.yields.set, hget _, h.exact.fetch hpc fun batch heq => ?_,
          ⟨by simp, by simp, by simp⟩, Nat.le_refl _⟩, rfl, Nat.lt_of_lt_of_le hless h.toGo⟩
        cases heq
        exact List.prefix_rfl
    · cases hstep

/-- A run of the task alone is no longer than it has to go. -/
theorem Draining.run {s t : Fanout} {j bound : Nat} {x : Subscriber} {m : LiveStream}
    {acts : List FanoutAct} (h : s.Draining j x m bound) (hm : m.Ok) (hclosed : m.closed = true)
    (hopen : m.isOpen = true) (hacts : ∀ a ∈ acts, a = .run j ∨ a = .read j)
    (hrun : Lts.run Fanout.step s acts = some t) :
    ∃ x' bound', t.Draining j x' m bound' ∧ x'.offset = x.offset ∧
      acts.length + bound' ≤ bound := by
  induction acts generalizing s x bound with
  | nil =>
      cases hrun
      exact ⟨x, bound, h, rfl, by simp⟩
  | cons a acts ih =>
      obtain ⟨u, hstep, hrest⟩ := Lts.run_cons_eq_some hrun
      obtain ⟨x', bound', hu, hoffset, hless⟩ :=
        h.step hm hclosed hopen (hacts a List.mem_cons_self) hstep
      obtain ⟨x'', bound'', ht, hoffset', hle⟩ :=
        ih hu (fun b hb => hacts b (List.mem_cons_of_mem a hb)) hrest
      refine ⟨x'', bound'', ht, hoffset'.trans hoffset, ?_⟩
      rw [List.length_cons]
      omega

/-- A task that cannot go on has returned. -/
theorem Draining.returned {s : Fanout} {j bound : Nat} {x : Subscriber} {m : LiveStream}
    (h : s.Draining j x m bound) (hfree : m.adding = none) (hrun : s.step (.run j) = none)
    (hread : s.step (.read j) = none) : x.pc = .returned := by
  refine h.going.returned (m := m) ?_ fun hpc => ?_
  · simp only [Fanout.step, h.subscriber, h.stream] at hrun
    split at hrun
    · exact Option.map_eq_none_iff.mp hrun
    · next hbusy =>
        cases hsuspended : x.suspended with
        | true => simp [hsuspended, h.yields.idle h.subscriber hsuspended] at hbusy
        | false => simp [hsuspended] at hbusy
  · simp [Fanout.step, lockStep, h.subscriber, h.stream, hfree, hpc] at hread

/-- A stream has been closed, its file is open, no note is on its way, and the other tasks
of the loop are at an await.  A subscriber that has not left, and none of whose reads fails,
and that runs alone from there on (`more` has steps of its task and its reads only), then
yields all records from its offset on and returns, after at most so many steps.  One of them
is enabled as long as it has not. -/
theorem subscribe_drains (name : Name) (data : Bytes) (closed writable : Bool)
    (acts : List FanoutAct) (s : Fanout)
    (hrun : Lts.run step (init name data closed writable) acts = some s)
    (hclosed : s.stream.closed = true) (hopen : s.stream.isOpen = true)
    (hchanges : s.changes = []) (hcalls : s.calls = []) (hposted : s.posted = [])
    (j : Nat) (x : Subscriber) (hx : s.subscribers[j]? = some x) (hthere : x.left = false)
    (hread : ∀ e, x.pc ≠ .fetched (.error e)) (hyields : s.Yields j)
    (more : List FanoutAct) (hmore : ∀ a ∈ more, a = .run j ∨ a = .read j) (t : Fanout)
    (hrest : Lts.run step s more = some t) :
    more.length ≤ 14 * (s.stream.records.length - (max x.offset 0).toNat - x.out.length) + 13 ∧
      (t.step (.run j) = none → t.step (.read j) = none →
        ∃ x', t.subscribers[j]? = some x' ∧ x'.pc = .returned ∧
          x'.out = s.stream.records.drop (max x.offset 0).toNat) := by
  have hawake : s.Awake := Lts.run_invariant (fun _ _ _ h hstep => h.step (step_cases hstep)) hrun
    ⟨.init name data closed writable, fun _ _ h => (by cases h),
      fun _ hmem => absurd hmem List.not_mem_nil, fun _ hmem => absurd hmem List.not_mem_nil⟩
  have hmem := List.mem_of_getElem? hx
  have hm := hawake.ok.stream
  have hfree : s.stream.adding = none := by
    cases hadding : s.stream.adding with
    | none => rfl
    | some p =>
        have hstill := hm.open_of_adding (by simp [hadding])
        rw [hclosed] at hstill
        cases hstill
  have hraised : x.pc ≠ .raised := fun hpc => by simp [Subscriber.left, hpc] at hthere
  have hexact := hawake.ok.subscribers x hmem
  have hgoing : x.Going := by
    refine ⟨hraised, hread, fun hpc => ?_⟩
    cases hevent : x.sub.event with
    | true => rfl
    | false =>
        rcases (hawake.subscribers x hmem hthere).2.closed hpc hevent with hstill | hnoted
        · rw [hclosed] at hstill
          cases hstill
        · simp [Noted, hchanges, hcalls, hposted] at hnoted
  have hstart : s.Draining j x s.stream (x.toGo s.stream.records.length) :=
    ⟨rfl, hyields, hx, hexact, hgoing, Nat.le_refl _⟩
  obtain ⟨x', bound', ht, hoffset, hle⟩ := hstart.run hm hclosed hopen hmore hrest
  refine ⟨?_, fun hstuck hstuck' => ?_⟩
  · have hrank := x.rank_le s.stream.records.length
    have hnext := hexact.next hraised
    rw [Subscriber.toGo, ← hnext, Subscriber.base] at hle
    omega
  · have hpc := ht.returned hfree hstuck hstuck'
    refine ⟨x', ht.subscriber, hpc, ?_⟩
    have hout := ht.exact.out_of_returned hpc
    rwa [Subscriber.base, hoffset] at hout

/-- A subscriber is about to read when two more records are appended and the stream is closed.
The deliveries come before the read. -/
def closedBehind : List FanoutAct :=
  [.append [[1]] 0, .addEntry, .release, .notify 0, .subscribe 0, .run 0, .run 0, .run 0,
    .append [[2], [3]] 0, .addEntry, .addEntry, .release, .close true 3, .notify 0, .notify 0,
    .post 0, .post 0, .deliver 0, .deliver 0]

/-- It reads, yields three records and finds the end. -/
def threeYields : List FanoutAct :=
  [.read 0, .run 0, .run 0, .run 0, .run 0, .run 0, .run 0, .run 0]

theorem subscribe_drains_threeYields :
    ∃ s t, Lts.run step (init ['t'] [] false true) closedBehind = some s ∧
      Lts.run step s threeYields = some t ∧
      ∃ x', t.subscribers[0]? = some x' ∧ x'.pc = .returned ∧ x'.out = s.stream.records.drop 0 := by
  have hmap : (Lts.run step (init ['t'] [] false true) closedBehind).map (fun s =>
      (s.stream.closed && s.stream.isOpen && s.changes.isEmpty && s.calls.isEmpty &&
          s.posted.isEmpty && s.waiters.isEmpty && (s.step (.read 0)).isSome,
        s.subscribers.map Subscriber.offset)) = some (true, [0]) := by
    decide +kernel
  have hmap' : (Lts.run step (init ['t'] [] false true) (closedBehind ++ threeYields)).map
      (fun t => (t.step (.run 0)).isNone && (t.step (.read 0)).isNone) = some true := by
    decide +kernel
  obtain ⟨s, hrun, hview⟩ := Option.map_eq_some_iff.mp hmap
  obtain ⟨t, hrun', hstuck⟩ := Option.map_eq_some_iff.mp hmap'
  rw [Lts.run_append, hrun, Option.bind_some] at hrun'
  obtain ⟨hquiet, hsubscribers⟩ := Prod.mk.inj hview
  simp only [Bool.and_eq_true, List.isEmpty_iff] at hquiet
  obtain ⟨⟨⟨⟨⟨⟨hclosed, hopen⟩, hchanges⟩, hcalls⟩, hposted⟩, hwaiters⟩, hreads⟩ := hquiet
  obtain ⟨x, hx, hoffset⟩ := List.map_eq_singleton_iff.mp hsubscribers
  have hget : s.subscribers[0]? = some x := by rw [hx]; rfl
  have hpc : x.pc = .reading := by
    obtain ⟨u, hread⟩ := Option.isSome_iff_exists.mp hreads
    cases step_cases hread with
    | stream _ _ _ hchange => cases hchange
    | read j y hfree hy hpc =>
        rw [hget] at hy
        cases hy
        exact hpc
  have hyields : s.Yields 0 := by
    refine ⟨fun i y hi hy => ?_, by rw [hwaiters]; rfl⟩
    rw [hx, List.getElem?_eq_none (by rw [List.length_singleton]; omega)] at hy
    cases hy
  simp only [Bool.and_eq_true, Option.isNone_iff_eq_none] at hstuck
  have hdrains := subscribe_drains ['t'] [] false true closedBehind s hrun hclosed hopen hchanges
    hcalls hposted 0 x hget (by simp [Subscriber.left, hpc]) (by simp [hpc]) hyields
    threeYields (by simp [threeYields]) t hrun'
  rw [hoffset] at hdrains
  exact ⟨s, t, hrun, hrun', hdrains.2 hstuck.1 hstuck.2⟩

end Fanout

end Durastream
