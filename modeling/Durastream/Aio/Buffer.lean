import Durastream.Aio.Wait

/-!
# The live buffer

A `Feed` is a growing stream and the buffer of one subscriber or waiter.  Deliveries
come in any order, overlap or leave holes, as long as their records are the stream's at
their offsets, and the consumer does between them what `subscribe` and `wait` do.

The buffer holds the stream's records from `start` on, even while it is stale.  It never
holds more than the limits allow, since a delivery that goes over them drops everything
(`Feed.faithful_bounded`).

In every state of a hub, each of its buffers is that of a feed (`Fanout.fed`).
-/

namespace Durastream

/-- A stream's records, and a buffer of them. -/
structure Feed where
  records : List Bytes
  sub : Sub

inductive FeedAct where
  /-- The stream grows. -/
  | append (records : List Bytes)
  | deliver (start : Nat) (records : List Bytes)
  | popleft
  | clear
  /-- `sub.stale = stale`. -/
  | setStale (stale : Bool)
  /-- `sub.start = start`, while the buffer is empty. -/
  | setStart (start : Nat)
  /-- `sub.event.clear()`. -/
  | clearEvent

namespace Feed

def init : Feed := ⟨[], .new⟩

def step (s : Feed) : FeedAct → Option Feed
  | .append records => some { s with records := s.records ++ records }
  | .deliver start records =>
      if records <+: s.records.drop start then some { s with sub := s.sub.deliver start records }
      else none
  | .popleft => s.sub.popleft.map fun r => { s with sub := r.2 }
  | .clear => some { s with sub := s.sub.clear }
  | .setStale stale => some { s with sub := { s.sub with stale := stale } }
  | .setStart start =>
      if s.sub.buf = [] then some { s with sub := { s.sub with start := start } } else none
  | .clearEvent => some { s with sub := { s.sub with event := false } }

end Feed

/-! ## What a buffer holds -/

namespace Sub

/-- The buffer is counted and within the limits. -/
structure Bounded (sub : Sub) : Prop where
  nbytes : sub.nbytes = (sub.buf.map List.length).sum
  length_le : sub.buf.length ≤ lagLimit
  nbytes_le : sub.nbytes ≤ lagBytes

variable {sub sub' : Sub} {all : List Bytes} {start : Nat} {records : List Bytes} {record : Bytes}

theorem Bounded.of_empty (hbuf : sub.buf = []) (hbytes : sub.nbytes = 0) : sub.Bounded where
  nbytes := by rw [hbuf, hbytes]; rfl
  length_le := by rw [hbuf]; exact Nat.zero_le _
  nbytes_le := by rw [hbytes]; exact Nat.zero_le _

theorem Bounded.popleft (h : sub.Bounded) (hpop : sub.popleft = some (record, sub')) :
    sub'.Bounded := by
  have hbytes := h.nbytes
  have hlen := h.length_le
  have hle := h.nbytes_le
  unfold Sub.popleft at hpop
  split at hpop
  · cases hpop
  · next first buf heq =>
      cases hpop
      rw [heq, List.map_cons, List.sum_cons] at hbytes
      rw [heq, List.length_cons] at hlen
      refine ⟨?_, Nat.le_of_succ_le hlen, Nat.le_trans (Nat.sub_le _ _) hle⟩
      show sub.nbytes - record.length = _
      rw [hbytes, Nat.add_sub_cancel_left]

/-- An extended buffer that is not stale is within the limits. -/
theorem Bounded.extend (h : sub.Bounded) (hfresh : (sub.extend start records).stale = false) :
    (sub.extend start records).Bounded := by
  have hbytes := h.nbytes
  unfold Sub.extend at hfresh ⊢
  dsimp only at hfresh ⊢
  split at hfresh
  · cases hfresh
  · next hle =>
      rw [if_neg hle]
      split at hfresh
      · next hlt =>
          rw [if_pos hlt]
          generalize records.drop (sub.start + sub.buf.length - start) = new at hfresh ⊢
          refine ⟨?_, ?_, ?_⟩
          · rw [List.map_append, List.sum_append, hbytes]
          · exact Nat.le_of_not_gt fun hlong => of_decide_eq_false hfresh (.inl hlong)
          · exact Nat.le_of_not_gt fun hlarge => of_decide_eq_false hfresh (.inr hlarge)
      · next hge =>
          rw [if_neg hge]
          exact h

/-- A delivery leaves a stale buffer empty.  Otherwise it has extended it or left it. -/
theorem deliver_cases (sub : Sub) (start : Nat) (records : List Bytes) :
    (∃ sub' : Sub, sub'.buf = [] ∧ sub'.nbytes = 0 ∧ sub.deliver start records = sub') ∨
      ∃ sub' : Sub, (sub' = sub ∨ sub.stale = false ∧ sub' = sub.extend start records) ∧
        sub'.stale = false ∧ sub.deliver start records = { sub' with event := true } := by
  have hnew : (if records ≠ [] ∧ sub.stale = false then sub.extend start records else sub) = sub ∨
      sub.stale = false ∧
        (if records ≠ [] ∧ sub.stale = false then sub.extend start records else sub) =
          sub.extend start records := by
    split
    · next h => exact .inr ⟨h.2, rfl⟩
    · exact .inl rfl
  unfold Sub.deliver
  dsimp only
  generalize (if records ≠ [] ∧ sub.stale = false then sub.extend start records else sub) = sub'
    at hnew
  cases hstale : sub'.stale with
  | true => exact .inl ⟨_, rfl, rfl, rfl⟩
  | false => exact .inr ⟨sub', hnew, hstale, rfl⟩

/-- Whatever is delivered, the buffer stays within the limits. -/
theorem Bounded.deliver (h : sub.Bounded) (start : Nat) (records : List Bytes) :
    (sub.deliver start records).Bounded := by
  rcases deliver_cases sub start records with ⟨sub', hbuf, hbytes, heq⟩ | ⟨sub', hsub', hfresh, heq⟩
  · rw [heq]
    exact .of_empty hbuf hbytes
  · have hbounded : sub'.Bounded := by
      rcases hsub' with rfl | ⟨-, rfl⟩
      · exact h
      · exact h.extend hfresh
    rw [heq]
    exact ⟨hbounded.nbytes, hbounded.length_le, hbounded.nbytes_le⟩

end Sub

/-! ## Runs of a feed -/

namespace Feed

/-- The buffer holds the stream's records from `start` on, and no more than it may. -/
structure Ok (s : Feed) : Prop where
  held : s.sub.buf <+: s.records.drop s.sub.start
  bounded : s.sub.Bounded

variable {s t : Feed} {a : FeedAct}

theorem Ok.init : init.Ok := ⟨List.nil_prefix, .of_empty rfl rfl⟩

theorem Ok.faithful (h : s.Ok) : s.sub.Faithful s.records := fun _ => h.held

theorem Ok.deliver (h : s.Ok) {start : Nat} {records : List Bytes}
    (hrecords : records <+: s.records.drop start) :
    ({ s with sub := s.sub.deliver start records } : Feed).Ok := by
  refine ⟨?_, h.bounded.deliver start records⟩
  show (s.sub.deliver start records).buf <+: s.records.drop (s.sub.deliver start records).start
  rcases Sub.deliver_cases s.sub start records with
    ⟨sub', hbuf, -, heq⟩ | ⟨sub', hsub', hfresh, heq⟩
  · rw [heq, hbuf]
    exact List.nil_prefix
  · rw [heq]
    rcases hsub' with rfl | ⟨hfresh', rfl⟩
    · exact h.held
    · exact h.faithful.extend hfresh' hrecords hfresh

theorem Ok.popleft (h : s.Ok) {record : Bytes} {sub : Sub}
    (hpop : s.sub.popleft = some (record, sub)) : ({ s with sub := sub } : Feed).Ok := by
  refine ⟨?_, h.bounded.popleft hpop⟩
  show sub.buf <+: s.records.drop sub.start
  have hheld := h.held
  unfold Sub.popleft at hpop
  split at hpop
  · cases hpop
  · next first buf heq =>
      cases hpop
      rw [heq] at hheld
      have hrest := hheld.drop 1
      rwa [List.drop_drop] at hrest

theorem Ok.step (h : s.Ok) (hstep : s.step a = some t) : t.Ok := by
  cases a with
  | append records =>
      cases hstep
      exact ⟨h.held.trans ((List.prefix_append _ _).drop _), h.bounded⟩
  | deliver start records =>
      simp only [Feed.step] at hstep
      split at hstep
      · next hrecords =>
          cases hstep
          exact h.deliver hrecords
      · cases hstep
  | popleft =>
      obtain ⟨⟨record, sub⟩, hpop, rfl⟩ := Option.map_eq_some_iff.mp hstep
      exact h.popleft hpop
  | clear =>
      cases hstep
      exact ⟨List.nil_prefix, .of_empty rfl rfl⟩
  | setStale stale =>
      cases hstep
      exact ⟨h.held, h.bounded.nbytes, h.bounded.length_le, h.bounded.nbytes_le⟩
  | setStart start =>
      simp only [Feed.step] at hstep
      split at hstep
      · next hempty =>
          cases hstep
          refine ⟨?_, h.bounded.nbytes, h.bounded.length_le, h.bounded.nbytes_le⟩
          show s.sub.buf <+: _
          rw [hempty]
          exact List.nil_prefix
      · cases hstep
  | clearEvent =>
      cases hstep
      exact ⟨h.held, h.bounded.nbytes, h.bounded.length_le, h.bounded.nbytes_le⟩

/-- In every run, the buffer is counted, holds the stream's records from `start` on
unless it is stale, and is within the limits. -/
theorem faithful_bounded (acts : List FeedAct) (s : Feed)
    (hrun : Lts.run step init acts = some s) :
    s.sub.nbytes = (s.sub.buf.map List.length).sum ∧
      (s.sub.stale = false → ∀ i record, s.sub.buf[i]? = some record →
        s.records[s.sub.start + i]? = some record) ∧
      s.sub.buf.length ≤ 10000 ∧ s.sub.nbytes ≤ 16 * 1024 * 1024 := by
  have hok : s.Ok := Lts.run_invariant (fun _ _ _ => Ok.step) hrun .init
  refine ⟨hok.bounded.nbytes, ?_, hok.bounded.length_le, hok.bounded.nbytes_le⟩
  intro _ i record hget
  obtain ⟨t, ht⟩ := hok.held
  rw [← List.getElem?_drop, ← ht]
  exact (List.getElem?_append_left (List.getElem?_eq_some_iff.mp hget).1).trans hget

/-- A batch is buffered, one of its records taken, and the rest of it delivered twice. -/
def deliveredTwice : List FeedAct :=
  [.append [[1], [2], [3]], .setStale false, .clear, .setStart 0, .deliver 0 [[1], [2]], .popleft,
    .deliver 1 [[2], [3]], .clearEvent, .deliver 2 [[3]]]

theorem faithful_bounded_deliveredTwice :
    ∃ s, Lts.run step init deliveredTwice = some s ∧ s.sub.buf = [[2], [3]] ∧
      s.sub.nbytes = (s.sub.buf.map List.length).sum ∧
      (s.sub.stale = false → ∀ i record, s.sub.buf[i]? = some record →
        s.records[s.sub.start + i]? = some record) ∧
      s.sub.buf.length ≤ 10000 ∧ s.sub.nbytes ≤ 16 * 1024 * 1024 := by
  have hsome : (Lts.run step init deliveredTwice).isSome = true := by decide +kernel
  have hbuf : ∀ s ∈ Lts.run step init deliveredTwice, s.sub.buf = [[2], [3]] := by decide +kernel
  obtain ⟨s, hrun⟩ := Option.isSome_iff_exists.mp hsome
  exact ⟨s, hrun, hbuf s hrun, faithful_bounded deliveredTwice s hrun⟩

end Feed

/-! ## The buffers of a hub -/

/-- The buffer of a feed with these records. -/
def Sub.Fed (sub : Sub) (all : List Bytes) : Prop :=
  ∃ acts, Lts.run Feed.step Feed.init acts = some ⟨all, sub⟩

namespace Sub.Fed

variable {sub sub' : Sub} {all all' : List Bytes} {a : FeedAct}

theorem step (h : sub.Fed all) (a : FeedAct) (hstep : Feed.step ⟨all, sub⟩ a = some ⟨all', sub'⟩) :
    sub'.Fed all' := by
  obtain ⟨acts, hrun⟩ := h
  refine ⟨acts ++ [a], ?_⟩
  rw [Lts.run_append, hrun, Option.bind_some, Lts.run_cons, hstep]
  rfl

theorem new (all : List Bytes) : Sub.new.Fed all := ⟨[.append all], rfl⟩

theorem mono (h : sub.Fed all) (hall : all <+: all') : sub.Fed all' := by
  obtain ⟨records, rfl⟩ := hall
  exact h.step (.append records) rfl

theorem deliver (h : sub.Fed all) {start : Nat} {records : List Bytes}
    (hrecords : records <+: all.drop start) : (sub.deliver start records).Fed all :=
  h.step (.deliver start records) (if_pos hrecords)

theorem popleft (h : sub.Fed all) {record : Bytes} (hpop : sub.popleft = some (record, sub')) :
    sub'.Fed all := by
  refine h.step .popleft ?_
  rw [Feed.step, hpop]
  rfl

theorem setStart (h : sub.Fed all) (hempty : sub.buf = []) (start : Nat) :
    ({ sub with start := start } : Sub).Fed all := h.step (.setStart start) (if_pos hempty)

theorem setStale (h : sub.Fed all) (stale : Bool) : ({ sub with stale := stale } : Sub).Fed all :=
  h.step (.setStale stale) rfl

theorem clearEvent (h : sub.Fed all) : ({ sub with event := false } : Sub).Fed all :=
  h.step .clearEvent rfl

theorem dropBefore (h : sub.Fed all) (pos : Nat) (buf : List Bytes) :
    (sub.dropBefore pos buf).Fed all := by
  induction buf generalizing sub with
  | nil => exact h
  | cons record rest ih =>
      rw [Sub.dropBefore]
      split
      · split
        · next record' sub' hpop => exact ih (h.popleft hpop)
        · exact h
      · exact h

end Sub.Fed

/-- A subscriber that goes on does to its buffer what a feed does. -/
theorem Subscriber.Exact.fed {x x' : Subscriber} {m : LiveStream} (h : x.Exact m)
    (hsub : x.sub.Fed m.records) (hrun : x.run m = some x') : x'.sub.Fed m.records := by
  cases hpc : x.pc with
  | top =>
      simp only [Subscriber.run, hpc] at hrun
      split at hrun
      · cases hrun
        exact (hsub.setStale false).step .clear rfl
      · have hdrop := hsub.dropBefore x.pos x.sub.buf
        generalize x.sub.dropBefore x.pos x.sub.buf = sub₀ at hrun hdrop
        have hraised : (if sub₀.buf = [] then { sub₀ with start := max sub₀.start x.pos }
            else sub₀).Fed m.records := by
          split
          · next hempty => exact hdrop.setStart hempty _
          · exact hdrop
        generalize (if sub₀.buf = [] then { sub₀ with start := max sub₀.start x.pos }
            else sub₀) = sub at hrun hraised
        split at hrun
        · cases hrun
          exact hraised.setStale true
        · split at hrun
          · next record sub' hpop =>
              cases hrun
              exact hraised.popleft hpop
          · cases hrun
            exact hraised
  | startRead =>
      simp only [Subscriber.run, hpc] at hrun
      cases hrun
      exact hsub.setStart (h.startRead hpc) _
  | testClosed =>
      simp only [Subscriber.run, hpc] at hrun
      split at hrun <;> cases hrun
      · exact hsub
      · exact hsub.clearEvent
  | testEnd =>
      simp only [Subscriber.run, hpc] at hrun
      split at hrun <;> cases hrun
      · exact hsub
      · exact hsub.setStale true
  | fetched r =>
      simp only [Subscriber.run, hpc] at hrun
      cases r with
      | ok batch =>
          cases hrun
          unfold Subscriber.replayed
          split <;> exact hsub
      | error e =>
          cases hrun
          exact hsub
  | replay batch k =>
      simp only [Subscriber.run, hpc] at hrun
      cases hrun
      unfold Subscriber.replayed
      split <;> exact hsub
  | waiting =>
      simp only [Subscriber.run, hpc] at hrun
      split at hrun <;> cases hrun
      exact hsub
  | _ =>
      simp only [Subscriber.run, hpc] at hrun
      cases hrun <;> exact hsub

/-- So does a waiter. -/
theorem Waiter.fed_of_run {x x' : Waiter} {m : LiveStream} (hsub : x.sub.Fed m.records)
    (hrun : x.run m = some x') : x'.sub.Fed m.records := by
  unfold Waiter.run at hrun
  split at hrun
  case h_2 =>
    split at hrun <;> cases hrun
    · exact hsub
    · exact hsub.clearEvent
  case h_5 => split at hrun <;> cases hrun; exact hsub
  all_goals cases hrun <;> exact hsub

namespace Fanout

/-- Every buffer is that of a feed. -/
structure Fed (s : Fanout) : Prop where
  subscribers : ∀ x ∈ s.subscribers, x.sub.Fed s.stream.records
  waiters : ∀ x ∈ s.waiters, x.sub.Fed s.stream.records

variable {s t : Fanout} {a : FanoutAct} {j : Nat}

theorem Fed.init (name : Name) (data : Bytes) (closed writable : Bool) :
    (Fanout.init name data closed writable).Fed :=
  ⟨fun _ hmem => absurd hmem List.not_mem_nil, fun _ hmem => absurd hmem List.not_mem_nil⟩

theorem Fed.settle (h : s.Fed) : s.settle.Fed := by
  refine ⟨?_, ?_⟩
  · simpa using h.subscribers
  · simpa using h.waiters

theorem Fed.setSubscriber {x : Subscriber} (h : s.Fed) (hx : x.sub.Fed s.stream.records) :
    (s.setSubscriber j x).Fed := by
  refine ⟨fun y hmem => ?_, h.waiters⟩
  rcases List.mem_or_eq_of_mem_set hmem with hmem | rfl
  · exact h.subscribers y hmem
  · exact hx

theorem Fed.setWaiter {x : Waiter} (h : s.Fed) (hx : x.sub.Fed s.stream.records) :
    (s.setWaiter j x).Fed := by
  refine ⟨h.subscribers, fun y hmem => ?_⟩
  rcases List.mem_or_eq_of_mem_set hmem with hmem | rfl
  · exact h.waiters y hmem
  · exact hx

theorem Fed.delivered (h : s.Fed) {n : Note} (hn : n.Faithful s.stream.records) :
    (s.delivered n).Fed := by
  refine ⟨fun y hmem => ?_, fun y hmem => ?_⟩
  · obtain ⟨x, hx, rfl⟩ := List.mem_map.mp hmem
    split
    · exact h.subscribers x hx
    · exact (h.subscribers x hx).deliver hn
  · obtain ⟨x, hx, rfl⟩ := List.mem_map.mp hmem
    split
    · exact h.waiters x hx
    · exact (h.waiters x hx).deliver hn

theorem Fed.step (h : s.Fed) (ho : s.Ok) (hstep : Fanout.Step s a t) : t.Fed := by
  cases hstep with
  | stream a m notes hchange =>
      have hgrows := (hchange.ok ho.stream).1.records
      exact ⟨fun x hmem => (h.subscribers x hmem).mono hgrows,
        fun x hmem => (h.waiters x hmem).mono hgrows⟩
  | notify i n hn => exact ⟨h.subscribers, h.waiters⟩
  | post i n hn => exact ⟨h.subscribers, h.waiters⟩
  | deliver i n hidle hn =>
      have hsame : ({ s with posted := s.posted.eraseIdx i } : Fanout).Fed :=
        ⟨h.subscribers, h.waiters⟩
      exact hsame.delivered (ho.posted n (List.mem_of_getElem? hn))
  | subscribe offset hidle =>
      refine ⟨fun x hmem => ?_, h.waiters⟩
      rcases List.mem_append.mp hmem with hmem | hmem
      · exact h.subscribers x hmem
      · rw [List.mem_singleton.mp hmem]
        exact .new _
  | wait offset hidle =>
      refine ⟨h.subscribers, fun x hmem => ?_⟩
      rcases List.mem_append.mp hmem with hmem | hmem
      · exact h.waiters x hmem
      · rw [List.mem_singleton.mp hmem]
        exact .new _
  | run j x x' hx hrun =>
      have hmem := List.mem_of_getElem? hx
      exact (h.setSubscriber ((ho.subscribers x hmem).fed (h.subscribers x hmem) hrun)).settle
  | runWait j x x' hx hrun =>
      exact (h.setWaiter (Waiter.fed_of_run (h.waiters x (List.mem_of_getElem? hx)) hrun)).settle
  | read j x hfree hx hpc => exact h.setSubscriber (h.subscribers x (List.mem_of_getElem? hx))
  | readFailed j x hx hpc => exact h.setSubscriber (h.subscribers x (List.mem_of_getElem? hx))
  | leave j x hx =>
      have hset : (s.setSubscriber j { x with pc := .raised }).Fed :=
        h.setSubscriber (h.subscribers x (List.mem_of_getElem? hx))
      exact hset.settle
  | leaveWait j x hx =>
      have hset : (s.setWaiter j { x with pc := .raised }).Fed :=
        h.setWaiter (h.waiters x (List.mem_of_getElem? hx))
      exact hset.settle

/-- In every state of a hub, what holds of the buffers of feeds holds of its buffers. -/
theorem fed (name : Name) (data : Bytes) (closed writable : Bool) (acts : List FanoutAct)
    (s : Fanout) (hrun : Lts.run step (init name data closed writable) acts = some s) : s.Fed := by
  have hinv : s.Ok ∧ s.Fed := Lts.run_invariant (I := fun s : Fanout => s.Ok ∧ s.Fed)
    (fun _ _ _ h hstep => ⟨h.1.step (step_cases hstep), h.2.step h.1 (step_cases hstep)⟩) hrun
    ⟨.init name data closed writable, .init name data closed writable⟩
  exact hinv.2

/-- So no buffer of a hub is larger than the limits, whatever is appended and however
long its task stalls. -/
theorem bounded (name : Name) (data : Bytes) (closed writable : Bool) (acts : List FanoutAct)
    (s : Fanout) (hrun : Lts.run step (init name data closed writable) acts = some s) :
    (∀ x ∈ s.subscribers, x.sub.Bounded) ∧ ∀ x ∈ s.waiters, x.sub.Bounded := by
  have hfed := fed name data closed writable acts s hrun
  have hbounded : ∀ {sub : Sub} {all : List Bytes}, sub.Fed all → sub.Bounded := by
    rintro sub all ⟨acts, hacts⟩
    exact (Lts.run_invariant (fun _ _ _ => Feed.Ok.step) hacts .init).bounded
  exact ⟨fun x hmem => hbounded (hfed.subscribers x hmem),
    fun x hmem => hbounded (hfed.waiters x hmem)⟩

end Fanout

end Durastream
