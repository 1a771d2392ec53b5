import Durastream.Aio.Wakeups

/-!
# A hub and the event loops that use it

`Fanout` has one event loop.  Here the tasks of a hub run on any number of loops, each of
which may be closed at any time with its tasks left where they stand, as when
`asyncio.run` is called again after a run that died.  `join` is given the running loop.
It drops the tasks of a loop that is closed, keeps the listener for the next loop, and
refuses a loop while another one that is still open uses the hub.

One loop runs at a time, one task of it at a time.  `_on_change` runs in the thread that
made the change, and reads `self._loop` before it posts to it: between the two the loop
may be closed and another one may join.

A task that is left on a closed loop never runs again, but it may still be collected, and
then its `finally` leaves the hub.
-/

namespace Durastream

/-- A task of a loop.  `member` says that its view is in `_subs`. -/
structure OnLoop (α : Type) where
  loop : Nat
  member : Bool
  task : α

structure LoopHub where
  stream : LiveStream
  /-- The keys of `_on_change` in `_listeners`. -/
  listeners : List Nat
  /-- The next of `_listener_ids`. -/
  nextId : Nat
  /-- `_lid`. -/
  lid : Option Nat
  /-- `_loop`. -/
  loop : Option Nat
  closedLoops : List Nat
  subscribers : List (OnLoop Subscriber)
  waiters : List (OnLoop Waiter)
  /-- Notes whose `_notify` has not yet looked at the listeners. -/
  changes : List Note
  /-- Notes for which `_on_change` is called. -/
  calls : List Note
  /-- Notes for which it has read `self._loop`. -/
  calling : List (Note × Nat)
  /-- The deliveries posted to each loop. -/
  posted : List (Note × Nat)

inductive LoopAct where
  /-- What threads do with the stream. -/
  | stream (a : FanoutAct)
  /-- Another listener is added to the stream. -/
  | otherListener
  /-- The next steps of note number `i`. -/
  | notify (i : Nat)
  | readLoop (i : Nat)
  | post (i : Nat)
  | deliver (i : Nat)
  | closeLoop (l : Nat)
  | subscribe (l : Nat) (offset : Int)
  | wait (l : Nat) (offset : Int)
  | run (j : Nat)
  | runWait (j : Nat)
  /-- The read in the thread of a subscriber. -/
  | read (j : Nat)
  | readFailed (j : Nat)
  /-- A task is cancelled, its generator closed, or what is left of it collected. -/
  | leave (j : Nat)
  | leaveWait (j : Nat)

/-- What a thread does with a stream that has no hub, and the notes it makes. -/
def LiveStream.act (m : LiveStream) (a : FanoutAct) : Option (LiveStream × List Note) :=
  ((⟨m, false, [], [], [], [], []⟩ : Fanout).step a).map fun s => (s.stream, s.changes)

namespace LoopHub

/-- A handle on a log with these whole frames, and its hub. -/
def init (name : Name) (data : Bytes) (closed writable : Bool) : LoopHub :=
  ⟨(Fanout.init name data closed writable).stream, [], 1, none, none, [], [], [], [], [], [], []⟩

/-- `loop.is_closed()`. -/
def isClosed (s : LoopHub) (l : Nat) : Bool := s.closedLoops.contains l

/-- No task is running. -/
def idle (s : LoopHub) : Bool :=
  s.subscribers.all (fun x => x.task.suspended) && s.waiters.all fun x => x.task.suspended

/-- `_subs` has a view. -/
def used (s : LoopHub) : Bool :=
  s.subscribers.any OnLoop.member || s.waiters.any OnLoop.member

/-- `self._subs.clear()`. -/
def clear (s : LoopHub) : LoopHub :=
  { s with
    subscribers := s.subscribers.map fun x => { x with member := false }
    waiters := s.waiters.map fun x => { x with member := false } }

/-- `join` from loop `l`, up to the new view; `none` where it raises. -/
def join (s : LoopHub) (l : Nat) : Option LoopHub :=
  let s := if s.loop.any s.isClosed then { s.clear with loop := some l } else s
  match s.lid with
  | none =>
      some { s with
        loop := some l
        lid := some s.nextId
        listeners := s.listeners ++ [s.nextId]
        nextId := s.nextId + 1 }
  | some _ => if s.loop = some l then some s else none

/-- The last one to leave takes the listener away. -/
def settle (s : LoopHub) : LoopHub :=
  match s.lid with
  | some lid =>
      if s.used then s
      else { s with listeners := s.listeners.filter (· ≠ lid), lid := none, loop := none }
  | none => s

def setSubscriber (s : LoopHub) (j : Nat) (x : OnLoop Subscriber) : LoopHub :=
  { s with subscribers := s.subscribers.set j x }

def setWaiter (s : LoopHub) (j : Nat) (x : OnLoop Waiter) : LoopHub :=
  { s with waiters := s.waiters.set j x }

/-- `_deliver`. -/
def delivered (s : LoopHub) (n : Note) : LoopHub :=
  { s with
    subscribers := s.subscribers.map fun x =>
      if x.member then
        { x with task := { x.task with sub := x.task.sub.deliver n.start n.records } }
      else x
    waiters := s.waiters.map fun x =>
      if x.member then
        { x with task := { x.task with sub := x.task.sub.deliver n.start n.records } }
      else x }

/-- A subscriber goes on, and leaves the hub when it ends. -/
def goOn (s : LoopHub) (j : Nat) (x : OnLoop Subscriber) (task : Subscriber) : LoopHub :=
  if task.left then (s.setSubscriber j { x with member := false, task := task }).settle
  else s.setSubscriber j { x with task := task }

def goOnWait (s : LoopHub) (j : Nat) (x : OnLoop Waiter) (task : Waiter) : LoopHub :=
  if task.left then (s.setWaiter j { x with member := false, task := task }).settle
  else s.setWaiter j { x with task := task }

/-- A subscriber whose loop is open. -/
def subscriber (s : LoopHub) (j : Nat) : Option (OnLoop Subscriber) :=
  (s.subscribers[j]?).filter fun x => !s.isClosed x.loop

def waiter (s : LoopHub) (j : Nat) : Option (OnLoop Waiter) :=
  (s.waiters[j]?).filter fun x => !s.isClosed x.loop

def step (s : LoopHub) : LoopAct → Option LoopHub
  | .stream a =>
      (s.stream.act a).map fun (m, notes) => { s with stream := m, changes := s.changes ++ notes }
  | .otherListener => some { s with nextId := s.nextId + 1 }
  | .notify i =>
      (s.changes[i]?).map fun n =>
        { s with changes := s.changes.eraseIdx i, calls := s.calls ++ s.listeners.map fun _ => n }
  | .readLoop i =>
      (s.calls[i]?).map fun n =>
        { s with
          calls := s.calls.eraseIdx i
          calling := match s.loop with
            | some l => s.calling ++ [(n, l)]
            | none => s.calling }
  | .post i =>
      (s.calling[i]?).map fun (n, l) =>
        { s with
          calling := s.calling.eraseIdx i
          posted := if s.isClosed l then s.posted else s.posted ++ [(n, l)] }
  | .deliver i =>
      match s.posted[i]? with
      | some (n, l) =>
          if s.idle && !s.isClosed l then
            some (({ s with posted := s.posted.eraseIdx i } : LoopHub).delivered n)
          else none
      | none => none
  | .closeLoop l => if s.idle then some { s with closedLoops := l :: s.closedLoops } else none
  | .subscribe l offset =>
      if s.idle && !s.isClosed l then
        match s.join l with
        | some s => some { s with subscribers := s.subscribers ++ [⟨l, true, .new offset⟩] }
        | none => some s
      else none
  | .wait l offset =>
      if s.idle && !s.isClosed l then
        match s.join l with
        | some s => some { s with waiters := s.waiters ++ [⟨l, true, .new offset⟩] }
        | none => some s
      else none
  | .run j =>
      match s.subscriber j with
      | some x =>
          if !x.task.suspended || s.idle then (x.task.run s.stream).map (s.goOn j x) else none
      | none => none
  | .runWait j =>
      match s.waiter j with
      | some x =>
          if !x.task.suspended || s.idle then (x.task.run s.stream).map (s.goOnWait j x) else none
      | none => none
  | .read j =>
      match s.subscriber j with
      | some x =>
          match x.task.pc with
          | .reading =>
              let m := s.stream
              if m.adding.isNone then
                let r := Durastream.read m.name m.isOpen m.data m.index x.task.pos none
                some (s.setSubscriber j { x with task := { x.task with pc := .fetched r } })
              else none
          | _ => none
      | none => none
  | .readFailed j =>
      match s.subscriber j with
      | some x =>
          match x.task.pc with
          | .reading =>
              some (s.setSubscriber j
                { x with task := { x.task with pc := .fetched (.error .osError) } })
          | _ => none
      | none => none
  | .leave j =>
      match s.subscribers[j]? with
      | some x =>
          if s.idle && !x.task.left then some (s.goOn j x { x.task with pc := .raised }) else none
      | none => none
  | .leaveWait j =>
      match s.waiters[j]? with
      | some x =>
          if s.idle && !x.task.left then some (s.goOnWait j x { x.task with pc := .raised })
          else none
      | none => none

/-! ## What a step can do -/

inductive Step (s : LoopHub) : LoopHub → Prop where
  | stream (a : FanoutAct) (m : LiveStream) (notes : List Note) :
      s.stream.Change a m notes → Step s { s with stream := m, changes := s.changes ++ notes }
  | quiet : Step s s
  | otherListener : Step s { s with nextId := s.nextId + 1 }
  | notify (i : Nat) (n : Note) :
      s.changes[i]? = some n →
      Step s { s with
        changes := s.changes.eraseIdx i, calls := s.calls ++ s.listeners.map fun _ => n }
  | readLoop (i : Nat) (n : Note) :
      s.calls[i]? = some n →
      Step s { s with
        calls := s.calls.eraseIdx i
        calling := match s.loop with
          | some l => s.calling ++ [(n, l)]
          | none => s.calling }
  | post (i : Nat) (n : Note) (l : Nat) :
      s.calling[i]? = some (n, l) →
      Step s { s with
        calling := s.calling.eraseIdx i
        posted := if s.isClosed l then s.posted else s.posted ++ [(n, l)] }
  | deliver (i : Nat) (n : Note) (l : Nat) :
      s.idle = true → s.posted[i]? = some (n, l) →
      Step s (({ s with posted := s.posted.eraseIdx i } : LoopHub).delivered n)
  | closeLoop (l : Nat) : Step s { s with closedLoops := l :: s.closedLoops }
  | subscribe (l : Nat) (offset : Int) (s' : LoopHub) :
      s.isClosed l = false → s.join l = some s' →
      Step s { s' with subscribers := s'.subscribers ++ [⟨l, true, .new offset⟩] }
  | wait (l : Nat) (offset : Int) (s' : LoopHub) :
      s.isClosed l = false → s.join l = some s' →
      Step s { s' with waiters := s'.waiters ++ [⟨l, true, .new offset⟩] }
  | run (j : Nat) (x : OnLoop Subscriber) (task : Subscriber) :
      s.subscribers[j]? = some x → s.isClosed x.loop = false → x.task.run s.stream = some task →
      Step s (s.goOn j x task)
  | runWait (j : Nat) (x : OnLoop Waiter) (task : Waiter) :
      s.waiters[j]? = some x → s.isClosed x.loop = false → x.task.run s.stream = some task →
      Step s (s.goOnWait j x task)
  | fetched (j : Nat) (x : OnLoop Subscriber) (r : Except Error (List Bytes)) :
      s.subscribers[j]? = some x → x.task.pc = .reading →
      (∀ batch, r = .ok batch → s.stream.adding = none ∧ Durastream.read s.stream.name
        s.stream.isOpen s.stream.data s.stream.index x.task.pos none = .ok batch) →
      Step s (s.setSubscriber j { x with task := { x.task with pc := .fetched r } })
  | leave (j : Nat) (x : OnLoop Subscriber) :
      s.subscribers[j]? = some x → x.task.left = false →
      Step s (s.goOn j x { x.task with pc := .raised })
  | leaveWait (j : Nat) (x : OnLoop Waiter) :
      s.waiters[j]? = some x → x.task.left = false →
      Step s (s.goOnWait j x { x.task with pc := .raised })

end LoopHub

/-- A task that has left does not run. -/
theorem Subscriber.there_of_run {x x' : Subscriber} {m : LiveStream} (h : x.run m = some x') :
    x.left = false := by
  cases hpc : x.pc with
  | returned => simp [Subscriber.run, hpc] at h
  | raised => simp [Subscriber.run, hpc] at h
  | _ => simp [Subscriber.left, hpc]

theorem Waiter.there_of_run {x x' : Waiter} {m : LiveStream} (h : x.run m = some x') :
    x.left = false := by
  cases hpc : x.pc with
  | returned b => simp [Waiter.run, hpc] at h
  | raised => simp [Waiter.run, hpc] at h
  | _ => simp [Waiter.left, hpc]

/-- A stream without a hub has changes and nothing else. -/
theorem LiveStream.act_cases {m m' : LiveStream} {a : FanoutAct} {notes : List Note}
    (h : m.act a = some (m', notes)) : m' = m ∧ notes = [] ∨ m.Change a m' notes := by
  obtain ⟨t, hstep, heq⟩ := Option.map_eq_some_iff.mp h
  obtain ⟨rfl, rfl⟩ := Prod.mk.inj heq
  cases Fanout.step_cases hstep with
  | stream a m' notes hchange => exact .inr hchange
  | notify i n hn => simp at hn
  | post i n hn => simp at hn
  | deliver i n hidle hn => simp at hn
  | subscribe offset hidle => exact .inl ⟨rfl, rfl⟩
  | wait offset hidle => exact .inl ⟨rfl, rfl⟩
  | run j x x' hx hrun => simp at hx
  | runWait j x x' hx hrun => simp at hx
  | read j x hfree hx hpc => simp at hx
  | readFailed j x hx hpc => simp at hx
  | leave j x hx => simp at hx
  | leaveWait j x hx => simp at hx

namespace LoopHub

variable {s t : LoopHub} {a : LoopAct} {j l : Nat}

theorem subscriber_eq_some {x : OnLoop Subscriber} (h : s.subscriber j = some x) :
    s.subscribers[j]? = some x ∧ s.isClosed x.loop = false := by
  obtain ⟨hx, hopen⟩ := Option.filter_eq_some_iff.mp h
  exact ⟨hx, by simpa using hopen⟩

theorem waiter_eq_some {x : OnLoop Waiter} (h : s.waiter j = some x) :
    s.waiters[j]? = some x ∧ s.isClosed x.loop = false := by
  obtain ⟨hx, hopen⟩ := Option.filter_eq_some_iff.mp h
  exact ⟨hx, by simpa using hopen⟩

theorem step_cases (h : s.step a = some t) : Step s t := by
  cases a with
  | stream a =>
      obtain ⟨⟨m, notes⟩, hact, rfl⟩ := Option.map_eq_some_iff.mp h
      rcases LiveStream.act_cases hact with ⟨rfl, rfl⟩ | hchange
      · show Step s { s with changes := s.changes ++ [] }
        rw [List.append_nil]
        exact .quiet
      · exact .stream a m notes hchange
  | otherListener =>
      cases h
      exact .otherListener
  | notify i =>
      obtain ⟨n, hn, rfl⟩ := Option.map_eq_some_iff.mp h
      exact .notify i n hn
  | readLoop i =>
      obtain ⟨n, hn, rfl⟩ := Option.map_eq_some_iff.mp h
      exact .readLoop i n hn
  | post i =>
      obtain ⟨⟨n, l⟩, hn, rfl⟩ := Option.map_eq_some_iff.mp h
      exact .post i n l hn
  | deliver i =>
      simp only [step] at h
      split at h
      · next n l hn =>
          split at h
          · next hidle =>
              cases h
              exact .deliver i n l (Bool.and_eq_true_iff.mp hidle).1 hn
          · cases h
      · cases h
  | closeLoop l =>
      simp only [step] at h
      split at h
      · cases h
        exact .closeLoop l
      · cases h
  | subscribe l offset =>
      simp only [step] at h
      split at h
      · next hopen =>
          have hopen := (Bool.and_eq_true_iff.mp hopen).2
          split at h
          · next s' hjoin =>
              cases h
              exact .subscribe l offset s' (by simpa using hopen) hjoin
          · cases h
            exact .quiet
      · cases h
  | wait l offset =>
      simp only [step] at h
      split at h
      · next hopen =>
          have hopen := (Bool.and_eq_true_iff.mp hopen).2
          split at h
          · next s' hjoin =>
              cases h
              exact .wait l offset s' (by simpa using hopen) hjoin
          · cases h
            exact .quiet
      · cases h
  | run j =>
      simp only [step] at h
      split at h
      · next x hx =>
          obtain ⟨hx, hopen⟩ := subscriber_eq_some hx
          split at h
          · obtain ⟨task, hrun, rfl⟩ := Option.map_eq_some_iff.mp h
            exact .run j x task hx hopen hrun
          · cases h
      · cases h
  | runWait j =>
      simp only [step] at h
      split at h
      · next x hx =>
          obtain ⟨hx, hopen⟩ := waiter_eq_some hx
          split at h
          · obtain ⟨task, hrun, rfl⟩ := Option.map_eq_some_iff.mp h
            exact .runWait j x task hx hopen hrun
          · cases h
      · cases h
  | read j =>
      simp only [step] at h
      split at h
      · next x hx =>
          obtain ⟨hx, -⟩ := subscriber_eq_some hx
          split at h
          · next hpc =>
              split at h
              · next hfree =>
                  cases h
                  exact .fetched j x _ hx hpc fun batch hread =>
                    ⟨Option.isNone_iff_eq_none.mp hfree, hread⟩
              · cases h
          · cases h
      · cases h
  | readFailed j =>
      simp only [step] at h
      split at h
      · next x hx =>
          obtain ⟨hx, -⟩ := subscriber_eq_some hx
          split at h
          · next hpc =>
              cases h
              exact .fetched j x _ hx hpc fun batch heq => (by cases heq)
          · cases h
      · cases h
  | leave j =>
      simp only [step] at h
      split at h
      · next x hx =>
          split at h
          · next hthere =>
              have hthere := (Bool.and_eq_true_iff.mp hthere).2
              cases h
              exact .leave j x hx (by simpa using hthere)
          · cases h
      · cases h
  | leaveWait j =>
      simp only [step] at h
      split at h
      · next x hx =>
          split at h
          · next hthere =>
              have hthere := (Bool.and_eq_true_iff.mp hthere).2
              cases h
              exact .leaveWait j x hx (by simpa using hthere)
          · cases h
      · cases h

/-! ## What the tasks yield -/

/-- The hub with its loops taken for one. -/
def flat (s : LoopHub) : Fanout :=
  ⟨s.stream, true, s.subscribers.map OnLoop.task, s.waiters.map OnLoop.task, s.changes,
    s.calls ++ s.calling.map Prod.fst, s.posted.map Prod.fst⟩

theorem flat_settle (s : LoopHub) : s.settle.flat = s.flat := by
  unfold settle
  split
  · split <;> rfl
  · rfl

theorem flat_clear (s : LoopHub) : s.clear.flat = s.flat := by
  simp [flat, clear, List.map_map, Function.comp_def]

/-- What `join` does: it first drops the tasks of a closed loop, and then adds the listener
or finds it there. -/
theorem join_cases {s' : LoopHub} (h : s.join l = some s') :
    ∃ base : LoopHub,
      (s.loop.any s.isClosed = false ∧ base = s ∨
        s.loop.any s.isClosed = true ∧ base = { s.clear with loop := some l }) ∧
      (s.lid = none ∧ s' = { base with
          loop := some l
          lid := some base.nextId
          listeners := base.listeners ++ [base.nextId]
          nextId := base.nextId + 1 } ∨
        s.lid ≠ none ∧ base.loop = some l ∧ s' = base) := by
  obtain ⟨base, hbase, hlid, hcases⟩ : ∃ base : LoopHub,
      base = (if s.loop.any s.isClosed then { s.clear with loop := some l } else s) ∧
      base.lid = s.lid ∧
      (s.loop.any s.isClosed = false ∧ base = s ∨
        s.loop.any s.isClosed = true ∧ base = { s.clear with loop := some l }) := by
    cases hany : s.loop.any s.isClosed with
    | false => exact ⟨s, rfl, rfl, .inl ⟨rfl, rfl⟩⟩
    | true => exact ⟨{ s.clear with loop := some l }, rfl, rfl, .inr ⟨rfl, rfl⟩⟩
  refine ⟨base, hcases, ?_⟩
  rw [join, ← hbase, hlid] at h
  cases hold : s.lid with
  | none =>
      rw [hold] at h
      cases h
      exact .inl ⟨rfl, rfl⟩
  | some lid =>
      rw [hold] at h
      dsimp only at h
      split at h
      · next hloop =>
          cases h
          exact .inr ⟨by simp, hloop, rfl⟩
      · cases h

theorem flat_join {s' : LoopHub} (h : s.join l = some s') : s'.flat = s.flat := by
  obtain ⟨base, hbase, hs'⟩ := join_cases h
  have hflat : base.flat = s.flat := by
    rcases hbase with ⟨-, rfl⟩ | ⟨-, rfl⟩
    · rfl
    · exact flat_clear s
  rcases hs' with ⟨-, rfl⟩ | ⟨-, -, rfl⟩
  · exact hflat
  · exact hflat

theorem flat_goOn (s : LoopHub) (j : Nat) (x : OnLoop Subscriber) (task : Subscriber) :
    (s.goOn j x task).flat = s.flat.setSubscriber j task := by
  unfold goOn
  split
  · rw [flat_settle]
    simp [flat, setSubscriber, Fanout.setSubscriber, List.map_set]
  · simp [flat, setSubscriber, Fanout.setSubscriber, List.map_set]

theorem flat_goOnWait (s : LoopHub) (j : Nat) (x : OnLoop Waiter) (task : Waiter) :
    (s.goOnWait j x task).flat = s.flat.setWaiter j task := by
  unfold goOnWait
  split
  · rw [flat_settle]
    simp [flat, setWaiter, Fanout.setWaiter, List.map_set]
  · simp [flat, setWaiter, Fanout.setWaiter, List.map_set]

/-- What a task of any loop has yielded is right, and every note tells of records that are
there. -/
def Ok (s : LoopHub) : Prop := s.flat.Ok

namespace Ok

theorem init (name : Name) (data : Bytes) (closed writable : Bool) :
    (LoopHub.init name data closed writable).Ok := by
  have h := Fanout.Ok.init name data closed writable
  exact ⟨h.stream, h.changes, h.calls, h.posted, h.subscribers⟩

theorem exact (h : s.Ok) {x : OnLoop Subscriber} (hx : s.subscribers[j]? = some x) :
    x.task.Exact s.stream :=
  h.subscribers x.task (List.mem_map_of_mem (List.mem_of_getElem? hx))

theorem step (h : s.Ok) (hstep : Step s t) : t.Ok := by
  cases hstep with
  | quiet => exact h
  | otherListener => exact h
  | closeLoop l => exact h
  | stream a m notes hchange =>
      obtain ⟨hgrows, hok, hnotes⟩ := hchange.ok h.stream
      exact h.lift hgrows hok (fun n hmem => (List.mem_append.mp hmem).imp_right (hnotes n))
        (fun _ hmem => .inl hmem) (fun _ hmem => .inl hmem) fun _ hmem => .inl hmem
  | notify i n hn =>
      refine h.lift (.refl _) h.stream (fun _ hmem => .inl (List.mem_of_mem_eraseIdx hmem))
        (fun n' hmem => ?_) (fun _ hmem => .inl hmem) fun _ hmem => .inl hmem
      rcases List.mem_append.mp hmem with hmem | hmem
      · rcases List.mem_append.mp hmem with hmem | hmem
        · exact .inl (List.mem_append_left _ hmem)
        · obtain ⟨-, -, rfl⟩ := List.mem_map.mp hmem
          exact .inr (List.mem_of_getElem? hn)
      · exact .inl (List.mem_append_right _ hmem)
  | readLoop i n hn =>
      refine h.lift (.refl _) h.stream (fun _ hmem => .inl hmem) (fun n' hmem => .inl ?_)
        (fun _ hmem => .inl hmem) fun _ hmem => .inl hmem
      rcases List.mem_append.mp hmem with hmem | hmem
      · exact List.mem_append_left _ (List.mem_of_mem_eraseIdx hmem)
      · obtain ⟨y, hy, rfl⟩ := List.mem_map.mp hmem
        dsimp only at hy
        split at hy
        · rcases List.mem_append.mp hy with hy | hy
          · exact List.mem_append_right _ (List.mem_map_of_mem hy)
          · rw [List.mem_singleton.mp hy]
            exact List.mem_append_left _ (List.mem_of_getElem? hn)
        · exact List.mem_append_right _ (List.mem_map_of_mem hy)
  | post i n l hn =>
      refine h.lift (.refl _) h.stream (fun _ hmem => .inl hmem) (fun n' hmem => .inl ?_)
        (fun n' hmem => ?_) fun _ hmem => .inl hmem
      · rcases List.mem_append.mp hmem with hmem | hmem
        · exact List.mem_append_left _ hmem
        · obtain ⟨y, hy, rfl⟩ := List.mem_map.mp hmem
          exact List.mem_append_right _ (List.mem_map_of_mem (List.mem_of_mem_eraseIdx hy))
      · obtain ⟨y, hy, rfl⟩ := List.mem_map.mp hmem
        dsimp only at hy
        split at hy
        · exact .inl (List.mem_map_of_mem hy)
        · rcases List.mem_append.mp hy with hy | hy
          · exact .inl (List.mem_map_of_mem hy)
          · rw [List.mem_singleton.mp hy]
            have hmem := List.mem_map_of_mem (f := Prod.fst) (List.mem_of_getElem? hn)
            exact .inr (List.mem_append_right _ hmem)
  | deliver i n l hidle hn =>
      have hnote : n.Faithful s.stream.records :=
        h.posted n (List.mem_map_of_mem (List.mem_of_getElem? hn))
      refine h.lift (.refl _) h.stream (fun _ hmem => .inl hmem) (fun _ hmem => .inl hmem)
        (fun n' hmem => .inl ?_) fun task hmem => ?_
      · obtain ⟨y, hy, rfl⟩ := List.mem_map.mp hmem
        exact List.mem_map_of_mem (List.mem_of_mem_eraseIdx hy)
      · obtain ⟨y, hy, rfl⟩ := List.mem_map.mp hmem
        obtain ⟨x, hx, rfl⟩ := List.mem_map.mp hy
        split
        · have hsuspended : x.task.suspended = true :=
            List.all_eq_true.mp (Bool.and_eq_true_iff.mp hidle).1 x hx
          exact .inr ((h.subscribers x.task (List.mem_map_of_mem hx)).deliver hsuspended hnote)
        · exact .inl (List.mem_map_of_mem hx)
  | subscribe l offset s' hopen hjoin =>
      have hsame : s'.Ok := by
        rw [Ok, flat_join hjoin]
        exact h
      refine hsame.lift (.refl _) hsame.stream (fun _ hmem => .inl hmem) (fun _ hmem => .inl hmem)
        (fun _ hmem => .inl hmem) fun task hmem => ?_
      rw [flat, List.map_append] at hmem
      rcases List.mem_append.mp hmem with hmem | hmem
      · exact .inl hmem
      · rw [List.mem_singleton.mp hmem]
        exact .inr (.new offset _)
  | wait l offset s' hopen hjoin =>
      have hsame : s'.Ok := by
        rw [Ok, flat_join hjoin]
        exact h
      exact ⟨hsame.stream, hsame.changes, hsame.calls, hsame.posted, hsame.subscribers⟩
  | run j x task hx hopen hrun =>
      rw [Ok, flat_goOn]
      exact h.setSubscriber ((h.exact hx).run h.stream hrun)
  | runWait j x task hx hopen hrun =>
      rw [Ok, flat_goOnWait]
      exact ⟨h.stream, h.changes, h.calls, h.posted, h.subscribers⟩
  | fetched j x r hx hpc hr =>
      have hset : (s.setSubscriber j { x with task := { x.task with pc := .fetched r } }).flat =
          s.flat.setSubscriber j { x.task with pc := .fetched r } := by
        simp [flat, setSubscriber, Fanout.setSubscriber, List.map_set]
      rw [Ok, hset]
      refine h.setSubscriber ((h.exact hx).fetch hpc fun batch heq => ?_)
      obtain ⟨hfree, hread⟩ := hr batch heq
      exact h.stream.read hfree hread
  | leave j x hx hthere =>
      rw [Ok, flat_goOn]
      exact h.setSubscriber (.of_raised rfl (h.exact hx).out (h.exact hx).sub)
  | leaveWait j x hx hthere =>
      rw [Ok, flat_goOnWait]
      exact ⟨h.stream, h.changes, h.calls, h.posted, h.subscribers⟩

end Ok

/-! ## Who is in the hub -/

section Members

variable {α : Type} {xs : List (OnLoop α)} {x : OnLoop α} {task : α}

/-- A task that goes on stays where it is. -/
theorem any_member_set (hx : xs[j]? = some x) :
    (xs.set j { x with task := task }).any OnLoop.member = xs.any OnLoop.member := by
  have hmap : (xs.set j { x with task := task }).map OnLoop.member = xs.map OnLoop.member := by
    obtain ⟨hlt, rfl⟩ := List.getElem?_eq_some_iff.mp hx
    apply List.ext_getElem
    · simp
    · intro i hi hi'
      rw [List.getElem_map, List.getElem_map, List.getElem_set]
      split
      · next heq => simp [heq]
      · rfl
  have h := congrArg (List.any · id) hmap
  rw [List.any_map, List.any_map] at h
  exact h

/-- No task comes in where one goes. -/
theorem any_member_of_set (h : (xs.set j { x with member := false, task := task }).any
    OnLoop.member = true) : xs.any OnLoop.member = true := by
  obtain ⟨y, hmem, hy⟩ := List.any_eq_true.mp h
  rcases List.mem_or_eq_of_mem_set hmem with hmem | rfl
  · exact List.any_eq_true.mpr ⟨y, hmem, hy⟩
  · cases hy

end Members

/-- What the place of a task in the hub says of its loop.  Only tasks of one loop are in the
hub, and all tasks of an open loop that have not left are. -/
structure Placed (s : LoopHub) (l : Nat) (here gone : Bool) : Prop where
  inside : here = true → gone = false ∧ s.loop = some l
  there : gone = false → s.isClosed l = false → here = true

/-- The hub has one listener, as long as a task is in it. -/
structure Joined (s : LoopHub) : Prop where
  listeners : s.listeners = s.lid.toList
  loop : s.loop.isSome = s.lid.isSome
  used : s.used = s.lid.isSome
  subscribers : ∀ x ∈ s.subscribers, s.Placed x.loop x.member x.task.left
  waiters : ∀ x ∈ s.waiters, s.Placed x.loop x.member x.task.left

namespace Placed

variable {here gone : Bool}

/-- A task that has left. -/
theorem left (h : gone = true) : s.Placed l false gone := by
  refine ⟨fun hin => (by cases hin), fun hthere => ?_⟩
  rw [h] at hthere
  cases hthere

/-- A task outside the hub stays where it is. -/
theorem outside (h : s.Placed l false gone) (hclosed : s.closedLoops ⊆ t.closedLoops) :
    t.Placed l false gone := by
  refine ⟨fun hin => (by cases hin), fun hthere hopen => h.there hthere ?_⟩
  rw [isClosed, List.contains_eq_mem, decide_eq_false_iff_not] at hopen ⊢
  exact fun hmem => hopen (hclosed hmem)

/-- The hub and the loops are as before, or more loops are closed. -/
theorem congr (h : s.Placed l here gone) (hloop : t.loop = s.loop)
    (hclosed : s.closedLoops ⊆ t.closedLoops) : t.Placed l here gone := by
  refine ⟨fun hin => hloop ▸ h.inside hin, fun hthere hopen => h.there hthere ?_⟩
  rw [isClosed, List.contains_eq_mem, decide_eq_false_iff_not] at hopen ⊢
  exact fun hmem => hopen (hclosed hmem)

end Placed

namespace Joined

/-- Nobody is in the hub. -/
theorem outside_of_unused (h : s.used = false) :
    (∀ x ∈ s.subscribers, x.member = false) ∧ ∀ x ∈ s.waiters, x.member = false := by
  obtain ⟨hsubscribers, hwaiters⟩ := Bool.or_eq_false_iff.mp h
  refine ⟨fun x hmem => ?_, fun x hmem => ?_⟩
  · exact Bool.eq_false_iff.mpr (List.any_eq_false.mp hsubscribers x hmem)
  · exact Bool.eq_false_iff.mpr (List.any_eq_false.mp hwaiters x hmem)

/-- The last one to leave. -/
theorem settle (hlisteners : s.listeners = s.lid.toList) (hloop : s.loop.isSome = s.lid.isSome)
    (hused : s.used = true → s.lid.isSome = true)
    (hsubscribers : ∀ x ∈ s.subscribers, s.Placed x.loop x.member x.task.left)
    (hwaiters : ∀ x ∈ s.waiters, s.Placed x.loop x.member x.task.left) : s.settle.Joined := by
  unfold LoopHub.settle
  split
  · next lid hlid =>
      split
      · next hin => exact ⟨hlisteners, hloop, by rw [hin, hlid]; rfl, hsubscribers, hwaiters⟩
      · next hout =>
          have hnone : s.used = false := Bool.eq_false_iff.mpr hout
          obtain ⟨hsubs, hwaits⟩ := outside_of_unused hnone
          refine ⟨by simp [hlisteners, hlid], rfl, hnone, fun x hmem => ⟨fun hm => ?_, ?_⟩,
            fun x hmem => ⟨fun hm => ?_, ?_⟩⟩
          · rw [hsubs x hmem] at hm
            cases hm
          · exact (hsubscribers x hmem).there
          · rw [hwaits x hmem] at hm
            cases hm
          · exact (hwaiters x hmem).there
  · next hlid =>
      refine ⟨hlisteners, hloop, ?_, hsubscribers, hwaiters⟩
      rw [hlid, Option.isSome_none, Bool.eq_false_iff]
      intro hin
      have hsome := hused hin
      rw [hlid] at hsome
      cases hsome

/-- A subscriber goes on. -/
theorem goOn (h : s.Joined) {x : OnLoop Subscriber} (hx : s.subscribers[j]? = some x)
    (hthere : x.task.left = false) (task : Subscriber) : (s.goOn j x task).Joined := by
  have hplaced := h.subscribers x (List.mem_of_getElem? hx)
  unfold LoopHub.goOn
  split
  · next hleft =>
      refine settle h.listeners h.loop (fun hin => ?_) (fun y hmem => ?_)
        fun y hmem => (h.waiters y hmem).congr rfl (List.Subset.refl _)
      · exact h.used ▸ Bool.or_eq_true_iff.mpr
          ((Bool.or_eq_true_iff.mp hin).imp_left any_member_of_set)
      · rcases List.mem_or_eq_of_mem_set hmem with hmem | rfl
        · exact (h.subscribers y hmem).congr rfl (List.Subset.refl _)
        · exact .left hleft
  · next hleft =>
      refine ⟨h.listeners, h.loop, ?_, fun y hmem => ?_,
        fun y hmem => (h.waiters y hmem).congr rfl (List.Subset.refl _)⟩
      · exact (congrArg (· || _) (any_member_set hx)).trans h.used
      · rcases List.mem_or_eq_of_mem_set hmem with hmem | rfl
        · exact (h.subscribers y hmem).congr rfl (List.Subset.refl _)
        · rw [hthere, ← Bool.eq_false_iff.mpr hleft] at hplaced
          exact hplaced.congr rfl (List.Subset.refl _)

theorem goOnWait (h : s.Joined) {x : OnLoop Waiter} (hx : s.waiters[j]? = some x)
    (hthere : x.task.left = false) (task : Waiter) : (s.goOnWait j x task).Joined := by
  have hplaced := h.waiters x (List.mem_of_getElem? hx)
  unfold LoopHub.goOnWait
  split
  · next hleft =>
      refine settle h.listeners h.loop (fun hin => ?_)
        (fun y hmem => (h.subscribers y hmem).congr rfl (List.Subset.refl _)) fun y hmem => ?_
      · exact h.used ▸ Bool.or_eq_true_iff.mpr
          ((Bool.or_eq_true_iff.mp hin).imp_right any_member_of_set)
      · rcases List.mem_or_eq_of_mem_set hmem with hmem | rfl
        · exact (h.waiters y hmem).congr rfl (List.Subset.refl _)
        · exact .left hleft
  · next hleft =>
      refine ⟨h.listeners, h.loop, ?_,
        fun y hmem => (h.subscribers y hmem).congr rfl (List.Subset.refl _), fun y hmem => ?_⟩
      · exact (congrArg (_ || ·) (any_member_set hx)).trans h.used
      · rcases List.mem_or_eq_of_mem_set hmem with hmem | rfl
        · exact (h.waiters y hmem).congr rfl (List.Subset.refl _)
        · rw [hthere, ← Bool.eq_false_iff.mpr hleft] at hplaced
          exact hplaced.congr rfl (List.Subset.refl _)

/-- The views of the tasks alone have changed. -/
theorem of_eq (h : s.Joined) (hlisteners : t.listeners = s.listeners) (hlid : t.lid = s.lid)
    (hloop : t.loop = s.loop) (hclosed : s.closedLoops ⊆ t.closedLoops)
    (hsubscribers : t.subscribers.map (fun x => (x.loop, x.member, x.task.left)) =
      s.subscribers.map fun x => (x.loop, x.member, x.task.left))
    (hwaiters : t.waiters.map (fun x => (x.loop, x.member, x.task.left)) =
      s.waiters.map fun x => (x.loop, x.member, x.task.left)) : t.Joined := by
  have hany : t.used = s.used := by
    have hsubs := congrArg (List.any · fun x => x.2.1) hsubscribers
    have hwaits := congrArg (List.any · fun x => x.2.1) hwaiters
    simp only [List.any_map, Function.comp_def] at hsubs hwaits
    show (_ || _) = (_ || _)
    rw [hsubs, hwaits]
  refine ⟨by rw [hlisteners, hlid, h.listeners], by rw [hloop, hlid, h.loop],
    by rw [hany, hlid, h.used], fun x hmem => ?_, fun x hmem => ?_⟩
  · have hview := List.mem_map_of_mem (f := fun x => (x.loop, x.member, x.task.left)) hmem
    rw [hsubscribers] at hview
    obtain ⟨y, hy, heq⟩ := List.mem_map.mp hview
    simp only [Prod.mk.injEq] at heq
    obtain ⟨hl, hm, hleft⟩ := heq
    exact hl ▸ hm ▸ hleft ▸ (h.subscribers y hy).congr hloop hclosed
  · have hview := List.mem_map_of_mem (f := fun x => (x.loop, x.member, x.task.left)) hmem
    rw [hwaiters] at hview
    obtain ⟨y, hy, heq⟩ := List.mem_map.mp hview
    simp only [Prod.mk.injEq] at heq
    obtain ⟨hl, hm, hleft⟩ := heq
    exact hl ▸ hm ▸ hleft ▸ (h.waiters y hy).congr hloop hclosed

/-- No task that could still run is dropped with a closed loop. -/
theorem dropped (h : s.Placed l here gone) (hclosed : s.loop.any s.isClosed = true) :
    s.Placed l false gone := by
  refine ⟨fun hin => (by cases hin), fun hthere hopen => ?_⟩
  obtain ⟨-, hloop⟩ := h.inside (h.there hthere hopen)
  rw [hloop] at hclosed
  exact absurd hclosed (by simp [hopen])

/-- After `join` the hub listens for loop `l`. -/
theorem join (h : s.Joined) {s' : LoopHub} (hjoin : s.join l = some s') :
    s'.loop = some l ∧ s'.lid.isSome = true ∧ s'.listeners = s'.lid.toList ∧
      (∀ x ∈ s'.subscribers, s'.Placed x.loop x.member x.task.left) ∧
      ∀ x ∈ s'.waiters, s'.Placed x.loop x.member x.task.left := by
  obtain ⟨base, hbase, hs'⟩ := join_cases hjoin
  have hlisteners : base.listeners = s.lid.toList := by
    rcases hbase with ⟨-, rfl⟩ | ⟨-, rfl⟩ <;> exact h.listeners
  have hlid : base.lid = s.lid := by
    rcases hbase with ⟨-, rfl⟩ | ⟨-, rfl⟩ <;> rfl
  have hplaced : (∀ x ∈ base.subscribers, base.Placed x.loop x.member x.task.left) ∧
      ∀ x ∈ base.waiters, base.Placed x.loop x.member x.task.left := by
    rcases hbase with ⟨-, rfl⟩ | ⟨hclosed, rfl⟩
    · exact ⟨h.subscribers, h.waiters⟩
    · refine ⟨fun y hmem => ?_, fun y hmem => ?_⟩
      · obtain ⟨x, hx, rfl⟩ := List.mem_map.mp hmem
        exact (dropped (h.subscribers x hx) hclosed).outside (List.Subset.refl _)
      · obtain ⟨x, hx, rfl⟩ := List.mem_map.mp hmem
        exact (dropped (h.waiters x hx) hclosed).outside (List.Subset.refl _)
  rcases hs' with ⟨hnone, rfl⟩ | ⟨hsome, hloop, rfl⟩
  · -- a hub without a listener has no task
    have hout : (∀ x ∈ base.subscribers, x.member = false) ∧
        ∀ x ∈ base.waiters, x.member = false := by
      rcases hbase with ⟨-, rfl⟩ | ⟨-, rfl⟩
      · exact outside_of_unused (by rw [h.used, hnone]; rfl)
      · refine ⟨fun y hmem => ?_, fun y hmem => ?_⟩
        · obtain ⟨x, -, rfl⟩ := List.mem_map.mp hmem
          rfl
        · obtain ⟨x, -, rfl⟩ := List.mem_map.mp hmem
          rfl
    refine ⟨rfl, rfl, by simp [hlisteners, hnone], fun x hmem => ?_, fun x hmem => ?_⟩
    · have hx := hplaced.1 x hmem
      rw [hout.1 x hmem] at hx ⊢
      exact hx.outside (List.Subset.refl _)
    · have hx := hplaced.2 x hmem
      rw [hout.2 x hmem] at hx ⊢
      exact hx.outside (List.Subset.refl _)
  · exact ⟨hloop, by rw [hlid]; exact Option.isSome_iff_ne_none.mpr hsome,
      by rw [hlisteners, hlid], hplaced.1, hplaced.2⟩

theorem init (name : Name) (data : Bytes) (closed writable : Bool) :
    (LoopHub.init name data closed writable).Joined :=
  ⟨rfl, rfl, rfl, fun _ hmem => absurd hmem List.not_mem_nil,
    fun _ hmem => absurd hmem List.not_mem_nil⟩

theorem step (h : s.Joined) (hstep : Step s t) : t.Joined := by
  cases hstep with
  | quiet => exact h
  | stream a m notes hchange => exact h.of_eq rfl rfl rfl (List.Subset.refl _) rfl rfl
  | otherListener => exact h.of_eq rfl rfl rfl (List.Subset.refl _) rfl rfl
  | notify i n hn => exact h.of_eq rfl rfl rfl (List.Subset.refl _) rfl rfl
  | readLoop i n hn => exact h.of_eq rfl rfl rfl (List.Subset.refl _) rfl rfl
  | post i n l hn => exact h.of_eq rfl rfl rfl (List.Subset.refl _) rfl rfl
  | closeLoop l => exact h.of_eq rfl rfl rfl (List.subset_cons_self l _) rfl rfl
  | deliver i n l hidle hn =>
      refine h.of_eq rfl rfl rfl (List.Subset.refl _) ?_ ?_
      · simp only [delivered, List.map_map]
        refine List.map_congr_left fun x _ => ?_
        simp only [Function.comp_apply]
        split <;> rfl
      · simp only [delivered, List.map_map]
        refine List.map_congr_left fun x _ => ?_
        simp only [Function.comp_apply]
        split <;> rfl
  | subscribe l offset s' hopen hjoin =>
      obtain ⟨hloop, hlid, hlisteners, hsubscribers, hwaiters⟩ := h.join hjoin
      have hnew : (⟨l, true, .new offset⟩ : OnLoop Subscriber) ∈
          s'.subscribers ++ [⟨l, true, .new offset⟩] := by simp
      refine ⟨hlisteners, by simp [hloop, hlid], ?_, fun x hmem => ?_,
        fun x hmem => (hwaiters x hmem).congr rfl (List.Subset.refl _)⟩
      · rw [hlid]
        exact Bool.or_eq_true_iff.mpr (.inl (List.any_eq_true.mpr ⟨_, hnew, rfl⟩))
      · rcases List.mem_append.mp hmem with hmem | hmem
        · exact (hsubscribers x hmem).congr rfl (List.Subset.refl _)
        · rw [List.mem_singleton.mp hmem]
          exact ⟨fun _ => ⟨rfl, hloop⟩, fun _ _ => rfl⟩
  | wait l offset s' hopen hjoin =>
      obtain ⟨hloop, hlid, hlisteners, hsubscribers, hwaiters⟩ := h.join hjoin
      have hnew : (⟨l, true, .new offset⟩ : OnLoop Waiter) ∈
          s'.waiters ++ [⟨l, true, .new offset⟩] := by simp
      refine ⟨hlisteners, by simp [hloop, hlid], ?_,
        fun x hmem => (hsubscribers x hmem).congr rfl (List.Subset.refl _), fun x hmem => ?_⟩
      · rw [hlid]
        exact Bool.or_eq_true_iff.mpr (.inr (List.any_eq_true.mpr ⟨_, hnew, rfl⟩))
      · rcases List.mem_append.mp hmem with hmem | hmem
        · exact (hwaiters x hmem).congr rfl (List.Subset.refl _)
        · rw [List.mem_singleton.mp hmem]
          exact ⟨fun _ => ⟨rfl, hloop⟩, fun _ _ => rfl⟩
  | run j x task hx hopen hrun => exact h.goOn hx (Subscriber.there_of_run hrun) task
  | runWait j x task hx hopen hrun => exact h.goOnWait hx (Waiter.there_of_run hrun) task
  | fetched j x r hx hpc hr =>
      have hthere : x.task.left = false := by simp [Subscriber.left, hpc]
      have hstay := h.goOn hx hthere { x.task with pc := .fetched r }
      rwa [LoopHub.goOn, if_neg (by simp [Subscriber.left])] at hstay
  | leave j x hx hthere => exact h.goOn hx hthere _
  | leaveWait j x hx hthere => exact h.goOnWait hx hthere _

end Joined

/-! ## No lost wake-up -/

/-- The hub as a task of loop `l` sees it: the notes that may reach this loop. -/
def view (s : LoopHub) (l : Nat) : Fanout :=
  ⟨s.stream, true, [], [], s.changes,
    s.calls ++ (s.calling.filter (·.2 = l)).map Prod.fst,
    (s.posted.filter (·.2 = l)).map Prod.fst⟩

/-- A note on its way to loop `l`. -/
theorem mem_view_calls : n ∈ (s.view l).calls ↔ n ∈ s.calls ∨ (n, l) ∈ s.calling := by
  simp [view]

theorem mem_view_posted : n ∈ (s.view l).posted ↔ (n, l) ∈ s.posted := by
  simp [view]

theorem view_settle (s : LoopHub) (l : Nat) : s.settle.view l = s.view l := by
  unfold settle
  split
  · split <;> rfl
  · rfl

theorem view_goOn (s : LoopHub) (j : Nat) (x : OnLoop Subscriber) (task : Subscriber) (l : Nat) :
    (s.goOn j x task).view l = s.view l := by
  unfold goOn
  split
  · exact view_settle _ l
  · rfl

theorem view_goOnWait (s : LoopHub) (j : Nat) (x : OnLoop Waiter) (task : Waiter) (l : Nat) :
    (s.goOnWait j x task).view l = s.view l := by
  unfold goOnWait
  split
  · exact view_settle _ l
  · rfl

/-- Only the hub's listener has a part in it. -/
theorem settle_tasks (s : LoopHub) :
    s.settle.subscribers = s.subscribers ∧ s.settle.waiters = s.waiters ∧
      s.settle.stream = s.stream ∧ s.settle.closedLoops = s.closedLoops := by
  unfold settle
  split
  · split <;> exact ⟨rfl, rfl, rfl, rfl⟩
  · exact ⟨rfl, rfl, rfl, rfl⟩

/-- One task goes on, on its loop. -/
theorem goOn_tasks (s : LoopHub) (j : Nat) (x : OnLoop Subscriber) (task : Subscriber) :
    ∃ member, (s.goOn j x task).subscribers = s.subscribers.set j ⟨x.loop, member, task⟩ ∧
      (s.goOn j x task).waiters = s.waiters ∧ (s.goOn j x task).stream = s.stream ∧
      (s.goOn j x task).closedLoops = s.closedLoops := by
  unfold goOn
  split
  · exact ⟨false, settle_tasks _⟩
  · exact ⟨x.member, rfl, rfl, rfl, rfl⟩

theorem goOnWait_tasks (s : LoopHub) (j : Nat) (x : OnLoop Waiter) (task : Waiter) :
    ∃ member, (s.goOnWait j x task).subscribers = s.subscribers ∧
      (s.goOnWait j x task).waiters = s.waiters.set j ⟨x.loop, member, task⟩ ∧
      (s.goOnWait j x task).stream = s.stream ∧
      (s.goOnWait j x task).closedLoops = s.closedLoops := by
  unfold goOnWait
  split
  · exact ⟨false, settle_tasks _⟩
  · exact ⟨x.member, rfl, rfl, rfl, rfl⟩

theorem view_join {s' : LoopHub} (h : s.join l = some s') (k : Nat) : s'.view k = s.view k := by
  obtain ⟨base, hbase, hs'⟩ := join_cases h
  have hview : base.view k = s.view k := by
    rcases hbase with ⟨-, rfl⟩ | ⟨-, rfl⟩ <;> rfl
  rcases hs' with ⟨-, rfl⟩ | ⟨-, -, rfl⟩
  · exact hview
  · exact hview

/-- The tasks and their loops are those that were there. -/
theorem join_tasks {s' : LoopHub} (h : s.join l = some s') :
    s'.closedLoops = s.closedLoops ∧ s'.stream = s.stream ∧
      (∀ y ∈ s'.subscribers, ∃ x ∈ s.subscribers, y.loop = x.loop ∧ y.task = x.task) ∧
      ∀ y ∈ s'.waiters, ∃ x ∈ s.waiters, y.loop = x.loop ∧ y.task = x.task := by
  obtain ⟨base, hbase, hs'⟩ := join_cases h
  have hsame : base.closedLoops = s.closedLoops ∧ base.stream = s.stream ∧
      (∀ y ∈ base.subscribers, ∃ x ∈ s.subscribers, y.loop = x.loop ∧ y.task = x.task) ∧
      ∀ y ∈ base.waiters, ∃ x ∈ s.waiters, y.loop = x.loop ∧ y.task = x.task := by
    rcases hbase with ⟨-, rfl⟩ | ⟨-, rfl⟩
    · exact ⟨rfl, rfl, fun y hmem => ⟨y, hmem, rfl, rfl⟩, fun y hmem => ⟨y, hmem, rfl, rfl⟩⟩
    · refine ⟨rfl, rfl, fun y hmem => ?_, fun y hmem => ?_⟩
      · obtain ⟨x, hx, rfl⟩ := List.mem_map.mp hmem
        exact ⟨x, hx, rfl, rfl⟩
      · obtain ⟨x, hx, rfl⟩ := List.mem_map.mp hmem
        exact ⟨x, hx, rfl, rfl⟩
  rcases hs' with ⟨-, rfl⟩ | ⟨-, -, rfl⟩
  · exact hsame
  · exact hsame

/-- Every task of an open loop will be told. -/
structure Awake (s : LoopHub) : Prop where
  ok : s.Ok
  joined : s.Joined
  batch : ∀ payloads stops, s.stream.adding = some (payloads, stops) → payloads ≠ []
  subscribers : ∀ x ∈ s.subscribers, x.task.left = false → s.isClosed x.loop = false →
    x.task.Alert (s.view x.loop)
  waiters : ∀ x ∈ s.waiters, x.task.left = false → s.isClosed x.loop = false →
    x.task.Alert (s.view x.loop)

namespace Awake

theorem init (name : Name) (data : Bytes) (closed writable : Bool) :
    (LoopHub.init name data closed writable).Awake :=
  ⟨.init name data closed writable, .init name data closed writable, fun _ _ h => (by cases h),
    fun _ hmem => absurd hmem List.not_mem_nil, fun _ hmem => absurd hmem List.not_mem_nil⟩

/-- The loop of a task that can still run is the loop of the hub, which listens. -/
theorem listens (h : s.Awake) {here gone : Bool} (hplaced : s.Placed l here gone)
    (hused : here = true → s.used = true) (hthere : gone = false) (hopen : s.isClosed l = false) :
    s.loop = some l ∧ ∃ lid, s.listeners = [lid] := by
  have hhere := hplaced.there hthere hopen
  refine ⟨(hplaced.inside hhere).2, ?_⟩
  obtain ⟨lid, hlid⟩ := Option.isSome_iff_exists.mp (h.joined.used ▸ hused hhere)
  exact ⟨lid, by rw [h.joined.listeners, hlid]; rfl⟩

theorem listens_subscriber (h : s.Awake) {x : OnLoop Subscriber} (hx : x ∈ s.subscribers)
    (hthere : x.task.left = false) (hopen : s.isClosed x.loop = false) :
    s.loop = some x.loop ∧ ∃ lid, s.listeners = [lid] :=
  h.listens (h.joined.subscribers x hx)
    (fun hin => Bool.or_eq_true_iff.mpr (.inl (List.any_eq_true.mpr ⟨x, hx, hin⟩))) hthere hopen

theorem listens_waiter (h : s.Awake) {x : OnLoop Waiter} (hx : x ∈ s.waiters)
    (hthere : x.task.left = false) (hopen : s.isClosed x.loop = false) :
    s.loop = some x.loop ∧ ∃ lid, s.listeners = [lid] :=
  h.listens (h.joined.waiters x hx)
    (fun hin => Bool.or_eq_true_iff.mpr (.inr (List.any_eq_true.mpr ⟨x, hx, hin⟩))) hthere hopen

/-- The tasks are those that were there. -/
theorem keep (h : s.Awake) (hok : t.Ok) (hjoined : t.Joined)
    (hbatch : ∀ payloads stops, t.stream.adding = some (payloads, stops) → payloads ≠ [])
    (hclosed : s.closedLoops ⊆ t.closedLoops) (hsubscribers : t.subscribers = s.subscribers)
    (hwaiters : t.waiters = s.waiters)
    (hkeeps : ∀ l, s.isClosed l = false → s.loop = some l → (∃ lid, s.listeners = [lid]) →
      (s.view l).Keeps (t.view l)) : t.Awake := by
  have hopen : ∀ l, t.isClosed l = false → s.isClosed l = false := by
    intro l hl
    rw [isClosed, List.contains_eq_mem, decide_eq_false_iff_not] at hl ⊢
    exact fun hmem => hl (hclosed hmem)
  refine ⟨hok, hjoined, hbatch, fun x hmem hthere hl => ?_, fun x hmem hthere hl => ?_⟩
  · rw [hsubscribers] at hmem
    obtain ⟨hloop, hlid⟩ := h.listens_subscriber hmem hthere (hopen _ hl)
    exact (hkeeps x.loop (hopen _ hl) hloop hlid).subscriber
      (h.subscribers x hmem hthere (hopen _ hl))
  · rw [hwaiters] at hmem
    obtain ⟨hloop, hlid⟩ := h.listens_waiter hmem hthere (hopen _ hl)
    exact (hkeeps x.loop (hopen _ hl) hloop hlid).waiter (h.waiters x hmem hthere (hopen _ hl))

/-- A note that is delivered is the last one of those before a task. -/
theorem deliver_last {x : Subscriber} {v : Fanout}
    (h : x.Alert { v with posted := v.posted ++ [n] }) (hsuspended : x.suspended = true) :
    ({ x with sub := x.sub.deliver n.start n.records } : Subscriber).Alert v := by
  have htold := h.deliver (i := v.posted.length) (n := n) (by simp) hsuspended
  refine Fanout.Keeps.subscriber ?_ htold
  refine .of_eq rfl rfl rfl ?_
  show v.posted = (v.posted ++ [n]).eraseIdx v.posted.length
  rw [List.eraseIdx_append_of_length_le (Nat.le_refl _), Nat.sub_self, List.eraseIdx_cons_zero,
    List.append_nil]

/-- A subscriber goes on. -/
theorem goOn (h : s.Awake) {x : OnLoop Subscriber} (hx : s.subscribers[j]? = some x)
    (hthere : x.task.left = false) (hok : (s.goOn j x task).Ok)
    (htask : task.left = false → s.isClosed x.loop = false → task.Alert (s.view x.loop)) :
    (s.goOn j x task).Awake := by
  obtain ⟨member, hsubscribers, hwaiters, hstream, hclosed⟩ := goOn_tasks s j x task
  refine ⟨hok, h.joined.goOn hx hthere task, hstream ▸ h.batch, fun y hmem hleft hopen => ?_,
    fun y hmem hleft hopen => ?_⟩
  · rw [isClosed, hclosed] at hopen
    rw [view_goOn]
    rw [hsubscribers] at hmem
    rcases List.mem_or_eq_of_mem_set hmem with hmem | rfl
    · exact h.subscribers y hmem hleft hopen
    · exact htask hleft hopen
  · rw [isClosed, hclosed] at hopen
    rw [view_goOn]
    rw [hwaiters] at hmem
    exact h.waiters y hmem hleft hopen

theorem goOnWait (h : s.Awake) {x : OnLoop Waiter} (hx : s.waiters[j]? = some x)
    (hthere : x.task.left = false) (hok : (s.goOnWait j x task).Ok)
    (htask : task.left = false → s.isClosed x.loop = false → task.Alert (s.view x.loop)) :
    (s.goOnWait j x task).Awake := by
  obtain ⟨member, hsubscribers, hwaiters, hstream, hclosed⟩ := goOnWait_tasks s j x task
  refine ⟨hok, h.joined.goOnWait hx hthere task, hstream ▸ h.batch, fun y hmem hleft hopen => ?_,
    fun y hmem hleft hopen => ?_⟩
  · rw [isClosed, hclosed] at hopen
    rw [view_goOnWait]
    rw [hsubscribers] at hmem
    exact h.subscribers y hmem hleft hopen
  · rw [isClosed, hclosed] at hopen
    rw [view_goOnWait]
    rw [hwaiters] at hmem
    rcases List.mem_or_eq_of_mem_set hmem with hmem | rfl
    · exact h.waiters y hmem hleft hopen
    · exact htask hleft hopen

/-- The tasks that are there when one joins. -/
theorem join (h : s.Awake) {s' : LoopHub} (hjoin : s.join l = some s') :
    (∀ payloads stops, s'.stream.adding = some (payloads, stops) → payloads ≠ []) ∧
      (∀ y ∈ s'.subscribers, y.task.left = false → s'.isClosed y.loop = false →
        y.task.Alert (s'.view y.loop)) ∧
      ∀ y ∈ s'.waiters, y.task.left = false → s'.isClosed y.loop = false →
        y.task.Alert (s'.view y.loop) := by
  obtain ⟨hclosed, hstream, hsubscribers, hwaiters⟩ := join_tasks hjoin
  refine ⟨hstream ▸ h.batch, fun y hmem hleft hl => ?_, fun y hmem hleft hl => ?_⟩
  · obtain ⟨x, hx, hloop, htask⟩ := hsubscribers y hmem
    rw [isClosed, hclosed] at hl
    rw [view_join hjoin, hloop, htask]
    exact h.subscribers x hx (htask ▸ hleft) (hloop ▸ hl)
  · obtain ⟨x, hx, hloop, htask⟩ := hwaiters y hmem
    rw [isClosed, hclosed] at hl
    rw [view_join hjoin, hloop, htask]
    exact h.waiters x hx (htask ▸ hleft) (hloop ▸ hl)

theorem delivered (h : s.Awake) (hidle : s.idle = true) (hn : s.posted[i]? = some (n, l))
    (hok : (({ s with posted := s.posted.eraseIdx i } : LoopHub).delivered n).Ok)
    (hjoined : (({ s with posted := s.posted.eraseIdx i } : LoopHub).delivered n).Joined) :
    (({ s with posted := s.posted.eraseIdx i } : LoopHub).delivered n).Awake := by
  have hsuspended := Bool.and_eq_true_iff.mp hidle
  -- whatever loop the note was for, all tasks of the hub are told
  have hkeeps : ∀ k, (s.view k).Keeps
      { ({ s with posted := s.posted.eraseIdx i } : LoopHub).view k with
        posted :=
          (({ s with posted := s.posted.eraseIdx i } : LoopHub).view k).posted ++ [n] } := by
    intro k
    refine .of_notes rfl fun n' hmem => ?_
    refine hmem.imp_right (Or.imp_right fun hmem => ?_)
    rw [mem_view_posted] at hmem
    rw [List.mem_append, mem_view_posted]
    obtain ⟨i', hi'⟩ := List.mem_iff_getElem?.mp hmem
    by_cases heq : i' = i
    · rw [heq, hn] at hi'
      cases hi'
      exact .inr (List.mem_singleton_self _)
    · exact .inl (List.mem_eraseIdx_iff_getElem?.mpr ⟨i', heq, hi'⟩)
  refine ⟨hok, hjoined, h.batch, fun y hmem hleft hopen => ?_, fun y hmem hleft hopen => ?_⟩
  · obtain ⟨x, hx, rfl⟩ := List.mem_map.mp hmem
    cases hmember : x.member with
    | false =>
        rw [hmember, if_neg (by simp)] at hleft hopen
        exact absurd ((h.joined.subscribers x hx).there hleft hopen) (by simp [hmember])
    | true =>
        rw [hmember, if_pos rfl] at hleft hopen
        rw [if_pos rfl]
        exact deliver_last ((hkeeps x.loop).subscriber (h.subscribers x hx hleft hopen))
          (List.all_eq_true.mp hsuspended.1 x hx)
  · obtain ⟨x, hx, rfl⟩ := List.mem_map.mp hmem
    cases hmember : x.member with
    | false =>
        rw [hmember, if_neg (by simp)] at hleft hopen
        exact absurd ((h.joined.waiters x hx).there hleft hopen) (by simp [hmember])
    | true =>
        rw [if_pos rfl]
        exact .deliver (List.all_eq_true.mp hsuspended.2 x hx)

theorem step (h : s.Awake) (hstep : Step s t) : t.Awake := by
  have hok := h.ok.step hstep
  have hjoined := h.joined.step hstep
  cases hstep with
  | quiet => exact h
  | stream a m notes hchange =>
      refine h.keep hok hjoined ?_ (List.Subset.refl _) rfl rfl fun l _ _ _ => ?_
      · intro payloads stops hadding
        cases hchange with
        | started payloads' offset w hfree hbegin =>
            cases hadding
            exact (Writer.begin_started hbegin).2.2.2.1
        | added payloads' stop rest hadding' =>
            cases hadding
            exact h.batch _ _ hadding'
        | released payloads' hadding' => cases hadding
        | _ => exact h.batch _ _ hadding
      · exact Fanout.Keeps.change (s := s.view l) h.batch hchange
  | otherListener =>
      exact h.keep hok hjoined h.batch (List.Subset.refl _) rfl rfl
        fun l _ _ _ => .of_eq rfl rfl rfl rfl
  | notify i n hn =>
      refine h.keep hok hjoined h.batch (List.Subset.refl _) rfl rfl fun l _ _ hlid => ?_
      obtain ⟨lid, hlid⟩ := hlid
      refine .of_notes rfl fun n' hmem => ?_
      rw [mem_view_calls] at hmem ⊢
      rcases hmem with hmem | hmem | hmem
      · rcases Fanout.Keeps.mem_eraseIdx_or hn hmem with hmem | rfl
        · exact .inl hmem
        · refine .inr (.inl (.inl (List.mem_append_right _ ?_)))
          simp [hlid]
      · exact .inr (.inl (hmem.imp_left (List.mem_append_left _)))
      · exact .inr (.inr hmem)
  | readLoop i n hn =>
      refine h.keep hok hjoined h.batch (List.Subset.refl _) rfl rfl fun l _ hloop _ => ?_
      refine .of_notes rfl fun n' hmem => ?_
      rw [mem_view_calls] at hmem ⊢
      rcases hmem with hmem | (hmem | hmem) | hmem
      · exact .inl hmem
      · rcases Fanout.Keeps.mem_eraseIdx_or hn hmem with hmem | rfl
        · exact .inr (.inl (.inl hmem))
        · refine .inr (.inl (.inr ?_))
          simp [hloop]
      · refine .inr (.inl (.inr ?_))
        simp [hloop, hmem]
      · exact .inr (.inr hmem)
  | post i n l' hn =>
      refine h.keep hok hjoined h.batch (List.Subset.refl _) rfl rfl fun l hopen _ _ => ?_
      refine .of_notes rfl fun n' hmem => ?_
      rw [mem_view_calls, mem_view_posted] at hmem ⊢
      rcases hmem with hmem | (hmem | hmem) | hmem
      · exact .inl hmem
      · exact .inr (.inl (.inl hmem))
      · obtain ⟨i', hi'⟩ := List.mem_iff_getElem?.mp hmem
        by_cases heq : i' = i
        · rw [heq, hn] at hi'
          cases hi'
          refine .inr (.inr ?_)
          simp [hopen]
        · exact .inr (.inl (.inr (List.mem_eraseIdx_iff_getElem?.mpr ⟨i', heq, hi'⟩)))
      · refine .inr (.inr ?_)
        dsimp only
        split
        · exact hmem
        · exact List.mem_append_left _ hmem
  | deliver i n l hidle hn => exact h.delivered hidle hn hok hjoined
  | closeLoop l =>
      exact h.keep hok hjoined h.batch (List.subset_cons_self l _) rfl rfl
        fun l _ _ _ => .of_eq rfl rfl rfl rfl
  | subscribe l offset s' hopen hjoin =>
      obtain ⟨hbatch, hsubscribers, hwaiters⟩ := h.join hjoin
      refine ⟨hok, hjoined, hbatch, fun y hmem hleft hl => ?_, hwaiters⟩
      rcases List.mem_append.mp hmem with hmem | hmem
      · exact hsubscribers y hmem hleft hl
      · rw [List.mem_singleton.mp hmem]
        exact .of_known rfl (by simp [Subscriber.new]) (.inl rfl)
  | wait l offset s' hopen hjoin =>
      obtain ⟨hbatch, hsubscribers, hwaiters⟩ := h.join hjoin
      refine ⟨hok, hjoined, hbatch, hsubscribers, fun y hmem hleft hl => ?_⟩
      rcases List.mem_append.mp hmem with hmem | hmem
      · exact hwaiters y hmem hleft hl
      · rw [List.mem_singleton.mp hmem]
        exact .of_plain rfl (by simp [Waiter.new])
  | run j x task hx hopen hrun =>
      have hthere := Subscriber.there_of_run hrun
      refine h.goOn hx hthere hok fun _ _ => ?_
      exact (h.subscribers x (List.mem_of_getElem? hx) hthere hopen).run (h.ok.exact hx) hrun
  | runWait j x task hx hopen hrun =>
      have hthere := Waiter.there_of_run hrun
      refine h.goOnWait hx hthere hok fun _ _ => ?_
      exact (h.waiters x (List.mem_of_getElem? hx) hthere hopen).run hrun
  | fetched j x r hx hpc hr =>
      have hthere : x.task.left = false := by simp [Subscriber.left, hpc]
      have hgoes : s.setSubscriber j { x with task := { x.task with pc := .fetched r } } =
          s.goOn j x { x.task with pc := .fetched r } := by
        rw [LoopHub.goOn, if_neg (by simp [Subscriber.left])]
      rw [hgoes] at hok ⊢
      refine h.goOn hx hthere hok fun _ hopen => ?_
      have halert := h.subscribers x (List.mem_of_getElem? hx) hthere hopen
      exact .of_known rfl (by simp) (halert.known (by simp [hpc]))
  | leave j x hx hthere =>
      exact h.goOn hx hthere hok fun hleft => by cases hleft
  | leaveWait j x hx hthere =>
      exact h.goOnWait hx hthere hok fun hleft => by cases hleft

end Awake

end LoopHub

end Durastream
