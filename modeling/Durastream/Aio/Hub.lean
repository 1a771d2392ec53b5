import Durastream.Lib.Lts
import Durastream.Stream.Writer

/-!
# Subscribers and the hub that feeds them

One stream, its hub, and any number of tasks that run `subscribe` or `wait` on the
stream, all on one event loop.  Other threads append to the stream, close it, and
notify.

The loop runs one task at a time, up to an await or a yield, and a delivery only
while all of them are suspended (`Fanout.idle`).  But `next_offset` and `closed` are
read without the lock of the stream, so what other threads do may come between any two
reads.  A `SubscribePc` is therefore the next read of either, or an await or a yield.

* `startRead`: `sub.start = self._s.next_offset`.
* `checkRead`: the read of `next_offset` in `AsyncDurableStream.read`.
* `reading`, `fetched`: its `to_thread`, before and after the read in the thread.
* `replay`: a yield of the loop over `batch`, after `k` of its records.
* `yielded`: the yield of a live record.
* `testClosed`, `testEnd`: `if self._s.closed`, and the test of `next_offset` in it.
* `testWait`: the test of `closed` before the wait.

A change makes a `Note`, which goes through three steps: `_notify` takes the listeners
there are, `_on_change` posts the delivery to the loop, and the loop runs it.  Notes
take each step in any order.

`out` is what a subscriber has yielded.
-/

namespace Durastream

def lagLimit : Nat := 10000

def lagBytes : Nat := 16 * 1024 * 1024

/-! ## One subscriber's view of the live tail -/

/-- `_Sub`. -/
structure Sub where
  buf : List Bytes
  nbytes : Nat
  start : Nat
  stale : Bool
  event : Bool

namespace Sub

def new : Sub := ⟨[], 0, 0, true, false⟩

def clear (sub : Sub) : Sub := { sub with buf := [], nbytes := 0 }

/-- What `deliver` does to a buffer that can be trusted. -/
def extend (sub : Sub) (start : Nat) (records : List Bytes) : Sub :=
  let stop := sub.start + sub.buf.length
  if start > stop then { sub with stale := true } -- missed records
  else if start + records.length > stop then
    let new := records.drop (stop - start)
    let buf := sub.buf ++ new
    let nbytes := sub.nbytes + (new.map List.length).sum
    let late := decide (buf.length > lagLimit ∨ nbytes > lagBytes)
    { sub with buf := buf, nbytes := nbytes, stale := late }
  else sub

def deliver (sub : Sub) (start : Nat) (records : List Bytes) : Sub :=
  let sub := if records ≠ [] ∧ sub.stale = false then sub.extend start records else sub
  let sub := if sub.stale then sub.clear else sub
  { sub with event := true }

/-- The record and the rest, if there is one. -/
def popleft (sub : Sub) : Option (Bytes × Sub) :=
  match sub.buf with
  | [] => none
  | record :: buf =>
      some (record,
        { sub with buf := buf, nbytes := sub.nbytes - record.length, start := sub.start + 1 })

/-- `while sub.buf and sub.start < pos: sub.popleft()`. -/
def dropBefore (pos : Nat) : List Bytes → Sub → Sub
  | [], sub => sub
  | _ :: rest, sub =>
      if sub.start < pos then
        match sub.popleft with
        | some (_, sub) => dropBefore pos rest sub
        | none => sub
      else sub

end Sub

/-! ## The stream -/

/-- What threads share of a `DurableStream`. -/
structure LiveStream where
  name : Name
  /-- The log, as far as it is durable. -/
  data : Bytes
  index : List Nat
  /-- The append that holds the lock after its fsync: its records and the entries it has
  not yet added to the index. -/
  adding : Option (List Bytes × List Nat)
  closed : Bool
  isOpen : Bool
  writable : Bool

namespace LiveStream

def records (m : LiveStream) : List Bytes := Durastream.records m.data

def nextOffset (m : LiveStream) : Nat := Durastream.nextOffset m.index

end LiveStream

/-- A notification on its way. -/
structure Note where
  start : Nat
  records : List Bytes

/-! ## Tasks -/

inductive SubscribePc where
  | top
  | startRead
  | checkRead
  | reading
  | fetched (r : Except Error (List Bytes))
  | replay (batch : List Bytes) (k : Nat)
  | yielded
  | testClosed
  | testEnd
  | testWait
  | waiting
  | returned
  | raised

/-- A task that runs `subscribe`. -/
structure Subscriber where
  offset : Int
  pos : Nat
  sub : Sub
  pc : SubscribePc
  out : List Bytes

namespace Subscriber

/-- `subscribe` up to its first read. -/
def new (offset : Int) : Subscriber := ⟨offset, (max offset 0).toNat, .new, .top, []⟩

/-- It has left the hub. -/
def left (x : Subscriber) : Bool :=
  match x.pc with
  | .returned => true
  | .raised => true
  | _ => false

/-- It is at an await or a yield. -/
def suspended (x : Subscriber) : Bool :=
  match x.pc with
  | .top => false
  | .startRead => false
  | .checkRead => false
  | .testClosed => false
  | .testEnd => false
  | .testWait => false
  | _ => true

/-- The loop over `batch`, after `k` of its records. -/
def replayed (x : Subscriber) (batch : List Bytes) (k : Nat) : Subscriber :=
  match batch[k]? with
  | some record => { x with out := x.out ++ [record], pc := .replay batch (k + 1) }
  | none => { x with pos := x.pos + batch.length, pc := .top }

/-- The task runs on to its next read, await or yield. -/
def run (x : Subscriber) (m : LiveStream) : Option Subscriber :=
  match x.pc with
  | .top =>
      if x.sub.stale then
        some { x with sub := { x.sub with stale := false }.clear, pc := .startRead }
      else
        let sub := x.sub.dropBefore x.pos x.sub.buf
        let sub := if sub.buf = [] then { sub with start := max sub.start x.pos } else sub
        if sub.start > x.pos then some { x with sub := { sub with stale := true } }
        else
          match sub.popleft with
          | some (record, sub) =>
              some { x with
                pos := x.pos + 1, sub := sub, pc := .yielded, out := x.out ++ [record] }
          | none => some { x with sub := sub, pc := .testClosed }
  | .startRead => some { x with sub := { x.sub with start := m.nextOffset }, pc := .checkRead }
  | .checkRead => some { x with pc := if x.pos ≥ m.nextOffset then .top else .reading }
  | .reading => none
  | .fetched (.ok batch) => some (x.replayed batch 0)
  | .fetched (.error _) => some { x with pc := .raised }
  | .replay batch k => some (x.replayed batch k)
  | .yielded => some { x with pc := .top }
  | .testClosed =>
      if m.closed then some { x with pc := .testEnd }
      else some { x with sub := { x.sub with event := false }, pc := .testWait }
  | .testEnd =>
      if x.pos ≥ m.nextOffset then some { x with pc := .returned }
      else some { x with sub := { x.sub with stale := true }, pc := .top }
  | .testWait =>
      some { x with pc := if x.sub.buf ≠ [] ∨ x.sub.stale ∨ m.closed then .top else .waiting }
  | .waiting => if x.sub.event then some { x with pc := .top } else none
  | .returned => none
  | .raised => none

end Subscriber

inductive WaitPc where
  /-- `while self._s.next_offset <= offset`. -/
  | test
  /-- `if self._s.closed`. -/
  | testClosed
  /-- `if self._s.next_offset <= offset`, after the event is cleared. -/
  | recheck
  /-- `and not self._s.closed`. -/
  | recheckClosed
  | waiting
  | returned (b : Bool)
  | raised
deriving DecidableEq

/-- A task that runs `wait`. -/
structure Waiter where
  offset : Int
  sub : Sub
  pc : WaitPc

namespace Waiter

/-- `wait` up to its first read. -/
def new (offset : Int) : Waiter := ⟨offset, .new, .test⟩

/-- It has left the hub. -/
def left (x : Waiter) : Bool :=
  match x.pc with
  | .returned _ => true
  | .raised => true
  | _ => false

/-- It is at its await. -/
def suspended (x : Waiter) : Bool :=
  match x.pc with
  | .test => false
  | .testClosed => false
  | .recheck => false
  | .recheckClosed => false
  | _ => true

/-- The task runs on to its next read or await. -/
def run (x : Waiter) (m : LiveStream) : Option Waiter :=
  match x.pc with
  | .test =>
      some { x with pc := if (m.nextOffset : Int) ≤ x.offset then .testClosed else .returned true }
  | .testClosed =>
      if m.closed then some { x with pc := .returned false }
      else some { x with sub := { x.sub with event := false }, pc := .recheck }
  | .recheck =>
      some { x with pc := if (m.nextOffset : Int) ≤ x.offset then .recheckClosed else .test }
  | .recheckClosed => some { x with pc := if m.closed then .test else .waiting }
  | .waiting => if x.sub.event then some { x with pc := .test } else none
  | .returned _ => none
  | .raised => none

end Waiter

/-! ## The hub -/

/-- A stream and its hub. -/
structure Fanout where
  stream : LiveStream
  /-- The hub has a listener (`_lid` and `_loop`). -/
  listening : Bool
  subscribers : List Subscriber
  waiters : List Waiter
  /-- Notes whose `_notify` has not yet looked at the listeners. -/
  changes : List Note
  /-- Notes for which `_on_change` is called. -/
  calls : List Note
  /-- The deliveries posted to the loop. -/
  posted : List Note

inductive FanoutAct where
  /-- `append_many`, up to its fsync.  If it raises, it notifies with this offset. -/
  | append (payloads : List Bytes) (offset : Nat)
  /-- The append adds an entry to the index. -/
  | addEntry
  /-- The append releases the lock. -/
  | release
  /-- A write or fsync fails; `disabled` if the rollback fails too. -/
  | appendFailed (disabled : Bool) (offset : Nat)
  /-- `close`; `ok` if it persists the flag. -/
  | close (ok : Bool) (offset : Nat)
  /-- `_close_fds`, in `delete` or `Store.close`. -/
  | closeFds (offset : Nat)
  /-- The next steps of note number `i`. -/
  | notify (i : Nat)
  | post (i : Nat)
  | deliver (i : Nat)
  | subscribe (offset : Int)
  | wait (offset : Int)
  | run (j : Nat)
  | runWait (j : Nat)
  /-- The read in the thread of a subscriber. -/
  | read (j : Nat)
  | readFailed (j : Nat)
  /-- A task is cancelled, or its generator closed. -/
  | leave (j : Nat)
  | leaveWait (j : Nat)

namespace Fanout

/-- A handle on a log with these whole frames. -/
def init (name : Name) (data : Bytes) (closed writable : Bool) : Fanout :=
  ⟨⟨name, frames (records data), marks (records data), none, closed, true, writable⟩, false, [],
    [], [], [], []⟩

/-- No task is running. -/
def idle (s : Fanout) : Bool :=
  s.subscribers.all Subscriber.suspended && s.waiters.all Waiter.suspended

/-- The last one to leave takes the listener away. -/
def settle (s : Fanout) : Fanout :=
  if s.subscribers.all Subscriber.left && s.waiters.all Waiter.left then
    { s with listening := false }
  else s

/-- A subscriber goes on. -/
def setSubscriber (s : Fanout) (j : Nat) (x : Subscriber) : Fanout :=
  { s with subscribers := s.subscribers.set j x }

def setWaiter (s : Fanout) (j : Nat) (x : Waiter) : Fanout :=
  { s with waiters := s.waiters.set j x }

/-- `_deliver`. -/
def delivered (s : Fanout) (n : Note) : Fanout :=
  { s with
    subscribers := s.subscribers.map fun x =>
      if x.left then x else { x with sub := x.sub.deliver n.start n.records }
    waiters := s.waiters.map fun x =>
      if x.left then x else { x with sub := x.sub.deliver n.start n.records } }

/-- A call that takes the lock of the stream. -/
def lockStep (s : Fanout) : FanoutAct → Option Fanout
  | .append payloads offset =>
      let m := s.stream
      match (⟨m.name, m.index, m.closed, .idle⟩ : Writer).begin m.writable m.isOpen payloads with
      | .started _ =>
          some { s with stream := { m with
            data := m.data ++ frames payloads
            adding := some (payloads, frameEnds (lastMark m.index) payloads) } }
      | .returned _ => some s
      | .raised _ => some { s with changes := s.changes ++ [⟨offset, []⟩] }
  | .appendFailed disabled offset =>
      some { s with
        stream := { s.stream with closed := s.stream.closed || disabled }
        changes := s.changes ++ [⟨offset, []⟩] }
  | .close ok offset =>
      some { s with
        stream := { s.stream with closed := s.stream.closed || ok && s.stream.writable }
        changes := s.changes ++ [⟨offset, []⟩] }
  | .closeFds offset =>
      some { s with
        stream := { s.stream with closed := true, isOpen := false, writable := false }
        changes := s.changes ++ [⟨offset, []⟩] }
  | .read j =>
      match s.subscribers[j]? with
      | some x =>
          match x.pc with
          | .reading =>
              let m := s.stream
              let r := Durastream.read m.name m.isOpen m.data m.index x.pos none
              some (s.setSubscriber j { x with pc := .fetched r })
          | _ => none
      | none => none
  | _ => none

def step (s : Fanout) : FanoutAct → Option Fanout
  | .append payloads offset =>
      if s.stream.adding.isNone then s.lockStep (.append payloads offset) else none
  | .addEntry =>
      match s.stream.adding with
      | some (payloads, stop :: rest) =>
          some { s with stream := { s.stream with
            index := s.stream.index ++ [stop], adding := some (payloads, rest) } }
      | _ => none
  | .release =>
      match s.stream.adding with
      | some (payloads, []) =>
          some { s with
            stream := { s.stream with adding := none }
            changes := s.changes ++ [⟨s.stream.nextOffset - payloads.length, payloads⟩] }
      | _ => none
  | .appendFailed disabled offset =>
      if s.stream.adding.isNone then s.lockStep (.appendFailed disabled offset) else none
  | .close ok offset =>
      if s.stream.adding.isNone then s.lockStep (.close ok offset) else none
  | .closeFds offset =>
      if s.stream.adding.isNone then s.lockStep (.closeFds offset) else none
  | .notify i =>
      (s.changes[i]?).map fun n =>
        { s with
          changes := s.changes.eraseIdx i
          calls := if s.listening then s.calls ++ [n] else s.calls }
  | .post i =>
      (s.calls[i]?).map fun n =>
        { s with
          calls := s.calls.eraseIdx i
          posted := if s.listening then s.posted ++ [n] else s.posted }
  | .deliver i =>
      if s.idle then
        (s.posted[i]?).map fun n =>
          ({ s with posted := s.posted.eraseIdx i } : Fanout).delivered n
      else none
  | .subscribe offset =>
      if s.idle then
        some { s with listening := true, subscribers := s.subscribers ++ [.new offset] }
      else none
  | .wait offset =>
      if s.idle then some { s with listening := true, waiters := s.waiters ++ [.new offset] }
      else none
  | .run j =>
      match s.subscribers[j]? with
      | some x =>
          if !x.suspended || s.idle then
            (x.run s.stream).map fun x => (s.setSubscriber j x).settle
          else none
      | none => none
  | .runWait j =>
      match s.waiters[j]? with
      | some x =>
          if !x.suspended || s.idle then (x.run s.stream).map fun x => (s.setWaiter j x).settle
          else none
      | none => none
  | .read j => if s.stream.adding.isNone then s.lockStep (.read j) else none
  | .readFailed j =>
      match s.subscribers[j]? with
      | some x =>
          match x.pc with
          | .reading => some (s.setSubscriber j { x with pc := .fetched (.error .osError) })
          | _ => none
      | none => none
  | .leave j =>
      match s.subscribers[j]? with
      | some x =>
          if s.idle && !x.left then some (s.setSubscriber j { x with pc := .raised }).settle
          else none
      | none => none
  | .leaveWait j =>
      match s.waiters[j]? with
      | some x =>
          if s.idle && !x.left then some (s.setWaiter j { x with pc := .raised }).settle else none
      | none => none

end Fanout

/-! ## What a step can do -/

/-- What happens to the stream, with the notes it makes. -/
inductive LiveStream.Change (m : LiveStream) : FanoutAct → LiveStream → List Note → Prop where
  | started (payloads : List Bytes) (offset : Nat) (w : Writer) :
      m.adding = none →
      (⟨m.name, m.index, m.closed, .idle⟩ : Writer).begin m.writable m.isOpen payloads =
        .started w →
      Change m (.append payloads offset)
        { m with
          data := m.data ++ frames payloads
          adding := some (payloads, frameEnds (lastMark m.index) payloads) } []
  | returned (payloads : List Bytes) (offset : Nat) : Change m (.append payloads offset) m []
  | refused (payloads : List Bytes) (offset : Nat) :
      Change m (.append payloads offset) m [⟨offset, []⟩]
  | added (payloads : List Bytes) (stop : Nat) (rest : List Nat) :
      m.adding = some (payloads, stop :: rest) →
      Change m .addEntry { m with index := m.index ++ [stop], adding := some (payloads, rest) } []
  | released (payloads : List Bytes) :
      m.adding = some (payloads, []) →
      Change m .release { m with adding := none }
        [⟨m.nextOffset - payloads.length, payloads⟩]
  | failed (disabled : Bool) (offset : Nat) :
      m.adding = none →
      Change m (.appendFailed disabled offset) { m with closed := m.closed || disabled }
        [⟨offset, []⟩]
  | closed (ok : Bool) (offset : Nat) :
      m.adding = none →
      Change m (.close ok offset) { m with closed := m.closed || ok && m.writable } [⟨offset, []⟩]
  | closedFds (offset : Nat) :
      m.adding = none →
      Change m (.closeFds offset) { m with closed := true, isOpen := false, writable := false }
        [⟨offset, []⟩]

/-- The step closes the stream, if it is not closed yet. -/
def LiveStream.closes (m : LiveStream) : FanoutAct → Bool
  | .appendFailed disabled _ => disabled
  | .close ok _ => ok && m.writable
  | .closeFds _ => true
  | _ => false

namespace LiveStream.Change

variable {m m' : LiveStream} {a : FanoutAct} {notes : List Note}

/-- Nothing else closes it. -/
theorem closes (h : m.Change a m' notes) (hopen : m.closed = false) (hclosed : m'.closed = true) :
    m.closes a = true := by
  cases h with
  | failed disabled offset hfree => simpa [hopen, LiveStream.closes] using hclosed
  | closed ok offset hfree => simpa [hopen, LiveStream.closes] using hclosed
  | closedFds offset hfree => rfl
  | _ => simp [hopen] at hclosed

/-- A file that is closed is not opened again. -/
theorem isOpen (h : m.Change a m' notes) (hopen : m'.isOpen = true) : m.isOpen = true := by
  cases h with
  | closedFds offset hfree => cases hopen
  | _ => exact hopen

/-- The index only grows. -/
theorem index_isPrefix (h : m.Change a m' notes) : m.index <+: m'.index := by
  cases h with
  | added payloads stop rest hadding => exact List.prefix_append _ _
  | _ => exact List.prefix_rfl

/-- What closes the stream adds nothing. -/
theorem nextOffset_of_closes (h : m.Change a m' notes) (hcloses : m.closes a = true) :
    m'.nextOffset = m.nextOffset := by
  cases h with
  | added payloads stop rest hadding => cases hcloses
  | _ => rfl

end LiveStream.Change

namespace Fanout

inductive Step (s : Fanout) : FanoutAct → Fanout → Prop where
  | stream (a : FanoutAct) (m : LiveStream) (notes : List Note) :
      s.stream.Change a m notes → Step s a { s with stream := m, changes := s.changes ++ notes }
  | notify (i : Nat) (n : Note) :
      s.changes[i]? = some n →
      Step s (.notify i)
        { s with
          changes := s.changes.eraseIdx i
          calls := if s.listening then s.calls ++ [n] else s.calls }
  | post (i : Nat) (n : Note) :
      s.calls[i]? = some n →
      Step s (.post i)
        { s with
          calls := s.calls.eraseIdx i
          posted := if s.listening then s.posted ++ [n] else s.posted }
  | deliver (i : Nat) (n : Note) :
      s.idle = true → s.posted[i]? = some n →
      Step s (.deliver i) (({ s with posted := s.posted.eraseIdx i } : Fanout).delivered n)
  | subscribe (offset : Int) :
      s.idle = true →
      Step s (.subscribe offset)
        { s with listening := true, subscribers := s.subscribers ++ [.new offset] }
  | wait (offset : Int) :
      s.idle = true →
      Step s (.wait offset) { s with listening := true, waiters := s.waiters ++ [.new offset] }
  | run (j : Nat) (x x' : Subscriber) :
      s.subscribers[j]? = some x → x.run s.stream = some x' →
      Step s (.run j) (s.setSubscriber j x').settle
  | runWait (j : Nat) (x x' : Waiter) :
      s.waiters[j]? = some x → x.run s.stream = some x' →
      Step s (.runWait j) (s.setWaiter j x').settle
  | read (j : Nat) (x : Subscriber) :
      s.stream.adding = none → s.subscribers[j]? = some x → x.pc = .reading →
      Step s (.read j) (s.setSubscriber j { x with pc := .fetched (Durastream.read s.stream.name
        s.stream.isOpen s.stream.data s.stream.index x.pos none) })
  | readFailed (j : Nat) (x : Subscriber) :
      s.subscribers[j]? = some x → x.pc = .reading →
      Step s (.readFailed j) (s.setSubscriber j { x with pc := .fetched (.error .osError) })
  | leave (j : Nat) (x : Subscriber) :
      s.subscribers[j]? = some x →
      Step s (.leave j) (s.setSubscriber j { x with pc := .raised }).settle
  | leaveWait (j : Nat) (x : Waiter) :
      s.waiters[j]? = some x →
      Step s (.leaveWait j) (s.setWaiter j { x with pc := .raised }).settle

variable {s t : Fanout} {a : FanoutAct}

/-- A change that makes no note. -/
theorem Step.quiet {m : LiveStream} (h : s.stream.Change a m []) :
    Step s a { s with stream := m } := by
  have hs := Step.stream a m [] h
  rwa [List.append_nil] at hs

theorem lockStep_cases (hfree : s.stream.adding = none) (h : s.lockStep a = some t) :
    Step s a t := by
  cases a with
  | append payloads offset =>
      simp only [lockStep] at h
      split at h
      · next w hbegin =>
          cases h
          exact .quiet (.started payloads offset w hfree hbegin)
      · cases h
        exact .quiet (.returned payloads offset)
      · cases h
        exact .stream _ _ _ (.refused payloads offset)
  | appendFailed disabled offset =>
      cases h
      exact .stream _ _ _ (.failed disabled offset hfree)
  | close ok offset =>
      cases h
      exact .stream _ _ _ (.closed ok offset hfree)
  | closeFds offset =>
      cases h
      exact .stream _ _ _ (.closedFds offset hfree)
  | read j =>
      simp only [lockStep] at h
      split at h
      · next x hx =>
          split at h
          · next hpc =>
              cases h
              exact .read j x hfree hx hpc
          · cases h
      · cases h
  | _ => cases h

theorem step_cases (h : s.step a = some t) : Step s a t := by
  have hlock : ∀ {a : FanoutAct},
      (if s.stream.adding.isNone then s.lockStep a else none) = some t → Step s a t := by
    intro a h
    split at h
    · next hfree => exact lockStep_cases (Option.isNone_iff_eq_none.mp hfree) h
    · cases h
  cases a with
  | append payloads offset => exact hlock h
  | appendFailed disabled offset => exact hlock h
  | close ok offset => exact hlock h
  | closeFds offset => exact hlock h
  | read j => exact hlock h
  | addEntry =>
      simp only [step] at h
      split at h
      · next payloads stop rest hadding =>
          cases h
          exact .quiet (.added payloads stop rest hadding)
      · cases h
  | release =>
      simp only [step] at h
      split at h
      · next payloads hadding =>
          cases h
          exact .stream _ _ _ (.released payloads hadding)
      · cases h
  | notify i =>
      obtain ⟨n, hn, rfl⟩ := Option.map_eq_some_iff.mp h
      exact .notify i n hn
  | post i =>
      obtain ⟨n, hn, rfl⟩ := Option.map_eq_some_iff.mp h
      exact .post i n hn
  | deliver i =>
      simp only [step] at h
      split at h
      · next hidle =>
          obtain ⟨n, hn, rfl⟩ := Option.map_eq_some_iff.mp h
          exact .deliver i n hidle hn
      · cases h
  | subscribe offset =>
      simp only [step] at h
      split at h
      · next hidle =>
          cases h
          exact .subscribe offset hidle
      · cases h
  | wait offset =>
      simp only [step] at h
      split at h
      · next hidle =>
          cases h
          exact .wait offset hidle
      · cases h
  | run j =>
      simp only [step] at h
      split at h
      · next x hx =>
          split at h
          · obtain ⟨x', hrun, rfl⟩ := Option.map_eq_some_iff.mp h
            exact .run j x x' hx hrun
          · cases h
      · cases h
  | runWait j =>
      simp only [step] at h
      split at h
      · next x hx =>
          split at h
          · obtain ⟨x', hrun, rfl⟩ := Option.map_eq_some_iff.mp h
            exact .runWait j x x' hx hrun
          · cases h
      · cases h
  | readFailed j =>
      simp only [step] at h
      split at h
      · next x hx =>
          split at h
          · next hpc =>
              cases h
              exact .readFailed j x hx hpc
          · cases h
      · cases h
  | leave j =>
      simp only [step] at h
      split at h
      · next x hx =>
          split at h
          · cases h
            exact .leave j x hx
          · cases h
      · cases h
  | leaveWait j =>
      simp only [step] at h
      split at h
      · next x hx =>
          split at h
          · cases h
            exact .leaveWait j x hx
          · cases h
      · cases h

end Fanout

end Durastream
