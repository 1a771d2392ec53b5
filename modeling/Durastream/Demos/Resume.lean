import Durastream.Aio.Ends
import Durastream.Aio.Wakeups
import Durastream.Demos.Sse

/-!
# The resumable page

One generation of `demos/fastapi_resume.py` and the page that shows it, next to everything that
can happen to the stream and its hub.  The user may drop the connection and open it again
behind the last id, or reload the page, which starts at 0.  Whatever is on its way is lost
with a connection.  One that breaks, or that the server ends, is opened again by the browser.

`Resume.shown_once` says that the page shows a front of the records, each once, across all
connections that the user drops.  When the browser opens the URL again, it asks for the offset
that the URL has: records are shown again, but none is left out (`Resume.none_left_out`).
`Resume.page_catches_up` says that a page that is connected gets all there is.

The other tasks of the loop may run wherever `sse_stream` waits or yields.  The Store is
never closed.  A new generation is another stream, with which the page starts again.

The page starts with the connection that `startNew` opens when its POST has returned.  Until
then nothing is connected and a click on Reconnect, or another one on New generation, opens a
connection that `open` overwrites without closing it, so that two of them write to the page.
This is left out: `init` lies behind the POST, and `startNew` is one step that leaves the
generation.
-/

namespace Durastream

/-! ## The system -/

structure Resume where
  fanout : Fanout
  deleted : Bool
  /-- None when the page shows another generation. -/
  page : Option Page

inductive ResumeAct where
  /-- The threads and the other tasks of the loop. -/
  | world (a : FanoutAct)
  | delete (offset : Nat)
  /-- The task of the connection goes on. -/
  | serve
  /-- Its read, in a thread. -/
  | read
  | readFailed
  | receive
  /-- The connection breaks, or the server has ended it, and the browser opens its URL again. -/
  | reopen
  | stop
  | reconnect
  | reload
  | startNew

/-- The step is one of a task of the loop. -/
def FanoutAct.onLoop : FanoutAct → Bool
  | .deliver _ => true
  | .subscribe _ => true
  | .wait _ => true
  | .run _ => true
  | .runWait _ => true
  | .leave _ => true
  | .leaveWait _ => true
  | _ => false

namespace Resume

def init (name : Name) (data : Bytes) (closed writable : Bool) : Resume :=
  ⟨.init name data closed writable, false, some .new⟩

/-- The page and its connection. -/
def connected (s : Resume) : Option (Page × EventSource) :=
  s.page.bind fun p => p.es.map fun es => (p, es)

/-- The task of the connection has got here, with these events. -/
def setTask (s : Resume) (p : Page) (es : EventSource) (x : SseStream) (events : List Sse) :
    Resume :=
  { s with page := some { p with es := some { es with task := x, flight := es.flight ++ events } } }

/-- The loop is free for its other tasks, and the Store is not closed. -/
def allows (s : Resume) (a : FanoutAct) : Bool :=
  match a with
  | .closeFds _ => false
  | _ => !a.onLoop || s.connected.all fun c => c.2.task.suspended

/-- The task of the connection goes on. -/
def serve (s : Resume) (p : Page) (es : EventSource) : Option Resume :=
  match es.task.pc with
  | .controlled =>
      (s.fanout.step (.wait es.task.offset)).map fun f =>
        { s.setTask p es { es.task with pc := .waiting s.fanout.waiters.length } [] with
          fanout := f }
  | .waiting j =>
      (s.fanout.waiters[j]?).bind fun w =>
        match w.pc with
        | .returned _ => some (s.setTask p es { es.task with pc := .top } [])
        | .raised => some (s.setTask p es { es.task with pc := .raised } [])
        | _ => none
  | _ =>
      (es.task.run es.token s.deleted s.fanout.stream).map fun r => s.setTask p es r.1 r.2

/-- The read of the task ends. -/
def fetch (s : Resume) (p : Page) (es : EventSource) (r : Except Error (List Bytes)) :
    Option Resume :=
  match es.task.pc with
  | .reading => some (s.setTask p es { es.task with pc := .fetched r } [])
  | _ => none

def step (s : Resume) : ResumeAct → Option Resume
  | .world a =>
      if s.allows a then (s.fanout.step a).map fun f => { s with fanout := f } else none
  | .delete offset =>
      (s.fanout.step (.closeFds offset)).map fun f => { s with fanout := f, deleted := true }
  | .serve =>
      s.connected.bind fun (p, es) =>
        if !es.task.suspended || s.fanout.idle then s.serve p es else none
  | .read =>
      s.connected.bind fun (p, es) =>
        let m := s.fanout.stream
        if m.adding.isNone then
          s.fetch p es (Durastream.read m.name m.isOpen m.data m.index es.task.offset none)
        else none
  | .readFailed => s.connected.bind fun (p, es) => s.fetch p es (.error .osError)
  | .receive =>
      s.connected.bind fun (p, es) =>
        match es.flight with
        | e :: rest => some { s with page := p.receive es e rest }
        | [] => none
  | .reopen =>
      s.connected.map fun (p, es) =>
        { s with page := some { p with es := some { es with task := .new, flight := [] } } }
  | .stop => s.connected.map fun (p, _) => { s with page := some { p with es := none } }
  | .reconnect =>
      s.page.bind fun p =>
        if p.es.isNone && !p.done then
          some { s with page := some (p.openAt (Nat.toDigits 10 (p.last + 1).toNat) false) }
        else none
  | .reload =>
      s.page.map fun p =>
        { s with page :=
          if p.done then none else some (Page.openAt ⟨-1, [], false, none⟩ ['0'] true) }
  | .startNew => s.page.map fun _ => { s with page := none }

end Resume

/-! ## The invariant -/

namespace Resume

structure Ok (once : Prop) (s : Resume) : Prop where
  fanout : s.fanout.Awake
  page : Sse.Plain s.fanout.stream.records →
    ∀ p, s.page = some p → ∃ high, p.Ok s.fanout s.deleted once high

variable {once : Prop} {s t : Resume} {a : ResumeAct} {p : Page} {es : EventSource}

theorem connected_eq_some (h : s.connected = some (p, es)) : s.page = some p ∧ p.es = some es := by
  obtain ⟨q, hq, hes⟩ := Option.bind_eq_some_iff.mp h
  obtain ⟨other, hother, heq⟩ := Option.map_eq_some_iff.mp hes
  cases heq
  exact ⟨hq, hother⟩

namespace Ok

theorem init (name : Name) (data : Bytes) (closed writable : Bool) :
    (Resume.init name data closed writable).Ok once := by
  refine ⟨⟨.init name data closed writable, fun _ _ heq => (by cases heq),
    fun _ hmem => absurd hmem List.not_mem_nil, fun _ hmem => absurd hmem List.not_mem_nil⟩,
    fun _ p hp => ?_⟩
  cases hp
  exact ⟨0, .openAt (fun next => rfl) false⟩

/-- The stream and the hub go on. -/
theorem grows (h : s.Ok once) {b : FanoutAct} {f : Fanout} (hf : s.fanout.step b = some f)
    {deleted : Bool} (hdeleted : s.deleted = true → deleted = true) :
    ({ s with fanout := f, deleted := deleted } : Resume).Ok once := by
  have hstep := Fanout.step_cases hf
  have hgrows := hstep.grows h.fanout.ok
  refine ⟨h.fanout.step hstep, fun hplain p hp => ?_⟩
  obtain ⟨high, hok⟩ := h.page (hplain.of_prefix hgrows.records) p hp
  exact ⟨high, hok.grows h.fanout.ok hstep hdeleted⟩

/-- The page goes on. -/
theorem setPage (h : s.Ok once) {page : Option Page}
    (hpage : Sse.Plain s.fanout.stream.records → ∀ p', page = some p' →
      ∃ high, p'.Ok s.fanout s.deleted once high) : ({ s with page := page } : Resume).Ok once :=
  ⟨h.fanout, hpage⟩

/-- The task goes on. -/
theorem setTask (h : s.Ok once) (hconnected : s.connected = some (p, es)) {x : SseStream}
    {events : List Sse}
    (hnext : ∀ {o lo n : Nat}, es.Ok s.fanout s.deleted o lo n → ∃ n',
      ({ es with task := x, flight := es.flight ++ events } : EventSource).Ok s.fanout s.deleted
        o lo n') : (s.setTask p es x events).Ok once := by
  obtain ⟨hp, hes⟩ := connected_eq_some hconnected
  refine h.setPage fun hplain p' hp' => ?_
  cases hp'
  obtain ⟨high, hok⟩ := h.page hplain p hp
  exact ⟨high, hok.setSource hes hnext⟩

/-- The read of the task has ended. -/
theorem fetch (h : s.Ok once) (hconnected : s.connected = some (p, es))
    {r : Except Error (List Bytes)}
    (hr : ∀ batch, r = .ok batch → ∀ n : Nat, es.task.offset = n →
      batch <+: s.fanout.stream.records.drop n) (hstep : s.fetch p es r = some t) : t.Ok once := by
  unfold Resume.fetch at hstep
  split at hstep
  · next hpc =>
      cases hstep
      refine h.setTask hconnected fun hok => ⟨_, hok.goes (by simp [hpc]) (.silent ?_ rfl (by simp)
        (by simp))⟩
      have hsent := hok.sent
      simp only [SseStream.Sent, hpc] at hsent
      cases r with
      | ok batch => exact ⟨hsent, hr batch rfl _ hsent⟩
      | error e => exact hsent
  · cases hstep

/-- The task runs on, or waits. -/
theorem serve (h : s.Ok once) (hconnected : s.connected = some (p, es))
    (hstep : s.serve p es = some t) : t.Ok once := by
  unfold Resume.serve at hstep
  split at hstep
  · next hpc =>
      obtain ⟨f, hf, rfl⟩ := Option.map_eq_some_iff.mp hstep
      have hw : f.waiters[s.fanout.waiters.length]? = some (.new es.task.offset) := by
        simp only [Fanout.step] at hf
        split at hf
        · cases hf
          exact List.getElem?_concat_length
        · cases hf
      have hgrown : ({ s with fanout := f, deleted := s.deleted } : Resume).Ok once := h.grows hf id
      exact hgrown.setTask hconnected fun hok => ⟨_, hok.waits hpc hw rfl⟩
  · next j hpc =>
      obtain ⟨w, hw, hstep⟩ := Option.bind_eq_some_iff.mp hstep
      have hsent : ∀ {o lo n : Nat}, es.Ok s.fanout s.deleted o lo n → es.task.offset = n := by
        intro o lo n hok
        have hsent := hok.sent
        simpa only [SseStream.Sent, hpc] using hsent
      split at hstep
      · cases hstep
        exact h.setTask hconnected fun hok =>
          ⟨_, hok.goes (by simp [hpc]) (.silent (hsent hok) rfl (by simp) (by simp))⟩
      · cases hstep
        exact h.setTask hconnected fun hok =>
          ⟨_, hok.goes (by simp [hpc]) (.silent trivial rfl (by simp) (by simp))⟩
      · cases hstep
  · obtain ⟨⟨x, events⟩, hrun, rfl⟩ := Option.map_eq_some_iff.mp hstep
    refine h.setTask hconnected fun {o lo n} hok => ?_
    have hopening : es.task.pc = .opening →
        ∀ i, fromToken es.token s.fanout.stream.nextOffset = .ok i → i = n := by
      intro hpc i hi
      rw [hok.token] at hi
      cases hi
      rw [hok.opening hpc]
    obtain ⟨n', hgoes⟩ := SseStream.Goes.run h.fanout.ok.stream hok.sent hopening hrun
    refine ⟨n', hok.goes (fun hpc => ?_) hgoes⟩
    simp [SseStream.run, hpc] at hrun

theorem step (h : s.Ok once) (hreopen : once → a ≠ .reopen) (hstep : s.step a = some t) :
    t.Ok once := by
  cases a with
  | world b =>
      simp only [Resume.step] at hstep
      split at hstep
      · obtain ⟨f, hf, rfl⟩ := Option.map_eq_some_iff.mp hstep
        exact h.grows hf id
      · cases hstep
  | delete offset =>
      obtain ⟨f, hf, rfl⟩ := Option.map_eq_some_iff.mp hstep
      exact h.grows hf fun _ => rfl
  | serve =>
      obtain ⟨⟨p, es⟩, hconnected, hstep⟩ := Option.bind_eq_some_iff.mp hstep
      dsimp only at hstep
      split at hstep
      · exact h.serve hconnected hstep
      · cases hstep
  | read =>
      obtain ⟨⟨p, es⟩, hconnected, hstep⟩ := Option.bind_eq_some_iff.mp hstep
      dsimp only at hstep
      split at hstep
      · next hfree =>
          refine h.fetch hconnected (fun batch hbatch n hn => ?_) hstep
          rw [hn] at hbatch
          exact h.fanout.ok.stream.read (Option.isNone_iff_eq_none.mp hfree) hbatch
      · cases hstep
  | readFailed =>
      obtain ⟨⟨p, es⟩, hconnected, hstep⟩ := Option.bind_eq_some_iff.mp hstep
      exact h.fetch hconnected (fun batch hbatch => by cases hbatch) hstep
  | receive =>
      obtain ⟨⟨p, es⟩, hconnected, hstep⟩ := Option.bind_eq_some_iff.mp hstep
      obtain ⟨hp, hes⟩ := connected_eq_some hconnected
      dsimp only at hstep
      split at hstep
      · next e rest hflight =>
          cases hstep
          refine h.setPage fun hplain p' hp' => ?_
          obtain ⟨high, hok⟩ := h.page hplain p hp
          exact hok.receive hplain hes hflight hp'
      · cases hstep
  | reopen =>
      obtain ⟨⟨p, es⟩, hconnected, rfl⟩ := Option.map_eq_some_iff.mp hstep
      obtain ⟨hp, hes⟩ := connected_eq_some hconnected
      refine h.setPage fun hplain p' hp' => ?_
      cases hp'
      obtain ⟨high, hok⟩ := h.page hplain p hp
      refine ⟨high, hok.shown, hok.only, hok.last, hok.le, hok.done, hok.alone, fun es' hes' => ?_⟩
      cases hes'
      obtain ⟨o, lo, n, ho, -, -, hsource⟩ := hok.es es hes
      exact ⟨o, o, o, ho, ho, fun hold => absurd rfl (hreopen hold),
        .openAt hsource.token _ _ hsource.reader⟩
  | stop =>
      obtain ⟨⟨p, es⟩, hconnected, rfl⟩ := Option.map_eq_some_iff.mp hstep
      refine h.setPage fun hplain p' hp' => ?_
      cases hp'
      obtain ⟨high, hok⟩ := h.page hplain p (connected_eq_some hconnected).1
      exact ⟨high, hok.stop⟩
  | reconnect =>
      obtain ⟨p, hp, hstep⟩ := Option.bind_eq_some_iff.mp hstep
      split at hstep
      · cases hstep
        refine h.setPage fun hplain p' hp' => ?_
        cases hp'
        obtain ⟨high, hok⟩ := h.page hplain p hp
        exact ⟨high, hok.reconnect hplain⟩
      · cases hstep
  | reload =>
      obtain ⟨p, hp, rfl⟩ := Option.map_eq_some_iff.mp hstep
      refine h.setPage fun hplain p' hp' => ?_
      split at hp'
      · cases hp'
      · cases hp'
        exact ⟨0, .openAt (fun next => rfl) true⟩
  | startNew =>
      obtain ⟨p, hp, rfl⟩ := Option.map_eq_some_iff.mp hstep
      exact h.setPage fun _ _ hp' => (by cases hp')

end Ok

/-- A run keeps the invariant. -/
theorem Ok.run {acts : List ResumeAct} (hrun : Lts.run Resume.step s acts = some t)
    (hreopen : once → .reopen ∉ acts) (h : s.Ok once) : t.Ok once := by
  have hmeets : Lts.Meets Resume.step (fun _ a => once → a ≠ .reopen) s acts :=
    .of_mem fun a ha hold heq => hreopen hold (by rw [← heq]; exact ha)
  exact Lts.run_invariant_of_meets (fun _ _ _ h hne hstep => Ok.step h hne hstep) hrun hmeets h

end Resume

/-! ## When nothing goes on -/

theorem Waiter.suspended_of_stuck {x : Waiter} {m : LiveStream} (hstuck : x.run m = none) :
    x.suspended = true := by
  cases hpc : x.pc with
  | testClosed =>
      simp only [Waiter.run, hpc] at hstuck
      split at hstuck <;> cases hstuck
  | test | recheck | recheckClosed => simp [Waiter.run, hpc] at hstuck
  | _ => simp [Waiter.suspended, hpc]

theorem SseStream.suspended_of_stuck {x : SseStream} {token : Token} {deleted : Bool}
    {m : LiveStream} (hstuck : x.run token deleted m = none) : x.suspended = true := by
  cases hpc : x.pc with
  | top | testEnd | control =>
      simp only [SseStream.run, hpc] at hstuck
      split at hstuck <;> cases hstuck
  | testClosed => simp [SseStream.run, hpc] at hstuck
  | _ => simp [SseStream.suspended, hpc]

/-- The step ends a change that has begun, or is one of a task that has something to do. -/
def FanoutAct.goesOn : FanoutAct → Bool
  | .addEntry => true
  | .release => true
  | .notify _ => true
  | .post _ => true
  | .deliver _ => true
  | .run _ => true
  | .runWait _ => true
  | .read _ => true
  | _ => false

/-- Neither a change nor a task goes on. -/
structure Fanout.Still (f : Fanout) : Prop where
  adding : f.stream.adding = none
  notes : ¬f.Noted
  idle : f.idle = true
  waiters : ∀ x ∈ f.waiters, x.left = false → x.pc = .waiting ∧ x.sub.event = false

theorem Fanout.Still.of_stuck {f : Fanout}
    (h : ∀ a : FanoutAct, a.goesOn = true → f.step a = none) :
    f.Still := by
  have hadding : f.stream.adding = none := by
    cases hadding : f.stream.adding with
    | none => rfl
    | some batch =>
        obtain ⟨payloads, stops⟩ := batch
        cases stops with
        | nil => simpa [Fanout.step, hadding] using h .release rfl
        | cons stop rest => simpa [Fanout.step, hadding] using h .addEntry rfl
  have hnil : ∀ {notes : List Note}, notes[0]? = none → notes = [] := fun hnone =>
    List.eq_nil_of_length_eq_zero (Nat.le_zero.mp (List.getElem?_eq_none_iff.mp hnone))
  have hchanges : f.changes = [] := hnil (Option.map_eq_none_iff.mp (h (.notify 0) rfl))
  have hcalls : f.calls = [] := hnil (Option.map_eq_none_iff.mp (h (.post 0) rfl))
  have hsubscribers : f.subscribers.all Subscriber.suspended = true := by
    refine List.all_eq_true.mpr fun x hmem => ?_
    obtain ⟨j, hj⟩ := List.getElem?_of_mem hmem
    cases hbusy : x.suspended with
    | true => rfl
    | false =>
        have hnone := h (.run j) rfl
        simp only [Fanout.step, hj, hbusy, Bool.not_false, Bool.true_or, if_true,
          Option.map_eq_none_iff] at hnone
        rw [Subscriber.suspended_of_stuck hnone] at hbusy
        cases hbusy
  have hwaiters : f.waiters.all Waiter.suspended = true := by
    refine List.all_eq_true.mpr fun x hmem => ?_
    obtain ⟨j, hj⟩ := List.getElem?_of_mem hmem
    cases hbusy : x.suspended with
    | true => rfl
    | false =>
        have hnone := h (.runWait j) rfl
        simp only [Fanout.step, hj, hbusy, Bool.not_false, Bool.true_or, if_true,
          Option.map_eq_none_iff] at hnone
        rw [Waiter.suspended_of_stuck hnone] at hbusy
        cases hbusy
  have hidle : f.idle = true := Bool.and_eq_true_iff.mpr ⟨hsubscribers, hwaiters⟩
  have hposted : f.posted = [] := by
    have hnone := h (.deliver 0) rfl
    rw [Fanout.step, if_pos hidle, Option.map_eq_none_iff] at hnone
    exact hnil hnone
  refine ⟨hadding, by simp [Fanout.Noted, hchanges, hcalls, hposted], hidle, fun x hmem hleft => ?_⟩
  obtain ⟨j, hj⟩ := List.getElem?_of_mem hmem
  have hsuspended := List.all_eq_true.mp hwaiters x hmem
  cases hpc : x.pc with
  | waiting =>
      cases hevent : x.sub.event with
      | false => exact ⟨rfl, rfl⟩
      | true =>
          have hnone := h (.runWait j) rfl
          simp [Fanout.step, hj, hidle, Waiter.run, hpc, hevent] at hnone
  | returned b => simp [Waiter.left, hpc] at hleft
  | raised => simp [Waiter.left, hpc] at hleft
  | _ => simp [Waiter.suspended, hpc] at hsuspended

theorem Fanout.Still.stuck {f : Fanout} (h : f.Still) (hsubscribers : f.subscribers = [])
    {a : FanoutAct} (ha : a.goesOn = true) : f.step a = none := by
  have hnotes : f.changes = [] ∧ f.calls = [] ∧ f.posted = [] := by
    simpa only [Fanout.Noted, not_or, not_not] using h.notes
  cases a with
  | addEntry => simp [Fanout.step, h.adding]
  | release => simp [Fanout.step, h.adding]
  | notify i => simp [Fanout.step, hnotes.1]
  | post i => simp [Fanout.step, hnotes.2.1]
  | deliver i => simp [Fanout.step, hnotes.2.2]
  | run j => simp [Fanout.step, hsubscribers]
  | read j => simp [Fanout.step, Fanout.lockStep, hsubscribers]
  | runWait j =>
      rw [Fanout.step]
      split
      · next x hx =>
          have hnone : x.run f.stream = none := by
            cases hleft : x.left with
            | true =>
                cases hpc : x.pc <;> simp [Waiter.left, hpc] at hleft <;> simp [Waiter.run, hpc]
            | false =>
                obtain ⟨hpc, hevent⟩ := h.waiters x (List.mem_of_getElem? hx) hleft
                simp [Waiter.run, hpc, hevent]
          rw [hnone, Option.map_none, ite_self]
      · rfl
  | _ => cases ha

/-- The step is one of the page or the server; neither the user nor a producer nor a failure
has a part in it. -/
def ResumeAct.goesOn : ResumeAct → Bool
  | .world a => a.goesOn
  | .serve => true
  | .read => true
  | .receive => true
  | _ => false

namespace Resume

variable {once : Prop} {s t : Resume} {p : Page} {es : EventSource}

/-- A task that waits has nothing to wait for but a change. -/
theorem Ok.waiter (h : s.Ok once) (hstill : s.fanout.Still) {j : Nat} {w : Waiter}
    (hw : s.fanout.waiters[j]? = some w) (hleft : w.left = false) :
    s.fanout.stream.closed = false ∧ (s.fanout.stream.nextOffset : Int) ≤ w.offset := by
  have hmem := List.mem_of_getElem? hw
  obtain ⟨hpc, hevent⟩ := hstill.waiters w hmem hleft
  obtain ⟨-, halert⟩ := h.fanout.waiters w hmem hleft
  refine ⟨(halert.closed hpc hevent).resolve_right hstill.notes, ?_⟩
  rcases halert.behind (by simp [Waiter.parked, hpc, hevent]) with hle | hadding | hnoted
  · exact hle
  · exact absurd hstill.adding hadding
  · exact absurd hnoted hstill.notes

/-- Where nothing goes on, the hub is still, the page has read all that was sent, and the
task has ended or waits. -/
theorem still_of_stuck (hconnected : s.connected = some (p, es))
    (hstuck : ∀ a : ResumeAct, a.goesOn = true → s.step a = none) :
    s.fanout.Still ∧ es.flight = [] ∧
      (es.task.pc = .raised ∨ es.task.pc = .finished ∨
        ∃ j, es.task.pc = .waiting j ∧ ∀ w, s.fanout.waiters[j]? = some w → w.left = false) := by
  have hserve := hstuck .serve rfl
  simp only [Resume.step, hconnected, Option.bind_some] at hserve
  have hsuspended : es.task.suspended = true := by
    cases hbusy : es.task.suspended with
    | true => rfl
    | false =>
        rw [if_pos (by simp [hbusy]), Resume.serve] at hserve
        split at hserve
        · next hpc => simp [SseStream.suspended, hpc] at hbusy
        · next j hpc => simp [SseStream.suspended, hpc] at hbusy
        · rw [Option.map_eq_none_iff] at hserve
          rw [SseStream.suspended_of_stuck hserve] at hbusy
          cases hbusy
  have hstill : s.fanout.Still := by
    refine .of_stuck fun a ha => ?_
    have hnone := hstuck (.world a) ha
    have hallows : s.allows a = true := by
      cases a <;> simp [Resume.allows, hconnected, hsuspended, FanoutAct.goesOn] at ha ⊢
    rw [Resume.step, if_pos hallows, Option.map_eq_none_iff] at hnone
    exact hnone
  have hflight : es.flight = [] := by
    have hnone := hstuck .receive rfl
    simp only [Resume.step, hconnected, Option.bind_some] at hnone
    split at hnone
    · cases hnone
    · assumption
  rw [if_pos (by simp [hstill.idle]), Resume.serve] at hserve
  refine ⟨hstill, hflight, ?_⟩
  cases hpc : es.task.pc with
  | raised => exact .inl rfl
  | finished => exact .inr (.inl rfl)
  | waiting j =>
      refine .inr (.inr ⟨j, rfl, fun w hw => ?_⟩)
      simp only [hpc, hw, Option.bind_some] at hserve
      cases hleft : w.pc <;> simp [hleft, Waiter.left] at hserve ⊢
  | reading =>
      have hnone := hstuck .read rfl
      simp [Resume.step, hconnected, hstill.adding, Resume.fetch, hpc] at hnone
  | controlled => simp [hpc, Fanout.step, hstill.idle] at hserve
  | opening =>
      simp only [hpc, Option.map_eq_none_iff, SseStream.run] at hserve
      split at hserve
      · cases hserve
      · split at hserve <;> cases hserve
  | fetched r => cases r <;> simp [hpc, SseStream.run] at hserve
  | sending batch k => simp [hpc, SseStream.run] at hserve
  | _ => simp [SseStream.suspended, hpc] at hsuspended

/-- A page that has read all that was sent, by a task that waits. -/
theorem stuck_of_still (hstill : s.fanout.Still) (hsubscribers : s.fanout.subscribers = [])
    (hconnected : s.connected = some (p, es)) (hflight : es.flight = []) {j : Nat} {w : Waiter}
    (hpc : es.task.pc = .waiting j) (hw : s.fanout.waiters[j]? = some w) (hleft : w.left = false)
    {a : ResumeAct} (ha : a.goesOn = true) : s.step a = none := by
  cases a with
  | world a =>
      rw [Resume.step, hstill.stuck hsubscribers ha, Option.map_none, ite_self]
  | serve =>
      have hwaiting := (hstill.waiters w (List.mem_of_getElem? hw) hleft).1
      simp [Resume.step, hconnected, Resume.serve, hpc, hw, hwaiting]
  | read => simp [Resume.step, hconnected, Resume.fetch, hpc]
  | receive => simp [Resume.step, hconnected, hflight]
  | _ => cases ha

/-- Where nothing goes on, the connection has carried all there is, unless its task has
failed. -/
theorem Ok.carried (h : s.Ok once) (hconnected : s.connected = some (p, es)) {o lo n : Nat}
    (hok : es.Ok s.fanout s.deleted o lo n)
    (hstuck : ∀ a : ResumeAct, a.goesOn = true → s.step a = none) (hpc : es.task.pc ≠ .raised) :
    s.fanout.stream.closed = false ∧ s.fanout.stream.records.length ≤ lo := by
  obtain ⟨hstill, hflight, hends⟩ := still_of_stuck hconnected hstuck
  obtain ⟨carried, hcarried, hcarries⟩ := hok.flight
  rw [hflight, eq_comm, List.append_eq_nil_iff] at hcarried
  obtain ⟨rfl, hclosing⟩ := hcarried
  rcases hends with hraised | hfinished | ⟨j, hwaiting, hleft⟩
  · exact absurd hraised hpc
  · simp [SseStream.closing, hfinished] at hclosing
  · obtain ⟨w, hw, hoffset⟩ := hok.waiting j hwaiting
    obtain ⟨hopen, hle⟩ := h.waiter hstill hw (hleft w hw)
    have hsent := hok.sent
    simp only [SseStream.Sent, hwaiting] at hsent
    have hlength := h.fanout.ok.stream.nextOffset_of_free
      (by simp [LiveStream.pending, hstill.adding])
    cases hcarries
    exact ⟨hopen, by omega⟩

/-! ## The results -/

/-- As long as the browser does not open a URL again, the page shows a front of the records,
each once and in order, across all connections that the user drops, and knows how many; and
once it is done it shows them all, unless the stream was deleted.  No text has a line end,
which would end its field, and there are at most `2 ^ 53` records, so that ids are exact. -/
theorem shown_once (name : Name) (data : Bytes) (closed writable : Bool) (acts : List ResumeAct)
    (s : Resume) (hrun : Lts.run step (init name data closed writable) acts = some s)
    (hreopen : .reopen ∉ acts) (hplain : Sse.Plain s.fanout.stream.records) (p : Page)
    (hp : s.page = some p) :
    p.out.map some <+: s.fanout.stream.records.map SseStream.decode ∧
      p.last + 1 = p.out.length ∧
      (p.done = true → s.deleted = false →
        s.fanout.stream.closed = true ∧
          p.out.map some = s.fanout.stream.records.map SseStream.decode) := by
  have hok : s.Ok True := .run hrun (fun _ => hreopen) (.init name data closed writable)
  obtain ⟨high, hpage⟩ := hok.page hplain p hp
  obtain ⟨hlength, hlast⟩ := hpage.alone trivial
  have heq : (s.fanout.stream.records.take high).map SseStream.decode = p.out.map some := by
    refine hpage.shown.eq_of_length ?_
    rw [List.length_map, List.length_map, List.length_take_of_le hpage.le, hlength]
  refine ⟨?_, by rw [hlast, hlength], fun hdone hdeleted => ?_⟩
  · rw [← heq]
    exact (List.take_prefix _ _).map _
  · obtain ⟨hclosed, rfl⟩ := hpage.ended hdone hdeleted
    rw [List.take_length] at heq
    exact ⟨hclosed, heq.symm⟩

/-- The user drops the connection with a record on its way, another one is appended, the
stream is closed, and the user connects again. -/
def droppedAndResumed : List ResumeAct :=
  [.world (.append [[97], [98]] 0), .world .addEntry, .world .addEntry, .world .release, .serve,
    .serve, .read, .serve, .serve, .receive, .stop, .world (.append [[99]] 0), .world .addEntry,
    .world .release, .world (.close true 0), .reconnect, .serve, .serve, .read, .serve, .serve,
    .serve, .serve, .serve, .receive, .receive, .receive]

theorem shown_once_droppedAndResumed :
    ∃ s p, Lts.run step (init ['t'] [] false true) droppedAndResumed = some s ∧ s.page = some p ∧
      p.out = [['a'], ['b'], ['c']] ∧
      p.out.map some = s.fanout.stream.records.map SseStream.decode := by
  have hmap : ((Lts.run step (init ['t'] [] false true) droppedAndResumed).bind fun s =>
      s.page.map fun p => (p.out, p.done, s.deleted, s.fanout.stream.records)) =
        some ([['a'], ['b'], ['c']], true, false, [[97], [98], [99]]) := by
    decide +kernel
  obtain ⟨s, hrun, hview⟩ := Option.bind_eq_some_iff.mp hmap
  obtain ⟨p, hp, hview⟩ := Option.map_eq_some_iff.mp hview
  simp only [Prod.mk.injEq] at hview
  obtain ⟨hout, hdone, hdeleted, hrecords⟩ := hview
  have hplain : Sse.Plain s.fanout.stream.records := by
    rw [hrecords]
    exact .of_texts (by decide) (by decide +kernel)
  obtain ⟨-, -, hall⟩ := shown_once ['t'] [] false true droppedAndResumed s hrun
    (by simp [droppedAndResumed]) hplain p hp
  exact ⟨s, p, hrun, hp, hout, (hall hdone hdeleted).2⟩

/-- The browser opens a URL again, and the page shows a record twice. -/
def openedAgain : List ResumeAct :=
  [.world (.append [[97], [98]] 0), .world .addEntry, .world .addEntry, .world .release, .serve,
    .serve, .read, .serve, .receive, .reopen, .serve, .serve, .read, .serve, .serve, .receive,
    .receive]

/-- `shown_once` needs its condition. -/
theorem shown_again :
    ∃ s p, Lts.run step (init ['t'] [] false true) openedAgain = some s ∧ s.page = some p ∧
      ¬p.out.map some <+: s.fanout.stream.records.map SseStream.decode := by
  have hmap : ((Lts.run step (init ['t'] [] false true) openedAgain).bind fun s =>
      s.page.map fun p => (p.out, s.fanout.stream.records)) =
        some ([['a'], ['a'], ['b']], [[97], [98]]) := by
    decide +kernel
  obtain ⟨s, hrun, hview⟩ := Option.bind_eq_some_iff.mp hmap
  obtain ⟨p, hp, hview⟩ := Option.map_eq_some_iff.mp hview
  obtain ⟨hout, hrecords⟩ := Prod.mk.inj hview
  refine ⟨s, p, hrun, hp, fun hfront => ?_⟩
  rw [hout, hrecords] at hfront
  exact absurd hfront.length_le (by decide)

/-- Also when the browser opens URLs again, whatever the page shows is a record, no record up
to the last one is left out, and a page that is done has all of them; with the same
proviso. -/
theorem none_left_out (name : Name) (data : Bytes) (closed writable : Bool)
    (acts : List ResumeAct) (s : Resume)
    (hrun : Lts.run step (init name data closed writable) acts = some s)
    (hplain : Sse.Plain s.fanout.stream.records) (p : Page) (hp : s.page = some p) :
    (∀ text ∈ p.out, some text ∈ s.fanout.stream.records.map SseStream.decode) ∧
      ((s.fanout.stream.records.take (p.last + 1).toNat).map SseStream.decode).Sublist
        (p.out.map some) ∧
      (p.done = true → s.deleted = false →
        s.fanout.stream.closed = true ∧
          (s.fanout.stream.records.map SseStream.decode).Sublist (p.out.map some)) := by
  have hok : s.Ok False := .run hrun False.elim (.init name data closed writable)
  obtain ⟨high, hpage⟩ := hok.page hplain p hp
  refine ⟨hpage.only, ?_, fun hdone hdeleted => ?_⟩
  · have hle : (p.last + 1).toNat ≤ high := by
      have := hpage.last
      omega
    exact ((List.take_sublist_take_left hle).map _).trans hpage.shown
  · obtain ⟨hclosed, heq⟩ := hpage.ended hdone hdeleted
    have hshown := hpage.shown
    rw [heq, List.take_length] at hshown
    exact ⟨hclosed, hshown⟩

theorem none_left_out_openedAgain :
    ∃ s p, Lts.run step (init ['t'] [] false true) openedAgain = some s ∧ s.page = some p ∧
      ((s.fanout.stream.records.take (p.last + 1).toNat).map SseStream.decode).Sublist
        (p.out.map some) := by
  have hmap : ((Lts.run step (init ['t'] [] false true) openedAgain).bind fun s =>
      s.page.map fun _ => s.fanout.stream.records) = some [[97], [98]] := by
    decide +kernel
  obtain ⟨s, hrun, hview⟩ := Option.bind_eq_some_iff.mp hmap
  obtain ⟨p, hp, hrecords⟩ := Option.map_eq_some_iff.mp hview
  have hplain : Sse.Plain s.fanout.stream.records := by
    rw [hrecords]
    exact .of_texts (by decide) (by decide +kernel)
  exact ⟨s, p, hrun, hp, (none_left_out ['t'] [] false true openedAgain s hrun hplain p hp).2.1⟩

/-- When neither the page nor the server can go on, a page that is connected shows all the
records there are, unless the server has failed to send one: no wake-up is lost.  As in
`shown_once`, no text has a line end and ids are exact. -/
theorem page_catches_up (name : Name) (data : Bytes) (closed writable : Bool)
    (acts : List ResumeAct) (s : Resume)
    (hrun : Lts.run step (init name data closed writable) acts = some s)
    (hplain : Sse.Plain s.fanout.stream.records) (p : Page) (es : EventSource)
    (hconnected : s.connected = some (p, es)) (hpc : es.task.pc ≠ .raised)
    (hstuck : ∀ a : ResumeAct, a.goesOn = true → s.step a = none) :
    s.fanout.stream.closed = false ∧
      (s.fanout.stream.records.map SseStream.decode).Sublist (p.out.map some) := by
  have hok : s.Ok False := .run hrun False.elim (.init name data closed writable)
  obtain ⟨hp, hes⟩ := connected_eq_some hconnected
  obtain ⟨high, hpage⟩ := hok.page hplain p hp
  obtain ⟨o, lo, n, -, hlo, -, hsource⟩ := hpage.es es hes
  obtain ⟨hopen, hle⟩ := hok.carried hconnected hsource hstuck hpc
  have hshown := hpage.shown
  rw [List.take_of_length_le (hle.trans hlo)] at hshown
  exact ⟨hopen, hshown⟩

/-- The task waits, is woken by an append, sends the record and waits again. -/
def wokenAndSent : List ResumeAct :=
  [.serve, .serve, .serve, .serve, .serve, .world (.runWait 0), .world (.runWait 0),
    .world (.runWait 0), .world (.runWait 0), .world (.append [[97]] 0), .world .addEntry,
    .world .release, .world (.notify 0), .world (.post 0), .world (.deliver 0),
    .world (.runWait 0), .world (.runWait 0), .serve, .serve, .read, .serve, .serve, .serve,
    .serve, .serve, .world (.runWait 1), .world (.runWait 1), .world (.runWait 1),
    .world (.runWait 1), .receive, .receive, .receive]

theorem page_catches_up_wokenAndSent :
    ∃ s p, Lts.run step (init ['t'] [] false true) wokenAndSent = some s ∧ s.page = some p ∧
      p.out = [['a']] ∧
      (s.fanout.stream.records.map SseStream.decode).Sublist (p.out.map some) := by
  have hmap : ((Lts.run step (init ['t'] [] false true) wokenAndSent).bind fun s =>
      s.connected.map fun c => (c.1.out, s.fanout.stream.records,
        decide (c.2.task.pc = .waiting 1) && c.2.flight.isEmpty,
        (s.fanout.waiters[1]?).any (fun w => !w.left) && s.fanout.subscribers.isEmpty,
        s.fanout.stream.adding.isNone && s.fanout.idle && s.fanout.changes.isEmpty &&
          s.fanout.calls.isEmpty && s.fanout.posted.isEmpty,
        decide (∀ x ∈ s.fanout.waiters, x.left = false → x.pc = .waiting ∧ x.sub.event = false))) =
      some ([['a']], [[97]], true, true, true, true) := by
    decide +kernel
  obtain ⟨s, hrun, hview⟩ := Option.bind_eq_some_iff.mp hmap
  obtain ⟨⟨p, es⟩, hconnected, hview⟩ := Option.map_eq_some_iff.mp hview
  simp only [Prod.mk.injEq, Bool.and_eq_true, decide_eq_true_eq, List.isEmpty_iff,
    Option.isNone_iff_eq_none] at hview
  obtain ⟨hout, hrecords, ⟨hpc, hflight⟩, ⟨hwaiter, hsubscribers⟩, hquiet, hwaiters⟩ := hview
  obtain ⟨⟨⟨⟨hadding, hidle⟩, hchanges⟩, hcalls⟩, hposted⟩ := hquiet
  obtain ⟨w, hw, hleft⟩ := (Option.any_eq_true _ _).mp hwaiter
  have hstill : s.fanout.Still :=
    ⟨hadding, by simp [Fanout.Noted, hchanges, hcalls, hposted], hidle, hwaiters⟩
  have hplain : Sse.Plain s.fanout.stream.records := by
    rw [hrecords]
    exact .of_texts (by decide) (by decide +kernel)
  obtain ⟨-, hall⟩ := page_catches_up ['t'] [] false true wokenAndSent s hrun hplain p es hconnected
    (by simp [hpc]) fun a ha => stuck_of_still hstill hsubscribers hconnected hflight hpc hw
      (by simpa using hleft) ha
  exact ⟨s, p, hrun, (connected_eq_some hconnected).1, hout, hall⟩

end Resume

end Durastream
