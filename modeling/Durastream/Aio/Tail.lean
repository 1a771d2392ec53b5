import Durastream.Aio.Subscribe

/-!
# The synchronous tail

`DurableStream.subscribe` in a thread of its own, next to everything that can happen
to the stream and its hub.  It reads from the log, yields what it has read, and waits
on the condition of the stream.  `read` and the test before the wait take the lock of
the stream, so an append in progress holds them up.

`read` clamps a negative offset, but `subscribe` adds the length of what it has read to
the offset as it was given.  So below zero it reads the first records again, and on an
empty stream it never gets anywhere.  `AsyncDurableStream.subscribe` clamps.
`tail_exact_iff` says that this is the only difference.

On a closed stream every step of the task makes `TailSubscriber.toGo` smaller.
-/

namespace Durastream

inductive TailPc where
  /-- `batch = self.read(offset)`. -/
  | reading
  /-- `yield from batch`, after `k` of its records. -/
  | yielding (batch : List Bytes) (k : Nat)
  /-- `with self._cond`. -/
  | testing
  /-- `self._cond.wait()`. -/
  | waiting (woken : Bool)
  | returned
  | raised

/-- A thread that runs `DurableStream.subscribe`. -/
structure TailSubscriber where
  offset : Int
  pc : TailPc
  out : List Bytes

namespace TailSubscriber

def new (offset : Int) : TailSubscriber := ⟨offset, .reading, []⟩

/-- `notify_all`. -/
def wake (x : TailSubscriber) : TailSubscriber :=
  match x.pc with
  | .waiting _ => { x with pc := .waiting true }
  | _ => x

/-- What it does when it has the lock of the condition: wait, return, or read on. -/
def test (x : TailSubscriber) (m : LiveStream) : TailSubscriber :=
  if (m.nextOffset : Int) ≤ x.offset ∧ ¬m.closed then { x with pc := .waiting false }
  else if m.closed ∧ (m.nextOffset : Int) ≤ x.offset then { x with pc := .returned }
  else { x with pc := .reading }

/-- The thread runs on to its next lock, yield or wait. -/
def run (x : TailSubscriber) (m : LiveStream) : Option TailSubscriber :=
  match x.pc with
  | .reading =>
      if m.adding.isNone then
        match read m.name m.isOpen m.data m.index x.offset none with
        | .ok batch => some { x with pc := .yielding batch 0 }
        | .error _ => some { x with pc := .raised }
      else none
  | .yielding batch k =>
      match batch[k]? with
      | some record => some { x with pc := .yielding batch (k + 1), out := x.out ++ [record] }
      | none => some { x with offset := x.offset + batch.length, pc := .testing }
  | .testing => if m.adding.isNone then some (x.test m) else none
  | .waiting woken => if woken && m.adding.isNone then some (x.test m) else none
  | .returned => none
  | .raised => none

end TailSubscriber

/-- The step notifies the condition of the stream. -/
def Fanout.wakes (s : Fanout) : FanoutAct → Bool
  | .release => true
  | a => s.stream.closes a

/-- A stream with its hub, and a thread that tails it. -/
structure Tailing where
  fanout : Fanout
  tail : TailSubscriber

inductive TailAct where
  | world (a : FanoutAct)
  | run

def TailAct.isRun : TailAct → Bool
  | .run => true
  | _ => false

namespace Tailing

def init (name : Name) (data : Bytes) (closed writable : Bool) (offset : Int) : Tailing :=
  ⟨.init name data closed writable, .new offset⟩

def step (s : Tailing) : TailAct → Option Tailing
  | .world a =>
      (s.fanout.step a).map fun f =>
        { s with fanout := f, tail := if s.fanout.wakes a then s.tail.wake else s.tail }
  | .run => (s.tail.run s.fanout.stream).map fun x => { s with tail := x }

end Tailing

/-! ## What holds of it -/

/-- What `subscribe` promises of an offset: the records it has yielded are a front of those
from the offset on, and if the stream is closed and the log can be read, it takes a
bounded number of steps, never gets stuck, and returns with all of them, as a subscriber
of the hub does. -/
def TailExact (offset : Int) : Prop :=
  ∀ name data closed writable acts s,
    Lts.run Tailing.step (.init name data closed writable offset) acts = some s →
    s.tail.out <+: s.fanout.stream.records.drop (max offset 0).toNat ∧
    (s.fanout.stream.closed = true → ∃ n, ∀ more t, Lts.run Tailing.step s more = some t →
      t.fanout.stream.isOpen = true →
      more.countP TailAct.isRun ≤ n ∧
      (t.tail.pc = .returned ∨ (t.step .run).isSome = true) ∧
      (t.tail.pc = .returned →
        t.tail.out =
            (t.fanout.stream.records.take t.fanout.stream.nextOffset).drop (max offset 0).toNat ∧
          ∀ x ∈ t.fanout.subscribers, x.offset = offset → x.pc = .returned →
            x.out = t.tail.out))

namespace TailSubscriber

/-- The steps left from the test of the condition at this offset. -/
def toTest (n o : Nat) : Nat := if n ≤ o then 1 else n - o + 4

/-- A bound for the steps left on a closed stream with `n` records. -/
def toGo (x : TailSubscriber) (n : Nat) : Nat :=
  match x.pc with
  | .reading => n - x.offset.toNat + 3
  | .yielding batch k => batch.length - k + 1 + toTest n (x.offset.toNat + batch.length)
  | .testing => toTest n x.offset.toNat
  | .waiting _ => toTest n x.offset.toNat
  | .returned => 0
  | .raised => 0

/-- The offset of the record that is yielded next. -/
def next (x : TailSubscriber) : Int :=
  match x.pc with
  | .yielding _ k => x.offset + k
  | _ => x.offset

/-- What a tail from `base` has yielded is right so far, and all there is once it has
returned. -/
structure Exact (x : TailSubscriber) (base : Nat) (m : LiveStream) : Prop where
  out : x.out <+: m.records.drop base
  offset : 0 ≤ x.offset
  next : (base + x.out.length : Nat) = x.next
  yielding : ∀ batch k, x.pc = .yielding batch k →
    batch <+: m.records.drop x.offset.toNat ∧ k ≤ batch.length
  waiting : x.pc = .waiting false → m.closed = false
  returned : x.pc = .returned → m.closed = true ∧ m.records.length ≤ x.offset.toNat
  raised : x.pc = .raised → m.isOpen = false

end TailSubscriber

/-- Nothing closes the stream without a notification of its condition. -/
theorem Fanout.wakes_of_closes {s : Fanout} {a : FanoutAct} (h : s.stream.closes a = true) :
    s.wakes a = true := by
  unfold wakes
  split
  · rfl
  · exact h

namespace TailSubscriber

variable {x x' : TailSubscriber} {m m' : LiveStream} {base : Nat}

@[simp] theorem toGo_wake (x : TailSubscriber) (n : Nat) : x.wake.toGo n = x.toGo n := by
  unfold wake
  split
  · next woken hpc => simp only [toGo, hpc]
  · rfl

namespace Exact

/-- The stream grows while the task is not running, and it is woken if it closes. -/
theorem mono (h : x.Exact base m) (hm : m.Grows m') (hopen : m'.isOpen = true → m.isOpen = true)
    (hclosed : x.pc = .waiting false → m'.closed = false) : x.Exact base m' where
  out := h.out.trans (hm.records.drop _)
  offset := h.offset
  next := h.next
  yielding := by
    intro batch k hpc
    obtain ⟨hbatch, hk⟩ := h.yielding batch k hpc
    exact ⟨hbatch.trans (hm.records.drop _), hk⟩
  waiting := hclosed
  returned := by
    intro hpc
    obtain ⟨hc, hle⟩ := h.returned hpc
    obtain ⟨hc', hrecords⟩ := hm.closed hc
    exact ⟨hc', by rwa [hrecords]⟩
  raised := by
    intro hpc
    have hraised := h.raised hpc
    cases hm' : m'.isOpen with
    | false => rfl
    | true =>
        rw [hopen hm'] at hraised
        cases hraised

/-- In the middle of a batch it has read. -/
theorem of_yielding {batch : List Bytes} {k : Nat} (hpc : x.pc = .yielding batch k)
    (hout : x.out <+: m.records.drop base) (hoffset : 0 ≤ x.offset)
    (hnext : (base + x.out.length : Nat) = x.offset + k)
    (hbatch : batch <+: m.records.drop x.offset.toNat) (hk : k ≤ batch.length) :
    x.Exact base m where
  out := hout
  offset := hoffset
  next := by rw [hnext, TailSubscriber.next, hpc]
  yielding := by
    intro batch' k' heq
    cases hpc.symm.trans heq
    exact ⟨hbatch, hk⟩
  waiting := fun heq => by cases hpc.symm.trans heq
  returned := fun heq => by cases hpc.symm.trans heq
  raised := fun heq => by cases hpc.symm.trans heq

/-- Where it has yielded all it has read. -/
theorem of_place (hyield : ∀ batch k, x.pc ≠ .yielding batch k)
    (hout : x.out <+: m.records.drop base) (hoffset : 0 ≤ x.offset)
    (hnext : (base + x.out.length : Nat) = x.offset)
    (hwait : x.pc = .waiting false → m.closed = false)
    (hret : x.pc = .returned → m.closed = true ∧ m.records.length ≤ x.offset.toNat)
    (hraise : x.pc = .raised → m.isOpen = false) : x.Exact base m where
  out := hout
  offset := hoffset
  next := by
    rw [hnext, TailSubscriber.next]
    split
    · next batch k heq => exact absurd heq (hyield batch k)
    · rfl
  yielding := fun batch k heq => absurd heq (hyield batch k)
  waiting := hwait
  returned := hret
  raised := hraise

theorem wake (h : x.Exact base m) : x.wake.Exact base m := by
  unfold TailSubscriber.wake
  split
  · next woken hpc =>
      have hnext := h.next
      rw [TailSubscriber.next, hpc] at hnext
      exact .of_place (by simp) h.out h.offset hnext (by simp) (by simp) (by simp)
  · exact h

/-- The test with the lock. -/
theorem test (h : x.Exact base m) (hm : m.Ok) (hfree : m.adding = none)
    (hnext : (base + x.out.length : Nat) = x.offset) : (x.test m).Exact base m := by
  have hcount := hm.nextOffset_of_free (by simp [LiveStream.pending, hfree])
  unfold TailSubscriber.test
  split
  · next hwait =>
      have hopen : m.closed = false := by simpa using hwait.2
      exact .of_place (by simp) h.out h.offset hnext (fun _ => hopen) (by simp) (by simp)
  · split
    · next hret =>
        have hle : m.records.length ≤ x.offset.toNat := by
          have hle := hret.2
          rw [hcount] at hle
          omega
        exact .of_place (by simp) h.out h.offset hnext (by simp) (fun _ => ⟨hret.1, hle⟩) (by simp)
    · exact .of_place (by simp) h.out h.offset hnext (by simp) (by simp) (by simp)

/-- A read gives the records from the offset on; only one of a closed file fails. -/
theorem read (h : x.Exact base m) (hm : m.Ok) (hfree : m.adding = none) :
    (∃ batch, Durastream.read m.name m.isOpen m.data m.index x.offset none = .ok batch ∧
      batch <+: m.records.drop x.offset.toNat ∧
      m.records.length ≤ x.offset.toNat + batch.length) ∨
    (∃ e, Durastream.read m.name m.isOpen m.data m.index x.offset none = .error e) ∧
      m.isOpen = false := by
  have hindex := hm.index_of_free (by simp [LiveStream.pending, hfree])
  have hpos : max x.offset 0 = x.offset := Int.max_eq_left h.offset
  rw [hindex]
  cases hopen : m.isOpen with
  | true =>
      have hdata : frames m.records <+: m.data := by rw [hm.data]
      have hread := read_marks m.name (.records m.data) hdata x.offset none
      rw [readStop, List.take_length, hpos] at hread
      refine .inl ⟨_, hread, List.prefix_rfl, ?_⟩
      show m.records.length ≤ x.offset.toNat + (m.records.drop x.offset.toNat).length
      rw [List.length_drop]
      omega
  | false =>
      rw [read_closed, hpos]
      split
      · next hle => exact .inl ⟨[], rfl, List.nil_prefix, hle⟩
      · exact .inr ⟨⟨_, rfl⟩, rfl⟩

/-- The read has given a batch, or has raised. -/
theorem afterRead (h : x.Exact base m) (hm : m.Ok) (hfree : m.adding = none) (hpc : x.pc = .reading)
    (hrun : x.run m = some x') : x'.Exact base m := by
  have hnext := h.next
  rw [TailSubscriber.next, hpc] at hnext
  simp only [TailSubscriber.run, hpc, hfree, Option.isNone_none, if_true] at hrun
  rcases h.read hm hfree with ⟨batch, hread, hbatch, -⟩ | ⟨⟨e, hread⟩, hopen⟩
  · rw [hread] at hrun
    cases hrun
    exact .of_yielding rfl h.out h.offset (hnext.trans (Int.add_zero _).symm) hbatch (Nat.zero_le _)
  · rw [hread] at hrun
    cases hrun
    exact .of_place (by simp) h.out h.offset hnext (by simp) (by simp) fun _ => hopen

/-- The next record of the batch, or its end. -/
theorem afterYield (h : x.Exact base m) {batch : List Bytes} {k : Nat}
    (hpc : x.pc = .yielding batch k) (hrun : x.run m = some x') : x'.Exact base m := by
  have hnext := h.next
  rw [TailSubscriber.next, hpc] at hnext
  dsimp only at hnext
  obtain ⟨hbatch, hk⟩ := h.yielding batch k hpc
  have hoffset := h.offset
  simp only [TailSubscriber.run, hpc] at hrun
  split at hrun
  · next record hget =>
      cases hrun
      obtain ⟨hlt, rfl⟩ := List.getElem?_eq_some_iff.mp hget
      have hplace : x.offset.toNat + k = base + x.out.length := by omega
      have hrecord : [batch[k]] <+: m.records.drop (base + x.out.length) := by
        have hdrop := hbatch.drop k
        rw [List.drop_drop, hplace, List.drop_eq_getElem_cons hlt] at hdrop
        exact .trans ⟨_, rfl⟩ hdrop
      refine .of_yielding rfl (isPrefix_append_drop h.out hrecord) hoffset ?_ hbatch hlt
      show ((base + (x.out ++ [batch[k]]).length : Nat) : Int) = x.offset + (k + 1 : Nat)
      rw [List.length_append, List.length_singleton]
      omega
  · next hnone =>
      cases hrun
      have hend : k = batch.length := Nat.le_antisymm hk (List.getElem?_eq_none_iff.mp hnone)
      refine .of_place (by simp) h.out ?_ (hend ▸ hnext) (by simp) (by simp) (by simp)
      show 0 ≤ x.offset + batch.length
      omega

theorem run (h : x.Exact base m) (hm : m.Ok) (hrun : x.run m = some x') : x'.Exact base m := by
  have hnext := h.next
  cases hpc : x.pc with
  | reading =>
      have hfree : m.adding = none := by
        simp only [TailSubscriber.run, hpc] at hrun
        split at hrun
        · next hfree => exact Option.isNone_iff_eq_none.mp hfree
        · cases hrun
      exact h.afterRead hm hfree hpc hrun
  | yielding batch k => exact h.afterYield hpc hrun
  | testing =>
      rw [TailSubscriber.next, hpc] at hnext
      simp only [TailSubscriber.run, hpc] at hrun
      split at hrun
      · next hfree =>
          cases hrun
          exact h.test hm (Option.isNone_iff_eq_none.mp hfree) hnext
      · cases hrun
  | waiting woken =>
      rw [TailSubscriber.next, hpc] at hnext
      simp only [TailSubscriber.run, hpc] at hrun
      split at hrun
      · next hfree =>
          cases hrun
          exact h.test hm (Option.isNone_iff_eq_none.mp (Bool.and_eq_true_iff.mp hfree).2) hnext
      · cases hrun
  | returned => simp [TailSubscriber.run, hpc] at hrun
  | raised => simp [TailSubscriber.run, hpc] at hrun

/-- When it has returned, it has yielded all there is. -/
theorem out_of_returned (h : x.Exact base m) (hpc : x.pc = .returned) :
    x.out = m.records.drop base := by
  obtain ⟨-, hle⟩ := h.returned hpc
  have hnext := h.next
  rw [TailSubscriber.next, hpc] at hnext
  refine h.out.eq_of_length_le ?_
  rw [List.length_drop]
  dsimp only at hnext
  omega

end Exact

/-! ## A closed stream -/

theorem toGo_test (hm : m.Ok) (hclosed : m.closed = true) (hoffset : 0 ≤ x.offset) :
    (x.test m).toGo m.records.length < toTest m.records.length x.offset.toNat := by
  have hcount := hm.nextOffset_of_closed hclosed
  unfold test
  rw [hclosed, hcount, if_neg (by simp), toTest]
  by_cases hle : (m.records.length : Int) ≤ x.offset
  · rw [if_pos ⟨rfl, hle⟩]
    show 0 < _
    split <;> omega
  · rw [if_neg (fun h => hle h.2)]
    have hlt : ¬m.records.length ≤ x.offset.toNat := by omega
    show m.records.length - x.offset.toNat + 3 < _
    rw [if_neg hlt]
    omega

/-- On a closed stream, every step of the task leaves it less to go. -/
theorem toGo_run (h : x.Exact base m) (hm : m.Ok) (hclosed : m.closed = true)
    (hrun : x.run m = some x') : x'.toGo m.records.length < x.toGo m.records.length := by
  cases hpc : x.pc with
  | reading =>
      simp only [run, hpc] at hrun
      split at hrun
      · next hfree =>
          rcases h.read hm (Option.isNone_iff_eq_none.mp hfree) with
            ⟨batch, hread, hbatch, hle⟩ | ⟨⟨e, hread⟩, -⟩
          · rw [hread] at hrun
            cases hrun
            have hlen := hbatch.length_le
            rw [List.length_drop] at hlen
            simp only [toGo, hpc, toTest, if_pos hle]
            omega
          · rw [hread] at hrun
            cases hrun
            simp only [toGo, hpc]
            omega
      · cases hrun
  | yielding batch k =>
      have hoffset := h.offset
      simp only [run, hpc] at hrun
      split at hrun
      · next record hget =>
          cases hrun
          obtain ⟨hlt, -⟩ := List.getElem?_eq_some_iff.mp hget
          simp only [toGo, hpc]
          omega
      · cases hrun
        have hplace : (x.offset + batch.length).toNat = x.offset.toNat + batch.length := by omega
        simp only [toGo, hpc, hplace]
        omega
  | testing =>
      simp only [run, hpc] at hrun
      split at hrun
      · cases hrun
        rw [show x.toGo m.records.length = toTest m.records.length x.offset.toNat by
          simp only [toGo, hpc]]
        exact toGo_test hm hclosed h.offset
      · cases hrun
  | waiting woken =>
      simp only [run, hpc] at hrun
      split at hrun
      · cases hrun
        rw [show x.toGo m.records.length = toTest m.records.length x.offset.toNat by
          simp only [toGo, hpc]]
        exact toGo_test hm hclosed h.offset
      · cases hrun
  | returned => simp [run, hpc] at hrun
  | raised => simp [run, hpc] at hrun

/-- On a closed stream the task is never stuck before it returns or raises. -/
theorem run_isSome (h : x.Exact base m) (hm : m.Ok) (hclosed : m.closed = true)
    (hreturned : x.pc ≠ .returned) (hraised : x.pc ≠ .raised) : (x.run m).isSome = true := by
  have hfree : m.adding = none := by
    cases hadding : m.adding with
    | none => rfl
    | some p =>
        rw [hm.open_of_adding (by simp [hadding])] at hclosed
        cases hclosed
  cases hpc : x.pc with
  | reading =>
      simp only [run, hpc, hfree, Option.isNone_none, if_true]
      split <;> rfl
  | yielding batch k =>
      simp only [run, hpc]
      split <;> rfl
  | testing => simp only [run, hpc, hfree, Option.isNone_none, if_true, Option.isSome_some]
  | waiting woken =>
      cases woken with
      | true =>
          simp only [run, hpc, hfree, Option.isNone_none, Bool.and_self, if_true,
            Option.isSome_some]
      | false =>
          rw [h.waiting hpc] at hclosed
          cases hclosed
  | returned => exact absurd hpc hreturned
  | raised => exact absurd hpc hraised

end TailSubscriber

/-! ## The system -/

namespace Tailing

variable {s t : Tailing} {a : TailAct} {base : Nat}

structure Ok (s : Tailing) (base : Nat) : Prop where
  fanout : s.fanout.Ok
  tail : s.tail.Exact base s.fanout.stream

/-- Every step keeps the invariant, and the stream of it grows. -/
theorem Ok.step (h : s.Ok base) (hstep : s.step a = some t) :
    t.Ok base ∧ s.fanout.stream.Grows t.fanout.stream ∧
      (t.fanout.stream.isOpen = true → s.fanout.stream.isOpen = true) := by
  cases a with
  | world a =>
      obtain ⟨f, hf, rfl⟩ := Option.map_eq_some_iff.mp hstep
      have hf := Fanout.step_cases hf
      have hgrows := hf.grows h.fanout
      have hopen : f.stream.isOpen = true → s.fanout.stream.isOpen = true := by
        rcases hf.stream_cases with heq | ⟨notes, hchange⟩
        · exact fun hopen => heq ▸ hopen
        · exact hchange.isOpen
      refine ⟨⟨h.fanout.step hf, ?_⟩, hgrows, hopen⟩
      dsimp only
      cases hwakes : s.fanout.wakes a with
      | true =>
          rw [if_pos rfl]
          refine h.tail.wake.mono hgrows hopen fun hpc => ?_
          unfold TailSubscriber.wake at hpc
          split at hpc
          · cases hpc
          · next hnot => exact absurd hpc (hnot false)
      | false =>
          rw [if_neg (by simp)]
          refine h.tail.mono hgrows hopen fun hpc => ?_
          have hwaiting := h.tail.waiting hpc
          cases hclosed : f.stream.closed with
          | false => rfl
          | true =>
              rcases hf.stream_cases with heq | ⟨notes, hchange⟩
              · rw [heq, hwaiting] at hclosed
                cases hclosed
              · rw [Fanout.wakes_of_closes (hchange.closes hwaiting hclosed)] at hwakes
                cases hwakes
  | run =>
      obtain ⟨x, hx, rfl⟩ := Option.map_eq_some_iff.mp hstep
      exact ⟨⟨h.fanout, h.tail.run h.fanout.stream hx⟩, .refl _, id⟩

theorem Ok.init (name : Name) (data : Bytes) (closed writable : Bool) {offset : Int}
    (hoffset : 0 ≤ offset) :
    (Tailing.init name data closed writable offset).Ok (max offset 0).toNat := by
  refine ⟨.init name data closed writable, ?_⟩
  exact {
    out := List.nil_prefix
    offset := hoffset
    next := by
      show ((max offset 0).toNat + 0 : Int) = offset
      omega
    yielding := fun _ _ heq => by cases heq
    waiting := fun heq => by cases heq
    returned := fun heq => by cases heq
    raised := fun heq => by cases heq }

/-- On a closed stream, a run of the system leaves the task less to go by the number of
its own steps. -/
theorem Ok.run (h : s.Ok base) (hclosed : s.fanout.stream.closed = true) {more : List TailAct}
    (hrun : Lts.run Tailing.step s more = some t) :
    t.Ok base ∧ t.fanout.stream.closed = true ∧
      t.fanout.stream.records = s.fanout.stream.records ∧
      more.countP TailAct.isRun + t.tail.toGo s.fanout.stream.records.length ≤
        s.tail.toGo s.fanout.stream.records.length := by
  induction more generalizing s with
  | nil =>
      cases hrun
      exact ⟨h, hclosed, rfl, by simp⟩
  | cons a more ih =>
      obtain ⟨u, hu, hrest⟩ := Lts.run_cons_eq_some hrun
      obtain ⟨hok, hgrows, -⟩ := h.step hu
      obtain ⟨hclosed', hrecords⟩ := hgrows.closed hclosed
      obtain ⟨hok', hclosed'', hrecords', hle⟩ := ih hok hclosed' hrest
      refine ⟨hok', hclosed'', hrecords'.trans hrecords, ?_⟩
      rw [hrecords] at hle
      rw [List.countP_cons]
      cases a with
      | world a =>
          obtain ⟨f, -, rfl⟩ := Option.map_eq_some_iff.mp hu
          have hsame : (if s.fanout.wakes a = true then s.tail.wake else s.tail).toGo
              s.fanout.stream.records.length = s.tail.toGo s.fanout.stream.records.length := by
            split
            · exact TailSubscriber.toGo_wake _ _
            · rfl
          rw [← hsame]
          simpa [TailAct.isRun] using hle
      | run =>
          obtain ⟨x, hx, rfl⟩ := Option.map_eq_some_iff.mp hu
          have hless := TailSubscriber.toGo_run h.tail h.fanout.stream hclosed hx
          simp only [TailAct.isRun, if_true]
          dsimp only at hle
          omega

end Tailing

/-- Below zero, the one record of a stream is yielded twice. -/
theorem not_tailExact_of_neg {offset : Int} (hneg : offset < 0) : ¬TailExact offset := by
  intro h
  obtain ⟨s, hs⟩ : ∃ s, s = Fanout.init ['t'] (frames [[1]]) false true := ⟨_, rfl⟩
  have hread : ∀ o : Int, o ≤ 0 → read s.stream.name s.stream.isOpen s.stream.data s.stream.index
      o none = .ok [[1]] := by
    intro o ho
    have hrecords : records (frames [[1]]) = [[1]] := by decide +kernel
    have hmarks : read ['t'] true (frames [[1]]) (marks [[1]]) o none = _ :=
      read_marks ['t'] (by simp [Fits, maxPayload]) List.prefix_rfl o none
    rw [show max o 0 = 0 by omega] at hmarks
    rw [hs, Fanout.init, hrecords]
    exact hmarks
  have hfree : s.stream.adding = none := by
    rw [hs]
    rfl
  have hone : s.stream.nextOffset = 1 := by
    rw [hs]
    decide +kernel
  have hgo : ∀ out, (⟨offset + 1, .testing, out⟩ : TailSubscriber).test s.stream =
      ⟨offset + 1, .reading, out⟩ := by
    intro out
    have hnot : ¬((s.stream.nextOffset : Int) ≤ offset + 1) := by
      rw [hone]
      omega
    rw [TailSubscriber.test, if_neg fun hle => hnot hle.1, if_neg fun hle => hnot hle.2]
  have hrun : Lts.run Tailing.step (.init ['t'] (frames [[1]]) false true offset)
      (List.replicate 6 .run) = some ⟨s, ⟨offset + 1, .yielding [[1]] 1, [[1], [1]]⟩⟩ := by
    have hstart : Tailing.init ['t'] (frames [[1]]) false true offset =
        ⟨s, ⟨offset, .reading, []⟩⟩ := by rw [hs]; rfl
    have hfirst : offset ≤ 0 := by omega
    have hsecond : offset + 1 ≤ 0 := by omega
    rw [hstart]
    simp [List.replicate, Lts.run_cons, Tailing.step, TailSubscriber.run, hfree, hread _ hfirst,
      hread _ hsecond, hgo]
  have hout := (h ['t'] (frames [[1]]) false true _ _ hrun).1
  rw [show s.stream.records = [[1]] by rw [hs]; decide +kernel] at hout
  have hlen := hout.length_le
  simp only [List.length_drop, List.length_cons, List.length_nil] at hlen
  omega

/-- The synchronous tail is exact from an offset on if and only if the offset is not
negative. -/
theorem tail_exact_iff (offset : Int) : TailExact offset ↔ 0 ≤ offset := by
  constructor
  · exact fun h => Int.not_lt.mp fun hneg => not_tailExact_of_neg hneg h
  · intro hoffset name data closed writable acts s hrun
    have hok : s.Ok (max offset 0).toNat :=
      Lts.run_invariant (I := fun s => s.Ok (max offset 0).toNat)
        (fun _ _ _ h hstep => (h.step hstep).1) hrun (.init name data closed writable hoffset)
    refine ⟨hok.tail.out, fun hclosed => ⟨s.tail.toGo s.fanout.stream.records.length, ?_⟩⟩
    intro more t hmore hopen
    obtain ⟨hok', hclosed', -, hle⟩ := hok.run hclosed hmore
    have hcount := hok'.fanout.stream.nextOffset_of_closed hclosed'
    refine ⟨by omega, ?_, fun hpc => ?_⟩
    · by_cases hpc : t.tail.pc = .returned
      · exact .inl hpc
      · have hraised : t.tail.pc ≠ .raised := by
          intro hpc
          rw [hok'.tail.raised hpc] at hopen
          cases hopen
        have hsome := TailSubscriber.run_isSome hok'.tail hok'.fanout.stream hclosed' hpc hraised
        exact .inr (by rw [Tailing.step, Option.isSome_map]; exact hsome)
    · have hout := hok'.tail.out_of_returned hpc
      refine ⟨by rw [hcount, List.take_length, hout], fun x hx hxoffset hxpc => ?_⟩
      rw [(hok'.fanout.subscribers x hx).out_of_returned hxpc, hout, Subscriber.base, hxoffset]

/-- The tail from -1 of a stream with one record yields it twice. -/
theorem tail_repeats :
    (Lts.run Tailing.step (.init ['t'] (frames [[1]]) false true (-1)) (List.replicate 6 .run)).map
      (fun s => (s.tail.out, s.fanout.stream.records)) = some ([[1], [1]], [[1]]) ∧
    ¬TailExact (-1) :=
  ⟨by decide +kernel, not_tailExact_of_neg (by decide)⟩

end Durastream
