import Durastream.Aio.Tail

/-!
# A tail catches up

A thread in `DurableStream.subscribe` sleeps only where it has yielded all there is.
What gives it more to yield, or ends it, notifies the condition of the stream before the
lock is free again (`Caught`).  Until the thread sleeps or ends, each of its steps leaves
it less to go, whether the stream is closed or not (`TailSubscriber.toWait`).
-/

namespace Durastream

namespace TailSubscriber

/-- A bound for the steps until the thread sleeps or ends, on a stream with `n` records
that does not change. -/
def toWait (x : TailSubscriber) (n : Nat) : Nat :=
  match x.pc with
  | .waiting false => 0
  | _ => x.toGo n

variable {x x' : TailSubscriber} {m : LiveStream} {base : Nat}

theorem toWait_of_ne {n : Nat} (hpc : x.pc ≠ .waiting false) : x.toWait n = x.toGo n := by
  unfold toWait
  split
  · next heq => exact absurd heq hpc
  · rfl

theorem toWait_test (hm : m.Ok) (hfree : m.adding = none) (hoffset : 0 ≤ x.offset) :
    (x.test m).toWait m.records.length < toTest m.records.length x.offset.toNat := by
  have hcount := hm.nextOffset_of_free (by simp [LiveStream.pending, hfree])
  have hpos : 0 < toTest m.records.length x.offset.toNat := by
    unfold toTest
    split <;> omega
  unfold test
  rw [hcount]
  split
  · exact hpos
  · next hwait =>
      split
      · exact hpos
      · next hret =>
          have hlt : ¬m.records.length ≤ x.offset.toNat := by
            intro hle
            have hle' : (m.records.length : Int) ≤ x.offset := by omega
            cases hclosed : m.closed with
            | false => exact hwait ⟨hle', by simp [hclosed]⟩
            | true => exact hret ⟨hclosed, hle'⟩
          show m.records.length - x.offset.toNat + 3 < _
          rw [toTest, if_neg hlt]
          omega

/-- Every step leaves the thread less to go until it sleeps. -/
theorem toWait_run (h : x.Exact base m) (hm : m.Ok) (hfree : m.adding = none)
    (hrun : x.run m = some x') : x'.toWait m.records.length < x.toWait m.records.length := by
  have hle : ∀ y : TailSubscriber, y.toWait m.records.length ≤ y.toGo m.records.length := by
    intro y
    unfold toWait
    split
    · exact Nat.zero_le _
    · exact Nat.le_refl _
  have htested : x.toWait m.records.length = toTest m.records.length x.offset.toNat →
      some (x.test m) = some x' → x'.toWait m.records.length < x.toWait m.records.length := by
    intro heq hx'
    cases hx'
    rw [heq]
    exact toWait_test hm hfree h.offset
  cases hpc : x.pc with
  | reading =>
      rw [toWait_of_ne (x := x) (by simp [hpc])]
      refine Nat.lt_of_le_of_lt (hle x') ?_
      simp only [run, hpc, hfree, Option.isNone_none, if_true] at hrun
      rcases h.read hm hfree with ⟨batch, hread, hbatch, hall⟩ | ⟨⟨e, hread⟩, -⟩
      · rw [hread] at hrun
        cases hrun
        have hlen := hbatch.length_le
        rw [List.length_drop] at hlen
        simp only [toGo, hpc, toTest, if_pos hall]
        omega
      · rw [hread] at hrun
        cases hrun
        simp only [toGo, hpc]
        omega
  | yielding batch k =>
      rw [toWait_of_ne (x := x) (by simp [hpc])]
      refine Nat.lt_of_le_of_lt (hle x') ?_
      have hoffset := h.offset
      simp only [run, hpc] at hrun
      split at hrun
      · next record hget =>
          cases hrun
          obtain ⟨hlt, -⟩ := List.getElem?_eq_some_iff.mp hget
          simp only [toGo, hpc]
          omega
      · cases hrun
        have hplace : (x.offset + batch.length).toNat = x.offset.toNat + batch.length := by omega
        simp only [toGo, hpc, hplace]
        omega
  | testing =>
      simp only [run, hpc, hfree, Option.isNone_none, if_true] at hrun
      exact htested (by simp only [toWait, toGo, hpc]) hrun
  | waiting woken =>
      cases woken with
      | false => simp [run, hpc] at hrun
      | true =>
          simp only [run, hpc, hfree, Option.isNone_none, Bool.and_self, if_true] at hrun
          exact htested (by simp only [toWait, toGo, hpc]) hrun
  | returned => simp [run, hpc] at hrun
  | raised => simp [run, hpc] at hrun

/-- The bound is about the records it has not yielded yet. -/
theorem toWait_le (h : x.Exact base m) (hraised : x.pc ≠ .raised) :
    x.toWait m.records.length ≤ m.records.length - base - x.out.length + 5 := by
  have hnext := h.next
  have hoffset := h.offset
  unfold toWait
  split
  · exact Nat.zero_le _
  · cases hpc : x.pc with
    | reading =>
        simp only [TailSubscriber.next, hpc] at hnext
        simp only [toGo, hpc]
        omega
    | yielding batch k =>
        obtain ⟨hbatch, hk⟩ := h.yielding batch k hpc
        have hlen := hbatch.length_le
        rw [List.length_drop] at hlen
        simp only [TailSubscriber.next, hpc] at hnext
        simp only [toGo, hpc, toTest]
        split <;> omega
    | testing =>
        simp only [TailSubscriber.next, hpc] at hnext
        simp only [toGo, hpc, toTest]
        split <;> omega
    | waiting woken =>
        simp only [TailSubscriber.next, hpc] at hnext
        simp only [toGo, hpc, toTest]
        split <;> omega
    | returned =>
        simp only [toGo, hpc]
        omega
    | raised => exact absurd hpc hraised

/-- Who has the lock for the asking is stuck only where it sleeps or has ended. -/
theorem stuck (hfree : m.adding = none) (hstuck : x.run m = none) :
    x.pc = .returned ∨ x.pc = .raised ∨ x.pc = .waiting false := by
  cases hpc : x.pc with
  | reading =>
      simp only [run, hpc, hfree, Option.isNone_none, if_true] at hstuck
      split at hstuck <;> cases hstuck
  | yielding batch k =>
      simp only [run, hpc] at hstuck
      split at hstuck <;> cases hstuck
  | testing =>
      simp only [run, hpc, hfree, Option.isNone_none, if_true] at hstuck
      cases hstuck
  | waiting woken =>
      cases woken with
      | false => exact .inr (.inr rfl)
      | true =>
          simp only [run, hpc, hfree, Option.isNone_none, Bool.and_self, if_true] at hstuck
          cases hstuck
  | returned => exact .inl rfl
  | raised => exact .inr (.inl rfl)

/-- The thread goes to sleep where there is nothing to read. -/
theorem nextOffset_le_of_run (hrun : x.run m = some x') (hpc' : x'.pc = .waiting false) :
    (m.nextOffset : Int) ≤ x'.offset := by
  have htest : some (x.test m) = some x' → (m.nextOffset : Int) ≤ x'.offset := by
    intro hx'
    cases hx'
    revert hpc'
    unfold test
    split
    · next hwait => exact fun _ => hwait.1
    · split <;> simp
  unfold run at hrun
  split at hrun
  · split at hrun
    · split at hrun <;> cases hrun <;> cases hpc'
    · cases hrun
  · split at hrun <;> cases hrun <;> cases hpc'
  · split at hrun
    · exact htest hrun
    · cases hrun
  · split at hrun
    · exact htest hrun
    · cases hrun
  · cases hrun
  · cases hrun

end TailSubscriber

/-- Where the lock is free, it was just given back, or nothing was added. -/
theorem LiveStream.Change.of_free {m m' : LiveStream} {a : FanoutAct} {notes : List Note}
    (h : m.Change a m' notes) (hfree : m'.adding = none) :
    a = .release ∨ m.adding = none ∧ m'.nextOffset = m.nextOffset := by
  cases h with
  | started payloads offset w hadding hbegin => cases hfree
  | returned payloads offset => exact .inr ⟨hfree, rfl⟩
  | refused payloads offset => exact .inr ⟨hfree, rfl⟩
  | added payloads stop rest hadding => cases hfree
  | released payloads hadding => exact .inl rfl
  | failed disabled offset hadding => exact .inr ⟨hadding, rfl⟩
  | closed ok offset hadding => exact .inr ⟨hadding, rfl⟩
  | closedFds offset hadding => exact .inr ⟨hadding, rfl⟩

namespace Tailing

variable {s t : Tailing} {a : TailAct} {base : Nat}

/-- While the lock is free, a thread sleeps only where there is nothing to read. -/
def Caught (s : Tailing) : Prop :=
  s.tail.pc = .waiting false → s.fanout.stream.adding = none →
    (s.fanout.stream.nextOffset : Int) ≤ s.tail.offset

theorem Caught.step (h : s.Caught) (hstep : s.step a = some t) : t.Caught := by
  cases a with
  | world a =>
      obtain ⟨f, hf, rfl⟩ := Option.map_eq_some_iff.mp hstep
      intro hpc hfree
      dsimp only at hpc hfree ⊢
      cases hwakes : s.fanout.wakes a with
      | true =>
          rw [hwakes, if_pos rfl] at hpc
          unfold TailSubscriber.wake at hpc
          split at hpc
          · cases hpc
          · next hnot => exact absurd hpc (hnot false)
      | false =>
          rw [hwakes] at hpc
          rw [if_neg (by simp)] at hpc ⊢
          rcases (Fanout.step_cases hf).stream_cases with heq | ⟨notes, hchange⟩
          · rw [heq] at hfree ⊢
            exact h hpc hfree
          · rcases hchange.of_free hfree with rfl | ⟨hfree', hsame⟩
            · cases hwakes
            · rw [hsame]
              exact h hpc hfree'
  | run =>
      obtain ⟨x, hx, rfl⟩ := Option.map_eq_some_iff.mp hstep
      exact fun hpc _ => TailSubscriber.nextOffset_le_of_run hx hpc

/-- A thread that sleeps has yielded all there is. -/
theorem Caught.out (h : s.Caught) (hok : s.Ok base) (hfree : s.fanout.stream.adding = none)
    (hpc : s.tail.pc = .waiting false) : s.tail.out = s.fanout.stream.records.drop base := by
  have hle := h hpc hfree
  have hcount := hok.fanout.stream.nextOffset_of_free (by simp [LiveStream.pending, hfree])
  have hnext := hok.tail.next
  simp only [TailSubscriber.next, hpc] at hnext
  refine hok.tail.out.eq_of_length_le ?_
  rw [List.length_drop]
  omega

/-- A run of the thread alone. -/
theorem Ok.run_alone (h : s.Ok base) (hcaught : s.Caught) (hfree : s.fanout.stream.adding = none)
    {n : Nat} (hrun : Lts.run Tailing.step s (List.replicate n .run) = some t) :
    t.Ok base ∧ t.Caught ∧ t.fanout = s.fanout ∧
      n + t.tail.toWait s.fanout.stream.records.length ≤
        s.tail.toWait s.fanout.stream.records.length := by
  induction n generalizing s with
  | zero =>
      cases hrun
      exact ⟨h, hcaught, rfl, Nat.le_of_eq (Nat.zero_add _)⟩
  | succ n ih =>
      rw [List.replicate_succ] at hrun
      obtain ⟨u, hu, hrest⟩ := Lts.run_cons_eq_some hrun
      obtain ⟨x, hx, rfl⟩ := Option.map_eq_some_iff.mp hu
      have hless := TailSubscriber.toWait_run h.tail h.fanout.stream hfree hx
      obtain ⟨hok, hcaught', hfanout, hle⟩ := ih (h.step hu).1 (hcaught.step hu) hfree hrest
      refine ⟨hok, hcaught', hfanout, ?_⟩
      dsimp only at hle
      omega

end Tailing

/-- The offset is not negative, and the lock of the stream is free.  A thread that sleeps in
`subscribe` has yielded all records from its offset on, and the stream is not closed.  A
thread that does not sleep gets there if the file is open and it runs alone, with no step of
another thread in between: after at most so many steps it has yielded all records, and has
returned if the stream is closed. -/
theorem tail_catches_up (name : Name) (data : Bytes) (closed writable : Bool) (offset : Int)
    (hoffset : 0 ≤ offset) (acts : List TailAct) (s : Tailing)
    (hrun : Lts.run Tailing.step (.init name data closed writable offset) acts = some s)
    (hfree : s.fanout.stream.adding = none) :
    (s.tail.pc = .waiting false →
      s.fanout.stream.closed = false ∧ s.tail.out = s.fanout.stream.records.drop offset.toNat) ∧
    (s.fanout.stream.isOpen = true → ∀ n t,
      Lts.run Tailing.step s (List.replicate n .run) = some t →
      n ≤ s.fanout.stream.records.length - offset.toNat - s.tail.out.length + 5 ∧
      (t.step .run = none →
        t.tail.out = s.fanout.stream.records.drop offset.toNat ∧
        t.tail.pc = if s.fanout.stream.closed then .returned else .waiting false)) := by
  have hinv : s.Ok offset.toNat ∧ s.Caught := by
    refine Lts.run_invariant (I := fun s : Tailing => s.Ok offset.toNat ∧ s.Caught)
      (fun s a t h hstep => ⟨(h.1.step hstep).1, h.2.step hstep⟩) hrun ⟨?_, fun hpc => by cases hpc⟩
    have hinit := Tailing.Ok.init name data closed writable hoffset
    rwa [Int.max_eq_left hoffset] at hinit
  obtain ⟨hok, hcaught⟩ := hinv
  refine ⟨fun hpc => ⟨hok.tail.waiting hpc, hcaught.out hok hfree hpc⟩, fun hopen n t hmore => ?_⟩
  obtain ⟨hok', hcaught', hfanout, hle⟩ := hok.run_alone hcaught hfree hmore
  have hraised : s.tail.pc ≠ .raised := by
    intro hpc
    rw [hok.tail.raised hpc] at hopen
    cases hopen
  have hbound := TailSubscriber.toWait_le hok.tail hraised
  refine ⟨by omega, fun hstuck => ?_⟩
  have hfree' : t.fanout.stream.adding = none := by rw [hfanout, hfree]
  have hnone : t.tail.run t.fanout.stream = none := Option.map_eq_none_iff.mp hstuck
  rw [← hfanout]
  rcases TailSubscriber.stuck hfree' hnone with hpc | hpc | hpc
  · obtain ⟨hclosed, -⟩ := hok'.tail.returned hpc
    exact ⟨hok'.tail.out_of_returned hpc, by rw [hclosed, hpc]; rfl⟩
  · have hshut := hok'.tail.raised hpc
    rw [hfanout, hopen] at hshut
    cases hshut
  · have hwaiting := hok'.tail.waiting hpc
    exact ⟨hcaught'.out hok' hfree' hpc, by rw [hwaiting, hpc]; rfl⟩

/-- The thread sleeps on an empty stream, and two records are appended. -/
def wokenByAppend : List TailAct :=
  [.run, .run, .run, .world (.append [[1], [2]] 0), .world .addEntry, .world .addEntry,
    .world .release]

theorem tail_catches_up_wokenByAppend :
    ∃ s t, Lts.run Tailing.step (.init ['t'] [] false true 0) wokenByAppend = some s ∧
      Lts.run Tailing.step s (List.replicate 6 .run) = some t ∧
      t.tail.out = s.fanout.stream.records.drop (0 : Int).toNat ∧ t.tail.pc = .waiting false := by
  have hmap : (Lts.run Tailing.step (.init ['t'] [] false true 0) wokenByAppend).map (fun s =>
      s.fanout.stream.adding.isNone && s.fanout.stream.isOpen && !s.fanout.stream.closed) =
        some true := by
    decide +kernel
  have hmap' : (Lts.run Tailing.step (.init ['t'] [] false true 0)
      (wokenByAppend ++ List.replicate 6 .run)).map (fun t => (t.step .run).isNone) =
        some true := by
    decide +kernel
  obtain ⟨s, hrun, hview⟩ := Option.map_eq_some_iff.mp hmap
  obtain ⟨t, hrun', hstuck⟩ := Option.map_eq_some_iff.mp hmap'
  rw [Lts.run_append, hrun, Option.bind_some] at hrun'
  simp only [Bool.and_eq_true, Option.isNone_iff_eq_none, Bool.not_eq_true'] at hview
  obtain ⟨⟨hfree, hopen⟩, hclosed⟩ := hview
  have hcaught := (tail_catches_up ['t'] [] false true 0 (by decide) wokenByAppend s hrun hfree).2
    hopen 6 t hrun'
  obtain ⟨hout, hpc⟩ := hcaught.2 (Option.isNone_iff_eq_none.mp hstuck)
  rw [hclosed] at hpc
  exact ⟨s, t, hrun, hrun', hout, hpc⟩

end Durastream
