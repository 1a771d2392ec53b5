import Durastream.Aio.Subscribe

/-!
# What `wait` answers

`wait` reads `next_offset` and then `closed`, without the lock of the stream.  A
thread may append and then close the stream between the two reads: `wait` then finds
the stream closed and answers `False`, though there is a record past its offset.
`wait_truthful` says that this is the only way to a wrong answer: where the stream is
never closed on a `wait` that an append has overtaken so (`Fanout.Unhurried`), `False`
means that the stream is closed and stays without a record past the offset.
-/

namespace Durastream

/-- If the step closes the stream, no `wait` between its two reads has been overtaken by an
append: `next_offset` is still not past its offset. -/
def Fanout.Unhurried (s : Fanout) (a : FanoutAct) : Prop :=
  s.stream.closed = false → s.stream.closes a = true →
    ∀ x ∈ s.waiters, x.pc = .testClosed → (s.stream.nextOffset : Int) ≤ x.offset

instance (s : Fanout) (a : FanoutAct) : Decidable (s.Unhurried a) := by
  unfold Fanout.Unhurried
  infer_instance

namespace Waiter

/-- What the places of a `wait` and its answer say of the stream. -/
structure Truthful (x : Waiter) (m : LiveStream) : Prop where
  testClosed : x.pc = .testClosed → m.closed = true → (m.nextOffset : Int) ≤ x.offset
  no : x.pc = .returned false → m.closed = true ∧ (m.nextOffset : Int) ≤ x.offset
  yes : x.pc = .returned true → x.offset < m.nextOffset

namespace Truthful

variable {x x' : Waiter} {m m' : LiveStream}

/-- Places that say nothing. -/
theorem of_plain (htest : x.pc ≠ .testClosed) (hreturned : ∀ b, x.pc ≠ .returned b) :
    x.Truthful m :=
  ⟨fun h => absurd h htest, fun h => absurd h (hreturned _), fun h => absurd h (hreturned _)⟩

/-- A delivery changes neither the place nor the offset. -/
theorem deliver (h : x.Truthful m) (sub : Sub) : ({ x with sub := sub } : Waiter).Truthful m :=
  ⟨h.testClosed, h.no, h.yes⟩

/-- The task goes on to its next read. -/
theorem run (h : x.Truthful m) (hrun : x.run m = some x') : x'.Truthful m := by
  cases hpc : x.pc with
  | test =>
      simp only [Waiter.run, hpc] at hrun
      split at hrun
      · next hle =>
          cases hrun
          exact ⟨fun _ _ => hle, fun heq => (by cases heq), fun heq => (by cases heq)⟩
      · next hgt =>
          cases hrun
          exact ⟨fun heq => (by cases heq), fun heq => (by cases heq), fun _ => Int.not_le.mp hgt⟩
  | testClosed =>
      simp only [Waiter.run, hpc] at hrun
      split at hrun
      · next hclosed =>
          cases hrun
          exact ⟨fun heq => (by cases heq), fun _ => ⟨hclosed, h.testClosed hpc hclosed⟩,
            fun heq => (by cases heq)⟩
      · cases hrun
        exact .of_plain (by simp) (by simp)
  | recheck =>
      simp only [Waiter.run, hpc] at hrun
      split at hrun <;> cases hrun <;> exact .of_plain (by simp) (by simp)
  | recheckClosed =>
      simp only [Waiter.run, hpc] at hrun
      split at hrun <;> cases hrun <;> exact .of_plain (by simp) (by simp)
  | waiting =>
      simp only [Waiter.run, hpc] at hrun
      split at hrun
      · cases hrun
        exact .of_plain (by simp) (by simp)
      · cases hrun
  | returned b => simp [Waiter.run, hpc] at hrun
  | raised => simp [Waiter.run, hpc] at hrun

/-- What happens to the stream leaves the answers right, if it does not close it on a `wait`
that has been overtaken. -/
theorem change {s : Fanout} {a : FanoutAct} {notes : List Note} (h : x.Truthful s.stream)
    (hs : s.stream.Ok) (hmem : x ∈ s.waiters) (hmeets : s.Unhurried a)
    (hchange : s.stream.Change a m' notes) : x.Truthful m' := by
  have hle : s.stream.nextOffset ≤ m'.nextOffset :=
    Nat.sub_le_sub_right hchange.index_isPrefix.length_le 1
  have hsame : s.stream.closed = true → m'.closed = true ∧ m'.nextOffset = s.stream.nextOffset := by
    intro hclosed
    obtain ⟨hgrows, hok, -⟩ := hchange.ok hs
    obtain ⟨hclosed', hrecords⟩ := hgrows.closed hclosed
    rw [hok.nextOffset_of_closed hclosed', hs.nextOffset_of_closed hclosed, hrecords]
    exact ⟨hclosed', rfl⟩
  refine ⟨fun hpc hclosed' => ?_, fun hpc => ?_, fun hpc => ?_⟩
  · cases hclosed : s.stream.closed with
    | true =>
        rw [(hsame hclosed).2]
        exact h.testClosed hpc hclosed
    | false =>
        have hcloses := hchange.closes hclosed hclosed'
        rw [hchange.nextOffset_of_closes hcloses]
        exact hmeets hclosed hcloses x hmem hpc
  · obtain ⟨hclosed, hno⟩ := h.no hpc
    obtain ⟨hclosed', heq⟩ := hsame hclosed
    exact ⟨hclosed', by rw [heq]; exact hno⟩
  · have hyes := h.yes hpc
    omega

end Truthful

end Waiter

/-- A task waits for one offset. -/
theorem Waiter.offset_of_run {x x' : Waiter} {m : LiveStream} (hrun : x.run m = some x') :
    x'.offset = x.offset := by
  unfold Waiter.run at hrun
  split at hrun
  · cases hrun
    rfl
  · split at hrun <;> (cases hrun; rfl)
  · cases hrun
    rfl
  · cases hrun
    rfl
  · split at hrun
    · cases hrun
      rfl
    · cases hrun
  · cases hrun
  · cases hrun

namespace Fanout

variable {s t : Fanout} {a : FanoutAct}

@[simp] theorem waiters_settle (s : Fanout) : s.settle.waiters = s.waiters := by
  unfold settle
  split <;> rfl

/-- A waiter keeps its place and its offset. -/
theorem Step.waiter_kept {k : Nat} {w : Waiter} (h : Step s a t) (hw : s.waiters[k]? = some w) :
    ∃ w', t.waiters[k]? = some w' ∧ w'.offset = w.offset := by
  have hset : ∀ {j : Nat} {x x' : Waiter}, s.waiters[j]? = some x → x'.offset = x.offset →
      ∃ w', (s.waiters.set j x')[k]? = some w' ∧ w'.offset = w.offset := by
    intro j x x' hx hoffset
    by_cases hjk : j = k
    · subst hjk
      rw [hx] at hw
      cases hw
      exact ⟨x', List.getElem?_set_self (List.getElem?_eq_some_iff.mp hx).1, hoffset⟩
    · exact ⟨w, by rw [List.getElem?_set_ne hjk, hw], rfl⟩
  cases h with
  | wait offset hidle =>
      exact ⟨w, by rw [List.getElem?_append_left (List.getElem?_eq_some_iff.mp hw).1, hw], rfl⟩
  | deliver i n hidle hn =>
      refine ⟨_, List.getElem?_map.trans (congrArg _ hw), ?_⟩
      dsimp only
      split <;> rfl
  | runWait j x x' hx hrun =>
      rw [waiters_settle]
      exact hset hx (Waiter.offset_of_run hrun)
  | leaveWait j x hx =>
      rw [waiters_settle]
      exact hset hx rfl
  | run j x x' hx hrun => exact ⟨w, by rw [waiters_settle]; exact hw, rfl⟩
  | leave j x hx => exact ⟨w, by rw [waiters_settle]; exact hw, rfl⟩
  | _ => exact ⟨w, hw, rfl⟩

/-- Every waiter is right about the stream. -/
structure Answers (s : Fanout) : Prop where
  ok : s.Ok
  waiters : ∀ x ∈ s.waiters, x.Truthful s.stream

theorem Answers.step (h : s.Answers) (hmeets : s.Unhurried a) (hstep : Step s a t) :
    t.Answers := by
  refine ⟨h.ok.step hstep, ?_⟩
  have hset : ∀ {j : Nat} {x : Waiter}, x.Truthful s.stream →
      ∀ y ∈ s.waiters.set j x, y.Truthful s.stream := by
    intro j x hx y hmem
    rcases List.mem_or_eq_of_mem_set hmem with hmem | rfl
    · exact h.waiters y hmem
    · exact hx
  cases hstep with
  | stream a m notes hchange =>
      exact fun x hmem => (h.waiters x hmem).change h.ok.stream hmem hmeets hchange
  | deliver i n hidle hn =>
      intro y hmem
      obtain ⟨x, hx, rfl⟩ := List.mem_map.mp hmem
      split
      · exact h.waiters x hx
      · exact (h.waiters x hx).deliver _
  | wait offset hidle =>
      intro x hmem
      rcases List.mem_append.mp hmem with hmem | hmem
      · exact h.waiters x hmem
      · rw [List.mem_singleton.mp hmem]
        exact .of_plain (by simp [Waiter.new]) (by simp [Waiter.new])
  | runWait j x x' hx hrun =>
      rw [stream_settle, waiters_settle]
      exact hset ((h.waiters x (List.mem_of_getElem? hx)).run hrun)
  | leaveWait j x hx =>
      rw [stream_settle, waiters_settle]
      exact hset (.of_plain (by simp) (by simp))
  | run j x x' hx hrun =>
      rw [stream_settle, waiters_settle]
      exact h.waiters
  | leave j x hx =>
      rw [stream_settle, waiters_settle]
      exact h.waiters
  | _ => exact h.waiters

/-- Where the stream is never closed on a `wait` that an append has overtaken between its two
reads, `wait` tells the truth: `False` means that the stream is closed and that its final
`next_offset` is not past the offset, `True` that there is a record past it. -/
theorem wait_truthful (name : Name) (data : Bytes) (closed writable : Bool)
    (acts : List FanoutAct) (s : Fanout)
    (hrun : Lts.run step (init name data closed writable) acts = some s)
    (hmeets : Lts.Meets step Unhurried (init name data closed writable) acts) :
    ∀ x ∈ s.waiters,
      (x.pc = .returned false → s.stream.closed = true ∧
        s.stream.nextOffset = s.stream.records.length ∧ (s.stream.nextOffset : Int) ≤ x.offset) ∧
      (x.pc = .returned true → x.offset < s.stream.nextOffset) := by
  have hanswers : s.Answers := Lts.run_invariant_of_meets
    (fun _ _ _ h hok hstep => h.step hok (step_cases hstep)) hrun hmeets
    ⟨.init name data closed writable, fun _ hmem => absurd hmem List.not_mem_nil⟩
  intro x hmem
  have hx := hanswers.waiters x hmem
  refine ⟨fun hpc => ?_, hx.yes⟩
  obtain ⟨hclosed, hno⟩ := hx.no hpc
  exact ⟨hclosed, hanswers.ok.stream.nextOffset_of_closed hclosed, hno⟩

/-- A `wait` is woken by the close of the stream. -/
def closedWhileWaiting : List FanoutAct :=
  [.wait 0, .runWait 0, .runWait 0, .runWait 0, .runWait 0, .close true 0, .notify 0, .post 0,
    .deliver 0, .runWait 0, .runWait 0, .runWait 0]

theorem wait_truthful_closedWhileWaiting :
    ∃ s, Lts.run step (init ['t'] [] false true) closedWhileWaiting = some s ∧
      ∃ x ∈ s.waiters, x.pc = .returned false ∧ (s.stream.nextOffset : Int) ≤ x.offset := by
  have hmap : (Lts.run step (init ['t'] [] false true) closedWhileWaiting).map
      (fun s => (s.waiters.map Waiter.pc)) = some [.returned false] := by decide +kernel
  obtain ⟨s, hrun, hpcs⟩ := Option.map_eq_some_iff.mp hmap
  obtain ⟨x, hmem, hpc⟩ : ∃ x ∈ s.waiters, x.pc = .returned false :=
    List.mem_map.mp (by rw [hpcs]; exact List.mem_singleton_self _)
  have h := wait_truthful ['t'] [] false true closedWhileWaiting s hrun (by decide +kernel) x hmem
  exact ⟨s, hrun, x, hmem, hpc, (h.1 hpc).2.2⟩

/-- An append and a close come between the two reads of `wait(0)`: it answers `False`, though
there is a record at offset 0. -/
theorem wait_lies :
    ∃ s, Lts.run step (init ['t'] [] false true)
      [.wait 0, .runWait 0, .append [[1]] 0, .addEntry, .release, .close true 1, .runWait 0] =
        some s ∧
      ∃ x ∈ s.waiters, x.pc = .returned false ∧ ¬(s.stream.nextOffset : Int) ≤ x.offset := by
  have hmap : (Lts.run step (init ['t'] [] false true)
      [.wait 0, .runWait 0, .append [[1]] 0, .addEntry, .release, .close true 1, .runWait 0]).map
      (fun s => (s.waiters.map fun x => (x.pc, x.offset), s.stream.nextOffset)) =
        some ([(.returned false, 0)], 1) := by decide +kernel
  obtain ⟨s, hrun, hview⟩ := Option.map_eq_some_iff.mp hmap
  obtain ⟨hpcs, hnext⟩ := Prod.mk.inj hview
  obtain ⟨x, hmem, hx⟩ : ∃ x ∈ s.waiters, (x.pc, x.offset) = (.returned false, 0) :=
    List.mem_map.mp (by rw [hpcs]; exact List.mem_singleton_self _)
  obtain ⟨hpc, hoffset⟩ := Prod.mk.inj hx
  refine ⟨s, hrun, x, hmem, hpc, ?_⟩
  rw [hnext, hoffset]
  decide

end Fanout

end Durastream
