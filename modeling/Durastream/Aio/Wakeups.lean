import Durastream.Aio.Wait

/-!
# No lost wake-up

A task that waits on its event has read `next_offset` and `closed` before it was
suspended.  What happens to the stream after that makes a note, and a note on its way
reaches every task that has joined the hub, since the hub keeps its listener as long as
one of them is there.  So the task is woken, or the change is still on its way.

A subscriber ignores a delivery that its buffer has already and one that comes while the
buffer is stale.  What it knows of is therefore all up to the end of its buffer, unless
the buffer is stale: `Fanout.Told` says that this is all there is, or that the last
append still has its delivery before it (`Subscriber.Alert`).  A subscriber only waits
with a buffer that is empty and ends at `pos`.
-/

namespace Durastream

namespace Fanout

/-- A change still has a notification or a delivery before it. -/
def Noted (s : Fanout) : Prop := s.changes ≠ [] ∨ s.calls ≠ [] ∨ s.posted ≠ []

/-- The same, or an append has yet to add entries to the index or to notify. -/
def Busy (s : Fanout) : Prop := s.stream.adding ≠ none ∨ s.Noted

/-- The note that tells of the last record is on its way. -/
def Coming (s : Fanout) (n : Note) : Prop :=
  (n ∈ s.changes ∨ n ∈ s.calls ∨ n ∈ s.posted) ∧ n.records ≠ [] ∧
    s.stream.nextOffset ≤ n.start + n.records.length

/-- There is nothing from `k` on, or a subscriber will be told. -/
def Told (s : Fanout) (k : Nat) : Prop :=
  s.stream.nextOffset ≤ k ∨ s.stream.adding ≠ none ∨ ∃ n, s.Coming n

end Fanout

namespace Subscriber

/-- The task has found nothing to yield, and nothing has come since. -/
def parked (x : Subscriber) : Bool :=
  match x.pc with
  | .testClosed => true
  | .testWait => true
  | .waiting => !x.sub.event
  | _ => false

/-- What a subscriber that has joined knows or will be told. -/
structure Alert (x : Subscriber) (s : Fanout) : Prop where
  known : x.pc ≠ .startRead → x.sub.stale = true ∨ s.Told (x.sub.start + x.sub.buf.length)
  parked : x.parked = true → x.sub.stale = false ∧ x.sub.buf = [] ∧ x.sub.start = x.pos
  closed : x.pc = .waiting → x.sub.event = false → s.stream.closed = false ∨ s.Noted

end Subscriber

namespace Waiter

/-- The task has found nothing past its offset, and nothing has come since. -/
def parked (x : Waiter) : Bool :=
  match x.pc with
  | .recheckClosed => true
  | .waiting => !x.sub.event
  | _ => false

structure Alert (x : Waiter) (s : Fanout) : Prop where
  behind : x.parked = true → (s.stream.nextOffset : Int) ≤ x.offset ∨ s.Busy
  closed : x.pc = .waiting → x.sub.event = false → s.stream.closed = false ∨ s.Noted

end Waiter

namespace Fanout

/-- Every task that has joined keeps the listener there and will be told. -/
structure Awake (s : Fanout) : Prop where
  ok : s.Ok
  batch : ∀ payloads stops, s.stream.adding = some (payloads, stops) → payloads ≠ []
  subscribers : ∀ x ∈ s.subscribers, x.left = false → s.listening = true ∧ x.Alert s
  waiters : ∀ x ∈ s.waiters, x.left = false → s.listening = true ∧ x.Alert s

/-! ## What a step keeps -/

/-- The tasks that do not take part in the step know as much as before. -/
structure Keeps (s t : Fanout) : Prop where
  told : ∀ k, s.Told k → t.Told k
  behind : ∀ k : Int, (s.stream.nextOffset : Int) ≤ k ∨ s.Busy →
    (t.stream.nextOffset : Int) ≤ k ∨ t.Busy
  closed : s.stream.closed = false ∨ s.Noted → t.stream.closed = false ∨ t.Noted

variable {s t : Fanout} {a : FanoutAct}

namespace Keeps

theorem subscriber (h : s.Keeps t) {x : Subscriber} (hx : x.Alert s) : x.Alert t :=
  ⟨fun hpc => (hx.known hpc).imp_right (h.told _), hx.parked,
    fun hpc he => h.closed (hx.closed hpc he)⟩

theorem waiter (h : s.Keeps t) {x : Waiter} (hx : x.Alert s) : x.Alert t :=
  ⟨fun hpc => h.behind _ (hx.behind hpc), fun hpc he => h.closed (hx.closed hpc he)⟩

/-- The tasks alone have changed. -/
theorem of_eq (hstream : t.stream = s.stream) (hchanges : t.changes = s.changes)
    (hcalls : t.calls = s.calls) (hposted : t.posted = s.posted) : s.Keeps t := by
  refine ⟨fun k h => ?_, fun k h => ?_, fun h => ?_⟩
  · simpa only [Told, Coming, hstream, hchanges, hcalls, hposted] using h
  · simpa only [Busy, Noted, hstream, hchanges, hcalls, hposted] using h
  · simpa only [Noted, hstream, hchanges, hcalls, hposted] using h

/-- Notes go on, and none is lost. -/
theorem of_notes (hstream : t.stream = s.stream)
    (hnotes : ∀ n, n ∈ s.changes ∨ n ∈ s.calls ∨ n ∈ s.posted →
      n ∈ t.changes ∨ n ∈ t.calls ∨ n ∈ t.posted) : s.Keeps t := by
  have hnoted : s.Noted → t.Noted := by
    intro h
    obtain ⟨n, hn⟩ : ∃ n, n ∈ s.changes ∨ n ∈ s.calls ∨ n ∈ s.posted := by
      rcases h with h | h | h
      · exact (List.exists_mem_of_ne_nil _ h).imp fun n hn => .inl hn
      · exact (List.exists_mem_of_ne_nil _ h).imp fun n hn => .inr (.inl hn)
      · exact (List.exists_mem_of_ne_nil _ h).imp fun n hn => .inr (.inr hn)
    rcases hnotes n hn with hn | hn | hn
    · exact .inl (List.ne_nil_of_mem hn)
    · exact .inr (.inl (List.ne_nil_of_mem hn))
    · exact .inr (.inr (List.ne_nil_of_mem hn))
  refine ⟨fun k h => ?_, fun k h => ?_, fun h => ?_⟩
  · rw [Told, hstream]
    refine h.imp_right (Or.imp_right fun htold => ?_)
    obtain ⟨n, hn, hne, hle⟩ := htold
    exact ⟨n, hnotes n hn, hne, by rwa [hstream]⟩
  · rw [hstream]
    exact h.imp_right (Or.imp (fun hne => by rwa [hstream]) hnoted)
  · rw [hstream]
    exact h.imp_right hnoted

/-- The index and the append that holds the lock are as before; a change of `closed` makes
a note. -/
theorem of_change {m : LiveStream} {notes : List Note}
    (hnext : m.nextOffset = s.stream.nextOffset) (hadding : m.adding = s.stream.adding)
    (hclosed : m.closed = s.stream.closed ∨ notes ≠ []) :
    s.Keeps { s with stream := m, changes := s.changes ++ notes } := by
  have hnoted : s.Noted → ({ s with stream := m, changes := s.changes ++ notes } : Fanout).Noted :=
    Or.imp_left fun hne => by simp [hne]
  refine ⟨fun k h => ?_, fun k h => ?_, fun h => ?_⟩
  · refine h.imp (fun hle => hnext ▸ hle) (Or.imp (fun hne => by rwa [hadding]) ?_)
    rintro ⟨n, hn, hne, hle⟩
    exact ⟨n, hn.imp_left (List.mem_append_left _), hne, hnext ▸ hle⟩
  · exact h.imp (fun hle => hnext ▸ hle) (Or.imp (fun hne => by rwa [hadding]) hnoted)
  · rcases hclosed with heq | hne
    · exact h.imp (fun hopen => heq.trans hopen) hnoted
    · exact .inr (.inl (by simp [hne]))

/-- An append that holds the lock will notify. -/
theorem of_adding {m : LiveStream} (hadding : m.adding ≠ none)
    (hclosed : m.closed = s.stream.closed) :
    s.Keeps { s with stream := m, changes := s.changes ++ [] } := by
  refine ⟨fun k _ => .inr (.inl hadding), fun k _ => .inr (.inl hadding), fun h => ?_⟩
  rw [List.append_nil]
  exact h.imp_left fun hopen => hclosed.trans hopen

/-- What happens to the stream. -/
theorem change {m : LiveStream} {notes : List Note}
    (hbatch : ∀ payloads stops, s.stream.adding = some (payloads, stops) → payloads ≠ [])
    (h : s.stream.Change a m notes) :
    s.Keeps { s with stream := m, changes := s.changes ++ notes } := by
  cases h with
  | started payloads offset w hfree hbegin => exact of_adding (by simp) rfl
  | returned payloads offset => exact of_change rfl rfl (.inl rfl)
  | refused payloads offset => exact of_change rfl rfl (.inl rfl)
  | added payloads stop rest hadding => exact of_adding (by simp) rfl
  | released payloads hadding =>
      have hnote : ({ s with
          stream := { s.stream with adding := none }
          changes := s.changes ++ [⟨s.stream.nextOffset - payloads.length, payloads⟩] } :
            Fanout).Coming ⟨s.stream.nextOffset - payloads.length, payloads⟩ := by
        refine ⟨.inl (List.mem_append_right _ (List.mem_singleton_self _)), hbatch _ _ hadding, ?_⟩
        show s.stream.nextOffset ≤ s.stream.nextOffset - payloads.length + payloads.length
        omega
      refine ⟨fun k _ => .inr (.inr ⟨_, hnote⟩), fun k _ => .inr (.inr (.inl ?_)),
        fun _ => .inr (.inl ?_)⟩ <;> simp
  | failed disabled offset hfree => exact of_change rfl rfl (.inr (by simp))
  | closed ok offset hfree => exact of_change rfl rfl (.inr (by simp))
  | closedFds offset hfree => exact of_change rfl rfl (.inr (by simp))

/-- A note that is taken out of a list and put into the next one. -/
theorem mem_eraseIdx_or {l : List Note} {i : Nat} {n n' : Note} (hn : l[i]? = some n)
    (hmem : n' ∈ l) : n' ∈ l.eraseIdx i ∨ n' = n := by
  obtain ⟨j, hj⟩ := List.mem_iff_getElem?.mp hmem
  by_cases hij : j = i
  · subst hij
    exact .inr (Option.some.inj (hj.symm.trans hn))
  · exact .inl (List.mem_eraseIdx_iff_getElem?.mpr ⟨j, hij, hj⟩)

end Keeps

end Fanout

/-! ## Deliveries -/

namespace Sub

variable {sub : Sub} {start : Nat} {records : List Bytes}

/-- A delivery leaves the buffer stale, or with its end no earlier than before and not
before the end of what was delivered. -/
theorem deliver_known (hfresh : sub.stale = false) :
    (sub.deliver start records).stale = true ∨
      sub.start + sub.buf.length ≤
          (sub.deliver start records).start + (sub.deliver start records).buf.length ∧
        (records ≠ [] → start + records.length ≤
          (sub.deliver start records).start + (sub.deliver start records).buf.length) := by
  unfold deliver
  by_cases hnew : records = []
  · simp [hnew, hfresh]
  · rw [if_pos ⟨hnew, hfresh⟩]
    dsimp only
    unfold extend
    dsimp only
    by_cases hgap : start > sub.start + sub.buf.length
    · simp [hgap, clear]
    · rw [if_neg hgap]
      by_cases hmore : start + records.length > sub.start + sub.buf.length
      · rw [if_pos hmore]
        dsimp only
        split
        · next hlate => exact .inl hlate
        · refine .inr ⟨?_, fun _ => ?_⟩
          · simp only [List.length_append]
            omega
          · simp only [List.length_append, List.length_drop]
            omega
      · rw [if_neg hmore, hfresh]
        exact .inr ⟨Nat.le_refl _, fun _ => Nat.le_of_not_gt hmore⟩

theorem deliver_stale (hstale : sub.stale = true) : (sub.deliver start records).stale = true := by
  simp [deliver, hstale, clear]

@[simp] theorem deliver_event : (sub.deliver start records).event = true := rfl

end Sub

/-! ## The tasks -/

namespace Sub

variable {sub sub' : Sub} {record : Bytes}

/-- Taking the first record leaves the end of the buffer where it is. -/
theorem known_popleft (h : sub.popleft = some (record, sub')) :
    sub'.start + sub'.buf.length = sub.start + sub.buf.length := by
  unfold popleft at h
  split at h
  · cases h
  · next first buf heq =>
      cases h
      rw [heq, List.length_cons]
      dsimp only
      omega

theorem known_dropBefore (sub : Sub) (pos : Nat) :
    (sub.dropBefore pos sub.buf).start + (sub.dropBefore pos sub.buf).buf.length =
      sub.start + sub.buf.length := by
  generalize hbuf : sub.buf = buf
  induction buf generalizing sub with
  | nil => rw [dropBefore, hbuf]
  | cons record rest ih =>
      rw [dropBefore]
      split
      · have hpop : sub.popleft = some (record, { sub with
            buf := rest, nbytes := sub.nbytes - record.length, start := sub.start + 1 }) := by
          rw [popleft, hbuf]
        rw [hpop]
        have hknown := known_popleft hpop
        rw [← hbuf, ← hknown]
        exact ih _ rfl
      · rw [hbuf]

end Sub

namespace Fanout

theorem Told.mono {s : Fanout} {k k' : Nat} (h : s.Told k) (hle : k ≤ k') : s.Told k' :=
  h.imp_left fun hk => Nat.le_trans hk hle

end Fanout

namespace Subscriber

variable {x x' : Subscriber} {s : Fanout}

namespace Alert

/-- Places where nothing but the buffer counts. -/
theorem of_known (hparked : x.parked = false) (hwaiting : x.pc ≠ .waiting)
    (hknown : x.sub.stale = true ∨ s.Told (x.sub.start + x.sub.buf.length)) : x.Alert s :=
  ⟨fun _ => hknown, fun h => absurd h (by simp [hparked]), fun h => absurd h hwaiting⟩

theorem top (h : x.Alert s) (hx : x.Exact s.stream) (hpc : x.pc = .top)
    (hrun : x.run s.stream = some x') : x'.Alert s := by
  have hknown := h.known (by simp [hpc])
  simp only [Subscriber.run, hpc] at hrun
  split at hrun
  · cases hrun
    exact ⟨fun hne => absurd rfl hne, fun heq => (by cases heq), fun heq => (by cases heq)⟩
  · next hfresh =>
      have hfresh : x.sub.stale = false := by simpa using hfresh
      have htold := hknown.resolve_left (by simp [hfresh])
      obtain ⟨-, hdropped, hstart⟩ := hx.sub.dropBefore hfresh x.pos
      have hsame := Sub.known_dropBefore x.sub x.pos
      generalize x.sub.dropBefore x.pos x.sub.buf = sub₀ at hrun hdropped hstart hsame
      have hraised : ∃ sub : Sub, (if sub₀.buf = [] then
          { sub₀ with start := max sub₀.start x.pos } else sub₀) = sub ∧
            s.Told (sub.start + sub.buf.length) ∧ sub.stale = false ∧ x.pos ≤ sub.start := by
        split
        · next hempty =>
            refine ⟨_, rfl, htold.mono ?_, hdropped, Nat.le_max_right _ _⟩
            rw [← hsame]
            exact Nat.add_le_add_right (Nat.le_max_left _ _) _
        · next hne => exact ⟨_, rfl, hsame ▸ htold, hdropped, hstart.resolve_left hne⟩
      obtain ⟨sub, heq, htold', hstale, hle⟩ := hraised
      rw [heq] at hrun
      split at hrun
      · cases hrun
        exact .of_known rfl (by simp) (.inl rfl)
      · next hge =>
          split at hrun
          · next record sub' hpop =>
              cases hrun
              refine .of_known rfl (by simp) (.inr ?_)
              rw [Sub.known_popleft hpop]
              exact htold'
          · next hpop =>
              cases hrun
              have hempty : sub.buf = [] := by
                unfold Sub.popleft at hpop
                split at hpop
                · assumption
                · cases hpop
              exact ⟨fun _ => .inr htold',
                fun _ => ⟨hstale, hempty, Nat.le_antisymm (Nat.le_of_not_gt hge) hle⟩,
                fun heq => (by cases heq)⟩

/-- A task that goes on knows as much as before. -/
theorem run (h : x.Alert s) (hx : x.Exact s.stream) (hrun : x.run s.stream = some x') :
    x'.Alert s := by
  have hreplayed : ∀ batch k, x.pc ≠ .startRead → (x.replayed batch k).Alert s := by
    intro batch k hpc
    unfold Subscriber.replayed
    split
    · exact .of_known rfl (by simp) (h.known hpc)
    · exact .of_known rfl (by simp) (h.known hpc)
  cases hpc : x.pc with
  | top => exact h.top hx hpc hrun
  | startRead =>
      simp only [Subscriber.run, hpc] at hrun
      cases hrun
      exact .of_known rfl (by simp) (.inr (.inl (Nat.le_add_right _ _)))
  | checkRead =>
      simp only [Subscriber.run, hpc] at hrun
      cases hrun
      have hknown := h.known (by simp [hpc])
      split <;> exact .of_known rfl (by simp) hknown
  | fetched r =>
      simp only [Subscriber.run, hpc] at hrun
      cases r with
      | ok batch =>
          cases hrun
          exact hreplayed batch 0 (by simp [hpc])
      | error e =>
          cases hrun
          exact .of_known rfl (by simp) (h.known (by simp [hpc]))
  | replay batch k =>
      simp only [Subscriber.run, hpc] at hrun
      cases hrun
      exact hreplayed batch k (by simp [hpc])
  | yielded =>
      simp only [Subscriber.run, hpc] at hrun
      cases hrun
      exact .of_known rfl (by simp) (h.known (by simp [hpc]))
  | testClosed =>
      have hparked := h.parked (by simp [Subscriber.parked, hpc])
      have hknown := h.known (by simp [hpc])
      simp only [Subscriber.run, hpc] at hrun
      split at hrun
      · cases hrun
        exact .of_known rfl (by simp) hknown
      · cases hrun
        exact ⟨fun _ => hknown, fun _ => hparked, fun heq => (by cases heq)⟩
  | testEnd =>
      simp only [Subscriber.run, hpc] at hrun
      split at hrun
      · cases hrun
        exact .of_known rfl (by simp) (h.known (by simp [hpc]))
      · cases hrun
        exact .of_known rfl (by simp) (.inl rfl)
  | testWait =>
      have hparked := h.parked (by simp [Subscriber.parked, hpc])
      have hknown := h.known (by simp [hpc])
      simp only [Subscriber.run, hpc] at hrun
      cases hrun
      split
      · exact .of_known rfl (by simp) hknown
      · next hquiet =>
          have hopen : s.stream.closed = false := by
            cases hclosed : s.stream.closed with
            | false => rfl
            | true => exact absurd (.inr (.inr hclosed)) hquiet
          exact ⟨fun _ => hknown, fun _ => hparked, fun _ _ => .inl hopen⟩
  | waiting =>
      simp only [Subscriber.run, hpc] at hrun
      split at hrun
      · cases hrun
        exact .of_known rfl (by simp) (h.known (by simp [hpc]))
      · cases hrun
  | reading => simp [Subscriber.run, hpc] at hrun
  | returned => simp [Subscriber.run, hpc] at hrun
  | raised => simp [Subscriber.run, hpc] at hrun

/-- A delivery tells every task that has joined. -/
theorem deliver {n : Note} {i : Nat} (hn : s.posted[i]? = some n)
    (hsuspended : x.suspended = true) (h : x.Alert s) :
    ({ x with sub := x.sub.deliver n.start n.records } : Subscriber).Alert
      (({ s with posted := s.posted.eraseIdx i } : Fanout).delivered n) := by
  refine ⟨fun hpc => ?_, fun hparked => ?_, fun _ hevent => by cases hevent⟩
  · rcases h.known hpc with hstale | htold
    · exact .inl (Sub.deliver_stale hstale)
    · cases hstale : x.sub.stale with
      | true => exact .inl (Sub.deliver_stale hstale)
      | false =>
          refine (Sub.deliver_known hstale).imp_right ?_
          rintro ⟨hgrown, hend⟩
          rcases htold with hle | hadding | ⟨n', hn', hne, hle⟩
          · exact .inl (Nat.le_trans hle hgrown)
          · exact .inr (.inl hadding)
          · rcases hn' with hmem | hmem | hmem
            · exact .inr (.inr ⟨n', .inl hmem, hne, hle⟩)
            · exact .inr (.inr ⟨n', .inr (.inl hmem), hne, hle⟩)
            · rcases Fanout.Keeps.mem_eraseIdx_or hn hmem with hmem | rfl
              · exact .inr (.inr ⟨n', .inr (.inr hmem), hne, hle⟩)
              · exact .inl (Nat.le_trans hle (hend hne))
  · have hpc : x.pc = .testClosed ∨ x.pc = .testWait := by
      unfold Subscriber.parked at hparked
      split at hparked
      · next heq => exact .inl heq
      · next heq => exact .inr heq
      · cases hparked
      · cases hparked
    rcases hpc with hpc | hpc <;> simp [Subscriber.suspended, hpc] at hsuspended

end Alert

end Subscriber

namespace Waiter.Alert

variable {x x' : Waiter} {s : Fanout}

theorem of_plain (hparked : x.parked = false) (hwaiting : x.pc ≠ .waiting) : x.Alert s :=
  ⟨fun h => absurd h (by simp [hparked]), fun h => absurd h hwaiting⟩

/-- A task that goes on has read what it goes by. -/
theorem run (h : x.Alert s) (hrun : x.run s.stream = some x') : x'.Alert s := by
  cases hpc : x.pc with
  | test =>
      simp only [Waiter.run, hpc] at hrun
      split at hrun <;> cases hrun <;> exact .of_plain rfl (by simp)
  | testClosed =>
      simp only [Waiter.run, hpc] at hrun
      split at hrun <;> cases hrun <;> exact .of_plain rfl (by simp)
  | recheck =>
      simp only [Waiter.run, hpc] at hrun
      cases hrun
      split
      · next hle => exact ⟨fun _ => .inl hle, fun heq => (by cases heq)⟩
      · exact .of_plain rfl (by simp)
  | recheckClosed =>
      have hbehind := h.behind (by simp [Waiter.parked, hpc])
      simp only [Waiter.run, hpc] at hrun
      cases hrun
      cases hclosed : s.stream.closed with
      | true => exact .of_plain rfl (by simp)
      | false => exact ⟨fun _ => hbehind, fun _ _ => .inl hclosed⟩
  | waiting =>
      simp only [Waiter.run, hpc] at hrun
      split at hrun
      · cases hrun
        exact .of_plain rfl (by simp)
      · cases hrun
  | returned b => simp [Waiter.run, hpc] at hrun
  | raised => simp [Waiter.run, hpc] at hrun

/-- A delivery wakes a task that waits. -/
theorem deliver {n : Note} (hsuspended : x.suspended = true) :
    ({ x with sub := x.sub.deliver n.start n.records } : Waiter).Alert s := by
  refine ⟨fun hparked => ?_, fun _ hevent => by cases hevent⟩
  have hpc : x.pc = .recheckClosed := by
    unfold Waiter.parked at hparked
    split at hparked
    · next heq => exact heq
    · cases hparked
    · cases hparked
  simp [Waiter.suspended, hpc] at hsuspended

end Waiter.Alert

namespace Fanout

variable {s t : Fanout} {a : FanoutAct}

/-! ## Every step -/

/-- As long as a task is there, the last one has not left. -/
theorem settle_of_subscriber {x : Subscriber} (hmem : x ∈ s.subscribers) (hleft : x.left = false) :
    s.settle = s := by
  unfold settle
  rw [if_neg]
  intro hall
  rw [List.all_eq_true.mp (Bool.and_eq_true_iff.mp hall).1 x hmem] at hleft
  cases hleft

theorem settle_of_waiter {x : Waiter} (hmem : x ∈ s.waiters) (hleft : x.left = false) :
    s.settle = s := by
  unfold settle
  rw [if_neg]
  intro hall
  rw [List.all_eq_true.mp (Bool.and_eq_true_iff.mp hall).2 x hmem] at hleft
  cases hleft

namespace Awake

/-- The tasks are those that were there. -/
theorem keep (h : s.Awake) (hok : t.Ok)
    (hbatch : ∀ payloads stops, t.stream.adding = some (payloads, stops) → payloads ≠ [])
    (hlistening : t.listening = s.listening) (hsubscribers : t.subscribers = s.subscribers)
    (hwaiters : t.waiters = s.waiters) (hkeeps : s.listening = true → s.Keeps t) : t.Awake := by
  refine ⟨hok, hbatch, fun x hmem hleft => ?_, fun x hmem hleft => ?_⟩
  · rw [hsubscribers] at hmem
    obtain ⟨hl, hx⟩ := h.subscribers x hmem hleft
    exact ⟨hlistening.trans hl, (hkeeps hl).subscriber hx⟩
  · rw [hwaiters] at hmem
    obtain ⟨hl, hx⟩ := h.waiters x hmem hleft
    exact ⟨hlistening.trans hl, (hkeeps hl).waiter hx⟩

/-- A subscriber goes on. -/
theorem setSubscriber (h : s.Awake) {j : Nat} {x : Subscriber} (hok : (s.setSubscriber j x).Ok)
    (hx : x.left = false → s.listening = true ∧ x.Alert s) : (s.setSubscriber j x).Awake := by
  have hkeeps : s.Keeps (s.setSubscriber j x) := .of_eq rfl rfl rfl rfl
  refine ⟨hok, h.batch, fun y hmem hleft => ?_, fun y hmem hleft => ?_⟩
  · rcases List.mem_or_eq_of_mem_set hmem with hmem | rfl
    · exact (h.subscribers y hmem hleft).imp_right hkeeps.subscriber
    · exact (hx hleft).imp_right hkeeps.subscriber
  · exact (h.waiters y hmem hleft).imp_right hkeeps.waiter

theorem setWaiter (h : s.Awake) {j : Nat} {x : Waiter} (hok : (s.setWaiter j x).Ok)
    (hx : x.left = false → s.listening = true ∧ x.Alert s) : (s.setWaiter j x).Awake := by
  have hkeeps : s.Keeps (s.setWaiter j x) := .of_eq rfl rfl rfl rfl
  refine ⟨hok, h.batch, fun y hmem hleft => ?_, fun y hmem hleft => ?_⟩
  · exact (h.subscribers y hmem hleft).imp_right hkeeps.subscriber
  · rcases List.mem_or_eq_of_mem_set hmem with hmem | rfl
    · exact (h.waiters y hmem hleft).imp_right hkeeps.waiter
    · exact (hx hleft).imp_right hkeeps.waiter

theorem settle (h : s.Awake) : s.settle.Awake := by
  refine ⟨h.ok.settle, by rw [stream_settle]; exact h.batch, fun x hmem hleft => ?_,
    fun x hmem hleft => ?_⟩
  · rw [subscribers_settle] at hmem
    rw [settle_of_subscriber hmem hleft]
    exact h.subscribers x hmem hleft
  · rw [waiters_settle] at hmem
    rw [settle_of_waiter hmem hleft]
    exact h.waiters x hmem hleft

theorem delivered (h : s.Awake) {i : Nat} {n : Note} (hidle : s.idle = true)
    (hn : s.posted[i]? = some n)
    (hok : (({ s with posted := s.posted.eraseIdx i } : Fanout).delivered n).Ok) :
    (({ s with posted := s.posted.eraseIdx i } : Fanout).delivered n).Awake := by
  have hsuspended := Bool.and_eq_true_iff.mp hidle
  refine ⟨hok, h.batch, fun y hmem hleft => ?_, fun y hmem hleft => ?_⟩
  · obtain ⟨x, hx, rfl⟩ := List.mem_map.mp hmem
    cases hgone : x.left with
    | true =>
        rw [hgone, if_pos rfl] at hleft
        rw [hgone] at hleft
        cases hleft
    | false =>
        rw [if_neg (by simp)]
        obtain ⟨hl, halert⟩ := h.subscribers x hx hgone
        exact ⟨hl, halert.deliver hn (List.all_eq_true.mp hsuspended.1 x hx)⟩
  · obtain ⟨x, hx, rfl⟩ := List.mem_map.mp hmem
    cases hgone : x.left with
    | true =>
        rw [hgone, if_pos rfl] at hleft
        rw [hgone] at hleft
        cases hleft
    | false =>
        rw [if_neg (by simp)]
        exact ⟨(h.waiters x hx hgone).1, .deliver (List.all_eq_true.mp hsuspended.2 x hx)⟩

/-- Every step keeps the tasks awake. -/
theorem step (h : s.Awake) (hstep : Step s a t) : t.Awake := by
  have hok := h.ok.step hstep
  cases hstep with
  | stream a m notes hchange =>
      refine h.keep hok ?_ rfl rfl rfl fun _ => .change h.batch hchange
      intro payloads stops hadding
      cases hchange with
      | started payloads' offset w hfree hbegin =>
          cases hadding
          exact (Writer.begin_started hbegin).2.2.2.1
      | added payloads' stop rest hadding' =>
          cases hadding
          exact h.batch _ _ hadding'
      | released payloads' hadding' => cases hadding
      | _ => exact h.batch _ _ hadding
  | notify i n hn =>
      refine h.keep hok h.batch rfl rfl rfl fun hl => .of_notes rfl fun n' hmem => ?_
      dsimp only
      rw [hl, if_pos rfl]
      rcases hmem with hmem | hmem | hmem
      · rcases Keeps.mem_eraseIdx_or hn hmem with hmem | rfl
        · exact .inl hmem
        · exact .inr (.inl (List.mem_append_right _ (List.mem_singleton_self _)))
      · exact .inr (.inl (List.mem_append_left _ hmem))
      · exact .inr (.inr hmem)
  | post i n hn =>
      refine h.keep hok h.batch rfl rfl rfl fun hl => .of_notes rfl fun n' hmem => ?_
      dsimp only
      rw [hl, if_pos rfl]
      rcases hmem with hmem | hmem | hmem
      · exact .inl hmem
      · rcases Keeps.mem_eraseIdx_or hn hmem with hmem | rfl
        · exact .inr (.inl hmem)
        · exact .inr (.inr (List.mem_append_right _ (List.mem_singleton_self _)))
      · exact .inr (.inr (List.mem_append_left _ hmem))
  | deliver i n hidle hn => exact h.delivered hidle hn hok
  | subscribe offset hidle =>
      have hkeeps : s.Keeps { s with
          listening := true, subscribers := s.subscribers ++ [.new offset] } :=
        .of_eq rfl rfl rfl rfl
      refine ⟨hok, h.batch, fun x hmem hleft => ⟨rfl, ?_⟩, fun x hmem hleft => ⟨rfl, ?_⟩⟩
      · rcases List.mem_append.mp hmem with hmem | hmem
        · exact hkeeps.subscriber (h.subscribers x hmem hleft).2
        · rw [List.mem_singleton.mp hmem]
          exact .of_known rfl (by simp [Subscriber.new]) (.inl rfl)
      · exact hkeeps.waiter (h.waiters x hmem hleft).2
  | wait offset hidle =>
      have hkeeps : s.Keeps { s with listening := true, waiters := s.waiters ++ [.new offset] } :=
        .of_eq rfl rfl rfl rfl
      refine ⟨hok, h.batch, fun x hmem hleft => ⟨rfl, ?_⟩, fun x hmem hleft => ⟨rfl, ?_⟩⟩
      · exact hkeeps.subscriber (h.subscribers x hmem hleft).2
      · rcases List.mem_append.mp hmem with hmem | hmem
        · exact hkeeps.waiter (h.waiters x hmem hleft).2
        · rw [List.mem_singleton.mp hmem]
          exact .of_plain rfl (by simp [Waiter.new])
  | run j x x' hx hrun =>
      have hmem := List.mem_of_getElem? hx
      have hexact := h.ok.subscribers x hmem
      have hthere : x.left = false := by
        cases hpc : x.pc with
        | returned => simp [Subscriber.run, hpc] at hrun
        | raised => simp [Subscriber.run, hpc] at hrun
        | _ => simp [Subscriber.left, hpc]
      refine (h.setSubscriber (h.ok.setSubscriber (hexact.run h.ok.stream hrun)) fun _ => ?_).settle
      exact (h.subscribers x hmem hthere).imp_right fun halert => halert.run hexact hrun
  | runWait j x x' hx hrun =>
      have hthere : x.left = false := by
        cases hpc : x.pc with
        | returned b => simp [Waiter.run, hpc] at hrun
        | raised => simp [Waiter.run, hpc] at hrun
        | _ => simp [Waiter.left, hpc]
      have hset : (s.setWaiter j x').Ok :=
        ⟨h.ok.stream, h.ok.changes, h.ok.calls, h.ok.posted, h.ok.subscribers⟩
      refine (h.setWaiter hset fun _ => ?_).settle
      exact (h.waiters x (List.mem_of_getElem? hx) hthere).imp_right fun halert => halert.run hrun
  | read j x hfree hx hpc =>
      refine h.setSubscriber hok fun _ => ?_
      have hthere : x.left = false := by simp [Subscriber.left, hpc]
      refine (h.subscribers x (List.mem_of_getElem? hx) hthere).imp_right fun halert => ?_
      exact .of_known rfl (by simp) (halert.known (by simp [hpc]))
  | readFailed j x hx hpc =>
      refine h.setSubscriber hok fun _ => ?_
      have hthere : x.left = false := by simp [Subscriber.left, hpc]
      refine (h.subscribers x (List.mem_of_getElem? hx) hthere).imp_right fun halert => ?_
      exact .of_known rfl (by simp) (halert.known (by simp [hpc]))
  | leave j x hx =>
      have hexact := h.ok.subscribers x (List.mem_of_getElem? hx)
      have hleft : ({ x with pc := .raised } : Subscriber).Exact s.stream :=
        .of_raised rfl hexact.out hexact.sub
      exact (h.setSubscriber (h.ok.setSubscriber hleft) fun hthere => by cases hthere).settle
  | leaveWait j x hx =>
      have hset : (s.setWaiter j { x with pc := .raised }).Ok :=
        ⟨h.ok.stream, h.ok.changes, h.ok.calls, h.ok.posted, h.ok.subscribers⟩
      exact (h.setWaiter hset fun hthere => by cases hthere).settle

end Awake

/-- In every reachable state, when no append, notification or delivery is under way, a task that
waits on an event that is not set has nothing to wait for but a change: the stream is not
closed and has no record from its position on. -/
theorem no_lost_wakeup (name : Name) (data : Bytes) (closed writable : Bool)
    (acts : List FanoutAct) (s : Fanout)
    (hrun : Lts.run step (init name data closed writable) acts = some s)
    (hadding : s.stream.adding = none) (hchanges : s.changes = []) (hcalls : s.calls = [])
    (hposted : s.posted = []) :
    (∀ x ∈ s.subscribers, x.pc = .waiting → x.sub.event = false →
      s.stream.closed = false ∧ s.stream.nextOffset ≤ x.pos) ∧
    ∀ x ∈ s.waiters, x.pc = .waiting → x.sub.event = false →
      s.stream.closed = false ∧ (s.stream.nextOffset : Int) ≤ x.offset := by
  have hawake : s.Awake := Lts.run_invariant (fun _ _ _ h hstep => h.step (step_cases hstep)) hrun
    ⟨.init name data closed writable, fun _ _ h => (by cases h),
      fun _ hmem => absurd hmem List.not_mem_nil, fun _ hmem => absurd hmem List.not_mem_nil⟩
  have hquiet : ¬s.Noted := by simp [Noted, hchanges, hcalls, hposted]
  refine ⟨fun x hmem hpc hevent => ?_, fun x hmem hpc hevent => ?_⟩
  · have hthere : x.left = false := by simp [Subscriber.left, hpc]
    obtain ⟨-, halert⟩ := hawake.subscribers x hmem hthere
    obtain ⟨hfresh, hempty, hstart⟩ := halert.parked (by simp [Subscriber.parked, hpc, hevent])
    refine ⟨(halert.closed hpc hevent).resolve_right hquiet, ?_⟩
    rcases halert.known (by simp [hpc]) with hstale | hle | hne | ⟨n, hn, -⟩
    · rw [hfresh] at hstale
      cases hstale
    · rwa [hempty, hstart] at hle
    · exact absurd hadding hne
    · simp [hchanges, hcalls, hposted] at hn
  · have hthere : x.left = false := by simp [Waiter.left, hpc]
    obtain ⟨-, halert⟩ := hawake.waiters x hmem hthere
    refine ⟨(halert.closed hpc hevent).resolve_right hquiet, ?_⟩
    rcases halert.behind (by simp [Waiter.parked, hpc, hevent]) with hle | hne | hnoted
    · exact hle
    · exact absurd hadding hne
    · exact absurd hnoted hquiet

/-- A subscriber waits, is told of an append, yields its record and waits again. -/
def waitsAgain : List FanoutAct :=
  [.subscribe 0, .run 0, .run 0, .run 0, .run 0, .run 0, .run 0, .append [[1]] 0, .addEntry,
    .release, .notify 0, .post 0, .deliver 0, .run 0, .run 0, .run 0, .run 0, .run 0, .run 0]

theorem no_lost_wakeup_waitsAgain :
    ∃ s, Lts.run step (init ['t'] [] false true) waitsAgain = some s ∧
      ∃ x ∈ s.subscribers, x.pc = .waiting ∧ x.out = [[1]] ∧ s.stream.nextOffset ≤ x.pos := by
  have hmap : (Lts.run step (init ['t'] [] false true) waitsAgain).map (fun s =>
      (s.subscribers.map fun x => (x.parked && x.suspended, x.out),
        s.stream.adding.isNone && s.changes.isEmpty && s.calls.isEmpty && s.posted.isEmpty)) =
      some ([(true, [[1]])], true) := by decide +kernel
  obtain ⟨s, hrun, hview⟩ := Option.map_eq_some_iff.mp hmap
  obtain ⟨hparked, hquiet⟩ := Prod.mk.inj hview
  obtain ⟨x, hmem, hx⟩ : ∃ x ∈ s.subscribers, (x.parked && x.suspended, x.out) = (true, [[1]]) :=
    List.mem_map.mp (by rw [hparked]; exact List.mem_singleton_self _)
  obtain ⟨-, hout⟩ := Prod.mk.inj hx
  have hpc : x.pc = .waiting ∧ x.sub.event = false := by
    cases hpc : x.pc <;> simp_all [Subscriber.parked, Subscriber.suspended]
  simp only [Bool.and_eq_true, Option.isNone_iff_eq_none, List.isEmpty_iff] at hquiet
  have h := no_lost_wakeup ['t'] [] false true waitsAgain s hrun hquiet.1.1.1 hquiet.1.1.2
    hquiet.1.2 hquiet.2
  exact ⟨s, hrun, x, hmem, hpc.1, hout, (h.1 x hmem hpc.1 hpc.2).2⟩

end Fanout

end Durastream
