import Durastream.Aio.Hub

/-!
# What a subscriber yields

A subscriber has two sources, the log and the buffer that deliveries fill.  The
buffer is either stale or holds the records from `start` on (`Sub.Faithful`), whatever
the order of the deliveries; the log gives the records from `pos` on.  A record is only
taken from the buffer while `start` is `pos`, so what is yielded is a front of the
records from the offset on (`Subscriber.Exact`), and all of them when it returns
(`subscribe_exact`).
-/

namespace Durastream

section Prefix

variable {α : Type*} {all xs ys : List α} {b s e : Nat}

/-- Two pieces of a list that follow each other. -/
theorem isPrefix_append_drop (hys : ys <+: all.drop b) (hxs : xs <+: all.drop (b + ys.length)) :
    ys ++ xs <+: all.drop b := by
  obtain ⟨t, ht⟩ := hys
  rw [← List.drop_drop, ← ht, List.drop_left] at hxs
  rw [← ht]
  exact (List.prefix_append_right_inj ys).mpr hxs

/-- The rest of a piece of a list. -/
theorem isPrefix_drop_drop (hxs : xs <+: all.drop s) (hse : s ≤ e) :
    xs.drop (e - s) <+: all.drop e := by
  have hdrop := hxs.drop (e - s)
  rwa [List.drop_drop, Nat.add_sub_cancel' hse] at hdrop

end Prefix

/-! ## The buffer -/

namespace Sub

/-- The buffer is stale or holds the records from `start` on. -/
def Faithful (sub : Sub) (all : List Bytes) : Prop :=
  sub.stale = false → sub.buf <+: all.drop sub.start

variable {sub sub' : Sub} {all all' : List Bytes} {start : Nat} {records : List Bytes}
  {record : Bytes}

theorem Faithful.of_stale (h : sub.stale = true) : sub.Faithful all := by
  intro hfresh
  rw [h] at hfresh
  cases hfresh

theorem Faithful.of_empty (h : sub.buf = []) : sub.Faithful all := by
  intro _
  rw [h]
  exact List.nil_prefix

theorem Faithful.mono (h : sub.Faithful all) (hall : all <+: all') : sub.Faithful all' :=
  fun hfresh => (h hfresh).trans (hall.drop _)

/-- New records follow those that are there. -/
theorem Faithful.extend (h : sub.Faithful all) (hfresh : sub.stale = false)
    (hrecords : records <+: all.drop start) : (sub.extend start records).Faithful all := by
  unfold Sub.extend
  dsimp only
  split
  · exact .of_stale rfl
  · next hle =>
      split
      · intro _
        exact isPrefix_append_drop (h hfresh) (isPrefix_drop_drop hrecords (Nat.le_of_not_gt hle))
      · exact h

/-- Deliveries keep the buffer faithful, whatever their order. -/
theorem Faithful.deliver (h : sub.Faithful all) (hrecords : records <+: all.drop start) :
    (sub.deliver start records).Faithful all := by
  have hextend : (if records ≠ [] ∧ sub.stale = false then sub.extend start records
      else sub).Faithful all := by
    split
    · next hnew => exact h.extend hnew.2 hrecords
    · exact h
  unfold Sub.deliver
  dsimp only
  generalize (if records ≠ [] ∧ sub.stale = false then sub.extend start records else sub) = sub'
    at hextend
  cases hstale : sub'.stale with
  | true => exact .of_stale hstale
  | false => exact hextend

/-- The record that is taken is the one at `start`. -/
theorem Faithful.popleft (h : sub.Faithful all) (hfresh : sub.stale = false)
    (hpop : sub.popleft = some (record, sub')) :
    [record] <+: all.drop sub.start ∧ sub'.Faithful all ∧ sub'.stale = false ∧
      sub'.start = sub.start + 1 := by
  have hbuf := h hfresh
  unfold Sub.popleft at hpop
  split at hpop
  · cases hpop
  · next first buf heq =>
      cases hpop
      rw [heq] at hbuf
      obtain ⟨t, ht⟩ := hbuf
      refine ⟨⟨buf ++ t, ht⟩, fun _ => ?_, hfresh, rfl⟩
      show buf <+: all.drop (sub.start + 1)
      rw [← List.drop_drop, ← ht]
      exact ⟨t, rfl⟩

/-- Dropping what is before `pos` ends at `pos` or with an empty buffer. -/
theorem Faithful.dropBefore (h : sub.Faithful all) (hfresh : sub.stale = false) (pos : Nat) :
    (sub.dropBefore pos sub.buf).Faithful all ∧ (sub.dropBefore pos sub.buf).stale = false ∧
      ((sub.dropBefore pos sub.buf).buf = [] ∨ pos ≤ (sub.dropBefore pos sub.buf).start) := by
  generalize hbuf : sub.buf = buf
  induction buf generalizing sub with
  | nil => exact ⟨h, hfresh, .inl hbuf⟩
  | cons record rest ih =>
      rw [Sub.dropBefore]
      split
      · have hpop : sub.popleft = some (record, { sub with
            buf := rest, nbytes := sub.nbytes - record.length, start := sub.start + 1 }) := by
          rw [Sub.popleft, hbuf]
        rw [hpop]
        obtain ⟨-, hrest, hfresh', -⟩ := h.popleft hfresh hpop
        exact ih hrest hfresh' rfl
      · next hle => exact ⟨h, hfresh, .inr (Nat.le_of_not_lt hle)⟩

end Sub

/-! ## The stream -/

namespace LiveStream

/-- The entries the append that holds the lock has yet to add. -/
def pending (m : LiveStream) : List Nat :=
  match m.adding with
  | some (_, stops) => stops
  | none => []

structure Ok (m : LiveStream) : Prop where
  data : m.data = frames m.records
  index : m.index ++ m.pending = marks m.records
  open_of_adding : m.adding ≠ none → m.closed = false
  batch : ∀ payloads stops, m.adding = some (payloads, stops) → payloads <:+ m.records

/-- Records are only added, and none once the stream is closed. -/
structure Grows (m m' : LiveStream) : Prop where
  records : m.records <+: m'.records
  closed : m.closed = true → m'.closed = true ∧ m'.records = m.records

variable {m m' : LiveStream}

theorem Grows.refl (m : LiveStream) : m.Grows m := ⟨List.prefix_rfl, fun h => ⟨h, rfl⟩⟩

namespace Ok

theorem index_of_free (hm : m.Ok) (hfree : m.pending = []) : m.index = marks m.records := by
  rw [← hm.index, hfree, List.append_nil]

theorem nextOffset_of_free (hm : m.Ok) (hfree : m.pending = []) :
    m.nextOffset = m.records.length := by
  rw [nextOffset, hm.index_of_free hfree, nextOffset_marks]

/-- Nothing is added to the index of a closed stream. -/
theorem nextOffset_of_closed (hm : m.Ok) (hclosed : m.closed = true) :
    m.nextOffset = m.records.length := by
  refine hm.nextOffset_of_free ?_
  cases hadding : m.adding with
  | none => simp [pending, hadding]
  | some p =>
      rw [hm.open_of_adding (by simp [hadding])] at hclosed
      cases hclosed

/-- A read that returns gives the records from its offset on, or none of them. -/
theorem read (hm : m.Ok) (hfree : m.adding = none) {pos : Nat} {batch : List Bytes}
    (hread : Durastream.read m.name m.isOpen m.data m.index pos none = .ok batch) :
    batch <+: m.records.drop pos := by
  have hindex := hm.index_of_free (by simp [pending, hfree])
  have hfit : Fits m.records := .records m.data
  have hpos : (max (pos : Int) 0).toNat = pos := by omega
  rw [hindex] at hread
  cases hopen : m.isOpen with
  | true =>
      have hdata : frames m.records <+: m.data := by rw [hm.data]
      rw [hopen, read_marks m.name hfit hdata, readStop, List.take_length, hpos] at hread
      cases hread
      exact List.prefix_rfl
  | false =>
      rw [hopen, read_closed] at hread
      split at hread
      · cases hread
        exact List.nil_prefix
      · cases hread

/-- The records of an append are durable before they are in the index. -/
theorem append (hm : m.Ok) (hfree : m.adding = none) (hclosed : m.closed = false)
    {payloads : List Bytes} (hfit : Fits payloads) :
    ({ m with
      data := m.data ++ frames payloads
      adding := some (payloads, frameEnds (lastMark m.index) payloads) } : LiveStream).Ok ∧
    ({ m with
      data := m.data ++ frames payloads
      adding := some (payloads, frameEnds (lastMark m.index) payloads) } : LiveStream).records =
        m.records ++ payloads := by
  have hrecords : Durastream.records (m.data ++ frames payloads) = m.records ++ payloads := by
    rw [hm.data, ← frames_append]
    exact records_frames ((Fits.records m.data).append hfit)
  refine ⟨⟨?_, ?_, fun _ => hclosed, ?_⟩, hrecords⟩
  · show m.data ++ frames payloads = frames (Durastream.records (m.data ++ frames payloads))
    rw [hrecords, frames_append, ← hm.data]
  · show m.index ++ frameEnds (lastMark m.index) payloads =
      marks (Durastream.records (m.data ++ frames payloads))
    rw [hrecords, hm.index_of_free (by simp [pending, hfree]), marks_append_frameEnds]
  · intro payloads' stops heq
    cases heq
    show payloads <:+ Durastream.records (m.data ++ frames payloads)
    rw [hrecords]
    exact List.suffix_append _ _

/-- The records of a note are where it says. -/
theorem release (hm : m.Ok) {payloads : List Bytes} (hadding : m.adding = some (payloads, [])) :
    payloads <+: m.records.drop (m.nextOffset - payloads.length) := by
  obtain ⟨older, holder⟩ := hm.batch payloads [] hadding
  have hnext := hm.nextOffset_of_free (by simp [pending, hadding])
  rw [hnext, ← holder, List.length_append, Nat.add_sub_cancel, List.drop_left]

end Ok

end LiveStream

/-! ## The tasks -/

namespace Subscriber

/-- The first offset that is asked for. -/
def base (x : Subscriber) : Nat := (max x.offset 0).toNat

/-- The offset of the record that is yielded next. -/
def next (x : Subscriber) : Nat :=
  match x.pc with
  | .replay _ k => x.pos + k
  | _ => x.pos

/-- Places that need no fact of their own. -/
def plain (x : Subscriber) : Bool :=
  match x.pc with
  | .startRead => false
  | .fetched _ => false
  | .replay _ _ => false
  | .testEnd => false
  | .returned => false
  | .raised => false
  | _ => true

/-- What `subscribe` has yielded is right so far, and all there is once it has returned. -/
structure Exact (x : Subscriber) (m : LiveStream) : Prop where
  out : x.out <+: m.records.drop x.base
  next : x.pc ≠ .raised → x.base + x.out.length = x.next
  sub : x.sub.Faithful m.records
  startRead : x.pc = .startRead → x.sub.buf = []
  fetched : ∀ batch, x.pc = .fetched (.ok batch) → batch <+: m.records.drop x.pos
  replay : ∀ batch k, x.pc = .replay batch k → batch <+: m.records.drop x.pos ∧ k ≤ batch.length
  testEnd : x.pc = .testEnd → m.closed = true
  returned : x.pc = .returned → m.closed = true ∧ m.records.length ≤ x.pos

variable {x x' : Subscriber} {m m' : LiveStream}

namespace Exact

theorem of_plain (hplain : x.plain = true) (hout : x.out <+: m.records.drop x.base)
    (hlen : x.base + x.out.length = x.pos) (hsub : x.sub.Faithful m.records) : x.Exact m := by
  unfold plain at hplain
  split at hplain
  all_goals try cases hplain
  next hstart hfetched hreplay hend hreturned hraised =>
    exact {
      out := hout
      next := by
        intro _
        rw [hlen, Subscriber.next]
        split
        · next batch k heq => exact absurd heq (hreplay batch k)
        · rfl
      sub := hsub
      startRead := fun heq => absurd heq hstart
      fetched := fun _ heq => absurd heq (hfetched _)
      replay := fun _ _ heq => absurd heq (hreplay _ _)
      testEnd := fun heq => absurd heq hend
      returned := fun heq => absurd heq hreturned }

theorem of_raised (hpc : x.pc = .raised) (hout : x.out <+: m.records.drop x.base)
    (hsub : x.sub.Faithful m.records) : x.Exact m where
  out := hout
  next := fun hne => absurd hpc hne
  sub := hsub
  startRead := fun heq => by simp [hpc] at heq
  fetched := fun _ heq => by simp [hpc] at heq
  replay := fun _ _ heq => by simp [hpc] at heq
  testEnd := fun heq => by simp [hpc] at heq
  returned := fun heq => by simp [hpc] at heq

theorem new (offset : Int) (m : LiveStream) : (Subscriber.new offset).Exact m :=
  .of_plain rfl List.nil_prefix rfl (.of_stale rfl)

theorem mono (h : x.Exact m) (hm : m.Grows m') : x.Exact m' where
  out := h.out.trans (hm.records.drop _)
  next := h.next
  sub := h.sub.mono hm.records
  startRead := h.startRead
  fetched := fun batch heq => (h.fetched batch heq).trans (hm.records.drop _)
  replay := by
    intro batch k heq
    obtain ⟨hbatch, hk⟩ := h.replay batch k heq
    exact ⟨hbatch.trans (hm.records.drop _), hk⟩
  testEnd := fun heq => (hm.closed (h.testEnd heq)).1
  returned := by
    intro heq
    obtain ⟨hclosed, hle⟩ := h.returned heq
    obtain ⟨hclosed', hrecords⟩ := hm.closed hclosed
    exact ⟨hclosed', by rwa [hrecords]⟩

/-- A delivery while the task is suspended. -/
theorem deliver (h : x.Exact m) (hsuspended : x.suspended = true) {n : Note}
    (hn : n.records <+: m.records.drop n.start) :
    ({ x with sub := x.sub.deliver n.start n.records } : Subscriber).Exact m where
  out := h.out
  next := h.next
  sub := h.sub.deliver hn
  startRead := by
    intro heq
    have hpc : x.pc = .startRead := heq
    simp [suspended, hpc] at hsuspended
  fetched := h.fetched
  replay := h.replay
  testEnd := h.testEnd
  returned := h.returned

/-- The loop over `batch` goes on. -/
theorem replayed (h : x.Exact m) {batch : List Bytes} {k : Nat}
    (hbatch : batch <+: m.records.drop x.pos) (hk : k ≤ batch.length)
    (hlen : x.base + x.out.length = x.pos + k) : (x.replayed batch k).Exact m := by
  unfold Subscriber.replayed
  split
  · next record hget =>
      obtain ⟨hlt, rfl⟩ := List.getElem?_eq_some_iff.mp hget
      have hrecord : [batch[k]] <+: m.records.drop (x.base + x.out.length) := by
        have hdrop := hbatch.drop k
        rw [List.drop_drop, ← hlen, List.drop_eq_getElem_cons hlt] at hdrop
        exact .trans ⟨_, rfl⟩ hdrop
      exact {
        out := isPrefix_append_drop h.out hrecord
        next := by
          intro _
          show x.base + (x.out ++ [batch[k]]).length = x.pos + (k + 1)
          rw [List.length_append, List.length_singleton]
          omega
        sub := h.sub
        startRead := fun heq => by cases heq
        fetched := fun _ heq => by cases heq
        replay := by
          intro batch' k' heq
          cases heq
          exact ⟨hbatch, hlt⟩
        testEnd := fun heq => by cases heq
        returned := fun heq => by cases heq }
  · next hnone =>
      have hk' : k = batch.length := Nat.le_antisymm hk (List.getElem?_eq_none_iff.mp hnone)
      refine .of_plain rfl h.out ?_ h.sub
      show x.base + x.out.length = x.pos + batch.length
      rw [hlen, hk']

/-- A live record is yielded: the buffer starts at `pos`. -/
theorem yielded (h : x.Exact m) (hlen : x.base + x.out.length = x.pos) {sub sub' : Sub}
    {record : Bytes}
    (hsub : sub.Faithful m.records) (hfresh : sub.stale = false) (hstart : sub.start = x.pos)
    (hpop : sub.popleft = some (record, sub')) :
    ({ x with pos := x.pos + 1, sub := sub', pc := .yielded, out := x.out ++ [record] } :
      Subscriber).Exact m := by
  obtain ⟨hrecord, hsub', -, -⟩ := hsub.popleft hfresh hpop
  rw [hstart, ← hlen] at hrecord
  refine .of_plain rfl (isPrefix_append_drop h.out hrecord) ?_ hsub'
  show x.base + (x.out ++ [record]).length = x.pos + 1
  rw [List.length_append, List.length_singleton]
  omega

theorem top (h : x.Exact m) (hpc : x.pc = .top) (hrun : x.run m = some x') : x'.Exact m := by
  have hlen := h.next (by simp [hpc])
  rw [Subscriber.next, hpc] at hlen
  simp only [run, hpc] at hrun
  split at hrun
  · cases hrun
    exact {
      out := h.out
      next := fun _ => hlen
      sub := .of_empty rfl
      startRead := fun _ => rfl
      fetched := fun _ heq => by cases heq
      replay := fun _ _ heq => by cases heq
      testEnd := fun heq => by cases heq
      returned := fun heq => by cases heq }
  · next hfresh =>
      have hfresh : x.sub.stale = false := by simpa using hfresh
      obtain ⟨hdrop, hdropped, hstart⟩ := h.sub.dropBefore hfresh x.pos
      generalize x.sub.dropBefore x.pos x.sub.buf = sub₀ at hrun hdrop hdropped hstart
      -- `start` is not before `pos` any more
      have hraised : ∃ sub : Sub, (if sub₀.buf = [] then
          { sub₀ with start := max sub₀.start x.pos } else sub₀) = sub ∧
            sub.Faithful m.records ∧ sub.stale = false ∧ x.pos ≤ sub.start := by
        split
        · next hempty => exact ⟨_, rfl, .of_empty hempty, hdropped, Nat.le_max_right _ _⟩
        · next hne => exact ⟨_, rfl, hdrop, hdropped, hstart.resolve_left hne⟩
      obtain ⟨sub, heq, hsub, hstale, hle⟩ := hraised
      rw [heq] at hrun
      split at hrun
      · cases hrun
        exact .of_plain rfl h.out hlen (.of_stale rfl)
      · next hge =>
          have hpos : sub.start = x.pos := Nat.le_antisymm (Nat.le_of_not_gt hge) hle
          split at hrun
          · next record sub' hpop =>
              cases hrun
              exact h.yielded hlen hsub hstale hpos hpop
          · cases hrun
            exact .of_plain rfl h.out hlen hsub

/-- A task that goes on has yielded what it should. -/
theorem run (h : x.Exact m) (hm : m.Ok) (hrun : x.run m = some x') : x'.Exact m := by
  cases hpc : x.pc with
  | top => exact h.top hpc hrun
  | fetched r =>
      have hlen := h.next (by simp [hpc])
      rw [Subscriber.next, hpc] at hlen
      simp only [Subscriber.run, hpc] at hrun
      cases r with
      | ok batch =>
          cases hrun
          exact h.replayed (h.fetched batch hpc) (Nat.zero_le _) hlen
      | error e =>
          cases hrun
          exact .of_raised rfl h.out h.sub
  | replay batch k =>
      have hlen := h.next (by simp [hpc])
      rw [Subscriber.next, hpc] at hlen
      simp only [Subscriber.run, hpc] at hrun
      cases hrun
      obtain ⟨hbatch, hk⟩ := h.replay batch k hpc
      exact h.replayed hbatch hk hlen
  | startRead =>
      have hlen := h.next (by simp [hpc])
      rw [Subscriber.next, hpc] at hlen
      simp only [Subscriber.run, hpc] at hrun
      cases hrun
      exact .of_plain rfl h.out hlen (.of_empty (h.startRead hpc))
  | checkRead =>
      have hlen := h.next (by simp [hpc])
      rw [Subscriber.next, hpc] at hlen
      simp only [Subscriber.run, hpc] at hrun
      split at hrun <;> cases hrun <;> exact .of_plain rfl h.out hlen h.sub
  | yielded =>
      have hlen := h.next (by simp [hpc])
      rw [Subscriber.next, hpc] at hlen
      simp only [Subscriber.run, hpc] at hrun
      cases hrun
      exact .of_plain rfl h.out hlen h.sub
  | testClosed =>
      have hlen := h.next (by simp [hpc])
      rw [Subscriber.next, hpc] at hlen
      simp only [Subscriber.run, hpc] at hrun
      split at hrun
      · next hclosed =>
          cases hrun
          exact {
            out := h.out
            next := fun _ => hlen
            sub := h.sub
            startRead := fun heq => by cases heq
            fetched := fun _ heq => by cases heq
            replay := fun _ _ heq => by cases heq
            testEnd := fun _ => hclosed
            returned := fun heq => by cases heq }
      · cases hrun
        exact .of_plain rfl h.out hlen h.sub
  | testEnd =>
      have hlen := h.next (by simp [hpc])
      rw [Subscriber.next, hpc] at hlen
      simp only [Subscriber.run, hpc] at hrun
      split at hrun
      · next hend =>
          cases hrun
          -- no record is added to a closed stream, so this was the last one
          have hclosed := h.testEnd hpc
          exact {
            out := h.out
            next := fun _ => hlen
            sub := h.sub
            startRead := fun heq => by cases heq
            fetched := fun _ heq => by cases heq
            replay := fun _ _ heq => by cases heq
            testEnd := fun heq => by cases heq
            returned := fun _ => ⟨hclosed, hm.nextOffset_of_closed hclosed ▸ hend⟩ }
      · cases hrun
        exact .of_plain rfl h.out hlen (.of_stale rfl)
  | testWait =>
      have hlen := h.next (by simp [hpc])
      rw [Subscriber.next, hpc] at hlen
      simp only [Subscriber.run, hpc] at hrun
      split at hrun <;> cases hrun <;> exact .of_plain rfl h.out hlen h.sub
  | waiting =>
      have hlen := h.next (by simp [hpc])
      rw [Subscriber.next, hpc] at hlen
      simp only [Subscriber.run, hpc] at hrun
      split at hrun
      · cases hrun
        exact .of_plain rfl h.out hlen h.sub
      · cases hrun
  | reading => simp [Subscriber.run, hpc] at hrun
  | returned => simp [Subscriber.run, hpc] at hrun
  | raised => simp [Subscriber.run, hpc] at hrun

/-- The read in the thread ends. -/
theorem fetch (h : x.Exact m) (hpc : x.pc = .reading) {r : Except Error (List Bytes)}
    (hr : ∀ batch, r = .ok batch → batch <+: m.records.drop x.pos) :
    ({ x with pc := .fetched r } : Subscriber).Exact m := by
  have hlen := h.next (by simp [hpc])
  rw [Subscriber.next, hpc] at hlen
  exact {
    out := h.out
    next := fun _ => hlen
    sub := h.sub
    startRead := fun heq => by cases heq
    fetched := fun batch heq => hr batch (SubscribePc.fetched.inj heq)
    replay := fun _ _ heq => by cases heq
    testEnd := fun heq => by cases heq
    returned := fun heq => by cases heq }

/-- When it has returned, it has yielded all there is. -/
theorem out_of_returned (h : x.Exact m) (hpc : x.pc = .returned) :
    x.out = m.records.drop x.base := by
  obtain ⟨-, hle⟩ := h.returned hpc
  have hlen := h.next (by simp [hpc])
  rw [Subscriber.next, hpc] at hlen
  refine h.out.eq_of_length_le ?_
  rw [List.length_drop]
  dsimp only at hlen
  omega

end Exact

end Subscriber

/-! ## The hub -/

/-- The records of a note are those at its offset. -/
def Note.Faithful (n : Note) (all : List Bytes) : Prop := n.records <+: all.drop n.start

/-- A notification without records. -/
theorem Note.faithful_empty (offset : Nat) (all : List Bytes) :
    ∀ n ∈ [(⟨offset, []⟩ : Note)], n.Faithful all := by
  intro n hmem
  rw [List.mem_singleton.mp hmem]
  exact List.nil_prefix

namespace LiveStream

variable {m m' : LiveStream} {a : FanoutAct} {notes : List Note}

/-- The flags of the stream change, but a closed stream stays closed. -/
theorem Ok.shut (hm : m.Ok) (hfree : m.adding = none) (closed isOpen writable : Bool)
    (hclosed : m.closed = true → closed = true) :
    m.Grows { m with closed := closed, isOpen := isOpen, writable := writable } ∧
      ({ m with closed := closed, isOpen := isOpen, writable := writable } : LiveStream).Ok :=
  ⟨⟨List.prefix_rfl, fun h => ⟨hclosed h, rfl⟩⟩, hm.data, hm.index, fun hne => absurd hfree hne,
    hm.batch⟩

/-- What happens to a stream keeps it in order, and its notes tell of records that are
there. -/
theorem Change.ok (h : m.Change a m' notes) (hm : m.Ok) :
    m.Grows m' ∧ m'.Ok ∧ ∀ n ∈ notes, n.Faithful m'.records := by
  have hquiet : ∀ all : List Bytes, ∀ n ∈ ([] : List Note), n.Faithful all :=
    fun _ _ hmem => absurd hmem List.not_mem_nil
  cases h with
  | started payloads offset w hfree hbegin =>
      obtain ⟨hopen, -, -, -, hfit, -⟩ := Writer.begin_started hbegin
      have hopen : m.closed = false := hopen
      obtain ⟨hok, hrecords⟩ := hm.append hfree hopen hfit
      refine ⟨⟨?_, fun hclosed => ?_⟩, hok, hquiet _⟩
      · rw [hrecords]
        exact List.prefix_append _ _
      · rw [hopen] at hclosed
        cases hclosed
  | returned payloads offset => exact ⟨.refl m, hm, hquiet _⟩
  | refused payloads offset => exact ⟨.refl m, hm, Note.faithful_empty offset _⟩
  | added payloads stop rest hadding =>
      have hindex := hm.index
      rw [pending, hadding] at hindex
      refine ⟨⟨List.prefix_rfl, fun h => ⟨h, rfl⟩⟩, ⟨hm.data, ?_, ?_, ?_⟩, hquiet _⟩
      · show m.index ++ [stop] ++ rest = marks m.records
        rw [List.append_assoc]
        exact hindex
      · exact fun _ => hm.open_of_adding (by simp [hadding])
      · intro payloads' stops heq
        cases heq
        exact hm.batch payloads _ hadding
  | released payloads hadding =>
      have hindex := hm.index
      rw [pending, hadding] at hindex
      refine ⟨⟨List.prefix_rfl, fun h => ⟨h, rfl⟩⟩,
        ⟨hm.data, hindex, fun hne => absurd rfl hne, fun _ _ heq => by cases heq⟩, ?_⟩
      intro n hmem
      rw [List.mem_singleton.mp hmem]
      exact hm.release hadding
  | failed disabled offset hfree =>
      have h := hm.shut hfree (m.closed || disabled) m.isOpen m.writable
        fun h => by rw [h, Bool.true_or]
      exact ⟨h.1, h.2, Note.faithful_empty offset _⟩
  | closed ok offset hfree =>
      have h := hm.shut hfree (m.closed || ok && m.writable) m.isOpen m.writable
        fun h => by rw [h, Bool.true_or]
      exact ⟨h.1, h.2, Note.faithful_empty offset _⟩
  | closedFds offset hfree =>
      have h := hm.shut hfree true false false fun _ => rfl
      exact ⟨h.1, h.2, Note.faithful_empty offset _⟩

end LiveStream

namespace Fanout

structure Ok (s : Fanout) : Prop where
  stream : s.stream.Ok
  changes : ∀ n ∈ s.changes, n.Faithful s.stream.records
  calls : ∀ n ∈ s.calls, n.Faithful s.stream.records
  posted : ∀ n ∈ s.posted, n.Faithful s.stream.records
  subscribers : ∀ x ∈ s.subscribers, x.Exact s.stream

variable {s t : Fanout} {a : FanoutAct} {j : Nat} {x x' : Subscriber}

section Projections

variable (s : Fanout)

@[simp] theorem stream_settle : s.settle.stream = s.stream := by unfold settle; split <;> rfl
@[simp] theorem changes_settle : s.settle.changes = s.changes := by unfold settle; split <;> rfl
@[simp] theorem calls_settle : s.settle.calls = s.calls := by unfold settle; split <;> rfl
@[simp] theorem posted_settle : s.settle.posted = s.posted := by unfold settle; split <;> rfl
@[simp] theorem subscribers_settle : s.settle.subscribers = s.subscribers := by
  unfold settle; split <;> rfl

end Projections

namespace Ok

theorem init (name : Name) (data : Bytes) (closed writable : Bool) :
    (Fanout.init name data closed writable).Ok := by
  have hrecords : (Fanout.init name data closed writable).stream.records = records data :=
    records_frames (.records data)
  refine ⟨⟨?_, ?_, fun hne => absurd rfl hne, fun _ _ heq => by cases heq⟩, ?_, ?_, ?_, ?_⟩
  · rw [hrecords]
    rfl
  · rw [hrecords]
    exact List.append_nil _
  · exact fun _ hmem => absurd hmem List.not_mem_nil
  · exact fun _ hmem => absurd hmem List.not_mem_nil
  · exact fun _ hmem => absurd hmem List.not_mem_nil
  · exact fun _ hmem => absurd hmem List.not_mem_nil

/-- The stream grows, and what is not new was there before. -/
theorem lift (ho : s.Ok) (hgrows : s.stream.Grows t.stream) (hstream : t.stream.Ok)
    (hchanges : ∀ n ∈ t.changes, n ∈ s.changes ∨ n.Faithful t.stream.records)
    (hcalls : ∀ n ∈ t.calls, n ∈ s.calls ∨ n ∈ s.changes)
    (hposted : ∀ n ∈ t.posted, n ∈ s.posted ∨ n ∈ s.calls)
    (hsubscribers : ∀ x ∈ t.subscribers, x ∈ s.subscribers ∨ x.Exact t.stream) : t.Ok := by
  have hmono : ∀ n : Note, n.Faithful s.stream.records → n.Faithful t.stream.records :=
    fun n hn => hn.trans (hgrows.records.drop _)
  refine ⟨hstream, ?_, ?_, ?_, ?_⟩
  · exact fun n hmem => (hchanges n hmem).elim (fun hold => hmono n (ho.changes n hold)) id
  · exact fun n hmem => hmono n ((hcalls n hmem).elim (ho.calls n) (ho.changes n))
  · exact fun n hmem => hmono n ((hposted n hmem).elim (ho.posted n) (ho.calls n))
  · exact fun x hmem => (hsubscribers x hmem).elim
      (fun hold => (ho.subscribers x hold).mono hgrows) id

/-- One task goes on. -/
theorem setSubscriber (ho : s.Ok) (hx : x.Exact s.stream) : (s.setSubscriber j x).Ok := by
  refine ho.lift (.refl _) ho.stream (fun _ hmem => .inl hmem) (fun _ hmem => .inl hmem)
    (fun _ hmem => .inl hmem) fun y hmem => ?_
  rcases List.mem_or_eq_of_mem_set hmem with hmem | rfl
  · exact .inl hmem
  · exact .inr hx

theorem settle (ho : s.Ok) : s.settle.Ok := by
  refine ⟨?_, ?_, ?_, ?_, ?_⟩
  · simpa using ho.stream
  · simpa using ho.changes
  · simpa using ho.calls
  · simpa using ho.posted
  · simpa using ho.subscribers

theorem delivered (ho : s.Ok) (hidle : s.idle = true) {n : Note}
    (hn : n.Faithful s.stream.records) : (s.delivered n).Ok := by
  refine ho.lift (.refl _) ho.stream (fun _ hmem => .inl hmem) (fun _ hmem => .inl hmem)
    (fun _ hmem => .inl hmem) fun y hmem => ?_
  obtain ⟨x, hx, rfl⟩ := List.mem_map.mp hmem
  split
  · exact .inl hx
  · right
    have hsuspended : x.suspended = true :=
      List.all_eq_true.mp (Bool.and_eq_true_iff.mp hidle).1 x hx
    exact (ho.subscribers x hx).deliver hsuspended hn

/-- Every step keeps the invariant. -/
theorem step (ho : s.Ok) (hstep : Fanout.Step s a t) : t.Ok := by
  have hold : ∀ {l : List Note} {i : Nat} {n n' : Note} {c : Bool} {older : List Note},
      l[i]? = some n → n' ∈ (if c then older ++ [n] else older) → n' ∈ older ∨ n' ∈ l := by
    intro l i n n' c older hn hmem
    split at hmem
    · rcases List.mem_append.mp hmem with hmem | hmem
      · exact .inl hmem
      · rw [List.mem_singleton.mp hmem]
        exact .inr (List.mem_of_getElem? hn)
    · exact .inl hmem
  cases hstep with
  | stream a m notes hchange =>
      obtain ⟨hgrows, hok, hnotes⟩ := hchange.ok ho.stream
      exact ho.lift hgrows hok (fun n hmem => (List.mem_append.mp hmem).imp_right (hnotes n))
        (fun _ hmem => .inl hmem) (fun _ hmem => .inl hmem) fun _ hmem => .inl hmem
  | notify i n hn =>
      exact ho.lift (.refl _) ho.stream (fun _ hmem => .inl (List.mem_of_mem_eraseIdx hmem))
        (fun _ hmem => hold hn hmem) (fun _ hmem => .inl hmem) fun _ hmem => .inl hmem
  | post i n hn =>
      exact ho.lift (.refl _) ho.stream (fun _ hmem => .inl hmem)
        (fun _ hmem => .inl (List.mem_of_mem_eraseIdx hmem)) (fun _ hmem => hold hn hmem)
        fun _ hmem => .inl hmem
  | deliver i n hidle hn =>
      have hsame : ({ s with posted := s.posted.eraseIdx i } : Fanout).Ok :=
        ho.lift (.refl _) ho.stream (fun _ hmem => .inl hmem) (fun _ hmem => .inl hmem)
          (fun _ hmem => .inl (List.mem_of_mem_eraseIdx hmem)) fun _ hmem => .inl hmem
      exact hsame.delivered hidle (ho.posted n (List.mem_of_getElem? hn))
  | subscribe offset hidle =>
      refine ho.lift (.refl _) ho.stream (fun _ hmem => .inl hmem) (fun _ hmem => .inl hmem)
        (fun _ hmem => .inl hmem) fun x hmem => ?_
      rcases List.mem_append.mp hmem with hmem | hmem
      · exact .inl hmem
      · rw [List.mem_singleton.mp hmem]
        exact .inr (.new offset _)
  | wait offset hidle => exact ⟨ho.stream, ho.changes, ho.calls, ho.posted, ho.subscribers⟩
  | run j x x' hx hrun =>
      have h := ho.subscribers x (List.mem_of_getElem? hx)
      exact (ho.setSubscriber (h.run ho.stream hrun)).settle
  | runWait j x x' hx hrun =>
      have hset : (s.setWaiter j x').Ok :=
        ⟨ho.stream, ho.changes, ho.calls, ho.posted, ho.subscribers⟩
      exact hset.settle
  | read j x hfree hx hpc =>
      have h := ho.subscribers x (List.mem_of_getElem? hx)
      exact ho.setSubscriber (h.fetch hpc fun batch heq => ho.stream.read hfree heq)
  | readFailed j x hx hpc =>
      have h := ho.subscribers x (List.mem_of_getElem? hx)
      exact ho.setSubscriber (h.fetch hpc fun batch heq => by cases heq)
  | leave j x hx =>
      have h := ho.subscribers x (List.mem_of_getElem? hx)
      have hleft : ({ x with pc := .raised } : Subscriber).Exact s.stream :=
        .of_raised rfl h.out h.sub
      exact (ho.setSubscriber hleft).settle
  | leaveWait j x hx =>
      have hset : (s.setWaiter j { x with pc := .raised }).Ok :=
        ⟨ho.stream, ho.changes, ho.calls, ho.posted, ho.subscribers⟩
      exact hset.settle

end Ok

/-! ## What happens to the stream -/

/-- What a step can do to the stream. -/
theorem Step.stream_cases (h : Step s a t) :
    t.stream = s.stream ∨ ∃ notes, s.stream.Change a t.stream notes := by
  cases h with
  | stream a m notes hchange => exact .inr ⟨notes, hchange⟩
  | deliver i n hidle hn => exact .inl rfl
  | run j x x' hx hrun => exact .inl (stream_settle _)
  | runWait j x x' hx hrun => exact .inl (stream_settle _)
  | leave j x hx => exact .inl (stream_settle _)
  | leaveWait j x hx => exact .inl (stream_settle _)
  | _ => exact .inl rfl

theorem Step.grows (h : Step s a t) (ho : s.Ok) : s.stream.Grows t.stream := by
  rcases h.stream_cases with heq | ⟨notes, hchange⟩
  · rw [heq]
    exact .refl _
  · exact (hchange.ok ho.stream).1

/-! ## The result -/

/-- What a subscriber has yielded is a front of the stream's records from its offset on,
and when it has returned, the stream is closed and these are all the records there are. -/
theorem subscribe_exact (name : Name) (data : Bytes) (closed writable : Bool)
    (acts : List FanoutAct) (s : Fanout)
    (hrun : Lts.run step (init name data closed writable) acts = some s) :
    ∀ x ∈ s.subscribers,
      x.out <+: s.stream.records.drop (max x.offset 0).toNat ∧
        (x.pc = .returned → s.stream.closed = true ∧
          s.stream.nextOffset = s.stream.records.length ∧
          x.out = s.stream.records.drop (max x.offset 0).toNat) := by
  have hok : s.Ok := Lts.run_invariant (fun _ _ _ ho hstep => Ok.step ho (step_cases hstep)) hrun
    (.init name data closed writable)
  intro x hmem
  have hexact := hok.subscribers x hmem
  refine ⟨hexact.out, fun hpc => ?_⟩
  have hclosed := (hexact.returned hpc).1
  exact ⟨hclosed, hok.stream.nextOffset_of_closed hclosed, hexact.out_of_returned hpc⟩

/-- A batch is appended between the reads of a subscriber and delivered during its
replay, and the stream is closed. -/
def closedAfterReplay : List FanoutAct :=
  [.subscribe 0, .run 0, .append [[1], [2]] 0, .run 0, .addEntry, .run 0, .addEntry, .release,
    .read 0, .run 0, .notify 0, .post 0, .deliver 0, .run 0, .run 0, .run 0, .close true 2,
    .run 0, .run 0]

theorem subscribe_exact_closedAfterReplay :
    ∃ s, Lts.run step (init ['t'] [] false true) closedAfterReplay = some s ∧
      ∀ x ∈ s.subscribers,
        x.out <+: s.stream.records.drop (max x.offset 0).toNat ∧
          (x.pc = .returned → s.stream.closed = true ∧
            s.stream.nextOffset = s.stream.records.length ∧
            x.out = s.stream.records.drop (max x.offset 0).toNat) := by
  have hsome : (Lts.run step (init ['t'] [] false true) closedAfterReplay).isSome = true := by
    decide +kernel
  obtain ⟨s, hrun⟩ := Option.isSome_iff_exists.mp hsome
  exact ⟨s, hrun, subscribe_exact ['t'] [] false true closedAfterReplay s hrun⟩

end Fanout

end Durastream
