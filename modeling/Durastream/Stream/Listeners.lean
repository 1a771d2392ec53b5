import Durastream.Lib.Lts
import Durastream.Stream.Writer
import Mathlib.Data.List.Perm.Basic
import Mathlib.Data.List.Perm.Subperm

/-!
# Listeners

One handle that owns its log, any number of threads that append to it or close it, and
its listeners.  An append takes the lock up to the last system call of
`_append_locked`.  Its notification comes after: `_notify` takes a snapshot of the
listeners and calls one after another.  Threads commit under the lock in one order and
notify in any other.  Listeners are added and removed at any time, and an exception of
one is ignored.

A listener that is registered while no notification is under way hears of every batch
that is appended from then on, once, with its offset (`heard_tiles`).

`appended` records the batches of the appends that returned, and `received` the calls
of the listeners.  The code has no such records; the theorems are about them.
-/

namespace Durastream

/-- What a listener is called with. -/
structure Notification where
  start : Nat
  records : List Bytes
deriving DecidableEq

/-- Where a thread is. -/
inductive ThreadPc where
  /-- In no call. -/
  | idle
  /-- In `_append_locked`, with the lock. -/
  | appending (records : List Bytes)
  /-- Before `self.next_offset`: an append raised, or `close` is done. -/
  | changed
  /-- In `_notify`, before the snapshot. -/
  | notify (n : Notification)
  /-- In the loop of `_notify`, with the listeners left to call. -/
  | calling (n : Notification) (callbacks : List Nat)
deriving DecidableEq

structure Listening where
  file : CrashFile UInt8
  writer : Writer
  writable : Bool
  /-- The thread that holds the lock across a system call. -/
  lock : Option Nat
  threads : List ThreadPc
  /-- The keys of `_listeners`, oldest first. -/
  listeners : List Nat
  /-- The next of `_listener_ids`. -/
  nextId : Nat
  appended : List (List Bytes)
  received : List (Nat × Notification)

inductive ListenAct where
  /-- `append_many`, up to its first system call. -/
  | append (j : Nat) (payloads : List Bytes)
  /-- The next system call of an append. -/
  | io (j : Nat) (a : IoAct)
  /-- `close`, up to its notification; `ok` if it persists the flag. -/
  | close (j : Nat) (ok : Bool)
  /-- `self.next_offset`. -/
  | readOffset (j : Nat)
  | snapshot (j : Nat)
  /-- The next listener is called; it may raise an `Exception`. -/
  | call (j : Nat) (raises : Bool)
  /-- `_notify` has called them all. -/
  | finish (j : Nat)
  | addListener
  | removeListener (lid : Nat)
deriving DecidableEq

namespace Listening

/-- A handle on a log with these whole frames, and `n` threads. -/
def init (name : Name) (data : Bytes) (closed writable : Bool) (n : Nat) : Listening where
  file := .ofDisk (frames (records data))
  writer := ⟨name, marks (records data), closed, .idle⟩
  writable := writable
  lock := none
  threads := List.replicate n .idle
  listeners := []
  nextId := 1
  appended := []
  received := []

def setThread (s : Listening) (j : Nat) (pc : ThreadPc) : Listening :=
  { s with threads := s.threads.set j pc }

def step (s : Listening) : ListenAct → Option Listening
  | .append j payloads =>
      match s.threads[j]? with
      | some .idle =>
          match payloads.mapM packFrame with
          | .error _ => some (s.setThread j .changed) -- outside the lock
          | .ok _ =>
              if s.lock.isNone then
                match s.writer.begin s.writable true payloads with
                | .raised _ => some (s.setThread j .changed)
                | .returned _ => some s
                | .started w =>
                    some { s.setThread j (.appending payloads) with writer := w, lock := some j }
              else none
      | _ => none
  | .io j a =>
      match s.threads[j]? with
      | some (.appending records) =>
          if s.lock = some j then
            match s.writer.step s.file a with
            | some (file, w, none) => some { s with file := file, writer := w }
            | some (file, w, some (.returned next)) =>
                some { s.setThread j (.notify ⟨next - records.length, records⟩) with
                  file := file, writer := w, lock := none, appended := s.appended ++ [records] }
            | some (file, w, some _) =>
                some { s.setThread j .changed with file := file, writer := w, lock := none }
            | none => none
          else none
      | _ => none
  | .close j ok =>
      match s.threads[j]? with
      | some .idle =>
          if s.lock.isNone then
            some { s.setThread j .changed with
              writer := { s.writer with closed := s.writer.closed || ok && s.writable } }
          else none
      | _ => none
  | .readOffset j =>
      match s.threads[j]? with
      | some .changed => some (s.setThread j (.notify ⟨nextOffset s.writer.index, []⟩))
      | _ => none
  | .snapshot j =>
      match s.threads[j]? with
      | some (.notify n) => some (s.setThread j (.calling n s.listeners))
      | _ => none
  | .call j _ => -- an exception is printed and ignored
      match s.threads[j]? with
      | some (.calling n (lid :: rest)) =>
          some { s.setThread j (.calling n rest) with received := s.received ++ [(lid, n)] }
      | _ => none
  | .finish j =>
      match s.threads[j]? with
      | some (.calling _ []) => some (s.setThread j .idle)
      | _ => none
  | .addListener =>
      some { s with listeners := s.listeners ++ [s.nextId], nextId := s.nextId + 1 }
  | .removeListener lid => some { s with listeners := s.listeners.filter (· ≠ lid) }

end Listening

/-! ## Tiles -/

/-- The notifications of batches that follow each other from `start` on. -/
def tiles (start : Nat) : List (List Bytes) → List Notification
  | [] => []
  | b :: bs => ⟨start, b⟩ :: tiles (start + b.length) bs

namespace Notification

/-- The offset after the last record. -/
def stop (n : Notification) : Nat := n.start + n.records.length

/-- Neither of the two has a record the other has. -/
def Apart (m n : Notification) : Prop := m.stop ≤ n.start ∨ n.stop ≤ m.start

theorem Apart.symm {m n : Notification} (h : m.Apart n) : n.Apart m := Or.symm h

end Notification

theorem tiles_append_singleton (start : Nat) (bs : List (List Bytes)) (b : List Bytes) :
    tiles start (bs ++ [b]) = tiles start bs ++ [⟨start + bs.flatten.length, b⟩] := by
  induction bs generalizing start with
  | nil => rfl
  | cons c bs ih =>
      rw [List.cons_append, tiles, ih, tiles, List.flatten_cons, List.length_append, Nat.add_assoc]
      rfl

/-- A tile starts after what is before it. -/
theorem start_le_of_mem_tiles {start : Nat} {bs : List (List Bytes)} {n : Notification}
    (h : n ∈ tiles start bs) : start ≤ n.start := by
  induction bs generalizing start with
  | nil => cases h
  | cons b bs ih =>
      rcases List.mem_cons.mp h with rfl | h
      · exact Nat.le_refl _
      · exact Nat.le_trans (Nat.le_add_right _ _) (ih h)

theorem tiles_pairwise (start : Nat) (bs : List (List Bytes)) :
    (tiles start bs).Pairwise Notification.Apart := by
  induction bs generalizing start with
  | nil => exact .nil
  | cons b bs ih => exact .cons (fun n hn => .inl (start_le_of_mem_tiles hn)) (ih _)

/-- The tiles cover the offsets up to the end of the last. -/
theorem mem_tiles_iff (start : Nat) (bs : List (List Bytes)) (k : Nat) :
    (∃ n ∈ tiles start bs, n.start ≤ k ∧ k < n.stop) ↔
      start ≤ k ∧ k < start + bs.flatten.length := by
  induction bs generalizing start with
  | nil =>
      rw [List.flatten_nil, List.length_nil]
      constructor
      · rintro ⟨n, hn, -⟩
        cases hn
      · omega
  | cons b bs ih =>
      have hcons : (∃ n ∈ tiles start (b :: bs), n.start ≤ k ∧ k < n.stop) ↔
          start ≤ k ∧ k < start + b.length ∨
            ∃ n ∈ tiles (start + b.length) bs, n.start ≤ k ∧ k < n.stop := by
        rw [tiles]
        simp only [List.mem_cons, exists_eq_or_imp]
        rfl
      rw [hcons, ih, List.flatten_cons, List.length_append]
      omega

/-- The records of a tile are those at its offset. -/
theorem records_of_mem_tiles {older : List Bytes} {bs : List (List Bytes)} {n : Notification}
    (h : n ∈ tiles older.length bs) :
    n.stop ≤ (older ++ bs.flatten).length ∧
      ((older ++ bs.flatten).take n.stop).drop n.start = n.records := by
  induction bs generalizing older with
  | nil => cases h
  | cons b bs ih =>
      rw [List.flatten_cons, ← List.append_assoc]
      rcases List.mem_cons.mp h with rfl | h
      · have hstop : (⟨older.length, b⟩ : Notification).stop = (older ++ b).length := by
          rw [Notification.stop, List.length_append]
        have hlong := (List.prefix_append (older ++ b) bs.flatten).length_le
        rw [hstop, List.take_left, List.drop_left]
        exact ⟨hlong, rfl⟩
      · rw [← List.length_append] at h
        exact ih h

/-! ## What a thread owes -/

namespace ThreadPc

/-- The listeners it still has to call. -/
def callbacks : ThreadPc → List Nat
  | .calling _ callbacks => callbacks
  | _ => []

/-- What it still has to tell a listener that is registered. -/
def owes (lid : Nat) : ThreadPc → List Notification
  | .notify n => [n]
  | .calling n callbacks => List.replicate (callbacks.count lid) n
  | _ => []

/-- It has no notification under way. -/
def settled : ThreadPc → Bool
  | .notify _ => false
  | .calling _ (_ :: _) => false
  | _ => true

theorem owes_of_settled {pc : ThreadPc} (h : pc.settled = true) (lid : Nat) : pc.owes lid = [] := by
  cases pc with
  | notify n => cases h
  | calling n callbacks =>
      cases callbacks with
      | nil => rfl
      | cons l rest => cases h
  | _ => rfl

end ThreadPc

/-- Replacing an item replaces what it contributes. -/
theorem flatMap_set_perm {α β : Type*} {l : List α} {j : Nat} {x : α} (h : l[j]? = some x) (y : α)
    (f : α → List β) : (f y ++ l.flatMap f).Perm (f x ++ (l.set j y).flatMap f) := by
  obtain ⟨hj, rfl⟩ := List.getElem?_eq_some_iff.mp h
  have hold := (List.getElem_cons_eraseIdx_perm hj).flatMap_right f
  have hnew := (List.set_perm_cons_eraseIdx hj y).flatMap_right f
  rw [List.flatMap_cons] at hold hnew
  have hmove := List.perm_append_comm_assoc (f y) (f l[j]) ((l.eraseIdx j).flatMap f)
  exact (hold.symm.append_left _).trans (hmove.trans (hnew.symm.append_left _))

/-! ## What a step can do -/

namespace Listening

inductive Step (s : Listening) : ListenAct → Listening → Prop where
  | refused (j : Nat) (payloads : List Bytes) :
      s.threads[j]? = some .idle → Step s (.append j payloads) (s.setThread j .changed)
  | empty (j : Nat) (payloads : List Bytes) : Step s (.append j payloads) s
  | started (j : Nat) (payloads : List Bytes) (w : Writer) :
      s.threads[j]? = some .idle → s.lock = none →
      s.writer.begin s.writable true payloads = .started w →
      Step s (.append j payloads)
        { s.setThread j (.appending payloads) with writer := w, lock := some j }
  | went (j : Nat) (a : IoAct) (file : CrashFile UInt8) (w : Writer) :
      Writer.Step s.file s.writer file w none →
      Step s (.io j a) { s with file := file, writer := w }
  | returned (j : Nat) (a : IoAct) (records : List Bytes) (file : CrashFile UInt8) (w : Writer)
      (next : Nat) :
      s.threads[j]? = some (.appending records) → s.lock = some j →
      Writer.Step s.file s.writer file w (some (.returned next)) →
      Step s (.io j a)
        { s.setThread j (.notify ⟨next - records.length, records⟩) with
          file := file, writer := w, lock := none, appended := s.appended ++ [records] }
  | failed (j : Nat) (a : IoAct) (records : List Bytes) (file : CrashFile UInt8) (w : Writer)
      (fate : Fate) :
      s.threads[j]? = some (.appending records) → s.lock = some j →
      Writer.Step s.file s.writer file w (some fate) → (∀ next, fate ≠ .returned next) →
      Step s (.io j a) { s.setThread j .changed with file := file, writer := w, lock := none }
  | closed (j : Nat) (ok : Bool) :
      s.threads[j]? = some .idle → s.lock = none →
      Step s (.close j ok)
        { s.setThread j .changed with
          writer := { s.writer with closed := s.writer.closed || ok && s.writable } }
  | readOffset (j : Nat) :
      s.threads[j]? = some .changed →
      Step s (.readOffset j) (s.setThread j (.notify ⟨nextOffset s.writer.index, []⟩))
  | snapshot (j : Nat) (n : Notification) :
      s.threads[j]? = some (.notify n) →
      Step s (.snapshot j) (s.setThread j (.calling n s.listeners))
  | call (j : Nat) (raises : Bool) (n : Notification) (lid : Nat) (rest : List Nat) :
      s.threads[j]? = some (.calling n (lid :: rest)) →
      Step s (.call j raises)
        { s.setThread j (.calling n rest) with received := s.received ++ [(lid, n)] }
  | finish (j : Nat) (n : Notification) :
      s.threads[j]? = some (.calling n []) → Step s (.finish j) (s.setThread j .idle)
  | addListener :
      Step s .addListener { s with listeners := s.listeners ++ [s.nextId], nextId := s.nextId + 1 }
  | removeListener (lid : Nat) :
      Step s (.removeListener lid) { s with listeners := s.listeners.filter (· ≠ lid) }

variable {s t : Listening} {a : ListenAct}

theorem step_cases (h : s.step a = some t) : Step s a t := by
  cases a with
  | append j payloads =>
      simp only [step] at h
      split at h
      · next hidle =>
          split at h
          · cases h
            exact .refused j payloads hidle
          · split at h
            · next hfree =>
                split at h
                · cases h
                  exact .refused j payloads hidle
                · cases h
                  exact .empty j payloads
                · next w hbegin =>
                    cases h
                    exact .started j payloads w hidle (Option.isNone_iff_eq_none.mp hfree) hbegin
            · cases h
      · cases h
  | io j a =>
      simp only [step] at h
      split at h
      · next records hpc =>
          split at h
          · next hlock =>
              split at h
              · next file w hstep =>
                  cases h
                  exact .went j a file w (Writer.step_cases hstep)
              · next file w next hstep =>
                  cases h
                  exact .returned j a records file w next hpc hlock (Writer.step_cases hstep)
              · next file w fate hne hstep =>
                  cases h
                  exact .failed j a records file w fate hpc hlock (Writer.step_cases hstep) hne
              · cases h
          · cases h
      · cases h
  | close j ok =>
      simp only [step] at h
      split at h
      · next hidle =>
          split at h
          · next hfree =>
              cases h
              exact .closed j ok hidle (Option.isNone_iff_eq_none.mp hfree)
          · cases h
      · cases h
  | readOffset j =>
      simp only [step] at h
      split at h
      · next hpc =>
          cases h
          exact .readOffset j hpc
      · cases h
  | snapshot j =>
      simp only [step] at h
      split at h
      · next n hpc =>
          cases h
          exact .snapshot j n hpc
      · cases h
  | call j raises =>
      simp only [step] at h
      split at h
      · next n lid rest hpc =>
          cases h
          exact .call j raises n lid rest hpc
      · cases h
  | finish j =>
      simp only [step] at h
      split at h
      · next n hpc =>
          cases h
          exact .finish j n hpc
      · cases h
  | addListener =>
      cases h
      exact .addListener
  | removeListener lid =>
      cases h
      exact .removeListener lid

/-! ## The log and the lock -/

/-- The index of the handle is that of the records it began with and the batches
appended, and the lock is held by the thread whose append is in progress. -/
structure Ok (older : List Bytes) (s : Listening) : Prop where
  writer : s.writer.Ok s.file.data (older ++ s.appended.flatten)
  free : s.lock = none → s.writer.pc = .idle
  held : ∀ j, s.lock = some j → ∃ records, s.threads[j]? = some (.appending records) ∧
    s.writer.pc.batch = some records ∧ records ≠ []

theorem Ok.init (name : Name) (data : Bytes) (closed writable : Bool) (n : Nat) :
    (Listening.init name data closed writable n).Ok (records data) := by
  refine ⟨?_, fun _ => rfl, fun j h => by cases h⟩
  show Writer.Ok _ _ (records data ++ [].flatten)
  rw [List.flatten_nil, List.append_nil]
  exact ⟨Fits.records data, rfl, List.prefix_rfl, fun _ => rfl⟩

variable {older : List Bytes} {j : Nat} {pc pc' : ThreadPc}

/-- A thread that does not hold the lock moves. -/
theorem Ok.setThread (h : s.Ok older) (hpc : s.threads[j]? = some pc)
    (hfree : ∀ records, pc ≠ .appending records) (pc' : ThreadPc) :
    (s.setThread j pc').Ok older := by
  refine ⟨h.writer, h.free, fun i hi => ?_⟩
  obtain ⟨records, hrecords, hbatch⟩ := h.held i hi
  have hne : j ≠ i := by
    rintro rfl
    rw [hpc] at hrecords
    exact hfree records (Option.some.inj hrecords)
  refine ⟨records, ?_, hbatch⟩
  show (s.threads.set j pc')[i]? = _
  rw [List.getElem?_set_ne hne, hrecords]

/-- The lock is free, or the append of the thread that holds it is in progress. -/
theorem Ok.batch (h : s.Ok older) (hlock : s.lock = some j) {records : List Bytes}
    (hpc : s.threads[j]? = some (.appending records)) :
    s.writer.pc.batch = some records ∧ records ≠ [] := by
  obtain ⟨records', hrecords, hbatch⟩ := h.held j hlock
  rw [hpc] at hrecords
  cases hrecords
  exact hbatch

theorem Ok.step (h : s.Ok older) (hstep : Step s a t) : t.Ok older := by
  cases hstep with
  | refused j payloads hidle => exact h.setThread hidle (fun _ heq => by cases heq) _
  | empty j payloads => exact h
  | started j payloads w hidle hfree hbegin =>
      obtain ⟨-, -, -, hne, -, hw⟩ := Writer.begin_started hbegin
      refine ⟨h.writer.begin (h.free hfree) hbegin, (fun hnone => by cases hnone), fun i hi => ?_⟩
      cases hi
      refine ⟨payloads, ?_, ?_, hne⟩
      · exact List.getElem?_set_self (List.getElem?_eq_some_iff.mp hidle).1
      · show w.pc.batch = some payloads
        rw [hw]
        rfl
  | went j a file w hstep =>
      refine ⟨h.writer.step hstep, fun hnone => absurd (h.free hnone) hstep.busy, fun i hi => ?_⟩
      obtain ⟨records, hrecords, hbatch, hne⟩ := h.held i hi
      exact ⟨records, hrecords, hstep.ends.1.trans hbatch, hne⟩
  | returned j a records file w next hpc hlock hstep =>
      obtain ⟨hbatch, -⟩ := h.batch hlock hpc
      refine ⟨?_, fun _ => hstep.ends.1, (fun i hi => by cases hi)⟩
      have hwriter := h.writer.step hstep
      rw [Writer.Ok.after, hbatch, Option.getD_some] at hwriter
      show w.Ok file.data (older ++ (s.appended ++ [records]).flatten)
      rwa [List.flatten_append, List.flatten_singleton, ← List.append_assoc]
  | failed j a records file w fate hpc hlock hstep hne =>
      have hwriter := h.writer.step hstep
      have hends := hstep.ends
      cases fate with
      | returned next => exact absurd rfl (hne next)
      | rolledBack => exact ⟨hwriter, fun _ => hends.1, fun i hi => by cases hi⟩
      | torn => exact ⟨hwriter, fun _ => hends.1, fun i hi => by cases hi⟩
  | closed j ok hidle hfree =>
      have hset := h.setThread hidle (fun _ heq => by cases heq) .changed
      refine ⟨?_, hset.free, hset.held⟩
      have hclosed := h.writer.close (h.free hfree)
      show ({ s.writer with closed := s.writer.closed || ok && s.writable } :
        Writer).Ok s.file.data _
      cases hc : s.writer.closed || ok && s.writable with
      | true => exact hclosed
      | false =>
          have hsame : s.writer.closed = false := (Bool.or_eq_false_iff.mp hc).1
          rw [← hsame]
          exact h.writer
  | readOffset j hpc => exact h.setThread hpc (fun _ heq => by cases heq) _
  | snapshot j n hpc => exact h.setThread hpc (fun _ heq => by cases heq) _
  | call j raises n lid rest hpc =>
      have hset := h.setThread hpc (fun _ heq => by cases heq) (.calling n rest)
      exact ⟨hset.writer, hset.free, hset.held⟩
  | finish j n hpc => exact h.setThread hpc (fun _ heq => by cases heq) _
  | addListener => exact ⟨h.writer, h.free, h.held⟩
  | removeListener lid => exact ⟨h.writer, h.free, h.held⟩

/-! ## Listener ids -/

/-- Only ids that were given out are in use. -/
structure Issued (s : Listening) : Prop where
  listeners : ∀ lid ∈ s.listeners, lid < s.nextId
  received : ∀ r ∈ s.received, r.1 < s.nextId
  threads : ∀ pc ∈ s.threads, ∀ lid ∈ pc.callbacks, lid < s.nextId

theorem Issued.init (name : Name) (data : Bytes) (closed writable : Bool) (n : Nat) :
    (Listening.init name data closed writable n).Issued := by
  refine ⟨fun _ h => absurd h List.not_mem_nil, fun _ h => absurd h List.not_mem_nil, ?_⟩
  intro pc hpc lid hlid
  rw [List.eq_of_mem_replicate hpc] at hlid
  cases hlid

theorem Issued.setThread (h : s.Issued) (j : Nat) (pc' : ThreadPc)
    (hpc' : ∀ lid ∈ pc'.callbacks, lid < s.nextId) :
    (s.setThread j pc').Issued := by
  refine ⟨h.listeners, h.received, fun pc hpc => ?_⟩
  rcases List.mem_or_eq_of_mem_set hpc with hpc | rfl
  · exact h.threads pc hpc
  · exact hpc'

theorem Issued.step (h : s.Issued) (hstep : Step s a t) : t.Issued := by
  have hnone : ∀ lid ∈ ([] : List Nat), lid < s.nextId := fun _ hlid => absurd hlid List.not_mem_nil
  cases hstep with
  | refused j payloads hidle => exact h.setThread j .changed hnone
  | empty j payloads => exact h
  | started j payloads w hidle hfree hbegin =>
      have hset := h.setThread j (.appending payloads) hnone
      exact ⟨hset.listeners, hset.received, hset.threads⟩
  | went j a file w hstep => exact ⟨h.listeners, h.received, h.threads⟩
  | returned j a records file w next hpc hlock hstep =>
      have hset := h.setThread j (.notify ⟨next - records.length, records⟩) hnone
      exact ⟨hset.listeners, hset.received, hset.threads⟩
  | failed j a records file w fate hpc hlock hstep hne =>
      have hset := h.setThread j .changed hnone
      exact ⟨hset.listeners, hset.received, hset.threads⟩
  | closed j ok hidle hfree =>
      have hset := h.setThread j .changed hnone
      exact ⟨hset.listeners, hset.received, hset.threads⟩
  | readOffset j hpc => exact h.setThread j _ hnone
  | snapshot j n hpc => exact h.setThread j _ h.listeners
  | call j raises n lid rest hpc =>
      have hcallbacks := h.threads _ (List.mem_of_getElem? hpc)
      have hset := h.setThread j (.calling n rest) fun l hl =>
        hcallbacks l (List.mem_cons_of_mem lid hl)
      refine ⟨hset.listeners, fun r hr => ?_, hset.threads⟩
      rcases List.mem_append.mp hr with hr | hr
      · exact h.received r hr
      · rw [List.mem_singleton.mp hr]
        exact hcallbacks lid List.mem_cons_self
  | finish j n hpc => exact h.setThread j .idle hnone
  | addListener =>
      refine ⟨fun lid hlid => ?_, fun r hr => Nat.lt_succ_of_lt (h.received r hr),
        fun pc hpc lid hlid => Nat.lt_succ_of_lt (h.threads pc hpc lid hlid)⟩
      rcases List.mem_append.mp hlid with hlid | hlid
      · exact Nat.lt_succ_of_lt (h.listeners lid hlid)
      · rw [List.mem_singleton.mp hlid]
        exact Nat.lt_succ_self _
  | removeListener lid =>
      exact ⟨fun l hl => h.listeners l (List.mem_of_mem_filter hl), h.received, h.threads⟩

/-! ## What a listener is told -/

/-- The calls of a listener, oldest first. -/
def calls (s : Listening) (lid : Nat) : List Notification :=
  (s.received.filter (·.1 = lid)).map Prod.snd

/-- Those of them that bring records. -/
def heard (s : Listening) (lid : Nat) : List Notification :=
  (s.calls lid).filter (·.records ≠ [])

/-- What a listener has been told or will be. -/
def told (s : Listening) (lid : Nat) : List Notification :=
  s.calls lid ++ s.threads.flatMap (·.owes lid)

variable {lid : Nat}

/-- A thread that moves owes other notifications than before. -/
theorem told_setThread (lid : Nat) (hpc : s.threads[j]? = some pc) (pc' : ThreadPc) :
    (pc'.owes lid ++ s.told lid).Perm (pc.owes lid ++ (s.setThread j pc').told lid) := by
  have hset := flatMap_set_perm hpc pc' (ThreadPc.owes lid)
  have hmove : ∀ xs ys zs : List Notification, (xs ++ (ys ++ zs)).Perm (ys ++ (xs ++ zs)) :=
    fun xs ys zs => List.perm_append_comm_assoc xs ys zs
  exact (hmove _ _ _).trans ((hset.append_left _).trans (hmove _ _ _))

/-- A thread that owes what it owed before. -/
theorem told_setThread_same (hpc : s.threads[j]? = some pc) (pc' : ThreadPc)
    (howes : pc'.owes lid = pc.owes lid) :
    ((s.setThread j pc').told lid).Perm (s.told lid) := by
  have h := told_setThread lid hpc pc'
  rw [howes, List.perm_append_left_iff] at h
  exact h.symm

/-- A call changes nothing: what the thread owed has been told. -/
theorem told_call {n : Notification} {l : Nat} {rest : List Nat}
    (hpc : s.threads[j]? = some (.calling n (l :: rest))) :
    (told { s.setThread j (.calling n rest) with received := s.received ++ [(l, n)] } lid).Perm
      (s.told lid) := by
  obtain ⟨u, hu⟩ : ∃ u, u = s.setThread j (.calling n rest) := ⟨_, rfl⟩
  have hreceived : u.received = s.received := by rw [hu]; rfl
  rw [← hu]
  by_cases hl : l = lid
  · subst hl
    have hcalls : calls { u with received := s.received ++ [(l, n)] } l = u.calls l ++ [n] := by
      rw [calls, calls, hreceived, List.filter_append, List.map_append]
      simp
    have howes : ThreadPc.owes l (.calling n (l :: rest)) =
        n :: ThreadPc.owes l (.calling n rest) := by
      rw [ThreadPc.owes, List.count_cons_self]
      rfl
    have hmoved := told_setThread l hpc (.calling n rest)
    rw [howes, ← hu] at hmoved
    have hcancel : (s.told l).Perm (n :: u.told l) :=
      (List.perm_append_left_iff _).mp (hmoved.trans List.perm_middle.symm)
    rw [told, hcalls, List.append_assoc]
    exact List.perm_middle.trans hcancel.symm
  · have hcalls : calls { u with received := s.received ++ [(l, n)] } lid = u.calls lid := by
      rw [calls, calls, hreceived, List.filter_append, List.map_append]
      simp [hl]
    have howes : ThreadPc.owes lid (.calling n rest) =
        ThreadPc.owes lid (.calling n (l :: rest)) := by
      rw [ThreadPc.owes, ThreadPc.owes, List.count_cons_of_ne hl]
    have hmoved := told_setThread_same hpc _ howes
    rw [← hu] at hmoved
    rw [told, hcalls]
    exact hmoved

/-- What a step adds to what a registered listener is told: an append that returned adds
its batch, and no other step adds records. -/
theorem Step.told (hstep : Step s a t) (ho : s.Ok older) (hlisted : s.listeners.count lid = 1) :
    ∃ new, (t.told lid).Perm (new ++ s.told lid) ∧
      ((∀ n ∈ new, n.records = []) ∧ t.appended = s.appended ∨
        ∃ records, records ≠ [] ∧ t.appended = s.appended ++ [records] ∧
          new = [⟨(older ++ s.appended.flatten).length, records⟩]) := by
  have hsame : ∀ {u : Listening}, (u.told lid).Perm (s.told lid) → u.appended = s.appended →
      ∃ new, (u.told lid).Perm (new ++ s.told lid) ∧
        ((∀ n ∈ new, n.records = []) ∧ u.appended = s.appended ∨
          ∃ records, records ≠ [] ∧ u.appended = s.appended ++ [records] ∧
            new = [⟨(older ++ s.appended.flatten).length, records⟩]) := fun hperm happ =>
    ⟨[], hperm, .inl ⟨fun n hn => absurd hn List.not_mem_nil, happ⟩⟩
  cases hstep with
  | refused j payloads hidle => exact hsame (told_setThread_same hidle .changed rfl) rfl
  | empty j payloads => exact hsame (.refl _) rfl
  | started j payloads w hidle hfree hbegin =>
      exact hsame (told_setThread_same hidle (.appending payloads) rfl) rfl
  | went j a file w hstep => exact hsame (.refl _) rfl
  | returned j a records file w next hpc hlock hstep =>
      obtain ⟨hbatch, hne⟩ := ho.batch hlock hpc
      obtain ⟨b, hb, hnext, -, -⟩ := ho.writer.returned hstep
      rw [hbatch] at hb
      cases hb
      have hstart : next - records.length = (older ++ s.appended.flatten).length := by
        rw [hnext, Nat.add_sub_cancel]
      refine ⟨[⟨(older ++ s.appended.flatten).length, records⟩], ?_, .inr ⟨records, hne, rfl, rfl⟩⟩
      rw [← hstart]
      exact (told_setThread lid hpc (.notify ⟨next - records.length, records⟩)).symm
  | failed j a records file w fate hpc hlock hstep hne =>
      exact hsame (told_setThread_same hpc .changed rfl) rfl
  | closed j ok hidle hfree => exact hsame (told_setThread_same hidle .changed rfl) rfl
  | readOffset j hpc =>
      refine ⟨[⟨nextOffset s.writer.index, []⟩], ?_, .inl ⟨fun n hn => ?_, rfl⟩⟩
      · exact (told_setThread lid hpc (.notify ⟨nextOffset s.writer.index, []⟩)).symm
      · rw [List.mem_singleton.mp hn]
  | snapshot j n hpc =>
      refine hsame (told_setThread_same hpc _ ?_) rfl
      rw [ThreadPc.owes, ThreadPc.owes, hlisted]
      rfl
  | call j raises n l rest hpc =>
      exact hsame (told_call hpc) rfl
  | finish j n hpc => exact hsame (told_setThread_same hpc .idle rfl) rfl
  | addListener => exact hsame (.refl _) rfl
  | removeListener l => exact hsame (.refl _) rfl

/-! ## The result -/

/-- The listener is registered, and what it has been told and will be are the tiles of
the batches appended since. -/
structure Tiled (older : List Bytes) (lid : Nat) (old : List (List Bytes)) (s : Listening) :
    Prop where
  ok : s.Ok older
  issued : lid < s.nextId
  listed : s.listeners.count lid = 1
  tiles : ∃ batches, s.appended = old ++ batches ∧
    ((s.told lid).filter (·.records ≠ [])).Perm (tiles (older ++ old.flatten).length batches)

variable {old : List (List Bytes)}

/-- Nobody has been told anything under a new id. -/
theorem Tiled.added (ho : s.Ok older) (hi : s.Issued)
    (hsettled : ∀ pc ∈ s.threads, pc.settled = true) :
    Tiled older s.nextId s.appended
      { s with listeners := s.listeners ++ [s.nextId], nextId := s.nextId + 1 } := by
  have hnew : s.listeners.count s.nextId = 0 :=
    List.count_eq_zero.mpr fun hmem => Nat.lt_irrefl _ (hi.listeners _ hmem)
  have hcalls : s.calls s.nextId = [] := by
    rw [calls, List.map_eq_nil_iff, List.filter_eq_nil_iff]
    intro r hr heq
    have hlt := hi.received r hr
    rw [decide_eq_true_iff] at heq
    omega
  have howes : s.threads.flatMap (·.owes s.nextId) = [] :=
    List.flatMap_eq_nil_iff.mpr fun pc hpc => ThreadPc.owes_of_settled (hsettled pc hpc) _
  have htold : s.told s.nextId = [] := by rw [told, hcalls, howes]; rfl
  refine ⟨⟨ho.writer, ho.free, ho.held⟩, Nat.lt_succ_self _, ?_, [], (List.append_nil _).symm, ?_⟩
  · rw [List.count_append, hnew, List.count_singleton_self]
  · show ((s.told s.nextId).filter _).Perm _
    rw [htold]
    exact .refl _

theorem Tiled.step (h : s.Tiled older lid old) (hstep : Step s a t)
    (hkept : a ≠ .removeListener lid) : t.Tiled older lid old := by
  have hlisted : lid < t.nextId ∧ t.listeners.count lid = 1 := by
    cases hstep with
    | addListener =>
        have hne : s.nextId ≠ lid := Nat.ne_of_gt h.issued
        refine ⟨Nat.lt_succ_of_lt h.issued, ?_⟩
        rw [List.count_append, h.listed, List.count_singleton, beq_false_of_ne hne]
        rfl
    | removeListener l =>
        refine ⟨h.issued, ?_⟩
        have hne : lid ≠ l := fun heq => hkept (heq ▸ rfl)
        rw [List.count_filter (by simpa using hne), h.listed]
    | _ => exact ⟨h.issued, h.listed⟩
  obtain ⟨batches, happ, hperm⟩ := h.tiles
  obtain ⟨new, htold, hnew⟩ := hstep.told h.ok h.listed
  have hfilter := htold.filter (·.records ≠ [])
  rw [List.filter_append] at hfilter
  refine ⟨h.ok.step hstep, hlisted.1, hlisted.2, ?_⟩
  rcases hnew with ⟨hempty, happ'⟩ | ⟨records, hne, happ', rfl⟩
  · have hnone : new.filter (·.records ≠ []) = [] :=
      List.filter_eq_nil_iff.mpr fun n hn => by simp [hempty n hn]
    rw [hnone] at hfilter
    exact ⟨batches, happ'.trans happ, hfilter.trans hperm⟩
  · refine ⟨batches ++ [records], ?_, ?_⟩
    · rw [happ', happ, List.append_assoc]
    · have hone : [(⟨(older ++ s.appended.flatten).length, records⟩ : Notification)].filter
          (·.records ≠ []) = [⟨(older ++ s.appended.flatten).length, records⟩] := by simp [hne]
      have hstart : (older ++ s.appended.flatten).length =
          (older ++ old.flatten).length + batches.flatten.length := by
        rw [happ, List.flatten_append, ← List.append_assoc, List.length_append]
      rw [hone, hstart] at hfilter
      rw [tiles_append_singleton]
      exact hfilter.trans ((hperm.cons _).trans (List.perm_append_singleton _ _).symm)

/-- The notifications with records that a listener gets tile the log from the offset at
which it was registered: they are those of the appends that returned since, once each,
their intervals are disjoint, a read of an interval returns its records, and once no
notification is under way, they cover all offsets up to the next. -/
theorem heard_tiles (name : Name) (data : Bytes) (closed writable : Bool) (n : Nat)
    (before acts : List ListenAct) (s s' t : Listening)
    (hbefore : Lts.run step (init name data closed writable n) before = some s)
    (hsettled : ∀ pc ∈ s.threads, pc.settled = true) (hadd : s.step .addListener = some s')
    (hrun : Lts.run step s' acts = some t) (hkept : .removeListener s.nextId ∉ acts) :
    ∃ batches, t.appended = s.appended ++ batches ∧
      (t.heard s.nextId).Subperm (tiles (nextOffset s.writer.index) batches) ∧
      (t.heard s.nextId).Pairwise Notification.Apart ∧
      (∀ m ∈ t.heard s.nextId, read t.writer.name true t.file.data t.writer.index m.start
        (some m.stop) = .ok m.records) ∧
      ((∀ pc ∈ t.threads, pc.settled = true) →
        (t.heard s.nextId).Perm (tiles (nextOffset s.writer.index) batches) ∧
        ∀ k, (∃ m ∈ t.heard s.nextId, m.start ≤ k ∧ k < m.stop) ↔
          nextOffset s.writer.index ≤ k ∧ k < nextOffset t.writer.index) := by
  have hinit : s.Ok (records data) ∧ s.Issued :=
    Lts.run_invariant (I := fun s : Listening => s.Ok (records data) ∧ s.Issued)
      (fun _ _ _ h hstep => ⟨h.1.step (step_cases hstep), h.2.step (step_cases hstep)⟩) hbefore
      ⟨.init name data closed writable n, .init name data closed writable n⟩
  cases hadd
  have hmeets : Lts.Meets step (fun _ a => a ≠ .removeListener s.nextId)
      { s with listeners := s.listeners ++ [s.nextId], nextId := s.nextId + 1 } acts :=
    .of_mem fun a ha heq => hkept (heq ▸ ha)
  have htiled := Lts.run_invariant_of_meets (I := Tiled (records data) s.nextId s.appended)
    (fun _ _ _ h hne hstep => h.step (step_cases hstep) hne) hrun hmeets
    (.added hinit.1 hinit.2 hsettled)
  obtain ⟨batches, happ, hperm⟩ := htiled.tiles
  have hstart : nextOffset s.writer.index = (records data ++ s.appended.flatten).length := by
    rw [hinit.1.writer.index, nextOffset_marks]
  have hstop : nextOffset t.writer.index = nextOffset s.writer.index + batches.flatten.length := by
    rw [hstart, htiled.ok.writer.index, nextOffset_marks, happ, List.flatten_append,
      ← List.append_assoc, List.length_append]
  rw [← hstart] at hperm
  have hsub : (t.heard s.nextId).Subperm (tiles (nextOffset s.writer.index) batches) :=
    ((List.sublist_append_left _ _).filter _).subperm.trans hperm.subperm
  refine ⟨batches, happ, hsub, ?_, ?_, ?_⟩
  · obtain ⟨l, hl, hsublist⟩ := hsub
    have hpairwise := (tiles_pairwise _ batches).sublist hsublist
    exact (hl.pairwise_iff fun h => Notification.Apart.symm h).mp hpairwise
  · intro m hm
    have hmem := hsub.subset hm
    rw [hstart] at hmem
    obtain ⟨hle, hrecords⟩ := records_of_mem_tiles hmem
    rw [htiled.ok.writer.read, happ, List.flatten_append, ← List.append_assoc, readStop]
    rw [show (max (m.start : Int) 0).toNat = m.start by omega,
      show (min (m.stop : Int)
          ((records data ++ s.appended.flatten) ++ batches.flatten).length).toNat
        = m.stop by omega, hrecords]
  · intro hdone
    have howes : t.threads.flatMap (·.owes s.nextId) = [] :=
      List.flatMap_eq_nil_iff.mpr fun pc hpc => ThreadPc.owes_of_settled (hdone pc hpc) _
    have hall : (t.heard s.nextId).Perm (tiles (nextOffset s.writer.index) batches) := by
      rw [told, howes, List.append_nil] at hperm
      exact hperm
    refine ⟨hall, fun k => ?_⟩
    rw [hstop, ← mem_tiles_iff]
    simp only [hall.mem_iff]

/-- Two threads notify in the other order than they append, one listener raises, another
one leaves, and a third append fails and is rolled back. -/
def notifiedOutOfOrder : List ListenAct :=
  [.addListener, .append 0 [[1], [2]], .io 0 (.write 18), .io 0 (.sync true), .append 1 [[3]],
    .io 1 (.write 9), .io 1 (.sync true), .snapshot 1, .call 1 true, .removeListener 2,
    .snapshot 0, .call 0 false, .call 1 false, .finish 1, .finish 0, .append 0 [[4]],
    .io 0 (.writeErr 3), .io 0 (.truncate true), .io 0 (.sync true), .readOffset 0, .snapshot 0,
    .call 0 false, .finish 0]

theorem heard_tiles_notifiedOutOfOrder :
    ∃ s' t, (init ['t'] [] false true 2).step .addListener = some s' ∧
      Lts.run step s' notifiedOutOfOrder = some t ∧
      t.heard 1 = [⟨2, [[3]]⟩, ⟨0, [[1], [2]]⟩] ∧
      ∃ batches, t.appended = [] ++ batches ∧ (t.heard 1).Subperm (tiles 0 batches) ∧
        (t.heard 1).Pairwise Notification.Apart ∧
        (∀ m ∈ t.heard 1, read t.writer.name true t.file.data t.writer.index m.start
          (some m.stop) = .ok m.records) ∧
        ((∀ pc ∈ t.threads, pc.settled = true) →
          (t.heard 1).Perm (tiles 0 batches) ∧
          ∀ k, (∃ m ∈ t.heard 1, m.start ≤ k ∧ k < m.stop) ↔
            0 ≤ k ∧ k < nextOffset t.writer.index) := by
  obtain ⟨s', hs'⟩ : ∃ s', s' = { init ['t'] [] false true 2 with
      listeners := [1], nextId := 2 } := ⟨_, rfl⟩
  have hadd : (init ['t'] [] false true 2).step .addListener = some s' := by rw [hs']; rfl
  have hsome : (Lts.run step s' notifiedOutOfOrder).isSome = true := by rw [hs']; decide +kernel
  have hheard : ∀ t ∈ Lts.run step s' notifiedOutOfOrder,
      t.heard 1 = [⟨2, [[3]]⟩, ⟨0, [[1], [2]]⟩] := by rw [hs']; decide +kernel
  obtain ⟨t, hrun⟩ := Option.isSome_iff_exists.mp hsome
  exact ⟨s', t, hadd, hrun, hheard t hrun, heard_tiles ['t'] [] false true 2 []
    notifiedOutOfOrder _ s' t rfl (by decide) hadd hrun (by decide)⟩

end Listening

end Durastream
