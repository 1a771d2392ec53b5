import Durastream.Stream.Listeners
import Mathlib.Data.List.Nodup

/-!
# A listener that has been removed

`_notify` calls the listeners of a snapshot.  So a change that has taken its snapshot
still calls a listener that `remove_listener` removes meanwhile: once, and no other
change calls it again, since an id is never given out twice.
-/

namespace Durastream

namespace ThreadPc

/-- Its calls of a listener from the snapshot it has taken. -/
def lateCalls (lid : Nat) : ThreadPc → List Notification
  | .calling n callbacks => List.replicate (callbacks.count lid) n
  | _ => []

/-- A snapshot names a listener once. -/
theorem length_lateCalls (lid : Nat) {pc : ThreadPc} (h : pc.callbacks.Nodup) :
    (pc.lateCalls lid).length = if lid ∈ pc.callbacks then 1 else 0 := by
  cases pc with
  | calling n callbacks =>
      have hcount := List.nodup_iff_count_le_one.mp h lid
      rw [lateCalls, List.length_replicate]
      show _ = if lid ∈ callbacks then 1 else 0
      split
      · next hmem =>
          have hpos := List.count_pos_iff.mpr hmem
          exact Nat.le_antisymm hcount hpos
      · next hmem => exact List.count_eq_zero.mpr hmem
  | _ => rfl

end ThreadPc

namespace Listening

/-- The calls of a listener that changes under way make from their snapshots. -/
def late (s : Listening) (lid : Nat) : List Notification := s.threads.flatMap (·.lateCalls lid)

/-- A listener is registered once, and is in a snapshot once. -/
structure Distinct (s : Listening) : Prop where
  listeners : s.listeners.Nodup
  threads : ∀ pc ∈ s.threads, pc.callbacks.Nodup

/-- An id that is not registered, and that will not be again. -/
structure Gone (lid : Nat) (s : Listening) : Prop where
  issued : lid < s.nextId
  unlisted : lid ∉ s.listeners

variable {s t : Listening} {a : ListenAct} {lid j : Nat} {pc : ThreadPc}

theorem Distinct.init (name : Name) (data : Bytes) (closed writable : Bool) (n : Nat) :
    (Listening.init name data closed writable n).Distinct := by
  refine ⟨List.nodup_nil, fun pc hpc => ?_⟩
  rw [List.eq_of_mem_replicate hpc]
  exact List.nodup_nil

/-- The calls under way are as many as the changes with the listener left to call. -/
theorem Distinct.length_late (h : s.Distinct) (lid : Nat) :
    (s.late lid).length = s.threads.countP fun pc => lid ∈ pc.callbacks := by
  obtain ⟨-, hthreads⟩ := h
  unfold late
  generalize s.threads = threads at hthreads
  induction threads with
  | nil => rfl
  | cons pc threads ih =>
      rw [List.flatMap_cons, List.length_append, List.countP_cons,
        ThreadPc.length_lateCalls lid (hthreads pc List.mem_cons_self),
        ih fun pc hpc => hthreads pc (List.mem_cons_of_mem _ hpc), Nat.add_comm]
      simp only [decide_eq_true_eq]

theorem Distinct.setThread (h : s.Distinct) (j : Nat) (pc' : ThreadPc)
    (hpc' : pc'.callbacks.Nodup) : (s.setThread j pc').Distinct := by
  refine ⟨h.listeners, fun pc hpc => ?_⟩
  rcases List.mem_or_eq_of_mem_set hpc with hpc | rfl
  · exact h.threads pc hpc
  · exact hpc'

theorem Distinct.step (h : s.Distinct) (hi : s.Issued) (hstep : Step s a t) : t.Distinct := by
  cases hstep with
  | refused j payloads hidle => exact h.setThread j .changed List.nodup_nil
  | empty j payloads => exact h
  | started j payloads w hidle hfree hbegin =>
      have hset := h.setThread j (.appending payloads) List.nodup_nil
      exact ⟨hset.listeners, hset.threads⟩
  | went j a file w hstep => exact ⟨h.listeners, h.threads⟩
  | returned j a records file w next hpc hlock hstep =>
      have hset := h.setThread j (.notify ⟨next - records.length, records⟩) List.nodup_nil
      exact ⟨hset.listeners, hset.threads⟩
  | failed j a records file w fate hpc hlock hstep hne =>
      have hset := h.setThread j .changed List.nodup_nil
      exact ⟨hset.listeners, hset.threads⟩
  | closed j ok hidle hfree =>
      have hset := h.setThread j .changed List.nodup_nil
      exact ⟨hset.listeners, hset.threads⟩
  | readOffset j hpc => exact h.setThread j _ List.nodup_nil
  | snapshot j n hpc => exact h.setThread j _ h.listeners
  | call j raises n lid rest hpc =>
      have hnodup := h.threads _ (List.mem_of_getElem? hpc)
      have hset := h.setThread j (.calling n rest) (List.nodup_cons.mp hnodup).2
      exact ⟨hset.listeners, hset.threads⟩
  | finish j n hpc => exact h.setThread j .idle List.nodup_nil
  | addListener =>
      have hnew : s.nextId ∉ s.listeners := fun hmem => Nat.lt_irrefl _ (hi.listeners _ hmem)
      refine ⟨?_, h.threads⟩
      show (s.listeners ++ [s.nextId]).Nodup
      rw [← List.concat_eq_append]
      exact List.Nodup.concat hnew h.listeners
  | removeListener lid => exact ⟨h.listeners.filter _, h.threads⟩

theorem Gone.step (h : s.Gone lid) (hstep : Step s a t) : t.Gone lid := by
  cases hstep with
  | addListener =>
      refine ⟨Nat.lt_succ_of_lt h.issued, fun hmem => ?_⟩
      rcases List.mem_append.mp hmem with hmem | hmem
      · exact h.unlisted hmem
      · exact Nat.ne_of_lt h.issued (List.mem_singleton.mp hmem)
  | removeListener lid' =>
      exact ⟨h.issued, fun hmem => h.unlisted (List.mem_of_mem_filter hmem)⟩
  | _ => exact ⟨h.issued, h.unlisted⟩

/-- A thread that moves, and has the same listeners to call as before. -/
theorem late_setThread (hpc : s.threads[j]? = some pc) (pc' : ThreadPc)
    (hsame : pc'.lateCalls lid = pc.lateCalls lid) :
    ((s.setThread j pc').late lid).Perm (s.late lid) := by
  have hset := flatMap_set_perm hpc pc' (ThreadPc.lateCalls lid)
  rw [hsame, List.perm_append_left_iff] at hset
  exact hset.symm

/-- A call from a snapshot. -/
theorem late_call {n : Notification} {l : Nat} {rest : List Nat}
    (hpc : s.threads[j]? = some (.calling n (l :: rest))) :
    ∃ new, calls { s.setThread j (.calling n rest) with received := s.received ++ [(l, n)] } lid =
        s.calls lid ++ new ∧
      (new ++ (s.setThread j (.calling n rest)).late lid).Perm (s.late lid) := by
  by_cases hl : l = lid
  · subst hl
    refine ⟨[n], ?_, ?_⟩
    · simp [calls, List.filter_append]
    · have hset := flatMap_set_perm hpc (.calling n rest) (ThreadPc.lateCalls l)
      rw [ThreadPc.lateCalls, ThreadPc.lateCalls, List.count_cons_self, List.replicate_succ',
        List.append_assoc, List.perm_append_left_iff] at hset
      exact hset.symm
  · refine ⟨[], ?_, late_setThread hpc _ ?_⟩
    · simp [calls, List.filter_append, hl]
    · rw [ThreadPc.lateCalls, ThreadPc.lateCalls, List.count_cons_of_ne hl]

/-- A step calls a listener that is gone only from a snapshot. -/
theorem Gone.late_step (h : s.Gone lid) (hstep : Step s a t) :
    ∃ new, t.calls lid = s.calls lid ++ new ∧ (new ++ t.late lid).Perm (s.late lid) := by
  have hsame : ∀ {u : Listening}, u.received = s.received → (u.late lid).Perm (s.late lid) →
      ∃ new, u.calls lid = s.calls lid ++ new ∧ (new ++ u.late lid).Perm (s.late lid) := by
    intro u hreceived hperm
    refine ⟨[], ?_, hperm⟩
    rw [calls, calls, hreceived, List.append_nil]
  cases hstep with
  | refused j payloads hidle => exact hsame rfl (late_setThread hidle .changed rfl)
  | empty j payloads => exact hsame rfl (.refl _)
  | started j payloads w hidle hfree hbegin =>
      exact hsame rfl (late_setThread hidle (.appending payloads) rfl)
  | went j a file w hstep => exact hsame rfl (.refl _)
  | returned j a records file w next hpc hlock hstep =>
      exact hsame rfl (late_setThread hpc (.notify ⟨next - records.length, records⟩) rfl)
  | failed j a records file w fate hpc hlock hstep hne =>
      exact hsame rfl (late_setThread hpc .changed rfl)
  | closed j ok hidle hfree => exact hsame rfl (late_setThread hidle .changed rfl)
  | readOffset j hpc => exact hsame rfl (late_setThread hpc (.notify ⟨_, []⟩) rfl)
  | snapshot j n hpc =>
      refine hsame rfl (late_setThread hpc _ ?_)
      rw [ThreadPc.lateCalls, List.count_eq_zero.mpr h.unlisted]
      rfl
  | call j raises n l rest hpc => exact late_call hpc
  | finish j n hpc => exact hsame rfl (late_setThread hpc .idle rfl)
  | addListener => exact hsame rfl (.refl _)
  | removeListener l => exact hsame rfl (.refl _)

theorem Gone.late_run (h : s.Gone lid) {acts : List ListenAct}
    (hrun : Lts.run Listening.step s acts = some t) :
    t.Gone lid ∧
      ∃ new, t.calls lid = s.calls lid ++ new ∧ (new ++ t.late lid).Perm (s.late lid) := by
  induction acts generalizing s with
  | nil =>
      cases hrun
      exact ⟨h, [], (List.append_nil _).symm, .refl _⟩
  | cons a acts ih =>
      obtain ⟨u, hu, hrest⟩ := Lts.run_cons_eq_some hrun
      obtain ⟨new, hcalls, hperm⟩ := h.late_step (step_cases hu)
      obtain ⟨hgone, new', hcalls', hperm'⟩ := ih (h.step (step_cases hu)) hrest
      refine ⟨hgone, new ++ new', by rw [hcalls', hcalls, List.append_assoc], ?_⟩
      rw [List.append_assoc]
      exact (hperm'.append_left new).trans hperm

/-- After `remove_listener` a listener is called only by the changes that have it in their
snapshot, once by each, and by all of them unless they are still under way. -/
theorem removed_called (name : Name) (data : Bytes) (closed writable : Bool) (n : Nat)
    (before acts : List ListenAct) (s s' t : Listening) (lid : Nat)
    (hbefore : Lts.run step (init name data closed writable n) before = some s)
    (hlisted : lid ∈ s.listeners) (hremove : s.step (.removeListener lid) = some s')
    (hrun : Lts.run step s' acts = some t) :
    lid ∉ t.listeners ∧
      ∃ new, t.calls lid = s.calls lid ++ new ∧
        new.length ≤ s.threads.countP (fun pc => lid ∈ pc.callbacks) ∧
        (new ++ t.late lid).Perm (s.late lid) ∧
        ((∀ pc ∈ t.threads, pc.settled = true) → new.Perm (s.late lid)) := by
  have hinit : s.Issued ∧ s.Distinct :=
    Lts.run_invariant (I := fun s : Listening => s.Issued ∧ s.Distinct)
      (fun _ _ _ h hstep => ⟨h.1.step (step_cases hstep), h.2.step h.1 (step_cases hstep)⟩) hbefore
      ⟨.init name data closed writable n, .init name data closed writable n⟩
  obtain ⟨hi, hd⟩ := hinit
  cases hremove
  have hgone : Gone lid { s with listeners := s.listeners.filter (· ≠ lid) } :=
    ⟨hi.listeners lid hlisted, fun hmem => by simpa using List.of_mem_filter hmem⟩
  obtain ⟨hgone', new, hcalls, hperm⟩ := hgone.late_run hrun
  refine ⟨hgone'.unlisted, new, hcalls, ?_, hperm, fun hsettled => ?_⟩
  · have hle := hperm.length_eq
    rw [List.length_append] at hle
    have hlate : late { s with listeners := s.listeners.filter (· ≠ lid) } lid = s.late lid := rfl
    rw [hlate, hd.length_late] at hle
    omega
  · have hnone : t.late lid = [] := by
      refine List.flatMap_eq_nil_iff.mpr fun pc hpc => ?_
      have hdone := hsettled pc hpc
      cases pc with
      | calling m callbacks =>
          cases callbacks with
          | nil => rfl
          | cons l rest => cases hdone
      | _ => rfl
    rwa [hnone, List.append_nil] at hperm

/-- Two changes have taken their snapshots when a listener is removed, one of them has
called it, and a third change comes later. -/
def removedUnderWay : List ListenAct :=
  [.addListener, .addListener, .append 0 [[1]], .io 0 (.write 9), .io 0 (.sync true), .snapshot 0,
    .append 1 [[2]], .io 1 (.write 9), .io 1 (.sync true), .snapshot 1, .call 1 false]

theorem removed_called_underWay :
    ∃ s s' t, Lts.run step (init ['t'] [] false true 2) removedUnderWay = some s ∧
      s.step (.removeListener 1) = some s' ∧
      Lts.run step s' [.call 0 false, .call 0 false, .finish 0, .close 0 true] = some t ∧
      ∃ new, t.calls 1 = s.calls 1 ++ new ∧ new.length ≤ 1 := by
  have hmap : (Lts.run step (init ['t'] [] false true 2) removedUnderWay).map (fun s =>
      (decide (1 ∈ s.listeners), s.threads.countP fun pc => 1 ∈ pc.callbacks)) =
        some (true, 1) := by
    decide +kernel
  have hmap' : ((Lts.run step (init ['t'] [] false true 2) removedUnderWay).bind fun s =>
      (s.step (.removeListener 1)).bind fun s' =>
        (Lts.run step s' [.call 0 false, .call 0 false, .finish 0, .close 0 true]).map
          fun _ => ()) = some () := by
    decide +kernel
  obtain ⟨s, hrun, hview⟩ := Option.map_eq_some_iff.mp hmap
  obtain ⟨hlisted, hcount⟩ := Prod.mk.inj hview
  rw [hrun, Option.bind_some] at hmap'
  obtain ⟨s', hremove, hrest⟩ := Option.bind_eq_some_iff.mp hmap'
  obtain ⟨t, hmore, -⟩ := Option.map_eq_some_iff.mp hrest
  obtain ⟨-, new, hcalls, hlength, -⟩ := removed_called ['t'] [] false true 2 removedUnderWay
    _ s s' t 1 hrun (of_decide_eq_true hlisted) hremove hmore
  exact ⟨s, s', t, hrun, hremove, hmore, new, hcalls, hcount ▸ hlength⟩

end Listening

end Durastream
