import Durastream.Store.Preserved
import Durastream.Store.Single

/-!
# Acknowledged batches and power loss

An append returns after the fsync of the log.  This covers the bytes of the log
but not its entry in the directory, which is on the device after the next
`_fsync_dir`.  Only `create` calls it, and only for a row it has inserted, so a
log that was made for a row found without one has an entry that a power loss may
take back, with all that was acknowledged since (`acked_lost`).

Where the entry is on the device at every acknowledgement, every acknowledged
batch is returned after every power loss (`acked_returned`).
-/

namespace Durastream

namespace World

variable (path : Name → List Char)

/-- An append that is acknowledged now is on a stream whose entry is on the device. -/
def settledAck (s : World) : Act → Bool
  | .io h (.sync true) =>
      match s.handles[h]? with
      | some hd =>
          match hd.w.pc with
          | .syncing _ => (s.fs.dir (path hd.w.name)).settled
          | _ => true
      | none => true
  | _ => true

/-- The entries of acknowledged batches are such that no power loss takes one back. -/
def Durable (s : World) : Prop :=
  ∀ name i start b, .acked name i start b ∈ s.history →
    s.rows.get name ≠ none ∧ (s.fs.dir (path name)).Every (· = some i)

variable {path}
variable {s t : World} {a : Act} {name : Name} {i : Nat}

theorem Durable.init (disk : Disk) : (World.init disk).Durable path :=
  fun _ _ _ _ hmem => absurd hmem List.not_mem_nil

theorem Durable.entered (hd : s.Durable path) : s.Entered path := by
  intro name i start b hmem
  obtain ⟨hrow, hevery⟩ := hd name i start b hmem
  exact ⟨hrow, hevery.cur⟩

/-- A row stays, and with it an entry that is on the device. -/
theorem every_step (hinj : Function.Injective path) (horphan : s.orphanUnlink path a = true)
    (hstep : Step path s a t) (hrow : s.rows.get name ≠ none)
    (hevery : (s.fs.dir (path name)).Every (· = some i)) :
    (t.fs.dir (path name)).Every (· = some i) := by
  have hentry := step_entry (path name) hstep
  generalize t.fs.dir (path name) = c at hentry
  cases hentry with
  | same => exact hevery
  | synced => exact hevery.sync
  | lost cell loss => exact hevery.powerLoss _
  | unlinked k st name' why guard j hk hpc hpath hcur =>
      obtain rfl := hinj hpath
      simp [orphanUnlink, hk, hpc, hcur] at horphan
      exact absurd horphan hrow
  | created k st o out hk hpc hpath hnone =>
      have hcur := hevery.cur
      rw [hnone] at hcur
      cases hcur

theorem row_step (hinj : Function.Injective path) (hr : s.Rooted path)
    (horphan : s.orphanUnlink path a = true) (hstep : Step path s a t)
    (hrow : s.rows.get name ≠ none) : t.rows.get name ≠ none := by
  cases hpower : a.isPowerLoss with
  | false => exact (hr.steady hinj hpower horphan hstep).rows name hrow
  | true =>
      cases hstep with
      | powerLoss cell loss => exact hrow
      | call _ k st t hk hidle hcall hon =>
          rw [isPowerLoss_of_onStore hon] at hpower
          cases hpower
      | handle _ h hd t hget hhandle hon =>
          rw [isPowerLoss_of_onHandle hon] at hpower
          cases hpower
      | _ => cases hpower

/-- Every step keeps the invariant, if what it acknowledges has an entry on the device. -/
theorem Durable.step (hdur : s.Durable path) (hinj : Function.Injective path) (hr : s.Rooted path)
    (horphan : s.orphanUnlink path a = true) (hack : s.settledAck path a = true)
    (hstep : Step path s a t) : t.Durable path := by
  have hkeep : ∀ name i, s.rows.get name ≠ none →
      (s.fs.dir (path name)).Every (· = some i) →
      t.rows.get name ≠ none ∧ (t.fs.dir (path name)).Every (· = some i) :=
    fun name i hrow hevery =>
      ⟨row_step hinj hr horphan hstep hrow, every_step hinj horphan hstep hrow hevery⟩
  intro name i start b hmem
  rcases acked_cases hstep hmem with hold | ⟨h, hd, d, hget, hfile, hpc, rfl, rfl, rfl⟩
  · obtain ⟨hrow, hevery⟩ := hdur name i start b hold
    exact hkeep name i hrow hevery
  · obtain ⟨hrow, hcur⟩ := hr.handle hd (List.mem_of_getElem? hget) d hfile
    refine hkeep _ _ hrow ?_
    have hsettled : (s.fs.dir (path hd.w.name)).settled = true := by
      simpa [settledAck, hget, hpc] using hack
    exact .of_settled hsettled hcur

/-! ## The results -/

/-- `create` fails when it opens the log, and is called again: it finds a row
without a log. -/
def createdAgain : List Act :=
  storeActs 0 ++ .create 0 ['t'] none :: List.replicate 4 (.sys 0 .ok) ++ [.sys 0 .failed] ++
    .create 0 ['t'] none :: List.replicate 5 (.sys 0 .ok)

/-- An append is acknowledged on the log of this second call; then the power fails,
and the stream is opened again. -/
def lostLog : List Act :=
  createdAgain ++ appendActs 0 [[1]] 9 ++ [.powerLoss (fun _ => 1) fun _ => ⟨0, 0, 0⟩] ++
    storeActs 1 ++ openActs 1 ['t']

/-- A power loss may take back what was acknowledged: after `lostLog`, the handle reads
an empty stream. -/
theorem acked_lost :
    ¬∀ (disk : Disk) (acts : List Act) (s : World), (∀ a ∈ acts, a.isDelete = false) →
      Lts.Meets (step logEntry) (fun s a => s.oneStore a = true) (init disk) acts →
      Lts.run (step logEntry) (init disk) acts = some s → s.Returned := by
  intro hall
  have hmap : (Lts.run (step logEntry) (init .empty) lostLog).map World.history =
      some [.acked ['t'] 0 0 [[1]], .inserted ['t'] 0] := by
    decide +kernel
  obtain ⟨s, hrun, hhist⟩ := Option.map_eq_some_iff.mp hmap
  have hopened : (Lts.run (step logEntry) (init .empty) lostLog).map (fun s =>
      ((s.fs.file 1).data, (s.handles[1]?).map fun hd => (hd.w, hd.file, hd.writable))) =
      some ([], some (⟨['t'], [0], false, .idle⟩, some 1, true)) := by
    decide +kernel
  simp only [hrun, Option.map_some, Option.some.injEq, Prod.mk.injEq] at hopened
  obtain ⟨hdata, hhandle⟩ := hopened
  obtain ⟨hd, hget, heq⟩ := Option.map_eq_some_iff.mp hhandle
  simp only [Prod.mk.injEq] at heq
  obtain ⟨hwriter, hfile, hw⟩ := heq
  have hreturned := hall .empty lostLog s (by decide) (by decide +kernel) hrun
  have hacked : .acked ['t'] 0 0 [[1]] ∈ s.history := by rw [hhist]; exact List.mem_cons_self
  have hread := (hreturned ['t'] 0 0 [[1]] hacked).2 hd (List.mem_of_getElem? hget) 1 hfile
    (by rw [hwriter]) (.inl hw)
  rw [hdata, hwriter] at hread
  revert hread
  decide

/-- In a run of one Store at a time without `delete`, in which the entry of a stream is
on the device whenever an append to it is acknowledged, every acknowledged batch is
returned. -/
theorem acked_returned (disk : Disk) (acts : List Act) (s : World)
    (hacts : ∀ a ∈ acts, a.isDelete = false)
    (hone : Lts.Meets (step logEntry) (fun s a => s.oneStore a = true) (init disk) acts)
    (hrun : Lts.run (step logEntry) (init disk) acts = some s)
    (hack : Lts.Meets (step logEntry) (fun s a => s.settledAck logEntry a = true)
      (init disk) acts) : s.Returned := by
  have hstep : ∀ (u : World) (a : Act) (v : World),
      (u.Ok ∧ u.Logged ∧ u.Rooted logEntry ∧ u.Linked ∧ u.Single ∧ u.Durable logEntry) →
      (a.isDelete = false ∧ u.oneStore a = true ∧ u.settledAck logEntry a = true) →
      step logEntry u a = some v →
      v.Ok ∧ v.Logged ∧ v.Rooted logEntry ∧ v.Linked ∧ v.Single ∧ v.Durable logEntry := by
    rintro u a v ⟨hok, hl, hr, hlinked, hsingle, hd⟩ ⟨hdel, hone, hack⟩ hstep
    have hcases := step_cases hstep
    have horphan : u.orphanUnlink logEntry a = true := hsingle.orphanUnlink hr.quiet a
    exact ⟨hok.step hcases, hl.step hok hr.scansOpen hcases,
      hr.step logEntry_injective hok hdel horphan hcases, hlinked.step hcases,
      hsingle.step hlinked hone hcases, hd.step logEntry_injective hr horphan hack hcases⟩
  obtain ⟨-, hl, hr, -, -, hd⟩ := Lts.run_invariant_of_meets hstep hrun
    ((hone.and hack).and_mem hacts)
    ⟨.init disk, .init disk, .init disk, .init disk, .init disk, .init disk⟩
  exact (hd.entered.preserved hl hr).returned

/-- A batch is acknowledged, the power fails, and the stream is opened again. -/
def createdAndReopened : List Act :=
  storeActs 0 ++ createActs 0 ['t'] ++ appendActs 0 [[1]] 9 ++
    [.powerLoss (fun _ => 1) fun _ => ⟨0, 0, 0⟩] ++ storeActs 1 ++ openActs 1 ['t']

theorem acked_returned_createdAndReopened :
    ∃ s, Lts.run (step logEntry) (init .empty) createdAndReopened = some s ∧ s.Returned := by
  have hsome : (Lts.run (step logEntry) (init .empty) createdAndReopened).isSome = true := by
    decide +kernel
  obtain ⟨s, hrun⟩ := Option.isSome_iff_exists.mp hsome
  exact ⟨s, hrun, acked_returned .empty createdAndReopened s (by decide) (by decide +kernel) hrun
    (by decide +kernel)⟩

end World

end Durastream
