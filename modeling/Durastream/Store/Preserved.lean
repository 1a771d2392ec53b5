import Durastream.Store.Rooted

/-!
# A `create` and the data of others

Without `delete`, and while the unlinks of `create` find no row, every batch that
was acknowledged stays in the file its path names, and every handle opened later
returns it (`acked_preserved`).

The condition is needed: `create` looks up the row, removes the log, and inserts
the row, and another process may do all of this in between, append to the stream
and close it.  The INSERT then fails, but the log is gone (`create_destroys`).
-/

namespace Durastream

/-- The steps of `create`, `open`, `append_many` and `Store.close`, where nothing
fails. -/
def Act.smooth : Act → Bool
  | .spawn => true
  | .newStore _ => true
  | .create _ _ _ => true
  | .openStream _ _ => true
  | .closeStore _ => true
  | .sys _ out => out == .ok
  | .append _ _ => true
  | .io _ (.write _) => true
  | .io _ (.sync ok) => ok
  | _ => false

namespace World

variable (path : Name → List Char)

/-- Each acknowledged batch is where it was acknowledged, in the file that the
path of its stream names.  A handle on the stream returns it if it was opened
later, or if it may write. -/
def Preserved (s : World) : Prop :=
  ∀ name i start b, .acked name i start b ∈ s.history →
    s.rows.get name ≠ none ∧ (s.fs.dir (path name)).cur = some i ∧
      ((records (s.fs.files i).data).take (start + b.length)).drop start = b ∧
      ∀ hd ∈ s.handles, ∀ d, hd.file = some d → hd.w.name = name →
        hd.writable = true ∨ .acked name i start b ∈ hd.asked →
        read name true (s.fs.file d).data hd.w.index start (some (start + b.length : Nat)) = .ok b

/-- Each stream with an acknowledged batch has a row, and a handle on it returns the
batch if it was opened later, or if it may write. -/
def Returned (s : World) : Prop :=
  ∀ (name : Name) (i start : Nat) (b : List Bytes), .acked name i start b ∈ s.history →
    s.rows.get name ≠ none ∧
      ∀ hd ∈ s.handles, ∀ d, hd.file = some d → hd.w.name = name →
        hd.writable = true ∨ .acked name i start b ∈ hd.asked →
        read name true (s.fs.file d).data hd.w.index start (some (start + b.length : Nat)) = .ok b

/-- Each acknowledged batch is in the file that the path of its stream names. -/
def Entered (s : World) : Prop :=
  ∀ name i start b, .acked name i start b ∈ s.history →
    s.rows.get name ≠ none ∧ (s.fs.dir (path name)).cur = some i

variable {path}
variable {s t : World} {a : Act}

theorem Entered.init (disk : Disk) : (World.init disk).Entered path :=
  fun _ _ _ _ hmem => absurd hmem List.not_mem_nil

/-- A batch that is acknowledged now is in the file of a handle. -/
theorem Entered.step (he : s.Entered path) (hr : s.Rooted path) (hsteady : Steady path s t)
    (hstep : Step path s a t) : t.Entered path := by
  have hkeep : ∀ name i, s.rows.get name ≠ none → (s.fs.dir (path name)).cur = some i →
      t.rows.get name ≠ none ∧ (t.fs.dir (path name)).cur = some i :=
    fun name i hrow hcur => ⟨hsteady.rows name hrow, hsteady.entry name i hrow hcur⟩
  intro name i start b hmem
  rcases acked_cases hstep hmem with hold | ⟨h, hd, d, hget, hfile, -, -, rfl, rfl⟩
  · obtain ⟨hrow, hcur⟩ := he name i start b hold
    exact hkeep name i hrow hcur
  · obtain ⟨hrow, hcur⟩ := hr.handle hd (List.mem_of_getElem? hget) d hfile
    exact hkeep _ _ hrow hcur

theorem Entered.preserved (he : s.Entered path) (hl : s.Logged) (hr : s.Rooted path) :
    s.Preserved path := by
  intro name i start b hmem
  obtain ⟨hrow, hcur⟩ := he name i start b hmem
  refine ⟨hrow, hcur, (hl.acked name i start b hmem).2.data.records, ?_⟩
  rintro hd hhd d hfile rfl hknown
  have hroot := (hr.handle hd hhd d hfile).2
  obtain rfl : i = s.fs.ino d := Option.some.inj (hcur.symm.trans hroot)
  exact (hl.serves hhd hfile hmem hknown).read hd.w.name

theorem Preserved.returned (hp : s.Preserved path) : s.Returned := by
  intro name i start b hmem
  obtain ⟨hrow, -, -, hreads⟩ := hp name i start b hmem
  exact ⟨hrow, hreads⟩

/-! ## The results -/

/-- Process 0 has looked up the row and found none; Store 1 creates the stream,
appends to it and closes. -/
def createdMeanwhile : List Act :=
  storeActs 0 ++ storeActs 1 ++ [.create 0 ['t'] none, .sys 0 .ok] ++ createActs 1 ['t'] ++
    appendActs 0 [[1]] 9 ++ closeActs 1 ++ List.replicate 5 (.sys 0 .ok)

/-- A `create` may remove the log of another process: after `createdMeanwhile`, no
entry is left of the batch that was acknowledged. -/
theorem create_destroys :
    ¬∀ (disk : Disk) (acts : List Act) (s : World), (∀ a ∈ acts, a.smooth = true) →
      Lts.run (step logEntry) (init disk) acts = some s → s.Preserved logEntry := by
  intro hall
  have hmap : (Lts.run (step logEntry) (init .empty) createdMeanwhile).map (fun s =>
      (s.history, (s.fs.dir (logEntry ['t'])).cur)) =
      some ([.acked ['t'] 0 0 [[1]], .inserted ['t'] 0], none) := by
    decide +kernel
  obtain ⟨s, hrun, heq⟩ := Option.map_eq_some_iff.mp hmap
  simp only [Prod.mk.injEq] at heq
  obtain ⟨hhist, hcur⟩ := heq
  have hpreserved := hall .empty createdMeanwhile s (by decide) hrun
  have hacked : .acked ['t'] 0 0 [[1]] ∈ s.history := by rw [hhist]; exact List.mem_cons_self
  have hentry := (hpreserved ['t'] 0 0 [[1]] hacked).2.1
  rw [hcur] at hentry
  cases hentry

/-- In a run without `delete` and power loss whose unlinks find no row, every
acknowledged batch is preserved. -/
theorem acked_preserved (disk : Disk) (acts : List Act) (s : World)
    (hacts : ∀ a ∈ acts, a.isDelete = false ∧ a.isPowerLoss = false)
    (hrun : Lts.run (step logEntry) (init disk) acts = some s)
    (horphan : Lts.Meets (step logEntry) (fun s a => s.orphanUnlink logEntry a = true)
      (init disk) acts) : s.Preserved logEntry := by
  have hstep : ∀ (u : World) (a : Act) (v : World),
      (u.Ok ∧ u.Logged ∧ u.Rooted logEntry ∧ u.Entered logEntry) →
      ((a.isDelete = false ∧ a.isPowerLoss = false) ∧ u.orphanUnlink logEntry a = true) →
      step logEntry u a = some v → v.Ok ∧ v.Logged ∧ v.Rooted logEntry ∧ v.Entered logEntry := by
    rintro u a v ⟨hok, hl, hr, he⟩ ⟨⟨hdel, hpower⟩, horphan⟩ hstep
    have hcases := step_cases hstep
    have hsteady := hr.steady logEntry_injective hpower horphan hcases
    exact ⟨hok.step hcases, hl.step hok hr.scansOpen hcases,
      hr.step logEntry_injective hok hdel horphan hcases, he.step hr hsteady hcases⟩
  obtain ⟨-, hl, hr, he⟩ := Lts.run_invariant_of_meets hstep hrun (horphan.and_mem hacts)
    ⟨.init disk, .init disk, .init disk, .init disk⟩
  exact he.preserved hl hr

/-- Process 0 has looked up the row and found none.  Store 1 removes the log that is left
over, creates the stream and appends; its lock refuses the `create` of Store 0. -/
def createdOverLeftover : List Act :=
  storeActs 0 ++ storeActs 1 ++ [.create 0 ['t'] none, .sys 0 .ok] ++
    .create 1 ['t'] none :: List.replicate 11 (.sys 1 .ok) ++ appendActs 0 [[1]] 9 ++
    [.sys 0 .ok, .sys 0 .ok]

/-- Store 0 then opens a view of the stream. -/
theorem acked_preserved_createdOverLeftover :
    (Lts.run (step logEntry) (init .leftover) createdOverLeftover).bind
        (fun u => (u.stores[0]?).map Store.result) = some (.error (.streamLocked ['t'])) ∧
      ∃ s, Lts.run (step logEntry) (init .leftover) (createdOverLeftover ++ openActs 0 ['t']) =
          some s ∧ s.history = [.acked ['t'] 1 0 [[1]], .inserted ['t'] 1] ∧
        s.Preserved logEntry := by
  have hrefused : (Lts.run (step logEntry) (init .leftover) createdOverLeftover).bind
      (fun u => (u.stores[0]?).map Store.result) = some (.error (.streamLocked ['t'])) := by
    decide +kernel
  have hmap : (Lts.run (step logEntry) (init .leftover)
      (createdOverLeftover ++ openActs 0 ['t'])).map World.history =
      some [.acked ['t'] 1 0 [[1]], .inserted ['t'] 1] := by
    decide +kernel
  obtain ⟨s, hrun, hhist⟩ := Option.map_eq_some_iff.mp hmap
  refine ⟨hrefused, s, hrun, hhist, ?_⟩
  exact acked_preserved .leftover (createdOverLeftover ++ openActs 0 ['t']) s (by decide) hrun
    (by decide +kernel)

end World

end Durastream
