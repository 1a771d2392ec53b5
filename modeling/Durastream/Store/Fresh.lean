import Durastream.Store.Opens
import Durastream.Store.Single

/-!
# Leftover logs

A log without a row is left over from a `delete` that did not finish.  `create`
unlinks it before it inserts the row, but does not call `_fsync_dir` in between,
so until it does at the end, a power loss may take the unlink back: then the row
is there, with the records of the deleted stream (`leftover_served`).

Where no entry of the name is on the device at any INSERT, every record a handle
returns is in a file made after the INSERT of its row (`served_fresh`).
-/

namespace Durastream

namespace World

variable (path : Name → List Char)

/-- What a handle returns is in a file that was made after every INSERT of a row
for its stream. -/
def Fresh (s : World) : Prop :=
  ∀ name n, .inserted name n ∈ s.history →
    ∀ hd ∈ s.handles, ∀ d, hd.file = some d → hd.w.name = name →
      ∀ offset stop rs, read name true (s.fs.file d).data hd.w.index offset stop = .ok rs →
        rs ≠ [] → n ≤ s.fs.ino d

/-- An INSERT finds no entry of a log on the device. -/
def cleanInsert (s : World) : Act → Bool
  | .sys k .ok =>
      match (s.stores[k]?).map Store.pc with
      | some (.insert name _ _) => (s.fs.dir (path name)).values.all Option.isNone
      | _ => true
  | _ => true

/-- File `i` was made after every INSERT of a row for `name`. -/
def After (s : World) (name : Name) (i : Nat) : Prop :=
  ∀ n, .inserted name n ∈ s.history → n ≤ i

/-- What a path may name, and what is open, was made after the INSERTs. -/
structure Unmixed (s : World) : Prop where
  next : ∀ name, s.After name s.fs.nextIno
  entry : ∀ name, (s.fs.dir (path name)).Every fun e => ∀ i, e = some i → s.After name i
  opened : ∀ name d, s.OpenAs name d → s.After name (s.fs.ino d)

variable {path}
variable {s t : World} {k : Sid} {st : Store} {a : Act}

/-- No other method has the stream open at an INSERT. -/
theorem Single.not_openAs (hs : s.Single) (hk : s.stores[k]? = some st) {name : Name}
    {contentType : ContentType} {asked : List Event} (hpc : st.pc = .insert name contentType asked)
    (d : Did) : ¬s.OpenAs name d := by
  have hfits := hs.fits st (List.mem_of_getElem? hk)
  rw [Store.Fits, hpc] at hfits
  obtain ⟨hmeta, -, hnone⟩ := hfits
  intro ho
  cases ho with
  | handle hd hmem hfile hname =>
      obtain ⟨h, hget⟩ := List.mem_iff_getElem?.mp hmem
      obtain ⟨st', hst', hmeta', hholds⟩ := hs.held h hd hget (by simp [hfile])
      rw [hs.one hd.store k st' st hst' hmeta' hk hmeta, hk] at hst'
      cases hst'
      rcases hholds with hopened | hlocal
      · rw [hname, hnone] at hopened
        cases hopened
      · rw [hpc] at hlocal
        cases hlocal
  | ctor st' o pc hmem hpc' hdesc hname =>
      have hfits' := hs.fits st' hmem
      rw [Store.Fits, hpc'] at hfits'
      obtain ⟨k', hk'⟩ := List.mem_iff_getElem?.mp hmem
      rw [hs.one k' k st' st hk' hfits'.1 hk hmeta, hk] at hk'
      cases hk'
      rw [hpc] at hpc'
      cases hpc'

theorem Ok.lt_of_openAs (hs : s.Ok) {name : Name} {d : Did} (ho : s.OpenAs name d) :
    d < s.fs.descs.length := by
  cases ho with
  | handle hd hmem hfile hname => exact hs.lt_of_mem_file hmem hfile
  | ctor st o pc hmem hpc hdesc hname => exact hs.lt_of_ctor_desc hmem hpc hdesc

namespace Unmixed

theorem init (disk : Disk) : (World.init disk).Unmixed path := by
  have hafter : ∀ name i, (World.init disk).After name i :=
    fun _ _ _ hmem => absurd hmem List.not_mem_nil
  exact ⟨fun _ => hafter _ _, fun _ _ _ _ _ => hafter _ _, fun _ _ _ => hafter _ _⟩

/-- What was made after the INSERTs before the step was made after those before `t`, if
the step inserts no row. -/
theorem entry_step (hu : s.Unmixed path) (hstep : Step path s a t) (name : Name) :
    (t.fs.dir (path name)).Every fun e => ∀ i, e = some i → s.After name i := by
  have hentry := step_entry (path name) hstep
  generalize t.fs.dir (path name) = c at hentry
  cases hentry with
  | same => exact hu.entry name
  | synced => exact (hu.entry name).sync
  | lost cell loss => exact (hu.entry name).powerLoss _
  | unlinked k st name' why guard i hk hpc hpath hcur =>
      exact (hu.entry name).set fun i hi => by cases hi
  | created k st o out hk hpc hpath hcur =>
      refine (hu.entry name).set fun i hi => ?_
      cases hi
      exact hu.next name

theorem opened_step (hu : s.Unmixed path) (hstep : Step path s a t) {name : Name} {d : Did}
    (ho : t.OpenAs name d) (hlt : s.OpenAs name d → d < s.fs.descs.length) :
    s.After name (t.fs.ino d) := by
  rcases step_openAs hstep ho with hold | hcur
  · rw [step_ino hstep (hlt hold)]
    exact hu.opened name d hold
  · exact (hu.entry_step hstep name).cur _ hcur

/-- The INSERT of a row finds nothing that is on the device or open. -/
theorem inserted_step (hsingle : s.Single) (hclean : s.cleanInsert path a = true)
    (hstep : Step path s a t) {es : List Event} (hadds : Adds s a es) {name : Name} {n : Nat}
    (hmem : .inserted name n ∈ es) :
    n = s.fs.nextIno ∧ (t.fs.dir (path name)).Every (· = none) ∧ ∀ d, ¬s.OpenAs name d := by
  cases hadds with
  | none => cases hmem
  | acked h hd d start batch hget hfile hpc => cases List.mem_singleton.mp hmem
  | closed _ h hd d hget hfile hclosing hon => cases List.mem_singleton.mp hmem
  | inserted k st name' contentType asked hk hpc hrow =>
      cases List.mem_singleton.mp hmem
      refine ⟨rfl, ?_, hsingle.not_openAs hk hpc⟩
      have hnone : (s.fs.dir (path name)).Every (· = none) := by
        simpa [cleanInsert, hk, hpc, CrashCell.Every] using hclean
      have hentry := step_entry (path name) hstep
      generalize t.fs.dir (path name) = c at hentry
      cases hentry with
      | same => exact hnone
      | synced => exact hnone.sync
      | unlinked _ st' name' why guard i hk' hpc' hpath hcur =>
          rw [hk] at hk'
          cases hk'
          rw [hpc] at hpc'
          cases hpc'
      | created _ st' o _ hk' hpc' hpath hcur =>
          rw [hk] at hk'
          cases hk'
          rw [hpc] at hpc'
          cases hpc'

/-- Every step keeps the invariant, if its INSERT finds no entry on the device. -/
theorem step (hu : s.Unmixed path) (hs : s.Ok) (hsingle : s.Single)
    (hclean : s.cleanInsert path a = true) (hstep : Step path s a t) : t.Unmixed path := by
  obtain ⟨es, hhist, hadds⟩ := step_history hstep
  have hafter : ∀ name i, s.After name i → (∀ n, .inserted name n ∈ es → n ≤ i) →
      t.After name i := by
    intro name i hold hnew n hmem
    rw [hhist] at hmem
    exact (List.mem_append.mp hmem).elim (hnew n) (hold n)
  have hnext := step_nextIno hstep
  refine ⟨?_, ?_, ?_⟩
  · intro name
    refine hafter name _ (fun n hmem => Nat.le_trans (hu.next name n hmem) hnext) fun n hmem => ?_
    rw [(inserted_step hsingle hclean hstep hadds hmem).1]
    exact hnext
  · intro name e he i hi
    refine hafter name i (hu.entry_step hstep name e he i hi) fun n hmem => ?_
    have hnone := (inserted_step hsingle hclean hstep hadds hmem).2.1 e he
    rw [hnone] at hi
    cases hi
  · intro name d ho
    refine hafter name _ (hu.opened_step hstep ho hs.lt_of_openAs) fun n hmem => ?_
    obtain ⟨-, hnone, hclosed⟩ := inserted_step hsingle hclean hstep hadds hmem
    rcases step_openAs hstep ho with hold | hcur
    · exact absurd hold (hclosed d)
    · rw [hnone.cur] at hcur
      cases hcur

theorem fresh (hu : s.Unmixed path) : s.Fresh := by
  intro name n hmem hd hhd d hfile hname offset stop rs _ _
  exact hu.opened name d (.handle hd hhd hfile hname) n hmem

end Unmixed

/-! ## The results -/

/-- The power fails right after the INSERT, and the stream is opened again. -/
def lostUnlink : List Act :=
  storeActs 0 ++ .create 0 ['t'] none :: List.replicate 6 (.sys 0 .ok) ++
    [.powerLoss (fun _ => 1) fun _ => ⟨0, 0, 0⟩] ++ storeActs 1 ++ openActs 1 ['t']

/-- A power loss may bring back the log of a deleted stream: after `lostUnlink`, the
handle reads its record. -/
theorem leftover_served :
    ¬∀ (disk : Disk) (acts : List Act) (s : World),
      Lts.Meets (step logEntry) (fun s a => s.oneStore a = true) (init disk) acts →
      Lts.run (step logEntry) (init disk) acts = some s → s.Fresh := by
  intro hall
  have hmap : (Lts.run (step logEntry) (init .leftover) lostUnlink).map World.history =
      some [.inserted ['t'] 1] := by
    decide +kernel
  obtain ⟨s, hrun, hhist⟩ := Option.map_eq_some_iff.mp hmap
  have hopened : (Lts.run (step logEntry) (init .leftover) lostUnlink).map (fun s =>
      ((s.fs.file 1).data, s.fs.ino 1, (s.handles[0]?).map fun hd => (hd.w, hd.file))) =
      some (frame [7], 0, some (⟨['t'], [0, 9], false, .idle⟩, some 1)) := by
    decide +kernel
  simp only [hrun, Option.map_some, Option.some.injEq, Prod.mk.injEq] at hopened
  obtain ⟨hdata, hino, hhandle⟩ := hopened
  obtain ⟨hd, hget, heq⟩ := Option.map_eq_some_iff.mp hhandle
  obtain ⟨hwriter, hfile⟩ := Prod.mk.inj heq
  have hread : read ['t'] true (s.fs.file 1).data hd.w.index 0 none = .ok [[7]] := by
    have hfit : Fits [[7]] := by
      intro p hp
      cases List.mem_singleton.mp hp
      decide
    have hmarks : marks [[7]] = [0, 9] := by decide +kernel
    have hframes : frames [[7]] = frame [7] := List.append_nil _
    rw [hdata, hwriter, ← hmarks, ← hframes]
    exact read_marks ['t'] hfit List.prefix_rfl 0 none
  have hfresh := hall .leftover lostUnlink s (by decide +kernel) hrun
  have hinserted : .inserted ['t'] 1 ∈ s.history := by rw [hhist]; exact List.mem_cons_self
  have hle := hfresh ['t'] 1 hinserted hd (List.mem_of_getElem? hget) 1 hfile
    (by rw [hwriter]) 0 none [[7]] hread (by simp)
  rw [hino] at hle
  cases hle

/-- In a run of one Store at a time whose INSERTs find no entry of the name on the
device, everything a handle returns was appended to a file made after the INSERT. -/
theorem served_fresh (disk : Disk) (acts : List Act) (s : World)
    (hone : Lts.Meets (step logEntry) (fun s a => s.oneStore a = true) (init disk) acts)
    (hrun : Lts.run (step logEntry) (init disk) acts = some s)
    (hclean : Lts.Meets (step logEntry) (fun s a => s.cleanInsert logEntry a = true)
      (init disk) acts) : s.Fresh := by
  have hstep : ∀ (u : World) (a : Act) (v : World),
      (u.Ok ∧ u.Linked ∧ u.Single ∧ u.Unmixed logEntry) →
      (u.oneStore a = true ∧ u.cleanInsert logEntry a = true) → step logEntry u a = some v →
      v.Ok ∧ v.Linked ∧ v.Single ∧ v.Unmixed logEntry := by
    rintro u a v ⟨hok, hlinked, hsingle, hu⟩ ⟨hone, hclean⟩ hstep
    have hcases := step_cases hstep
    exact ⟨hok.step hcases, hlinked.step hcases, hsingle.step hlinked hone hcases,
      hu.step hok hsingle hclean hcases⟩
  obtain ⟨-, -, -, hu⟩ := Lts.run_invariant_of_meets hstep hrun (hone.and hclean)
    ⟨.init disk, .init disk, .init disk, .init disk⟩
  exact hu.fresh

/-- A stream is deleted and created again, and the power fails. -/
def deletedAndCreated : List Act :=
  storeActs 0 ++ createActs 0 ['t'] ++ appendActs 0 [[7]] 9 ++ deleteActs 0 ['t'] ++
    createActs 0 ['t'] ++ [.powerLoss (fun _ => 1) fun _ => ⟨0, 0, 0⟩] ++ storeActs 1 ++
    openActs 1 ['t']

theorem served_fresh_deletedAndCreated :
    ∃ s, Lts.run (step logEntry) (init .empty) deletedAndCreated = some s ∧ s.Fresh := by
  have hsome : (Lts.run (step logEntry) (init .empty) deletedAndCreated).isSome = true := by
    decide +kernel
  obtain ⟨s, hrun⟩ := Option.isSome_iff_exists.mp hsome
  exact ⟨s, hrun, served_fresh .empty deletedAndCreated s (by decide +kernel) hrun
    (by decide +kernel)⟩

end World

end Durastream
