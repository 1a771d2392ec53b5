import Durastream.Stream.Machine

/-!
# What readers can see

A record is durable when the last successful sync of the log covers its frame.
`durable` lists these records.  The append path makes a record readable only
after its sync, but an opening indexes whatever whole frames its scan finds, and
some of them may still await their sync: a read-only view opened during an
append, or the next owner after a crash of the writer's process
(`view_reads_undurable`).

An opening is safe if every frame its scan indexes is covered, or if it is the
owner's and finds a torn tail, since then `_recover` truncates and syncs before
anything is read (`SafeOpening`).  If every opening of a run is safe, every
record that can be read is durable, and durable records never change
(`reads_durable`).
-/

namespace Durastream

/-- The records a power loss cannot take back. -/
def durable (f : CrashFile UInt8) : List Bytes := records (f.data.take f.synced)

/-- Records whose frames are covered by the last sync are durable. -/
theorem isPrefix_durable {f : CrashFile UInt8} {rs : List Bytes} (hrs : Fits rs)
    (hdata : frames rs <+: f.data) (hsync : (frames rs).length ≤ f.synced) : rs <+: durable f :=
  isPrefix_records hrs (List.prefix_take_iff.mpr ⟨hdata, hsync⟩)

/-- If the last sync covers exactly the frames of `rs`, these are durable. -/
theorem durable_eq {f : CrashFile UInt8} {rs : List Bytes} (hrs : Fits rs)
    (hdata : frames rs <+: f.data) (hsync : f.synced = (frames rs).length) : durable f = rs := by
  rw [durable, hsync, ← List.prefix_iff_eq_take.mp hdata, records_frames hrs]

theorem durable_mono {f g : CrashFile UInt8}
    (h : f.data.take f.synced <+: g.data.take g.synced) : durable f <+: durable g :=
  records_mono h

/-- The frames of durable records are at the front of the file. -/
theorem frames_isPrefix_of_durable {f : CrashFile UInt8} {rs : List Bytes}
    (h : rs <+: durable f) : frames rs <+: f.data := by
  have hdur := frames_records_isPrefix (f.data.take f.synced)
  have htake := List.take_prefix f.synced f.data
  exact ((frames_mono h).trans hdur).trans htake

/-! ## Reads and openings -/

/-- The index of each handle that can be read now: the views, and the owner's
handle while its lock is free. -/
def LogState.readers (s : LogState) : List (List Nat) :=
  s.views ++
    match s.owner with
    | .live w => if w.pc = .idle then [w.index] else []
    | _ => []

/-- Record `i` of a handle with this index is `r`: some read returns it. -/
def LogState.Reads (s : LogState) (index : List Nat) (i : Nat) (r : Bytes) : Prop :=
  ∃ (offset : Int) (stop : Option Int) (rs : List Bytes) (j : Nat),
    read s.name true s.file.data index offset stop = .ok rs ∧ rs[j]? = some r ∧
      i = (max offset 0).toNat + j

/-- Every record that a handle's read returns is durable. -/
def LogState.ReadsDurable (s : LogState) : Prop :=
  ∀ index ∈ s.readers, ∀ i r, s.Reads index i r → (durable s.file)[i]? = some r

/-- The frames an opening indexes are covered by the last sync, or the opening is
the owner's and a torn tail follows them. -/
def SafeOpening (s : LogState) : LogAct → Prop
  | .openOwner _ =>
      lastMark (scan s.file.data s.file.data.length) ≤ s.file.synced ∨
        lastMark (scan s.file.data s.file.data.length) ≠ s.file.data.length
  | .openView size => lastMark (scan s.file.data size) ≤ s.file.synced
  | _ => True

instance (s : LogState) (a : LogAct) : Decidable (SafeOpening s a) := by
  cases a <;> unfold SafeOpening <;> infer_instance

/-! ## The invariant -/

/-- Every index is that of durable records.  A live owner's covers all of them
and ends where the last sync does. -/
structure LogState.Visible (s : LogState) : Prop where
  views : ∀ index ∈ s.views, ∃ rs, index = marks rs ∧ rs <+: durable s.file
  owner : match s.owner with
    | .absent => True
    | .recTruncate w => w.pc = .idle ∧ w.index = marks (records s.file.data)
    | .recSync w => w.pc = .idle ∧ ∃ rs, w.Ok s.file.data rs ∧ s.file.data = frames rs
    | .live w => ∃ rs, w.Ok s.file.data rs ∧ s.file.synced = (frames rs).length

namespace LogState.Visible

variable {s t : LogState}

theorem init (name : Name) (d : Bytes) : (LogState.init name d).Visible :=
  ⟨fun _ h => absurd h List.not_mem_nil, trivial⟩

/-- The views stay good while the durable records only grow. -/
theorem views_mono (h : s.Visible) (hmono : durable s.file <+: durable t.file)
    (hviews : ∀ index ∈ t.views, index ∈ s.views) :
    ∀ index ∈ t.views, ∃ rs, index = marks rs ∧ rs <+: durable t.file := by
  intro index hmem
  obtain ⟨rs, hindex, hpre⟩ := h.views index (hviews index hmem)
  exact ⟨rs, hindex, hpre.trans hmono⟩

/-- A call of an append keeps the last sync at the end of the index. -/
theorem writer_synced {f f' : CrashFile UInt8} {w w' : Writer} {fate : Option Fate}
    {rs : List Bytes} (hok : w.Ok f.data rs) (hsync : f.synced = (frames rs).length)
    (hstep : Writer.Step f w f' w' fate) :
    f'.synced = (frames (Writer.Ok.after rs w.pc fate)).length := by
  have hfile := hok.file
  cases hstep with
  | chunk b rest n hpc hn => exact hsync
  | written b rest hpc => exact hsync
  | writeErr b rest n hpc hn => exact hsync
  | synced b hpc =>
      rw [hpc] at hfile
      rw [CrashFile.synced_sync, hfile.2.2, ← frames_append, Writer.Ok.after, hpc]
      rfl
  | syncErr b hpc => exact hsync
  | cut b hpc =>
      rw [CrashFile.synced_truncate, hok.index, lastMark_marks, hsync, Nat.min_self]
      rfl
  | cutErr b hpc => exact hsync
  | rolledBack b hpc =>
      rw [hpc] at hfile
      rw [CrashFile.synced_sync, hfile.2.2]
      rfl
  | rollSyncErr b hpc => exact hsync

theorem openOwner (h : s.Visible) (closed : Bool) (hsafe : SafeOpening s (.openOwner closed)) :
    ({ s with owner := s.opened closed } : LogState).Visible := by
  refine ⟨h.views, ?_⟩
  have hindex : scan s.file.data s.file.data.length = marks (records s.file.data) :=
    scan_length s.file.data
  have hopened : s.opened closed =
      if (frames (records s.file.data)).length ≠ s.file.data.length then
        .recTruncate ⟨s.name, marks (records s.file.data), closed, .idle⟩
      else .live ⟨s.name, marks (records s.file.data), closed, .idle⟩ := by
    rw [opened, hindex, lastMark_marks]
  unfold SafeOpening at hsafe
  dsimp only at hsafe ⊢
  rw [hindex, lastMark_marks] at hsafe
  rw [hopened]
  by_cases hlen : (frames (records s.file.data)).length = s.file.data.length
  · rw [if_neg (not_not.mpr hlen)]
    have hall : frames (records s.file.data) = s.file.data :=
      (frames_records_isPrefix _).eq_of_length hlen
    have hcover : (frames (records s.file.data)).length ≤ s.file.synced :=
      hsafe.resolve_right fun hne => hne hlen
    have hle := s.file.synced_le
    refine ⟨records s.file.data, ⟨Fits.records _, rfl, frames_records_isPrefix _, ?_⟩, ?_⟩
    · exact fun _ => hall.symm
    · show s.file.synced = _
      omega
  · rw [if_pos hlen]
    exact ⟨rfl, rfl⟩

/-- Cutting a torn tail loses nothing durable. -/
theorem durable_recCut {w : Writer} (hindex : w.index = marks (records s.file.data)) :
    durable s.file <+: durable (s.file.truncate (lastMark w.index)) := by
  obtain ⟨hlast, hle, -⟩ := recovered_cut hindex
  rw [durable, durable, CrashFile.data_truncate _ hle, CrashFile.synced_truncate, List.take_take]
  by_cases hcover : s.file.synced ≤ lastMark w.index
  · rw [Nat.min_eq_left hcover, Nat.min_eq_left hcover]
  · have hn : lastMark w.index ≤ s.file.synced := by omega
    rw [Nat.min_eq_right hn, Nat.min_self, records_take (Nat.le_of_eq hlast.symm)]
    have htake := List.take_prefix s.file.synced s.file.data
    exact records_mono htake

/-- Every safe step keeps the invariant and what is durable. -/
theorem step {a : LogAct} (h : s.Visible) (hsafe : SafeOpening s a) (hstep : Step s a t) :
    t.Visible ∧ durable s.file <+: durable t.file := by
  have hown := h.owner
  cases hstep with
  | openOwner closed howner => exact ⟨h.openOwner closed hsafe, List.prefix_refl _⟩
  | openView size =>
      refine ⟨⟨?_, hown⟩, List.prefix_refl _⟩
      intro index hmem
      rcases List.mem_append.mp hmem with hmem | hmem
      · exact h.views index hmem
      · have hindex : index = marks (records (s.file.data.take size)) := by
          rw [← scan_eq]
          exact List.mem_singleton.mp hmem
        refine ⟨_, hindex, isPrefix_durable (Fits.records _) ?_ ?_⟩
        · have htake := List.take_prefix size s.file.data
          exact (frames_records_isPrefix _).trans htake
        · have hcover : lastMark (scan s.file.data size) ≤ s.file.synced := hsafe
          rwa [scan_eq, lastMark_marks] at hcover
  | closeView i =>
      exact ⟨⟨h.views_mono (List.prefix_refl _) fun _ hm => List.mem_of_mem_eraseIdx hm, hown⟩,
        List.prefix_refl _⟩
  | refused payloads => exact ⟨h, List.prefix_refl _⟩
  | started payloads w w' howner hidle hbegin =>
      rw [howner] at hown
      obtain ⟨rs, hok, hsync⟩ := hown
      exact ⟨⟨h.views, rs, hok.begin hidle hbegin, hsync⟩, List.prefix_refl _⟩
  | recCut w howner =>
      rw [howner] at hown
      obtain ⟨hidle, hindex⟩ := hown
      have hmono := durable_recCut hindex
      have hok : w.Ok (s.file.truncate (lastMark w.index)).data (records s.file.data) :=
        .recovered hidle hindex
      exact ⟨⟨h.views_mono hmono fun _ hm => hm, hidle, records s.file.data, hok,
        (recovered_cut hindex).2.2⟩, hmono⟩
  | recFailed w a howner => exact ⟨⟨h.views, trivial⟩, List.prefix_refl _⟩
  | recSynced w howner =>
      rw [howner] at hown
      obtain ⟨-, rs, hok, hdata⟩ := hown
      have hmono : durable s.file <+: durable s.file.sync := by
        refine durable_mono ?_
        rw [CrashFile.synced_sync, CrashFile.data_sync, List.take_length]
        exact List.take_prefix _ _
      refine ⟨⟨h.views_mono hmono fun _ hm => hm, rs, hok, ?_⟩, hmono⟩
      rw [CrashFile.synced_sync, hdata]
  | io w w' a f fate howner hw =>
      rw [howner] at hown
      obtain ⟨rs, hok, hsync⟩ := hown
      have hok' := hok.step hw
      have hsync' := writer_synced hok hsync hw
      have hmono : durable s.file <+: durable f := by
        rw [durable_eq hok.fits hok.isPrefix hsync, durable_eq hok'.fits hok'.isPrefix hsync']
        exact Writer.Ok.isPrefix_after rs w.pc fate
      exact ⟨⟨h.views_mono hmono fun _ hm => hm, _, hok', hsync'⟩, hmono⟩
  | closeOwner w howner hidle => exact ⟨⟨h.views, trivial⟩, List.prefix_refl _⟩
  | crash => exact ⟨⟨h.views, trivial⟩, List.prefix_refl _⟩
  | powerLoss i k m =>
      refine ⟨⟨fun _ hm => absurd hm List.not_mem_nil, trivial⟩, durable_mono ?_⟩
      refine List.prefix_take_iff.mpr ⟨s.file.take_synced_powerLoss i k m, ?_⟩
      rw [List.length_take]
      exact Nat.le_trans (Nat.min_le_left _ _) (Nat.le_max_left _ _)

/-- In a state of the invariant, each reader's index is that of durable records. -/
theorem readers (h : s.Visible) {index : List Nat} (hmem : index ∈ s.readers) :
    ∃ rs, index = marks rs ∧ Fits rs ∧ rs <+: durable s.file := by
  rcases List.mem_append.mp hmem with hmem | hmem
  · obtain ⟨rs, hindex, hpre⟩ := h.views index hmem
    exact ⟨rs, hindex, (Fits.records _).of_subset hpre.subset, hpre⟩
  · have hown := h.owner
    cases howner : s.owner with
    | live w =>
        rw [howner] at hmem hown
        obtain ⟨rs, hok, hsync⟩ := hown
        dsimp only at hmem
        split at hmem
        · refine ⟨rs, ?_, hok.fits, ?_⟩
          · rw [List.mem_singleton.mp hmem, hok.index]
          · rw [durable_eq hok.fits hok.isPrefix hsync]
        · cases hmem
    | _ =>
        rw [howner] at hmem
        cases hmem

/-- What a reader returns for offset `i` is the durable record `i`. -/
theorem readsDurable (h : s.Visible) : s.ReadsDurable := by
  intro index hmem i r hreads
  obtain ⟨rs, rfl, hfits, hpre⟩ := h.readers hmem
  obtain ⟨offset, stop, got, j, hread, hj, rfl⟩ := hreads
  rw [read_marks s.name hfits (frames_isPrefix_of_durable hpre), Except.ok.injEq] at hread
  rw [← hread, List.getElem?_drop, List.getElem?_take] at hj
  split at hj
  · obtain ⟨u, hu⟩ := hpre
    rw [← hu]
    exact List.getElem?_append_left (List.getElem?_eq_some_iff.mp hj).1 ▸ hj
  · cases hj

end LogState.Visible

/-! ## The results -/

/-- The route by which a reader sees a record before its sync: a read-only view
opened while an append is between its last write and its sync. -/
def viewDuringAppend : List LogAct :=
  [.openOwner false, .append [[1]], .io (.write 9), .openView 9]

/-- Not every record a reader returns is durable: the view of `viewDuringAppend`
returns a record that a power loss, or the rollback of its append, takes back. -/
theorem view_reads_undurable :
    ¬∀ (name : Name) (d : Bytes) (acts : List LogAct) (s : LogState),
      Lts.run LogState.step (.init name d) acts = some s → s.ReadsDurable := by
  intro h
  have hsome : ((Lts.run LogState.step (.init ['t'] []) viewDuringAppend).map fun s =>
      (s.readers, read s.name true s.file.data [0, 9] 0 none, (durable s.file)[0]?)) =
        some ([[0, 9]], .ok [[1]], none) := by
    decide +kernel
  obtain ⟨s, hrun, heq⟩ := Option.map_eq_some_iff.mp hsome
  simp only [Prod.mk.injEq] at heq
  obtain ⟨hreaders, hread, hdur⟩ := heq
  have hbad := h ['t'] [] viewDuringAppend s hrun [0, 9] (by rw [hreaders]; simp) 0 [1]
    ⟨0, none, [[1]], 0, hread, rfl, rfl⟩
  rw [hdur] at hbad
  cases hbad

/-- In a run whose openings are all safe, every record a reader returns is
durable.  From then on it stays the durable record at its offset, every read of
that offset returns it, and the owner's handle has it. -/
theorem reads_durable (name : Name) (d : Bytes) (acts later : List LogAct) (s t : LogState)
    (hrun : Lts.run LogState.step (.init name d) acts = some s)
    (hsafe : Lts.Meets LogState.step SafeOpening (.init name d) acts)
    (hlater : Lts.run LogState.step s later = some t)
    (hsafe' : Lts.Meets LogState.step SafeOpening s later) :
    s.ReadsDurable ∧
      ∀ index ∈ s.readers, ∀ i r, s.Reads index i r →
        (durable t.file)[i]? = some r ∧
        (∀ index' ∈ t.readers, ∀ r', t.Reads index' i r' → r' = r) ∧
        (∀ w, t.owner = .live w → w.pc = .idle → t.Reads w.index i r) := by
  have hs : s.Visible :=
    Lts.run_invariant_of_meets
      (fun _ _ _ h ok hstep => (h.step ok (LogState.step_cases hstep)).1)
      hrun hsafe (LogState.Visible.init name d)
  obtain ⟨ht, hmono⟩ :=
    Lts.run_rel_of_meets (R := fun u v : LogState => durable u.file <+: durable v.file)
      (fun _ => List.prefix_refl _) (fun _ _ _ h₁ h₂ => List.IsPrefix.trans h₁ h₂)
      (fun _ _ _ h ok hstep => h.step ok (LogState.step_cases hstep)) hlater hsafe' hs
  refine ⟨hs.readsDurable, ?_⟩
  intro index hmem i r hreads
  have hnow := hs.readsDurable index hmem i r hreads
  have hthen : (durable t.file)[i]? = some r := by
    obtain ⟨u, hu⟩ := hmono
    rw [← hu]
    exact List.getElem?_append_left (List.getElem?_eq_some_iff.mp hnow).1 ▸ hnow
  refine ⟨hthen, ?_, ?_⟩
  · intro index' hmem' r' hreads'
    have hother := ht.readsDurable index' hmem' i r' hreads'
    rw [hthen] at hother
    exact (Option.some.inj hother).symm
  · intro w howner _
    have hown := ht.owner
    rw [howner] at hown
    obtain ⟨rs, hok, hsync⟩ := hown
    rw [durable_eq hok.fits hok.isPrefix hsync] at hthen
    refine ⟨0, none, rs, i, ?_, hthen, by simp⟩
    rw [hok.index, read_marks t.name hok.fits hok.isPrefix, readStop, List.take_length]
    rfl

/-- A view opened after an append. -/
def viewAfterAppend : List LogAct :=
  [.openOwner false, .append [[1]], .io (.write 9), .io (.sync true), .openView 9]

/-- An append that fails and is rolled back. -/
def rolledBackAppend : List LogAct :=
  [.append [[2]], .io (.write 9), .io (.sync false), .io (.truncate true), .io (.sync true)]

theorem reads_durable_rollback :
    ∃ s t, Lts.run LogState.step (.init ['t'] []) viewAfterAppend = some s ∧
      Lts.run LogState.step s rolledBackAppend = some t ∧ s.ReadsDurable ∧
      ∀ index ∈ s.readers, ∀ i r, s.Reads index i r →
        (durable t.file)[i]? = some r ∧
        (∀ index' ∈ t.readers, ∀ r', t.Reads index' i r' → r' = r) ∧
        (∀ w, t.owner = .live w → w.pc = .idle → t.Reads w.index i r) := by
  have hfirst : ((Lts.run LogState.step (.init ['t'] []) viewAfterAppend).map fun s =>
      decide ((Lts.run LogState.step s rolledBackAppend).isSome ∧
        Lts.Meets LogState.step SafeOpening s rolledBackAppend)) = some true := by
    decide +kernel
  have hsafe : Lts.Meets LogState.step SafeOpening (.init ['t'] []) viewAfterAppend := by
    decide +kernel
  obtain ⟨s, hrun, hs⟩ := Option.map_eq_some_iff.mp hfirst
  obtain ⟨hsome, hsafe'⟩ := of_decide_eq_true hs
  obtain ⟨t, hlater⟩ := Option.isSome_iff_exists.mp hsome
  exact ⟨s, t, hrun, hlater, reads_durable ['t'] [] _ _ s t hrun hsafe hlater hsafe'⟩

end Durastream
