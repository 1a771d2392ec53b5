import Durastream.Store.Linked

/-!
# Acknowledged batches stay in their file

A batch that was acknowledged is in the file it was appended to, and it stays
there: only the owner of the file changes it, and the owner's index covers the
batch, so it never cuts the file before its end.  `World.Logged` is the
invariant.  It ties the file, the index of the writer or of the constructor that
owns it, and the indexes of the handles opened since.

It needs one thing from outside: `_scan` opens the path again, so what it indexes
is the file that is open only while the path names it.  The theorems that use
`World.Logged` say when it does.
-/

namespace Durastream

/-! ## What one variable knows of its file -/

/-- Every batch acknowledged in file `i` ends below record `n`. -/
def Covered (hist : List Event) (i n : Nat) : Prop :=
  ∀ name start b, .acked name i start b ∈ hist → start + b.length ≤ n

/-- The batches acknowledged in file `i`, and all records before them, are kept
from `d` to `d'`. -/
def Kept (hist : List Event) (i : Nat) (d d' : Bytes) : Prop :=
  ∀ name start b, .acked name i start b ∈ hist →
    ∀ rs, Fits rs → rs.length = start + b.length → frames rs <+: d → frames rs <+: d'

theorem Kept.refl (hist : List Event) (i : Nat) (d : Bytes) : Kept hist i d d :=
  fun _ _ _ _ _ _ _ hframes => hframes

/-- Cutting a file behind records that cover the batches keeps them. -/
theorem Kept.of_covered {hist : List Event} {i : Nat} {d d' : Bytes} {ps : List Bytes}
    (hps : Fits ps) (hd : frames ps <+: d) (hd' : frames ps <+: d')
    (hcover : Covered hist i ps.length) : Kept hist i d d' := by
  intro name start b hmem rs hrs hlen hframes
  have hle : rs.length ≤ ps.length := hlen ▸ hcover name start b hmem
  exact (frames_mono (isPrefix_of_frames hrs hps hframes hd hle)).trans hd'

/-- Writing one file keeps what is in every file, if it keeps what is in that one. -/
theorem Kept.setFile {fs : LockFs (List Char) UInt8} {hist : List Event} {i : Nat}
    {f : CrashFile UInt8} (h : Kept hist i (fs.files i).data f.data) (d : Did) :
    Kept hist (fs.ino d) (fs.file d).data ((fs.setFile i f).file d).data := by
  by_cases hino : fs.ino d = i
  · subst hino
    rw [LockFs.file_setFile_self]
    exact h
  · rw [LockFs.file_setFile_of_ne hino]
    exact .refl _ _ _

/-- Only batches in file `j` are acknowledged. -/
theorem Covered.of_ne {hist hist' : List Event} {i j n : Nat} (h : Covered hist i n)
    (hne : i ≠ j)
    (hnew : ∀ name k start b, .acked name k start b ∈ hist' →
      .acked name k start b ∈ hist ∨ k = j) : Covered hist' i n := by
  intro name start b hmem
  rcases hnew name i start b hmem with hmem | heq
  · exact h name start b hmem
  · exact absurd heq hne

/-- What is held in a file is covered by the records found there. -/
theorem Covered.of_held {hist : List Event} {i : Nat} {d : Bytes}
    (h : ∀ name start b, .acked name i start b ∈ hist → Held d start b) :
    Covered hist i (records d).length := by
  intro name start b hmem
  obtain ⟨rs, hfit, hlen, -, hframes⟩ := h name start b hmem
  rw [← hlen]
  exact (isPrefix_records hfit hframes).length_le

/-- The index of a handle that may write covers what was acknowledged in its
file.  The index of any handle serves what was acknowledged in its file before
the row was looked up. -/
def Handle.Logged (fs : LockFs (List Char) UInt8) (hist : List Event) (hd : Handle) : Prop :=
  ∀ d, hd.file = some d →
    (hd.writable = true →
      ∃ rs, hd.w.Ok (fs.file d).data rs ∧ Covered hist (fs.ino d) rs.length) ∧
    ∀ start b, .acked hd.w.name (fs.ino d) start b ∈ hd.asked →
      Serves hd.w.index (fs.file d).data start b

def CtorPc.Logged (fs : LockFs (List Char) UInt8) (hist : List Event) (o : Opening) :
    CtorPc → Prop
  | .scan d owner size =>
      (owner = true → size = (fs.file d).data.length) ∧
        ∀ start b, .acked o.name (fs.ino d) start b ∈ o.asked →
          Held ((fs.file d).data.take size) start b
  | .truncate d index => index = marks (records (fs.file d).data)
  | .sync d index =>
      ∃ rs, Fits rs ∧ index = marks rs ∧ (fs.file d).data = frames rs ∧
        Covered hist (fs.ino d) rs.length
  | _ => True

/-- The descriptions a constructor owns from the lock on. -/
def CtorPc.owned : CtorPc → Option Did
  | .stat d true => some d
  | .scan d true _ => some d
  | .truncate d _ => some d
  | .sync d _ => some d
  | _ => none

/-- The history a method has seen at its lookup. -/
def StorePc.asked : StorePc → List Event
  | .probe _ (.create _ asked) => asked
  | .probeLock _ (.create _ asked) _ => asked
  | .unlink _ (.create _ asked) _ => asked
  | .closeGuard _ (.create _ asked) _ _ => asked
  | .insert _ _ asked => asked
  | .ctor o _ => o.asked
  | _ => []

section Mono

variable {fs fs' : LockFs (List Char) UInt8} {hist hist' : List Event} {hd : Handle}
  {o : Opening} {pc : CtorPc}

/-- A handle does not notice what others do, if they keep what was acknowledged
and leave the file alone while the handle may write it. -/
theorem Handle.Logged.mono (h : hd.Logged fs hist) (hasked : hd.asked ⊆ hist)
    (hino : ∀ d, hd.file = some d → fs'.ino d = fs.ino d)
    (hkept : ∀ d, hd.file = some d → Kept hist (fs.ino d) (fs.file d).data (fs'.file d).data)
    (hown : ∀ d, hd.file = some d → hd.writable = true →
      (fs'.file d).data = (fs.file d).data ∧
        ∀ n, Covered hist (fs.ino d) n → Covered hist' (fs.ino d) n) : hd.Logged fs' hist' := by
  intro d hfile
  obtain ⟨hwrite, hserve⟩ := h d hfile
  rw [hino d hfile]
  refine ⟨?_, ?_⟩
  · intro hw
    obtain ⟨hdata, hcover⟩ := hown d hfile hw
    obtain ⟨rs, hok, hcov⟩ := hwrite hw
    rw [hdata]
    exact ⟨rs, hok, hcover _ hcov⟩
  · intro start b hmem
    obtain ⟨rs, hfit, hlen, hdrop, hframes, hmarks⟩ := hserve start b hmem
    refine ⟨rs, hfit, hlen, hdrop, ?_, hmarks⟩
    exact hkept d hfile _ start b (hasked hmem) rs hfit hlen hframes

theorem CtorPc.Logged.mono (h : pc.Logged fs hist o) (hasked : o.asked ⊆ hist)
    (hino : ∀ d c p, pc.claim p = some c → c.did = d → fs'.ino d = fs.ino d)
    (hkept : ∀ d c p, pc.claim p = some c → c.did = d →
      Kept hist (fs.ino d) (fs.file d).data (fs'.file d).data)
    (hown : ∀ d, pc.owned = some d → (fs'.file d).data = (fs.file d).data ∧
      ∀ n, Covered hist (fs.ino d) n → Covered hist' (fs.ino d) n) : pc.Logged fs' hist' o := by
  cases pc with
  | scan d owner size =>
      obtain ⟨hsize, hheld⟩ := h
      have hino' := hino d _ 0 rfl rfl
      refine ⟨?_, ?_⟩
      · intro howner
        subst howner
        rw [(hown d rfl).1]
        exact hsize rfl
      · intro start b hmem
        rw [hino'] at hmem
        obtain ⟨rs, hfit, hlen, hdrop, hframes⟩ := hheld start b hmem
        have hle := hframes.length_le
        rw [List.length_take] at hle
        have htake := List.take_prefix size (fs.file d).data
        have hkeep := hkept d _ 0 rfl rfl _ start b (hasked hmem) rs hfit hlen (hframes.trans htake)
        exact ⟨rs, hfit, hlen, hdrop, List.prefix_take_iff.mpr ⟨hkeep, by omega⟩⟩
  | truncate d index =>
      show index = marks (records (fs'.file d).data)
      rw [(hown d rfl).1]
      exact h
  | sync d index =>
      obtain ⟨rs, hfit, hindex, hdata, hcov⟩ := h
      obtain ⟨hsame, hcover⟩ := hown d rfl
      refine ⟨rs, hfit, hindex, ?_, ?_⟩
      · rw [hsame, hdata]
      · rw [hino d _ 0 rfl rfl]
        exact hcover _ hcov
  | _ => trivial

end Mono

/-- What a constructor owns, it claims as an owner. -/
theorem CtorPc.claim_of_owned {pc : CtorPc} {d : Did} (p : Pid) (h : pc.owned = some d) :
    pc.claim p = some ⟨p, d, .owner⟩ := by
  cases pc with
  | openAppend => cases h
  | openRead => cases h
  | lock d' => cases h
  | stat d' owner =>
      cases owner with
      | false => cases h
      | true =>
          cases h
          rfl
  | scan d' owner size =>
      cases owner with
      | false => cases h
      | true =>
          cases h
          rfl
  | truncate d' index =>
      cases h
      rfl
  | sync d' index =>
      cases h
      rfl

theorem CtorPc.desc_of_owned {pc : CtorPc} {d : Did} (h : pc.owned = some d) :
    pc.desc = some d := by
  have hclaim : (StorePc.ctor ⟨[], [], false, false, []⟩ pc).claim 0 = some ⟨0, d, .owner⟩ :=
    claim_of_owned 0 h
  exact (StorePc.claim_desc hclaim).1

namespace World

structure Logged (s : World) : Prop where
  numbered : s.fs.Numbered
  acked : ∀ name i start b, .acked name i start b ∈ s.history →
    i < s.fs.nextIno ∧ (s.fs.files i).Every fun d => Held d start b
  askedHandle : ∀ hd ∈ s.handles, hd.asked ⊆ s.history
  askedOp : ∀ st ∈ s.stores, st.pc.asked ⊆ s.history
  handle : ∀ hd ∈ s.handles, hd.Logged s.fs s.history
  ctor : ∀ (k : Sid) (st : Store) (o : Opening) (pc : CtorPc), s.stores[k]? = some st →
    st.pc = .ctor o pc → pc.Logged s.fs s.history o

/-- What a constructor is about to scan, if the path names it, is what it has open. -/
def ScansOpen (path : Name → List Char) (s : World) : Prop :=
  ∀ (k : Sid) (st : Store) (o : Opening) (d : Did) (owner : Bool) (size i : Nat),
    s.stores[k]? = some st → st.pc = .ctor o (.scan d owner size) →
    (s.fs.dir (path o.name)).cur = some i → i = s.fs.ino d

variable {s t : World} {k : Sid} {h : Hid} {st st' : Store} {hd hd' : Handle}
  {out : Outcome} {a : Act}

/-- The same batches are acknowledged, and nothing that happened is forgotten. -/
structure SameAcked (hist hist' : List Event) : Prop where
  sub : hist ⊆ hist'
  acked : ∀ name i start b, .acked name i start b ∈ hist' → .acked name i start b ∈ hist

theorem SameAcked.refl (hist : List Event) : SameAcked hist hist :=
  ⟨fun _ hmem => hmem, fun _ _ _ _ hmem => hmem⟩

theorem SameAcked.cons {hist : List Event} {e : Event}
    (he : ∀ name i start b, e ≠ .acked name i start b) : SameAcked hist (e :: hist) := by
  refine ⟨List.subset_cons_self e hist, ?_⟩
  intro name i start b hmem
  rcases List.mem_cons.mp hmem with heq | hmem
  · exact absurd heq.symm (he name i start b)
  · exact hmem

theorem SameAcked.covered {hist hist' : List Event} (h : SameAcked hist hist') {i n : Nat}
    (hc : Covered hist i n) : Covered hist' i n :=
  fun name start b hmem => hc name start b (h.acked name i start b hmem)

namespace Logged

theorem init (disk : Disk) : (World.init disk).Logged :=
  ⟨.ofDisk disk.dir_lt, fun _ _ _ _ hmem => absurd hmem List.not_mem_nil,
    fun _ hmem => absurd hmem List.not_mem_nil, fun _ hmem => absurd hmem List.not_mem_nil,
    fun _ hmem => absurd hmem List.not_mem_nil,
    fun _ _ _ _ hk => absurd hk (by simp [World.init])⟩

/-- The files that are open, and those with acknowledged batches, are unchanged. -/
theorem handle_grows (hl : s.Logged) (hs : s.Ok) {fs : LockFs (List Char) UInt8}
    {hist : List Event} (hgrow : s.fs.Grows fs) (hhist : SameAcked s.history hist)
    (hget : s.handles[h]? = some hd) : hd.Logged fs hist := by
  have hmem := List.mem_of_getElem? hget
  have hfile : ∀ d, hd.file = some d → fs.file d = s.fs.file d := fun d hfile =>
    hgrow.file hl.numbered (hs.lt_of_file hget hfile)
  refine (hl.handle hd hmem).mono (hl.askedHandle hd hmem) ?_ ?_ ?_
  · exact fun d hf => hgrow.ino d (hs.lt_of_file hget hf)
  · intro d hf
    rw [hfile d hf]
    exact .refl _ _ _
  · intro d hf _
    rw [hfile d hf]
    exact ⟨rfl, fun _ hc => hhist.covered hc⟩

theorem ctor_grows (hl : s.Logged) (hs : s.Ok) {fs : LockFs (List Char) UInt8}
    {hist : List Event} (hgrow : s.fs.Grows fs) (hhist : SameAcked s.history hist)
    (hk : s.stores[k]? = some st) {o : Opening} {pc : CtorPc} (hpc : st.pc = .ctor o pc) :
    pc.Logged fs hist o := by
  have hlt : ∀ d c, pc.claim st.pid = some c → c.did = d → d < s.fs.descs.length := by
    intro d c hc hdid
    have hclaim : s.claims (.op k) = some c := by
      rw [claims_op hk, hpc]
      exact hc
    exact hdid ▸ hs.lt_of_claim hclaim
  have hclaim : ∀ d c p, pc.claim p = some c → c.did = d → d < s.fs.descs.length := by
    intro d c p hc hdid
    have hctor : (StorePc.ctor o pc).claim p = some c := hc
    have hdesc := (StorePc.claim_desc hctor).1
    obtain ⟨c', hc', hdid', -⟩ := StorePc.claim_of_desc (p := st.pid) hdesc
    exact hlt d c' hc' (hdid'.trans hdid)
  have hasked := hl.askedOp st (List.mem_of_getElem? hk)
  rw [hpc] at hasked
  refine (hl.ctor k st o pc hk hpc).mono hasked ?_ ?_ ?_
  · exact fun d c p hc hdid => hgrow.ino d (hclaim d c p hc hdid)
  · intro d c p hc hdid
    rw [hgrow.file hl.numbered (hclaim d c p hc hdid)]
    exact .refl _ _ _
  · intro d hown
    rw [hgrow.file hl.numbered (hlt d _ (CtorPc.claim_of_owned st.pid hown) rfl)]
    exact ⟨rfl, fun _ hc => hhist.covered hc⟩

theorem acked_grows (hl : s.Logged) {fs : LockFs (List Char) UInt8} {hist : List Event}
    (hgrow : s.fs.Grows fs) (hhist : SameAcked s.history hist) :
    ∀ name i start b, .acked name i start b ∈ hist →
      i < fs.nextIno ∧ (fs.files i).Every fun d => Held d start b := by
  intro name i start b hmem
  obtain ⟨hi, hheld⟩ := hl.acked name i start b (hhist.acked name i start b hmem)
  rw [hgrow.files i hi]
  exact ⟨Nat.lt_of_lt_of_le hi hgrow.nextIno, hheld⟩

/-- Store `k` goes on, and no file that is open changes. -/
theorem ofSet (hl : s.Logged) (hs : s.Ok) (hk : s.stores[k]? = some st)
    (hstores : t.stores = s.stores.set k st') (hhandles : t.handles = s.handles)
    (hhist : SameAcked s.history t.history) (hgrow : s.fs.Grows t.fs) (hnum : t.fs.Numbered)
    (hasked : st'.pc.asked ⊆ t.history)
    (hctor : ∀ o pc, st'.pc = .ctor o pc → pc.Logged t.fs t.history o) : t.Logged := by
  refine ⟨hnum, hl.acked_grows hgrow hhist, ?_, ?_, ?_, ?_⟩
  · intro hd hmem
    rw [hhandles] at hmem
    exact List.Subset.trans (hl.askedHandle hd hmem) hhist.sub
  · intro st₀ hmem
    rw [hstores] at hmem
    rcases List.mem_or_eq_of_mem_set hmem with hmem | rfl
    · exact List.Subset.trans (hl.askedOp st₀ hmem) hhist.sub
    · exact hasked
  · intro hd hmem
    rw [hhandles] at hmem
    obtain ⟨h, hget⟩ := List.mem_iff_getElem?.mp hmem
    exact hl.handle_grows hs hgrow hhist hget
  · intro j st₀ o pc hj hpc
    rw [hstores] at hj
    rcases List.getElem?_set_cases hj with ⟨rfl, rfl⟩ | ⟨-, hj⟩
    · exact hctor o pc hpc
    · exact hl.ctor_grows hs hgrow hhist hj hpc

/-! ### Writing a file -/

/-- What the owner `v` of a file writes, other variables do not notice. -/
theorem handle_write (hl : s.Logged) (hs : s.Ok) {v : Var} {c : Claim} (hv : s.claims v = some c)
    (hrole : c.role = .owner) {f : CrashFile UInt8} {hist : List Event}
    (hkept : Kept s.history (s.fs.ino c.did) (s.fs.file c.did).data f.data)
    (hnew : ∀ name i start b, .acked name i start b ∈ hist →
      .acked name i start b ∈ s.history ∨ i = s.fs.ino c.did)
    (hget : s.handles[h]? = some hd) (hne : v ≠ .handle h) :
    hd.Logged (s.fs.setFile (s.fs.ino c.did) f) hist := by
  have hmem := List.mem_of_getElem? hget
  refine (hl.handle hd hmem).mono (hl.askedHandle hd hmem) (fun _ _ => rfl) ?_ ?_
  · exact fun d _ => hkept.setFile d
  · intro d hfile hw
    -- a handle that may write is the only owner of its file
    have hino : s.fs.ino d ≠ s.fs.ino c.did := fun heq =>
      hne (hs.owner_unique hv (claims_writable hget hw hfile) hrole rfl heq.symm)
    refine ⟨by rw [LockFs.file_setFile_of_ne hino], fun n hc => hc.of_ne hino hnew⟩

theorem ctor_write (hl : s.Logged) (hs : s.Ok) {v : Var} {c : Claim} (hv : s.claims v = some c)
    (hrole : c.role = .owner) {f : CrashFile UInt8} {hist : List Event}
    (hkept : Kept s.history (s.fs.ino c.did) (s.fs.file c.did).data f.data)
    (hnew : ∀ name i start b, .acked name i start b ∈ hist →
      .acked name i start b ∈ s.history ∨ i = s.fs.ino c.did)
    (hk : s.stores[k]? = some st) {o : Opening} {pc : CtorPc} (hpc : st.pc = .ctor o pc)
    (hne : v ≠ .op k) : pc.Logged (s.fs.setFile (s.fs.ino c.did) f) hist o := by
  have hasked := hl.askedOp st (List.mem_of_getElem? hk)
  rw [hpc] at hasked
  refine (hl.ctor k st o pc hk hpc).mono hasked (fun _ _ _ _ _ => rfl) ?_ ?_
  · exact fun d _ _ _ _ => hkept.setFile d
  · intro d hown
    have hclaim : s.claims (.op k) = some ⟨st.pid, d, .owner⟩ := by
      rw [claims_op hk, hpc]
      exact CtorPc.claim_of_owned st.pid hown
    have hino : s.fs.ino d ≠ s.fs.ino c.did := fun heq =>
      hne (hs.owner_unique hv hclaim hrole rfl heq.symm)
    refine ⟨by rw [LockFs.file_setFile_of_ne hino], fun n hc => hc.of_ne hino hnew⟩

theorem acked_write (hl : s.Logged) {i : Nat} {f : CrashFile UInt8} {hist : List Event}
    (hi : i < s.fs.nextIno)
    (hnew : ∀ name j start b, .acked name j start b ∈ hist →
      .acked name j start b ∈ s.history ∨ j = i)
    (hevery : ∀ name start b, .acked name i start b ∈ hist → f.Every fun d => Held d start b) :
    ∀ name j start b, .acked name j start b ∈ hist →
      j < (s.fs.setFile i f).nextIno ∧
        ((s.fs.setFile i f).files j).Every fun d => Held d start b := by
  intro name j start b hmem
  by_cases hj : j = i
  · subst hj
    rw [LockFs.files_setFile_self]
    exact ⟨hi, hevery name start b hmem⟩
  · rw [LockFs.files_setFile_of_ne hj]
    rcases hnew name j start b hmem with hmem | heq
    · exact hl.acked name j start b hmem
    · exact absurd heq hj

/-- The batches in a file are covered by the records found there. -/
theorem covered (hl : s.Logged) (d : Did) :
    Covered s.history (s.fs.ino d) (records (s.fs.file d).data).length :=
  .of_held fun name start b hmem => (hl.acked name _ start b hmem).2.data

/-- The batch that a call acknowledges is behind the records that were indexed. -/
theorem held_of_ackedBy {g f : CrashFile UInt8} {w : Writer} {fate : Option Fate}
    {rs b : List Bytes} {name : Name} {i j start : Nat} (hok : hd.w.Ok g.data rs)
    (hw : Writer.Step g hd.w f w fate) (hmem : .acked name i start b ∈ ackedBy hd j fate) :
    i = j ∧ start = rs.length ∧ start + b.length ≤ (Writer.Ok.after rs hd.w.pc fate).length ∧
      f.Every fun d => Held d start b := by
  cases fate with
  | none => cases hmem
  | some x =>
      cases x with
      | rolledBack => cases hmem
      | torn => cases hmem
      | returned next =>
          obtain ⟨b', hb', hnext, rfl, hdata⟩ := hok.returned hw
          have heq := List.mem_singleton.mp hmem
          simp only [hb', Option.getD_some, Event.acked.injEq] at heq
          obtain ⟨-, rfl, rfl, rfl⟩ := heq
          have hfits : Fits (rs ++ b) := by
            have hfits' := (hok.step hw).fits
            rwa [Writer.Ok.after, hb'] at hfits'
          have hstart : next - b.length = rs.length := by omega
          refine ⟨rfl, hstart, ?_, .sync ?_⟩
          · rw [Writer.Ok.after, hb', Option.getD_some, List.length_append, hstart]
          · refine ⟨rs ++ b, hfits, ?_, ?_, ?_⟩
            · rw [hstart, List.length_append]
            · rw [hstart, List.drop_left]
            · rw [hdata]

/-- An append in progress makes its next call. -/
theorem io (hl : s.Logged) (hs : s.Ok) (hget : s.handles[h]? = some hd) {d : Did}
    {f : CrashFile UInt8} {w : Writer} {fate : Option Fate} (hfile : hd.file = some d)
    (hw : Writer.Step (s.fs.file d) hd.w f w fate) :
    Logged { s with
      fs := s.fs.setFile (s.fs.ino d) f
      handles := s.handles.set h { hd with w := w }
      history := ackedBy hd (s.fs.ino d) fate ++ s.history } := by
  have hmem := List.mem_of_getElem? hget
  have hwritable := Ok.writable_of_io (hs.handle hget) hw
  have hclaim := claims_writable hget hwritable hfile
  obtain ⟨hwrite, hserve⟩ := hl.handle hd hmem d hfile
  obtain ⟨rs, hok, hcover⟩ := hwrite hwritable
  have hok' := hok.step hw
  have hgrow := Writer.Ok.isPrefix_after rs hd.w.pc fate
  have hkept : Kept s.history (s.fs.ino d) (s.fs.file d).data f.data :=
    .of_covered hok.fits hok.isPrefix ((frames_mono hgrow).trans hok'.isPrefix) hcover
  -- the batch that this call acknowledges, if any
  have hnew : ∀ name i start b,
      .acked name i start b ∈ ackedBy hd (s.fs.ino d) fate ++ s.history →
      .acked name i start b ∈ s.history ∨ (i = s.fs.ino d ∧ start = rs.length ∧
        start + b.length ≤ (Writer.Ok.after rs hd.w.pc fate).length ∧
        f.Every fun d => Held d start b) := by
    intro name i start b hmem
    rcases List.mem_append.mp hmem with hmem | hmem
    · exact .inr (held_of_ackedBy hok hw hmem)
    · exact .inl hmem
  have hnew' : ∀ name i start b,
      .acked name i start b ∈ ackedBy hd (s.fs.ino d) fate ++ s.history →
      .acked name i start b ∈ s.history ∨ i = s.fs.ino d :=
    fun name i start b hmem => (hnew name i start b hmem).imp_right And.left
  have hsub : s.history ⊆ ackedBy hd (s.fs.ino d) fate ++ s.history :=
    List.subset_append_right _ _
  refine ⟨?_, ?_, ?_, ?_, ?_, ?_⟩
  · exact hl.numbered.of_dir rfl (fun _ => rfl) rfl hl.numbered.entry
  · refine hl.acked_write (hl.numbered.desc d (hs.lt_of_file hget hfile)) hnew' ?_
    intro name start b hmem
    rcases hnew name _ start b hmem with hmem | ⟨-, -, -, hevery⟩
    · obtain ⟨-, hheld⟩ := hl.acked name _ start b hmem
      obtain ⟨rs₀, hfit, hlen, hdrop, hframes⟩ := hheld.data
      have hle : rs₀.length ≤ rs.length := hlen ▸ hcover name start b hmem
      refine hok.every (fun _ _ hpre hheld => hheld.mono hpre) ?_ hheld hw
      exact ⟨rs₀, hfit, hlen, hdrop,
        frames_mono (isPrefix_of_frames hfit hok.fits hframes hok.isPrefix hle)⟩
    · exact hevery
  · intro hd₀ hmem₀
    rcases List.mem_or_eq_of_mem_set hmem₀ with hmem₀ | rfl
    · exact List.Subset.trans (hl.askedHandle hd₀ hmem₀) hsub
    · exact List.Subset.trans (hl.askedHandle hd hmem) hsub
  · exact fun st hst => List.Subset.trans (hl.askedOp st hst) hsub
  · intro hd₀ hmem₀
    obtain ⟨j, hj⟩ := List.mem_iff_getElem?.mp hmem₀
    rcases List.getElem?_set_cases hj with ⟨rfl, rfl⟩ | ⟨hjh, hj⟩
    · intro e he
      have hed : e = d := Option.some.inj (he.symm.trans hfile)
      subst hed
      rw [LockFs.file_setFile_self]
      refine ⟨fun _ => ⟨_, hok', ?_⟩, ?_⟩
      · intro name start b hmem
        rcases hnew name _ start b hmem with hmem | ⟨-, -, hle, -⟩
        · exact Nat.le_trans (hcover name start b hmem) hgrow.length_le
        · exact hle
      · intro start b hmem₁
        have hname : w.name = hd.w.name := by cases hw <;> rfl
        have hmem₁ : Event.acked hd.w.name (s.fs.ino e) start b ∈ hd.asked := by
          rw [← hname]
          exact hmem₁
        obtain ⟨rs₀, hfit, hlen, hdrop, hframes, hmarks⟩ := hserve start b hmem₁
        refine ⟨rs₀, hfit, hlen, hdrop, ?_, hmarks.trans (Writer.Ok.index_isPrefix hw)⟩
        exact hkept _ start b (hl.askedHandle hd hmem hmem₁) rs₀ hfit hlen hframes
    · refine hl.handle_write hs hclaim rfl hkept hnew' hj ?_
      intro heq
      cases heq
      exact hjh rfl
  · intro k st o pc hk hpc
    exact hl.ctor_write hs hclaim rfl hkept hnew' hk hpc (by simp)

/-- The constructor in Store `k` writes the file it owns. -/
theorem ctorWrite (hl : s.Logged) (hs : s.Ok) (hk : s.stores[k]? = some st) {d : Did}
    {f : CrashFile UInt8} (hclaim : st.pc.claim st.pid = some ⟨st.pid, d, .owner⟩)
    (hstores : t.stores = s.stores.set k st') (hhist : t.history = s.history)
    (hfs : t.fs = s.fs.setFile (s.fs.ino d) f)
    (hkept : Kept s.history (s.fs.ino d) (s.fs.file d).data f.data)
    (hevery : ∀ name start b, .acked name (s.fs.ino d) start b ∈ s.history →
      f.Every fun d => Held d start b)
    (hasked : st'.pc.asked ⊆ s.history)
    (hctor : ∀ o pc, st'.pc = .ctor o pc → pc.Logged t.fs s.history o)
    (hhandle : ∀ hd ∈ t.handles, hd ∈ s.handles ∨ hd.asked ⊆ s.history ∧ hd.Logged t.fs s.history) :
    t.Logged := by
  have hop : s.claims (.op k) = some ⟨st.pid, d, .owner⟩ := by rw [claims_op hk, hclaim]
  have hnew : ∀ name i start b, .acked name i start b ∈ s.history →
      .acked name i start b ∈ s.history ∨ i = s.fs.ino d := fun _ _ _ _ hmem => .inl hmem
  refine ⟨?_, ?_, ?_, ?_, ?_, ?_⟩
  · rw [hfs]
    exact hl.numbered.of_dir rfl (fun _ => rfl) rfl hl.numbered.entry
  · rw [hfs, hhist]
    exact hl.acked_write (hl.numbered.desc d (hs.lt_of_claim hop)) hnew hevery
  · intro hd hmem
    rw [hhist]
    rcases hhandle hd hmem with hmem | ⟨hsub, -⟩
    · exact hl.askedHandle hd hmem
    · exact hsub
  · intro st₀ hmem
    rw [hstores] at hmem
    rw [hhist]
    rcases List.mem_or_eq_of_mem_set hmem with hmem | rfl
    · exact hl.askedOp st₀ hmem
    · exact hasked
  · intro hd hmem
    rw [hhist]
    rcases hhandle hd hmem with hmem | ⟨-, hlogged⟩
    · obtain ⟨j, hj⟩ := List.mem_iff_getElem?.mp hmem
      rw [hfs]
      exact hl.handle_write hs hop rfl hkept hnew hj (by simp)
    · exact hlogged
  · intro j st₀ o pc hj hpc
    rw [hstores] at hj
    rw [hhist]
    rcases List.getElem?_set_cases hj with ⟨rfl, rfl⟩ | ⟨hjk, hj⟩
    · exact hctor o pc hpc
    · rw [hfs]
      refine hl.ctor_write hs hop rfl hkept hnew hj hpc ?_
      intro heq
      cases heq
      exact hjk rfl

/-! ### All steps -/

/-- Store `k` goes on without a constructor, and no file that is open changes. -/
theorem quiet (hl : s.Logged) (hs : s.Ok) (hk : s.stores[k]? = some st)
    (hstores : t.stores = s.stores.set k st') (hhandles : t.handles = s.handles)
    (hhist : t.history = s.history) (hgrow : s.fs.Grows t.fs) (hnum : t.fs.Numbered)
    (hasked : st'.pc.asked ⊆ st.pc.asked) (hquiet : ∀ o pc, st'.pc ≠ .ctor o pc) : t.Logged := by
  refine hl.ofSet hs hk hstores hhandles (hhist ▸ .refl _) hgrow hnum ?_
    fun o pc hpc => absurd hpc (hquiet o pc)
  rw [hhist]
  exact List.Subset.trans hasked (hl.askedOp st (List.mem_of_getElem? hk))

theorem fail (hl : s.Logged) (hs : s.Ok) (hk : s.stores[k]? = some st) (e : Error) :
    (s.fail k st e).Logged :=
  hl.quiet hs hk (stores_fail s k st e) (handles_fail s k st e) (history_fail s k st e)
    (grows_closeDesc s _ _) (numbered_closeDesc s _ _ hl.numbered) (List.nil_subset _)
    fun _ _ hpc => by cases hpc

/-- The constructor in Store `k` goes on, and no file that is open changes. -/
theorem constructs (hl : s.Logged) (hs : s.Ok) (hk : s.stores[k]? = some st) {o : Opening}
    {pc pc' : CtorPc} (hpc : st.pc = .ctor o pc)
    (hstores : t.stores = s.stores.set k { st with pc := .ctor o pc' })
    (hhandles : t.handles = s.handles) (hhist : t.history = s.history)
    (hgrow : s.fs.Grows t.fs) (hnum : t.fs.Numbered) (hnew : pc'.Logged t.fs s.history o) :
    t.Logged := by
  have hasked := hl.askedOp st (List.mem_of_getElem? hk)
  rw [hpc] at hasked
  refine hl.ofSet hs hk hstores hhandles (hhist ▸ .refl _) hgrow hnum ?_ ?_
  · rw [hhist]
    exact hasked
  · intro o' pc'' heq
    rw [hhist]
    cases heq
    exact hnew

/-- A handle that was scanned serves what is in the file. -/
theorem scanned (hl : s.Logged) (hk : s.stores[k]? = some st) {o : Opening} {d : Did}
    {owner : Bool} {size : Nat} (hpc : st.pc = .ctor o (.scan d owner size))
    (hend : owner = true → lastMark (scan (s.fs.file d).data size) = size) :
    (s.openedStream k st o d owner (scan (s.fs.file d).data size)).Logged := by
  have hasked := hl.askedOp st (List.mem_of_getElem? hk)
  rw [hpc] at hasked
  obtain ⟨hsize, hheld⟩ := hl.ctor k st o _ hk hpc
  refine ⟨hl.numbered, hl.acked, ?_, ?_, ?_, ?_⟩
  · intro hd hmem
    rcases List.mem_append.mp hmem with hmem | hmem
    · exact hl.askedHandle hd hmem
    · rw [List.mem_singleton.mp hmem]
      exact hasked
  · intro st₀ hmem
    rcases List.mem_or_eq_of_mem_set hmem with hmem | rfl
    · exact hl.askedOp st₀ hmem
    · cases hcreated : o.created <;> exact List.nil_subset _
  · intro hd hmem
    rcases List.mem_append.mp hmem with hmem | hmem
    · exact hl.handle hd hmem
    · rw [List.mem_singleton.mp hmem]
      intro e he
      cases he
      refine ⟨?_, ?_⟩
      · intro hw
        have howner : owner = true := by simpa [Handle.writable] using hw
        have hlen := hsize howner
        have hscan : scan (s.fs.file d).data size = marks (records (s.fs.file d).data) := by
          rw [hlen, scan_length]
        have hall : (s.fs.file d).data = frames (records (s.fs.file d).data) := by
          have hmark := hend howner
          rw [hscan, lastMark_marks, hlen] at hmark
          exact ((frames_records_isPrefix _).eq_of_length hmark).symm
        refine ⟨records (s.fs.file d).data, ⟨Fits.records _, hscan, ?_⟩, hl.covered d⟩
        exact ⟨frames_records_isPrefix _, fun _ => hall⟩
      · intro start b hmem₁
        rw [scan_eq]
        have htake := List.take_prefix size (s.fs.file d).data
        exact (hheld start b hmem₁).serves.mono htake
  · intro j st₀ o' pc hj hpc'
    have hcases : (s.stores.set k _)[j]? = some st₀ := hj
    rcases List.getElem?_set_cases hcases with ⟨rfl, rfl⟩ | ⟨-, hj⟩
    · cases hcreated : o.created <;> simp [hcreated] at hpc'
    · exact hl.ctor j st₀ o' pc hj hpc'

theorem ctorStep {path : Name → List Char} (hl : s.Logged) (hs : s.Ok)
    (hk : s.stores[k]? = some st) {o : Opening} {pc : CtorPc} (hpc : st.pc = .ctor o pc)
    (hscan : ∀ d owner size i, pc = .scan d owner size →
      (s.fs.dir (path o.name)).cur = some i → i = s.fs.ino d)
    (hstep : CtorStep path s k st out o pc t) : t.Logged := by
  have hasked : o.asked ⊆ s.history := by
    have hsub := hl.askedOp st (List.mem_of_getElem? hk)
    rwa [hpc] at hsub
  have hclaim : st.pc.claim st.pid = pc.claim st.pid := by
    rw [hpc]
    rfl
  cases hstep with
  | failed _ e => exact hl.fail hs hk e
  | opened => exact hl.constructs hs hk hpc rfl rfl rfl .openCreate hl.numbered.openCreate trivial
  | denied => exact hl.constructs hs hk hpc rfl rfl rfl (.refl _) hl.numbered trivial
  | openedRead i hcur =>
      have hi := (hl.numbered.entry (path o.name)).cur i hcur
      exact hl.constructs hs hk hpc rfl rfl rfl .openFile (hl.numbered.openFile hi) trivial
  | locked d hok hcan =>
      exact hl.constructs hs hk hpc rfl rfl rfl (.of_eq rfl rfl rfl)
        (hl.numbered.of_dir rfl (fun _ => rfl) rfl hl.numbered.entry) trivial
  | blocked d hcan => exact hl.constructs hs hk hpc rfl rfl rfl (.refl _) hl.numbered trivial
  | lockDenied d => exact hl.constructs hs hk hpc rfl rfl rfl .close hl.numbered.close trivial
  | stat d owner =>
      refine hl.constructs hs hk hpc rfl rfl rfl (.refl _) hl.numbered ⟨fun _ => rfl, ?_⟩
      intro start b hmem
      show Held ((s.fs.file d).data.take (s.fs.file d).data.length) start b
      rw [List.take_length]
      exact (hl.acked _ _ start b (hasked hmem)).2.data
  | torn d size i hcur hne =>
      have hi := hscan d true size i rfl hcur
      subst hi
      refine hl.constructs hs hk hpc rfl rfl rfl (.refl _) hl.numbered ?_
      have hsize := (hl.ctor k st o _ hk hpc).1 rfl
      show scan (s.fs.file d).data size = marks (records (s.fs.file d).data)
      rw [hsize, scan_length]
  | scanned d owner size i hcur hend =>
      have hi := hscan d owner size i rfl hcur
      subst hi
      exact hl.scanned hk hpc hend
  | cut d index =>
      have hindex : index = marks (records (s.fs.file d).data) := hl.ctor k st o _ hk hpc
      obtain ⟨hlast, hle, hdata⟩ := recovered_cut hindex
      have hpre := frames_records_isPrefix (s.fs.file d).data
      refine hl.ctorWrite hs hk hclaim rfl rfl rfl ?_ ?_ hasked ?_ fun hd hmem => .inl hmem
      · rw [hdata]
        exact .of_covered (Fits.records _) hpre (List.prefix_refl _) (hl.covered d)
      · intro name start b hmem
        have hheld := (hl.acked name _ start b hmem).2
        exact hheld.truncate hle fun n hn => hheld.data.take (hlast ▸ hn)
      · intro o' pc' heq
        cases heq
        refine ⟨_, Fits.records _, hindex, ?_, hl.covered d⟩
        rw [← hdata]
        exact congrArg CrashFile.data LockFs.file_setFile_self
  | synced d index =>
      obtain ⟨rs, hfit, hindex, hdata, hcover⟩ := hl.ctor k st o _ hk hpc
      refine hl.ctorWrite (t := (s.setFs _).openedStream k st o d true index) hs hk hclaim rfl rfl
        rfl (.refl _ _ _) ?_ ?_ ?_ ?_
      · exact fun name start b hmem => .sync (hl.acked name _ start b hmem).2.data
      · cases hcreated : o.created <;> exact List.nil_subset _
      · intro o' pc' heq
        cases hcreated : o.created <;> simp [hcreated] at heq
      · intro hd hmem
        rcases List.mem_append.mp hmem with hmem | hmem
        · exact .inl hmem
        · rw [List.mem_singleton.mp hmem]
          refine .inr ⟨hasked, ?_⟩
          intro e he
          cases he
          have hfile :
              ((s.fs.setFile (s.fs.ino d) (s.fs.file d).sync).file d).data = frames rs := by
            rw [LockFs.file_setFile_self, ← hdata]
            rfl
          refine ⟨fun _ => ⟨rs, ⟨hfit, hindex, ?_⟩, hcover⟩, ?_⟩
          · show frames rs <+: ((s.fs.setFile (s.fs.ino d) (s.fs.file d).sync).file d).data ∧ _
            rw [hfile]
            exact ⟨List.prefix_refl _, fun _ => hfile⟩
          · intro start b hmem₁
            have hheld := (hl.acked _ _ start b (hasked hmem₁)).2.data
            have hserves : Serves (marks (records (s.fs.file d).data)) (s.fs.file d).data start b :=
              hheld.serves
            rw [hdata, records_frames hfit, ← hindex] at hserves
            show Serves index ((s.fs.setFile (s.fs.ino d) (s.fs.file d).sync).file d).data start b
            rw [hfile]
            exact hserves

/-- Handles are closed or go to another process as readers, and no file changes. -/
theorem ofHandles (hl : s.Logged) (hs : s.Ok) (hgrow : s.fs.Grows t.fs) (hnum : t.fs.Numbered)
    (hhist : t.history = s.history)
    (hhandles : ∀ hd' ∈ t.handles, hd'.asked ⊆ s.history ∧ (hd'.file = none ∨
      ∃ (h : Hid) (hd : Handle), s.handles[h]? = some hd ∧ (hd' = hd ∨ hd'.writable = false ∧
        hd'.file = hd.file ∧ hd'.w.name = hd.w.name ∧ hd'.w.index = hd.w.index ∧
        hd'.asked = hd.asked)))
    (hstores : ∀ st' ∈ t.stores, st'.pc.asked ⊆ s.history ∧ ((∀ o pc, st'.pc ≠ .ctor o pc) ∨
      st' ∈ s.stores)) : t.Logged := by
  have hsame : SameAcked s.history t.history := hhist ▸ .refl _
  refine ⟨hnum, hl.acked_grows hgrow hsame, ?_, ?_, ?_, ?_⟩
  · rw [hhist]
    exact fun hd hmem => (hhandles hd hmem).1
  · rw [hhist]
    exact fun st hmem => (hstores st hmem).1
  · intro hd' hmem
    rcases (hhandles hd' hmem).2 with hnone | ⟨h, hd, hget, hcases⟩
    · intro d hfile
      rw [hnone] at hfile
      cases hfile
    · have hlogged := hl.handle_grows hs hgrow hsame hget
      rcases hcases with rfl | ⟨hw, hfile, hname, hindex, hasked⟩
      · exact hlogged
      · intro d hd₀
        rw [hfile] at hd₀
        refine ⟨fun hw' => absurd hw' (by rw [hw]; simp), ?_⟩
        rw [hname, hindex, hasked]
        exact (hlogged d hd₀).2
  · intro k st' o pc hk hpc
    rcases (hstores st' (List.mem_of_getElem? hk)).2 with hquiet | hmem
    · exact absurd hpc (hquiet o pc)
    · obtain ⟨j, hj⟩ := List.mem_iff_getElem?.mp hmem
      exact hl.ctor_grows hs hgrow hsame hj hpc

theorem closeFds (hl : s.Logged) (hs : s.Ok) (hget : s.handles[h]? = some hd)
    (hstores : t.stores = s.stores.set k st')
    (hhandles : t.handles = (s.closeFds h hd).handles) (hfs : t.fs = (s.closeFds h hd).fs)
    (hhist : t.history = s.history) (hasked : st'.pc.asked = [])
    (hquiet : ∀ o pc, st'.pc ≠ .ctor o pc) : t.Logged := by
  have hset : t.handles = s.handles.set h hd.closeFds := by rw [hhandles, handles_closeFds]
  have hgrow : s.fs.Grows t.fs := hfs ▸ grows_closeDesc s hd.pid hd.file
  have hnum : t.fs.Numbered := hfs ▸ numbered_closeDesc s hd.pid hd.file hl.numbered
  refine hl.ofHandles hs hgrow hnum hhist ?_ ?_
  · intro hd' hmem
    rw [hset] at hmem
    rcases List.mem_or_eq_of_mem_set hmem with hmem | rfl
    · obtain ⟨j, hj⟩ := List.mem_iff_getElem?.mp hmem
      exact ⟨hl.askedHandle hd' hmem, .inr ⟨j, hd', hj, .inl rfl⟩⟩
    · exact ⟨hl.askedHandle hd (List.mem_of_getElem? hget), .inl rfl⟩
  · intro st₀ hmem
    rw [hstores] at hmem
    rcases List.mem_or_eq_of_mem_set hmem with hmem | rfl
    · exact ⟨hl.askedOp st₀ hmem, .inr hmem⟩
    · rw [hasked]
      exact ⟨List.nil_subset _, .inl hquiet⟩

/-- What a method does after the unlink, it was asked before it. -/
theorem asked_purged {name : Name} {why : Purpose} {removed : Option Bool} :
    (purged name why removed).asked ⊆ (StorePc.probe name why).asked := by
  cases removed with
  | none => exact List.nil_subset _
  | some removed =>
      cases why with
      | create contentType asked => exact fun _ hmem => hmem
      | delete own =>
          cases own with
          | some h => exact List.nil_subset _
          | none => cases removed <;> exact List.nil_subset _

theorem asked_unlinked {name : Name} {why : Purpose} {guard : Option Did}
    {removed : Option Bool} :
    (unlinked name why guard removed).asked ⊆ (StorePc.unlink name why guard).asked := by
  cases guard with
  | some d => cases why <;> exact fun _ hmem => hmem
  | none =>
      have hsame : (StorePc.probe name why).asked = (StorePc.unlink name why none).asked := by
        cases why <;> rfl
      exact hsame ▸ asked_purged

theorem sysStep {path : Name → List Char} (hl : s.Logged) (hs : s.Ok)
    (hk : s.stores[k]? = some st)
    (hscan : ∀ o d owner size i, st.pc = .ctor o (.scan d owner size) →
      (s.fs.dir (path o.name)).cur = some i → i = s.fs.ino d)
    (hstep : SysStep path s k st out st.pc t) : t.Logged := by
  have hnum := hl.numbered
  have hop := hl.askedOp st (List.mem_of_getElem? hk)
  generalize hpc : st.pc = pc at hstep
  have hasked : st.pc.asked = pc.asked := by rw [hpc]
  cases hstep with
  | failed _ e _ _ _ => exact hl.fail hs hk e
  | found name given row hmeta hrow =>
      refine hl.ofSet hs hk rfl rfl (.refl _) (.refl _) hnum (fun _ hmem => hmem) ?_
      intro o pc heq
      cases heq
      trivial
  | missing name given hmeta hrow =>
      refine hl.ofSet hs hk rfl rfl (.refl _) (.refl _) hnum (fun _ hmem => hmem) ?_
      intro o pc heq
      cases heq
  | probed name why i hcur =>
      have hi := (hnum.entry (path name)).cur i hcur
      refine hl.quiet hs hk rfl rfl rfl .openFile (hnum.openFile hi) ?_ fun o pc heq => by cases heq
      rw [hasked]
      cases why <;> exact fun _ hmem => hmem
  | noLog name why hcur =>
      refine hl.quiet hs hk rfl rfl rfl (.refl _) hnum ?_ fun o pc heq => by cases heq
      rw [hasked]
      cases why <;> exact fun _ hmem => hmem
  | guarded name why d hcan =>
      refine hl.quiet hs hk rfl rfl rfl (.of_eq rfl rfl rfl)
        (hnum.of_dir rfl (fun _ => rfl) rfl hnum.entry) ?_ fun o pc heq => by cases heq
      rw [hasked]
      cases why <;> exact fun _ hmem => hmem
  | unlinked name why guard i hok hcur =>
      refine hl.quiet hs hk rfl rfl rfl (.of_eq rfl rfl rfl) hnum.unlink ?_
        fun o pc heq => absurd heq (unlinked_ne_ctor o pc)
      rw [hasked]
      exact asked_unlinked
  | kept name why guard removed hkept =>
      refine hl.quiet hs hk rfl rfl rfl (.refl _) hnum ?_
        fun o pc heq => absurd heq (unlinked_ne_ctor o pc)
      rw [hasked]
      exact asked_unlinked
  | released name why d removed =>
      refine hl.quiet hs hk rfl rfl rfl .close hnum.close ?_
        (purged_ne_ctor name why (some removed))
      have hsame : (StorePc.probe name why).asked =
          (StorePc.closeGuard name why d (some removed)).asked := by
        cases why <;> rfl
      rw [hasked, ← hsame]
      show (purged name why (some removed)).asked ⊆ _
      exact asked_purged
  | raised name why d =>
      exact hl.quiet hs hk rfl rfl rfl .close hnum.close (List.nil_subset _)
        fun o pc heq => by cases heq
  | inserted name contentType asked hok hrow =>
      have hcons : SameAcked s.history (.inserted name s.fs.nextIno :: s.history) :=
        .cons fun _ _ _ _ heq => by cases heq
      refine hl.ofSet hs hk rfl rfl hcons (.refl _) hnum ?_ ?_
      · rw [hasked] at hop
        exact List.Subset.trans hop hcons.sub
      · intro o pc heq
        cases heq
        trivial
  | ctor o pc _ hctor =>
      refine hl.ctorStep hs hk hpc ?_ hctor
      intro d owner size i heq hcur
      exact hscan o d owner size i (heq ▸ hpc) hcur
  | dirSynced h =>
      exact hl.quiet hs hk rfl rfl rfl (.of_eq rfl rfl rfl) hnum.syncDir (List.nil_subset _)
        fun o pc heq => by cases heq
  | delClosed name h removed hd hget hfree =>
      refine hl.closeFds hs hget (by rw [← stores_closeFds s h hd]; rfl) rfl rfl ?_ ?_ ?_
      · exact history_closeFds s h hd
      · cases removed <;> rfl
      · intro o pc heq
        cases removed <;> cases heq
  | delDirSynced name =>
      exact hl.quiet hs hk rfl rfl rfl (.of_eq rfl rfl rfl) hnum.syncDir (List.nil_subset _)
        fun o pc heq => by cases heq
  | deleted name =>
      exact hl.quiet hs hk rfl rfl rfl (.refl _) hnum (List.nil_subset _)
        fun o pc heq => by cases heq
  | closing h streams hd hget hfree =>
      have hstores : ((s.closeFds h hd).goto k st (.closing streams)).stores =
          s.stores.set k { st with pc := .closing streams } := by
        rw [← stores_closeFds s h hd]
        rfl
      exact hl.closeFds hs hget hstores rfl rfl (history_closeFds s h hd) rfl
        fun o pc heq => by cases heq
  | closed =>
      exact hl.quiet hs hk rfl rfl rfl (.refl _) hnum (List.nil_subset _)
        fun o pc heq => by cases heq

theorem callStep (hl : s.Logged) (hs : s.Ok) (hk : s.stores[k]? = some st)
    (hstep : CallStep s k st a t) : t.Logged := by
  have hnum := hl.numbered
  cases hstep with
  | done r =>
      exact hl.quiet hs hk rfl rfl rfl (.refl _) hnum (List.nil_subset _)
        fun o pc heq => by cases heq
  | lookup name given hnone =>
      exact hl.quiet hs hk rfl rfl rfl (.refl _) hnum (List.nil_subset _)
        fun o pc heq => by cases heq
  | deleteOwn k' name h hd ha hopened hget hw =>
      exact hl.quiet hs hk rfl rfl rfl (.refl _) hnum (List.nil_subset _)
        fun o pc heq => by cases heq
  | deleteOther k' name own ha hown =>
      exact hl.quiet hs hk rfl rfl rfl (.refl _) hnum (List.nil_subset _)
        fun o pc heq => by cases heq
  | close =>
      exact hl.quiet hs hk rfl rfl rfl (.refl _) hnum (List.nil_subset _)
        fun o pc heq => by cases heq

/-- A handle changes but for its index, its name and what it has open. -/
theorem setHandle (hl : s.Logged) (hget : s.handles[h]? = some hd)
    (hhandles : t.handles = s.handles.set h hd') (hstores : t.stores = s.stores)
    (hfs : t.fs = s.fs) (hhist : SameAcked s.history t.history) (hfile : hd'.file = hd.file)
    (hw : hd'.writable = hd.writable) (hname : hd'.w.name = hd.w.name)
    (hindex : hd'.w.index = hd.w.index) (hasked : hd'.asked = hd.asked)
    (hok : ∀ data rs, hd.w.Ok data rs → hd'.w.Ok data rs) : t.Logged := by
  have hmem := List.mem_of_getElem? hget
  have hlogged : ∀ hd₀ : Handle, hd₀.Logged s.fs s.history → hd₀.Logged t.fs t.history := by
    intro hd₀ hl₀ d hfile₀
    obtain ⟨hwrite, hserve⟩ := hl₀ d hfile₀
    rw [hfs]
    refine ⟨?_, hserve⟩
    intro hw₀
    obtain ⟨rs, hrs, hcover⟩ := hwrite hw₀
    exact ⟨rs, hrs, hhist.covered hcover⟩
  refine ⟨hfs ▸ hl.numbered, ?_, ?_, ?_, ?_, ?_⟩
  · intro name i start b hmem₀
    rw [hfs]
    exact hl.acked name i start b (hhist.acked name i start b hmem₀)
  · intro hd₀ hmem₀
    rw [hhandles] at hmem₀
    rcases List.mem_or_eq_of_mem_set hmem₀ with hmem₀ | rfl
    · exact List.Subset.trans (hl.askedHandle hd₀ hmem₀) hhist.sub
    · rw [hasked]
      exact List.Subset.trans (hl.askedHandle hd hmem) hhist.sub
  · intro st hst
    rw [hstores] at hst
    exact List.Subset.trans (hl.askedOp st hst) hhist.sub
  · intro hd₀ hmem₀
    rw [hhandles] at hmem₀
    rcases List.mem_or_eq_of_mem_set hmem₀ with hmem₀ | rfl
    · exact hlogged hd₀ (hl.handle hd₀ hmem₀)
    · have hold := hlogged hd (hl.handle hd hmem)
      intro d hd₁
      rw [hfile] at hd₁
      obtain ⟨hwrite, hserve⟩ := hold d hd₁
      rw [hw, hname, hindex, hasked]
      refine ⟨?_, hserve⟩
      intro hw₁
      obtain ⟨rs, hrs, hcover⟩ := hwrite hw₁
      exact ⟨rs, hok _ _ hrs, hcover⟩
  · intro k st o pc hk hpc
    rw [hstores] at hk
    have hc := hl.ctor k st o pc hk hpc
    rw [hfs]
    cases pc with
    | sync d index =>
        obtain ⟨rs, hfit, hindex, hdata, hcover⟩ := hc
        exact ⟨rs, hfit, hindex, hdata, hhist.covered hcover⟩
    | _ => exact hc

theorem handleStep (hl : s.Logged) (hs : s.Ok) (hget : s.handles[h]? = some hd)
    (hstep : HandleStep s h hd a t) : t.Logged := by
  cases hstep with
  | refused => exact hl
  | started payloads w hfree hbegin =>
      obtain ⟨-, -, -, -, -, hw⟩ := Writer.begin_started hbegin
      have hok : ∀ data rs, hd.w.Ok data rs → w.Ok data rs := by
        intro data rs hok
        exact Writer.Ok.begin (f := .ofDisk data) hok hfree.1 hbegin
      subst hw
      exact hl.setHandle hget rfl rfl rfl (.refl _) rfl rfl rfl rfl rfl hok
  | io d f w fate hfile hw hret => exact hl.io hs hget hfile hw
  | closing hfree hw =>
      exact hl.setHandle hget rfl rfl rfl (.refl _) rfl rfl rfl rfl rfl fun _ _ hok => hok
  | updated d rows hclosing hfile hrows =>
      refine hl.setHandle hget rfl rfl rfl (.cons fun _ _ _ _ heq => by cases heq) rfl rfl rfl rfl
        rfl ?_
      intro data rs hok
      exact hok.close ((hs.handle hget).atRest hclosing)
  | updateFailed hclosing =>
      exact hl.setHandle hget rfl rfl rfl (.refl _) rfl rfl rfl rfl rfl fun _ _ hok => hok

theorem forkStep {p : Pid} (hl : s.Logged) (hs : s.Ok) : (s.forkStep p).Logged := by
  refine hl.ofHandles hs .fork hl.numbered.fork rfl ?_ ?_
  · intro hd' hmem
    rcases List.mem_append.mp hmem with hmem | hmem
    · obtain ⟨h, hget⟩ := List.mem_iff_getElem?.mp hmem
      exact ⟨hl.askedHandle hd' hmem, .inr ⟨h, hd', hget, .inl rfl⟩⟩
    · obtain ⟨hd, hmem₀, rfl⟩ := List.mem_map.mp hmem
      obtain ⟨h, hget⟩ := List.mem_iff_getElem?.mp hmem₀
      split
      · exact ⟨hl.askedHandle hd hmem₀, .inr ⟨h, hd, hget,
          .inr ⟨(hs.handle hget).not_writable_forked, rfl, rfl, rfl, rfl⟩⟩⟩
      · exact ⟨hl.askedHandle hd hmem₀, .inl rfl⟩
  · intro st' hmem
    rcases List.mem_append.mp hmem with hmem | hmem
    · exact ⟨hl.askedOp st' hmem, .inr hmem⟩
    · obtain ⟨st, -, rfl⟩ := List.mem_map.mp hmem
      split
      · simp only [Store.forked]
        split <;> exact ⟨List.nil_subset _, .inl fun o pc heq => by cases heq⟩
      · exact ⟨List.nil_subset _, .inl fun o pc heq => by cases heq⟩

theorem exitStep {p : Pid} (hl : s.Logged) (hs : s.Ok) : (s.exitStep p).Logged := by
  refine hl.ofHandles hs .exit hl.numbered.exit rfl ?_ ?_
  · intro hd' hmem
    obtain ⟨hd, hmem₀, rfl⟩ := List.mem_map.mp hmem
    obtain ⟨h, hget⟩ := List.mem_iff_getElem?.mp hmem₀
    split
    · exact ⟨hl.askedHandle hd hmem₀, .inl rfl⟩
    · exact ⟨hl.askedHandle hd hmem₀, .inr ⟨h, hd, hget, .inl rfl⟩⟩
  · intro st' hmem
    obtain ⟨st, hmem₀, rfl⟩ := List.mem_map.mp hmem
    split
    · exact ⟨List.nil_subset _, .inl fun o pc heq => by cases heq⟩
    · exact ⟨hl.askedOp st hmem₀, .inr hmem₀⟩

theorem powerLoss (hl : s.Logged) (cell : List Char → Nat) (loss : Nat → LockFs.Loss) :
    Logged { s with
      fs := s.fs.powerLoss cell loss
      stores := s.stores.map Store.gone
      handles := s.handles.map Handle.gone
      live := [] } := by
  refine ⟨hl.numbered.powerLoss cell loss, ?_, ?_, ?_, ?_, ?_⟩
  · intro name i start b hmem
    obtain ⟨hi, hheld⟩ := hl.acked name i start b hmem
    exact ⟨hi, hheld.powerLoss _ _ _⟩
  · intro hd' hmem
    obtain ⟨hd, hmem₀, rfl⟩ := List.mem_map.mp hmem
    exact hl.askedHandle hd hmem₀
  · intro st' hmem
    obtain ⟨st, -, rfl⟩ := List.mem_map.mp hmem
    exact List.nil_subset _
  · intro hd' hmem
    obtain ⟨hd, -, rfl⟩ := List.mem_map.mp hmem
    exact fun d hfile => by cases hfile
  · intro k st' o pc hk hpc
    obtain ⟨st, -, rfl⟩ := List.mem_map.mp (List.mem_of_getElem? hk)
    cases hpc

/-- Every step keeps the invariant, while constructors scan what they have open. -/
theorem step {path : Name → List Char} (hl : s.Logged) (hs : s.Ok)
    (hscan : s.ScansOpen path) (hstep : Step path s a t) : t.Logged := by
  cases hstep with
  | spawn => exact ⟨hl.numbered, hl.acked, hl.askedHandle, hl.askedOp, hl.handle, hl.ctor⟩
  | newStore p hlive =>
      refine hl.ofHandles hs (.refl _) hl.numbered rfl ?_ ?_
      · intro hd hmem
        obtain ⟨h, hget⟩ := List.mem_iff_getElem?.mp hmem
        exact ⟨hl.askedHandle hd hmem, .inr ⟨h, hd, hget, .inl rfl⟩⟩
      · intro st hmem
        rcases List.mem_append.mp hmem with hmem | hmem
        · exact ⟨hl.askedOp st hmem, .inr hmem⟩
        · rw [List.mem_singleton.mp hmem]
          exact ⟨List.nil_subset _, .inl fun o pc heq => by cases heq⟩
  | call a k st t hk hidle hcall => exact hl.callStep hs hk hcall
  | sys k st out t hk hsys =>
      exact hl.sysStep hs hk (fun o d owner size i => hscan k st o d owner size i hk) hsys
  | handle a h hd t hget hhandle => exact hl.handleStep hs hget hhandle
  | fork p hlive => exact hl.forkStep hs
  | exit p hlive => exact hl.exitStep hs
  | powerLoss cell loss => exact hl.powerLoss cell loss

/-- A handle on the file serves what was acknowledged before its row was looked up,
and all that was acknowledged if it may write. -/
theorem serves (hl : s.Logged) (hmem : hd ∈ s.handles) {d : Did} (hfile : hd.file = some d)
    {start : Nat} {b : List Bytes}
    (hacked : .acked hd.w.name (s.fs.ino d) start b ∈ s.history)
    (hknown : hd.writable = true ∨ .acked hd.w.name (s.fs.ino d) start b ∈ hd.asked) :
    Serves hd.w.index (s.fs.file d).data start b := by
  obtain ⟨hwrite, hserve⟩ := hl.handle hd hmem d hfile
  rcases hknown with hw | hasked
  · obtain ⟨rs, hok, hcover⟩ := hwrite hw
    obtain ⟨rs₀, hfit, hlen, hdrop, hframes⟩ := (hl.acked _ _ start b hacked).2.data
    have hle : rs₀.length ≤ rs.length := hlen ▸ hcover _ start b hacked
    refine ⟨rs₀, hfit, hlen, hdrop, hframes, ?_⟩
    rw [hok.index]
    exact marks_mono (isPrefix_of_frames hfit hok.fits hframes hok.isPrefix hle)
  · exact hserve start b hasked

end Logged

end World

end Durastream
