import Durastream.Store.Claims
import Durastream.Store.Opens
import Durastream.Stream.Machine

/-!
# Who writes a log

The files change in three places: the calls of an append, the repair of a torn tail by
`_recover`, and `open(path, "a+b")`, which may make an empty one.  A call of an append is
made through a handle that may write, and a repair by a constructor that has the lock, so
whoever changes a file that is there holds its lock, and nobody else does
(`World.step_written`).

It follows that a handle that may write has the log to itself.  Whatever other Stores
and processes do meanwhile, and if they fork, exit, delete the stream or make it again,
what becomes of the file and of the handle is a run of the one log of `LogState`, by the
appends and the calls of this handle alone (`World.writer_alone`).
-/

namespace Durastream

/-- The step is one of the variable's own. -/
def Var.takes : Var → Act → Bool
  | .handle h, .io h' _ => h = h'
  | .op k, .sys k' _ => k = k'
  | _, _ => false

/-- The event acknowledges a batch in file `i`. -/
def Event.isAckOf (i : Nat) : Event → Bool
  | .acked _ j _ _ => j = i
  | _ => false

namespace World

/-- What step `a` does to file `i`. -/
inductive Written (s : World) (a : Act) (i : Nat) (f f' : CrashFile UInt8) : Prop where
  | same : f' = f → Written s a i f f'
  /-- A new file. -/
  | created : i = s.fs.nextIno → f'.data = [] → Written s a i f f'
  /-- The owner of the file has written it. -/
  | owner (v : Var) (c : Claim) :
      v.takes a = true → s.claims v = some c → c.role = .owner → s.fs.ino c.did = i →
      Written s a i f f'

variable {path : Name → List Char} {s t : World} {k : Sid} {h : Hid} {st : Store}
  {hd hd' : Handle} {out : Outcome} {a : Act} {i : Nat} {d : Did}

/-! ## Changes of a file -/

/-- A variable that owns an open file replaces its contents. -/
theorem Written.ofSet {fs : LockFs (List Char) UInt8} {v : Var} {c : Claim}
    {f : CrashFile UInt8} (htakes : v.takes a = true) (hclaim : s.claims v = some c)
    (hrole : c.role = .owner)
    (hfiles : fs.files i = (s.fs.setFile (s.fs.ino c.did) f).files i) :
    s.Written a i (s.fs.files i) (fs.files i) := by
  by_cases hi : i = s.fs.ino c.did
  · exact .owner v c htakes hclaim hrole hi.symm
  · exact .same (by rw [hfiles, LockFs.files_setFile_of_ne hi])

/-- The constructor of a Store changes the file that it has locked. -/
theorem ctorStep_written {o : Opening} {pc : CtorPc} (hk : s.stores[k]? = some st)
    (hpc : st.pc = .ctor o pc) (hstep : CtorStep path s k st out o pc t) :
    s.Written (.sys k out) i (s.fs.files i) (t.fs.files i) := by
  have hclaim : s.claims (.op k) = pc.claim st.pid := by rw [claims_op hk, hpc]; rfl
  have htakes : (Var.op k).takes (.sys k out) = true := by simp [Var.takes]
  cases hstep with
  | failed pc e =>
      refine .same ?_
      show (s.closeDesc st.pid st.pc.desc).fs.files i = _
      rw [files_closeDesc]
  | opened =>
      have hfiles : (s.fs.openCreate st.pid (path o.name)).files i = s.fs.files i ∨
          i = s.fs.nextIno ∧ ((s.fs.openCreate st.pid (path o.name)).files i).data = [] :=
        LockFs.files_openCreate i
      rcases hfiles with heq | ⟨hi, hempty⟩
      · exact .same heq
      · exact .created hi hempty
  | cut d index => exact .ofSet htakes hclaim rfl rfl
  | synced d index => exact .ofSet htakes hclaim rfl rfl
  | _ => exact .same rfl

/-! ## Calls on a handle -/

/-- A call on handle `h` with the world and the handle that it leaves. -/
inductive Turn (s : World) (h : Hid) (hd : Handle) : Act → World → Handle → Prop where
  | refused (payloads : List Bytes) :
      hd.Free → (∀ w, hd.w.begin hd.writable hd.file.isSome payloads ≠ .started w) →
      Turn s h hd (.append h payloads) s hd
  | started (payloads : List Bytes) (w : Writer) :
      hd.Free → hd.w.begin hd.writable hd.file.isSome payloads = .started w →
      Turn s h hd (.append h payloads) (s.setHandle h { hd with w := w }) { hd with w := w }
  | io (x : IoAct) (d : Did) (f : CrashFile UInt8) (w : Writer) (fate : Option Fate) :
      hd.file = some d → hd.w.step (s.fs.file d) x = some (f, w, fate) →
      Turn s h hd (.io h x)
        { s with
          fs := s.fs.setFile (s.fs.ino d) f
          handles := s.handles.set h { hd with w := w }
          history := ackedBy hd (s.fs.ino d) fate ++ s.history }
        { hd with w := w }
  | locked : hd.Free → Turn s h hd (.close h) s hd
  | closing :
      hd.Free → Turn s h hd (.close h) (s.setHandle h { hd with closing := true })
        { hd with closing := true }
  | updated (ok : Bool) (rows : Table Name Row) (rs : List Bytes) :
      hd.closing = true →
      Turn s h hd (.update h ok)
        { s with
          rows := rows
          handles := s.handles.set h { hd with w := { hd.w with closed := true }, closing := false }
          history := .closed hd.w.name rs :: s.history }
        { hd with w := { hd.w with closed := true }, closing := false }
  | updateFailed (ok : Bool) :
      hd.closing = true →
      Turn s h hd (.update h ok) (s.setHandle h { hd with closing := false })
        { hd with closing := false }

theorem handleStep_turn (hon : a.onHandle = true) (hstep : s.step path a = some t) :
    ∃ h hd hd', s.handles[h]? = some hd ∧ Turn s h hd a t hd' := by
  cases a with
  | append h payloads =>
      obtain ⟨hd, hget, hstep⟩ := Option.bind_eq_some_iff.mp hstep
      simp only [handleStep] at hstep
      split at hstep
      · next hfree =>
          split at hstep
          · next w hbegin =>
              cases hstep
              exact ⟨h, hd, _, hget, .started payloads w hfree hbegin⟩
          · next hnot =>
              cases hstep
              exact ⟨h, hd, hd, hget, .refused payloads hfree hnot⟩
      · cases hstep
  | io h x =>
      obtain ⟨hd, hget, hstep⟩ := Option.bind_eq_some_iff.mp hstep
      simp only [handleStep] at hstep
      split at hstep
      · next d hfile =>
          split at hstep
          · next f w fate hw =>
              cases hstep
              exact ⟨h, hd, _, hget, .io x d f w fate hfile hw⟩
          · cases hstep
      · cases hstep
  | close h =>
      obtain ⟨hd, hget, hstep⟩ := Option.bind_eq_some_iff.mp hstep
      simp only [handleStep] at hstep
      split at hstep
      · next hfree =>
          split at hstep
          · cases hstep
            exact ⟨h, hd, _, hget, .closing hfree⟩
          · cases hstep
            exact ⟨h, hd, _, hget, .locked hfree⟩
      · cases hstep
  | update h ok =>
      obtain ⟨hd, hget, hstep⟩ := Option.bind_eq_some_iff.mp hstep
      simp only [handleStep] at hstep
      split at hstep
      · next hclosing =>
          split at hstep
          · cases hstep
            exact ⟨h, hd, _, hget, .updated _ _ _ hclosing⟩
          · cases hstep
            exact ⟨h, hd, _, hget, .updateFailed _ hclosing⟩
      · cases hstep
  | _ => cases hon

/-- The handle that the call leaves; the others stay as they are. -/
theorem Turn.handles (hturn : Turn s h hd a t hd') (hget : s.handles[h]? = some hd) :
    t.handles[h]? = some hd' ∧ ∀ j, j ≠ h → t.handles[j]? = s.handles[j]? := by
  have hlt := (List.getElem?_eq_some_iff.mp hget).1
  have hset : ∀ hd₁ : Handle, (s.handles.set h hd₁)[h]? = some hd₁ ∧
      ∀ j, j ≠ h → (s.handles.set h hd₁)[j]? = s.handles[j]? := fun hd₁ =>
    ⟨List.getElem?_set_self hlt, fun j hj => List.getElem?_set_ne (Ne.symm hj)⟩
  cases hturn with
  | refused payloads hfree hnot => exact ⟨hget, fun _ _ => rfl⟩
  | locked hfree => exact ⟨hget, fun _ _ => rfl⟩
  | _ => exact hset _

/-- A call neither opens nor closes the file. -/
theorem Turn.keeps (hturn : Turn s h hd a t hd') :
    hd'.writable = hd.writable ∧ hd'.file = hd.file ∧ t.fs.descs = s.fs.descs := by
  cases hturn with
  | _ => exact ⟨rfl, rfl, rfl⟩

/-- Only a handle that may write is in the middle of an append. -/
theorem Ok.writable_of_step (hs : s.Ok) (hget : s.handles[h]? = some hd)
    {f f' : CrashFile UInt8} {w : Writer} {x : IoAct} {fate : Option Fate}
    (hw : hd.w.step f x = some (f', w, fate)) : hd.writable = true :=
  writable_of_io (hs.handle hget) (Writer.step_cases hw)

/-- Whoever changes a file that is there owns it. -/
theorem step_written (hs : s.Ok) (hstep : s.step path a = some t)
    (hpower : a.isPowerLoss = false) : s.Written a i (s.fs.files i) (t.fs.files i) := by
  have hclosed : ∀ {p : Pid} {file : Option Did},
      s.Written a i (s.fs.files i) ((s.closeDesc p file).fs.files i) := by
    intro p file
    rw [files_closeDesc]
    exact .same rfl
  cases step_cases hstep with
  | call a k st t hk hidle hcall => cases hcall <;> exact .same rfl
  | sys k st out t hk hsys =>
      generalize hpc : st.pc = pc at hsys
      cases hsys with
      | failed _ e _ _ _ => exact hclosed
      | ctor o pc _ hctor => exact ctorStep_written hk hpc hctor
      | delClosed name h removed hd hget hfree => exact hclosed
      | closing h streams hd hget hfree => exact hclosed
      | _ => exact .same rfl
  | handle a h hd t hget hhandle hon =>
      obtain ⟨h, hd, hd', hget, hturn⟩ := handleStep_turn hon hstep
      cases hturn with
      | io x d f w fate hfile hw =>
          have hclaim := claims_writable hget (hs.writable_of_step hget hw) hfile
          exact .ofSet (by simp [Var.takes]) hclaim rfl rfl
      | _ => exact .same rfl
  | powerLoss cell loss => cases hpower
  | _ => exact .same rfl

/-! ## What stays of a handle -/

/-- A step of handle `h` as one of a single log. -/
def ownAct (h : Hid) : Act → Option LogAct
  | .append h' payloads => if h' = h then some (.append payloads) else none
  | .io h' x => if h' = h then some (.io x) else none
  | _ => none

theorem not_writable_closeFds (hd : Handle) : hd.closeFds.writable = false := rfl

theorem not_writable_gone (hd : Handle) : hd.gone.writable = false := rfl

theorem ownAct_of_onStore (h : Hid) (hon : a.onStore = true) : ownAct h a = none := by
  cases a <;> first | rfl | cases hon

/-- A handle stays as it is, a call is made on it, or it may not write any more. -/
theorem step_handle (hstep : s.step path a = some t) (hget : s.handles[h]? = some hd) :
    ∃ hd', t.handles[h]? = some hd' ∧
      (hd'.writable = false ∨ Turn s h hd a t hd' ∨ hd' = hd ∧ ownAct h a = none) := by
  have hlt := (List.getElem?_eq_some_iff.mp hget).1
  have hset : ∀ {j : Hid} {hj : Handle},
      ∃ hd', (s.handles.set j hj.closeFds)[h]? = some hd' ∧
        (hd'.writable = false ∨ hd' = hd) := by
    intro j hj
    by_cases hjh : j = h
    · subst hjh
      exact ⟨_, List.getElem?_set_self hlt, .inl (not_writable_closeFds hj)⟩
    · exact ⟨hd, by rw [List.getElem?_set_ne hjh, hget], .inr rfl⟩
  cases step_cases hstep with
  | spawn => exact ⟨hd, hget, .inr (.inr ⟨rfl, rfl⟩)⟩
  | newStore p hlive => exact ⟨hd, hget, .inr (.inr ⟨rfl, rfl⟩)⟩
  | call a k st t hk hidle hcall hon =>
      have hown := ownAct_of_onStore h hon
      cases hcall <;> exact ⟨hd, hget, .inr (.inr ⟨rfl, hown⟩)⟩
  | sys k st out t hk hsys =>
      suffices hgoal : ∃ hd', t.handles[h]? = some hd' ∧ (hd'.writable = false ∨ hd' = hd) by
        obtain ⟨hd', hget', hlost | heq⟩ := hgoal
        · exact ⟨hd', hget', .inl hlost⟩
        · exact ⟨hd', hget', .inr (.inr ⟨heq, rfl⟩)⟩
      have happend : ∀ hd₁ : Handle, (s.handles ++ [hd₁])[h]? = some hd := by
        intro hd₁
        rw [List.getElem?_append_left hlt, hget]
      generalize st.pc = pc at hsys
      cases hsys with
      | failed _ e _ _ _ => exact ⟨hd, by rw [handles_fail, hget], .inr rfl⟩
      | ctor o pc _ hctor =>
          cases hctor with
          | failed _ e => exact ⟨hd, by rw [handles_fail, hget], .inr rfl⟩
          | scanned d owner size i hcur hwhole => exact ⟨hd, happend _, .inr rfl⟩
          | synced d index => exact ⟨hd, happend _, .inr rfl⟩
          | _ => exact ⟨hd, hget, .inr rfl⟩
      | delClosed name j removed hj hgetj hfree =>
          show ∃ hd', (s.closeFds j hj).handles[h]? = some hd' ∧ _
          rw [handles_closeFds]
          exact hset
      | closing j streams hj hgetj hfree =>
          show ∃ hd', (s.closeFds j hj).handles[h]? = some hd' ∧ _
          rw [handles_closeFds]
          exact hset
      | _ => exact ⟨hd, hget, .inr rfl⟩
  | handle a j hj t hgetj hhandle hon =>
      obtain ⟨j, hj, hj', hgetj, hturn⟩ := handleStep_turn hon hstep
      obtain ⟨hself, hother⟩ := hturn.handles hgetj
      by_cases hjh : h = j
      · subst hjh
        rw [hget] at hgetj
        cases hgetj
        exact ⟨hj', hself, .inr (.inl hturn)⟩
      · refine ⟨hd, by rw [hother h hjh, hget], .inr (.inr ⟨rfl, ?_⟩)⟩
        cases hturn <;> simp [ownAct, Ne.symm hjh]
  | fork p hlive =>
      refine ⟨hd, ?_, .inr (.inr ⟨rfl, rfl⟩)⟩
      show (s.handles ++ _)[h]? = some hd
      rw [List.getElem?_append_left hlt, hget]
  | exit p hlive =>
      refine ⟨if hd.pid = p then hd.gone else hd, ?_, ?_⟩
      · show (s.handles.map _)[h]? = _
        rw [List.getElem?_map, hget]
        rfl
      · split
        · exact .inl (not_writable_gone hd)
        · exact .inr (.inr ⟨rfl, rfl⟩)
  | powerLoss cell loss =>
      refine ⟨hd.gone, ?_, .inl (not_writable_gone hd)⟩
      show (s.handles.map _)[h]? = _
      rw [List.getElem?_map, hget]
      rfl

/-- A handle that may not write never may again. -/
theorem writable_before (hstep : s.step path a = some t) (hget : s.handles[h]? = some hd)
    (hget' : t.handles[h]? = some hd') (hw : hd'.writable = true) : hd.writable = true := by
  obtain ⟨hd₁, hget₁, hcases⟩ := step_handle hstep hget
  rw [hget'] at hget₁
  cases hget₁
  rcases hcases with hlost | hturn | ⟨rfl, -⟩
  · rw [hlost] at hw
    cases hw
  · rw [← hturn.keeps.1]
    exact hw
  · exact hw

theorem writable_throughout {acts : List Act} (hrun : Lts.run (World.step path) s acts = some t)
    (hget : s.handles[h]? = some hd) (hget' : t.handles[h]? = some hd')
    (hw : hd'.writable = true) : hd.writable = true := by
  induction acts generalizing s hd with
  | nil =>
      cases hrun
      rw [hget] at hget'
      cases hget'
      exact hw
  | cons a acts ih =>
      obtain ⟨u, hstep, hrun⟩ := Lts.run_cons_eq_some hrun
      obtain ⟨hd₁, hget₁, -⟩ := step_handle hstep hget
      exact writable_before hstep hget hget₁ (ih hrun hget₁)

theorem numbered_step (hn : s.fs.Numbered) (hstep : Step path s a t) : t.fs.Numbered := by
  have hdir : ∀ {q : List Char} {i : Nat}, (s.fs.dir q).cur = some i → i < s.fs.nextIno :=
    fun hcur => (hn.entry _).cur _ hcur
  have hset : ∀ {i : Nat} {f : CrashFile UInt8}, (s.fs.setFile i f).Numbered :=
    hn.of_dir rfl (fun _ => rfl) rfl hn.entry
  cases hstep with
  | call a k st t hk hidle hcall => cases hcall <;> exact hn
  | sys k st out t hk hsys =>
      generalize st.pc = pc at hsys
      cases hsys with
      | failed _ e _ _ _ => exact numbered_closeDesc s _ _ hn
      | probed name why i hcur => exact hn.openFile (hdir hcur)
      | guarded name why e hcan => exact hn.of_dir rfl (fun _ => rfl) rfl hn.entry
      | unlinked name why guard i hok hcur => exact hn.unlink
      | released name why e removed => exact hn.close
      | raised name why e => exact hn.close
      | ctor o pc _ hctor =>
          cases hctor with
          | failed _ e => exact numbered_closeDesc s _ _ hn
          | opened => exact hn.openCreate
          | openedRead i hcur => exact hn.openFile (hdir hcur)
          | locked e hok hcan => exact hn.of_dir rfl (fun _ => rfl) rfl hn.entry
          | lockDenied e => exact hn.close
          | cut e index => exact hset
          | synced e index => exact hset
          | _ => exact hn
      | dirSynced h => exact hn.syncDir
      | delClosed name h removed hj hget hfree => exact numbered_closeDesc s _ _ hn
      | delDirSynced name => exact hn.syncDir
      | closing h streams hj hget hfree => exact numbered_closeDesc s _ _ hn
      | _ => exact hn
  | handle a h hj t hget hhandle =>
      cases hhandle with
      | io e f w fate hfile hw hret => exact hset
      | _ => exact hn
  | fork p hlive => exact hn.fork
  | exit p hlive => exact hn.exit
  | powerLoss cell loss => exact hn.powerLoss cell loss
  | _ => exact hn

/-! ## The other steps -/

/-- The acknowledgements of batches in file `i`, newest first. -/
def acks (s : World) (i : Nat) : List Event := s.history.filter (Event.isAckOf i)

/-- Whoever is in an append on the file of a handle that may write is this handle. -/
theorem Ok.same_handle (hs : s.Ok) (hget : s.handles[h]? = some hd) (hw : hd.writable = true)
    (hfile : hd.file = some d) {v : Var} {c : Claim} (hv : s.claims v = some c)
    (hrole : c.role = .owner) (hino : s.fs.ino c.did = s.fs.ino d) : v = .handle h :=
  hs.owner_unique hv (claims_writable hget hw hfile) hrole rfl hino

/-- No other step changes the file of a handle that may write. -/
theorem others_file (hs : s.Ok) (hn : s.fs.Numbered) (hstep : s.step path a = some t)
    (hpower : a.isPowerLoss = false) (hget : s.handles[h]? = some hd)
    (hw : hd.writable = true) (hfile : hd.file = some d) (hnot : ∀ x, a ≠ .io h x) :
    t.fs.file d = s.fs.file d := by
  have hlt := hs.lt_of_file hget hfile
  rw [LockFs.file, step_ino (step_cases hstep) hlt]
  cases step_written (i := s.fs.ino d) hs hstep hpower with
  | same heq => exact heq
  | created hi hempty => exact absurd hi (Nat.ne_of_lt (hn.desc d hlt))
  | owner v c htakes hv hrole hino =>
      obtain rfl := hs.same_handle hget hw hfile hv hrole hino
      cases a with
      | io h' x =>
          obtain rfl : h = h' := by simpa [Var.takes] using htakes
          exact absurd rfl (hnot x)
      | _ => cases htakes

/-- Nor does it acknowledge a batch there. -/
theorem others_acks (hs : s.Ok) (hstep : s.step path a = some t)
    (hget : s.handles[h]? = some hd) (hw : hd.writable = true) (hfile : hd.file = some d)
    (hnot : ∀ x, a ≠ .io h x) : t.acks (s.fs.ino d) = s.acks (s.fs.ino d) := by
  obtain ⟨es, hhist, hadds⟩ := step_history (step_cases hstep)
  rw [acks, hhist, List.filter_append]
  suffices hnone : es.filter (Event.isAckOf (s.fs.ino d)) = [] by rw [hnone]; rfl
  cases hadds with
  | none => rfl
  | inserted k st name contentType asked hk hpc hrow => rfl
  | closed _ j hj e hgetj hfilej hclosing hon => rfl
  | acked j hj e start batch hgetj hfilej hpc =>
      have hwj : hj.writable = true := (hs.handle hgetj).busy (.inl (by rw [hpc]; simp))
      have hne : s.fs.ino e ≠ s.fs.ino d := by
        intro heq
        have hvar := hs.same_handle hget hw hfile (claims_writable hgetj hwj hfilej) rfl heq
        cases hvar
        exact hnot _ rfl
      simp [Event.isAckOf, hne]

/-- A handle that may write has seen no power loss. -/
theorem not_powerLoss (hstep : s.step path a = some t) (hget : s.handles[h]? = some hd)
    (hget' : t.handles[h]? = some hd') (hw : hd'.writable = true) : a.isPowerLoss = false := by
  cases a with
  | powerLoss cell loss =>
      cases hstep
      have hgone : (s.handles.map Handle.gone)[h]? = some hd' := hget'
      rw [List.getElem?_map, hget] at hgone
      cases hgone
      cases hw
  | _ => rfl

/-! ## One log -/

/-- The acknowledgement that an append on the log `name` in file `i` ends with. -/
def ackOf (name : Name) (i : Nat) : Attempt → Option Event
  | ⟨batch, .returned next⟩ => some (.acked name i (next - batch.length) batch)
  | _ => none

/-- The log of a handle on its own. -/
def logOf (s : World) (hd : Handle) (d : Did) : LogState :=
  ⟨hd.w.name, s.fs.file d, .live hd.w, [], []⟩

/-- In `s`, `l` is the log of the handle that was `hd` in `s₀`, but for the closed flag,
which is `closed` in `l`. -/
structure Tracks (s₀ : World) (hd₀ : Handle) (h : Hid) (d : Did) (s : World) (closed : Bool)
    (hd : Handle) (l : LogState) : Prop where
  get : s.handles[h]? = some hd
  writable : hd.writable = true
  file : hd.file = some d
  name : hd.w.name = hd₀.w.name
  ino : s.fs.ino d = s₀.fs.ino d
  log : l.file = s.fs.file d
  owner : l.owner = .live { hd.w with closed := closed }
  acks : s.acks (s₀.fs.ino d) =
    l.attempts.filterMap (ackOf hd₀.w.name (s₀.fs.ino d)) ++ s₀.acks (s₀.fs.ino d)

theorem filterMap_ended (hd : Handle) (i : Nat) (fate : Option Fate) :
    (LogState.ended hd.w.pc fate).filterMap (ackOf hd.w.name i) = ackedBy hd i fate := by
  cases fate with
  | none => rfl
  | some fate => cases fate <;> rfl

theorem filter_ackedBy (hd : Handle) (i : Nat) (fate : Option Fate) (es : List Event) :
    (ackedBy hd i fate ++ es).filter (Event.isAckOf i) =
      ackedBy hd i fate ++ es.filter (Event.isAckOf i) := by
  cases fate with
  | none => rfl
  | some fate => cases fate <;> simp [ackedBy, Event.isAckOf]

namespace Tracks

variable {s₀ : World} {hd₀ : Handle} {closed closed' : Bool} {l l' : LogState}

/-- No call of an append is made on the handle. -/
theorem others (htr : Tracks s₀ hd₀ h d s closed hd l) (hs : s.Ok) (hn : s.fs.Numbered)
    (hstep : s.step path a = some t) (hget' : t.handles[h]? = some hd')
    (hw' : hd'.writable = true) (hnot : ∀ x, a ≠ .io h x) (hfile' : hd'.file = hd.file)
    (hname : hd'.w.name = hd.w.name) (hlog : l'.file = l.file)
    (hattempts : l'.attempts = l.attempts)
    (howner : l'.owner = .live { hd'.w with closed := closed' }) :
    Tracks s₀ hd₀ h d t closed' hd' l' := by
  have hpower := not_powerLoss hstep htr.get hget' hw'
  have hino := step_ino (step_cases hstep) (hs.lt_of_file htr.get htr.file)
  have hacks := others_acks hs hstep htr.get htr.writable htr.file hnot
  refine ⟨hget', hw', hfile'.trans htr.file, hname.trans htr.name, hino.trans htr.ino, ?_,
    howner, ?_⟩
  · rw [hlog, htr.log, others_file hs hn hstep hpower htr.get htr.writable htr.file hnot]
  · rw [← htr.ino, hacks, hattempts, htr.ino, htr.acks]

/-- A call of an append, in the world and in the single log. -/
theorem io (htr : Tracks s₀ hd₀ h d s hd.w.closed hd l)
    {x : IoAct} {f : CrashFile UInt8} {w : Writer} {fate : Option Fate}
    (hw : hd.w.step (s.fs.file d) x = some (f, w, fate)) :
    ∃ l', l.step (.io x) = some l' ∧
      Tracks s₀ hd₀ h d { s with
        fs := s.fs.setFile (s.fs.ino d) f
        handles := s.handles.set h { hd with w := w }
        history := ackedBy hd (s.fs.ino d) fate ++ s.history }
        w.closed { hd with w := w } l' := by
  have howner : l.owner = .live hd.w := htr.owner
  have hlt := (List.getElem?_eq_some_iff.mp htr.get).1
  have hname : w.name = hd.w.name := (Writer.step_cases hw).name
  refine ⟨{ l with
    file := f
    owner := .live w
    attempts := LogState.ended hd.w.pc fate ++ l.attempts }, ?_, ?_⟩
  · simp only [LogState.step, howner, htr.log, hw]
  · refine ⟨List.getElem?_set_self hlt, htr.writable, htr.file, hname.trans htr.name, htr.ino,
      ?_, rfl, ?_⟩
    · show f = (s.fs.setFile (s.fs.ino d) f).file d
      exact LockFs.file_setFile_self.symm
    · show (ackedBy hd (s.fs.ino d) fate ++ s.history).filter (Event.isAckOf (s₀.fs.ino d)) =
        (LogState.ended hd.w.pc fate ++ l.attempts).filterMap
          (ackOf hd₀.w.name (s₀.fs.ino d)) ++ s₀.acks (s₀.fs.ino d)
      rw [htr.ino, filter_ackedBy, ← htr.name, List.filterMap_append, filterMap_ended, htr.name,
        List.append_assoc, ← htr.acks]
      rfl

/-- A step of the world is one of the single log, or none there; or the handle is closed
by it. -/
theorem step (htr : Tracks s₀ hd₀ h d s hd.w.closed hd l) (hs : s.Ok) (hn : s.fs.Numbered)
    (hstep : s.step path a = some t) (hget' : t.handles[h]? = some hd')
    (hw' : hd'.writable = true) :
    (∃ l', Lts.run LogState.step l (ownAct h a).toList = some l' ∧
        Tracks s₀ hd₀ h d t hd'.w.closed hd' l') ∨
      hd'.w.closed = true ∧ hd'.w.pc = .idle ∧ ownAct h a = none ∧
        Tracks s₀ hd₀ h d t hd.w.closed hd' l := by
  have howner : l.owner = .live hd.w := htr.owner
  obtain ⟨hd₁, hget₁, hcases⟩ := step_handle hstep htr.get
  rw [hget'] at hget₁
  cases hget₁
  rcases hcases with hlost | hturn | ⟨rfl, hown⟩
  · rw [hlost] at hw'
    cases hw'
  · have hbegin : ∀ payloads, hd.w.begin hd.writable hd.file.isSome payloads =
        hd.w.begin true true payloads := by
      intro payloads
      rw [htr.writable, htr.file, Option.isSome_some]
    have hothers : (∀ x, a ≠ .io h x) → hd'.file = hd.file → hd'.w.name = hd.w.name →
        ∀ {closed : Bool}, l.owner = .live { hd'.w with closed := closed } →
        Tracks s₀ hd₀ h d t closed hd' l := fun hnot hfile' hname _ howner' =>
      htr.others hs hn hstep hget' hw' hnot hfile' hname rfl rfl howner'
    cases hturn with
    | refused payloads hfree hnot =>
        have hrefused : l.step (.append payloads) = some l := by
          have hnot' := hbegin payloads ▸ hnot
          simp only [LogState.step, howner, hfree.1, if_true]
        exact .inl ⟨l, by simp [ownAct, Lts.run, hrefused], htr⟩
    | started payloads w hfree hstarted =>
        have hbegun : l.step (.append payloads) = some { l with owner := .live w } := by
          simp only [LogState.step, howner, hfree.1, if_true, ← hbegin payloads, hstarted]
        have hname : w.name = hd.w.name := by rw [(Writer.begin_started hstarted).2.2.2.2.2]
        refine .inl ⟨{ l with owner := .live w }, by simp [ownAct, Lts.run, hbegun], ?_⟩
        exact htr.others hs hn hstep hget' hw' (by simp) rfl hname rfl rfl rfl
    | io x e f w fate hfile hw =>
        obtain rfl : d = e := Option.some.inj (htr.file.symm.trans hfile)
        obtain ⟨l', hstep', htr'⟩ := htr.io hw
        exact .inl ⟨l', by simp [ownAct, Lts.run, hstep'], htr'⟩
    | locked hfree => exact .inl ⟨l, rfl, htr⟩
    | closing hfree => exact .inl ⟨l, rfl, hothers (by simp) rfl rfl howner⟩
    | updated ok rows rs hclosing =>
        have hidle := (hs.handle htr.get).atRest hclosing
        exact .inr ⟨rfl, hidle, rfl, hothers (by simp) rfl rfl howner⟩
    | updateFailed ok hclosing => exact .inl ⟨l, rfl, hothers (by simp) rfl rfl howner⟩
  · refine .inl ⟨l, by rw [hown]; rfl, htr.others hs hn hstep hget' hw' ?_ rfl rfl rfl rfl howner⟩
    rintro x rfl
    simp [ownAct] at hown

/-- Nothing is appended through a closed handle. -/
theorem step_closed (htr : Tracks s₀ hd₀ h d s closed hd l) (hs : s.Ok) (hn : s.fs.Numbered)
    (hclosed : hd.w.closed = true) (hidle : hd.w.pc = .idle) (hstep : s.step path a = some t)
    (hget' : t.handles[h]? = some hd') (hw' : hd'.writable = true) :
    hd'.w.closed = true ∧ hd'.w.pc = .idle ∧ Tracks s₀ hd₀ h d t closed hd' l := by
  obtain ⟨hd₁, hget₁, hcases⟩ := step_handle hstep htr.get
  rw [hget'] at hget₁
  cases hget₁
  rcases hcases with hlost | hturn | ⟨rfl, hown⟩
  · rw [hlost] at hw'
    cases hw'
  · have hothers : (∀ x, a ≠ .io h x) → hd'.file = hd.file → hd'.w.name = hd.w.name →
        l.owner = .live { hd'.w with closed := closed } → Tracks s₀ hd₀ h d t closed hd' l :=
      fun hnot hfile' hname howner' =>
        htr.others hs hn hstep hget' hw' hnot hfile' hname rfl rfl howner'
    cases hturn with
    | refused payloads hfree hnot => exact ⟨hclosed, hidle, htr⟩
    | started payloads w hfree hstarted =>
        have hopen := (Writer.begin_started hstarted).1
        rw [hclosed] at hopen
        cases hopen
    | io x e f w fate hfile hw => exact absurd hidle (Writer.step_cases hw).busy
    | locked hfree => exact ⟨hclosed, hidle, htr⟩
    | closing hfree => exact ⟨hclosed, hidle, hothers (by simp) rfl rfl htr.owner⟩
    | updated ok rows rs hclosing =>
        exact ⟨rfl, hidle, hothers (by simp) rfl rfl htr.owner⟩
    | updateFailed ok hclosing =>
        exact ⟨hclosed, hidle, hothers (by simp) rfl rfl htr.owner⟩
  · refine ⟨hclosed, hidle, htr.others hs hn hstep hget' hw' ?_ rfl rfl rfl rfl htr.owner⟩
    rintro x rfl
    simp [ownAct] at hown

/-- What becomes of a closed handle and its log in a run. -/
theorem run_closed {acts : List Act} (htr : Tracks s₀ hd₀ h d s closed hd l) (hs : s.Ok)
    (hn : s.fs.Numbered) (hclosed : hd.w.closed = true) (hidle : hd.w.pc = .idle)
    (hrun : Lts.run (World.step path) s acts = some t) (hget' : t.handles[h]? = some hd')
    (hw' : hd'.writable = true) : hd'.w.closed = true ∧ Tracks s₀ hd₀ h d t closed hd' l := by
  induction acts generalizing s hd with
  | nil =>
      cases hrun
      rw [htr.get] at hget'
      cases hget'
      exact ⟨hclosed, htr⟩
  | cons a acts ih =>
      obtain ⟨u, hstep, hrun⟩ := Lts.run_cons_eq_some hrun
      obtain ⟨hd₁, hget₁, -⟩ := step_handle hstep htr.get
      have hcases := step_cases hstep
      have hw₁ := writable_throughout hrun hget₁ hget' hw'
      obtain ⟨hclosed₁, hidle₁, htr₁⟩ := htr.step_closed hs hn hclosed hidle hstep hget₁ hw₁
      exact ih htr₁ (hs.step hcases) (numbered_step hn hcases) hclosed₁ hidle₁ hrun

/-- A run of the world is one of the single log, up to the step that closes the handle. -/
theorem run {acts : List Act} (htr : Tracks s₀ hd₀ h d s hd.w.closed hd l) (hs : s.Ok)
    (hn : s.fs.Numbered) (hrun : Lts.run (World.step path) s acts = some t)
    (hget' : t.handles[h]? = some hd') (hw' : hd'.writable = true) :
    ∃ own l' closed, own <+: acts.filterMap (ownAct h) ∧
      (hd'.w.closed = false → own = acts.filterMap (ownAct h)) ∧
      Lts.run LogState.step l own = some l' ∧ Tracks s₀ hd₀ h d t closed hd' l' := by
  induction acts generalizing s hd l with
  | nil =>
      cases hrun
      rw [htr.get] at hget'
      cases hget'
      exact ⟨[], l, _, List.prefix_rfl, fun _ => rfl, rfl, htr⟩
  | cons a acts ih =>
      obtain ⟨u, hstep, hrun⟩ := Lts.run_cons_eq_some hrun
      obtain ⟨hd₁, hget₁, -⟩ := step_handle hstep htr.get
      have hcases := step_cases hstep
      have hok := hs.step hcases
      have hnum := numbered_step hn hcases
      have hw₁ := writable_throughout hrun hget₁ hget' hw'
      have hcons : (a :: acts).filterMap (ownAct h) =
          (ownAct h a).toList ++ acts.filterMap (ownAct h) := by
        cases hown : ownAct h a with
        | none => rw [List.filterMap_cons_none hown]; rfl
        | some b => rw [List.filterMap_cons_some hown]; rfl
      rcases htr.step hs hn hstep hget₁ hw₁ with ⟨l₁, hrun₁, htr₁⟩ | ⟨hclosed, hidle, hown, htr₁⟩
      · obtain ⟨own, l', closed, hprefix, hall, hrun', htr'⟩ := ih htr₁ hok hnum hrun
        refine ⟨(ownAct h a).toList ++ own, l', closed, ?_, ?_, ?_, htr'⟩
        · rw [hcons]
          exact (List.prefix_append_right_inj _).mpr hprefix
        · intro hopen
          rw [hcons, hall hopen]
        · rw [Lts.run_append, hrun₁]
          exact hrun'
      · obtain ⟨hclosed', htr'⟩ := htr₁.run_closed hok hnum hclosed hidle hrun hget' hw'
        refine ⟨[], l, _, List.nil_prefix, ?_, rfl, htr'⟩
        intro hopen
        rw [hclosed'] at hopen
        cases hopen

end Tracks

/-! ## The results -/

theorem numbered_run {disk : Disk} {acts : List Act}
    (hrun : Lts.run (step path) (init disk) acts = some s) : s.Ok ∧ s.fs.Numbered := by
  have hstep : ∀ u (a : Act) v, (u.Ok ∧ u.fs.Numbered) → step path u a = some v →
      v.Ok ∧ v.fs.Numbered := by
    rintro u a v ⟨hok, hnum⟩ hstep
    exact ⟨hok.step (step_cases hstep), numbered_step hnum (step_cases hstep)⟩
  exact Lts.run_invariant hstep hrun ⟨.init disk, .ofDisk disk.dir_lt⟩

/-- A handle that may write has its log to itself.  From any reachable state to any later
one where it still may, its file, its writer and the batches acknowledged in the file are
those of a run of the single log, by the handle's own appends and calls, and by none
after the handle is closed. -/
theorem writer_alone (path : Name → List Char) (disk : Disk) (acts acts' : List Act) (s t : World)
    (h : Hid) (hd hd' : Handle) (d : Did)
    (hreach : Lts.run (step path) (init disk) acts = some s)
    (hget : s.handles[h]? = some hd) (hfile : hd.file = some d)
    (hrun : Lts.run (step path) s acts' = some t)
    (hget' : t.handles[h]? = some hd') (hw' : hd'.writable = true) :
    ∃ own l closed, own <+: acts'.filterMap (ownAct h) ∧
      (hd'.w.closed = false → own = acts'.filterMap (ownAct h)) ∧
      Lts.run LogState.step (s.logOf hd d) own = some l ∧
      hd'.file = some d ∧ t.fs.file d = l.file ∧
      l.owner = .live { hd'.w with closed := closed } ∧
      t.acks (t.fs.ino d) =
        l.attempts.filterMap (ackOf hd.w.name (t.fs.ino d)) ++ s.acks (t.fs.ino d) := by
  obtain ⟨hok, hnum⟩ := numbered_run hreach
  have hw := writable_throughout hrun hget hget' hw'
  have htr : Tracks s hd h d s hd.w.closed hd (s.logOf hd d) :=
    ⟨hget, hw, hfile, rfl, rfl, rfl, rfl, rfl⟩
  obtain ⟨own, l, closed, hprefix, hall, hown, htr'⟩ := htr.run hok hnum hrun hget' hw'
  refine ⟨own, l, closed, hprefix, hall, hown, htr'.file, htr'.log.symm, htr'.owner, ?_⟩
  rw [htr'.ino]
  exact htr'.acks

/-- While a batch is written, another process has a view of the log and fails to delete
the stream, and the process of the writer forks. -/
def besideView : List Act :=
  storeActs 1 ++ openActs 1 ['t'] ++ [.append 0 [[1]], .io 0 (.write 4), .fork 0,
    .delete 1 ['t'], .sys 1 .ok, .sys 1 .ok, .io 0 (.write 5), .io 0 (.sync true)]

theorem writer_alone_besideView :
    ∃ s t hd hd' l,
      Lts.run (step logEntry) (init .empty) (storeActs 0 ++ createActs 0 ['t']) = some s ∧
      Lts.run (step logEntry) s besideView = some t ∧
      s.handles[0]? = some hd ∧ t.handles[0]? = some hd' ∧
      Lts.run LogState.step (s.logOf hd 0)
        [.append [[1]], .io (.write 4), .io (.write 5), .io (.sync true)] = some l ∧
      t.fs.file 0 = l.file := by
  have hsome : ((Lts.run (step logEntry) (init .empty) (storeActs 0 ++ createActs 0 ['t'])).bind
      fun s => (Lts.run (step logEntry) s besideView).bind fun t =>
        (s.handles[0]?).bind fun hd => (t.handles[0]?).map fun hd' =>
          (hd.file, hd'.writable, hd'.w.closed)) = some (some 0, true, false) := by
    decide +kernel
  obtain ⟨s, hreach, hsome⟩ := Option.bind_eq_some_iff.mp hsome
  obtain ⟨t, hrun, hsome⟩ := Option.bind_eq_some_iff.mp hsome
  obtain ⟨hd, hget, hsome⟩ := Option.bind_eq_some_iff.mp hsome
  obtain ⟨hd', hget', hsome⟩ := Option.map_eq_some_iff.mp hsome
  simp only [Prod.mk.injEq] at hsome
  obtain ⟨hfile, hw', hopen⟩ := hsome
  obtain ⟨own, l, closed, -, hall, hown, -, hlog, -⟩ := writer_alone logEntry .empty _ besideView
    s t 0 hd hd' 0 hreach hget hfile hrun hget' hw'
  rw [hall hopen] at hown
  exact ⟨s, t, hd, hd', l, hreach, hrun, hget, hget', hown, hlog⟩

end World

end Durastream
