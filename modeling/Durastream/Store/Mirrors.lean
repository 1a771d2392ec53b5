import Durastream.Lib.LockFrame
import Durastream.Store.Machine
import Durastream.Store.Streams

/-!
# Files, rows and handles that mirror the streams

The relation between what a directory and its handles hold and the abstract
streams.  A stream is a row and a log: the row has its content type and flag, the
log its payloads, as far as it is intact.  A live handle has the log open and
locked for its process alone, and its index is that of the payloads.  Nothing
else is open.

While a method works on a stream, the log of this one stream is out of step:
`hole` is its name.  `Mirrors.frame` says that the method may do to that log what
it likes; the other rules fill the hole or change both sides.
-/

namespace Durastream

/-- The row of a stream. -/
def Stream.row (x : Stream) : Row := ⟨x.contentType, x.closed⟩

/-- A handle that may write the log of stream `x`, in description `d`. -/
structure Handle.Live (fs : LockFs (List Char) UInt8) (current : Option Sid) (name : Name)
    (x : Stream) (d : Did) (hd : Handle) : Prop where
  store : current = some hd.store
  w : hd.w = ⟨name, marks x.payloads, x.closed, .idle⟩
  contentType : hd.contentType = x.contentType
  file : hd.file = some d
  owner : hd.owner = true
  takenBy : hd.takenBy = hd.pid
  atRest : hd.closing = false ∧ hd.stuck = false
  refs : fs.refs d = [hd.pid]

/-- A handle that is closed, with the index of `n` records. -/
structure Handle.Dead (name : Name) (n : Nat) (hd : Handle) : Prop where
  w : ∃ rs, rs.length = n ∧ hd.w = ⟨name, marks rs, true, .idle⟩
  file : hd.file = none
  owner : hd.owner = false
  atRest : hd.closing = false ∧ hd.stuck = false

/-- The path of the log names the file that is open, and it has exactly the payloads. -/
def LogOpen (path : Name → List Char) (fs : LockFs (List Char) UInt8) (name : Name) (x : Stream)
    (d : Did) : Prop :=
  (fs.dir (path name)).cur = some (fs.ino d) ∧ (fs.file d).data = frames x.payloads

namespace Ref

variable (gone : Name → Bool) {length : Name → Nat} {name : Name}

theorem bury_of_gone (h : gone name = true) :
    (live name).bury gone length = .dead name (length name) := by
  rw [bury, if_pos h]

theorem bury_of_not (h : gone name = false) : (live name).bury gone length = .live name := by
  rw [bury, h]
  rfl

/-- A handle that is live was so. -/
theorem bury_eq_live {gone : Name → Bool} {r : Ref} (h : r.bury gone length = .live name) :
    r = .live name ∧ gone name = false := by
  cases r with
  | dead n len => cases h
  | live n =>
      cases hgone : gone n with
      | true =>
          rw [bury_of_gone gone hgone] at h
          cases h
      | false =>
          rw [bury_of_not gone hgone] at h
          cases h
          exact ⟨rfl, hgone⟩

end Ref

/-- What a handle is, up to what the log of `hole` holds. -/
def Ref.Mirrors (path : Name → List Char) (hole : Option Name) (fs : LockFs (List Char) UInt8)
    (a : Streams) (hd : Handle) : Ref → Prop
  | .live name => ∃ x d, a.streams.get name = some x ∧ hd.Live fs a.current name x d ∧
      (hole ≠ some name → LogOpen path fs name x d)
  | .dead name n => hd.Dead name n

structure Mirrors (path : Name → List Char) (hole : Option Name) (fs : LockFs (List Char) UInt8)
    (rows : Table Name Row) (handles : List Handle) (a : Streams) : Prop where
  tidy : fs.Tidy
  rows : rows = a.streams.map Stream.row
  logs : ∀ name x, hole ≠ some name → a.streams.get name = some x →
    records (fs.contents (path name)) = x.payloads
  length : handles.length = a.handles.length
  ref : ∀ (h : Hid) (r : Ref) (hd : Handle), a.handles[h]? = some r → handles[h]? = some hd →
    r.Mirrors path hole fs a hd
  one : ∀ (name : Name) (h h' : Hid), a.handles[h]? = some (.live name) →
    a.handles[h']? = some (.live name) → h = h'
  distinct : ∀ (h h' : Hid) (hd hd' : Handle) (d : Did), handles[h]? = some hd →
    handles[h']? = some hd' → hd.file = some d → hd'.file = some d → h = h'
  opened : ∀ d, fs.refs d ≠ [] → ∃ hd ∈ handles, hd.file = some d

variable {path : Name → List Char} {hole : Option Name} {fs fs' : LockFs (List Char) UInt8}
  {rows : Table Name Row} {handles : List Handle} {a : Streams} {name : Name} {h : Hid}
  {hd hd' : Handle} {x : Stream} {d : Did}

namespace Handle

theorem Live.free (hl : hd.Live fs a.current name x d) : hd.Free :=
  ⟨by rw [hl.w], hl.atRest⟩

theorem Live.index (hl : hd.Live fs a.current name x d) : hd.w.index = marks x.payloads := by
  rw [hl.w]

theorem Live.writable (hl : hd.Live fs a.current name x d) : hd.writable = true := by
  rw [Handle.writable, hl.owner, hl.takenBy, beq_self_eq_true]
  rfl

theorem Live.lt (hl : hd.Live fs a.current name x d) : d < fs.descs.length := by
  refine LockFs.lt_of_mem_refs (p := hd.pid) ?_
  rw [hl.refs]
  exact List.mem_singleton_self _

/-- `_close_fds` of a live handle. -/
theorem Live.closeFds (hl : hd.Live fs a.current name x d) :
    hd.closeFds.Dead name x.payloads.length := by
  refine ⟨⟨x.payloads, rfl, ?_⟩, rfl, rfl, hl.atRest⟩
  rw [Handle.closeFds, hl.w]

theorem Live.congr (hl : hd.Live fs a.current name x d) (hrefs : fs'.refs d = fs.refs d) :
    hd.Live fs' a.current name x d :=
  ⟨hl.store, hl.w, hl.contentType, hl.file, hl.owner, hl.takenBy, hl.atRest, hrefs.trans hl.refs⟩

theorem Dead.not_writable {n : Nat} (hdead : hd.Dead name n) : hd.writable = false := by
  rw [Handle.writable, hdead.owner, Bool.false_and]

end Handle

namespace Mirrors

/-! ## Facts -/

/-- A live handle with its stream and file. -/
theorem live (hm : Mirrors path hole fs rows handles a) (href : a.handles[h]? = some (.live name)) :
    ∃ hd x d, handles[h]? = some hd ∧ a.streams.get name = some x ∧
      hd.Live fs a.current name x d ∧ (hole ≠ some name → LogOpen path fs name x d) := by
  have hlt : h < handles.length := by
    rw [hm.length]
    exact (List.getElem?_eq_some_iff.mp href).1
  have hget := List.getElem?_eq_getElem hlt
  obtain ⟨x, d, hx, hlive, hlog⟩ := hm.ref h _ _ href hget
  exact ⟨handles[h], x, d, hget, hx, hlive, hlog⟩

theorem row (hm : Mirrors path hole fs rows handles a) (name : Name) :
    rows.get name = (a.streams.get name).map Stream.row := by
  rw [hm.rows, Table.get_map]

/-- The payloads of a stream fit frames, as they come from a log. -/
theorem fits (hm : Mirrors path none fs rows handles a) (hx : a.streams.get name = some x) :
    Fits x.payloads := by
  rw [← hm.logs name x (by simp) hx]
  exact Fits.records _

/-- An open file is that of a live handle. -/
theorem live_of_file (hm : Mirrors path hole fs rows handles a) (hget : handles[h]? = some hd)
    (hfile : hd.file = some d) :
    ∃ name x, a.handles[h]? = some (.live name) ∧ a.streams.get name = some x ∧
      hd.Live fs a.current name x d ∧ (hole ≠ some name → LogOpen path fs name x d) := by
  have hlt : h < a.handles.length := by
    rw [← hm.length]
    exact (List.getElem?_eq_some_iff.mp hget).1
  have href := List.getElem?_eq_getElem hlt
  have hmirrors := hm.ref h _ _ href hget
  cases hr : a.handles[h] with
  | dead name n =>
      rw [hr] at hmirrors
      have hnone := hmirrors.file
      rw [hfile] at hnone
      cases hnone
  | live name =>
      rw [hr] at hmirrors href
      obtain ⟨x, e, hx, hlive, hlog⟩ := hmirrors
      have heq := hlive.file
      rw [hfile] at heq
      cases heq
      exact ⟨name, x, href, hx, hlive, hlog⟩

/-- Nobody has the lock of a log without live handle. -/
theorem unlocked (hm : Mirrors path none fs rows handles a)
    (hnone : ∀ h : Hid, a.handles[h]? ≠ some (.live name)) {i : Nat}
    (hcur : (fs.dir (path name)).cur = some i) (hpath : Function.Injective path) :
    ∀ e, fs.locks i = some e → fs.refs e = [] := by
  intro e hlock
  by_contra hopen
  obtain ⟨hd, hmem, hfile⟩ := hm.opened e hopen
  obtain ⟨h, hget⟩ := List.mem_iff_getElem?.mp hmem
  obtain ⟨name', x, href, -, -, hlog⟩ := hm.live_of_file hget hfile
  have hcur' := (hlog (by simp)).1
  rw [(hm.tidy.locked i e hlock).1] at hcur'
  rw [hpath (hm.tidy.path_eq hcur hcur')] at hnone
  exact hnone h href

/-! ## Rules -/

/-- A method begins to work on a stream. -/
theorem widen (hm : Mirrors path none fs rows handles a) (name : Name) :
    Mirrors path (some name) fs rows handles a := by
  refine ⟨hm.tidy, hm.rows, fun n x _ hx => hm.logs n x (by simp) hx, hm.length, ?_, hm.one,
    hm.distinct, hm.opened⟩
  intro h r hd href hget
  have hmirrors := hm.ref h r hd href hget
  cases r with
  | dead n len => exact hmirrors
  | live n =>
      obtain ⟨x, d, hx, hlive, hlog⟩ := hmirrors
      exact ⟨x, d, hx, hlive, fun _ => hlog (by simp)⟩

/-- What a frame leaves of a live handle. -/
theorem ref_frame (hpath : Function.Injective path) {n : Nat}
    (hf : fs.Frame (hole.map path) n fs') (hn : fs.descs.length ≤ n) {r : Ref}
    (hr : r.Mirrors path hole fs a hd) : r.Mirrors path hole fs' a hd := by
  cases r with
  | dead name len => exact hr
  | live name =>
      obtain ⟨x, d, hx, hlive, hlog⟩ := hr
      have hlt := Nat.lt_of_lt_of_le hlive.lt hn
      refine ⟨x, d, hx, hlive.congr (hf.refs d hlt), ?_⟩
      intro hne
      have hne' : hole.map path ≠ some (path name) := by
        intro heq
        obtain ⟨name', hhole, heq'⟩ := Option.map_eq_some_iff.mp heq
        exact hne (hhole.trans (congrArg some (hpath heq')))
      obtain ⟨hcur, hdata⟩ := hlog hne
      refine ⟨?_, ?_⟩
      · rw [hf.cur _ hne', hf.ino d hlt]
        exact hcur
      · rw [LockFs.file, hf.ino d hlt, hf.data _ _ hne' hcur]
        exact hdata

/-- Calls on the log of `hole` that leave nothing open. -/
theorem frame (hm : Mirrors path hole fs rows handles a) (hpath : Function.Injective path)
    (hf : fs.Frame (hole.map path) fs.descs.length fs') (htidy : fs'.Tidy)
    (hnew : ∀ d, fs.descs.length ≤ d → fs'.refs d = []) :
    Mirrors path hole fs' rows handles a := by
  refine ⟨htidy, hm.rows, ?_, hm.length, ?_, hm.one, hm.distinct, ?_⟩
  · intro name x hne hx
    have hne' : hole.map path ≠ some (path name) := by
      intro heq
      obtain ⟨name', hhole, heq'⟩ := Option.map_eq_some_iff.mp heq
      exact hne (hhole.trans (congrArg some (hpath heq')))
    rw [hf.contents hne']
    exact hm.logs name x hne hx
  · intro h r hd href hget
    exact ref_frame hpath hf (Nat.le_refl _) (hm.ref h r hd href hget)
  · intro d hopen
    by_cases hlt : d < fs.descs.length
    · rw [hf.refs d hlt] at hopen
      exact hm.opened d hopen
    · exact absurd (hnew d (Nat.le_of_not_lt hlt)) hopen

/-- The INSERT of a row, while the log is out of step. -/
theorem insert (hm : Mirrors path (some name) fs rows handles a)
    (hnone : a.streams.get name = none) (contentType : ContentType) :
    Mirrors path (some name) fs (rows.set name ⟨contentType, false⟩) handles
      { a with streams := a.streams.set name ⟨contentType, false, []⟩ } := by
  refine ⟨hm.tidy, ?_, ?_, hm.length, ?_, hm.one, hm.distinct, hm.opened⟩
  · rw [hm.rows, Table.map_set]
    rfl
  · intro n x hne hx
    rw [Table.get_set_of_ne _ fun heq => hne (congrArg some heq.symm)] at hx
    exact hm.logs n x hne hx
  · intro h r hd href hget
    have hmirrors := hm.ref h r hd href hget
    cases r with
    | dead n len => exact hmirrors
    | live n =>
        obtain ⟨x, d, hx, hlive, hlog⟩ := hmirrors
        refine ⟨x, d, ?_, hlive, hlog⟩
        have hne : n ≠ name := by
          rintro rfl
          rw [hnone] at hx
          cases hx
        exact (Table.get_set_of_ne _ hne _).trans hx

/-- The constructor returns a handle on the log. -/
theorem handle (hm : Mirrors path (some name) fs rows handles a) (hpath : Function.Injective path)
    (hf : fs.Frame (some (path name)) fs.descs.length fs') (htidy : fs'.Tidy)
    (hx : a.streams.get name = some x) (hlive : hd.Live fs' a.current name x d)
    (hlog : LogOpen path fs' name x d) (hfit : Fits x.payloads) (hge : fs.descs.length ≤ d)
    (hnew : ∀ e, fs.descs.length ≤ e → e ≠ d → fs'.refs e = [])
    (hnone : ∀ h : Hid, a.handles[h]? ≠ some (.live name)) :
    Mirrors path none fs' rows (handles ++ [hd])
      { a with handles := a.handles ++ [.live name] } := by
  have hold : ∀ (h : Hid) (hd' : Handle), handles[h]? = some hd' → hd'.file ≠ some d := by
    intro h hd' hget hfile
    obtain ⟨_, _, _, _, hlive', _⟩ := hm.live_of_file hget hfile
    exact Nat.lt_irrefl _ (Nat.lt_of_lt_of_le hlive'.lt hge)
  have hf' : fs.Frame ((some name).map path) fs.descs.length fs' := hf
  refine ⟨htidy, hm.rows, ?_, ?_, ?_, ?_, ?_, ?_⟩
  · intro n y _ hy
    by_cases hn : n = name
    · subst hn
      rw [hx] at hy
      cases hy
      rw [LockFs.contents_of_cur hlog.1]
      exact (congrArg records hlog.2).trans (records_frames hfit)
    · have hne : some name ≠ some n := fun heq => hn (Option.some.inj heq).symm
      have hne' : some (path name) ≠ some (path n) := fun heq =>
        hn (hpath (Option.some.inj heq)).symm
      rw [hf.contents hne']
      exact hm.logs n y hne hy
  · rw [List.length_append, List.length_append, hm.length]
    rfl
  · intro h r hd' href hget
    rcases List.getElem?_concat_cases hget with hget | ⟨hlen, rfl⟩
    · have hlt := (List.getElem?_eq_some_iff.mp hget).1
      rw [List.getElem?_append_left (hm.length ▸ hlt)] at href
      have hmirrors := ref_frame hpath hf' (Nat.le_refl _) (hm.ref h r hd' href hget)
      cases r with
      | dead n len => exact hmirrors
      | live n =>
          obtain ⟨y, e, hy, hlive', hlog'⟩ := hmirrors
          have hne : some name ≠ some n := by
            intro heq
            cases heq
            exact hnone h href
          exact ⟨y, e, hy, hlive', fun _ => hlog' hne⟩
    · rw [hlen, hm.length, List.getElem?_concat_length] at href
      cases href
      exact ⟨x, d, hx, hlive, fun _ => hlog⟩
  · intro n h h' href href'
    rcases List.getElem?_concat_cases href with hold₁ | ⟨hlen, heq⟩
    · rcases List.getElem?_concat_cases href' with hold₂ | ⟨-, heq'⟩
      · exact hm.one n h h' hold₁ hold₂
      · cases heq'
        exact absurd hold₁ (hnone h)
    · rcases List.getElem?_concat_cases href' with hold₂ | ⟨hlen', -⟩
      · cases heq
        exact absurd hold₂ (hnone h')
      · exact hlen.trans hlen'.symm
  · intro h h' hd₁ hd₂ e hget hget' hfile hfile'
    rcases List.getElem?_concat_cases hget with hold₁ | ⟨hlen, rfl⟩
    · rcases List.getElem?_concat_cases hget' with hold₂ | ⟨hlen', rfl⟩
      · exact hm.distinct h h' hd₁ hd₂ e hold₁ hold₂ hfile hfile'
      · rw [hlive.file] at hfile'
        exact absurd (hfile.trans hfile'.symm) (hold h hd₁ hold₁)
    · rcases List.getElem?_concat_cases hget' with hold₂ | ⟨hlen', rfl⟩
      · rw [hlive.file] at hfile
        exact absurd (hfile'.trans hfile.symm) (hold h' hd₂ hold₂)
      · exact hlen.trans hlen'.symm
  · intro e hopen
    by_cases heq : e = d
    · exact ⟨hd, List.mem_append_right _ (List.mem_singleton_self hd), heq ▸ hlive.file⟩
    · by_cases hlt : e < fs.descs.length
      · rw [hf.refs e hlt] at hopen
        obtain ⟨hd', hmem, hfile⟩ := hm.opened e hopen
        exact ⟨hd', List.mem_append_left _ hmem, hfile⟩
      · exact absurd (hnew e (Nat.le_of_not_lt hlt) heq) hopen

/-- A live handle, its row and its log change together. -/
theorem renew (hm : Mirrors path (some name) fs rows handles a)
    (href : a.handles[h]? = some (.live name)) (hget : handles[h]? = some hd)
    (hfile : hd.file = some d) (hlive : hd'.Live fs a.current name x d)
    (hlog : LogOpen path fs name x d) (hfit : Fits x.payloads) :
    Mirrors path none fs (rows.set name x.row) (handles.set h hd')
      { a with streams := a.streams.set name x } := by
  have hlt := (List.getElem?_eq_some_iff.mp hget).1
  have hcases : ∀ (j : Hid) (hd₀ : Handle), (handles.set h hd')[j]? = some hd₀ →
      (j = h ∧ hd₀ = hd') ∨ (j ≠ h ∧ handles[j]? = some hd₀) := by
    intro j hd₀ hj
    by_cases heq : h = j
    · subst heq
      rw [List.getElem?_set_self hlt] at hj
      exact .inl ⟨rfl, (Option.some.inj hj).symm⟩
    · rw [List.getElem?_set_ne heq] at hj
      exact .inr ⟨fun heq' => heq heq'.symm, hj⟩
  refine ⟨hm.tidy, ?_, ?_, ?_, ?_, hm.one, ?_, ?_⟩
  · rw [hm.rows, Table.map_set]
  · intro n y _ hy
    by_cases hn : n = name
    · subst hn
      rw [Table.get_set_self] at hy
      cases hy
      rw [LockFs.contents_of_cur hlog.1]
      exact (congrArg records hlog.2).trans (records_frames hfit)
    · rw [Table.get_set_of_ne _ hn] at hy
      exact hm.logs n y (fun heq => hn (Option.some.inj heq).symm) hy
  · rw [List.length_set]
    exact hm.length
  · intro j r hd₀ hrefj hj
    rcases hcases j hd₀ hj with ⟨rfl, rfl⟩ | ⟨hne, hj⟩
    · rw [href] at hrefj
      cases hrefj
      exact ⟨x, d, Table.get_set_self _ _ _, hlive, fun _ => hlog⟩
    · have hmirrors := hm.ref j r hd₀ hrefj hj
      cases r with
      | dead n len => exact hmirrors
      | live n =>
          obtain ⟨y, e, hy, hlive', hlog'⟩ := hmirrors
          have hn : n ≠ name := by
            rintro rfl
            exact hne (hm.one n j h hrefj href)
          exact ⟨y, e, (Table.get_set_of_ne _ hn _).trans hy, hlive',
            fun _ => hlog' fun heq => hn (Option.some.inj heq).symm⟩
  · intro i j hd₁ hd₂ e hi hj hfile₁ hfile₂
    -- both handles have the file they had
    have hback : ∀ (j : Hid) (hd₀ : Handle), (handles.set h hd')[j]? = some hd₀ →
        hd₀.file = some e → ∃ hd₁, handles[j]? = some hd₁ ∧ hd₁.file = some e := by
      intro j hd₀ hj hfile₀
      rcases hcases j hd₀ hj with ⟨rfl, rfl⟩ | ⟨-, hj⟩
      · refine ⟨hd, hget, ?_⟩
        rw [hfile, ← hlive.file]
        exact hfile₀
      · exact ⟨hd₀, hj, hfile₀⟩
    obtain ⟨hd₃, hi', hfile₃⟩ := hback i hd₁ hi hfile₁
    obtain ⟨hd₄, hj', hfile₄⟩ := hback j hd₂ hj hfile₂
    exact hm.distinct i j hd₃ hd₄ e hi' hj' hfile₃ hfile₄
  · intro e hopen
    obtain ⟨hd₀, hmem, hfile₀⟩ := hm.opened e hopen
    obtain ⟨j, hj⟩ := List.mem_iff_getElem?.mp hmem
    by_cases heq : h = j
    · subst heq
      rw [hget] at hj
      cases hj
      refine ⟨hd', List.mem_of_getElem? (List.getElem?_set_self hlt), ?_⟩
      rw [hlive.file, ← hfile]
      exact hfile₀
    · exact ⟨hd₀, List.mem_of_getElem? ((List.getElem?_set_ne heq).trans hj), hfile₀⟩

/-- A live handle is closed. -/
theorem bury (hm : Mirrors path hole fs rows handles a)
    (href : a.handles[h]? = some (.live name)) (hget : handles[h]? = some hd)
    (hfile : hd.file = some d) :
    Mirrors path hole (fs.close hd.pid d) rows (handles.set h hd.closeFds)
      (a.bury (· == name)) := by
  have hlt := (List.getElem?_eq_some_iff.mp hget).1
  obtain ⟨hd', x, e, hget', hx, hlive, -⟩ := hm.live href
  rw [hget] at hget'
  cases hget'
  have he := hlive.file
  rw [hfile] at he
  cases he
  refine ⟨hm.tidy.close, hm.rows, ?_, ?_, ?_, ?_, ?_, ?_⟩
  · exact fun n y hne hy => hm.logs n y hne hy
  · rw [List.length_set, Streams.bury, List.length_map, hm.length]
  · intro j r hd₀ hrefj hj
    obtain ⟨r₀, hr₀, rfl⟩ := Option.map_eq_some_iff.mp ((List.getElem?_map ..).symm.trans hrefj)
    by_cases heq : h = j
    · subst heq
      rw [List.getElem?_set_self hlt] at hj
      cases hj
      rw [href] at hr₀
      cases hr₀
      have hlength : a.length name = x.payloads.length := by
        rw [Streams.length, hx]
        rfl
      rw [Ref.bury_of_gone (· == name) (beq_self_eq_true name), hlength]
      exact hlive.closeFds
    · rw [List.getElem?_set_ne heq] at hj
      have hmirrors := hm.ref j r₀ hd₀ hr₀ hj
      cases r₀ with
      | dead n len => exact hmirrors
      | live n =>
          obtain ⟨y, e, hy, hlive', hlog'⟩ := hmirrors
          have hn : (n == name) = false := by
            refine beq_eq_false_iff_ne.mpr ?_
            rintro rfl
            exact heq (hm.one n h j href hr₀)
          have hde : e ≠ d := by
            rintro rfl
            exact heq (hm.distinct h j hd hd₀ e hget hj hfile hlive'.file)
          rw [Ref.bury_of_not (· == name) hn]
          refine ⟨y, e, hy, hlive'.congr (LockFs.refs_close_of_ne hde), fun hne => ?_⟩
          obtain ⟨hcur, hdata⟩ := hlog' hne
          refine ⟨?_, ?_⟩
          · rw [LockFs.ino_close]
            exact hcur
          · rw [LockFs.file, LockFs.ino_close]
            exact hdata
  · intro n i j hi hj
    have hold : ∀ j : Hid, (a.bury (· == name)).handles[j]? = some (.live n) →
        a.handles[j]? = some (.live n) := by
      intro j hj
      obtain ⟨r₀, hr₀, hlive'⟩ := Option.map_eq_some_iff.mp ((List.getElem?_map ..).symm.trans hj)
      rw [hr₀, (Ref.bury_eq_live hlive').1]
    exact hm.one n i j (hold i hi) (hold j hj)
  · intro i j hd₁ hd₂ e hi hj hfile₁ hfile₂
    have hback : ∀ (j : Hid) (hd₀ : Handle), (handles.set h hd.closeFds)[j]? = some hd₀ →
        hd₀.file = some e → handles[j]? = some hd₀ := by
      intro j hd₀ hj hfile₀
      by_cases heq : h = j
      · subst heq
        rw [List.getElem?_set_self hlt] at hj
        cases hj
        cases hfile₀
      · rwa [List.getElem?_set_ne heq] at hj
    exact hm.distinct i j hd₁ hd₂ e (hback i hd₁ hi hfile₁) (hback j hd₂ hj hfile₂) hfile₁ hfile₂
  · intro e hopen
    have hne : e ≠ d := by
      rintro rfl
      exact hopen (LockFs.refs_close_self hlive.refs)
    rw [LockFs.refs_close_of_ne hne] at hopen
    obtain ⟨hd₀, hmem, hfile₀⟩ := hm.opened e hopen
    obtain ⟨j, hj⟩ := List.mem_iff_getElem?.mp hmem
    refine ⟨hd₀, List.mem_of_getElem? (i := j) ?_, hfile₀⟩
    rw [List.getElem?_set_ne]
    · exact hj
    · rintro rfl
      rw [hget] at hj
      cases hj
      exact hne (Option.some.inj (hfile₀.symm.trans hfile))

/-- The DELETE of a row. -/
theorem erase (hm : Mirrors path (some name) fs rows handles a)
    (hnone : ∀ h : Hid, a.handles[h]? ≠ some (.live name)) :
    Mirrors path none fs (rows.erase name) handles
      { a with streams := a.streams.erase name } := by
  refine ⟨hm.tidy, ?_, ?_, hm.length, ?_, hm.one, hm.distinct, hm.opened⟩
  · rw [hm.rows, Table.map_erase]
  · intro n y _ hy
    have hn : n ≠ name := by
      rintro rfl
      rw [Table.get_erase_self] at hy
      cases hy
    rw [Table.get_erase_of_ne _ hn] at hy
    exact hm.logs n y (fun heq => hn (Option.some.inj heq).symm) hy
  · intro j r hd₀ href hj
    have hmirrors := hm.ref j r hd₀ href hj
    cases r with
    | dead n len => exact hmirrors
    | live n =>
        obtain ⟨y, e, hy, hlive, hlog⟩ := hmirrors
        have hn : n ≠ name := by
          rintro rfl
          exact hnone j href
        exact ⟨y, e, (Table.get_erase_of_ne _ hn).trans hy, hlive,
          fun _ => hlog fun heq => hn (Option.some.inj heq).symm⟩

/-- Without live handles it does not matter which Store is open. -/
theorem shut (hm : Mirrors path none fs rows handles a) (stores : Nat) (current : Option Sid)
    (hnone : ∀ (h : Hid) (name : Name), a.handles[h]? ≠ some (.live name)) :
    Mirrors path none fs rows handles { a with stores := stores, current := current } := by
  refine ⟨hm.tidy, hm.rows, hm.logs, hm.length, ?_, hm.one, hm.distinct, hm.opened⟩
  intro h r hd href hget
  cases r with
  | live name => exact absurd href (hnone h name)
  | dead name n => exact hm.ref h _ hd href hget

end Mirrors

end Durastream
