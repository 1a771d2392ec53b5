import Durastream.Lib.LockFs

/-!
# Who may write a locked file

The variables of the processes that hold open file descriptions, and what each
of them may rely on.  A *claim* says that a variable of a process has a
description open, and in which role:

* a `reader` only has it open; so does every copy a fork made;
* a `candidate` opened it in its own process and may still lock it;
* an `owner` opened it in its own process and has locked it.

`Claims.Valid` says that every claim is true of the directory, and that no two
variables of one process have the same description.  From this, a locked file
has one owner only (`Claims.Valid.owner_unique`).  There is one rule for each
operation on descriptions.
-/

/-- The role in which a variable has a description open. -/
inductive Role where
  | reader
  | candidate
  | owner
deriving DecidableEq

/-- A variable of process `pid` has the description `did` open. -/
structure Claim where
  pid : Nat
  did : Nat
  role : Role
deriving DecidableEq

namespace Claim

variable {κ α : Type*}

/-- The claim as a copy of the variable in another process makes it. -/
def inherited (c : Claim) (p : Nat) : Claim := ⟨p, c.did, .reader⟩

/-- What a claim says is so. -/
structure Valid (fs : LockFs κ α) (c : Claim) : Prop where
  ref : c.pid ∈ fs.refs c.did
  opener : c.role ≠ .reader → fs.opener c.did = c.pid
  lock : c.role = .owner → fs.locks (fs.ino c.did) = some c.did

variable {fs fs' : LockFs κ α} {c : Claim}

/-- Claims do not depend on entries and contents. -/
theorem Valid.congr (h : c.Valid fs) (hdescs : fs'.descs = fs.descs)
    (hlocks : fs'.locks = fs.locks) :
    c.Valid fs' := by
  obtain ⟨href, hopener, hlock⟩ := h
  constructor
  · rwa [LockFs.refs, hdescs]
  · rwa [LockFs.opener, hdescs]
  · rwa [LockFs.ino, hdescs, hlocks]

theorem Valid.openFile {p i : Nat} (h : c.Valid fs) : c.Valid (fs.openFile p i) := by
  have hlt := LockFs.lt_of_mem_refs h.ref
  constructor
  · rw [LockFs.refs_openFile hlt]
    exact h.ref
  · rw [LockFs.opener_openFile hlt]
    exact h.opener
  · rw [LockFs.ino_openFile hlt]
    exact h.lock

/-- Granting another description a lock takes it from nobody. -/
theorem Valid.lock_of_canLock {d : Nat} (h : c.Valid fs) (hcan : fs.canLock d = true) :
    c.Valid (fs.lock d) := by
  refine ⟨h.ref, h.opener, ?_⟩
  intro hrole
  have hheld := h.lock hrole
  show Function.update fs.locks (fs.ino d) (some d) (fs.ino c.did) = some c.did
  by_cases hino : fs.ino c.did = fs.ino d
  · rw [hino, Function.update_self]
    rcases LockFs.canLock_cases hcan with hnone | ⟨e, hsome, he⟩
    · rw [← hino, hheld] at hnone
      cases hnone
    · rw [← hino, hheld] at hsome
      cases hsome
      rcases he with he | he
      · rw [he]
      · have href := h.ref
        rw [he] at href
        cases href
  · rw [Function.update_of_ne hino]
    exact hheld

theorem Valid.close {p d : Nat} (h : c.Valid fs) (hne : c.pid ≠ p ∨ c.did ≠ d) :
    c.Valid (fs.close p d) := by
  constructor
  · exact LockFs.mem_refs_close h.ref hne
  · rw [LockFs.opener_close]
    exact h.opener
  · rw [LockFs.ino_close]
    exact h.lock

theorem Valid.fork {p q : Nat} (h : c.Valid fs) : c.Valid (fs.fork p q) := by
  constructor
  · exact LockFs.mem_refs_fork h.ref
  · rw [LockFs.opener_fork]
    exact h.opener
  · rw [LockFs.ino_fork]
    exact h.lock

/-- The child has the descriptions of its parent open, and nothing more. -/
theorem Valid.inherited {q : Nat} (h : c.Valid fs) : (c.inherited q).Valid (fs.fork c.pid q) :=
  ⟨LockFs.child_mem_refs_fork h.ref, fun hrole => absurd rfl hrole, fun hrole => by cases hrole⟩

theorem Valid.exit {p : Nat} (h : c.Valid fs) (hne : c.pid ≠ p) : c.Valid (fs.exit p) := by
  constructor
  · exact LockFs.mem_refs_exit h.ref hne
  · rw [LockFs.opener_exit]
    exact h.opener
  · rw [LockFs.ino_exit]
    exact h.lock

/-- A new description of process `p` is nobody else's. -/
theorem valid_openFile_self {p i : Nat} {role : Role} (hrole : role ≠ .owner) :
    (Claim.mk p fs.descs.length role).Valid (fs.openFile p i) := by
  refine ⟨?_, fun _ => LockFs.opener_openFile_self, fun h => absurd h hrole⟩
  show p ∈ (fs.openFile p i).refs fs.descs.length
  rw [LockFs.refs_openFile_self]
  exact List.mem_singleton_self p

/-- A candidate that is granted the lock is an owner. -/
theorem Valid.granted {p d : Nat} (h : (Claim.mk p d .candidate).Valid fs) :
    (Claim.mk p d .owner).Valid (fs.lock d) :=
  ⟨h.ref, fun _ => h.opener (by simp), fun _ => Function.update_self _ _ _⟩

/-- Every claim is also one of a reader. -/
theorem Valid.reader {p d : Nat} {role : Role} (h : (Claim.mk p d role).Valid fs) :
    (Claim.mk p d .reader).Valid fs :=
  ⟨h.ref, fun hrole => absurd rfl hrole, fun hrole => by cases hrole⟩

end Claim

/-- The claims of all variables. -/
abbrev Claims (σ : Type*) := σ → Option Claim

namespace Claims

variable {κ α σ : Type*}

/-- All claims are true, and no two variables of a process share a description. -/
structure Valid (fs : LockFs κ α) (claims : Claims σ) : Prop where
  valid : ∀ v c, claims v = some c → c.Valid fs
  inj : ∀ v v' c c', claims v = some c → claims v' = some c' → c.pid = c'.pid →
    c.did = c'.did → v = v'

variable {fs fs' : LockFs κ α} {claims claims' : Claims σ}

/-- Two owners of one file are one variable. -/
theorem Valid.owner_unique (h : Valid fs claims) {v v' : σ} {c c' : Claim}
    (hv : claims v = some c) (hv' : claims v' = some c') (hrole : c.role = .owner)
    (hrole' : c'.role = .owner) (hino : fs.ino c.did = fs.ino c'.did) : v = v' := by
  have hc := h.valid v c hv
  have hc' := h.valid v' c' hv'
  have hdid : c.did = c'.did := by
    have hlock := hc.lock hrole
    rw [hino, hc'.lock hrole'] at hlock
    exact (Option.some.inj hlock).symm
  have hpid : c.pid = c'.pid := by
    rw [← hc.opener (by rw [hrole]; simp), ← hc'.opener (by rw [hrole']; simp), hdid]
  exact h.inj v v' c c' hv hv' hpid hdid

/-! ## Rules -/

/-- Claims may be given up, and entries and contents may change. -/
theorem Valid.sub (h : Valid fs claims) (hdescs : fs'.descs = fs.descs)
    (hlocks : fs'.locks = fs.locks) (hsub : ∀ v c, claims' v = some c → claims v = some c) :
    Valid fs' claims' := by
  constructor
  · intro v c hv
    exact (h.valid v c (hsub v c hv)).congr hdescs hlocks
  · intro v v' c c' hv hv'
    exact h.inj v v' c c' (hsub v c hv) (hsub v' c' hv')

/-- A variable `u` that had no description opens a file. -/
theorem Valid.openFile (h : Valid fs claims) {u : σ} {p i : Nat} {role : Role}
    (hrole : role ≠ .owner) (hself : claims' u = some ⟨p, fs.descs.length, role⟩)
    (hother : ∀ v, v ≠ u → claims' v = claims v) : Valid (fs.openFile p i) claims' := by
  -- an old claim is never on the new description
  have hold : ∀ v c, v ≠ u → claims' v = some c → c.Valid fs ∧ c.did < fs.descs.length := by
    intro v c hne hv
    have hc := h.valid v c (hother v hne ▸ hv)
    exact ⟨hc, LockFs.lt_of_mem_refs hc.ref⟩
  constructor
  · intro v c hv
    by_cases hvu : v = u
    · subst hvu
      rw [hself] at hv
      cases hv
      exact Claim.valid_openFile_self hrole
    · exact (hold v c hvu hv).1.openFile
  · intro v v' c c' hv hv' hpid hdid
    by_cases hvu : v = u
    · by_cases hvu' : v' = u
      · rw [hvu, hvu']
      · have hlt := (hold v' c' hvu' hv').2
        rw [hvu, hself] at hv
        cases hv
        rw [← hdid] at hlt
        exact absurd hlt (Nat.lt_irrefl _)
    · by_cases hvu' : v' = u
      · have hlt := (hold v c hvu hv).2
        rw [hvu', hself] at hv'
        cases hv'
        rw [hdid] at hlt
        exact absurd hlt (Nat.lt_irrefl _)
      · exact h.inj v v' c c' (hother v hvu ▸ hv) (hother v' hvu' ▸ hv') hpid hdid

/-- The variable `u` keeps its description in another role that is true of it. -/
theorem Valid.setRole (h : Valid fs claims) {u : σ} {c₀ : Claim} {role : Role}
    (hu : claims u = some c₀) (hself : claims' u = some ⟨c₀.pid, c₀.did, role⟩)
    (hother : ∀ v, v ≠ u → claims' v = claims v)
    (hvalid : ∀ v c, claims v = some c → c.Valid fs')
    (hrole : (Claim.mk c₀.pid c₀.did role).Valid fs') : Valid fs' claims' := by
  -- every claim is an old one up to its role
  have hold : ∀ v c, claims' v = some c →
      ∃ c₁, claims v = some c₁ ∧ c₁.pid = c.pid ∧ c₁.did = c.did := by
    intro v c hv
    by_cases hvu : v = u
    · subst hvu
      rw [hself] at hv
      cases hv
      exact ⟨c₀, hu, rfl, rfl⟩
    · exact ⟨c, hother v hvu ▸ hv, rfl, rfl⟩
  constructor
  · intro v c hv
    by_cases hvu : v = u
    · subst hvu
      rw [hself] at hv
      cases hv
      exact hrole
    · exact hvalid v c (hother v hvu ▸ hv)
  · intro v v' c c' hv hv' hpid hdid
    obtain ⟨c₁, hc₁, hp₁, hd₁⟩ := hold v c hv
    obtain ⟨c₂, hc₂, hp₂, hd₂⟩ := hold v' c' hv'
    exact h.inj v v' c₁ c₂ hc₁ hc₂ (by rw [hp₁, hp₂, hpid]) (by rw [hd₁, hd₂, hdid])

/-- The candidate `u` is granted the lock. -/
theorem Valid.lock (h : Valid fs claims) {u : σ} {p d : Nat}
    (hu : claims u = some ⟨p, d, .candidate⟩) (hself : claims' u = some ⟨p, d, .owner⟩)
    (hother : ∀ v, v ≠ u → claims' v = claims v) (hcan : fs.canLock d = true) :
    Valid (fs.lock d) claims' :=
  h.setRole hu hself hother (fun v c hv => (h.valid v c hv).lock_of_canLock hcan)
    (h.valid u _ hu).granted

/-- The variable `u` goes on as a reader. -/
theorem Valid.toReader (h : Valid fs claims) {u : σ} {p d : Nat} {role : Role}
    (hu : claims u = some ⟨p, d, role⟩) (hself : claims' u = some ⟨p, d, .reader⟩)
    (hother : ∀ v, v ≠ u → claims' v = claims v) : Valid fs claims' :=
  h.setRole hu hself hother h.valid (h.valid u _ hu).reader

/-- The variable `u` closes its description. -/
theorem Valid.close (h : Valid fs claims) {u : σ} {c₀ : Claim} (hu : claims u = some c₀)
    (hself : claims' u = none) (hother : ∀ v, v ≠ u → claims' v = claims v) :
    Valid (fs.close c₀.pid c₀.did) claims' := by
  have hold : ∀ v c, claims' v = some c → v ≠ u ∧ claims v = some c := by
    intro v c hv
    have hvu : v ≠ u := by
      intro hvu
      rw [hvu, hself] at hv
      cases hv
    exact ⟨hvu, hother v hvu ▸ hv⟩
  constructor
  · intro v c hv
    obtain ⟨hvu, hv⟩ := hold v c hv
    refine (h.valid v c hv).close ?_
    by_cases hpid : c.pid = c₀.pid
    · exact .inr fun hdid => hvu (h.inj v u c c₀ hv hu hpid hdid)
    · exact .inl hpid
  · intro v v' c c' hv hv'
    exact h.inj v v' c c' (hold v c hv).2 (hold v' c' hv').2

/-- The description of the variable `u` goes to the variable `u'`, which had none. -/
theorem Valid.move (h : Valid fs claims) {u u' : σ} {c₀ : Claim} (hu : claims u = some c₀)
    (hne : u ≠ u') (hself : claims' u = none) (hself' : claims' u' = some c₀)
    (hother : ∀ v, v ≠ u → v ≠ u' → claims' v = claims v) : Valid fs claims' := by
  -- where each claim comes from
  have hold : ∀ v c, claims' v = some c →
      (v = u' ∧ c = c₀) ∨ (v ≠ u ∧ v ≠ u' ∧ claims v = some c) := by
    intro v c hv
    by_cases hvu' : v = u'
    · subst hvu'
      rw [hself'] at hv
      exact .inl ⟨rfl, (Option.some.inj hv).symm⟩
    · have hvu : v ≠ u := by
        intro hvu
        rw [hvu, hself] at hv
        cases hv
      exact .inr ⟨hvu, hvu', hother v hvu hvu' ▸ hv⟩
  constructor
  · intro v c hv
    rcases hold v c hv with ⟨-, rfl⟩ | ⟨-, -, hv⟩
    · exact h.valid u c hu
    · exact h.valid v c hv
  · intro v v' c c' hv hv' hpid hdid
    rcases hold v c hv with ⟨rfl, rfl⟩ | ⟨hvu, -, hv⟩
    · rcases hold v' c' hv' with ⟨rfl, -⟩ | ⟨hvu', -, hv'⟩
      · rfl
      · exact absurd (h.inj v' u c' c hv' hu hpid.symm hdid.symm) hvu'
    · rcases hold v' c' hv' with ⟨rfl, rfl⟩ | ⟨-, -, hv'⟩
      · exact absurd (h.inj v u c c' hv hu hpid hdid) hvu
      · exact h.inj v v' c c' hv hv' hpid hdid

/-- Process `p` forks.  A variable `v` of the child is the copy of `orig v`. -/
theorem Valid.fork (h : Valid fs claims) {p q : Nat} (orig : σ → σ)
    (hfresh : ∀ v c, claims v = some c → c.pid ≠ q)
    (hcopy : ∀ v c, claims' v = some c → claims v = some c ∨
      ∃ c₀, claims (orig v) = some c₀ ∧ c₀.pid = p ∧ c = c₀.inherited q)
    (hinj : ∀ v v' c c', claims' v = some c → claims' v' = some c' → c.pid = q → c'.pid = q →
      orig v = orig v' → v = v') : Valid (fs.fork p q) claims' := by
  constructor
  · intro v c hv
    rcases hcopy v c hv with hv₀ | ⟨c₀, hv₀, rfl, rfl⟩
    · exact (h.valid v c hv₀).fork
    · exact (h.valid _ c₀ hv₀).inherited
  · intro v v' c c' hv hv' hpid hdid
    rcases hcopy v c hv with hv₀ | ⟨c₀, hv₀, hp₀, rfl⟩
    · rcases hcopy v' c' hv' with hv₁ | ⟨c₁, -, -, rfl⟩
      · exact h.inj v v' c c' hv₀ hv₁ hpid hdid
      · exact absurd hpid (hfresh v c hv₀)
    · rcases hcopy v' c' hv' with hv₁ | ⟨c₁, hv₁, hp₁, rfl⟩
      · exact absurd hpid.symm (hfresh v' c' hv₁)
      · exact hinj v v' _ _ hv hv' rfl rfl (h.inj _ _ c₀ c₁ hv₀ hv₁ (by rw [hp₀, hp₁]) hdid)

/-- Process `p` ends, and with it all its variables. -/
theorem Valid.exit (h : Valid fs claims) {p : Nat}
    (hsub : ∀ v c, claims' v = some c → claims v = some c ∧ c.pid ≠ p) :
    Valid (fs.exit p) claims' := by
  constructor
  · intro v c hv
    obtain ⟨hv, hne⟩ := hsub v c hv
    exact (h.valid v c hv).exit hne
  · intro v v' c c' hv hv'
    exact h.inj v v' c c' (hsub v c hv).1 (hsub v' c' hv').1

/-- Where nothing is open, nothing is claimed. -/
theorem Valid.none (hnone : ∀ v, claims v = .none) : Valid fs claims := by
  constructor
  · intro v c hv
    rw [hnone v] at hv
    cases hv
  · intro v v' c c' hv
    rw [hnone v] at hv
    cases hv

end Claims
