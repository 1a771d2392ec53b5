import Durastream.Lib.Claims

/-!
# What is open, and what is locked

`Claims.Valid` says that the claims of the variables are true.  `Claims.Held` is the
converse: what a process has open, one of its variables has open, and a description has
the lock of its file exactly if the variable says so.  So no description is left open
that no variable could close, and a file is locked as long as a variable that holds its
lock has it open (`Claims.Held.locked_iff_held`).

`holds` is what the variables say.  The copy of a variable in a forked child holds what
the variable holds, since the two share the description.  A process may only fork while
it has no candidates: of these there are no copies, so the child would have a description
open that no variable of it knows.
-/

namespace LockFs

variable {κ α : Type*} {fs : LockFs κ α} {c d e i p q : Nat}

theorem of_mem_refs_openFile (h : q ∈ (fs.openFile p i).refs d) :
    q ∈ fs.refs d ∨ d = fs.descs.length ∧ q = p := by
  have hlt := lt_of_mem_refs h
  rw [openFile, List.length_append, List.length_singleton] at hlt
  rcases Nat.lt_or_eq_of_le (Nat.le_of_lt_succ hlt) with hlt | rfl
  · rw [refs_openFile hlt] at h
    exact .inl h
  · rw [refs_openFile_self] at h
    exact .inr ⟨rfl, List.mem_singleton.mp h⟩

theorem of_mem_refs_close (h : p ∈ (fs.close c e).refs d) : p ∈ fs.refs d ∧ (p ≠ c ∨ d ≠ e) := by
  rw [refs, close, List.getElem?_modify] at h
  rw [refs]
  cases hd : fs.descs[d]? with
  | none =>
      rw [hd] at h
      cases h
  | some f =>
      rw [hd] at h
      by_cases he : e = d
      · subst he
        have hmem : p ∈ f.refs ∧ p ≠ c := by simpa using h
        exact ⟨hmem.1, .inl hmem.2⟩
      · have hmem : p ∈ f.refs := by simpa [he] using h
        exact ⟨hmem, .inr (Ne.symm he)⟩

theorem of_mem_refs_fork (h : q ∈ (fs.fork p c).refs d) :
    q ∈ fs.refs d ∨ q = c ∧ p ∈ fs.refs d := by
  rw [refs, fork, List.getElem?_map] at h
  rw [refs]
  cases hd : fs.descs[d]? with
  | none =>
      rw [hd] at h
      cases h
  | some f =>
      rw [hd] at h
      simp only [Option.map_some, Option.elim_some] at h ⊢
      split at h
      · next hp =>
          rcases List.mem_cons.mp h with hq | hq
          · exact .inr ⟨hq, hp⟩
          · exact .inl hq
      · exact .inl h

theorem of_mem_refs_exit (h : p ∈ (fs.exit c).refs d) : p ∈ fs.refs d ∧ p ≠ c := by
  rw [refs, exit, List.getElem?_map] at h
  rw [refs]
  cases hd : fs.descs[d]? with
  | none =>
      rw [hd] at h
      cases h
  | some f =>
      rw [hd] at h
      simpa using h

@[simp] theorem refs_powerLoss {cell : κ → Nat} {loss : Nat → Loss} :
    (fs.powerLoss cell loss).refs d = [] := by
  rw [refs, powerLoss, List.getElem?_map]
  cases fs.descs[d]? <;> rfl

/-- The description that was granted the lock of file `i` is open somewhere. -/
def locked (fs : LockFs κ α) (i : Nat) : Bool :=
  match fs.locks i with
  | some e => !(fs.refs e).isEmpty
  | none => false

end LockFs

namespace Claims

variable {κ α σ : Type*}

/-- What is open is claimed, and what is locked is held. -/
structure Held (fs : LockFs κ α) (claims : Claims σ) (holds : σ → Bool) : Prop where
  covers : ∀ p d, p ∈ fs.refs d → ∃ v c, claims v = some c ∧ c.pid = p ∧ c.did = d
  placed : ∀ i e, fs.locks i = some e → e < fs.descs.length ∧ fs.ino e = i
  lock_iff : ∀ v c, claims v = some c →
    (fs.locks (fs.ino c.did) = some c.did ↔ holds v = true)
  /-- Nobody shares a description that may still be locked. -/
  sole : ∀ v c, claims v = some c → c.role = .candidate → ∀ p ∈ fs.refs c.did, p = c.pid

variable {fs fs' : LockFs κ α} {claims claims' : Claims σ} {holds holds' : σ → Bool}

/-- Variables may pass their descriptions on, and entries and contents may change. -/
theorem Held.keep (h : Held fs claims holds) (hdescs : fs'.descs = fs.descs)
    (hlocks : fs'.locks = fs.locks)
    (hold : ∀ v c, claims' v = some c → ∃ u c₀, claims u = some c₀ ∧ c₀.pid = c.pid ∧
      c₀.did = c.did ∧ (c.role = .candidate → c₀.role = .candidate) ∧ holds' v = holds u)
    (hkept : ∀ v c, claims v = some c →
      ∃ u c', claims' u = some c' ∧ c'.pid = c.pid ∧ c'.did = c.did) :
    Held fs' claims' holds' := by
  have hrefs : ∀ d, fs'.refs d = fs.refs d := fun d => by rw [LockFs.refs, LockFs.refs, hdescs]
  have hino : ∀ d, fs'.ino d = fs.ino d := fun d => by rw [LockFs.ino, LockFs.ino, hdescs]
  constructor
  · intro p d hmem
    rw [hrefs] at hmem
    obtain ⟨v, c, hc, hpid, hdid⟩ := h.covers p d hmem
    obtain ⟨u, c', hc', hpid', hdid'⟩ := hkept v c hc
    exact ⟨u, c', hc', hpid'.trans hpid, hdid'.trans hdid⟩
  · intro i e hlock
    rw [hlocks] at hlock
    rw [hino, hdescs]
    exact h.placed i e hlock
  · intro v c hc
    obtain ⟨u, c₀, hc₀, -, hdid, -, hholds⟩ := hold v c hc
    rw [hlocks, hino, hholds, ← hdid]
    exact h.lock_iff u c₀ hc₀
  · intro v c hc hrole p hp
    obtain ⟨u, c₀, hc₀, hpid, hdid, hrole₀, -⟩ := hold v c hc
    rw [hrefs, ← hdid] at hp
    rw [← hpid]
    exact h.sole u c₀ hc₀ (hrole₀ hrole) p hp

/-- The variable `u` opens a file. -/
theorem Held.openFile (h : Held fs claims holds) (hv : Valid fs claims) {u : σ} {p i : Nat}
    {role : Role} (hnone : claims u = none)
    (hself : claims' u = some ⟨p, fs.descs.length, role⟩)
    (hother : ∀ v, v ≠ u → claims' v = claims v) (hfree : holds' u = false)
    (hholds : ∀ v, v ≠ u → holds' v = holds v) : Held (fs.openFile p i) claims' holds' := by
  have hlt : ∀ v c, claims v = some c → v ≠ u ∧ c.did < fs.descs.length := by
    intro v c hc
    refine ⟨?_, LockFs.lt_of_mem_refs (hv.valid v c hc).ref⟩
    rintro rfl
    rw [hnone] at hc
    cases hc
  constructor
  · intro q d hmem
    rcases LockFs.of_mem_refs_openFile hmem with hmem | ⟨rfl, rfl⟩
    · obtain ⟨v, c, hc, hpid, hdid⟩ := h.covers q d hmem
      exact ⟨v, c, by rw [hother v (hlt v c hc).1, hc], hpid, hdid⟩
    · exact ⟨u, _, hself, rfl, rfl⟩
  · intro i' e hlock
    obtain ⟨he, hino⟩ := h.placed i' e hlock
    refine ⟨?_, (LockFs.ino_openFile he).trans hino⟩
    rw [LockFs.openFile, List.length_append]
    exact Nat.lt_add_right _ he
  · intro v c hc
    by_cases hvu : v = u
    · subst hvu
      rw [hself] at hc
      cases hc
      rw [hfree, LockFs.ino_openFile_self]
      refine iff_of_false (fun hlock => ?_) (by simp)
      exact absurd (h.placed i fs.descs.length hlock).1 (Nat.lt_irrefl _)
    · rw [hother v hvu] at hc
      rw [LockFs.ino_openFile (hlt v c hc).2, hholds v hvu]
      exact h.lock_iff v c hc
  · intro v c hc hrole q hq
    by_cases hvu : v = u
    · subst hvu
      rw [hself] at hc
      cases hc
      rw [LockFs.refs_openFile_self] at hq
      exact List.mem_singleton.mp hq
    · rw [hother v hvu] at hc
      rw [LockFs.refs_openFile (hlt v c hc).2] at hq
      exact h.sole v c hc hrole q hq

/-- The candidate `u` is granted the lock. -/
theorem Held.lock (h : Held fs claims holds) (hv : Valid fs claims) {u : σ} {p d : Nat}
    (hu : claims u = some ⟨p, d, .candidate⟩) (hself : claims' u = some ⟨p, d, .owner⟩)
    (hother : ∀ v, v ≠ u → claims' v = claims v) (hcan : fs.canLock d = true)
    (hheld : holds' u = true) (hholds : ∀ v, v ≠ u → holds' v = holds v) :
    Held (fs.lock d) claims' holds' := by
  have href := (hv.valid u _ hu).ref
  -- nobody else has the description
  have hsole : ∀ v c, claims v = some c → v ≠ u → c.did ≠ d := by
    intro v c hc hvu hdid
    have hpid : c.pid = p := h.sole u _ hu rfl c.pid (hdid ▸ (hv.valid v c hc).ref)
    exact hvu (hv.inj v u c _ hc hu hpid hdid)
  constructor
  · intro q e hmem
    obtain ⟨v, c, hc, hpid, hdid⟩ := h.covers q e hmem
    by_cases hvu : v = u
    · subst hvu
      rw [hu] at hc
      cases hc
      exact ⟨v, _, hself, hpid, hdid⟩
    · exact ⟨v, c, by rw [hother v hvu, hc], hpid, hdid⟩
  · intro i e hlock
    by_cases hi : i = fs.ino d
    · subst hi
      have heq : Function.update fs.locks (fs.ino d) (some d) (fs.ino d) = some e := hlock
      rw [Function.update_self] at heq
      cases heq
      exact ⟨LockFs.lt_of_mem_refs href, rfl⟩
    · have heq : Function.update fs.locks (fs.ino d) (some d) i = some e := hlock
      rw [Function.update_of_ne hi] at heq
      exact h.placed i e heq
  · intro v c hc
    by_cases hvu : v = u
    · subst hvu
      rw [hself] at hc
      cases hc
      exact iff_of_true (Function.update_self _ _ _) hheld
    · rw [hother v hvu] at hc
      rw [hholds v hvu, ← h.lock_iff v c hc]
      have hne := hsole v c hc hvu
      show Function.update fs.locks (fs.ino d) (some d) (fs.ino c.did) = some c.did ↔ _
      by_cases hino : fs.ino c.did = fs.ino d
      · rw [hino, Function.update_self]
        refine iff_of_false (fun heq => hne (Option.some.inj heq).symm) fun hlock => ?_
        rcases LockFs.canLock_cases hcan with hnone | ⟨e, hsome, he⟩
        · rw [hlock] at hnone
          cases hnone
        · rw [hlock] at hsome
          cases hsome
          rcases he with he | he
          · exact hne he
          · have hopen := (hv.valid v c hc).ref
            rw [he] at hopen
            cases hopen
      · rw [Function.update_of_ne hino]
  · intro v c hc hrole
    by_cases hvu : v = u
    · subst hvu
      rw [hself] at hc
      cases hc
      cases hrole
    · exact h.sole v c (hother v hvu ▸ hc) hrole

/-- The variable `u` closes its description. -/
theorem Held.close (h : Held fs claims holds) {u : σ} {c₀ : Claim} (hu : claims u = some c₀)
    (hself : claims' u = none) (hother : ∀ v, v ≠ u → claims' v = claims v)
    (hholds : ∀ v, v ≠ u → holds' v = holds v) :
    Held (fs.close c₀.pid c₀.did) claims' holds' := by
  have hold : ∀ v c, claims' v = some c → v ≠ u ∧ claims v = some c := by
    intro v c hc
    have hvu : v ≠ u := by
      rintro rfl
      rw [hself] at hc
      cases hc
    exact ⟨hvu, hother v hvu ▸ hc⟩
  constructor
  · intro p d hmem
    obtain ⟨hmem, hne⟩ := LockFs.of_mem_refs_close hmem
    obtain ⟨v, c, hc, rfl, rfl⟩ := h.covers p d hmem
    have hvu : v ≠ u := by
      rintro rfl
      rw [hu] at hc
      cases hc
      simp at hne
    exact ⟨v, c, by rw [hother v hvu, hc], rfl, rfl⟩
  · intro i e hlock
    obtain ⟨he, hino⟩ := h.placed i e hlock
    refine ⟨?_, LockFs.ino_close.trans hino⟩
    rw [LockFs.close, List.length_modify]
    exact he
  · intro v c hc
    obtain ⟨hvu, hc⟩ := hold v c hc
    rw [LockFs.ino_close, hholds v hvu]
    exact h.lock_iff v c hc
  · intro v c hc hrole p hp
    exact h.sole v c (hold v c hc).2 hrole p (LockFs.of_mem_refs_close hp).1

/-- Process `p` forks.  Every claim of it has a copy in the child, and it has no
candidates. -/
theorem Held.fork (h : Held fs claims holds) {p q : Nat}
    (hold : ∀ v c, claims' v = some c → ∃ u c₀, claims u = some c₀ ∧ holds' v = holds u ∧
      (c = c₀ ∨ c = c₀.inherited q))
    (hkept : ∀ v c, claims v = some c → claims' v = some c)
    (hcopy : ∀ v c, claims v = some c → c.pid = p →
      c.role ≠ .candidate ∧ ∃ u, claims' u = some (c.inherited q)) :
    Held (fs.fork p q) claims' holds' := by
  constructor
  · intro r d hmem
    rcases LockFs.of_mem_refs_fork hmem with hopen | ⟨rfl, hparent⟩
    · obtain ⟨v, c, hc, hpid, hdid⟩ := h.covers r d hopen
      exact ⟨v, c, hkept v c hc, hpid, hdid⟩
    · obtain ⟨v, c, hc, hpid, hdid⟩ := h.covers p d hparent
      obtain ⟨u, hu⟩ := (hcopy v c hc hpid).2
      exact ⟨u, _, hu, rfl, hdid⟩
  · intro i e hlock
    obtain ⟨he, hino⟩ := h.placed i e hlock
    refine ⟨?_, LockFs.ino_fork.trans hino⟩
    rw [LockFs.fork, List.length_map]
    exact he
  · intro v c hc
    obtain ⟨u, c₀, hc₀, hholds, hcases⟩ := hold v c hc
    rw [LockFs.ino_fork, hholds, ← h.lock_iff u c₀ hc₀]
    rcases hcases with rfl | rfl <;> rfl
  · intro v c hc hrole r hr
    obtain ⟨u, c₀, hc₀, -, rfl | rfl⟩ := hold v c hc
    · rcases LockFs.of_mem_refs_fork hr with hr | ⟨-, hr⟩
      · exact h.sole u c hc₀ hrole r hr
      · have hpid := h.sole u c hc₀ hrole p hr
        exact absurd hrole (hcopy u c hc₀ hpid.symm).1
    · cases hrole

/-- Process `p` ends, and with it all its variables. -/
theorem Held.exit (h : Held fs claims holds) {p : Nat}
    (hold : ∀ v c, claims' v = some c → claims v = some c ∧ holds' v = holds v)
    (hkept : ∀ v c, claims v = some c → c.pid ≠ p → claims' v = some c) :
    Held (fs.exit p) claims' holds' := by
  constructor
  · intro q d hmem
    obtain ⟨hmem, hne⟩ := LockFs.of_mem_refs_exit hmem
    obtain ⟨v, c, hc, rfl, hdid⟩ := h.covers q d hmem
    exact ⟨v, c, hkept v c hc hne, rfl, hdid⟩
  · intro i e hlock
    obtain ⟨he, hino⟩ := h.placed i e hlock
    refine ⟨?_, LockFs.ino_exit.trans hino⟩
    rw [LockFs.exit, List.length_map]
    exact he
  · intro v c hc
    obtain ⟨hc, hholds⟩ := hold v c hc
    rw [LockFs.ino_exit, hholds]
    exact h.lock_iff v c hc
  · intro v c hc hrole q hq
    exact h.sole v c (hold v c hc).1 hrole q (LockFs.of_mem_refs_exit hq).1

/-- Where nothing is open and nothing locked, nothing is held. -/
theorem Held.none (hrefs : ∀ d, fs.refs d = []) (hlocks : ∀ i, fs.locks i = .none)
    (hnone : ∀ v, claims v = .none) : Held fs claims holds := by
  constructor
  · intro p d hmem
    rw [hrefs] at hmem
    cases hmem
  · intro i e hlock
    rw [hlocks] at hlock
    cases hlock
  · intro v c hc
    rw [hnone] at hc
    cases hc
  · intro v c hc
    rw [hnone] at hc
    cases hc

end Claims
