import Mathlib.Tactic.TypeStar

/-!
# Runs of a labelled transition system

A system is a partial step function: `step s a` is the state the label `a` leads
to, or `none` where `a` is not enabled.  A label carries every choice the
environment makes, so a run is a list of labels and is computed.

`run_invariant` is the induction over runs.  `run_invariant_of_meets` is the
same rule for the runs whose steps all meet a condition on the state before the
step, and `run_rel_of_meets` carries a preorder from step to step.  Where a step
that breaks the condition always does harm, `good_iff_meets` says which runs do
none.

`Post` says how the runs end that stop; where a program is a straight line, one rule
for each place gives it from the places after it.

A system whose steps also give a reply is run by `replies`, and
`replies_of_simulation` is forward simulation for two of these.
-/

namespace Lts

variable {σ α : Type*} {step : σ → α → Option σ}

/-! ## Runs -/

/-- The state a list of labels leads to, if each of them is enabled in turn. -/
def run (step : σ → α → Option σ) : σ → List α → Option σ
  | s, [] => some s
  | s, a :: as =>
      match step s a with
      | some t => run step t as
      | none => none

/-- Every step of the run meets the condition `ok` in the state before it. -/
def Meets (step : σ → α → Option σ) (ok : σ → α → Prop) : σ → List α → Prop
  | _, [] => True
  | s, a :: as =>
      ok s a ∧
        match step s a with
        | some t => Meets step ok t as
        | none => True

instance Meets.decidable {ok : σ → α → Prop} [∀ s a, Decidable (ok s a)] :
    ∀ (s : σ) (as : List α), Decidable (Meets step ok s as)
  | _, [] => .isTrue trivial
  | s, a :: as =>
      have : Decidable (match step s a with
          | some t => Meets step ok t as
          | none => True) :=
        match step s a with
        | some t => Meets.decidable t as
        | none => .isTrue trivial
      inferInstanceAs (Decidable (ok s a ∧ _))

@[simp] theorem run_nil (s : σ) : run step s [] = some s := rfl

theorem run_cons (s : σ) (a : α) (as : List α) :
    run step s (a :: as) = (step s a).bind fun t => run step t as := by
  rw [run]
  cases step s a <;> rfl

/-- The first step of a run and the rest of it. -/
theorem run_cons_eq_some {s t : σ} {a : α} {as : List α}
    (h : run step s (a :: as) = some t) :
    ∃ u, step s a = some u ∧ run step u as = some t := by
  rw [run_cons] at h
  exact Option.bind_eq_some_iff.mp h

/-- Runs compose. -/
theorem run_append (s : σ) (as bs : List α) :
    run step s (as ++ bs) = (run step s as).bind fun t => run step t bs := by
  induction as generalizing s with
  | nil => rfl
  | cons a as ih =>
      rw [List.cons_append, run_cons, run_cons]
      cases step s a with
      | none => rfl
      | some t => exact ih t

theorem Meets.head {ok : σ → α → Prop} {s : σ} {a : α} {as : List α}
    (h : Meets step ok s (a :: as)) : ok s a := h.1

theorem Meets.tail {ok : σ → α → Prop} {s t : σ} {a : α} {as : List α}
    (h : Meets step ok s (a :: as)) (hst : step s a = some t) : Meets step ok t as := by
  have h2 := h.2
  rw [hst] at h2
  exact h2

/-- A condition on the labels alone is one on the steps. -/
theorem Meets.and_mem {ok : σ → α → Prop} {P : α → Prop} {s : σ} {as : List α}
    (h : Meets step ok s as) (hP : ∀ a ∈ as, P a) : Meets step (fun s a => P a ∧ ok s a) s as := by
  induction as generalizing s with
  | nil => trivial
  | cons a as ih =>
      refine ⟨⟨hP a List.mem_cons_self, h.head⟩, ?_⟩
      cases hst : step s a with
      | none => trivial
      | some t => exact ih (h.tail hst) fun b hb => hP b (List.mem_cons_of_mem a hb)

/-- What every label of the run meets, every step of it does. -/
theorem Meets.of_mem {P : α → Prop} {s : σ} {as : List α} (hP : ∀ a ∈ as, P a) :
    Meets step (fun _ a => P a) s as := by
  induction as generalizing s with
  | nil => trivial
  | cons a as ih =>
      refine ⟨hP a List.mem_cons_self, ?_⟩
      cases hst : step s a with
      | none => trivial
      | some t => exact ih fun b hb => hP b (List.mem_cons_of_mem a hb)

/-- A weaker condition. -/
theorem Meets.mono {ok ok' : σ → α → Prop} (hle : ∀ s a, ok s a → ok' s a) {s : σ} {as : List α}
    (h : Meets step ok s as) : Meets step ok' s as := by
  induction as generalizing s with
  | nil => trivial
  | cons a as ih =>
      refine ⟨hle s a h.head, ?_⟩
      cases hst : step s a with
      | none => trivial
      | some t => exact ih (h.tail hst)

/-- Two conditions on the steps are one. -/
theorem Meets.and {ok ok' : σ → α → Prop} {s : σ} {as : List α} (h : Meets step ok s as)
    (h' : Meets step ok' s as) : Meets step (fun s a => ok s a ∧ ok' s a) s as := by
  induction as generalizing s with
  | nil => trivial
  | cons a as ih =>
      refine ⟨⟨h.head, h'.head⟩, ?_⟩
      cases hst : step s a with
      | none => trivial
      | some t => exact ih (h.tail hst) (h'.tail hst)

/-! ## Rules -/

/-- What every step allowed by `ok` preserves holds at the end of a run whose
steps all meet `ok`. -/
theorem run_invariant_of_meets {ok : σ → α → Prop} {I : σ → Prop}
    (hstep : ∀ s a t, I s → ok s a → step s a = some t → I t) {s t : σ} {as : List α}
    (hrun : run step s as = some t) (hmeets : Meets step ok s as) (hs : I s) : I t := by
  induction as generalizing s with
  | nil =>
      cases hrun
      exact hs
  | cons a as ih =>
      obtain ⟨u, hu, hrest⟩ := run_cons_eq_some hrun
      exact ih hrest (hmeets.tail hu) (hstep s a u hs hmeets.head hu)

/-- What every step preserves holds at the end of every run. -/
theorem run_invariant {I : σ → Prop}
    (hstep : ∀ s a t, I s → step s a = some t → I t) {s t : σ} {as : List α}
    (hrun : run step s as = some t) (hs : I s) : I t := by
  induction as generalizing s with
  | nil =>
      cases hrun
      exact hs
  | cons a as ih =>
      obtain ⟨u, hu, hrest⟩ := run_cons_eq_some hrun
      exact ih hrest (hstep s a u hs hu)

/-- A preorder that every allowed step from an invariant state goes up, the
whole run goes up. -/
theorem run_rel_of_meets {ok : σ → α → Prop} {I : σ → Prop} {R : σ → σ → Prop}
    (hrefl : ∀ s, R s s) (htrans : ∀ s t u, R s t → R t u → R s u)
    (hstep : ∀ s a t, I s → ok s a → step s a = some t → I t ∧ R s t) {s t : σ} {as : List α}
    (hrun : run step s as = some t) (hmeets : Meets step ok s as) (hs : I s) :
    I t ∧ R s t := by
  induction as generalizing s with
  | nil =>
      cases hrun
      exact ⟨hs, hrefl _⟩
  | cons a as ih =>
      obtain ⟨u, hu, hrest⟩ := run_cons_eq_some hrun
      obtain ⟨hIu, hRu⟩ := hstep s a u hs hmeets.head hu
      obtain ⟨hIt, hRt⟩ := ih hrest (hmeets.tail hu) hIu
      exact ⟨hIt, htrans _ _ _ hRu hRt⟩

/-- If a step comes to a good state exactly from a good one under the condition, a run
ends in a good state exactly if it starts in one and all its steps meet the condition. -/
theorem good_iff_meets {ok : σ → α → Prop} {I G : σ → Prop}
    (hstep : ∀ s a t, I s → step s a = some t → I t ∧ (G t ↔ G s ∧ ok s a)) {s t : σ}
    {as : List α} (hrun : run step s as = some t) (hs : I s) :
    G t ↔ G s ∧ Meets step ok s as := by
  induction as generalizing s with
  | nil =>
      cases hrun
      exact ⟨fun h => ⟨h, trivial⟩, fun h => h.1⟩
  | cons a as ih =>
      obtain ⟨u, hu, hrest⟩ := run_cons_eq_some hrun
      obtain ⟨hIu, hgood⟩ := hstep s a u hs hu
      rw [ih hrest hIu, hgood, Meets, hu, and_assoc]

/-- Every run from a state that stops ends as `Q` says, given its labels. -/
def Post (step : σ → α → Option σ) (stop : σ → Prop) (Q : List α → σ → Prop) (s : σ) : Prop :=
  ∀ (as : List α) (t : σ), run step s as = some t → stop t → Q as t

namespace Post

variable {stop : σ → Prop} {Q Q' : List α → σ → Prop} {s : σ}

theorem mono (h : Post step stop Q s) (hle : ∀ as t, Q as t → Q' as t) : Post step stop Q' s :=
  fun as t hrun hstop => hle as t (h as t hrun hstop)

/-- No label is enabled. -/
theorem done (hstuck : ∀ a, step s a = none) (hQ : Q [] s) : Post step stop Q s := by
  intro as t hrun _
  cases as with
  | nil =>
      cases hrun
      exact hQ
  | cons a as =>
      rw [run_cons, hstuck] at hrun
      cases hrun

/-- The run goes on. -/
theorem cons (hgo : ¬stop s)
    (hnext : ∀ a t, step s a = some t → Post step stop (fun as => Q (a :: as)) t) :
    Post step stop Q s := by
  intro as t hrun hstop
  cases as with
  | nil =>
      cases hrun
      exact absurd hstop hgo
  | cons a as =>
      obtain ⟨u, hstep, hrest⟩ := run_cons_eq_some hrun
      exact hnext a u hstep as t hrest hstop

end Post

/-! ## Systems that reply -/

section Replies

variable {τ ρ : Type*} {step : σ → α → Option (σ × ρ)} {step' : τ → α → Option (τ × ρ)}

/-- The replies to a list of labels, if each of them is enabled in turn. -/
def replies (step : σ → α → Option (σ × ρ)) : σ → List α → Option (List ρ)
  | _, [] => some []
  | s, a :: as =>
      match step s a with
      | some (t, r) => (replies step t as).map (r :: ·)
      | none => none

/-- If a relation lets one system follow every step of the other with the same
reply, the first gives the replies of the second. -/
theorem replies_of_simulation {ok : α → Prop} {R : σ → τ → Prop}
    (hstep : ∀ s t a t' r, R s t → ok a → step' t a = some (t', r) →
      ∃ s', step s a = some (s', r) ∧ R s' t') {s : σ} {t : τ} {as : List α} {rs : List ρ}
    (hR : R s t) (hok : ∀ a ∈ as, ok a) (hrun : replies step' t as = some rs) :
    replies step s as = some rs := by
  induction as generalizing s t rs with
  | nil =>
      cases hrun
      rfl
  | cons a as ih =>
      rw [replies] at hrun
      split at hrun
      · next t' r hst =>
          obtain ⟨rs', hrest, rfl⟩ := Option.map_eq_some_iff.mp hrun
          obtain ⟨s', hs', hR'⟩ := hstep s t a t' r hR (hok a List.mem_cons_self) hst
          have hok' : ∀ b ∈ as, ok b := fun b hb => hok b (List.mem_cons_of_mem a hb)
          rw [replies, hs']
          exact congrArg (Option.map (r :: ·)) (ih hR' hok' hrest)
      · cases hrun

end Replies

end Lts
