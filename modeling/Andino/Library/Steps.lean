import Mathlib.Data.List.Induction

/-!
# Runs of a partial step function

A machine is a step function that may have no next state and that emits a list
of observations. Runs, the labels read along a run and the induction rules for
them are stated once here; every machine of the development uses these.
-/
namespace Steps

variable {σ α ω β : Type}

/-- All actions in order; `none` as soon as one of them has no next state. -/
def run (step : σ → α → Option (σ × List ω)) : σ → List α → Option (σ × List ω)
  | s, [] => some (s, [])
  | s, a :: as =>
    match step s a with
    | none => none
    | some (s', o) => (run step s' as).map (fun r => (r.1, o ++ r.2))

@[simp] theorem run_nil (step : σ → α → Option (σ × List ω)) (s : σ) :
    run step s [] = some (s, []) := rfl

theorem run_cons (step : σ → α → Option (σ × List ω)) (s : σ) (a : α) (as : List α) :
    run step s (a :: as) =
      (step s a).bind (fun r => (run step r.1 as).map (fun q => (q.1, r.2 ++ q.2))) := by
  rw [run]
  cases step s a <;> rfl

theorem run_singleton (step : σ → α → Option (σ × List ω)) (s : σ) (a : α) :
    run step s [a] = step s a := by
  rw [run_cons]
  cases step s a <;> simp

theorem run_append (step : σ → α → Option (σ × List ω)) (s : σ) (as bs : List α) :
    run step s (as ++ bs) =
      (run step s as).bind (fun r => (run step r.1 bs).map (fun q => (q.1, r.2 ++ q.2))) := by
  induction as generalizing s with
  | nil => simp
  | cons a as ih =>
    rw [List.cons_append, run_cons, run_cons]
    cases step s a with
    | none => rfl
    | some r =>
      simp only [Option.bind_some, ih]
      cases run step r.1 as with
      | none => rfl
      | some q =>
        simp only [Option.bind_some, Option.map_some, Option.map_map]
        congr 1
        funext p
        simp

theorem run_step {step : σ → α → Option (σ × List ω)} {s t u : σ} {a : α} {as : List α}
    {o₁ o₂ : List ω} (h₁ : step s a = some (t, o₁)) (h₂ : run step t as = some (u, o₂)) :
    run step s (a :: as) = some (u, o₁ ++ o₂) := by
  rw [run_cons, h₁]
  simp [h₂]

/-- A nonempty run is a step and a run. -/
theorem run_cons_eq_some {step : σ → α → Option (σ × List ω)} {s u : σ} {a : α} {as : List α}
    {o : List ω} (h : run step s (a :: as) = some (u, o)) :
    ∃ t o₁ o₂, step s a = some (t, o₁) ∧ run step t as = some (u, o₂) ∧ o = o₁ ++ o₂ := by
  rw [run_cons] at h
  obtain ⟨⟨t, o₁⟩, h₁, h⟩ := Option.bind_eq_some_iff.mp h
  obtain ⟨⟨v, o₂⟩, h₂, he⟩ := Option.map_eq_some_iff.mp h
  simp only [Prod.mk.injEq] at he
  obtain ⟨rfl, rfl⟩ := he
  exact ⟨t, o₁, o₂, h₁, h₂, rfl⟩

/-- A run splits at every point of its action list. -/
theorem run_append_eq_some {step : σ → α → Option (σ × List ω)} {s u : σ} {as bs : List α}
    {o : List ω} (h : run step s (as ++ bs) = some (u, o)) :
    ∃ t o₁ o₂, run step s as = some (t, o₁) ∧ run step t bs = some (u, o₂) ∧ o = o₁ ++ o₂ := by
  rw [run_append] at h
  obtain ⟨⟨t, o₁⟩, h₁, h⟩ := Option.bind_eq_some_iff.mp h
  obtain ⟨⟨v, o₂⟩, h₂, he⟩ := Option.map_eq_some_iff.mp h
  simp only [Prod.mk.injEq] at he
  obtain ⟨rfl, rfl⟩ := he
  exact ⟨t, o₁, o₂, h₁, h₂, rfl⟩

theorem run_join {step : σ → α → Option (σ × List ω)} {s t u : σ} {as bs : List α}
    {o₁ o₂ : List ω} (h₁ : run step s as = some (t, o₁)) (h₂ : run step t bs = some (u, o₂)) :
    run step s (as ++ bs) = some (u, o₁ ++ o₂) := by
  rw [run_append, h₁]
  simp [h₂]

/-- A machine whose steps are runs of a smaller machine runs as that machine does. -/
theorem run_flatMap {step : σ → α → Option (σ × List ω)} {big : σ → β → Option (σ × List ω)}
    (actions : β → List α) (h : ∀ s b, big s b = run step s (actions b)) (s : σ) (bs : List β) :
    run big s bs = run step s (bs.flatMap actions) := by
  induction bs generalizing s with
  | nil => rfl
  | cons b bs ih =>
    rw [List.flatMap_cons, run_cons, run_append, h]
    simp only [ih]

/-- What every step preserves holds after every run. -/
theorem run_invariant {step : σ → α → Option (σ × List ω)} (I : σ → Prop)
    (hstep : ∀ s a s' o, I s → step s a = some (s', o) → I s')
    {s s' : σ} {as : List α} {o : List ω} (h : I s) (hr : run step s as = some (s', o)) :
    I s' := by
  induction as generalizing s o with
  | nil =>
    simp only [run_nil, Option.some.injEq, Prod.mk.injEq] at hr
    exact hr.1 ▸ h
  | cons a as ih =>
    obtain ⟨t, o₁, o₂, ha, hr, -⟩ := run_cons_eq_some hr
    exact ih (hstep s a t o₁ h ha) hr

/-- Two states that all steps keep related look the same along every run. -/
theorem run_related {step : σ → α → Option (σ × List ω)} {R : σ → σ → Prop}
    (hstep : ∀ s s' a, R s s' → Option.Rel (fun p q => R p.1 q.1) (step s a) (step s' a))
    {look : σ → β} (hlook : ∀ s s', R s s' → look s = look s') {s s' : σ} (as : List α)
    (h : R s s') :
    (run step s as).map (fun r => look r.1) = (run step s' as).map (fun r => look r.1) := by
  induction as generalizing s s' with
  | nil => exact congrArg some (hlook s s' h)
  | cons a as ih =>
    have hrel := hstep s s' a h
    rw [run_cons, run_cons]
    cases hs : step s a with
    | none =>
      rw [hs] at hrel
      cases hs' : step s' a with
      | none => rfl
      | some r' => exact absurd hrel (by rw [hs']; nofun)
    | some r =>
      rw [hs] at hrel
      cases hs' : step s' a with
      | none => exact absurd hrel (by rw [hs']; nofun)
      | some r' =>
        rw [hs'] at hrel
        cases hrel with
        | some hr =>
          simp only [Option.bind_some, Option.map_map, Function.comp_def]
          exact ih hr

/-- The label of each action, read in the state that performs it. -/
def labels (step : σ → α → Option (σ × List ω)) (label : σ → α → β) : σ → List α → List β
  | _, [] => []
  | s, a :: as =>
    label s a :: match step s a with
      | none => []
      | some (s', _) => labels step label s' as

@[simp] theorem labels_nil (step : σ → α → Option (σ × List ω)) (label : σ → α → β) (s : σ) :
    labels step label s [] = [] := rfl

theorem labels_cons {step : σ → α → Option (σ × List ω)} {label : σ → α → β} {s t : σ} {a : α}
    {o : List ω} (h : step s a = some (t, o)) (as : List α) :
    labels step label s (a :: as) = label s a :: labels step label t as := by
  simp only [labels, h]

theorem labels_append {step : σ → α → Option (σ × List ω)} {label : σ → α → β} {s t : σ}
    {as : List α} {o : List ω} (h : run step s as = some (t, o)) (bs : List α) :
    labels step label s (as ++ bs) = labels step label s as ++ labels step label t bs := by
  induction as generalizing s o with
  | nil =>
    simp only [run_nil, Option.some.injEq, Prod.mk.injEq] at h
    simp [h.1]
  | cons a as ih =>
    obtain ⟨u, o₁, o₂, ha, h, -⟩ := run_cons_eq_some h
    simp only [List.cons_append, labels, ha]
    rw [ih h]

/-- A run splits at every label: the label is read in a state that a part of the run reaches. -/
theorem labels_split {step : σ → α → Option (σ × List ω)} {label : σ → α → β} {s : σ}
    {as : List α} {l : β} {ls₁ ls₂ : List β} (h : labels step label s as = ls₁ ++ l :: ls₂) :
    ∃ pre a post t o, as = pre ++ a :: post ∧ run step s pre = some (t, o) ∧
      labels step label s pre = ls₁ ∧ label t a = l := by
  induction as generalizing s ls₁ with
  | nil => exact absurd h (by simp)
  | cons a as ih =>
    rw [labels] at h
    cases ls₁ with
    | nil =>
      obtain ⟨rfl, -⟩ := List.cons.inj h
      exact ⟨[], a, as, s, [], rfl, rfl, rfl, rfl⟩
    | cons l' ls₁ =>
      obtain ⟨rfl, htail⟩ := List.cons.inj h
      cases hs : step s a with
      | none => exact absurd htail (by simp [hs])
      | some r =>
        rw [hs] at htail
        obtain ⟨pre, b, post, t, o, rfl, hr, hpre, hl⟩ := ih htail
        exact ⟨a :: pre, b, post, t, r.2 ++ o, rfl, run_step hs hr,
          (labels_cons hs pre).trans (congrArg _ hpre), hl⟩

/-- Every label is read in a state that a part of the run reaches. -/
theorem mem_labels {step : σ → α → Option (σ × List ω)} {label : σ → α → β} {s : σ}
    {as : List α} {l : β} (h : l ∈ labels step label s as) :
    ∃ pre a post t o, as = pre ++ a :: post ∧ run step s pre = some (t, o) ∧ l = label t a := by
  obtain ⟨ls₁, ls₂, h⟩ := List.append_of_mem h
  obtain ⟨pre, a, post, t, o, has, hr, -, hl⟩ := labels_split h
  exact ⟨pre, a, post, t, o, has, hr, hl.symm⟩

/-- The label of an action in the state that a run has reached. -/
theorem label_mem {step : σ → α → Option (σ × List ω)} (label : σ → α → β) {s t : σ}
    {pre : List α} {o : List ω} (h : run step s pre = some (t, o)) (a : α) (post : List α) :
    label t a ∈ labels step label s (pre ++ a :: post) := by
  rw [labels_append h]
  exact List.mem_append_right _ List.mem_cons_self

/-- Induction over a run from its first state, with the actions, the labels and
the observations so far available to the invariant. -/
theorem run_history {step : σ → α → Option (σ × List ω)} (label : σ → α → β) {s₀ : σ}
    (I : List α → List β → σ → List ω → Prop) (h₀ : I [] [] s₀ [])
    (hstep : ∀ as ls s o a s' o', I as ls s o → step s a = some (s', o') →
      I (as ++ [a]) (ls ++ [label s a]) s' (o ++ o'))
    {s : σ} {as : List α} {o : List ω} (hr : run step s₀ as = some (s, o)) :
    I as (labels step label s₀ as) s o := by
  induction as using List.reverseRecOn generalizing s o with
  | nil =>
    simp only [run_nil, Option.some.injEq, Prod.mk.injEq] at hr
    obtain ⟨rfl, rfl⟩ := hr
    exact h₀
  | append_singleton as a ih =>
    obtain ⟨t, o₁, o₂, h₁, h₂, rfl⟩ := run_append_eq_some hr
    rw [run_singleton] at h₂
    have hl : labels step label t [a] = [label t a] := by simp [labels, h₂]
    rw [labels_append h₁, hl]
    exact hstep as _ t o₁ a s o₂ (ih h₁) h₂

/-- Induction along a run with an invariant that also sees the actions still to come. -/
theorem run_remaining {step : σ → α → Option (σ × List ω)} (label : σ → α → β)
    (I : List β → σ → List α → Prop)
    (hstep : ∀ ls s a as s' o, I ls s (a :: as) → step s a = some (s', o) →
      I (ls ++ [label s a]) s' as)
    (ls : List β) {s s' : σ} {as bs : List α} {o : List ω} (h : I ls s (as ++ bs))
    (hr : run step s as = some (s', o)) : I (ls ++ labels step label s as) s' bs := by
  induction as generalizing ls s o with
  | nil =>
    simp only [run_nil, Option.some.injEq, Prod.mk.injEq] at hr
    obtain ⟨rfl, -⟩ := hr
    simpa using h
  | cons a as ih =>
    obtain ⟨u, o₁, o₂, ha, hr, -⟩ := run_cons_eq_some hr
    have h' := ih _ (hstep ls s a (as ++ bs) u o₁ h ha) hr
    rw [labels_cons ha]
    simpa using h'

/-- States that steps on corresponding actions keep related have related runs, and so have
their observations. -/
theorem run_alike {σ' α' ω' : Type} {step : σ → α → Option (σ × List ω)}
    {step' : σ' → α' → Option (σ' × List ω')} {R : σ → σ' → Prop}
    {O : List ω → List ω' → Prop} {g : α → α'} (hnil : O [] [])
    (happend : ∀ {o₁ o₂ p₁ p₂}, O o₁ p₁ → O o₂ p₂ → O (o₁ ++ o₂) (p₁ ++ p₂))
    (hstep : ∀ s s' a, R s s' →
      Option.Rel (fun p q => R p.1 q.1 ∧ O p.2 q.2) (step s a) (step' s' (g a)))
    {s : σ} {s' : σ'} (as : List α) (h : R s s') :
    Option.Rel (fun p q => R p.1 q.1 ∧ O p.2 q.2) (run step s as) (run step' s' (as.map g)) := by
  induction as generalizing s s' with
  | nil => exact .some ⟨h, hnil⟩
  | cons a as ih =>
    have hrel := hstep s s' a h
    rw [List.map_cons, run_cons, run_cons]
    generalize step s a = p, step' s' (g a) = q at hrel ⊢
    cases hrel with
    | none => exact .none
    | @some p q hpq =>
      obtain ⟨hr, ho⟩ := hpq
      have hrest := ih hr
      simp only [Option.bind_some]
      generalize run step p.1 as = u, run step' q.1 (as.map g) = v at hrest ⊢
      cases hrest with
      | none => exact .none
      | some huv => exact .some ⟨huv.1, happend ho huv.2⟩

/-- A change of states and actions that each step commutes with, runs commute with. -/
theorem run_map {σ' α' : Type} {step : σ → α → Option (σ × List ω)}
    {step' : σ' → α' → Option (σ' × List ω)} {f : σ → σ'} {g : α → α'}
    (hstep : ∀ s a, step' (f s) (g a) = (step s a).map (fun r => (f r.1, r.2))) (s : σ)
    (as : List α) :
    run step' (f s) (as.map g) = (run step s as).map (fun r => (f r.1, r.2)) := by
  induction as generalizing s with
  | nil => rfl
  | cons a as ih =>
    rw [List.map_cons, run_cons, run_cons, hstep]
    cases step s a with
    | none => rfl
    | some r =>
      simp only [Option.map_some, Option.bind_some, ih, Option.map_map]
      rfl

end Steps
