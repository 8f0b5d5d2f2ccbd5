import Mathlib.Algebra.BigOperators.Group.List.Basic
import Mathlib.Algebra.Group.Hom.Defs
import Andino.Library.Steps

/-!
# Events that wait for an action

Some events of a machine only add to what is pending, and the next action that looks at it
takes it all at once. `gather` turns what happens into the actions alone, each with what was
pending before it; if the machine shows a second one up to what is pending, then a run of the
first is the run of the second on the gathered actions: `run_gather`.
-/
namespace Pending

variable {σ τ α β ω δ : Type} [AddMonoid δ]

/-- What an action does with what is pending: `take` is the action that takes it, `leave` is
what stays pending behind it. -/
structure Consumer (δ β : Type) where
  take : δ → β → β
  leave : δ → β → δ

namespace Consumer

variable (c : Consumer δ β)

def gatherStep (g : List β × δ) : δ ⊕ β → List β × δ
  | .inl d => (g.1, g.2 + d)
  | .inr b => (g.1 ++ [c.take g.2 b], c.leave g.2 b)

/-- The actions, and what is still pending behind them. -/
def gather (ls : List (δ ⊕ β)) : List β × δ := ls.foldl c.gatherStep ([], 0)

theorem gather_append (ls : List (δ ⊕ β)) (l : δ ⊕ β) :
    c.gather (ls ++ [l]) = c.gatherStep (c.gather ls) l := List.foldl_append

/-- Every gathered action comes from a place in the list. -/
theorem gather_split {ls : List (δ ⊕ β)} {pre post : List β} {b : β}
    (h : (c.gather ls).1 = pre ++ b :: post) :
    ∃ ls₁ b' ls₂, ls = ls₁ ++ .inr b' :: ls₂ ∧ (c.gather ls₁).1 = pre ∧
      c.take (c.gather ls₁).2 b' = b := by
  induction ls using List.reverseRecOn generalizing post with
  | nil => exact absurd h (by simp [gather])
  | append_singleton ls l ih =>
    rw [gather_append] at h
    cases l with
    | inl d =>
      obtain ⟨ls₁, b', ls₂, rfl, hpre, hb⟩ := ih h
      exact ⟨ls₁, b', ls₂ ++ [.inl d], by simp, hpre, hb⟩
    | inr a =>
      -- the wanted action is the last one, or the list before has it
      have hlast : (c.gather ls).1 ++ [c.take (c.gather ls).2 a] = pre ++ b :: post := h
      rcases List.eq_nil_or_concat post with rfl | ⟨post', x, rfl⟩
      · obtain ⟨hpre, hb⟩ := List.append_inj' hlast rfl
        exact ⟨ls, a, [], rfl, hpre, List.singleton_inj.mp hb⟩
      · rw [List.concat_eq_append, ← List.cons_append, ← List.append_assoc] at hlast
        obtain ⟨hfront, -⟩ := List.append_inj' hlast rfl
        obtain ⟨ls₁, b', ls₂, rfl, hpre, hb⟩ := ih hfront
        exact ⟨ls₁, b', ls₂ ++ [.inr a], by simp, hpre, hb⟩

/-- All that has been added. -/
def added (ls : List (δ ⊕ β)) : δ := (ls.filterMap Sum.getLeft?).sum

theorem added_append (ls : List (δ ⊕ β)) (l : δ ⊕ β) :
    added (ls ++ [l]) = added ls + l.getLeft?.getD 0 := by
  rw [added, List.filterMap_append, List.sum_append]
  cases l <;> simp [added, List.filterMap_cons]

/-- Nothing is lost: what has been added has been taken or is pending. -/
theorem gather_total {M : Type} [AddMonoid M] (amount : β → M) (measure : δ →+ M)
    (hc : ∀ d b, amount (c.take d b) + measure (c.leave d b) = measure d) (ls : List (δ ⊕ β)) :
    ((c.gather ls).1.map amount).sum + measure (c.gather ls).2 = measure (added ls) := by
  induction ls using List.reverseRecOn with
  | nil => simp [gather, added]
  | append_singleton ls l ih =>
    rw [gather_append, added_append, map_add, ← ih]
    cases l with
    | inl d => simp [gatherStep, add_assoc]
    | inr b =>
      simp only [gatherStep, List.map_append, List.map_singleton, List.sum_append,
        List.sum_singleton, Sum.getLeft?_inr, Option.getD_none, map_zero, add_zero, add_assoc, hc]

end Consumer

variable {step₁ : σ → α → Option (σ × List ω)} {step₂ : τ → β → Option (τ × List ω)}

/-- A machine shows a second one up to what is pending. -/
structure Shows (step₁ : σ → α → Option (σ × List ω)) (step₂ : τ → β → Option (τ × List ω))
    (c : Consumer δ β) (label : σ → α → δ ⊕ β) (R : σ → τ → δ → Prop) : Prop where
  event : ∀ s u d a d' s' o, R s u d → label s a = .inl d' → step₁ s a = some (s', o) →
    o = [] ∧ R s' u (d + d')
  action : ∀ s u d a b s' o, R s u d → label s a = .inr b → step₁ s a = some (s', o) →
    ∃ u', step₂ u (c.take d b) = some (u', o) ∧ R s' u' (c.leave d b)

/-- The run of the second machine on what the run of the first one gathers. -/
theorem run_gather {c : Consumer δ β} {label : σ → α → δ ⊕ β} {R : σ → τ → δ → Prop}
    (h : Shows step₁ step₂ c label R) {s s' : σ} {u : τ} {as : List α} {o : List ω}
    (h₀ : R s u 0) (hr : Steps.run step₁ s as = some (s', o)) :
    ∃ u', Steps.run step₂ u (c.gather (Steps.labels step₁ label s as)).1 = some (u', o) ∧
      R s' u' (c.gather (Steps.labels step₁ label s as)).2 := by
  refine Steps.run_history label
    (fun _ ls s' o => ∃ u', Steps.run step₂ u (c.gather ls).1 = some (u', o) ∧
      R s' u' (c.gather ls).2) ⟨u, rfl, h₀⟩ ?_ hr
  intro _ ls s₁ o₁ a s₂ o₂ ⟨u', hrun, hR⟩ hs
  rw [c.gather_append]
  cases hl : label s₁ a with
  | inl d =>
    obtain ⟨rfl, hR'⟩ := h.event _ _ _ _ _ _ _ hR hl hs
    rw [List.append_nil]
    exact ⟨u', hrun, hR'⟩
  | inr b =>
    obtain ⟨u'', hu, hR'⟩ := h.action _ _ _ _ _ _ _ hR hl hs
    refine ⟨u'', Steps.run_join hrun ?_, hR'⟩
    rw [Steps.run_singleton]
    exact hu

end Pending
