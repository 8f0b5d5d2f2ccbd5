import Mathlib.Algebra.Group.Prod
import Andino.Library.Steps

/-!
# Runs seen through their moments

Most actions of a machine only move it along; now and then one tells it something. A
moment is one thing told, together with the movement since the moment before. The
moments of a run determine what happens to a part of the state on which movements add
up, however the movements are spread over the actions: `points_trace`. Two runs can so
be compared although their actions do not correspond to each other: `points_map`.
-/
namespace Moments

variable {σ α ω ι μ κ : Type} [AddMonoid μ]

/-- Something told behind a movement; nothing is told at the end of a run. -/
structure Moment (μ ι : Type) where
  moved : μ
  seen : Option ι
  deriving DecidableEq

/-- How the actions of a machine read. -/
structure View (σ α ι μ : Type) where
  moved : α → μ
  seen : σ → α → Option ι

/-- A machine that is moved and told. Movements add up. -/
structure Machine (κ ι μ : Type) [AddMonoid μ] where
  push : κ → μ → κ
  react : κ → ι → κ
  push_zero : ∀ c, push c 0 = c
  push_add : ∀ c d e, push c (d + e) = push (push c d) e

def Machine.respond (M : Machine κ ι μ) (c : κ) (m : Moment μ ι) : κ :=
  match m.seen with
  | none => M.push c m.moved
  | some i => M.react (M.push c m.moved) i

/-- The states behind each of the moments. -/
def Machine.trace (M : Machine κ ι μ) : κ → List (Moment μ ι) → List κ
  | _, [] => []
  | c, m :: ms => M.respond c m :: M.trace (M.respond c m) ms

/-- The moments of a run, each with the state behind it, when `d` has been moved since
the last one. The last one is the end of the run, if it has an end. -/
def points (step : σ → α → Option (σ × List ω)) (v : View σ α ι μ) :
    μ → σ → List α → List (Moment μ ι × σ)
  | d, s, [] => [(⟨d, none⟩, s)]
  | d, s, a :: as =>
    match step s a with
    | none => []
    | some (s', _) =>
      match v.seen s a with
      | none => points step v (d + v.moved a) s' as
      | some i => (⟨d + v.moved a, some i⟩, s') :: points step v 0 s' as

/-- Every step is, on the part `core` of the state, a step of the machine. -/
def Simulates (step : σ → α → Option (σ × List ω)) (v : View σ α ι μ) (M : Machine κ ι μ)
    (core : σ → κ) : Prop :=
  ∀ s a s' o, step s a = some (s', o) → core s' = M.respond (core s) ⟨v.moved a, v.seen s a⟩

variable {step : σ → α → Option (σ × List ω)} {v : View σ α ι μ} {M : Machine κ ι μ}
  {core : σ → κ}

/-- The movement before an action goes into its moment. -/
theorem respond_push (c : κ) (d e : μ) (o : Option ι) :
    M.respond (M.push c d) ⟨e, o⟩ = M.respond c ⟨d + e, o⟩ := by
  cases o with
  | none => exact (M.push_add c d e).symm
  | some i => exact congrArg (M.react · i) (M.push_add c d e).symm

theorem points_trace (h : Simulates step v M core) (as : List α) {c : κ} {d : μ} {s : σ}
    (hs : core s = M.push c d) :
    (points step v d s as).map (fun p => core p.2) =
      M.trace c ((points step v d s as).map Prod.fst) := by
  induction as generalizing c d s with
  | nil => exact congrArg (· :: []) hs
  | cons a as ih =>
    rw [points]
    cases ha : step s a with
    | none => rfl
    | some r =>
      obtain ⟨s', o⟩ := r
      have hcore := h s a s' o ha
      rw [hs, respond_push] at hcore
      cases hseen : v.seen s a with
      | none =>
        rw [hseen] at hcore
        exact ih hcore
      | some i =>
        rw [hseen] at hcore
        simp only [List.map_cons, Machine.trace]
        rw [← hcore, ih (M.push_zero (core s')).symm]

/-- A transformation of states and moments that one response respects is respected by
whole traces. -/
theorem trace_map {f : κ → κ} {g : Moment μ ι → Moment μ ι} (I : κ → Prop)
    (hI : ∀ c m, I c → I (M.respond c m))
    (hf : ∀ c m, I c → M.respond (f c) (g m) = f (M.respond c m)) (ms : List (Moment μ ι)) {c : κ}
    (hc : I c) : M.trace (f c) (ms.map g) = (M.trace c ms).map f := by
  induction ms generalizing c with
  | nil => rfl
  | cons m ms ih =>
    simp only [List.map_cons, Machine.trace, hf c m hc]
    rw [ih (hI c m hc)]

/-- Two runs whose moments correspond go through corresponding states. -/
theorem points_map (h : Simulates step v M core) {f : κ → κ} {g : Moment μ ι → Moment μ ι}
    (I : κ → Prop) (hI : ∀ c m, I c → I (M.respond c m))
    (hf : ∀ c m, I c → M.respond (f c) (g m) = f (M.respond c m)) {s s' : σ} {as as' : List α}
    (hs : I (core s)) (hcore : core s' = f (core s))
    (hmoments : (points step v 0 s' as').map Prod.fst = ((points step v 0 s as).map Prod.fst).map g) :
    (points step v 0 s' as').map (fun p => core p.2) =
      ((points step v 0 s as).map (fun p => core p.2)).map f := by
  calc
    (points step v 0 s' as').map (fun p => core p.2) =
        M.trace (f (core s)) ((points step v 0 s' as').map Prod.fst) := by
      rw [← hcore]
      exact points_trace h as' (M.push_zero (core s')).symm
    _ = (M.trace (core s) ((points step v 0 s as).map Prod.fst)).map f := by
      rw [hmoments]
      exact trace_map I hI hf _ hs
    _ = ((points step v 0 s as).map (fun p => core p.2)).map f := by
      rw [points_trace h as (M.push_zero (core s)).symm]

end Moments
