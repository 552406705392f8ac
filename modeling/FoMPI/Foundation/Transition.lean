import Mathlib.Data.List.Basic
import Mathlib.Tactic.Common

/-!
# Executable labelled transition systems

A system is a partial step function `step : σ → α → Option σ`. The action names
the scheduling choice, so every nondeterminism is visible in the list of actions
of a run. `Reach` restricts the steps a run may take, which is how an assumption
on the environment of a system, or a condition on its runs, is expressed.
-/
namespace FoMPI.Foundation

variable {σ α : Type*} {step : σ → α → Option σ} {allow : σ → α → σ → Prop} {init : σ}

/-- States reached from `init` by steps that `allow` admits. -/
inductive Reach (step : σ → α → Option σ) (allow : σ → α → σ → Prop) (init : σ) : σ → Prop
  | refl : Reach step allow init init
  | tail {s a t} (run : Reach step allow init s) (move : step s a = some t)
      (admitted : allow s a t) : Reach step allow init t

/-- The assumption that restricts nothing. -/
def always : σ → α → σ → Prop := fun _ _ _ => True

/-- What holds initially and is kept by every admitted step holds in every state reached. -/
theorem Reach.invariant {P : σ → Prop} (start : P init)
    (keep : ∀ s a t, P s → step s a = some t → allow s a t → P t) {s : σ}
    (h : Reach step allow init s) : P s := by
  induction h with
  | refl => exact start
  | tail _ move admitted ih => exact keep _ _ _ ih move admitted

theorem Reach.mono {allow' : σ → α → σ → Prop} (weaker : ∀ s a t, allow s a t → allow' s a t)
    {s : σ} (h : Reach step allow init s) : Reach step allow' init s := by
  induction h with
  | refl => exact .refl
  | tail _ move admitted ih => exact .tail ih move (weaker _ _ _ admitted)

theorem Reach.trans {s t : σ} (h : Reach step allow init s) (h' : Reach step allow s t) :
    Reach step allow init t := by
  induction h' with
  | refl => exact h
  | tail _ move admitted ih => exact .tail ih move admitted

/-- Execute a schedule, giving up at the first action that is not enabled. -/
def exec (step : σ → α → Option σ) : σ → List α → Option σ
  | s, [] => some s
  | s, a :: as => (step s a).bind fun t => exec step t as

/-- Every step of an executed schedule satisfies a decidable condition. -/
def execWhen (step : σ → α → Option σ) (ok : σ → α → σ → Bool) : σ → List α → Option σ
  | s, [] => some s
  | s, a :: as => (step s a).bind fun t => if ok s a t then execWhen step ok t as else none

/-- A checked schedule is a run under any assumption that its checks establish. -/
theorem Reach.of_execWhen {ok : σ → α → σ → Bool} (sound : ∀ s a t, ok s a t = true → allow s a t)
    (as : List α) {s t : σ} (h : execWhen step ok s as = some t) : Reach step allow s t := by
  induction as generalizing s with
  | nil =>
    cases h
    exact .refl
  | cons a as ih =>
    obtain ⟨u, move, rest⟩ := Option.bind_eq_some_iff.mp h
    split at rest
    · rename_i checked
      exact Reach.trans (.tail .refl move (sound _ _ _ checked)) (ih rest)
    · contradiction

theorem Reach.of_exec (as : List α) {s t : σ} (h : exec step s as = some t) :
    Reach step always s t := by
  induction as generalizing s with
  | nil =>
    cases h
    exact .refl
  | cons a as ih =>
    obtain ⟨u, move, rest⟩ := Option.bind_eq_some_iff.mp h
    exact Reach.trans (.tail .refl move trivial) (ih rest)

end FoMPI.Foundation
