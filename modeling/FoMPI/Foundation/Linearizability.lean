import Mathlib.Data.List.Basic
import Mathlib.Data.List.Nodup
import Mathlib.Tactic.Common

/-!
# Linearizable histories

An object with a sequential meaning is used by calls that overlap. A history records when
calls begin and what they return. It is linearizable if the calls can be put into one order
in which the object, used by one call after the other, gives every call what it has returned,
and in which no call comes before one that had returned when it began.
-/
namespace FoMPI.Foundation

variable {σ ι ρ : Type*}

inductive CallEvent (ι ρ : Type*)
  | invoke (i : ι)
  | respond (i : ι) (r : ρ)
  deriving DecidableEq

variable (apply : σ → ι → σ × ρ)

/-- The object after one call after the other. -/
def replay (initial : σ) (order : List ι) : σ := order.foldl (fun v i => (apply v i).1) initial

/-- What the calls are given. -/
def responses (initial : σ) : List ι → List (ι × ρ)
  | [] => []
  | i :: rest => (i, (apply initial i).2) :: responses (apply initial i).1 rest

/-- The calls of a history in the order `order`. A call that has not returned may be left out. -/
structure Linearizes (initial : σ) (history : List (CallEvent ι ρ)) (order : List ι) : Prop where
  nodup : order.Nodup
  invoked : ∀ i ∈ order, .invoke i ∈ history
  responded : ∀ i r, .respond i r ∈ history → (i, r) ∈ responses apply initial order
  realTime : ∀ i r j, [.respond i r, .invoke j].Sublist history → j ∈ order → [i, j].Sublist order

variable {apply} {initial : σ} {history : List (CallEvent ι ρ)} {order : List ι} {i : ι} {r : ρ}

@[simp] theorem replay_append (l : List ι) :
    replay apply initial (order ++ l) = replay apply (replay apply initial order) l :=
  List.foldl_append

theorem responses_append (l : List ι) : responses apply initial (order ++ l) =
    responses apply initial order ++ responses apply (replay apply initial order) l := by
  induction order generalizing initial with
  | nil => rfl
  | cons i rest ih =>
    simp only [List.cons_append, responses, ih]
    rfl

theorem mem_of_response (h : (i, r) ∈ responses apply initial order) : i ∈ order := by
  induction order generalizing initial with
  | nil => simp [responses] at h
  | cons j rest ih =>
    rw [responses, List.mem_cons] at h
    obtain here | later := h
    · exact List.mem_cons.mpr (.inl (congrArg Prod.fst here))
    · exact List.mem_cons_of_mem _ (ih later)

/-- A pair in a list with one more element at the end is a pair before it, or ends there. -/
theorem pair_sublist_snoc {α : Type*} {a b c : α} {l : List α} (h : [a, b].Sublist (l ++ [c])) :
    [a, b].Sublist l ∨ a ∈ l ∧ b = c := by
  obtain ⟨l₁, l₂, split, left, right⟩ := List.sublist_append_iff.mp h
  obtain rfl | rfl := (List.sublist_singleton.mp right)
  · rw [List.append_nil] at split
    exact .inl (split ▸ left)
  · have last : l₁ ++ [c] = [a] ++ [b] := split.symm
    obtain ⟨rfl, same⟩ := List.append_inj' last rfl
    exact .inr ⟨List.singleton_sublist.mp left, (List.singleton_injective same).symm⟩

theorem pair_sublist_append {α : Type*} {a c : α} {l : List α} (h : a ∈ l) : [a, c].Sublist (l ++ [c]) :=
  (List.singleton_sublist.mpr h).append (.refl [c])

namespace Linearizes

theorem nil (initial : σ) : Linearizes apply initial [] [] :=
  ⟨List.nodup_nil, by simp, by simp, by simp⟩

theorem mem_of_respond (h : Linearizes apply initial history order) (responded : .respond i r ∈ history) :
    i ∈ order :=
  mem_of_response (h.responded i r responded)

/-- A call begins. -/
theorem invoke (h : Linearizes apply initial history order) (fresh : .invoke i ∉ history) :
    Linearizes apply initial (history ++ [.invoke i]) order where
  nodup := h.nodup
  invoked j hj := List.mem_append_left _ (h.invoked j hj)
  responded j r hj := h.responded j r (by simpa using hj)
  realTime j r k before hk := by
    obtain earlier | ⟨-, last⟩ := pair_sublist_snoc before
    · exact h.realTime j r k earlier hk
    · obtain rfl := CallEvent.invoke.inj last
      exact absurd (h.invoked k hk) fresh

/-- A call that has begun takes effect. -/
theorem commit (h : Linearizes apply initial history order) (invoked : .invoke i ∈ history)
    (pending : i ∉ order) : Linearizes apply initial history (order ++ [i]) where
  nodup := by
    refine List.nodup_append.mpr ⟨h.nodup, List.nodup_singleton i, ?_⟩
    rintro j hj k hk rfl
    exact pending (List.mem_singleton.mp hk ▸ hj)
  invoked j hj := by
    obtain hj | hj := List.mem_append.mp hj
    · exact h.invoked j hj
    · exact List.mem_singleton.mp hj ▸ invoked
  responded j r hj := by
    rw [responses_append]
    exact List.mem_append_left _ (h.responded j r hj)
  realTime j r k before hk := by
    obtain hk | hk := List.mem_append.mp hk
    · exact (h.realTime j r k before hk).trans (List.sublist_append_left _ _)
    · obtain rfl := List.mem_singleton.mp hk
      exact pair_sublist_append (h.mem_of_respond (before.subset List.mem_cons_self))

/-- A call returns what it has been given. -/
theorem respond (h : Linearizes apply initial history order) (given : (i, r) ∈ responses apply initial order) :
    Linearizes apply initial (history ++ [.respond i r]) order where
  nodup := h.nodup
  invoked j hj := List.mem_append_left _ (h.invoked j hj)
  responded j s hj := by
    obtain hj | hj := List.mem_append.mp hj
    · exact h.responded j s hj
    · obtain ⟨rfl, rfl⟩ := CallEvent.respond.inj (List.mem_singleton.mp hj)
      exact given
  realTime j s k before hk := by
    obtain earlier | ⟨-, last⟩ := pair_sublist_snoc before
    · exact h.realTime j s k earlier hk
    · contradiction

/-- Where every call has returned, only the order of the calls is open. -/
theorem perm (h : Linearizes apply initial history order) {calls : List ι} (distinct : calls.Nodup)
    (invoked : ∀ i, .invoke i ∈ history ↔ i ∈ calls) (returned : ∀ i ∈ calls, ∃ r, .respond i r ∈ history) :
    order.Perm calls := by
  refine (List.perm_ext_iff_of_nodup h.nodup distinct).mpr fun i => ⟨fun mem => ?_, fun mem => ?_⟩
  · exact (invoked i).mp (h.invoked i mem)
  · obtain ⟨r, responded⟩ := returned i mem
    exact h.mem_of_respond responded

end Linearizes

/-- The call that takes effect last is given what the object gives it then. -/
theorem response_snoc : (i, (apply (replay apply initial order) i).2) ∈ responses apply initial (order ++ [i]) := by
  rw [responses_append]
  exact List.mem_append_right _ (by simp [responses])

end FoMPI.Foundation
