import FoMPI.Foundation.Fifo
import Mathlib.Data.List.Perm.Basic
import Mathlib.Tactic.Common

/-!
# Registrations under keys

Every registration gets a number of its own and stands under the key that was handed
out for it. Closing a key closes one registration that stands under it; closing a key
under which nothing stands is a fault. What was closed is remembered by its number, so
that a registration closed twice would show.
-/
namespace FoMPI.Foundation

variable {κ ν : Type*}

structure Registry (κ ν : Type*) where
  issued : ℕ
  live : List (ℕ × κ × ν)
  closed : List ℕ
  faults : ℕ
  deriving DecidableEq, Repr

inductive RegistryEvent (κ ν : Type*)
  | register (k : κ) (v : ν)
  | unregister (k : κ)

namespace Registry

def empty : Registry κ ν := ⟨0, [], [], 0⟩

/-- What is registered, under its keys. -/
def entries (R : Registry κ ν) : List (κ × ν) := R.live.map Prod.snd

def register (R : Registry κ ν) (k : κ) (v : ν) : Registry κ ν :=
  { R with issued := R.issued + 1, live := (R.issued, k, v) :: R.live }

def unregister [DecidableEq κ] (R : Registry κ ν) (k : κ) : Registry κ ν :=
  match removeFirst (fun r => r.2.1 = k) R.live with
  | some (r, rest) => { R with live := rest, closed := r.1 :: R.closed }
  | none => { R with faults := R.faults + 1 }

def apply [DecidableEq κ] (R : Registry κ ν) : RegistryEvent κ ν → Registry κ ν
  | .register k v => R.register k v
  | .unregister k => R.unregister k

def run [DecidableEq κ] (R : Registry κ ν) (events : List (RegistryEvent κ ν)) : Registry κ ν :=
  events.foldl apply R

/-- Every number that was handed out is live or closed, and only once; there was no fault; a key
stands for one thing. -/
structure Sound (R : Registry κ ν) : Prop where
  once : (R.closed ++ R.live.map Prod.fst).Perm (List.range R.issued)
  faultless : R.faults = 0
  named : ∀ r ∈ R.entries, ∀ r' ∈ R.entries, r.1 = r'.1 → r.2 = r'.2

variable {R : Registry κ ν} {k : κ} {v : ν} {es : List (κ × ν)}

@[simp] theorem entries_register (R : Registry κ ν) (k : κ) (v : ν) :
    (R.register k v).entries = (k, v) :: R.entries := rfl

@[simp] theorem run_nil [DecidableEq κ] (R : Registry κ ν) : R.run [] = R := rfl

@[simp] theorem run_cons [DecidableEq κ] (R : Registry κ ν) (e : RegistryEvent κ ν)
    (events : List (RegistryEvent κ ν)) : R.run (e :: events) = (R.apply e).run events := rfl

namespace Sound

theorem empty : Sound (Registry.empty : Registry κ ν) where
  once := .refl _
  faultless := rfl
  named _ hr := absurd hr List.not_mem_nil

theorem register (h : Sound R) (named : ∀ r ∈ R.entries, r.1 = k → r.2 = v) : Sound (R.register k v) where
  once := by
    have next : (R.closed ++ R.issued :: R.live.map Prod.fst).Perm (R.issued :: List.range R.issued) :=
      List.perm_middle.trans (h.once.cons _)
    simp only [Registry.register, List.map_cons, List.range_succ]
    exact next.trans (List.perm_append_singleton _ _).symm
  faultless := h.faultless
  named := by
    intro r hr r' hr' same
    rw [entries_register, List.mem_cons] at hr hr'
    obtain rfl | hr := hr <;> obtain rfl | hr' := hr'
    · rfl
    · exact (named r' hr' same.symm).symm
    · exact named r hr same
    · exact h.named r hr r' hr' same

/-- Closing a key that stands for `v` closes a registration of `v`. -/
theorem unregister [DecidableEq κ] (h : Sound R) (here : R.entries.Perm ((k, v) :: es)) :
    Sound (R.unregister k) ∧ (R.unregister k).entries.Perm es := by
  have mem : (k, v) ∈ R.entries := here.mem_iff.mpr List.mem_cons_self
  obtain ⟨l, hl, eq⟩ := List.mem_map.mp mem
  cases found : removeFirst (fun r : ℕ × κ × ν => decide (r.2.1 = k)) R.live with
  | none =>
    have miss := removeFirst_eq_none found l hl
    simp [eq] at miss
  | some hit =>
    obtain ⟨⟨id, k', v'⟩, rest⟩ := hit
    obtain ⟨front, back, live, rfl, same, -⟩ := removeFirst_eq_some found
    obtain rfl : k' = k := by simpa using same
    have entries : R.entries.Perm ((k', v') :: (front ++ back).map Prod.snd) := by
      rw [Registry.entries, live]
      simp
    -- the registration found is of the same thing
    obtain rfl : v' = v := h.named (k', v') (entries.mem_iff.mpr List.mem_cons_self) (k', v) mem rfl
    have closes : R.unregister k' = { R with live := front ++ back, closed := id :: R.closed } := by
      simp only [Registry.unregister, found]
    have left : (R.unregister k').entries = (front ++ back).map Prod.snd := by rw [closes, Registry.entries]
    refine ⟨⟨?_, ?_, ?_⟩, ?_⟩
    · rw [closes]
      refine List.Perm.trans ?_ h.once
      rw [live]
      simp only [List.map_append, List.map_cons, List.cons_append]
      rw [← List.append_assoc, ← List.append_assoc]
      exact List.perm_middle.symm
    · rw [closes]
      exact h.faultless
    · rw [left]
      intro r hr r' hr' same
      exact h.named r (entries.mem_iff.mpr (List.mem_cons_of_mem _ hr)) r'
        (entries.mem_iff.mpr (List.mem_cons_of_mem _ hr')) same
    · rw [left]
      exact List.Perm.cons_inv (entries.symm.trans here)

/-- Closing two keys, one after the other. -/
theorem unregister_two [DecidableEq κ] {k' : κ} {v' : ν} (h : Sound R)
    (here : R.entries.Perm ((k, v) :: (k', v') :: es)) :
    Sound (R.run [.unregister k, .unregister k']) ∧ (R.run [.unregister k, .unregister k']).entries.Perm es := by
  obtain ⟨once, left⟩ := h.unregister here
  exact once.unregister left

/-- With nothing registered every registration has been closed exactly once. -/
theorem closed_perm (h : Sound R) (none : R.entries = []) : R.closed.Perm (List.range R.issued) := by
  have empty : R.live = [] := List.map_eq_nil_iff.mp none
  simpa [empty] using h.once

end Sound

end Registry

end FoMPI.Foundation
