import Mathlib.Data.List.Nodup
import Mathlib.Data.Set.Basic
import Mathlib.Logic.Function.Basic
import Mathlib.Tactic.Common

/-!
# Loops whose iterations do not meet

A store gives every address a value. Each iteration of a loop writes only to its
footprint and reads only there and where no iteration writes. Whatever one iteration
does to its footprint is then what the whole loop does to it.
-/
namespace FoMPI.Foundation

variable {α V ι : Type*}

/-- The iterations `f i` in order. -/
def runAll (f : ι → (α → V) → α → V) (is : List ι) (s : α → V) : α → V :=
  is.foldl (fun s i => f i s) s

theorem runAll_append (f : ι → (α → V) → α → V) (is js : List ι) (s : α → V) :
    runAll f (is ++ js) s = runAll f js (runAll f is s) := List.foldl_append

theorem runAll_map {κ : Type*} (f : ι → (α → V) → α → V) (g : κ → ι) (ks : List κ) (s : α → V) :
    runAll f (ks.map g) s = runAll (fun k => f (g k)) ks s := List.foldl_map

theorem runAll_congr {f g : ι → (α → V) → α → V} {is : List ι} (same : ∀ i ∈ is, f i = g i) (s : α → V) :
    runAll f is s = runAll g is s := by
  induction is generalizing s with
  | nil => rfl
  | cons i is ih =>
    change runAll f is (f i s) = runAll g is (g i s)
    rw [same i List.mem_cons_self, ih fun j hj => same j (List.mem_cons_of_mem _ hj)]

/-- What no iteration changes the loop does not change. -/
theorem runAll_of_frame {f : ι → (α → V) → α → V} {is : List ι} {x : α} (frame : ∀ i ∈ is, ∀ s, f i s x = s x)
    (s : α → V) : runAll f is s x = s x := by
  induction is generalizing s with
  | nil => rfl
  | cons i is ih =>
    change runAll f is (f i s) x = s x
    rw [ih fun j hj => frame j (List.mem_cons_of_mem _ hj), frame i List.mem_cons_self]

theorem runAll_fixed {f : ι → (α → V) → α → V} {is : List ι} {s : α → V} (fixed : ∀ i ∈ is, f i s = s) :
    runAll f is s = s := by
  induction is with
  | nil => rfl
  | cons i is ih =>
    change runAll f is (f i s) = s
    rw [fixed i List.mem_cons_self, ih fun j hj => fixed j (List.mem_cons_of_mem _ hj)]

/-- What the iterations of a loop write and read. -/
structure Footprints (f : ι → (α → V) → α → V) (is : List ι) (foot : ι → Set α) (source : Set α) :
    Prop where
  frame : ∀ i ∈ is, ∀ s x, x ∉ foot i → f i s x = s x
  reads : ∀ i ∈ is, ∀ s t, (∀ x ∈ foot i, s x = t x) → (∀ x ∈ source, s x = t x) →
    ∀ x ∈ foot i, f i s x = f i t x
  apart : ∀ i ∈ is, ∀ x ∈ foot i, x ∉ source

namespace Footprints
variable {f : ι → (α → V) → α → V} {is : List ι} {foot : ι → Set α} {source : Set α} {i : ι}

theorem tail (h : Footprints f (i :: is) foot source) : Footprints f is foot source :=
  ⟨fun j hj => h.frame j (List.mem_cons_of_mem _ hj), fun j hj => h.reads j (List.mem_cons_of_mem _ hj),
    fun j hj => h.apart j (List.mem_cons_of_mem _ hj)⟩

/-- Outside of all footprints nothing changes. -/
theorem runAll_frame (h : Footprints f is foot source) {x : α} (outside : ∀ i ∈ is, x ∉ foot i)
    (s : α → V) : runAll f is s x = s x :=
  runAll_of_frame (fun i hi s => h.frame i hi s x (outside i hi)) s

/-- Iterations before and after it do not matter to an iteration. -/
theorem runAll_apply (h : Footprints f is foot source)
    (disjoint : is.Pairwise fun i j => ∀ x ∈ foot i, x ∉ foot j) (mem : i ∈ is) {x : α} (hx : x ∈ foot i)
    (s : α → V) : runAll f is s x = f i s x := by
  induction is generalizing s with
  | nil => contradiction
  | cons j is ih =>
    obtain ⟨first, rest⟩ := List.pairwise_cons.mp disjoint
    change runAll f is (f j s) x = f i s x
    obtain rfl | mem := List.mem_cons.mp mem
    · exact h.tail.runAll_frame (fun k hk => first k hk x hx) (f i s)
    · rw [ih h.tail rest mem]
      refine h.reads i (List.mem_cons_of_mem _ mem) _ _ (fun y hy => ?_) (fun y hy => ?_) x hx
      · exact h.frame j List.mem_cons_self s y fun met => first i mem y met hy
      · exact h.frame j List.mem_cons_self s y fun met => h.apart j List.mem_cons_self y met hy

end Footprints

section Copy
variable [DecidableEq α]

/-- Move values between addresses, one after the other; a pair is a destination and a source. -/
def copyAll (ps : List (α × α)) (s : α → V) : α → V :=
  runAll (fun p s => Function.update s p.1 (s p.2)) ps s

variable {ps : List (α × α)} {s t : α → V}

theorem copyAll_frame (ps : List (α × α)) (s : α → V) {x : α} (out : ∀ p ∈ ps, x ≠ p.1) :
    copyAll ps s x = s x :=
  runAll_of_frame (fun p hp _ => Function.update_of_ne (out p hp) _ _) s

/-- A destination receives what its one source held at first. -/
theorem copyAll_apply (apart : ∀ p ∈ ps, ∀ q ∈ ps, p.1 ≠ q.2) (one : ∀ p ∈ ps, ∀ q ∈ ps, p.1 = q.1 → p.2 = q.2)
    {p : α × α} (mem : p ∈ ps) (s : α → V) : copyAll ps s p.1 = s p.2 := by
  induction ps generalizing p s with
  | nil => contradiction
  | cons q ps ih =>
    have later : ∀ r ∈ ps, copyAll (q :: ps) s r.1 = s r.2 := by
      intro r hr
      have tail := ih (fun p hp r hr => apart p (List.mem_cons_of_mem _ hp) r (List.mem_cons_of_mem _ hr))
        (fun p hp r hr => one p (List.mem_cons_of_mem _ hp) r (List.mem_cons_of_mem _ hr)) hr
        (Function.update s q.1 (s q.2))
      refine tail.trans (Function.update_of_ne ?_ _ _)
      exact (apart q List.mem_cons_self r (List.mem_cons_of_mem _ hr)).symm
    obtain rfl | mem := List.mem_cons.mp mem
    · by_cases again : ∃ r ∈ ps, p.1 = r.1
      · obtain ⟨r, hr, same⟩ := again
        rw [same, later r hr, one p List.mem_cons_self r (List.mem_cons_of_mem _ hr) same]
      · refine (copyAll_frame ps _ fun r hr same => again ⟨r, hr, same⟩).trans ?_
        exact Function.update_self ..
    · exact later p mem

omit [DecidableEq α] in
/-- With distinct destinations there is one source for each. -/
theorem one_source (distinct : (ps.map Prod.fst).Nodup) : ∀ p ∈ ps, ∀ q ∈ ps, p.1 = q.1 → p.2 = q.2 :=
  fun _ hp _ hq same => congrArg Prod.snd (List.inj_on_of_nodup_map distinct hp hq same)

/-- Copies of equal values change nothing. -/
theorem copyAll_same (same : ∀ p ∈ ps, s p.2 = s p.1) : copyAll ps s = s :=
  runAll_fixed fun p hp => by rw [same p hp, Function.update_eq_self]

/-- Copies of one value, into all places where there is another. -/
theorem copyAll_const {v : V} (sources : ∀ p ∈ ps, s p.2 = v) (others : ∀ x, (∀ p ∈ ps, x ≠ p.1) → s x = v) :
    copyAll ps s = fun _ => v := by
  induction ps generalizing s with
  | nil => exact funext fun x => others x (by simp)
  | cons p ps ih =>
    have here := sources p List.mem_cons_self
    refine ih (s := Function.update s p.1 (s p.2)) (fun q hq => ?_) (fun x out => ?_)
    · rw [here, Function.update_apply, sources q (List.mem_cons_of_mem _ hq), ite_self]
    · by_cases same : x = p.1
      · rw [same, Function.update_self, here]
      · rw [Function.update_of_ne same]
        refine others x fun q hq => ?_
        obtain rfl | hq := List.mem_cons.mp hq
        · exact same
        · exact out q hq

end Copy

end FoMPI.Foundation
