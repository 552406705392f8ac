import Mathlib.Data.List.Perm.Basic
import Mathlib.Logic.Function.Basic
import Mathlib.Order.Basic
import Mathlib.Tactic.Common

/-!
# One-sided transfers

Puts and gets on a memory. A transfer takes effect at some time after it was issued, in any
order with the others that are in flight. Where transfers in flight do not conflict, the
memory cannot be told from one on which every transfer takes effect when it is issued.
-/
namespace FoMPI.Foundation

variable {α κ V : Type*}

/-- A put with the value that it carries, or a get. -/
structure Transfer (α κ V : Type*) where
  origin : α
  location : κ
  value : Option V

/-- On one location there are only gets. -/
def Transfer.Compatible (t u : Transfer α κ V) : Prop := t.location = u.location → t.value = none ∧ u.value = none

instance [DecidableEq κ] [DecidableEq V] (t u : Transfer α κ V) : Decidable (t.Compatible u) :=
  inferInstanceAs (Decidable (t.location = u.location → t.value = none ∧ u.value = none))

/-- A memory, the transfers in the order in which they were issued, those in flight with their places in this
order, and what the gets at some places have fetched. -/
structure OneSided (α κ V : Type*) where
  memory : κ → V
  issued : List (Transfer α κ V)
  inFlight : List (ℕ × Transfer α κ V)
  fetched : List (ℕ × V)

/-- The values last put, or what was there before. -/
def latest [DecidableEq κ] (memory : κ → V) (issued : List (Transfer α κ V)) : κ → V :=
  issued.foldl (fun m t => t.value.elim m (Function.update m t.location)) memory

namespace OneSided

def start (memory : κ → V) : OneSided α κ V := ⟨memory, [], [], []⟩

def issue (s : OneSided α κ V) (t : Transfer α κ V) : OneSided α κ V :=
  { s with issued := s.issued ++ [t], inFlight := s.inFlight ++ [(s.issued.length, t)] }

variable [DecidableEq κ]

def complete (s : OneSided α κ V) (i : ℕ) : Option (OneSided α κ V) :=
  s.inFlight[i]?.map fun m =>
    match m.2.value with
    | some v =>
      { s with memory := Function.update s.memory m.2.location v, inFlight := s.inFlight.eraseIdx i }
    | none =>
      { s with fetched := s.fetched ++ [(m.1, s.memory m.2.location)], inFlight := s.inFlight.eraseIdx i }

/-- A flush of the origins `own` returns. -/
def Quiet (s : OneSided α κ V) (own : α → Prop) : Prop := ∀ m ∈ s.inFlight, ¬own m.2.origin

instance (s : OneSided α κ V) (own : α → Prop) [DecidablePred own] : Decidable (s.Quiet own) :=
  inferInstanceAs (Decidable (∀ m ∈ s.inFlight, ¬own m.2.origin))

/-- Every get has fetched what was last put before it was issued. -/
def Sequential (initial : κ → V) (s : OneSided α κ V) : Prop :=
  ∀ k v, (k, v) ∈ s.fetched → ∃ t, s.issued[k]? = some t ∧ t.value = none ∧
    v = latest initial (s.issued.take k) t.location

/-- The memory is behind the order of issue by the transfers in flight, which do not conflict. -/
structure Coherent (initial : κ → V) (s : OneSided α κ V) : Prop where
  issued : ∀ m ∈ s.inFlight, s.issued[m.1]? = some m.2
  apart : s.inFlight.Pairwise fun m m' => m.2.Compatible m'.2
  settled : ∀ x, (∀ m ∈ s.inFlight, m.2.location = x → m.2.value = none) → s.memory x = latest initial s.issued x
  putting : ∀ m ∈ s.inFlight, ∀ v, m.2.value = some v → latest initial s.issued m.2.location = v
  getting : ∀ m ∈ s.inFlight, m.2.value = none →
    latest initial (s.issued.take m.1) m.2.location = latest initial s.issued m.2.location
  sequential : s.Sequential initial
  answered : ∀ k t, s.issued[k]? = some t → t.value = none → (k, t) ∈ s.inFlight ∨ ∃ v, (k, v) ∈ s.fetched

variable {initial : κ → V} {s u : OneSided α κ V} {t : Transfer α κ V} {i : ℕ}

theorem latest_snoc (l : List (Transfer α κ V)) : latest initial (l ++ [t]) =
    t.value.elim (latest initial l) (Function.update (latest initial l) t.location) := by
  simp [latest]

theorem latest_snoc_of_compatible {l : List (Transfer α κ V)} {m : Transfer α κ V} (apart : m.Compatible t) :
    latest initial (l ++ [t]) m.location = latest initial l m.location := by
  rw [latest_snoc]
  cases value : t.value with
  | none => rfl
  | some v =>
    refine Function.update_of_ne (fun same => ?_) _ _
    rw [(apart same).2] at value
    contradiction

omit [DecidableEq κ] in
theorem lt_of_issued {k : ℕ} (h : s.issued[k]? = some t) : k < s.issued.length :=
  (List.getElem?_eq_some_iff.mp h).1

omit [DecidableEq κ] in
theorem issued_snoc {k : ℕ} (h : s.issued[k]? = some t) (u : Transfer α κ V) :
    (s.issued ++ [u])[k]? = some t ∧ (s.issued ++ [u]).take k = s.issued.take k :=
  ⟨by rw [List.getElem?_append_left (lt_of_issued h), h], List.take_append_of_le_length (Nat.le_of_lt (lt_of_issued h))⟩

theorem Coherent.start (memory : κ → V) : Coherent memory (start memory : OneSided α κ V) where
  issued := by simp [OneSided.start]
  apart := List.Pairwise.nil
  settled _ _ := rfl
  putting := by simp [OneSided.start]
  getting := by simp [OneSided.start]
  sequential := by simp [Sequential, OneSided.start]
  answered := by simp [OneSided.start]

/-- A transfer is issued that does not conflict with those in flight. -/
theorem Coherent.issue (h : Coherent initial s) (clear : ∀ m ∈ s.inFlight, m.2.Compatible t) :
    Coherent initial (s.issue t) where
  issued m mem := by
    obtain mem | mem := List.mem_append.mp mem
    · exact (issued_snoc (h.issued m mem) t).1
    · rw [List.mem_singleton.mp mem]
      simp [OneSided.issue]
  apart := List.pairwise_append.mpr ⟨h.apart, List.pairwise_singleton _ _, fun m mem m' mem' => by
    rw [List.mem_singleton.mp mem']
    exact clear m mem⟩
  settled x quiet := by
    have before := h.settled x fun m mem => quiet m (List.mem_append_left _ mem)
    have own := quiet (s.issued.length, t) (by simp [OneSided.issue])
    change s.memory x = latest initial (s.issued ++ [t]) x
    rw [latest_snoc, before]
    cases value : t.value with
    | none => rfl
    | some v =>
      refine (Function.update_of_ne (fun same => ?_) _ _).symm
      have := own same.symm
      rw [value] at this
      contradiction
  putting m mem v value := by
    change latest initial (s.issued ++ [t]) m.2.location = v
    obtain mem | mem := List.mem_append.mp mem
    · rw [latest_snoc_of_compatible (clear m mem)]
      exact h.putting m mem v value
    · rw [List.mem_singleton.mp mem] at value ⊢
      rw [latest_snoc, value]
      exact Function.update_self ..
  getting m mem value := by
    change latest initial ((s.issued ++ [t]).take m.1) m.2.location = latest initial (s.issued ++ [t]) m.2.location
    obtain mem | mem := List.mem_append.mp mem
    · rw [(issued_snoc (h.issued m mem) t).2, latest_snoc_of_compatible (clear m mem)]
      exact h.getting m mem value
    · rw [List.mem_singleton.mp mem] at value ⊢
      rw [List.take_left, latest_snoc, value]
      rfl
  sequential k v mem := by
    obtain ⟨g, issued, get, value⟩ := h.sequential k v mem
    obtain ⟨still, before⟩ := issued_snoc issued t
    exact ⟨g, still, get, value.trans (congrFun (congrArg _ before.symm) _)⟩
  answered k g issued get := by
    obtain earlier | last := Nat.lt_or_ge k s.issued.length
    · rw [OneSided.issue, List.getElem?_append_left earlier] at issued
      exact (h.answered k g issued get).imp_left (List.mem_append_left _)
    · rw [OneSided.issue, List.getElem?_append_right last] at issued
      obtain ⟨place, rfl⟩ := List.getElem?_eq_some_iff.mp issued
      have same : k = s.issued.length := by simp at place; omega
      exact .inl (List.mem_append_right _ (by simp [same]))

/-- A transfer takes effect. -/
theorem Coherent.complete (h : Coherent initial s) (move : s.complete i = some u) : Coherent initial u := by
  obtain ⟨m, found, rfl⟩ := Option.map_eq_some_iff.mp move
  obtain ⟨bound, rfl⟩ := List.getElem?_eq_some_iff.mp found
  have split := List.getElem_cons_eraseIdx_perm bound
  have symmetric : ∀ {x y : ℕ × Transfer α κ V}, x.2.Compatible y.2 → y.2.Compatible x.2 :=
    fun compatible same => (compatible same.symm).symm
  obtain ⟨others, apart⟩ := List.pairwise_cons.mp ((split.pairwise_iff symmetric).mpr h.apart)
  have rest {m} (mem : m ∈ s.inFlight.eraseIdx i) : m ∈ s.inFlight := split.subset (List.mem_cons_of_mem _ mem)
  have cases_of {m} (mem : m ∈ s.inFlight) : m = s.inFlight[i] ∨ m ∈ s.inFlight.eraseIdx i :=
    List.mem_cons.mp (split.symm.subset mem)
  have here := List.getElem_mem bound
  generalize s.inFlight[i] = m at *
  cases value : m.2.value with
  | some v =>
    refine ⟨fun m' mem => h.issued m' (rest mem), apart, fun x quiet => ?_, fun m' mem => h.putting m' (rest mem),
      fun m' mem => h.getting m' (rest mem), h.sequential, fun k t issued get => ?_⟩
    · obtain rfl | other := eq_or_ne x m.2.location
      · exact (Function.update_self ..).trans (h.putting m here v value).symm
      · refine (Function.update_of_ne other ..).trans (h.settled x fun m' mem same => ?_)
        obtain rfl | mem := cases_of mem
        · exact absurd same.symm other
        · exact quiet m' mem same
    · refine (h.answered k t issued get).imp_left fun mem => ?_
      obtain rfl | mem := cases_of mem
      · rw [get] at value
        contradiction
      · exact mem
  | none =>
    have quiet : ∀ m' ∈ s.inFlight, m'.2.location = m.2.location → m'.2.value = none := by
      intro m' mem same
      obtain rfl | mem := cases_of mem
      · exact value
      · exact (others m' mem same.symm).2
    refine ⟨fun m' mem => h.issued m' (rest mem), apart, fun x quiet => ?_, fun m' mem => h.putting m' (rest mem),
      fun m' mem => h.getting m' (rest mem), fun k v mem => ?_, fun k t issued get => ?_⟩
    · refine h.settled x fun m' mem same => ?_
      obtain rfl | mem := cases_of mem
      · exact value
      · exact quiet m' mem same
    · obtain mem | mem := List.mem_append.mp mem
      · exact h.sequential k v mem
      · obtain ⟨rfl, rfl⟩ := Prod.mk.inj (List.mem_singleton.mp mem)
        exact ⟨m.2, h.issued m here, value, (h.settled _ quiet).trans (h.getting m here value).symm⟩
    · obtain mem | ⟨v, mem⟩ := h.answered k t issued get
      · obtain rfl | mem := cases_of mem
        · exact .inr ⟨_, List.mem_append_right _ List.mem_cons_self⟩
        · exact .inl mem
      · exact .inr ⟨v, List.mem_append_left _ mem⟩

/-- With nothing in flight the memory is that of the order of issue, and every get is answered. -/
theorem Coherent.quiet (h : Coherent initial s) (none : s.inFlight = []) :
    s.memory = latest initial s.issued ∧
      ∀ k t, s.issued[k]? = some t → t.value = .none → ∃ v, (k, v) ∈ s.fetched := by
  refine ⟨funext fun x => h.settled x (by simp [none]), fun k t issued get => ?_⟩
  simpa [none] using h.answered k t issued get

omit [DecidableEq κ] in
theorem mem_issue {m : ℕ × Transfer α κ V} (mem : m ∈ (s.issue t).inFlight) : m ∈ s.inFlight ∨ m.2 = t := by
  obtain mem | mem := List.mem_append.mp mem
  · exact .inl mem
  · exact .inr (congrArg Prod.snd (List.mem_singleton.mp mem))

theorem complete_inFlight (move : s.complete i = some u) : u.inFlight = s.inFlight.eraseIdx i := by
  obtain ⟨m, -, rfl⟩ := Option.map_eq_some_iff.mp move
  cases m.2.value <;> rfl

theorem mem_complete {m : ℕ × Transfer α κ V} (move : s.complete i = some u) (mem : m ∈ u.inFlight) :
    m ∈ s.inFlight := by
  rw [complete_inFlight move] at mem
  exact (List.eraseIdx_sublist _ _).subset mem

/-- A transfer that takes effect when it is issued: a load or a store. -/
def atOnce (s : OneSided α κ V) (t : Transfer α κ V) : OneSided α κ V :=
  match t.value with
  | some v => { s with memory := Function.update s.memory t.location v, issued := s.issued ++ [t] }
  | none => { s with issued := s.issued ++ [t], fetched := s.fetched ++ [(s.issued.length, s.memory t.location)] }

@[simp] theorem atOnce_inFlight : (s.atOnce t).inFlight = s.inFlight := by
  unfold atOnce
  cases t.value <;> rfl

/-- It is the last to be issued and the next to be complete. -/
theorem complete_issue : (s.issue t).complete s.inFlight.length = some (s.atOnce t) := by
  unfold complete atOnce
  have last : (s.inFlight ++ [(s.issued.length, t)]).eraseIdx s.inFlight.length = s.inFlight := by
    simp [List.eraseIdx_append_of_length_le]
  cases value : t.value <;> simp [issue, value, last]

theorem Coherent.atOnce (h : Coherent initial s) (clear : ∀ m ∈ s.inFlight, m.2.Compatible t) :
    Coherent initial (s.atOnce t) :=
  (h.issue clear).complete complete_issue

section Epochs
variable {π : Type*} {s : OneSided (π × ℕ) κ V} {t : Transfer (π × ℕ) κ V}

/-- In an epoch a location is used by one process, or only read; and a process waits for its own transfers before
it issues one that conflicts with them. -/
structure Disciplined (s : OneSided (π × ℕ) κ V) (t : Transfer (π × ℕ) κ V) : Prop where
  apart : ∀ m ∈ s.issued, m.origin.2 = t.origin.2 → m.origin.1 ≠ t.origin.1 → m.Compatible t
  waited : ∀ m ∈ s.inFlight, m.2.origin.1 = t.origin.1 → m.2.Compatible t

instance [DecidableEq π] [DecidableEq V] : Decidable (s.Disciplined t) :=
  decidable_of_iff ((∀ m ∈ s.issued, m.origin.2 = t.origin.2 → m.origin.1 ≠ t.origin.1 → m.Compatible t) ∧
    ∀ m ∈ s.inFlight, m.2.origin.1 = t.origin.1 → m.2.Compatible t) ⟨fun h => ⟨h.1, h.2⟩, fun h => ⟨h.1, h.2⟩⟩

/-- The transfers of other processes in flight on a location are of the same epoch. -/
theorem Disciplined.clear (h : s.Disciplined t) (coherent : Coherent initial s)
    (current : ∀ m ∈ s.inFlight, m.2.location = t.location → m.2.origin.1 ≠ t.origin.1 → m.2.origin.2 = t.origin.2) :
    ∀ m ∈ s.inFlight, m.2.Compatible t := by
  intro m mem same
  by_cases own : m.2.origin.1 = t.origin.1
  · exact h.waited m mem own same
  · exact h.apart m.2 (List.mem_of_getElem? (coherent.issued m mem)) (current m mem same own) own same

end Epochs

end OneSided

end FoMPI.Foundation
