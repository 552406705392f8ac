import FoMPI.Window.Locality
import Mathlib.Data.List.Nodup

/-!
# The ranks of a window that share the node of the caller

`foMPI_Win_create` keeps the list of on-node ranks only if it is not a range; otherwise it
keeps the two bounds of the range and frees the list. The translations between a rank of the
window and its place in the list read either form.
-/
namespace FoMPI.Window

/-- The on-node ranks as `MPI_Group_translate_ranks` lists them: distinct ranks of the window. -/
structure OnnodeRanks where
  ranks : List ℤ
  distinct : ranks.Nodup
  nonneg : ∀ g ∈ ranks, 0 ≤ g

/-- The loop over the ranks after `previous`, from index `i` on: it breaks at the first rank that
does not follow the one before, and leaves the index it stopped at. -/
def rangeLoop (previous : ℤ) (i : ℕ) : List ℤ → ℕ
  | [] => i
  | r :: rest => if r ≠ previous + 1 then i else rangeLoop r (i + 1) rest

/-- The value of `i` after the loop, which starts at 1 whatever the size is. -/
def rangeIndex : List ℤ → ℕ
  | [] => 1
  | r :: rest => rangeLoop r 1 rest

/-- What `foMPI_Win_create` leaves in the window: bounds without a list or a list without bounds. -/
def onnodeLocality (ranks : List ℤ) : Locality :=
  if rangeIndex ranks = ranks.length then
    { dynamic := false, onnodeLowerBound := ranks.headD 0, onnodeUpperBound := ranks.getLastD 0,
      onnodeRanks := [] }
  else
    { dynamic := false, onnodeLowerBound := -1, onnodeUpperBound := -1, onnodeRanks := ranks }

/-- `foMPI_onnode_rank_local_to_global`; `none` is a read behind the list. -/
def Locality.onnodeRankLocalToGlobal (w : Locality) (lrank : ℕ) : Option ℤ :=
  if w.onnodeLowerBound ≠ -1 then some (lrank + w.onnodeLowerBound)
  else w.onnodeRanks[lrank]?

/-- One rank after the other from `first` on. -/
def Consecutive (first : ℤ) (ranks : List ℤ) : Prop :=
  ∀ (l : ℕ) (g : ℤ), ranks[l]? = some g → g = first + l

section Range

variable {first previous : ℤ} {i : ℕ} {rest ranks : List ℤ}

theorem consecutive_singleton : Consecutive first [first] := by
  intro l g listed
  obtain ⟨small, rfl⟩ := List.getElem?_eq_some_iff.mp listed
  have zero : l = 0 := by simpa using small
  subst zero
  simp

theorem consecutive_cons {r : ℤ} :
    Consecutive first (first :: r :: rest) ↔ r = first + 1 ∧ Consecutive r (r :: rest) := by
  constructor
  · intro all
    have second : r = first + 1 := by exact_mod_cast all 1 r rfl
    refine ⟨second, fun l g listed => ?_⟩
    have := all (l + 1) g listed
    push_cast at this
    omega
  · rintro ⟨second, later⟩ l g listed
    cases l with
    | zero =>
      cases listed
      simp
    | succ l =>
      have := later l g listed
      push_cast
      omega

/-- The loop runs to the end only over consecutive ranks. -/
theorem rangeLoop_eq_iff :
    rangeLoop previous i rest = i + rest.length ↔ Consecutive previous (previous :: rest) := by
  induction rest generalizing previous i with
  | nil => exact ⟨fun _ => consecutive_singleton, fun _ => rfl⟩
  | cons r rest ih =>
    rw [rangeLoop, List.length_cons, consecutive_cons]
    by_cases follows : r = previous + 1
    · have shifted : i + (rest.length + 1) = i + 1 + rest.length := by omega
      rw [if_neg (not_not.mpr follows), shifted, ih]
      exact (and_iff_right follows).symm
    · rw [if_pos follows]
      exact ⟨fun same => by omega, fun both => absurd both.1 follows⟩

/-- A range has a first rank: the loop leaves 1 on an empty list, which is not its length. -/
theorem rangeIndex_eq_iff :
    rangeIndex ranks = ranks.length ↔ ∃ first rest, ranks = first :: rest ∧ Consecutive first ranks := by
  cases ranks with
  | nil => simp [rangeIndex]
  | cons first rest =>
    rw [rangeIndex, List.length_cons, Nat.add_comm, rangeLoop_eq_iff]
    constructor
    · exact fun all => ⟨first, rest, rfl, all⟩
    · rintro ⟨_, _, same, all⟩
      cases same
      exact all

theorem Consecutive.listed {g : ℤ} (all : Consecutive first ranks) (low : first ≤ g)
    (high : g < first + ranks.length) :
    ranks[(g - first).toNat]? = some g := by
  have small : (g - first).toNat < ranks.length := by omega
  have listed := List.getElem?_eq_getElem small
  have same := all _ _ listed
  rw [listed, same]
  congr 1
  omega

theorem Consecutive.mem_iff {g : ℤ} (all : Consecutive first ranks) :
    g ∈ ranks ↔ first ≤ g ∧ g < first + ranks.length := by
  constructor
  · intro listed
    obtain ⟨l, small, rfl⟩ := List.getElem_of_mem listed
    have := all l _ (List.getElem?_eq_getElem small)
    omega
  · exact fun bounds => List.mem_of_getElem? (all.listed bounds.1 bounds.2)

end Range

section Translation

variable {first g : ℤ} {l : ℕ} {rest ranks : List ℤ}

/-- The bounds kept for a range are its first rank and the last one, `length - 1` above it. -/
theorem onnodeLocality_range (all : Consecutive first (first :: rest)) :
    onnodeLocality (first :: rest) =
      { dynamic := false, onnodeLowerBound := first, onnodeUpperBound := first + rest.length,
        onnodeRanks := [] } := by
  have last : (first :: rest).getLastD 0 = first + rest.length := by
    have ends : (first :: rest)[rest.length]? = some ((first :: rest).getLastD 0) := by
      simp [List.getLast?_eq_getElem?]
    exact all _ _ ends
  rw [onnodeLocality, if_pos (rangeIndex_eq_iff.mpr ⟨first, rest, rfl, all⟩), last, List.headD_cons]

theorem onnodeLocality_array (scattered : ¬∃ first rest, ranks = first :: rest ∧ Consecutive first ranks) :
    onnodeLocality ranks =
      { dynamic := false, onnodeLowerBound := -1, onnodeUpperBound := -1, onnodeRanks := ranks } := by
  rw [onnodeLocality, if_neg (mt rangeIndex_eq_iff.mp scattered)]

/-- The two forms: the bounds of a range, with a lower bound that is no sentinel, or the list. -/
theorem onnodeLocality_cases (nonneg : ∀ g ∈ ranks, 0 ≤ g) :
    (∃ first rest, ranks = first :: rest ∧ Consecutive first ranks ∧ first ≠ -1 ∧
      onnodeLocality ranks = ⟨false, first, first + rest.length, []⟩) ∨
    onnodeLocality ranks = ⟨false, -1, -1, ranks⟩ := by
  by_cases range : ∃ first rest, ranks = first :: rest ∧ Consecutive first ranks
  · obtain ⟨first, rest, rfl, all⟩ := range
    have real := nonneg first List.mem_cons_self
    exact .inl ⟨first, rest, rfl, all, by omega, onnodeLocality_range all⟩
  · exact .inr (onnodeLocality_array range)

/-- Either form lists the ranks in the order they came in. -/
theorem localToGlobal_eq (nonneg : ∀ g ∈ ranks, 0 ≤ g) (small : l < ranks.length) :
    (onnodeLocality ranks).onnodeRankLocalToGlobal l = ranks[l]? := by
  obtain ⟨first, rest, _, all, real, form⟩ | form := onnodeLocality_cases nonneg
  · have listed := List.getElem?_eq_getElem small
    rw [form, Locality.onnodeRankLocalToGlobal, if_pos real, listed, all l _ listed, Int.add_comm]
  · rw [form]
    rfl

/-- The range search and the scan answer the same question: the place of `g` in the list, or `-1`. -/
theorem globalToLocal_cases (R : OnnodeRanks) (inWindow : 0 ≤ g) :
    (∃ l : ℕ, R.ranks[l]? = some g ∧ (onnodeLocality R.ranks).onnodeRankGlobalToLocal g = l) ∨
      (g ∉ R.ranks ∧ (onnodeLocality R.ranks).onnodeRankGlobalToLocal g = -1) := by
  obtain ⟨ranks, distinct, nonneg⟩ := R
  obtain ⟨first, rest, rfl, all, real, form⟩ | form := onnodeLocality_cases nonneg
  · rw [form, Locality.onnodeRankGlobalToLocal]
    have width : first + ((first :: rest).length : ℕ) = first + rest.length + 1 := by
      rw [List.length_cons]
      push_cast
      omega
    by_cases inside : first ≤ g ∧ g ≤ first + rest.length
    · refine .inl ⟨(g - first).toNat, all.listed inside.1 (by omega), ?_⟩
      rw [if_pos inside]
      exact (Int.toNat_of_nonneg (Int.sub_nonneg.mpr inside.1)).symm
    · refine .inr ⟨fun listed => inside ?_, by rw [if_neg inside, if_neg real]⟩
      obtain ⟨low, high⟩ := all.mem_iff.mp listed
      omega
  · have outside : ¬(-1 ≤ g ∧ g ≤ -1) := by omega
    rw [form, Locality.onnodeRankGlobalToLocal, if_neg outside, if_pos rfl]
    cases found : ranks.findIdx? (· = g) with
    | none =>
      refine .inr ⟨fun listed => ?_, rfl⟩
      simpa using List.findIdx?_eq_none_iff.mp found g listed
    | some l =>
      obtain ⟨small, same, _⟩ := List.findIdx?_eq_some_iff_getElem.mp found
      refine .inl ⟨l, ?_, rfl⟩
      rw [List.getElem?_eq_getElem small]
      simpa using same

/-- Distinct ranks have one place each. -/
theorem OnnodeRanks.place_unique (R : OnnodeRanks) {l k : ℕ} (atL : R.ranks[l]? = some g)
    (atK : R.ranks[k]? = some g) : l = k := by
  obtain ⟨small, _⟩ := List.getElem?_eq_some_iff.mp atL
  exact (List.getElem?_inj small R.distinct).mp (atL.trans atK.symm)

/-- The translations of on-node ranks are inverse to each other in both forms: every local rank
comes back, and a rank of the window goes to its place in the list, or to `-1` if it has none. -/
theorem onnode_translation_inverse (R : OnnodeRanks) :
    (∀ l : ℕ, l < R.ranks.length →
      ∃ g, (onnodeLocality R.ranks).onnodeRankLocalToGlobal l = some g ∧
        (onnodeLocality R.ranks).onnodeRankGlobalToLocal g = l) ∧
    ∀ g : ℤ, 0 ≤ g →
      ((onnodeLocality R.ranks).onnodeRankGlobalToLocal g = -1 ↔ g ∉ R.ranks) ∧
      ∀ l : ℕ, (onnodeLocality R.ranks).onnodeRankGlobalToLocal g = l ↔ R.ranks[l]? = some g := by
  constructor
  · intro l small
    have listed := List.getElem?_eq_getElem small
    refine ⟨R.ranks[l], (localToGlobal_eq R.nonneg small).trans listed, ?_⟩
    obtain ⟨k, atK, translated⟩ | ⟨missing, _⟩ :=
      globalToLocal_cases R (R.nonneg _ (List.getElem_mem small))
    · rw [translated, R.place_unique atK listed]
    · exact absurd (List.getElem_mem small) missing
  · intro g inWindow
    obtain ⟨k, atK, translated⟩ | ⟨missing, translated⟩ := globalToLocal_cases R inWindow
    · rw [translated]
      have member : g ∈ R.ranks := List.mem_of_getElem? atK
      refine ⟨⟨fun negative => by omega, fun missing => absurd member missing⟩, fun l => ?_⟩
      constructor
      · intro same
        rw [← Int.ofNat_inj.mp same]
        exact atK
      · exact fun atL => congrArg _ (R.place_unique atK atL)
    · rw [translated]
      refine ⟨⟨fun _ => missing, fun _ => rfl⟩, fun l => ⟨fun same => by omega, fun atL => ?_⟩⟩
      exact absurd (List.mem_of_getElem? atL) missing

/-- A list with a gap and a descent, which is kept as an array. -/
def gapped : OnnodeRanks where
  ranks := [4, 2, 7]
  distinct := by decide
  nonneg := by decide

theorem onnode_translation_gapped :
    (∃ g, (onnodeLocality gapped.ranks).onnodeRankLocalToGlobal 1 = some g ∧
      (onnodeLocality gapped.ranks).onnodeRankGlobalToLocal g = 1) ∧
    (onnodeLocality gapped.ranks).onnodeRankGlobalToLocal 3 = -1 :=
  ⟨(onnode_translation_inverse gapped).1 1 (by decide),
    ((onnode_translation_inverse gapped).2 3 (by decide)).1.mpr (by decide)⟩

end Translation

end FoMPI.Window
