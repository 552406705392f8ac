import FoMPI.Dcache.Model

/-!
# Lookups in the datatype cache

Live entries store the layout of their key, no key has two entries, and between
transfers every live entry is at its start. Both lookups keep this, and the second
one keeps the entry the first one has found.
-/
namespace FoMPI.Dcache
open FoMPI.Foundation

variable {ι : Type*} [DecidableEq ι] {layout : Layout ι} {c : GlobInfo ι} {key : Key ι}
  {i j last : Fin 10}

theorem add_sub_entry : ∀ i j : Fin 10, i + (j - i) = j := by decide

theorem ne_next_entry : ∀ i : Fin 10, i ≠ i + 1 := by decide

theorem holds_iff {e : DcacheBlocks ι} :
    e.holds key = true ↔ e.type = some key.1 ∧ e.typeCount = key.2 := by
  simp [DcacheBlocks.holds]

theorem dcacheInitBlocks_holds (e : DcacheBlocks ι) : (dcacheInitBlocks layout key e).holds key := by
  simp [holds_iff, dcacheInitBlocks]

/-- The entry has delivered nothing yet. -/
def DcacheBlocks.AtStart (e : DcacheBlocks ι) : Prop := e.pos = 0 ∧ e.blockRemainingSize = 0

/-- Live entries store their layouts, and there is one for each key at most. -/
structure Good (layout : Layout ι) (c : GlobInfo ι) : Prop where
  stored : ∀ i key, (c.dcacheBlocks i).holds key → (c.dcacheBlocks i).blocks = layout key.1 key.2
  unique : ∀ i j key, (c.dcacheBlocks i).holds key → (c.dcacheBlocks j).holds key → i = j

/-- No transfer is under way. -/
def Rests (c : GlobInfo ι) : Prop :=
  ∀ i, (c.dcacheBlocks i).type ≠ none → (c.dcacheBlocks i).AtStart

namespace GlobInfo

omit [DecidableEq ι] in
@[simp] theorem set_same (c : GlobInfo ι) (i : Fin 10) (e : DcacheBlocks ι) :
    (c.set i e).dcacheBlocks i = e := by
  simp [set]

omit [DecidableEq ι] in
@[simp] theorem set_other (c : GlobInfo ι) {i j : Fin 10} (e : DcacheBlocks ι) (ne : j ≠ i) :
    (c.set i e).dcacheBlocks j = c.dcacheBlocks j := by
  simp [set, ne]

theorem search_holds (found : c.search key last = some i) : (c.dcacheBlocks i).holds key :=
  List.find?_some (p := fun i => (c.dcacheBlocks i).holds key) found

theorem search_none (missed : c.search key last = none) (i : Fin 10) :
    ¬(c.dcacheBlocks i).holds key := by
  apply List.find?_eq_none.mp missed
  apply List.mem_map.mpr
  exact ⟨i - last, List.mem_finRange _, add_sub_entry last i⟩

/-- A key that is in the cache is found from wherever the search starts. -/
theorem search_eq (good : Good layout c) (holds : (c.dcacheBlocks i).holds key) :
    c.search key last = some i := by
  cases found : c.search key last with
  | none => exact absurd holds (search_none found i)
  | some j => rw [good.unique j i key (search_holds found) holds]

end GlobInfo

/-- Only where its key was not in the cache is an entry initialised. -/
theorem Good.insert (good : Good layout c) (absent : ∀ j, ¬(c.dcacheBlocks j).holds key)
    (i : Fin 10) (e : DcacheBlocks ι) : Good layout (c.set i (dcacheInitBlocks layout key e)) := by
  have own (key' : Key ι) (h : (dcacheInitBlocks layout key e).holds key') : key' = key := by
    obtain ⟨type, count⟩ := holds_iff.mp h
    exact Prod.ext (Option.some.inj type).symm count.symm
  constructor
  · intro j key' h
    by_cases hj : j = i
    · subst hj
      rw [GlobInfo.set_same] at h ⊢
      rw [own key' h]
      rfl
    · rw [GlobInfo.set_other _ _ hj] at h ⊢
      exact good.stored j key' h
  · intro j k key' hj hk
    by_cases ji : j = i <;> by_cases ki : k = i
    · rw [ji, ki]
    · rw [ji, GlobInfo.set_same] at hj
      rw [GlobInfo.set_other _ _ ki, own key' hj] at hk
      exact absurd hk (absent k)
    · rw [ki, GlobInfo.set_same] at hk
      rw [GlobInfo.set_other _ _ ji, own key' hk] at hj
      exact absurd hj (absent j)
    · rw [GlobInfo.set_other _ _ ji] at hj
      rw [GlobInfo.set_other _ _ ki] at hk
      exact good.unique j k key' hj hk

omit [DecidableEq ι] in
theorem Rests.insert (rests : Rests c) (i : Fin 10) (e : DcacheBlocks ι) :
    Rests (c.set i (dcacheInitBlocks layout key e)) := by
  intro j live
  by_cases hj : j = i
  · rw [hj, GlobInfo.set_same]
    exact ⟨rfl, rfl⟩
  · rw [GlobInfo.set_other _ _ hj] at live ⊢
    exact rests j live

/-- Both lookups before the first block of a transfer. -/
theorem lookup_first (good : Good layout c) (rests : Rests c) (origin target : Key ι) :
    ∃ o t c', c.lookup layout origin target = (o, t, c') ∧ Good layout c' ∧ Rests c' ∧
      (c'.dcacheBlocks o).holds origin ∧ (c'.dcacheBlocks t).holds target := by
  obtain ⟨o, c₁, first, good₁, rests₁, holds₁⟩ : ∃ o c₁, c.originEntry layout origin = (o, c₁) ∧
      Good layout c₁ ∧ Rests c₁ ∧ (c₁.dcacheBlocks o).holds origin := by
    unfold GlobInfo.originEntry
    cases found : c.search origin c.dcacheOriginLastEntry with
    | some i =>
      exact ⟨i, _, rfl, ⟨good.stored, good.unique⟩, rests, GlobInfo.search_holds found⟩
    | none =>
      have insert := good.insert (GlobInfo.search_none found) c.dcacheLastEntry
        (c.dcacheBlocks c.dcacheLastEntry)
      refine ⟨_, _, rfl, ⟨insert.stored, insert.unique⟩, rests.insert _ _, ?_⟩
      simp only [GlobInfo.set_same]
      exact dcacheInitBlocks_holds _
  simp only [GlobInfo.lookup, first]
  unfold GlobInfo.targetEntry
  cases found : c₁.search target c₁.dcacheTargetLastEntry with
  | some i =>
    exact ⟨o, i, _, rfl, ⟨good₁.stored, good₁.unique⟩, rests₁, holds₁, GlobInfo.search_holds found⟩
  | none =>
    have insert i := good₁.insert (GlobInfo.search_none found) i (c₁.dcacheBlocks i)
    refine ⟨o, _, _, rfl, ⟨(insert _).stored, (insert _).unique⟩, rests₁.insert _ _, ?_, ?_⟩
    · have skipped : o ≠ if o = c₁.dcacheLastEntry then c₁.dcacheLastEntry + 1
          else c₁.dcacheLastEntry := by
        split
        · rename_i here
          rw [here]
          exact ne_next_entry _
        · assumption
      simp only [GlobInfo.set_other _ _ skipped]
      exact holds₁
    · simp only [GlobInfo.set_same]
      exact dcacheInitBlocks_holds _

/-- Later lookups of a transfer hit the entries of the first ones. -/
theorem lookup_again (good : Good layout c) {o t : Fin 10} {origin target : Key ι}
    (holdsO : (c.dcacheBlocks o).holds origin) (holdsT : (c.dcacheBlocks t).holds target) :
    ∃ c', c.lookup layout origin target = (o, t, c') ∧ c'.dcacheBlocks = c.dcacheBlocks := by
  have first : c.search origin c.dcacheOriginLastEntry = some o := GlobInfo.search_eq good holdsO
  have second : ({ c with dcacheOriginLastEntry := o } : GlobInfo ι).search target
      c.dcacheTargetLastEntry = some t :=
    GlobInfo.search_eq ⟨good.stored, good.unique⟩ holdsT
  unfold GlobInfo.lookup GlobInfo.originEntry GlobInfo.targetEntry
  simp only [first, second]
  exact ⟨_, rfl, rfl⟩

end FoMPI.Dcache
