import FoMPI.Comm.Inside

/-!
# A block cut at the borders of the regions

The regions may overlap, lie in any order and be empty: the loop takes the first that
holds the next byte, which gives it at least that byte.
-/
namespace FoMPI.Comm
open FoMPI.Foundation FoMPI.RmaNotify FoMPI.Window

variable {regions : List Region} {o t : ℤ} {f : Found} {c : Chunk}

/-- The descriptor is that of the first region with the first byte of the call, and this region
holds all its bytes. -/
def FirstInside (regions : List Region) (i : Invocation) : Prop :=
  ∃ r, (regions.find? fun r => r.hasByte i.chunk.targetOffset) = some r ∧ i.dstSeg = .region r ∧
    ∀ k : ℕ, k < i.chunk.size → r.hasByte (i.chunk.targetOffset + k)

/-- The calls for a covered block do not depend on the bound of rounds, once it is large enough. -/
theorem blockLoop_tiles (covered : Covered regions t c) (f : Found) (o : ℤ) : ∃ calls f',
    (∀ fuel, c.size ≤ fuel → blockLoop regions o t fuel f c = (calls, some f')) ∧
      Tiles (o + c.originOffset) (t + c.targetOffset) c.size (calls.map Invocation.chunk) ∧
      ∀ i ∈ calls, FirstInside regions i := by
  induction size : c.size using Nat.strong_induction_on generalizing c f with
  | _ n ih =>
    subst size
    by_cases none : c.size = 0
    · refine ⟨[], f, fun fuel _ => ?_, ?_, by simp⟩
      · cases fuel <;> simp [blockLoop, none]
      · rw [none]
        exact .nil _ _
    · obtain ⟨r, k, found, pos, le, -, inside⟩ := findSegAndSize_spec covered (Nat.pos_of_ne_zero none)
      obtain ⟨calls, f', run, tiles, inside'⟩ :=
        ih (c.size - k) (by omega) covered.drop ⟨.region r, k⟩ rfl
      refine ⟨⟨.region r, ⟨o + c.originOffset, t + c.targetOffset, k⟩⟩ :: calls, f', ?_, ?_, ?_⟩
      · intro fuel enough
        cases fuel with
        | zero => omega
        | succ fuel =>
          have rest := run fuel (by omega)
          rw [blockLoop, if_neg none, Found.find_some found]
          simp only [subSize, if_pos le, rest]
          rfl
      · have whole : c.size = k + (c.size - k) := by omega
        rw [List.map_cons, whole]
        refine .cons pos ?_
        rwa [add_assoc, add_assoc]
      · intro i hi
        obtain rfl | hi := List.mem_cons.mp hi
        · obtain ⟨r', first, eq⟩ := Option.map_eq_some_iff.mp found
          obtain rfl : r' = r := congrArg Prod.fst eq
          exact ⟨r', first, rfl, (covers_iff (c := ⟨c.originOffset, c.targetOffset, k⟩) pos t).mp inside⟩
        · exact inside' i hi

/-- On a block whose bytes all lie in some region, the loop over the regions comes to an end within
as many rounds as there are bytes, whatever the locals held. Its calls are not empty, lie end to end,
have each byte of the target once and no other byte, advance equally on both sides, and each of them lies
in the region whose descriptor it uses, the first in the list with its first byte. -/
theorem blockLoop_partitions (covered : Covered regions t c) (f : Found) (o : ℤ) : ∃ calls f',
    (∀ fuel, c.size ≤ fuel → blockLoop regions o t fuel f c = (calls, some f')) ∧
      calls.length ≤ c.size ∧
      Tiles (o + c.originOffset) (t + c.targetOffset) c.size (calls.map Invocation.chunk) ∧
      (∀ i ∈ calls, 0 < i.chunk.size) ∧
      (∀ x, (calls.countP fun i => i.chunk.hasTarget x) =
        if t + c.targetOffset ≤ x ∧ x < t + c.targetOffset + c.size then 1 else 0) ∧
      (∀ i ∈ calls, i.chunk.originOffset - (o + c.originOffset) = i.chunk.targetOffset - (t + c.targetOffset)) ∧
      ∀ i ∈ calls, FirstInside regions i := by
  obtain ⟨calls, f', run, tiles, inside⟩ := blockLoop_tiles covered f o
  refine ⟨calls, f', run, ?_, tiles, ?_, fun x => ?_, ?_, inside⟩
  · simpa using tiles.length_le
  · simpa using tiles.positive
  · rw [← tiles.once x, List.countP_map]
    rfl
  · simpa using tiles.advance_eq

/-- Twelve bytes over an empty region, a nested one, one around it and one behind them. -/
def crowded : List Region := [⟨100, 0⟩, ⟨104, 4⟩, ⟨100, 6⟩, ⟨106, 10⟩]

theorem blockLoop_partitions_crowded : ∃ calls f',
    blockLoop crowded 500 100 12 ⟨.null, 0⟩ ⟨0, 0, 12⟩ = (calls, some f') ∧
      calls.map Invocation.chunk = [⟨500, 100, 6⟩, ⟨506, 106, 2⟩, ⟨508, 108, 4⟩] ∧
      ∀ i ∈ calls, FirstInside crowded i := by
  have covered : Covered crowded 100 ⟨0, 0, 12⟩ := by
    unfold Covered
    decide
  obtain ⟨calls, f', run, -, -, -, -, -, inside⟩ := blockLoop_partitions covered ⟨.null, 0⟩ 500
  have recorded := run 12 (Nat.le_refl 12)
  refine ⟨calls, f', recorded, ?_, inside⟩
  have first := congrArg (fun r => r.1.map Invocation.chunk) recorded
  rw [← show _ = calls.map Invocation.chunk from first]
  decide

end FoMPI.Comm
