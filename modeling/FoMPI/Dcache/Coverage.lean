import FoMPI.Dcache.Superposition
import FoMPI.Foundation.Typemap

/-!
# Which block lists cover their type map

`dcache_init_blocks` asks MPITypes for the part of the packed stream in front of an end
that it computes from extents. The list it stores is that of the whole stream where the
end lies behind it.
-/
namespace FoMPI.Dcache
open FoMPI.Foundation

/-- `MPIT_Type_blockct` and `MPIT_Type_flatten`, the latter with the length of its arrays. -/
structure Mpit where
  blockct : Typemap → ℤ → ℤ → ℤ → ℕ
  flatten : Typemap → ℤ → ℤ → ℤ → ℕ → List Block

/-- What MPITypes says of the two: `start` and `end` are positions in the packed stream, one counts
the contiguous regions of that part, and the other, given room for as many, describes them. -/
structure Mpit.Documented (lib : Mpit) : Prop where
  describes : ∀ d count start stop, bytes (lib.flatten d count start stop (lib.blockct d count start stop)) =
    d.packed count.toNat start stop
  counts : ∀ d count start stop,
    (lib.flatten d count start stop (lib.blockct d count start stop)).length = lib.blockct d count start stop
  regions : ∀ d count start stop, Positive (lib.flatten d count start stop (lib.blockct d count start stop))

/-- `count_extent` of `dcache_init_blocks`. -/
def countExtent (d : Typemap) (count : ℤ) : ℤ := (count - 1) * d.extent + d.trueExtent

/-- The arrays `displ` and `blocklen` as `dcache_init_blocks` leaves them: `number_blocks` entries, fewer than 2^31
as it is an `int`, of which `MPIT_Type_flatten` writes the first ones; the others are what the memory held. -/
def Mpit.arrays (lib : Mpit) (memory : ℕ → Block) (d : Typemap) (count : ℤ) : List Block :=
  let numberBlocks := lib.blockct d count 0 (countExtent d count)
  let written := lib.flatten d count 0 (countExtent d count) numberBlocks
  written ++ ((List.range numberBlocks).drop written.length).map memory

/-- The lists that `dcache_init_blocks` stores for the types of the handles. -/
def Mpit.layout {ι : Type*} (lib : Mpit) (memory : ℕ → Block) (types : ι → Typemap) : Layout ι :=
  fun type count => lib.arrays memory (types type) count

/-- The packed stream ends in front of `count_extent`. -/
def Complete (d : Typemap) (count : ℤ) : Prop := count * d.size ≤ countExtent d count

variable {lib : Mpit} {d : Typemap} {count : ℤ}

namespace Mpit.Documented

theorem arrays_eq (doc : lib.Documented) (memory : ℕ → Block) : lib.arrays memory d count =
    lib.flatten d count 0 (countExtent d count) (lib.blockct d count 0 (countExtent d count)) := by
  have full : (List.range (lib.blockct d count 0 (countExtent d count))).drop
      (lib.flatten d count 0 (countExtent d count) (lib.blockct d count 0 (countExtent d count))).length = [] := by
    rw [doc.counts]
    exact List.drop_eq_nil_of_le (by simp)
  rw [Mpit.arrays, full, List.map_nil, List.append_nil]

theorem bytes_arrays (doc : lib.Documented) (memory : ℕ → Block) :
    bytes (lib.arrays memory d count) = (d.stream count.toNat).take (countExtent d count).toNat := by
  rw [doc.arrays_eq, doc.describes]
  simp [Typemap.packed]

theorem total_arrays (doc : lib.Documented) (memory : ℕ → Block) :
    total (lib.arrays memory d count) = min (countExtent d count).toNat (count.toNat * d.size) := by
  rw [← length_bytes, doc.bytes_arrays, List.length_take, d.length_stream]

/-- A list has the size of its items exactly if the end that was asked for is no earlier. -/
theorem total_iff (doc : lib.Documented) (memory : ℕ → Block) (some_items : 1 ≤ count) :
    total (lib.arrays memory d count) = count.toNat * d.size ↔ Complete d count := by
  have items : (count.toNat : ℤ) = count := Int.toNat_of_nonneg (by omega)
  have positive : 0 < count.toNat * d.size := Nat.mul_pos (by omega) d.size_pos
  have cast : ((count.toNat * d.size : ℕ) : ℤ) = count * d.size := by rw [Nat.cast_mul, items]
  rw [doc.total_arrays, Complete, ← cast]
  omega

/-- A complete list is the whole stream. -/
theorem bytes_complete (doc : lib.Documented) (memory : ℕ → Block) (some_items : 1 ≤ count)
    (complete : Complete d count) :
    bytes (lib.arrays memory d count) = d.stream count.toNat := by
  have whole := (doc.total_iff memory some_items).mpr complete
  rw [doc.total_arrays] at whole
  rw [doc.bytes_arrays]
  apply List.take_of_length_le
  rw [d.length_stream]
  omega

end Mpit.Documented

/-- A type whose items lie one behind the other and share no byte has complete lists, as every type
must be that is the target of a put. -/
theorem complete_of_apart (forward : 0 ≤ d.extent) (apart : (d.stream count.toNat).Nodup)
    (some_items : 1 ≤ count) : Complete d count := by
  have span := Typemap.size_le_span forward apart (by omega)
  rwa [Int.toNat_of_nonneg (by omega)] at span

section Transfers

variable {ι : Type*} [DecidableEq ι] {types : ι → Typemap} {origin target : Key ι}

omit [DecidableEq ι] in
/-- Two complete lists of one total size fit together. -/
theorem fits_of_complete (doc : lib.Documented) (memory : ℕ → Block) (someO : 1 ≤ origin.2) (someT : 1 ≤ target.2)
    (completeO : Complete (types origin.1) origin.2) (completeT : Complete (types target.1) target.2)
    (same : origin.2 * (types origin.1).size = target.2 * (types target.1).size) :
    Fits (lib.layout memory types) origin target := by
  have totalO := (doc.total_iff memory someO).mpr completeO
  have totalT := (doc.total_iff memory someT).mpr completeT
  have equal : origin.2.toNat * (types origin.1).size = target.2.toNat * (types target.1).size := by
    zify
    rwa [Int.toNat_of_nonneg (by omega), Int.toNat_of_nonneg (by omega)]
  have nonempty {type : ι} {count : ℤ} (some_items : 1 ≤ count)
      (whole : total (lib.arrays memory (types type) count) = count.toNat * (types type).size) :
      lib.layout memory types type count ≠ [] := by
    intro none
    have positive : 0 < count.toNat * (types type).size := Nat.mul_pos (by omega) (types type).size_pos
    rw [Mpit.layout] at none
    rw [none] at whole
    simp only [total, List.map_nil, List.sum_nil] at whole
    omega
  refine ⟨?_, ?_, nonempty someO totalO, nonempty someT totalT, totalO.trans (equal.trans totalT.symm)⟩
  all_goals
    rw [Mpit.layout, doc.arrays_eq]
    exact doc.regions _ _ _ _

/-- For every type and count, the stored list has the size of the items exactly if their packed
stream is no longer than `(count - 1) * extent + true_extent`. Between two such lists of equal total size
a transfer runs past neither, whatever was transferred and freed before, and it pairs the streams of its
two sides byte by byte. -/
theorem cached_list_covers (doc : lib.Documented) (memory : ℕ → Block) (types : ι → Typemap) :
    (∀ type count (e : DcacheBlocks ι), 1 ≤ count →
      (total (dcacheInitBlocks (lib.layout memory types) (type, count) e).blocks = count.toNat * (types type).size ↔
        count * (types type).size ≤ (count - 1) * (types type).extent + (types type).trueExtent)) ∧
    ∀ {entries : Fin 10 → DcacheBlocks ι} {before : Layout ι} {s : State ι},
      Reach step Fitting ⟨dcacheInit entries, before⟩ s → s.layout = lib.layout memory types →
      ∀ origin target : Key ι, 1 ≤ origin.2 → 1 ≤ target.2 →
        Complete (types origin.1) origin.2 → Complete (types target.1) target.2 →
        origin.2 * (types origin.1).size = target.2 * (types target.1).size →
        ∃ chunks c', s.cache.transfer s.layout origin target (calls s.layout origin target) = some (chunks, c') ∧
          pairs chunks =
            ((types origin.1).stream origin.2.toNat).zip ((types target.1).stream target.2.toNat) := by
  refine ⟨fun type count e some_items => doc.total_iff memory some_items, ?_⟩
  intro entries before s history layout origin target someO someT completeO completeT same
  have fits : Fits s.layout origin target := layout ▸ fits_of_complete doc memory someO someT completeO completeT same
  obtain ⟨chunks, c', run, paired, -⟩ := datatype_superposition _ history fits (le_refl _)
  refine ⟨chunks, c', run, ?_⟩
  rw [paired, layout, ← doc.bytes_complete memory someO completeO,
    ← doc.bytes_complete memory someT completeT]
  rfl

end Transfers

section Runs

/-- MPITypes with the bytes of the range gathered into contiguous regions. -/
def gathering : Mpit where
  blockct d count start stop := (runs (d.packed count.toNat start stop)).length
  flatten d count start stop length := (runs (d.packed count.toNat start stop)).take length

theorem gathering_documented : gathering.Documented where
  describes d count start stop := by
    simp only [gathering, List.take_length, bytes_runs]
  counts d count start stop := by
    simp only [gathering, List.take_length]
  regions d count start stop := by
    simp only [gathering, List.take_length]
    exact runs_positive _

/-- `MPI_INT` resized to an extent of zero, and two `int` with a gap between them. -/
def folded : Bool → Typemap
  | true => ⟨[⟨0, 4⟩], 0, by decide, by simp [Positive]⟩
  | false => ⟨[⟨0, 4⟩, ⟨8, 4⟩], 12, by decide, by simp [Positive]⟩

def unused : GlobInfo Bool := dcacheInit fun _ => ⟨[], 0, none, 0, 0, 0⟩

/-- Two items of the first type make one stream of eight bytes, of which four are stored; a transfer
to one item of the second runs past them. -/
theorem cached_list_covers_fails :
    gathering.Documented ∧ 2 * (folded true).size = 8 ∧ 1 * (folded false).size = 8 ∧
      (∀ memory e, total (dcacheInitBlocks (gathering.layout memory folded) (true, 2) e).blocks = 4) ∧
      (unused.getNextBlock (gathering.layout (fun _ => ⟨0, 0⟩) folded) (true, 2) (false, 1)).bind
        (fun r => r.2.2.getNextBlock (gathering.layout (fun _ => ⟨0, 0⟩) folded) (true, 2) (false, 1)) = none := by
  refine ⟨gathering_documented, by decide, by decide, fun memory e => ?_, by decide⟩
  rw [dcacheInitBlocks, Mpit.layout, gathering_documented.total_arrays]
  decide

/-- The two `int` with the gap, sent to themselves. -/
theorem cached_list_covers_gap : ∃ chunks c',
    unused.transfer (gathering.layout (fun _ => ⟨0, 0⟩) folded) (false, 1) (false, 1)
        (calls (gathering.layout (fun _ => ⟨0, 0⟩) folded) (false, 1) (false, 1)) = some (chunks, c') ∧
      pairs chunks = ((folded false).stream 1).zip ((folded false).stream 1) := by
  have complete : Complete (folded false) 1 := by
    unfold Complete
    decide
  exact (cached_list_covers gathering_documented (fun _ => ⟨0, 0⟩) folded).2
    (s := ⟨unused, gathering.layout (fun _ => ⟨0, 0⟩) folded⟩) .refl rfl (false, 1) (false, 1) (le_refl 1)
    (le_refl 1) complete complete rfl

end Runs

end FoMPI.Dcache
