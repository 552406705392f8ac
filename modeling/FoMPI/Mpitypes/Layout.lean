import FoMPI.Dcache.Superposition
import FoMPI.Mpitypes.Blockct
import FoMPI.Mpitypes.Flatten

/-!
# What the cache stores

`dcache_init_blocks` asks `MPIT_Type_blockct` for the length of its arrays and `MPIT_Type_flatten` for
their contents. Where the range that it asks for reaches to the end of the stream the arrays are the
runs of the stream, and a transfer pairs the streams of its two sides.
-/
namespace FoMPI.Mpitypes
open FoMPI.Foundation

/-- `count_extent` of `dcache_init_blocks`. -/
def countExtent (type : Handle) (trueExtent : ℤ) (count : ℕ) : ℤ := (count - 1) * type.extent + trueExtent

/-- The arrays `displ` and `blocklen` of `dcache_init_blocks`, of `number_blocks` entries. Those that are not
written are what the memory held. -/
def dcacheArrays (fuel : ℕ) (type : Handle) (trueExtent : ℤ) (count : ℕ) (stack : ℕ → Stackelm) (memory : ℕ → Block) :
    Option (List Block) :=
  (mpitTypeBlockct fuel count type 0 (countExtent type trueExtent count) stack).bind fun (_, numberBlocks) =>
    (mpitTypeFlatten fuel 0 count type 0 (countExtent type trueExtent count) numberBlocks.toNat stack).map
        fun (_, entries) =>
      entries ++ ((List.range numberBlocks.toNat).drop entries.length).map memory

section Arrays
variable {h : Handle} {count fuel : ℕ} {trueExtent : ℤ} {stack : ℕ → Stackelm} {memory : ℕ → Block}

/-- A datatype that MPITypes can walk, `count` times, in `fuel` iterations. -/
structure Walkable (h : Handle) (count fuel : ℕ) : Prop where
  sound : h.Sound
  some_items : 0 < count
  shallow : (h.loopOf count).depth < maxDatatypeDepth
  merged : Merged (h.loopOf count).leaf.1 h.elSize
  short : (h.stream count).length < 2147483648
  enough : (h.loopOf count).work < fuel

theorem between_ne_nil (walkable : Walkable h count fuel) {stop : ℤ} (some_data : h.elSize ≤ stop) :
    between 0 stop h.elSize (h.stream count) ≠ [] := by
  have pos := walkable.sound.elSize_pos
  have no_ignore : stop ≠ ignoreLast := by
    unfold ignoreLast
    omega
  have some_elements : 0 < stop.toNat / h.elSize := Nat.div_pos (by omega) pos
  have some_bytes := Nat.mul_pos some_elements pos
  have stream := Nat.mul_pos walkable.some_items walkable.sound.size_pos
  apply List.ne_nil_of_length_pos
  rw [between, if_neg no_ignore, Int.toNat_zero, List.drop_zero, List.length_take,
    walkable.sound.length_stream, sub_zero]
  omega

theorem dvd_length_stream (walkable : Walkable h count fuel) : h.elSize ∣ (h.stream count).length := by
  obtain ⟨-, leaf, bytes⟩ := loopOf_spec walkable.sound walkable.some_items
  have whole := dvd_length_bytes (h.loopOf count) 0
  rwa [leaf, bytes, List.length_map] at whole

/-- A range that goes to the end of the stream. -/
theorem between_all (walkable : Walkable h count fuel) {stop : ℤ} (complete : (h.stream count).length ≤ stop) :
    between 0 stop h.elSize (h.stream count) = h.stream count := by
  have no_ignore : stop ≠ ignoreLast := by
    unfold ignoreLast
    omega
  have elements := Nat.div_le_div_right (c := h.elSize) (show (h.stream count).length ≤ stop.toNat by omega)
  have enough := Nat.mul_le_mul_right h.elSize elements
  rw [Nat.div_mul_cancel (dvd_length_stream walkable)] at enough
  rw [between, if_neg no_ignore, Int.toNat_zero, List.drop_zero, sub_zero, List.take_of_length_le enough]

/-- Behind the runs of the range there are as many entries as `MPIT_Type_blockct` counts too many; there are
none if the range goes to the end of the stream. -/
theorem arrays_spec (walkable : Walkable h count fuel) (some_data : h.elSize ≤ countExtent h trueExtent count)
    (stack : ℕ → Stackelm) (memory : ℕ → Block) :
    ∃ k, dcacheArrays fuel h trueExtent count stack memory =
        some (runs (between 0 (countExtent h trueExtent count) h.elSize (h.stream count)) ++ ((List.range k).drop
          (runs (between 0 (countExtent h trueExtent count) h.elSize (h.stream count))).length).map memory) ∧
      (runs (between 0 (countExtent h trueExtent count) h.elSize (h.stream count))).length ≤ k ∧
      ((h.stream count).length ≤ countExtent h trueExtent count →
        k = (runs (between 0 (countExtent h trueExtent count) h.elSize (h.stream count))).length) := by
  have inside : (0 : ℤ) < (h.stream count).length := by
    rw [walkable.sound.length_stream]
    exact_mod_cast Nat.mul_pos walkable.some_items walkable.sound.size_pos
  have positive : 0 ≤ countExtent h trueExtent count := by omega
  obtain ⟨s, _, k, init, counted, fewer, exact⟩ :=
    count_spec walkable.sound walkable.some_items walkable.shallow walkable.merged
    le_rfl (dvd_zero _) inside walkable.short (.inr positive) walkable.enough stack
  have some_runs : 0 < (runs (between 0 (countExtent h trueExtent count) h.elSize (h.stream count))).length := by
    obtain ⟨x, xs, range⟩ := List.exists_cons_of_ne_nil (between_ne_nil walkable some_data)
    obtain ⟨b, bs, found, -⟩ := head_runs x xs
    rw [range, found]
    exact Nat.succ_pos _
  obtain ⟨s', _, init', flat⟩ := flatten_spec walkable.sound walkable.some_items walkable.shallow le_rfl
    (dvd_zero _) inside walkable.short
    (.inr positive) (show 0 < k.toNat by omega) walkable.enough 0 stack
  have same : (h.stream count).map (0 + ·) = h.stream count := by simp
  rw [same, List.take_of_length_le (by omega)] at flat
  refine ⟨k.toNat, ?_, by omega, fun complete => ?_⟩
  · unfold dcacheArrays mpitTypeBlockct mpitTypeFlatten
    obtain rfl := Option.some.inj (init.symm.trans init')
    rw [init, Option.bind_some, counted, Option.map_some, Option.bind_some]
    dsimp only
    rw [Option.bind_some, flat, Option.map_some, Option.map_some]
  · have := exact (.inr complete)
    omega

/-- Two items in one place: the second one is cut off behind its first `int`, both are counted, and the last
entry is not written. -/
example : dcacheArrays 30 { gapped with extent := 0 } 12 2 cleared (fun _ => ⟨77, 7⟩) =
    some [⟨0, 4⟩, ⟨8, 4⟩, ⟨0, 4⟩, ⟨77, 7⟩] := by decide

/-- The arrays hold the runs of the stream if it ends in front of `count_extent`. -/
theorem arrays_complete (walkable : Walkable h count fuel)
    (complete : (h.stream count).length ≤ countExtent h trueExtent count) :
    dcacheArrays fuel h trueExtent count stack memory = some (runs (h.stream count)) := by
  have some_bytes : 0 < (h.stream count).length := by
    rw [walkable.sound.length_stream]
    exact Nat.mul_pos walkable.some_items walkable.sound.size_pos
  have some_data : h.elSize ≤ (h.stream count).length := Nat.le_of_dvd some_bytes (dvd_length_stream walkable)
  obtain ⟨k, arrays, -, exact⟩ := arrays_spec walkable
    (show h.elSize ≤ countExtent h trueExtent count by omega) stack memory
  rw [arrays, exact complete, between_all walkable complete, List.drop_eq_nil_of_le (by simp), List.map_nil,
    List.append_nil]

end Arrays

section Transfers
variable {ι : Type*} [DecidableEq ι]

/-- `blocks` is what `dcache_init_blocks` stores for a datatype whose stream ends in front of `count_extent`. -/
structure Stored (type : Handle) (trueExtent count : ℤ) (blocks : List Block) : Prop where
  complete : (type.stream count.toNat).length ≤ countExtent type trueExtent count.toNat
  initialised : ∃ fuel stack memory, Walkable type count.toNat fuel ∧
    dcacheArrays fuel type trueExtent count.toNat stack memory = some blocks

theorem Stored.eq_runs {type : Handle} {trueExtent count : ℤ} {blocks : List Block}
    (stored : Stored type trueExtent count blocks) :
    blocks = runs (type.stream count.toNat) ∧ type.stream count.toNat ≠ [] ∧
      (type.stream count.toNat).length = count.toNat * type.size := by
  obtain ⟨fuel, stack, memory, walkable, arrays⟩ := stored.initialised
  rw [arrays_complete walkable stored.complete] at arrays
  obtain rfl := Option.some.inj arrays
  have length := walkable.sound.length_stream count.toNat
  refine ⟨rfl, List.ne_nil_of_length_pos ?_, length⟩
  rw [length]
  exact Nat.mul_pos walkable.some_items walkable.sound.size_pos

/-- A transfer between layouts that are the runs of two streams. -/
theorem transfer_runs {entries : Fin 10 → Dcache.DcacheBlocks ι} {before : Dcache.Layout ι} {s : Dcache.State ι}
    {origin target : Dcache.Key ι} {xs ys : List ℤ}
    (history : Reach Dcache.step Dcache.Fitting ⟨Dcache.dcacheInit entries, before⟩ s)
    (runsO : s.layout origin.1 origin.2 = runs xs) (runsT : s.layout target.1 target.2 = runs ys) (some_bytes : xs ≠ [])
    (same : xs.length = ys.length) :
    ∃ chunks c', s.cache.transfer s.layout origin target (Dcache.calls s.layout origin target) = some (chunks, c') ∧
      pairs chunks = xs.zip ys := by
  have some_runs (zs : List ℤ) (pos : 0 < zs.length) : runs zs ≠ [] := fun none => by
    rw [← total_runs, none] at pos
    exact Nat.lt_irrefl 0 pos
  have pos := List.length_pos_of_ne_nil some_bytes
  have positiveO : Positive (s.layout origin.1 origin.2) := runsO ▸ runs_positive _
  have positiveT : Positive (s.layout target.1 target.2) := runsT ▸ runs_positive _
  have total_eq : total (s.layout origin.1 origin.2) = total (s.layout target.1 target.2) := by
    rw [runsO, runsT, total_runs, total_runs, same]
  obtain ⟨good, rests⟩ := Dcache.reach_rests history
  obtain ⟨c', run, -⟩ := Dcache.transfer_superposes good rests
    ⟨positiveO, positiveT, runsO ▸ some_runs xs pos, runsT ▸ some_runs ys (same ▸ pos), total_eq⟩ le_rfl
  refine ⟨_, c', run, ?_⟩
  have paired := superpose_pairs (Dcache.calls s.layout origin target) positiveO positiveT total_eq le_rfl
  rw [paired, runsO, runsT, bytes_runs, bytes_runs]

/-- Whatever was transferred and freed before, a transfer between two datatypes of one size pairs the packed
bytes of the one with those of the other: flattening, the cache and the walk through its entries change nothing
of what the types say. -/
theorem transfer_streams {entries : Fin 10 → Dcache.DcacheBlocks ι} {before : Dcache.Layout ι} {s : Dcache.State ι}
    (types : ι → Handle × ℤ) (origin target : Dcache.Key ι)
    (history : Reach Dcache.step Dcache.Fitting ⟨Dcache.dcacheInit entries, before⟩ s)
    (storedO : Stored (types origin.1).1 (types origin.1).2 origin.2 (s.layout origin.1 origin.2))
    (storedT : Stored (types target.1).1 (types target.1).2 target.2 (s.layout target.1 target.2))
    (same : origin.2.toNat * (types origin.1).1.size = target.2.toNat * (types target.1).1.size) :
    ∃ chunks c', s.cache.transfer s.layout origin target (Dcache.calls s.layout origin target) = some (chunks, c') ∧
      pairs chunks = ((types origin.1).1.stream origin.2.toNat).zip ((types target.1).1.stream target.2.toNat) := by
  obtain ⟨runsO, some_bytes, sizeO⟩ := storedO.eq_runs
  obtain ⟨runsT, -, sizeT⟩ := storedT.eq_runs
  exact transfer_runs history runsO runsT some_bytes (sizeO.trans (same.trans sizeT.symm))

/-- The `int` with gaps, and `MPI_INT`. -/
def gappedAndPlain : Bool → Handle × ℤ
  | true => (gapped, 12)
  | false => (⟨4, 4, none⟩, 4)

def unused : Fin 10 → Dcache.DcacheBlocks Bool := fun _ => ⟨[], 0, none, 0, 0, 0⟩

theorem transfer_streams_gapped : ∃ chunks c',
    (Dcache.dcacheInit unused).transfer (fun type count => runs ((gappedAndPlain type).1.stream count.toNat))
    (true, 1) (false, 2) 3 = some (chunks, c') ∧
      pairs chunks = (gapped.stream 1).zip [0, 1, 2, 3, 4, 5, 6, 7] := by
  have plain : Handle.Sound ⟨4, 4, none⟩ := ⟨fun _ => ⟨by decide, rfl⟩, by simp⟩
  have walkO : Walkable gapped 1 10 := ⟨gapped_sound, by decide, by decide, trivial, by decide, by decide⟩
  have walkT : Walkable ⟨4, 4, none⟩ 2 10 := ⟨plain, by decide, by decide, trivial, by decide, by decide⟩
  exact transfer_streams gappedAndPlain (true, 1) (false, 2)
    (s := ⟨Dcache.dcacheInit unused, fun type count => runs ((gappedAndPlain type).1.stream count.toNat)⟩) .refl
    ⟨by decide, 10, cleared, fun _ => ⟨0, 0⟩, walkO, arrays_complete walkO (by decide)⟩
    ⟨by decide, 10, cleared, fun _ => ⟨0, 0⟩, walkT, arrays_complete walkT (by decide)⟩ rfl

end Transfers

end FoMPI.Mpitypes
