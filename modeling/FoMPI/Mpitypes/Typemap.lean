import FoMPI.Mpitypes.Footprint
import FoMPI.Mpitypes.Layout

/-!
# From type maps to transfers

What `MPIT_Type_init` creates for a datatype stands for its type map, and so do the arrays that are flattened
from it: a transfer pairs the bytes of two type maps, whatever the cache has seen before.
-/
namespace FoMPI.Mpitypes
open FoMPI.Foundation

section Typemaps
variable {ν : Type} {p : Predefined ν} {fuel : ℕ} {stack : ℕ → Stackelm} {t : Datatype ν}

/-- The packed bytes of `count` items. -/
def Datatype.stream (p : Predefined ν) (t : Datatype ν) (count : ℕ) : List ℤ :=
  placed (t.data p) ((Row.mk count 0).starts (t.calcFootprint p).extent)

theorem handle_spec (regular : t.Regular p fuel stack) :
    ∃ h, t.handle p fuel stack = some h ∧ h.StandsFor (t.data p) ∧ h.size = (t.data p).length ∧
      ∀ count, h.stream count = t.stream p count := by
  obtain ⟨loop, created, stands⟩ := created_spec regular
  refine ⟨t.withLoop p loop, by rw [Datatype.handle, created, Option.map_some], stands, (length_data p t).symm,
    fun count => ?_⟩
  have stream := map_stream (t.withLoop p loop) count 0
  rw [stands.bytes] at stream
  simp only [zero_add, List.map_id'] at stream
  exact stream

/-- One `int` and two pairs of them with room for one between. -/
def intAndPairs : Datatype Unit :=
  .struct 2 [⟨1, 0, ⟨0, Nat.zero_lt_two⟩⟩, ⟨2, 8, ⟨1, Nat.one_lt_two⟩⟩] fun i =>
    if i.val = 0 then .named () else .derived (.vector 2 1 2) (.named ())

theorem intAndPairs_regular : intAndPairs.Regular .ints 20 cleared := by
  have int : (Datatype.named ()).Unresized := trivial
  have pairs : (Datatype.derived (.vector 2 1 2) (.named ())).Unresized := ⟨⟨⟨by decide, by decide⟩, by simp⟩, int⟩
  refine ⟨?_, ⟨_, List.mem_cons_self, by decide⟩, ?_⟩
  · simp only [List.forall_mem_cons]
    exact ⟨trivial, (unresized_spec pairs).1, by simp⟩
  · simp only [List.forall_mem_cons]
    refine ⟨fun _ h created => ⟨Datatype.Unresized.dense int created, ?_⟩, fun _ h created =>
      ⟨Datatype.Unresized.dense pairs created, ?_⟩, by simp⟩
    · obtain rfl := Option.some.inj created
      decide
    · obtain rfl := Option.some.inj created
      decide

end Typemaps

section Transfers
variable {ι : Type*} [DecidableEq ι] {ν : Type} {p : Predefined ν} {fuel : ℕ} {stack : ℕ → Stackelm}

/-- `blocks` is what `dcache_init_blocks` stores for a regular datatype whose stream ends in front of
`count_extent`. -/
structure Cached (p : Predefined ν) (fuel : ℕ) (stack : ℕ → Stackelm) (t : Datatype ν) (trueExtent count : ℤ)
    (blocks : List Block) :
    Prop where
  regular : t.Regular p fuel stack
  some_items : 0 < count
  short : (t.stream p count.toNat).length < 2147483648
  initialised : ∃ h walk elements memory, t.handle p fuel stack = some h ∧
    (t.stream p count.toNat).length ≤ countExtent h trueExtent count.toNat ∧
    (h.loopOf count.toNat).depth < maxDatatypeDepth ∧ (h.loopOf count.toNat).work < walk ∧
    dcacheArrays walk h trueExtent count.toNat elements memory = some blocks

theorem Cached.eq_runs {t : Datatype ν} {trueExtent count : ℤ} {blocks : List Block}
    (cached : Cached p fuel stack t trueExtent count blocks) :
    blocks = runs (t.stream p count.toNat) ∧ t.stream p count.toNat ≠ [] := by
  obtain ⟨h, walk, elements, memory, created, complete, shallow, enough, arrays⟩ := cached.initialised
  obtain ⟨h', created', stands, -, stream⟩ := handle_spec cached.regular
  obtain rfl := Option.some.inj (created.symm.trans created')
  have some_items := cached.some_items
  have pos : 0 < count.toNat := by omega
  have merged : Merged (h.loopOf count.toNat).leaf.1 h.elSize := merged_loopOf stands.merged pos
  have stored : Stored h trueExtent count blocks :=
    ⟨by rwa [stream], walk, elements, memory,
      ⟨stands.sound, pos, shallow, merged, stream count.toNat ▸ cached.short, enough⟩, arrays⟩
  obtain ⟨runs_eq, some_bytes, -⟩ := stored.eq_runs
  rw [stream] at runs_eq some_bytes
  exact ⟨runs_eq, some_bytes⟩

/-- From datatypes to transfers: whatever was transferred and freed before, a transfer pairs the bytes of the
one type map with those of the other. Dataloops, walks, flattening and the cache change nothing of what the
types say. -/
theorem transfer_typemaps {entries : Fin 10 → Dcache.DcacheBlocks ι} {before : Dcache.Layout ι} {s : Dcache.State ι}
    (types : ι → Datatype ν × ℤ) (origin target : Dcache.Key ι)
    (history : Reach Dcache.step Dcache.Fitting ⟨Dcache.dcacheInit entries, before⟩ s)
    (cachedO : Cached p fuel stack (types origin.1).1 (types origin.1).2 origin.2 (s.layout origin.1 origin.2))
    (cachedT : Cached p fuel stack (types target.1).1 (types target.1).2 target.2 (s.layout target.1 target.2))
    (same : ((types origin.1).1.stream p origin.2.toNat).length = ((types target.1).1.stream p target.2.toNat).length) :
    ∃ chunks c', s.cache.transfer s.layout origin target (Dcache.calls s.layout origin target) = some (chunks, c') ∧
      pairs chunks = ((types origin.1).1.stream p origin.2.toNat).zip ((types target.1).1.stream p target.2.toNat) := by
  obtain ⟨runsO, some_bytes⟩ := cachedO.eq_runs
  obtain ⟨runsT, -⟩ := cachedT.eq_runs
  exact transfer_runs history runsO runsT some_bytes same

/-- A struct, and five `int` in a row. -/
def structAndRow : Bool → Datatype Unit × ℤ
  | true => (intAndPairs, 32)
  | false => (.derived (.contiguous 5) (.named ()), 20)

/-- What is known of the struct: its bytes are one indexed loop. -/
theorem intAndPairs_handle : intAndPairs.handle .ints 20 cleared =
    some ⟨20, 32, some (.final (.indexed 4 [4, 4, 8, 4] [0, 8, 16, 28] 20) 1 1)⟩ := by rfl

theorem transfer_typemaps_intAndPairs : ∃ chunks c',
    (Dcache.dcacheInit unused).transfer (fun type count =>
      runs ((structAndRow type).1.stream .ints count.toNat)) (true, 1) (false, 1) 5 =
        some (chunks, c') ∧
      pairs chunks = (intAndPairs.stream .ints 1).zip ((structAndRow false).1.stream .ints 1) := by
  have row : (structAndRow false).1.Unresized := ⟨⟨(by decide : 0 < 5), by simp⟩, trivial⟩
  have cachedO : Cached .ints 20 cleared intAndPairs 32 1 (runs (intAndPairs.stream .ints 1)) :=
    ⟨intAndPairs_regular, by decide, by decide, _, 40, cleared, fun _ =>
      ⟨0, 0⟩, intAndPairs_handle, by decide, by decide, by decide, by decide⟩
  have cachedT : Cached .ints 20 cleared (structAndRow false).1 20 1 (runs ((structAndRow false).1.stream .ints 1)) :=
    ⟨(unresized_spec row).1, by decide, by decide, ⟨20, 20, some (.final (.contig 5) 4 4)⟩, 40, cleared, fun _ =>
      ⟨0, 0⟩, by rfl, by decide, by decide, by decide,
      by decide⟩
  exact transfer_typemaps structAndRow (true, 1) (false, 1)
    (s := ⟨Dcache.dcacheInit unused, fun type count => runs ((structAndRow type).1.stream .ints count.toNat)⟩)
      .refl cachedO cachedT
    (by decide)

end Transfers

end FoMPI.Mpitypes
