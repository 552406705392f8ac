import FoMPI.Accumulate.Op
import FoMPI.Comm.Model
import FoMPI.Dcache.Superposition

/-!
# Accumulates carried out by the network

`foMPI_Accumulate` hands operations on eight-byte elements to the network card: sums
through the routine that takes the base address of the target, bitwise operations
through the one that takes the address of a mapping where there is one. Both pass the
descriptor of the target, so an address of the mapping is taken for one of the target.
-/
namespace FoMPI.Comm
open FoMPI.Accumulate FoMPI.Dcache FoMPI.Foundation FoMPI.RmaNotify FoMPI.Window

/-- `dmapp_aadd_qw_nbi`, `dmapp_aand_qw_nbi`, `dmapp_aor_qw_nbi` or `dmapp_axor_qw_nbi`, with the
addresses of the target element and of the operand. -/
structure Atomic where
  op : Op
  targetAddr : ℤ
  originAddr : ℤ
  dstSeg : SegPtr
  deriving DecidableEq

/-- `accumulate_sum_8byte`, `accumulate_band_8byte`, `accumulate_bor_8byte` and
`accumulate_bxor_8byte`; `nelements` and the offset `i * 8` are of type `int`. -/
def accumulate8byte (op : Op) (i : Invocation) : List Atomic :=
  (List.range (Int.bmod (i.chunk.size / 8) 4294967296).toNat).map fun k : ℕ =>
    ⟨op, i.chunk.targetOffset + Int.bmod (k * 8) 4294967296, i.chunk.originOffset + Int.bmod (k * 8) 4294967296,
      i.dstSeg⟩

/-- `n` elements of eight bytes, as offsets. -/
def elementOffsets (n : ℕ) : List ℤ := (List.range n).map fun k : ℕ => (k : ℤ) * 8

variable {ι : Type*} [DecidableEq ι] (D : Datatypes ι) (W : Win) (a : Args ι) (layout : Layout ι)

/-- The hardware paths of `foMPI_Accumulate`. -/
def hardwareCalls (op : Op) : ℕ → ℕ → GlobInfo ι → Option (GlobInfo ι × List Invocation) :=
  if op = .sum then communicationAndDatatypeHandlingDmappOnly D W a layout
  else communicationAndDatatypeHandling D W a layout

/-- One atomic for each element, at its address in the memory of the target and with the descriptor
of that memory. -/
def ownAtomics (op : Op) : List Atomic :=
  (elementOffsets a.target.2.toNat).map fun x =>
    ⟨op, W.base + a.targetDisp * W.dispUnit + x, a.originAddr + x, .window⟩

/-- The datatypes of the hardware paths: `MPI_INT64_T`, which has no fast path of its own in the
walkers, or `MPI_DOUBLE`. Their elements follow each other, in one run for the library. -/
structure EightByte : Prop where
  same : a.origin = a.target
  isInt : a.target.2 < 2147483648
  kind : D.intrinsic a.target.1 = none ∨ D.intrinsic a.target.1 = some .double
  row : layout a.target.1 a.target.2 = [⟨0, storedLength (a.target.2.toNat * 8)⟩]

/-- The operations on these types. -/
def Hardware (op : Op) : Prop :=
  op = .sum ∧ D.intrinsic a.target.1 = none ∨ op = .band ∨ op = .bor ∨ op = .bxor

/-- The base address of the target buffer in the walker that `foMPI_Accumulate` chooses. -/
def hardwareOffset (op : Op) : ℤ :=
  if op = .sum then targetOffsetDmappOnly W a else targetOffset W a

/-- The base address that goes with the descriptor is used, and the bytes are an `int`. -/
def OwnAddress (op : Op) : Prop :=
  (op = .sum ∨ W.locality.onnodeRankGlobalToLocal a.targetRank = -1 ∨ W.xpmemBase = W.base) ∧
    a.target.2 * 8 < 2147483648

/-- Atomics on elements at the given offsets of two buffers. -/
def atomicsAt (op : Op) (o t : ℤ) (offsets : List ℤ) : List Atomic :=
  offsets.map fun x => ⟨op, t + x, o + x, .window⟩

section Lists
variable {op : Op} {o t t' : ℤ} {offsets offsets' : List ℤ}

theorem atomicsAt_length : (atomicsAt op o t offsets).length = offsets.length := List.length_map _

/-- The address is determined by any one of the atomics. -/
theorem atomicsAt_inj (some_element : offsets ≠ []) (op : Op) (o t t' : ℤ) :
    atomicsAt op o t offsets = atomicsAt op o t' offsets ↔ t = t' := by
  constructor
  · intro same
    obtain ⟨x, rest, rfl⟩ := List.exists_cons_of_ne_nil some_element
    have first := (List.cons.inj same).1
    simp only [Atomic.mk.injEq, add_left_inj] at first
    exact first.2.1
  · rintro rfl
    rfl

/-- A piece of less than two gigabytes. -/
theorem accumulate8byte_piece {size : ℕ} (small : size < 2147483648) (op : Op) (o t : ℤ) :
    accumulate8byte op ⟨.window, ⟨o, t, size⟩⟩ = atomicsAt op o t (elementOffsets (size / 8)) := by
  have count : (Int.bmod ((size : ℤ) / 8) 4294967296).toNat = size / 8 := by
    rw [Int.bmod_eq_of_le] <;> omega
  simp only [accumulate8byte, atomicsAt, elementOffsets, List.map_map, count]
  refine List.map_congr_left fun k lt => ?_
  have index : Int.bmod ((k : ℤ) * 8) 4294967296 = k * 8 := by
    rw [List.mem_range] at lt
    rw [Int.bmod_eq_of_le] <;> omega
  simp only [Function.comp_apply, index]

/-- The one piece holds all elements, at the right address, unless its length does not fit an `int`. -/
theorem piece_iff {n : ℕ} (some_elements : 0 < n) (op : Op) (o t t' : ℤ) :
    accumulate8byte op ⟨.window, ⟨o, t, storedLength (n * 8)⟩⟩ = atomicsAt op o t' (elementOffsets n) ↔
      t = t' ∧ n * 8 < 2147483648 := by
  rw [accumulate8byte_piece (storedLength_lt _)]
  have nonempty : elementOffsets n ≠ [] := by
    simp only [elementOffsets, ne_eq, List.map_eq_nil_iff, List.range_eq_nil]
    exact some_elements.ne'
  by_cases small : n * 8 < 2147483648
  · rw [storedLength_eq small, Nat.mul_div_cancel n (by decide), atomicsAt_inj nonempty]
    exact (and_iff_left small).symm
  · refine iff_of_false (fun same => small ?_) fun h => small h.2
    have length := congrArg List.length same
    have short := storedLength_lt (n * 8)
    simp only [atomicsAt_length, elementOffsets, List.length_map, List.length_range] at length
    omega

end Lists

variable {D W a layout} {op : Op} {cache : GlobInfo ι} {fuel garbage : ℕ}

/-- What one walker hands on of one run: its calls, unless it has no length. -/
theorem walk_row {cache : GlobInfo ι} (good : Good layout cache) (rests : Rests cache)
    (same : a.origin = a.target) {m : ℕ} (row : layout a.target.1 a.target.2 = [⟨0, m⟩]) (t : ℤ)
    (fuel garbage : ℕ) : (walk D W a layout t none fuel garbage cache).map Prod.snd =
      if m = 0 then none else some (blockCalls D W a t fuel garbage [⟨0, 0, m⟩]) := by
  by_cases empty : m = 0
  · subst empty
    rw [walk, same, transfer_empty_block good rests row]
    rfl
  · have fits : Fits layout a.origin a.target := by
      rw [same]
      constructor <;> simp [Positive, row, Nat.pos_of_ne_zero empty]
    obtain ⟨cache, run, -⟩ := transfer_superposes good rests fits (le_refl (calls layout a.origin a.target))
    have blocks : superpose (calls layout a.origin a.target) (layout a.origin.1 a.origin.2)
        (layout a.target.1 a.target.2) = [⟨0, 0, m⟩] := by
      rw [same]
      refine (superpose_self _ (Nat.le_add_left _ _)).trans ?_
      rw [row]
      rfl
    rw [blocks] at run
    rw [walk, run, if_neg empty]
    rfl

omit [DecidableEq ι] in
/-- The walkers differ in where they take the target to be. -/
theorem hardwareOffset_own (static : W.locality.dynamic = false) :
    hardwareOffset W a op = W.base + a.targetDisp * W.dispUnit ↔
      op = .sum ∨ W.locality.onnodeRankGlobalToLocal a.targetRank = -1 ∨ W.xpmemBase = W.base := by
  unfold hardwareOffset
  by_cases sum : op = .sum
  · simp [sum, targetOffsetDmappOnly, static]
  · rw [if_neg sum]
    unfold targetOffset
    by_cases remote : W.locality.onnodeRankGlobalToLocal a.targetRank = -1 <;> simp [static, sum, remote]

section Paths
variable {layout : Layout ι}

/-- Eight-byte integers have no fast path in the walkers. -/
theorem hardwareCalls_slow (same : a.origin = a.target) (slow : D.intrinsic a.target.1 = none) :
    hardwareCalls D W a layout op = walk D W a layout (hardwareOffset W a op) none := by
  have fast : fastPath D W a = none := by
    unfold fastPath
    rw [same, slow]
    split <;> simp
  unfold hardwareCalls hardwareOffset communicationAndDatatypeHandling
    communicationAndDatatypeHandlingDmappOnly
  split
  · rw [fastPathDmappOnly, same, slow]
    exact congrArg (walk D W a layout (targetOffsetDmappOnly W a)) fast
  · rw [fast]

/-- Doubles are handed over in one piece, of a size that is an `int`. -/
theorem hardwareCalls_double (static : W.locality.dynamic = false) (same : a.origin = a.target)
    (double : D.intrinsic a.target.1 = some .double) (bitwise : op ≠ .sum) (cache : GlobInfo ι) :
    hardwareCalls D W a layout op fuel garbage cache = some (cache,
      [⟨.window, ⟨a.originAddr, hardwareOffset W a op, storedLength (a.target.2.toNat * 8)⟩⟩]) := by
  have count : a.target.2 * 8 = ((a.target.2.toNat * 8 : ℕ) : ℤ) := by
    have := a.targetCount
    omega
  have fast : fastPath D W a = some (storedLength (a.target.2.toNat * 8)) := by
    unfold fastPath storedLength
    rw [static, if_neg Bool.false_ne_true, if_pos (congrArg Prod.fst same), same, double, ← count]
    exact Option.map_some ..
  unfold hardwareCalls hardwareOffset communicationAndDatatypeHandling
  rw [if_neg bitwise, if_neg bitwise, fast]
  rfl

end Paths

/-- For every static window, rank, displacement and count: the atomics of an accumulate are those on the
target's own memory exactly if the walker takes the base address that goes with the descriptor and the
bytes are an `int`. -/
theorem hardware_own_addresses {memory : Fin 10 → DcacheBlocks ι} {before : Layout ι} {s : State ι}
    (history : Reach step Fitting ⟨dcacheInit memory, before⟩ s) (static : W.locality.dynamic = false)
    (eight : EightByte D a s.layout) (hardware : Hardware D a op) (fuel garbage : ℕ) :
    (∃ cache calls, hardwareCalls D W a s.layout op fuel garbage s.cache = some (cache, calls) ∧
        calls.flatMap (accumulate8byte op) = ownAtomics W a op) ↔ OwnAddress W a op := by
  have positive := a.targetCount
  have some_elements : 0 < a.target.2.toNat := by omega
  have bytes : a.target.2 * 8 < 2147483648 ↔ a.target.2.toNat * 8 < 2147483648 := by omega
  have own : ownAtomics W a op = atomicsAt op a.originAddr (W.base + a.targetDisp * W.dispUnit)
      (elementOffsets a.target.2.toNat) := rfl
  rw [own, OwnAddress, ← hardwareOffset_own static (a := a), bytes,
    ← piece_iff some_elements op a.originAddr (hardwareOffset W a op)]
  obtain slow | double := eight.kind
  · obtain ⟨good, rests⟩ := reach_rests history
    have walked : (walk D W a s.layout (hardwareOffset W a op) none fuel garbage s.cache).map Prod.snd = _ :=
      walk_row good rests eight.same eight.row _ fuel garbage
    rw [hardwareCalls_slow eight.same slow]
    split at walked
    · rename_i empty
      rw [Option.map_eq_none_iff.mp walked, empty]
      refine iff_of_false (by simp) fun same => ?_
      have length := congrArg List.length same
      simp [accumulate8byte, atomicsAt_length, elementOffsets] at length
      omega
    · obtain ⟨⟨cache, calls⟩, run, rfl⟩ := Option.map_eq_some_iff.mp walked
      rw [run]
      simp [blockCalls, static, Chunk.place]
  · have bitwise : op ≠ .sum := by
      obtain ⟨-, slow⟩ | rfl | rfl | rfl := hardware <;> simp_all
    rw [hardwareCalls_double static eight.same double bitwise]
    simp

section Runs

/-- One type of eight bytes without a fast path. -/
def int64 : Datatypes Unit := ⟨fun _ => none, fun _ => 8, fun _ => 8⟩

/-- All elements in a row. -/
def consecutive : Layout Unit := fun _ n => [⟨0, 8 * n.toNat⟩]

/-- Rank 1 is on the node, and its memory at 4096 is mapped at the given address. -/
def onnode (mapping : ℤ) : Win :=
  ⟨⟨false, 0, 1, [0, 1]⟩, 0, 4096, 8, mapping, ⟨0, 0⟩, [], []⟩

/-- One element at displacement 2 of rank 1. -/
def second : Args Unit := Args.single () () 1 2

def fresh : GlobInfo Unit := dcacheInit fun _ => ⟨[], 0, none, 0, 0, 0⟩

theorem second_eightByte : EightByte int64 second consecutive where
  same := rfl
  isInt := by decide
  kind := .inl rfl
  row := by
    rw [storedLength_eq (by decide)]
    rfl

/-- A bitwise operation on a rank of the node goes to the address of the mapping. -/
theorem hardware_own_addresses_fails :
    (hardwareCalls int64 (onnode 65536) second consecutive .band 0 0 fresh).map
        (fun r => r.2.flatMap (accumulate8byte .band)) = some [⟨.band, 65552, 64, .window⟩] ∧
      ownAtomics (onnode 65536) second .band = [⟨.band, 4112, 64, .window⟩] := by decide

/-- A sum does not. -/
theorem hardware_own_addresses_sum : ∃ cache calls,
    hardwareCalls int64 (onnode 65536) second consecutive .sum 0 0 fresh = some (cache, calls) ∧
      calls.flatMap (accumulate8byte .sum) = ownAtomics (onnode 65536) second .sum :=
  (hardware_own_addresses (s := ⟨fresh, consecutive⟩) .refl rfl second_eightByte (.inl ⟨rfl, rfl⟩) 0 0).mpr
    ⟨.inl rfl, by decide⟩

end Runs

end FoMPI.Comm
