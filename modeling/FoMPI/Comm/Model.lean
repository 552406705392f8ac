import Mathlib.Algebra.Order.BigOperators.Group.List
import FoMPI.RmaNotify.Model

/-!
# What the communication function is called with

`communication_and_datatype_handling` and `communication_and_datatype_handling_dmapp_only`
with a record of every call of the function they are given, the segment descriptor
included. In a release build the result of `find_seg_and_size` is not looked at: where
it finds nothing, the descriptor and the size of the call before are used once more.
-/
namespace FoMPI.Comm
open FoMPI.Dcache FoMPI.Foundation FoMPI.RmaNotify FoMPI.Window

/-- `dst_seg_ptr`. -/
inductive SegPtr
  | null
  /-- `win_array[target_rank].seg` -/
  | window
  /-- `seg` of an element of `remote_mem_regions` -/
  | region (r : Region)
  deriving DecidableEq

/-- One call of the communication function, with the addresses it is given. -/
structure Invocation where
  dstSeg : SegPtr
  chunk : Chunk
  deriving DecidableEq

/-- The locals of the loop that keep their values where nothing is found. -/
structure Found where
  dstSeg : SegPtr
  transportSize : ℕ

/-- `find_seg_and_size` with its two results in place. -/
def Found.find (f : Found) (regions : List Region) (size : ℕ) (x : ℤ) : Found :=
  match findSegAndSize regions size x with
  | some (r, n) => ⟨.region r, n⟩
  | none => f

/-- `remaining_size -= transport_size` on `uint64_t`. -/
def subSize (remaining transport : ℕ) : ℕ :=
  if transport ≤ remaining then remaining - transport
  else (remaining + 18446744073709551616 - transport % 18446744073709551616) % 18446744073709551616

section Loops
variable (regions : List Region) (originOffset targetOffset : ℤ)

/-- `while (remaining_size > 0)` on one block, for at most `fuel` rounds; without a value of the
locals the loop is still running. -/
def blockLoop : ℕ → Found → Chunk → List Invocation × Option Found
  | 0, f, c => ([], if c.size = 0 then some f else none)
  | fuel + 1, f, c =>
    if c.size = 0 then ([], some f)
    else
      let f := f.find regions c.size (targetOffset + c.targetOffset)
      let rest := blockLoop fuel f
        ⟨c.originOffset + f.transportSize, c.targetOffset + f.transportSize, subSize c.size f.transportSize⟩
      (⟨f.dstSeg, Chunk.place originOffset targetOffset ⟨c.originOffset, c.targetOffset, f.transportSize⟩⟩ ::
        rest.1, rest.2)

/-- The loop over the blocks of a target in more than one region. -/
def regionsLoop (fuel : ℕ) : Found → List Chunk → List Invocation
  | _, [] => []
  | f, c :: cs =>
    let block := blockLoop regions originOffset targetOffset fuel f c
    match block.2 with
    | some f => block.1 ++ regionsLoop fuel f cs
    | none => block.1

end Loops

variable {ι : Type*} [DecidableEq ι] (D : Datatypes ι) (W : Win) (a : Args ι)

/-- One element of each type, at a displacement of a rank. -/
def Args.single (originType targetType : ι) (targetRank targetDisp : ℤ) : Args ι :=
  ⟨.put, 64, (originType, 1), targetRank, targetDisp, (targetType, 1), 0, le_refl 1, le_refl 1⟩

/-- `target_count_extent`. -/
def targetCountExtent : ℤ := (a.target.2 - 1) * D.extent a.target.1 + D.trueExtent a.target.1

/-- The calls for the blocks of a transfer to `t`; `garbage` is what `transport_size` holds before it
is first set. -/
def blockCalls (t : ℤ) (fuel garbage : ℕ) (blocks : List Chunk) : List Invocation :=
  if W.locality.dynamic then
    match wholeRegion W.remoteMemRegions t (targetCountExtent D a) with
    | some r => blocks.map fun c => ⟨.region r, Chunk.place a.originAddr t c⟩
    | none => regionsLoop W.remoteMemRegions a.originAddr t fuel ⟨.null, garbage⟩ blocks
  else blocks.map fun c => ⟨.window, Chunk.place a.originAddr t c⟩

/-- Both routines, for a target buffer at `t` and with the size of a fast path. -/
def walk (layout : Layout ι) (t : ℤ) (fast : Option ℕ) (fuel garbage : ℕ) (cache : GlobInfo ι) :
    Option (GlobInfo ι × List Invocation) :=
  match fast with
  | some size => some (cache, [⟨.window, ⟨a.originAddr, t, size⟩⟩])
  | none => do
    let (blocks, cache) ← cache.transfer layout a.origin a.target (calls layout a.origin a.target)
    return (cache, blockCalls D W a t fuel garbage blocks)

/-- The calls made by `communication_and_datatype_handling`. -/
def communicationAndDatatypeHandling (layout : Layout ι) :
    ℕ → ℕ → GlobInfo ι → Option (GlobInfo ι × List Invocation) :=
  walk D W a layout (targetOffset W a) (fastPath D W a)

/-- The fast path of the routine for dmapp does not know `MPI_BYTE`. -/
def fastPathDmappOnly : Option ℕ :=
  match D.intrinsic a.origin.1 with
  | some .byte => none
  | _ => fastPath D W a

/-- The routine for dmapp never takes the address of a mapping. -/
def targetOffsetDmappOnly : ℤ :=
  if W.locality.dynamic then a.targetDisp else W.base + a.targetDisp * W.dispUnit

/-- The calls made by `communication_and_datatype_handling_dmapp_only`. -/
def communicationAndDatatypeHandlingDmappOnly (layout : Layout ι) :
    ℕ → ℕ → GlobInfo ι → Option (GlobInfo ι × List Invocation) :=
  walk D W a layout (targetOffsetDmappOnly W a) (fastPathDmappOnly D W a)

section Agreement
variable {D W a} {regions : List Region} {o t : ℤ}

/-- Where every piece of a block is found, the calls are the pieces. -/
theorem blockLoop_split {c : Chunk} {k fuel : ℕ} {pieces : List (Region × Chunk)}
    (split : splitLoop regions t k c = some pieces) (enough : k ≤ fuel) (f : Found) :
    (blockLoop regions o t fuel f c).1.map Invocation.chunk = (pieces.map Prod.snd).map (Chunk.place o t) ∧
      ∃ f', (blockLoop regions o t fuel f c).2 = some f' := by
  induction k generalizing c fuel pieces f with
  | zero =>
    rw [splitLoop] at split
    split at split
    · rename_i none
      cases split
      cases fuel <;> simp [blockLoop, none]
    · contradiction
  | succ k ih =>
    obtain ⟨fuel, rfl⟩ := Nat.exists_eq_add_of_lt enough
    rw [splitLoop] at split
    rw [blockLoop]
    split at split
    · rename_i none
      cases split
      simp [none]
    · rename_i more
      rw [if_neg more]
      obtain ⟨⟨r, n⟩, found, split⟩ := Option.bind_eq_some_iff.mp split
      obtain ⟨rest, later, eq⟩ := Option.bind_eq_some_iff.mp split
      cases eq
      have size : n ≤ c.size := by
        obtain ⟨r', -, eq⟩ := Option.map_eq_some_iff.mp found
        obtain ⟨-, rfl⟩ := Prod.mk.inj eq
        split <;> omega
      have next := ih later (Nat.le_add_right k fuel) (f.find regions c.size (t + c.targetOffset))
      rw [Found.find, found] at next ⊢
      simp only [subSize, if_pos size]
      refine ⟨?_, next.2⟩
      simp only [List.map_cons, List.cons.injEq]
      exact ⟨trivial, next.1⟩

theorem regionsLoop_split {cs pieces : List Chunk} {fuel : ℕ} (split : splitBlocks regions t cs = some pieces)
    (enough : ∀ c ∈ cs, c.size ≤ fuel) (f : Found) :
    (regionsLoop regions o t fuel f cs).map Invocation.chunk = pieces.map (Chunk.place o t) := by
  induction cs generalizing pieces f with
  | nil =>
    cases split
    rfl
  | cons c cs ih =>
    obtain ⟨front, first, split⟩ := Option.bind_eq_some_iff.mp split
    obtain ⟨rest, later, eq⟩ := Option.bind_eq_some_iff.mp split
    cases eq
    obtain ⟨calls, f', ends⟩ := blockLoop_split (o := o) first (enough c List.mem_cons_self) f
    have after := ih later (fun d hd => enough d (List.mem_cons_of_mem _ hd)) f'
    rw [regionsLoop]
    simp only [ends, List.map_append, calls, after]

/-- With all bytes in attached regions, the transfer of the notified routines is the communication
function run on the recorded calls. -/
theorem handling_eq_foldl {layout : Layout ι} {cache cache' : GlobInfo ι} {net net' : Net}
    {commfunc : Net → Chunk → Net}
    (run : RmaNotify.communicationAndDatatypeHandling D W a layout commfunc cache net = some (cache', net'))
    (garbage : ℕ) : ∃ fuel calls,
      communicationAndDatatypeHandling D W a layout fuel garbage cache = some (cache', calls) ∧
        net' = (calls.map Invocation.chunk).foldl commfunc net := by
  unfold RmaNotify.communicationAndDatatypeHandling at run
  unfold communicationAndDatatypeHandling walk
  cases fast : fastPath D W a with
  | some size =>
    rw [fast] at run
    cases run
    exact ⟨0, _, rfl, rfl⟩
  | none =>
    rw [fast] at run
    obtain ⟨⟨blocks, cache₁⟩, transfer, run⟩ := Option.bind_eq_some_iff.mp run
    obtain ⟨pieces, split, eq⟩ := Option.map_eq_some_iff.mp run
    cases eq
    refine ⟨(blocks.map Chunk.size).sum, blockCalls D W a (targetOffset W a) (blocks.map Chunk.size).sum
      garbage blocks, by simp [transfer], ?_⟩
    congr 1
    unfold piecesOf oneRegion at split
    unfold blockCalls targetCountExtent
    cases dynamic : W.locality.dynamic with
    | false =>
      simp only [dynamic, Bool.not_false, Bool.true_or, if_true, Option.some.injEq] at split
      simp [split]
    | true =>
      simp only [dynamic, Bool.not_true, Bool.false_or] at split
      simp only [if_true]
      split
      · rename_i r whole
        rw [whole] at split
        obtain rfl : blocks = pieces := by simpa using split
        simp
      · rename_i whole
        rw [whole] at split
        exact (regionsLoop_split split (fun c hc => List.le_sum_of_mem (List.mem_map_of_mem hc)) _).symm

end Agreement

end FoMPI.Comm
