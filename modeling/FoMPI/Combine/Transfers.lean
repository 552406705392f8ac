import FoMPI.Combine.Entries
import FoMPI.RmaNotify.Order

/-!
# What a transfer leaves in memory

A get or a put of less than two gigabytes, whichever way it takes, copies the bytes of
the two datatypes in order, between the buffer and the memory of the target.
-/
namespace FoMPI.Combine
open FoMPI.Accumulate FoMPI.Comm FoMPI.Dcache FoMPI.Foundation FoMPI.RmaNotify FoMPI.Window
open FoMPI.Notif (anyTag)

universe u

section Traffic
variable {operation : Operation}

/-- The words and the rest of a transfer are its bytes in order. -/
theorem dmappMoves_eq {c : Chunk} (small : c.size < 2147483648) :
    dmappMoves operation c = moves operation c := by
  have rest : nelementsModulo c.size = c.size - c.size / 16 * 16 := by
    rw [nelementsModulo, offsetModulo_eq small]
    omega
  rw [dmappMoves, rest, offsetModulo_eq small, moves, moves, moves,
    c.pairs_split (Nat.div_mul_le_self c.size 16), List.map_append]
  push_cast
  rfl

theorem flatMap_dmappMoves {cs : List Chunk} (small : ∀ c ∈ cs, c.size < 2147483648) :
    cs.flatMap (dmappMoves operation) = cs.flatMap (moves operation) := by
  induction cs with
  | nil => rfl
  | cons c cs ih =>
    rw [List.flatMap_cons, List.flatMap_cons, dmappMoves_eq (small c List.mem_cons_self),
      ih fun d hd => small d (List.mem_cons_of_mem _ hd)]

/-- No chunk has more bytes than all chunks. -/
theorem size_le_moves {cs : List Chunk} {c : Chunk} (operation : Operation) (mem : c ∈ cs) :
    c.size ≤ (cs.flatMap (moves operation)).length := by
  induction cs with
  | nil => contradiction
  | cons d cs ih =>
    rw [List.flatMap_cons, List.length_append]
    have own : (moves operation d).length = d.size := by simp [moves, Chunk.pairs]
    obtain rfl | mem := List.mem_cons.mp mem
    · omega
    · have := ih mem
      omega

end Traffic

section Parts
variable {ι : Type*} [DecidableEq ι] {D : Datatypes ι} {W : Win} {a : Args ι} {layout : Layout ι}

/-- On either path the parts are the transfer, if its size is an `int`. -/
theorem parts_moves (layouts : Layouts D a layout) (cover : RegionsCover W a layout)
    (small : total (originBlocks a layout) < 2147483648) :
    (parts D W a layout).flatMap (moves a.operation) = data W a layout := by
  cases fast : fastPath D W a with
  | none => exact parts_eq_data layouts cover fast
  | some size =>
    obtain ⟨n, positive, origin, target, rfl⟩ := fastPath_some layouts fast
    have bytes : total (originBlocks a layout) = n.toNat := by
      rw [origin]
      rfl
    rw [bytes] at small
    have whole : (Int.bmod n 4294967296).toNat = n.toNat := by
      rw [Int.bmod_eq_of_le] <;> omega
    have zipped : (Foundation.bytes [⟨0, n.toNat⟩]).zip (Foundation.bytes [⟨0, n.toNat⟩]) =
        pairs [⟨0, 0, n.toNat⟩] := by
      simp [Foundation.bytes, Block.bytes, pairs, Chunk.pairs, List.zip_map']
    rw [parts, fast]
    dsimp only
    rw [whole, data, origin, target, zipped, ← flatMap_moves_place]
    simp [Chunk.place]

omit [DecidableEq ι] in
theorem length_data (layouts : Layouts D a layout) :
    (data W a layout).length = total (originBlocks a layout) := by
  rw [data, List.length_map, List.length_zip, length_bytes, length_bytes, ← layouts.sameTotal, Nat.min_self]

end Parts

variable {ι V : Type u} [DecidableEq ι] {W : Win} {D : Types ι} {layout : Layout ι} {C : Call ι}
  {operation : Operation} {near : Buffer} {addr : ℤ} {key : Key ι}

/-- The first byte of the target buffer, in the memory of the target. -/
def targetStart (W : Win) (C : Call ι) : ℤ :=
  if W.locality.dynamic then C.targetDisp else W.base + C.targetDisp * W.dispUnit

/-- The bytes of a datatype of a buffer and of the target datatype, in order. -/
def bytePairs (layout : Layout ι) (C : Call ι) (key : Key ι) : List (ℤ × ℤ) :=
  (bytes (layout key.1 key.2)).zip (bytes (layout C.target.1 C.target.2))

/-- A get of them, as destinations and sources. -/
def getLocs (W : Win) (layout : Layout ι) (C : Call ι) (near : Buffer) (addr : ℤ) (key : Key ι) :
    List (Loc × Loc) :=
  (bytePairs layout C key).map fun p => (⟨near, addr + p.1⟩, ⟨.target, targetStart W C + p.2⟩)

/-- A put of them. -/
def putLocs (W : Win) (layout : Layout ι) (C : Call ι) (near : Buffer) (addr : ℤ) (key : Key ι) :
    List (Loc × Loc) :=
  (bytePairs layout C key).map fun p => (⟨.target, targetStart W C + p.2⟩, ⟨near, addr + p.1⟩)

def locsOf (W : Win) (layout : Layout ι) (C : Call ι) (near : Buffer) (addr : ℤ) (key : Key ι) :
    Operation → List (Loc × Loc)
  | .get => getLocs W layout C near addr key
  | .put => putLocs W layout C near addr key

/-- A cache between two transfers. -/
structure Settled (layout : Layout ι) (cache : GlobInfo ι) : Prop where
  good : Good layout cache
  rests : Rests cache

/-- A buffer and the target hold equally many bytes, of datatypes as the library reports them, all of
them in attached regions. -/
structure Transferable (W : Win) (D : Types ι) (layout : Layout ι) (C : Call ι) (key : Key ι) : Prop where
  count : 1 ≤ key.2
  targetCount : 1 ≤ C.target.2
  positive : Positive (layout key.1 key.2)
  targetPositive : Positive (layout C.target.1 C.target.2)
  same : total (layout key.1 key.2) = total (layout C.target.1 C.target.2)
  nonempty : 0 < total (layout key.1 key.2)
  isInt : total (layout key.1 key.2) < 2147483648
  row : IsRow D.toDatatypes layout key
  targetRow : IsRow D.toDatatypes layout C.target
  attached : W.locality.dynamic → ∀ x ∈ bytes (layout C.target.1 C.target.2),
    ∃ r ∈ W.remoteMemRegions, r.hasByte (C.targetDisp + x)

/-- The arguments of the transfer. -/
def Transferable.args (fit : Transferable W D layout C key) (operation : Operation) (addr : ℤ) : Args ι :=
  ⟨operation, addr, key, C.targetRank, C.targetDisp, C.target, anyTag, fit.count, fit.targetCount⟩

namespace Transferable

omit [DecidableEq ι] in
theorem nonempty_layout (fit : Transferable W D layout C key) : layout key.1 key.2 ≠ [] := by
  intro empty
  have some_bytes := fit.nonempty
  rw [empty] at some_bytes
  exact absurd some_bytes (by decide)

/-- The walk over two such buffers, or over one and the target. -/
theorem pass (fit : Transferable W D layout C key) {key' : Key ι} (fit' : Transferable W D layout C key')
    {cache : GlobInfo ι} (settled : Settled layout cache) : ∃ cache',
      cache.transfer layout key key' (calls layout key key') =
        some (superpose (calls layout key key') (layout key.1 key.2) (layout key'.1 key'.2), cache') ∧
      Settled layout cache' := by
  have fits : Fits layout key key' :=
    ⟨fit.positive, fit'.positive, fit.nonempty_layout, fit'.nonempty_layout, fit.same.trans fit'.same.symm⟩
  obtain ⟨cache', run, good, rests⟩ := transfer_superposes settled.good settled.rests fits (le_refl _)
  exact ⟨cache', run, good, rests⟩

omit [DecidableEq ι] in
theorem layouts (fit : Transferable W D layout C key) :
    Layouts D.toDatatypes (fit.args operation addr) layout :=
  ⟨fit.positive, fit.targetPositive, fit.same, fit.row, fit.targetRow⟩

omit [DecidableEq ι] in
theorem cover (fit : Transferable W D layout C key) : RegionsCover W (fit.args operation addr) layout := by
  intro dynamic x hx
  have start : targetOffset W (fit.args operation addr) = C.targetDisp := by
    simp [targetOffset, dynamic, args]
  rw [start]
  exact fit.attached dynamic x hx

omit [DecidableEq ι] in
/-- Behind the address of a byte is the byte of the target. -/
theorem targetLoc_eq (fit : Transferable W D layout C key) (x : ℤ) :
    targetLoc W (W.locality.viaXpmem C.targetRank) (targetOffset W (fit.args operation addr) + x) =
      ⟨.target, targetStart W C + x⟩ := by
  unfold targetLoc targetOffset targetStart Locality.viaXpmem
  cases dynamic : W.locality.dynamic with
  | true => simp [args]
  | false =>
    by_cases remote : W.locality.onnodeRankGlobalToLocal C.targetRank = -1
    · simp [args, remote]
    · simp only [args, remote, Bool.not_false, Bool.true_and, Bool.false_eq_true, if_false, ne_eq,
        not_false_eq_true, decide_true, if_true, Loc.mk.injEq, true_and]
      ring

omit [DecidableEq ι] in
theorem data_locs (fit : Transferable W D layout C key) (near : Buffer) :
    (data W (fit.args operation addr) layout).map (Move.locs W (W.locality.viaXpmem C.targetRank) near) =
      locsOf W layout C near addr key operation := by
  rw [data, List.map_map]
  cases operation with
  | get =>
    refine List.map_congr_left fun p _ => ?_
    simp only [Function.comp_apply, Move.locs]
    exact congrArg (Prod.mk _) (fit.targetLoc_eq p.2)
  | put =>
    refine List.map_congr_left fun p _ => ?_
    simp only [Function.comp_apply, Move.locs]
    exact congrArg (fun l => Prod.mk l _) (fit.targetLoc_eq p.2)

/-- The network or the processor moves the bytes of the transfer. -/
theorem carriedOut_eq (fit : Transferable W D layout C key) (onnode : Bool) :
    carriedOut ((parts D.toDatatypes W (fit.args operation addr) layout).foldl (fun net c =>
        if onnode then net.xpmemSimple operation c else net.dmappSimple operation c) ⟨[], 0⟩) =
      data W (fit.args operation addr) layout := by
  have all : (parts D.toDatatypes W (fit.args operation addr) layout).flatMap (moves operation) =
      data W (fit.args operation addr) layout := parts_moves fit.layouts fit.cover fit.isInt
  have short : ∀ c ∈ parts D.toDatatypes W (fit.args operation addr) layout, c.size < 2147483648 := by
    intro c hc
    have le := size_le_moves operation hc
    have length := length_data (W := W) (a := fit.args operation addr) fit.layouts
    rw [← all] at length
    exact (le.trans length.le).trans_lt fit.isInt
  cases onnode with
  | true =>
    have copies := Net.foldl_xpmemSimple (parts D.toDatatypes W (fit.args operation addr) layout) ⟨[], 0⟩ operation
    simp only [if_true, carriedOut, copies]
    simpa [observed] using all
  | false =>
    have traffic := (Net.dmappAll_spec (parts D.toDatatypes W (fit.args operation addr) layout) ⟨[], 0⟩ operation).1
    rw [Net.dmappAll, flatMap_dmappMoves short] at traffic
    simp only [Bool.false_eq_true, if_false, carriedOut, traffic]
    simpa [observed] using all

/-- A transfer comes to its end and copies all bytes. -/
theorem transfer_eq (fit : Transferable W D layout C key) {s : State ι V} (settled : Settled layout s.cache)
    (operation : Operation) (near : Buffer) (addr : ℤ) :
    ∃ cache, transfer W D layout operation near addr key C s =
        some ⟨copyAll (locsOf W layout C near addr key operation) s.mem, cache, s.mutex⟩ ∧
      Settled layout cache := by
  obtain ⟨cache, run, good, rests⟩ := handling_eq (W := W) (a := fit.args operation addr) fit.layouts fit.cover
    settled.good settled.rests fit.nonempty (fun net c =>
      if W.locality.viaXpmem C.targetRank then net.xpmemSimple operation c else net.dmappSimple operation c)
    ⟨[], 0⟩
  refine ⟨cache, ?_, good, rests⟩
  rw [transfer, dif_pos ⟨fit.count, fit.targetCount⟩]
  simp only
  have called := congrArg (Option.map fun r : GlobInfo ι × Net => ({ s with
    cache := r.1
    mem := copyAll ((carriedOut r.2).map (Move.locs W (W.locality.viaXpmem C.targetRank) near)) s.mem } :
      State ι V)) run
  refine called.trans ?_
  rw [Option.map_some, fit.carriedOut_eq, fit.data_locs]

end Transferable

end FoMPI.Combine
