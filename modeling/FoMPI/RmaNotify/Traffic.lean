import FoMPI.RmaNotify.Model

/-!
# What each routine adds to the traffic

One lemma for each routine of the model: the bytes it puts in flight, the count it
leaves in `nbi_counter`, and the notification it sends. A call then takes one of
three forms, and for each of them the bytes that its notification accounts for are
read off here.
-/
namespace FoMPI.RmaNotify
open FoMPI.Dcache FoMPI.Foundation FoMPI.Notif FoMPI.Window

/-- The receiver decodes what the sender has encoded. -/
theorem decodeID_encodeID (rank idMsg : BitVec 16) : decodeID (encodeID rank idMsg) = (rank, idMsg) := by
  have low := rank.isLt
  have low' := idMsg.isLt
  have value : (encodeID rank idMsg).toNat = rank.toNat * 65536 + idMsg.toNat := by
    simp only [encodeID, BitVec.toNat_add, BitVec.toNat_shiftLeft, BitVec.toNat_setWidth,
      Nat.shiftLeft_eq]
    omega
  unfold decodeID
  congr 1
  · apply BitVec.eq_of_toNat_eq
    rw [BitVec.toNat_setWidth, BitVec.toNat_ushiftRight, value, Nat.shiftRight_eq_div_pow]
    omega
  · apply BitVec.eq_of_toNat_eq
    have mask : (0xffff#32).toNat = 2 ^ 16 - 1 := by decide
    rw [BitVec.toNat_setWidth, BitVec.toNat_and, value, mask, Nat.and_two_pow_sub_one_eq_mod]
    omega

/-- The operations that a transfer of `size` bytes adds to `nbi_counter`. -/
def dmappOps (size : ℕ) : ℕ :=
  (if size / 16 ≠ 0 then 1 else 0) + if nelementsModulo size ≠ 0 then 1 else 0

def opsOf (cs : List Chunk) : ℕ := (cs.map fun c => dmappOps c.size).sum

/-- What `dmapp_simple_put` or `dmapp_simple_get` moves. -/
def dmappMoves (operation : Operation) (c : Chunk) : List Move :=
  moves operation ⟨c.originOffset, c.targetOffset, c.size / 16 * 16⟩ ++
    moves operation ⟨c.originOffset + offsetModulo c.size, c.targetOffset + offsetModulo c.size,
      nelementsModulo c.size⟩

section Halves
variable {operation : Operation} {c : Chunk} {m : Move}

theorem offsetModulo_le (size : ℕ) : offsetModulo size ≤ size / 16 * 16 := by
  unfold offsetModulo Int.bmod
  dsimp only
  split <;> omega

theorem offsetModulo_eq {size : ℕ} (small : size < 2147483648) :
    offsetModulo size = size / 16 * 16 := by
  unfold offsetModulo Int.bmod
  dsimp only
  split <;> omega

/-- The two operations together move every byte. -/
theorem mem_dmappMoves (h : m ∈ moves operation c) : m ∈ dmappMoves operation c := by
  obtain ⟨k, lt, rfl⟩ := mem_moves.mp h
  rw [dmappMoves, List.mem_append, mem_moves, mem_moves]
  by_cases words : k < c.size / 16 * 16
  · exact .inl ⟨k, words, rfl⟩
  · have offset := offsetModulo_le c.size
    refine .inr ⟨(k - offsetModulo c.size).toNat, ?_, ?_⟩
    · dsimp only [nelementsModulo]
      omega
    · have later : ((k - offsetModulo c.size).toNat : ℤ) = k - offsetModulo c.size := by omega
      rw [later]
      congr 1 <;> ring

/-- While the offset fits an `int` they move nothing else. -/
theorem mem_moves_of_dmapp (small : c.size < 2147483648) (h : m ∈ dmappMoves operation c) :
    m ∈ moves operation c := by
  have offset := offsetModulo_eq small
  rw [dmappMoves, List.mem_append, mem_moves, mem_moves] at h
  obtain ⟨k, lt, rfl⟩ | ⟨k, lt, rfl⟩ := h
  · exact mem_moves.mpr ⟨k, by dsimp only at lt; omega, rfl⟩
  · have rest : nelementsModulo c.size = c.size - c.size / 16 * 16 := by
      rw [nelementsModulo, offset]
      omega
    rw [rest] at lt
    have later : ((c.size / 16 * 16 + k : ℕ) : ℤ) = offsetModulo c.size + k := by
      rw [offset]
      push_cast
      ring
    refine mem_moves.mpr ⟨c.size / 16 * 16 + k, by dsimp only at lt; omega, ?_⟩
    rw [later]
    simp only [add_assoc]

end Halves

namespace Net
variable {net : Net} {operation : Operation} {c : Chunk} {W : Win} {srcSeg : Option Segment} {tag : ℤ}

theorem observed_emit (net : Net) (op : NetOp) :
    observed (net.emit op).ops = (observed net.ops).observe op := by
  simp [observed, emit]

/-- An operation that is issued only if it has bytes moves them in any case. -/
theorem observed_dmapp_if (net : Net) (operation : Operation) (o t : ℤ) (n : ℕ) {p : Prop} [Decidable p]
    (guard : p ↔ n ≠ 0) :
    observed (if p then net.dmapp operation ⟨o, t, n⟩ else net).ops =
      { observed net.ops with
        inFlight := (observed net.ops).inFlight ++ moves operation ⟨o, t, n⟩ } := by
  split
  · exact observed_emit net _
  · rename_i none
    rw [not_not.mp (mt guard.mpr none), moves_zero, List.append_nil]

theorem dmappSimple_observed (net : Net) (operation : Operation) (c : Chunk) :
    observed (net.dmappSimple operation c).ops =
      { observed net.ops with
        inFlight := (observed net.ops).inFlight ++ dmappMoves operation c } := by
  rw [dmappSimple, observed_dmapp_if _ _ _ _ _ Iff.rfl, observed_dmapp_if _ _ _ _ _ (by omega),
    dmappMoves, List.append_assoc]

theorem nbiCounter_dmapp_if (net : Net) (operation : Operation) (c : Chunk) (p : Prop) [Decidable p] :
    (if p then net.dmapp operation c else net).nbiCounter =
      net.nbiCounter + BitVec.ofNat 32 (if p then 1 else 0) := by
  split
  · rfl
  · exact (BitVec.add_zero _).symm

theorem dmappSimple_nbiCounter (net : Net) (operation : Operation) (c : Chunk) :
    (net.dmappSimple operation c).nbiCounter = net.nbiCounter + BitVec.ofNat 32 (dmappOps c.size) := by
  rw [dmappSimple, nbiCounter_dmapp_if, nbiCounter_dmapp_if, dmappOps, BitVec.ofNat_add,
    BitVec.add_assoc]

theorem dmappAll_cons (net : Net) (operation : Operation) (c : Chunk) (cs : List Chunk) :
    net.dmappAll operation (c :: cs) = (net.dmappSimple operation c).dmappAll operation cs := by
  rw [dmappAll, List.foldl_cons, dmappAll]

/-- Any number of transfers, by induction on them. -/
theorem dmappAll_spec (cs : List Chunk) (net : Net) (operation : Operation) :
    observed (net.dmappAll operation cs).ops =
        { observed net.ops with
          inFlight := (observed net.ops).inFlight ++ cs.flatMap (dmappMoves operation) } ∧
      (net.dmappAll operation cs).nbiCounter =
        net.nbiCounter + BitVec.ofNat 32 (opsOf cs) := by
  induction cs generalizing net with
  | nil => exact ⟨by simp [dmappAll], (BitVec.add_zero _).symm⟩
  | cons c cs ih =>
    obtain ⟨traffic, counter⟩ := ih (net.dmappSimple operation c)
    constructor
    · rw [dmappAll_cons, traffic, dmappSimple_observed, List.flatMap_cons, List.append_assoc]
    · rw [dmappAll_cons, counter, dmappSimple_nbiCounter, opsOf, opsOf, List.map_cons,
        List.sum_cons, BitVec.ofNat_add, BitVec.add_assoc]

theorem foldl_xpmemSimple (cs : List Chunk) (net : Net) (operation : Operation) :
    observed (cs.foldl (fun (net : Net) c => net.xpmemSimple operation c) net).ops =
      { observed net.ops with
        copied := (observed net.ops).copied ++ cs.flatMap (moves operation) } := by
  induction cs generalizing net with
  | nil => simp
  | cons c cs ih =>
    rw [List.foldl_cons, ih, xpmemSimple, observed_emit, List.flatMap_cons, ← List.append_assoc]
    rfl

/-- A flush completes the copies, and the DMAPP operations if the counter has seen any. -/
theorem winFlushAll_observed (net : Net) :
    (observed net.winFlushAll.ops).complete = (observed net.ops).complete ++ (observed net.ops).copied ++
        (if net.nbiCounter ≠ 0 then (observed net.ops).inFlight else []) ∧
      (observed net.winFlushAll.ops).notices = (observed net.ops).notices := by
  rw [winFlushAll]
  dsimp only
  split
  · rename_i counted
    change (observed ((net.emit .fence).emit .gsyncWait).ops).complete = _ ∧
      (observed ((net.emit .fence).emit .gsyncWait).ops).notices = _
    rw [observed_emit, observed_emit, if_pos (show net.nbiCounter ≠ 0 from counted)]
    exact ⟨rfl, rfl⟩
  · rename_i none
    rw [observed_emit, if_neg (show ¬net.nbiCounter ≠ 0 from none), List.append_nil]
    exact ⟨rfl, rfl⟩

theorem notices_flush_if (net : Net) (p : Prop) [Decidable p] :
    (observed (if p then net.winFlushAll else net).ops).notices = (observed net.ops).notices := by
  split
  · exact (winFlushAll_observed net).2
  · rfl

/-- A uGNI operation with a tag sends one notification, made out for this tag. -/
theorem ugniSimple_notices (net : Net) (operation : Operation) (c : Chunk)
    (srcSeg : Option Segment) (notAny : tag ≠ anyTag) :
    (observed (net.ugniSimple W operation c srcSeg tag).ops).notices = (observed net.ops).notices ++
      [⟨BitVec.ofInt 16 W.commrank, BitVec.ofInt 16 tag, moves operation c,
        (observed net.ops).complete⟩] := by
  rw [ugniSimple, notices_flush_if, observed_emit, Progress.observe, if_pos (decide_eq_true notAny),
    decodeID_encodeID]

end Net

section Forms
variable {W : Win} {operation : Operation} {cs : List Chunk} {c : Chunk} {o t tag : ℤ}
  {srcSeg : Option Segment} {nbi : BitVec 32} {data : List Move}

/-- The only operation carries the notification. -/
theorem notified_carried (notAny : tag ≠ anyTag) :
    Notified (observed (Net.ugniSimple ⟨[], nbi⟩ W operation c srcSeg tag).ops) tag data ↔
      Representable tag ∧ ∀ m ∈ data, m ∈ moves operation c := by
  rw [notified_iff (Net.ugniSimple_notices _ operation c srcSeg notAny)]
  simp [observed]

/-- The notification follows a flush, in an operation that carries nothing. -/
theorem notified_flushed (notAny : tag ≠ anyTag) :
    Notified (observed ((Net.dmappAll ⟨[], nbi⟩ operation cs).winFlushAll.ugniSimple W .put
        ⟨o, t, 0⟩ srcSeg tag).ops) tag data ↔
      Representable tag ∧ ∀ m ∈ data,
        nbi + BitVec.ofNat 32 (opsOf cs) ≠ 0 ∧ m ∈ cs.flatMap (dmappMoves operation) := by
  obtain ⟨traffic, counter⟩ := Net.dmappAll_spec cs ⟨[], nbi⟩ operation
  obtain ⟨complete, notices⟩ := Net.winFlushAll_observed (Net.dmappAll ⟨[], nbi⟩ operation cs)
  have one : (observed ((Net.dmappAll ⟨[], nbi⟩ operation cs).winFlushAll.ugniSimple W .put
      ⟨o, t, 0⟩ srcSeg tag).ops).notices = [⟨BitVec.ofInt 16 W.commrank, BitVec.ofInt 16 tag, [],
        if nbi + BitVec.ofNat 32 (opsOf cs) ≠ 0 then cs.flatMap (dmappMoves operation) else []⟩] := by
    rw [Net.ugniSimple_notices _ .put _ srcSeg notAny, notices, complete, counter, traffic]
    simp only [observed, List.foldl_nil, List.nil_append, moves_zero]
  rw [notified_iff one]
  refine and_congr_right fun _ => forall_congr' fun m => forall_congr' fun _ => ?_
  split
  · rename_i counted
    simp only [List.not_mem_nil, false_or]
    exact (and_iff_right counted).symm
  · rename_i none
    simp only [List.not_mem_nil, or_self, false_iff]
    exact fun h => none h.1

/-- The notification follows the copies, through shared memory. -/
theorem notified_pushed {source : BitVec 16} :
    Notified (observed (((cs.foldl (fun (net : Net) c => net.xpmemSimple operation c)
        ⟨[], nbi⟩).emit .fence).emit (.push source (BitVec.ofInt 16 tag))).ops) tag data ↔
      Representable tag ∧ ∀ m ∈ data, m ∈ cs.flatMap (moves operation) := by
  have one : (observed (((cs.foldl (fun (net : Net) c => net.xpmemSimple operation c)
      ⟨[], nbi⟩).emit .fence).emit (.push source (BitVec.ofInt 16 tag))).ops).notices =
      [⟨source, BitVec.ofInt 16 tag, [], cs.flatMap (moves operation)⟩] := by
    rw [Net.observed_emit, Net.observed_emit, Net.foldl_xpmemSimple]
    simp [observed, Progress.observe]
  rw [notified_iff one]
  simp

end Forms

end FoMPI.RmaNotify
