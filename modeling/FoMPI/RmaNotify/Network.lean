import FoMPI.Foundation.Blocks
import FoMPI.Notif.Model

/-!
# What a notification finds done

The network operations of one call, in the order of issue, and the bytes that have
arrived whenever one of them carries a notification. DMAPP operations complete in
`dmapp_gsync_wait`, copies in a memory fence; a uGNI operation delivers its own
bytes before its remote event.
-/
namespace FoMPI.RmaNotify
open FoMPI.Foundation FoMPI.Notif

/-- `_foMPI_PUT` and `_foMPI_GET`. -/
inductive Operation
  | put | get
  deriving DecidableEq

/-- One byte moved between an address of the origin and one of the target. -/
structure Move where
  operation : Operation
  origin : ℤ
  target : ℤ
  deriving DecidableEq

def moves (operation : Operation) (c : Chunk) : List Move :=
  c.pairs.map fun p => ⟨operation, p.1, p.2⟩

inductive NetOp
  /-- `dmapp_put_nbi` or `dmapp_get_nbi`. -/
  | dmapp (operation : Operation) (c : Chunk)
  | gsyncWait
  /-- `__sync_synchronize`. -/
  | fence
  /-- A copy through shared memory. -/
  | copy (operation : Operation) (c : Chunk)
  /-- `GNI_PostFma` or `GNI_PostRdma`. -/
  | post (operation : Operation) (c : Chunk) (eventId : BitVec 32) (remoteEvent : Bool)
  /-- `xpmem_notif_push`. -/
  | push (source tag : BitVec 16)

/-- A notification, with the bytes that its operation carries and those complete before it. -/
structure Notice where
  source : BitVec 16
  tag : BitVec 16
  carried : List Move
  complete : List Move

structure Progress where
  inFlight : List Move
  copied : List Move
  complete : List Move
  notices : List Notice

def Progress.observe (p : Progress) : NetOp → Progress
  | .dmapp operation c => { p with inFlight := p.inFlight ++ moves operation c }
  | .gsyncWait => { p with inFlight := [], complete := p.complete ++ p.inFlight }
  | .fence => { p with copied := [], complete := p.complete ++ p.copied }
  | .copy operation c => { p with copied := p.copied ++ moves operation c }
  | .post operation c eventId remoteEvent =>
    if remoteEvent then
      let id := decodeID eventId
      { p with notices := p.notices ++ [⟨id.1, id.2, moves operation c, p.complete⟩] }
    else p
  | .push source tag => { p with notices := p.notices ++ [⟨source, tag, [], p.complete⟩] }

def observed (ops : List NetOp) : Progress := ops.foldl Progress.observe ⟨[], [], [], []⟩

/-- Exactly one notification, with the tag of the caller, and no byte of `data` outstanding. -/
def Notified (p : Progress) (tag : ℤ) (data : List Move) : Prop :=
  ∃ n, p.notices = [n] ∧ n.tag.toNat = tag ∧ ∀ m ∈ data, m ∈ n.carried ∨ m ∈ n.complete

/-- The tags that a notification has room for. -/
def Representable (tag : ℤ) : Prop := 0 ≤ tag ∧ tag < 65536

theorem ofInt_toNat_eq {tag : ℤ} :
    ((BitVec.ofInt 16 tag).toNat : ℤ) = tag ↔ Representable tag := by
  rw [BitVec.toNat_ofInt, Representable]
  omega

/-- With one notification made out for `tag`, the question is which bytes it accounts for. -/
theorem notified_iff {p : Progress} {source : BitVec 16} {tag : ℤ} {carried complete data : List Move}
    (one : p.notices = [⟨source, BitVec.ofInt 16 tag, carried, complete⟩]) :
    Notified p tag data ↔ Representable tag ∧ ∀ m ∈ data, m ∈ carried ∨ m ∈ complete := by
  constructor
  · rintro ⟨n, notices, same, accounted⟩
    obtain rfl : _ = n := List.singleton_injective (one.symm.trans notices)
    exact ⟨ofInt_toNat_eq.mp same, accounted⟩
  · rintro ⟨room, accounted⟩
    exact ⟨_, one, ofInt_toNat_eq.mpr room, accounted⟩

section Moves
variable {operation : Operation} {c : Chunk} {m : Move}

theorem mem_moves : m ∈ moves operation c ↔
    ∃ k : ℕ, k < c.size ∧ m = ⟨operation, c.originOffset + k, c.targetOffset + k⟩ := by
  simp only [moves, Chunk.pairs, List.map_map, List.mem_map, List.mem_range, Function.comp_apply]
  exact exists_congr fun k => and_congr_right fun _ => eq_comm

theorem moves_zero {o t : ℤ} : moves operation ⟨o, t, 0⟩ = [] := rfl

end Moves

end FoMPI.RmaNotify
