import FoMPI.Flush.Model

/-!
# Statements and network operations

The statements of a notified call, one after the other on `nbi_counter` of its window, are
the call in the model of notified transfers.
-/
namespace FoMPI.Flush
open FoMPI.Comm FoMPI.Dcache FoMPI.Foundation FoMPI.RmaNotify FoMPI.Window
open FoMPI.Notif (anyTag)

universe u

variable {ω ι : Type u}

/-- What a statement adds to the operations of the call. -/
def perform (net : Net) : Instr ω → Net
  | .dmapp _ (.move operation c) => net.emit (.dmapp operation c)
  | .count _ => { net with nbiCounter := net.nbiCounter + 1 }
  | .gsyncWait => net.emit .gsyncWait
  | .clear _ => { net with nbiCounter := 0 }
  | .gsyncCounted _ => if net.nbiCounter ≠ 0 then { net.emit .gsyncWait with nbiCounter := 0 } else net
  | .post _ p => net.emit (.post p.operation p.chunk p.eventId p.remoteEvent)
  | .fence => net.emit .fence
  | .copy operation c => net.emit (.copy operation c)
  | .push source tag => net.emit (.push source tag)
  | .dmapp _ _ | .drain | .drainFull | .takeDescriptor | .flushed _ | .await _ => net

def performed (net : Net) (p : Program ω) : Net := p.foldl perform net

variable {win : ω} {W : Win} {net : Net} {operation : Operation} {c : Chunk}

@[simp] theorem performed_append (net : Net) (p q : Program ω) :
    performed net (p ++ q) = performed (performed net p) q := List.foldl_append

theorem performed_ite (net : Net) (x : Prop) [Decidable x] (p : Program ω) :
    performed net (if x then p else []) = if x then performed net p else net := by
  split <;> rfl

@[simp] theorem performed_getDynamicWindowRegions (net : Net) :
    performed net (getDynamicWindowRegions W : Program ω) = net := by
  unfold getDynamicWindowRegions
  split <;> rfl

@[simp] theorem performed_dmappSimple (net : Net) (win : ω) (operation : Operation) (c : Chunk) :
    performed net (dmappSimple win operation c) = net.dmappSimple operation c := by
  rw [dmappSimple, performed_append, performed_ite, performed_ite]
  rfl

@[simp] theorem performed_winFlushAll (net : Net) (win : ω) :
    performed net (winFlushAll win) = net.winFlushAll := rfl

@[simp] theorem performed_ugniSimple (net : Net) (win : ω) (W : Win) (operation : Operation) (c : Chunk)
    (srcSeg : Option Segment) (tag : ℤ) :
    performed net (ugniSimple win W operation c srcSeg tag) =
      net.ugniSimple W operation c srcSeg tag := by
  simp only [ugniSimple, performed_append, performed_ite]
  rfl

theorem performed_flatMap (f : Chunk → Program ω) (commfunc : Net → Chunk → Net)
    (each : ∀ net c, performed net (f c) = commfunc net c) (cs : List Chunk) (net : Net) :
    performed net (cs.flatMap f) = cs.foldl commfunc net := by
  induction cs generalizing net with
  | nil => rfl
  | cons c cs ih => rw [List.flatMap_cons, performed_append, each, ih, List.foldl_cons]

section Notified
variable {direct : Chunk → Bool} {srcSeg : Option Segment} {tag : ℤ}

theorem performed_notifyBlocks (cs : List Chunk) (n : ℕ) (net : Net) :
    performed net (notifyBlocks win W operation direct srcSeg tag n cs) =
      RmaNotify.notifyBlocks W operation direct srcSeg tag n cs net := by
  induction cs generalizing n net with
  | nil => rfl
  | cons c cs ih =>
    rw [notifyBlocks, RmaNotify.notifyBlocks]
    split
    · split
      · split
        · exact performed_ugniSimple net win W operation c srcSeg tag
        · rw [performed_append, performed_append, performed_dmappSimple, performed_winFlushAll,
            performed_ugniSimple]
      · rw [performed_append, ih, performed_dmappSimple]
    · rw [performed_append, ih, performed_dmappSimple]

variable [DecidableEq ι] {D : Datatypes ι} {layout : Layout ι} {a : Args ι} {cache cache' : GlobInfo ι}
  {net' : Net}

theorem performed_ugniNotifyOnly (t : ℤ) (net : Net) :
    (ugniNotifyOnly win W D layout a operation direct srcSeg t cache).map
        (fun r => (r.1, performed net r.2)) =
      RmaNotify.ugniNotifyOnly D W a operation direct srcSeg t layout cache net := by
  unfold ugniNotifyOnly RmaNotify.ugniNotifyOnly
  cases fastPath D W a with
  | some size =>
    simp only [Option.map_some, notifyChunk]
    split
    · rw [performed_ugniSimple]
    · rw [performed_append, performed_append, performed_dmappSimple, performed_winFlushAll,
        performed_ugniSimple]
  | none =>
    simp only [Option.bind_eq_bind, Option.map_bind]
    refine Option.bind_congr fun r _ => ?_
    obtain ⟨blocks, cache⟩ := r
    simp only [Function.comp_apply]
    split
    · refine congrArg (fun net => some (cache, net)) ?_
      rw [performed_append, performed_getDynamicWindowRegions]
      exact performed_notifyBlocks _ 0 net
    · rw [Option.map_map]
      refine congrArg (Option.map · _) (funext fun pieces => ?_)
      have data := performed_flatMap (dmappSimple win operation) (fun net c => net.dmappSimple operation c)
        (fun net c => performed_dmappSimple net win operation c)
        (pieces.map (Chunk.place a.originAddr t)) net
      simp only [Function.comp_apply, performed_append, performed_getDynamicWindowRegions, data,
        performed_ite, performed_winFlushAll, performed_ugniSimple, Net.dmappAll]
      split <;> rfl

/-- A notified call that comes to its end in one model does so in the other, with the same
operations. -/
theorem performed_rmaNotify (run : RmaNotify.rmaNotify D W a layout cache net = some (cache', net'))
    (win : ω) (garbage : ℕ) : ∃ fuel p,
      rmaNotify win W D layout a fuel garbage cache = some (cache', p) ∧ performed net p = net' := by
  unfold RmaNotify.rmaNotify at run
  unfold rmaNotify
  split at run
  · rename_i onNode
    obtain ⟨⟨cache₁, net₁⟩, handled, eq⟩ := Option.bind_eq_some_iff.mp run
    cases eq
    obtain ⟨fuel, calls, called, rfl⟩ := handling_eq_foldl handled garbage
    refine ⟨fuel, _, by rw [if_pos onNode, transfer, called]; rfl, ?_⟩
    have copies (c : Chunk) : simple win W a.targetRank a.operation c = [.copy a.operation c] :=
      if_pos onNode
    have data := performed_flatMap (fun c => simple win W a.targetRank a.operation c)
      (fun net c => net.xpmemSimple a.operation c) (fun net c => by rw [copies]; rfl)
      (calls.map Invocation.chunk) net
    rw [List.flatMap_map] at data
    rw [performed_append, performed_append, performed_getDynamicWindowRegions, data]
    rfl
  · rename_i offNode
    have through {operation : Operation} {direct : Chunk → Bool} {srcSeg : Option Segment} {t : ℤ}
        (sent : RmaNotify.ugniNotifyOnly D W a operation direct srcSeg t layout cache net =
          some (cache', net')) :
        ∃ p, ugniNotifyOnly win W D layout a operation direct srcSeg t cache = some (cache', p) ∧
          performed net p = net' := by
      have both : (ugniNotifyOnly win W D layout a operation direct srcSeg t cache).map
          (fun r => (r.1, performed net r.2)) = some (cache', net') := by
        rw [performed_ugniNotifyOnly, sent]
      obtain ⟨⟨cache₁, p⟩, found, eq⟩ := Option.map_eq_some_iff.mp both
      cases eq
      exact ⟨p, found, rfl⟩
    simp only [if_neg offNode]
    cases op : a.operation with
    | get =>
      rw [op] at run
      obtain ⟨p, found, same⟩ := through run
      exact ⟨0, p, found, same⟩
    | put =>
      rw [op] at run
      obtain ⟨p, found, same⟩ := through run
      exact ⟨0, p, found, same⟩

end Notified

end FoMPI.Flush
