import FoMPI.Dcache.Superposition
import FoMPI.RmaNotify.Traffic
import Mathlib.Algebra.Order.Ring.Int

/-!
# One notification, after all data

A call hands its transfer on in parts. Its notification travels with the only part,
follows the copies, or follows a flush of the DMAPP operations of the parts; what is
left is whether the parts are the whole transfer, whether the flush waits, and
whether the tag survives.
-/
namespace FoMPI.RmaNotify
open FoMPI.Dcache FoMPI.Foundation FoMPI.Window
open FoMPI.Notif (anyTag)

variable {ι : Type*} [DecidableEq ι] (D : Datatypes ι) (W : Win) (a : Args ι) (layout : Layout ι)

section Transfer

def originBlocks : List Block := layout a.origin.1 a.origin.2

def targetBlocks : List Block := layout a.target.1 a.target.2

/-- The bytes of the transfer. -/
def data : List Move :=
  ((bytes (originBlocks a layout)).zip (bytes (targetBlocks a layout))).map fun p =>
    ⟨a.operation, a.originAddr + p.1, targetOffset W a + p.2⟩

/-- The blocks that both datatypes have in common. -/
def commonBlocks : List Chunk :=
  superpose (calls layout a.origin a.target) (originBlocks a layout) (targetBlocks a layout)

/-- What is handed to the communication functions. -/
def parts : List Chunk :=
  match fastPath D W a with
  | some size => [⟨a.originAddr, targetOffset W a, size⟩]
  | none => ((piecesOf D W a (commonBlocks a layout)).getD []).map
      (Chunk.place a.originAddr (targetOffset W a))

/-- An intrinsic type is contiguous. -/
def IsRow (key : Key ι) : Prop :=
  ∀ k, D.intrinsic key.1 = some k → layout key.1 key.2 = [⟨0, (key.2 * k.size).toNat⟩]

/-- What is known of the datatypes: their blocks have bytes, equally many on both sides, and an
intrinsic type is contiguous. -/
structure Layouts : Prop where
  positiveOrigin : Positive (originBlocks a layout)
  positiveTarget : Positive (targetBlocks a layout)
  sameTotal : total (originBlocks a layout) = total (targetBlocks a layout)
  originRow : IsRow D layout a.origin
  targetRow : IsRow D layout a.target

/-- The attached regions cover the target. -/
def RegionsCover : Prop :=
  W.locality.dynamic → ∀ x ∈ bytes (targetBlocks a layout),
    ∃ r ∈ W.remoteMemRegions, r.hasByte (targetOffset W a + x)

end Transfer

/-- The single operation that can carry the notification. -/
def direct : Chunk → Bool :=
  match a.operation with
  | .put => putDirect
  | .get => getDirect (getSrcSeg D W a)

/-- The transfer is one operation, and the notification travels with it. -/
def Carried : Prop := oneRegion D W a ∧ ∃ c, parts D W a layout = [c] ∧ direct D W a c

/-- There is something to transfer, and its size on the fast path is an `int`. -/
def Sized : Prop :=
  0 < total (originBlocks a layout) ∧
    ((fastPath D W a).isSome → total (originBlocks a layout) < 2147483648)

/-- The tag fits into a notification, the size into an `int`, and a flush on which the notification
relies finds a counter that has not wrapped around to zero. -/
structure Orderly (nbi : BitVec 32) : Prop where
  representable : Representable a.tag
  sized : Sized D W a layout
  flushed : W.locality.viaXpmem a.targetRank ∨ Carried D W a layout ∨
    nbi + BitVec.ofNat 32 (opsOf (parts D W a layout)) ≠ 0

variable {D W a layout} {cache : GlobInfo ι} {nbi : BitVec 32} {o t : ℤ} {operation : Operation}

section Placing

theorem flatMap_moves_place (cs : List Chunk) :
    (cs.map (Chunk.place o t)).flatMap (moves operation) =
      (pairs cs).map fun p => ⟨operation, o + p.1, t + p.2⟩ := by
  induction cs with
  | nil => rfl
  | cons c cs ih =>
    rw [List.map_cons, List.flatMap_cons, ih, pairs_cons, List.map_append]
    congr 1
    simp only [moves, Chunk.pairs, Chunk.place, List.map_map]
    apply List.map_congr_left
    intro k _
    simp only [Function.comp_apply, add_assoc]

theorem mem_pairs_of_mem {cs : List Chunk} {c : Chunk} (mem : c ∈ cs) {k : ℕ} (lt : k < c.size) :
    (c.originOffset + k, c.targetOffset + k) ∈ pairs cs := by
  refine List.mem_flatMap.mpr ⟨c, mem, ?_⟩
  exact List.mem_map.mpr ⟨k, List.mem_range.mpr lt, rfl⟩

/-- Blocks that lie in regions are cut into pieces with the same bytes. -/
theorem splitBlocks_spec {regions : List Region} (cs : List Chunk)
    (covered : ∀ p ∈ pairs cs, ∃ r ∈ regions, r.hasByte (t + p.2)) :
    ∃ pieces, splitBlocks regions t cs = some pieces ∧ pairs pieces = pairs cs := by
  induction cs with
  | nil => exact ⟨[], rfl, rfl⟩
  | cons c cs ih =>
    have inside : Covered regions t c := by
      intro k lt
      have byte := covered _ (mem_pairs_of_mem List.mem_cons_self lt)
      rwa [← add_assoc] at byte
    obtain ⟨pieces, split, same, -⟩ := splitBlock_spec inside
    obtain ⟨rest, splitRest, sameRest⟩ := ih fun p hp => covered p (by
      rw [pairs_cons]
      exact List.mem_append_right _ hp)
    refine ⟨pieces.map Prod.snd ++ rest, by simp [splitBlocks, split, splitRest], ?_⟩
    rw [pairs_append, same, sameRest, pairs_cons]

end Placing

section Parts

omit [DecidableEq ι] in
theorem Layouts.pairs_commonBlocks (layouts : Layouts D a layout) :
    pairs (commonBlocks a layout) =
      (bytes (originBlocks a layout)).zip (bytes (targetBlocks a layout)) :=
  superpose_pairs _ layouts.positiveOrigin layouts.positiveTarget layouts.sameTotal (le_refl _)

omit [DecidableEq ι] in
theorem pieces_spec (layouts : Layouts D a layout) (cover : RegionsCover W a layout) :
    ∃ pieces, piecesOf D W a (commonBlocks a layout) = some pieces ∧
      pairs pieces = pairs (commonBlocks a layout) := by
  unfold piecesOf
  split
  · exact ⟨_, rfl, rfl⟩
  · rename_i several
    apply splitBlocks_spec
    intro p hp
    rw [layouts.pairs_commonBlocks] at hp
    refine cover ?_ p.2 (List.of_mem_zip hp).2
    simp only [oneRegion, Bool.or_eq_true, not_or, Bool.not_eq_true'] at several
    simpa using several.1

/-- Off the fast path the parts are the transfer. -/
theorem parts_eq_data (layouts : Layouts D a layout) (cover : RegionsCover W a layout)
    (slow : fastPath D W a = none) :
    (parts D W a layout).flatMap (moves a.operation) = data W a layout := by
  obtain ⟨pieces, found, same⟩ := pieces_spec layouts cover
  rw [parts, slow, found]
  dsimp only [Option.getD_some]
  rw [flatMap_moves_place, same, layouts.pairs_commonBlocks, data]

/-- The fast path is taken for one intrinsic datatype on both sides. -/
theorem fastPath_some {size : ℕ} (layouts : Layouts D a layout) (fast : fastPath D W a = some size) :
    ∃ n : ℤ, 1 ≤ n ∧ originBlocks a layout = [⟨0, n.toNat⟩] ∧
      targetBlocks a layout = [⟨0, n.toNat⟩] ∧ size = (Int.bmod n 4294967296).toNat := by
  unfold fastPath at fast
  split at fast
  · contradiction
  · split at fast
    · rename_i same
      obtain ⟨k, intrinsic, rfl⟩ := Option.map_eq_some_iff.mp fast
      have positive : 1 ≤ (k.size : ℤ) := by cases k <;> decide
      have origin : originBlocks a layout = [⟨0, (a.origin.2 * k.size).toNat⟩] := layouts.originRow k intrinsic
      have target : targetBlocks a layout = [⟨0, (a.target.2 * k.size).toNat⟩] :=
        layouts.targetRow k (same ▸ intrinsic)
      have total := layouts.sameTotal
      refine ⟨a.origin.2 * k.size, ?_, origin, ?_, rfl⟩
      · have count := a.originCount
        exact count.trans (le_mul_of_one_le_right (by omega) positive)
      · rw [origin, target] at total
        rw [target]
        simp only [Foundation.total, List.map_cons, List.map_nil, List.sum_cons, List.sum_nil] at total
        rw [Nat.add_zero, Nat.add_zero] at total
        rw [total]
    · contradiction

/-- On the fast path there is one part, and it is the transfer unless the size wraps around. -/
theorem fast_covers_iff {size : ℕ} (layouts : Layouts D a layout) (fast : fastPath D W a = some size) :
    size < 2147483648 ∧
      ((∀ m ∈ data W a layout, m ∈ moves a.operation ⟨a.originAddr, targetOffset W a, size⟩) ↔
        total (originBlocks a layout) < 2147483648) := by
  obtain ⟨n, positive, origin, target, rfl⟩ := fastPath_some layouts fast
  have small : (Int.bmod n 4294967296).toNat < 2147483648 := by
    unfold Int.bmod
    dsimp only
    split <;> omega
  have bytes_eq : data W a layout =
      moves a.operation ⟨a.originAddr, targetOffset W a, n.toNat⟩ := by
    have zipped : (bytes [⟨0, n.toNat⟩]).zip (bytes [⟨0, n.toNat⟩]) = pairs [⟨0, 0, n.toNat⟩] := by
      simp [bytes, Block.bytes, pairs, Chunk.pairs, List.zip_map']
    rw [data, origin, target, zipped, ← flatMap_moves_place]
    simp [Chunk.place]
  have length : total (originBlocks a layout) = n.toNat := by
    rw [origin]
    rfl
  refine ⟨small, ?_⟩
  rw [bytes_eq, length]
  constructor
  · intro covers
    by_contra large
    obtain ⟨k, lt, same⟩ := mem_moves.mp (covers _ (mem_moves.mpr ⟨n.toNat - 1, by dsimp only; omega, rfl⟩))
    have equal := congrArg Move.origin same
    dsimp only at equal lt
    omega
  · intro fits m hm
    obtain ⟨k, lt, rfl⟩ := mem_moves.mp hm
    have whole : (Int.bmod n 4294967296).toNat = n.toNat := by
      unfold Int.bmod
      dsimp only
      split <;> omega
    exact mem_moves.mpr ⟨k, by rw [whole]; exact lt, rfl⟩

end Parts

section Coverage

/-- The parts move the whole transfer, on either path, unless the size of the fast path wraps. -/
theorem parts_cover_iff (layouts : Layouts D a layout) (cover : RegionsCover W a layout)
    (some_bytes : 0 < total (originBlocks a layout)) :
    (∀ m ∈ data W a layout, m ∈ (parts D W a layout).flatMap (moves a.operation)) ↔
      Sized D W a layout := by
  rw [Sized, and_iff_right some_bytes]
  cases fast : fastPath D W a with
  | none =>
    rw [parts_eq_data layouts cover fast]
    simp
  | some size =>
    rw [parts, fast]
    dsimp only
    rw [List.flatMap_singleton, (fast_covers_iff layouts fast).2]
    simp

/-- The same for what DMAPP moves. -/
theorem parts_dmapp_iff (layouts : Layouts D a layout) (cover : RegionsCover W a layout)
    (some_bytes : 0 < total (originBlocks a layout)) :
    (∀ m ∈ data W a layout, m ∈ (parts D W a layout).flatMap (dmappMoves a.operation)) ↔
      Sized D W a layout := by
  rw [← parts_cover_iff layouts cover some_bytes]
  constructor
  · intro covers m hm
    cases fast : fastPath D W a with
    | none =>
      rw [parts_eq_data layouts cover fast]
      exact hm
    | some size =>
      have covered := covers m hm
      rw [parts, fast] at covered ⊢
      dsimp only at covered ⊢
      rw [List.flatMap_singleton] at covered ⊢
      exact mem_moves_of_dmapp (fast_covers_iff layouts fast).1 covered
  · intro covers m hm
    obtain ⟨c, mem, moved⟩ := List.mem_flatMap.mp (covers m hm)
    exact List.mem_flatMap.mpr ⟨c, mem, mem_dmappMoves moved⟩

omit [DecidableEq ι] in
/-- A transfer of at least one byte has something outstanding before it starts. -/
theorem exists_mem_data (layouts : Layouts D a layout)
    (some_bytes : 0 < total (originBlocks a layout)) : ∃ m, m ∈ data W a layout := by
  apply List.exists_mem_of_length_pos
  rw [data, List.length_map, List.length_zip, length_bytes, length_bytes, ← layouts.sameTotal,
    Nat.min_self]
  exact some_bytes

end Coverage

section Forms
variable {srcSeg : Option Segment} {choose : Chunk → Bool} {tag : ℤ} {net : Net}

/-- The loop over the blocks of one region, by induction on the blocks left. -/
theorem notifyBlocks_flushed (notAny : tag ≠ anyTag) (cs : List Chunk) (n : ℕ)
    (more : cs ≠ []) (staged : ¬(n = 0 ∧ ∃ c, cs = [c] ∧ choose c)) :
    ∃ o t, notifyBlocks W operation choose srcSeg tag n cs net =
      (net.dmappAll operation cs).winFlushAll.ugniSimple W .put ⟨o, t, 0⟩ srcSeg tag := by
  induction cs generalizing n net with
  | nil => exact absurd rfl more
  | cons c cs ih =>
    rw [notifyBlocks, if_pos notAny]
    by_cases last : cs = []
    · subst last
      refine ⟨c.originOffset, c.targetOffset, ?_⟩
      rw [if_pos rfl, if_neg (fun h => staged ⟨h.1, c, rfl, h.2⟩), Net.dmappAll_cons, Net.dmappAll,
        List.foldl_nil]
    · rw [if_neg last, Net.dmappAll_cons]
      exact ih (n + 1) last (fun h => absurd h.1 (Nat.succ_ne_zero n))

/-- A single block is sent with the notification. -/
theorem notifyBlocks_carried {c : Chunk} (notAny : tag ≠ anyTag) (alone : choose c) :
    notifyBlocks W operation choose srcSeg tag 0 [c] net =
      net.ugniSimple W operation c srcSeg tag := by
  rw [notifyBlocks, if_pos notAny, if_pos rfl, if_pos ⟨rfl, alone⟩]

/-- The loop over the blocks runs to its end exactly if there is something to transfer. -/
theorem transfer_eq (layouts : Layouts D a layout) (good : Good layout cache) (rests : Rests cache)
    (some_bytes : 0 < total (originBlocks a layout)) :
    ∃ cache', cache.transfer layout a.origin a.target (calls layout a.origin a.target) =
      some (commonBlocks a layout, cache') ∧ Good layout cache' ∧ Rests cache' := by
  have nonempty {bs : List Block} (more : 0 < total bs) : bs ≠ [] := by
    rintro rfl
    exact absurd more (by decide)
  have fits : Fits layout a.origin a.target := ⟨layouts.positiveOrigin, layouts.positiveTarget,
    nonempty some_bytes, nonempty (layouts.sameTotal ▸ some_bytes), layouts.sameTotal⟩
  exact transfer_superposes good rests fits (le_refl _)

theorem transfer_none (cache : GlobInfo ι) (layouts : Layouts D a layout) (nothing : total (originBlocks a layout) = 0) :
    cache.transfer layout a.origin a.target (calls layout a.origin a.target) = none := by
  have noOrigin := layouts.positiveOrigin.eq_nil_of_total nothing
  have noTarget := layouts.positiveTarget.eq_nil_of_total (layouts.sameTotal ▸ nothing)
  have zero : calls layout a.origin a.target = 0 := by
    change (originBlocks a layout).length + (targetBlocks a layout).length = 0
    rw [noOrigin, noTarget]
    rfl
  rw [zero]
  rfl

/-- Through shared memory every part is copied. -/
theorem handling_eq (layouts : Layouts D a layout) (cover : RegionsCover W a layout)
    (good : Good layout cache) (rests : Rests cache) (some_bytes : 0 < total (originBlocks a layout))
    (commfunc : Net → Chunk → Net) (net : Net) :
    ∃ cache', communicationAndDatatypeHandling D W a layout commfunc cache net =
      some (cache', (parts D W a layout).foldl commfunc net) ∧ Good layout cache' ∧ Rests cache' := by
  unfold communicationAndDatatypeHandling parts
  cases fast : fastPath D W a with
  | some size => exact ⟨cache, rfl, good, rests⟩
  | none =>
    obtain ⟨cache', run, kept⟩ := transfer_eq layouts good rests some_bytes
    obtain ⟨pieces, found, -⟩ := pieces_spec layouts cover
    refine ⟨cache', ?_, kept⟩
    simp only [run, found, Option.bind_eq_bind, Option.bind_some, Option.map_some, Option.getD_some]

/-- The fast path is for windows that are not dynamic. -/
theorem oneRegion_of_fast {size : ℕ} (fast : fastPath D W a = some size) : oneRegion D W a := by
  unfold fastPath at fast
  split at fast
  · contradiction
  · rename_i static
    simp [oneRegion, static]

/-- The notification after several regions moves nothing. -/
theorem place_afterLast (blocks : List Chunk) :
    ∃ o' t', Chunk.place o t (afterLast blocks) = ⟨o', t', 0⟩ := by
  unfold afterLast
  split <;> exact ⟨_, _, rfl⟩

/-- Over the network the only part carries the notification, or all parts are flushed before it. -/
theorem ugniNotifyOnly_eq (layouts : Layouts D a layout) (cover : RegionsCover W a layout)
    (good : Good layout cache) (rests : Rests cache) (some_bytes : 0 < total (originBlocks a layout))
    (notAny : a.tag ≠ anyTag) (operation : Operation) (choose : Chunk → Bool)
    (srcSeg : Option Segment) (net : Net) :
    ∃ cache' net', ugniNotifyOnly D W a operation choose srcSeg (targetOffset W a) layout cache net =
        some (cache', net') ∧
      ((∃ c, oneRegion D W a ∧ parts D W a layout = [c] ∧ choose c ∧
          net' = net.ugniSimple W operation c srcSeg a.tag) ∨
        ¬(oneRegion D W a ∧ ∃ c, parts D W a layout = [c] ∧ choose c) ∧
          ∃ o t, net' = (net.dmappAll operation (parts D W a layout)).winFlushAll.ugniSimple W .put
            ⟨o, t, 0⟩ srcSeg a.tag) := by
  unfold ugniNotifyOnly
  cases fast : fastPath D W a with
  | some size =>
    have one := oneRegion_of_fast fast
    have only : parts D W a layout = [⟨a.originAddr, targetOffset W a, size⟩] := by rw [parts, fast]
    dsimp only
    split
    · rename_i carried
      exact ⟨cache, _, rfl, .inl ⟨_, one, only, carried, rfl⟩⟩
    · rename_i staged
      refine ⟨cache, _, rfl, .inr ⟨?_, a.originAddr, targetOffset W a, ?_⟩⟩
      · rintro ⟨-, c, single, carried⟩
        obtain rfl : _ = c := List.singleton_injective (only.symm.trans single)
        exact staged carried
      · rw [only, Net.dmappAll_cons, Net.dmappAll, List.foldl_nil]
  | none =>
    obtain ⟨cache', run, -⟩ := transfer_eq layouts good rests some_bytes
    obtain ⟨pieces, found, same⟩ := pieces_spec layouts cover
    have cut : parts D W a layout =
        pieces.map (Chunk.place a.originAddr (targetOffset W a)) := by
      rw [parts, fast, found]
      rfl
    simp only [run, Option.bind_eq_bind, Option.bind_some]
    by_cases one : oneRegion D W a
    · have whole : pieces = commonBlocks a layout := by
        rw [piecesOf, if_pos one] at found
        exact (Option.some.inj found).symm
      rw [if_pos one, ← whole, ← cut]
      refine ⟨cache', _, rfl, ?_⟩
      by_cases carried : ∃ c, parts D W a layout = [c] ∧ choose c
      · obtain ⟨c, single, alone⟩ := carried
        rw [single]
        exact .inl ⟨c, one, rfl, alone, notifyBlocks_carried notAny alone⟩
      · have more : parts D W a layout ≠ [] := by
          intro none
          obtain ⟨m, hm⟩ := exists_mem_data layouts some_bytes
          rw [← parts_eq_data layouts cover fast, none] at hm
          exact absurd hm List.not_mem_nil
        exact .inr ⟨fun h => carried h.2,
          notifyBlocks_flushed notAny _ 0 more fun h => carried h.2⟩
    · rw [piecesOf, if_neg one] at found
      rw [if_neg one, found, Option.map_some, if_pos notAny, ← cut]
      obtain ⟨o, t, ended⟩ := place_afterLast (o := a.originAddr) (t := targetOffset W a)
        (commonBlocks a layout)
      rw [ended]
      exact ⟨cache', _, rfl, .inr ⟨fun h => one h.1, o, t, rfl⟩⟩

end Forms

section Call

/-- Off the node, and for dynamic windows, the call is one of the two uGNI routines. -/
theorem rmaNotify_ugni (remote : ¬W.locality.viaXpmem a.targetRank) (notAny : a.tag ≠ anyTag)
    (D : Datatypes ι) (layout : Layout ι) (cache : GlobInfo ι) (net : Net) : ∃ srcSeg, rmaNotify D W a layout cache net =
      ugniNotifyOnly D W a a.operation (direct D W a) srcSeg (targetOffset W a) layout cache net := by
  have sameTarget : getTargetOffset W a = targetOffset W a := by
    unfold getTargetOffset targetOffset
    split
    · rfl
    · rename_i static
      have offNode : ¬W.locality.onnodeRankGlobalToLocal a.targetRank ≠ -1 := by
        intro onNode
        exact remote (by simp [Locality.viaXpmem, static, onNode])
      rw [if_neg fun h => notAny h.1, if_neg offNode]
  rw [rmaNotify, if_neg remote, direct]
  cases a.operation with
  | put => exact ⟨_, rfl⟩
  | get =>
    refine ⟨getSrcSeg D W a, ?_⟩
    rw [← sameTarget]
    rfl

/-- With nothing to transfer the loop reads past the end of the block lists. -/
theorem rmaNotify_none (layouts : Layouts D a layout) (nothing : total (originBlocks a layout) = 0)
    (net : Net) : rmaNotify D W a layout cache net = none := by
  have slow : fastPath D W a = none := by
    cases fast : fastPath D W a with
    | none => rfl
    | some size =>
      obtain ⟨n, positive, origin, -⟩ := fastPath_some layouts fast
      rw [origin] at nothing
      simp only [total, List.map_cons, List.map_nil, List.sum_cons, List.sum_nil] at nothing
      omega
  have stuck := transfer_none cache layouts nothing
  have handling (commfunc : Net → Chunk → Net) :
      communicationAndDatatypeHandling D W a layout commfunc cache net = none := by
    simp only [communicationAndDatatypeHandling, slow, stuck, Option.bind_eq_bind, Option.bind_none]
  have ugni {operation : Operation} {choose : Chunk → Bool} {srcSeg : Option Segment} {t : ℤ} :
      ugniNotifyOnly D W a operation choose srcSeg t layout cache net = none := by
    simp only [ugniNotifyOnly, slow, stuck, Option.bind_eq_bind, Option.bind_none]
  rw [rmaNotify]
  split
  · rw [handling]
    rfl
  · cases a.operation
    · exact ugni
    · exact ugni

/-- A cache at rest that keeps the layouts of the two datatypes. -/
theorem rmaNotify_orderly (good : Good layout cache) (rests : Rests cache) (layouts : Layouts D a layout)
    (cover : RegionsCover W a layout) (notAny : a.tag ≠ anyTag) (nbi : BitVec 32) :
    (∃ cache' net, rmaNotify D W a layout cache ⟨[], nbi⟩ = some (cache', net) ∧
      Notified (observed net.ops) a.tag (data W a layout)) ↔ Orderly D W a layout nbi := by
  obtain nothing | some_bytes := Nat.eq_zero_or_pos (total (originBlocks a layout))
  · rw [rmaNotify_none layouts nothing]
    constructor
    · rintro ⟨cache, net, run, -⟩
      contradiction
    · intro orderly
      exact absurd nothing orderly.sized.1.ne'
  · have determined {cache' : GlobInfo ι} {net : Net}
        (run : rmaNotify D W a layout cache ⟨[], nbi⟩ = some (cache', net)) :
        (∃ cache' net, rmaNotify D W a layout cache ⟨[], nbi⟩ = some (cache', net) ∧
          Notified (observed net.ops) a.tag (data W a layout)) ↔
          Notified (observed net.ops) a.tag (data W a layout) := by
      simp [run]
    by_cases onNode : W.locality.viaXpmem a.targetRank
    · obtain ⟨cache', run, -⟩ := handling_eq layouts cover good rests some_bytes
        (fun net c => net.xpmemSimple a.operation c) ⟨[], nbi⟩
      have called : rmaNotify D W a layout cache ⟨[], nbi⟩ = some (cache',
          (((parts D W a layout).foldl (fun (net : Net) c => net.xpmemSimple a.operation c)
            ⟨[], nbi⟩).emit .fence).emit
              (.push (BitVec.ofInt 16 W.commrank) (BitVec.ofInt 16 a.tag))) := by
        rw [rmaNotify, if_pos onNode, run]
        rfl
      rw [determined called, notified_pushed, parts_cover_iff layouts cover some_bytes]
      exact ⟨fun h => ⟨h.1, h.2, .inl onNode⟩, fun h => ⟨h.representable, h.sized⟩⟩
    · obtain ⟨srcSeg, routine⟩ := rmaNotify_ugni onNode notAny D layout cache ⟨[], nbi⟩
      obtain ⟨cache', net, run, ⟨c, one, only, alone, rfl⟩ | ⟨staged, o, t, rfl⟩⟩ :=
        ugniNotifyOnly_eq layouts cover good rests some_bytes notAny a.operation (direct D W a)
          srcSeg ⟨[], nbi⟩
      · have covers := parts_cover_iff layouts cover some_bytes
        rw [only, List.flatMap_singleton] at covers
        rw [determined (routine.trans run), notified_carried notAny, covers]
        exact ⟨fun h => ⟨h.1, h.2, .inr (.inl ⟨one, c, only, alone⟩)⟩,
          fun h => ⟨h.representable, h.sized⟩⟩
      · obtain ⟨m, outstanding⟩ := exists_mem_data layouts some_bytes
        rw [determined (routine.trans run), notified_flushed notAny]
        have covers := parts_dmapp_iff layouts cover some_bytes
        constructor
        · rintro ⟨room, done⟩
          exact ⟨room, covers.mp fun m hm => (done m hm).2, .inr (.inr (done m outstanding).1)⟩
        · rintro ⟨room, sized, flushed⟩
          refine ⟨room, fun m hm => ⟨?_, covers.mpr sized m hm⟩⟩
          exact (flushed.resolve_left onNode).resolve_left staged

/-- The fast path asks the cache for nothing. -/
theorem rmaNotify_fast {size : ℕ} (fast : fastPath D W a = some size) (layout layout' : Layout ι)
    (cache cache' : GlobInfo ι) (net : Net) : rmaNotify D W a layout cache net =
      (rmaNotify D W a layout' cache' net).map fun r => (cache, r.2) := by
  unfold rmaNotify
  split
  · simp only [communicationAndDatatypeHandling, fast]
    rfl
  · cases a.operation with
    | get =>
      simp only [communicationAndDatatypeHandlingUgniGetNotifyOnly, ugniNotifyOnly, fast]
      split <;> rfl
    | put =>
      simp only [communicationAndDatatypeHandlingUgniPutNotifyOnly, ugniNotifyOnly, fast]
      split <;> rfl

/-- The parts come from the blocks of the two datatypes. -/
theorem parts_congr {layout' : Layout ι} (origin : originBlocks a layout = originBlocks a layout')
    (target : targetBlocks a layout = targetBlocks a layout') : parts D W a layout = parts D W a layout' := by
  have blocks : commonBlocks a layout = commonBlocks a layout' := by
    unfold commonBlocks
    rw [origin, target]
    congr 1
    change (originBlocks a layout).length + (targetBlocks a layout).length =
      (originBlocks a layout').length + (targetBlocks a layout').length
    rw [origin, target]
  rw [parts, parts, blocks]

theorem Orderly.congr {layout' : Layout ι} (origin : originBlocks a layout = originBlocks a layout')
    (target : targetBlocks a layout = targetBlocks a layout') (orderly : Orderly D W a layout nbi) :
    Orderly D W a layout' nbi := by
  have same : parts D W a layout' = parts D W a layout := (parts_congr origin target).symm
  obtain ⟨representable, sized, flushed⟩ := orderly
  refine ⟨representable, ?_, ?_⟩
  · rwa [Sized, ← origin]
  · rwa [Carried, same]

end Call

section Runs

/-- Type `true` is three words and a fourth one after a gap, type `false` four words in a row. -/
def gapped : Layout Bool := fun type _ => if type then [⟨0, 24⟩, ⟨40, 8⟩] else [⟨0, 32⟩]

def derived : Datatypes Bool := ⟨fun _ => none, fun _ => 48, fun type => if type then 48 else 32⟩

/-- A dynamic window with two regions next to each other. -/
def adjoining : Win :=
  ⟨⟨true, -1, -1, []⟩, 1, 0, 1, 0, ⟨0, 0⟩, [⟨1000, 20⟩, ⟨1020, 12⟩], []⟩

def gather : Args Bool := ⟨.get, 64, (true, 1), 0, 1000, (false, 1), 3, by decide, by decide⟩

def coldCache (ι : Type) : GlobInfo ι := dcacheInit fun _ => ⟨[], 0, none, 0, 0, 0⟩

/-- Any type here is `MPI_DOUBLE`. -/
def doubles : Layout Unit := fun _ n => [⟨0, (n * 8).toNat⟩]

def double : Datatypes Unit := ⟨fun _ => some .double, fun _ => 8, fun _ => 8⟩

/-- A window whose target is on another node. -/
def remote : Win := ⟨⟨false, 1, 1, []⟩, 1, 4096, 8, 0, ⟨0, 0⟩, [], []⟩

/-- A put of four gigabytes. -/
def large : Args Unit :=
  ⟨.put, 64, ((), 536870912), 0, 0, ((), 536870912), 7, by decide, by decide⟩

end Runs

end FoMPI.RmaNotify
