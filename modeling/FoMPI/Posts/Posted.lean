import FoMPI.Dcache.Unequal
import FoMPI.Posts.Model

/-!
# Which transfer is posted with its bytes

The calls of a routine, carried out, are the model of notified transfers. A call posts
its bytes in one descriptor if the whole transfer is one block that passes the test of
its routine, and otherwise a put of nothing after a flush.
-/
namespace FoMPI.Posts
open FoMPI.Dcache FoMPI.Foundation FoMPI.RmaNotify FoMPI.Window
open FoMPI.Notif (anyTag)

variable {ι : Type*} [DecidableEq ι] {D : Datatypes ι} {W : Win} {layout : Layout ι} {a : Request ι} {fuel : ℕ}
  {cache cache' : GlobInfo ι} {operation : Operation} {test : Span → Bool} {seg : Option Segment}
  {tag t : ℤ} {calls : List Call}

@[simp] theorem Span.chunk_ofChunk (c : Chunk) : (Span.ofChunk c).chunk = c := rfl

section Refinement
variable {whole : Chunk → Bool} (net : Net)

/-- Carry out the calls of a routine. -/
def carryOut (W : Win) (net : Net) (r : GlobInfo ι × List Call) : GlobInfo ι × Net :=
  (r.1, r.2.foldl (Call.run W) net)

theorem fastPath_toNat (D : Datatypes ι) (W : Win) (a : Request ι) :
    (fastPath D W a).map Int.toNat = a.fastPath D W := by
  unfold fastPath Request.fastPath
  split
  · rfl
  · split
    · rw [Option.map_map]
      rfl
    · rfl

theorem run_dmappSimple (c : Chunk) :
    Call.run W net (.dmappSimple operation (.ofChunk c)) = net.dmappSimple operation c := rfl

theorem run_ugniSimple (c : Chunk) :
    Call.run W net (.ugniSimple operation (.ofChunk c) seg tag) =
      net.ugniSimple W operation c seg tag := rfl

theorem run_staged (x : Span) :
    (staged operation x seg tag).foldl (Call.run W) net =
      (net.dmappSimple operation x.chunk).winFlushAll.ugniSimple W .put ⟨x.originOffset, x.targetOffset, 0⟩
        seg tag := rfl

theorem run_notifyBlocks (agrees : ∀ x, test x = whole x.chunk) (n : ℕ) (cs : List Chunk) :
    (notifyBlocks operation test seg tag n cs).foldl (Call.run W) net =
      RmaNotify.notifyBlocks W operation whole seg tag n cs net := by
  induction cs generalizing n net with
  | nil => rfl
  | cons c cs ih =>
    have same : test (.ofChunk c) = whole c := agrees _
    simp only [notifyBlocks, RmaNotify.notifyBlocks, same]
    split
    · split
      · split
        · rw [List.foldl_cons, run_ugniSimple, List.foldl_nil]
        · rw [run_staged, Span.chunk_ofChunk]
          rfl
      · rw [List.foldl_cons, run_dmappSimple, ih]
    · rw [List.foldl_cons, run_dmappSimple, ih]

theorem run_map {commfunc : Span → Call} {handle : Net → Chunk → Net}
    (runs : ∀ net c, Call.run W net (commfunc (.ofChunk c)) = handle net c) (o t : ℤ) (cs : List Chunk) :
    (cs.map fun c => commfunc (.ofChunk (Chunk.place o t c))).foldl (Call.run W) net =
      (cs.map (Chunk.place o t)).foldl handle net := by
  induction cs generalizing net with
  | nil => rfl
  | cons c cs ih => rw [List.map_cons, List.foldl_cons, runs, ih, List.map_cons, List.foldl_cons]

theorem run_ugniNotifyOnly (agrees : ∀ x, test x = whole x.chunk) :
    (ugniNotifyOnly D W layout a fuel operation test seg t cache).map (carryOut W net) =
      a.ugniNotifyOnly D W layout fuel operation whole seg t cache net := by
  unfold ugniNotifyOnly Request.ugniNotifyOnly
  rw [← fastPath_toNat]
  cases fastPath D W a with
  | some size =>
    simp only [Option.map_some, carryOut, agrees, Span.chunk]
    split
    · rfl
    · rw [run_staged]
      rfl
  | none =>
    simp only [Option.map_none]
    cases transferred : cache.transfer layout a.origin a.target fuel with
    | none => rfl
    | some r =>
      obtain ⟨blocks, cache'⟩ := r
      simp only [Option.bind_eq_bind, Option.bind_some]
      split
      · simp only [Option.pure_def, Option.map_some, carryOut, run_notifyBlocks net agrees]
      · cases splitBlocks W.remoteMemRegions t blocks with
        | none => rfl
        | some pieces =>
          have dmapp : (pieces.map fun c => Call.dmappSimple operation (.ofChunk (Chunk.place a.originAddr t c))).foldl
              (Call.run W) net = net.dmappAll operation (pieces.map (Chunk.place a.originAddr t)) :=
            run_map net (fun net c => run_dmappSimple net c) a.originAddr t pieces
          simp only [Option.map_some]
          split
          · simp only [carryOut, List.foldl_append, dmapp]
            rw [List.foldl_cons, List.foldl_cons, run_ugniSimple]
            rfl
          · simp only [carryOut, dmapp]

theorem run_communicationAndDatatypeHandling {commfunc : Span → Call} {handle : Net → Chunk → Net}
    (runs : ∀ net x, Call.run W net (commfunc x) = handle net x.chunk) :
    (communicationAndDatatypeHandling D W layout a fuel commfunc cache).map (carryOut W net) =
      a.communicationAndDatatypeHandling D W layout fuel handle cache net := by
  unfold communicationAndDatatypeHandling Request.communicationAndDatatypeHandling
  rw [← fastPath_toNat]
  cases fastPath D W a with
  | some size => simp only [Option.map_some, carryOut, List.foldl_cons, List.foldl_nil, runs, Span.chunk]
  | none =>
    simp only [Option.map_none]
    cases cache.transfer layout a.origin a.target fuel with
    | none => rfl
    | some r =>
      simp only [Option.bind_eq_bind, Option.bind_some]
      cases a.piecesOf D W r.1 with
      | none => rfl
      | some pieces =>
        simp only [Option.map_some, carryOut, run_map net (fun net c => runs net (.ofChunk c)), Span.chunk_ofChunk]

theorem short_chunk (x : Span) :
    decide (x.size < maxRdmaTransferLength) = decide (x.chunk.size < maxRdmaTransferLength) := by
  rw [decide_eq_decide]
  change x.size < ((4294967295 : ℕ) : ℤ) ↔ x.size.toNat < 4294967295
  omega

theorem putDirect_chunk (x : Span) : putDirect x = RmaNotify.putDirect x.chunk := short_chunk x

theorem getDirect_chunk (seg : Option Segment) (x : Span) :
    getDirect seg x = RmaNotify.getDirect seg x.chunk := by
  rw [getDirect, RmaNotify.getDirect, short_chunk]
  rfl

/-- The calls of `foMPI_Put_notify` and `foMPI_Get_notify`, carried out. -/
theorem run_notify (D : Datatypes ι) (W : Win) (layout : Layout ι) (a : Request ι) (fuel : ℕ) (cache : GlobInfo ι) :
    (notify D W layout a fuel cache).map (carryOut W net) = a.notify D W layout fuel cache net := by
  have copies : (communicationAndDatatypeHandling D W layout a fuel (.xpmemSimple a.operation) cache).map
      (carryOut W net) = a.communicationAndDatatypeHandling D W layout fuel
        (fun net c => net.xpmemSimple a.operation c) cache net :=
    run_communicationAndDatatypeHandling net fun _ _ => rfl
  have words : (communicationAndDatatypeHandling D W layout a fuel (.dmappSimple a.operation) cache).map
      (carryOut W net) = a.communicationAndDatatypeHandling D W layout fuel
        (fun net c => net.dmappSimple a.operation c) cache net :=
    run_communicationAndDatatypeHandling net fun _ _ => rfl
  unfold notify Request.notify
  split
  · unfold rma Request.rma
    split
    · rfl
    · split
      · exact copies
      · exact words
  · unfold rmaNotify Request.rmaNotify
    split
    · rw [← copies]
      cases communicationAndDatatypeHandling D W layout a fuel (.xpmemSimple a.operation) cache with
      | none => rfl
      | some r =>
        simp only [Option.bind_eq_bind, Option.bind_some, Option.map_some, Option.pure_def, carryOut, List.foldl_append]
        rfl
    · cases a.operation with
      | put => exact run_ugniNotifyOnly net putDirect_chunk
      | get => exact run_ugniNotifyOnly net (getDirect_chunk _)

end Refinement

section Single

/-- The transfer, where both sides are one block in one region. -/
def single (D : Datatypes ι) (W : Win) (layout : Layout ι) (a : Request ι) (t : ℤ) : Option Span :=
  match fastPath D W a with
  | some size => some ⟨a.originAddr, t, size⟩
  | none =>
    match layout a.origin.1 a.origin.2, layout a.target.1 a.target.2 with
    | [b], [b'] =>
      if a.oneRegion D W then
        some (.ofChunk (Chunk.place a.originAddr t ⟨b.displ, b'.displ, min b.blocklen b'.blocklen⟩))
      else none
    | _, _ => none

theorem single_slow {b b' : Block} {bs bs' : List Block} {rest : List Chunk} (slow : fastPath D W a = none)
    (first : layout a.origin.1 a.origin.2 = b :: bs) (second : layout a.target.1 a.target.2 = b' :: bs')
    (alone : rest = [] ↔ bs = [] ∧ bs' = []) :
    single D W layout a t = if rest = [] ∧ a.oneRegion D W then
      some (.ofChunk (Chunk.place a.originAddr t ⟨b.displ, b'.displ, min b.blocklen b'.blocklen⟩)) else none := by
  rw [single, slow, first, second]
  cases bs with
  | nil =>
    cases bs' with
    | nil => simp [alone.mpr]
    | cons _ _ => simp [mt alone.mp]
  | cons _ _ => simp [mt alone.mp]

/-- `moves`, and then the notification with a put of nothing. -/
def Follows (moves : List Call) (seg : Option Segment) (tag : ℤ) (calls : List Call) : Prop :=
  ∃ o t, calls = moves ++ [.winFlushAll, .ugniSimple .put ⟨o, t, 0⟩ seg tag]

theorem notifyBlocks_follows (tagged : tag ≠ anyTag) {cs : List Chunk} (some_blocks : cs ≠ []) {o t : ℤ} {n : ℕ}
    (several : n = 0 → ∀ c, cs = [c] → ¬test (.ofChunk (Chunk.place o t c))) :
    Follows (cs.map fun c => .dmappSimple operation (.ofChunk (Chunk.place o t c))) seg tag
      (notifyBlocks operation test seg tag n (cs.map (Chunk.place o t))) := by
  induction cs generalizing n with
  | nil => contradiction
  | cons c cs ih =>
    rw [List.map_cons, List.map_cons, notifyBlocks, if_pos tagged]
    cases cs with
    | nil =>
      rw [if_pos List.map_nil, if_neg fun h => several h.1 c rfl h.2]
      exact ⟨_, _, rfl⟩
    | cons d ds =>
      rw [if_neg (by simp)]
      obtain ⟨o', t', rest⟩ := ih (List.cons_ne_nil _ _) fun zero => absurd zero (Nat.succ_ne_zero n)
      exact ⟨o', t', by rw [rest]; rfl⟩

/-- A routine posts the single block that passes its test, and moves everything else first. -/
theorem ugniNotifyOnly_spec (good : Good layout cache) (rests : Rests cache)
    (positive : Positive (layout a.origin.1 a.origin.2)) (tagged : a.tag ≠ anyTag) (sameTarget : t = a.targetOffset W)
    (run : ugniNotifyOnly D W layout a fuel operation test seg t cache = some (cache', calls)) :
    (∀ x, (single D W layout a t).filter test = some x → calls = [.ugniSimple operation x seg a.tag]) ∧
      ((single D W layout a t).filter test = none → ∃ moves,
        communicationAndDatatypeHandling D W layout a fuel (.dmappSimple operation) cache = some (cache', moves) ∧
        Follows moves seg a.tag calls) := by
  subst sameTarget
  unfold ugniNotifyOnly at run
  unfold communicationAndDatatypeHandling
  cases fast : fastPath D W a with
  | some size =>
    rw [fast] at run
    obtain ⟨rfl, rfl⟩ := Prod.mk.inj (Option.some.inj run)
    rw [single, fast]
    simp only [Option.filter_some]
    split
    · simp
    · simp only [reduceCtorEq, false_implies, implies_true, true_and, forall_const]
      exact ⟨_, rfl, _, _, rfl⟩
  | none =>
    rw [fast] at run
    obtain ⟨⟨blocks, cache₁⟩, transferred, run⟩ := Option.bind_eq_some_iff.mp run
    obtain ⟨b, bs, b', bs', rest, first, second, rfl, alone⟩ := transfer_first good rests positive transferred
    rw [single_slow fast first second alone]
    simp only [transferred, Option.bind_eq_bind, Option.bind_some, Request.piecesOf] at run ⊢
    by_cases one : a.oneRegion D W
    · rw [if_pos one] at run
      obtain ⟨rfl, rfl⟩ := Prod.mk.inj (Option.some.inj run)
      rw [if_pos one, Option.map_some]
      by_cases only : rest = []
      · subst only
        rw [if_pos ⟨rfl, one⟩, Option.filter_some]
        split
        · rename_i whole
          simp [notifyBlocks, tagged, whole]
        · rename_i parts
          simp only [reduceCtorEq, false_implies, implies_true, true_and, forall_const]
          refine ⟨_, rfl, notifyBlocks_follows tagged (List.cons_ne_nil _ _) ?_⟩
          rintro - c same
          obtain rfl := List.singleton_injective same
          exact parts
      · rw [if_neg fun h => only h.1]
        refine ⟨by simp, fun _ => ⟨_, rfl, notifyBlocks_follows tagged (List.cons_ne_nil _ _) ?_⟩⟩
        rintro - c same
        exact absurd (List.cons.inj same).2 only
    · rw [if_neg one] at run
      obtain ⟨pieces, split, result⟩ := Option.map_eq_some_iff.mp run
      rw [if_pos tagged] at result
      obtain ⟨rfl, rfl⟩ := Prod.mk.inj result
      rw [if_neg one, if_neg fun h => one h.2, split]
      exact ⟨by simp, fun _ => ⟨_, rfl, _, _, rfl⟩⟩

end Single

section Notify

/-- The call goes through uGNI, with a notification. -/
def ViaUgni (W : Win) (a : Request ι) : Prop := a.tag ≠ anyTag ∧ ¬W.locality.viaXpmem a.targetRank

/-- The segment that the routine passes on as `src_seg_ptr`. -/
def srcSegPtr (D : Datatypes ι) (W : Win) (a : Request ι) : Option Segment :=
  match a.operation with
  | .put => a.putSrcSeg D W
  | .get => a.getSrcSeg D W

/-- The test of the routine on a transfer of one block. -/
def direct (D : Datatypes ι) (W : Win) (a : Request ι) : Span → Bool :=
  match a.operation with
  | .put => putDirect
  | .get => getDirect (a.getSrcSeg D W)

/-- The transfer, if it is one block that passes the test. -/
def eligible (D : Datatypes ι) (W : Win) (layout : Layout ι) (a : Request ι) : Option Span :=
  (single D W layout a (a.targetOffset W)).filter (direct D W a)

theorem rmaNotify_ugni (ugni : ViaUgni W a) (D : Datatypes ι) (layout : Layout ι) (fuel : ℕ) (cache : GlobInfo ι) :
    notify D W layout a fuel cache = ugniNotifyOnly D W layout a fuel a.operation (direct D W a)
      (srcSegPtr D W a) (a.targetOffset W) cache := by
  have sameTarget : a.getTargetOffset W = a.targetOffset W := by
    unfold Request.getTargetOffset Request.targetOffset
    split
    · rfl
    · rename_i static
      have offNode : ¬W.locality.onnodeRankGlobalToLocal a.targetRank ≠ -1 := by
        intro onNode
        exact ugni.2 (by simp [Locality.viaXpmem, static, onNode])
      rw [if_neg fun h => ugni.1 h.1, if_neg offNode]
  rw [notify, if_neg ugni.1, rmaNotify, if_neg ugni.2, direct, srcSegPtr]
  cases a.operation with
  | put => rfl
  | get => rw [← sameTarget]; rfl

theorem posted_follows {moves : List Call} (nothing : posted moves = []) (follows : Follows moves seg tag calls) :
    ∃ o t, posted calls = [(ugniSimpleRma .put ⟨o, t, 0⟩ seg tag).1] := by
  obtain ⟨o, t, rfl⟩ := follows
  exact ⟨o, t, by rw [posted, List.flatMap_append, ← posted, nothing]; rfl⟩

/-- Copies and DMAPP transfers post no descriptor. -/
theorem posted_handling {commfunc : Span → Call} (nothing : ∀ x, (commfunc x).posted = [])
    (run : communicationAndDatatypeHandling D W layout a fuel commfunc cache = some (cache', calls)) :
    posted calls = [] := by
  unfold communicationAndDatatypeHandling at run
  cases fast : fastPath D W a with
  | some size =>
    rw [fast] at run
    obtain ⟨-, rfl⟩ := Prod.mk.inj (Option.some.inj run)
    simp [posted, nothing]
  | none =>
    rw [fast] at run
    obtain ⟨⟨blocks, cache₁⟩, -, run⟩ := Option.bind_eq_some_iff.mp run
    obtain ⟨pieces, -, result⟩ := Option.map_eq_some_iff.mp run
    obtain ⟨-, rfl⟩ := Prod.mk.inj result
    simp [posted, nothing]

theorem posted_notify (apart : ¬ViaUgni W a) (run : notify D W layout a fuel cache = some (cache', calls)) :
    posted calls = [] := by
  unfold notify at run
  split at run
  · unfold rma at run
    split at run
    · obtain ⟨-, rfl⟩ := Prod.mk.inj (Option.some.inj run)
      rfl
    · split at run
      · exact posted_handling (fun _ => rfl) run
      · exact posted_handling (fun _ => rfl) run
  · rename_i tagged
    have onNode : W.locality.viaXpmem a.targetRank := by
      by_contra offNode
      exact apart ⟨tagged, offNode⟩
    rw [rmaNotify, if_pos onNode] at run
    obtain ⟨⟨cache₁, copies⟩, handled, run⟩ := Option.bind_eq_some_iff.mp run
    obtain ⟨-, rfl⟩ := Prod.mk.inj (Option.some.inj run)
    have nothing := posted_handling (fun _ => rfl) handled
    rw [posted] at nothing ⊢
    rw [List.flatMap_append, nothing]
    rfl

/-- What `foMPI_Put_notify` and `foMPI_Get_notify` post through uGNI. -/
theorem notify_spec (good : Good layout cache) (rests : Rests cache) (positive : Positive (layout a.origin.1 a.origin.2))
    (ugni : ViaUgni W a) (run : notify D W layout a fuel cache = some (cache', calls)) :
    (∀ x, eligible D W layout a = some x → calls = [.ugniSimple a.operation x (srcSegPtr D W a) a.tag]) ∧
      (eligible D W layout a = none → ∃ moves,
        communicationAndDatatypeHandling D W layout a fuel (.dmappSimple a.operation) cache = some (cache', moves) ∧
        Follows moves (srcSegPtr D W a) a.tag calls) :=
  ugniNotifyOnly_spec good rests positive ugni.1 rfl (by rw [← rmaNotify_ugni ugni, run])

/-- A call whose transfer does not pass posts no bytes and no get. -/
theorem posted_nothing (good : Good layout cache) (rests : Rests cache)
    (positive : Positive (layout a.origin.1 a.origin.2)) (run : notify D W layout a fuel cache = some (cache', calls))
    (none : ViaUgni W a → eligible D W layout a = none) {d : Descriptor} (mem : d ∈ posted calls) :
    d.operation = .put ∧ d.length = 0 := by
  by_cases ugni : ViaUgni W a
  · obtain ⟨moves, handled, follows⟩ := (notify_spec good rests positive ugni run).2 (none ugni)
    obtain ⟨o, t, zero⟩ := posted_follows (posted_handling (fun _ => rfl) handled) follows
    rw [zero, List.mem_singleton] at mem
    subst mem
    exact ⟨rfl, rfl⟩
  · rw [posted_notify ugni run] at mem
    contradiction

end Notify

end FoMPI.Posts
