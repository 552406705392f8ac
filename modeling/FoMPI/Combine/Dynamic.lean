import FoMPI.Combine.Agreement

/-!
# Hardware accumulates on dynamic windows

Sums and bitwise operations on `MPI_INT64_T` in attached regions. `find_seg_and_size` cuts the
access wherever a region ends, and the functions that issue the atomic operations round each
piece down to whole words and index its words with an `int`.
-/
namespace FoMPI.Combine
open FoMPI.Accumulate FoMPI.Comm FoMPI.Dcache FoMPI.Foundation FoMPI.RmaNotify FoMPI.Window
open FoMPI.Notif (anyTag)

universe u

variable {ι V : Type u} {M : Machine V} {W : Win} {D : Types ι} {layout : Layout ι} {C : Call ι} {n : ℕ}
  {s : State ι V} {garbage : ℕ}

/-- The bytes of the words are an `int`, and every piece has whole words. -/
def WholePieces (W : Win) (C : Call ι) (n : ℕ) : Prop :=
  n * 8 < 2147483648 ∧ ∀ c ∈ cardPieces W C n, 8 ∣ c.size

/-- One of the four operations on `n` words that attached regions hold, one run for the library. -/
structure WordCall (W : Win) (D : Types ι) (layout : Layout ι) (C : Call ι) (n : ℕ) : Prop where
  dynamic : W.locality.dynamic = true
  op : C.op = .sum ∨ C.op = .band ∨ C.op = .bor ∨ C.op = .bxor
  some_elements : 1 ≤ n
  origin : C.origin = (D.named (.integer .int64), (n : ℤ))
  target : C.target = (D.named (.integer .int64), (n : ℤ))
  size : D.size (D.named (.integer .int64)) = 8
  row : layout (D.named (.integer .int64)) n = [⟨0, storedLength (n * 8)⟩]
  covered : Covered W.remoteMemRegions C.targetDisp ⟨0, 0, n * 8⟩

section Issued
variable [DecidableEq ι]

/-- The atomic operations that `foMPI_Accumulate` issues. -/
def issued (W : Win) (D : Types ι) (layout : Layout ι) (C : Call ι) (garbage : ℕ) (s : State ι V) :
    Option (List Atomic) :=
  if originCount : 1 ≤ C.origin.2 then
    if targetCount : 1 ≤ C.target.2 then
      let a : Args ι :=
        ⟨.put, C.originAddr, C.origin, C.targetRank, C.targetDisp, C.target, anyTag, originCount, targetCount⟩
      (hardwareCalls D.toDatatypes W a layout C.op (total (layout C.target.1 C.target.2)) garbage s.cache).map fun r =>
        r.2.flatMap (accumulate8byte C.op)
    else none
  else none

/-- One atomic operation for each element, and the target is left as on the mutex path. -/
def TouchesAll (M : Machine V) (W : Win) (D : Types ι) (layout : Layout ι) (C : Call ι) (n garbage : ℕ)
    (s : State ι V) : Prop :=
  ∃ atomics t, issued W D layout C garbage s = some atomics ∧
    (atomics.map fun x => (x.originAddr, x.targetAddr)).Perm
      ((List.range n).map fun e : ℕ => (C.originAddr + e * 8, C.targetDisp + e * 8)) ∧
    accumulate M W D layout C garbage s = some (.code .success, t) ∧
    (∀ e < n, some (t.mem ⟨.target, C.targetDisp + e * 8⟩) = (M.arith (.integer .int64)).m4Op
      (s.mem ⟨.origin, C.originAddr + e * 8⟩) (s.mem ⟨.target, C.targetDisp + e * 8⟩) C.op) ∧
    (∀ x : Loc, (∀ e < n, x ≠ ⟨.target, C.targetDisp + (e : ℕ) * 8⟩) → t.mem x = s.mem x) ∧
    ∃ t', accumulateSoftware M W D layout C (.integer .int64) s = some (.code .success, t') ∧
      SameTarget W layout C (.integer .int64) n t.mem t'.mem

variable (call : WordCall W D layout C n) (reports : Reports D)
include call

omit [DecidableEq ι] in
theorem WordCall.start : cardStart W C = C.targetDisp := by
  simp [cardStart, call.dynamic]

omit [DecidableEq ι] in
theorem WordCall.row_small (small : n * 8 < 2147483648) : layout (D.named (.integer .int64)) n = [⟨0, n * 8⟩] := by
  rw [call.row, storedLength_eq small]

include reports

/-- The run is handed over in its pieces. -/
theorem hardwareCalls_row {a : Args ι} (disp : a.targetDisp = C.targetDisp) (key : a.origin = C.origin)
    (key' : a.target = C.target) (settled : Settled layout s.cache) (fuel garbage : ℕ) :
    (hardwareCalls D.toDatatypes W a layout C.op fuel garbage s.cache).map Prod.snd =
      if storedLength (n * 8) = 0 then none
      else some (blockCalls D.toDatatypes W a C.targetDisp fuel garbage [⟨0, 0, storedLength (n * 8)⟩]) := by
  have same : a.origin = a.target := by rw [key, key', call.origin, call.target]
  have slow : D.intrinsic a.target.1 = none := by
    rw [key', call.target]
    exact reports.intrinsic
  have start : hardwareOffset W a C.op = C.targetDisp := by
    unfold hardwareOffset targetOffsetDmappOnly targetOffset
    simp [call.dynamic, disp]
  have row : layout a.target.1 a.target.2 = [⟨0, storedLength (n * 8)⟩] := by
    rw [key', call.target]
    exact call.row
  rw [hardwareCalls_slow same slow, start]
  exact walk_row settled.good settled.rests same row C.targetDisp fuel garbage

omit [DecidableEq ι] in
theorem WordCall.extent {a : Args ι} (key : a.target = C.target) :
    targetCountExtent D.toDatatypes a = n * 8 := by
  simp only [targetCountExtent, key, call.target, reports.extent, reports.trueExtent]
  ring

variable (garbage) in
/-- The pieces of the access are handed over, each with its region. -/
theorem hardwareCalls_pieces {a : Args ι} (origin : a.originAddr = C.originAddr) (disp : a.targetDisp = C.targetDisp)
    (key : a.origin = C.origin) (key' : a.target = C.target) (settled : Settled layout s.cache)
    (small : n * 8 < 2147483648) :
    ∃ cache calls, hardwareCalls D.toDatatypes W a layout C.op (n * 8) garbage s.cache = some (cache, calls) ∧
      calls.map Invocation.chunk = (cardPieces W C n).map (Chunk.place C.originAddr C.targetDisp) ∧
      ∀ i ∈ calls, Inside W.remoteMemRegions i := by
  have some_elements := call.some_elements
  have handed := hardwareCalls_row call reports disp key key' settled (n * 8) garbage
  rw [storedLength_eq small, if_neg (by omega)] at handed
  obtain ⟨⟨cache, calls⟩, run, rfl⟩ := Option.map_eq_some_iff.mp handed
  obtain ⟨chunks, inside⟩ := blockCalls_pieces (W := W) (C := C) (a := a) origin
    (call.extent reports key') garbage fun _ => call.covered
  rw [call.start] at chunks inside
  exact ⟨cache, _, run, chunks, inside call.dynamic⟩

omit [DecidableEq ι] reports in
/-- What is handed over of the first bytes of the words is as many bytes. -/
theorem blockCalls_length (a : Args ι) {m : ℕ} (le : m ≤ n * 8) (garbage : ℕ) :
    ((blockCalls D.toDatatypes W a C.targetDisp m garbage [⟨0, 0, m⟩]).map fun i => i.chunk.size).sum = m := by
  unfold blockCalls
  simp only [call.dynamic, if_true]
  cases wholeRegion W.remoteMemRegions C.targetDisp (targetCountExtent D.toDatatypes a) with
  | some r => simp [Chunk.place]
  | none =>
    have inside : Covered W.remoteMemRegions C.targetDisp ⟨0, 0, m⟩ := fun k lt => call.covered k (lt.trans_le le)
    obtain ⟨pieces, split, same, -⟩ := splitBlock_spec inside
    have all : splitBlocks W.remoteMemRegions C.targetDisp [⟨0, 0, m⟩] = some (pieces.map Prod.snd) := by
      simp [splitBlocks, split]
    have enough : ∀ c ∈ [(⟨0, 0, m⟩ : Chunk)], c.size ≤ m := by simp
    have cut := regionsLoop_split (o := a.originAddr) all enough ⟨.null, garbage⟩
    have sizes := congrArg (List.map Chunk.size) cut
    rw [List.map_map] at sizes
    have sum : ((pieces.map Prod.snd).map Chunk.size).sum = m := by
      have length := congrArg List.length same
      simpa [pairs, Chunk.pairs, List.length_flatMap] using length
    refine (congrArg List.sum sizes).trans ?_
    rw [List.map_map]
    exact sum

end Issued

/-- There are no more atomic operations than whole words. -/
theorem length_accumulate8byte_le (op : Op) (calls : List Invocation) :
    (calls.flatMap (accumulate8byte op)).length * 8 ≤ (calls.map fun i => i.chunk.size).sum := by
  induction calls with
  | nil => exact le_rfl
  | cons i calls ih =>
    have here : (accumulate8byte op i).length * 8 ≤ i.chunk.size := by
      simp only [accumulate8byte, List.length_map, List.length_range]
      have le : Int.bmod ((i.chunk.size : ℤ) / 8) 4294967296 ≤ i.chunk.size / 8 := by
        rw [Int.bmod_def]
        split <;> omega
      omega
    rw [List.flatMap_cons, List.length_append, List.map_cons, List.sum_cons]
    omega

/-- The atomic operations of the pieces. -/
theorem atomics_pairs {op : Op} {calls : List Invocation} {cs : List Chunk} {o t : ℤ}
    (chunks : calls.map Invocation.chunk = cs.map (Chunk.place o t)) (small : ∀ c ∈ cs, c.size ≤ 2147483648) :
    (calls.flatMap (accumulate8byte op)).map (fun x => (x.originAddr, x.targetAddr)) =
      (elementPairs 8 cs).map fun p => (o + p.1, t + p.2) := by
  induction cs generalizing calls with
  | nil =>
    obtain rfl := List.map_eq_nil_iff.mp chunks
    rfl
  | cons c cs ih =>
    obtain ⟨i, calls, rfl⟩ := List.exists_cons_of_ne_nil (l := calls) (by rintro rfl; simp at chunks)
    rw [List.map_cons, List.map_cons, List.cons.injEq] at chunks
    obtain ⟨first, rest⟩ := chunks
    have short := small c List.mem_cons_self
    have here : (accumulate8byte op i).map (fun x => (x.originAddr, x.targetAddr)) =
        (c.elements 8).map fun p => (o + p.1, t + p.2) := by
      rw [accumulate8byte_placed first (by omega), Chunk.elements, List.map_map, List.map_map]
      refine List.map_congr_left fun k hk => ?_
      simp only [Function.comp_apply, bmod_word (List.mem_range.mp hk) short]
      rfl
    rw [List.flatMap_cons, List.map_append, here, ih rest fun d hd => small d (List.mem_cons_of_mem _ hd)]
    exact (List.map_append ..).symm

section Call
variable [DecidableEq ι] (call : WordCall W D layout C n) (reports : Reports D)
include call

omit [DecidableEq ι] in
theorem WordCall.count : 1 ≤ C.origin.2 ∧ 1 ≤ C.target.2 := by
  rw [call.origin, call.target]
  exact ⟨Int.ofNat_le.mpr call.some_elements, Int.ofNat_le.mpr call.some_elements⟩

omit [DecidableEq ι] in
theorem WordCall.rounds : total (layout C.target.1 C.target.2) = storedLength (n * 8) := by
  rw [call.target, call.row]
  exact total_single 0 _

omit [DecidableEq ι] in
theorem WordCall.pieces : pairs (cardPieces W C n) = pairs [⟨0, 0, n * 8⟩] := cardPieces_pairs fun _ => call.covered

omit [DecidableEq ι] in
theorem WordCall.size_le {c : Chunk} (small : n * 8 < 2147483648) (hc : c ∈ cardPieces W C n) :
    c.size ≤ 2147483648 :=
  Nat.le_of_lt (Nat.lt_of_le_of_lt (cardPieces_size call.pieces c hc) small)

omit [DecidableEq ι] in
/-- The words are met once each exactly if the pieces are whole. -/
theorem elementPairs_perm_iff : (elementPairs 8 (cardPieces W C n)).Perm
    ((List.range n).map fun e : ℕ => ((e * 8 : ℤ), (e * 8 : ℤ))) ↔ ∀ c ∈ cardPieces W C n, 8 ∣ c.size := by
  have all : (pairs (cardPieces W C n)).length = n * 8 := by
    rw [call.pieces]
    simp [pairs, Chunk.pairs]
  constructor
  · intro perm
    have length := perm.length_eq
    rw [List.length_map, List.length_range] at length
    exact (length_elementPairs_iff (by decide) all).mp length.ge
  · intro whole
    rw [words_of_cut call.pieces whole]

include reports

/-- The atomic operations of the accesses that fit an `int`. -/
theorem issued_eq (settled : Settled layout s.cache) (small : n * 8 < 2147483648) (garbage : ℕ) :
    ∃ atomics, issued W D layout C garbage s = some atomics ∧
      atomics.map (fun x => (x.originAddr, x.targetAddr)) =
        (elementPairs 8 (cardPieces W C n)).map fun p => (C.originAddr + p.1, C.targetDisp + p.2) := by
  have count := call.count
  let a : Args ι :=
    ⟨.put, C.originAddr, C.origin, C.targetRank, C.targetDisp, C.target, anyTag, count.1, count.2⟩
  obtain ⟨cache, calls, run, chunks, -⟩ := hardwareCalls_pieces garbage (a := a) call reports rfl rfl rfl
    rfl settled small
  refine ⟨calls.flatMap (accumulate8byte C.op), ?_, atomics_pairs chunks fun c hc => call.size_le small hc⟩
  rw [issued, dif_pos count.1, dif_pos count.2]
  simp only [call.rounds, storedLength_eq small]
  rw [run, Option.map_some]

/-- There are too few of them for the others. -/
theorem issued_large (settled : Settled layout s.cache) (large : ¬n * 8 < 2147483648) {atomics : List Atomic}
    (issues : issued W D layout C garbage s = some atomics) : atomics.length < n := by
  have count := call.count
  let a : Args ι :=
    ⟨.put, C.originAddr, C.origin, C.targetRank, C.targetDisp, C.target, anyTag, count.1, count.2⟩
  have handed := hardwareCalls_row (a := a) call reports rfl rfl rfl settled (storedLength (n * 8)) garbage
  rw [issued, dif_pos count.1, dif_pos count.2] at issues
  simp only [call.rounds] at issues
  obtain ⟨⟨cache, calls⟩, run, rfl⟩ := Option.map_eq_some_iff.mp issues
  rw [run, Option.map_some] at handed
  split at handed
  · exact absurd handed (Option.some_ne_none _)
  · obtain rfl := Option.some.inj handed
    have short := storedLength_lt (n * 8)
    have bytes := blockCalls_length call a (show storedLength (n * 8) ≤ n * 8 by omega) garbage
    have le := length_accumulate8byte_le C.op
      (blockCalls D.toDatatypes W a C.targetDisp (storedLength (n * 8)) garbage [⟨0, 0, storedLength (n * 8)⟩])
    dsimp only
    omega

theorem issued_perm_iff (settled : Settled layout s.cache) {atomics : List Atomic}
    (issues : issued W D layout C garbage s = some atomics) :
    (atomics.map fun x => (x.originAddr, x.targetAddr)).Perm
      ((List.range n).map fun e : ℕ => (C.originAddr + e * 8, C.targetDisp + e * 8)) ↔ WholePieces W C n := by
  by_cases small : n * 8 < 2147483648
  · rw [WholePieces, and_iff_right small]
    obtain ⟨atomics', issues', at_pairs⟩ := issued_eq call reports settled small garbage
    obtain rfl := Option.some.inj (issues'.symm.trans issues)
    have elements : ((List.range n).map fun e : ℕ => (C.originAddr + e * 8, C.targetDisp + e * 8)) =
        ((List.range n).map fun e : ℕ => ((e * 8 : ℤ), (e * 8 : ℤ))).map fun p => (C.originAddr + p.1, C.targetDisp + p.2) := by
      rw [List.map_map]
      rfl
    have injective : Function.Injective fun p : ℤ × ℤ => (C.originAddr + p.1, C.targetDisp + p.2) := by
      intro p q same
      simpa [Prod.ext_iff] using same
    rw [at_pairs, elements, List.map_perm_map_iff injective, elementPairs_perm_iff call]
  · refine iff_of_false (fun perm => ?_) fun whole => small whole.1
    have few := issued_large call reports settled small issues
    have length := perm.length_eq
    rw [List.length_map, List.length_map, List.length_range] at length
    omega

variable (garbage) in
/-- `foMPI_Accumulate` as a whole. -/
theorem accumulate_carded (settled : Settled layout s.cache) (small : n * 8 < 2147483648) :
    ∃ cache, accumulate M W D layout C garbage s =
      some (.code .success, ⟨carded M W C n s.mem, cache, s.mutex⟩) := by
  have count := call.count
  let a : Args ι :=
    ⟨.put, C.originAddr, C.origin, C.targetRank, C.targetDisp, C.target, anyTag, count.1, count.2⟩
  obtain ⟨cache, calls, run, chunks, inside⟩ := hardwareCalls_pieces garbage (a := a) call reports rfl rfl
    rfl rfl settled small
  have carried : hardware M W D layout C garbage s = some ⟨carded M W C n s.mem, cache, s.mutex⟩ := by
    rw [hardware, dif_pos count]
    simp only [call.rounds, storedLength_eq small]
    change (hardwareCalls D.toDatatypes W a layout C.op (n * 8) garbage s.cache).bind _ = _
    rw [← call.start] at chunks
    rw [run, Option.bind_some, if_pos fun _ => inside]
    dsimp only
    rw [foldl_applyAtomic chunks fun c hc => call.size_le small hc]
    rfl
  refine ⟨cache, ?_⟩
  have some_elements : ¬(C.origin.2 = 0 ∨ C.target.2 = 0) := by omega
  rw [accumulate, if_neg some_elements, carried, call.origin, call.target]
  obtain op | op | op | op := call.op <;> simp [op]

omit [DecidableEq ι] in
/-- As one on whole elements, where the bytes are an `int`. -/
theorem WordCall.elementwise (isInt : n * 8 < 2147483648) :
    Elementwise W D layout { C with result := (D.named (.integer .int64), (n : ℤ)) } (.integer .int64) n := by
  have some_bytes : 0 < n * 8 := by
    have := call.some_elements
    omega
  have row := call.row_small isInt
  have has := HasElements.of_row reports.basic call.size reports.intrinsic row some_bytes
  refine .of_row ?_ (.inl rfl) (by decide) isInt has row call.origin call.target fun _ x hx => ?_
  · obtain op | op | op | op := call.op <;> simp only [op] <;> decide
  · rw [call.target, row, bytes_single] at hx
    obtain ⟨k, hk, rfl⟩ := List.mem_map.mp hx
    simpa using call.covered k (List.mem_range.mp hk)

/-- For every list of regions, count, displacement and contents: the hardware updates each element once and
leaves what the mutex path leaves, exactly if the bytes are an `int` and the regions cut the access into whole
words. -/
theorem touchesAll_iff (settled : Settled layout s.cache) (free : s.mutex = mutexNone) (garbage : ℕ) :
    TouchesAll M W D layout C n garbage s ↔ WholePieces W C n := by
  constructor
  · rintro ⟨atomics, t, issues, perm, -⟩
    exact (issued_perm_iff call reports settled issues).mp perm
  · intro whole
    obtain ⟨small, cut⟩ := whole
    obtain ⟨atomics, issues, -⟩ := issued_eq call reports settled small garbage
    obtain ⟨cache, run⟩ := accumulate_carded (M := M) garbage call reports settled small
    have words := words_of_cut call.pieces cut
    have elementwise := call.elementwise reports small
    obtain ⟨cache', run', -⟩ := accumulateSoftware_eq (M := M) elementwise settled free
    have card : OnCard D { C with result := (D.named (.integer .int64), (n : ℤ)) } :=
      ⟨congrArg Prod.fst call.origin, congrArg Prod.fst call.target, call.op⟩
    have onCard := combined_carded (M := M) elementwise card (.inl call.dynamic) cut s.mem
    have software := combined_accumulate (M := M) elementwise s.mem
    rw [combineInPlace_eq elementwise.computed (by simp [BasicType.expansion])] at software
    have same := onCard.same software
    refine ⟨atomics, _, issues, (issued_perm_iff call reports settled issues).mpr ⟨small, cut⟩, run, fun e lt => ?_,
      fun x out => ?_, _, run', same.elements, same.others⟩
    · have value := carded_apply (M := M) (m := s.mem) words lt
      rw [call.start] at value
      simp only [value]
      obtain op | op | op | op := call.op <;> simp [op, Arith.m4Op]
    · refine carded_frame fun p hp => ?_
      rw [words] at hp
      obtain ⟨e, he, rfl⟩ := List.mem_map.mp hp
      rw [call.start]
      exact out e (List.mem_range.mp he)

end Call

section Examples

/-- Two words at address 4096 of a dynamic window, in two regions of which the first has `first` bytes. -/
def adjoining (first : ℤ) : Win :=
  ⟨⟨true, -1, -1, []⟩, 0, 0, 1, 0, ⟨0, 0⟩, [⟨4096, first⟩, ⟨4096 + first, 16 - first⟩], []⟩

def twoWords : Call BasicType := { elementsCall .sum (.integer .int64) 2 with targetDisp := 4096 }

/-- Regions that adjoin inside of the second word: it gets no atomic operation. -/
theorem touchesAll_fails :
    (issued (adjoining 12) predefined rows twoWords 0 (initially five)).map
      (List.map fun x => (x.originAddr, x.targetAddr)) = some [(0, 4096)] := by
  decide +kernel

theorem adjoining_call : WordCall (adjoining 8) predefined rows twoWords 2 where
  dynamic := rfl
  op := .inl rfl
  some_elements := by decide
  origin := rfl
  target := rfl
  size := rfl
  row := by
    rw [storedLength_eq (by decide)]
    rfl
  covered k lt := by
    have lt : k < 16 := lt
    by_cases first : k < 8
    · exact ⟨⟨4096, 8⟩, by simp [adjoining], by simp [Region.hasByte, twoWords]; omega⟩
    · exact ⟨⟨4104, 8⟩, by simp [adjoining], by simp [Region.hasByte, twoWords]; omega⟩

theorem touchesAll_adjoining : TouchesAll words (adjoining 8) predefined rows twoWords 2 0 (initially five) :=
  (touchesAll_iff adjoining_call predefined_reports (settled_init rows) rfl 0).mpr
    ⟨by decide, by decide +kernel⟩

end Examples

end FoMPI.Combine
