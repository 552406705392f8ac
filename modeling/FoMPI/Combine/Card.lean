import FoMPI.Combine.Fetching

/-!
# Accumulates that the network card carries out

Sums and bitwise operations on `MPI_INT64_T` do not take the mutex path in
`foMPI_Accumulate`. What they leave in the target is a run of atomic operations on the
words of the pieces into which the regions of the target cut the access.
-/
namespace FoMPI.Combine
open FoMPI.Accumulate FoMPI.Comm FoMPI.Dcache FoMPI.Foundation FoMPI.RmaNotify FoMPI.Window
open FoMPI.Notif (anyTag)

universe u

variable {ι V : Type u} {M : Machine V} {W : Win} {D : Types ι} {layout : Layout ι} {C : Call ι} {n : ℕ}
  {s : State ι V} {m : Memory V}

/-- What is known of the two types that may be left to the network card. -/
structure Reports (D : Types ι) : Prop where
  double : D.checkBasicType (D.named .double) = some .double
  basic : D.checkBasicType (D.named (.integer .int64)) = some (.integer .int64)
  intrinsic : D.intrinsic (D.named (.integer .int64)) = none
  extent : D.extent (D.named (.integer .int64)) = 8
  trueExtent : D.trueExtent (D.named (.integer .int64)) = 8

/-- `foMPI_Accumulate` leaves the operation to the network card. -/
def OnCard (D : Types ι) (C : Call ι) : Prop :=
  C.origin.1 = D.named (.integer .int64) ∧ C.target.1 = D.named (.integer .int64) ∧
    (C.op = .sum ∨ C.op = .band ∨ C.op = .bor ∨ C.op = .bxor)

/-- The base address is that of the target, not that of a mapping. -/
def OwnBase (W : Win) (C : Call ι) : Prop :=
  W.locality.dynamic ∨ C.op = .sum ∨ W.locality.onnodeRankGlobalToLocal C.targetRank = -1 ∨
    W.xpmemBase = W.base

/-- The pieces of `n` words that are handed over, relative to the buffers. -/
def cardPieces (W : Win) (C : Call ι) (n : ℕ) : List Chunk :=
  if W.locality.dynamic ∧ wholeRegion W.remoteMemRegions C.targetDisp (n * 8) = none then
    ((splitBlock W.remoteMemRegions C.targetDisp ⟨0, 0, n * 8⟩).getD []).map Prod.snd
  else [⟨0, 0, n * 8⟩]

/-- No region ends inside of a word, as far as the regions are used. -/
def CutAtWords (W : Win) (C : Call ι) (n : ℕ) : Prop := ∀ c ∈ cardPieces W C n, 8 ∣ c.size

/-- The base address in use. -/
def cardStart (W : Win) (C : Call ι) : ℤ :=
  if W.locality.dynamic then C.targetDisp
  else if C.op = .sum ∨ W.locality.onnodeRankGlobalToLocal C.targetRank = -1 then
    W.base + C.targetDisp * W.dispUnit
  else W.xpmemBase + C.targetDisp * W.dispUnit

theorem cardStart_eq_iff : cardStart W C = targetStart W C ↔ OwnBase W C := by
  unfold cardStart targetStart OwnBase
  cases W.locality.dynamic
  · simp only [Bool.false_eq_true, if_false, false_or]
    by_cases own : C.op = .sum ∨ W.locality.onnodeRankGlobalToLocal C.targetRank = -1
    · rw [if_pos own]
      simp only [true_iff]
      exact own.imp_right .inl
    · rw [if_neg own]
      obtain ⟨op, remote⟩ := not_or.mp own
      simp [op, remote]
  · simp

/-- A window that is not dynamic is one piece. -/
theorem cutAtWords_static (static : W.locality.dynamic = false) : CutAtWords W C n := by
  intro c hc
  have one : cardPieces W C n = [⟨0, 0, n * 8⟩] := by simp [cardPieces, static]
  rw [one, List.mem_singleton] at hc
  rw [hc]
  exact Nat.dvd_mul_left 8 n

/-- An atomic operation on the words at offsets from the two buffers. -/
def cardWord (M : Machine V) (W : Win) (C : Call ι) (p : ℤ × ℤ) (m : Memory V) : Memory V :=
  let target : Loc := ⟨.target, cardStart W C + p.2⟩
  match (M.arith (.integer .int64)).m4Op (m ⟨.origin, C.originAddr + p.1⟩) (m target) C.op with
  | some value => m.store target value
  | none => m

/-- What the network card does with the memory. -/
def carded (M : Machine V) (W : Win) (C : Call ι) (n : ℕ) (m : Memory V) : Memory V :=
  runAll (cardWord M W C) (elementPairs 8 (cardPieces W C n)) m

/-- The atomic operations of a piece whose words an `int` can count. -/
theorem accumulate8byte_placed {op : Op} {i : Invocation} {c : Chunk} {o t : ℤ}
    (placed : i.chunk = Chunk.place o t c) (isInt : c.size / 8 < 2147483648) :
    accumulate8byte op i = (List.range (c.size / 8)).map fun k : ℕ =>
      ⟨op, t + (c.targetOffset + Int.bmod (k * 8) 4294967296),
        o + (c.originOffset + Int.bmod (k * 8) 4294967296), i.dstSeg⟩ := by
  have count : (Int.bmod ((c.size : ℤ) / 8) 4294967296).toNat = c.size / 8 := by
    rw [Int.bmod_eq_of_le] <;> omega
  simp only [accumulate8byte, placed, Chunk.place, count, add_assoc]

/-- In a piece of at most 2 GiB the offset of a word is its `int`. -/
theorem bmod_word {k size : ℕ} (inside : k < size / 8) (small : size ≤ 2147483648) :
    Int.bmod ((k : ℤ) * 8) 4294967296 = k * 8 := by
  rw [Int.bmod_eq_of_le] <;> omega

/-- The calls of the atomic operations, as a run over the words of their chunks. -/
theorem foldl_applyAtomic {calls : List Invocation} {cs : List Chunk}
    (chunks : calls.map Invocation.chunk = cs.map (Chunk.place C.originAddr (cardStart W C)))
    (small : ∀ c ∈ cs, c.size ≤ 2147483648) :
    (calls.flatMap (accumulate8byte C.op)).foldl (applyAtomic M) m =
      runAll (cardWord M W C) (elementPairs 8 cs) m := by
  induction cs generalizing calls m with
  | nil =>
    obtain rfl := List.map_eq_nil_iff.mp chunks
    rfl
  | cons c cs ih =>
    obtain ⟨i, calls, rfl⟩ := List.exists_cons_of_ne_nil (l := calls) (by rintro rfl; simp at chunks)
    rw [List.map_cons, List.map_cons, List.cons.injEq] at chunks
    obtain ⟨first, rest⟩ := chunks
    have split : elementPairs 8 (c :: cs) = c.elements 8 ++ elementPairs 8 cs := rfl
    have short := small c List.mem_cons_self
    have words : accumulate8byte C.op i = (c.elements 8).map fun p =>
        ⟨C.op, cardStart W C + p.2, C.originAddr + p.1, i.dstSeg⟩ := by
      rw [accumulate8byte_placed first (by omega), Chunk.elements, List.map_map]
      refine List.map_congr_left fun k hk => ?_
      rw [bmod_word (List.mem_range.mp hk) short]
      rfl
    rw [split, runAll_append, List.flatMap_cons, List.foldl_append, words, List.foldl_map,
      ← ih rest fun d hd => small d (List.mem_cons_of_mem _ hd)]
    rfl

section Call
variable (call : Elementwise W D layout C (.integer .int64) n) (reports : Reports D)
include call

/-- The count that goes with the named type. -/
theorem Elementwise.key_eq {key : Key ι} (has : HasElements D layout (.integer .int64) n key)
    (type : key.1 = D.named (.integer .int64)) : key = (D.named (.integer .int64), (n : ℤ)) := by
  have pos : (n : ℤ) ≠ 0 := by exact_mod_cast call.some_elements.ne'
  have named : (n : ℤ) * D.size (D.named (.integer .int64)) = n * (BasicType.integer .int64).size := call.named.size
  have size := has.size
  rw [type, mul_left_cancel₀ pos named] at size
  have eight : ((BasicType.integer .int64).size : ℤ) ≠ 0 := by decide
  exact Prod.ext type (mul_right_cancel₀ eight size)

omit call in
/-- The pieces make up the words, where the regions hold them. -/
theorem cardPieces_pairs (covered : W.locality.dynamic → Covered W.remoteMemRegions C.targetDisp ⟨0, 0, n * 8⟩) :
    pairs (cardPieces W C n) = pairs [⟨0, 0, n * 8⟩] := by
  unfold cardPieces
  split
  · rename_i several
    obtain ⟨pieces, split, same, -⟩ := splitBlock_spec (covered several.1)
    rw [split, Option.getD_some, same]
    simp [pairs]
  · rfl

omit call in
/-- No piece is longer than the words. -/
theorem cardPieces_size (paired : pairs (cardPieces W C n) = pairs [⟨0, 0, n * 8⟩]) :
    ∀ c ∈ cardPieces W C n, c.size ≤ n * 8 := by
  intro c hc
  have le : c.size ≤ (pairs (cardPieces W C n)).length := by
    have sum : (pairs (cardPieces W C n)).length = ((cardPieces W C n).map Chunk.size).sum := by
      simp [pairs, List.length_flatMap, Chunk.pairs]
    rw [sum]
    exact List.le_sum_of_mem (List.mem_map_of_mem hc)
  rw [paired] at le
  simpa [pairs, Chunk.pairs] using le

theorem Elementwise.covered (row : layout C.target.1 C.target.2 = [⟨0, n * 8⟩]) (dynamic : W.locality.dynamic) :
    Covered W.remoteMemRegions C.targetDisp ⟨0, 0, n * 8⟩ := by
  intro k lt
  have byte := call.attached dynamic k (by
    rw [row, bytes_single]
    exact List.mem_map.mpr ⟨k, List.mem_range.mpr lt, rfl⟩)
  simpa using byte

theorem Elementwise.cardPieces_spec (row : layout C.target.1 C.target.2 = [⟨0, n * 8⟩]) :
    pairs (cardPieces W C n) = pairs [⟨0, 0, n * 8⟩] ∧ ∀ c ∈ cardPieces W C n, c.size < 2147483648 := by
  have paired := cardPieces_pairs (call.covered row)
  exact ⟨paired, fun c hc => (cardPieces_size paired c hc).trans_lt call.isInt⟩

omit call in
/-- The words in one block are cut into the pieces, in the regions of the target. -/
theorem blockCalls_pieces {a : Args ι} (origin : a.originAddr = C.originAddr)
    (extent : targetCountExtent D.toDatatypes a = n * 8) (garbage : ℕ)
    (covered : W.locality.dynamic → Covered W.remoteMemRegions C.targetDisp ⟨0, 0, n * 8⟩) :
    (blockCalls D.toDatatypes W a (cardStart W C) (n * 8) garbage [⟨0, 0, n * 8⟩]).map Invocation.chunk =
        (cardPieces W C n).map (Chunk.place C.originAddr (cardStart W C)) ∧
      (W.locality.dynamic → ∀ i ∈ blockCalls D.toDatatypes W a (cardStart W C) (n * 8) garbage [⟨0, 0, n * 8⟩],
        Inside W.remoteMemRegions i) := by
  unfold blockCalls cardPieces
  cases dynamic : W.locality.dynamic with
  | false => simp [origin]
  | true =>
    have start : cardStart W C = C.targetDisp := by simp [cardStart, dynamic]
    simp only [if_true, true_and, start, extent, true_implies]
    cases whole : wholeRegion W.remoteMemRegions C.targetDisp (n * 8) with
    | some r =>
      have holds := (List.mem_filter.mp (List.mem_of_getLast? whole)).2
      refine ⟨by simp [origin], fun i hi => ?_⟩
      obtain rfl : i = _ := by simpa using hi
      exact ⟨r, wholeRegion_mem whole, rfl, by simpa [Chunk.place] using holds⟩
    | none =>
      have inside := covered dynamic
      obtain ⟨pieces, split, -⟩ := splitBlock_spec inside
      have all : splitBlocks W.remoteMemRegions C.targetDisp [⟨0, 0, n * 8⟩] = some (pieces.map Prod.snd) := by
        simp [splitBlocks, split]
      have enough : ∀ c ∈ [(⟨0, 0, n * 8⟩ : Chunk)], c.size ≤ n * 8 := by simp
      have cut := regionsLoop_split (o := C.originAddr) all enough ⟨.null, garbage⟩
      simp only [if_true, split, Option.getD_some, origin]
      refine ⟨cut, ?_⟩
      exact regionsLoop_inside (n * 8) (by simpa using inside)

include reports
variable [DecidableEq ι] (card : OnCard D C)
include card

/-- The hardware paths of `foMPI_Accumulate` on words. -/
theorem hardware_eq (settled : Settled layout s.cache) (garbage : ℕ) :
    ∃ cache, hardware M W D layout C garbage s = some ⟨carded M W C n s.mem, cache, s.mutex⟩ ∧
      Settled layout cache := by
  obtain ⟨originType, targetType, op⟩ := card
  have origin := call.key_eq call.origin originType
  have target := call.key_eq call.target targetType
  have row : layout C.target.1 C.target.2 = [⟨0, n * 8⟩] := by
    rw [target]
    exact call.row
  have isInt : n * 8 < 2147483648 := call.isInt
  have count : 1 ≤ C.origin.2 ∧ 1 ≤ C.target.2 := ⟨call.origin.count, call.target.count⟩
  let a : Args ι :=
    ⟨.put, C.originAddr, C.origin, C.targetRank, C.targetDisp, C.target, anyTag, count.1, count.2⟩
  have same : a.origin = a.target := origin.trans target.symm
  have start : hardwareOffset W a C.op = cardStart W C := by
    unfold hardwareOffset targetOffsetDmappOnly targetOffset cardStart
    cases dynamic : W.locality.dynamic with
    | true => simp [a]
    | false => by_cases sum : C.op = .sum <;> simp [a, sum]
  have slow : hardwareCalls D.toDatatypes W a layout C.op =
      walk D.toDatatypes W a layout (cardStart W C) none := by
    rw [← start]
    refine hardwareCalls_slow same ?_
    simpa only [a, target] using reports.intrinsic
  obtain ⟨cache, run, settled'⟩ : ∃ cache, s.cache.transfer layout a.origin a.target
      (calls layout a.origin a.target) = some (superpose (calls layout a.origin a.target)
        (layout a.origin.1 a.origin.2) (layout a.target.1 a.target.2), cache) ∧ Settled layout cache :=
    (call.transferable call.origin).pass (call.transferable call.target) settled
  have blocks : superpose (calls layout a.origin a.target) (layout a.origin.1 a.origin.2)
      (layout a.target.1 a.target.2) = [⟨0, 0, n * 8⟩] := by
    rw [same]
    refine (superpose_self _ (Nat.le_add_left _ _)).trans ?_
    simp only [a, row, List.map_cons, List.map_nil]
  rw [blocks] at run
  have extent : targetCountExtent D.toDatatypes a = n * 8 := by
    simp only [targetCountExtent, a, target, reports.extent, reports.trueExtent]
    ring
  obtain ⟨chunks, inside⟩ := blockCalls_pieces (a := a) rfl extent garbage (call.covered row)
  have rounds : total (layout C.target.1 C.target.2) = n * 8 := by simp [row, total]
  have called : hardwareCalls D.toDatatypes W a layout C.op (n * 8) garbage s.cache =
      some (cache, blockCalls D.toDatatypes W a (cardStart W C) (n * 8) garbage [⟨0, 0, n * 8⟩]) := by
    rw [slow, walk, run]
    rfl
  refine ⟨cache, ?_, settled'⟩
  rw [hardware, dif_pos count]
  simp only [rounds]
  change (hardwareCalls D.toDatatypes W a layout C.op (n * 8) garbage s.cache).bind _ = _
  rw [called, Option.bind_some, if_pos inside]
  dsimp only
  rw [foldl_applyAtomic chunks fun c hc => ((call.cardPieces_spec row).2 c hc).le]
  rfl

end Call

section Values

theorem cardWord_frame {x : Loc} {p : ℤ × ℤ} (out : x ≠ ⟨.target, cardStart W C + p.2⟩) (m : Memory V) :
    cardWord M W C p m x = m x := by
  simp only [cardWord]
  cases (M.arith (.integer .int64)).m4Op (m ⟨.origin, C.originAddr + p.1⟩)
    (m ⟨.target, cardStart W C + p.2⟩) C.op with
  | some v => exact Function.update_of_ne out _ _
  | none => rfl

/-- A word that no atomic operation is for stays as it is. -/
theorem carded_frame {x : Loc}
    (out : ∀ p ∈ elementPairs 8 (cardPieces W C n), x ≠ ⟨.target, cardStart W C + p.2⟩) :
    carded M W C n m x = m x :=
  runAll_of_frame (fun p hp m => cardWord_frame (out p hp) m) m

theorem cardWord_apply (p : ℤ × ℤ) : cardWord M W C p m ⟨.target, cardStart W C + p.2⟩ =
    ((M.arith (.integer .int64)).m4Op (m ⟨.origin, C.originAddr + p.1⟩) (m ⟨.target, cardStart W C + p.2⟩)
      C.op).getD (m ⟨.target, cardStart W C + p.2⟩) := by
  simp only [cardWord]
  cases (M.arith (.integer .int64)).m4Op (m ⟨.origin, C.originAddr + p.1⟩)
    (m ⟨.target, cardStart W C + p.2⟩) C.op with
  | some v => exact Function.update_self ..
  | none => rfl

theorem cardWords_footprints : Footprints (fun e : ℕ => cardWord M W C ((e * 8 : ℤ), (e * 8 : ℤ))) (List.range n)
    (fun e => {⟨.target, cardStart W C + e * 8⟩}) {x | x.buffer = .origin} where
  frame e _ s x out := cardWord_frame (p := ((e * 8 : ℤ), (e * 8 : ℤ))) out s
  reads e _ s t own source x hx := by
    obtain rfl : x = ⟨.target, cardStart W C + e * 8⟩ := hx
    have target : s ⟨.target, cardStart W C + e * 8⟩ = t ⟨.target, cardStart W C + e * 8⟩ := own _ rfl
    have origin : s ⟨.origin, C.originAddr + e * 8⟩ = t ⟨.origin, C.originAddr + e * 8⟩ := source _ rfl
    refine (cardWord_apply _).trans (Eq.trans ?_ (cardWord_apply _).symm)
    simp only [target, origin]
  apart e _ x hx := by
    obtain rfl : x = ⟨.target, cardStart W C + e * 8⟩ := hx
    exact fun same => Buffer.noConfusion same

/-- With whole words in all pieces each word is combined once. -/
theorem carded_apply (words : elementPairs 8 (cardPieces W C n) = (List.range n).map fun e : ℕ => ((e * 8 : ℤ), (e * 8 : ℤ)))
    {e : ℕ} (lt : e < n) : carded M W C n m ⟨.target, cardStart W C + e * 8⟩ =
      ((M.arith (.integer .int64)).m4Op (m ⟨.origin, C.originAddr + e * 8⟩) (m ⟨.target, cardStart W C + e * 8⟩)
        C.op).getD (m ⟨.target, cardStart W C + e * 8⟩) := by
  have disjoint : (List.range n).Pairwise fun e e' => ∀ x ∈ ({⟨.target, cardStart W C + e * 8⟩} : Set Loc),
      x ∉ ({⟨.target, cardStart W C + e' * 8⟩} : Set Loc) := by
    refine List.nodup_range.imp fun {e e'} ne => ?_
    rintro x rfl same
    have addr := congrArg Loc.addr same
    simp only at addr
    omega
  rw [carded, words, runAll_map]
  refine ((cardWords_footprints (M := M) (n := n)).runAll_apply disjoint (List.mem_range.mpr lt) rfl m).trans ?_
  exact cardWord_apply _

section Words
variable (paired : pairs (cardPieces W C n) = pairs [⟨0, 0, n * 8⟩])
include paired

theorem words_of_cut (cut : CutAtWords W C n) :
    elementPairs 8 (cardPieces W C n) = (List.range n).map fun e : ℕ => ((e * 8 : ℤ), (e * 8 : ℤ)) := by
  rw [elementPairs_eq (by decide) cut, paired, ← elementPairs_eq (by decide) (by simp)]
  simp [elementPairs, Chunk.elements]

/-- Where every word of the target is met, the address is the right one and no word is cut. -/
theorem own_of_all_met (some_word : 0 < n)
    (met : ∀ e < n, ∃ p ∈ elementPairs 8 (cardPieces W C n), targetStart W C + e * 8 = cardStart W C + p.2) :
    OwnBase W C ∧ CutAtWords W C n := by
  have cut : CutAtWords W C n := by
    have all : (pairs (cardPieces W C n)).length = n * 8 := by
      rw [paired]
      simp [pairs, Chunk.pairs]
    refine (length_elementPairs_iff (by decide) all).mp ?_
    let offsets : List ℤ := (List.range n).map fun e : ℕ => targetStart W C - cardStart W C + e * 8
    have distinct : offsets.Nodup := by
      refine List.Nodup.map (fun e e' same => ?_) List.nodup_range
      have := add_left_cancel same
      omega
    have subset : offsets ⊆ (elementPairs 8 (cardPieces W C n)).map Prod.snd := by
      intro x hx
      obtain ⟨e, he, rfl⟩ := List.mem_map.mp hx
      obtain ⟨p, hp, same⟩ := met e (List.mem_range.mp he)
      exact List.mem_map.mpr ⟨p, hp, by omega⟩
    have le := (distinct.subperm subset).length_le
    simpa [offsets] using le
  refine ⟨cardStart_eq_iff.mp ?_, cut⟩
  have words := words_of_cut paired cut
  obtain ⟨p, hp, first⟩ := met 0 some_word
  obtain ⟨q, hq, last⟩ := met (n - 1) (by omega)
  rw [words] at hp hq
  obtain ⟨e, he, rfl⟩ := List.mem_map.mp hp
  obtain ⟨e', he', rfl⟩ := List.mem_map.mp hq
  have lt := List.mem_range.mp he'
  simp only at first last
  omega

end Words

end Values

end FoMPI.Combine
