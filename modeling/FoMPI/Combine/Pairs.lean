import FoMPI.Combine.Agreement
import FoMPI.Dcache.Unequal

/-!
# Value and index in the temporary buffer

The mutex path of `foMPI_Accumulate` on the pair types. The buffer is allocated for packed
elements and the elements are counted in packed sizes, while the datatype library and the C
structure have the elements with their gaps.
-/
namespace FoMPI.Combine
open FoMPI.Accumulate FoMPI.Comm FoMPI.Dcache FoMPI.Foundation FoMPI.RmaNotify FoMPI.Window

universe u

/-- `n` elements as the datatype library reports them. It has the size of `MPI_INT` for an `MPI_2INT`. -/
def BasicType.row (T : BasicType) (n : ℕ) : List Block :=
  if T = .twoInt then [⟨0, n * 4⟩]
  else if T.extent = T.size then [⟨0, n * T.size⟩]
  else spread T.blocks T.extent n

/-- Where the loops of `foMPI_RMA_op` combine elements, in the buffer and in the origin. -/
def combinedPairs (T : BasicType) (chunks : List Chunk) : List (ℤ × ℤ) :=
  chunks.flatMap fun c => (List.range (elementCount T c.size)).map fun i : ℕ =>
    (c.originOffset + i * T.extent, c.targetOffset + i * T.extent)

variable {ι V : Type u} {M : Machine V} {W : Win} {D : Types ι} {layout : Layout ι} {C : Call ι} {T : BasicType}
  {n : ℕ} {s : State ι V}

/-- `origin_count * origin_type_size`, an `int`. -/
def allocated (D : Types ι) (C : Call ι) : ℤ := Int.bmod (C.origin.2 * D.size C.origin.1) 4294967296

/-- The bytes of the buffer that the get and the put move, and those that are combined. -/
def bufferBytes (D : Types ι) (layout : Layout ι) (C : Call ι) (T : BasicType) (chunks : List Chunk) : List ℤ :=
  (bytePairs layout C (D.named T, elementsInBuffer D C T)).map Prod.fst ++
    (combinedPairs T chunks).flatMap fun p => (bytes T.blocks).map (p.1 + ·)

/-- The operation loop is a loop over these. -/
theorem operateInPlace_combined (computed : C.op ∈ T.arms) (chunks : List Chunk) (m : Memory V) :
    operateInPlace M C T chunks m = runAll (fun p : ℤ × ℤ =>
      body M T C.op ⟨.buffer, C.bufferAddr + p.1⟩ ⟨.origin, C.originAddr + p.2⟩ ⟨.buffer, C.bufferAddr + p.1⟩)
      (combinedPairs T chunks) m := by
  induction chunks generalizing m with
  | nil => rfl
  | cons c chunks ih =>
    rw [combinedPairs, List.flatMap_cons, runAll_append, runAll_map, ← combinedPairs, ← ih, operateInPlace,
      List.foldl_cons, ← operateInPlace]
    simp only [rmaOp_memory computed, loop, Loc.shift, add_assoc]

variable [DecidableEq ι]

/-- The blocks that `foMPI_Accumulate` walks between its get and its put. -/
def operated (W : Win) (D : Types ι) (layout : Layout ι) (C : Call ι) (T : BasicType) (s : State ι V) :
    Option (List Chunk) :=
  let key : Key ι := (D.named T, elementsInBuffer D C T)
  let walk : Option (List Chunk × GlobInfo ι) := do
    let s ← setWindowMutex s
    let s ← transfer W D layout .get .buffer C.bufferAddr key C s
    s.cache.transfer layout key C.origin (calls layout key C.origin)
  walk.map Prod.fst

/-- A call on `n` pairs of a value and an index. -/
structure PairCall (W : Win) (D : Types ι) (layout : Layout ι) (C : Call ι) (T : BasicType) (n : ℕ) : Prop where
  pair : T.expansion = .pair
  op : C.op = .maxloc ∨ C.op = .minloc
  some_elements : 1 ≤ n
  basic : D.checkBasicType (D.named T) = some T
  size : D.size (D.named T) = T.size
  intrinsic : D.intrinsic (D.named T) = none
  origin : C.origin = (D.named T, (n : ℤ))
  target : C.target = (D.named T, (n : ℤ))
  row : ∀ k : ℕ, 1 ≤ k → k * T.size < 2147483648 → layout (D.named T) k = T.row k
  attached : W.locality.dynamic → ∀ x ∈ bytes (layout C.target.1 C.target.2),
    ∃ r ∈ W.remoteMemRegions, r.hasByte (C.targetDisp + x)

/-- The call combines each pair once, and stays inside of its buffer. -/
def HandlesPairs (M : Machine V) (W : Win) (D : Types ι) (layout : Layout ι) (C : Call ι) (T : BasicType) (n : ℕ)
    (s : State ι V) : Prop :=
  ∃ chunks t, operated W D layout C T s = some chunks ∧
    accumulateSoftware M W D layout C T s = some (.code .success, t) ∧
    (combinedPairs T chunks).Perm ((List.range n).map fun e : ℕ => ((e * T.extent : ℤ), (e * T.extent : ℤ))) ∧
    (∀ e < n, fieldsAt T t.mem ⟨.target, targetStart W C + e * T.extent⟩ =
      combine M T C.op (fieldsAt T s.mem ⟨.origin, C.originAddr + e * T.extent⟩)
        (fieldsAt T s.mem ⟨.target, targetStart W C + e * T.extent⟩)) ∧
    ∀ x ∈ bufferBytes D layout C T chunks, 0 ≤ x ∧ x < allocated D C

omit [DecidableEq ι] in
theorem blocks_eq (oneBlock : T.OneBlock) : T.blocks = [⟨0, T.size⟩] := by
  unfold BasicType.blocks
  split
  · exact absurd rfl oneBlock.1
  · rfl

namespace PairCall
variable (call : PairCall W D layout C T n)
include call

omit [DecidableEq ι]

theorem computed : C.op ∈ T.arms := by
  simp only [BasicType.arms, call.pair, List.mem_cons, List.not_mem_nil, or_false]
  exact call.op

theorem pos : 0 < T.size := size_pos call.computed

/-- One block, if there are no gaps in between or inside. -/
theorem row_eq (oneBlock : T.OneBlock) (spaced : T.extent = T.size ∨ n = 1) (isInt : n * T.size < 2147483648) :
    layout (D.named T) n = [⟨0, n * T.size⟩] := by
  rw [call.row n call.some_elements isInt, BasicType.row, if_neg oneBlock.2]
  obtain gapless | rfl := spaced
  · rw [if_pos gapless]
  · simp [spread, blocks_eq oneBlock]

/-- As one on whole elements; `foMPI_Accumulate` has no result buffer. -/
theorem elementwise (oneBlock : T.OneBlock) (spaced : T.extent = T.size ∨ n = 1) (isInt : n * T.size < 2147483648) :
    Elementwise W D layout { C with result := (D.named T, (n : ℤ)) } T n := by
  have row := call.row_eq oneBlock spaced isInt
  have some_bytes : 0 < n * T.size := Nat.mul_pos call.some_elements call.pos
  have has := HasElements.of_row call.basic call.size call.intrinsic row some_bytes
  exact .of_row call.computed spaced oneBlock isInt has row call.origin call.target call.attached

theorem elementsInBuffer_eq (isInt : n * T.size < 2147483648) : elementsInBuffer D C T = n :=
  elementsInBuffer_of_size call.pos (by rw [call.origin, call.size]) isInt

theorem allocated_eq (isInt : n * T.size < 2147483648) : allocated D C = n * T.size := by
  rw [allocated, call.origin, call.size, ← Nat.cast_mul]
  generalize n * T.size = total at isInt
  rw [Int.bmod_eq_of_le] <;> omega

end PairCall

section Handled
variable (call : PairCall W D layout C T n) (oneBlock : T.OneBlock) (spaced : T.extent = T.size ∨ n = 1)
  (isInt : n * T.size < 2147483648)
include call oneBlock spaced isInt

theorem operated_eq (settled : Settled layout s.cache) (free : s.mutex = mutexNone) :
    operated W D layout C T s = some [⟨0, 0, n * T.size⟩] := by
  have elementwise := call.elementwise oneBlock spaced isInt
  have locked := setWindowMutex_free free
  obtain ⟨cache₁, got, settled₁⟩ := (elementwise.transferable elementwise.named).transfer_eq
    (s := ⟨s.mem, s.cache, 0⟩) settled .get .buffer C.bufferAddr
  obtain ⟨cache₂, pass, -⟩ := (elementwise.transferable elementwise.named).pass
    (elementwise.transferable elementwise.named) settled₁
  have row := call.row_eq oneBlock spaced isInt
  rw [row, superpose_self _ (by simp [calls, row])] at pass
  have got' : transfer W D layout .get .buffer C.bufferAddr (D.named T, (n : ℤ)) C ⟨s.mem, s.cache, 0⟩ =
      some ⟨_, cache₁, 0⟩ := got
  simp only [operated, call.elementsInBuffer_eq isInt, locked, call.origin, Option.bind_eq_bind, Option.bind_some,
    got', pass]
  rfl

omit [DecidableEq ι] oneBlock in
/-- Elements are where packed ones would be. -/
theorem step_eq {e : ℕ} (lt : e < n) : (e * T.size : ℤ) = e * T.extent := by
  obtain gapless | rfl := spaced
  · rw [gapless]
  · obtain rfl := Nat.lt_one_iff.mp lt
    simp

omit [DecidableEq ι] oneBlock spaced in
theorem combinedPairs_eq : combinedPairs T [⟨0, 0, n * T.size⟩] =
    (List.range n).map fun e : ℕ => ((e * T.extent : ℤ), (e * T.extent : ℤ)) := by
  have count : elementCount T (n * T.size) = n := by
    rw [elementCount_eq isInt, Nat.mul_div_cancel n call.pos]
  simp [combinedPairs, count]

omit [DecidableEq ι] in
theorem bufferBytes_inside {x : ℤ} (mem : x ∈ bufferBytes D layout C T [⟨0, 0, n * T.size⟩]) :
    0 ≤ x ∧ x < allocated D C := by
  rw [call.allocated_eq isInt]
  rw [bufferBytes, call.elementsInBuffer_eq isInt, combinedPairs_eq call isInt] at mem
  obtain mem | mem := List.mem_append.mp mem
  · obtain ⟨p, hp, rfl⟩ := List.mem_map.mp mem
    have first := (List.of_mem_zip hp).1
    rw [call.row_eq oneBlock spaced isInt, bytes_single] at first
    obtain ⟨k, hk, eq⟩ := List.mem_map.mp first
    have lt := List.mem_range.mp hk
    rw [← eq]
    exact ⟨by omega, by exact_mod_cast (by omega : k < n * T.size)⟩
  · obtain ⟨p, hp, hx⟩ := List.mem_flatMap.mp mem
    obtain ⟨e, he, rfl⟩ := List.mem_map.mp hp
    obtain ⟨k, hk, rfl⟩ := List.mem_map.mp hx
    have lt := List.mem_range.mp he
    rw [blocks_eq oneBlock, bytes_single] at hk
    obtain ⟨f, hf, rfl⟩ := List.mem_map.mp hk
    have inside := List.mem_range.mp hf
    have fits : e * T.size + f < n * T.size :=
      calc e * T.size + f < e * T.size + T.size := Nat.add_lt_add_left inside _
        _ = (e + 1) * T.size := (Nat.succ_mul e T.size).symm
        _ ≤ n * T.size := Nat.mul_le_mul_right _ lt
    rw [← step_eq call spaced isInt lt]
    change (0 : ℤ) ≤ e * T.size + f ∧ (e * T.size + f : ℤ) < n * T.size
    exact ⟨by exact_mod_cast Nat.zero_le (e * T.size + f), by exact_mod_cast fits⟩

theorem handlesPairs (settled : Settled layout s.cache) (free : s.mutex = mutexNone) :
    HandlesPairs M W D layout C T n s := by
  have elementwise := call.elementwise oneBlock spaced isInt
  obtain ⟨cache, run, -⟩ := accumulateSoftware_eq (M := M) elementwise settled free
  have combined := combined_accumulate (M := M) elementwise s.mem
  refine ⟨_, _, operated_eq call oneBlock spaced isInt settled free, run, ?_, fun e lt => ?_,
    fun x => bufferBytes_inside call oneBlock spaced isInt⟩
  · rw [combinedPairs_eq call isInt]
  · have other : ¬(T.expansion = .fortranComplex ∧ C.op = .prod) := by simp [call.pair]
    have place : elementAt layout T (D.named T, (n : ℤ)) e = e * T.extent := by
      rw [elementwise.elementAt_named lt, step_eq call spaced isInt lt]
    have target : targetElement W layout { C with result := (D.named T, (n : ℤ)) } T e =
        ⟨.target, targetStart W C + e * T.extent⟩ := by
      simp only [targetElement, call.target, place]
      rfl
    have origin : originLoc layout { C with result := (D.named T, (n : ℤ)) } T e =
        ⟨.origin, C.originAddr + e * T.extent⟩ := by
      simp only [originLoc, call.origin, place]
    have element := combined.elements e lt
    rw [combineInPlace_eq call.computed other, target, origin] at element
    exact element

end Handled

section Unhandled

/-- Whatever a get does, it leaves a settled cache. -/
theorem transfer_settled {operation : Operation} {near : Buffer} {addr : ℤ} {key : Key ι} {t : State ι V}
    (settled : Settled layout s.cache) (run : transfer W D layout operation near addr key C s = some t) :
    1 ≤ key.2 ∧ Settled layout t.cache := by
  unfold transfer at run
  split at run
  · rename_i counts
    obtain ⟨⟨cache, net⟩, handled, rfl⟩ := Option.map_eq_some_iff.mp run
    refine ⟨counts.1, ?_⟩
    unfold RmaNotify.communicationAndDatatypeHandling at handled
    split at handled
    · obtain ⟨rfl, -⟩ := Prod.mk.inj (Option.some.inj handled)
      exact settled
    · obtain ⟨⟨blocks, cache'⟩, walked, handled⟩ := Option.bind_eq_some_iff.mp handled
      obtain ⟨pieces, -, eq⟩ := Option.map_eq_some_iff.mp handled
      obtain ⟨rfl, -⟩ := Prod.mk.inj eq
      obtain ⟨-, good, rests⟩ := transfer_bounded settled.good settled.rests walked
      exact ⟨good, rests⟩
  · contradiction

omit [DecidableEq ι] in
/-- No more elements are combined than the chunks have bytes for. -/
theorem length_combinedPairs (chunks : List Chunk) :
    (combinedPairs T chunks).length * T.size ≤ (chunks.map Chunk.size).sum := by
  induction chunks with
  | nil => simp [combinedPairs]
  | cons c chunks ih =>
    have count : elementCount T c.size ≤ c.size / T.size := by
      unfold elementCount
      rw [← Int.natCast_ediv]
      generalize c.size / T.size = quotient
      rw [Int.bmod_def]
      split <;> omega
    have split : (combinedPairs T (c :: chunks)).length = elementCount T c.size + (combinedPairs T chunks).length := by
      simp [combinedPairs]
    rw [split, List.map_cons, List.sum_cons, Nat.add_mul]
    exact Nat.add_le_add ((Nat.mul_le_mul_right _ count).trans (Nat.div_mul_le_self _ _)) ih

omit [DecidableEq ι] in
theorem total_row_le (T : BasicType) (k : ℕ) : total (T.row k) ≤ k * T.size := by
  have blocks : total T.blocks = T.size := by
    unfold BasicType.blocks
    split <;> simp [total, BasicType.size]
  unfold BasicType.row
  split
  · rename_i two
    rw [total_single, two]
    exact Nat.mul_le_mul_left k (by decide)
  · split
    · rw [total_single]
    · rw [total_spread, blocks]

omit [DecidableEq ι] in
/-- The elements of the buffer have less bytes than an `int` can count. -/
theorem elementsInBuffer_lt (some_elements : 1 ≤ elementsInBuffer D C T) :
    elementsInBuffer D C T * T.size < 2147483648 := by
  unfold elementsInBuffer at some_elements ⊢
  have int : Int.bmod (C.origin.2 * D.size C.origin.1) 4294967296 < 2147483648 := by
    rw [Int.bmod_def]
    split <;> omega
  generalize Int.bmod (C.origin.2 * D.size C.origin.1) 4294967296 = bytes at some_elements int ⊢
  by_cases nonneg : 0 ≤ bytes
  · rw [Int.tdiv_eq_ediv_of_nonneg nonneg] at some_elements ⊢
    obtain zero | pos := Nat.eq_zero_or_pos T.size
    · simp [zero]
    · exact (Int.ediv_mul_le bytes (by omega)).trans_lt int
  · have opposite : 0 ≤ (-bytes).tdiv T.size := Int.tdiv_nonneg (by omega) (Int.natCast_nonneg _)
    rw [Int.neg_tdiv] at opposite
    omega

omit [DecidableEq ι] in
theorem mem_bytes_spread {bs : List Block} {extent e k : ℕ} {b : Block} (lt : e < n) (mem : b ∈ bs)
    (inside : k < b.blocklen) : (e * extent + b.displ + k : ℤ) ∈ bytes (spread bs extent n) := by
  refine List.mem_flatMap.mpr ⟨⟨e * extent + b.displ, b.blocklen⟩, ?_, ?_⟩
  · exact List.mem_flatMap.mpr ⟨e, List.mem_range.mpr lt, List.mem_map.mpr ⟨b, mem, rfl⟩⟩
  · exact List.mem_map.mpr ⟨k, List.mem_range.mpr inside, rfl⟩

variable (call : PairCall W D layout C T n)
include call

/-- There are no more pairs combined than the layout of the buffer has bytes for. -/
theorem combined_le (settled : Settled layout s.cache) {chunks : List Chunk}
    (ran : operated W D layout C T s = some chunks) : ∃ k : ℕ, 1 ≤ k ∧ elementsInBuffer D C T = k ∧
      k * T.size < 2147483648 ∧ (combinedPairs T chunks).length * T.size ≤ total (T.row k) := by
  obtain ⟨⟨chunks', cache⟩, run, eq⟩ := Option.map_eq_some_iff.mp ran
  obtain ⟨s₁, locked, run₁⟩ := Option.bind_eq_some_iff.mp run
  obtain ⟨s₂, got, walked⟩ := Option.bind_eq_some_iff.mp run₁
  obtain rfl : chunks' = chunks := eq
  have settled₁ : Settled layout s₁.cache := by
    unfold setWindowMutex at locked
    split at locked
    · obtain rfl := Option.some.inj locked
      exact settled
    · contradiction
  obtain ⟨some_elements, settled₂⟩ := transfer_settled settled₁ got
  have few := elementsInBuffer_lt some_elements
  change 1 ≤ elementsInBuffer D C T at some_elements
  obtain ⟨k, count⟩ := Int.eq_ofNat_of_zero_le (by omega : 0 ≤ elementsInBuffer D C T)
  rw [count] at some_elements few
  have positive : 1 ≤ k := by exact_mod_cast some_elements
  have few : k * T.size < 2147483648 := by exact_mod_cast few
  have bounded := (transfer_bounded settled₂.good settled₂.rests walked).1
  rw [count, call.row k positive few] at bounded
  exact ⟨k, positive, count, few, (length_combinedPairs (T := T) chunks').trans bounded⟩

/-- A count that is no `int` leaves out elements. -/
theorem not_handlesPairs_of_overflow (settled : Settled layout s.cache) (overflow : 2147483648 ≤ n * T.size) :
    ¬HandlesPairs M W D layout C T n s := by
  rintro ⟨chunks, t, walked, -, perm, -⟩
  obtain ⟨k, -, -, few, bounded⟩ := combined_le call settled walked
  have row := total_row_le T k
  rw [perm.length_eq, List.length_map, List.length_range] at bounded
  omega

/-- Of `MPI_2INT` half of the bytes are fetched, which are those of too few pairs. -/
theorem not_handlesPairs_of_twoInt (settled : Settled layout s.cache) (isInt : n * T.size < 2147483648)
    (two : T = .twoInt) : ¬HandlesPairs M W D layout C T n s := by
  rintro ⟨chunks, t, walked, -, perm, -⟩
  obtain ⟨k, -, count, -, bounded⟩ := combined_le call settled walked
  have same : (k : ℤ) = n := count.symm.trans (call.elementsInBuffer_eq isInt)
  have some_elements := call.some_elements
  rw [perm.length_eq, List.length_map, List.length_range, BasicType.row, if_pos two, total_single, two] at bounded
  simp only [BasicType.size] at bounded
  omega

/-- With gaps the last byte of the last element is behind the end of the buffer. -/
theorem not_handlesPairs_of_gap (isInt : n * T.size < 2147483648) (gap : T.extent ≠ T.size)
    (some_gap : T = .shortInt ∨ n ≠ 1) : ¬HandlesPairs M W D layout C T n s := by
  rintro ⟨chunks, t, -, -, -, -, inside⟩
  have some_elements := call.some_elements
  have pair := call.pair
  obtain ⟨b, k, mem, lt, out⟩ : ∃ (b : Block) (k : ℕ), b ∈ T.blocks ∧ k < b.blocklen ∧
      (n * T.size : ℤ) ≤ (n - 1 : ℕ) * T.extent + b.displ + k := by
    cases T with
    | shortInt =>
      refine ⟨⟨4, 4⟩, 3, by simp [BasicType.blocks], by decide, ?_⟩
      simp only [BasicType.size, BasicType.extent]
      omega
    | doubleInt | longInt =>
      have two : n ≠ 1 := some_gap.resolve_left (by decide)
      refine ⟨⟨0, 12⟩, 11, by simp [BasicType.blocks, BasicType.size], by decide, ?_⟩
      simp only [BasicType.size, BasicType.extent]
      omega
    | longDoubleInt =>
      have two : n ≠ 1 := some_gap.resolve_left (by decide)
      refine ⟨⟨0, 20⟩, 19, by simp [BasicType.blocks, BasicType.size], by decide, ?_⟩
      simp only [BasicType.size, BasicType.extent]
      omega
    | integer T => cases T <;> contradiction
    | _ => exact absurd rfl gap
  have last : ((n - 1 : ℕ) * T.extent + b.displ + k : ℤ) ∈ bytes (layout (D.named T) n) := by
    have whole : T ≠ .twoInt := by
      rintro rfl
      exact gap rfl
    rw [call.row n some_elements isInt, BasicType.row, if_neg whole, if_neg gap]
    exact mem_bytes_spread (by omega) mem lt
  have moved : ((n - 1 : ℕ) * T.extent + b.displ + k : ℤ) ∈ bufferBytes D layout C T chunks := by
    refine List.mem_append_left _ ?_
    rw [call.elementsInBuffer_eq isInt, bytePairs, call.target, List.map_fst_zip le_rfl]
    exact last
  have below := (inside _ moved).2
  rw [call.allocated_eq isInt] at below
  omega

end Unhandled

/-- For every pair type, count and contents: each pair is combined once, inside of the buffer, exactly if an
element is one block, more than one has no gaps, and the bytes are an `int`. -/
theorem handlesPairs_iff (call : PairCall W D layout C T n) (settled : Settled layout s.cache)
    (free : s.mutex = mutexNone) : HandlesPairs M W D layout C T n s ↔
      T.OneBlock ∧ (T.extent = T.size ∨ n = 1) ∧ n * T.size < 2147483648 := by
  constructor
  · intro handles
    have isInt : n * T.size < 2147483648 := by
      by_contra overflow
      exact not_handlesPairs_of_overflow call settled (Nat.le_of_not_lt overflow) handles
    refine ⟨⟨?_, fun two => not_handlesPairs_of_twoInt call settled isInt two handles⟩, ?_, isInt⟩
    · rintro rfl
      exact not_handlesPairs_of_gap call isInt (by decide) (.inl rfl) handles
    · by_contra gaps
      rw [not_or] at gaps
      exact not_handlesPairs_of_gap call isInt gaps.1 (.inr gaps.2) handles
  · rintro ⟨oneBlock, spaced, isInt⟩
    exact handlesPairs call oneBlock spaced isInt settled free

section Examples

/-- The predefined types with their gaps. -/
def typemaps : Layout BasicType := fun T n => T.row n.toNat

/-- Two elements of `MPI_DOUBLE_INT` reach byte 27 of 24; of `MPI_SHORT_INT` nothing is combined. -/
theorem handlesPairs_fails :
    ¬HandlesPairs words (remote 16) predefined typemaps (elementsCall .maxloc .doubleInt 2) .doubleInt 2
      (initially five) ∧
    operated (remote 8) predefined typemaps (elementsCall .maxloc .shortInt 1) .shortInt (initially five) =
        some [⟨0, 0, 2⟩, ⟨4, 4, 4⟩] ∧
      combinedPairs .shortInt [⟨0, 0, 2⟩, ⟨4, 4, 4⟩] = [] := by
  refine ⟨?_, by decide +kernel, by decide +kernel⟩
  rintro ⟨chunks, t, walked, -, -, -, inside⟩
  have blocks : operated (remote 16) predefined typemaps (elementsCall .maxloc .doubleInt 2) .doubleInt
      (initially five) = some [⟨0, 0, 12⟩, ⟨16, 16, 12⟩] := by
    decide +kernel
  obtain rfl := Option.some.inj (blocks.symm.trans walked)
  have below := (inside 27 (by decide +kernel)).2
  have bytes : allocated predefined (elementsCall .maxloc .doubleInt 2) = 24 := by decide
  omega

theorem floatInt_call : PairCall (remote 8) predefined typemaps (elementsCall .maxloc .floatInt 3) .floatInt 3 where
  pair := rfl
  op := .inl rfl
  some_elements := by decide
  basic := rfl
  size := rfl
  intrinsic := rfl
  origin := rfl
  target := rfl
  row _ _ _ := rfl
  attached dynamic := by simp [remote] at dynamic

theorem handlesPairs_floatInt :
    HandlesPairs words (remote 8) predefined typemaps (elementsCall .maxloc .floatInt 3) .floatInt 3 (initially five) :=
  (handlesPairs_iff floatInt_call (settled_init typemaps) rfl).mpr ⟨by decide, by decide, by decide⟩

end Examples

end FoMPI.Combine
