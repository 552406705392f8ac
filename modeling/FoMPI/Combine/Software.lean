import FoMPI.Combine.Updates

/-!
# The mutex paths as a whole

Get, operate, put: what `foMPI_Accumulate` and `foMPI_Get_accumulate` leave in the memory
of the target when both take the mutex path, element by element.
-/
namespace FoMPI.Combine
open FoMPI.Accumulate FoMPI.Comm FoMPI.Dcache FoMPI.Foundation FoMPI.RmaNotify FoMPI.Window

universe u

variable {ι V : Type u} {M : Machine V} {W : Win} {D : Types ι} {layout : Layout ι}
  {C : Call ι} {T : BasicType} {n : ℕ} {key : Key ι} {s : State ι V} {m : Memory V}

/-- An element is one block of all its bytes: not `MPI_SHORT_INT`, which is two blocks, nor `MPI_2INT`, of
which the datatype library reports half. -/
def BasicType.OneBlock (T : BasicType) : Prop := T ≠ .shortInt ∧ T ≠ .twoInt

instance (T : BasicType) : Decidable T.OneBlock := inferInstanceAs (Decidable (T ≠ .shortInt ∧ T ≠ .twoInt))

/-- A buffer of `n` elements of a basic type, as the datatype library reports it. -/
structure HasElements (D : Types ι) (layout : Layout ι) (T : BasicType) (n : ℕ) (key : Key ι) : Prop where
  basic : D.checkBasicType key.1 = some T
  count : 1 ≤ key.2
  positive : Positive (layout key.1 key.2)
  whole : Whole T.size (layout key.1 key.2)
  total : total (layout key.1 key.2) = n * T.size
  size : key.2 * D.size key.1 = n * T.size
  isRow : IsRow D.toDatatypes layout key

/-- An operation that is computed, on one element of a basic type or `n` of a type without gaps;
neither the target nor the result overlaps itself, and the target is attached. -/
structure Elementwise (W : Win) (D : Types ι) (layout : Layout ι) (C : Call ι) (T : BasicType) (n : ℕ) : Prop where
  computed : C.op ∈ T.arms
  spaced : T.extent = T.size ∨ n = 1
  oneBlock : T.OneBlock
  some_elements : 0 < n
  isInt : n * T.size < 2147483648
  origin : HasElements D layout T n C.origin
  result : HasElements D layout T n C.result
  target : HasElements D layout T n C.target
  named : HasElements D layout T n (D.named T, n)
  row : layout (D.named T) n = [⟨0, n * T.size⟩]
  targetNodup : (bytes (layout C.target.1 C.target.2)).Nodup
  resultNodup : (bytes (layout C.result.1 C.result.2)).Nodup
  attached : W.locality.dynamic → ∀ x ∈ bytes (layout C.target.1 C.target.2),
    ∃ r ∈ W.remoteMemRegions, r.hasByte (C.targetDisp + x)

/-- The first byte of an element, relative to its buffer. -/
def elementAt (layout : Layout ι) (T : BasicType) (key : Key ι) (e : ℕ) : ℤ :=
  (bytes (layout key.1 key.2)).getD (e * T.size) 0

/-- The elements of the three buffers of the caller and the target. -/
def originLoc (layout : Layout ι) (C : Call ι) (T : BasicType) (e : ℕ) : Loc :=
  ⟨.origin, C.originAddr + elementAt layout T C.origin e⟩

def resultLoc (layout : Layout ι) (C : Call ι) (T : BasicType) (e : ℕ) : Loc :=
  ⟨.result, C.resultAddr + elementAt layout T C.result e⟩

def targetElement (W : Win) (layout : Layout ι) (C : Call ι) (T : BasicType) (e : ℕ) : Loc :=
  ⟨.target, targetStart W C + elementAt layout T C.target e⟩

/-- A get writes to the bytes of its buffer. -/
theorem getLocs_outside {key : Key ι} {near : Buffer} (addr : ℤ) (m : Memory V) {x : Loc}
    (out : ∀ b ∈ bytes (layout key.1 key.2), x ≠ ⟨near, addr + b⟩) :
    copyAll (getLocs W layout C near addr key) m x = m x := by
  refine copyAll_frame _ m fun p hp same => ?_
  obtain ⟨⟨b, b'⟩, mem, rfl⟩ := List.mem_map.mp hp
  exact out b (List.of_mem_zip mem).1 same

theorem getLocs_frame {key : Key ι} {near : Buffer} (addr : ℤ) (m : Memory V) {x : Loc} (other : x.buffer ≠ near) :
    copyAll (getLocs W layout C near addr key) m x = m x :=
  getLocs_outside addr m fun _ _ same => other (congrArg Loc.buffer same)

/-- A put writes to the bytes of the target. -/
theorem putLocs_outside {key : Key ι} {near : Buffer} (addr : ℤ) (m : Memory V) {x : Loc}
    (out : ∀ b ∈ bytes (layout C.target.1 C.target.2), x ≠ ⟨.target, targetStart W C + b⟩) :
    copyAll (putLocs W layout C near addr key) m x = m x := by
  refine copyAll_frame _ m fun p hp same => ?_
  obtain ⟨⟨b, b'⟩, mem, rfl⟩ := List.mem_map.mp hp
  exact out b' (List.of_mem_zip mem).2 same

theorem putLocs_frame {key : Key ι} {near : Buffer} (addr : ℤ) (m : Memory V) {x : Loc} (other : x.buffer ≠ .target) :
    copyAll (putLocs W layout C near addr key) m x = m x :=
  putLocs_outside addr m fun _ _ same => other (congrArg Loc.buffer same)

/-- The count of the buffer, where it is an `int`. -/
theorem elementsInBuffer_of_size (pos : 0 < T.size) (size : C.origin.2 * D.size C.origin.1 = n * T.size)
    (isInt : n * T.size < 2147483648) : elementsInBuffer D C T = n := by
  have bytes : Int.bmod (C.origin.2 * D.size C.origin.1) 4294967296 = (n * T.size : ℕ) := by
    rw [size, ← Nat.cast_mul]
    generalize n * T.size = total at isInt
    rw [Int.bmod_eq_of_le] <;> omega
  rw [elementsInBuffer, bytes, Int.tdiv_eq_ediv_of_nonneg (Int.natCast_nonneg _)]
  push_cast
  exact Int.mul_ediv_cancel n (by exact_mod_cast pos.ne')

namespace HasElements

theorem length (has : HasElements D layout T n key) (pos : 0 < T.size) :
    (elements T.size (layout key.1 key.2)).length = n := by
  have bytes := length_elements has.whole
  rw [has.total] at bytes
  exact Nat.eq_of_mul_eq_mul_right pos bytes

theorem getElem?_elements (has : HasElements D layout T n key) (pos : 0 < T.size) {e : ℕ} (lt : e < n) :
    (elements T.size (layout key.1 key.2))[e]? = some (elementAt layout T key e) := by
  have here : e < (elements T.size (layout key.1 key.2)).length := by rwa [has.length pos]
  have first := bytes_of_elements (f := 0) has.whole (List.getElem?_eq_getElem here) pos
  rw [Nat.add_zero, Nat.cast_zero, add_zero] at first
  rw [List.getElem?_eq_getElem here, elementAt, List.getD_eq_getElem?_getD, first, Option.getD_some]

theorem elements_eq (has : HasElements D layout T n key) (pos : 0 < T.size) :
    elements T.size (layout key.1 key.2) = (List.range n).map (elementAt layout T key) := by
  apply List.ext_getElem?
  intro e
  by_cases lt : e < n
  · simp [has.getElem?_elements pos lt, List.getElem?_range lt]
  · rw [List.getElem?_eq_none (by rw [has.length pos]; omega), List.getElem?_eq_none (by simpa using lt)]

/-- The bytes of an element. -/
theorem byte (has : HasElements D layout T n key) (pos : 0 < T.size) {e f : ℕ} (lt : e < n) (inside : f < T.size) :
    (bytes (layout key.1 key.2))[e * T.size + f]? = some (elementAt layout T key e + f) :=
  bytes_of_elements has.whole (has.getElem?_elements pos lt) inside

/-- Elements of the named type that lie in one block. -/
theorem of_row (basic : D.checkBasicType (D.named T) = some T) (size : D.size (D.named T) = T.size)
    (intrinsic : D.intrinsic (D.named T) = none) (row : layout (D.named T) n = [⟨0, n * T.size⟩])
    (some_bytes : 0 < n * T.size) : HasElements D layout T n (D.named T, (n : ℤ)) where
  basic := basic
  count := Int.ofNat_le.mpr (Nat.pos_of_mul_pos_right some_bytes)
  positive := by simpa [row, Positive] using some_bytes
  whole := by simp [row, Whole]
  total := by simp [row, Foundation.total]
  size := by rw [size]
  isRow k known := by simp [intrinsic] at known

end HasElements

namespace Elementwise

/-- A call without a result buffer on elements that lie in one block on both sides. -/
theorem of_row (computed : C.op ∈ T.arms) (spaced : T.extent = T.size ∨ n = 1) (oneBlock : T.OneBlock)
    (isInt : n * T.size < 2147483648) (has : HasElements D layout T n (D.named T, (n : ℤ)))
    (row : layout (D.named T) n = [⟨0, n * T.size⟩]) (origin : C.origin = (D.named T, (n : ℤ)))
    (target : C.target = (D.named T, (n : ℤ)))
    (attached : W.locality.dynamic → ∀ x ∈ bytes (layout C.target.1 C.target.2),
      ∃ r ∈ W.remoteMemRegions, r.hasByte (C.targetDisp + x)) :
    Elementwise W D layout { C with result := (D.named T, (n : ℤ)) } T n := by
  have nodup : (bytes (layout (D.named T) n)).Nodup := by
    rw [row]
    exact nodup_bytes_single _
  refine ⟨computed, spaced, oneBlock, Int.ofNat_le.mp has.count, isInt, origin ▸ has, has, target ▸ has, has, row,
    ?_, nodup, attached⟩
  rw [target]
  exact nodup

variable (call : Elementwise W D layout C T n)
include call

theorem pos : 0 < T.size := size_pos call.computed

theorem transferable {key : Key ι} (has : HasElements D layout T n key) : Transferable W D layout C key where
  count := has.count
  targetCount := call.target.count
  positive := has.positive
  targetPositive := call.target.positive
  same := has.total.trans call.target.total.symm
  nonempty := by
    rw [has.total]
    exact Nat.mul_pos call.some_elements call.pos
  isInt := by
    rw [has.total]
    exact call.isInt
  row := has.isRow
  targetRow := call.target.isRow
  attached := call.attached

theorem elementsInBuffer_eq : elementsInBuffer D C T = n :=
  elementsInBuffer_of_size call.pos call.origin.size call.isInt

/-- The elements of a buffer and of the target, byte by byte. -/
theorem mem_bytePairs {key : Key ι} (has : HasElements D layout T n key) {e f : ℕ} (lt : e < n) (inside : f < T.size) :
    (elementAt layout T key e + f, elementAt layout T C.target e + f) ∈ bytePairs layout C key := by
  have near := has.byte call.pos lt inside
  have far := call.target.byte call.pos lt inside
  refine List.mem_of_getElem? (i := e * T.size + f) ?_
  rw [bytePairs, List.getElem?_zip_eq_some]
  exact ⟨near, far⟩

/-- In the buffer the elements follow each other. -/
theorem elementAt_named {e : ℕ} (lt : e < n) : elementAt layout T (D.named T, (n : ℤ)) e = e * T.size := by
  have inside : e * T.size < n * T.size := Nat.mul_lt_mul_of_pos_right lt call.pos
  unfold elementAt
  rw [call.row, bytes_single]
  simp [List.getD_eq_getElem?_getD, List.getElem?_range inside]

/-- A get into a buffer that does not overlap itself. -/
theorem got {key : Key ι} (has : HasElements D layout T n key) (distinct : (bytes (layout key.1 key.2)).Nodup)
    {near : Buffer} (local_ : near ≠ .target) (addr : ℤ) (m : Memory V) {e : ℕ} (lt : e < n) :
    fieldsAt T (copyAll (getLocs W layout C near addr key) m) ⟨near, addr + elementAt layout T key e⟩ =
      fieldsAt T m (targetElement W layout C T e) := by
  have same : (bytes (layout key.1 key.2)).length = (bytes (layout C.target.1 C.target.2)).length := by
    rw [length_bytes, length_bytes, has.total, call.target.total]
  refine fieldsAt_congr (fun f hf => ?_) (fields_ne_nil call.computed)
  have inside := fields_lt T f hf
  have mem : ((⟨near, addr + (elementAt layout T key e + f)⟩ : Loc),
      (⟨.target, targetStart W C + (elementAt layout T C.target e + f)⟩ : Loc)) ∈
      getLocs W layout C near addr key := List.mem_map.mpr ⟨_, call.mem_bytePairs has lt inside, rfl⟩
  have apart : ∀ p ∈ getLocs W layout C near addr key, ∀ q ∈ getLocs W layout C near addr key, p.1 ≠ q.2 := by
    intro p hp q hq same
    obtain ⟨p, -, rfl⟩ := List.mem_map.mp hp
    obtain ⟨q, -, rfl⟩ := List.mem_map.mp hq
    exact local_ (congrArg Loc.buffer same)
  have dest : ((getLocs W layout C near addr key).map Prod.fst).Nodup := by
    have image : (getLocs W layout C near addr key).map Prod.fst =
        (bytes (layout key.1 key.2)).map fun x => (⟨near, addr + x⟩ : Loc) := by
      rw [getLocs, List.map_map, bytePairs]
      conv_rhs => rw [← List.map_fst_zip same.le, List.map_map]
      rfl
    rw [image]
    exact distinct.map fun x y eq => by simpa using congrArg Loc.addr eq
  simpa [Loc.shift, targetElement, add_assoc] using copyAll_apply apart (one_source dest) mem m

/-- A put from a buffer. -/
theorem put {key : Key ι} (has : HasElements D layout T n key) {near : Buffer} (local_ : near ≠ .target) (addr : ℤ)
    (m : Memory V) {e : ℕ} (lt : e < n) :
    fieldsAt T (copyAll (putLocs W layout C near addr key) m) (targetElement W layout C T e) =
      fieldsAt T m ⟨near, addr + elementAt layout T key e⟩ := by
  have same : (bytes (layout C.target.1 C.target.2)).length = (bytes (layout key.1 key.2)).length := by
    rw [length_bytes, length_bytes, has.total, call.target.total]
  refine fieldsAt_congr (fun f hf => ?_) (fields_ne_nil call.computed)
  have inside := fields_lt T f hf
  have mem : ((⟨.target, targetStart W C + (elementAt layout T C.target e + f)⟩ : Loc),
      (⟨near, addr + (elementAt layout T key e + f)⟩ : Loc)) ∈ putLocs W layout C near addr key :=
    List.mem_map.mpr ⟨_, call.mem_bytePairs has lt inside, rfl⟩
  have apart : ∀ p ∈ putLocs W layout C near addr key, ∀ q ∈ putLocs W layout C near addr key, p.1 ≠ q.2 := by
    intro p hp q hq same
    obtain ⟨p, -, rfl⟩ := List.mem_map.mp hp
    obtain ⟨q, -, rfl⟩ := List.mem_map.mp hq
    exact local_ (congrArg Loc.buffer same).symm
  have dest : ((putLocs W layout C near addr key).map Prod.fst).Nodup := by
    have image : (putLocs W layout C near addr key).map Prod.fst =
        (bytes (layout C.target.1 C.target.2)).map fun x => (⟨.target, targetStart W C + x⟩ : Loc) := by
      rw [putLocs, List.map_map, bytePairs]
      conv_rhs => rw [← List.map_snd_zip same.le, List.map_map]
      rfl
    rw [image]
    exact call.targetNodup.map fun x y eq => by simpa using congrArg Loc.addr eq
  simpa [Loc.shift, targetElement, add_assoc] using copyAll_apply apart (one_source dest) mem m

/-- The chunks of a pass over two buffers of the elements. -/
theorem chunked {key key' : Key ι} (has : HasElements D layout T n key) (has' : HasElements D layout T n key') :
    Chunked T (superpose (calls layout key key') (layout key.1 key.2) (layout key'.1 key'.2)) ∧
      elementPairs T.size (superpose (calls layout key key') (layout key.1 key.2) (layout key'.1 key'.2)) =
        (List.range n).map fun e => (elementAt layout T key e, elementAt layout T key' e) := by
  have same : total (layout key.1 key.2) = total (layout key'.1 key'.2) := has.total.trans has'.total.symm
  have paired := superpose_pairs _ has.positive has'.positive same (le_refl (calls layout key key'))
  have le_total : ∀ c ∈ superpose (calls layout key key') (layout key.1 key.2) (layout key'.1 key'.2),
      c.size ≤ n * T.size := by
    intro c hc
    have le := size_le_moves .get hc
    have length : ((superpose (calls layout key key') (layout key.1 key.2)
        (layout key'.1 key'.2)).flatMap (moves .get)).length = n * T.size := by
      have map : ∀ cs : List Chunk, (cs.flatMap (moves .get)).length = (pairs cs).length := by
        intro cs
        simp [pairs, moves, List.length_flatMap]
      rw [map, paired, List.length_zip, length_bytes, length_bytes, ← same, Nat.min_self, has.total]
    exact le.trans length.le
  refine ⟨⟨superpose_dvd _ has.whole has'.whole, fun c hc => (le_total c hc).trans_lt call.isInt, fun c hc => ?_⟩, ?_⟩
  · obtain gapless | rfl := call.spaced
    · exact .inl gapless
    · exact .inr (by simpa using le_total c hc)
  · rw [superpose_elements (calls layout key key') call.pos has.whole has'.whole has.positive has'.positive same (le_refl _),
      has.elements_eq call.pos, has'.elements_eq call.pos, List.zip_map']

end Elementwise

/-- The buffer of `foMPI_Accumulate` before it is put. -/
def inPlace (M : Machine V) (W : Win) (D : Types ι) (layout : Layout ι) (C : Call ι) (T : BasicType) (n : ℕ)
    (m : Memory V) : Memory V :=
  runAll (fun e => body M T C.op (slot T C.bufferAddr e) (originLoc layout C T e) (slot T C.bufferAddr e))
    (List.range n) (copyAll (getLocs W layout C .buffer C.bufferAddr (D.named T, n)) m)

/-- The buffer of `foMPI_Get_accumulate` before it is put. -/
def intoBuffer (M : Machine V) (W : Win) (layout : Layout ι) (C : Call ι) (T : BasicType) (n : ℕ)
    (m : Memory V) : Memory V :=
  runAll (fun e => body M T C.op (slot T C.bufferAddr e) (originLoc layout C T e) (resultLoc layout C T e))
    (List.range n) (copyAll (getLocs W layout C .result C.resultAddr C.result) m)

section Paths
variable [DecidableEq ι] (call : Elementwise W D layout C T n)
include call

theorem accumulateSoftware_eq (settled : Settled layout s.cache) (free : s.mutex = mutexNone) :
    ∃ cache, accumulateSoftware M W D layout C T s = some (.code .success,
      ⟨copyAll (putLocs W layout C .buffer C.bufferAddr (D.named T, n)) (inPlace M W D layout C T n s.mem),
        cache, mutexNone⟩) ∧ Settled layout cache := by
  have locked := setWindowMutex_free free
  obtain ⟨cache₁, got, settled₁⟩ := (call.transferable call.named).transfer_eq (s := ⟨s.mem, s.cache, 0⟩)
    settled .get .buffer C.bufferAddr
  obtain ⟨cache₂, pass, settled₂⟩ := (call.transferable call.named).pass (call.transferable call.origin) settled₁
  obtain ⟨chunked, paired⟩ := call.chunked call.named call.origin
  have named : (List.range n).map (fun e => (elementAt layout T (D.named T, (n : ℤ)) e, elementAt layout T C.origin e)) =
      (List.range n).map fun e : ℕ => ((e * T.size : ℤ), elementAt layout T C.origin e) :=
    List.map_congr_left fun e he => by rw [call.elementAt_named (List.mem_range.mp he)]
  have operated := operateInPlace_eq (M := M) (m := copyAll (getLocs W layout C .buffer C.bufferAddr (D.named T, n)) s.mem)
    call.computed chunked (paired.trans named)
  obtain ⟨cache₃, put, settled₃⟩ := (call.transferable call.named).transfer_eq
    (s := ⟨inPlace M W D layout C T n s.mem, cache₂, 0⟩) settled₂ .put .buffer C.bufferAddr
  refine ⟨cache₃, ?_, settled₃⟩
  simp only [accumulateSoftware, locked, call.elementsInBuffer_eq, got, pass, operated, Option.bind_eq_bind,
    Option.bind_some, locsOf]
  have put' := put
  simp only [inPlace, originLoc, locsOf] at put' ⊢
  rw [put']
  rfl

theorem getAccumulateSoftware_eq (settled : Settled layout s.cache) (free : s.mutex = mutexNone) :
    ∃ cache, getAccumulateSoftware M W D layout C s = some (.code .success,
      ⟨copyAll (putLocs W layout C .buffer C.bufferAddr (D.named T, n)) (intoBuffer M W layout C T n s.mem),
        cache, mutexNone⟩) ∧ Settled layout cache := by
  have locked := setWindowMutex_free free
  obtain ⟨noOp, replace⟩ := ne_of_arms call.computed
  obtain ⟨cache₁, got, settled₁⟩ := (call.transferable call.result).transfer_eq (s := ⟨s.mem, s.cache, 0⟩)
    settled .get .result C.resultAddr
  obtain ⟨cache₂, pass, settled₂⟩ := (call.transferable call.result).pass (call.transferable call.origin) settled₁
  obtain ⟨chunked, paired⟩ := call.chunked call.result call.origin
  have operated := operateInto_eq (M := M) (m := copyAll (getLocs W layout C .result C.resultAddr C.result) s.mem)
    call.computed chunked paired
  obtain ⟨cache₃, put, settled₃⟩ := (call.transferable call.named).transfer_eq
    (s := ⟨intoBuffer M W layout C T n s.mem, cache₂, 0⟩) settled₂ .put .buffer C.bufferAddr
  refine ⟨cache₃, ?_, settled₃⟩
  simp only [getAccumulateSoftware, operateAndPut, locked, noOp, replace, if_false, call.origin.basic,
    call.elementsInBuffer_eq, got, pass, operated, Option.bind_eq_bind, Option.bind_some, locsOf]
  have put' := put
  simp only [intoBuffer, originLoc, resultLoc, locsOf] at put' ⊢
  rw [put']
  rfl

end Paths

section Values
variable (call : Elementwise W D layout C T n) {e : ℕ} (lt : e < n)

@[simp] theorem originLoc_buffer (e : ℕ) : (originLoc layout C T e).buffer = .origin := rfl

@[simp] theorem resultLoc_buffer (e : ℕ) : (resultLoc layout C T e).buffer = .result := rfl

include call

/-- The operations write to the buffer only. -/
theorem inPlace_other {x : Loc} (other : x.buffer ≠ .buffer) : inPlace M W D layout C T n m x = m x :=
  (runAll_other call.computed (by simp) (.inr rfl) other).trans (getLocs_frame _ m other)

theorem intoBuffer_other {x : Loc} (other : x.buffer ≠ .buffer) : intoBuffer M W layout C T n m x =
    copyAll (getLocs W layout C .result C.resultAddr C.result) m x :=
  runAll_other call.computed (by simp) (.inl (by simp)) other

include lt

/-- The buffer of `foMPI_Accumulate`. -/
theorem inPlace_slot : fieldsAt T (inPlace M W D layout C T n m) (slot T C.bufferAddr e) =
    combineInPlace M T C.op (fieldsAt T m (originLoc layout C T e))
      (fieldsAt T m (targetElement W layout C T e)) := by
  have distinct : (bytes (layout (D.named T) n)).Nodup := by
    rw [call.row]
    exact nodup_bytes_single _
  have fetched := call.got call.named distinct (by decide : Buffer.buffer ≠ .target) C.bufferAddr m lt
  rw [call.elementAt_named lt] at fetched
  have origin : fieldsAt T (copyAll (getLocs W layout C .buffer C.bufferAddr (D.named T, n)) m)
      (originLoc layout C T e) = fieldsAt T m (originLoc layout C T e) :=
    fieldsAt_congr (fun f _ => getLocs_frame _ m (by simp)) (fields_ne_nil call.computed)
  rw [inPlace, runAll_slot call.computed (by simp) (.inr rfl) lt, body_inPlace call.computed (by simp), origin]
  exact congrArg _ fetched

/-- The buffer of `foMPI_Get_accumulate`. -/
theorem intoBuffer_slot : fieldsAt T (intoBuffer M W layout C T n m) (slot T C.bufferAddr e) =
    combine M T C.op (fieldsAt T m (originLoc layout C T e)) (fieldsAt T m (targetElement W layout C T e)) := by
  have fetched := call.got call.result call.resultNodup (by decide : Buffer.result ≠ .target) C.resultAddr m lt
  have origin : fieldsAt T (copyAll (getLocs W layout C .result C.resultAddr C.result) m)
      (originLoc layout C T e) = fieldsAt T m (originLoc layout C T e) :=
    fieldsAt_congr (fun f _ => getLocs_frame _ m (by simp)) (fields_ne_nil call.computed)
  rw [intoBuffer, runAll_slot call.computed (by simp) (.inl (by simp)) lt,
    body_apart call.computed (by simp) (by simp), origin]
  exact congrArg _ fetched

/-- The target after the put of the buffer. -/
theorem put_target (m : Memory V) :
    fieldsAt T (copyAll (putLocs W layout C .buffer C.bufferAddr (D.named T, n)) m) (targetElement W layout C T e) =
      fieldsAt T m (slot T C.bufferAddr e) := by
  have put := call.put call.named (by decide : Buffer.buffer ≠ .target) C.bufferAddr m lt
  rwa [call.elementAt_named lt] at put

/-- What was in the target is in the result buffer. -/
theorem intoBuffer_result : fieldsAt T (intoBuffer M W layout C T n m) (resultLoc layout C T e) =
    fieldsAt T m (targetElement W layout C T e) :=
  (fieldsAt_congr (fun f _ => intoBuffer_other call (by simp)) (fields_ne_nil call.computed)).trans
    (call.got call.result call.resultNodup (by decide : Buffer.result ≠ .target) C.resultAddr m lt)

end Values

end FoMPI.Combine
