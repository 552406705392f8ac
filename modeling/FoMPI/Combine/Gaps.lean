import FoMPI.Combine.Software

/-!
# Pairs with gaps

The elements of four of the pair types are longer than what they hold. The buffer that
`foMPI_Get_accumulate` fills without the gaps is put with them, so that memory from
`_foMPI_ALLOC` that was never written reaches the target.
-/
namespace FoMPI.Combine
open FoMPI.Accumulate FoMPI.Comm FoMPI.Dcache FoMPI.Foundation FoMPI.RmaNotify FoMPI.Window

universe u

/-- What an element consists of. -/
def BasicType.blocks : BasicType → List Block
  | .shortInt => [⟨0, 2⟩, ⟨4, 4⟩]
  | T => [⟨0, T.size⟩]

/-- Blocks repeated with an extent. -/
def spread (bs : List Block) (extent n : ℕ) : List Block :=
  (List.range n).flatMap fun e : ℕ => bs.map fun b => ⟨e * extent + b.displ, b.blocklen⟩

theorem total_spread (bs : List Block) (extent n : ℕ) : total (spread bs extent n) = n * total bs := by
  have one (e : ℕ) : total (bs.map fun b => ⟨e * extent + b.displ, b.blocklen⟩) = total bs := by
    simp [total, List.map_map, Function.comp_def]
  have split (as cs : List Block) : total (as ++ cs) = total as + total cs := by
    simp [total]
  induction n with
  | zero => simp [spread, total]
  | succ n ih =>
    have last : spread bs extent (n + 1) =
        spread bs extent n ++ bs.map fun b => ⟨n * extent + b.displ, b.blocklen⟩ := by
      simp [spread, List.range_succ]
    rw [last, split, ih, one, Nat.succ_mul]

theorem positive_spread {bs : List Block} (positive : Positive bs) (extent n : ℕ) : Positive (spread bs extent n) := by
  intro c hc
  obtain ⟨e, -, hc⟩ := List.mem_flatMap.mp hc
  obtain ⟨b, hb, rfl⟩ := List.mem_map.mp hc
  exact positive b hb

variable {ι V : Type u} {M : Machine V} {W : Win} {D : Types ι} {layout : Layout ι} {C : Call ι} {T : BasicType} {n : ℕ}

/-- An operation on elements that have gaps in between or inside. -/
structure Spread (W : Win) (D : Types ι) (layout : Layout ι) (C : Call ι) (T : BasicType) (n : ℕ) : Prop where
  computed : C.op ∈ T.arms
  gaps : T = .shortInt ∧ 1 ≤ n ∨ (T = .doubleInt ∨ T = .longInt ∨ T = .longDoubleInt) ∧ 2 ≤ n
  isInt : n * T.size < 2147483648
  basic : D.checkBasicType (D.named T) = some T
  size : D.size (D.named T) = T.size
  intrinsic : D.intrinsic (D.named T) = none
  origin : C.origin = (D.named T, (n : ℤ))
  result : C.result = (D.named T, (n : ℤ))
  target : C.target = (D.named T, (n : ℤ))
  row : layout (D.named T) n = spread T.blocks T.extent n
  attached : W.locality.dynamic → ∀ x ∈ bytes (layout C.target.1 C.target.2),
    ∃ r ∈ W.remoteMemRegions, r.hasByte (C.targetDisp + x)

/-- The element that is read from where nothing was written. -/
def BasicType.hole (T : BasicType) : ℕ := if T = .shortInt then 0 else 1

namespace Spread
variable (call : Spread W D layout C T n)
include call

theorem pair : T.expansion = .pair := by
  obtain ⟨rfl, -⟩ | ⟨rfl | rfl | rfl, -⟩ := call.gaps <;> rfl

theorem some_elements : 1 ≤ n := by
  obtain ⟨-, le⟩ | ⟨-, le⟩ := call.gaps <;> omega

theorem transferable : Transferable W D layout C (D.named T, n) where
  count := Int.ofNat_le.mpr call.some_elements
  targetCount := by
    rw [call.target]
    exact Int.ofNat_le.mpr call.some_elements
  positive := by
    rw [call.row]
    refine positive_spread ?_ _ _
    obtain ⟨rfl, -⟩ | ⟨rfl | rfl | rfl, -⟩ := call.gaps <;> simp [Positive, BasicType.blocks, BasicType.size]
  targetPositive := by
    rw [call.target, call.row]
    refine positive_spread ?_ _ _
    obtain ⟨rfl, -⟩ | ⟨rfl | rfl | rfl, -⟩ := call.gaps <;> simp [Positive, BasicType.blocks, BasicType.size]
  same := by rw [call.target]
  nonempty := by
    rw [call.row, total_spread]
    refine Nat.mul_pos call.some_elements ?_
    obtain ⟨rfl, -⟩ | ⟨rfl | rfl | rfl, -⟩ := call.gaps <;> decide
  isInt := by
    have size : total T.blocks = T.size := by
      obtain ⟨rfl, -⟩ | ⟨rfl | rfl | rfl, -⟩ := call.gaps <;> rfl
    rw [call.row, total_spread, size]
    exact call.isInt
  row k intrinsic := by simp [call.intrinsic] at intrinsic
  targetRow k intrinsic := by simp [call.target, call.intrinsic] at intrinsic
  attached := call.attached

/-- The first byte of that element. -/
theorem hole_mem : T.hole < n ∧ elementAt layout T (D.named T, n) T.hole = T.hole * T.extent ∧
    ((T.hole * T.extent : ℕ) : ℤ) ∈ bytes (layout (D.named T) n) := by
  rw [elementAt, call.row]
  obtain ⟨rfl, le⟩ | ⟨type, le⟩ := call.gaps
  · obtain ⟨k, rfl⟩ := Nat.exists_eq_add_of_le' le
    simp [BasicType.hole, spread, BasicType.blocks, List.range_succ_eq_map, bytes, Block.bytes]
  · obtain ⟨k, rfl⟩ := Nat.exists_eq_add_of_le' le
    obtain rfl | rfl | rfl := type <;>
      simp [BasicType.hole, spread, BasicType.blocks, List.range_succ_eq_map, bytes, Block.bytes, BasicType.size,
        BasicType.extent]

theorem pos : 0 < T.size := size_pos call.computed

theorem elementsInBuffer_eq : elementsInBuffer D C T = n :=
  elementsInBuffer_of_size call.pos (by rw [call.origin, call.size]) call.isInt

end Spread

section Fixed
variable {op : Op} {p3 p1 p2 : Loc} {m : Memory V}

/-- Where both arguments and the result are the same pair of one value, nothing changes. -/
theorem body_fixed (pair : T.expansion = .pair) {v : V} (first : m p1 = v ∧ m (p1.shift T.second) = v)
    (second : m p2 = v ∧ m (p2.shift T.second) = v) (result : m p3 = v ∧ m (p3.shift T.second) = v) :
    body M T op p3 p1 p2 m = m := by
  obtain ⟨q, which, run, -⟩ := pairBody_eq M op p3 p1 p2 m pair
  have here : m q = v ∧ m (q.shift T.second) = v := by
    obtain rfl | rfl := which
    · exact first
    · exact second
  have kept : m.store p3 (m q) = m := by
    rw [here.1, ← result.1]
    exact Function.update_eq_self ..
  rw [run, copyPair, kept, here.2, ← result.2]
  exact Function.update_eq_self ..

theorem rmaOp_const (computed : op ∈ T.arms) (pair : T.expansion = .pair) (v : V) (count : ℕ) :
    (rmaOp M T p3 p1 p2 (fun _ => v) op count).1 = fun _ => v := by
  rw [rmaOp_memory computed]
  exact runAll_fixed fun _ _ => body_fixed pair ⟨rfl, rfl⟩ ⟨rfl, rfl⟩ ⟨rfl, rfl⟩

theorem operateInPlace_const (computed : C.op ∈ T.arms) (pair : T.expansion = .pair) (v : V) (cs : List Chunk) :
    operateInPlace M C T cs (fun _ => v) = fun _ => v := by
  unfold operateInPlace
  induction cs with
  | nil => rfl
  | cons c cs ih => rw [List.foldl_cons, rmaOp_const computed pair v, ih]

end Fixed

/-- One value everywhere, but for what the buffer holds where it is not written. -/
def flawed (C : Call ι) (T : BasicType) (v w : V) : Memory V :=
  Function.update (fun _ => v) ⟨.buffer, C.bufferAddr + (T.hole * T.extent : ℕ)⟩ w

section Flawed
variable {v w : V}

theorem flawed_other {x : Loc} (other : x ≠ ⟨.buffer, C.bufferAddr + (T.hole * T.extent : ℕ)⟩) : flawed C T v w x = v :=
  Function.update_of_ne other _ _

theorem flawed_of_buffer {x : Loc} (other : x.buffer ≠ .buffer) : flawed C T v w x = v :=
  flawed_other fun same => other (congrArg Loc.buffer same)

/-- In blocks that are shorter than an element nothing is computed. -/
theorem operateInto_short (computed : C.op ∈ T.arms) (isInt : T.size < 2147483648) {cs : List Chunk}
    (short : ∀ c ∈ cs, c.size < T.size) (bufferPtr : ℤ) (m : Memory V) : operateInto M C T bufferPtr cs m = m := by
  induction cs generalizing bufferPtr with
  | nil => rfl
  | cons c cs ih =>
    have first := short c List.mem_cons_self
    have none : elementCount T c.size = 0 := by
      rw [elementCount_eq (first.trans isInt), Nat.div_eq_of_lt first]
    rw [operateInto, none, rmaOp_memory computed]
    exact ih (fun d hd => short d (List.mem_cons_of_mem _ hd)) _

/-- Elements that follow each other without their gaps never meet that address. -/
theorem operateInto_flawed (computed : C.op ∈ T.arms) (type : T = .doubleInt ∨ T = .longInt ∨ T = .longDoubleInt)
    {cs : List Chunk} (whole : ∀ c ∈ cs, c.size = T.size) (k : ℕ) :
    operateInto M C T (C.bufferAddr + (k * T.size : ℕ)) cs (flawed C T v w) = flawed C T v w := by
  have pair : T.expansion = .pair := by obtain rfl | rfl | rfl := type <;> rfl
  have hole : T.hole = 1 := by obtain rfl | rfl | rfl := type <;> rfl
  have isInt : T.size < 2147483648 := by obtain rfl | rfl | rfl := type <;> decide
  have missed (k f : ℕ) (field : f = 0 ∨ f = T.second) : (⟨.buffer, C.bufferAddr + (k * T.size : ℕ) + f⟩ : Loc) ≠
      ⟨.buffer, C.bufferAddr + (T.hole * T.extent : ℕ)⟩ := by
    intro same
    have addr := congrArg Loc.addr same
    rw [hole] at addr
    obtain rfl | rfl | rfl := type <;> obtain rfl | rfl := field <;>
      simp only [BasicType.extent, BasicType.size, BasicType.second] at addr <;> omega
  induction cs generalizing k with
  | nil => rfl
  | cons c cs ih =>
    have size := whole c List.mem_cons_self
    have one : elementCount T c.size = 1 := by
      rw [size, elementCount_eq isInt, Nat.div_self (size_pos computed)]
    have next : C.bufferAddr + (k * T.size : ℕ) + c.size = C.bufferAddr + ((k + 1) * T.size : ℕ) := by
      rw [size, Nat.succ_mul]
      push_cast
      ring
    have kept : (rmaOp M T ⟨.buffer, C.bufferAddr + (k * T.size : ℕ)⟩ ⟨.origin, C.originAddr + c.targetOffset⟩
        ⟨.result, C.resultAddr + c.originOffset⟩ (flawed C T v w) C.op 1).1 = flawed C T v w := by
      rw [rmaOp_memory computed]
      refine runAll_fixed fun i hi => ?_
      obtain rfl := Nat.lt_one_iff.mp (List.mem_range.mp hi)
      simp only [Nat.cast_zero, zero_mul]
      have zero (p : Loc) : p.shift 0 = p := shift_zero p
      rw [zero, zero, zero]
      refine body_fixed pair (v := v) ⟨flawed_of_buffer (by simp), flawed_of_buffer (by simp)⟩
        ⟨flawed_of_buffer (by simp), flawed_of_buffer (by simp)⟩ ⟨?_, flawed_other (missed k T.second (.inr rfl))⟩
      have first := missed k 0 (.inl rfl)
      rw [Nat.cast_zero, add_zero] at first
      exact flawed_other first
    rw [operateInto, one, kept, next]
    exact ih (fun d hd => whole d (List.mem_cons_of_mem _ hd)) (k + 1)

variable (call : Spread W D layout C T n)
include call

theorem Spread.operateInto_blocks : operateInto M C T C.bufferAddr
    ((layout (D.named T) n).map fun b => ⟨b.displ, b.displ, b.blocklen⟩) (flawed C T v w) = flawed C T v w := by
  have blocks : ∀ c ∈ (layout (D.named T) n).map fun b => (⟨b.displ, b.displ, b.blocklen⟩ : Chunk),
      ∃ b ∈ T.blocks, c.size = b.blocklen := by
    intro c hc
    obtain ⟨b, hb, rfl⟩ := List.mem_map.mp hc
    rw [call.row] at hb
    obtain ⟨e, -, hb⟩ := List.mem_flatMap.mp hb
    obtain ⟨b', hb', rfl⟩ := List.mem_map.mp hb
    exact ⟨b', hb', rfl⟩
  obtain ⟨rfl, -⟩ | ⟨type, -⟩ := call.gaps
  · refine operateInto_short call.computed (by decide) (fun c hc => ?_) _ _
    obtain ⟨b, hb, size⟩ := blocks c hc
    obtain rfl | rfl : b = ⟨0, 2⟩ ∨ b = ⟨4, 4⟩ := by simpa [BasicType.blocks] using hb
    · rw [size]
      decide
    · rw [size]
      decide
  · have whole : ∀ c ∈ (layout (D.named T) n).map fun b => (⟨b.displ, b.displ, b.blocklen⟩ : Chunk),
        c.size = T.size := by
      intro c hc
      obtain ⟨b, hb, size⟩ := blocks c hc
      rw [size]
      obtain rfl | rfl | rfl := type <;> rw [List.mem_singleton.mp hb]
    have start := operateInto_flawed (M := M) (v := v) (w := w) call.computed type whole 0
    simpa using start

/-- The buffer has its bytes where the target has them. -/
theorem Spread.diagonal {p : ℤ × ℤ} (hp : p ∈ bytePairs layout C (D.named T, n)) : p.1 = p.2 := by
  rw [bytePairs, call.target] at hp
  obtain ⟨i, at_i⟩ := List.mem_iff_getElem?.mp hp
  obtain ⟨first, second⟩ := List.getElem?_zip_eq_some.mp at_i
  exact Option.some.inj (first.symm.trans second)

theorem Spread.mem_putLocs : ((⟨.target, targetStart W C + (T.hole * T.extent : ℕ)⟩ : Loc),
    (⟨.buffer, C.bufferAddr + (T.hole * T.extent : ℕ)⟩ : Loc)) ∈
      putLocs W layout C .buffer C.bufferAddr (D.named T, n) := by
  obtain ⟨-, -, mem⟩ := call.hole_mem
  refine List.mem_map.mpr ⟨(((T.hole * T.extent : ℕ) : ℤ), ((T.hole * T.extent : ℕ) : ℤ)), ?_, rfl⟩
  rw [bytePairs, call.target]
  obtain ⟨i, at_i⟩ := List.mem_iff_getElem?.mp mem
  exact List.mem_of_getElem? (i := i) (List.getElem?_zip_eq_some.mpr ⟨at_i, at_i⟩)

section Runs
variable [DecidableEq ι] {cache : GlobInfo ι} (settled : Settled layout cache)
include settled

/-- `foMPI_Accumulate` reads the target into the buffer first. -/
theorem Spread.accumulateSoftware_flawed : ∃ cache', accumulateSoftware M W D layout C T
    ⟨flawed C T v w, cache, mutexNone⟩ = some (.code .success, ⟨fun _ => v, cache', mutexNone⟩) := by
  have locked := setWindowMutex_free (s := (⟨flawed C T v w, cache, mutexNone⟩ : State ι V)) rfl
  obtain ⟨cache₁, got, settled₁⟩ := call.transferable.transfer_eq (s := ⟨flawed C T v w, cache, 0⟩)
    settled .get .buffer C.bufferAddr
  have overwritten : copyAll (locsOf W layout C .buffer C.bufferAddr (D.named T, n) .get) (flawed C T v w) =
      fun _ => v := by
    refine copyAll_const (fun p hp => ?_) fun x out => flawed_other fun same => ?_
    · obtain ⟨p, -, rfl⟩ := List.mem_map.mp hp
      exact flawed_of_buffer fun same => Buffer.noConfusion same
    · obtain ⟨p, hp, eq⟩ := List.mem_map.mp call.mem_putLocs
      refine out _ (List.mem_map.mpr ⟨p, hp, rfl⟩) (same.trans ?_)
      exact (Prod.mk.inj eq).2.symm
  rw [overwritten] at got
  obtain ⟨cache₂, pass, settled₂⟩ := call.transferable.pass call.transferable settled₁
  obtain ⟨cache₃, put, -⟩ := call.transferable.transfer_eq (s := (⟨fun _ => v, cache₂, 0⟩ : State ι V))
    settled₂ .put .buffer C.bufferAddr
  have kept : copyAll (locsOf W layout C .buffer C.bufferAddr (D.named T, n) .put) (fun _ => v) = fun _ : Loc => v :=
    copyAll_same fun _ _ => rfl
  rw [kept] at put
  refine ⟨cache₃, ?_⟩
  simp only [accumulateSoftware, locked, call.origin, call.elementsInBuffer_eq, got, pass,
    operateInPlace_const call.computed call.pair, put, Option.bind_eq_bind, Option.bind_some]
  rfl

/-- `foMPI_Get_accumulate` does not. -/
theorem Spread.getAccumulateSoftware_flawed : ∃ t, getAccumulateSoftware M W D layout C
    ⟨flawed C T v w, cache, mutexNone⟩ = some (.code .success, t) ∧
      t.mem ⟨.target, targetStart W C + (T.hole * T.extent : ℕ)⟩ = w := by
  have locked := setWindowMutex_free (s := (⟨flawed C T v w, cache, mutexNone⟩ : State ι V)) rfl
  obtain ⟨noOp, replace⟩ := ne_of_arms call.computed
  obtain ⟨cache₁, got, settled₁⟩ := call.transferable.transfer_eq (s := ⟨flawed C T v w, cache, 0⟩)
    settled .get .result C.resultAddr
  have kept : copyAll (locsOf W layout C .result C.resultAddr (D.named T, n) .get) (flawed C T v w) =
      flawed C T v w := by
    refine copyAll_same fun p hp => ?_
    obtain ⟨p, -, rfl⟩ := List.mem_map.mp hp
    exact (flawed_of_buffer fun same => Buffer.noConfusion same).trans
      (flawed_of_buffer fun same => Buffer.noConfusion same).symm
  rw [kept] at got
  obtain ⟨cache₂, pass, settled₂⟩ := call.transferable.pass call.transferable settled₁
  have blocks : superpose (calls layout (D.named T, (n : ℤ)) (D.named T, (n : ℤ))) (layout (D.named T) n)
      (layout (D.named T) n) = (layout (D.named T) n).map fun b => ⟨b.displ, b.displ, b.blocklen⟩ :=
    superpose_self _ (Nat.le_add_left _ _)
  simp only at pass
  rw [blocks] at pass
  obtain ⟨cache₃, put, -⟩ := call.transferable.transfer_eq (s := (⟨flawed C T v w, cache₂, 0⟩ : State ι V))
    settled₂ .put .buffer C.bufferAddr
  refine ⟨⟨copyAll (putLocs W layout C .buffer C.bufferAddr (D.named T, n)) (flawed C T v w), cache₃, mutexNone⟩, ?_, ?_⟩
  · simp only [getAccumulateSoftware, operateAndPut, locked, noOp, replace, if_false, call.result, call.origin,
      call.basic, call.elementsInBuffer_eq, got, pass, call.operateInto_blocks, put, Option.bind_eq_bind,
      Option.bind_some, locsOf]
    rfl
  · have apart : ∀ p ∈ putLocs W layout C .buffer C.bufferAddr (D.named T, n),
        ∀ q ∈ putLocs W layout C .buffer C.bufferAddr (D.named T, n), p.1 ≠ q.2 := by
      intro p hp q hq same
      obtain ⟨p, -, rfl⟩ := List.mem_map.mp hp
      obtain ⟨q, -, rfl⟩ := List.mem_map.mp hq
      exact Buffer.noConfusion (congrArg Loc.buffer same)
    have one : ∀ p ∈ putLocs W layout C .buffer C.bufferAddr (D.named T, n),
        ∀ q ∈ putLocs W layout C .buffer C.bufferAddr (D.named T, n), p.1 = q.1 → p.2 = q.2 := by
      intro p hp q hq same
      obtain ⟨⟨x, y⟩, hx, rfl⟩ := List.mem_map.mp hp
      obtain ⟨⟨x', y'⟩, hx', rfl⟩ := List.mem_map.mp hq
      obtain rfl : x = y := call.diagonal hx
      obtain rfl : x' = y' := call.diagonal hx'
      obtain rfl : x = x' := add_left_cancel (congrArg Loc.addr same)
      rfl
    exact (copyAll_apply apart one call.mem_putLocs _).trans (Function.update_self ..)

end Runs

end Flawed

end FoMPI.Combine
