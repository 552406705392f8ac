import Mathlib.Data.List.GetD
import FoMPI.Combine.Elements
import FoMPI.Combine.Transfers
import FoMPI.Foundation.Strides

/-!
# What the operations leave in the buffer

On datatypes whose blocks consist of whole elements the calls of `foMPI_RMA_op` are one
loop over the elements, and every element of the buffer becomes the combination of
those that it is paired with.
-/
namespace FoMPI.Combine
open FoMPI.Accumulate FoMPI.Comm FoMPI.Dcache FoMPI.Foundation FoMPI.RmaNotify FoMPI.Window

universe u

section Loops
variable {V : Type*} {M : Machine V} {T : BasicType} {op : Op} {m : Memory V}

theorem fields_lt (T : BasicType) : ∀ f ∈ T.fields, f < T.size := by
  cases T with
  | integer T => cases T <;> decide
  | other bytes => simp [BasicType.fields, BasicType.expansion]
  | _ => decide

theorem size_pos (computed : op ∈ T.arms) : 0 < T.size := by
  cases T with
  | integer T => cases T <;> decide
  | other bytes => simp [BasicType.arms, BasicType.expansion] at computed
  | _ => decide

theorem fields_ne_nil (computed : op ∈ T.arms) : T.fields ≠ [] := by
  unfold BasicType.fields
  cases expansion : T.expansion <;> simp [BasicType.arms, expansion] at computed ⊢

theorem ne_of_arms (computed : op ∈ T.arms) : op ≠ .noOp ∧ op ≠ .replace := by
  unfold BasicType.arms at computed
  cases expansion : T.expansion with
  | scalar =>
    have known : op ∈ cArms := by
      have arm : op ∈ T.arms := by
        simpa only [BasicType.arms] using computed
      obtain ⟨v, value⟩ := m4Op_of_arms expansion arm (bitVecArith true : Arith (BitVec 1)) 0 0
      cases op <;> first | decide | contradiction
    constructor <;> rintro rfl <;> exact absurd known (by decide)
  | missing => simp [expansion] at computed
  | _ =>
    simp only [expansion, List.mem_cons, List.not_mem_nil, or_false] at computed
    obtain rfl | rfl := computed <;> decide

theorem elementCount_eq {size : ℕ} (small : size < 2147483648) : elementCount T size = size / T.size := by
  have lt : size / T.size < 2147483648 := (Nat.div_le_self _ _).trans_lt small
  unfold elementCount
  rw [← Int.natCast_ediv]
  generalize size / T.size = quotient at lt ⊢
  rw [Int.bmod_eq_of_le] <;> omega

/-- A call of `foMPI_RMA_op` on whole elements: more than one only where they follow each other. -/
theorem rmaOp_elements (computed : op ∈ T.arms) {size : ℕ} (spaced : T.extent = T.size ∨ size ≤ T.size)
    (small : size < 2147483648) (p3 p1 p2 : Loc) :
    (rmaOp M T p3 p1 p2 m op (elementCount T size)).1 =
      runAll (fun k : ℕ => body M T op (p3.shift (k * T.size)) (p1.shift (k * T.size)) (p2.shift (k * T.size)))
        (List.range (size / T.size)) m := by
  rw [rmaOp_memory computed, loop, elementCount_eq small]
  refine runAll_congr (fun k hk => ?_) m
  have step : k * T.extent = k * T.size := by
    obtain gapless | one := spaced
    · rw [gapless]
    · have only := (List.mem_range.mp hk).trans_le (Nat.div_le_div_right one)
      rw [Nat.div_self (size_pos computed)] at only
      obtain rfl := Nat.lt_one_iff.mp only
      rw [Nat.zero_mul, Nat.zero_mul]
  rw [← Nat.cast_mul, step, Nat.cast_mul]

section Strided
variable {q : Loc} {stride n : ℕ} {p1 p2 : ℕ → Loc} (computed : op ∈ T.arms)
  (first : ∀ e, (p1 e).buffer ≠ q.buffer)

/-- Elements at a stride of at least their size do not meet. -/
theorem strided_disjoint (wide : T.size ≤ stride) : (List.range n).Pairwise fun e e' : ℕ =>
    ∀ x ∈ fieldLocs T (q.shift (e * stride)), x ∉ fieldLocs T (q.shift (e' * stride)) := by
  refine List.nodup_range.imp fun {e e'} ne => ?_
  rintro x ⟨f, hf, rfl⟩ ⟨f', hf', same⟩
  have lt := (fields_lt T f hf).trans_le wide
  have lt' := (fields_lt T f' hf').trans_le wide
  have addr : e * stride + f = e' * stride + f' := by
    have addr := congrArg Loc.addr same
    simp only [Loc.shift, add_assoc] at addr
    exact_mod_cast add_left_cancel addr
  have quotient := congrArg (· / stride) addr
  simp only [Nat.mul_comm _ stride, Nat.mul_add_div (Nat.zero_lt_of_lt lt), Nat.div_eq_of_lt lt,
    Nat.div_eq_of_lt lt', Nat.add_zero] at quotient
  exact ne quotient

include computed first

/-- The iterations of the loop over the elements. -/
theorem strided_footprints (second : (∀ e, (p2 e).buffer ≠ q.buffer) ∨ p2 = fun e : ℕ => q.shift (e * stride)) :
    Footprints (fun e : ℕ => body M T op (q.shift (e * stride)) (p1 e) (p2 e)) (List.range n)
      (fun e : ℕ => fieldLocs T (q.shift (e * stride))) {x | x.buffer ≠ q.buffer} where
  frame e _ s x out := body_frame out
  reads e _ s t own source x hx := by
    have fields := fields_ne_nil computed
    obtain ⟨f, mem, rfl⟩ := hx
    have left : fieldsAt T s (p1 e) = fieldsAt T t (p1 e) :=
      fieldsAt_congr (fun f _ => source _ (first e)) fields
    have here : (p1 e).buffer ≠ (q.shift (e * stride)).buffer := first e
    refine eq_of_fieldsAt ?_ mem
    obtain apart | rfl := second
    · have other : (p2 e).buffer ≠ (q.shift (e * stride)).buffer := apart e
      rw [body_apart computed here other, body_apart computed here other, left,
        fieldsAt_congr (fun f _ => source ((p2 e).shift f) (apart e)) fields]
    · rw [body_inPlace computed here, body_inPlace computed here, left,
        fieldsAt_congr (fun f hf => own _ ⟨f, hf, rfl⟩) fields]
  apart e _ x hx := by
    obtain ⟨f, -, rfl⟩ := hx
    exact fun other => other rfl

/-- Every element ends up as its iteration leaves it. -/
theorem runAll_strided (wide : T.size ≤ stride)
    (second : (∀ e, (p2 e).buffer ≠ q.buffer) ∨ p2 = fun e : ℕ => q.shift (e * stride)) {e : ℕ} (lt : e < n) :
    fieldsAt T (runAll (fun e : ℕ => body M T op (q.shift (e * stride)) (p1 e) (p2 e)) (List.range n) m)
        (q.shift (e * stride)) =
      fieldsAt T (body M T op (q.shift (e * stride)) (p1 e) (p2 e) m) (q.shift (e * stride)) :=
  fieldsAt_congr (fun f hf => (strided_footprints computed first second).runAll_apply (strided_disjoint wide)
    (List.mem_range.mpr lt) ⟨f, hf, rfl⟩ m) (fields_ne_nil computed)

end Strided

/-- The slots of the buffer, one for each element. -/
def slot (T : BasicType) (bufferAddr : ℤ) (e : ℕ) : Loc := ⟨.buffer, bufferAddr + e * T.size⟩

@[simp] theorem slot_buffer {T : BasicType} (bufferAddr : ℤ) (e : ℕ) : (slot T bufferAddr e).buffer = .buffer := rfl

section Slots
variable {bufferAddr : ℤ} {n : ℕ} {p1 p2 : ℕ → Loc} (computed : op ∈ T.arms)
  (first : ∀ e, (p1 e).buffer ≠ .buffer)
include computed first

/-- Every slot ends up as its iteration leaves it. -/
theorem runAll_slot (second : (∀ e, (p2 e).buffer ≠ .buffer) ∨ p2 = slot T bufferAddr) {e : ℕ} (lt : e < n) :
    fieldsAt T (runAll (fun e => body M T op (slot T bufferAddr e) (p1 e) (p2 e)) (List.range n) m)
        (slot T bufferAddr e) =
      fieldsAt T (body M T op (slot T bufferAddr e) (p1 e) (p2 e) m) (slot T bufferAddr e) :=
  runAll_strided (q := ⟨.buffer, bufferAddr⟩) computed first le_rfl second lt

/-- Nothing else is written. -/
theorem runAll_other (second : (∀ e, (p2 e).buffer ≠ .buffer) ∨ p2 = slot T bufferAddr) {x : Loc}
    (other : x.buffer ≠ .buffer) :
    runAll (fun e => body M T op (slot T bufferAddr e) (p1 e) (p2 e)) (List.range n) m x = m x := by
  have loop := strided_footprints (M := M) (n := n) (q := ⟨.buffer, bufferAddr⟩) computed first second
  exact loop.runAll_frame (fun e he hx => loop.apart e he x hx other) m

end Slots

end Loops

section Operations
variable {ι V : Type u} {M : Machine V} {C : Call ι} {T : BasicType} {cs : List Chunk} {m : Memory V} {n : ℕ}
  {originAt resultAt : ℕ → ℤ}

/-- What the chunks of a pass over two datatypes look like. -/
structure Chunked (T : BasicType) (cs : List Chunk) : Prop where
  whole : ∀ c ∈ cs, T.size ∣ c.size
  small : ∀ c ∈ cs, c.size < 2147483648
  spaced : ∀ c ∈ cs, T.extent = T.size ∨ c.size ≤ T.size

theorem Chunked.tail {c : Chunk} (chunked : Chunked T (c :: cs)) : Chunked T cs :=
  ⟨fun d hd => chunked.whole d (List.mem_cons_of_mem _ hd), fun d hd => chunked.small d (List.mem_cons_of_mem _ hd),
    fun d hd => chunked.spaced d (List.mem_cons_of_mem _ hd)⟩

section Runs
variable (computed : C.op ∈ T.arms) (chunked : Chunked T cs)
include computed chunked

/-- `foMPI_Accumulate` goes over the elements once. -/
theorem operateInPlace_pairs : operateInPlace M C T cs m = runAll (fun p : ℤ × ℤ =>
    body M T C.op ⟨.buffer, C.bufferAddr + p.1⟩ ⟨.origin, C.originAddr + p.2⟩ ⟨.buffer, C.bufferAddr + p.1⟩)
    (elementPairs T.size cs) m := by
  induction cs generalizing m with
  | nil => rfl
  | cons c cs ih =>
    have split : elementPairs T.size (c :: cs) = c.elements T.size ++ elementPairs T.size cs := rfl
    rw [split, runAll_append, Chunk.elements, runAll_map, ← ih chunked.tail, operateInPlace, List.foldl_cons]
    simp only
    rw [rmaOp_elements computed (chunked.spaced c List.mem_cons_self) (chunked.small c List.mem_cons_self)]
    simp only [Loc.shift, add_assoc]
    rfl

theorem operateInPlace_eq
    (paired : elementPairs T.size cs = (List.range n).map fun e : ℕ => ((e * T.size : ℤ), originAt e)) :
    operateInPlace M C T cs m = runAll (fun e => body M T C.op (slot T C.bufferAddr e)
      ⟨.origin, C.originAddr + originAt e⟩ (slot T C.bufferAddr e)) (List.range n) m := by
  rw [operateInPlace_pairs computed chunked, paired, runAll_map]
  rfl

/-- `foMPI_Get_accumulate` fills the buffer one element after the other. -/
theorem operateInto_pairs (bufferPtr : ℤ) : operateInto M C T bufferPtr cs m = runAll (fun e =>
    body M T C.op (slot T bufferPtr e) ⟨.origin, C.originAddr + ((elementPairs T.size cs).getD e (0, 0)).2⟩
      ⟨.result, C.resultAddr + ((elementPairs T.size cs).getD e (0, 0)).1⟩)
    (List.range (elementPairs T.size cs).length) m := by
  induction cs generalizing bufferPtr m with
  | nil => rfl
  | cons c cs ih =>
    obtain ⟨k, size⟩ := chunked.whole c List.mem_cons_self
    rw [Nat.mul_comm] at size
    have pos := size_pos computed
    have count : c.size / T.size = k := by rw [size, Nat.mul_div_cancel k pos]
    have front : (c.elements T.size).length = k := by simp [Chunk.elements, count]
    have split : elementPairs T.size (c :: cs) = c.elements T.size ++ elementPairs T.size cs := rfl
    rw [split, List.length_append, front, List.range_add, runAll_append, runAll_map, operateInto,
      rmaOp_elements computed (chunked.spaced c List.mem_cons_self) (chunked.small c List.mem_cons_self), ih chunked.tail, count]
    have first : ∀ e ∈ List.range k, (fun (e : ℕ) => body M T C.op
        ((⟨.buffer, bufferPtr⟩ : Loc).shift (e * T.size))
        ((⟨.origin, C.originAddr + c.targetOffset⟩ : Loc).shift (e * T.size))
        ((⟨.result, C.resultAddr + c.originOffset⟩ : Loc).shift (e * T.size))) e =
        (fun e => body M T C.op (slot T bufferPtr e)
          ⟨.origin, C.originAddr + ((c.elements T.size ++ elementPairs T.size cs).getD e (0, 0)).2⟩
          ⟨.result, C.resultAddr + ((c.elements T.size ++ elementPairs T.size cs).getD e (0, 0)).1⟩) e := by
      intro e he
      have lt := List.mem_range.mp he
      have here : (c.elements T.size ++ elementPairs T.size cs).getD e (0, 0) =
          (c.originOffset + e * T.size, c.targetOffset + e * T.size) := by
        rw [List.getD_append _ _ _ _ (by rw [front]; exact lt)]
        simp [Chunk.elements, count, List.getD_eq_getElem?_getD, List.getElem?_range lt]
      simp only [here, Loc.shift, slot, add_assoc]
    rw [runAll_congr first]
    refine runAll_congr (fun e _ => ?_) _
    have later : (c.elements T.size ++ elementPairs T.size cs).getD (k + e) (0, 0) =
        (elementPairs T.size cs).getD e (0, 0) := by
      rw [List.getD_append_right _ _ _ _ (by rw [front]; exact Nat.le_add_right _ _), front, Nat.add_sub_cancel_left]
    have moved : slot T (bufferPtr + c.size) e = slot T bufferPtr (k + e) := by
      simp only [slot, size, Loc.mk.injEq, true_and]
      push_cast
      ring
    rw [later, moved]

theorem operateInto_eq (paired : elementPairs T.size cs = (List.range n).map fun e => (resultAt e, originAt e)) :
    operateInto M C T C.bufferAddr cs m = runAll (fun e => body M T C.op (slot T C.bufferAddr e)
      ⟨.origin, C.originAddr + originAt e⟩ ⟨.result, C.resultAddr + resultAt e⟩) (List.range n) m := by
  rw [operateInto_pairs computed chunked, paired, List.length_map, List.length_range]
  refine runAll_congr (fun e he => ?_) m
  have here : ((List.range n).map fun e => (resultAt e, originAt e)).getD e (0, 0) = (resultAt e, originAt e) := by
    simp [List.getD_eq_getElem?_getD, List.getElem?_range (List.mem_range.mp he)]
  rw [here]

end Runs

end Operations

end FoMPI.Combine
