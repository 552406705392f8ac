import FoMPI.Combine.Agreement

/-!
# What the return code says

`foMPI_RMA_op` is one ladder of `if`s, and the `else` before a `return` is written by hand.
Where one is missing the function computes and then returns an error. Everywhere else success means
that every element has been combined, and an error that nothing was written.
-/
namespace FoMPI.Combine
open FoMPI.Accumulate FoMPI.Foundation

/-- The operations of the chain after which there is no `else`. -/
def BasicType.unfinished (T : BasicType) : List Op :=
  match T.expansion with
  | .scalar unfinished _ => unfinished
  | _ => []

variable {V : Type*} {M : Machine V} {T : BasicType} {op : Op} {p3 p1 p2 : Loc} {m : Memory V} {count : ℕ}

/-- Success stands for all elements combined, an error for nothing written. -/
structure Truthful (M : Machine V) (T : BasicType) (op : Op) (p3 p1 p2 : Loc) (count : ℕ) (m : Memory V) : Prop where
  computed : (rmaOp M T p3 p1 p2 m op count).2 = .success → ∀ i < count,
    fieldsAt T (rmaOp M T p3 p1 p2 m op count).1 (p3.shift (i * T.extent)) =
      combine M T op (fieldsAt T m (p1.shift (i * T.extent))) (fieldsAt T m (p2.shift (i * T.extent)))
  unchanged : (rmaOp M T p3 p1 p2 m op count).2 ≠ .success → (rmaOp M T p3 p1 p2 m op count).1 = m

theorem mem_finished_iff : op ∈ T.finished ↔ op ∈ T.arms ∧ op ∉ T.unfinished := by
  unfold BasicType.finished BasicType.unfinished BasicType.arms
  cases expansion : T.expansion with
  | scalar unfinished chain =>
    have disjoint : op ∈ unfinished → op ∉ chain := chains_disjoint expansion
    simp only [List.mem_append]
    tauto
  | _ => simp

theorem arms_of_unfinished (unfinished : op ∈ T.unfinished) : op ∈ T.arms := by
  unfold BasicType.unfinished at unfinished
  unfold BasicType.arms
  cases expansion : T.expansion <;> simp_all

/-- Open chains are of scalar types. -/
theorem scalar_of_unfinished (unfinished : op ∈ T.unfinished) :
    ∃ U chain, T.expansion = .scalar U chain ∧ op ∈ U := by
  unfold BasicType.unfinished at unfinished
  cases expansion : T.expansion with
  | scalar U chain => exact ⟨U, chain, rfl, by simpa [expansion] using unfinished⟩
  | _ => simp [expansion] at unfinished

theorem size_le_extent (T : BasicType) : T.size ≤ T.extent := by
  cases T <;> simp [BasicType.size, BasicType.extent]

theorem rmaOp_zero : (rmaOp M T p3 p1 p2 m op 0).1 = m := by
  by_cases computed : op ∈ T.arms
  · rw [rmaOp_memory computed]
    rfl
  · exact (rmaOp_untouched computed).1

section Elements
variable (computed : op ∈ T.arms) (first : p1.buffer ≠ p3.buffer)
include computed first

/-- Into a buffer of its own every element is combined. -/
theorem rmaOp_apart (second : p2.buffer ≠ p3.buffer) {i : ℕ} (lt : i < count) :
    fieldsAt T (rmaOp M T p3 p1 p2 m op count).1 (p3.shift (i * T.extent)) =
      combine M T op (fieldsAt T m (p1.shift (i * T.extent))) (fieldsAt T m (p2.shift (i * T.extent))) := by
  have operand (e : ℕ) : (p1.shift (e * T.extent)).buffer ≠ p3.buffer := first
  have operand' (e : ℕ) : (p2.shift (e * T.extent)).buffer ≠ p3.buffer := second
  rw [rmaOp_memory computed, loop]
  exact (runAll_strided computed operand (size_le_extent T) (.inl operand') lt).trans
    (body_apart computed first second)

/-- So it is in place, but for what `combineInPlace` makes of it. -/
theorem rmaOp_inPlace {i : ℕ} (lt : i < count) :
    fieldsAt T (rmaOp M T p3 p1 p3 m op count).1 (p3.shift (i * T.extent)) =
      combineInPlace M T op (fieldsAt T m (p1.shift (i * T.extent))) (fieldsAt T m (p3.shift (i * T.extent))) := by
  have operand (e : ℕ) : (p1.shift (e * T.extent)).buffer ≠ p3.buffer := first
  rw [rmaOp_memory computed, loop]
  exact (runAll_strided computed operand (size_le_extent T) (.inr rfl) lt).trans (body_inPlace computed first)

end Elements

/-- Where the chain is closed the code tells the truth. -/
theorem truthful_of_finished (first : p1.buffer ≠ p3.buffer) (second : p2.buffer ≠ p3.buffer ∨ p2 = p3)
    (finished : op ∉ T.unfinished) (product : ¬(p2 = p3 ∧ T.expansion = .fortranComplex ∧ op = .prod)) :
    Truthful M T op p3 p1 p2 count m := by
  by_cases computed : op ∈ T.arms
  · have success : (rmaOp M T p3 p1 p2 m op count).2 = .success :=
      (rmaOp_success computed).mpr (mem_finished_iff.mpr ⟨computed, finished⟩)
    refine ⟨fun _ i lt => ?_, fun error => absurd success error⟩
    obtain apart | rfl := second
    · exact rmaOp_apart computed first apart lt
    · rw [rmaOp_inPlace computed first lt, combineInPlace_eq computed fun fortran => product ⟨rfl, fortran⟩]
  · have ⟨same, error⟩ : (rmaOp M T p3 p1 p2 m op count).1 = m ∧ (rmaOp M T p3 p1 p2 m op count).2 ≠ .success :=
      rmaOp_untouched computed
    exact ⟨fun success => absurd success error, fun _ => same⟩

/-- Zero and one in the arithmetic of a C type. -/
structure Arith.Units (A : Arith V) (zero one : V) : Prop where
  ne : zero ≠ one
  lt : A.lt one zero = false
  add : A.add zero zero = zero ∧ A.add zero one = one ∧ A.add one zero = one
  sub : A.sub zero zero = zero
  mul : A.mul zero zero = zero ∧ A.mul zero one = zero ∧ A.mul one zero = zero ∧ A.mul one one = one
  band : A.band zero one = zero
  isTrue : A.isTrue zero = false ∧ A.isTrue one = true
  ofBool : A.ofBool false = zero ∧ A.ofBool true = one

theorem Arith.Units.exists_ne {A : Arith V} {zero one : V} (units : A.Units zero one) (v : V) : ∃ w, w ≠ v := by
  by_cases same : v = one
  · exact ⟨zero, same ▸ units.ne⟩
  · exact ⟨one, Ne.symm same⟩

/-- A memory with one value in a buffer and another one in the others. -/
def filled (which : Buffer) (inside outside : V) : Memory V := fun x => if x.buffer = which then inside else outside

section Filled
variable {which : Buffer} {a b : V} {p : Loc} {d : ℤ}

theorem filled_in (same : p.buffer = which) : fieldsAt T (filled which b a) (p.shift d) = (b, b) := by
  unfold fieldsAt
  split <;> simp [filled, same]

theorem filled_out (apart : p.buffer ≠ which) : fieldsAt T (filled which b a) (p.shift d) = (a, a) := by
  unfold fieldsAt
  split <;> simp [filled, apart]

end Filled

section Converse
variable {zero one : V} (units : (M.arith T).Units zero one)
include units

/-- Every operation of an open chain changes a zero or a one. -/
theorem unfinished_effect (unfinished : op ∈ T.unfinished) : ∃ a b, (combine M T op (a, a) (b, b)).1 ≠ b := by
  obtain ⟨ne, lt, ⟨-, -, add⟩, -, ⟨-, mul, -⟩, band, ⟨isFalse, isTrue⟩, ofFalse, ofTrue⟩ := units
  obtain ⟨U, chain, expansion, mem⟩ := scalar_of_unfinished unfinished
  have op : op = .min ∨ op = .max ∨ op = .sum ∨ op = .prod ∨ op = .band ∨ op = .land ∨ op = .lor ∨ op = .lxor := by
    clear unfinished
    unfold BasicType.expansion at expansion
    split at expansion <;> first | contradiction | (cases expansion; revert mem; revert op; decide)
  simp only [combine, expansion]
  obtain rfl | rfl | rfl | rfl | rfl | rfl | rfl | rfl := op
  · exact ⟨zero, one, by simp [Arith.m4Op, lt, ne]⟩
  · exact ⟨one, zero, by simp [Arith.m4Op, lt, ne.symm]⟩
  · exact ⟨one, zero, by simp [Arith.m4Op, add, ne.symm]⟩
  · exact ⟨zero, one, by simp [Arith.m4Op, mul, ne]⟩
  · exact ⟨zero, one, by simp [Arith.m4Op, band, ne]⟩
  · exact ⟨zero, one, by simp [Arith.m4Op, isFalse, ofFalse, ne]⟩
  · exact ⟨one, zero, by simp [Arith.m4Op, isTrue, ofTrue, ne.symm]⟩
  · exact ⟨one, one, by simp [Arith.m4Op, isTrue, ofFalse, ne]⟩

/-- What an open chain computes is not what its return code says, for some contents. -/
theorem not_truthful_of_unfinished (unfinished : op ∈ T.unfinished) (first : p1.buffer ≠ p3.buffer)
    (second : p2.buffer ≠ p3.buffer ∨ p2 = p3) (some_elements : count ≠ 0) :
    ∃ m, ¬Truthful M T op p3 p1 p2 count m := by
  have computed := arms_of_unfinished unfinished
  have error (m : Memory V) : (rmaOp M T p3 p1 p2 m op count).2 ≠ .success := fun success =>
    (mem_finished_iff.mp ((rmaOp_success computed).mp success)).2 unfinished
  have pos := Nat.pos_of_ne_zero some_elements
  obtain apart | rfl := second
  · obtain ⟨b, ne⟩ := units.exists_ne (combine M T op (one, one) (one, one)).1
    refine ⟨filled p3.buffer b one, fun truthful => ne ?_⟩
    have stored := rmaOp_apart (M := M) (m := filled p3.buffer b one) computed first apart pos
    rw [truthful.unchanged (error _), filled_in rfl, filled_out first, filled_out apart] at stored
    exact congrArg Prod.fst stored
  · obtain ⟨a, b, changed⟩ := unfinished_effect units unfinished
    obtain ⟨U, chain, scalar, -⟩ := scalar_of_unfinished unfinished
    refine ⟨filled p2.buffer b a, fun truthful => changed ?_⟩
    have stored := rmaOp_inPlace (M := M) (m := filled p2.buffer b a) computed first pos
    rw [truthful.unchanged (error _), filled_in rfl, filled_out first,
      combineInPlace_eq computed fun fortran => by simp [scalar] at fortran] at stored
    exact (congrArg Prod.fst stored).symm

/-- In place the product of the imaginary unit and one is zero. -/
theorem not_truthful_of_product (first : p1.buffer ≠ p3.buffer) (fortran : T.expansion = .fortranComplex)
    (some_elements : count ≠ 0) : ∃ m, ¬Truthful M T .prod p3 p1 p3 count m := by
  have computed : .prod ∈ T.arms := by simp [BasicType.arms, fortran]
  have success (m : Memory V) : (rmaOp M T p3 p1 p3 m .prod count).2 = .success :=
    (rmaOp_success computed).mpr (by simp [BasicType.finished, fortran, BasicType.arms])
  have pos := Nat.pos_of_ne_zero some_elements
  have start (p : Loc) : p.shift (((0 : ℕ) : ℤ) * T.extent) = p := by simp [Loc.shift]
  let m : Memory V := fun x =>
    if x = p3 then one else if x.buffer = p3.buffer then zero else if x = p1 then zero else one
  have unit : fieldsAt T m p1 = (zero, one) := by
    have ne : p1 ≠ p3 := fun same => first (congrArg Loc.buffer same)
    have ne' : p1.shift T.second ≠ p3 := shift_of_buffer_ne first _
    simp [fieldsAt, fortran, m, ne, ne', first, (shift_ne p1).symm]
  have target : fieldsAt T m p3 = (one, zero) := by
    simp [fieldsAt, fortran, m, (shift_ne p3).symm]
  refine ⟨m, fun truthful => units.ne ?_⟩
  have stored := rmaOp_inPlace (M := M) (m := m) computed first pos
  rw [truthful.computed (success m) 0 pos, start, start, unit, target] at stored
  obtain ⟨ne, -, ⟨add, add', -⟩, sub, ⟨mul, mul', mul'', one_mul⟩, -⟩ := units
  have imag := congrArg Prod.snd stored
  simpa [combine, combineInPlace, fortran, add, add', sub, mul, mul', mul'', one_mul] using imag.symm

/-- On any number of elements and in place or not, the return code tells the truth exactly if the chain
is closed, and in place the operation is not the product of a Fortran complex type. -/
theorem rmaOp_truthful_iff (first : p1.buffer ≠ p3.buffer) (second : p2.buffer ≠ p3.buffer ∨ p2 = p3) (count : ℕ) :
    (∀ m, Truthful M T op p3 p1 p2 count m) ↔
      count = 0 ∨ op ∉ T.unfinished ∧ ¬(p2 = p3 ∧ T.expansion = .fortranComplex ∧ op = .prod) := by
  constructor
  · intro truthful
    by_cases none : count = 0
    · exact .inl none
    refine .inr ⟨fun unfinished => ?_, ?_⟩
    · obtain ⟨m, lies⟩ := not_truthful_of_unfinished units unfinished first second none
      exact lies (truthful m)
    · rintro ⟨rfl, fortran, rfl⟩
      obtain ⟨m, lies⟩ := not_truthful_of_product units first fortran none
      exact lies (truthful m)
  · rintro (rfl | ⟨finished, product⟩) m
    · exact ⟨fun _ i lt => absurd lt (Nat.not_lt_zero i), fun _ => rmaOp_zero⟩
    · exact truthful_of_finished first second finished product

end Converse

section Examples

/-- `MPI_LAND` on `MPI_LOGICAL` stores a zero over a one and returns an error. -/
theorem rmaOp_truthful_fails :
    let buffers : Memory (BitVec 64) := filled .buffer 1 0
    let called := rmaOp words .logical ⟨.buffer, 0⟩ ⟨.origin, 0⟩ ⟨.result, 0⟩ buffers .land 1
    called.2 = .opNotSupported ∧ buffers ⟨.buffer, 0⟩ = 1 ∧ called.1 ⟨.buffer, 0⟩ = 0 := by
  decide

theorem words_units : (bitVecArith true : Arith (BitVec 64)).Units 0 1 :=
  ⟨by decide, by decide, by decide, by decide, by decide, by decide, by decide, by decide⟩

theorem rmaOp_truthful_int :
    Truthful words (.integer .int) .sum ⟨.buffer, 0⟩ ⟨.origin, 0⟩ ⟨.result, 0⟩ 2 (filled .buffer 1 0) :=
  (rmaOp_truthful_iff words_units (by decide) (.inl (by decide)) 2).mpr (.inr ⟨by decide, by decide⟩) _

end Examples

end FoMPI.Combine
