import Mathlib.Data.Prod.Lex
import FoMPI.Combine.Codes
import FoMPI.Foundation.Commutation

/-!
# Accumulates commute

Contributions that are combined with an element one after the other. On integers every
operation is one of a commutative semigroup, where the types wrap as well; with value and
index it is the greatest or the least in a lexicographic order. What the element holds in
the end does not depend on the order of the contributions.
-/
namespace FoMPI.Combine
open FoMPI.Accumulate FoMPI.Foundation

section Integers

/-- The integer that the bits of a C type stand for. -/
def ofBits {w : ℕ} (signed : Bool) (x : BitVec w) : ℤ := if signed then x.toInt else x.toNat

/-- A promoted result as it is stored. -/
def narrow (w : ℕ) (signed : Bool) (x : ℤ) : ℤ := ofBits signed (BitVec.ofInt w x)

/-- The arithmetic of a C integer type of `w` bits, after the promotion of its operands. -/
def intArith (w : ℕ) (signed : Bool) : Arith ℤ where
  lt a b := a < b
  add a b := narrow w signed (a + b)
  sub a b := narrow w signed (a - b)
  mul a b := narrow w signed (a * b)
  band a b := ofBits signed (BitVec.ofInt w a &&& BitVec.ofInt w b)
  bor a b := ofBits signed (BitVec.ofInt w a ||| BitVec.ofInt w b)
  bxor a b := ofBits signed (BitVec.ofInt w a ^^^ BitVec.ofInt w b)
  isTrue a := a ≠ 0
  ofBool b := if b then 1 else 0

/-- Fields that hold integers. Of value and index only the order matters. -/
def integers : Machine ℤ where
  arith
    | .integer T => intArith T.width T.isSigned
    | T => intArith (8 * T.size) true
  rankLt _ a b := a < b

/-- The integer types, and those of an integer value and an index. -/
def BasicType.isIntegral : BasicType → Bool
  | .integer _ | .twoInt | .twoInteger | .shortInt | .longInt => true
  | _ => false

variable {w : ℕ} {signed : Bool}

@[simp] theorem ofInt_ofBits (x : BitVec w) : BitVec.ofInt w (ofBits signed x) = x := by
  cases signed <;> simp [ofBits]

theorem ofBits_injective : Function.Injective (ofBits signed : BitVec w → ℤ) :=
  Function.LeftInverse.injective fun x => ofInt_ofBits x

theorem less_eq (x y : BitVec w) : less signed x y = decide (ofBits signed x < ofBits signed y) := by
  cases signed <;> simp [less, ofBits, BitVec.ult, BitVec.slt]

theorem ofBits_one (wide : 1 < w) : ofBits signed (1 : BitVec w) = 1 := by
  have double : 2 ^ w = 2 * 2 ^ (w - 1) := by rw [← pow_succ', Nat.sub_add_cancel (Nat.le_of_lt wide)]
  have one : 1 < 2 ^ (w - 1) := Nat.one_lt_two_pow (by omega)
  have value : (1 : BitVec w).toNat = 1 := by
    simpa using Nat.mod_eq_of_lt (by omega : 1 < 2 ^ w)
  have small : (1 : BitVec w).toInt = (1 : BitVec w).toNat := BitVec.toInt_eq_toNat_of_lt (by omega)
  rw [ofBits, small, value, ite_self, Nat.cast_one]

theorem ofBits_ofBool (wide : 1 < w) (b : Bool) : ofBits signed (Accumulate.ofBool b : BitVec w) = if b then 1 else 0 := by
  cases b with
  | false => cases signed <;> simp [ofBits, Accumulate.ofBool]
  | true => exact ofBits_one wide

theorem ofBits_eq_zero {x : BitVec w} : ofBits signed x = 0 ↔ x = 0 := by
  have zero : ofBits signed (0 : BitVec w) = 0 := by cases signed <;> simp [ofBits]
  rw [← zero, ofBits_injective.eq_iff]

/-- On the integers of a type this is the arithmetic of its bits. -/
theorem intArith_m4Op (wide : 1 < w) (x y : BitVec w) (op : Op) :
    (intArith w signed).m4Op (ofBits signed x) (ofBits signed y) op = (Accumulate.m4Op signed x y op).map (ofBits signed) := by
  cases op with
  | min | max => simp [Arith.m4Op, Accumulate.m4Op, intArith, less_eq, apply_ite (ofBits signed)]
  | sum => simp [Arith.m4Op, Accumulate.m4Op, intArith, narrow, BitVec.ofInt_add]
  | prod => simp [Arith.m4Op, Accumulate.m4Op, intArith, narrow, BitVec.ofInt_mul]
  | band | bor | bxor => simp [Arith.m4Op, Accumulate.m4Op, intArith]
  | land | lor | lxor => simp [Arith.m4Op, Accumulate.m4Op, intArith, ofBits_ofBool wide, ofBits_eq_zero]
  | maxloc | minloc | replace | noOp => rfl

/-- The operations of the integer types, each as a commutative semigroup. -/
theorem intArith_leftCommutative {op : Op} (known : op ∈ cArms) :
    ∃ f : ℤ → ℤ → ℤ, LeftCommutative f ∧ ∀ a b, (intArith w signed).m4Op a b op = some (f a b) := by
  have bits : Function.RightInverse (ofBits signed : BitVec w → ℤ) (BitVec.ofInt w) := ofInt_ofBits
  have truth : Function.RightInverse (fun b : Bool => if b then (1 : ℤ) else 0) (fun a => decide (a ≠ 0)) := by
    intro b
    cases b <;> rfl
  cases op with
  | min =>
    refine ⟨min, inferInstance, fun a b => congrArg some ?_⟩
    simp only [intArith, decide_eq_true_eq]
    split <;> omega
  | max =>
    refine ⟨max, inferInstance, fun a b => congrArg some ?_⟩
    simp only [intArith, decide_eq_true_eq]
    split <;> omega
  | sum =>
    refine ⟨_, leftCommutative_retract bits (· + ·), fun a b => ?_⟩
    simp only [Arith.m4Op, intArith, narrow, BitVec.ofInt_add]
  | prod =>
    refine ⟨_, leftCommutative_retract bits (· * ·), fun a b => ?_⟩
    simp only [Arith.m4Op, intArith, narrow, BitVec.ofInt_mul]
  | band => exact ⟨_, leftCommutative_retract bits (· &&& ·), fun a b => rfl⟩
  | bor => exact ⟨_, leftCommutative_retract bits (· ||| ·), fun a b => rfl⟩
  | bxor => exact ⟨_, leftCommutative_retract bits (· ^^^ ·), fun a b => rfl⟩
  | land => exact ⟨_, leftCommutative_retract truth (· && ·), fun a b => rfl⟩
  | lor => exact ⟨_, leftCommutative_retract truth (· || ·), fun a b => rfl⟩
  | lxor =>
    have : Std.Commutative fun a b : Bool => a != b := ⟨by decide⟩
    refine ⟨_, leftCommutative_retract truth (· != ·), fun a b => ?_⟩
    simp only [Arith.m4Op, intArith]
    by_cases a = 0 <;> by_cases b = 0 <;> simp [*]
  | maxloc | minloc | replace | noOp => exact absurd known (by decide)

end Integers

section Lexicographic
variable {T : BasicType} (pair : T.expansion = .pair)

theorem integers_lt (T : BasicType) (a b : ℤ) : (integers.arith T).lt a b = decide (a < b) := by
  cases T <;> rfl

include pair

/-- With `MPI_MAXLOC` the greatest value, and of those the least index. -/
theorem combine_maxloc : combine integers T .maxloc = fun a b =>
    (fun p : ℤ ×ₗ ℤᵒᵈ => ((ofLex p).1, OrderDual.ofDual (ofLex p).2))
      (max (toLex (a.1, OrderDual.toDual a.2)) (toLex (b.1, OrderDual.toDual b.2))) := by
  funext a b
  have order : (integers.rankLt T a.2 b.2 = true) = (a.2 < b.2) := by simp [integers]
  simp only [combine, pair, if_true, integers_lt, order, decide_eq_true_eq, max_def, Prod.Lex.toLex_le_toLex,
    OrderDual.toDual_le_toDual]
  split_ifs <;> first | rfl | omega

/-- With `MPI_MINLOC` the least value, and of those the least index. -/
theorem combine_minloc : combine integers T .minloc = fun a b =>
    ofLex (min (toLex a) (toLex b)) := by
  funext a b
  have order : (integers.rankLt T b.2 a.2 = true) = (b.2 < a.2) := by simp [integers]
  simp only [combine, pair, reduceCtorEq, if_false, integers_lt, order, decide_eq_true_eq, min_def, Prod.Lex.toLex_le_toLex]
  split_ifs <;> first | rfl | omega

end Lexicographic

section Elements
variable {T : BasicType} {op : Op}

theorem cArms_of_arms {T : IntType} (computed : op ∈ (BasicType.integer T).arms) : op ∈ cArms := by
  cases T <;> revert op <;> decide

theorem integer_scalar {T : IntType} (computed : op ∈ (BasicType.integer T).arms) :
    ∃ unfinished chain, (BasicType.integer T).expansion = .scalar unfinished chain := by
  cases T with
  | count => simp [BasicType.arms, BasicType.expansion] at computed
  | _ => exact ⟨_, _, rfl⟩

/-- Whatever `foMPI_RMA_op` computes on integers, two contributions may change places. -/
theorem combine_leftCommutative (integral : T.isIntegral) (computed : op ∈ T.arms) :
    LeftCommutative (combine integers T op) := by
  have paired (pair : T.expansion = .pair) : LeftCommutative (combine integers T op) := by
    have retract : Function.RightInverse (fun p : ℤ ×ₗ ℤᵒᵈ => ((ofLex p).1, OrderDual.ofDual (ofLex p).2))
        (fun a : ℤ × ℤ => toLex (a.1, OrderDual.toDual a.2)) := fun _ => rfl
    simp only [BasicType.arms, pair, List.mem_cons, List.not_mem_nil, or_false] at computed
    obtain rfl | rfl := computed
    · rw [combine_maxloc pair]
      exact leftCommutative_retract retract max
    · rw [combine_minloc pair]
      exact leftCommutative_retract (fun _ => rfl) min
  cases T with
  | integer T =>
    obtain ⟨f, comm, value⟩ : ∃ f : ℤ → ℤ → ℤ, LeftCommutative f ∧
        ∀ a b, (intArith T.width T.isSigned).m4Op a b op = some (f a b) :=
      intArith_leftCommutative (cArms_of_arms computed)
    obtain ⟨unfinished, chain, expansion⟩ := integer_scalar computed
    have scalar : combine integers (.integer T) op = fun a b => (f a.1 b.1, f a.1 b.1) := by
      funext a b
      simp [combine, expansion, integers, value]
    rw [scalar]
    exact ⟨fun a b c => by simp only [comm.left_comm]⟩
  | twoInt | twoInteger | shortInt | longInt => exact paired rfl
  | _ => simp [BasicType.isIntegral] at integral

/-- Integers are combined in place as anywhere. -/
theorem combineInPlace_integral (integral : T.isIntegral) (computed : op ∈ T.arms) :
    combineInPlace integers T op = combine integers T op := by
  refine combineInPlace_eq computed fun ⟨fortran, _⟩ => ?_
  cases T with
  | integer T =>
    obtain ⟨unfinished, chain, expansion⟩ := integer_scalar computed
    exact absurd (expansion.symm.trans fortran) (by simp)
  | twoInt | twoInteger | shortInt | longInt => exact absurd fortran (by decide)
  | _ => simp [BasicType.isIntegral] at integral

end Elements

section Contributions
variable {V : Type*} {M : Machine V} {T : BasicType} {op : Op} {q p : Loc} {count : ℕ}

/-- One contribution: `foMPI_RMA_op` on the `count` elements at `q`, in place, with those that an origin
holds at `p`. -/
def contribute (M : Machine V) (T : BasicType) (op : Op) (q p : Loc) (count : ℕ) (m origin : Memory V) : Memory V :=
  (rmaOp M T q p q (fun x => if x.buffer = p.buffer then origin x else m x) op count).1

theorem contribute_element (computed : op ∈ T.arms) (apart : p.buffer ≠ q.buffer) {i : ℕ} (lt : i < count)
    (m origin : Memory V) : fieldsAt T (contribute M T op q p count m origin) (q.shift (i * T.extent)) =
      combineInPlace M T op (fieldsAt T origin (p.shift (i * T.extent))) (fieldsAt T m (q.shift (i * T.extent))) := by
  have fields := fields_ne_nil computed
  rw [contribute, rmaOp_inPlace computed apart lt]
  congr 1
  · exact fieldsAt_congr (fun f _ => if_pos rfl) fields
  · exact fieldsAt_congr (fun f _ => if_neg apart.symm) fields

/-- Any number of contributions to integers, or to integers with an index, leave every element the same in
every order. -/
theorem contributions_commute (integral : T.isIntegral) (computed : op ∈ T.arms) (apart : p.buffer ≠ q.buffer)
    (target : Memory ℤ) {origins origins' : List (Memory ℤ)} (perm : origins.Perm origins') {i : ℕ} (lt : i < count) :
    fieldsAt T (origins.foldl (contribute integers T op q p count) target) (q.shift (i * T.extent)) =
      fieldsAt T (origins'.foldl (contribute integers T op q p count) target) (q.shift (i * T.extent)) := by
  have commute := combine_leftCommutative integral computed
  rw [← combineInPlace_integral integral computed] at commute
  exact observe_foldl_perm (fun m => fieldsAt T m (q.shift (i * T.extent))) (fun m => fieldsAt T m (p.shift (i * T.extent)))
    (contribute_element computed apart lt) perm target

/-- Three pairs, of equal values with other indices among them. -/
theorem contributions_commute_maxloc :
    let pair (value index : ℤ) : Memory ℤ := fun x => if x.addr = 0 then value else index
    let run := List.foldl (contribute integers .twoInt .maxloc ⟨.target, 0⟩ ⟨.origin, 0⟩ 1) (pair 3 7)
    fieldsAt .twoInt (run [pair 5 2, pair 4 1, pair 5 1]) ((⟨.target, 0⟩ : Loc).shift ((0 : ℕ) * BasicType.twoInt.extent)) =
      fieldsAt .twoInt (run [pair 4 1, pair 5 2, pair 5 1]) ((⟨.target, 0⟩ : Loc).shift ((0 : ℕ) * BasicType.twoInt.extent)) := by
  intro pair run
  exact contributions_commute rfl (by decide) (by decide) (pair 3 7) (List.Perm.swap _ _ _) (by decide)

end Contributions

end FoMPI.Combine
