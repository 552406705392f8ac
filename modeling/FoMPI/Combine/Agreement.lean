import Mathlib.Algebra.Ring.Basic
import Mathlib.Data.BitVec
import FoMPI.Combine.Card
import FoMPI.Combine.Gaps
import FoMPI.Combine.Unsupported

/-!
# Accumulates agree

`foMPI_Accumulate`, `foMPI_Get_accumulate` and `foMPI_Fetch_and_op` on the same
arguments. Each way through the three functions combines the elements of the target
with those of the origin, under a condition of its own; where all conditions hold the
target is left the same by all three, and where one does not hold there are contents
for which it is not.
-/
namespace FoMPI.Combine
open FoMPI.Accumulate FoMPI.Comm FoMPI.Dcache FoMPI.Foundation FoMPI.RmaNotify FoMPI.Window

universe u

variable {ι V : Type u} {M : Machine V} {W : Win} {D : Types ι} {layout : Layout ι} {C : Call ι} {T : BasicType}
  {n : ℕ} {m m' m₁ m₂ : Memory V}

/-- Two memories hold the same elements of the target and are the same outside of the target datatype. -/
structure SameTarget (W : Win) (layout : Layout ι) (C : Call ι) (T : BasicType) (n : ℕ) (m m' : Memory V) : Prop where
  elements : ∀ e < n, fieldsAt T m (targetElement W layout C T e) = fieldsAt T m' (targetElement W layout C T e)
  others : ∀ x, (∀ b ∈ bytes (layout C.target.1 C.target.2), x ≠ targetStart W C + b) →
    m ⟨.target, x⟩ = m' ⟨.target, x⟩

/-- Each element of the target is combined with that of the origin. -/
structure Combined (W : Win) (layout : Layout ι) (C : Call ι) (T : BasicType) (n : ℕ)
    (g : V × V → V × V → V × V) (m m' : Memory V) : Prop where
  elements : ∀ e < n, fieldsAt T m' (targetElement W layout C T e) =
    g (fieldsAt T m (originLoc layout C T e)) (fieldsAt T m (targetElement W layout C T e))
  others : ∀ x, (∀ b ∈ bytes (layout C.target.1 C.target.2), x ≠ targetStart W C + b) →
    m' ⟨.target, x⟩ = m ⟨.target, x⟩

theorem Combined.same {g : V × V → V × V → V × V} (first : Combined W layout C T n g m m₁)
    (second : Combined W layout C T n g m m₂) : SameTarget W layout C T n m₁ m₂ :=
  ⟨fun e lt => (first.elements e lt).trans (second.elements e lt).symm,
    fun x out => (first.others x out).trans (second.others x out).symm⟩

/-- Where the memories are the same the functions agree on what was there. -/
theorem Combined.agree {g g' : V × V → V × V → V × V} (first : Combined W layout C T n g m m₁)
    (second : Combined W layout C T n g' m m₂) (same : SameTarget W layout C T n m₁ m₂) {e : ℕ} (lt : e < n) :
    g (fieldsAt T m (originLoc layout C T e)) (fieldsAt T m (targetElement W layout C T e)) =
      g' (fieldsAt T m (originLoc layout C T e)) (fieldsAt T m (targetElement W layout C T e)) :=
  (first.elements e lt).symm.trans ((same.elements e lt).trans (second.elements e lt))

section MutexPath
variable (call : Elementwise W D layout C T n)
include call

theorem combined_accumulate (m : Memory V) : Combined W layout C T n (combineInPlace M T C.op) m
    (copyAll (putLocs W layout C .buffer C.bufferAddr (D.named T, n)) (inPlace M W D layout C T n m)) where
  elements _ lt := (put_target call lt _).trans (inPlace_slot call lt)
  others _ out := (putLocs_outside _ _ fun b hb same => out b hb (congrArg Loc.addr same)).trans
    (inPlace_other call (by simp))

theorem combined_getAccumulate (m : Memory V) : Combined W layout C T n (combine M T C.op) m
    (copyAll (putLocs W layout C .buffer C.bufferAddr (D.named T, n)) (intoBuffer M W layout C T n m)) where
  elements _ lt := (put_target call lt _).trans (intoBuffer_slot call lt)
  others _ out := (putLocs_outside _ _ fun b hb same => out b hb (congrArg Loc.addr same)).trans
    ((intoBuffer_other call (by simp)).trans (getLocs_frame _ m (by simp)))

end MutexPath

section Words
variable (call : Elementwise W D layout C (.integer .int64) n)
include call

theorem targetElement_word (type : C.target.1 = D.named (.integer .int64)) {e : ℕ} (lt : e < n) :
    targetElement W layout C (.integer .int64) e = word .target (targetStart W C) e := by
  rw [targetElement, call.key_eq call.target type, call.elementAt_named lt]
  rfl

theorem originLoc_word (type : C.origin.1 = D.named (.integer .int64)) {e : ℕ} (lt : e < n) :
    originLoc layout C (.integer .int64) e = word .origin C.originAddr e := by
  rw [originLoc, call.key_eq call.origin type, call.elementAt_named lt]
  rfl

theorem word_outside (type : C.target.1 = D.named (.integer .int64)) {x : ℤ}
    (out : ∀ b ∈ bytes (layout C.target.1 C.target.2), x ≠ targetStart W C + b) {e : ℕ} (lt : e < n) :
    (⟨.target, x⟩ : Loc) ≠ word .target (targetStart W C) e := by
  intro same
  refine out (e * 8) ?_ (congrArg Loc.addr same)
  have inside : e * 8 < n * (BasicType.integer .int64).size := by
    simp only [BasicType.size, IntType.size]
    omega
  rw [call.key_eq call.target type, call.row, bytes_single]
  exact List.mem_map.mpr ⟨e * 8, List.mem_range.mpr inside, by push_cast; rfl⟩

theorem combined_carded (card : OnCard D C) (own : OwnBase W C) (cut : CutAtWords W C n) (m : Memory V) :
    Combined W layout C (.integer .int64) n (combine M (.integer .int64) C.op) m (carded M W C n m) := by
  obtain ⟨originType, targetType, -⟩ := card
  have row : layout C.target.1 C.target.2 = [⟨0, n * 8⟩] := by
    rw [call.key_eq call.target targetType]
    exact call.row
  have words := words_of_cut (call.cardPieces_spec row).1 cut
  have start := cardStart_eq_iff.mpr own
  constructor
  · intro e lt
    rw [targetElement_word call targetType lt, originLoc_word call originType lt, word, ← start]
    simp only [fieldsAt, combine, BasicType.expansion, carded_apply words lt, word]
  · intro x out
    refine carded_frame fun p hp => ?_
    rw [words] at hp
    obtain ⟨e, he, rfl⟩ := List.mem_map.mp hp
    rw [start]
    exact word_outside call targetType out (List.mem_range.mp he)

theorem combined_afadd (static : W.locality.dynamic = false) (originType : C.origin.1 = D.named (.integer .int64))
    (targetType : C.target.1 = D.named (.integer .int64)) (sum : C.op = .sum) (m : Memory V) :
    Combined W layout C (.integer .int64) n (combine M (.integer .int64) C.op) m
      (runAll (afadd M W C) (List.range n) m) := by
  constructor
  · intro e lt
    rw [targetElement_word call targetType lt, originLoc_word call originType lt]
    simp only [fieldsAt, combine, BasicType.expansion, sum, Arith.m4Op, Option.getD_some,
      runAll_afadd_added static lt]
  · intro x out
    refine runAll_afadd_frame static fun i lt hx => ?_
    obtain same | same := hx
    · exact word_outside call targetType out lt same
    · exact Buffer.noConfusion (congrArg Loc.buffer same)

end Words

section Fetch

/-- The operations after which success is returned. -/
def BasicType.finished (T : BasicType) : List Op :=
  match T.expansion with
  | .scalar _ chain => chain
  | _ => T.arms

/-- One element of the named type in each buffer. -/
structure Single (D : Types ι) (C : Call ι) (T : BasicType) (n : ℕ) : Prop where
  one : n = 1
  origin : C.origin = (D.named T, 1)
  result : C.result = (D.named T, 1)
  target : C.target = (D.named T, 1)

theorem rmaOp_success {p3 p1 p2 : Loc} {op : Op} {count : ℕ} (computed : op ∈ T.arms) :
    (rmaOp M T p3 p1 p2 m op count).2 = .success ↔ op ∈ T.finished := by
  unfold rmaOp BasicType.finished
  cases expansion : T.expansion <;> simp_all [BasicType.arms] <;> split <;> simp_all

theorem loop_one {p3 p1 p2 : Loc} (body : Loc → Loc → Loc → Memory V → Memory V) :
    loop T p3 p1 p2 m body 1 = body p3 p1 p2 m := by
  have zero (p : Loc) : p.shift 0 = p := shift_zero p
  simp [loop, runAll, List.range_succ, zero]

/-- The bytes of one element at another place. -/
theorem fieldsAt_copy {p q : Loc} (apart : p.buffer ≠ q.buffer) (some_field : T.fields ≠ []) :
    fieldsAt T (copyAll ((List.range T.size).map fun k : ℕ => (p.shift k, q.shift k)) m) p = fieldsAt T m q := by
  refine fieldsAt_congr (fun f hf => ?_) some_field
  refine copyAll_apply (p := (p.shift f, q.shift f)) (fun a ha b hb same => ?_) (fun a ha b hb same => ?_)
    (List.mem_map.mpr ⟨f, List.mem_range.mpr (fields_lt T f hf), rfl⟩) m
  · obtain ⟨k, -, rfl⟩ := List.mem_map.mp ha
    obtain ⟨l, -, rfl⟩ := List.mem_map.mp hb
    have buffers : (p.shift k).buffer = (q.shift l).buffer := congrArg Loc.buffer same
    exact apart buffers
  · obtain ⟨k, -, rfl⟩ := List.mem_map.mp ha
    obtain ⟨l, -, rfl⟩ := List.mem_map.mp hb
    have addr := add_left_cancel (congrArg Loc.addr same)
    simp only [addr]

/-- The memory before the put: the buffer holds the combined element, the target is as it was. -/
theorem fetchAndCombine_eq (computed : C.op ∈ T.arms) (addr : ℤ) (m : Memory V) :
    ∃ (m' : Memory V) (res : Code), (∀ x, m' ⟨.target, x⟩ = m ⟨.target, x⟩) ∧
      fieldsAt T m' ⟨.buffer, C.bufferAddr⟩ =
        combine M T C.op (fieldsAt T m ⟨.origin, C.originAddr⟩) (fieldsAt T m ⟨.target, addr⟩) ∧
      fetchAndCombine M C T addr m = if C.op ∈ T.finished then
        (copyAll ((List.range T.size).map fun k : ℕ =>
          ((⟨.target, addr⟩ : Loc).shift k, (⟨.buffer, C.bufferAddr⟩ : Loc).shift k)) m', .success)
      else (m', res) := by
  obtain ⟨noOp, replace⟩ := ne_of_arms computed
  let got := copyAll ((List.range T.size).map fun k : ℕ =>
    ((⟨.result, C.resultAddr⟩ : Loc).shift k, (⟨.target, addr⟩ : Loc).shift k)) m
  have others {x : Loc} (other : x.buffer ≠ .result) : got x = m x := by
    refine copyAll_frame _ m fun p hp same => ?_
    obtain ⟨k, -, rfl⟩ := List.mem_map.mp hp
    exact other (congrArg Loc.buffer same)
  have result : fieldsAt T got ⟨.result, C.resultAddr⟩ = fieldsAt T m ⟨.target, addr⟩ :=
    fieldsAt_copy (by simp) (fields_ne_nil computed)
  have origin : fieldsAt T got ⟨.origin, C.originAddr⟩ = fieldsAt T m ⟨.origin, C.originAddr⟩ :=
    fieldsAt_congr (fun f _ => others (by simp)) (fields_ne_nil computed)
  let operated := rmaOp M T ⟨.buffer, C.bufferAddr⟩ ⟨.origin, C.originAddr⟩ ⟨.result, C.resultAddr⟩ got C.op 1
  have run : operated.1 =
      body M T C.op ⟨.buffer, C.bufferAddr⟩ ⟨.origin, C.originAddr⟩ ⟨.result, C.resultAddr⟩ got := by
    simp only [operated, rmaOp_memory computed, loop_one]
  have returned : operated.2 = .success ↔ C.op ∈ T.finished := rmaOp_success computed
  refine ⟨operated.1, operated.2, fun x => ?_, ?_, ?_⟩
  · rw [run]
    refine (body_frame ?_).trans (others (by simp))
    rintro ⟨f, -, same⟩
    exact Buffer.noConfusion (congrArg Loc.buffer same)
  · rw [run, body_apart computed (by simp) (by simp), result, origin]
  · have taken : fetchAndCombine M C T addr m = if operated.2 = .success then
        (copyAll ((List.range T.size).map fun k : ℕ =>
          ((⟨.target, addr⟩ : Loc).shift k, (⟨.buffer, C.bufferAddr⟩ : Loc).shift k)) operated.1, operated.2)
        else (operated.1, operated.2) := by
      unfold fetchAndCombine
      simp only [if_neg noOp, if_neg replace]
      rfl
    rw [taken]
    by_cases finished : C.op ∈ T.finished
    · rw [if_pos finished, if_pos (returned.mpr finished), returned.mpr finished]
    · rw [if_neg finished, if_neg fun success => finished (returned.mp success)]

variable {s : State ι V} (call : Elementwise W D layout C T n) (single : Single D C T n)

theorem fetchAddr_eq (W : Win) (C : Call ι) (T : BasicType) : fetchAddr W C T =
    if W.locality.dynamic → ∃ r ∈ W.remoteMemRegions, r.covers C.targetDisp T.size then some (targetStart W C)
    else none := by
  unfold fetchAddr targetStart
  cases W.locality.dynamic <;> simp

include call single

theorem single_targetElement : targetElement W layout C T 0 = ⟨.target, targetStart W C⟩ := by
  have place := call.elementAt_named call.some_elements
  rw [single.one] at place
  rw [targetElement, single.target]
  simpa using place

theorem single_originLoc : originLoc layout C T 0 = ⟨.origin, C.originAddr⟩ := by
  have place := call.elementAt_named call.some_elements
  rw [single.one] at place
  rw [originLoc, single.origin]
  simpa using place

theorem combined_fetch (finished : C.op ∈ T.finished) (m : Memory V) : Combined W layout C T n (combine M T C.op) m
    (fetchAndCombine M C T (targetStart W C) m).1 := by
  obtain ⟨m', res, kept, stored, eq⟩ := fetchAndCombine_eq (M := M) call.computed (targetStart W C) m
  rw [eq, if_pos finished]
  constructor
  · intro e lt
    obtain rfl : e = 0 := by
      rw [single.one] at lt
      omega
    rw [single_targetElement call single, single_originLoc call single, ← stored]
    exact fieldsAt_copy (by simp) (fields_ne_nil call.computed)
  · intro x out
    rw [← kept x]
    refine copyAll_frame _ m' fun p hp same => ?_
    obtain ⟨k, hk, rfl⟩ := List.mem_map.mp hp
    refine out k ?_ (congrArg Loc.addr same)
    have row := call.row
    rw [single.one] at row
    rw [single.target, ← Nat.cast_one, row, bytes_single]
    exact List.mem_map.mpr ⟨k, by simpa using hk, rfl⟩

end Fetch

section Dispatch
variable [DecidableEq ι] {s : State ι V} {garbage : ℕ}

/-- Off the network card `foMPI_Accumulate` takes the mutex path. -/
theorem accumulate_offCard (reports : Reports D) (computed : C.op ∈ T.arms) (off : ¬OnCard D C)
    (origin : D.checkBasicType C.origin.1 = some T) (target : D.checkBasicType C.target.1 = some T)
    (some_origin : C.origin.2 ≠ 0) (some_target : C.target.2 ≠ 0) :
    accumulate M W D layout C garbage s = accumulateSoftware M W D layout C T s := by
  obtain ⟨noOp, replace⟩ := ne_of_arms computed
  have sum : ¬(C.origin.1 = C.target.1 ∧ C.target.1 = D.named (.integer .int64) ∧ C.op = .sum) := by
    rintro ⟨same, int64, sum⟩
    exact off ⟨same.trans int64, int64, .inl sum⟩
  have bitwise : ¬(C.origin.1 = C.target.1 ∧
      (C.origin.1 = D.named .double ∨ C.target.1 = D.named (.integer .int64)) ∧
      (C.op = .bor ∨ C.op = .band ∨ C.op = .bxor)) := by
    rintro ⟨same, double | int64, op⟩
    · rw [double, reports.double, Option.some.injEq] at origin
      subst origin
      obtain op | op | op := op <;> rw [op] at computed <;> revert computed <;> decide
    · refine off ⟨same.trans int64, int64, .inr ?_⟩
      obtain op | op | op := op
      · exact .inr (.inl op)
      · exact .inl op
      · exact .inr (.inr op)
  unfold accumulate
  rw [if_neg (not_or.mpr ⟨some_origin, some_target⟩), if_neg sum, if_neg bitwise, if_neg replace, origin, target]
  simp

/-- The fast path of `foMPI_Get_accumulate` is for sums of words on static windows. -/
theorem onCard_of_fast (fast : takesFastPath W D C = true) :
    OnCard D C ∧ W.locality.dynamic = false ∧ C.op = .sum := by
  simp only [takesFastPath, decide_eq_true_eq] at fast
  obtain ⟨origin, same, -, static, sum⟩ := fast
  exact ⟨⟨origin, same.symm.trans origin, .inl sum⟩, static, sum⟩

theorem getAccumulate_mutex (slow : takesFastPath W D C = false) (some_target : C.target.2 ≠ 0)
    (some_result : C.result.2 ≠ 0) :
    getAccumulate M W D layout C s = getAccumulateSoftware M W D layout C s := by
  rw [getAccumulate, if_neg (not_or.mpr ⟨some_target, some_result⟩), slow]
  rfl

variable (call : Elementwise W D layout C T n)

omit [DecidableEq ι] in
theorem HasElements.count_ne {key : Key ι} (has : HasElements D layout T n key) : key.2 ≠ 0 := by
  have := has.count
  omega

omit [DecidableEq ι] in
include call in
theorem OnCard.type_eq (reports : Reports D) (card : OnCard D C) : T = .integer .int64 := by
  have basic := call.origin.basic
  rw [card.1, reports.basic, Option.some.injEq] at basic
  exact basic.symm

theorem accumulate_onCard (call : Elementwise W D layout C (.integer .int64) n) (reports : Reports D)
    (card : OnCard D C) (settled : Settled layout s.cache) (garbage : ℕ) :
    ∃ cache, accumulate M W D layout C garbage s =
      some (.code .success, ⟨carded M W C n s.mem, cache, s.mutex⟩) := by
  obtain ⟨cache, run, -⟩ := hardware_eq (M := M) call reports card settled garbage
  obtain ⟨origin, target, op⟩ := card
  refine ⟨cache, ?_⟩
  have same : C.origin.1 = C.target.1 := origin.trans target.symm
  unfold accumulate
  rw [if_neg (not_or.mpr ⟨call.origin.count_ne, call.target.count_ne⟩), run]
  obtain op | op | op | op := op <;> simp [same, target, op]

variable (reports : Reports D) (settled : Settled layout s.cache) (free : s.mutex = mutexNone)
include call reports settled free

theorem accumulate_combined (card : OnCard D C → OwnBase W C ∧ CutAtWords W C n) (garbage : ℕ) :
    ∃ t, accumulate M W D layout C garbage s = some (.code .success, t) ∧
      Combined W layout C T n (combineInPlace M T C.op) s.mem t.mem := by
  by_cases on : OnCard D C
  · obtain rfl := on.type_eq call reports
    obtain ⟨own, cut⟩ := card on
    obtain ⟨cache, run⟩ := accumulate_onCard (M := M) call reports on settled garbage
    refine ⟨_, run, ?_⟩
    have same : combineInPlace M (.integer .int64) C.op = combine M (.integer .int64) C.op := by
      funext a b
      simp [combineInPlace, BasicType.expansion]
    rw [same]
    exact combined_carded call on own cut s.mem
  · obtain ⟨cache, run, -⟩ := accumulateSoftware_eq (M := M) call settled free
    refine ⟨_, (accumulate_offCard reports call.computed on call.origin.basic call.target.basic
      call.origin.count_ne call.target.count_ne).trans run, ?_⟩
    exact combined_accumulate call s.mem

theorem getAccumulate_combined (count : takesFastPath W D C = true → fastElements W C = n) :
    ∃ t, getAccumulate M W D layout C s = some (.code .success, t) ∧
      Combined W layout C T n (combine M T C.op) s.mem t.mem := by
  cases fast : takesFastPath W D C with
  | true =>
    obtain ⟨card, static, sum⟩ := onCard_of_fast fast
    obtain rfl := card.type_eq call reports
    refine ⟨_, getAccumulate_fast fast call.target.count_ne call.result.count_ne s, ?_⟩
    rw [count fast]
    exact combined_afadd call static card.1 card.2.1 sum s.mem
  | false =>
    obtain ⟨cache, run, -⟩ := getAccumulateSoftware_eq (M := M) call settled free
    refine ⟨_, (getAccumulate_mutex fast call.target.count_ne call.result.count_ne).trans run, ?_⟩
    exact combined_getAccumulate call s.mem

end Dispatch

/-- The product of Fortran complex types is the one operation that minds the aliasing. -/
theorem combineInPlace_eq {op : Op} (computed : op ∈ T.arms) (other : ¬(T.expansion = .fortranComplex ∧ op = .prod)) :
    combineInPlace M T op = combine M T op := by
  funext a b
  unfold combineInPlace
  by_cases fortran : T.expansion = .fortranComplex
  · have sum : op = .sum := by
      simp only [BasicType.arms, fortran, List.mem_cons, List.not_mem_nil, or_false] at computed
      exact computed.resolve_right fun prod => other ⟨fortran, prod⟩
    simp [sum]
  · simp [fortran]

section Contents
variable {p q : Loc} {a b : V × V}

/-- An operand and an element of the target with given fields. -/
def planted (p q : Loc) (a b : V × V) : Memory V := fun x =>
  if x = p then a.1 else if x = q then b.1 else if x.buffer = .origin then a.2 else b.2

section Planted
variable (origin : p.buffer = .origin) (target : q.buffer = .target)
include origin target

theorem planted_target : planted p q a b q = b.1 := by
  have ne : q ≠ p := by
    rintro rfl
    exact Buffer.noConfusion (origin.symm.trans target)
  simp [planted, ne]

theorem planted_fields (fields : T.fields = [0, T.second]) :
    fieldsAt T (planted p q a b) p = a ∧ fieldsAt T (planted p q a b) q = b := by
  have first : planted p q a b (p.shift T.second) = a.2 := by
    have ne : p.shift T.second ≠ p := (shift_ne p).symm
    have ne' : p.shift T.second ≠ q := fun same => by
      have buffers := congrArg Loc.buffer same
      rw [shift_buffer, origin, target] at buffers
      exact Buffer.noConfusion buffers
    simp [planted, ne, ne', origin]
  have second : planted p q a b (q.shift T.second) = b.2 := by
    have ne : q.shift T.second ≠ q := (shift_ne q).symm
    have ne' : q.shift T.second ≠ p := fun same => by
      have buffers := congrArg Loc.buffer same
      rw [shift_buffer, origin, target] at buffers
      exact Buffer.noConfusion buffers
    simp [planted, ne, ne', target]
  have here : planted p q a b p = a.1 := by simp [planted]
  unfold BasicType.fields at fields
  cases expansion : T.expansion <;> simp [expansion] at fields <;>
    simp [fieldsAt, expansion, first, second, here, planted_target origin target]

theorem planted_combine (op : Op) :
    (combine M T op (fieldsAt T (planted p q a b) p) (fieldsAt T (planted p q a b) q)).1 =
      (combine M T op a b).1 := by
  cases expansion : T.expansion with
  | scalar =>
    have here : planted p q a b p = a.1 := by simp [planted]
    simp [combine, fieldsAt, expansion, here, planted_target origin target]
  | missing => simp [combine, fieldsAt, expansion, planted_target origin target]
  | _ =>
    obtain ⟨first, second⟩ := planted_fields (T := T) (a := a) (b := b) origin target (by simp [BasicType.fields, expansion])
    rw [first, second]

end Planted

theorem fieldsAt_fst (m : Memory V) (q : Loc) : (fieldsAt T m q).1 = m q := by
  unfold fieldsAt
  split <;> rfl

end Contents

/-- Complex arithmetic is exact, and every operation changes some element. -/
structure Computes [CommRing V] (M : Machine V) : Prop where
  exact : ∀ T : BasicType, T.expansion = .fortranComplex →
    (M.arith T).add = (· + ·) ∧ (M.arith T).sub = (· - ·) ∧ (M.arith T).mul = (· * ·)
  effect : ∀ T : BasicType, ∀ op ∈ T.arms, ∃ a b, (combine M T op a b).1 ≠ b.1

/-- The three calls return, with the same in the target; the third one takes one element of a named
type. -/
def Agree [DecidableEq ι] (M : Machine V) (W : Win) (D : Types ι) (layout : Layout ι) (C : Call ι) (T : BasicType)
    (n garbage : ℕ) (s : State ι V) : Prop :=
  ∃ t t', accumulate M W D layout C garbage s = some (.code .success, t) ∧
    getAccumulate M W D layout C s = some (.code .success, t') ∧ SameTarget W layout C T n t.mem t'.mem ∧
    (Single D C T n → ∃ status t'', fetchAndOp M W C T s = some (status, t'') ∧
      SameTarget W layout C T n t.mem t''.mem)

/-- Whatever runs of the first two show, they leave the same. -/
theorem Agree.same [DecidableEq ι] {s t t' : State ι V} {garbage : ℕ}
    (agree : Agree M W D layout C T n garbage s)
    (ran : accumulate M W D layout C garbage s = some (.code .success, t))
    (ran' : getAccumulate M W D layout C s = some (.code .success, t')) :
    SameTarget W layout C T n t.mem t'.mem := by
  obtain ⟨u, u', runs, runs', same, -⟩ := agree
  obtain rfl := (Prod.mk.inj (Option.some.inj (ran.symm.trans runs))).2
  obtain rfl := (Prod.mk.inj (Option.some.inj (ran'.symm.trans runs'))).2
  exact same

/-- When they agree on all contents. -/
structure Sound [DecidableEq ι] (W : Win) (D : Types ι) (C : Call ι) (T : BasicType) (n : ℕ) : Prop where
  product : ¬(T.expansion = .fortranComplex ∧ C.op = .prod)
  gaps : T.OneBlock ∧ (T.extent = T.size ∨ n = 1)
  card : OnCard D C → OwnBase W C ∧ CutAtWords W C n
  fast : takesFastPath W D C = true →
    8 * n ≤ n * W.dispUnit % 4294967296 ∧ n * W.dispUnit % 4294967296 < 8 * n + 8
  fetch : Single D C T n → C.op ∈ T.finished ∧
    (W.locality.dynamic → ∃ r ∈ W.remoteMemRegions, r.covers C.targetDisp T.size)

section Agreement
variable [DecidableEq ι] {s : State ι V} {garbage : ℕ} (call : Elementwise W D layout C T n) (reports : Reports D)
include call reports

theorem fastElements_of_sound (sound : Sound W D C T n) : takesFastPath W D C = true → fastElements W C = n := by
  intro fast
  obtain ⟨card, -, -⟩ := onCard_of_fast fast
  obtain rfl := card.type_eq call reports
  refine (fastElements_iff ?_).mpr (sound.fast fast)
  rw [call.key_eq call.target card.2.1]

/-- Where the conditions hold all three combine the elements. -/
theorem agree_of_sound (sound : Sound W D C T n) (settled : Settled layout s.cache) (free : s.mutex = mutexNone)
    (garbage : ℕ) : Agree M W D layout C T n garbage s := by
  obtain ⟨t, ran, first⟩ := accumulate_combined (M := M) call reports settled free sound.card garbage
  obtain ⟨t', ran', second⟩ := getAccumulate_combined (M := M) call reports settled free
    (fastElements_of_sound call reports sound)
  rw [combineInPlace_eq call.computed sound.product] at first
  refine ⟨t, t', ran, ran', first.same second, fun single => ?_⟩
  obtain ⟨finished, holds⟩ := sound.fetch single
  have found : fetchAddr W C T = some (targetStart W C) := by
    rw [fetchAddr_eq, if_pos holds]
  exact ⟨_, _, fetchAndOp_eq free found, first.same (combined_fetch call single finished s.mem)⟩

end Agreement

section Disagreement
variable {a b : V × V} {cache : GlobInfo ι} {e : ℕ}

/-- Contents with which element `e` of the target changes. -/
def contents (W : Win) (layout : Layout ι) (C : Call ι) (T : BasicType) (e : ℕ) (a b : V × V)
    (cache : GlobInfo ι) : State ι V :=
  ⟨planted (originLoc layout C T e) (targetElement W layout C T e) a b, cache, mutexNone⟩

theorem contents_target : (contents W layout C T e a b cache).mem (targetElement W layout C T e) = b.1 := by
  exact planted_target (p := originLoc layout C T e) (q := targetElement W layout C T e) rfl rfl

/-- Where another memory has an element as it was, it is not the same as one in which it is combined. -/
theorem Combined.not_same (effect : (combine M T C.op a b).1 ≠ b.1) (lt : e < n)
    (combined : Combined W layout C T n (combine M T C.op) (contents W layout C T e a b cache).mem m)
    (kept : m' (targetElement W layout C T e) = b.1) : ¬SameTarget W layout C T n m m' := by
  intro same
  have stored := congrArg Prod.fst (combined.elements e lt)
  have fields := congrArg Prod.fst (same.elements e lt)
  rw [fieldsAt_fst] at stored
  rw [fieldsAt_fst, fieldsAt_fst, kept, stored] at fields
  exact effect ((planted_combine rfl rfl C.op).symm.trans fields)

theorem SameTarget.symm (same : SameTarget W layout C T n m m') : SameTarget W layout C T n m' m :=
  ⟨fun e lt => (same.elements e lt).symm, fun x out => (same.others x out).symm⟩

variable [DecidableEq ι] {garbage : ℕ} (reports : Reports D) (settled : Settled layout cache)
  (agree : ∀ s : State ι V, Settled layout s.cache → s.mutex = mutexNone → Agree M W D layout C T n garbage s)
include reports settled agree

theorem product_of_agree [CommRing V] [Nontrivial V] (computes : Computes M) (call : Elementwise W D layout C T n) :
    ¬(T.expansion = .fortranComplex ∧ C.op = .prod) := by
  rintro ⟨fortran, prod⟩
  have off : ¬OnCard D C := by
    intro card
    rw [card.type_eq call reports] at fortran
    exact absurd fortran (by decide)
  have slow : takesFastPath W D C = false := by simp [takesFastPath, prod]
  let s := contents W layout C T 0 ((0, 1) : V × V) ((1, 0) : V × V) cache
  obtain ⟨t, ran, first⟩ := accumulate_combined (M := M) (s := s) call reports settled rfl
    (fun card => absurd card off) garbage
  obtain ⟨t', ran', second⟩ := getAccumulate_combined (M := M) (s := s) call reports settled rfl
    (fun fast => absurd fast (by simp [slow]))
  have same := (agree s settled rfl).same ran ran'
  have values := first.agree second same call.some_elements
  obtain ⟨left, right⟩ := planted_fields (p := originLoc layout C T 0) (q := targetElement W layout C T 0)
    (a := ((0, 1) : V × V)) (b := ((1, 0) : V × V)) rfl rfl (T := T) (by simp [BasicType.fields, fortran])
  obtain ⟨add, sub, mul⟩ := computes.exact T fortran
  simp only [s, contents, left, right] at values
  simp [combineInPlace, combine, fortran, prod, add, sub, mul] at values

theorem card_of_agree (effect : (combine M T C.op a b).1 ≠ b.1) (call : Elementwise W D layout C T n)
    (card : OnCard D C) : OwnBase W C ∧ CutAtWords W C n := by
  obtain rfl := card.type_eq call reports
  cases fast : takesFastPath W D C with
  | true =>
    obtain ⟨-, static, sum⟩ := onCard_of_fast fast
    exact ⟨.inr (.inl sum), cutAtWords_static static⟩
  | false =>
    have row : layout C.target.1 C.target.2 = [⟨0, n * 8⟩] := by
      rw [call.key_eq call.target card.2.1]
      exact call.row
    refine own_of_all_met (call.cardPieces_spec row).1 call.some_elements fun e lt => ?_
    by_contra missed
    obtain ⟨cache₁, ran⟩ := accumulate_onCard (M := M) (s := contents W layout C (.integer .int64) e a b cache)
      call reports card settled garbage
    obtain ⟨t', ran', combined⟩ := getAccumulate_combined (M := M)
      (s := contents W layout C (.integer .int64) e a b cache) call reports settled rfl
      (fun taken => absurd taken (by simp [fast]))
    have same := (agree (contents W layout C (.integer .int64) e a b cache) settled rfl).same ran ran'
    refine combined.not_same effect lt ?_ same.symm
    refine (carded_frame fun p hp met => missed ⟨p, hp, ?_⟩).trans contents_target
    rw [targetElement_word call card.2.1 lt] at met
    exact congrArg Loc.addr met

theorem fast_of_agree (effect : (combine M T C.op a b).1 ≠ b.1) (call : Elementwise W D layout C T n)
    (fast : takesFastPath W D C = true) : fastElements W C = n := by
  obtain ⟨card, static, sum⟩ := onCard_of_fast fast
  obtain rfl := card.type_eq call reports
  by_contra wrong
  obtain fewer | more := Nat.lt_or_gt_of_ne wrong
  · let s := contents W layout C (.integer .int64) (fastElements W C) a b cache
    obtain ⟨t, ran, combined⟩ := accumulate_combined (M := M) (s := s) call reports settled rfl
      (fun _ => ⟨.inr (.inl sum), cutAtWords_static static⟩) garbage
    rw [combineInPlace_eq call.computed (by simp [sum])] at combined
    have ran' : getAccumulate M W D layout C s = _ :=
      getAccumulate_fast fast call.target.count_ne call.result.count_ne s
    have same := (agree s settled rfl).same ran ran'
    refine combined.not_same effect fewer ?_ same
    refine (runAll_afadd_frame static fun i lt hx => ?_).trans contents_target
    rw [targetElement_word call card.2.1 fewer] at hx
    obtain met | met := hx
    · exact absurd (word_injective met) lt.ne'
    · exact Buffer.noConfusion (congrArg Loc.buffer met)
  · -- the element after the last one
    let s : State ι V := ⟨planted (word .origin C.originAddr n) (word .target (targetStart W C) n) a b, cache, mutexNone⟩
    obtain ⟨t, ran, combined⟩ := accumulate_combined (M := M) (s := s) call reports settled rfl
      (fun _ => ⟨.inr (.inl sum), cutAtWords_static static⟩) garbage
    have ran' : getAccumulate M W D layout C s = _ :=
      getAccumulate_fast fast call.target.count_ne call.result.count_ne s
    have same := (agree s settled rfl).same ran ran'
    have out : ∀ x ∈ bytes (layout C.target.1 C.target.2), targetStart W C + n * 8 ≠ targetStart W C + x := by
      intro x hx at_x
      rw [call.key_eq call.target card.2.1, call.row, bytes_single] at hx
      obtain ⟨k, hk, rfl⟩ := List.mem_map.mp hx
      have lt : k < n * 8 := List.mem_range.mp hk
      omega
    have target : s.mem (word .target (targetStart W C) n) = b.1 :=
      planted_target (p := word .origin C.originAddr n) (q := word .target (targetStart W C) n) rfl rfl
    have kept := (combined.others _ out).trans target
    have added := runAll_afadd_added (M := M) (C := C) (m := s.mem) static more
    rw [target] at added
    have operand : s.mem (word .origin C.originAddr n) = a.1 := by simp [s, planted]
    rw [operand] at added
    refine effect ?_
    have here := same.others _ out
    rw [kept] at here
    simpa [combine, BasicType.expansion, sum, Arith.m4Op] using (here.trans added).symm

theorem fetch_of_agree (effect : (combine M T C.op a b).1 ≠ b.1) (call : Elementwise W D layout C T n)
    (product : ¬(T.expansion = .fortranComplex ∧ C.op = .prod)) (card : OnCard D C → OwnBase W C ∧ CutAtWords W C n)
    (single : Single D C T n) :
    C.op ∈ T.finished ∧ (W.locality.dynamic → ∃ r ∈ W.remoteMemRegions, r.covers C.targetDisp T.size) := by
  let s := contents W layout C T 0 a b cache
  obtain ⟨t, ran, combined⟩ := accumulate_combined (M := M) (s := s) call reports settled rfl card garbage
  rw [combineInPlace_eq call.computed product] at combined
  obtain ⟨u, u', runs, -, -, fetches⟩ := agree s settled rfl
  obtain ⟨status, t', fetched, same⟩ := fetches single
  obtain rfl := (Prod.mk.inj (Option.some.inj (ran.symm.trans runs))).2
  have target := single_targetElement call single
  by_cases holds : W.locality.dynamic → ∃ r ∈ W.remoteMemRegions, r.covers C.targetDisp T.size
  · refine ⟨?_, holds⟩
    by_contra unfinished
    have found : fetchAddr W C T = some (targetStart W C) := by rw [fetchAddr_eq, if_pos holds]
    obtain ⟨m', res, kept, -, eq⟩ := fetchAndCombine_eq (M := M) call.computed (targetStart W C) s.mem
    rw [fetchAndOp_eq (s := s) rfl found, eq, if_neg unfinished] at fetched
    obtain rfl := (Prod.mk.inj (Option.some.inj fetched)).2
    refine combined.not_same effect call.some_elements ?_ same
    rw [target]
    exact (kept _).trans (target ▸ contents_target)
  · have found : fetchAddr W C T = none := by rw [fetchAddr_eq, if_neg holds]
    have returned : fetchAndOp M W C T s = some (.winMemNotFound, s) := by rw [fetchAndOp, found]
    obtain rfl := (Prod.mk.inj (Option.some.inj (returned.symm.trans fetched))).2
    exact absurd same (combined.not_same effect call.some_elements contents_target)

/-- With gaps what the buffer held is put by one of the calls. -/
theorem not_spread_of_agree [Nontrivial V] : ¬Spread W D layout C T n := by
  intro call
  obtain ⟨v, w, ne⟩ := exists_pair_ne V
  obtain ⟨noOp, replace⟩ := ne_of_arms call.computed
  have op : C.op = .maxloc ∨ C.op = .minloc := by
    have computed := call.computed
    rw [BasicType.arms, call.pair] at computed
    simpa using computed
  have off : ¬OnCard D C := by
    rintro ⟨-, -, card⟩
    obtain op | op := op <;> simp [op] at card
  have some_elements : (n : ℤ) ≠ 0 := Int.ofNat_ne_zero.mpr (by have := call.some_elements; omega)
  let s : State ι V := ⟨flawed C T v w, cache, mutexNone⟩
  obtain ⟨cache₁, ran⟩ := call.accumulateSoftware_flawed (M := M) (v := v) (w := w) settled
  obtain ⟨t', ran', hole⟩ := call.getAccumulateSoftware_flawed (M := M) (v := v) (w := w) settled
  have slow : takesFastPath W D C = false := by obtain op | op := op <;> simp [takesFastPath, op]
  have accumulates : accumulate M W D layout C garbage s = accumulateSoftware M W D layout C T s :=
    accumulate_offCard reports call.computed off (by rw [call.origin]; exact call.basic)
      (by rw [call.target]; exact call.basic) (by rwa [call.origin]) (by rwa [call.target])
  have getAccumulates : getAccumulate M W D layout C s = getAccumulateSoftware M W D layout C s :=
    getAccumulate_mutex slow (by rwa [call.target]) (by rwa [call.result])
  have same := (agree s settled rfl).same (accumulates.trans ran) (getAccumulates.trans ran')
  obtain ⟨lt, place, -⟩ := call.hole_mem
  have fields := congrArg Prod.fst (same.elements T.hole lt)
  have target : targetElement W layout C T T.hole = ⟨.target, targetStart W C + (T.hole * T.extent : ℕ)⟩ := by
    rw [targetElement, call.target, place]
    push_cast
    rfl
  rw [fieldsAt_fst, fieldsAt_fst, target, hole] at fields
  exact ne fields

end Disagreement

/-- Some cache is settled: that of a new process. -/
theorem settled_init [DecidableEq ι] (layout : Layout ι) :
    Settled layout (dcacheInit fun _ => ⟨[], 0, none, 0, 0, 0⟩ : GlobInfo ι) :=
  have started := reach_rests (s := ⟨dcacheInit fun _ => ⟨[], 0, none, 0, 0, 0⟩, layout⟩) .refl
  ⟨started.1, started.2⟩

section Examples

theorem words_computes : Computes words where
  exact _ _ := ⟨rfl, rfl, rfl⟩
  effect T op computed := by
    cases expansion : T.expansion with
    | scalar =>
      have value (x y : BitVec 64) : (combine words T op (x, x) (y, y)).1 = ((bitVecArith true).m4Op x y op).getD y := by
        simp [combine, expansion, words]
      have some_effect : ∃ x y : BitVec 64, ((bitVecArith true).m4Op x y op).getD y ≠ y := by
        obtain ⟨v, known⟩ := m4Op_of_arms expansion computed (bitVecArith true : Arith (BitVec 1)) 0 0
        cases op with
        | min | prod | land | band => exact ⟨0, 1, by decide⟩
        | max | sum | lor | lxor | bor | bxor => exact ⟨1, 0, by decide⟩
        | _ => simp [Arith.m4Op] at known
      obtain ⟨x, y, changed⟩ := some_effect
      exact ⟨(x, x), (y, y), by rwa [value]⟩
    | missing => simp [BasicType.arms, expansion] at computed
    | pair =>
      simp only [BasicType.arms, expansion, List.mem_cons, List.not_mem_nil, or_false] at computed
      obtain rfl | rfl := computed
      · exact ⟨(1, 0), (0, 0), by simp [combine, expansion, words, bitVecArith, less]⟩
      · exact ⟨(0, 0), (1, 0), by simp [combine, expansion, words, bitVecArith, less]⟩
    | _ =>
      simp only [BasicType.arms, expansion, List.mem_cons, List.not_mem_nil, or_false] at computed
      obtain rfl | rfl := computed
      · exact ⟨(1, 0), (0, 0), by simp [combine, expansion, words, bitVecArith]⟩
      · exact ⟨(0, 0), (1, 0), by simp [combine, expansion, words, bitVecArith]⟩

theorem predefined_reports : Reports predefined := ⟨rfl, rfl, rfl, rfl, rfl⟩

/-- The imaginary unit in the origin, one in the target. -/
def unitTimesOne : Memory (BitVec 64) := fun p => if p = ⟨.origin, 4⟩ ∨ p = ⟨.target, 4096⟩ then 1 else 0

theorem int_elements : HasElements predefined rows (.integer .int) 1 (.integer .int, 1) where
  basic := rfl
  count := le_refl _
  positive := by simp [Positive, rows, BasicType.size, IntType.size]
  whole := by simp [Whole, rows, BasicType.size, IntType.size]
  total := rfl
  size := rfl
  isRow k intrinsic := by
    obtain rfl : Intrinsic.int = k := Option.some.inj intrinsic
    rfl

theorem int_sum : Elementwise (remote 4) predefined rows (elementsCall .sum (.integer .int) 1) (.integer .int) 1 where
  computed := by decide
  spaced := .inr rfl
  oneBlock := by decide
  some_elements := by decide
  isInt := by decide
  origin := int_elements
  result := int_elements
  target := int_elements
  named := int_elements
  row := rfl
  targetNodup := by decide
  resultNodup := by decide
  attached dynamic := by simp [remote] at dynamic

end Examples

end FoMPI.Combine
