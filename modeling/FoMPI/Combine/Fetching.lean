import FoMPI.Combine.Software

/-!
# The fast path of `foMPI_Get_accumulate`

`MPI_INT64_T` and `foMPI_SUM` on a static window. One contract states what the call has
to do; the mutex path meets it, and the fast path does if it works out the right number
of elements.
-/
namespace FoMPI.Combine
open FoMPI.Accumulate FoMPI.Comm FoMPI.Dcache FoMPI.Foundation FoMPI.RmaNotify FoMPI.Window

universe u

/-- A word of a buffer. -/
def word (near : Buffer) (addr : ℤ) (i : ℕ) : Loc := ⟨near, addr + i * 8⟩

section Words
variable {start : ℤ} {near near' : Buffer} {i j b : ℕ}

theorem word_eq_shift (lt : b < 8) (same : word near start i = (word near' start j).shift b) : i = j ∧ b = 0 := by
  have addr := congrArg Loc.addr same
  simp only [word, Loc.shift] at addr
  omega

theorem word_injective (same : word near start i = word near start j) : i = j := by
  have addr := congrArg Loc.addr same
  simp only [word] at addr
  omega

@[simp] theorem word_buffer : (word near start i).buffer = near := rfl

end Words

section Afadd
variable {ι V : Type u} {M : Machine V} {W : Win} {C : Call ι} {k i : ℕ} {m : Memory V}

/-- The words of an element. -/
def wordsOf (W : Win) (C : Call ι) (i : ℕ) : Set Loc :=
  {word .target (targetStart W C) i, word .result C.resultAddr i}

theorem wordsOf_disjoint : (List.range k).Pairwise fun i j => ∀ x ∈ wordsOf W C i, x ∉ wordsOf W C j := by
  refine List.nodup_range.imp fun {i j} ne => ?_
  rintro x (rfl | rfl) (same | same)
  · exact ne (word_injective same)
  · exact Buffer.noConfusion (congrArg Loc.buffer same)
  · exact Buffer.noConfusion (congrArg Loc.buffer same)
  · exact ne (word_injective same)

variable (static : W.locality.dynamic = false)
include static

/-- One of the atomic operations. -/
theorem afadd_eq (i : ℕ) (m : Memory V) : afadd M W C i m =
    (m.store (word .target (targetStart W C) i) ((M.arith (.integer .int64)).add
      (m (word .origin C.originAddr i)) (m (word .target (targetStart W C) i)))).store
      (word .result C.resultAddr i) (m (word .target (targetStart W C) i)) := by
  have start : targetStart W C = W.base + C.targetDisp * W.dispUnit := by simp [targetStart, static]
  simp only [afadd, start, word]

/-- Each of them has the words of one element to itself. -/
theorem afadd_footprints : Footprints (afadd M W C) (List.range k) (wordsOf W C) {x | x.buffer = .origin} where
  frame i _ s x out := by
    simp only [wordsOf, Set.mem_insert_iff, Set.mem_singleton_iff, not_or] at out
    rw [afadd_eq static, Memory.store, Memory.store, Function.update_of_ne out.2, Function.update_of_ne out.1]
  reads i _ s t own source x hx := by
    have target : s (word .target (targetStart W C) i) = t (word .target (targetStart W C) i) :=
      own _ (by simp [wordsOf])
    have origin : s (word .origin C.originAddr i) = t (word .origin C.originAddr i) := source _ rfl
    rw [afadd_eq static, afadd_eq static, target, origin]
    simp only [Memory.store, Function.update_apply]
    split
    · rfl
    · split
      · rfl
      · exact own x hx
  apart i _ x hx := by
    obtain rfl | rfl := hx
    · exact fun same => Buffer.noConfusion same
    · exact fun same => Buffer.noConfusion same

theorem runAll_afadd_fetched (lt : i < k) : runAll (afadd M W C) (List.range k) m (word .result C.resultAddr i) =
    m (word .target (targetStart W C) i) := by
  rw [(afadd_footprints static).runAll_apply wordsOf_disjoint (List.mem_range.mpr lt) (by simp [wordsOf]) m,
    afadd_eq static, Memory.store, Function.update_self]

theorem runAll_afadd_added (lt : i < k) :
    runAll (afadd M W C) (List.range k) m (word .target (targetStart W C) i) =
      (M.arith (.integer .int64)).add (m (word .origin C.originAddr i)) (m (word .target (targetStart W C) i)) := by
  rw [(afadd_footprints static).runAll_apply wordsOf_disjoint (List.mem_range.mpr lt) (by simp [wordsOf]) m,
    afadd_eq static, Memory.store, Memory.store, Function.update_of_ne, Function.update_self]
  exact fun same => Buffer.noConfusion (congrArg Loc.buffer same)

theorem runAll_afadd_frame {x : Loc} (out : ∀ i < k, x ∉ wordsOf W C i) :
    runAll (afadd M W C) (List.range k) m x = m x :=
  (afadd_footprints static).runAll_frame (fun i hi => out i (List.mem_range.mp hi)) m

end Afadd

/-- The count that the fast path works out. -/
theorem fastElements_iff {ι : Type u} {W : Win} {C : Call ι} {n : ℕ} (target : C.target.2 = n) :
    fastElements W C = n ↔
      8 * n ≤ n * W.dispUnit % 4294967296 ∧ n * W.dispUnit % 4294967296 < 8 * n + 8 := by
  have bytes : (C.target.2 * W.dispUnit % 4294967296).toNat = n * W.dispUnit % 4294967296 := by
    rw [target]
    exact_mod_cast Int.toNat_natCast _
  rw [fastElements, bytes]
  omega

/-- The fast path never takes the mutex. -/
theorem getAccumulate_fast {ι V : Type u} [DecidableEq ι] {M : Machine V} {W : Win} {D : Types ι} {layout : Layout ι}
    {C : Call ι} (fast : takesFastPath W D C = true) (some_target : C.target.2 ≠ 0) (some_result : C.result.2 ≠ 0)
    (s : State ι V) : getAccumulate M W D layout C s = some (.code .success,
      { s with mem := runAll (afadd M W C) (List.range (fastElements W C)) s.mem }) := by
  rw [getAccumulate, if_neg (not_or.mpr ⟨some_target, some_result⟩), if_pos fast]

/-- Each of `n` words is fetched and added to; of the buffers of the program nothing else is
written. -/
structure Updated {ι : Type} (W : Win) (C : Call ι) (n : ℕ) (m m' : Memory (BitVec 64)) : Prop where
  fetched : ∀ i < n, m' (word .result C.resultAddr i) = m (word .target (targetStart W C) i)
  added : ∀ i < n, m' (word .target (targetStart W C) i) =
    m (word .target (targetStart W C) i) + m (word .origin C.originAddr i)
  frame : ∀ x : Loc, x.buffer ≠ .buffer → (∀ i < n, ∀ b : ℕ, b < 8 →
    x ≠ (word .target (targetStart W C) i).shift b ∧ x ≠ (word .result C.resultAddr i).shift b) → m' x = m x

/-- A sum of `n` elements `MPI_INT64_T` on a static window. -/
structure Int64Sum {ι : Type} (W : Win) (D : Types ι) (C : Call ι) (n : ℕ) : Prop where
  static : W.locality.dynamic = false
  op : C.op = .sum
  origin : C.origin = (D.named (.integer .int64), (n : ℤ))
  result : C.result = (D.named (.integer .int64), (n : ℤ))
  target : C.target = (D.named (.integer .int64), (n : ℤ))
  some_elements : 1 ≤ n
  isInt : n < 2147483648

variable {ι : Type} {M : Machine (BitVec 64)} {W : Win} {D : Types ι} {layout : Layout ι} {C : Call ι} {n : ℕ}

/-- With `k` elements the words of these are fetched and added to. -/
theorem updated_afadd (int64 : M.arith (.integer .int64) = bitVecArith true) (static : W.locality.dynamic = false)
    (k : ℕ) (m : Memory (BitVec 64)) : Updated W C k m (runAll (afadd M W C) (List.range k) m) where
  fetched _ lt := runAll_afadd_fetched static lt
  added i lt := by
    rw [runAll_afadd_added static lt, int64, BitVec.add_comm]
    rfl
  frame x _ out := by
    refine runAll_afadd_frame static fun i lt hx => ?_
    obtain ⟨target, result⟩ := out i lt 0 (by decide)
    rw [shift_zero] at target result
    obtain rfl | rfl := hx
    · exact target rfl
    · exact result rfl

/-- The contract fixes the number of elements: it is seen where the origin holds ones. -/
theorem Updated.count_unique {k : ℕ} {m m₁ m₂ : Memory (BitVec 64)} (first : Updated W C n m m₁)
    (second : Updated W C k m m₂) (same : ∀ x, x.buffer = .target → m₁ x = m₂ x)
    (ones : ∀ x, x.buffer = .origin → m x = 1) : ¬ n < k := by
  intro lt
  have changed := second.added n lt
  have kept := first.frame (word .target (targetStart W C) n) (by simp) fun i hi b hb =>
    ⟨fun eq => absurd (word_eq_shift hb eq).1 (by omega),
      fun eq => Buffer.noConfusion (congrArg Loc.buffer eq)⟩
  rw [← same _ rfl, kept, ones (word .origin _ _) rfl] at changed
  exact absurd changed (by simp)

namespace Int64Sum

/-- The mutex path sees `n` elements of eight bytes. -/
theorem elementwise (sum : Int64Sum W D C n)
    (has : HasElements D layout (.integer .int64) n (D.named (.integer .int64), n))
    (row : layout (D.named (.integer .int64)) n = [⟨0, n * 8⟩]) (small : n * 8 < 2147483648) :
    Elementwise W D layout C (.integer .int64) n where
  computed := by rw [sum.op]; decide
  spaced := .inl rfl
  oneBlock := by decide
  some_elements := sum.some_elements
  isInt := small
  origin := by rw [sum.origin]; exact has
  result := by rw [sum.result]; exact has
  target := by rw [sum.target]; exact has
  named := has
  row := row
  targetNodup := by rw [sum.target, row]; exact nodup_bytes_single _
  resultNodup := by rw [sum.result, row]; exact nodup_bytes_single _
  attached dynamic := by simp [sum.static] at dynamic

/-- The mutex path meets the contract. -/
theorem updated_software (sum : Int64Sum W D C n) (int64 : M.arith (.integer .int64) = bitVecArith true)
    (has : HasElements D layout (.integer .int64) n (D.named (.integer .int64), n))
    (row : layout (D.named (.integer .int64)) n = [⟨0, n * 8⟩]) (small : n * 8 < 2147483648)
    (m : Memory (BitVec 64)) :
    Updated W C n m (copyAll (putLocs W layout C .buffer C.bufferAddr (D.named (.integer .int64), n))
      (intoBuffer M W layout C (.integer .int64) n m)) := by
  have call := sum.elementwise has row small
  have placed : ∀ i < n, elementAt layout (.integer .int64) (D.named (.integer .int64), (n : ℤ)) i = i * 8 :=
    fun i lt => call.elementAt_named lt
  have result : ∀ i < n, resultLoc layout C (.integer .int64) i = word .result C.resultAddr i := by
    intro i lt
    rw [resultLoc, sum.result, placed i lt, word]
  have target : ∀ i < n, targetElement W layout C (.integer .int64) i = word .target (targetStart W C) i := by
    intro i lt
    rw [targetElement, sum.target, placed i lt, word]
  have origin : ∀ i < n, originLoc layout C (.integer .int64) i = word .origin C.originAddr i := by
    intro i lt
    rw [originLoc, sum.origin, placed i lt, word]
  have inside : ∀ b ∈ bytes (layout (D.named (.integer .int64)) n), ∃ i < n, ∃ f : ℕ, f < 8 ∧ b = i * 8 + f := by
    intro b hb
    rw [row, bytes_single] at hb
    obtain ⟨k, lt, rfl⟩ := List.mem_map.mp hb
    refine ⟨k / 8, ?_, k % 8, Nat.mod_lt _ (by decide), ?_⟩
    · have := List.mem_range.mp lt
      omega
    · push_cast
      omega
  constructor
  · intro i lt
    have back := intoBuffer_result (M := M) (m := m) call lt
    rw [result i lt, target i lt] at back
    rw [putLocs_frame _ _ (by simp)]
    exact congrArg Prod.fst back
  · intro i lt
    have stored := (put_target call lt _).trans (intoBuffer_slot (M := M) (m := m) call lt)
    rw [target i lt, origin i lt] at stored
    refine (congrArg Prod.fst stored).trans ?_
    simp [combine, fieldsAt, BasicType.expansion, sum.op, Arith.m4Op, int64, bitVecArith, cArms, BitVec.add_comm]
  · intro x own out
    have target_out : ∀ b ∈ bytes (layout C.target.1 C.target.2), x ≠ ⟨.target, targetStart W C + b⟩ := by
      intro b hb same
      rw [sum.target] at hb
      obtain ⟨i, lt, f, hf, rfl⟩ := inside b hb
      exact (out i lt f hf).1 (by rw [same, word, Loc.shift, add_assoc])
    have result_out : ∀ b ∈ bytes (layout C.result.1 C.result.2), x ≠ ⟨.result, C.resultAddr + b⟩ := by
      intro b hb same
      rw [sum.result] at hb
      obtain ⟨i, lt, f, hf, rfl⟩ := inside b hb
      exact (out i lt f hf).2 (by rw [same, word, Loc.shift, add_assoc])
    rw [putLocs_outside _ _ target_out, intoBuffer_other call own, getLocs_outside _ _ result_out]

theorem takesFastPath [DecidableEq ι] (sum : Int64Sum W D C n) : takesFastPath W D C = true := by
  simp [Combine.takesFastPath, sum.origin, sum.target, sum.result, sum.static, sum.op]

theorem getAccumulate_eq [DecidableEq ι] (sum : Int64Sum W D C n) (s : State ι (BitVec 64)) :
    getAccumulate M W D layout C s = some (.code .success,
      { s with mem := runAll (afadd M W C) (List.range (fastElements W C)) s.mem }) := by
  have some_elements := sum.some_elements
  refine getAccumulate_fast sum.takesFastPath ?_ ?_ s
  · rw [sum.target]
    exact Int.ofNat_ne_zero.mpr (by omega)
  · rw [sum.result]
    exact Int.ofNat_ne_zero.mpr (by omega)

end Int64Sum

/-- The mutex path always meets the contract, the fast path exactly for displacement units with which
the count in bytes is that of `n` elements. -/
theorem int64_sum_updates [DecidableEq ι] (sum : Int64Sum W D C n)
    (int64 : M.arith (.integer .int64) = bitVecArith true) :
    ((∀ s : State ι (BitVec 64), ∃ t, getAccumulate M W D layout C s = some (.code .success, t) ∧
        Updated W C n s.mem t.mem) ↔
      8 * n ≤ n * W.dispUnit % 4294967296 ∧ n * W.dispUnit % 4294967296 < 8 * n + 8) ∧
    (HasElements D layout (.integer .int64) n (D.named (.integer .int64), n) →
      layout (D.named (.integer .int64)) n = [⟨0, n * 8⟩] → n * 8 < 2147483648 →
      ∀ s : State ι (BitVec 64), Settled layout s.cache → s.mutex = mutexNone →
        ∃ t, getAccumulateSoftware M W D layout C s = some (.code .success, t) ∧ Updated W C n s.mem t.mem) := by
  rw [← fastElements_iff (by rw [sum.target])]
  refine ⟨⟨fun meets => ?_, fun count s => ?_⟩, fun has row small s settled free => ?_⟩
  · -- contents on which a wrong number of elements is seen
    let ones : Memory (BitVec 64) := fun x => if x.buffer = .origin then 1 else 0
    obtain ⟨t, ran, updated⟩ := meets ⟨ones, dcacheInit fun _ => ⟨[], 0, none, 0, 0, 0⟩, mutexNone⟩
    rw [sum.getAccumulate_eq] at ran
    obtain rfl : _ = t := congrArg Prod.snd (Option.some.inj ran)
    have fast := updated_afadd (C := C) int64 sum.static (fastElements W C) ones
    have all_ones : ∀ x : Loc, x.buffer = .origin → ones x = 1 := fun x origin => if_pos origin
    have le := updated.count_unique fast (fun _ _ => rfl) all_ones
    have ge := fast.count_unique updated (fun _ _ => rfl) all_ones
    omega
  · refine ⟨_, sum.getAccumulate_eq s, ?_⟩
    rw [count]
    exact updated_afadd int64 sum.static n s.mem
  · obtain ⟨cache, ran, -⟩ := getAccumulateSoftware_eq (M := M) (sum.elementwise has row small) settled free
    exact ⟨_, ran, sum.updated_software int64 has row small s.mem⟩

/-- With bytes as displacement unit no element is fetched. -/
theorem int64_sum_updates_fails : (getAccumulate words (remote 1) predefined rows
    (elementsCall .sum (.integer .int64) 1) (initially five)).map
      (fun r => (r.1, r.2.mem ⟨.result, 0⟩)) = some (.code .success, 0) ∧
    (initially five).mem ⟨.target, 4096⟩ = 5 :=
  ⟨by decide +kernel, by decide⟩

theorem int64_sum_updates_words : ∃ t,
    getAccumulate words (remote 8) predefined rows (elementsCall .sum (.integer .int64) 1) (initially five) =
      some (.code .success, t) ∧
      Updated (remote 8) (elementsCall .sum (.integer .int64) 1) 1 five t.mem :=
  (int64_sum_updates ⟨rfl, rfl, rfl, rfl, rfl, by decide, by decide⟩ rfl).1.mpr ⟨by decide, by decide⟩
    (initially five)

end FoMPI.Combine
