import FoMPI.Mpitypes.Stack

/-!
# Walking a dataloop

The stack of a segment leads from the dataloop to the loop that the walk is at; what is inside that
one is ready to be pushed. An iteration takes some bytes off the front of what is left.
-/
namespace FoMPI.Mpitypes
open FoMPI.Foundation

section Stack

/-- A loop and those inside are ready to be pushed at element `i`. -/
def Idle (elm : ℕ → Stackelm) : Dataloop → ℕ → Prop
  | .final l size extent, i => (elm i).Loaded (.final l size extent)
  | .nested l size extent d, i => (elm i).Loaded (.nested l size extent d) ∧ Idle elm d (i + 1)

/-- The elements in front of `sp` lead from the loop `d` to the loop `inner`. -/
def Outer (elm : ℕ → Stackelm) (d inner : Dataloop) : ℕ → Prop
  | 0 => inner = d
  | sp + 1 => ∃ l size extent, (elm sp).AtLoop l size extent inner ∧ Outer elm d (.nested l size extent inner) sp

/-- The walk is at element `sp`. -/
def Current (elm : ℕ → Stackelm) (sp : ℕ) : Dataloop → Prop
  | .final l size extent => (elm sp).AtLeaf l size extent
  | .nested l size extent d => (elm sp).AtLoop l size extent d ∧ Idle elm d (sp + 1)

/-- What is left of the loops outside. -/
def leftOuter (elm : ℕ → Stackelm) : ℕ → List ℤ
  | 0 => []
  | sp + 1 => (elm sp).rest ++ leftOuter elm sp

/-- A bound on the iterations over a dataloop. -/
def Dataloop.work : Dataloop → ℕ
  | .final l size _ => total (l.blocks 0 size)
  | .nested l _ extent d => (l.places 0 extent).length * (d.work + 1) + l.count

def Stackelm.work (e : Stackelm) : ℕ :=
  match e.loopP with
  | .final .. => e.rest.length
  | .nested l _ extent d => (e.restPlaces l extent).length * (d.work + 1) + e.curcount

def workOuter (elm : ℕ → Stackelm) : ℕ → ℕ
  | 0 => 0
  | sp + 1 => (elm sp).work + workOuter elm sp

variable {elm elm' : ℕ → Stackelm} {d inner : Dataloop} {i sp : ℕ}

theorem Idle.congr (idle : Idle elm d i) (same : ∀ j, i ≤ j → elm' j = elm j) : Idle elm' d i := by
  induction d generalizing i with
  | final l size extent =>
    rw [Idle, same i le_rfl]
    exact idle
  | nested l size extent d ih =>
    rw [Idle, same i le_rfl]
    exact ⟨idle.1, ih idle.2 fun j le => same j (by omega)⟩

theorem Outer.congr (outer : Outer elm d inner sp) (same : ∀ j, j < sp → elm' j = elm j) : Outer elm' d inner sp := by
  induction sp generalizing inner with
  | zero => exact outer
  | succ sp ih =>
    obtain ⟨l, size, extent, here, outside⟩ := outer
    refine ⟨l, size, extent, ?_, ih outside fun j lt => same j (by omega)⟩
    rw [same sp (Nat.lt_succ_self sp)]
    exact here

theorem leftOuter_congr (same : ∀ j, j < sp → elm' j = elm j) : leftOuter elm' sp = leftOuter elm sp := by
  induction sp with
  | zero => rfl
  | succ sp ih => rw [leftOuter, leftOuter, same sp (Nat.lt_succ_self sp), ih fun j lt => same j (by omega)]

theorem workOuter_congr (same : ∀ j, j < sp → elm' j = elm j) : workOuter elm' sp = workOuter elm sp := by
  induction sp with
  | zero => rfl
  | succ sp ih => rw [workOuter, workOuter, same sp (Nat.lt_succ_self sp), ih fun j lt => same j (by omega)]

theorem Outer.sound (outer : Outer elm d inner sp) (sound : d.Sound) : inner.Sound := by
  induction sp generalizing inner with
  | zero => exact (outer : inner = d) ▸ sound
  | succ sp ih =>
    obtain ⟨l, size, extent, -, outside⟩ := outer
    exact (ih outside).2

theorem Outer.narrow (outer : Outer elm d inner sp) (narrow : d.Narrow) : inner.Narrow := by
  induction sp generalizing inner with
  | zero => exact (outer : inner = d) ▸ narrow
  | succ sp ih =>
    obtain ⟨l, size, extent, -, outside⟩ := outer
    exact (ih outside).2

/-- The leaf is the same for all loops. -/
def Dataloop.leaf : Dataloop → LoopParams × ℕ
  | .final l size _ => (l, size)
  | .nested _ _ _ d => d.leaf

theorem Outer.leaf (outer : Outer elm d inner sp) : inner.leaf = d.leaf := by
  induction sp generalizing inner with
  | zero => rw [(outer : inner = d)]
  | succ sp ih =>
    obtain ⟨l, size, extent, -, outside⟩ := outer
    have same := ih outside
    exact same

theorem Stackelm.AtLeaf.work_eq {e : Stackelm} {l : LoopParams} {size : ℕ} {extent : ℤ}
    (leaf : e.AtLeaf l size extent) :
    e.work = e.rest.length := by
  unfold Stackelm.work
  rw [leaf.loaded.loop]

/-- The walk begins with a loop that is ready. -/
theorem Idle.enter {x : ℤ} (idle : Idle elm d i) (sound : d.Sound) (here : elm' i = (elm i).enter x)
    (inside : ∀ j, i < j → elm' j = elm j) :
    Current elm' i d ∧ (elm' i).rest = d.bytes x ∧ (elm' i).work = d.work := by
  rw [here]
  cases d with
  | final l size extent =>
    obtain ⟨leaf, bytes⟩ := Stackelm.Loaded.enter_leaf idle sound.1 x
    refine ⟨?_, bytes, ?_⟩
    · rw [Current, here]
      exact leaf
    · rw [leaf.work_eq, bytes, Dataloop.bytes, length_bytes, Dataloop.work, total_blocks_congr]
  | nested l size extent d =>
    obtain ⟨loop, bytes, places, count⟩ := Stackelm.Loaded.enter_loop idle.1 sound.1 x
    refine ⟨⟨?_, idle.2.congr fun j le => inside j (by omega)⟩, bytes, ?_⟩
    · rw [here]
      exact loop
    · unfold Stackelm.work
      rw [loop.loop]
      dsimp only
      rw [places, count, Dataloop.work, length_places]

end Stack

namespace Segment

/-- The bytes that a walk has yet to come to. -/
def left (s : Segment) : List ℤ :=
  match s.curSp with
  | none => []
  | some sp => ((s.stackelm sp).rest ++ leftOuter s.stackelm sp).map (s.ptr + ·)

def work (s : Segment) : ℕ :=
  match s.curSp with
  | none => 0
  | some sp => (s.stackelm sp).work + workOuter s.stackelm sp

/-- The segment is at some point of a walk over `d`. -/
def Walks (s : Segment) (d : Dataloop) : Prop :=
  match s.curSp with
  | none => Idle s.stackelm d 0
  | some sp => ∃ inner, Outer s.stackelm d inner sp ∧ Current s.stackelm sp inner

end Segment

section Moves
variable {s : Segment} {d inner : Dataloop} {sp : ℕ}

theorem Segment.left_of_curSp (here : s.curSp = some sp) :
    s.left = ((s.stackelm sp).rest ++ leftOuter s.stackelm sp).map (s.ptr + ·) := by
  rw [Segment.left, here]

theorem Segment.work_of_curSp (here : s.curSp = some sp) :
    s.work = (s.stackelm sp).work + workOuter s.stackelm sp := by
  rw [Segment.work, here]

/-- A loop whose elements are all done with gives way to the one outside. -/
theorem pop_spec (outer : Outer s.stackelm d inner sp) (idle : Idle s.stackelm inner sp) (here : s.curSp = below sp) :
    s.Walks d ∧ s.left = (leftOuter s.stackelm sp).map (s.ptr + ·) ∧ s.work = workOuter s.stackelm sp := by
  cases sp with
  | zero =>
    obtain rfl : inner = d := outer
    have none : s.curSp = none := here
    unfold Segment.Walks Segment.left Segment.work
    rw [none]
    exact ⟨idle, rfl, rfl⟩
  | succ sp =>
    obtain ⟨l, size, extent, loop, outside⟩ := outer
    have at_sp : s.curSp = some sp := here
    refine ⟨?_, s.left_of_curSp at_sp, s.work_of_curSp at_sp⟩
    unfold Segment.Walks
    rw [at_sp]
    exact ⟨_, outside, loop, idle⟩

/-- The loop inside is pushed. -/
theorem push_spec {l : LoopParams} {size : ℕ} {extent : ℤ} {t : Segment} (sound : inner.Sound)
    (narrow : l.Narrow) (outer : Outer s.stackelm d (.nested l size extent inner) sp)
    (current : Current s.stackelm sp (.nested l size extent inner)) (here : s.curSp = some sp)
    (some_left : 0 < (s.stackelm sp).curblock)
    (next : t = { (s.set (sp + 1) ((s.stackelm (sp + 1)).enter (s.stackelm sp).nextOffset)).set sp
      { s.stackelm sp with curblock := (s.stackelm sp).curblock - 1 } with curSp := some (sp + 1) }) :
    t.Walks d ∧ t.left = s.left ∧ t.work < s.work := by
  obtain ⟨loop, idle⟩ := current
  obtain ⟨pushed, places⟩ := loop.push narrow some_left
  have at_next : t.stackelm (sp + 1) = (s.stackelm (sp + 1)).enter (s.stackelm sp).nextOffset := by
    simp [next, Segment.set]
  have at_sp : t.stackelm sp = { s.stackelm sp with curblock := (s.stackelm sp).curblock - 1 } := by
    simp [next, Segment.set]
  have others (j : ℕ) (ne : j ≠ sp) (ne' : j ≠ sp + 1) : t.stackelm j = s.stackelm j := by
    simp [next, Segment.set, ne, ne']
  have curSp : t.curSp = some (sp + 1) := by rw [next]
  have ptr : t.ptr = s.ptr := by rw [next]; rfl
  have outer' : Outer t.stackelm d inner (sp + 1) := by
    refine ⟨l, size, extent, ?_, outer.congr fun j lt => others j (by omega) (by omega)⟩
    rw [at_sp]
    exact pushed
  have leftOuter' : leftOuter t.stackelm sp = leftOuter s.stackelm sp :=
    leftOuter_congr fun j lt => others j (by omega) (by omega)
  have workOuter' : workOuter t.stackelm sp = workOuter s.stackelm sp :=
    workOuter_congr fun j lt => others j (by omega) (by omega)
  have rest : (s.stackelm sp).rest = inner.bytes (s.stackelm sp).nextOffset ++ (t.stackelm sp).rest := by
    rw [loop.rest_eq, places, at_sp, pushed.rest_eq]
    rfl
  have work : (s.stackelm sp).work = inner.work + 1 + (t.stackelm sp).work := by
    unfold Stackelm.work
    rw [loop.loop, at_sp, pushed.loop]
    dsimp only
    rw [places, List.length_cons]
    ring
  obtain ⟨current', rest', work'⟩ := idle.enter sound at_next fun j lt => others j (by omega) (by omega)
  refine ⟨?_, ?_, ?_⟩
  · unfold Segment.Walks
    rw [curSp]
    exact ⟨inner, outer', current'⟩
  · rw [t.left_of_curSp curSp, s.left_of_curSp here, leftOuter, rest', rest, leftOuter', ptr, List.append_assoc]
  · rw [t.work_of_curSp curSp, s.work_of_curSp here, workOuter, work', work, workOuter']
    omega

/-- A block of a loop is at its end. -/
theorem end_spec {l : LoopParams} {size : ℕ} {extent : ℤ} {t : Segment}
    (outer : Outer s.stackelm d (.nested l size extent inner) sp)
    (current : Current s.stackelm sp (.nested l size extent inner)) (here : s.curSp = some sp)
    (zero : (s.stackelm sp).curblock = 0)
    (next : t = { s.set sp (s.stackelm sp).endBlock.1 with
      curSp := if (s.stackelm sp).endBlock.2 then below sp else some sp }) :
    t.Walks d ∧ t.left = s.left ∧ t.work < s.work := by
  obtain ⟨loop, idle⟩ := current
  obtain ⟨last, more⟩ := loop.endBlock_spec zero
  have at_sp : t.stackelm sp = (s.stackelm sp).endBlock.1 := by simp [next, Segment.set]
  have others (j : ℕ) (ne : j ≠ sp) : t.stackelm j = s.stackelm j := by simp [next, Segment.set, ne]
  have ptr : t.ptr = s.ptr := by rw [next]; rfl
  have outer' := outer.congr fun j (lt : j < sp) => others j (by omega)
  have leftOuter' : leftOuter t.stackelm sp = leftOuter s.stackelm sp := leftOuter_congr fun j lt => others j (by omega)
  have workOuter' : workOuter t.stackelm sp = workOuter s.stackelm sp := workOuter_congr fun j lt => others j (by omega)
  have idle' : Idle t.stackelm inner (sp + 1) := idle.congr fun j le => others j (by omega)
  have some_work : 0 < (s.stackelm sp).work := by
    unfold Stackelm.work
    rw [loop.loop]
    exact Nat.add_pos_right _ loop.some_left
  rw [s.left_of_curSp here, s.work_of_curSp here]
  cases popped : (s.stackelm sp).endBlock.2 with
  | true =>
    obtain ⟨loaded, rest⟩ := last popped
    have curSp : t.curSp = below sp := by rw [next, popped]; rfl
    obtain ⟨walks, left, work⟩ := pop_spec outer' ⟨at_sp ▸ loaded, idle'⟩ curSp
    refine ⟨walks, ?_, ?_⟩
    · rw [left, rest, leftOuter', ptr, List.nil_append]
    · rw [work, workOuter']
      omega
  | false =>
    obtain ⟨loop', fewer, places⟩ := more popped
    have curSp : t.curSp = some sp := by rw [next, popped]; rfl
    refine ⟨?_, ?_, ?_⟩
    · unfold Segment.Walks
      rw [curSp]
      exact ⟨_, outer', at_sp ▸ loop', idle'⟩
    · rw [t.left_of_curSp curSp, at_sp, loop'.rest_eq, places, ← loop.rest_eq, leftOuter', ptr]
    · rw [t.work_of_curSp curSp, at_sp, workOuter']
      unfold Stackelm.work
      rw [loop'.loop, loop.loop]
      dsimp only
      rw [places]
      omega

end Moves

end FoMPI.Mpitypes
