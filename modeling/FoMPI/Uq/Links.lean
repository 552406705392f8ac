import FoMPI.Uq.Model

/-!
# What the operations do to the structure

Each operation is one operation on doubly linked lists: a push in front, and the
removal of a cell that may be anywhere.
-/
namespace FoMPI.Uq
open FoMPI.Foundation

variable {α : Type*} [DecidableEq α] {s t : State α} {a b : α} {as front back : List α}

namespace Heap

variable {h : Heap α} {v : Option α} {source tag : BitVec 16}

@[simp] theorem next_setNext : (h.setNext a v).next = Function.update h.next a v :=
  Function.comp_update Node.next h a _

@[simp] theorem prev_setNext : (h.setNext a v).prev = h.prev :=
  (Function.comp_update Node.prev h a _).trans (Function.update_eq_self a _)

@[simp] theorem entry_setNext : (h.setNext a v).entry = h.entry :=
  (Function.comp_update (fun n : Node α => (n.source, n.tag)) h a _).trans (Function.update_eq_self a _)

@[simp] theorem next_setPrev : (h.setPrev a v).next = h.next :=
  (Function.comp_update Node.next h a _).trans (Function.update_eq_self a _)

@[simp] theorem prev_setPrev : (h.setPrev a v).prev = Function.update h.prev a v :=
  Function.comp_update Node.prev h a _

@[simp] theorem entry_setPrev : (h.setPrev a v).entry = h.entry :=
  (Function.comp_update (fun n : Node α => (n.source, n.tag)) h a _).trans (Function.update_eq_self a _)

@[simp] theorem next_setEntry : (h.setEntry a source tag).next = h.next :=
  (Function.comp_update Node.next h a _).trans (Function.update_eq_self a _)

@[simp] theorem prev_setEntry : (h.setEntry a source tag).prev = h.prev :=
  (Function.comp_update Node.prev h a _).trans (Function.update_eq_self a _)

@[simp] theorem entry_setEntry :
    (h.setEntry a source tag).entry = Function.update h.entry a (source, tag) :=
  Function.comp_update (fun n : Node α => (n.source, n.tag)) h a _

end Heap

/-- What is left of a structure when the cell `a` is taken out of it. -/
structure Without (s t : State α) (front : List α) (a : α) (back : List α) : Prop where
  linked : Linked t.heap.next t.heap.prev t.head t.tail (front ++ back)
  entry : t.heap.entry = s.heap.entry
  live : t.live = s.live
  size : t.size = s.size - 1

omit [DecidableEq α] in
/-- A cell is at an end of the list exactly if it has no neighbour on that side. -/
theorem at_ends (h : Linked s.heap.next s.heap.prev s.head s.tail (front ++ a :: back)) :
    (some a = s.head ↔ s.heap.prev a = none) ∧ (some a = s.tail ↔ s.heap.next a = none) := by
  have distinct := h.distinct
  rw [h.head_eq, h.tail_eq, h.prev_eq, h.next_eq, List.getLast?_eq_none_iff, List.head?_eq_none_iff]
  constructor
  · cases front with
    | nil => simp
    | cons b front =>
      have apart : a ≠ b := by
        rintro rfl
        simp at distinct
      simp [apart]
  · obtain rfl | ⟨rest, b, rfl⟩ := List.eq_nil_or_concat back
    · simp
    · rw [List.concat_eq_append, ← List.cons_append, ← List.append_assoc] at distinct ⊢
      have apart : a ≠ b := by
        rintro rfl
        simp [List.nodup_append] at distinct
      rw [List.getLast?_concat]
      simp [apart]

/-- The four cases of `_uq_node_detach`: in the middle, the only cell, the oldest and the newest. -/
theorem nodeDetach_spec (h : Linked s.heap.next s.heap.prev s.head s.tail (front ++ a :: back)) :
    ∃ t, s.nodeDetach a = some t ∧ Without s t front a back := by
  have removed := h.remove
  obtain ⟨atHead, atTail⟩ := at_ends h
  rw [← h.prev_eq, ← h.next_eq] at removed
  cases prev : s.heap.prev a with
  | none =>
    rw [prev] at removed
    have head := atHead.mpr prev
    cases next : s.heap.next a with
    | none =>
      rw [next] at removed
      have tail := atTail.mpr next
      refine ⟨{ s with head := none, tail := none, size := s.size - 1 }, ?_, removed, rfl, rfl, rfl⟩
      simp [State.nodeDetach, ← head, ← tail]
    | some n =>
      rw [next] at removed
      have tail : some a ≠ s.tail := fun same => by simp [atTail.mp same] at next
      refine ⟨{ s.setPrev n none with head := some n, size := s.size - 1 }, ?_, ?_, ?_, rfl, rfl⟩
      · simp [State.nodeDetach, ← head, tail, next, State.setPrev]
      · simpa [State.setPrev] using removed
      · simp [State.setPrev]
  | some p =>
    rw [prev] at removed
    have head : some a ≠ s.head := fun same => by simp [atHead.mp same] at prev
    cases next : s.heap.next a with
    | none =>
      rw [next] at removed
      have tail := atTail.mpr next
      refine ⟨{ s.setNext p none with tail := some p, size := s.size - 1 }, ?_, ?_, ?_, rfl, rfl⟩
      · simp [State.nodeDetach, ← tail, head, prev, State.setNext]
      · simpa [State.setNext] using removed
      · simp [State.setNext]
    | some n =>
      rw [next] at removed
      have tail : some a ≠ s.tail := fun same => by simp [atTail.mp same] at next
      have apart : a ≠ p := by
        rintro rfl
        rw [h.prev_eq] at prev
        exact (List.nodup_append.mp h.distinct).2.2 a (List.mem_of_getLast? prev) a List.mem_cons_self rfl
      refine ⟨{ (s.setNext p (some n)).setPrev n (some p) with size := s.size - 1 }, ?_, ?_, ?_, rfl, rfl⟩
      · simp [State.nodeDetach, head, tail, prev, next, State.setNext, State.setPrev, apart]
      · simpa [State.setNext, State.setPrev] using removed
      · simp [State.setNext, State.setPrev]

/-- `_uq_remove_tail` takes out the oldest cell. -/
theorem removeTail_spec (h : Linked s.heap.next s.heap.prev s.head s.tail (front ++ [a]))
    (stored : s.size ≠ 0#32) : ∃ t, s.removeTail = some (some a, t) ∧ Without s t front a [] := by
  have removed := h.remove
  have tail : s.tail = some a := by rw [h.tail_eq, List.getLast?_concat]
  rw [← h.prev_eq, h.next_eq] at removed
  cases prev : s.heap.prev a with
  | none =>
    rw [prev] at removed
    refine ⟨{ s with head := none, tail := none, size := s.size - 1 }, ?_, removed, rfl, rfl, rfl⟩
    simp [State.removeTail, stored, tail, prev]
  | some p =>
    rw [prev] at removed
    refine ⟨{ s.setNext p none with tail := some p, size := s.size - 1 }, ?_, ?_, ?_, rfl, rfl⟩
    · simp [State.removeTail, stored, tail, prev, State.setNext]
    · simpa [State.setNext] using removed
    · simp [State.setNext]

/-- A new node becomes the newest one. -/
theorem push_spec (h : Linked s.heap.next s.heap.prev s.head s.tail as) (fresh : a ∉ as)
    (source tag : BitVec 16) :
    Linked (s.push source tag a).heap.next (s.push source tag a).heap.prev (s.push source tag a).head
        (s.push source tag a).tail (a :: as) ∧
      (s.push source tag a).heap.entry = Function.update s.heap.entry a (source, tag) ∧
      (s.push source tag a).live = a :: s.live ∧ (s.push source tag a).size = s.size + 1 := by
  have pushed := h.push fresh
  cases head : s.head with
  | none | some b =>
    rw [head] at pushed
    refine ⟨?_, ?_, ?_, ?_⟩
    · simpa [State.push, State.nodeCreate, State.insertHead, State.setNext, State.setPrev, head] using pushed
    all_goals simp [State.push, State.nodeCreate, State.insertHead, State.setNext, State.setPrev, head]

omit [DecidableEq α] in
/-- The search meets the nodes from the oldest one on. -/
theorem search_spec {selects : Entry → Bool} {p : Option α} {nodes : List α} {fuel : ℕ}
    (path : Path s.heap.prev p nodes none) (enough : nodes.length ≤ fuel) :
    s.search selects fuel p = some (nodes.find? fun a => selects (s.heap.entry a)) := by
  induction nodes generalizing p fuel with
  | nil =>
    rw [Path.nil_iff.mp path]
    cases fuel <;> rfl
  | cons a nodes ih =>
    obtain ⟨rfl, path⟩ := path
    obtain ⟨fuel, rfl⟩ := Nat.exists_eq_add_of_lt enough
    rw [State.search, List.find?_cons, ih path (by simp)]
    cases selects (s.heap.entry a) <;> rfl

end FoMPI.Uq
