import FoMPI.Foundation.Counter
import FoMPI.Notif.Conservation
import FoMPI.Uq.Links

/-!
# The unexpected queue is a FIFO list

Every operation of the structure, run beside its counterpart on the list, returns the
same and leaves the same queue behind, while `size` can count the nodes.
-/
namespace FoMPI.Uq
open FoMPI.Foundation

variable {α : Type*} [DecidableEq α] {s t : State α} {a : α} {as front back : List α} {x : Entry}
  {q : List Entry}

omit [DecidableEq α] in
theorem WellFormed.of_init (heap : Heap α) : WellFormed (init heap) [] := ⟨.nil, .refl _, rfl⟩

omit [DecidableEq α] in
theorem content_split (s : State α) (front : List α) (a : α) (back : List α) :
    s.content (front ++ a :: back) =
      back.reverse.map s.heap.entry ++ s.heap.entry a :: front.reverse.map s.heap.entry := by
  simp [State.content]

omit [DecidableEq α] in
/-- The node that the search finds holds what the list removes first. -/
theorem removeFirst_of_find {p : Entry → Bool} (found : as.reverse.find? (fun a => p (s.heap.entry a)) = some a) :
    ∃ front back, as = front ++ a :: back ∧
      removeFirst p (s.content as) = some (s.heap.entry a, s.content (front ++ back)) := by
  obtain ⟨hit, older, newer, split, misses⟩ := List.find?_eq_some_iff_append.mp found
  have order : as = newer.reverse ++ a :: older.reverse := by
    rw [← List.reverse_reverse as, split]
    simp
  refine ⟨newer.reverse, older.reverse, order, ?_⟩
  rw [order, content_split, removeFirst_append hit]
  · simp [State.content]
  · intro y hy
    obtain ⟨b, hb, rfl⟩ := List.mem_map.mp hy
    rw [List.reverse_reverse] at hb
    simpa using misses b hb

omit [DecidableEq α] in
theorem removeFirst_of_find_none {p : Entry → Bool}
    (missed : as.reverse.find? (fun a => p (s.heap.entry a)) = none) : removeFirst p (s.content as) = none := by
  apply removeFirst_of_misses
  intro y hy
  obtain ⟨b, hb, rfl⟩ := List.mem_map.mp hy
  simpa using List.find?_eq_none.mp missed b hb

namespace WellFormed

omit [DecidableEq α] in
theorem size_eq_zero (h : WellFormed s as) : s.size = 0#32 ↔ as = [] := by
  rw [← BitVec.toNat_inj, h.size]
  exact List.length_eq_zero_iff

/-- A removal keeps the structure well formed and frees the node. -/
theorem without (h : WellFormed s (front ++ a :: back)) (removed : Without s t front a back) :
    WellFormed (t.nodeFree a) (front ++ back) ∧
      (t.nodeFree a).content (front ++ back) = s.content (front ++ back) := by
  have length := h.size
  simp only [List.length_append, List.length_cons] at length
  refine ⟨⟨removed.linked, ?_, ?_⟩, ?_⟩
  · simp only [State.nodeFree, removed.live]
    have shrunk := h.live.erase a
    have off : a ∉ front := fun mem =>
      (List.nodup_append.mp h.linked.distinct).2.2 a mem a List.mem_cons_self rfl
    rwa [List.erase_append_right _ off, List.erase_cons_head] at shrunk
  · simp only [State.nodeFree, removed.size, List.length_append]
    have less : (s.size - 1).toNat = s.size.toNat - 1 := toNat_pred (by omega)
    rw [less]
    omega
  · simp only [State.content, State.nodeFree, removed.entry]

theorem push (h : WellFormed s as) (fresh : a ∉ s.live) (source tag : BitVec 16)
    (room : s.size.toNat + 1 < 4294967296) :
    WellFormed (s.push source tag a) (a :: as) ∧
      (s.push source tag a).content (a :: as) = s.content as ++ [(source, tag)] := by
  have off : a ∉ as := fun mem => fresh (h.live.mem_iff.mpr mem)
  obtain ⟨linked, entry, live, size⟩ := push_spec h.linked off source tag
  refine ⟨⟨linked, ?_, ?_⟩, ?_⟩
  · rw [live]
    exact h.live.cons a
  · have more : (s.size + 1).toNat = s.size.toNat + 1 := toNat_succ room
    rw [size, more, h.size]
    rfl
  · simp only [State.content, entry, List.reverse_cons, List.map_append, List.map_cons, List.map_nil,
      Function.update_self]
    congr 1
    apply List.map_congr_left
    intro b hb
    rw [Function.update_of_ne]
    rintro rfl
    exact off (List.mem_reverse.mp hb)

theorem pop (h : WellFormed s as) : ∃ r t as', s.pop = some (r, t) ∧ WellFormed t as' ∧
    fifo (s.content as) (.pop : Action α) = (r, t.content as') := by
  obtain rfl | ⟨front, a, rfl⟩ := List.eq_nil_or_concat as
  · have empty := h.size_eq_zero.mpr rfl
    refine ⟨.noMatch, s, [], ?_, h, rfl⟩
    simp [State.pop, State.removeTail, empty]
  · rw [List.concat_eq_append] at h ⊢
    have stored : s.size ≠ 0#32 := fun empty => by simpa using h.size_eq_zero.mp empty
    obtain ⟨t, run, removed⟩ := removeTail_spec h.linked stored
    obtain ⟨wellFormed, content⟩ := h.without removed
    refine ⟨.matched (t.heap.entry a), t.nodeFree a, front ++ [], ?_, wellFormed, ?_⟩
    · simp [State.pop, run]
    · rw [content, removed.entry, content_split]
      simp [fifo, takeFirst, removeFirst, Action.wants, State.content]

/-- The search finds the oldest node that is wanted. -/
theorem searchRemove (h : WellFormed s as) {p want : Entry → Bool} (same : ∀ x, p x = want x) :
    ∃ r t as', s.searchRemoveInternal p = some (r, t) ∧ WellFormed t as' ∧
      takeFirst want (s.content as) = (r, t.content as') := by
  obtain rfl : p = want := funext same
  by_cases empty : s.size = 0#32
  · obtain rfl := h.size_eq_zero.mp empty
    exact ⟨.noMatch, s, [], if_pos empty, h, rfl⟩
  · have enough : as.reverse.length ≤ s.live.length := by rw [List.length_reverse, h.live.length_eq]
    have search : s.search p s.live.length s.tail = some (as.reverse.find? fun a => p (s.heap.entry a)) :=
      search_spec h.linked.backward enough
    cases found : as.reverse.find? fun a => p (s.heap.entry a) with
    | none =>
      refine ⟨.noMatch, s, as, ?_, h, ?_⟩
      · simp [State.searchRemoveInternal, empty, search, found]
      · rw [takeFirst, removeFirst_of_find_none found]
    | some a =>
      obtain ⟨front, back, rfl, first⟩ := removeFirst_of_find found
      rw [found] at search
      obtain ⟨t, run, removed⟩ := nodeDetach_spec h.linked
      obtain ⟨wellFormed, content⟩ := h.without removed
      refine ⟨.matched (t.heap.entry a), t.nodeFree a, front ++ back, ?_, wellFormed, ?_⟩
      · simp [State.searchRemoveInternal, empty, search, run]
      · rw [takeFirst, first, content, removed.entry]

/-- An operation, run on the structure and on the list. -/
theorem perform (h : WellFormed s as) {o : Action α} (fresh : Fresh s o)
    (room : ∀ source tag node, o = .push source tag node → s.size.toNat + 1 < 4294967296) :
    ∃ r t as', Uq.perform s o = some (r, t) ∧ WellFormed t as' ∧
      fifo (s.content as) o = (r, t.content as') := by
  cases o with
  | push source tag node =>
    obtain ⟨wellFormed, content⟩ := h.push fresh source tag (room _ _ _ rfl)
    exact ⟨.pushed, s.push source tag node, node :: as, if_neg fresh, wellFormed, by rw [content]; rfl⟩
  | pop => exact h.pop
  | searchRemove source tag =>
    have same (x : Entry) : selects source false tag false x = (Action.searchRemove source tag : Action α).wants x := by
      simp [selects, Action.wants, Prod.ext_iff]
    exact h.searchRemove same
  | searchRemoveSrc source =>
    have same (x : Entry) : selects source false 0 true x = (Action.searchRemoveSrc source : Action α).wants x := by
      simp [selects, Action.wants]
    exact h.searchRemove same
  | searchRemoveTag tag =>
    have same (x : Entry) : selects 0 true tag false x = (Action.searchRemoveTag tag : Action α).wants x := by
      simp [selects, Action.wants]
    exact h.searchRemove same

/-- A push that finds `size` at its largest value leaves a queue that counts no node. -/
theorem push_overflow (h : WellFormed s as) (fresh : a ∉ s.live) (source tag : BitVec 16)
    (full : ¬s.size.toNat + 1 < 4294967296) : ¬∃ as', WellFormed (s.push source tag a) as' := by
  rintro ⟨as', wellFormed⟩
  obtain ⟨linked, -, -, size⟩ := push_spec h.linked (fun mem => fresh (h.live.mem_iff.mpr mem)) source tag
  have same := linked.forward.unique wellFormed.linked.forward
  have count := wellFormed.size
  have zero : (s.size + 1).toNat = 0 := toNat_succ_of_full (Nat.le_of_not_lt full)
  rw [size, ← same, zero] at count
  contradiction

end WellFormed

section Runs

/-- In every run with room in `size` the structure is well formed and holds the list, and every
operation, given an address that is not in use, returns what the list prescribes and leaves it behind. A
push without room breaks the structure. -/
theorem uq_refines_fifo {heap : Heap α} (run : Reach step Roomy (init heap, []) (s, q)) :
    ∃ as, WellFormed s as ∧ s.content as = q ∧
      (∀ o, Fresh s o → (∀ source tag node, o = .push source tag node → s.size.toNat + 1 < 4294967296) →
        ∃ r t as', perform s o = some (r, t) ∧ WellFormed t as' ∧ fifo q o = (r, t.content as')) ∧
      ∀ source tag node, node ∉ s.live → ¬s.size.toNat + 1 < 4294967296 →
        ¬∃ as', WellFormed (s.push source tag node) as' := by
  have holds : ∃ as, WellFormed s as ∧ s.content as = q := by
    refine run.invariant (P := fun c => ∃ as, WellFormed c.1 as ∧ c.1.content as = c.2)
      ⟨[], .of_init heap, rfl⟩ ?_
    rintro ⟨s, q⟩ o ⟨t, q'⟩ ⟨as, h, content⟩ move room
    dsimp only at h content
    subst content
    obtain ⟨⟨r, u⟩, ran, eq⟩ := Option.map_eq_some_iff.mp move
    cases eq
    have fresh : Fresh s o := by
      cases o with
      | push source tag node =>
        intro used
        simp [perform, used] at ran
      | _ => trivial
    obtain ⟨r', u', as', ran', wellFormed, spec⟩ := h.perform fresh (by rintro source tag node rfl; exact room)
    cases ran.symm.trans ran'
    exact ⟨as', wellFormed, by rw [spec]⟩
  obtain ⟨as, h, rfl⟩ := holds
  exact ⟨as, h, rfl, fun o fresh room => h.perform fresh room,
    fun source tag node fresh full => h.push_overflow fresh source tag full⟩

end Runs

section Messages

/-- The operations that remove, on the numbered notifications of the matching. -/
def onMessages : Action α → List Notif.Msg → Option (Notif.Msg × List Notif.Msg)
  | .push _ _ _ => fun _ => none
  | .pop => Notif.uqPop
  | .searchRemove source tag => Notif.uqSearchRemove source tag
  | .searchRemoveSrc source => Notif.uqSearchRemoveSrc source
  | .searchRemoveTag tag => Notif.uqSearchRemoveTag tag

def message (m : Notif.Msg) : Entry := (m.source, m.tag)

omit [DecidableEq α] in
theorem onMessages_eq (o : Action α) {uq : List Notif.Msg} (fits : uq.length < 4294967296) :
    onMessages o uq = removeFirst (fun m => o.wants (message m)) uq := by
  by_cases counted : Notif.uqSize uq = 0
  · obtain rfl := (Notif.uqSize_eq_zero_of_lt fits).mp counted
    cases o <;> rfl
  cases o with
  | push source tag node => exact (removeFirst_of_misses fun _ _ => rfl).symm
  | pop => exact Notif.uqPop_eq counted
  | searchRemove source tag =>
    refine (Notif.uqSearchRemoveInternal_eq _ _ _ _ counted).trans (removeFirst_congr (fun m => ?_) uq)
    exact Bool.eq_iff_iff.mpr (by simp [Action.wants, message, Prod.ext_iff])
  | searchRemoveSrc source =>
    refine (Notif.uqSearchRemoveInternal_eq _ _ _ _ counted).trans (removeFirst_congr (fun m => ?_) uq)
    by_cases same : m.source = source <;> simp [Action.wants, message, same]
  | searchRemoveTag tag =>
    refine (Notif.uqSearchRemoveInternal_eq _ _ _ _ counted).trans (removeFirst_congr (fun m => ?_) uq)
    by_cases same : m.tag = tag <;> simp [Action.wants, message, same]

omit [DecidableEq α] in
/-- The lists of the matching are this queue. -/
theorem takeFirst_messages (o : Action α) {uq : List Notif.Msg} (fits : uq.length < 4294967296) :
    takeFirst o.wants (uq.map message) =
      match onMessages o uq with
      | some (m, rest) => (.matched (message m), rest.map message)
      | none => (.noMatch, uq.map message) := by
  rw [takeFirst, removeFirst_map, onMessages_eq o fits]
  cases removeFirst (fun m => o.wants (message m)) uq <;> rfl

end Messages

section Overflow

def blank (_ : ℕ) : Node ℕ := ⟨none, none, 0, 0⟩

/-- A run may push as many nodes as `size` counts. -/
theorem pushed_reached : ∀ k < 4294967296, ∃ (s : State ℕ) (q : List Entry) (as : List ℕ),
    Reach step always (init blank, []) (s, q) ∧ WellFormed s as ∧ as.length = k
  | 0, _ => ⟨_, _, [], .refl, .of_init blank, rfl⟩
  | k + 1, fits => by
    obtain ⟨s, q, as, run, h, length⟩ := pushed_reached k (by omega)
    obtain ⟨node, fresh⟩ := Infinite.exists_notMem_finset s.live.toFinset
    rw [List.mem_toFinset] at fresh
    have room : s.size.toNat + 1 < 4294967296 := by
      rw [h.size, length]
      exact fits
    have move : step (s, q) (.push 0 0 node) = some (s.push 0 0 node, q ++ [(0, 0)]) := by
      simp [step, perform, fresh, fifo]
    refine ⟨_, _, node :: as, run.tail move trivial, (h.push fresh 0 0 room).1, ?_⟩
    rw [List.length_cons, length]

/-- With `2^32` nodes pushed `size` is zero. -/
theorem uq_refines_fifo_fails : ¬∀ (s : State ℕ) (q : List Entry),
    Reach step always (init blank, []) (s, q) → ∃ as, WellFormed s as ∧ s.content as = q := by
  intro claim
  obtain ⟨s, q, as, run, h, length⟩ := pushed_reached 4294967295 (by decide)
  obtain ⟨node, fresh⟩ := Infinite.exists_notMem_finset s.live.toFinset
  rw [List.mem_toFinset] at fresh
  have full : ¬s.size.toNat + 1 < 4294967296 := by
    rw [h.size, length]
    decide
  have move : step (s, q) (.push 0 0 node) = some (s.push 0 0 node, q ++ [(0, 0)]) := by
    simp [step, perform, fresh, fifo]
  obtain ⟨as', wellFormed, -⟩ := claim _ _ (run.tail move trivial)
  exact h.push_overflow fresh 0 0 full ⟨as', wellFormed⟩

end Overflow

section Example

/-- Three notifications, the middle one taken out by its tag, then the oldest one. -/
def mixed : List (Action ℕ) :=
  [.push 5 0 10, .push 6 1 11, .push 5 2 12, .searchRemoveTag 1, .searchRemoveSrc 6, .pop]

instance (s : State ℕ × List Entry) (o : Action ℕ) (t : State ℕ × List Entry) : Decidable (Roomy s o t) := by
  unfold Roomy
  cases o <;> infer_instance

theorem uq_refines_fifo_mixed : ∃ s : State ℕ, Reach step Roomy (init blank, []) (s, [(5, 2)]) ∧
    s.live = [12] ∧ ∃ as, WellFormed s as ∧ s.content as = [(5, 2)] := by
  have ran : (execWhen step (fun s o t => Roomy s o t) (init blank, []) mixed).map
      (fun c => (c.1.live, c.2)) = some ([12], [(5, 2)]) := by
    decide +kernel
  obtain ⟨⟨s, q⟩, run, trace⟩ := Option.map_eq_some_iff.mp ran
  obtain ⟨live, rfl⟩ := Prod.mk.inj trace
  have reach : Reach step Roomy (init blank, []) (s, [(5, 2)]) :=
    Reach.of_execWhen (fun _ _ _ h => of_decide_eq_true h) _ run
  obtain ⟨as, wellFormed, content, -⟩ := uq_refines_fifo reach
  exact ⟨s, reach, live, as, wellFormed, content⟩

end Example

end FoMPI.Uq
