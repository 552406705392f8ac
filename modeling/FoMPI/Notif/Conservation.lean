import FoMPI.Foundation.Fifo
import FoMPI.Notif.Model

/-!
# What one queue operation does

Under selectors that fit the 16-bit fields both kinds of matching agree, and every
operation keeps, takes or sets aside exactly one notification. The sequence of a
sender (what wildcard-tag requests took from it, then what still waits) only ever
loses members.
-/
namespace FoMPI.Notif
open FoMPI.Foundation FoMPI.Window

variable {w : Locality} {a : Args} {q q' : Queues} {f : Frame}

/-- The arguments of a notification request as the matching assumes them. -/
structure Args.Valid (a : Args) : Prop where
  count : 1 ≤ a.count
  source : a.sourceRank = anySource ∨ 0 ≤ a.sourceRank ∧ a.sourceRank < 65536
  tag : a.tag = anyTag ∨ 0 ≤ a.tag ∧ a.tag < 65536

section Search

/-- A selector in range survives the cast to 16 bits. -/
theorem eq_ofInt_iff {x : BitVec 16} {i : ℤ} (low : 0 ≤ i) (high : i < 65536) :
    x = BitVec.ofInt 16 i ↔ (x.toNat : ℤ) = i := by
  rw [← BitVec.toNat_inj, BitVec.toNat_ofInt]
  have := x.isLt
  omega

theorem uqSize_eq_zero {uq : List Msg} : uqSize uq = 0 ↔ uq.length % 4294967296 = 0 := by
  rw [uqSize, ← BitVec.toNat_inj, BitVec.toNat_ofNat]
  rfl

/-- While `size` can count the queue it is zero for the empty queue only. -/
theorem uqSize_eq_zero_of_lt {uq : List Msg} (fits : uq.length < 4294967296) : uqSize uq = 0 ↔ uq = [] := by
  rw [uqSize_eq_zero, Nat.mod_eq_of_lt fits, List.length_eq_zero_iff]

theorem uqSearch_eq (source tag : BitVec 16) (anyS anyT : Bool) (uq : List Msg) :
    uqSearch source anyS tag anyT uq =
      removeFirst (fun m => (anyS ∨ m.source = source) ∧ (anyT ∨ m.tag = tag)) uq := by
  induction uq with
  | nil => rfl
  | cons m rest ih => simp only [uqSearch, removeFirst, ih, decide_eq_true_eq]

theorem uqSearchRemoveInternal_eq (source tag : BitVec 16) (anyS anyT : Bool) {uq : List Msg}
    (counted : uqSize uq ≠ 0) : uqSearchRemoveInternal source anyS tag anyT uq =
      removeFirst (fun m => (anyS ∨ m.source = source) ∧ (anyT ∨ m.tag = tag)) uq := by
  rw [uqSearchRemoveInternal, if_neg counted, uqSearch_eq]

theorem uqPop_eq {uq : List Msg} (counted : uqSize uq ≠ 0) : uqPop uq = removeFirst (fun _ => true) uq := by
  cases uq with
  | nil => rfl
  | cons m rest => exact if_neg counted

/-- What the search of the unexpected queue compares: the selectors cast to 16 bits. -/
def Args.searches (a : Args) (m : Msg) : Bool :=
  (a.sourceRank = anySource ∨ m.source = BitVec.ofInt 16 a.sourceRank) ∧
    (a.tag = anyTag ∨ m.tag = BitVec.ofInt 16 a.tag)

/-- The four searches of the unexpected queue are one, and find nothing when `size` is zero. -/
theorem takeUnexpected_search (a : Args) (uq : List Msg) :
    takeUnexpected a uq = if uqSize uq = 0 then none else removeFirst a.searches uq := by
  unfold takeUnexpected
  by_cases counted : uqSize uq = 0
  · rw [if_pos counted, if_pos (by simpa [uqIsEmpty] using counted)]
  rw [if_neg counted, if_neg (by simpa [uqIsEmpty] using counted)]
  by_cases anyS : a.sourceRank = anySource <;> by_cases anyT : a.tag = anyTag
  · rw [if_pos ⟨anyS, anyT⟩, uqPop_eq counted]
    apply removeFirst_congr
    intro m
    simp [Args.searches, anyS, anyT]
  · rw [if_neg fun h => anyT h.2, if_neg anyT, if_pos anyS, uqSearchRemoveTag,
      uqSearchRemoveInternal_eq _ _ _ _ counted]
    apply removeFirst_congr
    intro m
    simp [Args.searches, anyS, anyT]
  · rw [if_neg fun h => anyS h.1, if_pos anyT, uqSearchRemoveSrc,
      uqSearchRemoveInternal_eq _ _ _ _ counted]
    apply removeFirst_congr
    intro m
    simp [Args.searches, anyS, anyT]
  · rw [if_neg fun h => anyS h.1, if_neg anyT, if_neg anyS, uqSearchRemove,
      uqSearchRemoveInternal_eq _ _ _ _ counted]
    apply removeFirst_congr
    intro m
    simp [Args.searches, anyS, anyT]

theorem removeFirst_of_takeUnexpected {uq : List Msg} {r : Msg × List Msg}
    (taken : takeUnexpected a uq = some r) : removeFirst a.searches uq = some r := by
  rw [takeUnexpected_search] at taken
  exact (Option.ite_none_left_eq_some.mp taken).2

/-- Selectors in range are searched for as they are compared with the hardware queues. -/
theorem searches_eq (valid : a.Valid) (m : Msg) : a.searches m = a.accepts m := by
  have source (specific : a.sourceRank ≠ anySource) :
      m.source = BitVec.ofInt 16 a.sourceRank ↔ (m.source.toNat : ℤ) = a.sourceRank := by
    obtain ⟨low, high⟩ := valid.source.resolve_left specific
    exact eq_ofInt_iff low high
  have tag (specific : a.tag ≠ anyTag) :
      m.tag = BitVec.ofInt 16 a.tag ↔ (m.tag.toNat : ℤ) = a.tag := by
    obtain ⟨low, high⟩ := valid.tag.resolve_left specific
    exact eq_ofInt_iff low high
  simp only [Args.searches, Args.accepts, decide_eq_decide]
  apply and_congr
  · by_cases anyS : a.sourceRank = anySource
    · simp [anyS]
    · rw [source anyS, or_comm]
  · by_cases anyT : a.tag = anyTag
    · simp [anyT]
    · rw [tag anyT, or_comm]

theorem takeUnexpected_eq (valid : a.Valid) {uq : List Msg} (fits : uq.length < 4294967296) :
    takeUnexpected a uq = removeFirst a.accepts uq := by
  rw [takeUnexpected_search, removeFirst_congr (searches_eq valid) uq]
  by_cases counted : uqSize uq = 0
  · rw [if_pos counted, (uqSize_eq_zero_of_lt fits).mp counted]
    rfl
  · rw [if_neg counted]

end Search

/-- Nothing in the unexpected queue is accepted. -/
def Drained (a : Args) (q : Queues) : Prop := ∀ m ∈ q.uq, a.accepts m = false

/-- What an operation does to the queues; the last index is what it counts for the request. -/
inductive Moved (a : Args) (q : Queues) : Queues → Option Msg → Prop
  | keep : Moved a q q none
  | unexpected (front back : List Msg) (m : Msg) (uq : q.uq = front ++ m :: back)
      (accepted : a.accepts m = true) (older : ∀ x ∈ front, a.accepts x = false) :
      Moved a q { q with uq := front ++ back } (some m)
  | xpmem (m : Msg) (rest : List Msg) (onNode : q.onNode = m :: rest)
      (accepted : a.accepts m = true) (drained : Drained a q) :
      Moved a q { q with onNode := rest } (some m)
  | ugni (m : Msg) (rest : List Msg) (cq : q.cq = m :: rest)
      (accepted : a.accepts m = true) (drained : Drained a q) :
      Moved a q { q with cq := rest } (some m)
  | divertXpmem (m : Msg) (rest : List Msg) (onNode : q.onNode = m :: rest)
      (rejected : a.accepts m = false) :
      Moved a q { q with uq := q.uq ++ [m], onNode := rest } none
  | divertUgni (m : Msg) (rest : List Msg) (cq : q.cq = m :: rest)
      (rejected : a.accepts m = false) :
      Moved a q { q with uq := q.uq ++ [m], cq := rest } none

/-- Everything that has arrived and was not consumed, oldest first for each sender. -/
def Queues.all (q : Queues) : List Msg := q.uq ++ q.onNode ++ q.cq

/-- The notifications of one sender that wait. -/
def Queues.of (q : Queues) (σ : BitVec 16) : List Msg := q.all.filter (·.source = σ)

/-- Each sender uses one hardware queue. -/
structure Routed (w : Locality) (q : Queues) : Prop where
  onNode : ∀ m ∈ q.onNode, w.viaXpmem m.source.toNat = true
  cq : ∀ m ∈ q.cq, w.viaXpmem m.source.toNat = false

theorem Routed.none_onNode (r : Routed w q) {m : Msg} (hm : m ∈ q.cq) :
    q.onNode.filter (·.source = m.source) = [] := by
  apply List.filter_eq_nil_iff.mpr
  intro x hx same
  have near := r.onNode x hx
  have far := r.cq m hm
  simp only [decide_eq_true_eq] at same
  rw [same, far] at near
  contradiction

namespace Moved
variable {counted : Option Msg}

theorem routed (h : Moved a q q' counted) (r : Routed w q) : Routed w q' := by
  cases h with
  | keep | unexpected => exact ⟨r.onNode, r.cq⟩
  | xpmem m rest eq | divertXpmem m rest eq =>
    exact ⟨fun x hx => r.onNode x (eq ▸ List.mem_cons_of_mem _ hx), r.cq⟩
  | ugni m rest eq | divertUgni m rest eq =>
    exact ⟨r.onNode, fun x hx => r.cq x (eq ▸ List.mem_cons_of_mem _ hx)⟩

theorem accepted {m : Msg} (h : Moved a q q' (some m)) : a.accepts m = true := by
  cases h <;> assumption

/-- No notification is lost and none appears. -/
theorem perm (h : Moved a q q' counted) : (q'.all ++ counted.toList).Perm q.all := by
  cases h with
  | keep => simp
  | unexpected front back m eq =>
    simp only [Queues.all, eq, Option.toList_some, List.append_assoc, List.cons_append]
    apply List.Perm.append_left
    simpa [List.append_assoc] using List.perm_append_singleton m (back ++ (q.onNode ++ q.cq))
  | xpmem m rest eq =>
    simp only [Queues.all, eq, Option.toList_some, List.append_assoc, List.cons_append]
    apply List.Perm.append_left
    simpa [List.append_assoc] using List.perm_append_singleton m (rest ++ q.cq)
  | ugni m rest eq =>
    simp only [Queues.all, eq, Option.toList_some, List.append_assoc]
    apply List.Perm.append_left
    apply List.Perm.append_left
    exact List.perm_append_singleton m rest
  | divertXpmem m rest eq =>
    simp [Queues.all, eq]
  | divertUgni m rest eq =>
    simp only [Queues.all, eq, Option.toList_none, List.append_nil, List.append_assoc]
    apply List.Perm.append_left
    have middle : (q.onNode ++ m :: rest).Perm (m :: (q.onNode ++ rest)) := List.perm_middle
    simpa using middle.symm

theorem none_of_sender {msgs : List Msg} {m : Msg} (any : a.tag = anyTag) (acc : a.accepts m = true)
    (rejected : ∀ x ∈ msgs, a.accepts x = false) : msgs.filter (·.source = m.source) = [] := by
  apply List.filter_eq_nil_iff.mpr
  intro x hx same
  have := rejected x hx
  simp_all [Args.accepts]

/-- A wildcard-tag request takes the oldest notification of a sender, and nothing of others. -/
theorem of_wildcard {m : Msg} (h : Moved a q q' (some m)) (r : Routed w q) (any : a.tag = anyTag)
    (σ : BitVec 16) : q.of σ = (if m.source = σ then [m] else []) ++ q'.of σ := by
  have acc := h.accepted
  cases h with
  | unexpected front back m eq _ older =>
    by_cases hσ : m.source = σ
    · subst hσ
      simp [Queues.of, Queues.all, eq, none_of_sender any acc older]
    · simp [Queues.of, Queues.all, eq, hσ]
  | xpmem m rest eq _ drained =>
    by_cases hσ : m.source = σ
    · subst hσ
      simp [Queues.of, Queues.all, eq, none_of_sender any acc drained]
    · simp [Queues.of, Queues.all, eq, hσ]
  | ugni m rest eq _ drained =>
    by_cases hσ : m.source = σ
    · subst hσ
      have other : q.onNode.filter (·.source = m.source) = [] := r.none_onNode (eq ▸ List.mem_cons_self)
      simp [Queues.of, Queues.all, eq, none_of_sender any acc drained, other]
    · simp [Queues.of, Queues.all, eq, hσ]

/-- What is set aside keeps its place among the notifications of its sender. -/
theorem of_none (h : Moved a q q' none) (r : Routed w q) (σ : BitVec 16) : q'.of σ = q.of σ := by
  cases h with
  | keep => rfl
  | divertXpmem m rest eq =>
    simp [Queues.of, Queues.all, eq]
  | divertUgni m rest eq =>
    by_cases hσ : m.source = σ
    · subst hσ
      have other : q.onNode.filter (·.source = m.source) = [] := r.none_onNode (eq ▸ List.mem_cons_self)
      simp [Queues.of, Queues.all, eq, other]
    · simp [Queues.of, Queues.all, eq, hσ]

theorem of_sublist {m : Msg} (h : Moved a q q' (some m)) (σ : BitVec 16) :
    (q'.of σ).Sublist (q.of σ) := by
  apply List.Sublist.filter
  cases h with
  | unexpected front back m eq =>
    simp [Queues.all, eq]
  | xpmem m rest eq =>
    simp [Queues.all, eq]
  | ugni m rest eq =>
    simp [Queues.all, eq]

end Moved

/-- The polling loop runs only when the unexpected queue has nothing for an unfinished request. -/
def Searched (a : Args) (q : Queues) (f : Frame) : Prop :=
  match f.pc with
  | .unexpected => True
  | .xpmem | .returned _ _ => f.found < a.count → Drained a q
  | .ugni => f.found < a.count ∧ Drained a q

@[simp] theorem dispatch_pc (uq : List Msg) (m : Msg) : (dispatch a uq f m).2.1.pc = .xpmem := by
  unfold dispatch
  split <;> rfl

theorem dispatch_moved {uq' : List Msg} {f' : Frame} {counted : Option Msg} {m : Msg} {uq : List Msg}
    (e : dispatch a uq f m = (uq', f', counted)) :
    a.accepts m = true ∧ uq' = uq ∧ counted = some m ∧ f'.found = f.found + 1 ∧ f'.pc = .xpmem ∨
    a.accepts m = false ∧ uq' = uq ++ [m] ∧ counted = none ∧ f'.found = f.found ∧ f'.pc = .xpmem := by
  unfold dispatch at e
  split at e
  · rename_i acc
    cases e
    exact .inl ⟨acc, rfl, rfl, rfl, rfl⟩
  · rename_i rej
    cases e
    exact .inr ⟨by simpa using rej, rfl, rfl, rfl, rfl⟩

theorem Drained.push {m : Msg} (h : Drained a q) (rejected : a.accepts m = false) :
    Drained a { q with uq := q.uq ++ [m] } := by
  intro x hx
  obtain hx | hx := List.mem_append.mp hx
  · exact h x hx
  · exact List.mem_singleton.mp hx ▸ rejected

/-- An event of a hardware queue, which is `rest` without it, counts for the request or is set aside. -/
theorem dispatch_spec (rest : Queues) {m : Msg} {uq' : List Msg} {f' : Frame} {counted : Option Msg}
    (e : dispatch a q.uq f m = (uq', f', counted)) (unfinished : f.found < a.count)
    (drained : Drained a q)
    (taken : a.accepts m = true → Moved a q { rest with uq := q.uq } (some m))
    (diverted : a.accepts m = false → Moved a q { rest with uq := q.uq ++ [m] } none) :
    Moved a q { rest with uq := uq' } counted ∧ f'.found = f.found + counted.toList.length ∧
      (counted ≠ none → f.found < a.count) ∧ Searched a { rest with uq := uq' } f' := by
  obtain ⟨acc, rfl, rfl, found, pc⟩ | ⟨rej, rfl, rfl, found, pc⟩ := dispatch_moved e
  · refine ⟨taken acc, by simp [found], fun _ => unfinished, ?_⟩
    simp only [Searched, pc]
    exact fun _ => drained
  · refine ⟨diverted rej, by simp [found], by simp, ?_⟩
    simp only [Searched, pc]
    exact fun _ => drained.push rej

/-- What one operation can do: the queues and the call behind it, and what it has counted. -/
inductive Advance (w : Locality) (a : Args) (wait : Bool) (q : Queues) (f : Frame) :
    Queues → Frame → Option Msg → Prop
  | take (m : Msg) (uq : List Msg) (pc : f.pc = .unexpected) (unfinished : f.found < a.count)
      (taken : takeUnexpected a q.uq = some (m, uq)) :
      Advance w a wait q f { q with uq := uq } ⟨.unexpected, f.found + 1, some m⟩ (some m)
  | searched (pc : f.pc = .unexpected) (nothing : f.found < a.count → takeUnexpected a q.uq = none) :
      Advance w a wait q f q { f with pc := .xpmem } none
  | finished (pc : f.pc = .xpmem) (finished : ¬f.found < a.count) : Advance w a wait q f q (f.finish a) none
  | onNode (m : Msg) (rest uq : List Msg) (f' : Frame) (counted : Option Msg) (pc : f.pc = .xpmem)
      (unfinished : f.found < a.count) (near : pollsXpmem w a = true) (eq : q.onNode = m :: rest)
      (dispatched : dispatch a q.uq f m = (uq, f', counted)) :
      Advance w a wait q f { q with uq := uq, onNode := rest } f' counted
  | remote (pc : f.pc = .xpmem) (unfinished : f.found < a.count)
      (empty : pollsXpmem w a = true → q.onNode = []) : Advance w a wait q f q { f with pc := .ugni } none
  | onNodeOnly (pc : f.pc = .xpmem) (unfinished : f.found < a.count) (near : ¬pollsUgni w a = true)
      (empty : q.onNode = []) : Advance w a wait q f q (if wait then f else f.finish a) none
  | event (m : Msg) (rest uq : List Msg) (f' : Frame) (counted : Option Msg) (pc : f.pc = .ugni)
      (eq : q.cq = m :: rest) (dispatched : dispatch a q.uq f m = (uq, f', counted)) :
      Advance w a wait q f { q with uq := uq, cq := rest } f' counted
  | noEvent (pc : f.pc = .ugni) (empty : q.cq = []) :
      Advance w a wait q f q (if wait then { f with pc := .xpmem } else f.finish a) none
  | returned (flag : Bool) (status : Status) (pc : f.pc = .returned flag status) : Advance w a wait q f q f none

theorem advance_cases {wait : Bool} {f' : Frame} {counted : Option Msg}
    (e : advance w a wait q f = (q', f', counted)) : Advance w a wait q f q' f' counted := by
  unfold advance at e
  cases pc : f.pc with
  | unexpected =>
    simp only [pc] at e
    split at e
    · rename_i unfinished
      split at e
      · rename_i m uq taken
        cases e
        exact .take m uq pc unfinished taken
      · rename_i nothing
        cases e
        exact .searched pc fun _ => nothing
    · rename_i finished
      cases e
      exact .searched pc fun h => absurd h finished
  | xpmem =>
    simp only [pc] at e
    split at e
    · rename_i unfinished
      split at e
      · rename_i near
        split at e
        · rename_i m rest eq
          cases e
          exact .onNode m rest _ _ _ pc unfinished near eq rfl
        · rename_i empty
          split at e
          · cases e
            exact .remote pc unfinished fun _ => empty
          · rename_i near
            cases e
            exact .onNodeOnly pc unfinished near empty
      · rename_i far
        cases e
        exact .remote pc unfinished fun h => absurd h far
    · rename_i finished
      cases e
      exact .finished pc finished
  | ugni =>
    simp only [pc] at e
    split at e
    · rename_i m rest eq
      cases e
      exact .event m rest _ _ _ pc eq rfl
    · rename_i empty
      cases e
      exact .noEvent pc empty
  | returned flag status =>
    simp only [pc] at e
    cases e
    exact .returned flag status pc

/-- The next operation sets a notification aside: the event that it reads does not match. -/
def diverts (w : Locality) (a : Args) (q : Queues) (f : Frame) : Bool :=
  match f.pc with
  | .xpmem => f.found < a.count && pollsXpmem w a && q.onNode.head?.any fun m => !a.accepts m
  | .ugni => q.cq.head?.any fun m => !a.accepts m
  | .unexpected | .returned _ _ => false

/-- Only a notification that is set aside lengthens the unexpected queue. -/
theorem advance_length {wait : Bool} {f' : Frame} {counted : Option Msg}
    (e : advance w a wait q f = (q', f', counted)) :
    q'.uq.length ≤ q.uq.length + if diverts w a q f then 1 else 0 := by
  cases advance_cases e with
  | take m uq pc unfinished taken =>
    have := removeFirst_length (removeFirst_of_takeUnexpected taken)
    dsimp only
    omega
  | searched | finished | remote | onNodeOnly | noEvent | returned => exact Nat.le_add_right _ _
  | onNode m rest uq f' counted pc unfinished near eq dispatched =>
    obtain ⟨-, rfl, -⟩ | ⟨rej, rfl, -⟩ := dispatch_moved dispatched
    · exact Nat.le_add_right _ _
    · simp [diverts, pc, unfinished, near, eq, rej]
  | event m rest uq f' counted pc eq dispatched =>
    obtain ⟨-, rfl, -⟩ | ⟨rej, rfl, -⟩ := dispatch_moved dispatched
    · exact Nat.le_add_right _ _
    · simp [diverts, pc, eq, rej]

/-- One operation moves one notification at most, counts what it takes, and polls a hardware queue
only after the unexpected queue. -/
theorem advance_spec (valid : a.Valid) (fits : q.uq.length < 4294967296) (searched : Searched a q f)
    {wait : Bool} {f' : Frame} {counted : Option Msg} (e : advance w a wait q f = (q', f', counted)) :
    Moved a q q' counted ∧ f'.found = f.found + counted.toList.length ∧
      (counted ≠ none → f.found < a.count) ∧ Searched a q' f' := by
  unfold Searched at searched
  cases advance_cases e with
  | take m uq pc unfinished taken =>
    rw [takeUnexpected_eq valid fits] at taken
    obtain ⟨front, back, eq, rfl, acc, older⟩ := removeFirst_eq_some taken
    exact ⟨.unexpected front back m eq acc older, rfl, fun _ => unfinished, trivial⟩
  | searched pc nothing =>
    rw [takeUnexpected_eq valid fits] at nothing
    exact ⟨.keep, by simp, by simp, fun unfinished => removeFirst_eq_none (nothing unfinished)⟩
  | finished pc finished => exact ⟨.keep, by simp [Frame.finish], by simp, fun h => absurd h finished⟩
  | onNode m rest uq f' counted pc unfinished near eq dispatched =>
    simp only [pc] at searched
    have drained := searched unfinished
    exact dispatch_spec { q with onNode := rest } dispatched unfinished drained
      (fun acc => .xpmem m rest eq acc drained) fun rej => .divertXpmem m rest eq rej
  | remote pc unfinished empty =>
    simp only [pc] at searched
    exact ⟨.keep, by simp, by simp, unfinished, searched unfinished⟩
  | onNodeOnly pc unfinished near empty =>
    simp only [pc] at searched
    cases wait with
    | false => exact ⟨.keep, by simp [Frame.finish], by simp, fun _ => searched unfinished⟩
    | true => exact ⟨.keep, by simp, by simp, by simpa [Searched, pc] using searched⟩
  | event m rest uq f' counted pc eq dispatched =>
    simp only [pc] at searched
    obtain ⟨unfinished, drained⟩ := searched
    exact dispatch_spec { q with cq := rest } dispatched unfinished drained
      (fun acc => .ugni m rest eq acc drained) fun rej => .divertUgni m rest eq rej
  | noEvent pc empty =>
    simp only [pc] at searched
    obtain ⟨unfinished, drained⟩ := searched
    cases wait with
    | false => exact ⟨.keep, by simp [Frame.finish], by simp, fun _ => drained⟩
    | true => exact ⟨.keep, by simp, by simp, fun _ => drained⟩
  | returned flag status pc =>
    simp only [pc] at searched
    exact ⟨.keep, by simp, by simp, by simpa [Searched, pc] using searched⟩

end FoMPI.Notif
