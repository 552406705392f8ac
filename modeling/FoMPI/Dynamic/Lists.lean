import FoMPI.Dynamic.Model

/-!
# The list of attached regions under the edits of its owner

What a descriptor and its heap represent, and what each piece of an attach or a
detach makes of it. Between the pieces of an attach the last node already hangs in
the list while its pointer is not set, so a list is described with the pointer
behind its last node.
-/
namespace FoMPI.Dynamic
open FoMPI.Foundation

variable {n : ℕ} {D D' : Desc} {as bs : List Addr} {a previous current : Addr} {e : Option Addr}

/-- The nodes of the list are `as`, and `e` is the pointer behind the last of them. -/
structure Linked (D : Desc) (as : List Addr) (e : Option Addr) : Prop where
  path : Path D.links D.winDynamicMemRegions as e
  last : D.dynamicLast = as.getLast?
  live : ∀ a ∈ as, a ∈ D.allocated
  nodup : as.Nodup

/-- What the nodes say, in the order of the list. -/
def Desc.regions (D : Desc) (as : List Addr) : List MemRegion := as.map fun a => (D.heap a).toMemRegion

/-- The list of attached regions. -/
def Desc.Represents (D : Desc) (regions : List MemRegion) : Prop :=
  ∃ as, Linked D as none ∧ D.regions as = regions

namespace Desc

theorem links_write (D : Desc) (a : Addr) (x : Element) :
    (D.write a x).links = Function.update D.links a x.next := by
  funext b
  simp only [links, write, Function.update_apply]
  split <;> rfl

/-- A descriptor represents one list only. -/
theorem Represents.unique {l l' : List MemRegion} (h : D.Represents l) (h' : D.Represents l') : l = l' := by
  obtain ⟨as, linked, rfl⟩ := h
  obtain ⟨bs, linked', rfl⟩ := h'
  rw [linked.path.unique linked'.path]

/-- A new node is not in use, and holds what the memory did. -/
theorem alloc_eq_some {E : Desc} {x : Answer} (h : D.alloc x = some E) : x.addr ∉ D.allocated ∧
    E = { D with heap := Function.update D.heap x.addr x.contents, allocated := x.addr :: D.allocated } := by
  unfold alloc at h
  split at h
  · contradiction
  · rename_i fresh
    exact ⟨fresh, (Option.some.inj h).symm⟩

/-- The new node of an attach becomes the first one or hangs behind the last one. -/
theorem attachLink_cases {x : Answer} (h : D.attachLink x = some D') : x.addr ∉ D.allocated ∧
    ∃ E : Desc, E = { D with
      heap := Function.update D.heap x.addr x.contents, allocated := x.addr :: D.allocated } ∧
    (D.dynamicLast = none ∧ D' = { E.memRegister x.seg (.node x.addr) with
      dynamicLast := some x.addr
      winDynamicMemRegions := some x.addr
      winDynamicMemRegionsSeg := x.seg } ∨
    ∃ last, D.dynamicLast = some last ∧
      D' = { (E.write last { E.heap last with next := some x.addr, nextSeg := x.seg }).memRegister x.seg (.node x.addr) with
        dynamicLast := some x.addr }) := by
  unfold attachLink at h
  split at h
  all_goals
    rename_i last
    obtain ⟨E, made, rfl⟩ := Option.map_eq_some_iff.mp h
    obtain ⟨fresh, eq⟩ := alloc_eq_some made
  · exact ⟨fresh, E, eq, .inl ⟨last, rfl⟩⟩
  · exact ⟨fresh, E, eq, .inr ⟨_, last, rfl⟩⟩

end Desc

namespace Linked

/-- An empty list has no last node. -/
theorem eq_nil (h : Linked D as e) (empty : D.dynamicLast = none) : as = [] :=
  List.getLast?_eq_none_iff.mp (h.last.symm.trans empty)

theorem eq_concat (h : Linked D as e) (last : D.dynamicLast = some a) : ∃ front, as = front ++ [a] := by
  obtain ⟨front, rfl⟩ := List.getLast?_eq_some_iff.mp (h.last.symm.trans last)
  exact ⟨front, rfl⟩

/-- An attach first hangs a new node behind the last one. -/
theorem attachLink {x : Answer} (h : Linked D as none) (made : D.attachLink x = some D') :
    ∃ e, Linked D' (as ++ [x.addr]) e := by
  obtain ⟨fresh, E, rfl, ⟨empty, rfl⟩ | ⟨last, full, rfl⟩⟩ := Desc.attachLink_cases made
  · obtain rfl := h.eq_nil empty
    exact ⟨_, ⟨⟨rfl, rfl⟩, rfl, by simp [Desc.memRegister], by simp⟩⟩
  · obtain ⟨front, rfl⟩ := h.eq_concat full
    have off : x.addr ∉ front ++ [last] := fun mem => fresh (h.live _ mem)
    have ne : last ≠ x.addr := fun eq => off (by simp [eq])
    refine ⟨x.contents.next, ⟨?_, by simp, ?_, ?_⟩⟩
    · refine Path.append_iff.mpr ⟨some x.addr, ?_, rfl, ?_⟩
      · -- the successors change at the new node and at the last one
        have old := (h.path.update_of_notMem (m := x.contents.next) off).update_last
          (m := some x.addr) h.nodup
        refine old.frame fun b _ => ?_
        simp only [Desc.links, Desc.memRegister, Desc.write, Function.update_apply]
        split_ifs <;> rfl
      · simp [Desc.links, Desc.memRegister, Desc.write, Function.update_of_ne ne.symm]
    · intro b mem
      obtain mem | mem := List.mem_append.mp mem
      · exact List.mem_cons_of_mem _ (h.live b mem)
      · simp [List.mem_singleton.mp mem, Desc.memRegister, Desc.write]
    · exact List.nodup_append.mpr ⟨h.nodup, by simp, fun b mem c last => by
        rw [List.mem_singleton.mp last]
        exact ne_of_mem_of_not_mem mem off⟩

/-- Filling in the region leaves the links alone. -/
theorem attachDescribe {x : Answer} {base size : ℤ} (h : Linked D as e)
    (made : D.attachDescribe base size x = some D') : Linked D' as e := by
  obtain ⟨last, -, rfl⟩ := Option.map_eq_some_iff.mp made
  refine ⟨?_, h.last, h.live, h.nodup⟩
  have same : (D.write last { D.heap last with base := base, size := size, seg := x.seg }).links = D.links := by
    rw [Desc.links_write]
    exact Function.update_eq_self last D.links
  exact h.path.frame fun b _ => congrFun same b

/-- An attach last sets the pointer of the new node. -/
theorem attachTerminate (h : Linked D as e) (made : D.attachTerminate = some D') : Linked D' as none := by
  obtain ⟨last, full, rfl⟩ := Option.map_eq_some_iff.mp made
  obtain ⟨front, rfl⟩ := h.eq_concat full
  refine ⟨?_, h.last, h.live, h.nodup⟩
  rw [Desc.links_write]
  exact h.path.update_last h.nodup

end Linked

/-- The node before `current`, or `current` itself at the head of the list. -/
def Before (previous : Addr) (as : List Addr) (current : Addr) : Prop := as.getLast?.getD current = previous

theorem Before.eq_concat (h : Before previous as current) (inner : as ≠ []) :
    ∃ front, as = front ++ [previous] := by
  obtain ⟨front, b, rfl⟩ := (List.eq_nil_or_concat' as).resolve_left inner
  obtain rfl : b = previous := by simpa [Before] using h
  exact ⟨front, rfl⟩

namespace Linked

/-- The last node is `current` exactly when no node follows it. -/
theorem last_eq_iff (h : Linked D (as ++ current :: bs) e) : D.dynamicLast = some current ↔ bs = [] := by
  rw [h.last, List.getLast?_append_cons]
  constructor
  · intro last
    by_contra more
    rw [List.getLast?_cons_of_ne_nil more] at last
    have again := List.mem_of_getLast? last
    have once := (List.nodup_append.mp h.nodup).2.1
    exact (List.nodup_cons.mp once).1 again
  · rintro rfl
    rfl

/-- The first node is `current` exactly when no node precedes it. -/
theorem head_eq_iff (h : Linked D (as ++ current :: bs) e) :
    D.winDynamicMemRegions = some current ↔ as = [] := by
  constructor
  · intro head
    cases as with
    | nil => rfl
    | cons a as =>
      obtain rfl : a = current := Option.some.inj (h.path.1.symm.trans head)
      exact absurd h.nodup (by simp)
  · rintro rfl
    exact h.path.1

/-- A node is the first one, or hangs in its predecessor. -/
theorem anchor (h : Linked D (as ++ current :: bs) e) (before : Before previous as current) :
    as = [] ∧ D.winDynamicMemRegions = some current ∨
      (∃ front, as = front ++ [previous]) ∧ D.winDynamicMemRegions ≠ some current := by
  by_cases head : D.winDynamicMemRegions = some current
  · exact .inl ⟨h.head_eq_iff.mp head, head⟩
  · exact .inr ⟨before.eq_concat fun none => head (h.head_eq_iff.mpr none), head⟩

/-- A node is the last one, or others follow it. -/
theorem tail (h : Linked D (as ++ current :: bs) e) :
    bs = [] ∧ D.dynamicLast = some current ∨ bs ≠ [] ∧ D.dynamicLast ≠ some current := by
  by_cases last : D.dynamicLast = some current
  · exact .inl ⟨h.last_eq_iff.mp last, last⟩
  · exact .inr ⟨fun none => last (h.last_eq_iff.mpr none), last⟩

/-- A list that starts at `a` begins with this node. -/
theorem eq_cons (h : Linked D as none) (first : D.winDynamicMemRegions = some a) : ∃ bs, as = a :: bs := by
  have path := h.path
  rw [first] at path
  exact path.eq_cons

/-- What follows a node starts with its successor. -/
theorem next_eq_cons (h : Linked D (as ++ current :: bs) none) (more : (D.heap current).next = some a) :
    ∃ cs, bs = a :: cs := by
  have rest : Path D.links (D.heap current).next bs none := h.path.split.2
  rw [more] at rest
  exact rest.eq_cons

/-- A node occurs once. -/
theorem notMem_append (h : Linked D (as ++ current :: bs) e) : current ∉ as ++ bs :=
  (List.nodup_cons.mp (List.nodup_middle.mp h.nodup)).1

/-- The list behind a removed node keeps its last node. -/
theorem last_append (h : Linked D (as ++ current :: bs) e) (more : bs ≠ []) :
    D.dynamicLast = (as ++ bs).getLast? := by
  rw [h.last, List.getLast?_append_cons, List.getLast?_cons_of_ne_nil more,
    List.getLast?_append_of_ne_nil _ more]

/-- Unlinking a node, at the head, in the middle or at the end. -/
theorem detachUnlink (h : Linked D (as ++ current :: bs) none) (before : Before previous as current) :
    Linked (D.detachUnlink previous current) (as ++ bs) none := by
  have live : ∀ b ∈ as ++ bs, b ∈ D.allocated := fun b mem =>
    h.live b (List.mem_append.mpr ((List.mem_append.mp mem).imp_right (List.mem_cons_of_mem _)))
  have distinct : (as ++ bs).Nodup := h.nodup.sublist (by simp)
  unfold Desc.detachUnlink
  obtain ⟨rfl, head⟩ | ⟨⟨front, rfl⟩, head⟩ := h.anchor before
  · rw [if_pos head]
    obtain ⟨rfl, last⟩ | ⟨more, last⟩ := h.tail
    · rw [if_pos last]
      exact ⟨rfl, rfl, live, distinct⟩
    · rw [if_neg last]
      exact ⟨h.path.2, h.last_append more, live, distinct⟩
  · rw [if_neg head]
    have path := h.path
    rw [List.append_assoc] at path
    obtain ⟨rfl, last⟩ | ⟨more, last⟩ := h.tail
    · rw [if_pos last]
      refine ⟨?_, by simp, live, distinct⟩
      rw [List.append_nil] at distinct ⊢
      have front' := (h.path.split).1
      have cut := front'.update_last (m := none) distinct
      exact cut.frame fun b _ => (congrFun (Desc.links_write D previous _) b)
    · rw [if_neg last]
      refine ⟨?_, h.last_append more, live, distinct⟩
      have cut := path.unlink (by simpa using h.nodup)
      rw [List.append_assoc]
      exact cut.frame fun b _ => (congrFun (Desc.links_write D previous _) b)

theorem free (h : Linked D as e) (off : current ∉ as) : Linked (D.free current) as e :=
  ⟨h.path, h.last, fun a mem => (List.mem_erase_of_ne (ne_of_mem_of_not_mem mem off)).mpr (h.live a mem), h.nodup⟩

end Linked

/-- Mutex and id are not part of the list. -/
def SameList (D D' : Desc) : Prop := ∃ m i, D' = { D with dynamicMutex := m, dynamicId := i }

theorem SameList.refl (D : Desc) : SameList D D := ⟨D.dynamicMutex, D.dynamicId, rfl⟩

theorem SameList.linked {D D' : Desc} (same : SameList D D') {as : List Addr} {e : Option Addr}
    (h : Linked D as e) : Linked D' as e := by
  obtain ⟨m, i, rfl⟩ := same
  exact ⟨h.path, h.last, h.live, h.nodup⟩

theorem SameList.registrations {D D' : Desc} (same : SameList D D') : D'.registrations = D.registrations := by
  obtain ⟨m, i, rfl⟩ := same
  rfl

theorem SameList.regions {D D' : Desc} (same : SameList D D') (as : List Addr) :
    D'.regions as = D.regions as := by
  obtain ⟨m, i, rfl⟩ := same
  rfl

/-- An operation on a mutex is none on the list. -/
theorem SameList.acswap (D : Desc) (comparand swap : ℤ) : SameList D (D.acswap comparand swap).2 := by
  unfold Desc.acswap
  split
  · exact ⟨swap, D.dynamicId, rfl⟩
  · exact .refl D

/-- One list that stays as it is among all. -/
theorem SameList.update {desc : Fin n → Desc} {q : Fin n} (same : SameList (desc q) D') (r : Fin n) :
    SameList (desc r) (Function.update desc q D' r) := by
  obtain rfl | ne := eq_or_ne r q
  · rwa [Function.update_self]
  · rw [Function.update_of_ne ne]
    exact .refl _

theorem SameList.represents {D D' : Desc} (same : SameList D D') {l : List MemRegion}
    (h : D.Represents l) : D'.Represents l := by
  obtain ⟨as, linked, rfl⟩ := h
  exact ⟨as, same.linked linked, same.regions as⟩

end FoMPI.Dynamic
