import FoMPI.Dynamic.Lists

/-!
# Critical sections of the dynamic mutex

What one step of a process can do, by its place in a critical section, and the
shape of a list at each place of its owner. A list may be changed only while its
owner is at one of the `dirty` places, which lie between the first write of an edit
and the increment of the id.
-/
namespace FoMPI.Dynamic
open FoMPI.Foundation

variable {n : ℕ} {s t : State n} {p q r : Fin n} {D D' : Desc} {pc next : Pc n} {x : Answer}

/-- Places between the reading of the id of a list and the release of its mutex. -/
inductive Phase
  | outside
  | dropped
  | partly (a : Addr)
  | complete
  deriving DecidableEq

namespace Pc

/-- The mutex a process at this place has acquired. -/
def holds (p : Fin n) : Pc n → Option (Fin n)
  | .done _ | .attachAcquire .. | .detachAcquire _ | .fetchAcquire _ => none
  | .fetchId q | .fetchHead q | .fetchNode q .. | .fetchRelease q => some q
  | _ => some p

/-- The own list has been changed and the id does not say so yet. -/
def dirty : Pc n → Bool
  | .attachDescribe .. | .attachTerminate | .detachFree _ | .bump => true
  | _ => false

/-- How far a process is with a new copy of the list of `q`. -/
def phase (q : Fin n) : Pc n → Phase
  | .fetchHead t => if t = q then .dropped else .outside
  | .fetchNode t a _ => if t = q then .partly a else .outside
  | .fetchRelease t => if t = q then .complete else .outside
  | _ => .outside

/-- The mutex a process at this place tries to acquire, and where it goes on with it. -/
def entry (p : Fin n) : Pc n → Option (Fin n × Pc n)
  | .attachAcquire base size => some (p, .attachLink base size)
  | .detachAcquire base => some (p, .detachHead base)
  | .fetchAcquire q => some (q, .fetchId q)
  | _ => none

/-- The mutex a process at this place gives back. -/
def exit (p : Fin n) : Pc n → Option (Fin n)
  | .release => some p
  | .fetchRelease q => some q
  | _ => none

theorem holds_of_dirty (h : pc.dirty = true) : pc.holds p = some p := by
  cases pc <;> simp_all [dirty, holds]

theorem holds_of_phase (h : pc.phase q ≠ .outside) : pc.holds p = some q ∧ pc.dirty = false := by
  cases pc <;> simp_all [phase, holds, dirty]

theorem of_exit (h : pc.exit p = some q) : pc.holds p = some q ∧ pc.dirty = false := by
  cases pc <;> simp_all [exit, holds, dirty]

theorem of_entry (h : pc.entry p = some (q, next)) :
    next.holds p = some q ∧ pc.dirty = false ∧ next.dirty = false ∧
      ∀ r, pc.phase r = .outside ∧ next.phase r = .outside := by
  cases pc <;> simp_all [entry] <;> obtain ⟨rfl, rfl⟩ := h <;> simp [holds, dirty, phase]

end Pc

/-- The list of a process at each place of its owner. -/
def Shape (D : Desc) : Pc n → Prop
  | .attachDescribe .. | .attachTerminate => ∃ as e, Linked D as e
  | .detachSearch _ previous current | .detachUnlink previous current =>
    ∃ as bs, Linked D (as ++ current :: bs) none ∧ Before previous as current
  | .detachFree current => ∃ as, Linked D as none ∧ current ∉ as
  | _ => ∃ as, Linked D as none

/-- A place outside the edits asks for the complete list only. -/
theorem Shape.of_linked {as : List Addr} (h : Linked D as none) (clean : pc.dirty = false)
    (search : ∀ base previous current, pc ≠ .detachSearch base previous current)
    (unlink : ∀ previous current, pc ≠ .detachUnlink previous current) : Shape D pc := by
  cases pc
  case attachDescribe | attachTerminate | detachFree => contradiction
  case detachSearch => exact absurd rfl (search _ _ _)
  case detachUnlink => exact absurd rfl (unlink _ _)
  all_goals exact ⟨as, h⟩

/-- Outside an edit the list is complete. -/
theorem Shape.linked (h : Shape D pc) (clean : pc.dirty = false) : ∃ as, Linked D as none := by
  cases pc
  case attachDescribe | attachTerminate | detachFree => contradiction
  case detachSearch | detachUnlink =>
    obtain ⟨as, bs, linked, -⟩ := h
    exact ⟨_, linked⟩
  all_goals exact h

/-- The cases of a step on the own list. -/
inductive LocalStep (D : Desc) (x : Answer) : Pc n → Desc → Pc n → Prop
  | attachLink {base size : ℤ} {E : Desc} (made : D.attachLink x = some E) :
    LocalStep D x (.attachLink base size) E (.attachDescribe base size)
  | attachDescribe {base size : ℤ} {E : Desc} (made : D.attachDescribe base size x = some E) :
    LocalStep D x (.attachDescribe base size) E .attachTerminate
  | attachTerminate {E : Desc} (made : D.attachTerminate = some E) : LocalStep D x .attachTerminate E .bump
  | detachEmpty {base : ℤ} (empty : D.winDynamicMemRegions = none) :
    LocalStep D x (.detachHead base) D (.done .errorRmaWinMemNotFound)
  | detachHead {base : ℤ} {a : Addr} (first : D.winDynamicMemRegions = some a) :
    LocalStep D x (.detachHead base) D (.detachSearch base a a)
  | detachFound {base : ℤ} {previous current : Addr} (hit : (D.heap current).base = base) :
    LocalStep D x (.detachSearch base previous current) D (.detachUnlink previous current)
  | detachNext {base : ℤ} {previous current a : Addr} (miss : (D.heap current).base ≠ base)
      (more : D.links current = some a) :
    LocalStep D x (.detachSearch base previous current) D (.detachSearch base current a)
  | detachMissing {base : ℤ} {previous current : Addr} (miss : (D.heap current).base ≠ base)
      (last : D.links current = none) :
    LocalStep D x (.detachSearch base previous current) D (.done .errorRmaWinMemNotFound)
  | detachUnlink {previous current : Addr} :
    LocalStep D x (.detachUnlink previous current) (D.detachUnlink previous current) (.detachFree current)
  | detachFree {current : Addr} : LocalStep D x (.detachFree current) (D.free current) .bump

theorem LocalStep.of_localStep (h : localStep D x pc = some (D', next)) : LocalStep D x pc D' next := by
  cases pc
  case attachLink | attachDescribe | attachTerminate =>
    obtain ⟨E, made, eq⟩ := Option.map_eq_some_iff.mp h
    cases eq
    constructor
    exact made
  case detachHead base =>
    simp only [localStep] at h
    split at h
    · rename_i empty
      cases h
      exact .detachEmpty empty
    · rename_i a first
      cases h
      exact .detachHead first
  case detachSearch base previous current =>
    simp only [localStep] at h
    split at h
    · rename_i hit
      cases h
      exact .detachFound hit
    · rename_i miss
      split at h
      · rename_i a more
        cases h
        exact .detachNext miss more
      · rename_i last
        cases h
        exact .detachMissing miss last
  case detachUnlink =>
    cases h
    exact .detachUnlink
  case detachFree =>
    cases h
    exact .detachFree
  all_goals contradiction

/-- The words of a descriptor that an edit leaves alone. -/
def Desc.guard (D : Desc) : ℤ × BitVec 32 := (D.dynamicMutex, D.dynamicId)

namespace Desc

theorem guard_attachLink (h : D.attachLink x = some D') : D'.guard = D.guard := by
  obtain ⟨-, E, rfl, ⟨-, rfl⟩ | ⟨last, -, rfl⟩⟩ := attachLink_cases h
  · rfl
  · rfl

theorem guard_detachUnlink (D : Desc) (previous current : Addr) :
    (D.detachUnlink previous current).guard = D.guard := by
  simp only [detachUnlink, guard]
  split_ifs <;> rfl

end Desc

namespace LocalStep

/-- Local code leaves the mutex and the id alone. -/
theorem guard (h : LocalStep D x pc D' next) : D'.guard = D.guard := by
  cases h
  case attachLink made => exact Desc.guard_attachLink made
  case attachDescribe made | attachTerminate made =>
    obtain ⟨last, -, rfl⟩ := Option.map_eq_some_iff.mp made
    rfl
  case detachUnlink => exact Desc.guard_detachUnlink D _ _
  all_goals rfl

/-- Local code of an edit makes the list dirty; the search changes nothing. -/
theorem dirty (h : LocalStep D x pc D' next) :
    next.dirty = true ∨ D' = D ∧ pc.dirty = false ∧ next.dirty = false := by
  cases h <;> simp [Pc.dirty]

/-- Local code stays in the critical section or returns from it without releasing the mutex. -/
theorem holds (h : LocalStep D x pc D' next) :
    pc.holds p = some p ∧ (next.holds p = some p ∨ next.holds p = none) ∧
      ∀ r, pc.phase r = .outside ∧ next.phase r = .outside := by
  cases h <;> simp [Pc.holds, Pc.phase]

/-- Local code keeps the shape of the list. -/
theorem shape (h : LocalStep D x pc D' next) (shape : Shape D pc) : Shape D' next := by
  cases h
  case attachLink made =>
    obtain ⟨as, linked⟩ := shape
    exact ⟨_, linked.attachLink made⟩
  case attachDescribe made =>
    obtain ⟨as, e, linked⟩ := shape
    exact ⟨as, e, linked.attachDescribe made⟩
  case attachTerminate made =>
    obtain ⟨as, e, linked⟩ := shape
    exact ⟨as, linked.attachTerminate made⟩
  case detachEmpty => exact shape
  case detachHead a first =>
    obtain ⟨as, linked⟩ := shape
    obtain ⟨bs, rfl⟩ := linked.eq_cons first
    exact ⟨[], bs, linked, rfl⟩
  case detachFound => exact shape
  case detachNext previous current a miss more =>
    obtain ⟨as, bs, linked, -⟩ := shape
    obtain ⟨cs, rfl⟩ := linked.next_eq_cons more
    exact ⟨as ++ [current], cs, by simpa using linked, by simp [Before]⟩
  case detachMissing => exact shape.linked rfl
  case detachUnlink =>
    obtain ⟨as, bs, linked, before⟩ := shape
    exact ⟨as ++ bs, linked.detachUnlink before, linked.notMem_append⟩
  case detachFree =>
    obtain ⟨as, linked, off⟩ := shape
    exact ⟨as, linked.free off⟩

end LocalStep

/-- What one step of a process outside its own list can do. -/
inductive Moves (s : State n) (p : Fin n) (x : Answer) : State n → Prop
  | spin {q : Fin n} {next : Pc n} (waits : (s.pc p).entry p = some (q, next))
      (taken : (s.desc q).dynamicMutex ≠ mutexNone) : Moves s p x s
  | enter {q : Fin n} {next : Pc n} (waits : (s.pc p).entry p = some (q, next))
      (free : (s.desc q).dynamicMutex = mutexNone) :
    Moves s p x ((s.setDesc q { s.desc q with dynamicMutex := p }).setPc p next)
  | leave {q : Fin n} (exit : (s.pc p).exit p = some q) : Moves s p x (s.release p q)
  | bump (here : s.pc p = .bump) : Moves s p x (s.bumpId p)
  | readId {q : Fin n} (here : s.pc p = .fetchId q) : Moves s p x (s.readId p q)
  | readHead {q : Fin n} (here : s.pc p = .fetchHead q) :
    Moves s p x (s.setPc p
      (State.follow q (s.desc q).winDynamicMemRegionsSeg (s.desc q).winDynamicMemRegions))
  | readNode {q : Fin n} {a : Addr} {seg : Seg} (here : s.pc p = .fetchNode q a seg) :
    Moves s p x (s.readNode p q a)
  | edit {E : Desc} {next : Pc n} (move : LocalStep (s.desc p) x (s.pc p) E next) :
    Moves s p x ((s.setDesc p E).setPc p next)

namespace State

variable {a : Fin n} {C : Cached}

@[simp] theorem setPc_pc_self (s : State n) (p : Fin n) (pc : Pc n) : (s.setPc p pc).pc p = pc :=
  Function.update_self _ _ _

@[simp] theorem holds_follow (q : Fin n) (seg : Seg) (ptr : Option Addr) :
    (follow q seg ptr).holds p = some q := by
  cases ptr <;> rfl

@[simp] theorem setCached_self (s : State n) (p q : Fin n) (C : Cached) :
    (s.setCached p q C).dynamicList p q = C := by
  simp [setCached]

theorem setCached_of_ne (other : ¬(r = p ∧ a = q)) :
    (s.setCached p q C).dynamicList r a = s.dynamicList r a := by
  obtain rfl | ne := eq_or_ne r p
  · have ne : a ≠ q := fun eq => other ⟨rfl, eq⟩
    simp [setCached, ne]
  · simp [setCached, ne]

@[simp] theorem setSeen_self (s : State n) (p q : Fin n) : (s.setSeen p q).seen p q = s.edits q := by
  simp [setSeen]

theorem setSeen_of_ne (other : ¬(r = p ∧ a = q)) : (s.setSeen p q).seen r a = s.seen r a := by
  obtain rfl | ne := eq_or_ne r p
  · have ne : a ≠ q := fun eq => other ⟨rfl, eq⟩
    simp [setSeen, ne]
  · simp [setSeen, ne]

/-- Looking again at an unchanged count and keeping the copy changes nothing. -/
theorem setSeen_setCached (seen : s.seen p q = s.edits q) :
    (s.setSeen p q).setCached p q (s.dynamicList p q) = s := by
  simp [setSeen, setCached, ← seen]

end State

theorem State.setDesc_self (s : State n) (q : Fin n) : s.setDesc q (s.desc q) = s := by
  simp [State.setDesc]

/-- A round of the acquisition loop either spins or enters. -/
theorem Moves.of_acquire (waits : (s.pc p).entry p = some (q, next)) : Moves s p x (s.acquire p q next) := by
  unfold State.acquire Desc.acswap
  by_cases free : (s.desc q).dynamicMutex = mutexNone
  · simp only [free, if_true]
    exact .enter waits free
  · simp only [if_neg free, State.setDesc_self]
    exact .spin waits free

theorem Moves.of_runStep (h : runStep s p x = some t) : Moves s p x t := by
  unfold runStep at h
  split at h
  case h_1 => contradiction
  case h_2 here | h_3 here | h_4 here =>
    cases h
    exact .of_acquire (by rw [here]; rfl)
  case h_5 here | h_6 here =>
    cases h
    exact .leave (by rw [here]; rfl)
  case h_7 here =>
    cases h
    exact .bump here
  case h_8 here =>
    cases h
    exact .readId here
  case h_9 here =>
    cases h
    exact .readHead here
  case h_10 here =>
    cases h
    exact .readNode here
  case h_11 =>
    obtain ⟨⟨E, next⟩, moved, rfl⟩ := Option.map_eq_some_iff.mp h
    exact .edit (.of_localStep moved)

end FoMPI.Dynamic
