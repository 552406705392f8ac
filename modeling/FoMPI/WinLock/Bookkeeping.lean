import FoMPI.Foundation.Counter
import FoMPI.WinLock.Model

/-!
# Bookkeeping of a process

`Ok` relates the descriptor fields of a process, its program counter and what its
caller holds. It is kept by every routine entry and by the local code after every
network operation, whatever value that operation fetched. The share of a process in
a lock word moves exactly as its operations move the word.
-/
namespace FoMPI.WinLock
open FoMPI.Foundation

variable {n : ℕ}

/-- What an operation adds to its word, given the value it fetches. -/
def RemoteOp.added (fetched : BitVec 64) : RemoteOp n → ℤ
  | .afadd _ d | .aadd _ d | .aaddNbi _ d => d
  | .acswap _ c v => if fetched = BitVec.ofInt 64 c then v - c else 0
  | .get _ => 0

/-- Between the addition to the exclusive half of the master word and the decision on it, or with
that addition still to be taken back. -/
def Pc.joins : Pc n → Bool
  | .exclusiveSwap _ | .exclusiveBackOff _ | .unlockMaster _ => true
  | _ => false

@[simp] theorem joins_idle : (Pc.idle : Pc n).joins = false := rfl

@[simp] theorem joins_sharedSpin (r : Fin n) : (Pc.sharedSpin r).joins = false := rfl

@[simp] theorem joins_lockAllSpin : (Pc.lockAllSpin : Pc n).joins = false := rfl

namespace Proc

def exclusiveOn (P : Proc n) (r : Fin n) : ℕ := if P.held r = some .exclusive then 1 else 0

def sharedOn (P : Proc n) (r : Fin n) : ℕ :=
  if P.held r = some .shared ∨ P.pc = .sharedSpin r then 1 else 0

def joined (P : Proc n) : ℕ := if P.localExclusiveCount ≠ 0#32 ∨ P.pc.joins then 1 else 0

def announced (P : Proc n) : ℕ := if P.heldAll = true ∨ P.pc = .lockAllSpin then 1 else 0

/-- What the process has added to a word and not yet taken back. -/
def share (P : Proc n) : Word n → ℤ
  | .lockMutex r => P.exclusiveOn r + 2 * P.sharedOn r
  | .lockAllMutex => P.joined + 4294967296 * P.announced

/-- A process that holds an exclusive lock, or may obtain one without looking for lock_all locks
again. -/
def Engaged (P : Proc n) : Prop := P.localExclusiveCount ≠ 0#32 ∨ ∃ r, P.pc = .exclusiveSwap r

def unlocking (P : Proc n) : ℕ :=
  match P.pc with
  | .unlockMaster _ => 1
  | _ => 0

/-- What each program counter says about the caller's locks. -/
def Control (P : Proc n) : Prop :=
  match P.pc with
  | .idle => True
  | .exclusiveJoin r | .exclusiveSwap r | .exclusiveBackOff r =>
    P.localExclusiveCount = 0#32 ∧ P.held r = none ∧ P.heldAll = false
  | .exclusiveSwapOnly r => P.localExclusiveCount ≠ 0#32 ∧ P.held r = none ∧ P.heldAll = false
  | .sharedAnnounce r | .sharedSpin r => P.held r = none ∧ P.heldAll = false
  | .unlockExclusive r => P.held r = some .exclusive
  | .unlockMaster r => P.held r = none ∧ P.heldAll = false
  | .unlockShared r => P.held r = some .shared
  | .lockAllAnnounce | .lockAllSpin => (∀ r, P.held r = none) ∧ P.heldAll = false
  | .unlockAll => P.heldAll = true

/-- What the next operation adds to a word, given the value it fetches. -/
def added (P : Proc n) (result : BitVec 64) (w : Word n) : ℤ :=
  P.remoteOp.elim 0 fun op => if op.word = w then op.added result else 0

/-- The bookkeeping of a process agrees with what its caller holds. -/
structure Ok (P : Proc n) : Prop where
  count : P.localExclusiveCount.toNat + P.unlocking = P.exclLocks.length
  nodup : P.exclLocks.Nodup
  listed : ∀ r, r ∈ P.exclLocks ↔ P.held r = some .exclusive ∨ P.pc = .unlockMaster r
  control : P.Control
  alone : P.heldAll = true → ∀ r, P.held r = none

end Proc

theorem searchExclLock_eq_exclusive (r : Fin n) (locks : List (Fin n)) :
    searchExclLock r locks = .exclusive ↔ r ∈ locks := by
  induction locks with
  | nil => simp [searchExclLock]
  | cons q rest ih =>
    by_cases h : q = r
    · simp [searchExclLock, h]
    · simp [searchExclLock, h, ih, Ne.symm h]

theorem deleteExclLock_eq_erase (r : Fin n) (locks : List (Fin n)) (h : r ∈ locks) :
    deleteExclLock r locks = some (locks.erase r) := by
  induction locks with
  | nil => simp at h
  | cons q rest ih =>
    by_cases hq : q = r
    · simp [deleteExclLock, hq]
    · have hr : r ∈ rest := by simpa [Ne.symm hq] using h
      simp [deleteExclLock, hq, ih hr]

namespace Proc
variable {P P' : Proc n} {result : BitVec 64}

theorem Ok.length_le (h : P.Ok) : P.exclLocks.length ≤ n := by
  simpa using h.nodup.length_le_card

theorem unlocking_cases (P : Proc n) :
    P.unlocking = 0 ∨ P.unlocking = 1 ∧ ∃ r, P.pc = .unlockMaster r := by
  unfold unlocking
  split
  · rename_i r hp
    exact .inr ⟨rfl, r, hp⟩
  · exact .inl rfl

theorem Ok.count_ne_zero (h : P.Ok) {r : Fin n} (held : P.held r = some .exclusive) :
    P.localExclusiveCount ≠ 0#32 := by
  intro zero
  have listed : r ∈ P.exclLocks := (h.listed r).mpr (.inl held)
  have count : P.unlocking = P.exclLocks.length := by simpa [zero] using h.count
  obtain none | ⟨one, q, hq⟩ := P.unlocking_cases
  · rw [none] at count
    simp [List.length_eq_zero_iff.mp count.symm] at listed
  · have listed' : q ∈ P.exclLocks := (h.listed q).mpr (.inr hq)
    obtain ⟨x, hx⟩ := List.length_eq_one_iff.mp (count.symm.trans one)
    have same : r = q := by
      rw [hx, List.mem_singleton] at listed listed'
      rw [listed, listed']
    have released : P.held q = none := by
      have := h.control
      simp only [Control, hq] at this
      exact this.1
    simp [same, released] at held

theorem Ok.not_engaged (h : P.Ok) (all : P.heldAll = true) : ¬P.Engaged := by
  have control := h.control
  rintro (pos | ⟨r, hp⟩)
  · have empty : P.exclLocks = [] := by
      refine List.eq_nil_iff_forall_not_mem.mpr fun r listed => ?_
      obtain held | hp := (h.listed r).mp listed
      · simp [h.alone all r] at held
      · simp [Control, hp, all] at control
    have count := h.count
    rw [empty, List.length_nil] at count
    exact pos (BitVec.eq_of_toNat_eq (by simpa using (Nat.add_eq_zero_iff.mp count).1))
  · simp [Control, hp, all] at control

theorem Ok.toNat_succ (h : P.Ok) (small : n < 2 ^ 31) :
    (P.localExclusiveCount + 1#32).toNat = P.localExclusiveCount.toNat + 1 := by
  have count := h.count
  have len := h.length_le
  exact Foundation.toNat_succ (by omega)

theorem Ok.count_succ_ne_zero (h : P.Ok) (small : n < 2 ^ 31) : P.localExclusiveCount + 1#32 ≠ 0#32 := by
  intro zero
  have succ := h.toNat_succ small
  rw [zero] at succ
  simp at succ

theorem unlocking_eq_zero (pc : ∀ q, P.pc ≠ .unlockMaster q) : P.unlocking = 0 := by
  obtain none | ⟨-, r, hp⟩ := P.unlocking_cases
  · exact none
  · exact absurd hp (pc r)

/-- A step that moves the program counter only, away from the end of an unlock. -/
theorem Ok.move (h : P.Ok) {pc : Pc n} (before : ∀ q, P.pc ≠ .unlockMaster q)
    (after : ∀ q, pc ≠ .unlockMaster q) (control : ({ P with pc := pc } : Proc n).Control) :
    ({ P with pc := pc } : Proc n).Ok := by
  have count := h.count
  rw [unlocking_eq_zero before] at count
  have quiet : ({ P with pc := pc } : Proc n).unlocking = 0 := unlocking_eq_zero after
  exact ⟨by rw [quiet]; exact count, h.nodup, by simpa [before, after] using h.listed, control, h.alone⟩

theorem Ok.acquireExclusive (h : P.Ok) (small : n < 2 ^ 31) {r : Fin n} (free : P.held r = none)
    (single : P.heldAll = false) (pc : ∀ q, P.pc ≠ .unlockMaster q) : (P.acquireExclusive r).Ok := by
  have fresh : r ∉ P.exclLocks := by
    rw [h.listed]
    simp [free, pc]
  refine ⟨?_, List.nodup_cons.mpr ⟨fresh, h.nodup⟩, ?_, trivial, ?_⟩
  · have count := h.count
    rw [unlocking_eq_zero pc] at count
    simp only [Proc.acquireExclusive, h.toNat_succ small, unlocking, List.length_cons]
    omega
  · intro q
    by_cases hq : q = r
    · simp [Proc.acquireExclusive, hq]
    · simp [Proc.acquireExclusive, hq, h.listed, pc]
  · simp [Proc.acquireExclusive, single]

theorem Ok.acquireShared (h : P.Ok) {r : Fin n} (free : P.held r = none) (single : P.heldAll = false)
    (pc : ∀ q, P.pc ≠ .unlockMaster q) : (P.acquireShared r result).Ok := by
  have count := h.count
  rw [unlocking_eq_zero pc] at count
  unfold Proc.acquireShared
  split
  · refine ⟨by simpa [unlocking] using count, h.nodup, ?_, trivial, by simp [single]⟩
    intro q
    by_cases hq : q = r
    · simp [hq, h.listed, free, pc]
    · simp [hq, h.listed, pc]
  · exact h.move pc (by simp) ⟨free, single⟩

theorem Ok.acquireAll (h : P.Ok) (free : ∀ r, P.held r = none) (single : P.heldAll = false)
    (pc : ∀ q, P.pc ≠ .unlockMaster q) : (P.acquireAll result).Ok := by
  have count := h.count
  rw [unlocking_eq_zero pc] at count
  unfold Proc.acquireAll
  split
  · exact ⟨by simpa [unlocking] using count, h.nodup, by simpa [pc] using h.listed, trivial,
      fun _ => free⟩
  · exact h.move pc (by simp) ⟨free, single⟩

theorem Ok.releaseExclusive (h : P.Ok) {r : Fin n} (hp : P.pc = .unlockExclusive r)
    (held : P.held r = some .exclusive) :
    ({ P with
      pc := .unlockMaster r
      localExclusiveCount := P.localExclusiveCount - 1#32
      held := Function.update P.held r none } : Proc n).Ok := by
  have single : P.heldAll = false := by
    by_contra all
    simp [h.alone (by simpa using all) r] at held
  refine ⟨?_, h.nodup, ?_, ⟨by simp, single⟩, by simp [single]⟩
  · have pos := h.count_ne_zero held
    have : P.localExclusiveCount.toNat ≠ 0 := fun zero => pos (BitVec.eq_of_toNat_eq zero)
    have count := h.count
    simp only [unlocking, hp] at count
    simp only [unlocking, toNat_pred (Nat.pos_of_ne_zero this)]
    omega
  · intro q
    by_cases hq : q = r
    · simp [hq, h.listed, held]
    · simp [hq, Ne.symm hq, h.listed, hp]

theorem Ok.releaseListed (h : P.Ok) {r : Fin n} (hp : P.pc = .unlockMaster r)
    (free : P.held r = none) :
    ({ P with pc := .idle, exclLocks := P.exclLocks.erase r } : Proc n).Ok := by
  have listed : r ∈ P.exclLocks := (h.listed r).mpr (.inr hp)
  refine ⟨?_, h.nodup.erase r, ?_, trivial, h.alone⟩
  · have pos := List.length_pos_of_mem listed
    have count := h.count
    simp only [unlocking, hp] at count
    simp only [unlocking, List.length_erase_of_mem listed]
    omega
  · intro q
    by_cases hq : q = r
    · simp [hq, h.nodup.not_mem_erase, free]
    · simp [List.mem_erase_of_ne hq, h.listed, hp, Ne.symm hq]

theorem Ok.releaseShared (h : P.Ok) {r : Fin n} (hp : P.pc = .unlockShared r)
    (held : P.held r = some .shared) :
    ({ P with pc := .idle, held := Function.update P.held r none } : Proc n).Ok := by
  have count := h.count
  refine ⟨by simpa [unlocking, hp] using count, h.nodup, ?_, trivial, ?_⟩
  · intro q
    by_cases hq : q = r
    · simp [hq, h.listed, hp, held]
    · simp [hq, h.listed, hp]
  · intro all
    simp [h.alone all r] at held

theorem Ok.releaseAll (h : P.Ok) (hp : P.pc = .unlockAll) :
    ({ P with pc := .idle, heldAll := false } : Proc n).Ok := by
  have count := h.count
  exact ⟨by simpa [unlocking, hp] using count, h.nodup, by simpa [hp] using h.listed, trivial,
    by simp⟩

/-- An operation and the local code after it, by the place of the process. -/
inductive Resumes (P : Proc n) (result : BitVec 64) : Option (RemoteOp n) → Proc n → Prop
  | join {r : Fin n} (here : P.pc = .exclusiveJoin r) (free : result &&& lockAllMask = 0#64) :
    Resumes P result (some (.afadd .lockAllMutex 1)) { P with pc := .exclusiveSwap r }
  | joinInVain {r : Fin n} (here : P.pc = .exclusiveJoin r) :
    Resumes P result (some (.afadd .lockAllMutex 1)) { P with pc := .exclusiveBackOff r }
  | swap {r : Fin n} (here : P.pc = .exclusiveSwap r ∨ P.pc = .exclusiveSwapOnly r) (free : result = 0#64) :
    Resumes P result (some (.acswap (.lockMutex r) 0 1)) (P.acquireExclusive r)
  | swapInVain {r : Fin n} (here : P.pc = .exclusiveSwap r) (taken : result ≠ 0#64) :
    Resumes P result (some (.acswap (.lockMutex r) 0 1)) { P with pc := .exclusiveBackOff r }
  | swapAgain {r : Fin n} (here : P.pc = .exclusiveSwapOnly r) (taken : result ≠ 0#64) :
    Resumes P result (some (.acswap (.lockMutex r) 0 1)) P
  | backOff {r : Fin n} (here : P.pc = .exclusiveBackOff r) :
    Resumes P result (some (.aadd .lockAllMutex (-1))) { P with pc := .exclusiveJoin r }
  | announce {r : Fin n} (here : P.pc = .sharedAnnounce r) :
    Resumes P result (some (.afadd (.lockMutex r) 2)) (P.acquireShared r result)
  | spin {r : Fin n} (here : P.pc = .sharedSpin r) :
    Resumes P result (some (.get (.lockMutex r))) (P.acquireShared r result)
  | unlockExclusive {r : Fin n} (here : P.pc = .unlockExclusive r) :
    Resumes P result (some (.aadd (.lockMutex r) (-1))) { P with
      pc := .unlockMaster r
      localExclusiveCount := P.localExclusiveCount - 1#32
      held := Function.update P.held r none }
  | unlockMaster {r : Fin n} {rest : List (Fin n)} (here : P.pc = .unlockMaster r)
    (deleted : deleteExclLock r P.exclLocks = some rest) :
    Resumes P result (if P.localExclusiveCount = 0#32 then some (.aaddNbi .lockAllMutex (-1)) else none)
      { P with pc := .idle, exclLocks := rest }
  | unlockShared {r : Fin n} (here : P.pc = .unlockShared r) :
    Resumes P result (some (.aaddNbi (.lockMutex r) (-2)))
      { P with pc := .idle, held := Function.update P.held r none }
  | announceAll (here : P.pc = .lockAllAnnounce) :
    Resumes P result (some (.afadd .lockAllMutex 4294967296)) (P.acquireAll result)
  | spinAll (here : P.pc = .lockAllSpin) : Resumes P result (some (.get .lockAllMutex)) (P.acquireAll result)
  | unlockAll (here : P.pc = .unlockAll) :
    Resumes P result (some (.aaddNbi .lockAllMutex (-4294967296))) { P with pc := .idle, heldAll := false }

theorem Resumes.of_resume (e : P.resume result = some P') :
    ∃ op, P.remoteOp = op ∧ Resumes P result op P' := by
  refine ⟨P.remoteOp, rfl, ?_⟩
  cases hp : P.pc with
  | idle => simp [Proc.resume, hp] at e
  | exclusiveJoin r =>
    simp only [Proc.resume, remoteOp, hp, Option.some.injEq] at e ⊢
    subst e
    split
    · rename_i free
      exact .join hp free
    · exact .joinInVain hp
  | exclusiveSwap r =>
    simp only [Proc.resume, remoteOp, hp, Option.some.injEq] at e ⊢
    split at e
    · rename_i free
      exact e ▸ .swap (.inl hp) free
    · rename_i taken
      exact e ▸ .swapInVain hp taken
  | exclusiveSwapOnly r =>
    simp only [Proc.resume, remoteOp, hp, Option.some.injEq] at e ⊢
    split at e
    · rename_i free
      exact e ▸ .swap (.inr hp) free
    · rename_i taken
      exact e ▸ .swapAgain hp taken
  | unlockMaster r =>
    simp only [Proc.resume, remoteOp, hp, Option.map_eq_some_iff] at e ⊢
    obtain ⟨rest, deleted, rfl⟩ := e
    exact .unlockMaster hp deleted
  | exclusiveBackOff r | sharedAnnounce r | sharedSpin r | unlockExclusive r | unlockShared r
  | lockAllAnnounce | lockAllSpin | unlockAll =>
    simp only [Proc.resume, remoteOp, hp, Option.some.injEq] at e ⊢
    subst e
    constructor
    exact hp

/-- The local code after each operation keeps the bookkeeping. -/
theorem Ok.resume (h : P.Ok) (small : n < 2 ^ 31) (e : P.resume result = some P') : P'.Ok := by
  have control := h.control
  unfold Control at control
  obtain ⟨op, -, resumes⟩ := Resumes.of_resume e
  cases resumes with
  | join here | joinInVain here | swapInVain here | backOff here =>
    rw [here] at control
    exact h.move (by simp [here]) (by simp) control
  | swap here =>
    obtain here | here := here
    · rw [here] at control
      exact h.acquireExclusive small control.2.1 control.2.2 (by simp [here])
    · rw [here] at control
      exact h.acquireExclusive small control.2.1 control.2.2 (by simp [here])
  | swapAgain => exact h
  | announce here | spin here =>
    rw [here] at control
    exact h.acquireShared control.1 control.2 (by simp [here])
  | unlockExclusive here =>
    rw [here] at control
    exact h.releaseExclusive here control
  | @unlockMaster r rest here deleted =>
    rw [here] at control
    have listed : r ∈ P.exclLocks := (h.listed r).mpr (.inr here)
    obtain rfl := Option.some.inj ((deleteExclLock_eq_erase r _ listed).symm.trans deleted)
    exact h.releaseListed here control.1
  | unlockShared here =>
    rw [here] at control
    exact h.releaseShared here control
  | announceAll here | spinAll here =>
    rw [here] at control
    exact h.acquireAll control.1 control.2 (by simp [here])
  | unlockAll here => exact h.releaseAll here

/-- Entering a routine moves the program counter only. -/
theorem Ok.enter (h : P.Ok) (idle : P.pc = .idle) {pc : Pc n} (other : ∀ q, pc ≠ .unlockMaster q)
    (control : ({ P with pc := pc } : Proc n).Control) : ({ P with pc := pc } : Proc n).Ok :=
  h.move (by simp [idle]) other control

theorem Ok.winLock (h : P.Ok) {r : Fin n} (idle : P.pc = .idle) (free : P.held r = none)
    (single : P.heldAll = false) (lockType : LockType) : (P.winLock lockType r).Ok := by
  cases lockType with
  | shared => exact h.enter idle (by simp) ⟨free, single⟩
  | exclusive =>
    unfold Proc.winLock
    by_cases first : P.localExclusiveCount = 0#32
    · simp only [if_pos first]
      exact h.enter idle (by simp) ⟨first, free, single⟩
    · simp only [if_neg first]
      exact h.enter idle (by simp) ⟨first, free, single⟩

theorem Ok.winUnlock (h : P.Ok) {r : Fin n} (idle : P.pc = .idle) (held : P.held r ≠ none) :
    (P.winUnlock r).Ok := by
  have listed := (searchExclLock_eq_exclusive r P.exclLocks).trans (h.listed r)
  simp only [idle, reduceCtorEq, or_false] at listed
  unfold Proc.winUnlock
  cases found : searchExclLock r P.exclLocks with
  | exclusive => exact h.enter idle (by simp) (listed.mp found)
  | shared =>
    refine h.enter idle (by simp) ?_
    cases kind : P.held r with
    | none => exact absurd kind held
    | some t =>
      cases t with
      | shared => exact kind
      | exclusive => simp [found, kind] at listed

/-- A move of the program counter that leaves the spinning of the routines aside shows in the
exclusive half of the master word alone. -/
theorem share_move {pc : Pc n} (spin : ∀ r, P.pc ≠ .sharedSpin r) (spin' : ∀ r, pc ≠ .sharedSpin r)
    (all : P.pc ≠ .lockAllSpin) (all' : pc ≠ .lockAllSpin) (w : Word n) :
    ({ P with pc := pc } : Proc n).share w = P.share w +
      if Word.lockAllMutex = w then (({ P with pc := pc } : Proc n).joined - P.joined : ℤ) else 0 := by
  cases w with
  | lockMutex r => simp [share, exclusiveOn, sharedOn, spin, spin']
  | lockAllMutex =>
    simp only [share, announced, all, all', or_false, if_true]
    omega

theorem share_enter {pc : Pc n} (idle : P.pc = .idle) (spin : ∀ r, pc ≠ .sharedSpin r)
    (join : pc.joins = false) (all : pc ≠ .lockAllSpin) (w : Word n) :
    ({ P with pc := pc } : Proc n).share w = P.share w := by
  rw [share_move (by simp [idle]) spin (by simp [idle]) all]
  simp [joined, idle, join]

/-- Another target, and another routine's part of the master word, are not touched. -/
theorem share_acquireExclusive (small : P.localExclusiveCount + 1#32 ≠ 0#32) {r : Fin n}
    (free : P.held r = none) (quiet : ∀ q, P.pc ≠ .sharedSpin q) (all : P.pc ≠ .lockAllSpin)
    (counted : P.joined = 1) (w : Word n) :
    (P.acquireExclusive r).share w = P.share w + if Word.lockMutex r = w then 1 else 0 := by
  cases w with
  | lockMutex q =>
    by_cases hq : q = r
    · simp [share, exclusiveOn, sharedOn, Proc.acquireExclusive, hq, free, quiet]
    · simp [share, exclusiveOn, sharedOn, Proc.acquireExclusive, hq, Ne.symm hq, quiet]
  | lockAllMutex =>
    have counted' : (P.acquireExclusive r).joined = 1 := if_pos (.inl small)
    simp only [share, counted, counted']
    simp [announced, Proc.acquireExclusive, all]

theorem share_acquireShared {r : Fin n} (free : P.held r = none) (quiet : P.pc.joins = false)
    (all : P.pc ≠ .lockAllSpin) (spin : ∀ q, q ≠ r → P.pc ≠ .sharedSpin q) (w : Word n) :
    (P.acquireShared r result).share w = P.share w +
      if Word.lockMutex r = w then if P.pc = .sharedSpin r then 0 else 2 else 0 := by
  unfold Proc.acquireShared
  cases w with
  | lockMutex q =>
    by_cases hq : q = r
    · by_cases hs : P.pc = .sharedSpin r <;> split <;>
        simp [share, exclusiveOn, sharedOn, hq, free, hs]
    · split <;> simp [share, exclusiveOn, sharedOn, hq, Ne.symm hq, spin q hq]
  | lockAllMutex => split <;> simp [share, joined, announced, all, quiet]

theorem share_acquireAll (single : P.heldAll = false) (quiet : P.pc.joins = false)
    (spin : ∀ q, P.pc ≠ .sharedSpin q) (w : Word n) : (P.acquireAll result).share w = P.share w +
      if Word.lockAllMutex = w then if P.pc = .lockAllSpin then 0 else 4294967296 else 0 := by
  unfold Proc.acquireAll
  cases w with
  | lockMutex q => split <;> simp [share, exclusiveOn, sharedOn, spin]
  | lockAllMutex =>
    by_cases hs : P.pc = .lockAllSpin <;> split <;>
      simp [share, joined, announced, hs, single, quiet]

theorem added_eq {op : RemoteOp n} (issued : P.remoteOp = some op) (w : Word n) :
    P.added result w = if op.word = w then op.added result else 0 := by
  rw [added, issued]
  rfl

theorem share_releaseExclusive {r : Fin n} (hp : P.pc = .unlockExclusive r)
    (held : P.held r = some .exclusive) (pos : P.localExclusiveCount ≠ 0#32) (w : Word n) :
    ({ P with
      pc := .unlockMaster r
      localExclusiveCount := P.localExclusiveCount - 1#32
      held := Function.update P.held r none } : Proc n).share w =
    P.share w + if Word.lockMutex r = w then -1 else 0 := by
  cases w with
  | lockMutex q =>
    by_cases hq : q = r
    · simp [share, exclusiveOn, sharedOn, hp, hq, held]
    · simp [share, exclusiveOn, sharedOn, hp, hq, Ne.symm hq]
  | lockAllMutex => simp [share, joined, announced, Pc.joins, hp, pos]

/-- The last exclusive lock of the process is taken back from the master word. -/
theorem share_releaseListed {r : Fin n} (hp : P.pc = .unlockMaster r) (rest : List (Fin n))
    (w : Word n) : ({ P with pc := .idle, exclLocks := rest } : Proc n).share w = P.share w +
      if P.localExclusiveCount = 0#32 ∧ Word.lockAllMutex = w then -1 else 0 := by
  cases w with
  | lockMutex q => simp [share, exclusiveOn, sharedOn, hp]
  | lockAllMutex =>
    by_cases last : P.localExclusiveCount = 0#32
    · simp [share, joined, announced, Pc.joins, hp, last]
    · simp [share, joined, announced, Pc.joins, hp, last]

theorem share_releaseShared {r : Fin n} (hp : P.pc = .unlockShared r)
    (held : P.held r = some .shared) (w : Word n) :
    ({ P with pc := .idle, held := Function.update P.held r none } : Proc n).share w =
      P.share w + if Word.lockMutex r = w then -2 else 0 := by
  cases w with
  | lockMutex q =>
    by_cases hq : q = r
    · simp [share, exclusiveOn, sharedOn, hp, hq, held]
    · simp [share, exclusiveOn, sharedOn, hp, hq, Ne.symm hq]
  | lockAllMutex => simp [share, joined, announced, Pc.joins, hp]

theorem share_releaseAll (hp : P.pc = .unlockAll) (all : P.heldAll = true) (w : Word n) :
    ({ P with pc := .idle, heldAll := false } : Proc n).share w =
      P.share w + if Word.lockAllMutex = w then -4294967296 else 0 := by
  cases w with
  | lockMutex q => simp [share, exclusiveOn, sharedOn, hp]
  | lockAllMutex => simp [share, joined, announced, Pc.joins, hp, all]

/-- The share of a process moves by what its operation adds, to memory or to what is in flight. -/
theorem Ok.share_resume (h : P.Ok) (small : n < 2 ^ 31) (e : P.resume result = some P')
    (w : Word n) : P'.share w = P.share w + P.added result w := by
  have control := h.control
  unfold Control at control
  obtain ⟨op, issued, resumes⟩ := Resumes.of_resume e
  cases resumes with
  | join here | joinInVain here | backOff here =>
    rw [here] at control
    rw [share_move (by simp [here]) (by simp) (by simp [here]) (by simp), added_eq issued]
    simp [joined, Pc.joins, here, control, RemoteOp.word, RemoteOp.added]
    rfl
  | swap here free =>
    rw [added_eq issued]
    obtain here | here := here
    · rw [here] at control
      rw [share_acquireExclusive (h.count_succ_ne_zero small) control.2.1 (by simp [here])
        (by simp [here]) (by simp [joined, Pc.joins, here])]
      simp [RemoteOp.word, RemoteOp.added, free]
    · rw [here] at control
      rw [share_acquireExclusive (h.count_succ_ne_zero small) control.2.1 (by simp [here])
        (by simp [here]) (by simp [joined, control.1])]
      simp [RemoteOp.word, RemoteOp.added, free]
  | swapInVain here taken =>
    rw [share_move (by simp [here]) (by simp) (by simp [here]) (by simp), added_eq issued]
    simp [joined, Pc.joins, here, RemoteOp.added, taken]
  | swapAgain here taken =>
    rw [added_eq issued]
    simp [RemoteOp.added, taken]
  | announce here =>
    rw [here] at control
    rw [share_acquireShared control.1 (by simp [Pc.joins, here]) (by simp [here]) (by simp [here]),
      added_eq issued]
    simp [here, RemoteOp.word, RemoteOp.added]
    rfl
  | spin here =>
    rw [here] at control
    rw [share_acquireShared control.1 (by simp [Pc.joins, here]) (by simp [here])
      (by simp +contextual [here, eq_comm]), added_eq issued]
    simp [here, RemoteOp.added]
  | unlockExclusive here =>
    rw [here] at control
    rw [share_releaseExclusive here control (h.count_ne_zero control), added_eq issued]
    rfl
  | unlockMaster here =>
    rw [share_releaseListed here]
    by_cases last : P.localExclusiveCount = 0#32
    · rw [if_pos last] at issued
      rw [added_eq issued]
      simp [last, RemoteOp.word, RemoteOp.added]
      rfl
    · rw [if_neg last] at issued
      simp [added, issued, last]
  | unlockShared here =>
    rw [here] at control
    rw [share_releaseShared here control, added_eq issued]
    rfl
  | announceAll here =>
    rw [here] at control
    rw [share_acquireAll control.2 (by simp [Pc.joins, here]) (by simp [here]), added_eq issued]
    simp [here, RemoteOp.word, RemoteOp.added]
    rfl
  | spinAll here =>
    rw [here] at control
    rw [share_acquireAll control.2 (by simp [Pc.joins, here]) (by simp [here]), added_eq issued]
    simp [here, RemoteOp.added]
  | unlockAll here =>
    rw [here] at control
    rw [share_releaseAll here control, added_eq issued]
    rfl

end Proc

end FoMPI.WinLock
