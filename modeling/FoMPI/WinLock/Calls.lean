import FoMPI.WinLock.Safety

/-!
# Calls of one process

A process and the calls of `foMPI_Win_lock` and `foMPI_Win_unlock` it has made, each
with what its operations added to the lock words. The values that the operations
fetch are arbitrary, so that every behaviour of the other processes is covered. What
the caller has locked is read off the calls; the descriptor and the words must agree
with it whenever no call is in progress.
-/
namespace FoMPI.WinLock
open FoMPI.Foundation

variable {n : ℕ}

/-- A call and its arguments; the rank is `none` where the argument is `MPI_PROC_NULL`. -/
inductive Call (n : ℕ)
  | winLock (lockType : LockType) (rank : Option (Fin n))
  | winUnlock (rank : Option (Fin n))
  deriving DecidableEq, Repr

namespace Call

def rank : Call n → Option (Fin n)
  | .winLock _ rank | .winUnlock rank => rank

/-- What the caller has locked when the call has returned. -/
def after (locked : Fin n → Option LockType) : Call n → Fin n → Option LockType
  | .winLock lockType (some rank) => Function.update locked rank (some lockType)
  | .winUnlock (some rank) => Function.update locked rank none
  | .winLock _ none | .winUnlock none => locked

/-- Each rank is locked at most once at a time, and only locked ranks are unlocked. -/
def Allowed (locked : Fin n → Option LockType) : Call n → Prop
  | .winLock _ (some rank) => locked rank = none
  | .winUnlock (some rank) => locked rank ≠ none
  | .winLock _ none | .winUnlock none => True

instance (locked : Fin n → Option LockType) : (call : Call n) → Decidable (call.Allowed locked)
  | .winLock _ (some rank) => inferInstanceAs (Decidable (locked rank = none))
  | .winUnlock (some rank) => inferInstanceAs (Decidable (locked rank ≠ none))
  | .winLock _ none | .winUnlock none => isTrue trivial

/-- The entry of a call; on `MPI_PROC_NULL` it returns at once. -/
def enter (P : Proc n) : Call n → Proc n
  | .winLock lockType (some rank) => P.winLock lockType rank
  | .winUnlock (some rank) => P.winUnlock rank
  | .winLock _ none | .winUnlock none => P

theorem enter_heldAll (call : Call n) (P : Proc n) : (call.enter P).heldAll = P.heldAll := by
  cases call with
  | winLock lockType rank =>
    cases rank with
    | none => rfl
    | some r => cases lockType <;> rfl
  | winUnlock rank =>
    cases rank with
    | none => rfl
    | some r =>
      simp only [enter, Proc.winUnlock]
      split <;> rfl

end Call

/-- A call that was made and what it has added to each word so far. -/
structure Entry (n : ℕ) where
  call : Call n
  added : Word n → ℤ

/-- What the caller has locked after its calls, the last one first. -/
def locked : List (Entry n) → Fin n → Option LockType
  | [] => fun _ => none
  | e :: older => e.call.after (locked older)

/-- The net contribution of the calls to a word. -/
def net (calls : List (Entry n)) (w : Word n) : ℤ := (calls.map fun e => e.added w).sum

/-- An operation of the call in progress adds to the words. -/
def charge (added : Word n → ℤ) : List (Entry n) → List (Entry n)
  | [] => []
  | e :: older => { e with added := fun w => e.added w + added w } :: older

/-- A process with the calls it has made, the last one first. -/
structure Caller (n : ℕ) where
  proc : Proc n
  calls : List (Entry n)

/-- A call is entered, or the operation of the call in progress returns what it fetched. -/
inductive Event (n : ℕ)
  | enter (call : Call n)
  | fetch (result : BitVec 64)

namespace Caller

/-- A process after window creation. -/
def start : Caller n := ⟨⟨.idle, 0#32, [], fun _ => none, false⟩, []⟩

def step (c : Caller n) : Event n → Option (Caller n)
  | .enter call =>
    if c.proc.pc = .idle ∧ call.Allowed (locked c.calls) then
      some ⟨call.enter c.proc, ⟨call, fun _ => 0⟩ :: c.calls⟩
    else none
  | .fetch result =>
    (c.proc.resume result).map fun P => ⟨P, charge (c.proc.added result) c.calls⟩

end Caller

/-- What a lock of each kind adds to the word of its target. -/
def LockType.operand : LockType → ℤ
  | .exclusive => 1
  | .shared => 2

/-- What a process that has these ranks locked has to have in a word. -/
def due (locked : Fin n → Option LockType) : Word n → ℤ
  | .lockMutex r => (locked r).elim 0 LockType.operand
  | .lockAllMutex => if ∃ r, locked r = some .exclusive then 1 else 0

@[simp] theorem net_nil (w : Word n) : net [] w = 0 := rfl

@[simp] theorem net_cons (e : Entry n) (older : List (Entry n)) (w : Word n) :
    net (e :: older) w = e.added w + net older w := rfl

@[simp] theorem locked_nil (r : Fin n) : locked ([] : List (Entry n)) r = none := rfl

@[simp] theorem locked_cons (e : Entry n) (older : List (Entry n)) :
    locked (e :: older) = e.call.after (locked older) := rfl

@[simp] theorem locked_charge (added : Word n → ℤ) (calls : List (Entry n)) :
    locked (charge added calls) = locked calls := by
  cases calls <;> rfl

theorem net_charge (added : Word n → ℤ) {calls : List (Entry n)} (begun : calls ≠ []) (w : Word n) :
    net (charge added calls) w = net calls w + added w := by
  cases calls with
  | nil => exact absurd rfl begun
  | cons e older =>
    simp only [charge, net_cons]
    ring

/-- A rank that a call does not name is as it was. -/
theorem Call.after_of_rank_ne (call : Call n) {r : Fin n} (other : call.rank ≠ some r)
    (locked : Fin n → Option LockType) : call.after locked r = locked r := by
  cases call with
  | winLock lockType rank | winUnlock rank =>
    cases rank with
    | none => rfl
    | some q =>
      have : r ≠ q := fun same => other (congrArg some same.symm)
      simp [after, this]

theorem locked_append {recent older : List (Entry n)} {r : Fin n}
    (others : ∀ e ∈ recent, e.call.rank ≠ some r) : locked (recent ++ older) r = locked older r := by
  induction recent with
  | nil => rfl
  | cons e rest ih =>
    rw [List.cons_append, locked_cons, e.call.after_of_rank_ne (others e List.mem_cons_self)]
    exact ih fun e' he => others e' (List.mem_cons_of_mem _ he)

namespace Proc
variable {P P' : Proc n} {result : BitVec 64}

/-- What the caller will have locked when the call in progress returns. -/
def Follows (P : Proc n) (locked : Fin n → Option LockType) : Prop :=
  match P.pc with
  | .idle => P.held = locked
  | .exclusiveJoin r | .exclusiveSwap r | .exclusiveBackOff r | .exclusiveSwapOnly r =>
    Function.update P.held r (some .exclusive) = locked
  | .sharedAnnounce r | .sharedSpin r => Function.update P.held r (some .shared) = locked
  | .unlockExclusive r | .unlockMaster r | .unlockShared r => Function.update P.held r none = locked
  | .lockAllAnnounce | .lockAllSpin | .unlockAll => False

theorem Follows.idle {locked : Fin n → Option LockType} (h : P.Follows locked) (idle : P.pc = .idle) :
    P.held = locked := by
  unfold Follows at h
  rwa [idle] at h

theorem Ok.counted_iff (h : P.Ok) (idle : P.pc = .idle) :
    P.localExclusiveCount ≠ 0#32 ↔ ∃ r, P.held r = some .exclusive := by
  constructor
  · intro pos
    have count := h.count
    rw [unlocking_eq_zero (by simp [idle])] at count
    have filled : P.exclLocks ≠ [] := by
      intro empty
      rw [empty] at count
      exact pos (BitVec.eq_of_toNat_eq (by simpa using count))
    obtain ⟨r, listed⟩ := List.exists_mem_of_ne_nil _ filled
    exact ⟨r, ((h.listed r).mp listed).resolve_right (by simp [idle])⟩
  · rintro ⟨r, held⟩
    exact h.count_ne_zero held

/-- Outside of calls the share of a process is what its locks are due. -/
theorem Ok.share_idle (h : P.Ok) (idle : P.pc = .idle) (single : P.heldAll = false) (w : Word n) :
    P.share w = due P.held w := by
  cases w with
  | lockMutex r =>
    cases held : P.held r with
    | none => simp [share, due, exclusiveOn, sharedOn, held, idle]
    | some kind => cases kind <;> simp [share, due, exclusiveOn, sharedOn, held, idle, LockType.operand]
  | lockAllMutex => simp [share, due, joined, announced, idle, single, h.counted_iff idle]

/-- The code of a call goes on towards what the call is to lock or unlock. -/
theorem Follows.resume {locked : Fin n → Option LockType} (h : P.Follows locked) (ok : P.Ok)
    (single : P.heldAll = false) (e : P.resume result = some P') :
    P'.Follows locked ∧ P'.heldAll = false := by
  have control := ok.control
  unfold Control at control
  unfold Follows at h
  obtain ⟨op, -, resumes⟩ := Resumes.of_resume e
  cases resumes with
  | join here | joinInVain here | swapInVain here | backOff here =>
    rw [here] at h
    exact ⟨h, single⟩
  | swap here =>
    obtain here | here := here <;>
    · rw [here] at h
      exact ⟨h, single⟩
  | swapAgain here =>
    rw [here] at h
    refine ⟨?_, single⟩
    unfold Follows
    rw [here]
    exact h
  | announce here | spin here =>
    rw [here] at h
    unfold Proc.acquireShared
    split <;> exact ⟨h, single⟩
  | unlockExclusive here =>
    rw [here] at h
    exact ⟨by simpa [Follows] using h, single⟩
  | @unlockMaster r rest here =>
    rw [here] at h control
    have same : Function.update P.held r none = P.held := Function.update_eq_self_iff.mpr control.1.symm
    exact ⟨same.symm.trans h, single⟩
  | unlockShared here =>
    rw [here] at h
    exact ⟨h, single⟩
  | announceAll here | spinAll here | unlockAll here =>
    rw [here] at h
    exact h.elim

theorem Follows.enter {locked : Fin n → Option LockType} (h : P.Follows locked)
    (idle : P.pc = .idle) (call : Call n) : (call.enter P).Follows (call.after locked) := by
  obtain rfl := h.idle idle
  cases call with
  | winLock lockType rank =>
    cases rank with
    | none => exact h
    | some r =>
      cases lockType with
      | shared => rfl
      | exclusive =>
        simp only [Call.enter, Proc.winLock]
        split <;> rfl
  | winUnlock rank =>
    cases rank with
    | none => exact h
    | some r =>
      simp only [Call.enter, Proc.winUnlock]
      split <;> rfl

theorem Ok.enter_call (h : P.Ok) (idle : P.pc = .idle) (single : P.heldAll = false) {call : Call n}
    (allowed : call.Allowed P.held) : (call.enter P).Ok := by
  cases call with
  | winLock lockType rank =>
    cases rank with
    | none => exact h
    | some r => exact h.winLock idle allowed single lockType
  | winUnlock rank =>
    cases rank with
    | none => exact h
    | some r => exact h.winUnlock idle allowed

/-- Entering a call adds nothing to the words. -/
theorem share_enter_call (idle : P.pc = .idle) (call : Call n) (w : Word n) :
    (call.enter P).share w = P.share w := by
  cases call with
  | winLock lockType rank =>
    cases rank with
    | none => rfl
    | some r =>
      cases lockType with
      | shared => exact share_enter idle (by simp) rfl (by simp) w
      | exclusive =>
        simp only [Call.enter, Proc.winLock]
        split <;> exact share_enter idle (by simp) rfl (by simp) w
  | winUnlock rank =>
    cases rank with
    | none => rfl
    | some r =>
      simp only [Call.enter, Proc.winUnlock]
      split <;> exact share_enter idle (by simp) rfl (by simp) w

end Proc

namespace Caller
variable {c d : Caller n}

/-- Whenever no call was in progress, the words had from the process what its locks were due. -/
structure Inv (c : Caller n) : Prop where
  ok : c.proc.Ok
  single : c.proc.heldAll = false
  begun : c.calls = [] → c.proc.pc = .idle
  follows : c.proc.Follows (locked c.calls)
  balance : ∀ w, net c.calls w = c.proc.share w
  allowed : ∀ e older, e :: older <:+ c.calls → e.call.Allowed (locked older)
  settled : ∀ older, older <:+ c.calls → (older = c.calls → c.proc.pc = .idle) →
    ∀ w, net older w = due (locked older) w

theorem Inv.start : Inv (start : Caller n) where
  ok := ⟨rfl, List.nodup_nil, fun r => by simp [Caller.start], trivial, fun _ _ => rfl⟩
  single := rfl
  begun _ := rfl
  follows := rfl
  balance w := by
    cases w <;> simp [Caller.start, Proc.share, Proc.exclusiveOn, Proc.sharedOn, Proc.joined,
      Proc.announced]
  allowed e older suffix := by simp [Caller.start] at suffix
  settled older suffix _ w := by
    obtain rfl := List.suffix_nil.mp suffix
    cases w <;> simp [due]

theorem Inv.held_eq (inv : Inv c) (idle : c.proc.pc = .idle) : c.proc.held = locked c.calls :=
  inv.follows.idle idle

/-- A caller that has returned from its calls has settled them. -/
theorem settled_of_idle {P : Proc n} {calls : List (Entry n)} (ok : P.Ok) (idle : P.pc = .idle)
    (single : P.heldAll = false) (follows : P.Follows (locked calls))
    (balance : ∀ w, net calls w = P.share w) (w : Word n) : net calls w = due (locked calls) w := by
  rw [balance, ok.share_idle idle single, follows.idle idle]

theorem Inv.enter (inv : Inv c) {call : Call n} (idle : c.proc.pc = .idle)
    (allowed : call.Allowed (locked c.calls)) :
    Inv ⟨call.enter c.proc, ⟨call, fun _ => 0⟩ :: c.calls⟩ := by
  have ok := inv.ok.enter_call idle inv.single (inv.held_eq idle ▸ allowed)
  have single := (call.enter_heldAll c.proc).trans inv.single
  have follows : (call.enter c.proc).Follows (locked (⟨call, fun _ => 0⟩ :: c.calls)) :=
    inv.follows.enter idle call
  have balance (w : Word n) :
      net (⟨call, fun _ => 0⟩ :: c.calls) w = (call.enter c.proc).share w := by
    rw [net_cons, zero_add, inv.balance, Proc.share_enter_call idle]
  refine ⟨ok, single, fun none => by simp at none, follows, balance, fun e older made => ?_, ?_⟩
  · obtain same | before := List.suffix_cons_iff.mp made
    · obtain ⟨rfl, rfl⟩ := List.cons.inj same
      exact allowed
    · exact inv.allowed e older before
  intro older suffix returned w
  obtain rfl | before := List.suffix_cons_iff.mp suffix
  · exact settled_of_idle ok (returned rfl) single follows balance w
  · exact inv.settled older before (fun _ => idle) w

theorem Inv.fetch (inv : Inv c) (small : n < 2 ^ 31) {result : BitVec 64} {P : Proc n}
    (resumed : c.proc.resume result = some P) :
    Inv ⟨P, charge (c.proc.added result) c.calls⟩ := by
  have busy : c.proc.pc ≠ .idle := by
    intro idle
    simp [Proc.resume, idle] at resumed
  have begun : c.calls ≠ [] := fun none => busy (inv.begun none)
  have ok := inv.ok.resume small resumed
  obtain ⟨follows, single⟩ := inv.follows.resume inv.ok inv.single resumed
  rw [← locked_charge (c.proc.added result)] at follows
  have balance (w : Word n) : net (charge (c.proc.added result) c.calls) w = P.share w := by
    rw [net_charge _ begun, inv.balance, inv.ok.share_resume small resumed]
  obtain ⟨e, before, calls⟩ := List.exists_cons_of_ne_nil begun
  rw [calls] at follows balance ⊢
  have earlier {older : List (Entry n)} (suffix : older <:+ before) : older <:+ c.calls :=
    calls ▸ suffix.trans (List.suffix_cons e before)
  refine ⟨ok, single, fun none => by simp [charge] at none, follows, balance, fun e' older made => ?_, ?_⟩
  · obtain same | inside := List.suffix_cons_iff.mp made
    · obtain ⟨rfl, rfl⟩ := List.cons.inj same
      exact inv.allowed e older (calls ▸ List.suffix_rfl)
    · exact inv.allowed e' older (earlier inside)
  intro older suffix returned w
  obtain rfl | inside := List.suffix_cons_iff.mp suffix
  · exact settled_of_idle ok (returned rfl) single follows balance w
  · refine inv.settled older (earlier inside) (fun same => ?_) w
    -- The calls before the one in progress are fewer.
    have fewer := inside.length_le
    rw [same, calls] at fewer
    simp at fewer

theorem Inv.step (inv : Inv c) (small : n < 2 ^ 31) {a : Event n} (e : c.step a = some d) : Inv d := by
  cases a with
  | enter call =>
    simp only [Caller.step, Option.ite_none_right_eq_some, Option.some.injEq] at e
    obtain ⟨⟨idle, allowed⟩, rfl⟩ := e
    exact inv.enter idle allowed
  | fetch result =>
    simp only [Caller.step, Option.map_eq_some_iff] at e
    obtain ⟨P, resumed, rfl⟩ := e
    exact inv.fetch small resumed

theorem Inv.of_reach (small : n < 2 ^ 31) (run : Reach Caller.step always Caller.start c) : Inv c :=
  run.invariant Inv.start fun _ _ _ inv move _ => inv.step small move

/-- A call that has returned added what its locks are due less what was due before. -/
theorem Inv.added_eq (inv : Inv c) {e : Entry n} {older : List (Entry n)} (made : e :: older <:+ c.calls)
    (returned : e :: older = c.calls → c.proc.pc = .idle) (w : Word n) :
    e.added w = due (e.call.after (locked older)) w - due (locked older) w := by
  have after := inv.settled _ made returned w
  have fewer : older ≠ c.calls := by
    rintro rfl
    simpa using made.length_le
  have before := inv.settled older ((List.suffix_cons e older).trans made) (absurd · fewer) w
  rw [net_cons, before, locked_cons] at after
  omega

/-- Between calls the descriptor and the words agree with what the caller has locked. -/
structure Booked (c : Caller n) : Prop where
  listed : ∀ r, r ∈ c.proc.exclLocks ↔ locked c.calls r = some .exclusive
  nodup : c.proc.exclLocks.Nodup
  counted : c.proc.exclLocks.length = c.proc.localExclusiveCount.toNat
  target : ∀ r, net c.calls (.lockMutex r) = (locked c.calls r).elim 0 LockType.operand
  master : net c.calls .lockAllMutex = if c.proc.localExclusiveCount = 0#32 then 0 else 1
  clear : (∀ r, locked c.calls r = none) → ∀ w, net c.calls w = 0

/-- Each unlock that has returned took back what the latest lock of its target had added there. -/
def Matched (c : Caller n) : Prop :=
  ∀ (r : Fin n) (lockType : LockType) (recent between older : List (Entry n)) (unlock lock : Word n → ℤ),
    c.calls = recent ++ ⟨.winUnlock (some r), unlock⟩ ::
      (between ++ ⟨.winLock lockType (some r), lock⟩ :: older) →
    (∀ e ∈ between, e.call.rank ≠ some r) → (recent = [] → c.proc.pc = .idle) →
    lock (.lockMutex r) = lockType.operand ∧ unlock (.lockMutex r) = -lock (.lockMutex r)

theorem Inv.booked (inv : Inv c) (idle : c.proc.pc = .idle) : Booked c := by
  have held := inv.held_eq idle
  have settled := inv.settled c.calls List.suffix_rfl fun _ => idle
  refine ⟨fun r => ?_, inv.ok.nodup, ?_, fun r => settled (.lockMutex r), ?_, fun none w => ?_⟩
  · rw [inv.ok.listed, ← held]
    simp [idle]
  · have count := inv.ok.count
    rw [Proc.unlocking_eq_zero (by simp [idle])] at count
    exact count.symm
  · rw [settled, due, ← held]
    have counted := inv.ok.counted_iff idle
    by_cases zero : c.proc.localExclusiveCount = 0#32
    · rw [if_pos zero, if_neg fun some => counted.mpr some zero]
    · rw [if_neg zero, if_pos (counted.mp zero)]
  · rw [settled]
    cases w <;> simp [due, none]

theorem Inv.matched (inv : Inv c) : Matched c := by
  intro r lockType recent between older unlock lock calls others returned
  have made : ⟨.winUnlock (some r), unlock⟩ :: (between ++ ⟨.winLock lockType (some r), lock⟩ :: older) <:+
      c.calls := calls ▸ List.suffix_append _ _
  have locking : ⟨.winLock lockType (some r), lock⟩ :: older <:+ c.calls :=
    ((List.suffix_append _ _).trans (List.suffix_cons _ _)).trans made
  have free : locked older r = none := inv.allowed _ _ locking
  have gained := inv.added_eq locking (fun same => by
    have := congrArg List.length same
    simp [calls] at this
    omega) (.lockMutex r)
  have lost := inv.added_eq made (fun same => returned (by
    have := congrArg List.length same
    simpa [calls] using this)) (.lockMutex r)
  have kept : locked (between ++ ⟨.winLock lockType (some r), lock⟩ :: older) r = some lockType := by
    rw [locked_append others]
    simp [Call.after]
  simp only [due, Call.after, Function.update_self, free, kept, Option.elim_some, Option.elim_none] at gained lost
  omega

/-- While a process counts exclusive locks, also within its calls, the master counts the process. -/
theorem Inv.master (inv : Inv c) (counting : c.proc.localExclusiveCount ≠ 0#32) :
    net c.calls .lockAllMutex = 1 := by
  have elsewhere : c.proc.pc ≠ .lockAllSpin := by
    intro here
    have follows := inv.follows
    simp [Proc.Follows, here] at follows
  rw [inv.balance]
  simp [Proc.share, Proc.joined, Proc.announced, counting, inv.single, elsewhere]

/-- The bookkeeping of exclusive locks, over all sequences of locks and unlocks of a process. Ranks
are of type `int`, which bounds the number of processes. -/
theorem lock_bookkeeping (small : n < 2 ^ 31) (run : Reach step always start c) :
    (∀ r, c.proc.pc = .unlockMaster r → (deleteExclLock r c.proc.exclLocks).isSome) ∧
    (c.proc.pc = .idle → Booked c) ∧ Matched c ∧
    (c.proc.localExclusiveCount ≠ 0#32 → net c.calls .lockAllMutex = 1) := by
  have inv := Inv.of_reach small run
  refine ⟨fun r here => ?_, inv.booked, inv.matched, inv.master⟩
  have listed : r ∈ c.proc.exclLocks := (inv.ok.listed r).mpr (.inr here)
  rw [deleteExclLock_eq_erase r _ listed]
  rfl

/-- Two attempts on rank 1 are backed off before it is locked, a shared lock on rank 0 waits, and a
second exclusive lock leaves the master alone. -/
def attempts : List (Event 3) :=
  [.enter (.winLock .exclusive (some 1)), .fetch 4294967296#64, .fetch 4294967297#64,
    .fetch 0#64, .fetch 2#64, .fetch 1#64, .fetch 0#64, .fetch 0#64,
    .enter (.winLock .shared (some 0)), .fetch 1#64, .fetch 2#64,
    .enter (.winLock .exclusive (some 2)), .fetch 0#64]

/-- The exclusive locks are released in the order in which they were obtained. -/
def releases : List (Event 3) :=
  [.enter (.winUnlock (some 1)), .fetch 1#64, .fetch 0#64, .enter (.winUnlock (some 0)), .fetch 0#64,
    .enter (.winUnlock (some 2)), .fetch 1#64, .fetch 0#64]

theorem lock_bookkeeping_attempts : ∃ c : Caller 3, Reach step always start c ∧
    c.calls.length = 6 ∧ (∀ r, locked c.calls r = none) ∧ ∀ w, net c.calls w = 0 := by
  have returned : (exec step start (attempts ++ releases)).map (fun c =>
      decide (c.proc.pc = .idle ∧ c.calls.length = 6 ∧ ∀ r, locked c.calls r = none)) = some true := by
    decide +kernel
  obtain ⟨c, run, facts⟩ := Option.map_eq_some_iff.mp returned
  obtain ⟨idle, calls, free⟩ := of_decide_eq_true facts
  have reached : Reach step always start c := Reach.of_exec _ run
  have booked := (lock_bookkeeping (by decide) reached).2.1 idle
  exact ⟨c, reached, calls, free, booked.clear free⟩

end Caller

section Window
variable {s t : State n} {p : Fin n} {c : Caller n}

/-- A step of the window is a step of the caller, or leaves its process alone. -/
theorem caller_of_step (inv : c.Inv) (same : c.proc = s.proc p) {a : Action n}
    (move : step s a = some t) (noLockAll : a ≠ .winLockAll p) :
    c.proc = t.proc p ∨ ∃ event d, c.step event = some d ∧ d.proc = t.proc p := by
  have aside {q : Fin n} (other : q ≠ p) (u : State n) (P : Proc n) (procs : u.proc = s.proc) :
      c.proc = (u.setProc q P).proc p := by
    simp [State.setProc, procs, Ne.symm other, same]
  have entered (call : Call n) (idle : (s.proc p).pc = .idle) (allowed : call.Allowed (s.proc p).held) :
      ∃ event d, c.step event = some d ∧ d.proc = (s.setProc p (call.enter (s.proc p))).proc p := by
    rw [← same] at idle allowed ⊢
    rw [inv.held_eq idle] at allowed
    exact ⟨.enter call, _, if_pos ⟨idle, allowed⟩, by simp [State.setProc]⟩
  cases a with
  | winLock q lockType rank =>
    simp only [step, Option.ite_none_right_eq_some, Option.some.injEq] at move
    obtain ⟨⟨idle, free, -⟩, rfl⟩ := move
    by_cases mine : q = p
    · subst mine
      exact .inr (entered (.winLock lockType (some rank)) idle free)
    · exact .inl (aside mine s _ rfl)
  | winUnlock q rank =>
    simp only [step, Option.ite_none_right_eq_some, Option.some.injEq] at move
    obtain ⟨⟨idle, held⟩, rfl⟩ := move
    by_cases mine : q = p
    · subst mine
      exact .inr (entered (.winUnlock (some rank)) idle held)
    · exact .inl (aside mine s _ rfl)
  | winLockAll q =>
    simp only [step, Option.ite_none_right_eq_some, Option.some.injEq] at move
    obtain ⟨-, rfl⟩ := move
    exact .inl (aside (fun mine => noLockAll (mine ▸ rfl)) s _ rfl)
  | winUnlockAll q =>
    simp only [step, Option.ite_none_right_eq_some, Option.some.injEq] at move
    obtain ⟨⟨-, all⟩, rfl⟩ := move
    refine .inl (aside (fun mine => ?_) s _ rfl)
    have single := inv.single
    rw [same, ← mine, all] at single
    contradiction
  | run q =>
    obtain ⟨fetched, P', u, resumed, rfl, procs, -, -⟩ := run_cases move
    by_cases mine : q = p
    · subst mine
      rw [← same] at resumed
      exact .inr ⟨.fetch fetched, _, Option.map_eq_some_iff.mpr ⟨P', resumed, rfl⟩, by simp [State.setProc]⟩
    · exact .inl (aside mine u P' procs)
  | deliver i =>
    simp only [step, State.deliver, Option.map_eq_some_iff] at move
    obtain ⟨m, -, rfl⟩ := move
    exact .inl same

/-- In a run of the window each process that takes no lock_all lock is a caller, whatever the others
do. -/
theorem caller_of_reach (small : n < 2 ^ 31)
    (run : Reach step (fun _ a _ => a ≠ .winLockAll p) (init n) s) :
    ∃ c, Reach Caller.step always Caller.start c ∧ c.proc = s.proc p := by
  induction run with
  | refl => exact ⟨Caller.start, .refl, rfl⟩
  | tail _ move noLockAll ih =>
    obtain ⟨c, reached, same⟩ := ih
    obtain still | ⟨event, d, moved, same'⟩ :=
      caller_of_step (Caller.Inv.of_reach small reached) same move noLockAll
    · exact ⟨c, reached, still⟩
    · exact ⟨d, reached.tail moved trivial, same'⟩

end Window

end FoMPI.WinLock
