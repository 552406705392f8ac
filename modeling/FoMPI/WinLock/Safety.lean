import FoMPI.WinLock.Bookkeeping

/-!
# Safety of passive-target locks

`Inv` ties both lock words to what the processes have a share in, so that a word
which a process finds free is free of every other process's locks.
-/
namespace FoMPI.WinLock
open FoMPI.Foundation
open scoped BigOperators

variable {n : ℕ} {s t : State n}

/-- The undelivered additions, as seen from one word. -/
def flight (msgs : List (Word n × ℤ)) (w : Word n) : List ℤ :=
  msgs.map fun m => if m.1 = w then m.2 else 0

/-- Only releases are non-blocking. -/
def Release (m : Word n × ℤ) : Prop :=
  match m.1 with
  | .lockMutex _ => m.2 = -2
  | .lockAllMutex => m.2 = -1 ∨ m.2 = -4294967296

structure Inv (s : State n) : Prop where
  ok : ∀ p, (s.proc p).Ok
  balanced : ∀ w, InBalance (s.mem w) (fun p => (s.proc p).share w) (flight s.undelivered w)
  releases : ∀ m ∈ s.undelivered, Release m
  unique : ∀ p q r, (s.proc p).held r = some .exclusive → (s.proc q).held r = some .exclusive → p = q
  unmixed : ∀ p q r, (s.proc p).held r = some .exclusive → (s.proc q).held r ≠ some .shared
  apart : ∀ p q, (s.proc p).heldAll = true → ¬(s.proc q).Engaged

section Words

theorem flight_target (r : Fin n) (msgs : List (Word n × ℤ)) (valid : ∀ m ∈ msgs, Release m) :
    ∃ k : ℕ, k ≤ msgs.length ∧
      (flight msgs (.lockMutex r)).sum = -(2 * k : ℤ) := by
  unfold flight
  induction msgs with
  | nil => exact ⟨0, by simp⟩
  | cons m rest ih =>
    obtain ⟨k, len, sum⟩ := ih fun m' hm => valid m' (List.mem_cons_of_mem _ hm)
    have release := valid m List.mem_cons_self
    by_cases hm : m.1 = .lockMutex r
    · refine ⟨k + 1, by simpa using len, ?_⟩
      simp only [Release, hm] at release
      simp only [List.map_cons, hm, if_true, release, List.sum_cons, sum]
      push_cast
      ring
    · exact ⟨k, by simpa using Nat.le_succ_of_le len, by simp [hm, sum]⟩

theorem flight_master (msgs : List (Word n × ℤ)) (valid : ∀ m ∈ msgs, Release m) :
    ∃ j k : ℕ, j + k ≤ msgs.length ∧
      (flight msgs .lockAllMutex).sum = -(j + 4294967296 * k : ℤ) := by
  unfold flight
  induction msgs with
  | nil => exact ⟨0, 0, by simp⟩
  | cons m rest ih =>
    obtain ⟨j, k, len, sum⟩ := ih fun m' hm => valid m' (List.mem_cons_of_mem _ hm)
    have release := valid m List.mem_cons_self
    simp only [List.map_cons, List.sum_cons, sum, List.length_cons]
    by_cases hm : m.1 = .lockAllMutex
    · simp only [Release, hm] at release
      simp only [hm, if_true]
      obtain one | high := release
      · exact ⟨j + 1, k, by omega, by rw [one]; push_cast; ring⟩
      · exact ⟨j, k + 1, by omega, by rw [high]; push_cast; ring⟩
    · exact ⟨j, k, by omega, by simp [hm]⟩

/-- A count of processes is at most their number. -/
theorem sum_indicator_le (f : Fin n → ℕ) (le_one : ∀ p, f p ≤ 1) : ∑ p, f p ≤ n := by
  simpa using Finset.sum_le_sum fun p (_ : p ∈ Finset.univ) => le_one p

theorem joined_le_one (P : Proc n) : P.joined ≤ 1 := by
  unfold Proc.joined
  split <;> omega

theorem announced_le_one (P : Proc n) : P.announced ≤ 1 := by
  unfold Proc.announced
  split <;> omega

theorem exclusiveOn_le_one (P : Proc n) (r : Fin n) : P.exclusiveOn r ≤ 1 := by
  unfold Proc.exclusiveOn
  split <;> omega

theorem sharedOn_le_one (P : Proc n) (r : Fin n) : P.sharedOn r ≤ 1 := by
  unfold Proc.sharedOn
  split <;> omega

variable (inv : Inv s) (small : n + s.undelivered.length < 2 ^ 31)
include inv small

/-- The word of a target counts exclusive locks in its lowest bit and shared ones above. -/
theorem target_toNat (r : Fin n) : ∃ k, (s.mem (.lockMutex r)).toNat =
    ∑ p, (s.proc p).exclusiveOn r + 2 * (∑ p, (s.proc p).sharedOn r + k) := by
  obtain ⟨k, len, sum⟩ := flight_target r s.undelivered inv.releases
  refine ⟨k, (inv.balanced (.lockMutex r)).toNat_eq ?_ ?_⟩
  · simp only [Proc.share, sum, Finset.sum_add_distrib, ← Finset.mul_sum]
    push_cast
    ring
  · have := sum_indicator_le _ fun p => exclusiveOn_le_one (s.proc p) r
    have := sum_indicator_le _ fun p => sharedOn_le_one (s.proc p) r
    omega

/-- The halves of the master word stay apart. -/
theorem master_toNat : ∃ j k, (s.mem .lockAllMutex).toNat =
    (∑ p, (s.proc p).joined + j) + 4294967296 * (∑ p, (s.proc p).announced + k) ∧
      ∑ p, (s.proc p).joined + j < 2 ^ 31 := by
  obtain ⟨j, k, len, sum⟩ := flight_master s.undelivered inv.releases
  have := sum_indicator_le _ fun p => joined_le_one (s.proc p)
  have := sum_indicator_le _ fun p => announced_le_one (s.proc p)
  refine ⟨j, k, (inv.balanced .lockAllMutex).toNat_eq ?_ ?_, by omega⟩
  · simp only [Proc.share, sum, Finset.sum_add_distrib, ← Finset.mul_sum]
    push_cast
    ring
  · omega

theorem target_free {r : Fin n} (zero : s.mem (.lockMutex r) = 0#64) (q : Fin n) :
    (s.proc q).held r = none := by
  obtain ⟨k, value⟩ := target_toNat inv small r
  rw [zero, BitVec.toNat_zero] at value
  have exclusive : ∑ p, (s.proc p).exclusiveOn r = 0 := by omega
  have shared : ∑ p, (s.proc p).sharedOn r = 0 := by omega
  have notExclusive := Finset.sum_eq_zero_iff.mp exclusive q (Finset.mem_univ q)
  have notShared := Finset.sum_eq_zero_iff.mp shared q (Finset.mem_univ q)
  cases held : (s.proc q).held r with
  | none => rfl
  | some kind => cases kind <;> simp [Proc.exclusiveOn, Proc.sharedOn, held] at notExclusive notShared

theorem target_even {r : Fin n} (even : s.mem (.lockMutex r) &&& 1#64 = 0#64) (q : Fin n) :
    (s.proc q).held r ≠ some .exclusive := by
  intro held
  obtain ⟨k, value⟩ := target_toNat inv small r
  have parity := (and_low_eq_zero (k := 1) rfl).mp even
  have single : ∑ p, (s.proc p).exclusiveOn r = 1 := by
    rw [Finset.sum_eq_single q]
    · simp [Proc.exclusiveOn, held]
    · intro p _ other
      have : (s.proc p).held r ≠ some .exclusive := fun h => other (inv.unique p q r h held)
      simp [Proc.exclusiveOn, this]
    · simp
  omega

theorem master_low_clear (clear : s.mem .lockAllMutex &&& exclusiveMask = 0#64) (q : Fin n) :
    ¬(s.proc q).Engaged := by
  obtain ⟨j, k, value, low⟩ := master_toNat inv small
  have zero := (and_low_eq_zero (k := 32) (by decide)).mp clear
  have none : ∑ p, (s.proc p).joined = 0 := by omega
  have free := Finset.sum_eq_zero_iff.mp none q (Finset.mem_univ q)
  rintro (pos | ⟨r, hp⟩)
  · simp [Proc.joined, pos] at free
  · simp [Proc.joined, hp, Pc.joins] at free

theorem master_high_clear (clear : s.mem .lockAllMutex &&& lockAllMask = 0#64) (q : Fin n) :
    (s.proc q).heldAll = false := by
  obtain ⟨j, k, value, low⟩ := master_toNat inv small
  have below := and_high_eq_zero.mp clear
  have none : ∑ p, (s.proc p).announced = 0 := by omega
  have free := Finset.sum_eq_zero_iff.mp none q (Finset.mem_univ q)
  by_contra held
  simp [Proc.announced, held] at free

end Words

section Gains
variable {P P' : Proc n} {result : BitVec 64}

/-- The next operation of the process is on this word. -/
def Proc.Reads (P : Proc n) (w : Word n) : Prop := ∃ op, P.remoteOp = some op ∧ op.word = w

/-- What the local code after an operation can do to the locks held. -/
inductive HoldChange (P P' : Proc n) (result : BitVec 64) : Prop
  | keep (held : P'.held = P.held) (all : P'.heldAll = P.heldAll)
  | release (r : Fin n) (held : P'.held = Function.update P.held r none) (all : P'.heldAll = P.heldAll)
  | releaseAll (held : P'.held = P.held) (all : P'.heldAll = false)
  | exclusive (r : Fin n) (reads : P.Reads (.lockMutex r)) (free : result = 0#64)
      (held : P'.held = Function.update P.held r (some .exclusive)) (all : P'.heldAll = P.heldAll)
  | shared (r : Fin n) (reads : P.Reads (.lockMutex r)) (free : result &&& 1#64 = 0#64)
      (held : P'.held = Function.update P.held r (some .shared)) (all : P'.heldAll = P.heldAll)
  | all (reads : P.Reads .lockAllMutex) (free : result &&& exclusiveMask = 0#64)
      (held : P'.held = P.held)

theorem acquireShared_change {r : Fin n} (reads : P.Reads (.lockMutex r)) :
    HoldChange P (P.acquireShared r result) result := by
  unfold Proc.acquireShared
  split
  · rename_i free
    exact .shared r reads free rfl rfl
  · exact .keep rfl rfl

theorem acquireAll_change (reads : P.Reads .lockAllMutex) :
    HoldChange P (P.acquireAll result) result := by
  unfold Proc.acquireAll
  split
  · rename_i free
    exact .all reads free rfl
  · exact .keep rfl rfl

theorem resume_change (e : P.resume result = some P') : HoldChange P P' result := by
  obtain ⟨op, issued, resumes⟩ := Proc.Resumes.of_resume e
  cases resumes with
  | join | joinInVain | swapInVain | swapAgain | backOff | unlockMaster => exact .keep rfl rfl
  | @swap r here free => exact .exclusive r ⟨_, issued, rfl⟩ free rfl rfl
  | announce | spin => exact acquireShared_change ⟨_, issued, rfl⟩
  | @unlockExclusive r | @unlockShared r => exact .release r rfl rfl
  | announceAll | spinAll => exact acquireAll_change ⟨_, issued, rfl⟩
  | unlockAll => exact .releaseAll rfl rfl

theorem held_of_update {held : Fin n → Option LockType} {q r : Fin n} {new : Option LockType}
    {kind : LockType} (h : Function.update held q new r = some kind) :
    held r = some kind ∨ r = q ∧ new = some kind := by
  by_cases hq : r = q
  · subst hq
    exact .inr ⟨rfl, by simpa using h⟩
  · exact .inl (by simpa [hq] using h)

theorem HoldChange.gain (c : HoldChange P P' result) {r : Fin n} {kind : LockType}
    (held : P'.held r = some kind) :
    P.held r = some kind ∨ P.Reads (.lockMutex r) ∧
      match kind with
      | .exclusive => result = 0#64
      | .shared => result &&& 1#64 = 0#64 := by
  cases c with
  | keep same _ | releaseAll same _ | all _ _ same => exact .inl (same ▸ held)
  | release q same _ =>
    exact .inl ((held_of_update (same ▸ held)).resolve_right (by simp))
  | exclusive q reads free same _ | shared q reads free same _ =>
    obtain old | ⟨rfl, new⟩ := held_of_update (same ▸ held)
    · exact .inl old
    · cases new
      exact .inr ⟨reads, free⟩

theorem HoldChange.gain_exclusive (c : HoldChange P P' result) {r : Fin n}
    (held : P'.held r = some .exclusive) :
    P.held r = some .exclusive ∨ P.Reads (.lockMutex r) ∧ result = 0#64 :=
  c.gain held

theorem HoldChange.gain_shared (c : HoldChange P P' result) {r : Fin n}
    (held : P'.held r = some .shared) :
    P.held r = some .shared ∨ P.Reads (.lockMutex r) ∧ result &&& 1#64 = 0#64 :=
  c.gain held

theorem HoldChange.gain_all (c : HoldChange P P' result) (held : P'.heldAll = true) :
    P.heldAll = true ∨ P.Reads .lockAllMutex ∧ result &&& exclusiveMask = 0#64 := by
  cases c with
  | keep _ same | release _ _ same | exclusive _ _ _ _ same | shared _ _ _ _ same =>
    exact .inl (same ▸ held)
  | releaseAll _ none => simp [none] at held
  | all reads free _ => exact .inr ⟨reads, free⟩

/-- A process becomes engaged only by finding no lock_all lock on the master. -/
theorem gain_engaged (ok : P.Ok) (e : P.resume result = some P') (engaged : P'.Engaged) :
    P.Engaged ∨ P.Reads .lockAllMutex ∧ result &&& lockAllMask = 0#64 := by
  have control := ok.control
  unfold Proc.Control at control
  obtain ⟨op, issued, resumes⟩ := Proc.Resumes.of_resume e
  cases resumes with
  | join here free => exact .inr ⟨⟨_, issued, rfl⟩, free⟩
  | @swap r here =>
    obtain here | here := here
    · exact .inl (.inr ⟨r, here⟩)
    · rw [here] at control
      exact .inl (.inl control.1)
  | @swapInVain r here => exact .inl (.inr ⟨r, here⟩)
  | swapAgain => exact .inl engaged
  | unlockExclusive here =>
    rw [here] at control
    exact .inl (.inl (ok.count_ne_zero control))
  | announce | spin | announceAll | spinAll =>
    simp only [Proc.acquireShared, Proc.acquireAll] at engaged
    split at engaged <;> exact .inl (.inl (by simpa [Proc.Engaged] using engaged))
  | joinInVain | backOff | unlockMaster | unlockShared | unlockAll =>
    exact .inl (.inl (by simpa [Proc.Engaged] using engaged))

end Gains

section Preservation

theorem balanced_execute (s : State n) (op : RemoteOp n) (w : Word n) {share share' : Fin n → ℤ}
    (h : InBalance (s.mem w) share (flight s.undelivered w)) (p : Fin n)
    (own : share' p = share p + if op.word = w then op.added (s.mem op.word) else 0)
    (others : ∀ q, q ≠ p → share' q = share q) :
    InBalance ((s.execute op).2.mem w) share' (flight (s.execute op).2.undelivered w) := by
  by_cases hw : op.word = w
  · subst hw
    simp only [if_true] at own
    cases op with
    | afadd v d | aadd v d =>
      simpa [State.execute, RemoteOp.word] using h.add p d own others
    | get v => simpa [State.execute, RemoteOp.added] using h.add p 0 own others
    | aaddNbi v d =>
      simpa [State.execute, flight, RemoteOp.word] using h.post p d own others
    | acswap v c new =>
      simp only [State.execute, RemoteOp.word, RemoteOp.added] at own h ⊢
      by_cases equal : s.mem v = BitVec.ofInt 64 c
      · simp only [equal, if_true] at own h ⊢
        have swapped := h.add p (new - c) own others
        rw [← BitVec.ofInt_add, add_sub_cancel] at swapped
        simpa using swapped
      · simp only [equal, if_false, add_zero] at own ⊢
        refine h.congr fun q => ?_
        by_cases hq : q = p
        · rw [hq, own]
        · exact others q hq
  · simp only [if_neg hw, add_zero] at own
    have same : ∀ q, share' q = share q := fun q => by
      by_cases hq : q = p
      · rw [hq, own]
      · exact others q hq
    have quiet := h.congr same
    cases op with
    | afadd v d | aadd v d =>
      have : w ≠ v := Ne.symm hw
      simpa [State.execute, this] using quiet
    | get v => exact quiet
    | aaddNbi v d =>
      have : v ≠ w := hw
      simpa [InBalance, State.execute, flight, this] using quiet
    | acswap v c new =>
      have : w ≠ v := Ne.symm hw
      simp only [State.execute]
      split <;> simpa [this, flight] using quiet

theorem Inv.init : Inv (init n) where
  ok p := ⟨rfl, List.nodup_nil, fun r => by simp [WinLock.init], trivial, fun _ _ => rfl⟩
  balanced w := balanced_zero _ fun p => by
    cases w <;> simp [WinLock.init, Proc.share, Proc.exclusiveOn, Proc.sharedOn, Proc.joined,
      Proc.announced]
  releases := by simp [WinLock.init]
  unique p q r held := by simp [WinLock.init] at held
  unmixed p q r held := by simp [WinLock.init] at held
  apart p q all := by simp [WinLock.init] at all

/-- The part of a step that concerns the locks held: a process may change what it holds only after
it has seen the right word free. -/
theorem Inv.update (inv : Inv s) {p : Fin n} {P' : Proc n}
    (procs : t.proc = Function.update s.proc p P') (ok : P'.Ok)
    (balanced : ∀ w, InBalance (t.mem w) (fun q => (t.proc q).share w) (flight t.undelivered w))
    (releases : ∀ m ∈ t.undelivered, Release m)
    (exclusive : ∀ r, P'.held r = some .exclusive →
      (s.proc p).held r = some .exclusive ∨ ∀ q, (s.proc q).held r = none)
    (shared : ∀ r, P'.held r = some .shared →
      (s.proc p).held r = some .shared ∨ ∀ q, (s.proc q).held r ≠ some .exclusive)
    (all : P'.heldAll = true → (s.proc p).heldAll = true ∨ ∀ q, ¬(s.proc q).Engaged)
    (engaged : P'.Engaged → (s.proc p).Engaged ∨ ∀ q, (s.proc q).heldAll = false) : Inv t := by
  have self : t.proc p = P' := by simp [procs]
  have other {q : Fin n} (hq : q ≠ p) : t.proc q = s.proc q := by simp [procs, hq]
  have single {q r : Fin n} (hq : q ≠ p) (mine : P'.held r = some .exclusive) :
      (s.proc q).held r ≠ some .exclusive := by
    intro yours
    obtain old | free := exclusive r mine
    · exact hq (inv.unique q p r yours old)
    · simp [free q] at yours
  refine ⟨fun q => ?_, balanced, releases, fun q q' r held held' => ?_, fun q q' r held held' => ?_,
    fun q q' held joined => ?_⟩
  · by_cases hq : q = p
    · exact hq ▸ self ▸ ok
    · exact other hq ▸ inv.ok q
  · by_cases hq : q = p <;> by_cases hq' : q' = p
    · rw [hq, hq']
    · rw [hq, self] at held
      exact absurd (other hq' ▸ held') (single hq' held)
    · rw [hq', self] at held'
      exact absurd (other hq ▸ held) (single hq held')
    · exact inv.unique q q' r (other hq ▸ held) (other hq' ▸ held')
  · by_cases hq : q = p <;> by_cases hq' : q' = p
    · rw [hq] at held
      rw [hq', held] at held'
      simp at held'
    · rw [hq, self] at held
      rw [other hq'] at held'
      obtain old | free := exclusive r held
      · exact inv.unmixed p q' r old held'
      · simp [free q'] at held'
    · rw [other hq] at held
      rw [hq', self] at held'
      obtain old | free := shared r held'
      · exact inv.unmixed q p r held old
      · exact free q held
    · exact inv.unmixed q q' r (other hq ▸ held) (other hq' ▸ held')
  · by_cases hq : q = p <;> by_cases hq' : q' = p
    · rw [hq, self] at held
      rw [hq', self] at joined
      exact ok.not_engaged held joined
    · rw [hq, self] at held
      rw [other hq'] at joined
      obtain old | free := all held
      · exact inv.apart p q' old joined
      · exact free q' joined
    · rw [other hq] at held
      rw [hq', self] at joined
      obtain old | free := engaged joined
      · exact inv.apart q p held old
      · simp [free q] at held
    · exact inv.apart q q' (other hq ▸ held) (other hq' ▸ joined)

theorem execute_proc (s : State n) (op : RemoteOp n) : (s.execute op).2.proc = s.proc := by
  cases op with
  | acswap v c new =>
    simp only [State.execute]
    split <;> rfl
  | _ => rfl

theorem execute_fst (s : State n) (op : RemoteOp n) : (s.execute op).1 = s.mem op.word := by
  cases op <;> rfl

theorem remoteOp_release {P : Proc n} {w : Word n} {d : ℤ} (e : P.remoteOp = some (.aaddNbi w d)) :
    Release (w, d) := by
  unfold Proc.remoteOp at e
  split at e
  case h_9 =>
    split at e
    · cases e
      exact .inl rfl
    · contradiction
  all_goals cases e
  · exact rfl
  · exact .inr rfl

theorem execute_undelivered (s : State n) (op : RemoteOp n) :
    (s.execute op).2.undelivered = s.undelivered ∨
      ∃ w d, op = .aaddNbi w d ∧ (s.execute op).2.undelivered = (w, d) :: s.undelivered := by
  cases op with
  | acswap v c new =>
    simp only [State.execute]
    split <;> exact .inl rfl
  | aaddNbi w d => exact .inr ⟨w, d, rfl, rfl⟩
  | _ => exact .inl rfl

/-- One operation and the local code after it, seen from memory: the process resumes with what it
fetched, and its share absorbs what it added. -/
theorem run_cases {p : Fin n} (e : s.run p = some t) : ∃ fetched P' u,
    (s.proc p).resume fetched = some P' ∧ t = State.setProc u p P' ∧ u.proc = s.proc ∧
    (∀ w, (s.proc p).Reads w → fetched = s.mem w) ∧
    (u = s ∧ (s.proc p).remoteOp = none ∨
      ∃ op, (s.proc p).remoteOp = some op ∧ fetched = s.mem op.word ∧ u = (s.execute op).2) := by
  unfold State.run at e
  cases hop : (s.proc p).remoteOp with
  | none =>
    simp only [hop, Option.map_none, Option.getD_none, Option.map_eq_some_iff] at e
    obtain ⟨P', resumed, rfl⟩ := e
    exact ⟨0#64, P', s, resumed, rfl, rfl, fun w ⟨op, reads, _⟩ => by simp [hop] at reads,
      .inl ⟨rfl, rfl⟩⟩
  | some op =>
    simp only [hop, Option.map_some, Option.getD_some, Option.map_eq_some_iff] at e
    obtain ⟨P', resumed, rfl⟩ := e
    refine ⟨(s.execute op).1, P', (s.execute op).2, resumed, rfl, execute_proc s op, ?_,
      .inr ⟨op, rfl, execute_fst s op, rfl⟩⟩
    rintro w ⟨op', reads, rfl⟩
    rw [hop] at reads
    cases reads
    exact execute_fst s op

theorem Inv.run (inv : Inv s) {p : Fin n} (e : s.run p = some t)
    (small : n + t.undelivered.length < 2 ^ 31) : Inv t := by
  obtain ⟨fetched, P', u, resumed, rfl, procs, reads, effect⟩ := run_cases e
  have fewer : n + s.undelivered.length < 2 ^ 31 := by
    obtain ⟨rfl, -⟩ | ⟨op, -, -, rfl⟩ := effect
    · exact small
    · obtain same | ⟨w, d, -, posted⟩ := execute_undelivered s op
      · simpa [State.setProc, same] using small
      · simp only [State.setProc, posted, List.length_cons] at small
        omega
  have ok := inv.ok p
  have few : n < 2 ^ 31 := by omega
  have share (w : Word n) := ok.share_resume few resumed w
  have change := resume_change resumed
  refine inv.update (p := p) (by simp [State.setProc, procs]) (ok.resume few resumed)
    (fun w => ?_) ?_ ?_ ?_ ?_ ?_
  · have own : ((u.setProc p P').proc p).share w =
        (s.proc p).share w + (s.proc p).added fetched w := by
      simpa [State.setProc] using share w
    have others (q : Fin n) (hq : q ≠ p) :
        ((u.setProc p P').proc q).share w = (s.proc q).share w := by
      simp [State.setProc, procs, hq]
    obtain ⟨rfl, none⟩ | ⟨op, hop, rfl, rfl⟩ := effect
    · refine (inv.balanced w).congr fun q => ?_
      by_cases hq : q = p
      · simpa [hq, Proc.added, none] using own
      · exact others q hq
    · exact balanced_execute s op w (inv.balanced w) p (by simpa [Proc.added, hop] using own) others
  · obtain ⟨rfl, -⟩ | ⟨op, hop, -, rfl⟩ := effect
    · exact inv.releases
    · obtain same | ⟨w, d, rfl, posted⟩ := execute_undelivered s op
      · simpa [State.setProc, same] using inv.releases
      · simpa [State.setProc, posted] using ⟨remoteOp_release hop, fun a b => inv.releases (a, b)⟩
  · intro r held
    obtain old | ⟨on, zero⟩ := change.gain_exclusive held
    · exact .inl old
    · exact .inr fun q => target_free inv fewer (reads _ on ▸ zero) q
  · intro r held
    obtain old | ⟨on, even⟩ := change.gain_shared held
    · exact .inl old
    · exact .inr fun q => target_even inv fewer (reads _ on ▸ even) q
  · intro held
    obtain old | ⟨on, clear⟩ := change.gain_all held
    · exact .inl old
    · exact .inr fun q => master_low_clear inv fewer (reads _ on ▸ clear) q
  · intro engaged
    obtain old | ⟨on, clear⟩ := gain_engaged ok resumed engaged
    · exact .inl old
    · exact .inr fun q => master_high_clear inv fewer (reads _ on ▸ clear) q

theorem Inv.deliver (inv : Inv s) {i : ℕ} (e : s.deliver i = some t) : Inv t := by
  simp only [State.deliver, Option.map_eq_some_iff] at e
  obtain ⟨m, hm, rfl⟩ := e
  obtain ⟨hi, hget⟩ := List.getElem?_eq_some_iff.mp hm
  have perm : s.undelivered.Perm (m :: s.undelivered.eraseIdx i) :=
    hget ▸ (List.getElem_cons_eraseIdx_perm hi).symm
  refine ⟨inv.ok, fun w => ?_, fun m' hm' => inv.releases m' (List.mem_of_mem_eraseIdx hm'),
    inv.unique, inv.unmixed, inv.apart⟩
  have gone : (flight s.undelivered w).sum = (if m.1 = w then m.2 else 0) +
      (flight (s.undelivered.eraseIdx i) w).sum := by
    simpa [flight] using (perm.map fun m => if m.1 = w then m.2 else 0).sum_eq
  have delivered := (inv.balanced w).deliver _ gone
  by_cases hw : m.1 = w
  · subst hw
    simpa using delivered
  · simpa [hw, Ne.symm hw] using delivered

/-- Entering a routine changes neither the words nor what is held. -/
theorem Inv.enter (inv : Inv s) {p : Fin n} {pc : Pc n} (idle : (s.proc p).pc = .idle)
    (ok : ({ s.proc p with pc := pc } : Proc n).Ok) (spin : ∀ r, pc ≠ .sharedSpin r)
    (join : pc.joins = false) (all : pc ≠ .lockAllSpin) :
    Inv (s.setProc p { s.proc p with pc := pc }) := by
  refine inv.update rfl ok (fun w => ?_) inv.releases (fun r => .inl) (fun r => .inl) .inl ?_
  · refine (inv.balanced w).congr fun q => ?_
    by_cases hq : q = p
    · simpa [State.setProc, hq] using Proc.share_enter idle spin join all w
    · simp [State.setProc, hq]
  · rintro (pos | ⟨r, hp⟩)
    · exact .inl (.inl pos)
    · simp [show pc = .exclusiveSwap r from hp, Pc.joins] at join

theorem Inv.step (inv : Inv s) {a : Action n} (e : step s a = some t) (bounded : Bounded s a t) :
    Inv t := by
  cases a with
  | winLock p lockType rank =>
    simp only [WinLock.step, Option.ite_none_right_eq_some, Option.some.injEq] at e
    obtain ⟨⟨idle, free, single⟩, rfl⟩ := e
    have ok := (inv.ok p).winLock idle free single lockType
    cases lockType with
    | shared => exact inv.enter idle ok (by simp) rfl (by simp)
    | exclusive =>
      unfold Proc.winLock at ok ⊢
      by_cases first : (s.proc p).localExclusiveCount = 0#32
      · simp only [if_pos first] at ok ⊢
        exact inv.enter idle ok (by simp) rfl (by simp)
      · simp only [if_neg first] at ok ⊢
        exact inv.enter idle ok (by simp) rfl (by simp)
  | winUnlock p rank =>
    simp only [WinLock.step, Option.ite_none_right_eq_some, Option.some.injEq] at e
    obtain ⟨⟨idle, held⟩, rfl⟩ := e
    have ok := (inv.ok p).winUnlock idle held
    unfold Proc.winUnlock at ok ⊢
    split at ok
    · exact inv.enter idle ok (by simp) rfl (by simp)
    · exact inv.enter idle ok (by simp) rfl (by simp)
  | winLockAll p =>
    simp only [WinLock.step, Option.ite_none_right_eq_some, Option.some.injEq] at e
    obtain ⟨⟨idle, free, single⟩, rfl⟩ := e
    exact inv.enter idle ((inv.ok p).enter idle (by simp) ⟨free, single⟩) (by simp) rfl (by simp)
  | winUnlockAll p =>
    simp only [WinLock.step, Option.ite_none_right_eq_some, Option.some.injEq] at e
    obtain ⟨⟨idle, all⟩, rfl⟩ := e
    exact inv.enter idle ((inv.ok p).enter idle (by simp) all) (by simp) rfl (by simp)
  | run p => exact inv.run e bounded
  | deliver i => exact inv.deliver e

end Preservation

/-- In every reachable state the locks held are compatible. -/
theorem lock_safety (h : Reach step Bounded (init n) s) :
    (∀ p q r, (s.proc p).held r = some .exclusive → (s.proc q).held r = some .exclusive → p = q) ∧
    (∀ p q r, (s.proc p).held r = some .exclusive → (s.proc q).held r ≠ some .shared) ∧
    (∀ p q r, (s.proc p).heldAll = true → (s.proc q).held r ≠ some .exclusive) := by
  have inv : Inv s := h.invariant Inv.init fun _ _ _ inv move bounded => inv.step move bounded
  refine ⟨inv.unique, inv.unmixed, fun p q r all held => ?_⟩
  exact inv.apart p q all (.inl ((inv.ok q).count_ne_zero held))

/-- Process 1 has released a shared lock on rank 0, undelivered; process 0 then holds rank 1. -/
def contention : List (Action 2) :=
  [.winLock 1 .shared 0, .run 1, .winLock 0 .exclusive 1, .winUnlock 1 0, .run 0, .run 1, .run 0,
    .winLockAll 1, .run 1, .run 1]

theorem lock_safety_contention : ∃ s : State 2, Reach step Bounded (init 2) s ∧
    (s.proc 0).held 1 = some .exclusive ∧ (s.proc 1).held 1 ≠ some .shared ∧
    (s.proc 1).heldAll ≠ true := by
  have started : (execWhen step (fun _ _ t => decide (2 + t.undelivered.length < 2 ^ 31)) (init 2)
      contention).map (fun s => (s.proc 0).held 1) = some (some .exclusive) := by
    decide +kernel
  obtain ⟨s, run, held⟩ := Option.map_eq_some_iff.mp started
  have reached : Reach step Bounded (init 2) s :=
    Reach.of_execWhen (fun _ _ _ h => by simpa [Bounded] using h) contention run
  obtain ⟨-, unmixed, apart⟩ := lock_safety reached
  exact ⟨s, reached, held, unmixed 0 1 1 held, fun all => apart 1 0 1 all held⟩

end FoMPI.WinLock
