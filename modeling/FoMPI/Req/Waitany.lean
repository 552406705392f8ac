import FoMPI.Req.Scan

/-!
# The contract of `foMPI_Waitany` and `foMPI_Testany`

A pass keeps the contract unless it frees a request before its operation is complete.
The passes after the first meet no such request: those that there were are gone.
-/
namespace FoMPI.Req

variable {ω κ : Type*} [DecidableEq ω] [DecidableEq κ]
variable {base count i : ℕ} {js : List ℕ} {mem mem' : Memory ω} {W : World ω κ} {s t : Scan ω κ}

/-- An element is neither deallocated nor deactivated. -/
def Survives (h h' : Handle ω) : Prop := (h ≠ none → h' ≠ none) ∧ (idle h = false → idle h' = false)

/-- What the calls promise of the array at `base` when they return `s`. -/
structure Contract (base count : ℕ) (mem : Memory ω) (s : Scan ω κ) : Prop where
  undefined : s.flag = true ∧ s.index = none ↔ ∀ j < count, idle (mem (base + j)) = true
  index : ∀ i, s.index = some i → s.flag = true ∧ i < count ∧ idle (mem (base + i)) = false ∧
    Complete s.world (mem (base + i)) (s.mem (base + i)) ∧
    ∀ j < count, j ≠ i → Survives (mem (base + j)) (s.mem (base + j))

/-- What a call does to the handle at any address. -/
structure Returned (base : ℕ) (mem : Memory ω) (W : World ω κ) (t : Scan ω κ) : Prop where
  later : W.Later t.world
  hit : ∀ i, t.index = some i → idle (mem (base + i)) = false ∧ idle (t.mem (base + i)) = true ∧
    persistent (t.mem (base + i)) = persistent (mem (base + i))
  other : ∀ k, (∀ i, t.index = some i → k ≠ base + i) → Kept (mem k) (t.mem k) ∨
    idle (mem k) = false ∧ persistent (mem k) = false ∧ t.mem k = none

section Elements
variable {h h' h'' : Handle ω}

omit [DecidableEq ω] in
theorem Kept.of_none (kept : Kept none h) : h = none := by
  obtain rfl | ⟨n, found, eq, -⟩ := kept
  · rfl
  · contradiction

omit [DecidableEq ω] in
theorem Kept.of_rma {r : Rma ω} (kept : Kept (some (.rma r)) h) : h = some (.rma r) := by
  obtain rfl | ⟨n, found, eq, -⟩ := kept
  · rfl
  · cases eq

omit [DecidableEq ω] in
theorem Kept.survives (kept : Kept h h') : Survives h h' := by
  constructor
  · intro some none
    obtain rfl | ⟨n, found, -, eq⟩ := kept
    · exact some none
    · rw [none] at eq
      contradiction
  · intro active
    rw [kept.idle, active]

omit [DecidableEq ω] in
theorem Survives.trans (first : Survives h h') (second : Survives h' h'') : Survives h h'' :=
  ⟨fun some => second.1 (first.1 some), fun active => second.2 (first.2 active)⟩

omit [DecidableEq ω] [DecidableEq κ] in
theorem Complete.of_kept (kept : Kept h h') (complete : Complete W h' h'') : Complete W h h'' := by
  obtain rfl | ⟨n, found, rfl, rfl⟩ := kept <;> exact complete

end Elements

section Pass

/-- All elements are null or inactive exactly if the pass says so. -/
theorem Scanned.undefined {r : ℕ} (h : Scanned base count 0 (order count r) mem W s) :
    s.flag = true ∧ s.index = none ↔ ∀ j < count, idle (mem (base + j)) = true := by
  have all : 0 + (order count r).countP (fun i => idle (mem (base + i))) = count ↔
      ∀ j < count, idle (mem (base + j)) = true := by
    have length := order_length count r
    rw [Nat.zero_add]
    constructor
    · intro eq j hj
      exact List.countP_eq_length.mp (eq.trans length.symm) j (mem_order.mpr hj)
    · intro idle
      exact (List.countP_eq_length.mpr fun j hj => idle j (mem_order.mp hj)).trans length
  constructor
  · rintro ⟨flag, none⟩
    exact all.mp ((h.flag none).mp flag)
  · intro idle
    have none : s.index = none := by
      apply Option.eq_none_iff_forall_not_mem.mpr
      intro i hi
      obtain ⟨-, member, active, -⟩ := h.found i hi
      simp [idle i (mem_order.mp member)] at active
    exact ⟨(h.flag none).mpr (all.mpr idle), none⟩

theorem Scanned.contract {r : ℕ} (h : Scanned base count 0 (order count r) mem W s)
    (counted : W.Counted) (safe : frees base mem (order count r) W = false) :
    Contract base count mem s where
  undefined := h.undefined
  index := by
    intro i hi
    obtain ⟨flag, member, active, -, -, complete⟩ := h.found i hi
    refine ⟨flag, mem_order.mp member, active, complete counted, ?_⟩
    intro j hj distinct
    apply (h.kept safe j (mem_order.mpr hj) _).survives
    rw [hi]
    exact fun eq => distinct (Option.some.inj eq).symm

theorem Scanned.index_none {inactive : ℕ} (h : Scanned base count inactive js mem W s)
    (flag : s.flag = false) : s.index = none := by
  apply Option.eq_none_iff_forall_not_mem.mpr
  intro i hi
  simp [(h.found i hi).1] at flag

/-- A pass that frees nothing too early and goes through has met persistent requests only. -/
theorem Scanned.persistent {inactive : ℕ} (h : Scanned base count inactive js mem W s)
    (none : s.index = none) (safe : frees base mem js W = false) {j : ℕ} (hj : j ∈ js)
    (active : idle (mem (base + j)) = false) : persistent (mem (base + j)) = true := by
  by_contra transient
  have gone := h.missed none j hj active (by simpa using transient)
  have alive := (h.kept safe j hj (by simp [none])).survives.2 active
  simp [gone, idle] at alive

theorem Scanned.returned {inactive : ℕ} (h : Scanned base count inactive js mem W s) :
    Returned base mem W s where
  later := h.later
  hit := by
    intro i hi
    obtain ⟨-, -, active, ended, type, -⟩ := h.found i hi
    exact ⟨active, ended, type⟩
  other := by
    intro k distinct
    by_cases inside : ∃ j ∈ js, k = base + j
    · obtain ⟨j, hj, rfl⟩ := inside
      exact h.others j hj fun hit => distinct j hit rfl
    · exact .inl (.inl (h.outside k fun i hi eq => inside ⟨i, hi, eq⟩))

theorem Scanned.element_kept {inactive : ℕ} (h : Scanned base count inactive js mem W s)
    (safe : frees base mem js W = false) {k : ℕ} (distinct : ∀ i, s.index = some i → k ≠ base + i) :
    Kept (mem k) (s.mem k) := by
  by_cases inside : ∃ j ∈ js, k = base + j
  · obtain ⟨j, hj, rfl⟩ := inside
    exact h.kept safe j hj fun hit => distinct j hit rfl
  · exact .inl (h.outside k fun i hi eq => inside ⟨i, hi, eq⟩)

omit [DecidableEq ω] [DecidableEq κ] in
/-- A pass without a result, and then a call. -/
theorem Returned.after (first : Returned base mem W s) (none : s.index = none)
    (rest : Returned base s.mem s.world t) : Returned base mem W t where
  later := first.later.trans rest.later
  hit := by
    intro i hi
    obtain ⟨active, ended, type⟩ := rest.hit i hi
    obtain kept | ⟨-, -, gone⟩ := first.other (base + i) (by simp [none])
    · exact ⟨kept.idle ▸ active, ended, type.trans kept.persistent⟩
    · simp [gone, idle] at active
  other := by
    intro k distinct
    obtain kept | ⟨active, transient, gone⟩ := first.other k (by simp [none])
    · obtain kept' | ⟨active, transient, gone⟩ := rest.other k distinct
      · exact .inl (kept.trans kept')
      · exact .inr ⟨kept.idle ▸ active, kept.persistent ▸ transient, gone⟩
    · obtain kept' | ⟨active', -⟩ := rest.other k distinct
      · exact .inr ⟨active, transient, (gone ▸ kept').of_none⟩
      · simp [gone, idle] at active'

omit [DecidableEq ω] [DecidableEq κ] in
/-- A request that was active and is gone breaks the contract. -/
theorem Contract.false_of_freed {j : ℕ} (contract : Contract base count mem s) (hj : j < count)
    (distinct : s.index ≠ some j) (active : idle (mem (base + j)) = false)
    (gone : s.mem (base + j) = none) (returned : s.flag = true) : False := by
  cases hi : s.index with
  | none =>
    have := contract.undefined.mp ⟨returned, hi⟩ j hj
    simp [active] at this
  | some i =>
    obtain ⟨-, -, -, -, others⟩ := contract.index i hi
    have alive := (others j hj fun eq => distinct (eq ▸ hi)).2 active
    simp [gone, idle] at alive

end Pass

section Passes
variable {rands : List ℕ}

theorem testany_scanned {rand : ℕ} (returns : testany base count rand mem W = .ok s) :
    Scanned base count 0 (order count (rand % count)) mem W s := by
  obtain ⟨-, -, rfl⟩ := testany_returned returns
  exact scan_scanned (order_nodup count (rand % count))

/-- A call that returns has made a last pass. -/
theorem waitany_cons {rand : ℕ} (returns : waitany base count (rand :: rands) mem W = .ok t) :
    ∃ s, Scanned base count 0 (order count (rand % count)) mem W s ∧
      (s.flag = true ∧ t = s ∨ s.flag = false ∧ waitany base count rands s.mem s.world = .ok t) := by
  rw [waitany] at returns
  split at returns
  · contradiction
  · rename_i s first
    refine ⟨s, testany_scanned first, ?_⟩
    split at returns
    · rename_i flag
      cases returns
      exact .inl ⟨flag, rfl⟩
    · rename_i flag
      exact .inr ⟨Bool.not_eq_true _ ▸ flag, returns⟩

theorem waitany_flag (returns : waitany base count rands mem W = .ok t) :
    t.flag = true := by
  induction rands generalizing mem W with
  | nil => contradiction
  | cons rand rands ih =>
    obtain ⟨s, -, ⟨flag, rfl⟩ | ⟨-, rest⟩⟩ := waitany_cons returns
    · exact flag
    · exact ih rest

/-- A null element stays null, and is never the one reported. -/
theorem waitany_null {j : ℕ} (hj : j < count) (null : mem (base + j) = none)
    (returns : waitany base count rands mem W = .ok t) :
    t.index ≠ some j ∧ t.mem (base + j) = none := by
  induction rands generalizing mem W with
  | nil => contradiction
  | cons rand rands ih =>
    obtain ⟨s, pass, last⟩ := waitany_cons returns
    have distinct : s.index ≠ some j := by
      intro hit
      obtain ⟨-, -, active, -⟩ := pass.found j hit
      simp [null, idle] at active
    have null' : s.mem (base + j) = none := by
      obtain kept | ⟨active, -⟩ := pass.others j (mem_order.mpr hj) distinct
      · exact (null ▸ kept).of_none
      · simp [null, idle] at active
    obtain ⟨-, rfl⟩ | ⟨-, rest⟩ := last
    · exact ⟨distinct, null'⟩
    · exact ih null' rest

omit [DecidableEq ω] [DecidableEq κ] in
/-- The contract with respect to an earlier state of the same requests. -/
theorem Contract.of_kept (contract : Contract base count mem' s)
    (kept : ∀ j < count, Kept (mem (base + j)) (mem' (base + j))) : Contract base count mem s where
  undefined := by
    rw [contract.undefined]
    apply forall₂_congr
    intro j hj
    rw [(kept j hj).idle]
  index := by
    intro i hi
    obtain ⟨flag, inside, active, complete, others⟩ := contract.index i hi
    refine ⟨flag, inside, (kept i inside).idle ▸ active, complete.of_kept (kept i inside), ?_⟩
    intro j hj distinct
    exact (kept j hj).survives.trans (others j hj distinct)

/-- Without requests that are not persistent any number of passes keeps the contract. -/
theorem waitany_persistent (counted : W.Counted)
    (transient : ∀ j < count, idle (mem (base + j)) = false → persistent (mem (base + j)) = true)
    (returns : waitany base count rands mem W = .ok t) : Contract base count mem t := by
  induction rands generalizing mem W with
  | nil => contradiction
  | cons rand rands ih =>
    obtain ⟨s, pass, last⟩ := waitany_cons returns
    have safe : frees base mem (order count (rand % count)) W = false :=
      frees_of_persistent (fun j hj => transient j (mem_order.mp hj)) W
    obtain ⟨-, rfl⟩ | ⟨flag, rest⟩ := last
    · exact pass.contract counted safe
    · have none := pass.index_none flag
      have kept (j : ℕ) (hj : j < count) : Kept (mem (base + j)) (s.mem (base + j)) :=
        pass.kept safe j (mem_order.mpr hj) (by simp [none])
      apply Contract.of_kept _ kept
      apply ih (pass.later.counted counted) _ rest
      intro j hj active
      rw [(kept j hj).persistent]
      exact transient j hj ((kept j hj).idle ▸ active)

/-- A call returns within the contract exactly if its first pass frees nothing too early. -/
theorem waitany_contract {rand : ℕ} (counted : W.Counted)
    (returns : waitany base count (rand :: rands) mem W = .ok t) :
    Contract base count mem t ↔ frees base mem (order count (rand % count)) W = false := by
  have returned := waitany_flag returns
  obtain ⟨s, pass, last⟩ := waitany_cons returns
  constructor
  · intro contract
    by_contra lost
    obtain ⟨j, hj, distinct, active, -, gone⟩ := pass.freed (by simpa using lost)
    have inside := mem_order.mp hj
    obtain ⟨-, rfl⟩ | ⟨-, rest⟩ := last
    · exact contract.false_of_freed inside distinct active gone returned
    · obtain ⟨distinct, gone⟩ := waitany_null inside gone rest
      exact contract.false_of_freed inside distinct active gone returned
  · intro safe
    obtain ⟨-, rfl⟩ | ⟨flag, -⟩ := last
    · exact pass.contract counted safe
    · apply waitany_persistent counted _ returns
      intro j hj active
      exact pass.persistent (pass.index_none flag) safe (mem_order.mpr hj) active

theorem waitany_returned (returns : waitany base count rands mem W = .ok t) :
    Returned base mem W t := by
  induction rands generalizing mem W with
  | nil => contradiction
  | cons rand rands ih =>
    obtain ⟨s, pass, ⟨-, rfl⟩ | ⟨flag, rest⟩⟩ := waitany_cons returns
    · exact pass.returned
    · exact pass.returned.after (pass.index_none flag) (ih rest)

/-- A call whose first pass frees nothing too early keeps all but the request it reports. -/
theorem waitany_kept {rand k : ℕ} (safe : frees base mem (order count (rand % count)) W = false)
    (returns : waitany base count (rand :: rands) mem W = .ok t)
    (distinct : ∀ i, t.index = some i → k ≠ base + i) : Kept (mem k) (t.mem k) := by
  induction rands generalizing rand mem W with
  | nil =>
    obtain ⟨s, pass, ⟨-, rfl⟩ | ⟨-, rest⟩⟩ := waitany_cons returns
    · exact pass.element_kept safe distinct
    · contradiction
  | cons rand' rands ih =>
    obtain ⟨s, pass, ⟨-, rfl⟩ | ⟨flag, rest⟩⟩ := waitany_cons returns
    · exact pass.element_kept safe distinct
    · have none := pass.index_none flag
      have kept (k : ℕ) : Kept (mem k) (s.mem k) := pass.element_kept safe (by simp [none])
      apply (kept k).trans
      apply ih _ rest
      apply frees_of_persistent
      intro j hj active
      rw [(kept _).persistent]
      exact pass.persistent none safe (mem_order.mpr (mem_order.mp hj)) ((kept _).idle ▸ active)

/-- The faults of a pass are those of a call that waits, if every pass of it may have them. -/
theorem waitany_fault {e : Fault}
    (never : ∀ rand (mem : Memory ω) (W : World ω κ), testany base count rand mem W ≠ .error e)
    (other : e ≠ .unfinished) : waitany base count rands mem W ≠ .error e := by
  induction rands generalizing mem W with
  | nil => simpa [waitany] using other.symm
  | cons rand rands ih =>
    rw [waitany]
    split
    · rename_i first
      exact fun same => never _ _ _ (first.trans (congrArg _ (Except.error.inj same)))
    · split
      · simp
      · exact ih

theorem waitany_divisionByZero {rand : ℕ} :
    waitany base count (rand :: rands) mem W = .error .divisionByZero ↔ count = 0 := by
  constructor
  · intro fault
    by_contra nonempty
    refine waitany_fault (fun rand mem W => ?_) (by simp) fault
    rw [testany_eq nonempty]
    split <;> simp
  · rintro rfl
    simp [waitany, testany]

/-- Up to 2^30 elements no index overflows. -/
theorem waitany_overflow (narrow : count ≤ 1073741824) : waitany base count rands mem W ≠ .error .overflow := by
  refine waitany_fault (fun rand mem W => ?_) (by simp)
  by_cases nonempty : count = 0
  · simp [testany, nonempty]
  · have small := Nat.mod_lt rand (Nat.pos_of_ne_zero nonempty)
    rw [testany_eq nonempty, overflows_of_le (by omega)]
    simp

end Passes

/-- The contract of `foMPI_Testany` and `foMPI_Waitany`. -/
theorem any_contract (base count : ℕ) (mem : Memory ω) (W : World ω κ) (counted : W.Counted) :
    (∀ rand,
      (∃ s, testany base count rand mem W = .ok s ∧ Contract base count mem s) ↔
        count ≠ 0 ∧ overflows base count (rand % count) mem W = false ∧
          (completes base mem (order count (rand % count)) W = true →
            frees base mem (order count (rand % count)) W = false)) ∧
    ∀ rand rands,
      (waitany base count (rand :: rands) mem W = .error .divisionByZero ↔ count = 0) ∧
      (waitany base count (rand :: rands) mem W = .error .overflow → 1073741824 < count) ∧
      (∀ s, waitany base count (rand :: rands) mem W = .ok s →
        (Contract base count mem s ↔ frees base mem (order count (rand % count)) W = false)) ∧
      (count ≠ 0 → overflows base count (rand % count) mem W = false →
        (∀ j < count, idle (mem (base + j)) = true) →
          ∃ s, waitany base count (rand :: rands) mem W = .ok s ∧ s.index = none) := by
  have pass (rand : ℕ) : Scanned base count 0 (order count (rand % count)) mem W _ :=
    scan_scanned (order_nodup count (rand % count))
  have returns {rand : ℕ} (nonempty : count ≠ 0) (inside : overflows base count (rand % count) mem W = false) :
      testany base count rand mem W = .ok (scan base count (order count (rand % count)) 0 mem W) :=
    (testany_eq nonempty mem W).trans (if_neg (by simp [inside]))
  constructor
  · intro rand
    constructor
    · rintro ⟨s, returned, contract⟩
      obtain ⟨nonempty, inside, rfl⟩ := testany_returned returned
      refine ⟨nonempty, inside, fun hit => ?_⟩
      by_contra lost
      obtain ⟨j, hj, distinct, active, -, gone⟩ := (pass rand).freed (by simpa using lost)
      obtain ⟨i, hi⟩ := Option.isSome_iff_exists.mp ((pass rand).index.trans hit)
      exact contract.false_of_freed (mem_order.mp hj) distinct active gone ((pass rand).found i hi).1
    · rintro ⟨nonempty, inside, safe⟩
      refine ⟨_, returns nonempty inside, ?_⟩
      cases hit : completes base mem (order count (rand % count)) W with
      | true => exact (pass rand).contract counted (safe hit)
      | false =>
        refine ⟨(pass rand).undefined, fun i hi => ?_⟩
        have := (pass rand).index
        rw [hi, hit] at this
        contradiction
  · intro rand rands
    refine ⟨waitany_divisionByZero, fun overflow => ?_, fun s returned => waitany_contract counted returned,
      fun nonempty inside all => ?_⟩
    · by_contra narrow
      exact waitany_overflow (by omega) overflow
    · obtain ⟨flag, none⟩ := (pass rand).undefined.mpr all
      exact ⟨_, by rw [waitany, returns nonempty inside]; exact if_pos flag, none⟩

section Example

/-- One window with an implicit operation under way and a notification of rank 3 with tag 7. -/
def pendingPut : World Unit Unit where
  locality _ := ⟨false, 0, 0, []⟩
  fompiComm _ := ()
  queues _ := ⟨[], [], [⟨0, 3, 7⟩]⟩
  nbiCounter _ := 1
  counterUgniNbi _ := 0
  dmapp := [((), 0)]
  ugni := []
  script := []

theorem pendingPut_counted : pendingPut.Counted := ⟨by simp [pendingPut], by simp [pendingPut]⟩

/-- The request of that operation, then an active request for one notification with tag 7. -/
def mixedArray : Memory Unit
  | 0 => some (.rma ⟨0, (), 1, 1⟩)
  | 1 => some (.notification ⟨(), ⟨Notif.anySource, 7, 1⟩, 0, true⟩)
  | _ => none

/-- A pass that starts with the notification request ends there. -/
theorem any_contract_mixed : ∃ s, waitany 0 2 [1] mixedArray pendingPut = .ok s ∧ s.index = some 1 ∧
    Contract 0 2 mixedArray s :=
  ⟨_, rfl, rfl, (((any_contract 0 2 mixedArray pendingPut pendingPut_counted).2 1 []).2.2.1 _ rfl).mpr rfl⟩

/-- Of an array that holds just the pending operation the second pass reports that no handle is
active. -/
theorem any_contract_fails :
    ¬ ∀ (base count : ℕ) (mem : Memory Unit) (W : World Unit Unit), W.Counted → ∀ rand rands,
      testany base count rand mem W ≠ .error .divisionByZero ∧
      waitany base count (rand :: rands) mem W ≠ .error .divisionByZero ∧
      ∀ s, waitany base count (rand :: rands) mem W = .ok s → Contract base count mem s := by
  intro claim
  have contract := (claim 0 1 mixedArray pendingPut pendingPut_counted 0 [0]).2.2 _ rfl
  exact absurd (contract.undefined.mp ⟨rfl, rfl⟩ 0 Nat.one_pos) (by decide)

end Example

end FoMPI.Req
