import Mathlib.Data.List.Nodup
import FoMPI.Notif.Conservation

/-!
# Notification matching over whole runs

Arrivals, starts, tests and waits in any order, with arrivals between any two queue
operations of a call. The run keeps every notification in one place, counts within
bounds, serves wildcard-tag requests in the order of each sender, and a test that
is not ready has left nothing behind that it could have counted.
-/
namespace FoMPI.Notif
open FoMPI.Foundation FoMPI.Window

variable {ρ : Type*} {w : Locality} {args : ρ → Args} {s t : State ρ}

/-- What wildcard-tag requests have taken from a sender, in the order taken. -/
def State.taken (args : ρ → Args) (s : State ρ) (σ : BitVec 16) : List Msg :=
  (s.consumed.filter fun e => (args e.1).tag = anyTag ∧ e.2.source = σ).map (·.2)

/-- What a call knows about the hardware queues it polls. -/
def Polled (w : Locality) (a : Args) (s : State ρ) (f : Frame) : Prop :=
  match f.pc with
  | .unexpected | .xpmem => True
  | .ugni => pollsXpmem w a → s.queues.onNode ⊆ s.lateXpmem
  | .returned flag _ => flag = decide (a.count = f.found) ∧ (f.found < a.count →
      (pollsXpmem w a → s.queues.onNode ⊆ s.lateXpmem) ∧
      (pollsUgni w a → s.queues.cq ⊆ s.lateUgni))

structure CallOk (w : Locality) (a : Args) (s : State ρ) (c : Call ρ) : Prop where
  found : c.frame.found = s.found c.request
  searched : Searched a s.queues c.frame
  polled : Polled w a s c.frame

structure Inv (w : Locality) (args : ρ → Args) (s : State ρ) : Prop where
  placed : s.arrived.Perm (s.queues.all ++ s.consumed.map (·.2))
  numbered : s.arrived.map (·.id) = List.range s.arrived.length
  routed : Routed w s.queues
  fits : s.queues.uq.length < 4294967296
  accepted : ∀ e ∈ s.consumed, (args e.1).accepts e.2 = true
  bounds : ∀ k, 0 ≤ s.found k ∧ s.found k ≤ (args k).count
  ordered : ∀ σ, (s.taken args σ ++ s.queues.of σ).Pairwise (·.id < ·.id)
  call : ∀ c, s.call = some c → CallOk w (args c.request) s c

theorem Inv.init (valid : ∀ k, (args k).Valid) : Inv w args (init : State ρ) where
  placed := List.Perm.refl []
  numbered := rfl
  routed := ⟨by simp [Notif.init], by simp [Notif.init]⟩
  fits := Nat.zero_lt_succ _
  accepted := by simp [Notif.init]
  bounds k := by
    have := (valid k).count
    simp only [Notif.init]
    omega
  ordered σ := List.Pairwise.nil
  call := by simp [Notif.init]

/-- A notification that arrives is newer than all others. -/
theorem Inv.id_lt (inv : Inv w args s) {m : Msg} (h : m ∈ s.arrived) : m.id < s.arrived.length := by
  have := List.mem_map_of_mem (f := (·.id)) h
  rw [inv.numbered] at this
  exact List.mem_range.mp this

theorem Inv.mem_arrived (inv : Inv w args s) {σ : BitVec 16} {m : Msg}
    (h : m ∈ s.taken args σ ++ s.queues.of σ) : m ∈ s.arrived := by
  apply inv.placed.mem_iff.mpr
  obtain h | h := List.mem_append.mp h
  · obtain ⟨e, he, rfl⟩ := List.mem_map.mp h
    exact List.mem_append_right _ (List.mem_map_of_mem (List.mem_filter.mp he).1)
  · exact List.mem_append_left _ (List.mem_filter.mp h).1

theorem Inv.nodup (inv : Inv w args s) : s.arrived.Nodup := by
  have ids : (s.arrived.map (·.id)).Nodup := inv.numbered ▸ List.nodup_range
  exact List.Nodup.of_map _ ids

/-- A notification that is set aside finds room in `size`, an `unsigned int`. -/
def Roomy (w : Locality) (args : ρ → Args) (s : State ρ) (a : Action ρ) (_ : State ρ) : Prop :=
  match a with
  | .run => ∀ c, s.call = some c → diverts w (args c.request) s.queues c.frame = true →
      (uqSize s.queues.uq).toNat + 1 < 4294967296
  | _ => True

section Arrival
variable {m : Msg} {queues : Queues}

/-- A notification has entered the queues at the end of its sender's. -/
structure Entered (q q' : Queues) (m : Msg) : Prop where
  all : q'.all.Perm (q.all ++ [m])
  uq : q'.uq = q.uq
  of : ∀ σ, q'.of σ = q.of σ ++ if m.source = σ then [m] else []

theorem Entered.xpmem {q : Queues} (r : Routed w q) (via : w.viaXpmem m.source.toNat = true) :
    Entered q { q with onNode := q.onNode ++ [m] } m where
  all := by
    simp only [Queues.all, List.append_assoc]
    have swap : ([m] ++ q.cq).Perm (q.cq ++ [m]) := List.perm_append_comm
    exact (swap.append_left _).append_left _
  uq := rfl
  of σ := by
    by_cases hσ : m.source = σ
    · subst hσ
      have none : q.cq.filter (·.source = m.source) = [] := by
        apply List.filter_eq_nil_iff.mpr
        intro x hx same
        have far := r.cq x hx
        simp only [decide_eq_true_eq] at same
        rw [same, via] at far
        contradiction
      simp [Queues.of, Queues.all, none]
    · simp [Queues.of, Queues.all, hσ]

theorem Entered.ugni (q : Queues) : Entered q { q with cq := q.cq ++ [m] } m where
  all := by simp [Queues.all]
  uq := rfl
  of σ := by by_cases hσ : m.source = σ <;> simp [Queues.of, Queues.all, hσ]

theorem Inv.arrive (inv : Inv w args s) (number : m.id = s.arrived.length)
    (entered : Entered s.queues t.queues m) (routed : Routed w t.queues)
    (arrived : t.arrived = s.arrived ++ [m]) (found : t.found = s.found) (call : t.call = s.call)
    (consumed : t.consumed = s.consumed)
    (late : ∀ a f, Polled w a s f → Polled w a t f) : Inv w args t where
  placed := by
    rw [arrived, consumed]
    have shifted : (s.queues.all ++ [m] ++ s.consumed.map (·.2)).Perm
        (s.queues.all ++ s.consumed.map (·.2) ++ [m]) := by
      simp only [List.append_assoc]
      have swap : ([m] ++ s.consumed.map (·.2)).Perm (s.consumed.map (·.2) ++ [m]) :=
        List.perm_append_comm
      exact swap.append_left _
    exact (inv.placed.append_right [m]).trans
      (shifted.symm.trans (entered.all.symm.append_right _))
  numbered := by
    rw [arrived, List.map_append, inv.numbered, List.length_append, List.length_singleton,
      List.range_succ, List.map_singleton, number]
  routed := routed
  fits := entered.uq ▸ inv.fits
  accepted := consumed ▸ inv.accepted
  bounds := found ▸ inv.bounds
  ordered σ := by
    have same : t.taken args σ = s.taken args σ := by rw [State.taken, consumed, State.taken]
    rw [same, entered.of, ← List.append_assoc]
    apply List.pairwise_append.mpr
    refine ⟨inv.ordered σ, by split <;> simp, fun x hx y hy => ?_⟩
    have older := inv.id_lt (inv.mem_arrived hx)
    have : y = m := by
      split at hy
      · exact List.mem_singleton.mp hy
      · simp at hy
    rw [this, number]
    exact older
  call c hc := by
    obtain ⟨f, searched, polled⟩ := inv.call c (call ▸ hc)
    refine ⟨found ▸ f, ?_, late _ _ polled⟩
    unfold Searched Drained at searched ⊢
    rw [entered.uq]
    exact searched

end Arrival

/-- New arrivals are late. -/
theorem Polled.mono {a : Args} {f : Frame} (h : Polled w a s f)
    (onNode : ∀ m ∈ t.queues.onNode, m ∈ s.queues.onNode ∨ m ∈ t.lateXpmem)
    (lateX : s.lateXpmem ⊆ t.lateXpmem)
    (cq : ∀ m ∈ t.queues.cq, m ∈ s.queues.cq ∨ m ∈ t.lateUgni) (lateU : s.lateUgni ⊆ t.lateUgni) :
    Polled w a t f := by
  have nodes (old : s.queues.onNode ⊆ s.lateXpmem) : t.queues.onNode ⊆ t.lateXpmem :=
    fun m hm => (onNode m hm).elim (fun h => lateX (old h)) id
  have events (old : s.queues.cq ⊆ s.lateUgni) : t.queues.cq ⊆ t.lateUgni :=
    fun m hm => (cq m hm).elim (fun h => lateU (old h)) id
  unfold Polled at h ⊢
  cases hpc : f.pc with
  | unexpected => trivial
  | xpmem => trivial
  | ugni =>
    simp only [hpc] at h
    exact fun polls => nodes (h polls)
  | returned flag status =>
    simp only [hpc] at h
    exact ⟨h.1, fun unfinished =>
      ⟨fun polls => nodes ((h.2 unfinished).1 polls), fun polls => events ((h.2 unfinished).2 polls)⟩⟩

theorem roomy_of_short {a : Action ρ} (short : s.queues.uq.length < 2) : Roomy w args s a t := by
  cases a with
  | run =>
    intro c _ _
    rw [uqSize, BitVec.toNat_ofNat]
    omega
  | _ => trivial

section Run
variable [DecidableEq ρ]

theorem run_cases (e : step w args s .run = some t) :
    ∃ c, s.call = some c ∧ t = s.run w args c := by
  obtain ⟨c, hc, e⟩ := Option.bind_eq_some_iff.mp e
  refine ⟨c, hc, ?_⟩
  cases hpc : c.frame.pc <;> simp only [hpc] at e <;> cases e <;> rfl

omit [DecidableEq ρ] in
/-- What an operation learns about the hardware queues. -/
theorem advance_polled {a : Args} {wait : Bool} {f f' : Frame} {q : Queues} {counted : Option Msg}
    (polled : Polled w a s f)
    (e : advance w a wait s.queues f = (q, f', counted)) (queues : t.queues = q)
    (lateX : t.lateXpmem = if f.pc = .xpmem ∧ s.queues.onNode = [] then [] else s.lateXpmem)
    (lateU : t.lateUgni = if f.pc = .ugni ∧ s.queues.cq = [] then [] else s.lateUgni) :
    Polled w a t f' := by
  cases advance_cases e with
  | take m uq pc unfinished taken => trivial
  | searched pc nothing => trivial
  | finished pc finished => exact ⟨rfl, fun h => absurd h finished⟩
  | onNode m rest uq f' counted pc unfinished near eq dispatched =>
    have next : f'.pc = .xpmem := by simpa [dispatched] using dispatch_pc (a := a) (f := f) s.queues.uq m
    simp [Polled, next]
  | remote pc unfinished empty =>
    intro polls
    rw [queues, empty polls]
    exact List.nil_subset _
  | onNodeOnly pc unfinished near empty =>
    cases wait with
    | false =>
      refine ⟨rfl, fun _ => ⟨fun _ => ?_, fun h => absurd h near⟩⟩
      rw [queues, empty]
      exact List.nil_subset _
    | true => simp [Polled, pc]
  | event m rest uq f' counted pc eq dispatched =>
    have next : f'.pc = .xpmem := by simpa [dispatched] using dispatch_pc (a := a) (f := f) s.queues.uq m
    simp [Polled, next]
  | noEvent pc empty =>
    cases wait with
    | false =>
      simp only [Polled, pc] at polled
      refine ⟨rfl, fun _ => ⟨fun h => ?_, fun _ => ?_⟩⟩
      · rw [queues, lateX]
        simpa [pc] using polled h
      · rw [queues, empty]
        exact List.nil_subset _
    | true => trivial
  | returned flag status pc =>
    simp only [Polled, pc] at polled
    simpa [Polled, pc, queues, lateX, lateU] using polled

theorem Inv.run (inv : Inv w args s) (valid : ∀ k, (args k).Valid)
    (e : step w args s .run = some t) (roomy : Roomy w args s .run t) : Inv w args t := by
  obtain ⟨c, hc, rfl⟩ := run_cases e
  obtain ⟨found, searched, polled⟩ := inv.call c hc
  cases advanced : advance w (args c.request) c.wait s.queues c.frame with
  | mk q r =>
    obtain ⟨f, counted⟩ := r
    obtain ⟨moved, foundNow, unfinished, searched'⟩ :=
      advance_spec (valid c.request) inv.fits searched advanced
    have fits : q.uq.length < 4294967296 := by
      have longer := advance_length advanced
      have small := inv.fits
      split at longer
      · rename_i aside
        have room := roomy c hc aside
        rw [uqSize, BitVec.toNat_ofNat, Nat.mod_eq_of_lt small] at room
        omega
      · omega
    have polled' : Polled w (args c.request) (s.run w args c) f :=
      advance_polled polled advanced (by simp [State.run, advanced]) rfl rfl
    simp only [State.run, advanced] at polled' ⊢
    refine ⟨?_, inv.numbered, moved.routed inv.routed, fits, ?_, fun k => ?_, fun σ => ?_, ?_⟩
    · have snd : (counted.toList.map (c.request, ·)).map Prod.snd = counted.toList := by
        rw [List.map_map]
        exact List.map_id _
      rw [List.map_append, snd]
      have exchange : (q.all ++ counted.toList ++ s.consumed.map (·.2)).Perm
          (q.all ++ (s.consumed.map (·.2) ++ counted.toList)) := by
        rw [List.append_assoc]
        exact List.perm_append_comm.append_left _
      exact inv.placed.trans ((moved.perm.append_right _).symm.trans exchange)
    · intro e he
      obtain he | he := List.mem_append.mp he
      · exact inv.accepted e he
      · obtain ⟨m, hm, rfl⟩ := List.mem_map.mp he
        cases counted with
        | none => simp at hm
        | some x =>
          have : m = x := by simpa using hm
          exact this ▸ moved.accepted
    · by_cases hk : k = c.request
      · subst hk
        have bounds := inv.bounds c.request
        simp only [Function.update_self, foundNow, found]
        cases counted with
        | none => simpa using bounds
        | some m =>
          have := unfinished (by simp)
          simp only [Option.toList_some, List.length_singleton]
          omega
      · simpa [hk] using inv.bounds k
    · have ordered := inv.ordered σ
      cases counted with
      | none => simpa [State.taken, moved.of_none inv.routed] using ordered
      | some m =>
        by_cases any : (args c.request).tag = anyTag
        · rw [moved.of_wildcard inv.routed any, ← List.append_assoc] at ordered
          by_cases hσ : m.source = σ
          · simpa [State.taken, any, hσ] using ordered
          · simpa [State.taken, any, hσ] using ordered
        · have sublist := (List.Sublist.refl (s.taken args σ)).append (moved.of_sublist σ)
          simpa [State.taken, any] using ordered.sublist sublist
    · rintro c' hc'
      cases hc'
      exact ⟨by simp, searched', polled'⟩

theorem Inv.step (inv : Inv w args s) (valid : ∀ k, (args k).Valid) {a : Action ρ}
    (e : Notif.step w args s a = some t) (roomy : Roomy w args s a t) : Inv w args t := by
  cases a with
  | arriveXpmem source tag =>
    simp only [Notif.step, Option.ite_none_right_eq_some, Option.some.injEq] at e
    obtain ⟨via, rfl⟩ := e
    refine inv.arrive rfl (Entered.xpmem inv.routed via) ⟨fun x hx => ?_, inv.routed.cq⟩ rfl rfl rfl
      rfl fun a f polled => ?_
    · obtain hx | hx := List.mem_append.mp hx
      · exact inv.routed.onNode x hx
      · exact List.mem_singleton.mp hx ▸ via
    · exact polled.mono (fun _ h => List.mem_append.mp h |>.imp_right (List.mem_append_right _))
        (List.subset_append_left _ _) (fun _ h => .inl h) (List.Subset.refl _)
  | arriveUgni idEncoded =>
    simp only [Notif.step, Option.ite_none_left_eq_some, Option.some.injEq] at e
    obtain ⟨via, rfl⟩ := e
    refine inv.arrive rfl (Entered.ugni _) ⟨inv.routed.onNode, fun x hx => ?_⟩ rfl rfl rfl
      rfl fun a f polled => ?_
    · obtain hx | hx := List.mem_append.mp hx
      · exact inv.routed.cq x hx
      · exact List.mem_singleton.mp hx ▸ by simpa using via
    · exact polled.mono (fun _ h => .inl h) (List.Subset.refl _)
        (fun _ h => List.mem_append.mp h |>.imp_right (List.mem_append_right _))
        (List.subset_append_left _ _)
  | start k =>
    simp only [Notif.step, Option.ite_none_right_eq_some, Option.some.injEq] at e
    obtain ⟨none, rfl⟩ := e
    rw [Option.isNone_iff_eq_none] at none
    refine ⟨inv.placed, inv.numbered, inv.routed, inv.fits, inv.accepted, fun j => ?_, inv.ordered, ?_⟩
    · by_cases hj : j = k
      · subst hj
        have bounds := inv.bounds j
        simp only [Function.update_self, activate]
        split <;> omega
      · simpa [hj] using inv.bounds j
    · simp [none]
  | testWait k wait =>
    simp only [Notif.step, Option.ite_none_right_eq_some] at e
    obtain ⟨none, e⟩ := e
    split at e <;> cases e
    · refine ⟨inv.placed, inv.numbered, inv.routed, inv.fits, inv.accepted, inv.bounds, inv.ordered, ?_⟩
      rintro c hc
      cases hc
      exact ⟨rfl, trivial, trivial⟩
    · exact inv
  | run => exact inv.run valid e roomy
  | finish =>
    obtain ⟨c, hc, e⟩ := Option.bind_eq_some_iff.mp e
    split at e <;> cases e
    exact ⟨inv.placed, inv.numbered, inv.routed, inv.fits, inv.accepted, inv.bounds, inv.ordered, by simp⟩

omit [DecidableEq ρ] in
/-- A selector is looked for in every hardware queue that can hold a match. -/
theorem polls_of_accepts {a : Args} {m : Msg} (acc : a.accepts m = true) :
    (w.viaXpmem m.source.toNat = true → pollsXpmem w a = true) ∧
      (w.viaXpmem m.source.toNat = false → pollsUgni w a = true) := by
  simp only [Args.accepts, decide_eq_true_eq] at acc
  obtain ⟨source | any, -⟩ := acc
  · rw [source]
    constructor
    · intro via
      simp only [Locality.viaXpmem, Bool.and_eq_true] at via
      simp [pollsXpmem, via.1, via.2]
    · intro far
      by_cases any : a.sourceRank = anySource
      · simp [pollsUgni, any]
      · simp only [pollsUgni, pollsXpmem, any, decide_false, Bool.false_or]
        simpa [Locality.viaXpmem, Decidable.imp_iff_not_or] using far
  · constructor
    · intro via
      simp only [Locality.viaXpmem, Bool.and_eq_true] at via
      simp [pollsXpmem, via.1, any]
    · simp [pollsUgni, any]

omit [DecidableEq ρ] in
/-- A call that returns without being ready has looked everywhere. -/
theorem Inv.not_ready (inv : Inv w args s) {c : Call ρ} {status : Status} (hc : s.call = some c)
    (pc : c.frame.pc = .returned false status) {m : Msg} (acc : (args c.request).accepts m = true) :
    m ∉ s.queues.uq ∧ (m ∈ s.queues.onNode → m ∈ s.lateXpmem) ∧
      (m ∈ s.queues.cq → m ∈ s.lateUgni) := by
  obtain ⟨found, searched, polled⟩ := inv.call c hc
  simp only [Searched, pc] at searched
  simp only [Polled, pc] at polled
  obtain ⟨incomplete, polled⟩ := polled
  have unfinished : c.frame.found < (args c.request).count := by
    have := (inv.bounds c.request).2
    have : (args c.request).count ≠ c.frame.found := fun h => by simp [h] at incomplete
    omega
  obtain ⟨xpmem, ugni⟩ := polled unfinished
  obtain ⟨near, far⟩ := polls_of_accepts (w := w) acc
  refine ⟨fun hm => ?_, fun hm => xpmem (near (inv.routed.onNode m hm)) hm,
    fun hm => ugni (far (inv.routed.cq m hm)) hm⟩
  simp [searched unfinished m hm] at acc

/-- What matching owes the requests of a window. -/
structure Sound (args : ρ → Args) (s : State ρ) : Prop where
  distinct : s.arrived.Nodup
  placed : s.arrived.Perm (s.queues.all ++ s.consumed.map (·.2))
  accepted : ∀ e ∈ s.consumed, (args e.1).accepts e.2 = true
  bounds : ∀ k, 0 ≤ s.found k ∧ s.found k ≤ (args k).count
  ordered : ∀ σ, (s.taken args σ).Pairwise (·.id < ·.id)
  complete : ∀ c status m, s.call = some c → c.wait = false →
    c.frame.pc = .returned false status → (args c.request).accepts m = true →
    m ∉ s.queues.uq ∧ (m ∈ s.queues.onNode → m ∈ s.lateXpmem) ∧
      (m ∈ s.queues.cq → m ∈ s.lateUgni)

/-- In every run whose set-aside notifications find room in the unexpected queue, matching is sound. -/
theorem matching_sound (valid : ∀ k, (args k).Valid)
    (h : Reach (step w args) (Roomy w args) (init : State ρ) s) : Sound args s := by
  have inv : Inv w args s :=
    h.invariant (Inv.init valid) fun _ _ _ inv move roomy => inv.step valid move roomy
  exact ⟨inv.nodup, inv.placed, inv.accepted, inv.bounds,
    fun σ => (List.pairwise_append.mp (inv.ordered σ)).1,
    fun c status m hc _ pc acc => inv.not_ready hc pc acc⟩

end Run

/-- Ranks 0 and 1 are on the node. -/
def pair : Locality := ⟨false, 0, 1, []⟩

/-- One request for any source with tag 7, one for anything. -/
def competing : Bool → Args
  | false => ⟨anySource, 7, 1⟩
  | true => ⟨anySource, anyTag, 1⟩

/-- The first request sets aside what the second one then takes. -/
theorem matching_sound_competing : ∃ s : State Bool,
    Reach (step pair competing) (Roomy pair competing) init s ∧
    s.consumed = [(false, ⟨1, 5, 7⟩), (true, ⟨0, 1, 3⟩)] ∧ Sound competing s := by
  have valid (k : Bool) : (competing k).Valid := by
    cases k
    · exact ⟨by decide, .inl rfl, .inr (by decide)⟩
    · exact ⟨by decide, .inl rfl, .inl rfl⟩
  have ran : (execWhen (step pair competing) (fun s _ _ => s.queues.uq.length < 2) init
      ([.arriveXpmem 1 3, .arriveUgni 0x50007, .start false, .start true, .testWait false false] ++
        List.replicate 5 .run ++ [.finish, .testWait true true] ++ List.replicate 3 .run ++
        [.finish])).map State.consumed = some [(false, ⟨1, 5, 7⟩), (true, ⟨0, 1, 3⟩)] := by
    decide
  obtain ⟨s, run, consumed⟩ := Option.map_eq_some_iff.mp ran
  have reach : Reach (step pair competing) (Roomy pair competing) init s :=
    Reach.of_execWhen (fun _ _ _ short => roomy_of_short (of_decide_eq_true short)) _ run
  exact ⟨s, reach, consumed, matching_sound valid reach⟩

section Overflow

/-- All notifications come over the network. -/
def remote : Locality := ⟨true, 0, 1, []⟩

/-- One request for tag 7 and one for tag 3. -/
def apart : Bool → Args
  | false => ⟨anySource, 7, 1⟩
  | true => ⟨anySource, 3, 1⟩

/-- Between two calls, with `k` notifications of tag 3 set aside. -/
structure Aside (s : State Bool) (k : ℕ) : Prop where
  onNode : s.queues.onNode = []
  cq : s.queues.cq = []
  call : s.call = none
  found : s.found = fun _ => 0
  length : s.queues.uq.length = k
  tag : ∀ m ∈ s.queues.uq, m.tag = 3

theorem Aside.nothing {k : ℕ} {s : State Bool} (h : Aside s k) :
    takeUnexpected (apart false) s.queues.uq = none := by
  rw [takeUnexpected_search]
  split
  · rfl
  · apply removeFirst_of_misses
    intro m mem
    simp [Args.searches, apart, h.tag m mem, anyTag]

/-- A test of the first request sets aside what has arrived. -/
theorem Aside.more {k : ℕ} {s : State Bool} (h : Aside s k) :
    ∃ t, Reach (step remote apart) always s t ∧ Aside t (k + 1) := by
  have nothing := h.nothing
  obtain ⟨⟨uq, onNode, cq⟩, found, active, call, arrived, consumed, lateXpmem, lateUgni⟩ := s
  obtain ⟨rfl, rfl, rfl, rfl, length, tag⟩ := h
  dsimp only at nothing length tag
  have one : (apart false).count = 1 := rfl
  have event : decodeID 3#32 = (0#16, 3#16) := by decide
  have rejected : (apart false).accepts ⟨arrived.length, 0#16, 3#16⟩ = false := rfl
  have ran : exec (step remote apart)
      ⟨⟨uq, [], []⟩, fun _ => 0, active, none, arrived, consumed, lateXpmem, lateUgni⟩
      ([.arriveUgni 3, .start false, .testWait false false] ++ List.replicate 5 .run ++ [.finish]) =
      some ⟨⟨uqPush uq ⟨arrived.length, 0, 3⟩, [], []⟩, fun _ => 0, Function.update active false true, none,
        arrived ++ [⟨arrived.length, 0, 3⟩], consumed, [], []⟩ := by
    simp [exec, step, State.run, advance, dispatch, pollsXpmem, remote, Locality.viaXpmem, Frame.finish,
      nothing, List.replicate, activate, one, event, rejected]
  refine ⟨_, Reach.of_exec _ ran, rfl, rfl, rfl, rfl, by simp [uqPush, length], fun m mem => ?_⟩
  obtain mem | mem := List.mem_append.mp mem
  · exact tag m mem
  · exact List.mem_singleton.mp mem ▸ rfl

theorem aside_reached (k : ℕ) : ∃ s, Reach (step remote apart) always init s ∧ Aside s k := by
  induction k with
  | zero => exact ⟨init, .refl, rfl, rfl, rfl, rfl, rfl, by simp [init]⟩
  | succ k ih =>
    obtain ⟨s, run, aside⟩ := ih
    obtain ⟨t, more, aside'⟩ := aside.more
    exact ⟨t, run.trans more, aside'⟩

/-- When `size` is zero again the second request finds nothing. -/
theorem Aside.missed {s : State Bool} (h : Aside s 4294967296) : ∃ t status,
    Reach (step remote apart) always s t ∧ t.queues.uq = s.queues.uq ∧
      t.call = some ⟨true, false, ⟨.returned false status, 0, none⟩⟩ := by
  obtain ⟨⟨uq, onNode, cq⟩, found, active, call, arrived, consumed, lateXpmem, lateUgni⟩ := s
  obtain ⟨rfl, rfl, rfl, rfl, length, -⟩ := h
  dsimp only at length
  have nothing : takeUnexpected (apart true) uq = none := by
    rw [takeUnexpected_search, if_pos (uqSize_eq_zero.mpr (by rw [length]))]
  have one : (apart true).count = 1 := rfl
  have ran : exec (step remote apart)
      ⟨⟨uq, [], []⟩, fun _ => 0, active, none, arrived, consumed, lateXpmem, lateUgni⟩
      ([.start true, .testWait true false] ++ List.replicate 3 .run) =
      some ⟨⟨uq, [], []⟩, fun _ => 0, Function.update active true true,
        some ⟨true, false, ⟨.returned false ⟨0, none, none⟩, 0, none⟩⟩, arrived, consumed, [], []⟩ := by
    simp [exec, step, State.run, advance, pollsXpmem, remote, Frame.finish, Frame.status,
      nothing, List.replicate, activate, one]
  exact ⟨_, _, Reach.of_exec _ ran, rfl, rfl⟩

theorem matching_sound_fails : (∀ k, (apart k).Valid) ∧
    ¬∀ s : State Bool, Reach (step remote apart) always init s → Sound apart s := by
  constructor
  · intro k
    cases k <;> exact ⟨by decide, .inl rfl, .inr (by decide)⟩
  intro claim
  obtain ⟨s, run, aside⟩ := aside_reached 4294967296
  obtain ⟨t, status, test, same, call⟩ := aside.missed
  obtain ⟨m, mem⟩ : ∃ m, m ∈ s.queues.uq := by
    apply List.exists_mem_of_length_pos
    rw [aside.length]
    decide
  have accepted : (apart true).accepts m = true := by
    simp [Args.accepts, apart, anySource, aside.tag m mem]
  obtain ⟨gone, -⟩ := (claim t (run.trans test)).complete _ status m call rfl rfl accepted
  exact gone (same ▸ mem)

end Overflow

end FoMPI.Notif
