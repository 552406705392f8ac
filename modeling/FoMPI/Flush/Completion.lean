import FoMPI.Flush.Knowledge

/-!
# A flush completes everything

The statements of every call keep the counters: what is issued is counted before the
call ends or the counter is looked at, and a counter is cleared behind a wait only. So
on every run of calls nothing is outstanding on a window when its flush returns.
-/
namespace FoMPI.Flush
open FoMPI.Combine FoMPI.Comm FoMPI.Dcache FoMPI.Foundation FoMPI.RmaNotify FoMPI.Window
open FoMPI.Notif (anyTag)

universe u

variable {ω ι : Type u} {win : ω} {W : Win}

section Programs

/-- A run of operations on a window is covered by one increment behind it. -/
theorem leads_issue {α : Type*} {k : Knows ω} (own : ∀ w, k.uncounted w → w = win)
    (free : k.taken = false) (f : α → Implicit) (xs : List α) :
    (counters ω).Leads k ((xs.map fun x => .dmapp win (f x)) ++ [.count win]) := by
  induction xs generalizing k with
  | nil => exact ⟨own, fun w h => h.1 (own w h.2), free⟩
  | cons x xs ih =>
    refine ⟨own, ih ?_ free⟩
    rintro w (same | uncounted)
    · exact same
    · exact own w uncounted

theorem keeps_issue {α : Type*} (f : α → Implicit) (xs : List α) :
    (counters ω).Keeps ((xs.map fun x => .dmapp win (f x)) ++ [.count win]) :=
  fun _ rest => leads_issue (fun w h => absurd h (rest.1 w)) rest.2 f xs

theorem keeps_gsyncWait : (counters ω).Keeps [.gsyncWait] :=
  fun _ rest => ⟨rest.1, fun _ => id, rest.2⟩

theorem keeps_waited : (counters ω).Keeps [.gsyncWait, .clear win] :=
  fun _ rest => ⟨rest.1, ⟨fun _ => id, trivial⟩, fun _ => id, rest.2⟩

theorem keeps_winFlushAll : (counters ω).Keeps (winFlushAll win) :=
  fun _ rest => ⟨rest, rest.1, rest.1, ⟨rest.1, .inl rfl, .inl rfl, trivial⟩, rest.1, rest.2⟩

theorem keeps_await (w : Wait) : (counters ω).Keeps [.await w] := fun _ rest => ⟨rest.1, rest⟩

theorem keeps_getDynamicWindowRegions : (counters ω).Keeps (getDynamicWindowRegions W) :=
  .ite (fun _ => keeps_await _) fun _ => .nil

theorem keeps_pushNotification (tag : ℤ) : (counters ω).Keeps (pushNotification W tag) :=
  fun _ rest => ⟨rest.1, rest.1, rest.1, rest.1, rest⟩

theorem keeps_dmappSimple (operation : Operation) (c : Chunk) :
    (counters ω).Keeps (dmappSimple win operation c) := by
  have one (op : Implicit) : (counters ω).Keeps [.dmapp win op, .count win] :=
    keeps_issue (fun _ : Unit => op) [()]
  unfold dmappSimple
  apply Abstraction.Keeps.append
  · split
    · exact one _
    · exact .nil
  · split
    · exact one _
    · exact .nil

theorem keeps_ugniSimple (operation : Operation) (c : Chunk) (srcSeg : Option Segment) (tag : ℤ) :
    (counters ω).Keeps (ugniSimple win W operation c srcSeg tag) := by
  have posted (p : Post) : (counters ω).Keeps [.drainFull, .takeDescriptor, .post win p] :=
    fun _ rest => ⟨rest, rest, ⟨rest.1, rfl⟩, rest.1, rfl⟩
  exact (posted _).append (.ite (fun _ => keeps_winFlushAll) fun _ => .nil)

theorem keeps_simple (targetRank : ℤ) (operation : Operation) (c : Chunk) :
    (counters ω).Keeps (simple win W targetRank operation c) :=
  .ite (fun _ => fun _ rest => ⟨rest.1, rest⟩) fun _ => keeps_dmappSimple operation c

section Notified
variable {operation : Operation} {direct : Chunk → Bool} {srcSeg : Option Segment} {tag : ℤ}

/-- The data first, then a flush, then the notification. -/
theorem keeps_staged (p : Program ω) (c : Chunk) (keeps : (counters ω).Keeps p) :
    (counters ω).Keeps (p ++ winFlushAll win ++ ugniSimple win W .put c srcSeg tag) :=
  (keeps.append keeps_winFlushAll).append (keeps_ugniSimple _ _ _ _)

theorem keeps_notifyChunk (c : Chunk) :
    (counters ω).Keeps (notifyChunk win W operation direct srcSeg tag c) :=
  .ite (fun _ => keeps_ugniSimple _ _ _ _) fun _ => keeps_staged _ _ (keeps_dmappSimple _ _)

theorem keeps_notifyBlocks (cs : List Chunk) (n : ℕ) :
    (counters ω).Keeps (notifyBlocks win W operation direct srcSeg tag n cs) := by
  induction cs generalizing n with
  | nil => exact .nil
  | cons c cs ih =>
    have first : (counters ω).Keeps (dmappSimple win operation c) := keeps_dmappSimple operation c
    have later := first.append (ih (n + 1))
    refine .ite (fun _ => .ite (fun _ => ?_) fun _ => later) fun _ => later
    exact .ite (fun _ => keeps_ugniSimple _ _ _ _) fun _ => keeps_staged _ _ (keeps_dmappSimple _ _)

theorem keeps_notifiedNothing (originAddr t targetRank : ℤ) :
    (counters ω).Keeps (notifiedNothing win W operation originAddr t targetRank tag) := by
  refine .ite (fun _ => .nil) fun _ => .ite (fun _ => ?_) fun _ => ?_
  · exact fun _ rest => ⟨rest.1, keeps_pushNotification _ _ rest⟩
  · cases operation
    · exact keeps_notifyChunk _
    · exact keeps_notifyChunk _

end Notified

/-- A call keeps the counters if it has any statements. -/
def Kept (call : Option (GlobInfo ι × Program ω)) : Prop :=
  ∀ r, call = some r → (counters ω).Keeps r.2

namespace Kept

theorem none : Kept (none : Option (GlobInfo ι × Program ω)) := by
  intro r h
  contradiction

theorem some {cache : GlobInfo ι} {p : Program ω} (h : (counters ω).Keeps p) : Kept (some (cache, p)) := by
  intro r e
  cases e
  exact h

theorem ite {c : Prop} [Decidable c] {x y : Option (GlobInfo ι × Program ω)} (hx : Kept x) (hy : Kept y) :
    Kept (if c then x else y) := by
  split
  · exact hx
  · exact hy

theorem map {α : Type*} {x : Option (GlobInfo ι × α)} {f : α → Program ω}
    (h : ∀ a, (counters ω).Keeps (f a)) : Kept (x.map fun r => (r.1, f r.2)) := by
  intro r e
  obtain ⟨a, -, rfl⟩ := Option.map_eq_some_iff.mp e
  exact h a.2

theorem bind {α : Type*} {x : Option α} {f : α → Option (GlobInfo ι × Program ω)}
    (h : ∀ a, x = Option.some a → Kept (f a)) : Kept (x.bind f) := by
  intro r e
  obtain ⟨a, found, e⟩ := Option.bind_eq_some_iff.mp e
  exact h a found r e

end Kept

section Calls
variable [DecidableEq ι] {D : Types ι} {layout : Layout ι} {C : Combine.Call ι} {fuel garbage : ℕ}
  {cache : GlobInfo ι}

theorem kept_transfer {D : Datatypes ι} (a : Args ι) (cache : GlobInfo ι) :
    Kept (transfer win W D layout fuel garbage a cache) := by
  rintro r found
  obtain ⟨b, -, rfl⟩ := Option.map_eq_some_iff.mp found
  exact keeps_getDynamicWindowRegions.append (.flatMap fun _ _ => keeps_simple _ _ _)

theorem kept_ugniNotifyOnly {D : Datatypes ι} (a : Args ι) (operation : Operation) (direct : Chunk → Bool)
    (srcSeg : Option Segment) (t : ℤ) (cache : GlobInfo ι) :
    Kept (ugniNotifyOnly win W D layout a operation direct srcSeg t cache) := by
  unfold ugniNotifyOnly
  cases fastPath D W a with
  | some size => exact .some (keeps_notifyChunk _)
  | none =>
    refine .bind fun r _ => ?_
    obtain ⟨blocks, cache⟩ := r
    refine .ite (.some (keeps_getDynamicWindowRegions.append (keeps_notifyBlocks _ _))) ?_
    rintro r found
    obtain ⟨pieces, -, rfl⟩ := Option.map_eq_some_iff.mp found
    have data : (counters ω).Keeps ((pieces.map (Chunk.place a.originAddr t)).flatMap
        (dmappSimple win operation)) := .flatMap fun _ _ => keeps_dmappSimple _ _
    refine (keeps_getDynamicWindowRegions.append data).append (.ite (fun _ => ?_) fun _ => .nil)
    exact keeps_winFlushAll.append (keeps_ugniSimple _ _ _ _)

theorem kept_notified {D : Datatypes ι} (a : Args ι) (cache : GlobInfo ι) :
    Kept (notified win W D layout a fuel garbage cache) := by
  refine .ite (kept_transfer a cache) (.ite ?_ ?_)
  · rintro r found
    obtain ⟨b, done, rfl⟩ := Option.map_eq_some_iff.mp found
    exact (kept_transfer a cache b done).append (keeps_pushNotification _)
  · cases a.operation
    · exact kept_ugniNotifyOnly _ _ _ _ _ _
    · exact kept_ugniNotifyOnly _ _ _ _ _ _

theorem kept_hardware : Kept (hardware win W D layout C fuel garbage cache) := by
  unfold hardware
  split
  · split
    · apply Kept.map
      exact fun _ => .flatMap fun _ _ => keeps_issue Implicit.atomic _
    · exact .none
  · exact .none

theorem kept_move (operation : Operation) (addr : ℤ) (key : Key ι) (cache : GlobInfo ι) :
    Kept (move win W D layout C fuel garbage operation addr key cache) := by
  unfold move
  split
  · exact kept_transfer _ _
  · exact .none

theorem kept_putBack (addr : ℤ) (key : Key ι) (cache : GlobInfo ι) :
    Kept (putBack win W D layout C fuel garbage addr key cache) := by
  rintro r found
  obtain ⟨b, done, rfl⟩ := Option.map_eq_some_iff.mp found
  exact (kept_move _ _ _ _ b done).append keeps_waited

theorem kept_accumulate : Kept (accumulate win W D layout C fuel garbage cache) := by
  refine .ite (.some .nil) (.ite kept_hardware (.ite kept_hardware (.ite (kept_move _ _ _ _) ?_)))
  split
  · exact .some .nil
  · exact .some .nil
  · refine .ite (.some .nil) (.bind fun got found => ?_)
    refine .bind fun _ _ => .bind fun put after => .some ?_
    have waited := (keeps_await .windowMutex).append (kept_move _ _ _ _ got found)
    exact (waited.append keeps_gsyncWait).append (kept_putBack _ _ _ put after)

theorem kept_operateAndPut (cache : GlobInfo ι) :
    Kept (operateAndPut win W D layout C fuel garbage cache) := by
  refine .ite (.some .nil) (.ite (kept_putBack _ _ _) ?_)
  split
  · exact .none
  · exact .bind fun _ _ => kept_putBack _ _ _

theorem kept_getAccumulate : Kept (getAccumulate win W D layout C fuel garbage cache) := by
  refine .ite (.some .nil) (.ite (.some (keeps_issue (fun i : ℕ => .afadd _ _ _) _)) ?_)
  refine .bind fun got found => .bind fun put after => .some ?_
  have waited := (keeps_await .windowMutex).append (kept_move _ _ _ _ got found)
  exact (waited.append keeps_gsyncWait).append (kept_operateAndPut _ put after)

/-- Every call keeps the counters. -/
theorem Entry.kept (e : Entry ι) : Kept (e.program win W D layout fuel garbage cache) := by
  cases e with
  | transfer a => exact kept_transfer a cache
  | accumulate C => exact kept_accumulate
  | getAccumulate C => exact kept_getAccumulate
  | notified a => exact kept_notified a cache
  | notifiedNothing => exact .some (keeps_notifiedNothing _ _ _)
  | flushAll => exact .some keeps_winFlushAll

end Calls

end Programs

section Runs
variable [DecidableEq ω] [DecidableEq ι] {D : Types ι} {s t : State ω ι} {cache : GlobInfo ι}

/-- No operation issued on the window is outstanding. -/
def State.Done (s : State ω ι) (win : ω) : Prop :=
  (∀ op, (win, op) ∉ s.dmapp) ∧ ∀ p, (win, p) ∉ s.posts

omit [DecidableEq ω] [DecidableEq ι] in
theorem Known.rest {k : Knows ω} (known : Known s k) (idle : s.todo = []) : k.Rest := by
  have leads := known.leads
  rwa [idle] at leads

theorem known_step (sparing : Sparing s) (known : ∃ k, Known s k) {a : Action ω ι}
    (move : step D s a = some t) : ∃ k, Known t k := by
  obtain ⟨k, known⟩ := known
  cases a with
  | call win W layout fuel garbage e =>
    cases idle : s.todo with
    | nil =>
      simp only [step, idle] at move
      obtain ⟨r, found, rfl⟩ := Option.map_eq_some_iff.mp move
      have h := known.holds
      exact ⟨k, ⟨h.wraps, h.bounded, h.covered, h.quiet, h.zero, h.posts, h.drained⟩,
        e.kept r found k (known.rest idle)⟩
    | cons i rest => simp [step, idle] at move
  | run =>
    cases next : s.todo with
    | nil => simp [step, next] at move
    | cons i rest =>
      simp only [step, next] at move
      exact known.perform sparing next move
  | dmappDone i => exact ⟨k, known.network.1 move⟩
  | ugniDone i => exact ⟨k, known.network.2 move⟩
  | others blocked =>
    cases move
    exact ⟨k, known.others blocked⟩

theorem known_reach (h : Reach (step D) (fun _ _ t => Sparing t) (State.init cache) s) :
    Sparing s ∧ ∃ k, Known s k := by
  let nothing : Knows ω := ⟨fun _ => False, fun _ => False, fun _ => False, false, False⟩
  have start : Holds (State.init cache : State ω ι) nothing :=
    ⟨fun _ => rfl, fun _ => le_refl _, by simp [State.init], by simp [State.init], fun _ => False.elim,
      rfl, False.elim⟩
  refine h.invariant (P := fun s => Sparing s ∧ ∃ k, Known s k) ?_ fun s a t inv move sparing =>
    ⟨sparing, known_step inv.1 inv.2 move⟩
  exact ⟨fun _ => by simp [State.init], nothing, start, fun _ => id, rfl⟩

/-- What a flush owes its caller, and what the counters say: in the midst of a call too, other than
between an operation and its own increment. -/
structure Complete (s : State ω ι) : Prop where
  flushed : ∀ win rest, s.todo = .flushed win :: rest → s.Done win
  counters : ∀ win, ¬Owes win s.todo → s.nbiCounter win = 0 → s.counterUgniNbi = 0 → s.Done win

/-- Nothing is outstanding on a window when its flush returns, or when the counters are zero. -/
theorem flush_completes (h : Reach (step D) (fun _ _ t => Sparing t) (State.init cache) s) :
    Complete s := by
  obtain ⟨sparing, k, known⟩ := known_reach h
  constructor
  · intro win rest next
    obtain ⟨holds, leads⟩ := known
    rw [next] at leads
    obtain ⟨⟨-, quiet, -, drained⟩, -⟩ := leads
    refine ⟨fun op out => holds.quiet win op out quiet, ?_⟩
    simp [holds.drained drained]
  · intro win counted nbi ugni
    obtain ⟨holds, leads⟩ := known
    constructor
    · intro op out
      have none := holds.counted_eq_zero sparing nbi
      obtain uncounted | some := holds.covered win op out
      · exact counted (owes_of_uncounted leads uncounted)
      · omega
    · have posts := holds.posts
      rw [ugni] at posts
      have none : s.posts = [] := List.eq_nil_of_length_eq_zero (by omega)
      simp [none]

/-- Sums on the window `true` are out when a flush of the window `false` returns. -/
theorem flush_completes_other : ∃ s : State Bool BasicType,
    Reach (step predefined) (fun _ _ t => Sparing t) (State.init (dcacheInit fun _ => ⟨[], 0, none, 0, 0, 0⟩)) s ∧
      s.todo = [.flushed false] ∧ s.dmapp.length = 3 ∧ Complete s := by
  have ran : (execWhen (step predefined) (fun _ _ t => Sparing t)
      (State.init (dcacheInit fun _ => ⟨[], 0, none, 0, 0, 0⟩))
      ([.call true (remote 8) rows 24 0 (.accumulate (elementsCall .sum (.integer .int64) 3))] ++
        List.replicate 4 .run ++ [.call false (remote 8) rows 0 0 .flushAll] ++ List.replicate 3 .run)).map
      (fun s => (s.todo, s.dmapp.length)) = some ([.flushed false], 3) := by
    decide +kernel
  obtain ⟨s, run, trace⟩ := Option.map_eq_some_iff.mp ran
  obtain ⟨todo, out⟩ := Prod.mk.inj trace
  have reach : Reach (step predefined) (fun _ _ t => Sparing t)
      (State.init (dcacheInit fun _ => ⟨[], 0, none, 0, 0, 0⟩)) s :=
    Reach.of_execWhen (fun _ _ _ h => of_decide_eq_true h) _ run
  exact ⟨s, reach, todo, out, flush_completes reach⟩

/-- The process waits for another one. -/
def State.Waiting (s : State ω ι) : Prop := ∃ w rest, s.todo = .await w :: rest ∧ s.blocked w = true

/-- A call under way goes on or waits for another process, or a post is out that has yet to
complete. -/
theorem run_or_post (h : Reach (step D) (fun _ _ t => Sparing t) (State.init cache) s)
    (busy : s.todo ≠ []) (free : ¬s.Waiting) :
    (∃ t, step D s .run = some t) ∨ ∃ t, step D s (.ugniDone 0) = some t := by
  obtain ⟨-, k, holds, leads⟩ := known_reach h
  obtain ⟨i, rest, next⟩ := List.exists_cons_of_ne_nil busy
  rw [next] at leads
  simp only [step, next]
  cases i with
  | drain =>
    have idle : k.taken = false := leads.1.2
    have posts := holds.posts
    simp only [State.perform]
    split
    · exact .inl ⟨_, rfl⟩
    · rename_i some_left
      split
      · rename_i none
        rw [none, idle] at posts
        have some_post : 0 < s.posts.length := by
          simp only [List.length_nil, Bool.toNat_false] at posts
          omega
        exact .inr ⟨_, by rw [List.getElem?_eq_getElem some_post, Option.map_some]⟩
      · exact .inl ⟨_, rfl⟩
  | await w =>
    have given : ¬s.blocked w = true := fun blocked => free ⟨w, rest, next, blocked⟩
    exact .inl ⟨_, if_neg given⟩
  | _ => exact .inl ⟨_, rfl⟩

end Runs

end FoMPI.Flush
