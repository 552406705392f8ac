import FoMPI.BasicType.Homogeneous
import FoMPI.Foundation.Splits
import Mathlib.Data.List.Perm.Basic
import Mathlib.Data.List.Nodup
import Mathlib.Data.List.Count

/-!
# The datatype handles of `check_basic_type`

A handle is obtained when the type around it is taken apart and freed when it is taken apart itself.
The clean-up after two unequal types releases the list entries, not the handles in them.
-/
namespace FoMPI.BasicType

open FoMPI.Foundation

variable {ν : Type}

/-- Every derived type obtained has been freed once, and nothing else has been freed. -/
structure Balanced (s : State ν) : Prop where
  once : ∀ k ∈ s.obtained, s.freed.count (.obtained k) = 1
  argument : .argument ∉ s.freed
  predefined : .predefined ∉ s.freed

/-- An entry that came from `MPI_Type_get_contents`. -/
structure Entry.Received (e : Entry ν) : Prop where
  named : e.type.isNamed = true → e.handle = .predefined
  derived : e.type.isNamed = false → ∃ k, e.handle = .obtained k

/-- Handles obtained are freed, or in the list, or have been dropped with it. -/
structure Custody (s : State ν) : Prop where
  nodup : s.obtained.Nodup
  fresh : ∀ k ∈ s.obtained, k < s.next
  perm : (s.freed ++ (owned (s.queue ++ s.dropped)).map Handle.obtained).Perm (s.obtained.map Handle.obtained)
  head : ∀ e rest, s.queue = e :: rest → (e.handle = .argument ∨ e.Received) ∧ ∀ r ∈ rest, r.Received
  dropped : ∀ e ∈ s.dropped, e.Received
  running : s.queue ≠ [] → s.dropped = []

section Owned

variable {es : List (Entry ν)} {e : Entry ν} {k i : ℕ} {ts : List (DataType ν)}

theorem owned_append (es fs : List (Entry ν)) : owned (es ++ fs) = owned es ++ owned fs := List.filterMap_append

theorem owned_reverse (es : List (Entry ν)) : owned es.reverse = (owned es).reverse := List.filterMap_reverse

theorem owned_cons_named (named : e.type.isNamed = true) (h : e.handle = .argument ∨ e.Received) :
    owned (e :: es) = owned es := by
  have kept : e.handle.owned = none := by
    obtain argument | received := h
    · rw [argument]
      rfl
    · rw [received.named named]
      rfl
  exact List.filterMap_cons_none kept

theorem receive_received (inside : e ∈ receive k ts) : e.Received := by
  induction ts generalizing k with
  | nil => cases inside
  | cons t ts ih =>
    rw [receive] at inside
    obtain rfl | later := List.mem_cons.mp inside
    · exact ⟨fun named => if_pos named, fun derived => ⟨k, if_neg (by simp [derived])⟩⟩
    · exact ih later

theorem mem_owned_receive (inside : i ∈ owned (receive k ts)) : k ≤ i ∧ i < k + ts.length := by
  induction ts generalizing k with
  | nil => cases inside
  | cons t ts ih =>
    rw [receive, owned, List.filterMap_cons] at inside
    rw [List.length_cons]
    split at inside
    · have := ih inside
      omega
    · rename_i j new
      obtain rfl | later := List.mem_cons.mp inside
      · by_cases named : t.isNamed = true
        · simp [named, Handle.owned] at new
        · simp [named, Handle.owned] at new
          omega
      · have := ih later
        omega

theorem nodup_owned_receive : (owned (receive k ts)).Nodup := by
  induction ts generalizing k with
  | nil => exact List.nodup_nil
  | cons t ts ih =>
    rw [receive]
    by_cases named : t.isNamed = true
    · have kept : owned (⟨if t.isNamed then .predefined else .obtained k, t⟩ :: receive (k + 1) ts) =
          owned (receive (k + 1) ts) := List.filterMap_cons_none (by simp [named, Handle.owned])
      rw [kept]
      exact ih
    · have new : owned (⟨if t.isNamed then .predefined else .obtained k, t⟩ :: receive (k + 1) ts) =
          k :: owned (receive (k + 1) ts) := List.filterMap_cons_some (by simp [named, Handle.owned])
      rw [new]
      refine List.nodup_cons.mpr ⟨fun again => ?_, ih⟩
      have := (mem_owned_receive again).1
      omega

end Owned

section Steps

variable {s : State ν} {e : Entry ν} {rest : List (Entry ν)}

theorem custody_init (t : DataType ν) : Custody (State.init t) where
  nodup := List.nodup_nil
  fresh _ inside := by cases inside
  perm := .refl _
  head e rest queue := by
    cases queue
    exact ⟨.inl rfl, fun r inside => by cases inside⟩
  dropped _ inside := by cases inside
  running _ := rfl

/-- A handle leaves the list when it is freed. -/
theorem freed_expand (valid : e.handle = .argument ∨ e.Received) (other : e.type.isNamed = false) :
    (s.expand e rest).freed ++ (owned rest).map Handle.obtained =
      s.freed ++ (owned (e :: rest)).map Handle.obtained := by
  change (if e.handle ≠ .argument then s.freed ++ [e.handle] else s.freed) ++ _ = _
  obtain argument | received := valid
  · have kept : owned (e :: rest) = owned rest := List.filterMap_cons_none (by rw [argument]; rfl)
    rw [if_neg (not_not.mpr argument), kept]
  · obtain ⟨k, obtained⟩ := received.derived other
    have taken : owned (e :: rest) = k :: owned rest := List.filterMap_cons_some (by rw [obtained]; rfl)
    rw [if_pos (by rw [obtained]; simp), taken, obtained, List.append_assoc]
    rfl

theorem Custody.expand (c : Custody s) (queue : s.queue = e :: rest) (other : e.type.isNamed = false) :
    Custody (s.expand e rest) := by
  obtain ⟨valid, received⟩ := c.head e rest queue
  have nothing := c.running (by rw [queue]; simp)
  have requeued : (s.expand e rest).queue = (receive s.next e.type.contents).reverse ++ rest := requeue_eq _ _
  refine ⟨?_, ?_, ?_, ?_, c.dropped, fun _ => nothing⟩
  · refine List.nodup_append'.mpr ⟨c.nodup, nodup_owned_receive, fun k old new => ?_⟩
    have := c.fresh k old
    have := (mem_owned_receive new).1
    omega
  · intro k inside
    change k < s.next + e.type.contents.length
    obtain old | new := List.mem_append.mp inside
    · have := c.fresh k old
      omega
    · exact (mem_owned_receive new).2
  · have before := c.perm
    rw [nothing, List.append_nil, queue, ← freed_expand valid other] at before
    have same : (s.expand e rest).dropped = [] := nothing
    have total : (s.expand e rest).obtained = s.obtained ++ owned (receive s.next e.type.contents) := rfl
    rw [same, List.append_nil, requeued, total, owned_append, owned_reverse, List.map_append, List.map_append]
    have pushed : (((owned (receive s.next e.type.contents)).reverse.map Handle.obtained) ++
        (owned rest).map Handle.obtained).Perm
          ((owned rest).map Handle.obtained ++ (owned (receive s.next e.type.contents)).map Handle.obtained) :=
      List.perm_append_comm.trans (((List.reverse_perm _).map _).append_left _)
    refine (pushed.append_left _).trans ?_
    rw [← List.append_assoc]
    exact before.append_right _
  · intro head tail split
    rw [requeued] at split
    have all : ∀ r ∈ head :: tail, r.Received := by
      rw [← split]
      intro r inside
      obtain new | old := List.mem_append.mp inside
      · exact receive_received (List.mem_reverse.mp new)
      · exact received r old
    exact ⟨.inr (all head List.mem_cons_self), fun r later => all r (List.mem_cons_of_mem _ later)⟩

/-- The list gets shorter by a predefined type. -/
theorem Custody.pop (c : Custody s) (queue : s.queue = e :: rest) (named : e.type.isNamed = true) :
    (s.freed ++ (owned rest).map Handle.obtained).Perm (s.obtained.map Handle.obtained) ∧
      ∀ r ∈ rest, r.Received := by
  obtain ⟨valid, received⟩ := c.head e rest queue
  have before := c.perm
  rw [c.running (by rw [queue]; simp), List.append_nil, queue, owned_cons_named named valid] at before
  exact ⟨before, received⟩

/-- A call that has not written past its arrays has what it obtained in custody. -/
theorem Custody.step [DecidableEq ν] (custody : s.overrun = false → Custody s) (inside : (step s).overrun = false) :
    Custody (step s) := by
  cases queue : s.queue with
  | nil =>
    have stays : BasicType.step s = s := by rw [BasicType.step, queue]
    rw [stays] at inside ⊢
    exact custody inside
  | cons e rest =>
    have running : s.overrun = false := by
      obtain ⟨_, _, same⟩ | ⟨_, _, same⟩ | ⟨_, _, ⟨_, same⟩ | ⟨_, _, _, same⟩ | ⟨_, same⟩⟩ := step_cases queue <;>
        rw [same] at inside <;> first | exact inside | cases inside
    have c := custody running
    have nothing := c.running (by rw [queue]; simp)
    obtain ⟨other, _, expanded⟩ | ⟨_, _, full⟩ | ⟨x, type, ⟨_, first⟩ | ⟨_, _, _, stopped⟩ | ⟨_, popped⟩⟩ :=
      step_cases queue
    · rw [expanded]
      exact c.expand queue other
    · rw [full] at inside
      cases inside
    · rw [first]
      exact ⟨c.nodup, c.fresh, c.perm, c.head, c.dropped, c.running⟩
    · obtain ⟨perm, received⟩ := c.pop queue (by rw [type]; rfl)
      rw [stopped]
      exact ⟨c.nodup, c.fresh, perm, fun _ _ split => (by cases split), received, fun more => absurd rfl more⟩
    · obtain ⟨perm, received⟩ := c.pop queue (by rw [type]; rfl)
      rw [popped]
      refine ⟨c.nodup, c.fresh, ?_, fun e' rest' split => ?_, c.dropped, fun _ => nothing⟩
      · rw [nothing, List.append_nil]
        exact perm
      · change rest = e' :: rest' at split
        rw [split] at received
        exact ⟨.inr (received e' List.mem_cons_self), fun r later => received r (List.mem_cons_of_mem _ later)⟩

/-- At the end handles balance exactly if only predefined types have been dropped. -/
theorem balanced_iff (c : Custody s) (empty : s.queue = []) :
    Balanced s ↔ ∀ d ∈ s.dropped.map Entry.type, d.isNamed = true := by
  have perm := c.perm
  rw [empty, List.nil_append] at perm
  have single : (s.obtained.map Handle.obtained).Nodup := c.nodup.map fun i j same => by cases same; rfl
  have freed (h : Handle) (inside : h ∈ s.freed) : h ∈ s.obtained.map Handle.obtained :=
    perm.subset (List.mem_append_left _ inside)
  constructor
  · intro balanced d inside
    obtain ⟨e, dropped, rfl⟩ := List.mem_map.mp inside
    by_contra derived
    obtain ⟨k, handle⟩ := (c.dropped e dropped).derived (Bool.eq_false_iff.mpr derived)
    have leaked : Handle.obtained k ∈ (owned s.dropped).map Handle.obtained :=
      List.mem_map_of_mem (List.mem_filterMap.mpr ⟨e, dropped, by rw [handle]; rfl⟩)
    have made : k ∈ s.obtained := by
      simpa using perm.subset (List.mem_append_right _ leaked)
    -- one of the two occurrences that the permutation allows is taken by the dropped entry
    have total := perm.count_eq (Handle.obtained k)
    rw [List.count_append, List.count_eq_one_of_mem single (List.mem_map_of_mem made), balanced.once k made] at total
    have := List.count_pos_iff.mpr leaked
    omega
  · intro named
    have nothing : owned s.dropped = [] := by
      refine List.filterMap_eq_nil_iff.mpr fun e dropped => ?_
      rw [(c.dropped e dropped).named (named _ (List.mem_map_of_mem dropped))]
      rfl
    rw [nothing, List.map_nil, List.append_nil] at perm
    refine ⟨fun k made => ?_, fun inside => ?_, fun inside => ?_⟩
    · rw [perm.count_eq, List.count_eq_one_of_mem single (List.mem_map_of_mem made)]
    · simpa using freed _ inside
    · simpa using freed _ inside

end Steps

section Scan

variable [DecidableEq ν] {a : Summary ν} {ps : List (Position ν)}

/-- Only predefined types are dropped exactly if only they are queued behind the first type that
differs from those before it. -/
theorem dropped_scan_iff (nothing : a.dropped = []) (inside : (scan ps a).overrun = false) :
    (∀ d ∈ (scan ps a).dropped, d.isNamed = true) ↔ AtEvery ps fun before p => Uniform (a.seen before) →
      ¬Uniform (a.seen (before ++ [p])) → ∀ d ∈ p.behind, d.isNamed = true := by
  induction ps, a using scan_induction with
  | nil a =>
    refine ⟨fun _ => atEvery_nil, fun _ d dropped => ?_⟩
    rw [scan, nothing] at dropped
    cases dropped
  | first x behind ps a basic ih =>
    rw [scan_first basic] at inside ⊢
    rw [ih nothing inside, atEvery_cons]
    refine (atEvery_congr fun before p => ?_).trans (and_iff_right fun _ mixed => absurd ?_ mixed).symm
    · rw [seen_first basic, List.cons_append, seen_first basic]
    · rw [List.nil_append, seen_first basic]
      exact uniform_seen_nil _
  | same x behind ps a basic ih =>
    rw [scan_same basic] at inside ⊢
    rw [ih nothing inside, atEvery_cons]
    refine (atEvery_congr fun before p => ?_).trans (and_iff_right fun _ mixed => absurd ?_ mixed).symm
    · rw [uniform_seen_same basic, List.cons_append, uniform_seen_same basic]
    · rw [List.nil_append, uniform_seen_same basic]
      exact uniform_seen_nil _
  | differs b x behind ps a basic unequal =>
    rw [scan_differs basic unequal, atEvery_cons]
    constructor
    · exact fun all => ⟨fun _ _ => all, fun before p after _ uniform => absurd uniform (not_uniform_seen basic unequal)⟩
    · exact fun all => all.1 (uniform_seen_nil a) (not_uniform_seen basic unequal)
  | other t behind ps a other room ih =>
    rw [scan_other other room] at inside ⊢
    rw [ih nothing inside, atEvery_cons]
    refine (atEvery_congr fun before p => ?_).trans (and_iff_right fun _ mixed => absurd ?_ mixed).symm
    · rw [seen_other other, List.cons_append, seen_other other]
    · rw [List.nil_append, seen_other other]
      exact uniform_seen_nil _
  | full t behind ps a other full =>
    rw [scan_full other full] at inside
    cases inside

/-- The call stays inside its arrays and the handles balance exactly if the arrays have room and only predefined
types are queued behind the first predefined type that differs from those before it: what else is queued there is
never freed. -/
theorem handles_balanced_iff (t : DataType ν) (fuel : ℕ) (enough : (positions t []).length + 1 < fuel) :
    ∃ s, checkBasicType fuel t = some s ∧
      (s.overrun = false ∧ Balanced s ↔ HasRoom t ∧ AtEvery (positions t []) fun before p =>
        Uniform (names before) → ¬Uniform (names (before ++ [p])) → ∀ d ∈ p.behind, d.isNamed = true) := by
  obtain ⟨s, done, empty, result⟩ := checkBasicType_eq_scan t enough
  refine ⟨s, done, ?_⟩
  rw [← overrun_iff result]
  refine and_congr_right fun inside => ?_
  have keep (s : State ν) (custody : s.overrun = false → Custody s) : (step s).overrun = false → Custody (step s) :=
    Custody.step custody
  have custody := run_invariant keep (fun _ => custody_init t) done
  have dropped : s.dropped.map Entry.type = (scan (positions t []) .init).dropped := by
    rw [← result]
    rfl
  rw [balanced_iff (custody inside) empty, dropped]
  exact dropped_scan_iff rfl (result ▸ inside)

end Scan

section Example

/-- The contiguous type is taken apart before two unequal types are met. -/
theorem handles_balanced_struct :
    ∃ s, checkBasicType 10 (.struct [.named 1, .derived .contiguous (.named 0)]) = some s ∧
      s.overrun = false ∧ Balanced s := by
  obtain ⟨s, done, balanced⟩ :=
    handles_balanced_iff (.struct [.named 1, .derived .contiguous (.named 0)]) 10 (by decide)
  refine ⟨s, done, balanced.mpr ?_⟩
  simp [HasRoom, positions, blockPositions, atEvery_cons, atEvery_nil, names, DataType.name, DataType.isNamed,
    DataType.envelope, Combiner.envelope, capacity, Uniform]

/-- The contiguous type is queued behind the last two blocks, which differ. -/
theorem handles_leak_struct :
    ∃ s, checkBasicType 10 (.struct [.derived .contiguous (.named 0), .named 1, .named 2]) = some s ∧
      ¬Balanced s := by
  refine ⟨_, rfl, fun balanced => ?_⟩
  have once := balanced.once 0 (by decide)
  exact absurd once (by decide)

end Example

end FoMPI.BasicType
