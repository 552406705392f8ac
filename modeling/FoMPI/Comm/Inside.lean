import FoMPI.Comm.Model
import FoMPI.Dcache.Superposition

/-!
# Chunks and the regions of their descriptors

A call of the communication function is in order if its descriptor is that of an
attached region that holds all bytes of the call. Over more than one region this
comes down to each byte of the target lying in some region; the shortcut for one
region decides for all bytes from the displacement and the true extent, and so is
in order only if the region it takes holds the bytes of the type map.
-/
namespace FoMPI.Comm
open FoMPI.Dcache FoMPI.Foundation FoMPI.RmaNotify FoMPI.Window

/-- The descriptor is that of an attached region with all bytes of the call. -/
def Inside (regions : List Region) (i : Invocation) : Prop :=
  ∃ r ∈ regions, i.dstSeg = .region r ∧ r.covers i.chunk.targetOffset i.chunk.size

instance (regions : List Region) (i : Invocation) : Decidable (Inside regions i) :=
  inferInstanceAs (Decidable (∃ r ∈ regions, i.dstSeg = .region r ∧ r.covers i.chunk.targetOffset i.chunk.size))

variable {regions : List Region} {o t : ℤ} {f : Found} {c : Chunk} {cs : List Chunk} {r : Region}

/-- For a piece with bytes, to be covered is to have all bytes. -/
theorem covers_iff (some_bytes : 0 < c.size) (x : ℤ) :
    r.covers (x + c.targetOffset) c.size = true ↔ ∀ k : ℕ, k < c.size → r.hasByte (x + c.targetOffset + k) := by
  simp only [Region.covers, Region.hasByte, decide_eq_true_eq]
  constructor
  · intro inside k lt
    omega
  · intro all
    have first := all 0 some_bytes
    have last := all (c.size - 1) (by omega)
    omega

section BlockLoop

/-- The locals come from the call before, which found a region and at least one byte of it. -/
def Found.Sane (f : Found) : Prop := f.dstSeg = .null ∨ 0 < f.transportSize ∧ ∃ r, f.dstSeg = .region r

theorem Found.find_some {size n : ℕ} {x : ℤ} (found : findSegAndSize regions size x = some (r, n)) :
    f.find regions size x = ⟨.region r, n⟩ := by
  rw [Found.find, found]

theorem Found.find_none {size : ℕ} {x : ℤ} (found : findSegAndSize regions size x = none) :
    f.find regions size x = f := by
  rw [Found.find, found]

/-- On a block in the regions every call is in order. -/
theorem blockLoop_inside (fuel : ℕ) (covered : Covered regions t c) :
    ∀ i ∈ (blockLoop regions o t fuel f c).1, Inside regions i := by
  induction fuel generalizing f c with
  | zero => simp [blockLoop]
  | succ fuel ih =>
    rw [blockLoop]
    split
    · simp
    · rename_i more
      obtain ⟨r, n, found, -, le, mem, inside⟩ := findSegAndSize_spec covered (Nat.pos_of_ne_zero more)
      rw [Found.find_some found]
      intro i hi
      obtain rfl | hi := List.mem_cons.mp hi
      · exact ⟨r, mem, rfl, inside⟩
      · refine ih ?_ i hi
        rw [subSize, if_pos le]
        exact covered.drop

/-- On such a block the loop ends, with locals that make sense. -/
theorem blockLoop_ends (fuel : ℕ) (covered : Covered regions t c) (enough : c.size ≤ fuel)
    (sane : f.Sane) :
    ∃ f', (blockLoop regions o t fuel f c).2 = some f' ∧ f'.Sane := by
  induction fuel generalizing f c with
  | zero => exact ⟨f, by rw [blockLoop, if_pos (Nat.le_zero.mp enough)], sane⟩
  | succ fuel ih =>
    rw [blockLoop]
    split
    · exact ⟨f, rfl, sane⟩
    · rename_i more
      obtain ⟨r, n, found, pos, le, -, -⟩ := findSegAndSize_spec covered (Nat.pos_of_ne_zero more)
      rw [Found.find_some found]
      refine ih ?_ ?_ (.inr ⟨pos, r, rfl⟩)
      · rw [subSize, if_pos le]
        exact covered.drop
      · simp only [subSize, if_pos le]
        omega

/-- A call at a byte outside all regions is not in order, whatever the locals held. -/
theorem not_inside_of_find_none {size : ℕ} {x : ℤ} (found : findSegAndSize regions size x = none)
    (sane : f.Sane) (o : ℤ) : ¬Inside regions ⟨f.dstSeg, ⟨o, x, f.transportSize⟩⟩ := by
  rintro ⟨r, mem, seg, inside⟩
  obtain null | ⟨pos, -⟩ := sane
  · exact absurd (seg.symm.trans null) (by simp)
  · have outside := List.find?_eq_none.mp (Option.map_eq_none_iff.mp found) r mem
    simp only [Region.covers, Region.hasByte, decide_eq_true_eq] at inside outside
    omega

/-- What is found begins inside a region and has bytes. -/
theorem findSegAndSize_some {size n : ℕ} {x : ℤ} (found : findSegAndSize regions size x = some (r, n))
    (more : 0 < size) : r ∈ regions ∧ 0 < n ∧ n ≤ size ∧ r.covers x n := by
  obtain ⟨r', first, eq⟩ := Option.map_eq_some_iff.mp found
  obtain ⟨rfl, rfl⟩ := Prod.mk.inj eq
  have byte := List.find?_some first
  simp only [Region.hasByte, decide_eq_true_eq] at byte
  refine ⟨List.mem_of_find?_eq_some first, ?_, ?_, ?_⟩
  · split <;> omega
  · split <;> omega
  · simp only [Region.covers, decide_eq_true_eq]
    refine ⟨byte.1, ?_⟩
    split <;> omega

/-- On a block with a byte outside the regions some call is not in order. -/
theorem blockLoop_outside (fuel : ℕ) (missing : ¬Covered regions t c) (enough : c.size ≤ fuel)
    (sane : f.Sane) : ∃ i ∈ (blockLoop regions o t fuel f c).1, ¬Inside regions i := by
  induction fuel generalizing f c with
  | zero =>
    refine absurd (fun k lt => ?_) missing
    omega
  | succ fuel ih =>
    have more : c.size ≠ 0 := fun none => missing fun k lt => by omega
    rw [blockLoop, if_neg more]
    cases found : findSegAndSize regions c.size (t + c.targetOffset) with
    | none =>
      rw [Found.find_none found]
      exact ⟨_, List.mem_cons_self, not_inside_of_find_none found sane _⟩
    | some piece =>
      obtain ⟨r, n⟩ := piece
      obtain ⟨mem, pos, le, inside⟩ := findSegAndSize_some found (Nat.pos_of_ne_zero more)
      rw [Found.find_some found]
      have rest : ¬Covered regions t ⟨c.originOffset + n, c.targetOffset + n, subSize c.size n⟩ := by
        rw [subSize, if_pos le]
        refine fun covered => missing fun k lt => ?_
        by_cases front : k < n
        · refine ⟨r, mem, ?_⟩
          simp only [Region.covers, Region.hasByte, decide_eq_true_eq] at inside ⊢
          omega
        · obtain ⟨r', mem', byte⟩ := covered (k - n) (by dsimp only; omega)
          refine ⟨r', mem', ?_⟩
          have same : t + (c.targetOffset + n) + ((k - n : ℕ) : ℤ) = t + c.targetOffset + k := by omega
          rwa [same] at byte
      obtain ⟨i, hi, bad⟩ := ih (f := ⟨.region r, n⟩) rest
        (by simp only [subSize, if_pos le]; omega) (.inr ⟨pos, r, rfl⟩)
      exact ⟨i, List.mem_cons_of_mem _ hi, bad⟩

end BlockLoop

section RegionsLoop

theorem regionsLoop_inside (fuel : ℕ) (covered : ∀ c ∈ cs, Covered regions t c) :
    ∀ i ∈ regionsLoop regions o t fuel f cs, Inside regions i := by
  induction cs generalizing f with
  | nil => simp [regionsLoop]
  | cons c cs ih =>
    have first := blockLoop_inside (o := o) (f := f) fuel (covered c List.mem_cons_self)
    rw [regionsLoop]
    split
    · intro i hi
      obtain hi | hi := List.mem_append.mp hi
      · exact first i hi
      · exact ih (fun c hc => covered c (List.mem_cons_of_mem _ hc)) i hi
    · exact first

/-- The calls up to the first block with a byte outside come to an end, and that block does not pass. -/
theorem regionsLoop_outside (sane : f.Sane) (missing : ∃ c ∈ cs, ¬Covered regions t c) :
    ∃ fuel, ∃ i ∈ regionsLoop regions o t fuel f cs, ¬Inside regions i := by
  obtain ⟨fuel, enough⟩ : ∃ fuel, ∀ c ∈ cs, c.size ≤ fuel :=
    ⟨(cs.map Chunk.size).sum, fun c hc => List.le_sum_of_mem (List.mem_map_of_mem hc)⟩
  refine ⟨fuel, ?_⟩
  induction cs generalizing f with
  | nil => simp at missing
  | cons c cs ih =>
    have short := enough c List.mem_cons_self
    rw [regionsLoop]
    by_cases covered : Covered regions t c
    · obtain ⟨f', ends, sane'⟩ := blockLoop_ends (o := o) fuel covered short sane
      have rest : ∃ c ∈ cs, ¬Covered regions t c := by
        obtain ⟨d, hd, bad⟩ := missing
        obtain rfl | hd := List.mem_cons.mp hd
        · exact absurd covered bad
        · exact ⟨d, hd, bad⟩
      obtain ⟨i, hi, bad⟩ := ih sane' rest fun c hc => enough c (List.mem_cons_of_mem _ hc)
      rw [ends]
      exact ⟨i, List.mem_append_right _ hi, bad⟩
    · obtain ⟨i, hi, bad⟩ := blockLoop_outside (o := o) fuel covered short sane
      split
      · exact ⟨i, List.mem_append_left _ hi, bad⟩
      · exact ⟨i, hi, bad⟩

end RegionsLoop

section Dynamic

variable {ι : Type*} [DecidableEq ι] (D : Datatypes ι) (W : Win) (a : Args ι) (layout : Layout ι)

/-- Where the shortcut takes a region, that region holds all bytes of the type map; where it takes
none, each byte lies in some region. -/
def RegionsHold : Prop :=
  match wholeRegion W.remoteMemRegions (targetOffset W a) (targetCountExtent D a) with
  | some r => ∀ x ∈ bytes (layout a.target.1 a.target.2), r.hasByte (targetOffset W a + x)
  | none => ∀ x ∈ bytes (layout a.target.1 a.target.2),
    ∃ r ∈ W.remoteMemRegions, r.hasByte (targetOffset W a + x)

variable {D W a layout} {cache : GlobInfo ι}

/-- A dynamic window has no fast path. -/
theorem fastPath_dynamic (dynamic : W.locality.dynamic = true) : fastPath D W a = none := by
  rw [fastPath, if_pos dynamic]

theorem wholeRegion_mem {x extent : ℤ} (taken : wholeRegion regions x extent = some r) : r ∈ regions :=
  (List.mem_filter.mp (List.mem_of_getLast? taken)).1

omit [DecidableEq ι] in
theorem RegionsHold.congr {layout' : Layout ι}
    (same : layout a.target.1 a.target.2 = layout' a.target.1 a.target.2) :
    RegionsHold D W a layout ↔ RegionsHold D W a layout' := by
  rw [RegionsHold, RegionsHold, same]

end Dynamic

section Runs

/-- Eight bytes at the address, or eight bytes in front of it. -/
def backward : Layout Bool := fun type _ => if type then [⟨0, 8⟩] else [⟨-8, 8⟩]

def eightBytes : Datatypes Bool := ⟨fun _ => none, fun _ => 8, fun _ => 8⟩

/-- A dynamic window with two regions of eight bytes next to each other. -/
def neighbours : Win :=
  ⟨⟨true, -1, -1, []⟩, 1, 0, 1, 0, ⟨0, 0⟩, [⟨992, 8⟩, ⟨1000, 8⟩], []⟩

/-- One element at the displacement, of either type at the target. -/
def access (type : Bool) (disp : ℤ) : Args Bool := Args.single true type 0 disp

def cold : GlobInfo Bool := dcacheInit fun _ => ⟨[], 0, none, 0, 0, 0⟩

end Runs

end FoMPI.Comm
