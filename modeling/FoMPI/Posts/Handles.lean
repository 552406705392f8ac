import FoMPI.Posts.Alignment

/-!
# Local handles of uGNI transfers

`ugni_simple_rma` takes the handle of the segment it is given if the first address of the
buffer passes `_foMPI_is_addr_in_seg`, which looks neither at the length nor, at the end
of a segment, for a first byte inside. Any other buffer is registered for the transfer.
-/
namespace FoMPI.Posts
open FoMPI.Dcache FoMPI.Foundation FoMPI.RmaNotify FoMPI.Window
open FoMPI.Notif (anyTag)

variable {ι : Type*} [DecidableEq ι] {D : Datatypes ι} {W : Win} {layout : Layout ι} {a : Request ι} {fuel : ℕ}
  {cache cache' : GlobInfo ι} {calls : List Call} {operation : Operation} {x : Span} {seg : Option Segment} {tag : ℤ}

/-- The segment contains `n` bytes at `addr`. -/
def Contains (s : Segment) (addr : ℤ) (n : ℕ) : Prop := s.addr ≤ addr ∧ addr + n ≤ s.addr + s.size

/-- A transfer of some bytes that needs a local handle has one whose registration holds its buffer. -/
def Descriptor.Registered (d : Descriptor) : Prop :=
  1 ≤ d.length → d.operation = .get ∨ rdmaThreshold ≤ d.length →
    ∃ s, d.localMemHndl = some s ∧ Contains s d.localAddr d.length

/-- The size of a put did not come out negative, and a buffer that needs the segment does not begin in
it, or right behind it, and end beyond it. -/
structure Within (operation : Operation) (x : Span) (seg : Option Segment) : Prop where
  nonneg : operation = .put → 0 ≤ x.size
  ends : ∀ s, seg = some s → s.hasAddr x.originOffset → 1 ≤ x.length → (operation = .put → rdmaThreshold ≤ x.size) →
    x.originOffset + x.length ≤ s.addr + s.size

/-- Sizes that the routines hand to `ugni_simple_rma`. -/
structure Ranged (x : Span) : Prop where
  lower : -2147483648 ≤ x.size
  upper : x.size < 4294967295

theorem Ranged.length_nonneg (ranged : Ranged x) (nonneg : 0 ≤ x.size) : (x.length : ℤ) = x.size := by
  have := ranged.upper
  unfold Span.length
  omega

theorem Ranged.length_neg (ranged : Ranged x) (neg : x.size < 0) : 4294967295 ≤ x.length := by
  have := ranged.lower
  unfold Span.length
  omega

theorem hasAddr_iff {s : Segment} {addr : ℤ} : s.hasAddr addr ↔ s.addr ≤ addr ∧ addr ≤ s.addr + s.size := by
  simp [Segment.hasAddr]

/-- A buffer that is registered for the transfer is registered as a whole. -/
theorem temporary_contains (x : Span) : Contains ⟨x.originOffset, x.length⟩ x.originOffset x.length :=
  ⟨le_refl _, le_refl _⟩

section Descriptor

/-- A short put has no local handle. -/
theorem registered_short (ranged : Ranged x) (short : x.size < rdmaThreshold) :
    (ugniSimpleRma .put x seg tag).1.Registered ↔ Within .put x seg := by
  have handle : (ugniSimpleRma .put x seg tag).1.localMemHndl = none := by
    simp [ugniSimpleRma, short]
  constructor
  · intro registered
    have nonneg : 0 ≤ x.size := by
      by_contra negative
      have long := ranged.length_neg (not_le.mp negative)
      obtain ⟨s, found, -⟩ := registered (long.trans' (by decide)) (.inr (long.trans' (by decide)))
      rw [handle] at found
      contradiction
    exact ⟨fun _ => nonneg, fun _ _ _ _ long => absurd short (not_lt.mpr (long rfl))⟩
  · intro within _ needs
    have length := ranged.length_nonneg (within.nonneg rfl)
    have long : rdmaThreshold ≤ x.length := needs.resolve_left (by simp [ugniSimpleRma])
    omega

/-- Everything else has the handle of the segment or that of its own registration. -/
theorem registered_long (ranged : Ranged x) (long : operation = .put → rdmaThreshold ≤ x.size) :
    (ugniSimpleRma operation x seg tag).1.Registered ↔ Within operation x seg := by
  have handle : (ugniSimpleRma operation x seg tag).1.localMemHndl =
      some ((seg.filter fun s => s.hasAddr x.originOffset).getD ⟨x.originOffset, x.length⟩) := by
    unfold ugniSimpleRma
    rw [if_neg fun h => absurd h.1 (not_lt.mpr (long h.2))]
    cases seg.filter fun s => s.hasAddr x.originOffset <;> rfl
  have nonneg (isPut : operation = .put) : 0 ≤ x.size := (long isPut).trans' (by decide)
  have needs : operation = .get ∨ rdmaThreshold ≤ x.length := by
    cases operation with
    | get => exact .inl rfl
    | put =>
      have length := ranged.length_nonneg (nonneg rfl)
      have := long rfl
      exact .inr (by omega)
  constructor
  · intro registered
    refine ⟨nonneg, fun s passed starts some_bytes _ => ?_⟩
    obtain ⟨s', found, contains⟩ := registered some_bytes needs
    rw [handle, passed, Option.filter_some, if_pos starts] at found
    obtain rfl := Option.some.inj found
    exact contains.2
  · intro within some_bytes _
    refine ⟨_, handle, ?_⟩
    cases passed : seg.filter fun s => s.hasAddr x.originOffset with
    | none => exact temporary_contains x
    | some s =>
      obtain ⟨given, starts⟩ := Option.filter_eq_some_iff.mp passed
      exact ⟨(hasAddr_iff.mp starts).1, within.ends s given starts some_bytes long⟩

theorem registered_iff (ranged : Ranged x) :
    (ugniSimpleRma operation x seg tag).1.Registered ↔ Within operation x seg := by
  by_cases short : operation = .put ∧ x.size < rdmaThreshold
  · obtain ⟨rfl, short⟩ := short
    exact registered_short ranged short
  · exact registered_long ranged fun isPut => not_lt.mp fun lt => short ⟨isPut, lt⟩

end Descriptor

section Routines

theorem putDirect_lt (passed : putDirect x) : x.size < 4294967295 := by
  have : x.size < maxRdmaTransferLength := by simpa [putDirect] using passed
  simpa [maxRdmaTransferLength] using this

theorem getDirect_lt (passed : getDirect seg x) : x.size < 4294967295 := by
  simp only [getDirect, Bool.and_eq_true] at passed
  exact putDirect_lt passed.1.2

/-- The size of one block is a product in an `int` or the length of a block. -/
theorem single_lower {t : ℤ} (one : single D W layout a t = some x) : -2147483648 ≤ x.size := by
  unfold single at one
  cases fast : fastPath D W a with
  | some size =>
    rw [fast] at one
    obtain rfl := Option.some.inj one
    unfold fastPath at fast
    split at fast
    · contradiction
    · split at fast
      · obtain ⟨k, -, rfl⟩ := Option.map_eq_some_iff.mp fast
        exact Int.le_bmod (by decide)
      · contradiction
  | none =>
    rw [fast] at one
    dsimp only at one
    split at one
    · split at one
      · obtain rfl := Option.some.inj one
        exact (Int.natCast_nonneg _).trans' (by decide)
      · contradiction
    · contradiction

theorem eligible_ranged (passed : eligible D W layout a = some x) : Ranged x := by
  obtain ⟨one, test⟩ := Option.filter_eq_some_iff.mp passed
  refine ⟨single_lower one, ?_⟩
  unfold direct at test
  cases operation : a.operation with
  | put =>
    rw [operation] at test
    exact putDirect_lt test
  | get =>
    rw [operation] at test
    exact getDirect_lt test

/-- For every state of the datatype cache, every window and every request: whatever the call posts has a
local handle that covers its buffer, exactly if the transfer that is posted stays within the segment it
begins in. -/
theorem handles_cover_iff {memory : Fin 10 → DcacheBlocks ι} {before : Layout ι} {s : Dcache.State ι}
    (history : Reach step Fitting ⟨dcacheInit memory, before⟩ s)
    (positive : Positive (s.layout a.origin.1 a.origin.2))
    (run : notify D W s.layout a fuel s.cache = some (cache', calls)) :
    (∀ d ∈ posted calls, d.Registered) ↔
      (ViaUgni W a → ∀ x, eligible D W s.layout a = some x → Within a.operation x (srcSegPtr D W a)) := by
  obtain ⟨good, rests⟩ := reach_rests history
  by_cases passed : ViaUgni W a ∧ ∃ x, eligible D W s.layout a = some x
  · obtain ⟨ugni, x, passed⟩ := passed
    obtain rfl := (notify_spec good rests positive ugni run).1 x passed
    have covers : (ugniSimpleRma a.operation x (srcSegPtr D W a) a.tag).1.Registered ↔
        Within a.operation x (srcSegPtr D W a) := registered_iff (eligible_ranged passed)
    constructor
    · rintro registered - y same
      obtain rfl := Option.some.inj (passed.symm.trans same)
      exact covers.mp (registered _ (List.mem_singleton_self _))
    · intro within d mem
      obtain rfl := List.mem_singleton.mp mem
      exact covers.mpr (within ugni x passed)
  · refine iff_of_true (fun d mem some_bytes => ?_) fun ugni x same => absurd ⟨ugni, x, same⟩ passed
    have none (ugni : ViaUgni W a) : eligible D W s.layout a = none :=
      Option.eq_none_iff_forall_ne_some.mpr fun x same => passed ⟨ugni, x, same⟩
    have empty := (posted_nothing good rests positive run none mem).2
    omega

end Routines

section Runs

/-- A get into a buffer right behind the own window takes the handle of the window. -/
theorem handles_cover_fails : ∃ calls,
    notify chars twoNodes charLayout (getChars 8256 64) 0 (coldCache Unit) = some (coldCache Unit, calls) ∧
      (∃ d ∈ posted calls, d.localMemHndl = some ⟨8192, 64⟩ ∧ d.localAddr = 8256 ∧ d.length = 64) ∧
      ¬∀ d ∈ posted calls, d.Registered := by
  have run : notify chars twoNodes charLayout (getChars 8256 64) 0 (coldCache Unit) =
      some (coldCache Unit, [.ugniSimple .get ⟨8256, 4096, 64⟩ (some twoNodes.ownSeg) 7]) := rfl
  refine ⟨_, run, ⟨_, List.mem_singleton_self _, rfl, rfl, rfl⟩, fun registered => ?_⟩
  obtain ⟨s, found, contains⟩ := registered _ (List.mem_singleton_self _) (by decide) (.inl rfl)
  obtain rfl : (⟨8192, 64⟩ : Segment) = s := Option.some.inj found
  exact absurd contains.2 (by decide)

/-- A get into the last bytes of the window. -/
theorem handles_cover_last : ∃ calls,
    notify chars twoNodes charLayout (getChars 8252 4) 0 (coldCache Unit) = some (coldCache Unit, calls) ∧
      ∀ d ∈ posted calls, d.Registered := by
  have run : notify chars twoNodes charLayout (getChars 8252 4) 0 (coldCache Unit) =
      some (coldCache Unit, [.ugniSimple .get ⟨8252, 4096, 4⟩ (some twoNodes.ownSeg) 7]) := rfl
  refine ⟨_, run, (handles_cover_iff (s := ⟨coldCache Unit, charLayout⟩) .refl ?_ run).mpr ?_⟩
  · simp [Positive, charLayout, getChars]
  · rintro - x same
    obtain rfl : (⟨8252, 4096, 4⟩ : Span) = x := Option.some.inj same
    refine ⟨fun isPut => by contradiction, fun s passed _ _ _ => ?_⟩
    obtain rfl : (⟨8192, 64⟩ : Segment) = s := Option.some.inj passed
    decide

end Runs

end FoMPI.Posts
