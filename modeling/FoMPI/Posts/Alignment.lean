import FoMPI.Posts.Posted
import FoMPI.RmaNotify.Order

/-!
# Alignment of uGNI gets

A get needs both of its addresses and its length to be multiples of four. The test that
chooses between a uGNI get and a DMAPP get looks at the addresses and not at the length.
-/
namespace FoMPI.Posts
open FoMPI.Dcache FoMPI.Foundation FoMPI.RmaNotify FoMPI.Window
open FoMPI.Notif (anyTag)

/-- What the hardware asks of a get. -/
structure Descriptor.Aligned (d : Descriptor) : Prop where
  remoteAddr : 4 ∣ d.remoteAddr
  localAddr : 4 ∣ d.localAddr
  length : 4 ∣ d.length

variable {ι : Type*} [DecidableEq ι] {D : Datatypes ι} {W : Win} {layout : Layout ι} {a : Request ι} {fuel : ℕ}
  {cache cache' : GlobInfo ι} {calls : List Call}

/-- Every get that is posted is aligned. A notified transfer without one is moved as `foMPI_Get` moves
it through DMAPP, and a flush and a put of nothing with the notification follow. -/
structure GetsAligned (D : Datatypes ι) (W : Win) (layout : Layout ι) (a : Request ι) (fuel : ℕ)
    (cache : GlobInfo ι) (calls : List Call) : Prop where
  posted : ∀ d ∈ posted calls, d.operation = .get → d.Aligned
  moved : ViaUgni W a → (∀ d ∈ Posts.posted calls, d.operation ≠ .get) → ∃ cache' moves,
    communicationAndDatatypeHandling D W layout a fuel (.dmappSimple .get) cache = some (cache', moves) ∧
      Follows moves (srcSegPtr D W a) a.tag calls

theorem Span.dvd_length {x : Span} : 4 ∣ x.length ↔ 4 ∣ x.size := by
  unfold Span.length
  omega

theorem dvd_of_isAligned {x : ℤ} (aligned : isAligned x) : 4 ∣ x :=
  Int.dvd_of_emod_eq_zero (by simpa [isAligned] using aligned)

/-- A get that passed the test is aligned up to its length. -/
theorem aligned_iff {x : Span} (isGet : a.operation = .get) (passed : eligible D W layout a = some x) :
    (ugniSimpleRma a.operation x (srcSegPtr D W a) a.tag).1.Aligned ↔ 4 ∣ x.size := by
  have test := (Option.filter_eq_some_iff.mp passed).2
  simp only [direct, isGet, getDirect, Bool.and_eq_true] at test
  obtain ⟨⟨⟨origin, target⟩, -⟩, -⟩ := test
  constructor
  · intro aligned
    exact Span.dvd_length.mp aligned.length
  · intro size
    exact ⟨dvd_of_isAligned target, dvd_of_isAligned origin, Span.dvd_length.mpr size⟩

/-- For every state of the datatype cache, every window and every request of `foMPI_Get_notify`: the
gets that the call posts are aligned, and what is not posted is moved through DMAPP, exactly if the
transfer that passes the test of the routine has a size that is a multiple of four. -/
theorem getsAligned_iff {memory : Fin 10 → DcacheBlocks ι} {before : Layout ι} {s : Dcache.State ι}
    (history : Reach step Fitting ⟨dcacheInit memory, before⟩ s)
    (positive : Positive (s.layout a.origin.1 a.origin.2)) (isGet : a.operation = .get)
    (run : notify D W s.layout a fuel s.cache = some (cache', calls)) :
    GetsAligned D W s.layout a fuel s.cache calls ↔
      (ViaUgni W a → ∀ x, eligible D W s.layout a = some x → 4 ∣ x.size) := by
  obtain ⟨good, rests⟩ := reach_rests history
  by_cases ugni : ViaUgni W a
  · obtain ⟨whole, parts⟩ := notify_spec good rests positive ugni run
    cases passed : eligible D W s.layout a with
    | some x =>
      have aligned := aligned_iff isGet passed
      obtain rfl := whole x passed
      constructor
      · rintro rules - y same
        obtain rfl := Option.some.inj same
        exact aligned.mp (rules.posted _ (List.mem_singleton_self _) isGet)
      · intro size
        refine ⟨fun d posted _ => ?_, fun _ noGet => absurd isGet (noGet _ (List.mem_singleton_self _))⟩
        obtain rfl := List.mem_singleton.mp posted
        exact aligned.mpr (size ugni x rfl)
    | none =>
      obtain ⟨moves, handled, follows⟩ := parts passed
      rw [isGet] at handled
      refine iff_of_true ⟨fun d mem get => ?_, fun _ _ => ⟨_, moves, handled, follows⟩⟩ fun _ x same => by simp at same
      have put := (posted_nothing good rests positive run (fun _ => passed) mem).1
      rw [get] at put
      contradiction
  · refine iff_of_true ⟨fun d mem _ => ?_, fun h => absurd h ugni⟩ fun h => absurd h ugni
    rw [posted_notify ugni run] at mem
    contradiction

section Runs

/-- Any type here is `MPI_CHAR`. -/
def chars : Datatypes Unit := ⟨fun _ => some .char, fun _ => 1, fun _ => 1⟩

def charLayout : Layout Unit := fun _ n => if n ≤ 0 then [] else [⟨0, n.toNat⟩]

/-- A get of `n` characters with tag 7; the own window begins at 8192. -/
def getChars (origin n : ℤ) : Request Unit := ⟨.get, origin, ((), n), 1, 0, ((), n), 7⟩

/-- A get of three characters is posted with a length of three. -/
theorem getsAligned_fails : ∃ calls,
    notify chars twoNodes charLayout (getChars 8192 3) 0 (coldCache Unit) = some (coldCache Unit, calls) ∧
      (∃ d ∈ posted calls, d.operation = .get ∧ d.length = 3) ∧
      ¬GetsAligned chars twoNodes charLayout (getChars 8192 3) 0 (coldCache Unit) calls := by
  have run : notify chars twoNodes charLayout (getChars 8192 3) 0 (coldCache Unit) =
      some (coldCache Unit, [.ugniSimple .get ⟨8192, 4096, 3⟩ (some twoNodes.ownSeg) 7]) := rfl
  refine ⟨_, run, ⟨_, List.mem_singleton_self _, rfl, rfl⟩, fun rules => ?_⟩
  exact absurd (rules.posted _ (List.mem_singleton_self _) rfl).length (by decide)

/-- A get of twelve. -/
theorem getsAligned_twelve : ∃ calls,
    notify chars twoNodes charLayout (getChars 8192 12) 0 (coldCache Unit) = some (coldCache Unit, calls) ∧
      GetsAligned chars twoNodes charLayout (getChars 8192 12) 0 (coldCache Unit) calls := by
  have run : notify chars twoNodes charLayout (getChars 8192 12) 0 (coldCache Unit) =
      some (coldCache Unit, [.ugniSimple .get ⟨8192, 4096, 12⟩ (some twoNodes.ownSeg) 7]) := rfl
  refine ⟨_, run, (getsAligned_iff (s := ⟨coldCache Unit, charLayout⟩) .refl ?_ rfl run).mpr ?_⟩
  · simp [Positive, charLayout, getChars]
  · rintro - x same
    obtain rfl : (⟨8192, 4096, 12⟩ : Span) = x := Option.some.inj same
    decide

end Runs

end FoMPI.Posts
