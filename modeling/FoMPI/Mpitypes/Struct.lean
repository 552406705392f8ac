import FoMPI.Mpitypes.Create
import FoMPI.Mpitypes.Flatten

/-!
# Dataloops of structs

`Dataloop_create_struct` with the flag `DLOOP_DATALOOP_HOMOGENEOUS`. One block is a block of its type, and
blocks of one type are indexed blocks of it. Others are taken apart into bytes: those of predefined
types at once, and derived ones by walks through their loops that count the regions first and then flatten
them.
-/
namespace FoMPI.Mpitypes
open FoMPI.Foundation

/-- A block of a struct; `oldtype` stands for the handle of its type. -/
structure Member (ι : Type) where
  blklen : ℕ
  disp : ℤ
  oldtype : ι
  deriving DecidableEq, Repr

section Model
variable {ι : Type} [DecidableEq ι]

/-- `first_basic` or `first_derived`: the type of all blocks, if it is one. -/
def uniqueType : List (Member ι) → Option ι
  | [] => none
  | m :: ms => if ∀ other ∈ ms, other.oldtype = m.oldtype then some m.oldtype else none

/-- `DLOOP_Dataloop_create_unique_type_struct`. -/
def dataloopCreateUniqueTypeStruct (types : ι → Handle) (members : List (Member ι)) (oldtype : ι) : Option Dataloop :=
  let fromTypePos := members.dropWhile fun m => m.blklen = 0
  let tmp := (fromTypePos.filter fun m => m.oldtype = oldtype).map fun m => Row.mk m.blklen m.disp
  dataloopCreateIndexed tmp true (types oldtype)

/-- `DLOOP_Dataloop_create_basic_all_bytes_struct`. -/
def dataloopCreateBasicAllBytesStruct (types : ι → Handle) (members : List (Member ι)) : Option Dataloop :=
  let tmp := (members.filter fun m => m.blklen ≠ 0).map fun m => Row.mk ((types m.oldtype).size * m.blklen) m.disp
  dataloopCreateIndexed tmp true .mpiByte

/-- The loop of `DLOOP_Dataloop_create_flattened_struct` that counts contiguous regions; `stack` is that of `segp`. -/
def countRegions (fuel : ℕ) (types : ι → Handle) : List (Member ι) → (ℕ → Stackelm) → ℤ → Option ((ℕ → Stackelm) × ℤ)
  | [], stack, nrBlks => some (stack, nrBlks)
  | m :: ms, stack, nrBlks =>
    let type := types m.oldtype
    if m.blklen = 0 then countRegions fuel types ms stack nrBlks
    else if type.loop.isNone then countRegions fuel types ms stack (nrBlks + 1)
    else if type.size = 0 then countRegions fuel types ms stack nrBlks
    else
      (segmentInit 0 m.blklen type stack).bind fun segp =>
        (segmentCountContigBlocks fuel segp 0 ignoreLast).bind fun (segp, _, tmpNrBlks) =>
          countRegions fuel types ms segp.stackelm (nrBlks + tmpNrBlks)

/-- The loop that flattens them. -/
def flattenMembers (fuel : ℕ) (types : ι → Handle) (nrBlks : ℕ) :
    List (Member ι) → (ℕ → Stackelm) → List Block → Option (List Block)
  | [], _, entries => some entries
  | m :: ms, stack, entries =>
    let type := types m.oldtype
    if m.blklen ≠ 0 ∧ (type.loop.isNone ∨ 0 < type.size) then
      (segmentInit m.disp m.blklen type stack).bind fun segp =>
        (segmentMpiFlatten fuel segp 0 ignoreLast (nrBlks - entries.length)).bind fun (segp, _, more) =>
          flattenMembers fuel types nrBlks ms segp.stackelm (entries ++ more)
    else flattenMembers fuel types nrBlks ms stack entries

/-- `DLOOP_Dataloop_create_flattened_struct`. -/
def dataloopCreateFlattenedStruct (fuel : ℕ) (stack : ℕ → Stackelm) (types : ι → Handle) (members : List (Member ι)) :
    Option Dataloop :=
  (countRegions fuel types members stack 0).bind fun (stack, nrBlks) =>
    if nrBlks = 0 then some (dataloopCreateContiguous 0 .mpiInt)
    else
      (flattenMembers fuel types (nrBlks + 2).toNat members stack []).bind fun entries =>
        dataloopCreateIndexed (entries.map fun b => Row.mk b.blocklen b.displ) true .mpiByte

/-- `Dataloop_create_struct`. -/
def dataloopCreateStruct (fuel : ℕ) (stack : ℕ → Stackelm) (types : ι → Handle) (members : List (Member ι)) :
    Option Dataloop :=
  let blocks := members.filter fun m => m.blklen ≠ 0
  let basics := blocks.filter fun m => (types m.oldtype).loop.isNone
  let derived := blocks.filter fun m => (types m.oldtype).loop.isSome
  match blocks with
  | [] => some (dataloopCreateContiguous 0 .mpiInt)
  | [m] => some (dataloopCreateBlockindexed m.blklen [m.disp] true (types m.oldtype))
  | _ :: _ :: _ =>
    match (if derived = [] then uniqueType basics else none), (if basics = [] then uniqueType derived else none) with
    | some oldtype, _ | none, some oldtype => dataloopCreateUniqueTypeStruct types members oldtype
    | none, none =>
      if derived = [] then dataloopCreateBasicAllBytesStruct types members
      else dataloopCreateFlattenedStruct fuel stack types members

end Model

section Data
variable {ι : Type} {types : ι → Handle} {m : Member ι} {members : List (Member ι)}

/-- The bytes of a block. -/
def Member.data (types : ι → Handle) (m : Member ι) : List ℤ :=
  placed (types m.oldtype).bytes ((Row.mk m.blklen m.disp).starts (types m.oldtype).extent)

/-- The bytes of a struct. -/
def structData (types : ι → Handle) (members : List (Member ι)) : List ℤ := members.flatMap (Member.data types)

/-- The type of a block that is not empty can be made use of: `Segment_init` does not fail for it, and a walk ends. -/
structure Member.Usable (fuel : ℕ) (types : ι → Handle) (m : Member ι) : Prop where
  fit : (types m.oldtype).Fit
  shallow : ((types m.oldtype).loopOf m.blklen).depth < maxDatatypeDepth
  short : ((types m.oldtype).stream m.blklen).length < 2147483648
  enough : ((types m.oldtype).loopOf m.blklen).work < fuel

theorem Member.data_of_empty (empty : m.blklen = 0) : m.data types = [] := by
  rw [Member.data, empty, Row.starts_zero, placed_nil]

theorem structData_filter (types : ι → Handle) (members : List (Member ι)) :
    structData types (members.filter fun m => m.blklen ≠ 0) = structData types members := by
  induction members with
  | nil => rfl
  | cons m members ih =>
    unfold structData at ih ⊢
    by_cases empty : m.blklen = 0
    · rw [List.filter_cons_of_neg (by simpa using empty), ih, List.flatMap_cons, Member.data_of_empty empty,
        List.nil_append]
    · rw [List.filter_cons_of_pos (by simpa using empty), List.flatMap_cons, ih, List.flatMap_cons]

/-- A block is a stream of items at its displacement. -/
theorem map_stream (h : Handle) (n : ℕ) (d : ℤ) :
    (h.stream n).map (d + ·) = placed h.bytes ((Row.mk n d).starts h.extent) := by
  simp only [Handle.stream, placed, Row.starts, List.map_flatMap, List.flatMap_map, List.map_map]
  congr 1
  funext i
  refine List.map_congr_left fun x _ => ?_
  simp only [Function.comp_apply]
  ring

theorem Member.data_eq : m.data types = ((types m.oldtype).stream m.blklen).map (m.disp + ·) := (map_stream _ _ _).symm

theorem merged_loopOf {h : Handle} (merged : ∀ d, h.loop = some d → Merged d.leaf.1 d.leaf.2) {count : ℕ}
    (some_items : 0 < count) :
    Merged (h.loopOf count).leaf.1 h.elSize := by
  unfold Handle.loopOf Handle.elSize
  cases loop : h.loop with
  | none => trivial
  | some d =>
    have merged := merged d loop
    dsimp only
    rw [if_neg some_items.ne']
    split
    · exact merged
    · match d, merged with
      | .final (.contig c) elSize elExtent, merged =>
        dsimp only
        split
        · trivial
        · trivial
      | .final (.vector _ _ _) elSize elExtent, merged => exact merged
      | .final (.blockindexed _ _ _) elSize elExtent, merged => exact merged
      | .final (.indexed _ _ _ _) elSize elExtent, merged => exact merged
      | .nested l elSize elExtent d, merged => exact merged

theorem Member.Usable.stream_pos {fuel : ℕ} (usable : m.Usable fuel types) (some_items : m.blklen ≠ 0) :
    0 < ((types m.oldtype).stream m.blklen).length := by
  rw [usable.fit.sound.length_stream]
  exact Nat.mul_pos (Nat.pos_of_ne_zero some_items) usable.fit.sound.size_pos

theorem Member.Usable.data_ne_nil {fuel : ℕ} (usable : m.Usable fuel types) (some_items : m.blklen ≠ 0) :
    m.data types ≠ [] := by
  have pos := usable.stream_pos some_items
  apply List.ne_nil_of_length_pos
  rwa [Member.data_eq, List.length_map]

theorem between_ignoreLast (size : ℕ) (stream : List ℤ) : between 0 ignoreLast size stream = stream := by
  simp [between]

end Data

section Regions
variable {ι : Type} {types : ι → Handle} {m : Member ι} {ms : List (Member ι)} {fuel : ℕ}

/-- How many regions the blocks have, if those of different blocks are not merged. -/
def regions (types : ι → Handle) (ms : List (Member ι)) : List Block := ms.flatMap fun m => runs (m.data types)

theorem bytes_regions : bytes (regions types ms) = structData types ms := by
  simp only [bytes, regions, structData, List.flatMap_assoc]
  exact List.flatMap_congr fun m _ => bytes_runs _

theorem positive_regions : Positive (regions types ms) := by
  intro b mem
  obtain ⟨m, -, inside⟩ := List.mem_flatMap.mp mem
  exact runs_positive _ b inside

/-- A block of a predefined type is one region. -/
theorem runs_builtin (usable : m.Usable fuel types) (some_items : m.blklen ≠ 0)
    (builtin : (types m.oldtype).loop = none) :
    (runs (m.data types)).length = 1 := by
  obtain ⟨pos, contiguous⟩ := usable.fit.sound.intrinsic builtin
  have whole : m.data types = bytes [⟨m.disp, m.blklen * (types m.oldtype).size⟩] := by
    rw [Member.data, Handle.bytes, builtin, contiguous]
    exact placed_block.trans (List.append_nil _).symm
  have positive : Positive [Block.mk m.disp (m.blklen * (types m.oldtype).size)] :=
    List.forall_mem_singleton.mpr (Nat.mul_pos (Nat.pos_of_ne_zero some_items) pos)
  rw [whole, runs_bytes positive (List.isChain_singleton _)]
  rfl

theorem countRegions_spec (usable : ∀ m ∈ ms, m.blklen ≠ 0 → m.Usable fuel types) (stack : ℕ → Stackelm) (nrBlks : ℤ) :
    ∃ stack', countRegions fuel types ms stack nrBlks = some (stack', nrBlks + (regions types ms).length) := by
  induction ms generalizing stack nrBlks with
  | nil => exact ⟨stack, by simp [countRegions, regions]⟩
  | cons m ms ih =>
    have ih := ih fun m mem => usable m (List.mem_cons_of_mem _ mem)
    have length : ((regions types (m :: ms)).length : ℤ) =
        (runs (m.data types)).length + (regions types ms).length := by
      simp [regions]
    rw [countRegions, length]
    by_cases empty : m.blklen = 0
    · have none : (runs (m.data types)).length = 0 := by rw [Member.data_of_empty empty]; rfl
      rw [if_pos empty, none, Nat.cast_zero, zero_add]
      exact ih stack nrBlks
    have usable := usable m List.mem_cons_self empty
    rw [if_neg empty]
    cases loop : (types m.oldtype).loop with
    | none =>
      obtain ⟨stack', run⟩ := ih stack (nrBlks + 1)
      refine ⟨stack', ?_⟩
      rw [Option.isNone_none, if_pos rfl, run, runs_builtin usable empty loop, Nat.cast_one, add_assoc]
    | some d =>
      have some_items := Nat.pos_of_ne_zero empty
      have inside : (0 : ℤ) < ((types m.oldtype).stream m.blklen).length := by exact_mod_cast usable.stream_pos empty
      obtain ⟨s, t, k, init, count, -, exact⟩ := count_spec usable.fit.sound some_items usable.shallow
        (merged_loopOf usable.fit.merged some_items) le_rfl (dvd_zero _) inside usable.short (.inl rfl)
        usable.enough stack
      rw [between_ignoreLast] at exact count
      have same : (runs (m.data types)).length = (runs ((types m.oldtype).stream m.blklen)).length := by
        rw [Member.data_eq, runs_shift, List.length_map]
      obtain ⟨stack', run⟩ := ih t.stackelm (nrBlks + k)
      refine ⟨stack', ?_⟩
      rw [Option.isNone_some, if_neg Bool.false_ne_true, if_neg usable.fit.sound.size_pos.ne', init,
        Option.bind_some, count,
        Option.bind_some]
      dsimp only
      rw [run, exact (.inl rfl), same, add_assoc]

theorem flattenMembers_spec (usable : ∀ m ∈ ms, m.blklen ≠ 0 → m.Usable fuel types) {nrBlks : ℕ} (stack : ℕ → Stackelm)
    (entries : List Block) (room : entries.length + (regions types ms).length < nrBlks) :
    flattenMembers fuel types nrBlks ms stack entries = some (entries ++ regions types ms) := by
  induction ms generalizing stack entries with
  | nil => simp [flattenMembers, regions]
  | cons m ms ih =>
    have ih := ih fun m mem => usable m (List.mem_cons_of_mem _ mem)
    have split : regions types (m :: ms) = runs (m.data types) ++ regions types ms := rfl
    rw [split, List.length_append] at room
    rw [flattenMembers, split]
    by_cases empty : m.blklen = 0
    · have none : runs (m.data types) = [] := by rw [Member.data_of_empty empty]; rfl
      rw [if_neg fun both => both.1 empty, none, List.nil_append]
      exact ih stack entries (by omega)
    have usable := usable m List.mem_cons_self empty
    have inside : (0 : ℤ) < ((types m.oldtype).stream m.blklen).length := by exact_mod_cast usable.stream_pos empty
    obtain ⟨s, t, init, run⟩ := flatten_spec usable.fit.sound (Nat.pos_of_ne_zero empty) usable.shallow le_rfl
      (dvd_zero _) inside usable.short
      (.inl rfl) (show 0 < nrBlks - entries.length by omega) usable.enough m.disp stack
    rw [between_ignoreLast, ← Member.data_eq, List.take_of_length_le (by omega)] at run
    have room' : (entries ++ runs (m.data types)).length + (regions types ms).length < nrBlks := by
      rw [List.length_append]
      omega
    rw [if_pos ⟨empty, .inr usable.fit.sound.size_pos⟩, init, Option.bind_some, run, Option.bind_some]
    dsimp only
    rw [ih t.stackelm _ room', List.append_assoc]

end Regions

section Bytes
variable {bs : List Block}

theorem mpiByte_fit : Handle.mpiByte.Fit where
  sound := ⟨fun _ => ⟨Nat.one_pos, rfl⟩, fun _ loop => (Option.some_ne_none _ loop.symm).elim⟩
  merged _ loop := (Option.some_ne_none _ loop.symm).elim
  dense _ _ _ _ loop := (Option.some_ne_none _ loop.symm).elim

def rowOf (b : Block) : Row := ⟨b.blocklen, b.displ⟩

theorem starts_blocks (bs : List Block) : starts 1 (bs.map rowOf) = bytes bs := by
  rw [starts, List.flatMap_map, bytes]
  refine List.flatMap_congr fun b _ => ?_
  simp [rowOf, Row.starts, Block.bytes]

/-- Indexed blocks of bytes. -/
theorem indexed_bytes (some_blocks : bs ≠ []) (positive : Positive bs) :
    ∃ d, dataloopCreateIndexed (bs.map rowOf) true .mpiByte = some d ∧ Built (bytes bs) d := by
  have some_bytes : ∀ row ∈ bs.map rowOf, row.count ≠ 0 := fun row mem => by
    obtain ⟨b, inside, rfl⟩ := List.mem_map.mp mem
    exact (positive b inside).ne'
  obtain ⟨b, mem⟩ := List.exists_mem_of_ne_nil bs some_blocks
  obtain ⟨d, run, shaped⟩ := indexed_spec mpiByte_fit.sound
    ⟨rowOf b, List.mem_map_of_mem mem, some_bytes _ (List.mem_map_of_mem mem)⟩
    (.inl rfl) fun _ row first => some_bytes row (List.mem_of_head? first)
  have built := shaped.built mpiByte_fit
  have byte : Handle.mpiByte.bytes = [0] := rfl
  have extent : Handle.mpiByte.extent = 1 := rfl
  have same : (bs.map rowOf).map (inBytes true Handle.mpiByte.extent) = bs.map rowOf := List.map_id _
  rw [byte, placed_byte, same, extent, starts_blocks] at built
  exact ⟨d, run, built⟩

end Bytes

section Struct
variable {ι : Type} {types : ι → Handle} {m : Member ι} {members : List (Member ι)} {fuel : ℕ}

theorem flattened_spec (usable : ∀ m ∈ members, m.blklen ≠ 0 → m.Usable fuel types)
    (some_items : ∃ m ∈ members, m.blklen ≠ 0)
    (stack : ℕ → Stackelm) :
    ∃ d, dataloopCreateFlattenedStruct fuel stack types members = some d ∧ Built (structData types members) d := by
  obtain ⟨stack', count⟩ := countRegions_spec usable stack 0
  have room : ([] : List Block).length + (regions types members).length < (regions types members).length + 2 := by
    rw [List.length_nil]
    omega
  have flat := flattenMembers_spec usable stack' [] room
  have some_regions : regions types members ≠ [] := by
    obtain ⟨m, mem, some_items⟩ := some_items
    intro none
    have empty : bytes (regions types members) = [] := by rw [none]; rfl
    rw [bytes_regions] at empty
    exact (usable m mem some_items).data_ne_nil some_items (List.flatMap_eq_nil_iff.mp empty m mem)
  obtain ⟨d, run, built⟩ := indexed_bytes some_regions positive_regions
  rw [bytes_regions] at built
  refine ⟨d, ?_, built⟩
  have length := List.length_pos_of_ne_nil some_regions
  have entries : ((0 : ℤ) + (regions types members).length + 2).toNat = (regions types members).length + 2 := by omega
  rw [dataloopCreateFlattenedStruct, count, Option.bind_some]
  dsimp only
  rw [if_neg (by omega), entries, flat, Option.bind_some]
  exact run

/-- The blocks of a struct that are not empty. -/
theorem filter_ne_nil (some_items : ∃ m ∈ members, m.blklen ≠ 0) : members.filter (fun m => m.blklen ≠ 0) ≠ [] := by
  obtain ⟨m, mem, some_items⟩ := some_items
  exact List.ne_nil_of_mem (List.mem_filter.mpr ⟨mem, by simpa using some_items⟩)

theorem basicAllBytes_spec (usable : ∀ m ∈ members, m.blklen ≠ 0 → m.Usable fuel types)
    (some_items : ∃ m ∈ members, m.blklen ≠ 0)
    (builtin : ∀ m ∈ members, m.blklen ≠ 0 → (types m.oldtype).loop = none) :
    ∃ d, dataloopCreateBasicAllBytesStruct types members = some d ∧ Built (structData types members) d := by
  have block (m : Member ι) (mem : m ∈ members.filter fun m => m.blklen ≠ 0) : m ∈ members ∧ m.blklen ≠ 0 := by
    simpa using List.mem_filter.mp mem
  have some_blocks : (members.filter fun m => m.blklen ≠ 0).map
    (fun m => Block.mk m.disp ((types m.oldtype).size * m.blklen)) ≠ [] :=
    fun none => filter_ne_nil some_items (List.map_eq_nil_iff.mp none)
  have positive : Positive ((members.filter fun m => m.blklen ≠ 0).map fun m =>
      ⟨m.disp, (types m.oldtype).size * m.blklen⟩) := by
    intro b mem
    obtain ⟨m, inside, rfl⟩ := List.mem_map.mp mem
    obtain ⟨inside, some_items⟩ := block m inside
    exact Nat.mul_pos (usable m inside some_items).fit.sound.size_pos (Nat.pos_of_ne_zero some_items)
  obtain ⟨d, run, built⟩ := indexed_bytes some_blocks positive
  have each (m : Member ι) (mem : m ∈ members.filter fun m => m.blklen ≠ 0) :
      (Block.mk m.disp ((types m.oldtype).size * m.blklen)).bytes = m.data types := by
    obtain ⟨inside, some_items⟩ := block m mem
    have loop := builtin m inside some_items
    rw [Member.data, Handle.bytes, loop, ((usable m inside some_items).fit.sound.intrinsic loop).2]
    dsimp only
    rw [placed_block, Nat.mul_comm]
  rw [bytes, List.flatMap_map, List.flatMap_congr each] at built
  rw [← structData_filter]
  refine ⟨d, ?_, built⟩
  rw [List.map_map] at run
  exact run

/-- The blocks from `type_pos` on. -/
theorem from_typePos (types : ι → Handle) (some_items : ∃ m ∈ members, m.blklen ≠ 0) :
    ∃ m ms, members.dropWhile (fun m => m.blklen = 0) = m :: ms ∧ m.blklen ≠ 0 ∧ m ∈ members ∧
      (∀ other ∈ ms, other ∈ members) ∧
      structData types (m :: ms) = structData types members := by
  induction members with
  | nil => simp at some_items
  | cons m members ih =>
    by_cases empty : m.blklen = 0
    · have later : ∃ m ∈ members, m.blklen ≠ 0 := by simpa [empty] using some_items
      obtain ⟨first, ms, found, some_items, mem, rest, same⟩ := ih later
      refine ⟨first, ms, by simpa [empty] using found, some_items, List.mem_cons_of_mem _ mem, fun other inside =>
        List.mem_cons_of_mem _ (rest other inside), same.trans ?_⟩
      rw [structData, structData, List.flatMap_cons, Member.data_of_empty empty, List.nil_append]
    · exact ⟨m, members, by simp [empty], empty, List.mem_cons_self, fun other => List.mem_cons_of_mem _, rfl⟩

variable [DecidableEq ι] {oldtype : ι}

theorem placed_unique (unique : ∀ m ∈ members, m.blklen ≠ 0 → m.oldtype = oldtype) :
    placed (types oldtype).bytes (starts (types oldtype).extent
      ((members.filter fun m => m.oldtype = oldtype).map fun m => ⟨m.blklen, m.disp⟩)) = structData types members := by
  induction members with
  | nil => rfl
  | cons m members ih =>
    have ih := ih fun m mem => unique m (List.mem_cons_of_mem _ mem)
    have split : structData types (m :: members) = m.data types ++ structData types members := rfl
    by_cases same : m.oldtype = oldtype
    · rw [List.filter_cons_of_pos (by simpa using same), List.map_cons, starts_cons, placed_append, ih, split,
        Member.data, same]
    · have empty : m.blklen = 0 := by_contra fun some_items => same (unique m List.mem_cons_self some_items)
      rw [List.filter_cons_of_neg (by simpa using same), ih, split, Member.data_of_empty empty, List.nil_append]

theorem uniqueType_spec (usable : ∀ m ∈ members, m.blklen ≠ 0 → m.Usable fuel types)
    (some_items : ∃ m ∈ members, m.blklen ≠ 0)
    (unique : ∀ m ∈ members, m.blklen ≠ 0 → m.oldtype = oldtype) :
    ∃ d, dataloopCreateUniqueTypeStruct types members oldtype = some d ∧ Built (structData types members) d := by
  obtain ⟨m, ms, found, some_items, mem, rest, same⟩ := from_typePos types some_items
  have here : m.oldtype = oldtype := unique m mem some_items
  have fit : (types oldtype).Fit := here ▸ (usable m mem some_items).fit
  have filtered : (m :: ms).filter (fun m => m.oldtype = oldtype) = m :: ms.filter fun m => m.oldtype = oldtype :=
    List.filter_cons_of_pos (by simpa using here)
  have all : ∀ other ∈ m :: ms, other.blklen ≠ 0 → other.oldtype = oldtype := fun other inside =>
    unique other ((List.mem_cons.mp inside).elim (fun same => same ▸ mem) (rest other))
  obtain ⟨rows, tmp⟩ : ∃ rows, rows = ((m :: ms).filter fun m => m.oldtype = oldtype).map fun m =>
    Row.mk m.blklen m.disp := ⟨_, rfl⟩
  have first : rows = ⟨m.blklen, m.disp⟩ :: rows.tail := by rw [tmp, filtered]; rfl
  have some_rows : ∃ row ∈ rows, row.count ≠ 0 :=
    ⟨⟨m.blklen, m.disp⟩, by rw [first]; exact List.mem_cons_self, some_items⟩
  have at_first : ∀ row ∈ rows.head?, row.count ≠ 0 := by rw [first]; simpa using some_items
  obtain ⟨d, run, shaped⟩ := indexed_spec fit.sound some_rows (.inl rfl) fun _ => at_first
  have built := shaped.built fit
  have in_bytes (rows : List Row) : rows.map (inBytes true (types oldtype).extent) = rows := List.map_id _
  rw [in_bytes, tmp, placed_unique all, same] at built
  refine ⟨d, ?_, built⟩
  rw [dataloopCreateUniqueTypeStruct, found]
  exact tmp ▸ run

theorem eq_of_uniqueType {t : ι} (unique : uniqueType members = some t) : ∀ m ∈ members, m.oldtype = t := by
  match members, unique with
  | first :: ms, unique =>
    rw [uniqueType] at unique
    split at unique
    · rename_i same
      obtain rfl := Option.some.inj unique
      exact List.forall_mem_cons.mpr ⟨rfl, same⟩
    · contradiction

/-- The type of the blocks that are left if there are no others. -/
theorem eq_of_only {p q : Member ι → Bool} (other : ∀ m, p m = !q m) {t : ι}
    (unique : (if members.filter p = [] then uniqueType (members.filter q) else none) = some t) :
    ∀ m ∈ members, m.oldtype = t := by
  split at unique
  · rename_i none
    have all : members.filter q = members := by
      refine List.filter_eq_self.mpr fun m mem => ?_
      simpa [other] using List.filter_eq_nil_iff.mp none m mem
    rw [all] at unique
    exact eq_of_uniqueType unique
  · contradiction

/-- Whichever way the struct is built, the loop has the bytes of its blocks. -/
theorem struct_spec (usable : ∀ m ∈ members, m.blklen ≠ 0 → m.Usable fuel types)
    (some_items : ∃ m ∈ members, m.blklen ≠ 0)
    (stack : ℕ → Stackelm) :
    ∃ d, dataloopCreateStruct fuel stack types members = some d ∧ Built (structData types members) d := by
  have nonempty := filter_ne_nil some_items
  have data := structData_filter types members
  have block (m : Member ι) : m ∈ members.filter (fun m => m.blklen ≠ 0) ↔ m ∈ members ∧ m.blklen ≠ 0 := by simp
  unfold dataloopCreateStruct
  dsimp only
  generalize members.filter (fun m => m.blklen ≠ 0) = blocks at nonempty data block
  match blocks with
  | [] => exact absurd rfl nonempty
  | [m] =>
    obtain ⟨inside, some_items⟩ := (block m).mp List.mem_cons_self
    have fit := (usable m inside some_items).fit
    have built := (blockindexed_spec fit.sound (List.cons_ne_nil m.disp [])
      (Nat.pos_of_ne_zero some_items) true).built fit
    rw [List.map_singleton, starts_singleton] at built
    refine ⟨_, rfl, ?_⟩
    rw [← data, structData, List.flatMap_singleton]
    exact built
  | first :: second :: rest =>
    have in_blocks (m : Member ι) (mem : m ∈ members) (some_items : m.blklen ≠ 0) :
      m ∈ first :: second :: rest := (block m).mpr ⟨mem, some_items⟩
    have isNone (m : Member ι) : (types m.oldtype).loop.isNone = !(types m.oldtype).loop.isSome := by
      cases (types m.oldtype).loop <;> rfl
    have isSome (m : Member ι) : (types m.oldtype).loop.isSome = !(types m.oldtype).loop.isNone := by
      cases (types m.oldtype).loop <;> rfl
    dsimp only
    split
    · rename_i t _ unique
      exact uniqueType_spec usable some_items fun m mem some_items =>
        eq_of_only isSome unique m (in_blocks m mem some_items)
    · rename_i t _ unique
      exact uniqueType_spec usable some_items fun m mem some_items =>
        eq_of_only isNone unique m (in_blocks m mem some_items)
    · split
      · rename_i none
        refine basicAllBytes_spec usable some_items fun m mem some_items => ?_
        simpa using List.filter_eq_nil_iff.mp none m (in_blocks m mem some_items)
      · exact flattened_spec usable some_items stack

end Struct

end FoMPI.Mpitypes
