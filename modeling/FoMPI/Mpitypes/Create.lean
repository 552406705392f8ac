import FoMPI.Foundation.Rows
import FoMPI.Mpitypes.Blockct

/-!
# Dataloops of derived datatypes

`Dataloop_create_contiguous` and the other functions for types that are made of one old type. Each of them
puts a loop around the one of the old type, unless something simpler does: a contiguous type of a
contiguous type is one loop, blocks that touch are one block, and blocks with a fixed stride are a vector.
Counts and their products are `int` in the code; there are fewer than 2^31 items in what follows.
-/
namespace FoMPI.Mpitypes
open FoMPI.Foundation

def Handle.mpiInt : Handle := ⟨4, 4, none⟩

def Handle.mpiByte : Handle := ⟨1, 1, none⟩

/-- `el_extent` of a loop around a datatype. -/
def Handle.elExtent (h : Handle) : ℤ :=
  match h.loop with
  | none => h.size
  | some _ => h.extent

/-- A new loop around that of a datatype. -/
def Handle.newLoop (h : Handle) (l : LoopParams) : Dataloop :=
  match h.loop with
  | none => .final l h.size h.elExtent
  | some loop => .nested l h.size h.elExtent loop

/-- The copy of a contiguous loop whose count is multiplied. -/
def Dataloop.coalesce (count : ℕ) : Dataloop → Option Dataloop
  | .final (.contig c) elSize elExtent => some (.final (.contig (c * count)) elSize elExtent)
  | .nested (.contig c) elSize elExtent dataloop => some (.nested (.contig (c * count)) elSize elExtent dataloop)
  | _ => none

/-- `Dataloop_create_contiguous`. -/
def dataloopCreateContiguous (count : ℕ) (oldtype : Handle) : Dataloop :=
  match oldtype.loop with
  | none => oldtype.newLoop (.contig count)
  | some loop =>
    if (oldtype.size : ℤ) = oldtype.extent then (loop.coalesce count).getD (oldtype.newLoop (.contig count))
    else oldtype.newLoop (.contig count)

/-- `Dataloop_create_vector`. -/
def dataloopCreateVector (count blocklength : ℕ) (stride : ℤ) (strideinbytes : Bool) (oldtype : Handle) : Dataloop :=
  if count = 0 ∨ blocklength = 0 then dataloopCreateContiguous 0 .mpiInt
  else if count = 1 then dataloopCreateContiguous blocklength oldtype
  else oldtype.newLoop (.vector count blocklength (if strideinbytes then stride else stride * oldtype.elExtent))

/-- `Type_blockindexed_count_contig`, behind a block at `cur`. A block goes on `step` behind where it begins. -/
def blockindexedCountContig (step : ℤ) : ℤ → List ℤ → ℕ
  | _, [] => 1
  | cur, next :: disps =>
    if cur + step ≠ next then blockindexedCountContig step next disps + 1 else blockindexedCountContig step next disps

/-- The loop over the blocks behind the second one, which is at `disp0`. -/
def fixedStride (stride : ℤ) : ℤ → List ℤ → Bool
  | _, [] => true
  | disp0, disp1 :: disps => if disp1 - disp0 ≠ stride then false else fixedStride stride disp1 disps

/-- `last_stride`, if blocks at these displacements are a vector. -/
def vectorStride : List ℤ → Option ℤ
  | disp0 :: disp1 :: disps =>
    if disp0 = 0 ∧ fixedStride (disp1 - disp0) disp1 disps then some (disp1 - disp0) else none
  | _ => none

/-- A displacement in bytes. -/
def effDisp (dispinbytes : Bool) (extent disp : ℤ) : ℤ := if dispinbytes then disp else disp * extent

def inBytes (dispinbytes : Bool) (extent : ℤ) (row : Row) : Row := ⟨row.count, effDisp dispinbytes extent row.displ⟩

/-- `Dataloop_create_blockindexed`. -/
def dataloopCreateBlockindexed (blklen : ℕ) (dispArray : List ℤ) (dispinbytes : Bool) (oldtype : Handle) : Dataloop :=
  match dispArray with
  | [] => dataloopCreateContiguous 0 .mpiInt
  | disp :: disps =>
    if blklen = 0 then dataloopCreateContiguous 0 .mpiInt
    else
      let step : ℤ := if dispinbytes then blklen * oldtype.elExtent else blklen
      let contigCount := blockindexedCountContig step disp disps
      if contigCount = 1 ∧ disp = 0 then dataloopCreateContiguous ((disps.length + 1) * blklen) oldtype
      else
        let (blklen, disps) := if contigCount = 1 then ((disps.length + 1) * blklen, []) else (blklen, disps)
        let offsets := (disp :: disps).map (effDisp dispinbytes oldtype.elExtent)
        match vectorStride offsets with
        | some stride => dataloopCreateVector offsets.length blklen stride true oldtype
        | none => oldtype.newLoop (.blockindexed offsets.length blklen offsets)

/-- `Type_indexed_count_contig`, behind the row `cur`. -/
def indexedCountContig (step : ℤ) : Row → List Row → ℕ
  | _, [] => 1
  | cur, row :: rows =>
    if row.count = 0 then indexedCountContig step cur rows
    else if cur.displ + cur.count * step = row.displ then
      indexedCountContig step ⟨cur.count + row.count, cur.displ⟩ rows
    else indexedCountContig step row rows + 1

/-- What `DLOOP_Type_indexed_array_copy` writes from the row `cur` on. -/
def indexedArrayCopy (oldExtent : ℤ) : Row → List Row → List Row
  | cur, [] => [cur]
  | cur, row :: rows =>
    if row.count = 0 then indexedArrayCopy oldExtent cur rows
    else if cur.displ + cur.count * oldExtent = row.displ then
      indexedArrayCopy oldExtent ⟨cur.count + row.count, cur.displ⟩ rows
    else cur :: indexedArrayCopy oldExtent row rows

/-- What an array of `MPI_Aint` holds from `first` times the size of an `int` on. If this is in the middle of
one of them, each that is read has its lower half from one and its upper half from the next. -/
def aintsAt (first : ℕ) (disps : List ℤ) : List ℤ :=
  let entries := disps.drop (first / 2)
  if first % 2 = 0 then entries
  else List.zipWith (fun lower upper => lower / 2 ^ 32 % 2 ^ 32 + Int.bmod upper (2 ^ 32) * 2 ^ 32) entries entries.tail

/-- `Dataloop_create_indexed`, from blocklengths and displacements. It fails an assertion if the blocks that are
copied are not as many as were counted. -/
def dataloopCreateIndexed (blocks : List Row) (dispinbytes : Bool) (oldtype : Handle) : Option Dataloop :=
  let first := (blocks.takeWhile fun row => row.count = 0).length
  match blocks.drop first with
  | [] => some (dataloopCreateContiguous 0 .mpiInt)
  | row :: rows =>
    let oldTypeCount := ((row :: rows).map Row.count).sum
    let contigCount := indexedCountContig (if dispinbytes then oldtype.extent else 1) row rows
    -- `&(((int *)displacement_array)[first])`, also where the displacements are `MPI_Aint`
    let disps := if dispinbytes then aintsAt first (blocks.map Row.displ) else (row :: rows).map Row.displ
    if contigCount = 1 ∧ row.displ = 0 then some (dataloopCreateContiguous oldTypeCount oldtype)
    else if contigCount = 1 then some (dataloopCreateBlockindexed oldTypeCount (disps.take 1) dispinbytes oldtype)
    else if ∀ other ∈ rows, other.count = row.count then
      some (dataloopCreateBlockindexed row.count (disps.take (rows.length + 1)) dispinbytes oldtype)
    else
      let copied := indexedArrayCopy oldtype.extent (inBytes dispinbytes oldtype.extent row)
        (rows.map (inBytes dispinbytes oldtype.extent))
      let params := LoopParams.indexed contigCount (copied.map Row.count) (copied.map Row.displ) oldTypeCount
      if copied.length = contigCount then
        match oldtype.loop with
        | none => some (.final params oldtype.extent.toNat oldtype.extent)
        | some loop => some (.nested params oldtype.size oldtype.extent loop)
      else none

section Loops
variable {h : Handle} {l : LoopParams} {d : Dataloop} {count : ℕ}

/-- Elements that the code takes for dense are. -/
def Handle.Dense (h : Handle) : Prop :=
  ∀ c elSize elExtent d, h.loop = some (.nested (.contig c) elSize elExtent d) → (h.size : ℤ) = h.extent →
    c * elExtent = h.extent

/-- A datatype that other ones can be made of. -/
structure Handle.Fit (h : Handle) : Prop where
  sound : h.Sound
  merged : ∀ d, h.loop = some d → Merged d.leaf.1 d.leaf.2
  dense : h.Dense

/-- A loop for these bytes. -/
structure Built (data : List ℤ) (d : Dataloop) : Prop where
  sound : d.Sound
  bytes : d.bytes 0 = data
  merged : Merged d.leaf.1 d.leaf.2

theorem Handle.Sound.elExtent (sound : h.Sound) : h.elExtent = h.extent := by
  unfold Handle.elExtent
  cases loop : h.loop with
  | none => exact (sound.intrinsic loop).2.symm
  | some d => rfl

/-- The blocks of a loop as rows. -/
def LoopParams.rows (l : LoopParams) : List Row := (List.range l.count).map fun i => ⟨l.blocksize i, l.offset i⟩

theorem bytes_blocks_rows {size : ℕ} : bytes (l.blocks 0 size) =
    placed (Block.mk 0 size).bytes (starts size l.rows) := by
  simp only [bytes, LoopParams.blocks, starts, LoopParams.rows, List.flatMap_map, placed, List.flatMap_assoc]
  congr 1
  funext i
  rw [zero_add]
  exact placed_block.symm

theorem places_rows {extent : ℤ} : l.places 0 extent = starts extent l.rows := by
  have row (i : ℕ) : l.placesAt 0 extent i = (Row.mk (l.blocksize i) (l.offset i)).starts extent := by
    rw [LoopParams.placesAt, zero_add, Row.starts]
  rw [LoopParams.places, starts, LoopParams.rows, List.flatMap_map]
  exact List.flatMap_congr fun i _ => row i

theorem bytes_nested {size : ℕ} {extent : ℤ} :
    (Dataloop.nested l size extent d).bytes 0 = placed (d.bytes 0) (starts extent l.rows) := by
  rw [Dataloop.bytes, places_rows, placed]
  congr 1
  funext x
  rw [← bytes_add, add_zero]

theorem rows_contig : (LoopParams.contig count).rows = [⟨count, 0⟩] := rfl

theorem newLoop_spec (fit : h.Fit) (sound : l.Sound) (merged : h.loop = none → Merged l h.size) :
    Built (placed h.bytes (starts h.extent l.rows)) (h.newLoop l) := by
  unfold Handle.newLoop
  cases loop : h.loop with
  | none =>
    obtain ⟨pos, contiguous⟩ := fit.sound.intrinsic loop
    refine ⟨⟨sound, pos⟩, ?_, merged loop⟩
    rw [Dataloop.bytes, bytes_blocks_rows, Handle.bytes, loop, contiguous]
  | some d =>
    refine ⟨⟨sound, (fit.sound.derived d loop).1⟩, ?_, fit.merged d loop⟩
    rw [bytes_nested, Handle.bytes, loop, fit.sound.elExtent]

theorem sound_contig (some_items : 0 < count) : (LoopParams.contig count).Sound :=
  ⟨trivial, Nat.one_pos, fun _ _ => some_items⟩

theorem contig_spec (fit : h.Fit) (some_items : 0 < count) :
    Built (placed h.bytes ((Row.mk count 0).starts h.extent)) (h.newLoop (.contig count)) := by
  have built := newLoop_spec fit (sound_contig some_items) fun _ => trivial
  rwa [rows_contig, starts_singleton] at built

/-- A loop that is copied with its count multiplied. -/
theorem coalesce_spec (fit : h.Fit) (some_items : 0 < count) (loop : h.loop = some d) (same : (h.size : ℤ) = h.extent)
    {new : Dataloop} (coalesced : d.coalesce count = some new) :
    Built (placed h.bytes ((Row.mk count 0).starts h.extent)) new := by
  obtain ⟨sound, size⟩ := fit.sound.derived d loop
  have item : h.bytes = d.bytes 0 := by rw [Handle.bytes, loop]
  cases d with
  | final l elSize elExtent =>
    cases l with
    | contig c =>
      obtain rfl := Option.some.inj coalesced
      have pos : 0 < c := sound.1.positive 0 Nat.one_pos
      refine ⟨⟨sound_contig (Nat.mul_pos pos some_items), sound.2⟩, ?_, trivial⟩
      rw [Dataloop.bytes, bytes_blocks_rows, rows_contig, starts_singleton, placed_block] at item size ⊢
      rw [Block.length_bytes] at size
      rw [item, ← same, ← size, placed_block]
      congr 2
      ring
    | vector | blockindexed | indexed => contradiction
  | nested l elSize elExtent d =>
    cases l with
    | contig c =>
      obtain rfl := Option.some.inj coalesced
      have pos : 0 < c := sound.1.positive 0 Nat.one_pos
      have dense := fit.dense c elSize elExtent d loop same
      refine ⟨⟨sound_contig (Nat.mul_pos pos some_items), sound.2⟩, ?_,
        fit.merged (.nested (.contig c) elSize elExtent d) loop⟩
      rw [bytes_nested, rows_contig, starts_singleton] at item ⊢
      rw [item, placed_placed, Nat.mul_comm c count, Row.starts_mul, dense]
      congr 2
      funext x
      rw [← Row.starts_shift, add_zero]
    | vector | blockindexed | indexed => contradiction

theorem contiguous_spec (fit : h.Fit) (some_items : 0 < count) :
    Built (placed h.bytes ((Row.mk count 0).starts h.extent)) (dataloopCreateContiguous count h) := by
  unfold dataloopCreateContiguous
  cases loop : h.loop with
  | none => exact contig_spec fit some_items
  | some d =>
    dsimp only
    split
    · rename_i same
      cases coalesced : d.coalesce count with
      | none => exact contig_spec fit some_items
      | some new => exact coalesce_spec fit some_items loop same coalesced
    · exact contig_spec fit some_items

/-- What is made for items at these places: a contiguous loop if they are in a row from 0 on, or another new loop. -/
inductive Shaped (h : Handle) (xs : List ℤ) : Dataloop → Prop
  | contiguous {count : ℕ} (some_items : 0 < count) (row : xs = (Row.mk count 0).starts h.extent) :
    Shaped h xs (dataloopCreateContiguous count h)
  | around {l : LoopParams} (sound : l.Sound) (merged : h.loop = none → Merged l h.size)
    (rows : xs = starts h.extent l.rows)
    (other : ∀ count, l ≠ .contig count) : Shaped h xs (h.newLoop l)

theorem Shaped.built {xs : List ℤ} (shaped : Shaped h xs d) (fit : h.Fit) : Built (placed h.bytes xs) d := by
  cases shaped with
  | contiguous some_items row => exact row ▸ contiguous_spec fit some_items
  | around sound merged rows _ => exact rows ▸ newLoop_spec fit sound merged

/-- The elements of a contiguous loop make up the extent. -/
def Handle.Even (h : Handle) : Prop :=
  ∀ c elSize elExtent d, h.loop = some (.nested (.contig c) elSize elExtent d) → c * elExtent = h.extent

theorem Handle.Even.dense (even : h.Even) : h.Dense := fun c elSize elExtent d loop _ => even c elSize elExtent d loop

theorem contiguous_even (sound : h.Sound) (even : h.Even) {c elSize : ℕ} {elExtent : ℤ}
    (made : dataloopCreateContiguous count h = .nested (.contig c) elSize elExtent d) :
    c * elExtent = count * h.extent := by
  have of_newLoop (made : h.newLoop (.contig count) = .nested (.contig c) elSize elExtent d) :
      c * elExtent = count * h.extent := by
    rw [Handle.newLoop, sound.elExtent] at made
    split at made
    · contradiction
    · obtain ⟨rfl, -, rfl, -⟩ := Dataloop.nested.inj made |>.imp_left LoopParams.contig.inj
      rfl
  unfold dataloopCreateContiguous at made
  split at made
  · exact of_newLoop made
  · rename_i loop known
    split at made
    · cases coalesced : loop.coalesce count with
      | none =>
        rw [coalesced] at made
        exact of_newLoop made
      | some new =>
        rw [coalesced, Option.getD_some] at made
        subst made
        match loop, known, coalesced with
        | .nested (.contig c') _ _ _, known, rfl =>
          rw [← even c' _ _ _ known]
          push_cast
          ring
    · exact of_newLoop made

/-- A contiguous loop around another one is made for items in a row. -/
theorem Shaped.even {xs : List ℤ} {c elSize : ℕ} {elExtent : ℤ} {new : Dataloop} (shaped : Shaped h xs new)
    (sound : h.Sound)
    (even : h.Even) (contig : new = .nested (.contig c) elSize elExtent d) :
    ∃ n, 0 < n ∧ xs = (Row.mk n 0).starts h.extent ∧ c * elExtent = n * h.extent := by
  cases shaped with
  | contiguous some_items row => exact ⟨_, some_items, row, contiguous_even sound even contig⟩
  | around _ _ _ other =>
    rw [Handle.newLoop] at contig
    split at contig
    · contradiction
    · exact absurd (Dataloop.nested.inj contig).1 (other c)

theorem vector_spec (sound : h.Sound) (some_blocks : 0 < count) {blocklength : ℕ}
    (some_items : 0 < blocklength) (stride : ℤ)
    (strideinbytes : Bool) :
    Shaped h (starts h.extent ((List.range count).map fun i : ℕ =>
      ⟨blocklength, i * effDisp strideinbytes h.extent stride⟩))
      (dataloopCreateVector count blocklength stride strideinbytes h) := by
  unfold dataloopCreateVector
  rw [if_neg (by omega)]
  split
  · rename_i one
    exact .contiguous some_items (by simp [one, starts])
  · rw [sound.elExtent]
    exact .around ⟨trivial, some_blocks, fun _ _ => some_items⟩ (fun _ => trivial) rfl fun _ => LoopParams.noConfusion

end Loops

section Blocks
variable {h : Handle} {step stride extent cur disp : ℤ} {disps offsets : List ℤ} {blklen : ℕ}

theorem blockindexedCountContig_pos (step cur : ℤ) (disps : List ℤ) : 0 < blockindexedCountContig step cur disps := by
  induction disps generalizing cur with
  | nil => exact Nat.one_pos
  | cons next disps ih =>
    rw [blockindexedCountContig]
    split
    · exact Nat.succ_pos _
    · exact ih _

/-- If there is one block, each one begins where the one in front of it goes on. -/
theorem row_of_contig (one : blockindexedCountContig step cur disps = 1) :
    cur :: disps = (Row.mk (disps.length + 1) cur).starts step := by
  induction disps generalizing cur with
  | nil => exact Row.starts_one.symm
  | cons next disps ih =>
    rw [blockindexedCountContig] at one
    split at one
    · have more := blockindexedCountContig_pos step next disps
      omega
    · rename_i adjacent
      obtain rfl : cur + step = next := not_not.mp adjacent
      rw [List.length_cons, Nat.add_comm, Row.starts_add, Row.starts_one, Nat.cast_one, one_mul, ← ih one]
      rfl

theorem row_of_fixedStride (fixed : fixedStride stride cur disps = true) :
    cur :: disps = (Row.mk (disps.length + 1) cur).starts stride := by
  induction disps generalizing cur with
  | nil => exact Row.starts_one.symm
  | cons next disps ih =>
    rw [fixedStride] at fixed
    split at fixed
    · contradiction
    · rename_i same
      obtain rfl : next = cur + stride := by linarith [not_not.mp same]
      rw [List.length_cons, Nat.add_comm, Row.starts_add, Row.starts_one, Nat.cast_one, one_mul, ← ih fixed]
      rfl

theorem row_of_vectorStride (vector : vectorStride offsets = some stride) :
    offsets = (Row.mk offsets.length 0).starts stride := by
  match offsets, vector with
  | disp0 :: disp1 :: disps, vector =>
    rw [vectorStride] at vector
    split at vector
    · rename_i fixed
      obtain ⟨rfl, fixed⟩ := fixed
      obtain rfl := Option.some.inj vector
      have rest := row_of_fixedStride fixed
      rw [List.length_cons, Nat.add_comm, Row.starts_add, Row.starts_one, Nat.cast_one, one_mul,
        List.length_cons, zero_add, sub_zero]
      rw [sub_zero] at rest
      rw [← rest]
      rfl
    · contradiction

theorem starts_map_mk : starts extent (disps.map fun d => ⟨blklen, d⟩) = disps.flatMap fun d =>
    (Row.mk blklen d).starts extent := by
  rw [starts, List.flatMap_map]

theorem effDisp_zero {dispinbytes : Bool} : effDisp dispinbytes extent 0 = 0 := by
  cases dispinbytes
  · exact zero_mul extent
  · rfl

/-- The displacements of adjacent blocks, in bytes. -/
theorem effDisp_row {dispinbytes : Bool} {n : ℕ} :
    ((Row.mk n disp).starts (if dispinbytes then blklen * extent else (blklen : ℤ))).map (effDisp dispinbytes extent) =
      (Row.mk n (effDisp dispinbytes extent disp)).starts (blklen * extent) := by
  cases dispinbytes with
  | true => exact List.map_id _
  | false =>
    simp only [Row.starts, List.map_map, Bool.false_eq_true, if_false]
    refine List.map_congr_left fun j _ => ?_
    simp only [Function.comp_apply, effDisp, Bool.false_eq_true, if_false]
    ring

theorem offsets_spec (sound : h.Sound) (some_blocks : offsets ≠ []) (some_items : 0 < blklen) :
    Shaped h (starts h.extent (offsets.map fun d => ⟨blklen, d⟩))
      (match vectorStride offsets with
        | some stride => dataloopCreateVector offsets.length blklen stride true h
        | none => h.newLoop (.blockindexed offsets.length blklen offsets)) := by
  have pos := List.length_pos_of_ne_nil some_blocks
  cases vector : vectorStride offsets with
  | none =>
    have rows : (LoopParams.blockindexed offsets.length blklen offsets).rows = offsets.map fun d => ⟨blklen, d⟩ := by
      refine List.ext_getElem (by simp [LoopParams.rows, LoopParams.count]) fun i lt _ => ?_
      have lt : i < offsets.length := by simpa [LoopParams.rows, LoopParams.count] using lt
      simp [LoopParams.rows, LoopParams.blocksize, LoopParams.offset, lt]
    exact .around ⟨rfl, pos, fun _ _ => some_items⟩ (fun _ => trivial) (by rw [rows]) fun _ => LoopParams.noConfusion
  | some stride =>
    have shaped := vector_spec sound pos some_items stride true
    have row := row_of_vectorStride vector
    have rows : (List.range offsets.length).map (fun i : ℕ => Row.mk blklen (i * effDisp true h.extent stride)) =
        ((Row.mk offsets.length 0).starts stride).map fun d => ⟨blklen, d⟩ := by
      simp [Row.starts, effDisp, Function.comp_def]
    rwa [rows, ← row] at shaped

theorem blockindexed_spec (sound : h.Sound) (some_blocks : disps ≠ []) (some_items : 0 < blklen) (dispinbytes : Bool) :
    Shaped h (starts h.extent (disps.map fun d => ⟨blklen, effDisp dispinbytes h.extent d⟩))
      (dataloopCreateBlockindexed blklen disps dispinbytes h) := by
  obtain ⟨disp, disps, rfl⟩ := List.exists_cons_of_ne_nil some_blocks
  unfold dataloopCreateBlockindexed
  dsimp only
  rw [if_neg some_items.ne', sound.elExtent]
  by_cases one : blockindexedCountContig (if dispinbytes then blklen * h.extent else (blklen : ℤ)) disp disps = 1
  · -- all of them are one row
    have whole : starts h.extent ((disp :: disps).map fun d => ⟨blklen, effDisp dispinbytes h.extent d⟩) =
        (Row.mk ((disps.length + 1) * blklen) (effDisp dispinbytes h.extent disp)).starts h.extent := by
      have eff : (disp :: disps).map (fun d => Row.mk blklen (effDisp dispinbytes h.extent d)) =
          ((disp :: disps).map (effDisp dispinbytes h.extent)).map fun d => ⟨blklen, d⟩ := by simp
      rw [eff, row_of_contig one, effDisp_row, starts_map_mk, Row.starts_mul]
    have some_rows : 0 < (disps.length + 1) * blklen := Nat.mul_pos (Nat.succ_pos _) some_items
    rw [whole, if_pos one]
    by_cases zero : disp = 0
    · rw [if_pos ⟨one, zero⟩, zero, effDisp_zero]
      exact .contiguous some_rows rfl
    · rw [if_neg fun both => zero both.2]
      have shaped := offsets_spec sound (List.cons_ne_nil (effDisp dispinbytes h.extent disp) []) some_rows
      rwa [List.map_singleton, starts_singleton] at shaped
  · rw [if_neg fun both => one both.1, if_neg one]
    have nonempty : (disp :: disps).map (effDisp dispinbytes h.extent) ≠ [] := List.cons_ne_nil _ _
    have shaped := offsets_spec sound nonempty some_items
    rwa [List.map_map] at shaped

end Blocks

section Copy
variable {extent : ℤ} {cur : Row} {rows : List Row}

/-- No row goes on where the one in front of it ends. -/
def Apart (extent : ℤ) (rows : List Row) : Prop := rows.IsChain fun a b => a.displ + a.count * extent ≠ b.displ

theorem starts_copy (extent : ℤ) (cur : Row) (rows : List Row) :
    starts extent (indexedArrayCopy extent cur rows) = cur.starts extent ++ starts extent rows := by
  induction rows generalizing cur with
  | nil => rfl
  | cons row rows ih =>
    obtain ⟨n, d⟩ := row
    rw [indexedArrayCopy]
    split
    · rename_i empty
      obtain rfl : n = 0 := empty
      rw [ih, starts_cons, Row.starts_zero, List.nil_append]
    · split
      · rename_i adjacent
        obtain rfl : cur.displ + cur.count * extent = d := adjacent
        rw [ih, Row.starts_add, List.append_assoc]
        rfl
      · rw [starts_cons, ih, starts_cons]

theorem sum_copy (extent : ℤ) (cur : Row) (rows : List Row) :
    ((indexedArrayCopy extent cur rows).map Row.count).sum = ((cur :: rows).map Row.count).sum := by
  have both := congrArg List.length (starts_copy extent cur rows)
  rwa [← starts_cons, length_starts, length_starts] at both

theorem head_copy (extent : ℤ) (cur : Row) (rows : List Row) :
    ∃ n rest, indexedArrayCopy extent cur rows = ⟨n, cur.displ⟩ :: rest := by
  induction rows generalizing cur with
  | nil => exact ⟨cur.count, [], rfl⟩
  | cons row rows ih =>
    rw [indexedArrayCopy]
    split
    · exact ih _
    · split
      · exact ih _
      · exact ⟨cur.count, _, rfl⟩

theorem positive_copy (pos : 0 < cur.count) : ∀ row ∈ indexedArrayCopy extent cur rows, 0 < row.count := by
  induction rows generalizing cur with
  | nil => simpa [indexedArrayCopy] using pos
  | cons row rows ih =>
    rw [indexedArrayCopy]
    split
    · exact ih pos
    · rename_i some_items
      split
      · exact ih (Nat.add_pos_left pos _)
      · exact List.forall_mem_cons.mpr ⟨pos, ih (Nat.pos_of_ne_zero some_items)⟩

theorem apart_copy (extent : ℤ) (cur : Row) (rows : List Row) : Apart extent (indexedArrayCopy extent cur rows) := by
  induction rows generalizing cur with
  | nil => exact List.isChain_singleton cur
  | cons row rows ih =>
    rw [indexedArrayCopy]
    split
    · exact ih _
    · split
      · exact ih _
      · rename_i apart
        obtain ⟨n, rest, copied⟩ := head_copy extent row rows
        have later := ih row
        rw [copied] at later ⊢
        exact List.isChain_cons_cons.mpr ⟨apart, later⟩

/-- As many rows are copied as are counted. -/
theorem length_copy (extent : ℤ) (cur : Row) (rows : List Row) :
    (indexedArrayCopy extent cur rows).length = indexedCountContig extent cur rows := by
  induction rows generalizing cur with
  | nil => rfl
  | cons row rows ih =>
    rw [indexedArrayCopy, indexedCountContig]
    split
    · exact ih _
    · split
      · exact ih _
      · rw [List.length_cons, ih]

/-- One row takes all of them. -/
theorem row_of_copy (one : indexedCountContig extent cur rows = 1) :
    starts extent (cur :: rows) = (Row.mk ((cur :: rows).map Row.count).sum cur.displ).starts extent := by
  obtain ⟨n, rest, head⟩ := head_copy extent cur rows
  have length := length_copy extent cur rows
  rw [one, head, List.length_cons] at length
  obtain rfl : rest = [] := List.eq_nil_of_length_eq_zero (by omega)
  rw [← sum_copy extent cur rows, starts_cons, ← starts_copy, head, starts_singleton, List.map_singleton,
    List.sum_singleton]

/-- Displacements may be counted in elements or in bytes. -/
theorem indexedCountContig_inBytes {dispinbytes : Bool} (some_extent : dispinbytes = true ∨ extent ≠ 0)
    (cur : Row) (rows : List Row) :
    indexedCountContig (if dispinbytes then extent else 1) cur rows =
      indexedCountContig extent (inBytes dispinbytes extent cur) (rows.map (inBytes dispinbytes extent)) := by
  have adjacent_iff (a b : Row) : a.displ + a.count * (if dispinbytes then extent else 1) = b.displ ↔
      (inBytes dispinbytes extent a).displ + (inBytes dispinbytes extent a).count * extent =
          (inBytes dispinbytes extent b).displ := by
    cases dispinbytes with
    | true => rfl
    | false =>
      have some_extent : extent ≠ 0 := some_extent.resolve_left Bool.false_ne_true
      simp only [inBytes, effDisp, Bool.false_eq_true, if_false, mul_one, ← add_mul]
      exact ⟨fun same => by rw [same], mul_right_cancel₀ some_extent⟩
  have joined (a b : Row) : inBytes dispinbytes extent ⟨a.count + b.count, a.displ⟩ =
      ⟨(inBytes dispinbytes extent a).count + (inBytes dispinbytes extent b).count,
        (inBytes dispinbytes extent a).displ⟩ := rfl
  induction rows generalizing cur with
  | nil => rfl
  | cons row rows ih =>
    rw [List.map_cons, indexedCountContig, indexedCountContig, ih, ih, ih, joined]
    simp only [adjacent_iff]
    rfl

end Copy

section Indexed
variable {h : Handle} {row : Row} {rows blocks : List Row} {dispinbytes : Bool}

theorem aintsAt_zero (disps : List ℤ) : aintsAt 0 disps = disps := rfl

theorem rows_indexed (rows : List Row) (totalBlocks : ℕ) :
    (LoopParams.indexed rows.length (rows.map Row.count) (rows.map Row.displ) totalBlocks).rows = rows := by
  refine List.ext_getElem (by simp [LoopParams.rows, LoopParams.count]) fun i _ lt => ?_
  simp [LoopParams.rows, LoopParams.blocksize, LoopParams.offset, lt]

theorem separated_indexed {size : ℕ} (apart : Apart size rows) (totalBlocks : ℕ) :
    Merged (.indexed rows.length (rows.map Row.count) (rows.map Row.displ) totalBlocks) size := by
  have blocks : (LoopParams.indexed rows.length (rows.map Row.count) (rows.map Row.displ) totalBlocks).blocks 0 size =
      rows.map fun row => ⟨row.displ, row.count * size⟩ := by
    have mapped := congrArg (List.map fun row : Row => Block.mk row.displ (row.count * size))
      (rows_indexed rows totalBlocks)
    rw [LoopParams.rows, List.map_map] at mapped
    rw [← mapped, LoopParams.blocks]
    exact List.map_congr_left fun i _ => by rw [zero_add]; rfl
  rw [Merged, blocks, Separated, List.isChain_map]
  refine apart.imp fun a b ne => ?_
  simpa [Block.stop] using ne

/-- What is left when nothing simpler does. -/
theorem copied_spec (sound : h.Sound) (some_items : 0 < row.count) (rows : List Row) :
    Shaped h (starts h.extent (row :: rows))
      (h.newLoop (.indexed (indexedArrayCopy h.extent row rows).length
        ((indexedArrayCopy h.extent row rows).map Row.count)
        ((indexedArrayCopy h.extent row rows).map Row.displ) ((row :: rows).map Row.count).sum)) := by
  obtain ⟨n, rest, copied⟩ := head_copy h.extent row rows
  have nonempty : indexedArrayCopy h.extent row rows ≠ [] := by simp [copied]
  refine .around ⟨⟨List.length_map _, List.length_map _, (sum_copy _ _ _).symm⟩,
    List.length_pos_of_ne_nil nonempty, fun i lt => ?_⟩
    (fun builtin => ?_) ?_ fun _ => LoopParams.noConfusion
  · have inside : i < (indexedArrayCopy h.extent row rows).length := lt
    have each := positive_copy some_items _ (List.getElem_mem inside)
    simpa [LoopParams.blocksize, inside] using each
  · have apart := apart_copy h.extent row rows
    rw [(sound.intrinsic builtin).2] at apart ⊢
    exact separated_indexed apart _
  · rw [rows_indexed, starts_copy, ← starts_cons]

/-- The blocks from the first one on that is not empty. -/
theorem indexed_from (sound : h.Sound) (some_items : 0 < row.count) (some_extent : dispinbytes = true ∨ h.extent ≠ 0)
    {first : ℕ} (found : (blocks.takeWhile fun row => row.count = 0).length = first)
    (from_first : blocks.drop first = row :: rows)
    (at_first : dispinbytes = true → first = 0) :
    ∃ d, dataloopCreateIndexed blocks dispinbytes h = some d ∧
      Shaped h (starts h.extent ((row :: rows).map (inBytes dispinbytes h.extent))) d := by
  have disps : (if dispinbytes then aintsAt first (blocks.map Row.displ) else (row :: rows).map Row.displ) =
      (row :: rows).map Row.displ := by
    split
    · rename_i inbytes
      obtain rfl := at_first inbytes
      rw [aintsAt_zero, ← from_first, List.drop_zero]
    · rfl
  have count := indexedCountContig_inBytes some_extent row rows
  have total_pos : 0 < ((row :: rows).map Row.count).sum := by
    rw [List.map_cons, List.sum_cons]
    exact Nat.add_pos_left some_items _
  have counts : ((row :: rows).map (inBytes dispinbytes h.extent)).map Row.count = (row :: rows).map Row.count := by
    rw [List.map_map]
    rfl
  unfold dataloopCreateIndexed
  dsimp only
  rw [found, from_first]
  dsimp only
  rw [disps]
  by_cases one : indexedCountContig (if dispinbytes then h.extent else 1) row rows = 1
  · -- all blocks are one row
    have whole : starts h.extent ((row :: rows).map (inBytes dispinbytes h.extent)) =
        (Row.mk ((row :: rows).map Row.count).sum (effDisp dispinbytes h.extent row.displ)).starts h.extent := by
      rw [← counts]
      exact row_of_copy (count ▸ one)
    rw [whole]
    by_cases zero : row.displ = 0
    · rw [if_pos ⟨one, zero⟩, zero, effDisp_zero]
      exact ⟨_, rfl, .contiguous total_pos rfl⟩
    · rw [if_neg fun both => zero both.2, if_pos one]
      refine ⟨_, rfl, ?_⟩
      have shaped := blockindexed_spec sound (List.cons_ne_nil row.displ []) total_pos dispinbytes
      rwa [List.map_singleton, starts_singleton] at shaped
  · rw [if_neg fun both => one both.1, if_neg one]
    by_cases equal : ∀ other ∈ rows, other.count = row.count
    · rw [if_pos equal, List.take_of_length_le (by simp)]
      refine ⟨_, rfl, ?_⟩
      have shaped := blockindexed_spec sound (List.cons_ne_nil row.displ (rows.map Row.displ)) some_items dispinbytes
      have same : (row.displ :: rows.map Row.displ).map (fun d => Row.mk row.count (effDisp dispinbytes h.extent d)) =
          (row :: rows).map (inBytes dispinbytes h.extent) := by
        rw [← List.map_cons, List.map_map]
        refine List.map_congr_left fun other mem => ?_
        have blklen : other.count = row.count := (List.mem_cons.mp mem).elim (fun here => here ▸ rfl) (equal other)
        simp only [Function.comp_apply, inBytes, blklen]
      rwa [same] at shaped
    · rw [if_neg equal]
      have pos : 0 < (inBytes dispinbytes h.extent row).count := some_items
      have shaped := copied_spec sound pos (rows.map (inBytes dispinbytes h.extent))
      rw [← List.map_cons, counts, length_copy, ← count] at shaped
      refine ⟨h.newLoop _, ?_, shaped⟩
      rw [if_pos ((length_copy _ _ _).trans count.symm), Handle.newLoop, sound.elExtent]
      cases loop : h.loop with
      | none =>
        have size : h.extent.toNat = h.size := by rw [(sound.intrinsic loop).2, Int.toNat_natCast]
        rw [size]
      | some d => rfl

/-- The first block that is not empty. -/
theorem first_block (some_items : ∃ row ∈ blocks, row.count ≠ 0) (extent : ℤ) :
    ∃ row rows, blocks.drop (blocks.takeWhile fun row => row.count = 0).length = row :: rows ∧ 0 < row.count ∧
      starts extent (blocks.map (inBytes dispinbytes extent)) =
        starts extent ((row :: rows).map (inBytes dispinbytes extent)) := by
  induction blocks with
  | nil => simp at some_items
  | cons block blocks ih =>
    by_cases empty : block.count = 0
    · have later : ∃ row ∈ blocks, row.count ≠ 0 := by simpa [empty] using some_items
      obtain ⟨row, rows, found, pos, same⟩ := ih later
      obtain ⟨n, d⟩ := block
      obtain rfl : n = 0 := empty
      exact ⟨row, rows, by simpa using found, pos, same⟩
    · exact ⟨block, blocks, by simp [empty], Nat.pos_of_ne_zero empty, rfl⟩

theorem indexed_spec (sound : h.Sound) (some_items : ∃ row ∈ blocks, row.count ≠ 0)
    (some_extent : dispinbytes = true ∨ h.extent ≠ 0)
    (at_first : dispinbytes = true → ∀ row ∈ blocks.head?, row.count ≠ 0) :
    ∃ d, dataloopCreateIndexed blocks dispinbytes h = some d ∧
      Shaped h (starts h.extent (blocks.map (inBytes dispinbytes h.extent))) d := by
  obtain ⟨row, rows, found, pos, same⟩ := first_block some_items h.extent
  rw [same]
  refine indexed_from sound pos some_extent rfl found fun inbytes => ?_
  obtain _ | ⟨block, blocks⟩ := blocks
  · rfl
  · have here : block.count ≠ 0 := at_first inbytes block rfl
    simp [here]

/-- Behind an empty block the displacements are read from the middle of its entry on: the lower half
of 8 is taken for an upper half. -/
example : dataloopCreateIndexed [⟨0, 0⟩, ⟨2, 8⟩] true .mpiInt = some (.final (.blockindexed 1 2 [34359738368]) 4 4) := by
  decide

end Indexed

end FoMPI.Mpitypes
