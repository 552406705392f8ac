import FoMPI.Foundation.Conversions
import FoMPI.Foundation.Pages

/-!
# Windows in shared memory

Every rank exports its window to the ranks of its node and maps theirs. XPMEM exports and attaches
whole pages. The sizes go through `int`, `unsigned long` and `size_t` on both sides.
-/
namespace FoMPI.Window

open FoMPI.Foundation

/-- The driver: `xpmem_make`, `xpmem_get`, and `xpmem_attach` at offset 0 of a segment. `none` stands
for a result of -1. -/
structure Xpmem (Seg Apid : Type) where
  make : ℕ → ℕ → Option Seg
  get : Seg → Option Apid
  attach : Apid → ℕ → Option ℕ
  /-- First address and size of what a segment exports. -/
  extent : Seg → ℕ × ℕ
  /-- The address of the exporter behind an address of the importer. -/
  denotes : Apid → ℕ → Option ℕ

/-- What the code relies on: the driver exports any range of whole pages, and attaches any part of a
segment for which the importer has room, which it has for less than 2 GiB and not beyond the
half of the address space that belongs to a process. -/
structure Xpmem.Documented {Seg Apid : Type} (X : Xpmem Seg Apid) (pageSize : ℕ) : Prop where
  make_pages : ∀ start n, start % pageSize = 0 → n % pageSize = 0 → 0 < n → ∃ seg, X.make start n = some seg
  make_extent : ∀ start n seg, X.make start n = some seg → X.extent seg = (start, n)
  get_permit : ∀ start n seg, X.make start n = some seg → ∃ apid, X.get seg = some apid
  attach_within : ∀ seg apid n, X.get seg = some apid → 0 < n → n ≤ (X.extent seg).2 → n < 2 ^ 31 →
    ∃ map, X.attach apid n = some map
  attach_room : ∀ seg apid n map, X.get seg = some apid → X.attach apid n = some map →
    0 < n ∧ map + n ≤ 2 ^ 63
  attach_denotes : ∀ seg apid n map, X.get seg = some apid → X.attach apid n = some map →
    ∀ k, k < n → X.denotes apid (map + k) = some ((X.extent seg).1 + k)

/-- `xpmem_seg_desc_t` -/
structure SegDesc (Seg : Type) where
  seg : Seg
  offset : ℤ

/-- The results of a mapping: `*apid`, `*offset` and the address returned. -/
structure Mapping (Apid : Type) where
  apid : Apid
  offset : ℤ
  addr : ℕ

variable {Seg Apid : Type} (X : Xpmem Seg Apid) (pageSize : ℕ)

/-- `ret.offset`, an `int` -/
def exportOffset (ptr : ℕ) : ℤ := asInt ((ptr : ℤ) - pageStart pageSize ptr)

/-- `szpages` of the exporter, a `size_t` -/
def exportPages (offset len : ℤ) : ℕ := pagesOver pageSize (asUlong (asInt (offset + len))) % 2 ^ 64

/-- `foMPI_export_memory_xpmem`; `none` where the driver fails, which an assertion rejects. -/
def exportMemoryXpmem (ptr : ℕ) (len : ℤ) : Option (SegDesc Seg) :=
  (X.make (pageStart pageSize ptr) (exportPages pageSize (exportOffset pageSize ptr) len)).map fun seg =>
    { seg := seg, offset := exportOffset pageSize ptr }

/-- `szpages` of the importer, an `int` that `xpmem_attach` takes as a `size_t` -/
def mapPages (offset len : ℤ) : ℕ := asUlong (asInt (exportPages pageSize offset len))

/-- `foMPI_map_memory_xpmem`; `none` where the driver fails. -/
def mapMemoryXpmem (rseg : SegDesc Seg) (len : ℤ) : Option (Mapping Apid) := do
  let apid ← X.get rseg.seg
  let map ← X.attach apid (mapPages pageSize rseg.offset len)
  return { apid := apid, offset := rseg.offset, addr := asUlong ((map : ℤ) + rseg.offset) }

/-- The argument of `xpmem_detach` in `foMPI_unmap_memory_xpmem`. -/
def unmapAddress (addr : ℕ) (offset : ℤ) : ℕ := asUlong (addr - offset)

/-- `foMPI_Win_create` exports and maps windows that have memory. -/
def exported (base size : ℕ) : Prop := base ≠ 0 ∧ 0 < size

/-- The range exported from a page boundary on, and the range attached from the start of the segment
on, both hold every byte of the window; an address of the mapping denotes the byte of the same index; and the
mapping is undone at the address where it was made. The `int` parameters cut the size. -/
def WindowMapped (base size : ℕ) : Prop :=
  ∃ rseg m map, exportMemoryXpmem X pageSize base (asInt size) = some rseg ∧
    mapMemoryXpmem X pageSize rseg (asInt size) = some m ∧
    X.attach m.apid (mapPages pageSize rseg.offset (asInt size)) = some map ∧
    unmapAddress m.addr m.offset = map ∧
    ∀ i, i < size → pageStart pageSize base ≤ base + i ∧
      base + i < pageStart pageSize base + exportPages pageSize (exportOffset pageSize base) (asInt size) ∧
      base + i < pageStart pageSize base + mapPages pageSize rseg.offset (asInt size) ∧
      X.denotes m.apid (m.addr + i) = some (base + i)

section Sizes

variable {X pageSize} {k base size : ℕ}

/-- A page size of the machine: a power of two that `getpagesize` returns as an `int`. -/
structure IsPageSize (pageSize : ℕ) : Prop where
  power : ∃ k, k ≤ 30 ∧ pageSize = 2 ^ k

theorem IsPageSize.pos (page : IsPageSize pageSize) : 0 < pageSize := by
  obtain ⟨k, _, rfl⟩ := page.power
  exact Nat.two_pow_pos k

theorem IsPageSize.le (page : IsPageSize pageSize) : pageSize ≤ 2 ^ 30 := by
  obtain ⟨k, small, rfl⟩ := page.power
  exact Nat.pow_le_pow_right (by decide) small

theorem IsPageSize.dvd (page : IsPageSize pageSize) {n : ℕ} (high : 30 ≤ n) : pageSize ∣ 2 ^ n := by
  obtain ⟨k, small, rfl⟩ := page.power
  exact Nat.pow_dvd_pow 2 (small.trans high)

/-- The offset in the page is kept in full. -/
theorem exportOffset_eq (page : IsPageSize pageSize) : exportOffset pageSize base = (base % pageSize : ℕ) := by
  have whole := @pageStart_add_mod pageSize base
  have inside := Nat.mod_lt base page.pos
  have small := page.le
  have same : (base : ℤ) - pageStart pageSize base = (base % pageSize : ℕ) := by omega
  rw [exportOffset, same, asInt_eq] <;> omega

/-- The sum that both sides round up. -/
def lengthSum (pageSize base size : ℕ) : ℤ := asInt (exportOffset pageSize base + asInt size)

theorem lengthSum_range : -2 ^ 31 ≤ lengthSum pageSize base size ∧ lengthSum pageSize base size < 2 ^ 31 :=
  asInt_range

/-- Where the sum is not negative both sides round it up, the importer into an `int`. -/
theorem exportPages_of_nonneg (page : IsPageSize pageSize) (nonneg : 0 ≤ lengthSum pageSize base size) :
    exportPages pageSize (exportOffset pageSize base) (asInt size) =
      pagesOver pageSize (lengthSum pageSize base size).toNat := by
  have bound := (@lengthSum_range pageSize base size).2
  have plain : asUlong (lengthSum pageSize base size) = (lengthSum pageSize base size).toNat := by
    have := asUlong_eq nonneg (by omega)
    omega
  have small := @pagesOver_le pageSize (lengthSum pageSize base size).toNat
  have pageLe := page.le
  change pagesOver pageSize (asUlong (lengthSum pageSize base size)) % 2 ^ 64 = _
  rw [plain, Nat.mod_eq_of_lt (by omega)]

/-- A negative sum is taken for a number close to `2 ^ 64`, by the importer too. -/
theorem mapPages_of_neg (page : IsPageSize pageSize) (negative : lengthSum pageSize base size < 0) :
    mapPages pageSize (exportOffset pageSize base) (asInt size) = 0 ∨
      2 ^ 63 < mapPages pageSize (exportOffset pageSize base) (asInt size) := by
  have bound := (@lengthSum_range pageSize base size).1
  have wrapped := asUlong_of_neg (by omega) negative
  have above := @lt_pagesOver pageSize (asUlong (lengthSum pageSize base size)) page.pos
  have below : pagesOver pageSize (asUlong (lengthSum pageSize base size)) ≤ 2 ^ 64 :=
    pagesOver_le_of_dvd (page.dvd (by decide)) (by omega)
  rw [mapPages]
  change asUlong (asInt (pagesOver pageSize (asUlong (lengthSum pageSize base size)) % 2 ^ 64 : ℕ)) = 0 ∨
    2 ^ 63 < asUlong (asInt (pagesOver pageSize (asUlong (lengthSum pageSize base size)) % 2 ^ 64 : ℕ))
  generalize pagesOver pageSize (asUlong (lengthSum pageSize base size)) = n at *
  obtain full | part := Nat.eq_or_lt_of_le below
  · left
    rw [full]
    decide
  · right
    obtain ⟨j, cut⟩ := @asInt_eq_sub (n % 2 ^ 64 : ℕ)
    have range := @asInt_range (n % 2 ^ 64 : ℕ)
    rw [Nat.mod_eq_of_lt part] at *
    have := @asUlong_of_neg (asInt n) (by omega) (by omega)
    omega

/-- The size that the importer asks for, where the sum is a number of bytes. -/
theorem mapPages_of_nonneg (page : IsPageSize pageSize) (nonneg : 0 ≤ lengthSum pageSize base size) :
    mapPages pageSize (exportOffset pageSize base) (asInt size) =
        pagesOver pageSize (lengthSum pageSize base size).toNat ∧
        pagesOver pageSize (lengthSum pageSize base size).toNat < 2 ^ 31 ∨
      2 ^ 63 < mapPages pageSize (exportOffset pageSize base) (asInt size) := by
  have bound := (@lengthSum_range pageSize base size).2
  have below : pagesOver pageSize (lengthSum pageSize base size).toNat ≤ 2 ^ 31 :=
    pagesOver_le_of_dvd (page.dvd (by decide)) (by omega)
  rw [mapPages, exportPages_of_nonneg page nonneg]
  obtain full | part := Nat.eq_or_lt_of_le below
  · right
    rw [full]
    decide
  · left
    refine ⟨?_, part⟩
    rw [asInt_eq (by omega) (by omega), asUlong_natCast (by omega)]

/-- A sum below the range of `int` is the number of bytes from the page boundary on. -/
theorem lengthSum_eq (page : IsPageSize pageSize) (small : base % pageSize + size < 2 ^ 31) :
    lengthSum pageSize base size = (base % pageSize + size : ℕ) := by
  rw [lengthSum, exportOffset_eq page, @asInt_eq size (by omega) (by omega), asInt_eq] <;> push_cast <;> omega

/-- Every sum is the number of bytes up to a multiple of `2 ^ 32`. -/
theorem lengthSum_eq_sub (page : IsPageSize pageSize) :
    ∃ j : ℤ, lengthSum pageSize base size = (base % pageSize + size : ℕ) - 2 ^ 32 * j := by
  obtain ⟨j, size'⟩ := @asInt_eq_sub size
  obtain ⟨i, sum⟩ := @asInt_eq_sub (exportOffset pageSize base + asInt size)
  refine ⟨i + j, ?_⟩
  rw [lengthSum, sum, size', exportOffset_eq page]
  push_cast
  omega

end Sizes

section Coverage

variable {X pageSize} {base size : ℕ}

/-- What a mapping that was made says about the driver's answers. -/
theorem mapMemoryXpmem_eq_some {rseg : SegDesc Seg} {len : ℤ} {m : Mapping Apid}
    (done : mapMemoryXpmem X pageSize rseg len = some m) :
    ∃ map, X.get rseg.seg = some m.apid ∧ X.attach m.apid (mapPages pageSize rseg.offset len) = some map ∧
      m.offset = rseg.offset ∧ m.addr = asUlong ((map : ℤ) + rseg.offset) := by
  obtain ⟨apid, permitted, later⟩ := Option.bind_eq_some_iff.mp done
  obtain ⟨map, attached, result⟩ := Option.bind_eq_some_iff.mp later
  cases result
  exact ⟨map, permitted, attached, rfl, rfl⟩

theorem exportMemoryXpmem_eq_some {rseg : SegDesc Seg} {len : ℤ}
    (done : exportMemoryXpmem X pageSize base len = some rseg) :
    X.make (pageStart pageSize base) (exportPages pageSize (exportOffset pageSize base) len) = some rseg.seg ∧
      rseg.offset = exportOffset pageSize base := by
  obtain ⟨seg, made, result⟩ := Option.map_eq_some_iff.mp done
  cases result
  exact ⟨made, rfl⟩

/-- A window that is mapped has its last byte in the range exported, so that no bit of its size
was lost, and an attachment of less than 2 GiB. -/
theorem pagesOver_of_windowMapped (laws : X.Documented pageSize) (page : IsPageSize pageSize) (some : 0 < size)
    (mapped : WindowMapped X pageSize base size) : pagesOver pageSize (base % pageSize + size) < 2 ^ 31 := by
  obtain ⟨rseg, m, _, made, done, _, _, inside⟩ := mapped
  obtain ⟨map, permitted, attached, _, _⟩ := mapMemoryXpmem_eq_some done
  obtain ⟨_, sameOffset⟩ := exportMemoryXpmem_eq_some made
  have room := laws.attach_room _ _ _ _ permitted attached
  rw [sameOffset] at room
  have nonneg : 0 ≤ lengthSum pageSize base size := by
    by_contra negative
    have := mapPages_of_neg page (Int.not_le.mp negative)
    omega
  obtain ⟨_, small⟩ | beyond := mapPages_of_nonneg page nonneg
  · -- the last byte bounds the sum from below, so the multiple of `2 ^ 32` is zero
    have last := (inside (size - 1) (by omega)).2.1
    rw [exportPages_of_nonneg page nonneg] at last
    have rounded := @pagesOver_le pageSize (lengthSum pageSize base size).toNat
    have whole := @pageStart_add_mod pageSize base
    have pageLe := page.le
    have below := @lt_pagesOver pageSize (lengthSum pageSize base size).toNat page.pos
    obtain ⟨j, cut⟩ := @lengthSum_eq_sub _ base size page
    have exact : (lengthSum pageSize base size).toNat = base % pageSize + size := by omega
    rwa [exact] at small
  · omega

/-- Below 2 GiB with the rounding, nothing is cut and the driver does as it is asked. -/
theorem windowMapped_of_pagesOver (laws : X.Documented pageSize) (page : IsPageSize pageSize)
    (small : pagesOver pageSize (base % pageSize + size) < 2 ^ 31) : WindowMapped X pageSize base size := by
  have beyond := @lt_pagesOver pageSize (base % pageSize + size) page.pos
  have sum := @lengthSum_eq _ base size page (by omega)
  have pages : exportPages pageSize (exportOffset pageSize base) (asInt size) =
      pagesOver pageSize (base % pageSize + size) := by
    rw [exportPages_of_nonneg page (by omega), sum, Int.toNat_natCast]
  have mapped : mapPages pageSize (exportOffset pageSize base) (asInt size) =
      pagesOver pageSize (base % pageSize + size) := by
    rw [mapPages, pages, asInt_eq (by omega) (by omega), asUlong_natCast (by omega)]
  obtain ⟨seg, made⟩ := laws.make_pages (pageStart pageSize base) (pagesOver pageSize (base % pageSize + size))
    pageStart_mod pagesOver_mod (by omega)
  have extent := laws.make_extent _ _ _ made
  obtain ⟨apid, permitted⟩ := laws.get_permit _ _ _ made
  obtain ⟨map, attached⟩ := laws.attach_within seg apid (pagesOver pageSize (base % pageSize + size)) permitted
    (by omega) (by rw [extent]) small
  have room := laws.attach_room _ _ _ _ permitted attached
  have offset := @exportOffset_eq _ base page
  have inPage := Nat.mod_lt base page.pos
  have pageLe := page.le
  have addr : asUlong ((map : ℤ) + exportOffset pageSize base) = map + base % pageSize := by
    have := @asUlong_eq ((map : ℤ) + exportOffset pageSize base) (by omega) (by omega)
    omega
  have whole := @pageStart_add_mod pageSize base
  refine ⟨⟨seg, exportOffset pageSize base⟩, ⟨apid, exportOffset pageSize base, map + base % pageSize⟩, map, ?_, ?_, ?_, ?_, ?_⟩
  · rw [exportMemoryXpmem, pages, made]
    rfl
  · rw [mapMemoryXpmem, permitted, mapped]
    change (X.attach apid _).bind _ = _
    rw [attached, ← addr]
    rfl
  · rw [mapped, attached]
  · have back : ((map + base % pageSize : ℕ) : ℤ) - exportOffset pageSize base = map := by omega
    rw [unmapAddress, back, asUlong_natCast (by omega)]
  · intro i inside
    rw [pages, mapped]
    refine ⟨by omega, by omega, by omega, ?_⟩
    have denoted := laws.attach_denotes _ _ _ _ permitted attached (base % pageSize + i) (by omega)
    rw [extent, ← Nat.add_assoc, ← Nat.add_assoc, whole] at denoted
    exact denoted

/-- The pages of a window are exported and mapped in full exactly if they, with the one page
that is always added, are less than 2 GiB: the sizes are passed as `int`. -/
theorem window_mapped_iff (X : Xpmem Seg Apid) (pageSize : ℕ) (laws : X.Documented pageSize)
    (page : IsPageSize pageSize) (base size : ℕ) :
    (exported base size → WindowMapped X pageSize base size) ↔
      (exported base size → pagesOver pageSize (base % pageSize + size) < 2 ^ 31) :=
  ⟨fun all window => pagesOver_of_windowMapped laws page window.2 (all window),
    fun small window => windowMapped_of_pagesOver laws page (small window)⟩

end Coverage

section Example

/-- A driver that attaches every segment in the middle of the address space. -/
def plainXpmem (pageSize : ℕ) : Xpmem (ℕ × ℕ) (ℕ × ℕ) where
  make start n := if start % pageSize = 0 ∧ n % pageSize = 0 ∧ 0 < n then some (start, n) else none
  get seg := some seg
  attach apid n := if 0 < n ∧ n ≤ apid.2 ∧ n < 2 ^ 47 then some (2 ^ 46) else none
  extent seg := seg
  denotes apid x := if 2 ^ 46 ≤ x then some (apid.1 + (x - 2 ^ 46)) else none

theorem plainXpmem_documented (pageSize : ℕ) : (plainXpmem pageSize).Documented pageSize where
  make_pages start n whole pages some := ⟨_, if_pos ⟨whole, pages, some⟩⟩
  make_extent start n seg made := by
    rw [plainXpmem, Option.ite_none_right_eq_some] at made
    exact (Option.some.inj made.2).symm
  get_permit _ _ seg _ := ⟨seg, rfl⟩
  attach_within seg apid n permitted some within small := by
    cases permitted
    exact ⟨_, if_pos ⟨some, within, by omega⟩⟩
  attach_room seg apid n map _ attached := by
    rw [plainXpmem, Option.ite_none_right_eq_some] at attached
    obtain ⟨bounds, result⟩ := attached
    cases result
    omega
  attach_denotes seg apid n map permitted attached k inside := by
    rw [plainXpmem, Option.ite_none_right_eq_some] at attached
    obtain ⟨bounds, result⟩ := attached
    cases result
    cases permitted
    refine (if_pos (Nat.le_add_right _ _)).trans ?_
    rw [Nat.add_sub_cancel_left]
    rfl

theorem isPageSize_4096 : IsPageSize 4096 := ⟨12, by decide, by decide⟩

theorem window_mapped_small : WindowMapped (plainXpmem 4096) 4096 5000 100000 :=
  (window_mapped_iff (plainXpmem 4096) 4096 (plainXpmem_documented 4096) isPageSize_4096 5000 100000).mpr
    (fun _ => by decide) ⟨by decide, by decide⟩

/-- One byte more than 4 GiB: the size is cut to 1, and one page is exported. -/
theorem window_over_4GiB_not_mapped :
    (plainXpmem 4096).Documented 4096 ∧ IsPageSize 4096 ∧ exported 4096 4294967297 ∧
      ¬WindowMapped (plainXpmem 4096) 4096 4096 4294967297 := by
  refine ⟨plainXpmem_documented 4096, isPageSize_4096, ⟨by decide, by decide⟩, fun mapped => ?_⟩
  obtain ⟨_, _, _, _, _, _, _, inside⟩ := mapped
  have behind := (inside 4294967296 (by decide)).2.1
  exact absurd behind (by decide)

end Example

end FoMPI.Window
