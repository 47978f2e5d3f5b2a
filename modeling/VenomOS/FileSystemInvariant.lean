/-
The representation invariant of VenomFS, and what freeing and filling a slot do
to it.
-/
import VenomOS.FileSystemAlloc

namespace VenomOS

namespace FileSystem

/-- A used entry: a terminated name and at most four disjoint extents in the
data region that hold exactly its bytes. -/
structure EntryInv (entry : FileEntry) : Prop where
  terminated : entry.cName.length < maxFilename
  count_le : entry.extentCount.toNat ≤ maxExtents
  valid : ∀ extent ∈ entry.active, extent.Valid
  total : blockTotal entry.active =
    (entry.sizeBytes.toNat + sectorSize - 1) / sectorSize
  apart : entry.active.Pairwise Extent.Apart

/-- The used entries are well formed, have different names and share no
sector. -/
structure TableInv (table : Table) : Prop where
  entry : ∀ i, (table i).used ≠ 0 → EntryInv (table i)
  names : ∀ i j, (table i).used ≠ 0 → (table j).used ≠ 0 →
    (table i).cName = (table j).cName → i = j
  apart : ∀ i j, i ≠ j → (table i).used ≠ 0 → (table j).used ≠ 0 →
    ∀ lba, ¬ (Held (table i).active lba ∧ Held (table j).active lba)

/-- A used file holds the sector. -/
def Occupied (table : Table) (lba : Nat) : Prop :=
  ∃ i, (table i).used ≠ 0 ∧ Held (table i).active lba

def BitmapInv (table : Table) (bits : Bitmap) : Prop :=
  ∀ b < totalDataBlocks, bits b = true ↔ Occupied table (dataStartLba + b)

structure RepInv (fs : State) : Prop where
  table : TableInv fs.table
  bitmap : BitmapInv fs.table fs.bitmap

/-- The used entries under other names are the same in both tables. -/
def SameElsewhere (name : List UInt8) (table table' : Table) : Prop :=
  ∀ i, ((table i).used ≠ 0 → (table i).cName ≠ name → table' i = table i) ∧
    ((table' i).used ≠ 0 → (table' i).cName ≠ name → table' i = table i)

variable {table table' : Table} {bits : Bitmap} {extents : List Extent}
variable {entry : FileEntry} {i : Fin maxFiles} {name : List UInt8}
variable {needed lba : Nat}

theorem SameElsewhere.refl (name : List UInt8) (table : Table) :
    SameElsewhere name table table :=
  fun _ => ⟨fun _ _ => rfl, fun _ _ => rfl⟩

/-- Replacing a slot that is unused or has the name. -/
theorem SameElsewhere.update {base : Table}
    (hsame : SameElsewhere name base table)
    (hold : (table i).used ≠ 0 → (table i).cName = name)
    (hnew : entry.used ≠ 0 → entry.cName = name) :
    SameElsewhere name base (Function.update table i entry) := by
  intro j
  by_cases hj : j = i
  · subst hj
    rw [Function.update_self]
    refine ⟨fun hused hname => ?_, fun hused hname => absurd (hnew hused) hname⟩
    have heq := (hsame j).1 hused hname
    rw [← heq] at hused hname
    exact absurd (hold hused) hname
  · rw [Function.update_of_ne hj]
    exact hsame j

theorem held_lba_bounds (hvalid : ∀ extent ∈ extents, extent.Valid)
    (hheld : Held extents lba) :
    dataStartLba ≤ lba ∧ lba < totalDiskSectors := by
  obtain ⟨extent, hextent, hlow, hhigh⟩ := hheld
  have := hvalid extent hextent
  simp only [Extent.Valid] at this
  omega

theorem cleared_used (entry : FileEntry) : entry.cleared.used = 0 := rfl

/-- A table keeps its invariant when a slot becomes unused. -/
theorem TableInv.update_unused (htable : TableInv table)
    (hentry : entry.used = 0) : TableInv (Function.update table i entry) := by
  have hold : ∀ j, (Function.update table i entry j).used ≠ 0 →
      Function.update table i entry j = table j := by
    intro j hused
    by_cases hj : j = i
    · subst hj
      rw [Function.update_self] at hused
      exact absurd hentry hused
    · rw [Function.update_of_ne hj]
  refine ⟨?_, ?_, ?_⟩
  · intro j hused
    have hj := hold j hused
    rw [hj] at hused ⊢
    exact htable.entry j hused
  · intro j k hj hk hname
    have hj' := hold j hj
    have hk' := hold k hk
    rw [hj'] at hj hname
    rw [hk'] at hk hname
    exact htable.names j k hj hk hname
  · intro j k hne hj hk
    have hj' := hold j hj
    have hk' := hold k hk
    rw [hj'] at hj ⊢
    rw [hk'] at hk ⊢
    exact htable.apart j k hne hj hk

theorem occupied_update_unused (hentry : entry.used = 0) :
    Occupied (Function.update table i entry) lba ↔
      ∃ j, j ≠ i ∧ (table j).used ≠ 0 ∧ Held (table j).active lba := by
  constructor
  · rintro ⟨j, hused, hheld⟩
    by_cases hj : j = i
    · subst hj
      rw [Function.update_self] at hused
      exact absurd hentry hused
    · rw [Function.update_of_ne hj] at hused hheld
      exact ⟨j, hj, hused, hheld⟩
  · rintro ⟨j, hj, hused, hheld⟩
    refine ⟨j, ?_, ?_⟩
    · rwa [Function.update_of_ne hj]
    · rwa [Function.update_of_ne hj]

section

variable (hbitmap : BitmapInv table bits)

include hbitmap

/-- An unused slot may be replaced by another unused one. -/
theorem BitmapInv.update_unused (hold : (table i).used = 0)
    (hentry : entry.used = 0) :
    BitmapInv (Function.update table i entry) bits := by
  intro b hb
  rw [hbitmap b hb, occupied_update_unused hentry]
  constructor
  · rintro ⟨j, hused, hheld⟩
    refine ⟨j, ?_, hused, hheld⟩
    rintro rfl
    exact hused hold
  · rintro ⟨j, _, hused, hheld⟩
    exact ⟨j, hused, hheld⟩

/-- Freeing a used slot clears exactly its blocks. -/
theorem BitmapInv.free (htable : TableInv table) (hused : (table i).used ≠ 0)
    (hentry : entry.used = 0) :
    BitmapInv (Function.update table i entry)
      (fillExtents false bits (table i).active) := by
  intro b hb
  rw [fillExtents_apply false (htable.entry i hused).valid,
    occupied_update_unused hentry]
  by_cases hheld : Held (table i).active (dataStartLba + b)
  · simp only [hheld, ↓reduceIte, Bool.false_eq_true, false_iff]
    rintro ⟨j, hj, hused', hheld'⟩
    exact htable.apart j i hj hused' hused _ ⟨hheld', hheld⟩
  · simp only [hheld, ↓reduceIte, hbitmap b hb]
    constructor
    · rintro ⟨j, hused', hheld'⟩
      refine ⟨j, ?_, hused', hheld'⟩
      rintro rfl
      exact hheld hheld'
    · rintro ⟨j, _, hused', hheld'⟩
      exact ⟨j, hused', hheld'⟩

/-- Extents that are free in the bitmap meet no used file. -/
theorem FreeExtents.not_occupied (hfree : FreeExtents bits needed extents)
    (hheld : Held extents lba) :
    ¬ Occupied table lba := by
  obtain ⟨hlow, hhigh⟩ := held_lba_bounds hfree.valid hheld
  have hlba : dataStartLba + (lba - dataStartLba) = lba := by omega
  have hb : lba - dataStartLba < totalDataBlocks := by
    simp only [totalDataBlocks]
    omega
  have hclear := hfree.free (lba - dataStartLba) (by rwa [hlba])
  intro hoccupied
  have hset := (hbitmap _ hb).mpr (by rwa [hlba])
  rw [hclear] at hset
  exact Bool.false_ne_true hset

/-- Filling an unused slot with free extents under a new name. -/
theorem TableInv.fill (htable : TableInv table)
    (hfree : FreeExtents bits needed extents) (hentry : EntryInv entry)
    (hactive : entry.active = extents)
    (hname : ∀ j, (table j).used ≠ 0 → (table j).cName ≠ entry.cName) :
    TableInv (Function.update table i entry) := by
  refine ⟨?_, ?_, ?_⟩
  · intro j hused
    by_cases hj : j = i
    · subst hj
      rwa [Function.update_self]
    · rw [Function.update_of_ne hj] at hused ⊢
      exact htable.entry j hused
  · intro j k hj hk hsame
    by_cases hji : j = i
    · by_cases hki : k = i
      · rw [hji, hki]
      · subst hji
        rw [Function.update_self, Function.update_of_ne hki] at hsame
        rw [Function.update_of_ne hki] at hk
        exact absurd hsame.symm (hname k hk)
    · by_cases hki : k = i
      · subst hki
        rw [Function.update_self, Function.update_of_ne hji] at hsame
        rw [Function.update_of_ne hji] at hj
        exact absurd hsame (hname j hj)
      · rw [Function.update_of_ne hji] at hj hsame
        rw [Function.update_of_ne hki] at hk hsame
        exact htable.names j k hj hk hsame
  · intro j k hne hj hk lba hboth
    by_cases hji : j = i
    · subst hji
      rw [Function.update_of_ne (Ne.symm hne)] at hk hboth
      rw [Function.update_self, hactive] at hboth
      exact hfree.not_occupied hbitmap hboth.1 ⟨k, hk, hboth.2⟩
    · by_cases hki : k = i
      · subst hki
        rw [Function.update_of_ne hne] at hj hboth
        rw [Function.update_self, hactive] at hboth
        exact hfree.not_occupied hbitmap hboth.2 ⟨j, hj, hboth.1⟩
      · rw [Function.update_of_ne hji] at hj hboth
        rw [Function.update_of_ne hki] at hk hboth
        exact htable.apart j k hne hj hk lba hboth

theorem BitmapInv.fill (hfree : FreeExtents bits needed extents)
    (hactive : entry.active = extents) (hold : (table i).used = 0)
    (hnew : entry.used ≠ 0) :
    BitmapInv (Function.update table i entry) (fillExtents true bits extents) := by
  intro b hb
  rw [fillExtents_apply true hfree.valid]
  by_cases hheld : Held extents (dataStartLba + b)
  · simp only [hheld, ↓reduceIte, true_iff]
    refine ⟨i, ?_, ?_⟩
    · rwa [Function.update_self]
    · rwa [Function.update_self, hactive]
  · simp only [hheld, ↓reduceIte, hbitmap b hb]
    constructor
    · rintro ⟨j, hused, hheld'⟩
      have hj : j ≠ i := by
        rintro rfl
        exact hused hold
      refine ⟨j, ?_, ?_⟩
      · rwa [Function.update_of_ne hj]
      · rwa [Function.update_of_ne hj]
    · rintro ⟨j, hused, hheld'⟩
      by_cases hj : j = i
      · subst hj
        rw [Function.update_self, hactive] at hheld'
        exact absurd hheld' hheld
      · rw [Function.update_of_ne hj] at hused hheld'
        exact ⟨j, hused, hheld'⟩

end

/-- Giving up extents that were just taken restores the bitmap. -/
theorem FreeExtents.undo (hfree : FreeExtents bits needed extents) :
    fillExtents false (fillExtents true bits extents) extents = bits := by
  funext b
  rw [fillExtents_apply false hfree.valid, fillExtents_apply true hfree.valid]
  by_cases hheld : Held extents (dataStartLba + b)
  · simp [hheld, hfree.free b hheld]
  · simp [hheld]

/-- Setting the blocks of a used entry again after clearing them restores the
bitmap. -/
theorem BitmapInv.redo (htable : TableInv table) (hbitmap : BitmapInv table bits)
    (hused : (table i).used ≠ 0) :
    fillExtents true (fillExtents false bits (table i).active)
      (table i).active = bits := by
  have hvalid := (htable.entry i hused).valid
  funext b
  rw [fillExtents_apply true hvalid, fillExtents_apply false hvalid]
  by_cases hheld : Held (table i).active (dataStartLba + b)
  · have hbounds := held_lba_bounds hvalid hheld
    have hb : b < totalDataBlocks := by
      simp only [totalDataBlocks]
      omega
    simp [hheld, (hbitmap b hb).mpr ⟨i, hused, hheld⟩]
  · simp [hheld]

/-- In a well-formed table the name that is found is the whole name. -/
theorem TableInv.find_some (htable : TableInv table) {name : CString}
    (hfind : find table name = some i) :
    (table i).used ≠ 0 ∧ (table i).cName = name.chars := by
  have hi := List.find?_some hfind
  simp only [Bool.and_eq_true, bne_iff_ne, ne_eq] at hi
  exact ⟨hi.1, (nameEquals_iff_of_terminated
    (htable.entry i hi.1).terminated name).mp hi.2⟩

theorem TableInv.find_none (htable : TableInv table) {name : CString}
    (hfind : find table name = none) :
    ∀ j, (table j).used ≠ 0 → (table j).cName ≠ name.chars := by
  intro j hused hname
  have hj := List.find?_eq_none.mp hfind j (List.mem_finRange j)
  refine hj ?_
  simp only [Bool.and_eq_true, bne_iff_ne, ne_eq]
  exact ⟨hused, (nameEquals_iff_of_terminated
    (htable.entry j hused).terminated name).mpr hname⟩

/-- The entry under a name is the one that is found. -/
theorem TableInv.find_eq (htable : TableInv table) {name : CString}
    (hused : (table i).used ≠ 0) (hname : (table i).cName = name.chars) :
    find table name = some i := by
  cases hfind : find table name with
  | none => exact absurd hname (htable.find_none hfind i hused)
  | some j =>
      obtain ⟨hused', hname'⟩ := htable.find_some hfind
      rw [htable.names j i hused' hused (hname'.trans hname.symm)]

theorem TableInv.fits_of_find (htable : TableInv table) {name : CString}
    (hfind : find table name = some i) : name.chars.length < maxFilename := by
  obtain ⟨hused, hname⟩ := htable.find_some hfind
  rw [← hname]
  exact (htable.entry i hused).terminated

theorem firstUnused_some (hfirst : firstUnused table = some i) :
    (table i).used = 0 := by
  simpa using List.find?_some hfirst

theorem fill_active (entry : FileEntry) (name : CString) (size : Nat)
    (hlength : extents.length ≤ maxExtents) :
    (entry.fill name size extents).active = extents := by
  have hcount : (UInt8.ofNat extents.length).toNat = extents.length := by
    refine UInt8.toNat_ofNat_of_lt' ?_
    have hsize : UInt8.size = 256 := rfl
    simp only [maxExtents] at hlength
    omega
  simp only [FileEntry.active, FileEntry.fill, hcount]
  refine List.ext_getElem ?_ fun k hk hk' => ?_
  · rw [List.length_take, List.length_ofFn]
    exact Nat.min_eq_left hlength
  · rw [List.getElem_take, List.getElem_ofFn]
    exact (List.getElem_eq_getD _).symm

theorem fill_entryInv (entry : FileEntry) (name : CString) {size : Nat}
    (hfits : name.chars.length < maxFilename)
    (hfree : FreeExtents bits ((size + sectorSize - 1) / sectorSize) extents) :
    EntryInv (entry.fill name size extents) := by
  have hactive := fill_active entry name size hfree.length_le
  refine ⟨?_, ?_, ?_, ?_, ?_⟩
  · rw [entry.fill_cName name size extents hfits]
    exact hfits
  · have hle := hfree.length_le
    change (UInt8.ofNat extents.length).toNat ≤ maxExtents
    rw [UInt8.toNat_ofNat']
    exact Nat.le_trans (Nat.mod_le _ _) hle
  · rw [hactive]
    exact hfree.valid
  · rw [hactive, hfree.total]
    change _ = ((UInt32.ofNat size).toNat + sectorSize - 1) / sectorSize
    rw [UInt32.toNat_ofNat_of_lt' hfree.size_lt]
  · rw [hactive]
    exact hfree.apart

end FileSystem

end VenomOS
