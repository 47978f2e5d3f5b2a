/-
The block allocator.  Whatever extents `write` chooses are free, disjoint,
inside the data region and add up to what was asked for.
-/
import VenomOS.FileSystemLayout

namespace VenomOS

namespace FileSystem

/-- The extent lies in the data region. -/
def Extent.Valid (extent : Extent) : Prop :=
  dataStartLba ≤ extent.startLba.toNat ∧
    extent.startLba.toNat + extent.blockCount.toNat ≤ totalDiskSectors

instance (extent : Extent) : Decidable extent.Valid :=
  inferInstanceAs (Decidable (_ ∧ _))

def Extent.Holds (extent : Extent) (lba : Nat) : Prop :=
  extent.startLba.toNat ≤ lba ∧
    lba < extent.startLba.toNat + extent.blockCount.toNat

instance (extent : Extent) (lba : Nat) : Decidable (extent.Holds lba) :=
  inferInstanceAs (Decidable (_ ∧ _))

/-- Some extent of the list holds the sector. -/
def Held (extents : List Extent) (lba : Nat) : Prop :=
  ∃ extent ∈ extents, extent.Holds lba

instance (extents : List Extent) (lba : Nat) : Decidable (Held extents lba) :=
  inferInstanceAs (Decidable (∃ extent ∈ extents, extent.Holds lba))

def Extent.Apart (first second : Extent) : Prop :=
  ∀ lba, ¬ (first.Holds lba ∧ second.Holds lba)

def blockTotal (extents : List Extent) : Nat :=
  (extents.map fun extent => extent.blockCount.toNat).sum

variable {bits : Bitmap} {extents found : List Extent} {extent : Extent}
variable {block needed remaining : Nat}

theorem held_cons_iff {lba : Nat} :
    Held (extent :: extents) lba ↔ extent.Holds lba ∨ Held extents lba := by
  simp [Held]

theorem fillBits_apply (value : Bool) {start : UInt32} {count : Nat}
    (hfits : start.toNat + count ≤ 2 ^ 32) (bits : Bitmap) (b : Nat) :
    fillBits value start count bits b =
      if start.toNat ≤ b ∧ b < start.toNat + count then value else bits b := by
  induction count with
  | zero =>
      rw [fillBits, if_neg (by omega)]
  | succ count ih =>
      have hlast : (start + UInt32.ofNat count).toNat = start.toNat + count := by
        have hcount : count < 2 ^ 32 := by omega
        rw [UInt32.toNat_add, UInt32.toNat_ofNat_of_lt' hcount,
          Nat.mod_eq_of_lt (by omega)]
      rw [fillBits, Function.update_apply, hlast, ih (by omega)]
      grind

theorem fillExtents_apply (value : Bool)
    (hvalid : ∀ extent ∈ extents, extent.Valid) (bits : Bitmap) (b : Nat) :
    fillExtents value bits extents b =
      if Held extents (dataStartLba + b) then value else bits b := by
  induction extents generalizing bits with
  | nil => simp [fillExtents, Held]
  | cons head tail ih =>
      obtain ⟨hlow, hhigh⟩ := hvalid head List.mem_cons_self
      have hstart : (head.startLba - UInt32.ofNat dataStartLba).toNat =
          head.startLba.toNat - dataStartLba := by
        have hle : UInt32.ofNat dataStartLba ≤ head.startLba := by
          rw [UInt32.le_iff_toNat_le]
          exact hlow
        rw [UInt32.toNat_sub_of_le _ _ hle]
        rfl
      have hrest := ih (fun extent hextent =>
        hvalid extent (List.mem_cons_of_mem _ hextent))
        (fillBits value (head.startLba - UInt32.ofNat dataStartLba)
          head.blockCount.toNat bits)
      have hfits : (head.startLba - UInt32.ofNat dataStartLba).toNat +
          head.blockCount.toNat ≤ 2 ^ 32 := by
        rw [hstart]
        simp only [totalDiskSectors, dataStartLba] at hlow hhigh ⊢
        omega
      have hhead := fillBits_apply value hfits bits b
      have hholds : (head.startLba.toNat - dataStartLba ≤ b ∧
          b < head.startLba.toNat - dataStartLba + head.blockCount.toNat) ↔
            head.Holds (dataStartLba + b) := by
        simp only [Extent.Holds]
        omega
      rw [hstart] at hhead
      simp only [fillExtents, List.foldl_cons] at hrest ⊢
      rw [hrest, hhead]
      simp only [hholds, held_cons_iff]
      by_cases htail : Held tail (dataStartLba + b)
      · simp [htail]
      · simp [htail]

/-- What the allocator promises about the extents it returns. -/
structure FreeExtents (bits : Bitmap) (needed : Nat) (extents : List Extent) :
    Prop where
  valid : ∀ extent ∈ extents, extent.Valid
  free : ∀ b, Held extents (dataStartLba + b) → bits b = false
  apart : extents.Pairwise Extent.Apart
  total : blockTotal extents = needed
  length_le : extents.length ≤ maxExtents

theorem blockTotal_le (hvalid : ∀ extent ∈ extents, extent.Valid) :
    blockTotal extents ≤ extents.length * totalDiskSectors := by
  induction extents with
  | nil => simp [blockTotal]
  | cons head tail ih =>
      have hhead := (hvalid head List.mem_cons_self).2
      have htail := ih fun extent hextent =>
        hvalid extent (List.mem_cons_of_mem _ hextent)
      simp only [blockTotal, List.map_cons, List.sum_cons, List.length_cons,
        Nat.succ_mul] at htail ⊢
      omega

/-- Data that were given extents are small. -/
theorem FreeExtents.size_lt {size : Nat}
    (hfree : FreeExtents bits ((size + sectorSize - 1) / sectorSize) extents) :
    size < 2 ^ 32 := by
  have hbound := blockTotal_le hfree.valid
  have hlength := hfree.length_le
  rw [hfree.total] at hbound
  simp only [sectorSize, totalDiskSectors, maxExtents] at hbound hlength
  omega

theorem findFreeRunFrom_spec {left runStart runLength start : Nat}
    (hleft : block + left = totalDataBlocks)
    (hrun : 0 < runLength → runStart + runLength = block)
    (hfree : ∀ b, runStart ≤ b → b < runStart + runLength → bits b = false)
    (hfind : findFreeRunFrom bits needed left block runStart runLength =
      some start) :
    start + needed ≤ totalDataBlocks ∧
      ∀ b, start ≤ b → b < start + needed → bits b = false := by
  induction left generalizing block runStart runLength with
  | zero => simp [findFreeRunFrom] at hfind
  | succ left ih =>
      by_cases hbit : bits block = true
      · simp only [findFreeRunFrom, hbit, ↓reduceIte] at hfind
        exact ih (by omega) (by omega) (by omega) hfind
      · have hclear : bits block = false := by simpa using hbit
        simp only [findFreeRunFrom, hbit, Bool.false_eq_true, ↓reduceIte]
          at hfind
        have hstart : (if runLength = 0 then block else runStart) + runLength =
            block := by
          split
          · omega
          · exact hrun (by omega)
        have hfree' : ∀ b, (if runLength = 0 then block else runStart) ≤ b →
            b < (if runLength = 0 then block else runStart) + (runLength + 1) →
              bits b = false := by
          intro b hlow hhigh
          by_cases hlast : b = block
          · rw [hlast, hclear]
          · split at hlow
            · omega
            · exact hfree b hlow (by omega)
        split at hfind
        · rename_i hneeded
          have hresult := Option.some.inj hfind
          subst hresult
          rw [← hneeded]
          exact ⟨by omega, hfree'⟩
        · exact ih (by omega) (by omega) hfree' hfind

theorem freeRunLength_spec (bits : Bitmap) (block remaining : Nat) :
    freeRunLength bits block remaining ≤ remaining ∧
      ∀ b, block ≤ b → b < block + freeRunLength bits block remaining →
        b < totalDataBlocks ∧ bits b = false := by
  induction remaining generalizing block with
  | zero =>
      refine ⟨Nat.le_refl _, fun b hlow hhigh => ?_⟩
      simp only [freeRunLength] at hhigh
      omega
  | succ remaining ih =>
      by_cases hfree : (block < totalDataBlocks && !bits block) = true
      · have hblock := hfree
        simp only [Bool.and_eq_true, decide_eq_true_eq, Bool.not_eq_true']
          at hblock
        simp only [freeRunLength, hfree, ↓reduceIte]
        obtain ⟨hle, hrest⟩ := ih (block + 1)
        refine ⟨Nat.succ_le_succ hle, fun b hlow hhigh => ?_⟩
        by_cases hfirst : b = block
        · rw [hfirst]
          exact hblock
        · exact hrest b (by omega) (by omega)
      · simp only [freeRunLength, hfree, Bool.false_eq_true, ↓reduceIte]
        refine ⟨Nat.zero_le _, fun b hlow hhigh => ?_⟩
        omega

/-- The numbers of a run as an extent. -/
theorem runExtent_toNat {start length : Nat}
    (hfits : start + length ≤ totalDataBlocks) :
    (UInt32.ofNat (dataStartLba + start)).toNat = dataStartLba + start ∧
      (UInt32.ofNat length).toNat = length := by
  have hsize : UInt32.size = 2 ^ 32 := rfl
  simp only [totalDataBlocks, totalDiskSectors, dataStartLba] at hfits ⊢
  exact ⟨UInt32.toNat_ofNat_of_lt' (by omega),
    UInt32.toNat_ofNat_of_lt' (by omega)⟩

/-- What the outer loop keeps true of the extents found so far. -/
structure ScanInv (bits : Bitmap) (needed block remaining : Nat)
    (found : List Extent) : Prop where
  valid : ∀ extent ∈ found, extent.Valid
  behind : ∀ lba, Held found lba → lba < dataStartLba + block
  free : ∀ b, Held found (dataStartLba + b) → bits b = false
  apart : found.Pairwise Extent.Apart
  total : blockTotal found + remaining = needed
  length_le : found.length ≤ maxExtents

theorem ScanInv.start (bits : Bitmap) (needed : Nat) :
    ScanInv bits needed 0 needed [] :=
  ⟨by simp, by simp [Held], by simp [Held], List.Pairwise.nil,
    by simp [blockTotal], by simp⟩

theorem ScanInv.advance (hinv : ScanInv bits needed block remaining found)
    {length : Nat} (hlength : length ≤ remaining)
    (hfits : block + length ≤ totalDataBlocks)
    (hroom : found.length < maxExtents)
    (hfree : ∀ b, block ≤ b → b < block + length → bits b = false) :
    ScanInv bits needed (block + length) (remaining - length)
      (found ++ [⟨UInt32.ofNat (dataStartLba + block), UInt32.ofNat length⟩]) := by
  obtain ⟨hstart, hcount⟩ := runExtent_toNat hfits
  have hholds : ∀ lba, Extent.Holds ⟨UInt32.ofNat (dataStartLba + block),
      UInt32.ofNat length⟩ lba ↔
        dataStartLba + block ≤ lba ∧ lba < dataStartLba + block + length := by
    intro lba
    simp only [Extent.Holds, hstart, hcount]
  have hheld : ∀ lba, Held (found ++ [⟨UInt32.ofNat (dataStartLba + block),
      UInt32.ofNat length⟩]) lba ↔ Held found lba ∨
        (dataStartLba + block ≤ lba ∧ lba < dataStartLba + block + length) := by
    intro lba
    simp only [Held, List.mem_append, List.mem_singleton, ← hholds]
    grind
  refine ⟨?_, ?_, ?_, ?_, ?_, ?_⟩
  · intro extent hextent
    rcases List.mem_append.mp hextent with hmem | hmem
    · exact hinv.valid extent hmem
    · rw [List.mem_singleton.mp hmem, Extent.Valid, hstart, hcount]
      simp only [totalDataBlocks, totalDiskSectors, dataStartLba] at hfits ⊢
      omega
  · intro lba hlba
    rcases (hheld lba).mp hlba with hold | hnew
    · have := hinv.behind lba hold
      omega
    · omega
  · intro b hb
    rcases (hheld _).mp hb with hold | hnew
    · exact hinv.free b hold
    · exact hfree b (by omega) (by omega)
  · refine List.pairwise_append.mpr ⟨hinv.apart, by simp, ?_⟩
    intro extent hextent other hother lba hboth
    rw [List.mem_singleton.mp hother, hholds] at hboth
    have := hinv.behind lba ⟨extent, hextent, hboth.1⟩
    omega
  · have := hinv.total
    simp only [blockTotal, List.map_append, List.sum_append, List.map_cons,
      List.map_nil, List.sum_cons, List.sum_nil, hcount] at this ⊢
    omega
  · simp only [List.length_append, List.length_singleton]
    omega

theorem ScanInv.skip (hinv : ScanInv bits needed block remaining found) :
    ScanInv bits needed (block + 1) remaining found :=
  { hinv with
    behind := fun lba hlba => Nat.lt_succ_of_lt (hinv.behind lba hlba) }

theorem findFreeExtentsFrom_spec (passes : Nat)
    (hinv : ScanInv bits needed block remaining found) :
    ∃ block', ScanInv bits needed block'
      (findFreeExtentsFrom bits passes block remaining found).1
      (findFreeExtentsFrom bits passes block remaining found).2 := by
  induction passes generalizing block remaining found with
  | zero => exact ⟨block, hinv⟩
  | succ passes ih =>
      simp only [findFreeExtentsFrom]
      split
      · rename_i hgo
        split
        · exact ih hinv.skip
        · obtain ⟨hle, hrun⟩ := freeRunLength_spec bits block remaining
          refine ih (hinv.advance hle ?_ hgo.2.2 fun b hlow hhigh =>
            (hrun b hlow hhigh).2)
          by_contra hover
          have hlast := hrun
            (block + freeRunLength bits block remaining - 1) (by omega)
            (by omega)
          omega
      · exact ⟨block, hinv⟩

theorem findFreeExtents_spec
    (hfound : findFreeExtents bits needed = extents) (hne : extents ≠ []) :
    FreeExtents bits needed extents := by
  obtain ⟨block, hinv⟩ :=
    findFreeExtentsFrom_spec totalDataBlocks (ScanInv.start bits needed)
  simp only [findFreeExtents] at hfound
  split at hfound
  · exact absurd hfound.symm hne
  · rename_i hnone
    subst hfound
    refine ⟨hinv.valid, hinv.free, hinv.apart, ?_, hinv.length_le⟩
    have := hinv.total
    omega

theorem singleRun_freeExtents {start : Nat}
    (hfits : start + needed ≤ totalDataBlocks)
    (hfree : ∀ b, start ≤ b → b < start + needed → bits b = false) :
    FreeExtents bits needed
      [⟨UInt32.ofNat (dataStartLba + start), UInt32.ofNat needed⟩] := by
  obtain ⟨hstart, hcount⟩ := runExtent_toNat hfits
  refine ⟨?_, ?_, List.pairwise_singleton _ _, ?_, by simp [maxExtents]⟩
  · intro extent hextent
    rw [List.mem_singleton.mp hextent, Extent.Valid, hstart, hcount]
    simp only [totalDataBlocks, totalDiskSectors, dataStartLba] at hfits ⊢
    omega
  · intro b hb
    simp only [Held, List.mem_singleton, exists_eq_left, Extent.Holds, hstart,
      hcount] at hb
    exact hfree b (by omega) (by omega)
  · simp [blockTotal, hcount]

/-- The extents `write` goes on with. -/
theorem chooseExtents_spec (hchoose : chooseExtents bits needed = some extents) :
    FreeExtents bits needed extents := by
  unfold chooseExtents at hchoose
  split at hchoose
  · rename_i hzero
    cases hchoose
    exact ⟨by simp, by simp [Held], List.Pairwise.nil,
      by simp [blockTotal, hzero], by simp⟩
  · rename_i hpos
    split at hchoose
    · rename_i start hrun
      cases hchoose
      simp only [findFreeRun, hpos, ↓reduceIte] at hrun
      obtain ⟨hfits, hfree⟩ := findFreeRunFrom_spec (Nat.zero_add _)
        (by omega) (by omega) hrun
      exact singleRun_freeExtents hfits hfree
    · split at hchoose
      · cases hchoose
      · rename_i hne
        cases hchoose
        exact findFreeExtents_spec rfl hne

end FileSystem

end VenomOS
