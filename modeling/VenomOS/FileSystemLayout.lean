/-
Names and the on-disk layout.  A stored name is read as the string in front of
its NUL, and the bytes of a table decode to this table.
-/
import VenomOS.FileSystem

namespace VenomOS

namespace FileSystem

open ByteMemory

/-- The string stored at `i`, cut after `fuel` characters. -/
def stringAt (f : Nat → UInt8) (i : Nat) : Nat → List UInt8
  | 0 => []
  | fuel + 1 => if f i = 0 then [] else f i :: stringAt f (i + 1) fuel

def FileEntry.cName (entry : FileEntry) : List UInt8 :=
  stringAt entry.nameAt 0 maxFilename

theorem nameEqualsFrom_iff (a b : Nat → UInt8) (fuel i : Nat) :
    nameEqualsFrom a b fuel i = true ↔ stringAt a i fuel = stringAt b i fuel := by
  induction fuel generalizing i with
  | zero => simp [nameEqualsFrom, stringAt]
  | succ fuel ih =>
      by_cases hsame : a i = b i
      · by_cases hend : b i = 0
        · simp [nameEqualsFrom, stringAt, hsame, hend]
        · simp [nameEqualsFrom, stringAt, hsame, hend, ih]
      · by_cases ha : a i = 0
        · have hb : b i ≠ 0 := fun hb => hsame (ha.trans hb.symm)
          simp [nameEqualsFrom, stringAt, ha, hb, Ne.symm hb]
        · by_cases hb : b i = 0
          · simp [nameEqualsFrom, stringAt, ha, hb]
          · simp [nameEqualsFrom, stringAt, hsame, ha, hb]

theorem CString.charAt_eq_zero_iff (name : CString) (i : Nat) :
    name.charAt i = 0 ↔ name.chars.length ≤ i := by
  unfold CString.charAt
  constructor
  · intro hzero
    by_contra hlt
    have hi : i < name.chars.length := Nat.lt_of_not_le hlt
    refine name.noNul (name.chars.getD i 0) ?_ hzero
    simp [hi]
  · intro hle
    simp [hle]

theorem CString.stringAt_charAt (name : CString) (i fuel : Nat) :
    stringAt name.charAt i fuel = (name.chars.drop i).take fuel := by
  induction fuel generalizing i with
  | zero => simp [stringAt]
  | succ fuel ih =>
      rw [stringAt, ih]
      by_cases hend : name.chars.length ≤ i
      · rw [if_pos ((name.charAt_eq_zero_iff i).mpr hend),
          List.drop_eq_nil_of_le hend, List.take_nil]
      · have hi : i < name.chars.length := Nat.lt_of_not_le hend
        rw [if_neg fun h => hend ((name.charAt_eq_zero_iff i).mp h),
          List.drop_eq_getElem_cons hi, List.take_succ_cons]
        simp [CString.charAt, hi]

theorem nameEquals_iff (entry : FileEntry) (name : CString) :
    nameEquals entry.nameAt name.charAt = true ↔
      entry.cName = name.chars.take maxFilename := by
  rw [nameEquals, nameEqualsFrom_iff, name.stringAt_charAt, List.drop_zero]
  rfl

variable {addr : Nat} {mem : Memory} {entry : FileEntry}

/-- A terminated stored name equals a string only as a whole. -/
theorem nameEquals_iff_of_terminated
    (hterminated : entry.cName.length < maxFilename) (name : CString) :
    nameEquals entry.nameAt name.charAt = true ↔ entry.cName = name.chars := by
  rw [nameEquals_iff]
  constructor
  · intro heq
    have hlength : (name.chars.take maxFilename).length < maxFilename := by
      rwa [← heq]
    rw [heq, List.take_of_length_le]
    simp only [List.length_take] at hlength
    omega
  · intro heq
    rw [heq, List.take_of_length_le]
    rw [heq] at hterminated
    exact Nat.le_of_lt hterminated

theorem nameLengthFrom_eq (name : CString) {fuel length : Nat}
    (hfuel : fuel + length = maxFilename)
    (hlength : length ≤ name.chars.length) :
    nameLengthFrom name.charAt fuel length =
      if name.chars.length < maxFilename then some name.chars.length
      else none := by
  induction fuel generalizing length with
  | zero =>
      have : ¬ name.chars.length < maxFilename := by omega
      simp [nameLengthFrom, this]
  | succ fuel ih =>
      by_cases hend : name.chars.length ≤ length
      · have heq : length = name.chars.length := Nat.le_antisymm hlength hend
        have hshort : name.chars.length < maxFilename := by omega
        have hzero := (name.charAt_eq_zero_iff length).mpr hend
        rw [if_pos hshort, ← heq]
        simp [nameLengthFrom, hzero]
      · have hne : name.charAt length ≠ 0 :=
          fun h => hend ((name.charAt_eq_zero_iff length).mp h)
        by_cases hlast : maxFilename ≤ length + 1
        · have hlong : ¬ name.chars.length < maxFilename := by omega
          simp [nameLengthFrom, hne, hlast, hlong]
        · have hnext := ih (show fuel + (length + 1) = maxFilename by omega)
            (by omega)
          rw [← hnext]
          simp [nameLengthFrom, hne, hlast]

/-- Characters followed by a NUL are read back as a string. -/
theorem stringAt_eq_of_chars {f : Nat → UInt8} {i fuel : Nat}
    {chars : List UInt8} (hchars : ∀ k (hk : k < chars.length),
      f (i + k) = chars[k]) (hnul : f (i + chars.length) = 0)
    (hne : ∀ c ∈ chars, c ≠ 0) (hfuel : chars.length < fuel) :
    stringAt f i fuel = chars := by
  induction chars generalizing i fuel with
  | nil =>
      cases fuel with
      | zero => rfl
      | succ fuel => simpa [stringAt] using hnul
  | cons head tail ih =>
      cases fuel with
      | zero => simp at hfuel
      | succ fuel =>
          have hhead : f i = head := hchars 0 (by simp)
          have hnonzero : head ≠ 0 := hne head List.mem_cons_self
          simp only [stringAt, hhead, hnonzero, ↓reduceIte, List.cons.injEq,
            true_and]
          refine ih ?_ ?_ ?_ ?_
          · intro k hk
            have := hchars (k + 1) (Nat.succ_lt_succ hk)
            rwa [Nat.add_assoc, Nat.add_comm 1 k]
          · rw [Nat.add_assoc, Nat.add_comm 1]
            exact hnul
          · exact fun c hc => hne c (List.mem_cons_of_mem _ hc)
          · simpa using hfuel

theorem copyNameFrom_apply (name : CString) {fuel i : Nat}
    (dest : Fin maxFilename → UInt8) (hfuel : fuel + i = maxFilename - 1)
    (hi : i ≤ name.chars.length) (hfits : name.chars.length < maxFilename)
    (k : Fin maxFilename) :
    copyNameFrom name.charAt fuel i dest k =
      if k.val < i then dest k
      else if k.val < name.chars.length then name.charAt k
      else if k.val = name.chars.length then 0
      else dest k := by
  induction fuel generalizing i dest with
  | zero =>
      have heq : i = name.chars.length := by omega
      subst heq
      simp only [copyNameFrom]
      grind
  | succ fuel ih =>
      by_cases hend : name.chars.length ≤ i
      · have heq : i = name.chars.length := Nat.le_antisymm hi hend
        subst heq
        have hzero := (name.charAt_eq_zero_iff _).mpr hend
        simp only [copyNameFrom, hzero, BEq.rfl, ↓reduceIte]
        grind
      · have hne : name.charAt i ≠ 0 :=
          fun h => hend ((name.charAt_eq_zero_iff i).mp h)
        have hne' : (name.charAt i == 0) = false := by simpa using hne
        simp only [copyNameFrom, hne', Bool.false_eq_true, ↓reduceIte]
        rw [ih _ (by omega) (by omega)]
        grind

theorem FileEntry.fill_cName (entry : FileEntry) (name : CString) (size : Nat)
    (extents : List Extent) (hfits : name.chars.length < maxFilename) :
    (entry.fill name size extents).cName = name.chars := by
  have hcopy := copyNameFrom_apply name entry.name
    (Nat.add_zero (maxFilename - 1)) (Nat.zero_le _) hfits
  refine stringAt_eq_of_chars ?_ ?_ name.noNul hfits
  · intro k hk
    have hlt : k < maxFilename := Nat.lt_trans hk hfits
    simp only [Nat.zero_add, FileEntry.nameAt, hlt, ↓reduceDIte,
      FileEntry.fill, copyName]
    rw [hcopy]
    simp [hk, CString.charAt]
  · simp only [Nat.zero_add, FileEntry.nameAt, hfits, ↓reduceDIte,
      FileEntry.fill, copyName]
    rw [hcopy]
    simp

theorem decodeExtent_of_bytes {extent : Extent}
    (hbytes : ∀ k < 8, mem (addr + k) = extent.byte k) :
    decodeExtent mem addr = extent := by
  have hstart : readLE mem addr 4 = extent.startLba.toNat % 256 ^ 4 := by
    refine readLE_of_bytes fun k hk => ?_
    rw [hbytes k (by omega)]
    simp [Extent.byte, hk]
  have hcount : readLE mem (addr + 4) 4 =
      extent.blockCount.toNat % 256 ^ 4 := by
    refine readLE_of_bytes fun k hk => ?_
    have hk' : ¬ 4 + k < 4 := by omega
    rw [Nat.add_assoc, hbytes (4 + k) (by omega)]
    simp [Extent.byte, hk']
  have hstart' := extent.startLba.toNat_lt
  have hcount' := extent.blockCount.toNat_lt
  rw [Nat.mod_eq_of_lt (by simpa using hstart')] at hstart
  rw [Nat.mod_eq_of_lt (by simpa using hcount')] at hcount
  simp [decodeExtent, hstart, hcount]

theorem decodeEntry_of_bytes
    (hbytes : ∀ k < entrySize, mem (addr + k) = entry.byte k) :
    decodeEntry mem addr = entry := by
  have hname : ∀ i : Fin maxFilename, mem (addr + i) = entry.name i := by
    intro i
    have hi : i.val < 32 := i.isLt
    rw [hbytes i (by simp only [entrySize]; omega)]
    simp [FileEntry.byte, FileEntry.nameAt, hi]
  have hsize : readLE mem (addr + 32) 4 = entry.sizeBytes.toNat := by
    rw [readLE_of_bytes fun k hk => ?_, Nat.mod_eq_of_lt]
    · simpa using entry.sizeBytes.toNat_lt
    · rw [Nat.add_assoc, hbytes (32 + k) (by simp only [entrySize]; omega)]
      have hlow : ¬ 32 + k < 32 := by omega
      have hhigh : 32 + k < 36 := by omega
      simp [FileEntry.byte, hlow, hhigh]
  have hreserved : ∀ i : Fin 2, mem (addr + 38 + i) = entry.reserved i := by
    intro i
    have hi := i.isLt
    rw [Nat.add_assoc, hbytes (38 + i) (by simp only [entrySize]; omega)]
    have h1 : ¬ 38 + i.val < 32 := by omega
    have h2 : ¬ 38 + i.val < 36 := by omega
    have h3 : ¬ 38 + i.val = 36 := by omega
    have h4 : ¬ 38 + i.val = 37 := by omega
    have h5 : 38 + i.val < 40 := by omega
    simp [FileEntry.byte, h1, h2, h3, h4, h5]
  have hextents : ∀ i : Fin maxExtents,
      decodeExtent mem (addr + 40 + 8 * i) = entry.extents i := by
    intro i
    have hi : i.val < 4 := i.isLt
    refine decodeExtent_of_bytes fun k hk => ?_
    rw [show addr + 40 + 8 * i.val + k = addr + (40 + (8 * i.val + k)) by omega,
      hbytes _ (by simp only [entrySize]; omega)]
    have h1 : ¬ 40 + (8 * i.val + k) < 32 := by omega
    have h2 : ¬ 40 + (8 * i.val + k) < 36 := by omega
    have h3 : ¬ 40 + (8 * i.val + k) = 36 := by omega
    have h4 : ¬ 40 + (8 * i.val + k) = 37 := by omega
    have h5 : ¬ 40 + (8 * i.val + k) < 40 := by omega
    have hdiv : (40 + (8 * i.val + k) - 40) / 8 = i.val := by omega
    have hmod : (40 + (8 * i.val + k) - 40) % 8 = k := by omega
    simp only [FileEntry.byte, h1, h2, h3, h4, h5, ↓reduceIte, hdiv, hmod]
    congr 2
    exact Fin.ext (Nat.mod_eq_of_lt hi)
  have hcount : mem (addr + 36) = entry.extentCount := by
    rw [hbytes 36 (by decide)]
    rfl
  have hused : mem (addr + 37) = entry.used := by
    rw [hbytes 37 (by decide)]
    rfl
  cases entry
  simp only [decodeEntry, FileEntry.mk.injEq]
  refine ⟨funext hname, ?_, hcount, hused, funext hreserved, funext hextents⟩
  rw [hsize]
  simp

/-- The bytes of a table decode to this table. -/
theorem decodeTable_of_bytes {table : Table}
    (hbytes : ∀ k < fileTableSectors * sectorSize,
      mem (addr + k) = tableByte table k) : decodeTable mem addr = table := by
  funext i
  have hi : i.val < 64 := i.isLt
  refine decodeEntry_of_bytes fun k hk => ?_
  simp only [entrySize] at hk
  rw [Nat.add_assoc, hbytes _ (by
    simp only [fileTableSectors, sectorSize, entrySize]; omega), tableByte]
  have hdiv : (entrySize * i.val + k) / entrySize = i.val := by
    simp only [entrySize]
    omega
  have hmod : (entrySize * i.val + k) % entrySize = k := by
    simp only [entrySize]
    omega
  rw [hdiv, hmod]
  congr 2
  exact Fin.ext (Nat.mod_eq_of_lt hi)

@[simp]
theorem tableBytes_length (table : Table) :
    (tableBytes table).length = fileTableSectors * sectorSize := by
  simp [tableBytes]

@[simp]
theorem bitmapBytes_length (bits : Bitmap) :
    (bitmapBytes bits).length = bitmapSectors * sectorSize := by
  simp [bitmapBytes]

@[simp]
theorem superblockBytes_length : superblockBytes.length = sectorSize := by
  simp only [superblockBytes, List.length_append, leBytes_length,
    List.length_replicate]
  rfl

@[simp]
theorem sectorAt_length (data : List UInt8) (offset : Nat) :
    (sectorAt data offset).length = sectorSize := by
  simp [sectorAt]

/-- The table a disk holds. -/
def diskTable (disk : Memory) : Table :=
  decodeTable disk (fileTableLba * sectorSize)

theorem decodeEntry_congr {mem mem' : Memory}
    (hsame : ∀ k < entrySize, mem' (addr + k) = mem (addr + k)) :
    decodeEntry mem' addr = decodeEntry mem addr := by
  have hword : ∀ offset, offset + 4 ≤ entrySize →
      readLE mem' (addr + offset) 4 = readLE mem (addr + offset) 4 := by
    intro offset hoffset
    refine readLE_congr fun k hk => ?_
    rw [Nat.add_assoc]
    exact hsame (offset + k) (by omega)
  simp only [entrySize] at hsame hword
  simp only [decodeEntry, FileEntry.mk.injEq]
  refine ⟨?_, ?_, hsame 36 (by omega), hsame 37 (by omega), ?_, ?_⟩
  · funext i
    have hi : i.val < 32 := i.isLt
    exact hsame i (by omega)
  · rw [hword 32 (by omega)]
  · funext i
    have hi := i.isLt
    rw [Nat.add_assoc]
    exact hsame (38 + i) (by omega)
  · funext i
    have hi : i.val < 4 := i.isLt
    simp only [decodeExtent, Nat.add_assoc]
    rw [hword _ (by omega), hword _ (by omega)]

theorem diskTable_congr {disk disk' : Memory}
    (hsame : ∀ x, fileTableLba * sectorSize ≤ x →
      x < bitmapLba * sectorSize → disk' x = disk x) :
    diskTable disk' = diskTable disk := by
  funext i
  have hi : i.val < 64 := i.isLt
  refine decodeEntry_congr fun k hk => hsame _ ?_ ?_
  · rw [Nat.add_assoc]
    exact Nat.le_add_right _ _
  · simp only [entrySize, fileTableLba, bitmapLba, sectorSize] at hk ⊢
    omega

end FileSystem

end VenomOS
