/-
Mounting whatever is on the disk.  `init` trusts the nine sectors of the table
behind a four-byte magic, and `format` writes the magic first.  The table in
memory is therefore well formed after every mount exactly when the table
sectors were well formed to begin with, magic or not.
-/
import VenomOS.FileSystemDisk

namespace VenomOS

namespace FileSystem

open ByteMemory AtomicDisk

variable {table table' : Table} {disk disk' : Memory} {fs : State}
variable {write : Write} {dev : Device}

/-- What the block allocation of a table has to satisfy. -/
structure LayoutInv (table : Table) : Prop where
  count_le : ∀ i, (table i).used ≠ 0 →
    (table i).extentCount.toNat ≤ maxExtents
  valid : ∀ i, (table i).used ≠ 0 →
    ∀ extent ∈ (table i).active, extent.Valid
  entry_apart : ∀ i, (table i).used ≠ 0 →
    (table i).active.Pairwise Extent.Apart
  apart : ∀ i j, i ≠ j → (table i).used ≠ 0 → (table j).used ≠ 0 →
    ∀ lba, ¬ (Held (table i).active lba ∧ Held (table j).active lba)

/-- The slots the outer loop of `rebuild_bitmap_from_file_table` does not
skip. -/
def usedSlots (table : Table) : List (Fin maxFiles) :=
  (List.finRange maxFiles).filter fun i => (table i).used != 0

/-- The indices into `extents` that the rebuild uses. -/
def extentAccesses (table : Table) : List Nat :=
  (usedSlots table).flatMap fun i => List.range (table i).extentCount.toNat

/-- The bits that the rebuild sets for the extents of the table. -/
def bitAccesses (table : Table) : List Nat :=
  (usedSlots table).flatMap fun i => (table i).active.flatMap fun extent =>
    (List.range extent.blockCount.toNat).map fun b =>
      (extent.startLba - UInt32.ofNat dataStartLba + UInt32.ofNat b).toNat

/-- The rebuild stays inside the extents array and the bitmap. -/
def InBounds (table : Table) : Prop :=
  (∀ e ∈ extentAccesses table, e < maxExtents) ∧
    ∀ bit ∈ bitAccesses table, bit / 8 < bitmapSectors * sectorSize

theorem mem_usedSlots {i : Fin maxFiles} :
    i ∈ usedSlots table ↔ (table i).used ≠ 0 := by
  simp [usedSlots]

theorem Extent.Valid.bit_lt {extent : Extent} (hvalid : extent.Valid)
    {b : Nat} (hb : b < extent.blockCount.toNat) :
    (extent.startLba - UInt32.ofNat dataStartLba + UInt32.ofNat b).toNat <
      totalDataBlocks := by
  obtain ⟨hlow, hhigh⟩ := hvalid
  have hstart := extent.startLba.toNat_lt
  simp only [dataStartLba, totalDiskSectors, totalDataBlocks] at *
  rw [UInt32.toNat_add, UInt32.toNat_sub, UInt32.toNat_ofNat',
    UInt32.toNat_ofNat']
  omega

theorem LayoutInv.inBounds (hlayout : LayoutInv table) : InBounds table := by
  constructor
  · intro e he
    obtain ⟨i, hi, hrange⟩ := List.mem_flatMap.mp he
    have hcount := hlayout.count_le i (mem_usedSlots.mp hi)
    exact lt_of_lt_of_le (List.mem_range.mp hrange) hcount
  · intro bit hbit
    obtain ⟨i, hi, hactive⟩ := List.mem_flatMap.mp hbit
    obtain ⟨extent, hextent, hrange⟩ := List.mem_flatMap.mp hactive
    obtain ⟨b, hb, rfl⟩ := List.mem_map.mp hrange
    have hlt := (hlayout.valid i (mem_usedSlots.mp hi) extent hextent).bit_lt
      (List.mem_range.mp hb)
    simp only [totalDataBlocks, totalDiskSectors, dataStartLba,
      bitmapSectors, sectorSize] at *
    omega

/-- Entries may go out of use or lose extents. -/
theorem LayoutInv.shrink (hlayout : LayoutInv table)
    (hshrink : ∀ i, (table' i).used ≠ 0 → (table i).used ≠ 0 ∧
      (table' i).extentCount.toNat ≤ (table i).extentCount.toNat ∧
      (table' i).active.Sublist (table i).active) : LayoutInv table' := by
  have hheld : ∀ i lba, (table' i).used ≠ 0 → Held (table' i).active lba →
      Held (table i).active lba := by
    rintro i lba hused ⟨extent, hextent, hholds⟩
    exact ⟨extent, (hshrink i hused).2.2.subset hextent, hholds⟩
  refine ⟨fun i hused => ?_, fun i hused extent hextent => ?_,
    fun i hused => ?_, fun i j hne hi hj lba hboth => ?_⟩
  · obtain ⟨hold, hcount, _⟩ := hshrink i hused
    exact hcount.trans (hlayout.count_le i hold)
  · obtain ⟨hold, _, hsub⟩ := hshrink i hused
    exact hlayout.valid i hold extent (hsub.subset hextent)
  · obtain ⟨hold, _, hsub⟩ := hshrink i hused
    exact (hlayout.entry_apart i hold).sublist hsub
  · exact hlayout.apart i j hne (hshrink i hi).1 (hshrink j hj).1 lba
      ⟨hheld i lba hi hboth.1, hheld j lba hj hboth.2⟩

theorem zero_layoutInv : LayoutInv fun _ => FileEntry.zero where
  count_le _ hused := absurd rfl hused
  valid _ hused := absurd rfl hused
  entry_apart _ hused := absurd rfl hused
  apart _ _ _ hused := absurd rfl hused

/-- `init` gets as far as the rebuild. -/
def Rebuilds (fs : State) : Prop :=
  fs.dev.outcome fs.dev.calls = none ∧ validMagic fs.dev.disk = true ∧
    fs.dev.outcome (fs.dev.calls + 1) = none

/-- What a call of `init` has to guarantee. -/
structure MountsWell (fs : State) : Prop where
  table : (init fs).1 = true → LayoutInv (init fs).2.table
  bitmap : (init fs).1 = true → ∀ b, (init fs).2.bitmap b = true ↔
    Occupied (init fs).2.table (dataStartLba + b)
  bounds : Rebuilds fs → InBounds (diskTable fs.dev.disk)

/-- A call of `init` on a disk, with any memory and any pattern of failures.
In a torn one only the first sectors of one of its writes reach the disk, and
nothing after them. -/
inductive Boot : Memory → Memory → Prop where
  | whole (fs : State) : Boot fs.dev.disk (init fs).2.dev.disk
  | torn (fs : State) {done rest : List Write} {next : Write} (sectors : Nat)
      (hlog : (init fs).2.dev.log = fs.dev.log ++ (done ++ next :: rest)) :
      Boot fs.dev.disk (store (replay fs.dev.disk done) next.addr
        (next.bytes.take (sectors * sectorSize)))

def Boots : Memory → Memory → Prop := Relation.ReflTransGen Boot

/-- The writes of `init`. -/
inductive BootWrite : Write → Prop where
  | superblock : BootWrite (sectorWrite superblockLba superblockBytes)
  | table : BootWrite (tableWrite fun _ => FileEntry.zero)
  | bitmap (bits : Bitmap) : BootWrite (bitmapWrite bits)

theorem zero_byte (k : Nat) : FileEntry.zero.byte k = 0 := by
  have hle : ∀ j, leByte 0 j = 0 := fun j => by simp [leByte]
  simp [FileEntry.byte, FileEntry.zero, FileEntry.nameAt, Extent.byte, hle]

/-- Zeros over the front of an entry leave it as it was, or empty, or out of
use. -/
theorem decodeEntry_zeroed {addr stop : Nat}
    (hzero : ∀ x, addr ≤ x → x < stop → disk' x = 0)
    (hsame : ∀ x, stop ≤ x → disk' x = disk x)
    (hused : (decodeEntry disk' addr).used ≠ 0) :
    (decodeEntry disk addr).used ≠ 0 ∧
      (decodeEntry disk' addr).extentCount.toNat ≤
        (decodeEntry disk addr).extentCount.toNat ∧
      (decodeEntry disk' addr).active.Sublist
        (decodeEntry disk addr).active := by
  have hstop : stop ≤ addr + 37 := by
    by_contra hlt
    exact hused (hzero (addr + 37) (by omega) (by omega))
  have hextents : (decodeEntry disk' addr).extents =
      (decodeEntry disk addr).extents := by
    funext i
    simp only [decodeEntry, decodeExtent]
    rw [readLE_congr fun k _ => hsame _ (by omega),
      readLE_congr fun k _ => hsame _ (by omega)]
  have hused' : disk' (addr + 37) = disk (addr + 37) := hsame _ hstop
  have hcount : (decodeEntry disk' addr).extentCount = 0 ∨
      (decodeEntry disk' addr).extentCount =
        (decodeEntry disk addr).extentCount := by
    by_cases hlt : addr + 36 < stop
    · exact Or.inl (hzero _ (by omega) hlt)
    · exact Or.inr (hsame _ (by omega))
  refine ⟨fun hold => hused (hused'.trans hold), ?_, ?_⟩
  · rcases hcount with hnone | hkept
    · simp [hnone]
    · rw [hkept]
  · rw [FileEntry.active, FileEntry.active, hextents]
    rcases hcount with hnone | hkept
    · simp [hnone]
    · rw [hkept]

theorem BootWrite.layoutInv (hwrite : BootWrite write)
    (hlayout : LayoutInv (diskTable disk)) (count : Nat) :
    LayoutInv (diskTable (store disk write.addr
      (write.bytes.take count))) := by
  cases hwrite with
  | superblock =>
      have hsame : diskTable (store disk (sectorWrite superblockLba
          superblockBytes).addr (superblockBytes.take count)) =
            diskTable disk := by
        refine diskTable_congr fun x hlow _ => store_outside (Or.inr ?_)
        have hlength := List.length_take_le' count superblockBytes
        have htotal := superblockBytes_length
        simp only [sectorWrite, superblockLba, fileTableLba,
          sectorSize] at *
        omega
      exact hsame ▸ hlayout
  | bitmap bits =>
      have hsame : diskTable (store disk (bitmapWrite bits).addr
          ((bitmapWrite bits).bytes.take count)) = diskTable disk :=
        diskTable_congr fun x _ hhigh => store_outside (Or.inl hhigh)
      exact hsame ▸ hlayout
  | table =>
      obtain ⟨bytes, hbytes⟩ : ∃ bytes, bytes =
          (tableWrite fun _ => FileEntry.zero).bytes.take count := ⟨_, rfl⟩
      have hzeros : ∀ k, bytes.getD k 0 = 0 := by
        intro k
        by_cases hk : k < bytes.length
        · rw [List.getD_eq_getElem _ _ hk]
          simp [hbytes, tableWrite, sectorWrite, tableBytes, tableByte,
            zero_byte]
        · rw [List.getD_eq_default _ _ (by omega)]
      rw [← hbytes]
      refine hlayout.shrink fun i hused => decodeEntry_zeroed
        (fun x hlow (hhigh : x < fileTableLba * sectorSize + bytes.length) =>
          ?_) (fun x hlow => store_outside (Or.inr hlow)) hused
      have hstart : fileTableLba * sectorSize ≤ x :=
        (Nat.le_add_right _ _).trans hlow
      exact (if_pos ⟨hstart, hhigh⟩).trans (hzeros _)

theorem format_grows (fs : State) :
    Grows BootWrite fs.dev (format fs).2.dev := by
  have hlabel : Grows BootWrite fs.dev (labelled fs).2 :=
    write_grows BootWrite.superblock
  have htable : Grows BootWrite (labelled fs).2
      (emptied fs).saveFileTable.2.dev :=
    write_grows BootWrite.table
  have hbitmap : Grows BootWrite (emptied fs).saveFileTable.2.dev
      (cleared fs).saveBitmap.2.dev :=
    write_grows (BootWrite.bitmap _)
  rw [format_eq]
  split
  · exact hlabel
  · split
    · exact hlabel.trans htable
    · exact (hlabel.trans htable).trans hbitmap

theorem init_grows (fs : State) : Grows BootWrite fs.dev (init fs).2.dev := by
  have hread := attempt_grows BootWrite fs.dev
  unfold init
  cases hfirst : fs.dev.outcome fs.dev.calls with
  | some units =>
      simp only [Device.attempt, hfirst]
      exact hread
  | none =>
      simp only [Device.attempt, hfirst]
      split
      · exact hread.trans (format_grows
          { fs with dev := { fs.dev with calls := fs.dev.calls + 1 } })
      · cases hsecond : fs.dev.outcome (fs.dev.calls + 1) with
        | some units =>
            exact hread.trans (attempt_grows _ _)
        | none =>
            exact (hread.trans (attempt_grows _ _)).trans
              (write_grows (BootWrite.bitmap _))

theorem Boot.layoutInv (hboot : Boot disk disk')
    (hlayout : LayoutInv (diskTable disk)) : LayoutInv (diskTable disk') := by
  have happly : ∀ mem write, BootWrite write → LayoutInv (diskTable mem) →
      LayoutInv (diskTable (write.apply mem)) := by
    intro mem write hwrite hmem
    have hwhole := hwrite.layoutInv hmem write.bytes.length
    rwa [List.take_length] at hwhole
  cases hboot with
  | whole fs => exact (init_grows fs).invariant hlayout happly
  | torn fs sectors hlog =>
      obtain ⟨new, hnew, hok⟩ := (init_grows fs).log
      rw [hnew] at hlog
      have heq := List.append_cancel_left hlog
      rw [heq] at hok
      refine (hok _ (by simp)).layoutInv ?_ _
      exact replay_invariant (P := fun mem => LayoutInv (diskTable mem))
        hlayout happly fun write hwrite => hok write (by simp [hwrite])

theorem Boots.layoutInv (hboots : Boots disk disk')
    (hlayout : LayoutInv (diskTable disk)) : LayoutInv (diskTable disk') := by
  induction hboots with
  | refl => exact hlayout
  | tail _ hboot ih => exact hboot.layoutInv ih

theorem format_true (hok : (format fs).1 = true) :
    (format fs).2.table = (fun _ => FileEntry.zero) ∧
      (format fs).2.bitmap = fun _ => false := by
  refine ⟨(format_formatted hok).empty, ?_⟩
  unfold format at hok ⊢
  dsimp only at hok ⊢
  split
  · rename_i hfail
    simp [hfail] at hok
  · split
    · rename_i hlabel hfail
      simp [hlabel, hfail] at hok
    · rfl

/-- A successful mount starts empty, or with the table of the disk and the
bitmap rebuilt from it. -/
theorem init_true (hok : (init fs).1 = true) :
    (init fs).2.table = (fun _ => FileEntry.zero) ∧
        ((init fs).2.bitmap = fun _ => false) ∨
      (init fs).2.table = diskTable fs.dev.disk ∧
        (init fs).2.bitmap =
          rebuildBitmapFromFileTable (diskTable fs.dev.disk) := by
  cases hfirst : fs.dev.outcome fs.dev.calls with
  | some units => simp [init, Device.attempt, hfirst] at hok
  | none =>
      cases hmagic : validMagic fs.dev.disk with
      | false =>
          have hmagic' : validMagic
              (Device.disk { fs.dev with calls := fs.dev.calls + 1 }) =
                false := hmagic
          simp only [init, Device.attempt, hfirst, hmagic', Bool.not_false,
            ↓reduceIte] at hok ⊢
          exact Or.inl (format_true hok)
      | true =>
          cases hsecond : fs.dev.outcome (fs.dev.calls + 1) with
          | some units =>
              have hmagic' : validMagic
                  (Device.disk { fs.dev with calls := fs.dev.calls + 1 }) =
                    true := hmagic
              simp [init, Device.attempt, hfirst, hsecond, hmagic'] at hok
          | none =>
              rw [init_eq hmagic hfirst hsecond]
              exact Or.inr ⟨rfl, rfl⟩

theorem LayoutInv.mountsWell (hlayout : LayoutInv (diskTable fs.dev.disk)) :
    MountsWell fs where
  table hok := by
    rcases init_true hok with ⟨htable, _⟩ | ⟨htable, _⟩
    · rw [htable]
      exact zero_layoutInv
    · rw [htable]
      exact hlayout
  bitmap hok b := by
    rcases init_true hok with ⟨htable, hbitmap⟩ | ⟨htable, hbitmap⟩
    · rw [htable, hbitmap]
      simp [Occupied, FileEntry.zero]
    · rw [htable, hbitmap]
      exact rebuildBitmap_iff hlayout.valid b
  bounds _ := hlayout.inBounds

/-- A machine with empty memory in front of a disk. -/
def bootState (disk : Memory) (outcome : Nat → Option Nat) : State :=
  ⟨fun _ => FileEntry.zero, fun _ => false, ⟨disk, [], outcome, 0⟩⟩

/-- With the magic in place a drive that works mounts whatever table is
there. -/
theorem init_bootState (hmagic : validMagic disk = true) :
    (init (bootState disk fun _ => none)).1 = true ∧
      (init (bootState disk fun _ => none)).2.table = diskTable disk := by
  have hdisk : (bootState disk fun _ => none).dev.disk = disk := rfl
  rw [init_eq (hdisk ▸ hmagic) rfl rfl]
  exact ⟨rfl, rfl⟩

/-- A format whose second write fails leaves the magic in front of the old
table. -/
theorem boot_halfFormatted (hmagic : validMagic disk = false) :
    Boot disk ((sectorWrite superblockLba superblockBytes).apply disk) := by
  have hboot := Boot.whole
    (bootState disk fun call => if call = 2 then some 0 else none)
  simpa [init, bootState, Device.attempt, hmagic, format, writeSectors,
    Device.write, State.saveFileTable, Device.disk, replay] using hboot

theorem diskTable_superblock (disk : Memory) :
    diskTable ((sectorWrite superblockLba superblockBytes).apply disk) =
      diskTable disk := by
  refine diskTable_congr fun x hlow _ => store_outside (Or.inr ?_)
  have hlength := superblockBytes_length
  simp only [sectorWrite, superblockLba, fileTableLba, sectorSize] at *
  omega

/-- Every call of `init` in every sequence of boots mounts a well-formed table
and stays in bounds exactly if the nine sectors of the table are well formed
at the start. -/
theorem mounts_well_iff (disk : Memory) :
    (∀ disk', Boots disk disk' → ∀ fs : State, fs.dev.disk = disk' →
      MountsWell fs) ↔ LayoutInv (diskTable disk) := by
  constructor
  · intro hwell
    have hmounted : ∀ disk', Boots disk disk' → validMagic disk' = true →
        LayoutInv (diskTable disk') := by
      intro disk' hboots hmagic
      obtain ⟨hok, htable⟩ := init_bootState hmagic
      rw [← htable]
      exact (hwell disk' hboots _ rfl).table hok
    cases hmagic : validMagic disk with
    | true => exact hmounted disk Relation.ReflTransGen.refl hmagic
    | false =>
        rw [← diskTable_superblock]
        exact hmounted _ (Relation.ReflTransGen.single
          (boot_halfFormatted hmagic)) (validMagic_superblock disk)
  · rintro hlayout disk' hboots fs rfl
    exact (hboots.layoutInv hlayout).mountsWell

/-- On a disk that is all ones, a format that is interrupted after its first
write is followed by a boot that takes the old sectors for a table: it mounts
them, and its rebuild sets a bit far outside the bitmap. -/
theorem half_formatted_disk_mounts :
    ∃ disk, Boots (fun _ => 1) disk ∧
      (init (bootState disk fun _ => none)).1 = true ∧
      ¬ LayoutInv (init (bootState disk fun _ => none)).2.table ∧
      Rebuilds (bootState disk fun _ => none) ∧
      ¬ InBounds (diskTable disk) := by
  have hmagic : validMagic (fun _ => 1) = false := by decide +kernel
  obtain ⟨hok, htable⟩ := init_bootState (validMagic_superblock fun _ => 1)
  have hentry : (diskTable ((sectorWrite superblockLba
      superblockBytes).apply fun _ => 1)) = diskTable fun _ => 1 :=
    diskTable_superblock _
  have hbounds : ¬ InBounds (diskTable fun _ => 1) := by
    intro hbounds
    have hbit : 0x01010101 - 274 ∈ bitAccesses (diskTable fun _ => 1) :=
      List.mem_flatMap.mpr ⟨0, mem_usedSlots.mpr (by decide),
        List.mem_flatMap.mpr ⟨⟨0x01010101, 0x01010101⟩, by decide,
          List.mem_map.mpr ⟨0, List.mem_range.mpr (by decide), by decide⟩⟩⟩
    exact absurd (hbounds.2 _ hbit) (by decide)
  refine ⟨_, Relation.ReflTransGen.single (boot_halfFormatted hmagic), hok,
    ?_, ⟨rfl, validMagic_superblock _, rfl⟩, ?_⟩
  · rw [htable, hentry]
    exact fun hlayout => hbounds hlayout.inBounds
  · rw [hentry]
    exact hbounds

end FileSystem

end VenomOS
