/-
What one call of `write`, `remove` or `init` does.  Whatever fails on the way,
the invariant holds afterwards, files under other names keep their entries, and
the disk was touched only by writes that respect these files.
-/
import VenomOS.FileSystemInvariant

namespace VenomOS

namespace FileSystem

open ByteMemory AtomicDisk

def tableWrite (table : Table) : Write :=
  sectorWrite fileTableLba (tableBytes table)

def bitmapWrite (bits : Bitmap) : Write :=
  sectorWrite bitmapLba (bitmapBytes bits)

/-- The writes a call under `name` may issue when it starts from `base`: saves
of well-formed tables that agree with `base` elsewhere, saves of the bitmap, and
data sectors that no other file holds. -/
inductive SafeWrite (name : List UInt8) (base : Table) : Write → Prop
  | table {table : Table} (htable : TableInv table)
      (hsame : SameElsewhere name base table) :
      SafeWrite name base (tableWrite table)
  | bitmap (bits : Bitmap) : SafeWrite name base (bitmapWrite bits)
  | data {lba : Nat} {bytes : List UInt8} (hlow : dataStartLba ≤ lba)
      (hlength : bytes.length = sectorSize)
      (hother : ∀ i, (base i).used ≠ 0 → (base i).cName ≠ name →
        ¬ Held (base i).active lba) :
      SafeWrite name base (sectorWrite lba bytes)

/-- The state is well formed, agrees with `base` under other names, and its
drive comes from `dev` by safe writes. -/
structure Keeps (name : List UInt8) (base : Table) (dev : Device)
    (fs : State) : Prop where
  rep : RepInv fs
  same : SameElsewhere name base fs.table
  grows : Grows (SafeWrite name base) dev fs.dev

variable {fs : State} {name : List UInt8} {base : Table} {dev : Device}
variable {slot : Fin maxFiles} {extents : List Extent} {data : List UInt8}

@[simp]
theorem saveFileTable_table (fs : State) :
    fs.saveFileTable.2.table = fs.table := rfl

@[simp]
theorem saveFileTable_bitmap (fs : State) :
    fs.saveFileTable.2.bitmap = fs.bitmap := rfl

@[simp]
theorem saveBitmap_table (fs : State) : fs.saveBitmap.2.table = fs.table := rfl

@[simp]
theorem saveBitmap_bitmap (fs : State) :
    fs.saveBitmap.2.bitmap = fs.bitmap := rfl

theorem RepInv.congr {fs' : State} (hrep : RepInv fs)
    (htable : fs'.table = fs.table) (hbitmap : fs'.bitmap = fs.bitmap) :
    RepInv fs' := by
  refine ⟨?_, ?_⟩
  · rw [htable]
    exact hrep.table
  · rw [htable, hbitmap]
    exact hrep.bitmap

theorem Keeps.saveFileTable (hkeeps : Keeps name base dev fs) :
    Keeps name base dev fs.saveFileTable.2 :=
  ⟨hkeeps.rep.congr rfl rfl, hkeeps.same,
    hkeeps.grows.trans (write_grows (.table hkeeps.rep.table hkeeps.same))⟩

theorem Keeps.saveBitmap (hkeeps : Keeps name base dev fs) :
    Keeps name base dev fs.saveBitmap.2 :=
  ⟨hkeeps.rep.congr rfl rfl, hkeeps.same,
    hkeeps.grows.trans (write_grows (.bitmap fs.bitmap))⟩

theorem Keeps.giveUp (hkeeps : Keeps name base dev fs) :
    Keeps name base dev fs.giveUp.2 :=
  hkeeps.saveBitmap.saveFileTable

theorem sector_toNat {extent : Extent} (hvalid : extent.Valid) {i : Nat}
    (hi : i < extent.blockCount.toNat) :
    (extent.startLba + UInt32.ofNat i).toNat = extent.startLba.toNat + i := by
  have hsize : UInt32.size = 2 ^ 32 := rfl
  obtain ⟨_, hhigh⟩ := hvalid
  simp only [totalDiskSectors] at hhigh
  rw [UInt32.toNat_add, UInt32.toNat_ofNat_of_lt' (by omega),
    Nat.mod_eq_of_lt (by omega)]

/-- The sectors of valid extents in visiting order. -/
theorem sectorsOf_eq (hvalid : ∀ extent ∈ extents, extent.Valid) :
    sectorsOf extents = extents.flatMap fun extent =>
      (List.range extent.blockCount.toNat).map (extent.startLba.toNat + ·) := by
  refine List.flatMap_congr fun extent hextent => ?_
  refine List.map_congr_left fun i hi => ?_
  exact sector_toNat (hvalid extent hextent) (List.mem_range.mp hi)

theorem mem_sectorsOf_iff (hvalid : ∀ extent ∈ extents, extent.Valid)
    {lba : Nat} : lba ∈ sectorsOf extents ↔ Held extents lba := by
  rw [sectorsOf_eq hvalid, List.mem_flatMap]
  refine exists_congr fun extent => and_congr_right fun _ => ?_
  simp only [List.mem_map, List.mem_range, Extent.Holds]
  constructor
  · rintro ⟨i, hi, rfl⟩
    omega
  · rintro ⟨hlow, hhigh⟩
    exact ⟨lba - extent.startLba.toNat, by omega, by omega⟩

theorem sectorsOf_length (extents : List Extent) :
    (sectorsOf extents).length = blockTotal extents := by
  simp [sectorsOf, blockTotal, List.length_flatMap]

theorem sectorsOf_nodup (hvalid : ∀ extent ∈ extents, extent.Valid)
    (hapart : extents.Pairwise Extent.Apart) : (sectorsOf extents).Nodup := by
  rw [sectorsOf_eq hvalid, List.nodup_flatMap]
  refine ⟨fun extent _ => ?_,
    hapart.imp fun {first second} hpair lba hfirst hsecond => ?_⟩
  · exact List.nodup_range.map fun i j hij => Nat.add_left_cancel hij
  · simp only [List.mem_map, List.mem_range] at hfirst hsecond
    obtain ⟨i, hi, rfl⟩ := hfirst
    obtain ⟨j, hj, hij⟩ := hsecond
    have hleft : first.Holds (first.startLba.toNat + i) :=
      ⟨Nat.le_add_right _ _, Nat.add_lt_add_left hi _⟩
    have hright : second.Holds (first.startLba.toNat + i) := by
      rw [← hij]
      exact ⟨Nat.le_add_right _ _, Nat.add_lt_add_left hj _⟩
    exact hpair _ ⟨hleft, hright⟩

theorem writeData_grows {ok : Write → Prop} {lbas : List Nat}
    (data : List UInt8) (offset : Nat)
    (hok : ∀ lba ∈ lbas, ∀ bytes : List UInt8, bytes.length = sectorSize →
      ok (sectorWrite lba bytes)) (dev : Device) :
    Grows ok dev (writeData data lbas offset dev).2 := by
  induction lbas generalizing offset dev with
  | nil => exact Grows.refl ok dev
  | cons lba rest ih =>
      have hstep : Grows ok dev
          (writeSectors dev lba (sectorAt data offset)).2 :=
        write_grows (hok lba List.mem_cons_self _ (sectorAt_length _ _))
      have hrest := ih (offset + sectorSize)
        (fun other hother => hok other (List.mem_cons_of_mem _ hother))
        (writeSectors dev lba (sectorAt data offset)).2
      simp only [writeData]
      rcases hresult : writeSectors dev lba (sectorAt data offset) with
        ⟨ok | ok, dev'⟩
      · rw [hresult] at hstep
        exact hstep
      · rw [hresult] at hstep hrest
        exact hstep.trans hrest

/-- What holds when `writeInto` starts: the slot is unused and no used entry has
the name. -/
structure Ready (fs : State) (slot : Fin maxFiles) (name : CString)
    (base : Table) (dev : Device) : Prop where
  keeps : Keeps name.chars base dev fs
  unused : (fs.table slot).used = 0
  fresh : ∀ j, (fs.table j).used ≠ 0 → (fs.table j).cName ≠ name.chars
  fits : name.chars.length < maxFilename

variable {name : CString}

theorem Ready.data_safe {needed : Nat} (hready : Ready fs slot name base dev)
    (hfree : FreeExtents fs.bitmap needed extents) :
    ∀ lba ∈ sectorsOf extents, ∀ bytes : List UInt8,
      bytes.length = sectorSize →
        SafeWrite name.chars base (sectorWrite lba bytes) := by
  intro lba hlba bytes hbytes
  have hheld := (mem_sectorsOf_iff hfree.valid).mp hlba
  have hnot := hfree.not_occupied hready.keeps.rep.bitmap hheld
  refine .data (held_lba_bounds hfree.valid hheld).1 hbytes ?_
  intro i hused hname hbase
  have hsame := (hready.keeps.same i).1 hused hname
  rw [← hsame] at hused hbase
  exact hnot ⟨i, hused, hbase⟩

theorem commit_keeps {size needed : Nat}
    (hready : Ready fs slot name base dev)
    (hfree : FreeExtents fs.bitmap needed extents)
    (hneeded : needed = (size + sectorSize - 1) / sectorSize) {dev' : Device}
    (hgrows : Grows (SafeWrite name.chars base) dev dev') :
    Keeps name.chars base dev
      (State.commit { fs with
        bitmap := fillExtents true fs.bitmap extents, dev := dev' }
        slot name size extents).2 := by
  subst hneeded
  let entry := (fs.table slot).fill name size extents
  have hcName : entry.cName = name.chars :=
    (fs.table slot).fill_cName name size extents hready.fits
  have hactive : entry.active = extents := fill_active _ _ _ hfree.length_le
  have hentry : EntryInv entry := fill_entryInv _ _ hready.fits hfree
  have hused : entry.used ≠ 0 := (by decide : (1 : UInt8) ≠ 0)
  have hslot : (fs.table slot).used ≠ 0 →
      (fs.table slot).cName = name.chars :=
    fun h => absurd hready.unused h
  have hfilled : Keeps name.chars base dev
      ⟨Function.update fs.table slot entry,
        fillExtents true fs.bitmap extents, dev'⟩ := by
    refine ⟨⟨?_, ?_⟩, ?_, hgrows⟩
    · refine hready.keeps.rep.table.fill hready.keeps.rep.bitmap hfree hentry
        hactive ?_
      rw [hcName]
      exact hready.fresh
    · exact hready.keeps.rep.bitmap.fill hfree hactive hready.unused hused
    · exact hready.keeps.same.update hslot fun _ => hcName
  have hsaved := hfilled.saveFileTable.saveBitmap
  have hundone : Keeps name.chars base dev
      { (State.mk (Function.update fs.table slot entry)
          (fillExtents true fs.bitmap extents)
          dev').saveFileTable.2.saveBitmap.2 with
        bitmap := fillExtents false (fillExtents true fs.bitmap extents) extents
        table := Function.update (Function.update fs.table slot entry) slot
          entry.cleared } := by
    refine ⟨⟨?_, ?_⟩, ?_, hsaved.grows⟩
    · exact hfilled.rep.table.update_unused (cleared_used entry)
    · rw [hfree.undo, Function.update_idem]
      exact hready.keeps.rep.bitmap.update_unused hready.unused
        (cleared_used entry)
    · refine hfilled.same.update (fun _ => ?_) fun h =>
        absurd (cleared_used entry) h
      change (Function.update fs.table slot entry slot).cName = name.chars
      rw [Function.update_self]
      exact hcName
  simp only [State.commit]
  split
  · exact hsaved
  · exact hundone.saveFileTable.saveBitmap

/-- The sizes whose number of blocks fits in 32 bits. -/
def BlocksFit (size : Nat) : Prop := size + sectorSize ≤ 2 ^ 41

theorem blocksNeeded_eq {size : Nat} (hsize : BlocksFit size) :
    (size + sectorSize - 1) / sectorSize % 2 ^ 32 =
      (size + sectorSize - 1) / sectorSize := by
  refine Nat.mod_eq_of_lt ?_
  simp only [BlocksFit, sectorSize] at hsize ⊢
  omega

theorem writeInto_keeps (hready : Ready fs slot name base dev)
    (hsize : BlocksFit data.length) :
    Keeps name.chars base dev (fs.writeInto slot name data).2 := by
  simp only [State.writeInto]
  split
  · exact hready.keeps.giveUp
  · rename_i extents hchoose
    have hfree := chooseExtents_spec hchoose
    rw [blocksNeeded_eq hsize] at hfree
    have hgrows := hready.keeps.grows.trans
      (writeData_grows data 0 (hready.data_safe hfree) fs.dev)
    split
    · rename_i dev' hwrite
      rw [hwrite] at hgrows
      refine Keeps.giveUp ⟨?_, hready.keeps.same, hgrows⟩
      refine hready.keeps.rep.congr rfl ?_
      exact hfree.undo
    · rename_i dev' hwrite
      rw [hwrite] at hgrows
      exact commit_keeps hready hfree rfl hgrows

theorem RepInv.keeps_refl (hrep : RepInv fs) (name : List UInt8) :
    Keeps name fs.table fs.dev fs :=
  ⟨hrep, SameElsewhere.refl _ _, Grows.refl _ _⟩

/-- Freeing the entry that was found leaves no entry under the name. -/
theorem freeEntry_fresh (hrep : RepInv fs)
    (hfind : find fs.table name = some slot) :
    ∀ j, ((fs.freeEntry slot).table j).used ≠ 0 →
      ((fs.freeEntry slot).table j).cName ≠ name.chars := by
  obtain ⟨hused, hname⟩ := hrep.table.find_some hfind
  intro j hj hname'
  simp only [State.freeEntry] at hj hname'
  by_cases hslot : j = slot
  · subst hslot
    rw [Function.update_self] at hj
    exact hj (cleared_used (fs.table j))
  · rw [Function.update_of_ne hslot] at hj hname'
    exact hslot (hrep.table.names j slot hj hused (hname'.trans hname.symm))

theorem freeEntry_keeps (hrep : RepInv fs)
    (hfind : find fs.table name = some slot) :
    Keeps name.chars fs.table fs.dev (fs.freeEntry slot) := by
  obtain ⟨hused, hname⟩ := hrep.table.find_some hfind
  have hcleared := cleared_used (fs.table slot)
  refine ⟨⟨?_, ?_⟩, ?_, Grows.refl _ _⟩
  · exact hrep.table.update_unused hcleared
  · exact hrep.bitmap.free hrep.table hused hcleared
  · exact (SameElsewhere.refl _ _).update (fun _ => hname)
      fun h => absurd hcleared h

theorem freeEntry_ready (hrep : RepInv fs)
    (hfind : find fs.table name = some slot)
    (hfits : name.chars.length < maxFilename) :
    Ready (fs.freeEntry slot) slot name fs.table fs.dev := by
  refine ⟨freeEntry_keeps hrep hfind, ?_, freeEntry_fresh hrep hfind, hfits⟩
  simp only [State.freeEntry, Function.update_self]
  exact cleared_used (fs.table slot)

theorem write_keeps (hrep : RepInv fs) (hsize : BlocksFit data.length) :
    Keeps name.chars fs.table fs.dev (write fs name data).2 := by
  have hlength := nameLengthFrom_eq name (Nat.add_zero maxFilename)
    (Nat.zero_le _)
  simp only [write]
  split
  · exact hrep.keeps_refl _
  · rename_i length hsome
    have hfits : name.chars.length < maxFilename := by
      by_contra hlong
      rw [hlength, if_neg hlong] at hsome
      cases hsome
    split
    · rename_i i hfind
      exact writeInto_keeps (freeEntry_ready hrep hfind hfits) hsize
    · rename_i hnone
      split
      · exact (hrep.keeps_refl _).giveUp
      · rename_i slot hslot
        exact writeInto_keeps ⟨hrep.keeps_refl _, firstUnused_some hslot,
          hrep.table.find_none hnone, hfits⟩ hsize

theorem remove_keeps (hrep : RepInv fs) :
    Keeps name.chars fs.table fs.dev (remove fs name).2 := by
  simp only [remove]
  split
  · exact hrep.keeps_refl _
  · rename_i i hfind
    obtain ⟨hused, _⟩ := hrep.table.find_some hfind
    have hsaved := (freeEntry_keeps hrep hfind).saveFileTable.saveBitmap
    split
    · exact hsaved
    · have htable : Function.update (fs.freeEntry i).table i (fs.table i) =
          fs.table := by
        simp [State.freeEntry]
      have hbitmap : fillExtents true (fs.freeEntry i).bitmap
          (fs.table i).active = fs.bitmap :=
        hrep.bitmap.redo hrep.table hused
      refine ⟨hrep.congr htable hbitmap, ?_, hsaved.grows⟩
      change SameElsewhere name.chars fs.table
        (Function.update (fs.freeEntry i).table i (fs.table i))
      rw [htable]
      exact SameElsewhere.refl _ _

end FileSystem

end VenomOS
