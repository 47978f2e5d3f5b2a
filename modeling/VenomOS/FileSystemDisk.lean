/-
What is on the disk.  A saved table is the table a later mount decodes, a data
sector holds what was written to it last, and the bytes of a file are read back
from its sectors.
-/
import VenomOS.FileSystemSteps

namespace VenomOS

namespace FileSystem

open ByteMemory AtomicDisk

/-- The bytes in the sectors of the extents, in order. -/
def sectorBytes (disk : Memory) (lbas : List Nat) : List UInt8 :=
  lbas.flatMap fun lba => load disk (lba * sectorSize) sectorSize

/-- The bytes of a file. -/
def contents (disk : Memory) (entry : FileEntry) : List UInt8 :=
  (sectorBytes disk (sectorsOf entry.active)).take entry.sizeBytes.toNat

/-- A disk that mounts to a well-formed table. -/
structure DiskInv (disk : Memory) : Prop where
  magic : validMagic disk = true
  table : TableInv (diskTable disk)

/-- The disk has the file `entry` with the bytes `data` in slot `i`. -/
structure Stores (disk : Memory) (i : Fin maxFiles) (entry : FileEntry)
    (data : List UInt8) : Prop where
  mountable : DiskInv disk
  slot : diskTable disk i = entry
  bytes : contents disk entry = data

variable {disk disk' : Memory} {fs : State} {dev : Device} {table : Table}
variable {name : List UInt8} {base : Table} {lba other : Nat} {i : Fin maxFiles}
variable {entry : FileEntry} {data bytes : List UInt8} {write : Write}
variable {lbas : List Nat}

theorem sectorWrite_apply (disk : Memory) (lba : Nat) (bytes : List UInt8) :
    (sectorWrite lba bytes).apply disk = store disk (lba * sectorSize) bytes :=
  rfl

theorem diskTable_tableWrite (disk : Memory) (table : Table) :
    diskTable ((tableWrite table).apply disk) = table := by
  rw [tableWrite, sectorWrite_apply]
  refine decodeTable_of_bytes fun k hk => ?_
  rw [store_inside (by rwa [tableBytes_length]), tableBytes]
  simp [hk]

/-- A write behind the table leaves the table alone. -/
theorem diskTable_apply (hbehind : bitmapLba ≤ lba) :
    diskTable ((sectorWrite lba bytes).apply disk) = diskTable disk := by
  rw [sectorWrite_apply]
  refine diskTable_congr fun x _ hhigh => store_outside (Or.inl ?_)
  exact Nat.lt_of_lt_of_le hhigh (Nat.mul_le_mul_right _ hbehind)

/-- A write behind the superblock leaves the magic alone. -/
theorem validMagic_apply (hbehind : fileTableLba ≤ lba) :
    validMagic ((sectorWrite lba bytes).apply disk) = validMagic disk := by
  rw [validMagic, validMagic, sectorWrite_apply, load_store_outside]
  refine Or.inl (Nat.le_trans ?_ (Nat.mul_le_mul_right sectorSize hbehind))
  simp [superblockLba, fileTableLba, sectorSize]

/-- A write in front of the data region, or to another sector of it. -/
theorem load_apply_other (hother : dataStartLba ≤ other)
    (hapart : lba * sectorSize + bytes.length ≤ dataStartLba * sectorSize ∨
      (bytes.length = sectorSize ∧ lba ≠ other)) :
    load ((sectorWrite lba bytes).apply disk) (other * sectorSize) sectorSize =
      load disk (other * sectorSize) sectorSize := by
  rw [sectorWrite_apply, load_store_outside]
  rcases hapart with hfront | ⟨hlength, hne⟩
  · exact Or.inr (Nat.le_trans hfront (Nat.mul_le_mul_right _ hother))
  · rw [hlength, ← Nat.succ_mul, ← Nat.succ_mul]
    rcases Nat.lt_or_gt_of_ne hne with hlt | hgt
    · exact Or.inr (Nat.mul_le_mul_right _ hlt)
    · exact Or.inl (Nat.mul_le_mul_right _ hgt)

theorem sectorBytes_congr (hsame : ∀ lba ∈ lbas,
    load disk' (lba * sectorSize) sectorSize =
      load disk (lba * sectorSize) sectorSize) :
    sectorBytes disk' lbas = sectorBytes disk lbas :=
  List.flatMap_congr hsame

theorem contents_congr (hvalid : ∀ extent ∈ entry.active, extent.Valid)
    (hsame : ∀ lba, Held entry.active lba →
      load disk' (lba * sectorSize) sectorSize =
        load disk (lba * sectorSize) sectorSize) :
    contents disk' entry = contents disk entry := by
  unfold contents
  rw [sectorBytes_congr fun lba hlba =>
    hsame lba ((mem_sectorsOf_iff hvalid).mp hlba)]

/-- Every safe write keeps the disk mountable. -/
theorem DiskInv.apply (hdisk : DiskInv disk) (hsafe : SafeWrite name base write) :
    DiskInv (write.apply disk) := by
  cases hsafe with
  | table htable hsame =>
      refine ⟨?_, ?_⟩
      · exact (validMagic_apply (Nat.le_refl _)).trans hdisk.magic
      · rw [diskTable_tableWrite]
        exact htable
  | bitmap bits =>
      refine ⟨?_, ?_⟩
      · exact (validMagic_apply (by decide)).trans hdisk.magic
      · rw [bitmapWrite, diskTable_apply (Nat.le_refl _)]
        exact hdisk.table
  | data hlow hlength hother =>
      refine ⟨?_, ?_⟩
      · exact (validMagic_apply (Nat.le_trans (by decide) hlow)).trans
          hdisk.magic
      · rw [diskTable_apply (Nat.le_trans (by decide) hlow)]
        exact hdisk.table

/-- Every safe write keeps the bytes of the files under other names. -/
theorem SafeWrite.contents_eq (hsafe : SafeWrite name base write)
    (hbase : base i = entry) (hused : entry.used ≠ 0)
    (hname : entry.cName ≠ name)
    (hvalid : ∀ extent ∈ entry.active, extent.Valid) :
    contents (write.apply disk) entry = contents disk entry := by
  refine contents_congr hvalid fun lba hheld => ?_
  have hlba := (held_lba_bounds hvalid hheld).1
  cases hsafe with
  | table htable hsame =>
      refine load_apply_other hlba (Or.inl ?_)
      rw [tableBytes_length]
      decide
  | bitmap bits =>
      refine load_apply_other hlba (Or.inl ?_)
      rw [bitmapBytes_length]
      decide
  | data hlow hlength hother =>
      refine load_apply_other hlba (Or.inr ⟨hlength, ?_⟩)
      rintro rfl
      exact hother i (by rwa [hbase]) (by rwa [hbase]) (by rwa [hbase])

/-- Every safe write keeps the files under other names. -/
theorem Stores.apply (hstores : Stores disk i entry data)
    (hbase : base i = entry) (hused : entry.used ≠ 0)
    (hname : entry.cName ≠ name) (hsafe : SafeWrite name base write) :
    Stores (write.apply disk) i entry data := by
  have hvalid : ∀ extent ∈ entry.active, extent.Valid := by
    have hslot := hstores.slot
    have hentry := hstores.mountable.table.entry i (by rwa [hslot])
    rw [hslot] at hentry
    exact hentry.valid
  refine ⟨hstores.mountable.apply hsafe, ?_, ?_⟩
  · cases hsafe with
    | table htable hsame =>
        rw [diskTable_tableWrite, (hsame i).1 (by rwa [hbase]) (by rwa [hbase]),
          hbase]
    | bitmap bits =>
        rw [bitmapWrite, diskTable_apply (Nat.le_refl _)]
        exact hstores.slot
    | data hlow hlength hother =>
        rw [diskTable_apply (Nat.le_trans (by decide) hlow)]
        exact hstores.slot
  · rw [hsafe.contents_eq hbase hused hname hvalid]
    exact hstores.bytes

theorem sectorBytes_cons (disk : Memory) (lba : Nat) (lbas : List Nat) :
    sectorBytes disk (lba :: lbas) =
      load disk (lba * sectorSize) sectorSize ++ sectorBytes disk lbas := by
  simp [sectorBytes]

/-- Taking the next chunk of a sector leaves the whole cut as it is. -/
theorem take_chunk {toRead : Nat} {got sector rest : List UInt8}
    (hgot : got.length ≤ toRead) (hsector : sector.length = sectorSize) :
    (got ++ sector.take (min (toRead - got.length) sectorSize) ++ rest).take
        toRead = (got ++ (sector ++ rest)).take toRead := by
  rcases Nat.le_total sectorSize (toRead - got.length) with hwhole | hpart
  · rw [Nat.min_eq_right hwhole, ← hsector, List.take_length,
      List.append_assoc]
  · rw [Nat.min_eq_left hpart, List.append_assoc, List.take_append,
      List.take_append, List.take_append, List.take_append,
      List.length_take, Nat.min_eq_left (by omega), List.take_take,
      Nat.sub_self, List.take_zero, Nat.min_self]
    have hzero : toRead - got.length - sector.length = 0 := by omega
    rw [hzero, List.take_zero]

/-- The read loop leaves the drive's contents alone, and what it returns when no
call fails are the bytes of the sectors, cut at `toRead`. -/
theorem readData_spec {toRead : Nat} (lbas : List Nat) (got : List UInt8)
    (dev : Device) (hgot : got.length ≤ toRead) :
    (readData toRead lbas got dev).2.disk = dev.disk ∧
      (readData toRead lbas got dev).2.outcome = dev.outcome ∧
      ((∃ bytes, (readData toRead lbas got dev).1 = .failed bytes) ∨
        (readData toRead lbas got dev).1 =
          .complete ((got ++ sectorBytes dev.disk lbas).take toRead)) ∧
      (Reliable dev → (readData toRead lbas got dev).1 =
        .complete ((got ++ sectorBytes dev.disk lbas).take toRead)) := by
  induction lbas generalizing got dev with
  | nil =>
      have htake : (got ++ sectorBytes dev.disk []).take toRead = got := by
        simp [sectorBytes, List.take_of_length_le hgot]
      exact ⟨rfl, rfl, Or.inr (by rw [htake]; rfl), fun _ => by rw [htake]; rfl⟩
  | cons lba rest ih =>
      by_cases hdone : toRead ≤ got.length
      · have htake : (got ++ sectorBytes dev.disk (lba :: rest)).take toRead =
            got := by
          rw [List.take_append_of_le_length hdone,
            List.take_of_length_le hgot]
        simp only [readData, hdone, ↓reduceIte, htake, true_and]
        exact ⟨Or.inr trivial, fun _ => trivial⟩
      · cases houtcome : dev.outcome dev.calls with
        | some units =>
            simp only [readData, hdone, ↓reduceIte, Device.attempt, houtcome]
            refine ⟨rfl, trivial, Or.inl ⟨got, rfl⟩, fun hreliable => ?_⟩
            rw [hreliable] at houtcome
            cases houtcome
        | none =>
            let chunk := min (toRead - got.length) sectorSize
            let sector := load dev.disk (lba * sectorSize) sectorSize
            have hlength : (got ++ sector.take chunk).length ≤ toRead := by
              simp only [List.length_append, List.length_take, sector,
                load_length, chunk]
              omega
            have hnext := ih (got ++ sector.take chunk)
              { dev with calls := dev.calls + 1 } hlength
            have htake : (got ++ sector.take chunk ++
                sectorBytes dev.disk rest).take toRead =
                  (got ++ sectorBytes dev.disk (lba :: rest)).take toRead := by
              rw [sectorBytes_cons]
              exact take_chunk hgot load_length
            have hdisk : Device.disk { dev with calls := dev.calls + 1 } =
                dev.disk := rfl
            rw [hdisk, htake] at hnext
            simp only [readData, hdone, ↓reduceIte, Device.attempt, houtcome]
            exact hnext

variable {name : CString} {extents : List Extent} {slot : Fin maxFiles}

/-- `read` returns the bytes of the file, cut at the capacity, unless a call
fails. -/
theorem read_spec (hfind : find fs.table name = some i) (capacity : Nat) :
    (read fs name capacity).2.table = fs.table ∧
      (read fs name capacity).2.bitmap = fs.bitmap ∧
      (read fs name capacity).2.dev.disk = fs.dev.disk ∧
      (read fs name capacity).2.dev.outcome = fs.dev.outcome ∧
      ((∃ bytes, (read fs name capacity).1 = .failed bytes) ∨
        (read fs name capacity).1 =
          .complete ((contents fs.dev.disk (fs.table i)).take capacity)) ∧
      (Reliable fs.dev → (read fs name capacity).1 =
        .complete ((contents fs.dev.disk (fs.table i)).take capacity)) := by
  have hspec := readData_spec (sectorsOf (fs.table i).active) [] fs.dev
    (Nat.zero_le (min (fs.table i).sizeBytes.toNat capacity))
  have hcut : ((sectorBytes fs.dev.disk (sectorsOf (fs.table i).active)).take
      (min (fs.table i).sizeBytes.toNat capacity)) =
        (contents fs.dev.disk (fs.table i)).take capacity := by
    rw [contents, List.take_take, Nat.min_comm]
  rw [List.nil_append, hcut] at hspec
  simp only [read, hfind]
  exact ⟨trivial, trivial, hspec⟩

theorem read_length_le {capacity : Nat} {bytes : List UInt8}
    (hread : (read fs name capacity).1 = .complete bytes) :
    bytes.length ≤ capacity := by
  cases hfind : find fs.table name with
  | none => simp [read, hfind] at hread
  | some i =>
      obtain ⟨_, _, _, _, ⟨got, hgot⟩ | hgot, _⟩ := read_spec hfind capacity
      · rw [hgot] at hread
        cases hread
      · rw [hgot] at hread
        obtain rfl := FileSystem.ReadResult.complete.inj hread
        exact List.length_take_le _ _

/-- `count` bytes of the data from `offset` on, padded with zeros. -/
def padded (data : List UInt8) (offset count : Nat) : List UInt8 :=
  (List.range count).map fun b => data.getD (offset + b) 0

theorem padded_append (data : List UInt8) (offset first second : Nat) :
    padded data offset (first + second) =
      padded data offset first ++ padded data (offset + first) second := by
  simp [padded, List.range_add, Nat.add_assoc, Function.comp_def]

theorem padded_take (hcount : data.length ≤ other) :
    (padded data 0 other).take data.length = data := by
  refine List.ext_getElem ?_ fun k hk hk' => ?_
  · simp [padded, Nat.min_eq_left hcount]
  · simp [padded, hk']

theorem writeData_other {offset : Nat} (hother : dataStartLba ≤ other)
    (hnot : other ∉ lbas) (dev : Device) :
    load (writeData data lbas offset dev).2.disk (other * sectorSize)
        sectorSize = load dev.disk (other * sectorSize) sectorSize := by
  have hgrows : Grows (fun write => ∃ lba bytes, lba ≠ other ∧
      bytes.length = sectorSize ∧ write = sectorWrite lba bytes) dev
      (writeData data lbas offset dev).2 := by
    refine writeData_grows data offset (fun lba hlba bytes hbytes => ?_) dev
    refine ⟨lba, bytes, ?_, hbytes, rfl⟩
    rintro rfl
    exact hnot hlba
  let target := load dev.disk (other * sectorSize) sectorSize
  refine hgrows.invariant (P := fun disk =>
    load disk (other * sectorSize) sectorSize = target) rfl ?_
  rintro disk write ⟨lba, bytes, hne, hlength, rfl⟩ hsame
  rw [load_apply_other hother (Or.inr ⟨hlength, hne⟩)]
  exact hsame

theorem writeData_cons (data : List UInt8) (lba : Nat) (rest : List Nat)
    (offset : Nat) (dev : Device) :
    writeData data (lba :: rest) offset dev =
      if (writeSectors dev lba (sectorAt data offset)).1 then
        writeData data rest (offset + sectorSize)
          (writeSectors dev lba (sectorAt data offset)).2
      else (false, (writeSectors dev lba (sectorAt data offset)).2) := by
  rw [writeData]
  rcases writeSectors dev lba (sectorAt data offset) with ⟨ok, dev'⟩
  cases ok with
  | false => rfl
  | true => rfl

/-- After the data loop succeeded the sectors hold the data. -/
theorem writeData_sectorBytes {offset : Nat} (hnodup : lbas.Nodup)
    (hlow : ∀ lba ∈ lbas, dataStartLba ≤ lba) (dev : Device)
    (hok : (writeData data lbas offset dev).1 = true) :
    sectorBytes (writeData data lbas offset dev).2.disk lbas =
      padded data offset (lbas.length * sectorSize) := by
  induction lbas generalizing offset dev with
  | nil => simp [sectorBytes, padded]
  | cons lba rest ih =>
      obtain ⟨hnot, hrest⟩ := List.nodup_cons.mp hnodup
      have hlba := hlow lba List.mem_cons_self
      rw [writeData_cons] at hok ⊢
      cases hwrite : (writeSectors dev lba (sectorAt data offset)).1 with
      | false => simp [hwrite] at hok
      | true =>
          simp only [hwrite, ↓reduceIte] at hok ⊢
          have hhead : load (writeSectors dev lba (sectorAt data offset)).2.disk
              (lba * sectorSize) sectorSize = sectorAt data offset := by
            rw [writeSectors, write_disk_of_ok hwrite, sectorWrite_apply]
            have hself := load_store_self dev.disk (lba * sectorSize)
              (sectorAt data offset)
            rwa [sectorAt_length] at hself
          rw [sectorBytes_cons, writeData_other hlba hnot, hhead,
            ih hrest (fun other hother => hlow other
              (List.mem_cons_of_mem _ hother)) _ hok, List.length_cons,
            Nat.succ_mul, Nat.add_comm (rest.length * sectorSize),
            padded_append]
          rfl

theorem commit_eq (fs : State) (slot : Fin maxFiles) (name : CString)
    (size : Nat) (extents : List Extent) :
    fs.commit slot name size extents =
      let filled := fs.setEntry slot ((fs.table slot).fill name size extents)
      let saved := filled.saveFileTable.2.saveBitmap.2
      if filled.saveFileTable.1 && filled.saveFileTable.2.saveBitmap.1 then
        (true, saved)
      else
        (false, State.saveBitmap (State.saveFileTable
          { saved.setEntry slot
              ((fs.table slot).fill name size extents).cleared with
            bitmap := fillExtents false saved.bitmap extents }).2 |>.2) := rfl

theorem commit_true {size : Nat}
    (hok : (fs.commit slot name size extents).1 = true) :
    (fs.commit slot name size extents).2.table =
        Function.update fs.table slot
          ((fs.table slot).fill name size extents) ∧
      (fs.commit slot name size extents).2.dev.disk =
        (bitmapWrite fs.bitmap).apply
          ((tableWrite (Function.update fs.table slot
            ((fs.table slot).fill name size extents))).apply fs.dev.disk) := by
  let filled := fs.setEntry slot ((fs.table slot).fill name size extents)
  rw [commit_eq] at hok ⊢
  simp only at hok ⊢
  split at hok
  · rename_i hboth
    rw [if_pos hboth]
    obtain ⟨htable, hbitmap⟩ := Bool.and_eq_true_iff.mp hboth
    have hsaved : filled.saveFileTable.2.dev.disk =
        (tableWrite filled.table).apply fs.dev.disk := write_disk_of_ok htable
    have hdone : filled.saveFileTable.2.saveBitmap.2.dev.disk =
        (bitmapWrite fs.bitmap).apply filled.saveFileTable.2.dev.disk :=
      write_disk_of_ok hbitmap
    refine ⟨rfl, ?_⟩
    rw [hdone, hsaved]
    rfl
  · cases hok

/-- What a successful write leaves: the table is on the disk, and the new entry
has the name, the size and the data. -/
structure Committed (fs : State) (slot : Fin maxFiles) (name : CString)
    (data : List UInt8) : Prop where
  used : (fs.table slot).used ≠ 0
  cName : (fs.table slot).cName = name.chars
  size : (fs.table slot).sizeBytes.toNat = data.length
  synced : diskTable fs.dev.disk = fs.table
  bytes : contents fs.dev.disk (fs.table slot) = data

/-- The metadata saves leave the data sectors alone. -/
theorem contents_saves (hvalid : ∀ extent ∈ entry.active, extent.Valid)
    (table : Table) (bits : Bitmap) :
    contents ((bitmapWrite bits).apply ((tableWrite table).apply disk)) entry =
      contents disk entry := by
  refine contents_congr hvalid fun lba hheld => ?_
  have hlba := (held_lba_bounds hvalid hheld).1
  rw [bitmapWrite, load_apply_other hlba, tableWrite, load_apply_other hlba]
  · rw [tableBytes_length]
    exact Or.inl (by decide)
  · rw [bitmapBytes_length]
    exact Or.inl (by decide)

/-- A file has as many bytes as its entry says. -/
theorem contents_length (hentry : EntryInv entry) :
    (contents disk entry).length = entry.sizeBytes.toNat := by
  have hsectors : ∀ lbas : List Nat,
      (sectorBytes disk lbas).length = lbas.length * sectorSize := by
    intro lbas
    induction lbas with
    | nil => simp [sectorBytes]
    | cons lba rest ih =>
        rw [sectorBytes_cons, List.length_append, load_length, ih,
          List.length_cons, Nat.succ_mul, Nat.add_comm]
  rw [contents, List.length_take, hsectors, sectorsOf_length, hentry.total]
  refine Nat.min_eq_left ?_
  simp only [sectorSize]
  omega

/-- The data loop left the data in the sectors of the extents. -/
theorem writeData_take {bits : Bitmap}
    (hfree : FreeExtents bits ((data.length + sectorSize - 1) / sectorSize)
      extents)
    (hok : (writeData data (sectorsOf extents) 0 dev).1 = true) :
    (sectorBytes (writeData data (sectorsOf extents) 0 dev).2.disk
      (sectorsOf extents)).take data.length = data := by
  have hlow : ∀ lba ∈ sectorsOf extents, dataStartLba ≤ lba := by
    intro lba hlba
    have hheld := (mem_sectorsOf_iff hfree.valid).mp hlba
    exact (held_lba_bounds hfree.valid hheld).1
  rw [writeData_sectorBytes (sectorsOf_nodup hfree.valid hfree.apart) hlow dev
    hok, sectorsOf_length, hfree.total]
  refine padded_take ?_
  simp only [sectorSize]
  omega

theorem writeInto_true (hready : Ready fs slot name base dev)
    (hsize : BlocksFit data.length)
    (hok : (fs.writeInto slot name data).1 = true) :
    Committed (fs.writeInto slot name data).2 slot name data := by
  have hneeded := blocksNeeded_eq hsize
  cases hchoose : chooseExtents fs.bitmap
      ((data.length + sectorSize - 1) / sectorSize) with
  | none =>
      simp only [State.writeInto, hneeded, hchoose] at hok
      exact absurd hok Bool.false_ne_true
  | some extents =>
      have hfree := chooseExtents_spec hchoose
      rcases hwrite : writeData data (sectorsOf extents) 0 fs.dev with
        ⟨ok, dev'⟩
      cases ok with
      | false =>
          simp only [State.writeInto, hneeded, hchoose, hwrite] at hok
          exact absurd hok Bool.false_ne_true
      | true =>
          simp only [State.writeInto, hneeded, hchoose, hwrite] at hok ⊢
          obtain ⟨htable, hdisk⟩ := commit_true hok
          have hactive : ((fs.table slot).fill name data.length extents).active =
              extents := fill_active _ _ _ hfree.length_le
          have hsize' : ((fs.table slot).fill name data.length
              extents).sizeBytes.toNat = data.length :=
            UInt32.toNat_ofNat_of_lt' hfree.size_lt
          have htake := writeData_take hfree (by rw [hwrite])
          rw [hwrite] at htake
          refine ⟨?_, ?_, ?_, ?_, ?_⟩
          · rw [htable, Function.update_self]
            exact (by decide : (1 : UInt8) ≠ 0)
          · rw [htable, Function.update_self]
            exact FileEntry.fill_cName _ _ _ _ hready.fits
          · rw [htable, Function.update_self]
            exact hsize'
          · rw [hdisk, bitmapWrite, diskTable_apply (Nat.le_refl _),
              diskTable_tableWrite, htable]
          · rw [hdisk, htable, Function.update_self, contents_saves, contents,
              hsize', hactive]
            · exact htake
            · rw [hactive]
              exact hfree.valid

theorem write_true (hrep : RepInv fs) (hsize : BlocksFit data.length)
    (hok : (FileSystem.write fs name data).1 = true) :
    ∃ slot, Committed (FileSystem.write fs name data).2 slot name data := by
  have hlength := nameLengthFrom_eq name (Nat.add_zero maxFilename)
    (Nat.zero_le _)
  by_cases hfits : name.chars.length < maxFilename
  · rw [if_pos hfits] at hlength
    cases hfind : find fs.table name with
    | some i =>
        simp only [FileSystem.write, hlength, hfind] at hok ⊢
        exact ⟨i, writeInto_true (freeEntry_ready hrep hfind hfits) hsize hok⟩
    | none =>
        cases hslot : firstUnused fs.table with
        | none =>
            simp [FileSystem.write, hlength, hfind, hslot, State.giveUp] at hok
        | some slot =>
            simp only [FileSystem.write, hlength, hfind, hslot] at hok ⊢
            exact ⟨slot, writeInto_true ⟨hrep.keeps_refl _,
              firstUnused_some hslot, hrep.table.find_none hfind, hfits⟩
              hsize hok⟩
  · rw [if_neg hfits] at hlength
    simp [FileSystem.write, hlength] at hok

theorem rebuildBitmap_fold (hvalid : ∀ i, (table i).used ≠ 0 →
      ∀ extent ∈ (table i).active, extent.Valid)
    (slots : List (Fin maxFiles)) (bits : Bitmap) (b : Nat) :
    slots.foldl (fun bits i => if (table i).used == 0 then bits
        else fillExtents true bits (table i).active) bits b = true ↔
      bits b = true ∨ ∃ i ∈ slots, (table i).used ≠ 0 ∧
        Held (table i).active (dataStartLba + b) := by
  induction slots generalizing bits with
  | nil => simp
  | cons head tail ih =>
      rw [List.foldl_cons, ih]
      by_cases hused : (table head).used = 0
      · simp [hused]
      · have hbeq : ((table head).used == 0) = false := by simpa using hused
        rw [hbeq, if_neg Bool.false_ne_true,
          fillExtents_apply true (hvalid head hused)]
        by_cases hheld : Held (table head).active (dataStartLba + b)
        · simp [hheld, hused]
        · simp [hheld]

/-- The rebuilt bitmap is the union of the extents. -/
theorem rebuildBitmap_iff (hvalid : ∀ i, (table i).used ≠ 0 →
      ∀ extent ∈ (table i).active, extent.Valid) (b : Nat) :
    rebuildBitmapFromFileTable table b = true ↔
      Occupied table (dataStartLba + b) := by
  rw [rebuildBitmapFromFileTable, rebuildBitmap_fold hvalid]
  simp [Occupied]

theorem rebuildBitmap_bitmapInv (htable : TableInv table) :
    BitmapInv table (rebuildBitmapFromFileTable table) :=
  fun b _ => rebuildBitmap_iff (fun i hused => (htable.entry i hused).valid) b

/-- A successful mount of a well-formed disk: the table is the saved one, the
bitmap fits it, and the drive saw nothing but a save of the bitmap. -/
structure Mounted (fs fs' : State) : Prop where
  rep : RepInv fs'
  table : fs'.table = diskTable fs.dev.disk
  grows : ∃ bits, Grows (fun write => write = bitmapWrite bits) fs.dev fs'.dev
  synced : diskTable fs'.dev.disk = fs'.table

/-- The state of a mount just before it saves the bitmap. -/
def mountedState (fs : State) : State where
  table := diskTable fs.dev.disk
  bitmap := rebuildBitmapFromFileTable (diskTable fs.dev.disk)
  dev := { fs.dev with calls := fs.dev.calls + 2 }

theorem init_eq (hmagic : validMagic fs.dev.disk = true)
    (hfirst : fs.dev.outcome fs.dev.calls = none)
    (hsecond : fs.dev.outcome (fs.dev.calls + 1) = none) :
    init fs = (mountedState fs).saveBitmap := by
  have hmagic' : validMagic
      (Device.disk { fs.dev with calls := fs.dev.calls + 1 }) = true := hmagic
  simp only [init, Device.attempt, hfirst, hsecond, hmagic', Bool.not_true,
    Bool.false_eq_true, ↓reduceIte]
  rfl

theorem saveBitmap_mounted (hdisk : DiskInv fs.dev.disk) :
    Mounted fs (mountedState fs).saveBitmap.2 := by
  have hgrows : Grows (fun write => write =
      bitmapWrite (mountedState fs).bitmap) fs.dev
      (mountedState fs).saveBitmap.2.dev := by
    have hstart : Grows (fun write => write =
        bitmapWrite (mountedState fs).bitmap) fs.dev (mountedState fs).dev :=
      ⟨rfl, rfl, [], by simp [mountedState], by simp⟩
    exact hstart.trans (write_grows rfl)
  refine ⟨⟨hdisk.table, rebuildBitmap_bitmapInv hdisk.table⟩, rfl,
    ⟨_, hgrows⟩, ?_⟩
  refine hgrows.invariant (P := fun disk =>
    diskTable disk = diskTable fs.dev.disk) rfl ?_
  rintro disk write rfl hsame
  rw [bitmapWrite, diskTable_apply (Nat.le_refl _)]
  exact hsame

theorem init_mounted (hdisk : DiskInv fs.dev.disk) (hok : (init fs).1 = true) :
    Mounted fs (init fs).2 := by
  cases hfirst : fs.dev.outcome fs.dev.calls with
  | some units => simp [init, Device.attempt, hfirst] at hok
  | none =>
      cases hsecond : fs.dev.outcome (fs.dev.calls + 1) with
      | some units =>
          have hmagic : validMagic
              (Device.disk { fs.dev with calls := fs.dev.calls + 1 }) = true :=
            hdisk.magic
          simp [init, Device.attempt, hfirst, hsecond, hmagic] at hok
      | none =>
          rw [init_eq hdisk.magic hfirst hsecond]
          exact saveBitmap_mounted hdisk

theorem init_reliable (hdisk : DiskInv fs.dev.disk)
    (hreliable : Reliable fs.dev) : (init fs).1 = true := by
  rw [init_eq hdisk.magic (hreliable _) (hreliable _)]
  exact write_ok_of_reliable hreliable

theorem zero_tableInv : TableInv fun _ => FileEntry.zero where
  entry _ hused := absurd rfl hused
  names _ _ hused := absurd rfl hused
  apart _ _ _ hused := absurd rfl hused

theorem validMagic_superblock (disk : Memory) :
    validMagic ((sectorWrite superblockLba superblockBytes).apply disk) =
      true := by
  rw [validMagic, sectorWrite_apply, load_store_take]
  · rfl
  · rw [superblockBytes_length]
    decide

section Format

variable (fs)

/-- `format` has written the superblock. -/
def labelled : Bool × Device :=
  writeSectors fs.dev superblockLba superblockBytes

/-- It has cleared the table in memory. -/
def emptied : State :=
  { fs with table := fun _ => FileEntry.zero, dev := (labelled fs).2 }

/-- It has saved the table and cleared the bitmap in memory. -/
def cleared : State :=
  { (emptied fs).saveFileTable.2 with bitmap := fun _ => false }

theorem format_eq :
    format fs =
      if !(labelled fs).1 then (false, { fs with dev := (labelled fs).2 })
      else if !(emptied fs).saveFileTable.1 then
        (false, (emptied fs).saveFileTable.2)
      else (cleared fs).saveBitmap := rfl

variable {fs}

theorem format_eq_cleared (hlabel : (labelled fs).1 = true)
    (htable : (emptied fs).saveFileTable.1 = true) :
    format fs = (cleared fs).saveBitmap := by
  rw [format_eq, hlabel, htable]
  rfl

theorem writes_of_format (hok : (format fs).1 = true) :
    (labelled fs).1 = true ∧ (emptied fs).saveFileTable.1 = true := by
  rw [format_eq] at hok
  split at hok
  · cases hok
  next hlabel =>
    split at hok
    · cases hok
    next htable => exact ⟨by simpa using hlabel, by simpa using htable⟩

/-- A successful format leaves an empty file system, in memory and on the
disk. -/
structure Formatted (fs : State) : Prop where
  rep : RepInv fs
  mountable : DiskInv fs.dev.disk
  synced : diskTable fs.dev.disk = fs.table
  empty : fs.table = fun _ => FileEntry.zero

theorem format_formatted (hok : (format fs).1 = true) :
    Formatted (format fs).2 := by
  obtain ⟨hlabel, htable⟩ := writes_of_format hok
  rw [format_eq_cleared hlabel htable] at hok ⊢
  have hdisk : (cleared fs).saveBitmap.2.dev.disk =
      (bitmapWrite fun _ => false).apply
        ((tableWrite fun _ => FileEntry.zero).apply
          ((sectorWrite superblockLba superblockBytes).apply
            fs.dev.disk)) := by
    have h1 : (labelled fs).2.disk =
        (sectorWrite superblockLba superblockBytes).apply fs.dev.disk :=
      write_disk_of_ok hlabel
    have h2 : (cleared fs).dev.disk =
        (tableWrite fun _ => FileEntry.zero).apply (labelled fs).2.disk :=
      write_disk_of_ok htable
    have h3 : (cleared fs).saveBitmap.2.dev.disk =
        (bitmapWrite fun _ => false).apply (cleared fs).dev.disk :=
      write_disk_of_ok hok
    rw [h3, h2, h1]
  have hsynced : diskTable (cleared fs).saveBitmap.2.dev.disk =
      fun _ => FileEntry.zero := by
    rw [hdisk, bitmapWrite, diskTable_apply (Nat.le_refl _),
      diskTable_tableWrite]
  refine ⟨⟨zero_tableInv, ?_⟩, ⟨?_, ?_⟩, hsynced, rfl⟩
  · intro b _
    simp only [Occupied]
    constructor
    · intro hset
      cases hset
    · rintro ⟨j, hused, _⟩
      exact absurd rfl hused
  · rw [hdisk, bitmapWrite, validMagic_apply (by decide), tableWrite,
      validMagic_apply (Nat.le_refl _)]
    exact validMagic_superblock fs.dev.disk
  · rw [hsynced]
    exact zero_tableInv

end Format

end FileSystem

end VenomOS
