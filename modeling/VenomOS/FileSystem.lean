/-
VenomFS: a table of 64 entries with up to four extents each, a bitmap of the
data blocks, and a disk that is written through the ATA driver.  The
definitions follow `kernel/fs.cpp`.
-/
import VenomOS.AtomicDisk

namespace VenomOS

namespace FileSystem

open ByteMemory AtomicDisk

abbrev maxFilename : Nat := 32
abbrev maxFiles : Nat := 64
abbrev maxExtents : Nat := 4
def sectorSize : Nat := 512

instance : NeZero maxFiles := ⟨by decide⟩

def superblockLba : Nat := 256
def fileTableLba : Nat := 257
def fileTableSectors : Nat := 9
def bitmapLba : Nat := 266
def bitmapSectors : Nat := 8
def dataStartLba : Nat := 274
def totalDiskSectors : Nat := 32768
def totalDataBlocks : Nat := totalDiskSectors - dataStartLba
def venomfsVersion : Nat := 2

/-- `sizeof(FileEntry)`. -/
def entrySize : Nat := 72

/-- A NUL-terminated string: the characters in front of the NUL. -/
structure CString where
  chars : List UInt8
  noNul : ∀ c ∈ chars, c ≠ 0

def CString.charAt (name : CString) (i : Nat) : UInt8 := name.chars.getD i 0

structure Extent where
  startLba : UInt32
  blockCount : UInt32
deriving Repr, DecidableEq

structure FileEntry where
  name : Fin maxFilename → UInt8
  sizeBytes : UInt32
  extentCount : UInt8
  used : UInt8
  reserved : Fin 2 → UInt8
  extents : Fin maxExtents → Extent

def FileEntry.zero : FileEntry :=
  ⟨fun _ => 0, 0, 0, 0, fun _ => 0, fun _ => ⟨0, 0⟩⟩

def FileEntry.nameAt (entry : FileEntry) (i : Nat) : UInt8 :=
  if h : i < maxFilename then entry.name ⟨i, h⟩ else 0

/-- The extents the loops over `extent_count` visit. -/
def FileEntry.active (entry : FileEntry) : List Extent :=
  (List.ofFn entry.extents).take entry.extentCount.toNat

abbrev Table := Fin maxFiles → FileEntry

/-- Bit `b` is set when data block `b` is taken. -/
abbrev Bitmap := Nat → Bool

/-- The in-memory table and bitmap, and the drive. -/
structure State where
  table : Table
  bitmap : Bitmap
  dev : Device

def nameEqualsFrom (a b : Nat → UInt8) : Nat → Nat → Bool
  | 0, _ => true
  | fuel + 1, i =>
      if a i != b i then false
      else if a i == 0 then true
      else nameEqualsFrom a b fuel (i + 1)

def nameEquals (a b : Nat → UInt8) : Bool := nameEqualsFrom a b maxFilename 0

def copyNameFrom (src : Nat → UInt8) : Nat → Nat →
    (Fin maxFilename → UInt8) → Fin maxFilename → UInt8
  | 0, i, dest => fun k => if k.val = i then 0 else dest k
  | fuel + 1, i, dest =>
      if src i == 0 then fun k => if k.val = i then 0 else dest k
      else copyNameFrom src fuel (i + 1)
        fun k => if k.val = i then src i else dest k

def copyName (dest : Fin maxFilename → UInt8) (src : Nat → UInt8) :
    Fin maxFilename → UInt8 :=
  copyNameFrom src (maxFilename - 1) 0 dest

/-- The length loop of `write`: `none` when the name does not fit. -/
def nameLengthFrom (name : Nat → UInt8) : Nat → Nat → Option Nat
  | 0, _ => none
  | fuel + 1, length =>
      if name length == 0 then some length
      else if maxFilename ≤ length + 1 then none
      else nameLengthFrom name fuel (length + 1)

/-- `bit_set` or `bit_clear` on `count` blocks from `start` on. -/
def fillBits (value : Bool) (start : UInt32) : Nat → Bitmap → Bitmap
  | 0, bits => bits
  | count + 1, bits =>
      Function.update (fillBits value start count bits)
        (start + UInt32.ofNat count).toNat value

def fillExtents (value : Bool) (bits : Bitmap) (extents : List Extent) :
    Bitmap :=
  extents.foldl (fun bits extent =>
    fillBits value (extent.startLba - UInt32.ofNat dataStartLba)
      extent.blockCount.toNat bits) bits

def rebuildBitmapFromFileTable (table : Table) : Bitmap :=
  (List.finRange maxFiles).foldl (fun bits i =>
    if (table i).used == 0 then bits
    else fillExtents true bits (table i).active) fun _ => false

def bitmapByte (bits : Bitmap) (i : Nat) : UInt8 :=
  UInt8.ofNat ((List.range 8).map fun j =>
    if bits (8 * i + j) then 2 ^ j else 0).sum

def bitmapBytes (bits : Bitmap) : List UInt8 :=
  (List.range (bitmapSectors * sectorSize)).map (bitmapByte bits)

def Extent.byte (extent : Extent) (k : Nat) : UInt8 :=
  if k < 4 then leByte extent.startLba.toNat k
  else leByte extent.blockCount.toNat (k - 4)

def FileEntry.byte (entry : FileEntry) (k : Nat) : UInt8 :=
  if k < 32 then entry.nameAt k
  else if k < 36 then leByte entry.sizeBytes.toNat (k - 32)
  else if k = 36 then entry.extentCount
  else if k = 37 then entry.used
  else if k < 40 then entry.reserved (Fin.ofNat 2 (k - 38))
  else (entry.extents (Fin.ofNat maxExtents ((k - 40) / 8))).byte ((k - 40) % 8)

def tableByte (table : Table) (k : Nat) : UInt8 :=
  (table (Fin.ofNat maxFiles (k / entrySize))).byte (k % entrySize)

def tableBytes (table : Table) : List UInt8 :=
  (List.range (fileTableSectors * sectorSize)).map (tableByte table)

def decodeExtent (mem : Memory) (addr : Nat) : Extent :=
  ⟨UInt32.ofNat (readLE mem addr 4), UInt32.ofNat (readLE mem (addr + 4) 4)⟩

def decodeEntry (mem : Memory) (addr : Nat) : FileEntry where
  name i := mem (addr + i)
  sizeBytes := UInt32.ofNat (readLE mem (addr + 32) 4)
  extentCount := mem (addr + 36)
  used := mem (addr + 37)
  reserved i := mem (addr + 38 + i)
  extents i := decodeExtent mem (addr + 40 + 8 * i)

def decodeTable (mem : Memory) (addr : Nat) : Table :=
  fun i => decodeEntry mem (addr + entrySize * i)

def sectorWrite (lba : Nat) (bytes : List UInt8) : Write :=
  ⟨lba * sectorSize, bytes⟩

/-- `ata::write_sectors`; a failing call changes nothing. -/
def writeSectors (dev : Device) (lba : Nat) (bytes : List UInt8) :
    Bool × Device :=
  dev.write (sectorWrite lba bytes)

def State.saveFileTable (fs : State) : Bool × State :=
  let (ok, dev) := writeSectors fs.dev fileTableLba (tableBytes fs.table)
  (ok, { fs with dev })

def State.saveBitmap (fs : State) : Bool × State :=
  let (ok, dev) := writeSectors fs.dev bitmapLba (bitmapBytes fs.bitmap)
  (ok, { fs with dev })

def find (table : Table) (name : CString) : Option (Fin maxFiles) :=
  (List.finRange maxFiles).find? fun i =>
    (table i).used != 0 && nameEquals (table i).nameAt name.charAt

def FileEntry.cleared (entry : FileEntry) : FileEntry :=
  { entry with
    used := 0
    name := fun k => if k.val = 0 then 0 else entry.name k
    sizeBytes := 0
    extentCount := 0
    extents := fun _ => ⟨0, 0⟩ }

def State.setEntry (fs : State) (i : Fin maxFiles) (entry : FileEntry) :
    State :=
  { fs with table := Function.update fs.table i entry }

def State.freeEntry (fs : State) (i : Fin maxFiles) : State :=
  { fs with
    bitmap := fillExtents false fs.bitmap (fs.table i).active
    table := Function.update fs.table i (fs.table i).cleared }

/-- The scan of `find_free_run`; the first argument counts the blocks that are
left to visit. -/
def findFreeRunFrom (bits : Bitmap) (needed : Nat) :
    Nat → Nat → Nat → Nat → Option Nat
  | 0, _, _, _ => none
  | left + 1, block, runStart, runLength =>
      if bits block then findFreeRunFrom bits needed left (block + 1) runStart 0
      else
        let runStart := if runLength = 0 then block else runStart
        if runLength + 1 = needed then some runStart
        else
          findFreeRunFrom bits needed left (block + 1) runStart (runLength + 1)

def findFreeRun (bits : Bitmap) (needed : Nat) : Option Nat :=
  if needed = 0 then some 0
  else findFreeRunFrom bits needed totalDataBlocks 0 0 0

/-- The inner loop of `find_free_extents`: the length of the free run at
`block`, at most `remaining`. -/
def freeRunLength (bits : Bitmap) (block : Nat) : Nat → Nat
  | 0 => 0
  | remaining + 1 =>
      if block < totalDataBlocks && !bits block then
        freeRunLength bits (block + 1) remaining + 1
      else 0

/-- The outer loop.  Every pass moves on by a block at least, so the number of
data blocks bounds the passes. -/
def findFreeExtentsFrom (bits : Bitmap) :
    Nat → Nat → Nat → List Extent → Nat × List Extent
  | 0, _, remaining, found => (remaining, found)
  | passes + 1, block, remaining, found =>
      if block < totalDataBlocks ∧ 0 < remaining ∧ found.length < maxExtents then
        if bits block then
          findFreeExtentsFrom bits passes (block + 1) remaining found
        else
          let runLength := freeRunLength bits block remaining
          findFreeExtentsFrom bits passes (block + runLength)
            (remaining - runLength)
            (found ++ [⟨UInt32.ofNat (dataStartLba + block),
              UInt32.ofNat runLength⟩])
      else (remaining, found)

/-- The extents found, none of them when they do not suffice. -/
def findFreeExtents (bits : Bitmap) (needed : Nat) : List Extent :=
  let (remaining, found) :=
    findFreeExtentsFrom bits totalDataBlocks 0 needed []
  if 0 < remaining then [] else found

def superblockBytes : List UInt8 :=
  [0x56, 0x4e, 0x46, 0x53] ++ leBytes 4 venomfsVersion ++
    leBytes 4 totalDataBlocks ++ leBytes 4 fileTableLba ++
    leBytes 4 fileTableSectors ++ leBytes 4 bitmapLba ++
    leBytes 4 bitmapSectors ++ leBytes 4 dataStartLba ++
    List.replicate (sectorSize - 32) 0

def format (fs : State) : Bool × State :=
  let (ok, dev) := writeSectors fs.dev superblockLba superblockBytes
  let fs := { fs with dev }
  if !ok then (false, fs)
  else
    let (ok, fs) := { fs with table := fun _ => FileEntry.zero }.saveFileTable
    if !ok then (false, fs)
    else
      let (ok, fs) := { fs with bitmap := fun _ => false }.saveBitmap
      (ok, fs)

def validMagic (disk : Memory) : Bool :=
  load disk (superblockLba * sectorSize) 4 == [0x56, 0x4e, 0x46, 0x53]

/-- The table after a read that failed: the sectors that were transferred are
new, the rest is what it was. -/
def partialTable (table : Table) (disk : Memory) (sectors : Nat) : Table :=
  decodeTable
    (fun x => if x < sectors * sectorSize then
        disk (fileTableLba * sectorSize + x)
      else tableByte table x) 0

/-- `fs::init`. -/
def init (fs : State) : Bool × State :=
  match fs.dev.attempt with
  | (some _, dev) => (false, { fs with dev })
  | (none, dev) =>
      if !validMagic dev.disk then format { fs with dev }
      else
        match dev.attempt with
        | (some sectors, dev) =>
            (false, { fs with
              table := partialTable fs.table dev.disk sectors, dev })
        | (none, dev) =>
            let table := decodeTable dev.disk (fileTableLba * sectorSize)
            { fs with
              table, bitmap := rebuildBitmapFromFileTable table,
              dev }.saveBitmap

/-- `fs::exists`. -/
def fileExists (fs : State) (name : CString) : Bool :=
  (find fs.table name).isSome

def fileSize (fs : State) (name : CString) : Int :=
  match find fs.table name with
  | none => -1
  | some i => (fs.table i).sizeBytes.toNat

/-- The sector of `data` at `offset`, padded with zeros. -/
def sectorAt (data : List UInt8) (offset : Nat) : List UInt8 :=
  (List.range sectorSize).map fun b => data.getD (offset + b) 0

/-- The sectors of the extents in the order the loops visit them. -/
def sectorsOf (extents : List Extent) : List Nat :=
  extents.flatMap fun extent =>
    (List.range extent.blockCount.toNat).map fun i =>
      (extent.startLba + UInt32.ofNat i).toNat

/-- The data loop of `write`, which stops at the first failing sector. -/
def writeData (data : List UInt8) :
    List Nat → Nat → Device → Bool × Device
  | [], _, dev => (true, dev)
  | lba :: rest, offset, dev =>
      match writeSectors dev lba (sectorAt data offset) with
      | (false, dev) => (false, dev)
      | (true, dev) => writeData data rest (offset + sectorSize) dev

/-- One run when there is one, else up to four extents. -/
def chooseExtents (bits : Bitmap) (needed : Nat) : Option (List Extent) :=
  if needed = 0 then some []
  else
    match findFreeRun bits needed with
    | some start =>
        some [⟨UInt32.ofNat (dataStartLba + start), UInt32.ofNat needed⟩]
    | none =>
        match findFreeExtents bits needed with
        | [] => none
        | extents => some extents

def FileEntry.fill (entry : FileEntry) (name : CString) (size : Nat)
    (extents : List Extent) : FileEntry :=
  { entry with
    name := copyName entry.name name.charAt
    sizeBytes := UInt32.ofNat size
    extentCount := UInt8.ofNat extents.length
    extents := fun k => extents.getD k ⟨0, 0⟩
    used := 1 }

/-- The end of `write` once the data are on the disk: both saves have to
succeed, or the entry and its blocks are given up. -/
def State.commit (fs : State) (slot : Fin maxFiles) (name : CString)
    (size : Nat) (extents : List Extent) : Bool × State :=
  let entry := (fs.table slot).fill name size extents
  let (tableOk, fs) := (fs.setEntry slot entry).saveFileTable
  let (bitmapOk, fs) := fs.saveBitmap
  if tableOk && bitmapOk then (true, fs)
  else
    let fs := { fs.setEntry slot entry.cleared with
      bitmap := fillExtents false fs.bitmap extents }
    (false, fs.saveFileTable.2.saveBitmap.2)

/-- The exits of `write` that give up before the commit. -/
def State.giveUp (fs : State) : Bool × State :=
  (false, fs.saveBitmap.2.saveFileTable.2)

def State.writeInto (fs : State) (slot : Fin maxFiles) (name : CString)
    (data : List UInt8) : Bool × State :=
  let blocksNeeded := (data.length + sectorSize - 1) / sectorSize % 2 ^ 32
  match chooseExtents fs.bitmap blocksNeeded with
  | none => fs.giveUp
  | some extents =>
      let fs := { fs with bitmap := fillExtents true fs.bitmap extents }
      match writeData data (sectorsOf extents) 0 fs.dev with
      | (false, dev) =>
          { fs with bitmap := fillExtents false fs.bitmap extents, dev }.giveUp
      | (true, dev) => { fs with dev }.commit slot name data.length extents

def firstUnused (table : Table) : Option (Fin maxFiles) :=
  (List.finRange maxFiles).find? fun i => (table i).used == 0

def write (fs : State) (name : CString) (data : List UInt8) : Bool × State :=
  match nameLengthFrom name.charAt maxFilename 0 with
  | none => (false, fs)
  | some _ =>
      match find fs.table name with
      | some i => (fs.freeEntry i).writeInto i name data
      | none =>
          match firstUnused fs.table with
          | none => fs.giveUp
          | some slot => fs.writeInto slot name data

/-- How `read` ended, with the bytes that are in the buffer. -/
inductive ReadResult where
  | missing
  | failed (bytes : List UInt8)
  | complete (bytes : List UInt8)
deriving Repr, DecidableEq

/-- The loop of `read`; `got` are the bytes read so far. -/
def readData (toRead : Nat) :
    List Nat → List UInt8 → Device → ReadResult × Device
  | [], got, dev => (.complete got, dev)
  | lba :: rest, got, dev =>
      if toRead ≤ got.length then (.complete got, dev)
      else
        match dev.attempt with
        | (some _, dev) => (.failed got, dev)
        | (none, dev) =>
            let chunk := min (toRead - got.length) sectorSize
            readData toRead rest
              (got ++ (load dev.disk (lba * sectorSize) sectorSize).take chunk)
              dev

def read (fs : State) (name : CString) (capacity : Nat) : ReadResult × State :=
  match find fs.table name with
  | none => (.missing, fs)
  | some i =>
      let toRead := min (fs.table i).sizeBytes.toNat capacity
      let (result, dev) :=
        readData toRead (sectorsOf (fs.table i).active) [] fs.dev
      (result, { fs with dev })

def remove (fs : State) (name : CString) : Bool × State :=
  match find fs.table name with
  | none => (false, fs)
  | some i =>
      let backup := fs.table i
      let (tableOk, fs) := (fs.freeEntry i).saveFileTable
      let (bitmapOk, fs) := fs.saveBitmap
      if tableOk && bitmapOk then (true, fs)
      else
        (false, { fs with
          table := Function.update fs.table i backup
          bitmap := fillExtents true fs.bitmap backup.active })

end FileSystem

end VenomOS
