/-
kernel/fat32.cpp.  The reader is a callback that is asked for one sector at a
time; its answer may depend on how many reads there were before.  Numbers are
the source's unsigned words of 32 bits.  The loops over clusters take a bound
on their turns and have no result when it is too small.
-/
import VenomOS.ByteMemory

namespace VenomOS

namespace Fat32

open ByteMemory

abbrev sectorSize : Nat := 512

def fatEocMin : Nat := 0x0FFFFFF8

def fatBad : Nat := 0x0FFFFFF7

def fatMask : Nat := 0x0FFFFFFF

def attrDirectory : UInt8 := 0x10

def attrVolumeId : UInt8 := 0x08

def attrLfn : UInt8 := 0x0F

/-- What `next_cluster` returns at the end of a chain. -/
abbrev chainEnd : Nat := 0

/-- What `next_cluster` returns for a bad link or a failed read, and the
sector number of an empty cache. -/
abbrev noSector : Nat := 0xFFFFFFFF

def add32 (a b : Nat) : Nat := (a + b) % 2 ^ 32

def sub32 (a b : Nat) : Nat := (a + 2 ^ 32 - b) % 2 ^ 32

def mul32 (a b : Nat) : Nat := a * b % 2 ^ 32

def rd16 (mem : Memory) (addr : Nat) : Nat := readLE mem addr 2

def rd32 (mem : Memory) (addr : Nat) : Nat := readLE mem addr 4

/-- The answer to read number `n` at an address: whether it succeeds, and what
the buffer holds then. -/
abbrev Reader := Nat → Nat → Bool × Memory

structure Volume where
  reader : Reader
  volumeLba : Nat
  sectorsPerCluster : Nat
  reservedSectors : Nat
  fatSectors : Nat
  dataStart : Nat
  rootCluster : Nat
  clusterCount : Nat
  ok : Bool

/-- The default initialisers. -/
def Volume.unmounted : Volume :=
  ⟨fun _ _ => (false, fun _ => 0), 0, 0, 0, 0, 0, 0, 0, false⟩

/-- The static variables, and how many reads there were. -/
structure Driver where
  vol : Volume
  sectorBuf : Memory
  fatCache : Memory
  fatCacheSector : Nat
  reads : Nat

/-- One read through a reader. -/
def Driver.request (d : Driver) (reader : Reader) (lba : Nat) :
    Driver × Bool × Memory :=
  ({ d with reads := d.reads + 1 }, reader d.reads lba)

def readVolumeSector (d : Driver) (sector : Nat) : Driver × Bool × Memory :=
  d.request d.vol.reader (add32 d.vol.volumeLba sector)

def validCluster (vol : Volume) (c : Nat) : Bool :=
  c ≥ 2 && c < add32 vol.clusterCount 2

def clusterSector (vol : Volume) (c : Nat) : Nat :=
  add32 vol.dataStart (mul32 (sub32 c 2) vol.sectorsPerCluster)

/-- Brings a sector of the FAT into the cache. -/
def cacheFat (d : Driver) (sector : Nat) : Driver × Bool :=
  if d.fatCacheSector ≠ sector then
    let (d, ok, buf) := readVolumeSector d sector
    if ok then ({ d with fatCache := buf, fatCacheSector := sector }, true)
    else ({ d with fatCache := buf, fatCacheSector := noSector }, false)
  else (d, true)

/-- What the driver makes of the entry of cluster `c`. -/
def interpret (vol : Volume) (c v : Nat) : Nat :=
  if v ≥ fatEocMin then chainEnd
  else if v = fatBad ∨ validCluster vol v = false ∨ v = c then noSector
  else v

/-- Where the entry of a cluster is in the FAT. -/
def fatByteOff (c : Nat) : Nat := mul32 c 4

/-- The sector of the volume that the entry is in. -/
def fatSector (vol : Volume) (c : Nat) : Nat :=
  add32 vol.reservedSectors (fatByteOff c / sectorSize)

def nextCluster (d : Driver) (c : Nat) : Driver × Nat :=
  if fatByteOff c / sectorSize ≥ d.vol.fatSectors then (d, noSector)
  else
    let (d, ok) := cacheFat d (fatSector d.vol c)
    if ok then
      let v := rd32 d.fatCache (fatByteOff c % sectorSize) &&& fatMask
      (d, interpret d.vol c v)
    else (d, noSector)

def slash : UInt8 := charCode '/'

def dot : UInt8 := charCode '.'

def space : UInt8 := charCode ' '

def upper (c : UInt8) : UInt8 :=
  if c ≥ charCode 'a' ∧ c ≤ charCode 'z' then
    c - charCode 'a' + charCode 'A'
  else c

/-- The loop over the name: what it wrote, and the rest from a dot on. -/
def takeBase : List UInt8 → List UInt8 → Option (List UInt8 × List UInt8)
  | out, [] => some (out, [])
  | out, c :: rest =>
      if c = dot then some (out, c :: rest)
      else if out.length ≥ 8 then none
      else takeBase (out ++ [upper c]) rest

def takeExtension : List UInt8 → List UInt8 → Option (List UInt8)
  | out, [] => some out
  | out, c :: rest =>
      if c = dot ∨ out.length ≥ 3 then none
      else takeExtension (out ++ [upper c]) rest

/-- The rest of a field is spaces. -/
def padded (width : Nat) (field : List UInt8) : List UInt8 :=
  field ++ List.replicate (width - field.length) space

def toShortName (part : List UInt8) : Option (List UInt8) :=
  match takeBase [] part with
  | none => none
  | some ([], _) => none
  | some (base, []) => some (padded 8 base ++ padded 3 [])
  | some (_, [_]) => none
  | some (base, _ :: extension) =>
      (takeExtension [] extension).map fun extension =>
        padded 8 base ++ padded 3 extension

/-- The pieces between slashes. -/
def splitSlash : List UInt8 → List (List UInt8)
  | [] => [[]]
  | c :: rest =>
      if c = slash then [] :: splitSlash rest
      else
        match splitSlash rest with
        | [] => [[c]]
        | part :: parts => (c :: part) :: parts

/-- The parts of a path; several slashes count as one. -/
def pathParts (path : List UInt8) : List (List UInt8) :=
  (splitSlash path).filter fun part => !part.isEmpty

/-- A directory entry, as the 32 bytes from its start on. -/
abbrev Entry := Memory

def entriesOf (buf : Memory) : List Entry :=
  (List.range 16).map fun i k => buf (32 * i + k)

/-- Deleted, or a part of a long name, or the volume's name. -/
def skipped (e : Entry) : Bool :=
  e 0 == 0xE5 || e 11 == attrLfn || e 11 &&& attrVolumeId != 0

section Walk

variable {σ : Type} (visit : Entry → σ → σ × Bool)

/-- The loop over entries, and whether the walk is over. -/
def scan : List Entry → σ → σ × Bool
  | [], acc => (acc, false)
  | e :: rest, acc =>
      if e 0 = 0 then (acc, true)
      else if skipped e then scan rest acc
      else
        let (acc, stop) := visit e acc
        if stop then (acc, true) else scan rest acc

/-- The loop over the sectors of a cluster from `s` on, and the walk's result
if it is over. -/
def walkSectors (cluster : Nat) :
    Nat → Nat → Driver → σ → Driver × σ × Option Bool
  | 0, _, d, acc => (d, acc, none)
  | left + 1, s, d, acc =>
      let (d, ok, buf) :=
        readVolumeSector d (add32 (clusterSector d.vol cluster) s)
      let d := { d with sectorBuf := buf }
      if ok then
        let (acc, ended) := scan visit (entriesOf d.sectorBuf) acc
        if ended then (d, acc, some true)
        else walkSectors cluster left (s + 1) d acc
      else (d, acc, some false)

/-- The driver after a read into the sector buffer. -/
def Driver.fetched (d : Driver) (lba : Nat) : Driver :=
  { d with reads := d.reads + 1, sectorBuf := (d.vol.reader d.reads lba).2 }

/-- Where the driver looks for sector `s` of a cluster. -/
def sectorLba (vol : Volume) (c s : Nat) : Nat :=
  add32 vol.volumeLba (add32 (clusterSector vol c) s)

theorem walkSectors_succ {d : Driver} {c left s : Nat} {acc : σ} :
    walkSectors visit c (left + 1) s d acc =
      let lba := sectorLba d.vol c s
      let scanned := scan visit (entriesOf (d.vol.reader d.reads lba).2) acc
      if (d.vol.reader d.reads lba).1 then
        if scanned.2 then (d.fetched lba, scanned.1, some true)
        else walkSectors visit c left (s + 1) (d.fetched lba) scanned.1
      else (d.fetched lba, acc, some false) := by
  have hturn : ∀ (scanBuf : Memory → σ → σ × Bool)
      (next : Driver → σ → Driver × σ × Option Bool),
      (let (d, ok, buf) :=
        readVolumeSector d (add32 (clusterSector d.vol c) s)
      let d := { d with sectorBuf := buf }
      if ok then
        let (acc, ended) := scanBuf d.sectorBuf acc
        if ended then (d, acc, some true) else next d acc
      else (d, acc, some false)) =
      let lba := sectorLba d.vol c s
      let scanned := scanBuf (d.vol.reader d.reads lba).2 acc
      if (d.vol.reader d.reads lba).1 then
        if scanned.2 then (d.fetched lba, scanned.1, some true)
        else next (d.fetched lba) scanned.1
      else (d.fetched lba, acc, some false) := fun _ _ => rfl
  -- With the scan as a variable the kernel does not run it over 16 entries.
  exact hturn (fun buf => scan visit (entriesOf buf))
    (walkSectors visit c left (s + 1))

/-- The end of a walk, with the clusters it went through. -/
structure Walk (σ : Type) where
  driver : Driver
  acc : σ
  ok : Bool
  visited : List Nat

def walkLoop : Nat → Nat → Nat → Driver → σ → Option (Walk σ)
  | 0, _, _, _, _ => none
  | fuel + 1, cluster, steps, d, acc =>
      if cluster = chainEnd then some ⟨d, acc, true, []⟩
      else if validCluster d.vol cluster = false ∨
          add32 steps 1 > d.vol.clusterCount then some ⟨d, acc, false, []⟩
      else
        match walkSectors visit cluster d.vol.sectorsPerCluster 0 d acc with
        | (d, acc, some ok) => some ⟨d, acc, ok, [cluster]⟩
        | (d, acc, none) =>
            let (d, next) := nextCluster d cluster
            if next = noSector then some ⟨d, acc, false, [cluster]⟩
            else
              (walkLoop fuel next (add32 steps 1) d acc).map fun walk =>
                { walk with visited := cluster :: walk.visited }

end Walk

/-- More turns than any walk takes. -/
def walkLimit : Nat := 2 ^ 32

def walkDir {σ : Type} (visit : Entry → σ → σ × Bool) (d : Driver)
    (cluster : Nat) (acc : σ) : Option (Walk σ) :=
  walkLoop visit walkLimit cluster 0 d acc

def entryCluster (e : Entry) : Nat := rd16 e 20 <<< 16 ||| rd16 e 26

def isDirEntry (e : Entry) : Bool := e 11 &&& attrDirectory != 0

structure Found where
  firstCluster : Nat
  size : Nat
  isDir : Bool
deriving Repr, DecidableEq

def foundOf (e : Entry) : Found := ⟨entryCluster e, rd32 e 28, isDirEntry e⟩

def lookup (want : List UInt8) (e : Entry) (acc : Option Found) :
    Option Found × Bool :=
  if load e 0 11 = want then (some (foundOf e), true) else (acc, false)

/-- A parent link to the root is stored as cluster 0. -/
def enter (vol : Volume) (next : Found) : Found :=
  if next.isDir ∧ next.firstCluster = 0 then
    { next with firstCluster := vol.rootCluster }
  else next

def resolveParts : List (List UInt8) → Found → Driver →
    Option (Driver × Option Found)
  | [], cur, d => some (d, some cur)
  | part :: parts, cur, d =>
      match toShortName part with
      | none => some (d, none)
      | some want =>
          if cur.isDir then
            match walkDir (lookup want) d cur.firstCluster none with
            | none => none
            | some walk =>
                match walk.ok, walk.acc with
                | true, some next =>
                    resolveParts parts (enter walk.driver.vol next) walk.driver
                | _, _ => some (walk.driver, none)
          else some (d, none)

/-- A path that is a null pointer is `none`. -/
def resolve (d : Driver) : Option (List UInt8) → Option (Driver × Option Found)
  | none => some (d, none)
  | some path =>
      if d.vol.ok then
        resolveParts (pathParts path) ⟨d.vol.rootCluster, 0, true⟩ d
      else some (d, none)

def mount (d : Driver) (reader : Option Reader) (volumeLba : Nat) :
    Driver × Bool :=
  let d := { d with vol := Volume.unmounted, fatCacheSector := noSector }
  match reader with
  | none => (d, false)
  | some reader =>
      let (d, ok, bs) := d.request reader volumeLba
      let bytesPerSector := rd16 bs 11
      let spc := (bs 13).toNat
      let reserved := rd16 bs 14
      let numFats := (bs 16).toNat
      let rootEntries := rd16 bs 17
      let total16 := rd16 bs 19
      let fat16 := rd16 bs 22
      let total32 := rd32 bs 32
      let fat32Sectors := rd32 bs 36
      let fsVersion := rd16 bs 42
      let rootCluster := rd32 bs 44
      let dataStart := reserved + numFats * fat32Sectors
      let clusters := (total32 - dataStart) / spc
      if !ok then (d, false)
      else if bs 510 ≠ 0x55 ∨ bs 511 ≠ 0xAA then (d, false)
      else if bytesPerSector ≠ sectorSize then (d, false)
      else if spc = 0 ∨ spc &&& (spc - 1) ≠ 0 then (d, false)
      else if reserved = 0 ∨ numFats = 0 then (d, false)
      else if rootEntries ≠ 0 ∨ total16 ≠ 0 ∨ fat16 ≠ 0 then (d, false)
      else if fsVersion ≠ 0 then (d, false)
      else if fat32Sectors = 0 ∨ total32 = 0 then (d, false)
      else if dataStart ≥ total32 then (d, false)
      else if clusters < 65525 then (d, false)
      else if fat32Sectors * (sectorSize / 4) < clusters + 2 then (d, false)
      else if rootCluster < 2 ∨ rootCluster ≥ add32 clusters 2 then (d, false)
      else
        ({ d with
            vol := ⟨reader, volumeLba, spc, reserved, fat32Sectors, dataStart,
              rootCluster, clusters, true⟩ }, true)

structure DirEntryInfo where
  name : List UInt8
  isDir : Bool
  size : Nat
deriving Repr, DecidableEq

/-- A field up to its first space. -/
def trimmed (field : List UInt8) : List UInt8 :=
  field.takeWhile fun c => c != space

def infoOf (e : Entry) : DirEntryInfo where
  name :=
    trimmed (load e 0 8) ++
      if e 8 ≠ space then dot :: trimmed (load e 8 3) else []
  isDir := isDirEntry e
  size := if isDirEntry e then 0 else rd32 e 28

/-- What the callback was told, and whether the call succeeded. -/
def list (d : Driver) (path : Option (List UInt8)) :
    Option (Driver × List DirEntryInfo × Bool) :=
  match resolve d path with
  | none => none
  | some (d, none) => some (d, [], false)
  | some (d, some dir) =>
      if dir.isDir then
        (walkDir (fun e acc => (acc ++ [infoOf e], false)) d dir.firstCluster
          []).map fun walk => (walk.driver, walk.acc, walk.ok)
      else some (d, [], false)

def fileSize (d : Driver) (path : Option (List UInt8)) :
    Option (Driver × Int) :=
  (resolve d path).map fun (d, found) =>
    match found with
    | none => (d, -1)
    | some f => (d, if f.isDir then -1 else f.size)

/-- The loop over the sectors of a cluster, with the buffer, the number of
bytes done and whether all reads succeeded. -/
def readSectors (cluster toRead : Nat) :
    Nat → Nat → Driver → Memory → Nat → Driver × Memory × Nat × Bool
  | 0, _, d, dest, done => (d, dest, done, true)
  | left + 1, s, d, dest, done =>
      if done < toRead then
        let (d, ok, buf) :=
          readVolumeSector d (add32 (clusterSector d.vol cluster) s)
        let d := { d with sectorBuf := buf }
        if ok then
          let chunk := min (toRead - done) sectorSize
          readSectors cluster toRead left (s + 1) d
            (store dest done (load d.sectorBuf 0 chunk)) (done + chunk)
        else (d, dest, done, false)
      else (d, dest, done, true)

/-- The end of a read, with the clusters it went through. -/
structure ReadResult where
  driver : Driver
  dest : Memory
  outBytesRead : Nat
  ok : Bool
  visited : List Nat

def readLoop (toRead : Nat) :
    Nat → Nat → Nat → Driver → Memory → Nat → Option ReadResult
  | 0, _, _, _, _, _ => none
  | fuel + 1, cluster, steps, d, dest, done =>
      if done < toRead then
        if validCluster d.vol cluster = false ∨
            add32 steps 1 > d.vol.clusterCount then
          some ⟨d, dest, 0, false, []⟩
        else
          match readSectors cluster toRead d.vol.sectorsPerCluster 0 d dest
              done with
          | (d, dest, done, false) => some ⟨d, dest, done, false, [cluster]⟩
          | (d, dest, done, true) =>
              if done ≥ toRead then some ⟨d, dest, done, true, [cluster]⟩
              else
                let (d, next) := nextCluster d cluster
                if next = chainEnd ∨ next = noSector then
                  some ⟨d, dest, done, false, [cluster]⟩
                else
                  (readLoop toRead fuel next (add32 steps 1) d dest done).map
                    fun result =>
                      { result with visited := cluster :: result.visited }
      else some ⟨d, dest, done, true, []⟩

def read (d : Driver) (path : Option (List UInt8)) (buffer : Memory)
    (capacity : Nat) : Option ReadResult :=
  match resolve d path with
  | none => none
  | some (d, none) => some ⟨d, buffer, 0, false, []⟩
  | some (d, some f) =>
      if f.isDir then some ⟨d, buffer, 0, false, []⟩
      else
        readLoop (min f.size capacity) walkLimit f.firstCluster 0 d buffer 0

def diskVolumeLba : Nat := 32768

end Fat32

end VenomOS
