/-
tools/mkfat32.py, the host tool that builds volume images.  A dictionary is
the list of its items in the order of insertion and the FAT is a function of
the cluster.  Every exit of the tool without an image is `none`: its own
messages as well as the exceptions that Python raises.
-/
import VenomOS.Blocks
import VenomOS.Fat32Names

namespace VenomOS

namespace Fat32

namespace Mkfat32

open ByteMemory Blocks

def reserved : Nat := 32

def numFats : Nat := 2

def spc : Nat := 1

/-- The FAT entry of a last cluster. -/
def endOfChain : Nat := 0x0FFFFFFF

/-- An argument DEST=SRC with the bytes of SRC.  Arguments of a program have
no NUL in them. -/
structure Spec where
  dest : List UInt8
  content : List UInt8
  noNul : 0 ∉ dest

/-- The parts of DEST in upper case, as the tool uses them. -/
def Spec.names (spec : Spec) : List (List UInt8) :=
  (splitSlash spec.dest).map fun part => part.map upper

/-- The items of a directory: a name with ('file', content) or with
('dir', sub). -/
inductive Dir
  | nil
  | file (name content : List UInt8) (rest : Dir)
  | dir (name : List UInt8) (sub rest : Dir)

namespace Dir

def length : Dir → Nat
  | nil => 0
  | file _ _ rest => rest.length + 1
  | dir _ _ rest => rest.length + 1

/-- `node[name] = ('file', content)`. -/
def setFile (name content : List UInt8) : Dir → Dir
  | nil => file name content nil
  | file other old rest =>
      if other = name then file name content rest
      else file other old (setFile name content rest)
  | dir other sub rest =>
      if other = name then file name content rest
      else dir other sub (setFile name content rest)

/-- What `change` does to `node.setdefault(name, ('dir', {}))[1]`.  The bytes
of a file cannot be changed. -/
def descend (name : List UInt8) (change : Dir → Option Dir) :
    Dir → Option Dir
  | nil => (change nil).map fun sub => dir name sub nil
  | file other old rest =>
      if other = name then none
      else (descend name change rest).map (file other old)
  | dir other sub rest =>
      if other = name then (change sub).map fun sub => dir other sub rest
      else (descend name change rest).map (dir other sub)

/-- The loop over the parts of a DEST. -/
def insert (content : List UInt8) : List (List UInt8) → Dir → Option Dir
  | [], _ => none
  | [name], node => some (node.setFile name content)
  | name :: next :: names, node =>
      node.descend name (insert content (next :: names))

end Dir

/-- The loop over the arguments. -/
def plant : List Spec → Dir → Option Dir
  | [], root => some root
  | spec :: specs, root =>
      match root.insert spec.content spec.names with
      | none => none
      | some root => plant specs root

/-- The variables of `main` that its inner functions change. -/
structure Builder where
  free : List Nat
  cursor : Nat
  fat : Nat → Nat
  data : List (Nat × List UInt8)

/-- `xs[0::2]`. -/
def everySecond : List Nat → List Nat
  | [] => []
  | [c] => [c]
  | c :: _ :: rest => c :: everySecond rest

def freeList (clusters : Nat) (fragment : Bool) : List Nat :=
  let free := List.range' 2 clusters
  if fragment then everySecond free ++ everySecond free.tail else free

def Builder.new (clusters : Nat) (fragment : Bool) : Builder where
  free := freeList clusters fragment
  cursor := 0
  fat c := if c = 0 then 0x0FFFFFF8 else if c = 1 then 0x0FFFFFFF else 0
  data := []

/-- Each cluster but the last leads to the one behind it. -/
def linkChain (got : List Nat) (fat : Nat → Nat) : Nat → Nat :=
  (got.zip got.tail).foldl (fun fat pair => Function.update fat pair.1 pair.2)
    fat

def Builder.alloc (b : Builder) (n : Nat) : Option (List Nat × Builder) :=
  let got := (b.free.drop b.cursor).take n
  if got.length < n then none
  else
    match got.getLast? with
    | none => none
    | some last =>
        some (got,
          { b with
            cursor := b.cursor + n
            fat := Function.update (linkChain got b.fat) last endOfChain })

/-- `bytes.ljust(width, b'\0')`. -/
def ljust (width : Nat) (bytes : List UInt8) : List UInt8 :=
  bytes ++ List.replicate (width - bytes.length) 0

/-- The loops that fill the clusters of a chain. -/
def Builder.setData (b : Builder) (chain : List Nat) (raw : List UInt8) :
    Builder :=
  { b with
    data := b.data ++ chain.mapIdx fun i c => (c, chunk sectorSize raw i) }

def Builder.store (b : Builder) (content : List UInt8) :
    Option (Nat × Builder) :=
  let n := max 1 ((content.length + sectorSize - 1) / sectorSize)
  match b.alloc n with
  | none => none
  | some (chain, b) =>
      some (chain.headD 0, b.setData chain (ljust (n * sectorSize) content))

/-- The fields of a directory entry. -/
def packEntry (name83 : List UInt8) (attr : UInt8) (first size : Nat) :
    List UInt8 :=
  let hi := first >>> 16 &&& 0xFFFF
  let lo := first &&& 0xFFFF
  name83 ++ [attr, 0, 0] ++ leBytes 2 0 ++ leBytes 2 0x21 ++ leBytes 2 0x21 ++
    leBytes 2 hi ++ leBytes 2 0 ++ leBytes 2 0x21 ++ leBytes 2 lo ++
    leBytes 4 size

/-- The size must fit into its field. -/
def dirEntry (name : List UInt8) (attr : UInt8) (first size : Nat) :
    Option (List UInt8) :=
  match shortName name with
  | none => none
  | some name83 =>
      if size < 2 ^ 32 then some (packEntry name83 attr first size) else none

/-- The entries of the files of a directory; the subdirectories come later. -/
def buildDir : Dir → Builder → Option (List (List UInt8) × Builder)
  | .nil, b => some ([], b)
  | .file name content rest, b =>
      match if content.isEmpty then some (0, b) else b.store content with
      | none => none
      | some (first, b) =>
          match dirEntry name 0x20 first content.length with
          | none => none
          | some entry =>
              (buildDir rest b).map fun built => (entry :: built.1, built.2)
  | .dir _ _ rest, b => buildDir rest b

/-- How many clusters a directory gets. -/
def dirClusters (tree : Dir) : Nat :=
  max 1 ((tree.length + 2) * 32 / sectorSize + 1)

/-- What `main` does for the root and `write_dir_content` for the others.
They differ in the entries in front, and in the parent that the subdirectories
are told. -/
def fillDir (tree : Dir)
    (writeSubs : Nat → Builder → Option (List (List UInt8) × Builder))
    (dots : Nat → List (List UInt8)) (parentOfSubs : Nat → Nat) (b : Builder) :
    Option (Nat × Builder) :=
  match b.alloc (dirClusters tree) with
  | none => none
  | some (chain, b) =>
      let selfCluster := chain.headD 0
      match buildDir tree b with
      | none => none
      | some (entries, b) =>
          match writeSubs (parentOfSubs selfCluster) b with
          | none => none
          | some (subEntries, b) =>
              let raw := (dots selfCluster ++ entries ++ subEntries).flatten
              if raw.length > chain.length * sectorSize then none
              else
                some (selfCluster,
                  b.setData chain (ljust (chain.length * sectorSize) raw))

/-- The entries `.` and `..`. -/
def dotEntries (parent selfCluster : Nat) : List (List UInt8) :=
  [packEntry (codesOf ".          ") 0x10 selfCluster 0,
    packEntry (codesOf "..         ") 0x10 parent 0]

/-- The loop of `write_dir_content` over the subdirectories of a directory,
with the entries made of them; `fillDir` is the rest of it. -/
def writeSubdirs : Dir → Nat → Builder → Option (List (List UInt8) × Builder)
  | .nil, _, b => some ([], b)
  | .file _ _ rest, parent, b => writeSubdirs rest parent b
  | .dir name sub rest, parent, b =>
      match fillDir sub (writeSubdirs sub) (dotEntries parent) id b with
      | none => none
      | some (c, b) =>
          match dirEntry name 0x10 c 0 with
          | none => none
          | some entry =>
              (writeSubdirs rest parent b).map fun built =>
                (entry :: built.1, built.2)

/-- The root has no entries for itself and its parent, and its subdirectories
are told that their parent is cluster 0. -/
def writeRoot (root : Dir) (b : Builder) : Option (Nat × Builder) :=
  fillDir root (writeSubdirs root) (fun _ => []) (fun _ => 0) b

/-- The boot sector. -/
def bootSector (total fatSectors rootCluster : Nat) : List UInt8 :=
  [0xEB, 0x58, 0x90] ++ codesOf "VENOMFAT" ++
  leBytes 2 sectorSize ++ leBytes 1 spc ++ leBytes 2 reserved ++
  leBytes 1 numFats ++ leBytes 2 0 ++ leBytes 2 0 ++ leBytes 1 0xF8 ++
  leBytes 2 0 ++ leBytes 2 32 ++ leBytes 2 64 ++ leBytes 4 0 ++
  leBytes 4 total ++
  leBytes 4 fatSectors ++ leBytes 2 0 ++ leBytes 2 0 ++
  leBytes 4 rootCluster ++ leBytes 2 1 ++ leBytes 2 6 ++
  List.replicate 12 0 ++
  leBytes 1 0x80 ++ leBytes 1 0 ++ leBytes 1 0x29 ++ leBytes 4 0x56454E4F ++
  codesOf "VENOMVOL   " ++ codesOf "FAT32   " ++
  List.replicate 420 0 ++ [0x55, 0xAA]

def fsinfo : List UInt8 :=
  leBytes 4 0x41615252 ++ List.replicate 480 0 ++ leBytes 4 0x61417272 ++
  leBytes 4 0xFFFFFFFF ++ leBytes 4 0xFFFFFFFF ++ List.replicate 14 0 ++
  [0x55, 0xAA]

def fatBytes (fat : Nat → Nat) (count fatSectors : Nat) : List UInt8 :=
  ljust (fatSectors * sectorSize)
    ((List.range count).map fun c => leBytes 4 (fat c)).flatten

/-- How many sectors, FAT sectors and clusters there are. -/
structure Layout where
  total : Nat
  fatSectors : Nat
  dataStart : Nat
  clusters : Nat

def layout (sizeMib : Nat) : Layout :=
  let total := sizeMib * 1024 * 1024 / sectorSize
  let fatSectors := ((total + 2) * 4 + sectorSize - 1) / sectorSize
  let dataStart := reserved + numFats * fatSectors
  ⟨total, fatSectors, dataStart, (total - dataStart) / spc⟩

/-- The bytes of the image. -/
def Layout.image (l : Layout) (rootCluster : Nat) (b : Builder) : Memory :=
  let bs := bootSector l.total l.fatSectors rootCluster
  let fats := fatBytes b.fat (l.clusters + 2) l.fatSectors
  let img : Memory := fun _ => 0
  let img := ByteMemory.store img 0 bs
  let img := ByteMemory.store img sectorSize fsinfo
  let img := ByteMemory.store img (6 * sectorSize) bs
  let img := (List.range numFats).foldl (fun img f =>
    ByteMemory.store img ((reserved + f * l.fatSectors) * sectorSize) fats) img
  b.data.foldl (fun img item =>
    ByteMemory.store img ((l.dataStart + (item.1 - 2) * spc) * sectorSize)
      item.2) img

/-- An image of so many sectors and clusters. -/
structure Image where
  total : Nat
  clusters : Nat
  bytes : Memory

/-- The number of sectors must fit into its field of the boot sector. -/
def main (sizeMib : Nat) (fragment : Bool) (specs : List Spec) :
    Option Image :=
  let l := layout sizeMib
  if l.clusters < 65525 then none
  else
    match plant specs .nil with
    | none => none
    | some root =>
        match writeRoot root (Builder.new l.clusters fragment) with
        | none => none
        | some (rootCluster, b) =>
            if l.total < 2 ^ 32 then
              some ⟨l.total, l.clusters, l.image rootCluster b⟩
            else none

end Mkfat32

end Fat32

end VenomOS
