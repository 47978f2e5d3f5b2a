/-
The page tables of kernel/paging.cpp.  Tables live in byte-addressed physical
memory, which the kernel reaches through its identity map, so a table pointer
is the physical address of the table.  The translation caches are not
modelled.
-/
import VenomOS.ByteMemory
import VenomOS.Pmm

namespace VenomOS

namespace Paging

open ByteMemory

structure State where
  mem : Memory
  pmm : Pmm
  cr3 : Nat

def pagePresent : Nat := 1 <<< 0

def pageWritable : Nat := 1 <<< 1

def pageUser : Nat := 1 <<< 2

def pageHuge : Nat := 1 <<< 7

def pageOwned : Nat := 1 <<< 9

def pageNx : Nat := 1 <<< 63

def addrMask : Nat := 0x000FFFFFFFFFF000

/-- The complement of a 64-bit word. -/
def not64 (value : Nat) : Nat := value ^^^ (2 ^ 64 - 1)

def hasFlag (entry flag : Nat) : Bool := entry &&& flag != 0

def isHuge (entry : Nat) : Bool :=
  hasFlag entry pagePresent && hasFlag entry pageHuge

/-- `table[index]`. -/
def entryAt (mem : Memory) (table index : Nat) : Nat :=
  readLE mem (table + 8 * index) 8

def setEntry (mem : Memory) (table index value : Nat) : Memory :=
  store mem (table + 8 * index) (leBytes 8 value)

/-- The loop that sets all 512 entries of a table to zero. -/
def clearTable (mem : Memory) (table : Nat) : Memory :=
  store mem table (List.replicate 4096 0)

def pml4Index (virtAddr : Nat) : Nat := (virtAddr >>> 39) &&& 0x1FF

def pdptIndex (virtAddr : Nat) : Nat := (virtAddr >>> 30) &&& 0x1FF

def pdIndex (virtAddr : Nat) : Nat := (virtAddr >>> 21) &&& 0x1FF

def ptIndex (virtAddr : Nat) : Nat := (virtAddr >>> 12) &&& 0x1FF

namespace State

variable (st : State)

def entry (table index : Nat) : Nat := entryAt st.mem table index

def set (table index value : Nat) : State :=
  { st with mem := setEntry st.mem table index value }

def free (physAddr : Nat) : State :=
  { st with pmm := st.pmm.freeFrame physAddr }

/-- The flags of a mapping that its upper-level entries take over. -/
def extraFlags (flags : Nat) : Nat :=
  flags &&& not64 addrMask &&& not64 pageHuge &&& not64 pageNx

def getOrCreateTable (table index flags : Nat) : State × Nat :=
  let old := st.entry table index
  if hasFlag old pagePresent then
    let widened := old ||| (pageWritable ||| extraFlags flags)
    (st.set table index widened, widened &&& addrMask)
  else
    let (pmm, newFrame) := st.pmm.allocFrame
    let st := { st with pmm := pmm }
    if newFrame = 0 then (st, 0)
    else
      let st := { st with mem := clearTable st.mem newFrame }
      (st.set table index
        (newFrame ||| pagePresent ||| pageWritable ||| extraFlags flags),
        newFrame)

/-- `getOrCreateTable` below a table that may hold huge pages. -/
def descend (table index flags : Nat) : State × Nat :=
  if isHuge (st.entry table index) then (st, 0)
  else st.getOrCreateTable table index flags

def mapPageIn (pml4 virtAddr physAddr flags : Nat) : State × Bool :=
  if virtAddr % 4096 ≠ 0 ∨ physAddr % 4096 ≠ 0 then (st, false)
  else
    let (st, pdpt) := st.getOrCreateTable pml4 (pml4Index virtAddr) flags
    if pdpt = 0 then (st, false)
    else
      let (st, pd) := st.descend pdpt (pdptIndex virtAddr) flags
      if pd = 0 then (st, false)
      else
        let (st, pt) := st.descend pd (pdIndex virtAddr) flags
        if pt = 0 then (st, false)
        else
          (st.set pt (ptIndex virtAddr)
            ((physAddr &&& addrMask) ||| (flags ||| pagePresent)), true)

def isTableEmpty (table : Nat) : Bool :=
  (List.range 512).all fun i => !hasFlag (st.entry table i) pagePresent

/-- Clear the entry of a table that has become empty and free the table. -/
def dropTable (table index child : Nat) : State :=
  (st.set table index 0).free child

/-- What `unmapPage` does once the page is gone. -/
def dropEmptyTables (pml4 pdpt pd pt virtAddr : Nat) : State :=
  if st.isTableEmpty pt then
    let st := st.dropTable pd (pdIndex virtAddr) pt
    if st.isTableEmpty pd then
      let st := st.dropTable pdpt (pdptIndex virtAddr) pd
      if st.isTableEmpty pdpt then
        st.dropTable pml4 (pml4Index virtAddr) pdpt
      else st
    else st
  else st

def unmapPage (virtAddr : Nat) : State × Bool :=
  if virtAddr % 4096 ≠ 0 then (st, false)
  else
    let pml4 := st.cr3 &&& addrMask
    let pml4Entry := st.entry pml4 (pml4Index virtAddr)
    if !hasFlag pml4Entry pagePresent then (st, false)
    else
      let pdpt := pml4Entry &&& addrMask
      let pdptEntry := st.entry pdpt (pdptIndex virtAddr)
      if !hasFlag pdptEntry pagePresent || isHuge pdptEntry then (st, false)
      else
        let pd := pdptEntry &&& addrMask
        let pdEntry := st.entry pd (pdIndex virtAddr)
        if !hasFlag pdEntry pagePresent || isHuge pdEntry then (st, false)
        else
          let pt := pdEntry &&& addrMask
          if !hasFlag (st.entry pt (ptIndex virtAddr)) pagePresent then
            (st, false)
          else
            ((st.set pt (ptIndex virtAddr) 0).dropEmptyTables pml4 pdpt pd pt
              virtAddr, true)

def protectPage (virtAddr newFlags : Nat) : State × Bool :=
  if virtAddr % 4096 ≠ 0 then (st, false)
  else
    let pml4 := st.cr3 &&& addrMask
    let pml4Entry := st.entry pml4 (pml4Index virtAddr)
    if !hasFlag pml4Entry pagePresent then (st, false)
    else
      let pdpt := pml4Entry &&& addrMask
      let pdptEntry := st.entry pdpt (pdptIndex virtAddr)
      if !hasFlag pdptEntry pagePresent || isHuge pdptEntry then (st, false)
      else
        let pd := pdptEntry &&& addrMask
        let pdEntry := st.entry pd (pdIndex virtAddr)
        if !hasFlag pdEntry pagePresent || isHuge pdEntry then (st, false)
        else
          let pt := pdEntry &&& addrMask
          let ptEntry := st.entry pt (ptIndex virtAddr)
          if !hasFlag ptEntry pagePresent then (st, false)
          else
            (st.set pt (ptIndex virtAddr) ((ptEntry &&& addrMask) |||
              (newFlags &&& not64 addrMask) ||| pagePresent), true)

/-- The flags of a page of the kernel's image. -/
def imageFlags (textEnd rodataEnd addr : Nat) : Nat :=
  if 0x100000 ≤ addr ∧ addr < textEnd then pagePresent
  else if textEnd ≤ addr ∧ addr < rodataEnd then pagePresent ||| pageNx
  else pagePresent ||| pageWritable ||| pageNx

/-- A page table that maps the first 2 MiB to themselves. -/
def imageTable (textEnd rodataEnd pt : Nat) (mem : Memory) : Memory :=
  (List.range 512).foldl (fun mem i =>
    setEntry mem pt i (i * 4096 ||| imageFlags textEnd rodataEnd (i * 4096)))
    mem

/-- The linker gives the ends of the kernel's code and of its constants. -/
def protectKernelImage (textEnd rodataEnd : Nat) : State × Bool :=
  let pml4Entry := st.entry (st.cr3 &&& addrMask) 0
  if !hasFlag pml4Entry pagePresent then (st, false)
  else
    let pdptEntry := st.entry (pml4Entry &&& addrMask) 0
    if !hasFlag pdptEntry pagePresent || isHuge pdptEntry then (st, false)
    else
      let pd := pdptEntry &&& addrMask
      if !isHuge (st.entry pd 0) then (st, false)
      else if textEnd ≤ 0x100000 ∨ rodataEnd < textEnd ∨ rodataEnd > 0x200000
      then (st, false)
      else
        let (pmm, frame) := st.pmm.allocFrame
        let st := { st with pmm := pmm }
        if frame = 0 then (st, false)
        else
          let st :=
            { st with mem := imageTable textEnd rodataEnd frame st.mem }
          (st.set pd 0 (frame ||| pagePresent ||| pageWritable), true)

/-- Returns the physical address of the new PML4, or 0. -/
def createAddressSpace : State × Nat :=
  let kernelPml4 := st.cr3 &&& addrMask
  let kernelPml4Entry := st.entry kernelPml4 0
  if !hasFlag kernelPml4Entry pagePresent then (st, 0)
  else
    let kernelSpacePdptEntry := st.entry (kernelPml4Entry &&& addrMask) 0
    let (pmm, newPml4) := st.pmm.allocFrame
    let st := { st with pmm := pmm }
    if newPml4 = 0 then (st, 0)
    else
      let (pmm, newPdpt) := st.pmm.allocFrame
      let st := { st with pmm := pmm }
      if newPdpt = 0 then (st.free newPml4, 0)
      else
        let st :=
          { st with mem := clearTable (clearTable st.mem newPml4) newPdpt }
        let st := st.set newPdpt 0 kernelSpacePdptEntry
        (st.set newPml4 0 (newPdpt ||| pagePresent ||| pageWritable), newPml4)

end State

/-- Free the owned pages of a page table. -/
def releasePages (mem : Memory) (pt : Nat) (pmm : Pmm) : Pmm :=
  (List.range 512).foldl (fun pmm i =>
    let entry := entryAt mem pt i
    if hasFlag entry pagePresent && hasFlag entry pageOwned then
      pmm.freeFrame (entry &&& addrMask)
    else pmm) pmm

/-- Free the tables below a list of entries, each after what `release` frees
of it. -/
def releaseTables (mem : Memory) (release : Nat → Pmm → Pmm) (table : Nat)
    (indices : List Nat) (pmm : Pmm) : Pmm :=
  indices.foldl (fun pmm i =>
    let entry := entryAt mem table i
    if !hasFlag entry pagePresent || isHuge entry then pmm
    else
      (release (entry &&& addrMask) pmm).freeFrame (entry &&& addrMask)) pmm

def releaseDirectory (mem : Memory) (pd : Nat) (pmm : Pmm) : Pmm :=
  releaseTables mem (releasePages mem) pd (List.range 512) pmm

/-- The slots after the first, which is the kernel's. -/
def releaseDirectories (mem : Memory) (pdpt : Nat) (pmm : Pmm) : Pmm :=
  releaseTables mem (releaseDirectory mem) pdpt (List.range' 1 511) pmm

def State.destroyAddressSpace (st : State) (pml4 : Nat) : State :=
  let entry := st.entry pml4 0
  if !hasFlag entry pagePresent then st.free pml4
  else
    let pdpt := entry &&& addrMask
    { st with
      pmm := ((releaseDirectories st.mem pdpt st.pmm).freeFrame
        pdpt).freeFrame pml4 }

end Paging

end VenomOS
