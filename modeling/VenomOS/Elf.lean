/-
The checks of kernel/elf.cpp on an executable file, and what holds of the
program headers of a file that passes them.
-/
import VenomOS.ByteMemory
import VenomOS.Paging

namespace VenomOS

namespace Elf

open ByteMemory Paging

/-- ELFMAG0 to ELFMAG3. -/
def elfMag : List UInt8 := [0x7F, 0x45, 0x4C, 0x46]

def elfClass64 : UInt8 := 2

def elfData2Lsb : UInt8 := 1

def etExec : Nat := 2

def emX8664 : Nat := 62

def ptNull : Nat := 0

def ptLoad : Nat := 1

def ptGnuStack : Nat := 0x6474e551

def pfExec : Nat := 1 <<< 0

def pfWrite : Nat := 1 <<< 1

def pfRead : Nat := 1 <<< 2

def pfKnownMask : Nat := pfExec ||| pfWrite ||| pfRead

def userSpaceMin : Nat := 0x40000000

def userSpaceMax : Nat := 0x0000800000000000

def maxLoadSegments : Nat := 16

/-- The fields of Elf64_Ehdr that are looked at. -/
structure Ehdr where
  ident : List UInt8
  type : Nat
  machine : Nat
  entry : Nat
  phoff : Nat
  phentsize : Nat
  phnum : Nat
deriving Repr, DecidableEq

def ehdrSize : Nat := 64

/-- The fields of Elf64_Phdr that are looked at. -/
structure Phdr where
  type : Nat
  flags : Nat
  offset : Nat
  vaddr : Nat
  filesz : Nat
  memsz : Nat
  align : Nat
deriving Repr, DecidableEq

def phdrSize : Nat := 56

def readEhdr (file : Memory) : Ehdr where
  ident := load file 0 16
  type := readLE file 16 2
  machine := readLE file 18 2
  entry := readLE file 24 8
  phoff := readLE file 32 8
  phentsize := readLE file 54 2
  phnum := readLE file 56 2

def readPhdr (file : Memory) (addr : Nat) : Phdr where
  type := readLE file addr 4
  flags := readLE file (addr + 4) 4
  offset := readLE file (addr + 8) 8
  vaddr := readLE file (addr + 16) 8
  filesz := readLE file (addr + 32) 8
  memsz := readLE file (addr + 40) 8
  align := readLE file (addr + 48) 8

def add64 (a b : Nat) : Nat := (a + b) % 2 ^ 64

def sub64 (a b : Nat) : Nat := (a + 2 ^ 64 - b) % 2 ^ 64

def mul64 (a b : Nat) : Nat := a * b % 2 ^ 64

def addOverflows (a b : Nat) : Bool := decide (b > 2 ^ 64 - 1 - a)

def isPowerOfTwo (x : Nat) : Bool := x != 0 && x &&& (x - 1) == 0

def pageMask : Nat := 0xFFF

/-- The page of the first byte. -/
def Phdr.pageStart (phdr : Phdr) : Nat := phdr.vaddr &&& not64 pageMask

/-- The end of the page of the last byte. -/
def Phdr.pageEnd (phdr : Phdr) : Nat :=
  add64 (add64 phdr.vaddr phdr.memsz) pageMask &&& not64 pageMask

def reject (bad : Bool) (message : String) : Except String Unit :=
  if bad then .error message else .ok ()

/-- The body of the loop over the program headers.  `ranges` are the pages of
the segments before. -/
def checkSegment (fileSize : Nat) (ranges : List (Nat × Nat)) (phdr : Phdr) :
    Except String (List (Nat × Nat)) :=
  if phdr.type = ptNull ∨ phdr.type = ptGnuStack then .ok ranges
  else do
    reject (phdr.type != ptLoad)
      "Unsupported program header type (only PT_LOAD, PT_NULL, and PT_GNU_STACK are allowed)."
    reject (phdr.flags == 0) "A PT_LOAD segment has no permissions set."
    reject (phdr.flags &&& (pfKnownMask ^^^ 0xFFFFFFFF) != 0)
      "A PT_LOAD segment has unrecognized flag bits set."
    reject (phdr.flags &&& pfWrite != 0 && phdr.flags &&& pfExec != 0)
      "A PT_LOAD segment is both writable and executable (W^X violation)."
    reject (phdr.memsz < phdr.filesz)
      "A segment's p_memsz is smaller than its p_filesz."
    reject (addOverflows phdr.offset phdr.filesz)
      "A segment's file offset+size overflows."
    reject (add64 phdr.offset phdr.filesz > fileSize)
      "A segment's data runs past end of file."
    reject (addOverflows phdr.vaddr phdr.memsz)
      "A segment's virtual address+size overflows."
    reject (phdr.vaddr < userSpaceMin)
      "A segment targets kernel-shared address space."
    reject (add64 phdr.vaddr phdr.memsz > userSpaceMax)
      "A segment targets non-canonical/reserved address space."
    reject (phdr.align != 0 && !isPowerOfTwo phdr.align)
      "A segment's alignment is not a power of two."
    reject (phdr.align != 0 &&
        phdr.vaddr % phdr.align != phdr.offset % phdr.align)
      "A segment's virtual address and file offset disagree modulo its alignment."
    reject (phdr.pageEnd ≤ phdr.pageStart)
      "A segment's page-aligned range is empty or overflowed."
    reject (ranges.any fun range =>
        phdr.pageStart < range.2 && range.1 < phdr.pageEnd)
      "Two PT_LOAD segments overlap."
    return ranges ++ [(phdr.pageStart, phdr.pageEnd)]

def checkSegments (fileSize : Nat) :
    List (Nat × Nat) → List Phdr → Except String (List (Nat × Nat))
  | ranges, [] => .ok ranges
  | ranges, phdr :: rest => do
      let ranges ← checkSegment fileSize ranges phdr
      checkSegments fileSize ranges rest

def entryOk (entry : Nat) (phdrs : List Phdr) : Bool :=
  phdrs.any fun phdr => phdr.type == ptLoad && phdr.vaddr ≤ entry &&
    entry < add64 phdr.vaddr phdr.memsz

/-- The program headers that the header points to. -/
def programHeaders (file : Memory) (header : Ehdr) : List Phdr :=
  (List.range header.phnum).map fun i =>
    readPhdr file (header.phoff + i * phdrSize)

/-- The header and the program headers, or what is wrong with the file. -/
def validate (file : Memory) (fileSize : Nat) :
    Except String (Ehdr × List Phdr) := do
  reject (fileSize < ehdrSize) "File too small to contain an ELF header."
  let header := readEhdr file
  reject (header.ident.take 4 != elfMag) "Bad ELF magic - not an ELF file."
  reject (header.ident.getD 4 0 != elfClass64)
    "Not a 64-bit ELF file (ELFCLASS64 required)."
  reject (header.ident.getD 5 0 != elfData2Lsb)
    "Not little-endian (ELFDATA2LSB required)."
  reject (header.type != etExec)
    "Not a static executable (ET_EXEC required - no PIE/shared objects)."
  reject (header.machine != emX8664) "Not an x86-64 executable."
  reject (header.phnum == 0) "ELF file has no program headers."
  reject (header.phnum > maxLoadSegments) "Too many program headers."
  reject (header.phentsize != phdrSize)
    "Unexpected program header entry size."
  let phdrTableBytes := header.phnum * phdrSize
  reject (addOverflows header.phoff phdrTableBytes)
    "Program header table offset overflows."
  reject (add64 header.phoff phdrTableBytes > fileSize)
    "Program header table runs past end of file."
  let phdrs := programHeaders file header
  let ranges ← checkSegments fileSize [] phdrs
  reject ranges.isEmpty "ELF file has no PT_LOAD segments - nothing to run."
  reject (!entryOk header.entry phdrs)
    "Entry point does not fall within any loaded segment."
  return (header, phdrs)

theorem reject_bind_eq_ok {α : Type} {bad : Bool} {message : String}
    {next : Unit → Except String α} {result : α} :
    (reject bad message >>= next) = .ok result ↔
      bad = false ∧ next () = .ok result := by
  cases bad with
  | false => simp [reject, bind, Except.bind]
  | true => simp [reject, bind, Except.bind]

theorem bind_eq_ok {α β : Type} {first : Except String α}
    {next : α → Except String β} {result : β} :
    (first >>= next) = .ok result ↔
      ∃ value, first = .ok value ∧ next value = .ok result := by
  cases first with
  | error message => simp [bind, Except.bind]
  | ok value => simp [bind, Except.bind]

variable {ranges ranges' : List (Nat × Nat)} {fileSize : Nat}
  {phdrs : List Phdr} {a b : Nat}

theorem add64_of_lt (hlt : a + b < 2 ^ 64) : add64 a b = a + b :=
  Nat.mod_eq_of_lt hlt

theorem sub64_of_le (hle : b ≤ a) (hlt : a < 2 ^ 64) :
    sub64 a b = a - b := by
  unfold sub64
  omega

theorem addOverflows_eq_false (ha : a < 2 ^ 64) :
    addOverflows a b = false ↔ a + b < 2 ^ 64 := by
  simp only [addOverflows, decide_eq_false_iff_not]
  omega

/-- Clearing the low bits rounds down. -/
theorem and_not64_low {value k : Nat} (hlt : value < 2 ^ 64) :
    value &&& not64 (2 ^ k - 1) = value / 2 ^ k * 2 ^ k := by
  refine Nat.eq_of_testBit_eq fun i => ?_
  rw [Nat.testBit_and, not64, Nat.testBit_xor, Nat.testBit_two_pow_sub_one,
    Nat.testBit_two_pow_sub_one, Nat.testBit_mul_two_pow,
    Nat.testBit_div_two_pow]
  by_cases hlow : k ≤ i
  · have hback : i - k + k = i := by omega
    rw [hback]
    by_cases hhigh : i < 64
    · simp [hlow, hhigh, Nat.not_lt.mpr hlow]
    · have hzero : value.testBit i = false :=
        Nat.testBit_lt_two_pow (hlt.trans_le
          (Nat.pow_le_pow_right (by decide) (by omega)))
      simp [hzero]
  · by_cases hhigh : i < 64
    · simp [hlow, hhigh, Nat.not_le.mp hlow]
    · have hzero : value.testBit i = false :=
        Nat.testBit_lt_two_pow (hlt.trans_le
          (Nat.pow_le_pow_right (by decide) (by omega)))
      simp [hzero, hlow]

theorem and_not64_pageMask {value : Nat} (hlt : value < 2 ^ 64) :
    value &&& not64 pageMask = value / 4096 * 4096 :=
  @and_not64_low value 12 hlt

/-- A segment that passes the checks of its own header. -/
structure Loadable (fileSize : Nat) (phdr : Phdr) : Prop where
  known : phdr.flags &&& (pfKnownMask ^^^ 0xFFFFFFFF) = 0
  separate : ¬ (phdr.flags &&& pfWrite ≠ 0 ∧ phdr.flags &&& pfExec ≠ 0)
  sizes : phdr.filesz ≤ phdr.memsz
  inFile : phdr.offset + phdr.filesz ≤ fileSize
  min : userSpaceMin ≤ phdr.vaddr
  max : phdr.vaddr + phdr.memsz ≤ userSpaceMax
  nonempty : phdr.pageStart < phdr.pageEnd

/-- The fields of a program header are words. -/
structure Phdr.Words (phdr : Phdr) : Prop where
  offset : phdr.offset < 2 ^ 64
  vaddr : phdr.vaddr < 2 ^ 64

theorem readPhdr_words (file : Memory) (addr : Nat) :
    (readPhdr file addr).Words :=
  ⟨readLE_lt file (addr + 8) 8, readLE_lt file (addr + 16) 8⟩

theorem checkSegment_eq_ok {phdr : Phdr} (hwords : phdr.Words)
    (hok : checkSegment fileSize ranges phdr = .ok ranges') :
    (phdr.type ≠ ptLoad ∧ ranges' = ranges) ∨
    phdr.type = ptLoad ∧ Loadable fileSize phdr ∧
      (∀ range ∈ ranges,
        range.2 ≤ phdr.pageStart ∨ phdr.pageEnd ≤ range.1) ∧
      ranges' = ranges ++ [(phdr.pageStart, phdr.pageEnd)] := by
  unfold checkSegment at hok
  split at hok
  · rename_i hskip
    refine .inl ⟨?_, (Except.ok.inj hok).symm⟩
    rcases hskip with htype | htype <;> rw [htype] <;> decide
  · simp only [reject_bind_eq_ok, bne_eq_false_iff_eq, beq_eq_false_iff_ne,
      decide_eq_false_iff_not, Bool.and_eq_false_iff, List.any_eq_false,
      Nat.not_lt, Nat.not_le, gt_iff_lt, Bool.and_eq_true, decide_eq_true_eq]
      at hok
    obtain ⟨htype, _, hknown, hseparate, hsizes, hoffset, hfile, hvaddr, hmin,
      hmax, _, _, hnonempty, hapart, hresult⟩ := hok
    rw [addOverflows_eq_false hwords.offset] at hoffset
    rw [addOverflows_eq_false hwords.vaddr] at hvaddr
    rw [add64_of_lt hoffset] at hfile
    rw [add64_of_lt hvaddr] at hmax
    refine .inr ⟨htype, ⟨hknown, by tauto, hsizes, hfile, hmin, hmax,
      hnonempty⟩, fun range hrange => ?_, (Except.ok.inj hresult).symm⟩
    have hnot := hapart range hrange
    omega

/-- The segments that are loaded. -/
def loads (phdrs : List Phdr) : List Phdr :=
  phdrs.filter fun phdr => phdr.type == ptLoad

/-- Two segments have no page in common. -/
def Apart (first second : Phdr) : Prop :=
  first.pageEnd ≤ second.pageStart ∨ second.pageEnd ≤ first.pageStart

theorem checkSegments_eq_ok (hwords : ∀ phdr ∈ phdrs, phdr.Words)
    (hok : checkSegments fileSize ranges phdrs = .ok ranges') :
    (∀ phdr ∈ loads phdrs, Loadable fileSize phdr ∧ ∀ range ∈ ranges,
      range.2 ≤ phdr.pageStart ∨ phdr.pageEnd ≤ range.1) ∧
      (loads phdrs).Pairwise Apart := by
  induction phdrs generalizing ranges with
  | nil => exact ⟨by simp [loads], .nil⟩
  | cons phdr rest ih =>
      rw [checkSegments, bind_eq_ok] at hok
      obtain ⟨between, hfirst, hrest⟩ := hok
      obtain ⟨hloads, hapart⟩ := ih
        (fun phdr hphdr => hwords phdr (List.mem_cons_of_mem _ hphdr)) hrest
      rcases checkSegment_eq_ok (hwords phdr List.mem_cons_self) hfirst with
        ⟨htype, rfl⟩ | ⟨htype, hloadable, hbefore, rfl⟩
      · have hsame : loads (phdr :: rest) = loads rest := by
          simp [loads, htype]
        rw [hsame]
        exact ⟨hloads, hapart⟩
      · have hcons : loads (phdr :: rest) = phdr :: loads rest := by
          simp [loads, htype]
        rw [hcons]
        refine ⟨?_, List.pairwise_cons.mpr ⟨fun later hlater => ?_, hapart⟩⟩
        · rintro other hother
          rcases List.mem_cons.mp hother with rfl | hother
          · exact ⟨hloadable, hbefore⟩
          · refine ⟨(hloads other hother).1, fun range hrange => ?_⟩
            exact (hloads other hother).2 range (List.mem_append_left _ hrange)
        · exact (hloads later hlater).2 (phdr.pageStart, phdr.pageEnd) (by simp)

/-- What is known of a file that passes all checks. -/
structure Accepted (file : Memory) (fileSize : Nat) (header : Ehdr)
    (phdrs : List Phdr) : Prop where
  header_eq : header = readEhdr file
  phdrs_eq : phdrs = programHeaders file header
  table : header.phoff + header.phnum * phdrSize ≤ fileSize
  loadable : ∀ phdr ∈ loads phdrs, Loadable fileSize phdr
  apart : (loads phdrs).Pairwise Apart
  entry : ∃ phdr ∈ loads phdrs,
    phdr.vaddr ≤ header.entry ∧ header.entry < phdr.vaddr + phdr.memsz

theorem programHeaders_words (file : Memory) (header : Ehdr) :
    ∀ phdr ∈ programHeaders file header, phdr.Words := by
  intro phdr hphdr
  obtain ⟨i, _, rfl⟩ := List.mem_map.mp hphdr
  exact readPhdr_words file _

theorem accepted_of_validate {file : Memory} {header : Ehdr}
    (hok : validate file fileSize = .ok (header, phdrs)) :
    Accepted file fileSize header phdrs := by
  unfold validate at hok
  simp only [reject_bind_eq_ok, decide_eq_false_iff_not, Nat.not_lt,
    gt_iff_lt] at hok
  obtain ⟨_, _, _, _, _, _, _, _, _, hoverflow, htable, hok⟩ := hok
  obtain ⟨ranges, hsegments, hok⟩ := bind_eq_ok.mp hok
  simp only [reject_bind_eq_ok] at hok
  obtain ⟨_, hentry, hresult⟩ := hok
  obtain ⟨rfl, rfl⟩ := Prod.mk.inj (Except.ok.inj hresult)
  have hphoff : (readEhdr file).phoff < 2 ^ 64 := readLE_lt file 32 8
  rw [addOverflows_eq_false hphoff] at hoverflow
  rw [add64_of_lt hoverflow] at htable
  have hwords := programHeaders_words file (readEhdr file)
  obtain ⟨hloads, hapart⟩ := checkSegments_eq_ok hwords hsegments
  refine ⟨rfl, rfl, htable, fun phdr hphdr => (hloads phdr hphdr).1, hapart,
    ?_⟩
  simp only [entryOk, Bool.not_eq_false', List.any_eq_true, Bool.and_eq_true,
    beq_iff_eq, decide_eq_true_eq] at hentry
  obtain ⟨phdr, hphdr, ⟨htype, hge⟩, hlt⟩ := hentry
  have hload : phdr ∈ loads (programHeaders file (readEhdr file)) :=
    List.mem_filter.mpr ⟨hphdr, by simp [htype]⟩
  have hmax := (hloads phdr hload).1.max
  simp only [userSpaceMax] at hmax
  rw [add64_of_lt (by omega)] at hlt
  exact ⟨phdr, hload, hge, hlt⟩

section Pages

variable {fileSize : Nat} {phdr : Phdr} (hloadable : Loadable fileSize phdr)

include hloadable

theorem Loadable.pageStart_eq : phdr.pageStart = phdr.vaddr / 4096 * 4096 := by
  have hmax := hloadable.max
  simp only [userSpaceMax] at hmax
  exact and_not64_pageMask (by omega)

theorem Loadable.pageEnd_eq :
    phdr.pageEnd = (phdr.vaddr + phdr.memsz + 4095) / 4096 * 4096 := by
  have hmax := hloadable.max
  simp only [userSpaceMax] at hmax
  have hinner : add64 phdr.vaddr phdr.memsz = phdr.vaddr + phdr.memsz :=
    add64_of_lt (by omega)
  have houter : add64 (phdr.vaddr + phdr.memsz) pageMask =
      phdr.vaddr + phdr.memsz + 4095 := add64_of_lt (by
    simp only [pageMask]
    omega)
  rw [Phdr.pageEnd, hinner, houter, and_not64_pageMask (by omega)]

theorem Loadable.pageEnd_le : phdr.pageEnd ≤ userSpaceMax := by
  have hmax := hloadable.max
  rw [hloadable.pageEnd_eq]
  simp only [userSpaceMax] at *
  omega

end Pages

end Elf

end VenomOS
