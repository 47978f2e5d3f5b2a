/-
The entries of page tables: their bits, where they lie in memory, and the
radix tables they form.
-/
import VenomOS.Paging
import VenomOS.RadixTable

namespace VenomOS

namespace Paging

open ByteMemory RadixTable

theorem hasFlag_shiftLeft (entry k : Nat) :
    hasFlag entry (1 <<< k) = entry.testBit k := by
  rw [hasFlag, Nat.one_shiftLeft, Nat.and_two_pow]
  cases entry.testBit k <;> simp

@[simp]
theorem hasFlag_present (entry : Nat) :
    hasFlag entry pagePresent = entry.testBit 0 :=
  hasFlag_shiftLeft entry 0

@[simp]
theorem hasFlag_huge (entry : Nat) :
    hasFlag entry pageHuge = entry.testBit 7 :=
  hasFlag_shiftLeft entry 7

@[simp]
theorem hasFlag_owned (entry : Nat) :
    hasFlag entry pageOwned = entry.testBit 9 :=
  hasFlag_shiftLeft entry 9

theorem hasFlag_user (entry : Nat) :
    hasFlag entry pageUser = entry.testBit 2 :=
  hasFlag_shiftLeft entry 2

theorem hasFlag_writable (entry : Nat) :
    hasFlag entry pageWritable = entry.testBit 1 :=
  hasFlag_shiftLeft entry 1

theorem hasFlag_nx (entry : Nat) : hasFlag entry pageNx = entry.testBit 63 :=
  hasFlag_shiftLeft entry 63

theorem isHuge_eq (entry : Nat) :
    isHuge entry = (entry.testBit 0 && entry.testBit 7) := by
  simp [isHuge]

theorem testBit_one_shiftLeft (k i : Nat) :
    (1 <<< k).testBit i = decide (k = i) := by
  rw [Nat.one_shiftLeft, Nat.testBit_two_pow]

@[simp]
theorem testBit_pagePresent (i : Nat) :
    pagePresent.testBit i = decide (0 = i) :=
  testBit_one_shiftLeft 0 i

@[simp]
theorem testBit_pageWritable (i : Nat) :
    pageWritable.testBit i = decide (1 = i) :=
  testBit_one_shiftLeft 1 i

theorem testBit_addrMask (i : Nat) :
    addrMask.testBit i = (decide (12 ≤ i) && decide (i < 52)) := by
  have hmask : addrMask = (2 ^ 40 - 1) <<< 12 := by decide
  rw [hmask, Nat.testBit_shiftLeft, Nat.testBit_two_pow_sub_one]
  by_cases hlow : 12 ≤ i
  · have hiff : i - 12 < 40 ↔ i < 52 := by omega
    simp [hlow, hiff]
  · simp [hlow]

theorem testBit_not64 (value i : Nat) :
    (not64 value).testBit i = (value.testBit i ^^ decide (i < 64)) := by
  rw [not64, Nat.testBit_xor, Nat.testBit_two_pow_sub_one]

theorem testBit_extraFlags (flags i : Nat) :
    (State.extraFlags flags).testBit i = (flags.testBit i &&
      (decide (i < 64) && !(decide (12 ≤ i) && decide (i < 52)) &&
        decide (i ≠ 7) && decide (i ≠ 63))) := by
  simp only [State.extraFlags, Nat.testBit_and, testBit_not64,
    testBit_addrMask, pageHuge, pageNx, testBit_one_shiftLeft]
  by_cases hlt : i < 64
  · simp [hlt, eq_comm (a := i), Bool.and_assoc]
  · have hhigh : ¬ i < 52 := by omega
    simp [hlt, hhigh]

/-- A frame address: bits 12 to 51. -/
theorem testBit_of_aligned {frame i : Nat} (haligned : frame % 4096 = 0)
    (hi : i < 12) : frame.testBit i = false := by
  have hbit := Nat.testBit_mod_two_pow frame 12 i
  rw [show (2 : Nat) ^ 12 = 4096 from rfl, haligned] at hbit
  simpa [hi] using hbit.symm

theorem testBit_of_lt {value bits i : Nat} (hlt : value < 2 ^ bits)
    (hi : bits ≤ i) : value.testBit i = false :=
  Nat.testBit_lt_two_pow (hlt.trans_le (Nat.pow_le_pow_right (by decide) hi))

theorem and_addrMask_of_aligned {frame : Nat} (haligned : frame % 4096 = 0)
    (hlt : frame < 2 ^ 52) : frame &&& addrMask = frame := by
  refine Nat.eq_of_testBit_eq fun i => ?_
  rw [Nat.testBit_and, testBit_addrMask]
  by_cases hlow : i < 12
  · simp [testBit_of_aligned haligned hlow]
  · by_cases hhigh : i < 52
    · simp [hhigh, Nat.le_of_not_lt hlow]
    · simp [testBit_of_lt hlt (Nat.le_of_not_lt hhigh)]

theorem or_and_addrMask {entry flags : Nat} (hflags : flags &&& addrMask = 0) :
    (entry ||| flags) &&& addrMask = entry &&& addrMask := by
  rw [Nat.and_or_distrib_right, hflags, Nat.or_zero]

theorem extraFlags_and_addrMask (flags : Nat) :
    State.extraFlags flags &&& addrMask = 0 := by
  refine Nat.eq_of_testBit_eq fun i => ?_
  rw [Nat.testBit_and, testBit_extraFlags, testBit_addrMask, Nat.zero_testBit]
  by_cases hlow : 12 ≤ i <;> by_cases hhigh : i < 52 <;> simp [hlow, hhigh]

theorem extraFlags_lt (flags : Nat) : State.extraFlags flags < 2 ^ 64 := by
  refine Nat.lt_pow_two_of_testBit _ fun i hi => ?_
  rw [testBit_extraFlags]
  simp [Nat.not_lt.mpr hi]

theorem flag_lt {k : Nat} (hk : k < 64) : 1 <<< k < 2 ^ 64 := by
  rw [Nat.one_shiftLeft]
  exact Nat.pow_lt_pow_right (by decide) hk

variable {mem mem' : Memory} {table other i j value : Nat}

theorem entryAt_lt (mem : Memory) (table i : Nat) :
    entryAt mem table i < 2 ^ 64 :=
  readLE_lt mem _ 8

theorem entryAt_congr
    (hsame : ∀ addr, table ≤ addr → addr < table + 4096 →
      mem' addr = mem addr) (hi : i < 512) :
    entryAt mem' table i = entryAt mem table i :=
  readLE_congr fun k hk => hsame _ (by omega) (by omega)

theorem entryAt_setEntry_self (mem : Memory) (table i : Nat)
    (hvalue : value < 2 ^ 64) :
    entryAt (setEntry mem table i value) table i = value := by
  rw [entryAt, setEntry, readLE_store_leBytes]
  exact Nat.mod_eq_of_lt hvalue

theorem entryAt_setEntry_other (htable : table % 4096 = 0)
    (hother : other % 4096 = 0) (hi : i < 512) (hj : j < 512)
    (hne : other ≠ table ∨ j ≠ i) :
    entryAt (setEntry mem table i value) other j = entryAt mem other j := by
  refine readLE_store_outside ?_
  rw [leBytes_length]
  omega

variable {depth entry addr : Nat}

theorem setEntry_outside (hi : i < 512)
    (haddr : addr < table ∨ table + 4096 ≤ addr) :
    setEntry mem table i value addr = mem addr := by
  refine store_outside ?_
  rw [leBytes_length]
  omega

theorem readLE_eq_zero {addr width : Nat}
    (hzero : ∀ k < width, mem (addr + k) = 0) : readLE mem addr width = 0 := by
  have hbytes : ∀ k < width, mem (addr + k) = leByte 0 k := fun k hk => by
    simp [hzero k hk, leByte]
  rw [readLE_of_bytes hbytes]
  exact Nat.zero_mod _

theorem clearTable_inside (hge : table ≤ addr) (hlt : addr < table + 4096) :
    clearTable mem table addr = 0 := by
  have hlength : (List.replicate 4096 (0 : UInt8)).length = 4096 :=
    List.length_replicate
  rw [clearTable, store, if_pos (by omega), List.getD_eq_getElem _ _ (by omega),
    List.getElem_replicate]

theorem clearTable_outside (haddr : addr < table ∨ table + 4096 ≤ addr) :
    clearTable mem table addr = mem addr := by
  refine store_outside ?_
  rw [List.length_replicate]
  exact haddr

theorem entryAt_clearTable_self (mem : Memory) (table : Nat) (hi : i < 512) :
    entryAt (clearTable mem table) table i = 0 :=
  readLE_eq_zero fun k hk => clearTable_inside (by omega) (by omega)

theorem entryAt_clearTable_other (htable : table % 4096 = 0)
    (hother : other % 4096 = 0) (hj : j < 512) (hne : other ≠ table) :
    entryAt (clearTable mem table) other j = entryAt mem other j :=
  entryAt_congr (fun addr hge hlt => clearTable_outside (by omega)) hj

/-- What an entry allows: access from user mode, writing, execution. -/
abbrev Rights := Bool × Bool × Bool

def rights (entry : Nat) : Rights :=
  (entry.testBit 2, entry.testBit 1, !entry.testBit 63)

/-- The frame of a page, and whether it goes with its address space. -/
structure Page where
  frame : Nat
  owned : Bool
  deriving DecidableEq

/-- The page of an entry that maps `size` bytes. -/
def pageOf (size entry : Nat) : Page :=
  ⟨(entry &&& addrMask) / size * size, hasFlag entry pageOwned⟩

/-- What the processor makes of an entry of a PML4 (depth 0), a PDPT, a PD or
a PT (depth 3). -/
def decode (depth entry : Nat) : Slot Rights Page :=
  if !hasFlag entry pagePresent then .empty
  else
    match depth with
    | 0 => .link (rights entry) (entry &&& addrMask)
    | 1 =>
        if hasFlag entry pageHuge then
          .leaf (rights entry) (pageOf 0x40000000 entry)
        else .link (rights entry) (entry &&& addrMask)
    | 2 =>
        if hasFlag entry pageHuge then
          .leaf (rights entry) (pageOf 0x200000 entry)
        else .link (rights entry) (entry &&& addrMask)
    | _ => .leaf (rights entry) (pageOf 0x1000 entry)

/-- The tables in memory, without the slots that `hide` selects. -/
def viewHiding (hide : Path → Nat → Bool) (mem : Memory) : View Rights Page :=
  fun path table i =>
    if hide path i then .empty
    else if i < 512 then decode path.length (entryAt mem table i)
    else .empty

def view (mem : Memory) : View Rights Page := viewHiding (fun _ _ => false) mem

/-- The indices that a virtual address selects. -/
def vaPath (virtAddr : Nat) : Path :=
  [pml4Index virtAddr, pdptIndex virtAddr, pdIndex virtAddr, ptIndex virtAddr]

/-- A virtual page's frame and what may be done with it. -/
structure Mapping where
  frame : Nat
  user : Bool
  writable : Bool
  noExecute : Bool
  deriving DecidableEq

/-- The frames of a huge page, counted by the indices left over. -/
def pageWithin (rest : Path) : Nat :=
  rest.foldl (fun n i => n * 512 + i) 0 * 4096

/-- The effective translation: present at every level, user and writable at
every level, and executable at every level. -/
def translate (mem : Memory) (pml4 virtAddr : Nat) : Option Mapping :=
  (walk (view mem) pml4 (vaPath virtAddr)).map fun found =>
    ⟨found.2.1.frame + pageWithin found.2.2, found.1.1, found.1.2.1, !found.1.2.2⟩

theorem decode_absent (habsent : entry.testBit 0 = false) :
    decode depth entry = .empty := by
  simp [decode, habsent]

@[simp]
theorem decode_zero (depth : Nat) : decode depth 0 = .empty :=
  decode_absent (Nat.zero_testBit 0)

/-- A present entry above the page tables that maps no huge page. -/
theorem decode_link (hdepth : depth < 3) (hpresent : entry.testBit 0 = true)
    (hsmall : depth = 0 ∨ entry.testBit 7 = false) :
    decode depth entry = .link (rights entry) (entry &&& addrMask) := by
  have hcases : depth = 0 ∨ depth = 1 ∨ depth = 2 := by omega
  rcases hcases with rfl | rfl | rfl <;> simp_all [decode]

theorem and_addrMask_mod (entry : Nat) : (entry &&& addrMask) % 4096 = 0 := by
  refine Nat.eq_of_testBit_eq fun i => ?_
  rw [show 4096 = 2 ^ 12 from rfl, Nat.testBit_mod_two_pow, Nat.testBit_and,
    testBit_addrMask, Nat.zero_testBit]
  by_cases hlow : i < 12
  · simp [Nat.not_le.mpr hlow]
  · simp [hlow]

theorem decode_page {entry : Nat} (hpresent : entry.testBit 0 = true) :
    decode 3 entry =
      .leaf (rights entry) ⟨entry &&& addrMask, entry.testBit 9⟩ := by
  have hbase : (entry &&& addrMask) / 4096 * 4096 = entry &&& addrMask :=
    Nat.div_mul_cancel (Nat.dvd_of_mod_eq_zero (and_addrMask_mod entry))
  simp [decode, hpresent, pageOf, hbase]

/-- A present entry that maps a page, which may be a huge one. -/
theorem decode_leaf (hpresent : entry.testBit 0 = true)
    (hleaf : depth = 3 ∨ (depth = 1 ∨ depth = 2) ∧ entry.testBit 7 = true) :
    ∃ page, decode depth entry = .leaf (rights entry) page := by
  rcases hleaf with rfl | ⟨rfl | rfl, hhuge⟩
  · exact ⟨_, decode_page hpresent⟩
  · exact ⟨pageOf 0x40000000 entry, by simp [decode, hpresent, hhuge]⟩
  · exact ⟨pageOf 0x200000 entry, by simp [decode, hpresent, hhuge]⟩

theorem decode_three_ne_link (entry : Nat) (above : Rights) (next : Nat) :
    decode 3 entry ≠ .link above next := by
  unfold decode
  split <;> simp

/-- An entry that links to a table, read backwards. -/
theorem decode_eq_link {depth entry next : Nat} {above : Rights}
    (hlink : decode depth entry = .link above next) :
    depth < 3 ∧ entry.testBit 0 = true ∧
      (depth = 0 ∨ entry.testBit 7 = false) ∧ above = rights entry ∧
        next = entry &&& addrMask := by
  unfold decode at hlink
  simp only [hasFlag_present, hasFlag_huge] at hlink
  split at hlink
  · cases hlink
  · rename_i hpresent
    simp only [Bool.not_eq_true', Bool.not_eq_false] at hpresent
    split at hlink
    · cases hlink
      exact ⟨by omega, hpresent, .inl rfl, rfl, rfl⟩
    · split at hlink <;> cases hlink
      rename_i hsmall
      exact ⟨by omega, hpresent, .inr (by simpa using hsmall), rfl, rfl⟩
    · split at hlink <;> cases hlink
      rename_i hsmall
      exact ⟨by omega, hpresent, .inr (by simpa using hsmall), rfl, rfl⟩
    · cases hlink

end Paging

end VenomOS
