/-
Calls of VenomFS that return false.  A write that is refused or fails halfway
loses the file it was to replace, a removal that fails at its second save is
found done after the next mount, and the allocator refuses data that would
fit.
-/
import VenomOS.FileSystemFit
import VenomOS.FileSystemRuns

namespace VenomOS

namespace FileSystem

open ByteMemory AtomicDisk

variable {fs fs' : State} {name : CString} {data : List UInt8}
variable {slot i : Fin maxFiles} {extents : List Extent} {table table' : Table}
variable {base : Table} {write : Write} {dev dev' : Device}

/-- The next `count` calls of the drive succeed. -/
def Answers (dev : Device) (count : Nat) : Prop :=
  ∀ k < count, dev.outcome (dev.calls + k) = none

theorem write_isTrue_iff (dev : Device) (write : Write) :
    (dev.write write).1 = true ↔ dev.outcome dev.calls = none := by
  unfold Device.write
  cases houtcome : dev.outcome dev.calls <;> simp [Device.attempt, houtcome]

theorem write_calls (dev : Device) (write : Write) :
    (dev.write write).2.calls = dev.calls + 1 ∧
      (dev.write write).2.outcome = dev.outcome := by
  unfold Device.write
  cases houtcome : dev.outcome dev.calls <;> simp [Device.attempt, houtcome]

theorem answers_succ_iff (dev : Device) (write : Write) (count : Nat) :
    Answers dev (count + 1) ↔ (dev.write write).1 = true ∧
      Answers (dev.write write).2 count := by
  obtain ⟨hcalls, houtcome⟩ := write_calls dev write
  rw [write_isTrue_iff]
  simp only [Answers, hcalls, houtcome]
  constructor
  · intro hall
    refine ⟨hall 0 (by omega), fun k hk => ?_⟩
    rw [Nat.add_assoc, Nat.add_comm 1]
    exact hall (k + 1) (by omega)
  · rintro ⟨hfirst, hrest⟩ k hk
    cases k with
    | zero => exact hfirst
    | succ k =>
        rw [Nat.add_comm k, ← Nat.add_assoc]
        exact hrest k (by omega)

theorem writeData_answers_iff (data : List UInt8) (lbas : List Nat)
    (offset : Nat) (dev : Device) (count : Nat) :
    Answers dev (lbas.length + count) ↔
      (writeData data lbas offset dev).1 = true ∧
        Answers (writeData data lbas offset dev).2 count := by
  induction lbas generalizing offset dev with
  | nil => simp [writeData]
  | cons lba rest ih =>
      rw [List.length_cons, Nat.add_right_comm,
        answers_succ_iff dev (sectorWrite lba (sectorAt data offset)),
        ih (offset + sectorSize), writeData_cons]
      cases hwrite : (writeSectors dev lba (sectorAt data offset)).1 with
      | false =>
          have hwrite' : (dev.write (sectorWrite lba
              (sectorAt data offset))).1 = false := hwrite
          simp [hwrite']
      | true =>
          have hwrite' : (dev.write (sectorWrite lba
              (sectorAt data offset))).1 = true := hwrite
          simp only [hwrite', true_and, ↓reduceIte]
          rfl

theorem answers_two_iff (fs : State) :
    Answers fs.dev 2 ↔ fs.saveFileTable.1 = true ∧
      fs.saveFileTable.2.saveBitmap.1 = true := by
  rw [answers_succ_iff fs.dev (tableWrite fs.table),
    answers_succ_iff _ (bitmapWrite fs.bitmap)]
  have hzero : ∀ dev : Device, Answers dev 0 ↔ True := by simp [Answers]
  rw [hzero, and_true]
  rfl

theorem commit_isTrue_iff (slot : Fin maxFiles) (name : CString) (size : Nat)
    (extents : List Extent) :
    (fs.commit slot name size extents).1 = true ↔ Answers fs.dev 2 := by
  let filled := fs.setEntry slot ((fs.table slot).fill name size extents)
  have hfilled : Answers fs.dev 2 ↔ filled.saveFileTable.1 = true ∧
      filled.saveFileTable.2.saveBitmap.1 = true := answers_two_iff filled
  rw [hfilled, commit_eq]
  simp only
  split
  · rename_i hboth
    exact iff_of_true rfl (Bool.and_eq_true_iff.mp hboth)
  · rename_i hnot
    exact iff_of_false Bool.false_ne_true
      fun hboth => hnot (Bool.and_eq_true_iff.mpr hboth)

def blocksOf (size : Nat) : Nat := (size + sectorSize - 1) / sectorSize

theorem writeInto_isTrue_iff (slot : Fin maxFiles) (name : CString)
    (data : List UInt8) :
    (fs.writeInto slot name data).1 = true ↔
      FirstFit fs.bitmap (blocksOf data.length % 2 ^ 32) ∧
        Answers fs.dev (blocksOf data.length % 2 ^ 32 + 2) := by
  rw [← chooseExtents_isSome_iff]
  cases hchoose : chooseExtents fs.bitmap (blocksOf data.length % 2 ^ 32) with
  | none =>
      simp only [State.writeInto, Option.isSome_none, Bool.false_eq_true,
        false_and, iff_false]
      rw [← blocksOf, hchoose]
      exact Bool.false_ne_true
  | some extents =>
      have hlength : (sectorsOf extents).length =
          blocksOf data.length % 2 ^ 32 := by
        rw [sectorsOf_length]
        exact (chooseExtents_spec hchoose).total
      have hdata := writeData_answers_iff data (sectorsOf extents) 0 fs.dev 2
      rw [hlength] at hdata
      simp only [State.writeInto, Option.isSome_some, true_and, hdata]
      rw [← blocksOf, hchoose]
      rcases hwrite : writeData data (sectorsOf extents) 0 fs.dev with
        ⟨ok | ok, dev'⟩
      · simp [hwrite, State.giveUp]
      · simp only [hwrite, true_and]
        exact commit_isTrue_iff ..

/-- The bitmap with the blocks of the file under the name counted as free. -/
def State.bitmapWithout (fs : State) (name : CString) : Bitmap :=
  match find fs.table name with
  | some i => fillExtents false fs.bitmap (fs.table i).active
  | none => fs.bitmap

/-- A `write` under a name that fits and has a slot is a `writeInto`, from the
state in which the old file is given up. -/
theorem write_start (hrep : RepInv fs)
    (hfits : name.chars.length < maxFilename)
    (hslot : fileExists fs name = true ∨ (firstUnused fs.table).isSome)
    (data : List UInt8) :
    ∃ start slot, Ready start slot name fs.table fs.dev ∧
      start.bitmap = fs.bitmapWithout name ∧ start.dev = fs.dev ∧
      FileSystem.write fs name data = start.writeInto slot name data := by
  have hlength := nameLengthFrom_eq name (Nat.add_zero maxFilename)
    (Nat.zero_le _)
  rw [if_pos hfits] at hlength
  cases hfind : find fs.table name with
  | some i =>
      refine ⟨fs.freeEntry i, i, freeEntry_ready hrep hfind hfits, ?_, rfl, ?_⟩
      · simp [State.bitmapWithout, hfind, State.freeEntry]
      · simp only [FileSystem.write, hlength, hfind]
  | none =>
      cases hfirst : firstUnused fs.table with
      | none => simp [fileExists, hfind, hfirst] at hslot
      | some slot =>
          refine ⟨fs, slot, ⟨hrep.keeps_refl _, firstUnused_some hfirst,
            hrep.table.find_none hfind, hfits⟩, ?_, rfl, ?_⟩
          · simp [State.bitmapWithout, hfind]
          · simp only [FileSystem.write, hlength, hfind, hfirst]

/-- `write` returns true when the name fits, there is a slot for it, the
allocator finds room, and the drive answers every call. -/
theorem write_isTrue (hrep : RepInv fs)
    (hfits : name.chars.length < maxFilename)
    (hslot : fileExists fs name = true ∨ (firstUnused fs.table).isSome) :
    (FileSystem.write fs name data).1 = true ↔
      FirstFit (fs.bitmapWithout name) (blocksOf data.length % 2 ^ 32) ∧
        Answers fs.dev (blocksOf data.length % 2 ^ 32 + 2) := by
  obtain ⟨start, slot, _, hbitmap, hdev, hwrite⟩ :=
    write_start hrep hfits hslot data
  rw [hwrite, writeInto_isTrue_iff, hbitmap, hdev]

/-- The used entries of the two tables are the same. -/
def SameUsed (table table' : Table) : Prop :=
  ∀ i, (table i).used ≠ 0 ∨ (table' i).used ≠ 0 → table' i = table i

/-- A write in front of the data region, or to a sector no file holds. -/
def Harmless (base : Table) (write : Write) : Prop :=
  write.addr + write.bytes.length ≤ dataStartLba * sectorSize ∨
    ∃ lba bytes, write = sectorWrite lba bytes ∧ bytes.length = sectorSize ∧
      ¬ Occupied base lba

theorem SameUsed.refl (table : Table) : SameUsed table table := fun _ _ => rfl

/-- An unused slot is replaced by an unused one. -/
theorem SameUsed.update (hold : (table i).used = 0) {entry : FileEntry}
    (hnew : entry.used = 0) :
    SameUsed table (Function.update table i entry) := by
  intro j hused
  by_cases hj : j = i
  · subst hj
    rw [Function.update_self] at hused
    exact absurd hused (by simp [hold, hnew])
  · rw [Function.update_of_ne hj]

theorem SameUsed.find_eq (hsame : SameUsed table table') (name : CString) :
    find table' name = find table name := by
  unfold find
  congr 1
  funext i
  by_cases hused : (table i).used ≠ 0 ∨ (table' i).used ≠ 0
  · rw [hsame i hused]
  · rw [not_or, not_ne_iff, not_ne_iff] at hused
    simp [hused.1, hused.2]

theorem Harmless.load_eq (hwrite : Harmless base write) {disk : Memory}
    {lba : Nat} (hlba : dataStartLba ≤ lba) (hheld : Occupied base lba) :
    load (write.apply disk) (lba * sectorSize) sectorSize =
      load disk (lba * sectorSize) sectorSize := by
  rcases hwrite with hfront | ⟨other, bytes, rfl, hlength, hfree⟩
  · rw [Write.apply, load_store_outside]
    exact .inr (Nat.le_trans hfront (Nat.mul_le_mul_right _ hlba))
  · refine load_apply_other hlba (.inr ⟨hlength, ?_⟩)
    rintro rfl
    exact hfree hheld

theorem Harmless.contents_eq (hgrows : Grows (Harmless base) dev dev')
    (htable : TableInv base) (hused : (base i).used ≠ 0) :
    contents dev'.disk (base i) = contents dev.disk (base i) := by
  have hvalid := (htable.entry i hused).valid
  refine hgrows.invariant (P := fun disk =>
    contents disk (base i) = contents dev.disk (base i)) rfl ?_
  intro disk write hwrite hsame
  rw [← hsame]
  refine contents_congr hvalid fun lba hheld => ?_
  exact hwrite.load_eq (held_lba_bounds hvalid hheld).1 ⟨i, hused, hheld⟩

/-- The same files on a drive that works from now on. -/
def State.working (fs : State) : State :=
  { fs with dev := { fs.dev with outcome := fun _ => none } }

/-- Every file is there as before, with its size and its bytes. -/
structure Unchanged (fs fs' : State) : Prop where
  listed : ∀ name, fileExists fs' name = fileExists fs name
  sizes : ∀ name, fileSize fs' name = fileSize fs name
  bytes : ∀ name capacity, (read fs'.working name capacity).1 =
    (read fs.working name capacity).1

theorem read_working (fs : State) (name : CString) (capacity : Nat) :
    (read fs.working name capacity).1 =
      match find fs.table name with
      | some i => .complete
          ((contents fs.dev.disk (fs.table i)).take capacity)
      | none => .missing := by
  cases hfind : find fs.table name with
  | none =>
      have hfind' : find fs.working.table name = none := hfind
      simp [read, hfind']
  | some i =>
      have hfind' : find fs.working.table name = some i := hfind
      obtain ⟨_, _, _, _, _, hread⟩ := read_spec hfind' capacity
      exact hread fun _ => rfl

theorem SameUsed.unchanged (hsame : SameUsed fs.table fs'.table)
    (htable : TableInv fs.table)
    (hgrows : Grows (Harmless fs.table) fs.dev fs'.dev) : Unchanged fs fs' := by
  have hfind := hsame.find_eq
  refine ⟨fun name => ?_, fun name => ?_, fun name capacity => ?_⟩
  · rw [fileExists, fileExists, hfind]
  · rw [fileSize, fileSize, hfind]
    cases hcase : find fs.table name with
    | none => rfl
    | some i =>
        simp only
        rw [hsame i (.inl (htable.find_some hcase).1)]
  · rw [read_working, read_working, hfind]
    cases hcase : find fs.table name with
    | none => rfl
    | some i =>
        have hused := (htable.find_some hcase).1
        simp only
        rw [hsame i (.inl hused), Harmless.contents_eq hgrows htable hused]

theorem tableWrite_harmless (table : Table) :
    Harmless base (tableWrite table) := by
  left
  simp only [tableWrite, sectorWrite, tableBytes_length]
  decide

theorem bitmapWrite_harmless (bits : Bitmap) :
    Harmless base (bitmapWrite bits) := by
  left
  simp only [bitmapWrite, sectorWrite, bitmapBytes_length]
  decide

theorem saveFileTable_harmless (fs : State) :
    Grows (Harmless base) fs.dev fs.saveFileTable.2.dev :=
  write_grows (tableWrite_harmless fs.table)

theorem saveBitmap_harmless (fs : State) :
    Grows (Harmless base) fs.dev fs.saveBitmap.2.dev :=
  write_grows (bitmapWrite_harmless fs.bitmap)

theorem saves_harmless (fs : State) :
    Grows (Harmless base) fs.dev fs.saveFileTable.2.saveBitmap.2.dev :=
  (saveFileTable_harmless fs).trans (saveBitmap_harmless _)

theorem giveUp_harmless (fs : State) :
    Grows (Harmless base) fs.dev fs.giveUp.2.dev :=
  (saveBitmap_harmless fs).trans (saveFileTable_harmless _)

theorem commit_false {size : Nat} (hunused : (fs.table slot).used = 0)
    (hfalse : (fs.commit slot name size extents).1 = false) :
    SameUsed fs.table (fs.commit slot name size extents).2.table ∧
      Grows (Harmless base) fs.dev
        (fs.commit slot name size extents).2.dev := by
  rw [commit_eq] at hfalse ⊢
  simp only at hfalse ⊢
  split at hfalse
  · cases hfalse
  · rename_i hnot
    rw [if_neg hnot]
    constructor
    · have hcleared : SameUsed fs.table (Function.update fs.table slot
          ((fs.table slot).fill name size extents).cleared) :=
        SameUsed.update hunused (cleared_used _)
      rw [← Function.update_idem] at hcleared
      exact hcleared
    · let entry := (fs.table slot).fill name size extents
      let saved := (fs.setEntry slot entry).saveFileTable.2.saveBitmap.2
      let undone : State :=
        { saved.setEntry slot entry.cleared with
          bitmap := fillExtents false saved.bitmap extents }
      have hsaved : Grows (Harmless base) fs.dev saved.dev :=
        saves_harmless (fs.setEntry slot entry)
      exact hsaved.trans (saves_harmless undone)

/-- A write into an unused slot that returns false changes no file. -/
theorem writeInto_false (hbitmap : BitmapInv fs.table fs.bitmap)
    (hunused : (fs.table slot).used = 0)
    (hfalse : (fs.writeInto slot name data).1 = false) :
    SameUsed fs.table (fs.writeInto slot name data).2.table ∧
      Grows (Harmless fs.table) fs.dev
        (fs.writeInto slot name data).2.dev := by
  simp only [State.writeInto] at hfalse ⊢
  split
  · exact ⟨SameUsed.refl _, giveUp_harmless fs⟩
  · rename_i extents hchoose
    have hfree := chooseExtents_spec hchoose
    have hgrows : Grows (Harmless fs.table) fs.dev
        (writeData data (sectorsOf extents) 0 fs.dev).2 := by
      refine writeData_grows data 0 (fun lba hlba bytes hbytes => ?_) fs.dev
      exact .inr ⟨lba, bytes, rfl, hbytes, hfree.not_occupied hbitmap
        ((mem_sectorsOf_iff hfree.valid).mp hlba)⟩
    rw [hchoose] at hfalse
    simp only at hfalse
    rcases hwrite : writeData data (sectorsOf extents) 0 fs.dev with
      ⟨ok | ok, dev'⟩
    · rw [hwrite] at hgrows
      simp only
      refine ⟨SameUsed.refl _, hgrows.trans ?_⟩
      exact giveUp_harmless ⟨fs.table, _, dev'⟩
    · rw [hwrite] at hgrows hfalse
      let taken : State :=
        ⟨fs.table, fillExtents true fs.bitmap extents, dev'⟩
      have hparts : SameUsed taken.table
            (taken.commit slot name data.length extents).2.table ∧
          Grows (Harmless fs.table) taken.dev
            (taken.commit slot name data.length extents).2.dev :=
        commit_false hunused hfalse
      exact ⟨hparts.1, hgrows.trans hparts.2⟩

theorem Unchanged.refl (fs : State) : Unchanged fs fs :=
  ⟨fun _ => rfl, fun _ => rfl, fun _ _ => rfl⟩

theorem write_new_false (hrep : RepInv fs) (hfind : find fs.table name = none)
    (hfalse : (FileSystem.write fs name data).1 = false) :
    Unchanged fs (FileSystem.write fs name data).2 := by
  cases hlength : nameLengthFrom name.charAt maxFilename 0 with
  | none =>
      simp only [FileSystem.write, hlength]
      exact Unchanged.refl fs
  | some length =>
      cases hfirst : firstUnused fs.table with
      | none =>
          simp only [FileSystem.write, hlength, hfind, hfirst]
          have hsame : SameUsed fs.table fs.giveUp.2.table := SameUsed.refl _
          exact hsame.unchanged hrep.table (giveUp_harmless fs)
      | some slot =>
          simp only [FileSystem.write, hlength, hfind, hfirst] at hfalse ⊢
          obtain ⟨hsame, hgrows⟩ :=
            writeInto_false hrep.bitmap (firstUnused_some hfirst) hfalse
          exact hsame.unchanged hrep.table hgrows

/-- A write that was to replace a file and returns false has lost it. -/
theorem write_old_false (hrep : RepInv fs) (hfind : find fs.table name = some i)
    (hfalse : (FileSystem.write fs name data).1 = false) :
    fileExists (FileSystem.write fs name data).2 name = false := by
  have hsome : fileExists fs name = true := by simp [fileExists, hfind]
  obtain ⟨start, slot, hready, _, _, hwrite⟩ :=
    write_start hrep (hrep.table.fits_of_find hfind) (.inl hsome) data
  rw [hwrite] at hfalse ⊢
  obtain ⟨hsame, _⟩ :=
    writeInto_false hready.keeps.rep.bitmap hready.unused hfalse
  rw [fileExists, hsame.find_eq]
  cases hagain : find start.table name with
  | none => rfl
  | some j =>
      obtain ⟨hused, hname⟩ := hready.keeps.rep.table.find_some hagain
      exact absurd hname (hready.fresh j hused)

/-- A write that returns false leaves the files alone exactly when it replaces
none; and it replaces one without a failure when there is room and the drive
answers every call. -/
theorem failed_write_unchanged_iff (hrep : RepInv fs) (name : CString)
    (data : List UInt8) :
    ((FileSystem.write fs name data).1 = false →
      Unchanged fs (FileSystem.write fs name data).2) ↔
    fileExists fs name = false ∨
      FirstFit (fs.bitmapWithout name) (blocksOf data.length % 2 ^ 32) ∧
        Answers fs.dev (blocksOf data.length % 2 ^ 32 + 2) := by
  cases hfind : find fs.table name with
  | none =>
      have hnone : fileExists fs name = false := by simp [fileExists, hfind]
      exact iff_of_true (write_new_false hrep hfind) (.inl hnone)
  | some i =>
      have hsome : fileExists fs name = true := by simp [fileExists, hfind]
      rw [← write_isTrue hrep (hrep.table.fits_of_find hfind) (.inl hsome), hsome]
      simp only [Bool.true_eq_false, false_or]
      constructor
      · intro hunchanged
        by_contra hfalse
        rw [Bool.not_eq_true] at hfalse
        have hlisted := (hunchanged hfalse).listed name
        rw [write_old_false hrep hfind hfalse, hsome] at hlisted
        cases hlisted
      · intro htrue hfalse
        rw [htrue] at hfalse
        cases hfalse

/-- An empty drive that fails at one call. -/
def faultyStart (fault : Nat) : State :=
  ⟨fun _ => FileEntry.zero, fun _ => false,
    ⟨fun _ => 0, [], fun call => if call = fault then some 0 else none, 0⟩⟩

/-- One file on such a drive; the next call has number 6. -/
def oneFile (fault : Nat) : State :=
  (FileSystem.write (format (faultyStart fault)).2 nameA [1, 2, 3]).2

theorem oneFile_sound {fault : Nat}
    (hformat : (format (faultyStart fault)).1 = true) :
    Sound (oneFile fault) :=
  ((Reaches.format hformat).exec (.write nameA [1, 2, 3])
    (by decide : 3 + 512 ≤ 2 ^ 41)).sound

theorem failed_write_unchanged_oneFile :
    (FileSystem.write (oneFile 8) nameB [9]).1 = false ∧
      Unchanged (oneFile 8) (FileSystem.write (oneFile 8) nameB [9]).2 := by
  have hfalse : (FileSystem.write (oneFile 8) nameB [9]).1 = false := by
    decide +kernel
  have hsound : Sound (oneFile 8) := oneFile_sound rfl
  refine ⟨hfalse, (failed_write_unchanged_iff hsound.rep nameB
    [9]).mpr (.inl ?_) hfalse⟩
  decide +kernel

/-- The save of the bitmap fails, and the old file is gone. -/
theorem failed_overwrite_loses_file :
    ∃ fs name data, RepInv fs ∧ (FileSystem.write fs name data).1 = false ∧
      fileExists fs name = true ∧
      fileExists (FileSystem.write fs name data).2 name = false := by
  have hsound : Sound (oneFile 8) := oneFile_sound rfl
  refine ⟨oneFile 8, nameA, [4], hsound.rep, ?_, ?_, ?_⟩
  · decide +kernel
  · decide +kernel
  · decide +kernel

/-- The file is readable as before, at once and after the next mount, and its
blocks are still taken. -/
structure StillThere (fs fs' : State) (name : CString) : Prop where
  bitmap : fs'.bitmap = fs.bitmap
  now : fileExists fs' name = true ∧ ∀ capacity,
    (read fs'.working name capacity).1 = (read fs.working name capacity).1
  later : ∀ boot : State, boot.dev.disk = fs'.dev.disk → Reliable boot.dev →
    (init boot).1 = true ∧ fileExists (init boot).2 name = true ∧
    (∀ capacity, (read (init boot).2.working name capacity).1 =
      (read fs.working name capacity).1) ∧
    ∀ b < totalDataBlocks, (init boot).2.bitmap b = fs.bitmap b

/-- The state in which both saves of `remove` were tried. -/
def State.afterSaves (fs : State) (i : Fin maxFiles) : State :=
  (fs.freeEntry i).saveFileTable.2.saveBitmap.2

theorem remove_isTrue_iff (hfind : find fs.table name = some i) :
    (remove fs name).1 = true ↔ Answers fs.dev 2 := by
  have hanswers : Answers fs.dev 2 ↔ (fs.freeEntry i).saveFileTable.1 = true ∧
      (fs.freeEntry i).saveFileTable.2.saveBitmap.1 = true :=
    answers_two_iff (fs.freeEntry i)
  rw [hanswers, ← Bool.and_eq_true_iff]
  simp only [remove, hfind]
  split
  · rename_i hboth
    exact iff_of_true rfl hboth
  · rename_i hnot
    exact iff_of_false Bool.false_ne_true hnot

theorem remove_failed (hrep : RepInv fs) (hfind : find fs.table name = some i)
    (hfalse : (remove fs name).1 = false) :
    (remove fs name).2.table = fs.table ∧
      (remove fs name).2.bitmap = fs.bitmap ∧
      (remove fs name).2.dev = (fs.afterSaves i).dev := by
  obtain ⟨hused, _⟩ := hrep.table.find_some hfind
  simp only [remove, hfind] at hfalse ⊢
  split at hfalse
  · cases hfalse
  · rename_i hnot
    rw [if_neg hnot]
    refine ⟨?_, hrep.bitmap.redo hrep.table hused, rfl⟩
    change Function.update (Function.update fs.table i _) i (fs.table i) = _
    rw [Function.update_idem, Function.update_eq_self]

/-- The table on the disk after the two saves is the new one when the first
save succeeded. -/
theorem diskTable_afterSaves (i : Fin maxFiles) :
    diskTable (fs.afterSaves i).dev.disk =
      if fs.dev.outcome fs.dev.calls = none then (fs.freeEntry i).table
      else diskTable fs.dev.disk := by
  have hbitmap : diskTable (fs.afterSaves i).dev.disk =
      diskTable (fs.freeEntry i).saveFileTable.2.dev.disk := by
    have hgrows : Grows (fun write => ∃ bits, write = bitmapWrite bits)
        (fs.freeEntry i).saveFileTable.2.dev (fs.afterSaves i).dev :=
      write_grows ⟨_, rfl⟩
    refine hgrows.invariant (P := fun disk => diskTable disk =
      diskTable (fs.freeEntry i).saveFileTable.2.dev.disk) rfl ?_
    rintro disk write ⟨bits, rfl⟩ hsame
    rw [bitmapWrite, diskTable_apply (Nat.le_refl _)]
    exact hsame
  have hcall := write_isTrue_iff fs.dev (tableWrite (fs.freeEntry i).table)
  rw [hbitmap]
  split
  · rename_i hok
    have hdisk : (fs.freeEntry i).saveFileTable.2.dev.disk =
        (tableWrite (fs.freeEntry i).table).apply fs.dev.disk :=
      write_disk_of_ok (hcall.mpr hok)
    rw [hdisk, diskTable_tableWrite]
  · rename_i hfailed
    have hdisk : (fs.freeEntry i).saveFileTable.2.dev.disk = fs.dev.disk :=
      write_disk_of_failed (Bool.eq_false_iff.mpr fun hok =>
        hfailed (hcall.mp hok))
    rw [hdisk]

theorem afterSaves_harmless (i : Fin maxFiles) :
    Grows (Harmless base) fs.dev (fs.afterSaves i).dev :=
  saves_harmless (fs.freeEntry i)

theorem remove_sound_disk (hrep : RepInv fs) (hdisk : DiskInv fs.dev.disk)
    (hfind : find fs.table name = some i) :
    DiskInv (fs.afterSaves i).dev.disk :=
  ((freeEntry_keeps hrep hfind).saveFileTable.saveBitmap.sound hdisk).mountable

/-- The first save failed: the disk still has the file. -/
theorem remove_first_failed (hrep : RepInv fs) (hdisk : DiskInv fs.dev.disk)
    (hsynced : diskTable fs.dev.disk = fs.table)
    (hfind : find fs.table name = some i)
    (hfailed : fs.dev.outcome fs.dev.calls ≠ none)
    (hfalse : (remove fs name).1 = false) :
    StillThere fs (remove fs name).2 name := by
  obtain ⟨hused, hname⟩ := hrep.table.find_some hfind
  obtain ⟨htable, hbitmap, hdev⟩ := remove_failed hrep hfind hfalse
  have hgrows : Grows (Harmless fs.table) fs.dev (remove fs name).2.dev :=
    hdev ▸ afterSaves_harmless i
  have hsame : SameUsed fs.table (remove fs name).2.table :=
    htable ▸ SameUsed.refl _
  have hunchanged := hsame.unchanged hrep.table hgrows
  have hexists : fileExists fs name = true := by simp [fileExists, hfind]
  refine ⟨hbitmap, ⟨?_, hunchanged.bytes name⟩, ?_⟩
  · rw [hunchanged.listed, hexists]
  · intro boot hboot hreliable
    have hdisk' : DiskInv boot.dev.disk := by
      rw [hboot, hdev]
      exact remove_sound_disk hrep hdisk hfind
    have hok := init_reliable hdisk' hreliable
    have hmounted := init_mounted hdisk' hok
    have hboottable : (init boot).2.table = fs.table := by
      rw [hmounted.table, hboot, hdev, diskTable_afterSaves, if_neg hfailed,
        hsynced]
    obtain ⟨bits, hbits⟩ := hmounted.grows
    have hboots : Grows (Harmless fs.table) boot.dev (init boot).2.dev :=
      hbits.mono fun write hwrite => hwrite ▸ bitmapWrite_harmless bits
    have hbytes : contents (init boot).2.dev.disk (fs.table i) =
        contents fs.dev.disk (fs.table i) := by
      rw [Harmless.contents_eq hboots hrep.table hused, hboot,
        Harmless.contents_eq hgrows hrep.table hused]
    refine ⟨hok, ?_, fun capacity => ?_, fun b hb => ?_⟩
    · rw [fileExists, hboottable]
      exact hexists
    · rw [read_working, read_working, hboottable, hfind]
      simp only [hbytes]
    · have hmine := hmounted.rep.bitmap b hb
      rw [hboottable, ← hrep.bitmap b hb, ← Bool.eq_iff_iff] at hmine
      exact hmine

/-- The first save succeeded and the second failed: the next mount does not
find the file. -/
theorem remove_second_failed (hrep : RepInv fs) (hdisk : DiskInv fs.dev.disk)
    (hfind : find fs.table name = some i)
    (hfirst : fs.dev.outcome fs.dev.calls = none)
    (hsecond : fs.dev.outcome (fs.dev.calls + 1) ≠ none) {boot : State}
    (hboot : boot.dev.disk = (remove fs name).2.dev.disk)
    (hok : (init boot).1 = true) :
    (remove fs name).1 = false ∧ fileExists (init boot).2 name = false := by
  have hfalse : (remove fs name).1 = false := by
    rw [Bool.eq_false_iff, ne_eq, remove_isTrue_iff hfind]
    exact fun hanswers => hsecond (hanswers 1 (by decide))
  obtain ⟨_, _, hdev⟩ := remove_failed hrep hfind hfalse
  have hdisk' : DiskInv boot.dev.disk := by
    rw [hboot, hdev]
    exact remove_sound_disk hrep hdisk hfind
  have hmounted := init_mounted hdisk' hok
  have hboottable : (init boot).2.table = (fs.freeEntry i).table := by
    rw [hmounted.table, hboot, hdev, diskTable_afterSaves, if_pos hfirst]
  refine ⟨hfalse, ?_⟩
  rw [fileExists, hboottable]
  cases hagain : find (fs.freeEntry i).table name with
  | none => rfl
  | some j =>
      obtain ⟨hused, hname⟩ :=
        (freeEntry_keeps hrep hfind).rep.table.find_some hagain
      exact absurd hname (freeEntry_fresh hrep hfind j hused)

/-- A removal that returns false keeps the file, unless the table was saved and
the bitmap was not. -/
theorem failed_remove_keeps_iff (hrep : RepInv fs)
    (hdisk : DiskInv fs.dev.disk) (hsynced : diskTable fs.dev.disk = fs.table)
    (hexists : fileExists fs name = true) :
    ((remove fs name).1 = false → StillThere fs (remove fs name).2 name) ↔
      fs.dev.outcome fs.dev.calls ≠ none ∨
        fs.dev.outcome (fs.dev.calls + 1) = none := by
  obtain ⟨i, hfind⟩ := Option.isSome_iff_exists.mp hexists
  constructor
  · intro hstill
    by_contra hcases
    rw [not_or, not_ne_iff] at hcases
    obtain ⟨hfirst, hsecond⟩ := hcases
    let boot := (remove fs name).2.working
    have hdisk' : DiskInv (remove fs name).2.dev.disk := by
      have hkeeps : Keeps name.chars fs.table fs.dev (remove fs name).2 :=
        remove_keeps hrep
      exact (hkeeps.sound hdisk).mountable
    have hok : (init boot).1 = true := init_reliable hdisk' fun _ => rfl
    have hboot : boot.dev.disk = (remove fs name).2.dev.disk := rfl
    obtain ⟨hfalse, hgone⟩ :=
      remove_second_failed hrep hdisk hfind hfirst hsecond hboot hok
    have hthere := ((hstill hfalse).later boot hboot fun _ => rfl).2.1
    rw [hgone] at hthere
    cases hthere
  · intro hcases hfalse
    refine remove_first_failed hrep hdisk hsynced hfind ?_ hfalse
    intro hfirst
    have hsecond := hcases.resolve_left (not_not_intro hfirst)
    have htrue : (remove fs name).1 = true := by
      rw [remove_isTrue_iff hfind]
      intro k hk
      have hcase : k = 0 ∨ k = 1 := by omega
      rcases hcase with rfl | rfl
      · exact hfirst
      · exact hsecond
    rw [htrue] at hfalse
    cases hfalse

theorem oneFile_synced {fault : Nat}
    (hformat : (format (faultyStart fault)).1 = true)
    (hwrite : (FileSystem.write (format (faultyStart fault)).2 nameA
      [1, 2, 3]).1 = true) :
    diskTable (oneFile fault).dev.disk = (oneFile fault).table := by
  have hsize : BlocksFit [(1 : UInt8), 2, 3].length :=
    (by decide : 3 + 512 ≤ 2 ^ 41)
  obtain ⟨_, hcommitted⟩ :=
    write_true (Reaches.format hformat).sound.rep hsize hwrite
  exact hcommitted.synced

/-- The save of the table fails. -/
theorem failed_remove_keeps_oneFile :
    (remove (oneFile 6) nameA).1 = false ∧
      StillThere (oneFile 6) (remove (oneFile 6) nameA).2 nameA := by
  have hfalse : (remove (oneFile 6) nameA).1 = false := by decide +kernel
  have hsound : Sound (oneFile 6) := oneFile_sound rfl
  refine ⟨hfalse, (failed_remove_keeps_iff hsound.rep hsound.mountable
    (oneFile_synced rfl ?_) ?_).mpr (.inl ?_) hfalse⟩
  · decide +kernel
  · decide +kernel
  · decide +kernel

/-- The save of the bitmap fails: the file is there until the next mount. -/
theorem failed_remove_done_at_mount :
    ∃ fs name boot, RepInv fs ∧ DiskInv fs.dev.disk ∧
      diskTable fs.dev.disk = fs.table ∧ fileExists fs name = true ∧
      (remove fs name).1 = false ∧
      boot.dev.disk = (remove fs name).2.dev.disk ∧ (init boot).1 = true ∧
      fileExists (init boot).2 name = false := by
  have hsound : Sound (oneFile 7) := oneFile_sound rfl
  have hexists : fileExists (oneFile 7) nameA = true := by decide +kernel
  obtain ⟨i, hfind⟩ := Option.isSome_iff_exists.mp hexists
  let boot := (remove (oneFile 7) nameA).2.working
  have hkeeps : Keeps nameA.chars (oneFile 7).table (oneFile 7).dev
      (remove (oneFile 7) nameA).2 := remove_keeps hsound.rep
  have hboot : boot.dev.disk = (remove (oneFile 7) nameA).2.dev.disk := rfl
  have hok : (init boot).1 = true := by
    refine init_reliable ?_ fun _ => rfl
    rw [hboot]
    exact (hkeeps.sound hsound.mountable).mountable
  obtain ⟨hfalse, hgone⟩ := remove_second_failed hsound.rep hsound.mountable
    hfind (by decide +kernel) (by decide +kernel) hboot hok
  exact ⟨oneFile 7, nameA, boot, hsound.rep, hsound.mountable,
    oneFile_synced rfl (by decide +kernel), hexists, hfalse, hboot, hok, hgone⟩

/-- What `write` owes about space: a refusal means that no four free runs hold
the data, and what is granted is free, disjoint and of the right size. -/
structure SpaceExact (fs : State) (name : CString) (data : List UInt8) :
    Prop where
  refused : (FileSystem.write fs name data).1 = false →
    ¬ ∃ extents, FreeExtents (fs.bitmapWithout name) (blocksOf data.length)
      extents
  granted : (FileSystem.write fs name data).1 = true →
    ∃ i, find (FileSystem.write fs name data).2.table name = some i ∧
      FreeExtents (fs.bitmapWithout name) (blocksOf data.length)
        ((FileSystem.write fs name data).2.table i).active

theorem writeInto_granted
    (hok : (fs.writeInto slot name data).1 = true) :
    FreeExtents fs.bitmap (blocksOf data.length % 2 ^ 32)
      ((fs.writeInto slot name data).2.table slot).active := by
  simp only [State.writeInto] at hok ⊢
  rw [← blocksOf] at hok ⊢
  cases hchoose : chooseExtents fs.bitmap (blocksOf data.length % 2 ^ 32) with
  | none =>
      rw [hchoose] at hok
      exact absurd hok Bool.false_ne_true
  | some extents =>
      have hfree := chooseExtents_spec hchoose
      rw [hchoose] at hok
      simp only at hok ⊢
      rcases hwrite : writeData data (sectorsOf extents) 0 fs.dev with
        ⟨ok | ok, dev'⟩
      · rw [hwrite] at hok
        exact absurd hok Bool.false_ne_true
      · rw [hwrite] at hok
        simp only at hok ⊢
        rw [(commit_true hok).1, Function.update_self,
          fill_active _ _ _ hfree.length_le]
        exact hfree

theorem write_granted (hrep : RepInv fs) (hsize : BlocksFit data.length)
    (hfits : name.chars.length < maxFilename)
    (hslot : fileExists fs name = true ∨ (firstUnused fs.table).isSome)
    (hok : (FileSystem.write fs name data).1 = true) :
    ∃ i, find (FileSystem.write fs name data).2.table name = some i ∧
      FreeExtents (fs.bitmapWithout name) (blocksOf data.length)
        ((FileSystem.write fs name data).2.table i).active := by
  have hneeded : blocksOf data.length % 2 ^ 32 = blocksOf data.length :=
    blocksNeeded_eq hsize
  obtain ⟨start, slot, hready, hbitmap, _, hwrite⟩ :=
    write_start hrep hfits hslot data
  rw [hwrite] at hok ⊢
  have hcommitted := writeInto_true hready hsize hok
  have hkeeps := writeInto_keeps hready hsize
  have hgranted := writeInto_granted hok
  rw [hneeded, hbitmap] at hgranted
  exact ⟨slot, hkeeps.rep.table.find_eq hcommitted.used hcommitted.cName,
    hgranted⟩

theorem firstUnused_isSome_iff :
    (firstUnused table).isSome ↔ ∃ i, (table i).used = 0 := by
  rw [firstUnused, List.find?_isSome]
  simp

/-- `write` is exact about space when the data do not fit at all, or when the
name fits and the first four runs are enough. -/
theorem write_space_exact_iff (hrep : RepInv fs) (hreliable : Reliable fs.dev)
    (hslot : ∃ i, (fs.table i).used = 0) (name : CString)
    (hsize : data.length < 2 ^ 32) :
    SpaceExact fs name data ↔
      (¬ ∃ extents, FreeExtents (fs.bitmapWithout name) (blocksOf data.length)
        extents) ∨
      name.chars.length < maxFilename ∧
        FirstFit (fs.bitmapWithout name) (blocksOf data.length) := by
  have hfit : BlocksFit data.length := by
    simp only [BlocksFit, sectorSize]
    omega
  have hneeded : blocksOf data.length % 2 ^ 32 = blocksOf data.length :=
    blocksNeeded_eq hfit
  have htrue : (FileSystem.write fs name data).1 = true ↔
      name.chars.length < maxFilename ∧
        FirstFit (fs.bitmapWithout name) (blocksOf data.length) := by
    by_cases hfits : name.chars.length < maxFilename
    · rw [write_isTrue hrep hfits (.inr (firstUnused_isSome_iff.mpr hslot)), hneeded]
      have hanswers : Answers fs.dev (blocksOf data.length + 2) :=
        fun _ _ => hreliable _
      simp [hfits, hanswers]
    · have hlength := nameLengthFrom_eq name (Nat.add_zero maxFilename)
        (Nat.zero_le _)
      rw [if_neg hfits] at hlength
      simp [FileSystem.write, hlength, hfits]
  rw [← htrue]
  constructor
  · intro hexact
    by_cases hok : (FileSystem.write fs name data).1 = true
    · exact .inr hok
    · exact .inl (hexact.refused (by simpa using hok))
  · intro hcases
    refine ⟨fun hfalse => ?_, fun hok => write_granted hrep hfit
      (htrue.mp hok).1 (.inr (firstUnused_isSome_iff.mpr hslot)) hok⟩
    rcases hcases with hnone | hok
    · exact hnone
    · rw [hok] at hfalse
      cases hfalse

/-- Extents in the order of their sectors lie apart. -/
theorem apart_of_ordered (hordered : extents.Pairwise fun first second =>
      first.startLba.toNat + first.blockCount.toNat ≤
        second.startLba.toNat) : extents.Pairwise Extent.Apart := by
  refine hordered.imp fun {first second} hle lba hboth => ?_
  simp only [Extent.Holds] at hboth
  omega

/-- Blocks 1, 3, 5 and 7. -/
def combExtents : List Extent := [⟨275, 1⟩, ⟨277, 1⟩, ⟨279, 1⟩, ⟨281, 1⟩]

/-- All blocks from 10 on. -/
def tailExtents : List Extent := [⟨284, 32484⟩]

def combBits (b : Nat) : Bool :=
  b == 1 || b == 3 || b == 5 || b == 7 || (10 ≤ b && b < totalDataBlocks)

/-- Two files that leave the free runs 0, 2, 4, 6 and 8-9. -/
def combState : State where
  table := Function.update
    (Function.update (fun _ => FileEntry.zero) 0
      (FileEntry.zero.fill nameA 2048 combExtents)) 1
    (FileEntry.zero.fill nameB 16631808 tailExtents)
  bitmap := combBits
  dev := ⟨fun _ => 0, [], fun _ => none, 0⟩

theorem combExtents_free : FreeExtents (fun _ => false) 4 combExtents :=
  ⟨by decide, fun _ _ => rfl, apart_of_ordered (by decide), by decide,
    by decide⟩

theorem fill_combExtents (b : Nat) :
    fillExtents true (fun _ => false) combExtents b =
      (b == 1 || b == 3 || b == 5 || b == 7) := by
  rw [fillExtents_apply true combExtents_free.valid, Bool.eq_iff_iff]
  simp only [combExtents, held_cons_iff, Extent.Holds, dataStartLba]
  simp [Held]
  omega

theorem tailExtents_free :
    FreeExtents (fillExtents true (fun _ => false) combExtents) 32484
      tailExtents := by
  refine ⟨by decide, fun b hb => ?_, apart_of_ordered (by decide), by decide,
    by decide⟩
  rw [fill_combExtents]
  simp only [tailExtents, held_cons_iff, Extent.Holds, dataStartLba] at hb
  simp [Held] at hb
  simp
  omega

theorem combState_rep : RepInv combState := by
  have hempty : BitmapInv (fun _ => FileEntry.zero) fun _ => false := by
    intro b _
    simp [Occupied, FileEntry.zero]
  have htable : TableInv (Function.update (fun _ => FileEntry.zero) 0
      (FileEntry.zero.fill nameA 2048 combExtents)) :=
    zero_tableInv.fill hempty combExtents_free
      (fill_entryInv _ _ (by decide) combExtents_free) (fill_active _ _ _
      (by decide)) (by simp [FileEntry.zero])
  have hbitmap : BitmapInv (Function.update (fun _ => FileEntry.zero) 0
      (FileEntry.zero.fill nameA 2048 combExtents))
      (fillExtents true (fun _ => false) combExtents) :=
    hempty.fill combExtents_free (fill_active _ _ _ (by decide)) rfl (by decide)
  have hname : ∀ j : Fin maxFiles, (Function.update (fun _ => FileEntry.zero) 0
      (FileEntry.zero.fill nameA 2048 combExtents) j).used ≠ 0 →
      (Function.update (fun _ => FileEntry.zero) 0
        (FileEntry.zero.fill nameA 2048 combExtents) j).cName ≠
        (FileEntry.zero.fill nameB 16631808 tailExtents).cName := by
    intro j hused
    by_cases hj : j = 0
    · rw [hj, Function.update_self, FileEntry.fill_cName _ _ _ _ (by decide),
        FileEntry.fill_cName _ _ _ _ (by decide)]
      decide
    · rw [Function.update_of_ne hj] at hused
      exact absurd rfl hused
  have hbits : combState.bitmap = fillExtents true
      (fillExtents true (fun _ => false) combExtents) tailExtents := by
    funext b
    rw [fillExtents_apply true tailExtents_free.valid, fill_combExtents]
    have htail : Held tailExtents (dataStartLba + b) ↔
        10 ≤ b ∧ b < totalDataBlocks := by
      simp only [tailExtents, held_cons_iff, Extent.Holds, dataStartLba,
        totalDataBlocks, totalDiskSectors, UInt32.reduceToNat]
      simp [Held]
      omega
    rw [if_congr htail rfl rfl, Bool.eq_iff_iff]
    simp only [combState, combBits]
    split <;> simp <;> omega
  refine ⟨htable.fill hbitmap tailExtents_free (fill_entryInv _ _ (by decide)
    tailExtents_free) (fill_active _ _ _ (by decide)) hname, ?_⟩
  rw [hbits]
  exact hbitmap.fill tailExtents_free (fill_active _ _ _ (by decide)) rfl
    (by decide)

def nameC : CString := ⟨[0x63], by simp⟩

theorem combState_bitmapWithout :
    combState.bitmapWithout nameC = combBits := by
  have hfind : find combState.table nameC = none := by decide +kernel
  simp only [State.bitmapWithout, hfind]
  rfl

theorem combBits_not_firstFit : ¬ FirstFit combBits 5 := by
  rintro (⟨start, hfits, hfree⟩ | ⟨cut, _, hfree, hruns⟩)
  · have htaken : ∀ b, combBits b = true → b < start ∨ start + 5 ≤ b := by
      intro b hb
      by_contra hinside
      rw [hfree b (by omega) (by omega)] at hb
      cases hb
    have hlast : combBits (max 10 start) = true := by
      simp only [totalDataBlocks, totalDiskSectors, dataStartLba] at hfits
      simp [combBits, totalDataBlocks, totalDiskSectors, dataStartLba]
      omega
    have h1 := htaken 1 rfl
    have h3 := htaken 3 rfl
    have h5 := htaken 5 rfl
    have h7 := htaken 7 rfl
    have h10 := htaken _ hlast
    omega
  · have hcut : 9 ≤ cut := by
      by_contra hlt
      have hfour : freeBelow combBits cut ≤ 4 :=
        freeBelow_mono combBits (show cut ≤ 8 by omega)
      omega
    have hfive : 5 ≤ runsBelow combBits cut := runsBelow_mono combBits hcut
    simp only [maxExtents] at hruns
    omega

theorem write_space_exact_comb : SpaceExact combState nameC [7] := by
  refine (write_space_exact_iff combState_rep (fun _ => rfl) ⟨2, rfl⟩ nameC
    (by decide)).mpr (.inr ⟨by decide, ?_⟩)
  rw [combState_bitmapWithout]
  exact .inl ⟨0, by decide, by decide⟩

/-- Five blocks fit into the runs 0, 2, 4 and 8-9, but the scan stops after
the runs 0, 2, 4 and 6. -/
theorem write_refuses_what_fits :
    ∃ fs name data, RepInv fs ∧ Reliable fs.dev ∧
      (∃ i, (fs.table i).used = 0) ∧ data.length < 2 ^ 32 ∧
      (FileSystem.write fs name data).1 = false ∧
      ∃ extents, FreeExtents (fs.bitmapWithout name) (blocksOf data.length)
        extents := by
  have hlength : (List.replicate 2560 (0 : UInt8)).length = 2560 :=
    List.length_replicate
  refine ⟨combState, nameC, List.replicate 2560 0, combState_rep, fun _ => rfl,
    ⟨2, rfl⟩, ?_, ?_, [⟨274, 1⟩, ⟨276, 1⟩, ⟨278, 1⟩, ⟨282, 2⟩], ?_⟩
  · rw [hlength]
    decide
  · rw [Bool.eq_false_iff, ne_eq, write_isTrue combState_rep (by decide)
      (.inr (firstUnused_isSome_iff.mpr ⟨2, rfl⟩)), hlength,
      combState_bitmapWithout]
    exact fun hboth => combBits_not_firstFit hboth.1
  · rw [combState_bitmapWithout, hlength]
    refine ⟨by decide, fun b hb => ?_, apart_of_ordered (by decide), by decide,
      by decide⟩
    simp only [held_cons_iff, Extent.Holds, dataStartLba,
      UInt32.reduceToNat] at hb
    simp only [Held, List.not_mem_nil, false_and, exists_false, or_false] at hb
    simp [combBits]
    omega

end FileSystem

end VenomOS
