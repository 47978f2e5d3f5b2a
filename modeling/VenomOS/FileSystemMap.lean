/-
VenomFS on a reliable drive is a map from names to byte strings.  The map is
read off the table and the disk; every operation returns what the map returns
and changes it as the map changes.
-/
import VenomOS.FileSystemRuns

namespace VenomOS

namespace FileSystem

open ByteMemory AtomicDisk

/-- The abstract file system: the bytes under every name. -/
abbrev Files := List UInt8 → Option (List UInt8)

def Files.read (files : Files) (name : List UInt8) (capacity : Nat) :
    ReadResult :=
  match files name with
  | none => .missing
  | some data => .complete (data.take capacity)

def Files.size (files : Files) (name : List UInt8) : Int :=
  match files name with
  | none => -1
  | some data => data.length

/-- What an operation may return and do to the map.  A refused write may only
touch its own name. -/
inductive MapStep (files : Files) : Op → Result → Files → Prop
  | written (name : CString) (data : List UInt8) :
      MapStep files (.write name data) (.flag true)
        (Function.update files name.chars (some data))
  | refused (name : CString) (data : List UInt8) {files' : Files}
      (hother : ∀ other, other ≠ name.chars → files' other = files other) :
      MapStep files (.write name data) (.flag false) files'
  | remove (name : CString) :
      MapStep files (.remove name) (.flag (files name.chars).isSome)
        (Function.update files name.chars none)
  | read (name : CString) (capacity : Nat) :
      MapStep files (.read name capacity)
        (.bytes (files.read name.chars capacity)) files
  | fileExists (name : CString) :
      MapStep files (.fileExists name) (.flag (files name.chars).isSome) files
  | fileSize (name : CString) :
      MapStep files (.fileSize name) (.size (files.size name.chars)) files
  | remount : MapStep files .remount (.flag true) files

/-- The runs of the map. -/
inductive MapRun : Files → List (Op × Result) → Files → Prop
  | nil (files : Files) : MapRun files [] files
  | cons {files files' files'' : Files} {op : Op} {result : Result}
      {trace : List (Op × Result)} (hstep : MapStep files op result files')
      (hrest : MapRun files' trace files'') :
      MapRun files ((op, result) :: trace) files''

/-- The operations with the results they return, one after the other. -/
def State.trace : List Op → State → List (Op × Result)
  | [], _ => []
  | op :: ops, fs => (op, (fs.perform op).1) :: (fs.exec op).trace ops

/-- The map a state stands for. -/
def filesOf (fs : State) : Files := fun name =>
  ((List.finRange maxFiles).find? fun i =>
    (fs.table i).used != 0 && (fs.table i).cName == name).map fun i =>
      contents fs.dev.disk (fs.table i)

/-- The invariant of the runs on a reliable drive: the saved table is the one in
memory. -/
structure Synced (fs : State) : Prop where
  sound : Sound fs
  reliable : Reliable fs.dev
  synced : diskTable fs.dev.disk = fs.table

variable {fs fs' : State} {name : CString} {data : List UInt8}
variable {slot i : Fin maxFiles}

theorem filesOf_chars (htable : TableInv fs.table) (name : CString) :
    filesOf fs name.chars =
      (find fs.table name).map fun i => contents fs.dev.disk (fs.table i) := by
  unfold filesOf find
  congr 2
  funext i
  by_cases hused : (fs.table i).used = 0
  · simp [hused]
  · have hequals := nameEquals_iff_of_terminated
      (htable.entry i hused).terminated name
    congr 1
    rw [Bool.eq_iff_iff, hequals, beq_iff_eq]

theorem filesOf_eq_none {other : List UInt8}
    (hnone : ∀ i, (fs.table i).used ≠ 0 → (fs.table i).cName ≠ other) :
    filesOf fs other = none := by
  rw [filesOf, Option.map_eq_none_iff, List.find?_eq_none]
  intro i _ hi
  simp only [Bool.and_eq_true, bne_iff_ne, beq_iff_eq] at hi
  exact hnone i hi.1 hi.2

theorem filesOf_eq_some (htable : TableInv fs.table) {other : List UInt8}
    (hused : (fs.table i).used ≠ 0) (hname : (fs.table i).cName = other) :
    filesOf fs other = some (contents fs.dev.disk (fs.table i)) := by
  have hfound : ((List.finRange maxFiles).find? fun i =>
      (fs.table i).used != 0 && (fs.table i).cName == other) = some i := by
    cases hfind : (List.finRange maxFiles).find? fun i =>
        (fs.table i).used != 0 && (fs.table i).cName == other with
    | none =>
        have := List.find?_eq_none.mp hfind i (List.mem_finRange i)
        simp [hused, hname] at this
    | some j =>
        have hj := List.find?_some hfind
        simp only [Bool.and_eq_true, bne_iff_ne, beq_iff_eq] at hj
        rw [htable.names j i hj.1 hused (hj.2.trans hname.symm)]
  rw [filesOf, hfound]
  rfl

/-- An operation under a name changes the map at most there. -/
theorem Keeps.filesOf_eq {other : List UInt8} {base : List UInt8}
    (hkeeps : Keeps base fs.table fs.dev fs') (hrep : RepInv fs)
    (hne : other ≠ base) : filesOf fs' other = filesOf fs other := by
  by_cases hfile : ∃ i, (fs.table i).used ≠ 0 ∧ (fs.table i).cName = other
  · obtain ⟨i, hused, hname⟩ := hfile
    have hne' : (fs.table i).cName ≠ base := by rwa [hname]
    have hsame := (hkeeps.same i).1 hused hne'
    have hbytes : contents fs'.dev.disk (fs.table i) =
        contents fs.dev.disk (fs.table i) := by
      refine hkeeps.grows.invariant (P := fun disk =>
        contents disk (fs.table i) = contents fs.dev.disk (fs.table i)) rfl ?_
      intro disk write hsafe hinv
      rw [hsafe.contents_eq rfl hused hne' (hrep.table.entry i hused).valid]
      exact hinv
    rw [filesOf_eq_some hrep.table hused hname,
      filesOf_eq_some hkeeps.rep.table (by rwa [hsame]) (by rwa [hsame]), hsame,
      hbytes]
  · rw [filesOf_eq_none fun i hused hname => hfile ⟨i, hused, hname⟩]
    refine filesOf_eq_none fun i hused hname => ?_
    have hsame := (hkeeps.same i).2 hused (by rwa [hname])
    rw [hsame] at hused hname
    exact hfile ⟨i, hused, hname⟩

theorem giveUp_synced (hreliable : Reliable fs.dev) :
    diskTable fs.giveUp.2.dev.disk = fs.giveUp.2.table := by
  have hok : fs.saveBitmap.2.saveFileTable.1 = true :=
    write_ok_of_reliable (write_reliable hreliable)
  have hdisk : fs.giveUp.2.dev.disk =
      (tableWrite fs.table).apply fs.saveBitmap.2.dev.disk :=
    write_disk_of_ok hok
  rw [hdisk, diskTable_tableWrite]
  rfl

theorem writeData_reliable (data : List UInt8) (lbas : List Nat) (offset : Nat) {dev : Device}
    (hreliable : Reliable dev) :
    (writeData data lbas offset dev).1 = true ∧
      Reliable (writeData data lbas offset dev).2 := by
  induction lbas generalizing offset dev with
  | nil => exact ⟨rfl, hreliable⟩
  | cons lba rest ih =>
      have hok : (writeSectors dev lba (sectorAt data offset)).1 = true :=
        write_ok_of_reliable hreliable
      rw [writeData_cons, if_pos hok]
      exact ih (offset + sectorSize) (write_reliable hreliable)

theorem commit_reliable {size : Nat} {extents : List Extent}
    (hreliable : Reliable fs.dev) :
    (fs.commit slot name size extents).1 = true := by
  let filled := fs.setEntry slot ((fs.table slot).fill name size extents)
  have htable : filled.saveFileTable.1 = true := write_ok_of_reliable hreliable
  have hbitmap : filled.saveFileTable.2.saveBitmap.1 = true :=
    write_ok_of_reliable (write_reliable hreliable)
  rw [commit_eq]
  simp only
  rw [if_pos (Bool.and_eq_true_iff.mpr ⟨htable, hbitmap⟩)]

/-- On a reliable drive `writeInto` fails only for lack of space. -/
theorem writeInto_reliable {fs : State} (slot : Fin maxFiles) (name : CString)
    (data : List UInt8) (hreliable : Reliable fs.dev) :
    (fs.writeInto slot name data).1 = true ∨
      fs.writeInto slot name data = fs.giveUp := by
  cases hchoose : chooseExtents fs.bitmap
      ((data.length + sectorSize - 1) / sectorSize % 2 ^ 32) with
  | none =>
      refine Or.inr ?_
      simp only [State.writeInto, hchoose]
  | some extents =>
      obtain ⟨hok, hdev⟩ := writeData_reliable data
        (sectorsOf extents) 0 hreliable
      rcases hwrite : writeData data (sectorsOf extents) 0 fs.dev with
        ⟨ok, dev'⟩
      rw [hwrite] at hok hdev
      simp only at hok
      subst hok
      refine Or.inl ?_
      simp only [State.writeInto, hchoose, hwrite]
      exact commit_reliable hdev

theorem write_synced (hsynced : Synced fs) (hsize : BlocksFit data.length) :
    Synced (write fs name data).2 := by
  have hkeeps : Keeps name.chars fs.table fs.dev (write fs name data).2 :=
    write_keeps hsynced.sound.rep hsize
  refine ⟨hkeeps.sound hsynced.sound.mountable,
    hkeeps.grows.reliable hsynced.reliable, ?_⟩
  cases hok : (write fs name data).1 with
  | true =>
      obtain ⟨slot, hcommitted⟩ := write_true hsynced.sound.rep hsize hok
      exact hcommitted.synced
  | false =>
      have hlength := nameLengthFrom_eq name (Nat.add_zero maxFilename)
        (Nat.zero_le _)
      by_cases hfits : name.chars.length < maxFilename
      · rw [if_pos hfits] at hlength
        cases hfind : find fs.table name with
        | some i =>
            simp only [write, hlength, hfind] at hok ⊢
            have hdev : Reliable (fs.freeEntry i).dev := hsynced.reliable
            rcases writeInto_reliable i name data hdev with hdone | hgaveUp
            · rw [hdone] at hok
              cases hok
            · rw [hgaveUp]
              exact giveUp_synced hsynced.reliable
        | none =>
            cases hslot : firstUnused fs.table with
            | none =>
                simp only [write, hlength, hfind, hslot]
                exact giveUp_synced hsynced.reliable
            | some slot =>
                simp only [write, hlength, hfind, hslot] at hok ⊢
                rcases writeInto_reliable slot name data
                  hsynced.reliable with hdone | hgaveUp
                · rw [hdone] at hok
                  cases hok
                · rw [hgaveUp]
                  exact giveUp_synced hsynced.reliable
      · rw [if_neg hfits] at hlength
        simp only [write, hlength]
        exact hsynced.synced

theorem write_mapStep (hsynced : Synced fs) (hsize : BlocksFit data.length) :
    MapStep (filesOf fs) (.write name data) (.flag (write fs name data).1)
      (filesOf (write fs name data).2) := by
  have hrep := hsynced.sound.rep
  have hkeeps : Keeps name.chars fs.table fs.dev (write fs name data).2 :=
    write_keeps hrep hsize
  cases hok : (write fs name data).1 with
  | true =>
      obtain ⟨slot, hcommitted⟩ := write_true hrep hsize hok
      have hfiles : filesOf (write fs name data).2 =
          Function.update (filesOf fs) name.chars (some data) := by
        funext other
        by_cases hother : other = name.chars
        · subst hother
          rw [Function.update_self, filesOf_eq_some hkeeps.rep.table
            hcommitted.used hcommitted.cName, hcommitted.bytes]
        · rw [Function.update_of_ne hother, hkeeps.filesOf_eq hrep hother]
      rw [hfiles]
      exact .written name data
  | false =>
      exact .refused name data fun other hother =>
        hkeeps.filesOf_eq hrep hother

theorem remove_eq (hfind : find fs.table name = some i)
    (hreliable : Reliable fs.dev) :
    remove fs name =
      (true, (fs.freeEntry i).saveFileTable.2.saveBitmap.2) := by
  have htable : (fs.freeEntry i).saveFileTable.1 = true :=
    write_ok_of_reliable hreliable
  have hbitmap : (fs.freeEntry i).saveFileTable.2.saveBitmap.1 = true :=
    write_ok_of_reliable (write_reliable hreliable)
  simp only [remove, hfind]
  rw [if_pos (Bool.and_eq_true_iff.mpr ⟨htable, hbitmap⟩)]

section

variable (hsynced : Synced fs)

include hsynced

theorem remove_synced : Synced (remove fs name).2 := by
  have hkeeps : Keeps name.chars fs.table fs.dev (remove fs name).2 :=
    remove_keeps hsynced.sound.rep
  refine ⟨hkeeps.sound hsynced.sound.mountable,
    hkeeps.grows.reliable hsynced.reliable, ?_⟩
  cases hfind : find fs.table name with
  | none =>
      simp only [remove, hfind]
      exact hsynced.synced
  | some i =>
      have htable : (fs.freeEntry i).saveFileTable.2.dev.disk =
          (tableWrite (fs.freeEntry i).table).apply fs.dev.disk :=
        write_disk_of_ok (write_ok_of_reliable hsynced.reliable)
      have hbitmap : (fs.freeEntry i).saveFileTable.2.saveBitmap.2.dev.disk =
          (bitmapWrite (fs.freeEntry i).bitmap).apply
            (fs.freeEntry i).saveFileTable.2.dev.disk :=
        write_disk_of_ok (write_ok_of_reliable
          (write_reliable hsynced.reliable))
      rw [remove_eq hfind hsynced.reliable, hbitmap, bitmapWrite,
        diskTable_apply (Nat.le_refl _), htable, diskTable_tableWrite]
      rfl

theorem remove_mapStep :
    MapStep (filesOf fs) (.remove name) (.flag (remove fs name).1)
      (filesOf (remove fs name).2) := by
  have hrep := hsynced.sound.rep
  have hkeeps : Keeps name.chars fs.table fs.dev (remove fs name).2 :=
    remove_keeps hrep
  have hflag : (remove fs name).1 = (filesOf fs name.chars).isSome := by
    rw [filesOf_chars hrep.table]
    cases hfind : find fs.table name with
    | none => simp [remove, hfind]
    | some i => simp [remove_eq hfind hsynced.reliable]
  have hgone : ∀ i, ((remove fs name).2.table i).used ≠ 0 →
      ((remove fs name).2.table i).cName ≠ name.chars := by
    cases hfind : find fs.table name with
    | none =>
        simp only [remove, hfind]
        exact hrep.table.find_none hfind
    | some i =>
        obtain ⟨hused, hname⟩ := hrep.table.find_some hfind
        rw [remove_eq hfind hsynced.reliable]
        exact (freeEntry_fresh hrep hfind)
  have hfiles : filesOf (remove fs name).2 =
      Function.update (filesOf fs) name.chars none := by
    funext other
    by_cases hother : other = name.chars
    · subst hother
      rw [Function.update_self, filesOf_eq_none hgone]
    · rw [Function.update_of_ne hother, hkeeps.filesOf_eq hrep hother]
  rw [hflag, hfiles]
  exact .remove name

theorem read_synced (name : CString) (capacity : Nat) :
    Synced (read fs name capacity).2 ∧
      filesOf (read fs name capacity).2 = filesOf fs := by
  cases hfind : find fs.table name with
  | none =>
      simp only [read, hfind]
      exact ⟨hsynced, trivial⟩
  | some i =>
      obtain ⟨htable, hbitmap, hdisk, houtcome, _⟩ := read_spec hfind capacity
      refine ⟨⟨read_sound hsynced.sound name capacity, ?_, ?_⟩, ?_⟩
      · intro call
        rw [houtcome]
        exact hsynced.reliable call
      · rw [hdisk, htable]
        exact hsynced.synced
      · unfold filesOf
        rw [hdisk, htable]

theorem read_eq (name : CString) (capacity : Nat) :
    (read fs name capacity).1 = (filesOf fs).read name.chars capacity := by
  rw [Files.read, filesOf_chars hsynced.sound.rep.table]
  cases hfind : find fs.table name with
  | none => simp [read, hfind]
  | some i =>
      obtain ⟨_, _, _, _, _, hread⟩ := read_spec hfind capacity
      exact hread hsynced.reliable

theorem fileSize_eq (name : CString) :
    fileSize fs name = (filesOf fs).size name.chars := by
  have htable := hsynced.sound.rep.table
  rw [Files.size, filesOf_chars htable]
  cases hfind : find fs.table name with
  | none => simp [fileSize, hfind]
  | some i =>
      have hentry := htable.entry i (htable.find_some hfind).1
      simp [fileSize, hfind, contents_length hentry]

theorem fileExists_eq (name : CString) :
    fileExists fs name = (filesOf fs name.chars).isSome := by
  rw [filesOf_chars hsynced.sound.rep.table, Option.isSome_map]
  rfl

/-- A mount of the same reliable disk changes nothing. -/
theorem init_synced :
    (init fs).1 = true ∧ Synced (init fs).2 ∧
      filesOf (init fs).2 = filesOf fs := by
  have hok := init_reliable hsynced.sound.mountable hsynced.reliable
  have hmounted := init_mounted hsynced.sound.mountable hok
  obtain ⟨bits, hgrows⟩ := hmounted.grows
  have htable : (init fs).2.table = fs.table := by
    rw [hmounted.table, hsynced.synced]
  refine ⟨hok, ⟨init_sound hsynced.sound hok,
    hgrows.reliable hsynced.reliable, hmounted.synced⟩, ?_⟩
  funext other
  have hkeeps : Keeps (other ++ [0]) fs.table fs.dev (init fs).2 := by
    refine ⟨hmounted.rep, ?_, hgrows.mono ?_⟩
    · rw [htable]
      exact SameElsewhere.refl _ _
    · rintro write rfl
      exact .bitmap bits
  exact hkeeps.filesOf_eq hsynced.sound.rep (by simp)

end

theorem format_reliable (hreliable : Reliable fs.dev) :
    (format fs).1 = true ∧ Reliable (format fs).2.dev := by
  have hlabelled : Reliable (labelled fs).2 := write_reliable hreliable
  have hemptied : Reliable (cleared fs).dev := write_reliable hlabelled
  rw [format_eq_cleared (write_ok_of_reliable hreliable)
    (write_ok_of_reliable hlabelled)]
  exact ⟨write_ok_of_reliable hemptied, write_reliable hemptied⟩

/-- Data whose number of blocks fits in 32 bits. -/
def Op.Fits : Op → Prop
  | .write _ data => BlocksFit data.length
  | _ => True

/-- Every operation is a step of the map. -/
theorem perform_mapStep (hsynced : Synced fs) {op : Op} (hop : op.Fits) :
    MapStep (filesOf fs) op (fs.perform op).1 (filesOf (fs.exec op)) ∧
      Synced (fs.exec op) := by
  cases op with
  | write name data =>
      exact ⟨write_mapStep hsynced hop, write_synced hsynced hop⟩
  | remove name => exact ⟨remove_mapStep hsynced, remove_synced hsynced⟩
  | read name capacity =>
      obtain ⟨hafter, hfiles⟩ := read_synced hsynced name capacity
      refine ⟨?_, hafter⟩
      simp only [State.perform, State.exec, read_eq hsynced, hfiles]
      exact .read name capacity
  | fileExists name =>
      refine ⟨?_, hsynced⟩
      simp only [State.perform, State.exec, fileExists_eq hsynced]
      exact .fileExists name
  | fileSize name =>
      refine ⟨?_, hsynced⟩
      simp only [State.perform, State.exec, fileSize_eq hsynced]
      exact .fileSize name
  | remount =>
      obtain ⟨hok, hafter, hfiles⟩ := init_synced hsynced
      refine ⟨?_, hafter⟩
      simp only [State.perform, State.exec, hok, hfiles]
      exact .remount

theorem trace_mapRun (ops : List Op) (hsynced : Synced fs)
    (hfits : ∀ op ∈ ops, op.Fits) :
    ∃ files, MapRun (filesOf fs) (fs.trace ops) files := by
  induction ops generalizing fs with
  | nil => exact ⟨filesOf fs, .nil _⟩
  | cons op ops ih =>
      obtain ⟨hstep, hafter⟩ :=
        perform_mapStep hsynced (hfits op List.mem_cons_self)
      obtain ⟨files, hrun⟩ := ih hafter fun other hother =>
        hfits other (List.mem_cons_of_mem _ hother)
      exact ⟨files, .cons hstep hrun⟩

/-- On a reliable drive a format succeeds, and every sequence of operations
after it returns what a map from names to byte strings returns. -/
theorem reliable_drive_is_a_map (hreliable : Reliable fs.dev) (ops : List Op)
    (hfits : ∀ op ∈ ops, op.Fits) :
    (format fs).1 = true ∧
      ∃ files, MapRun (fun _ => none) ((format fs).2.trace ops) files := by
  obtain ⟨hok, hdev⟩ := format_reliable hreliable
  have hformatted := format_formatted hok
  have hsynced : Synced (format fs).2 :=
    ⟨⟨hformatted.rep, hformatted.mountable⟩, hdev, hformatted.synced⟩
  have hempty : filesOf (format fs).2 = fun _ => none := by
    funext other
    refine filesOf_eq_none fun i hused => ?_
    rw [hformatted.empty] at hused
    exact absurd rfl hused
  refine ⟨hok, ?_⟩
  rw [← hempty]
  exact trace_mapRun ops hsynced hfits

/-- A drive that never fails. -/
def reliableStart : State :=
  ⟨fun _ => FileEntry.zero, fun _ => false, ⟨fun _ => 0, [], fun _ => none, 0⟩⟩

theorem reliable_drive_is_a_map_session :
    ∃ files, MapRun (fun _ => none) ((format reliableStart).2.trace
      [.write nameA [1, 2, 3], .remount, .write nameB [4], .remove nameA,
        .read nameB 10]) files := by
  refine (reliable_drive_is_a_map (fun _ => rfl) _ ?_).2
  simp only [List.forall_mem_cons, Op.Fits, BlocksFit]
  refine ⟨by decide, trivial, by decide, trivial, trivial, by simp⟩

end FileSystem

end VenomOS
