/-
Runs of VenomFS on a drive that may fail at any call.  The representation
invariant holds in every state of every run, and a file that was written stays
on the disk through failures, and through a power loss, of operations on other
names.
-/
import VenomOS.FileSystemDisk

namespace VenomOS

namespace FileSystem

open ByteMemory AtomicDisk

inductive Op where
  | write (name : CString) (data : List UInt8)
  | remove (name : CString)
  | read (name : CString) (capacity : Nat)
  | fileExists (name : CString)
  | fileSize (name : CString)
  | remount

/-- What an operation returns. -/
inductive Result where
  | flag (ok : Bool)
  | bytes (result : ReadResult)
  | size (size : Int)
deriving Repr, DecidableEq

def State.perform (fs : State) : Op → Result × State
  | .write name data => (.flag (write fs name data).1, (write fs name data).2)
  | .remove name => (.flag (remove fs name).1, (remove fs name).2)
  | .read name capacity =>
      (.bytes (read fs name capacity).1, (read fs name capacity).2)
  | .fileExists name => (.flag (FileSystem.fileExists fs name), fs)
  | .fileSize name => (.size (FileSystem.fileSize fs name), fs)
  | .remount => (.flag (init fs).1, (init fs).2)

def State.exec (fs : State) (op : Op) : State := (fs.perform op).2

/-- The operations considered: data whose number of blocks fits in 32 bits, and
mounts that succeed. -/
def Op.Allowed (fs : State) : Op → Prop
  | .write _ data => BlocksFit data.length
  | .remount => (init fs).1 = true
  | _ => True

/-- The states reached from a successful format. -/
inductive Reaches : State → Prop
  | format {fs : State} (hok : (format fs).1 = true) : Reaches (format fs).2
  | exec {fs : State} (op : Op) (hfs : Reaches fs) (hop : op.Allowed fs) :
      Reaches (fs.exec op)

variable {fs fs' : State} {name : CString} {data : List UInt8}
variable {disk : Memory} {slot : Fin maxFiles} {entry : FileEntry}

/-- The invariant of the runs: it holds in memory and of what a mount would
find. -/
structure Sound (fs : State) : Prop where
  rep : RepInv fs
  mountable : DiskInv fs.dev.disk

theorem Keeps.sound {other : List UInt8} {base : Table} {dev : Device}
    (hkeeps : Keeps other base dev fs) (hdisk : DiskInv dev.disk) : Sound fs :=
  ⟨hkeeps.rep, hkeeps.grows.invariant hdisk
    fun _ _ hsafe hinv => hinv.apply hsafe⟩

theorem read_sound (hsound : Sound fs) (name : CString) (capacity : Nat) :
    Sound (read fs name capacity).2 := by
  cases hfind : find fs.table name with
  | none =>
      simp only [read, hfind]
      exact hsound
  | some i =>
      obtain ⟨htable, hbitmap, hdisk, _⟩ := read_spec hfind capacity
      exact ⟨hsound.rep.congr htable hbitmap, hdisk ▸ hsound.mountable⟩

theorem init_sound (hsound : Sound fs) (hok : (init fs).1 = true) :
    Sound (init fs).2 := by
  have hmounted := init_mounted hsound.mountable hok
  obtain ⟨bits, hgrows⟩ := hmounted.grows
  have hsafe : SafeWrite [] fs.table (bitmapWrite bits) := .bitmap bits
  refine ⟨hmounted.rep, hgrows.invariant hsound.mountable ?_⟩
  rintro disk write rfl hinv
  exact hinv.apply hsafe

theorem exec_sound (hsound : Sound fs) {op : Op} (hop : op.Allowed fs) :
    Sound (fs.exec op) := by
  cases op with
  | write name data => exact (write_keeps hsound.rep hop).sound hsound.mountable
  | remove name => exact (remove_keeps hsound.rep).sound hsound.mountable
  | read name capacity => exact read_sound hsound name capacity
  | fileExists name => exact hsound
  | fileSize name => exact hsound
  | remount => exact init_sound hsound hop

theorem Reaches.sound (hreaches : Reaches fs) : Sound fs := by
  induction hreaches with
  | format hok =>
      have hformatted := format_formatted hok
      exact ⟨hformatted.rep, hformatted.mountable⟩
  | exec op _ hop ih => exact exec_sound ih hop

/-- Whatever calls failed, the table and the bitmap are well formed after every
operation. -/
theorem representation_invariant (hreaches : Reaches fs) : RepInv fs :=
  hreaches.sound.rep

/-- A drive whose ninth call fails. -/
def flakyStart : State :=
  ⟨fun _ => FileEntry.zero, fun _ => false,
    ⟨fun _ => 0, [], fun call => if call = 8 then some 0 else none, 0⟩⟩

def nameA : CString := ⟨[0x61], by simp⟩

def nameB : CString := ⟨[0x62], by simp⟩

theorem representation_invariant_flaky :
    RepInv ((((format flakyStart).2.exec (.write nameA [1, 2, 3])).exec
      (.write nameA [4])).exec (.remove nameA)) := by
  refine representation_invariant (Reaches.exec _ (Reaches.exec _
    (Reaches.exec _ (Reaches.format ?_) ?_) ?_) ?_)
  · rfl
  · exact (by decide : 3 + 512 ≤ 2 ^ 41)
  · exact (by decide : 1 + 512 ≤ 2 ^ 41)
  · trivial

/-- An operation on another name. -/
inductive StepElsewhere (name : List UInt8) : State → State → Prop
  | write (fs : State) (other : CString) (data : List UInt8)
      (hne : other.chars ≠ name) (hsize : BlocksFit data.length) :
      StepElsewhere name fs (write fs other data).2
  | remove (fs : State) (other : CString) (hne : other.chars ≠ name) :
      StepElsewhere name fs (remove fs other).2

def Elsewhere (name : List UInt8) : State → State → Prop :=
  Relation.ReflTransGen (StepElsewhere name)

/-- The writes that operations on other names issue while `slot` holds
`entry`. -/
def SafeFor (slot : Fin maxFiles) (entry : FileEntry) (write : Write) : Prop :=
  ∃ other base, base slot = entry ∧ entry.cName ≠ other ∧
    SafeWrite other base write

theorem StepElsewhere.keeps (hstep : StepElsewhere name.chars fs fs')
    (hrep : RepInv fs) :
    ∃ other : CString, other.chars ≠ name.chars ∧
      Keeps other.chars fs.table fs.dev fs' := by
  cases hstep with
  | write other data hne hsize => exact ⟨other, hne, write_keeps hrep hsize⟩
  | remove other hne => exact ⟨other, hne, remove_keeps hrep⟩

/-- Operations on other names leave the entry in its slot and issue only writes
that respect it. -/
theorem Elsewhere.keeps (hlater : Elsewhere name.chars fs fs')
    (hrep : RepInv fs) (hslot : fs.table slot = entry) (hused : entry.used ≠ 0)
    (hname : entry.cName = name.chars) :
    RepInv fs' ∧ fs'.table slot = entry ∧
      Grows (SafeFor slot entry) fs.dev fs'.dev := by
  induction hlater with
  | refl => exact ⟨hrep, hslot, Grows.refl _ _⟩
  | tail _ hstep ih =>
      obtain ⟨hrep', hslot', hgrows⟩ := ih
      obtain ⟨other, hne, hkeeps⟩ := hstep.keeps hrep'
      have hne' : entry.cName ≠ other.chars := by
        rw [hname]
        exact Ne.symm hne
      refine ⟨hkeeps.rep, ?_, hgrows.trans (hkeeps.grows.mono fun write hsafe =>
        ⟨other.chars, _, hslot', hne', hsafe⟩)⟩
      have hsame := (hkeeps.same slot).1
      rw [hslot'] at hsame
      exact hsame hused hne'

/-- What a mount of the disk finds under the name: the file exists, and unless
a read fails its bytes are the data. -/
structure FoundByMount (disk : Memory) (name : CString) (data : List UInt8) :
    Prop where
  mounts : ∀ fs : State, fs.dev.disk = disk → Reliable fs.dev →
    (init fs).1 = true ∧ ∀ capacity, data.length ≤ capacity →
      (read (init fs).2 name capacity).1 = .complete data
  found : ∀ fs : State, fs.dev.disk = disk → (init fs).1 = true →
    fileExists (init fs).2 name = true ∧
    fileSize (init fs).2 name = data.length ∧
    ∀ capacity, data.length ≤ capacity →
      (∃ got, (read (init fs).2 name capacity).1 = .failed got) ∨
        (read (init fs).2 name capacity).1 = .complete data

theorem Stores.bitmapWrite (hstores : Stores disk slot entry data)
    (hused : entry.used ≠ 0) (bits : Bitmap) :
    Stores ((bitmapWrite bits).apply disk) slot entry data := by
  have hne : entry.cName ≠ entry.cName ++ [0] := by simp
  let base : Table := fun _ => entry
  have hbase : base slot = entry := rfl
  exact hstores.apply hbase hused hne (.bitmap bits)

/-- A mount of a disk that stores the file. -/
theorem Stores.mounted (hstores : Stores fs.dev.disk slot entry data)
    (hused : entry.used ≠ 0) (hok : (init fs).1 = true) :
    RepInv (init fs).2 ∧ (init fs).2.table slot = entry ∧
      contents (init fs).2.dev.disk entry = data ∧
      (init fs).2.dev.outcome = fs.dev.outcome := by
  have hmounted := init_mounted hstores.mountable hok
  obtain ⟨bits, hgrows⟩ := hmounted.grows
  refine ⟨hmounted.rep, ?_, ?_, hgrows.outcome⟩
  · rw [hmounted.table]
    exact hstores.slot
  · have hafter : Stores (init fs).2.dev.disk slot entry data := by
      refine hgrows.invariant (P := fun disk => Stores disk slot entry data)
        hstores ?_
      rintro disk write rfl hinv
      exact hinv.bitmapWrite hused bits
    exact hafter.bytes

theorem Stores.foundByMount (hstores : Stores disk slot entry data)
    (hused : entry.used ≠ 0) (hname : entry.cName = name.chars)
    (hsize : entry.sizeBytes.toNat = data.length) :
    FoundByMount disk name data := by
  refine ⟨?_, ?_⟩
  · rintro fs rfl hreliable
    have hok := init_reliable hstores.mountable hreliable
    obtain ⟨hrep, hslot, hbytes, houtcome⟩ := hstores.mounted hused hok
    refine ⟨hok, fun capacity hcapacity => ?_⟩
    have hfind : find (init fs).2.table name = some slot :=
      hrep.table.find_eq (by rwa [hslot]) (by rwa [hslot])
    obtain ⟨_, _, _, _, _, hread⟩ := read_spec hfind capacity
    have hreliable' : Reliable (init fs).2.dev := by
      intro call
      rw [houtcome]
      exact hreliable call
    rw [hread hreliable', hslot, hbytes, List.take_of_length_le hcapacity]
  · rintro fs rfl hok
    obtain ⟨hrep, hslot, hbytes, _⟩ := hstores.mounted hused hok
    have hfind : find (init fs).2.table name = some slot :=
      hrep.table.find_eq (by rwa [hslot]) (by rwa [hslot])
    refine ⟨?_, ?_, fun capacity hcapacity => ?_⟩
    · simp [fileExists, hfind]
    · simp [fileSize, hfind, hslot, hsize]
    · obtain ⟨_, _, _, _, hread, _⟩ := read_spec hfind capacity
      rwa [hslot, hbytes, List.take_of_length_le hcapacity] at hread

/-- A successful write stores its file. -/
theorem Committed.stores (hsound : Sound fs)
    (hcommitted : Committed fs slot name data) :
    Stores fs.dev.disk slot (fs.table slot) data :=
  ⟨hsound.mountable, by rw [hcommitted.synced], hcommitted.bytes⟩

/-- A write that returned true survives whatever happens to other names
afterwards: cut the run at any of the writes it issued since, mount the disk,
and the file is there with its data. -/
theorem committed_file_survives {cut : Nat} (hreaches : Reaches fs)
    (hsize : BlocksFit data.length) (hok : (write fs name data).1 = true)
    (hlater : Elsewhere name.chars (write fs name data).2 fs')
    (hcut : (write fs name data).2.dev.log.length ≤ cut) :
    FoundByMount (replay fs'.dev.base (fs'.dev.log.take cut)) name data := by
  have hsound := hreaches.sound
  have hafter : Sound (write fs name data).2 :=
    (write_keeps hsound.rep hsize).sound hsound.mountable
  obtain ⟨slot, hcommitted⟩ := write_true hsound.rep hsize hok
  obtain ⟨_, _, hgrows⟩ := hlater.keeps hafter.rep rfl hcommitted.used
    hcommitted.cName
  have hstores := hgrows.at_cut (P := fun disk => Stores disk slot
    ((write fs name data).2.table slot) data) (hcommitted.stores hafter) ?_ hcut
  · exact hstores.foundByMount hcommitted.used hcommitted.cName hcommitted.size
  · rintro disk issued ⟨other, base, hbase, hne, hsafe⟩ hinv
    exact hinv.apply hbase hcommitted.used hne hsafe

/-- The second write fails when it saves the bitmap; power is lost right after
its data sector. -/
theorem committed_file_survives_flaky :
    let first := (write (format flakyStart).2 nameA [1, 2, 3]).2
    let second := (write first nameB [9]).2
    FoundByMount (replay second.dev.base (second.dev.log.take 7)) nameA
      [1, 2, 3] := by
  refine committed_file_survives (Reaches.format rfl) ?_ ?_
    (Relation.ReflTransGen.single (.write _ nameB [9] ?_ ?_)) ?_
  · exact (by decide : 3 + 512 ≤ 2 ^ 41)
  · decide +kernel
  · decide
  · exact (by decide : 1 + 512 ≤ 2 ^ 41)
  · decide +kernel

end FileSystem

end VenomOS
