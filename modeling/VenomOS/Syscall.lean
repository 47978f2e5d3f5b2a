/-
The system calls.  The definitions follow handle_syscall in
`kernel/interrupts.cpp`; a call runs with interrupts off, so that nothing comes
in between.
-/
import VenomOS.UserCopy
import VenomOS.FileSystemDisk
import VenomOS.Task
import VenomOS.Keyboard

namespace VenomOS

namespace Syscall

open ByteMemory UserCopy

abbrev sysError : UInt64 := 0xFFFFFFFFFFFFFFFF

def sysExit : UInt64 := 0

def sysWrite : UInt64 := 1

def sysSleep : UInt64 := 2

def sysGetpid : UInt64 := 3

def sysGetppid : UInt64 := 4

def sysUptime : UInt64 := 5

def sysRead : UInt64 := 6

def sysFilesize : UInt64 := 7

def sysReadfile : UInt64 := 8

def sysWriteMaxLength : Nat := 1024 * 1024

def sysReadfileMax : Nat := 4096

/-- What the calls work on.  The screen is the sequence of the characters that
were given to put_char. -/
structure Machine where
  paging : Paging.State
  files : FileSystem.State
  keyboard : Keyboard
  screen : List UInt8
  tasks : Tasks.Machine

/-- The loop that gives characters to put_char. -/
def Machine.print (m : Machine) (chunk : List UInt8) : Machine :=
  { m with screen := m.screen ++ chunk }

/-- The registers of the interrupt frame that the handler reads. -/
structure Frame where
  rax : UInt64
  rdi : UInt64
  rsi : UInt64
  rdx : UInt64

/-- How a call ends: it returns with a value in rax, it has switched to
another task and returns 0 when its task is woken, the task is gone, the
kernel takes a page fault, or it walks a list of tasks that does not end. -/
inductive Outcome where
  | returned (rax : UInt64) (m : Machine)
  | slept (m : Machine)
  | exited (m : Machine)
  | fault
  | hangs

/-- The loop of `copyUserPath` with `capacity` characters to go. -/
def copyUserPathFrom (st : Paging.State) (userPtr : Nat) :
    Nat → Nat → FileSystem.CString → Copied FileSystem.CString
  | 0, _, _ => .refused
  | capacity + 1, i, out =>
      match copyFromUser st ((userPtr + i) % 2 ^ 64) 1 with
      | .refused => .refused
      | .fault => .fault
      | .done bytes =>
          if h : bytes.getD 0 0 = 0 then
            if i > 0 then .done out else .refused
          else
            copyUserPathFrom st userPtr capacity (i + 1)
              ⟨out.chars ++ [bytes.getD 0 0], by
                intro c hc
                rcases List.mem_append.mp hc with hold | hnew
                · exact out.noNul c hold
                · rwa [List.mem_singleton.mp hnew]⟩

def copyUserPath (st : Paging.State) (userPtr capacity : Nat) :
    Copied FileSystem.CString :=
  copyUserPathFrom st userPtr capacity 0 ⟨[], nofun⟩

/-- The loop of SYS_READ: take up to `length` characters from the queue. -/
def readKeys (kb : Keyboard) : Nat → List UInt8 × Keyboard
  | 0 => ([], kb)
  | length + 1 =>
      if kb.available then
        let (character, kb) := kb.readChar
        let (chunk, kb) := readKeys kb length
        (character :: chunk, kb)
      else ([], kb)

/-- The loop of SYS_WRITE, by chunks of 256 bytes. -/
def writeChunks (m : Machine) (userPtr length written : Nat) : Outcome :=
  if written < length then
    let thisChunk := min (length - written) 256
    match copyFromUser m.paging ((userPtr + written) % 2 ^ 64) thisChunk with
    | .refused =>
        .returned (if written > 0 then UInt64.ofNat written else sysError) m
    | .fault => .fault
    | .done chunk =>
        writeChunks (m.print chunk) userPtr length (written + thisChunk)
  else .returned (UInt64.ofNat written) m
termination_by length - written

section Calls

variable (m : Machine) (frame : Frame)

/-- SYS_GETPID and SYS_GETPPID: a field of the running task. -/
def currentField (field : Tasks.Task → UInt64) : Outcome :=
  match m.tasks.current with
  | some self => .returned (field (m.tasks.tasks self)) m
  | none => .returned sysError m

def read : Outcome :=
  if frame.rdi ≠ 0 ∨ frame.rdx > 256 then .returned sysError m
  else
    let (chunk, keyboard) := readKeys m.keyboard frame.rdx.toNat
    let m := { m with keyboard := keyboard }
    if chunk.length > 0 then
      match copyToUser m.paging frame.rsi.toNat chunk with
      | .refused => .returned sysError m
      | .fault => .fault
      | .done paging =>
          .returned (UInt64.ofNat chunk.length) { m with paging := paging }
    else .returned (UInt64.ofNat chunk.length) m

def filesize : Outcome :=
  match copyUserPath m.paging frame.rdi.toNat (FileSystem.maxFilename + 1) with
  | .refused => .returned sysError m
  | .fault => .fault
  | .done name =>
      let size := FileSystem.fileSize m.files name
      .returned (if size < 0 then sysError else UInt64.ofNat size.toNat) m

def readfile : Outcome :=
  match copyUserPath m.paging frame.rdi.toNat (FileSystem.maxFilename + 1) with
  | .refused => .returned sysError m
  | .fault => .fault
  | .done name =>
      let length := min frame.rdx.toNat sysReadfileMax
      if !validateUserRange m.paging frame.rsi.toNat length true then
        .returned sysError m
      else
        match FileSystem.read m.files name length with
        | (.complete fileChunk, files) =>
            let m := { m with files := files }
            if fileChunk.length > 0 then
              match copyToUser m.paging frame.rsi.toNat fileChunk with
              | .refused => .returned sysError m
              | .fault => .fault
              | .done paging =>
                  .returned (UInt64.ofNat fileChunk.length)
                    { m with paging := paging }
            else .returned (UInt64.ofNat fileChunk.length) m
        | (_, files) => .returned sysError { m with files := files }

def exit : Outcome :=
  match m.tasks.exitCurrent (Int.bmod frame.rdi.toNat (2 ^ 32)) with
  | some tasks => .exited { m with tasks := tasks }
  | none => .hangs

def write : Outcome :=
  if frame.rsi.toNat > sysWriteMaxLength then .returned sysError m
  else writeChunks m frame.rdi.toNat frame.rsi.toNat 0

def handleSyscall : Outcome :=
  if frame.rax = sysGetpid then currentField m (·.pid)
  else if frame.rax = sysGetppid then currentField m (·.parentPid)
  else if frame.rax = sysUptime then .returned m.tasks.timerTicks m
  else if frame.rax = sysRead then read m frame
  else if frame.rax = sysFilesize then filesize m frame
  else if frame.rax = sysReadfile then readfile m frame
  else if frame.rax = sysExit then exit m frame
  else if frame.rax = sysWrite then write m frame
  else if frame.rax = sysSleep then
    .slept { m with tasks := m.tasks.sleepCurrent frame.rdi }
  else .returned sysError m

end Calls

/-- The chunks of 256 bytes that end at or below an offset can be read. -/
def Chunks (st : Paging.State) (p k : Nat) : Prop :=
  ∀ j, 256 * (j + 1) ≤ k → UserRange st (p + 256 * j) 256 false

/-- How much of a buffer is printed. -/
structure Printed (st : Paging.State) (p n k : Nat) : Prop where
  whole : Valid st p n false → k = n
  part : ¬ Valid st p n false → k % 256 = 0 ∧ k < n ∧ Chunks st p k ∧
    ∀ k', k' % 256 = 0 → k' < n → Chunks st p k' → k' ≤ k
  readable : ∀ i < k, Accessible st (p + i) false

variable {st : Paging.State} {name : FileSystem.CString} {p n written : Nat}

theorem chunks_of_valid {p k : Nat} (hvalid : Valid st p k false) :
    Chunks st p k := fun _ hj =>
  (hvalid.range (by omega : 0 < k)).sub (by omega)

/-- The chunk pointer may wrap, but then it is below user space. -/
theorem valid_wrapped_iff {p written count : Nat} (hp : p < 2 ^ 64)
    (hwritten : written ≤ sysWriteMaxLength) (hpos : 0 < count) :
    Valid st ((p + written) % 2 ^ 64) count false ↔
      UserRange st (p + written) count false := by
  rw [sysWriteMaxLength] at hwritten
  by_cases hwrap : p + written < 2 ^ 64
  · rw [Nat.mod_eq_of_lt hwrap]
    exact ⟨fun hvalid => hvalid.range hpos, .inr⟩
  · refine iff_of_false (fun hvalid => ?_) fun hrange => ?_
    · have hmin := (hvalid.range hpos).min
      rw [Elf.userSpaceMin] at hmin
      omega
    · have hbound := hrange.noWrap
      omega

theorem Machine.print_nil (m : Machine) : m.print [] = m := by
  simp [Machine.print]

theorem Machine.print_print (m : Machine) (first second : List UInt8) :
    (m.print first).print second = m.print (first ++ second) := by
  simp [Machine.print]

variable {m : Machine}

/-- The loop stops at the first chunk that cannot be read. -/
theorem printed_stop (hvalid : Valid st p written false)
    (hchunk : written % 256 = 0) (hlt : written < n)
    (hrefused : ¬ UserRange st (p + written) (min (n - written) 256) false) :
    Printed st p n written := by
  refine ⟨fun hwhole => ?_, fun _ => ⟨hchunk, hlt, chunks_of_valid hvalid, ?_⟩,
    hvalid.readable⟩
  · exact absurd ((hwhole.range hlt).sub (by omega)) hrefused
  · intro k' haligned hlt' hchunks
    by_contra hmore
    have hnext := hchunks (written / 256) (by omega)
    rw [Nat.mul_div_cancel' (Nat.dvd_of_mod_eq_zero hchunk)] at hnext
    rw [Nat.min_eq_right (by omega)] at hrefused
    exact hrefused hnext

theorem writeChunks_prints (hp : p < 2 ^ 64) (hn : n ≤ sysWriteMaxLength)
    (hvalid : Valid m.paging p written false) (hle : written ≤ n)
    (hchunk : written % 256 = 0 ∨ written = n) :
    ∃ k, Printed m.paging p n k ∧ written ≤ k ∧
      writeChunks m p n written =
        .returned (if 0 < k ∨ n = 0 then UInt64.ofNat k else sysError)
          (m.print (userBytes m.paging (p + written) (k - written))) := by
  have hmax : sysWriteMaxLength = 1048576 := rfl
  induction hleft : n - written using Nat.strong_induction_on
    generalizing m written with
  | _ left ih =>
      rw [writeChunks]
      by_cases hlt : written < n
      · have hbound : (p + written) % 2 ^ 64 < 2 ^ 64 :=
          Nat.mod_lt _ (Nat.two_pow_pos 64)
        have hcopy := @copyFromUser_eq m.paging _ _ hbound
          (show min (n - written) 256 < 2 ^ 64 by omega)
        rw [valid_wrapped_iff hp (by omega) (by omega)] at hcopy
        rw [if_pos hlt]
        dsimp only
        by_cases hreadable :
            UserRange m.paging (p + written) (min (n - written) 256) false
        · have hwrap : (p + written) % 2 ^ 64 = p + written := by
            have hnoWrap := hreadable.noWrap
            exact Nat.mod_eq_of_lt (by omega)
          have hvalid' : Valid (m.print (userBytes m.paging (p + written)
              (min (n - written) 256))).paging p
              (written + min (n - written) 256) false :=
            hvalid.append hreadable
          obtain ⟨k, hprinted, hge, hrest⟩ := ih _ (by omega) hvalid'
            (by omega) (by omega) rfl
          refine ⟨k, hprinted, by omega, ?_⟩
          rw [hcopy.2 hreadable, hwrap]
          refine hrest.trans ?_
          have hsplit : k - written = min (n - written) 256 +
              (k - (written + min (n - written) 256)) := by omega
          rw [hsplit, userBytes_append, Machine.print_print, Nat.add_assoc]
          rfl
        · rw [hcopy.1 hreadable]
          refine ⟨written, printed_stop hvalid (by omega) hlt hreadable,
            le_rfl, ?_⟩
          have hpos : n ≠ 0 := by omega
          simp [userBytes, hpos, Machine.print_nil]
      · obtain rfl : written = n := by omega
        refine ⟨written, ⟨fun _ => rfl, fun hinvalid => absurd hvalid hinvalid,
          hvalid.readable⟩, le_rfl, ?_⟩
        have hall : 0 < written ∨ written = 0 := by omega
        simp [userBytes, hall, Machine.print_nil]

/-- SYS_WRITE prints the prefix of the buffer that can be read, by chunks, and
returns its length, or an error if there is something to print and nothing can
be read. -/
theorem sysWrite_prints_readable {frame : Frame} (hrax : frame.rax = sysWrite) :
    (sysWriteMaxLength < frame.rsi.toNat →
      handleSyscall m frame = .returned sysError m) ∧
    (frame.rsi.toNat ≤ sysWriteMaxLength →
      ∃ k, Printed m.paging frame.rdi.toNat frame.rsi.toNat k ∧
        handleSyscall m frame = .returned
          (if 0 < k ∨ frame.rsi.toNat = 0 then UInt64.ofNat k else sysError)
          (m.print (userBytes m.paging frame.rdi.toNat k))) := by
  have hcall : handleSyscall m frame = write m frame := by
    unfold handleSyscall
    rw [hrax]
    rfl
  rw [hcall, write]
  refine ⟨fun hlong => if_pos hlong, fun hshort => ?_⟩
  obtain ⟨k, hprinted, _, hresult⟩ := @writeChunks_prints _ _ _ m
    frame.rdi.toNat_lt hshort (.inl rfl) (Nat.zero_le _) (.inl rfl)
  refine ⟨k, hprinted, ?_⟩
  rw [if_neg (Nat.not_lt.mpr hshort), hresult, Nat.add_zero, Nat.sub_zero]

/-- A machine with one page for the user and one key in the queue. -/
def oneKey : Machine where
  paging := onePage
  files := ⟨fun _ => .zero, fun _ => false, ⟨fun _ => 0, [], fun _ => none, 0⟩⟩
  keyboard := ⟨fun _ => 65, 1, 0⟩
  screen := []
  tasks := Tasks.Machine.boot

theorem oneKey_paging : oneKey.paging = onePage := by
  rw [oneKey]

theorem sysWrite_prints_readable_onePage :
    handleSyscall oneKey ⟨sysWrite, 0x40000FF0, 16, 0⟩ =
      .returned 16 (oneKey.print (userBytes onePage 0x40000FF0 16)) := by
  have hp : (0x40000FF0 : UInt64).toNat = 0x40000FF0 := by decide
  have hn : (16 : UInt64).toNat = 16 := by decide
  have hinitial := (@sysWrite_prints_readable oneKey
    ⟨sysWrite, 0x40000FF0, 16, 0⟩ rfl).2 (by decide)
  simp only [hp, hn, oneKey_paging] at hinitial
  obtain ⟨k, hprinted, hresult⟩ := hinitial
  obtain rfl : k = 16 := hprinted.whole onePage_readable
  exact hresult

theorem readKeys_spec (kb : Keyboard) (length : Nat) :
    (readKeys kb length).1.length = min length kb.queued ∧
      (readKeys kb length).2.queued + (readKeys kb length).1.length =
        kb.queued := by
  induction length generalizing kb with
  | zero => simp [readKeys]
  | succ length ih =>
      rw [readKeys]
      split
      · rename_i havailable
        have hqueued := Keyboard.queued_readChar kb havailable
        obtain ⟨hlength, hleft⟩ := ih kb.readChar.2
        simp only [List.length_cons]
        omega
      · rename_i hempty
        rw [Keyboard.available_iff] at hempty
        simp
        omega

/-- What a failed call must leave as it was. -/
structure Same (m m' : Machine) : Prop where
  keyboard : m'.keyboard = m.keyboard
  paging : m'.paging = m.paging
  screen : m'.screen = m.screen
  table : m'.files.table = m.files.table
  bitmap : m'.files.bitmap = m.files.bitmap
  disk : m'.files.dev.disk = m.files.dev.disk
  tasks : m'.tasks = m.tasks

/-- If the call returns with an error, it has had no effect. -/
def FailsQuietly (m : Machine) (outcome : Outcome) : Prop :=
  ∀ m', outcome = .returned sysError m' → Same m m'

/-- Keys are taken from the queue for a buffer that cannot be written. -/
def LosesKeys (m : Machine) (frame : Frame) : Prop :=
  frame.rax = sysRead ∧ frame.rdi = 0 ∧ frame.rdx ≤ 256 ∧
    0 < min frame.rdx.toNat m.keyboard.queued ∧
    validateUserRange m.paging frame.rsi.toNat
      (min frame.rdx.toNat m.keyboard.queued) true = false

theorem Same.refl (m : Machine) : Same m m := ⟨rfl, rfl, rfl, rfl, rfl, rfl, rfl⟩

theorem failsQuietly_self (m : Machine) (rax : UInt64) :
    FailsQuietly m (.returned rax m) := by
  rintro m' ⟨⟩
  exact .refl m

theorem failsQuietly_count (m m' : Machine) {count : Nat}
    (hcount : count ≤ sysWriteMaxLength) :
    FailsQuietly m (.returned (UInt64.ofNat count) m') := by
  intro m'' hreturned
  have hrax : UInt64.ofNat count = sysError := by
    injection hreturned
  have hval := congrArg UInt64.toNat hrax
  rw [sysWriteMaxLength] at hcount
  rw [UInt64.toNat_ofNat_of_lt' (by simp [UInt64.size]; omega)] at hval
  have herror : sysError.toNat = 18446744073709551615 := rfl
  omega

theorem failsQuietly_currentField (m : Machine)
    (field : Tasks.Task → UInt64) : FailsQuietly m (currentField m field) := by
  unfold currentField
  split
  · exact failsQuietly_self m _
  · exact failsQuietly_self m _

theorem failsQuietly_filesize (m : Machine) (frame : Frame) :
    FailsQuietly m (filesize m frame) := by
  unfold filesize
  split
  · exact failsQuietly_self m _
  · exact nofun
  · exact failsQuietly_self m _

theorem read_same (files : FileSystem.State) (name : FileSystem.CString)
    (capacity : Nat) :
    (FileSystem.read files name capacity).2.table = files.table ∧
      (FileSystem.read files name capacity).2.bitmap = files.bitmap ∧
      (FileSystem.read files name capacity).2.dev.disk = files.dev.disk := by
  cases hfind : FileSystem.find files.table name with
  | none => simp [FileSystem.read, hfind]
  | some i =>
      obtain ⟨htable, hbitmap, hdisk, _⟩ :=
        FileSystem.read_spec hfind capacity
      exact ⟨htable, hbitmap, hdisk⟩

theorem length_read_le {files files' : FileSystem.State} {capacity : Nat}
    {bytes : List UInt8}
    (hread : FileSystem.read files name capacity = (.complete bytes, files')) :
    bytes.length ≤ capacity := by
  cases hfind : FileSystem.find files.table name with
  | none => simp [FileSystem.read, hfind] at hread
  | some i =>
      obtain ⟨_, _, _, _, hresult, _⟩ := FileSystem.read_spec hfind capacity
      rw [hread] at hresult
      rcases hresult with ⟨_, hfailed⟩ | hcomplete
      · cases hfailed
      · cases hcomplete
        exact List.length_take_le _ _

theorem failsQuietly_files {m : Machine} {capacity : Nat}
    {result : FileSystem.ReadResult} {files : FileSystem.State}
    (hread : FileSystem.read m.files name capacity = (result, files))
    (rax : UInt64) :
    FailsQuietly m (.returned rax { m with files := files }) := by
  rintro m' ⟨⟩
  obtain ⟨htable, hbitmap, hdisk⟩ := read_same m.files name capacity
  rw [hread] at htable hbitmap hdisk
  exact ⟨rfl, rfl, rfl, htable, hbitmap, hdisk, rfl⟩

theorem failsQuietly_readfile (m : Machine) (frame : Frame) :
    FailsQuietly m (readfile m frame) := by
  unfold readfile
  split
  · exact failsQuietly_self m _
  · exact nofun
  dsimp only
  split
  · exact failsQuietly_self m _
  split
  · rename_i fileChunk files hread
    have hlength : fileChunk.length ≤ sysWriteMaxLength := by
      have hle := length_read_le hread
      rw [sysReadfileMax] at hle
      rw [sysWriteMaxLength]
      omega
    split
    · split
      · exact failsQuietly_files hread _
      · exact nofun
      · exact failsQuietly_count m _ hlength
    · exact failsQuietly_count m _ hlength
  · rename_i files _ hread
    exact failsQuietly_files hread _

variable {frame : Frame}

theorem Printed.le {p n k : Nat} (hprinted : Printed st p n k) : k ≤ n := by
  by_cases hvalid : Valid st p n false
  · exact (hprinted.whole hvalid).le
  · exact (hprinted.part hvalid).2.1.le

theorem failsQuietly_write (m : Machine) (frame : Frame) :
    FailsQuietly m (write m frame) := by
  unfold write
  split
  · exact failsQuietly_self m _
  · rename_i hshort
    obtain ⟨k, hprinted, _, hresult⟩ := @writeChunks_prints _ _ _ m
      frame.rdi.toNat_lt (Nat.le_of_not_lt hshort) (.inl rfl) (Nat.zero_le _)
      (.inl rfl)
    rw [hresult, Nat.sub_zero]
    by_cases hpos : 0 < k
    · rw [if_pos (.inl hpos)]
      have hle := hprinted.le
      exact failsQuietly_count m _ (by omega)
    · obtain rfl : k = 0 := by omega
      rw [show userBytes m.paging (frame.rdi.toNat + 0) 0 = [] from rfl,
        Machine.print_nil]
      exact failsQuietly_self m _

/-- The outcome of SYS_READ when the arguments are accepted. -/
theorem failsQuietly_read_iff (hrax : frame.rax = sysRead) :
    FailsQuietly m (read m frame) ↔ ¬ LosesKeys m frame := by
  obtain ⟨hlength, hleft⟩ := readKeys_spec m.keyboard frame.rdx.toNat
  unfold read LosesKeys
  by_cases hbad : frame.rdi ≠ 0 ∨ frame.rdx > 256
  · rw [if_pos hbad]
    refine iff_of_true (failsQuietly_self m _) ?_
    rintro ⟨_, hfd, hcount, _⟩
    rcases hbad with hfd' | hlong
    · exact hfd' hfd
    · exact absurd hcount (UInt64.not_le.mpr hlong)
  · rw [if_neg hbad]
    rw [not_or, not_not] at hbad
    have hcount : frame.rdx ≤ 256 := UInt64.not_lt.mp hbad.2
    have hcount' : frame.rdx.toNat ≤ 256 := hcount
    generalize readKeys m.keyboard frame.rdx.toNat = keys at *
    obtain ⟨chunk, keyboard⟩ := keys
    dsimp only at hlength hleft ⊢
    rw [← hlength]
    have hshort : chunk.length ≤ sysWriteMaxLength := by
      rw [sysWriteMaxLength]
      omega
    by_cases hsome : 0 < chunk.length
    · rw [if_pos hsome]
      cases hrange : validateUserRange m.paging frame.rsi.toNat chunk.length
        true with
      | true =>
          refine iff_of_true ?_ fun hloses =>
            Bool.noConfusion hloses.2.2.2.2
          split
          · rename_i hcopy
            cases hrange.symm.trans (copyToUser_refused_iff.mp hcopy)
          · exact nofun
          · exact failsQuietly_count m _ hshort
      | false =>
          rw [copyToUser_refused_iff.mpr hrange]
          refine iff_of_false (fun hquiet => ?_) ?_
          · have hsame := (hquiet _ rfl).keyboard
            have hqueued := congrArg Keyboard.queued hsame
            dsimp only at hqueued
            omega
          · exact not_not.mpr ⟨hrax, hbad.1, hcount, hsome, rfl⟩
    · rw [if_neg hsome]
      exact iff_of_true (failsQuietly_count m _ hshort)
        fun hloses => hsome hloses.2.2.2.1

/-- A call that reports an error has had no effect, unless it is a SYS_READ
into a buffer that the check of user ranges refuses. -/
theorem failed_syscall_harmless_iff (m : Machine) (frame : Frame) :
    (∀ m', handleSyscall m frame = .returned sysError m' → Same m m') ↔
      ¬ LosesKeys m frame := by
  change FailsQuietly m (handleSyscall m frame) ↔ _
  by_cases hrax : frame.rax = sysRead
  · rw [← failsQuietly_read_iff hrax, handleSyscall, hrax]
    rfl
  · refine iff_of_true ?_ fun hloses => hrax hloses.1
    unfold handleSyscall
    split
    · exact failsQuietly_currentField m _
    split
    · exact failsQuietly_currentField m _
    split
    · exact failsQuietly_self m _
    split
    · exact failsQuietly_filesize m frame
    split
    · exact failsQuietly_readfile m frame
    split
    · unfold exit
      split
      · exact nofun
      · exact nofun
    split
    · exact failsQuietly_write m frame
    split
    · exact nofun
    · exact failsQuietly_self m _

theorem failed_syscall_harmless_oneKey :
    ¬ LosesKeys oneKey ⟨sysRead, 1, 0, 1⟩ ∧
      ∀ m', handleSyscall oneKey ⟨sysRead, 1, 0, 1⟩ = .returned sysError m' →
        Same oneKey m' := by
  have hkeeps : ¬ LosesKeys oneKey ⟨sysRead, 1, 0, 1⟩ := fun hloses =>
    absurd hloses.2.1 (by decide)
  exact ⟨hkeeps, (failed_syscall_harmless_iff oneKey _).mpr hkeeps⟩

/-- The key is gone, and the call reports an error. -/
theorem failed_read_loses_key :
    ∃ m', handleSyscall oneKey ⟨sysRead, 0, 0, 1⟩ = .returned sysError m' ∧
      oneKey.keyboard.queued = 1 ∧ m'.keyboard.queued = 0 :=
  ⟨_, rfl, rfl, rfl⟩

end Syscall

end VenomOS
