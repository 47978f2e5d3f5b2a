/-
run of kernel/process.cpp: a file is read and checked, its segments and its
stack are mapped, and a task is made for it.  The file buffer and the stack
window are static, so each call finds in them what the last one left.
-/
import VenomOS.FileSystemDisk
import VenomOS.InitialStack
import VenomOS.Loader
import VenomOS.PagingWx
import VenomOS.Task

namespace VenomOS

namespace Process

open ByteMemory RadixTable Paging Elf

def maxElfSize : Nat := 64 * 1024

/-- What run works on.  The last field is where process_entry lies. -/
structure Kernel where
  files : FileSystem.State
  paging : Paging.State
  tasks : Tasks.Machine
  fileBuffer : Memory
  stackWindow : Memory
  processEntry : Nat

/-- The arguments of run. -/
structure Call where
  filename : CString
  argc : Int
  argv : PointerArray
  envc : Int
  envp : PointerArray

/-- The name as the file system takes it. -/
def fileName (filename : CString) : FileSystem.CString :=
  ⟨filename.bytes, fun _ hc heq => filename.terminated (heq ▸ hc)⟩

/-- The name as a task keeps it. -/
def CString.text (string : CString) : String :=
  String.ofList (string.bytes.map fun byte => Char.ofNat byte.toNat)

/-- The bytes that a read has put into the buffer. -/
def readBytes : FileSystem.ReadResult → List UInt8
  | .missing => []
  | .failed bytes => bytes
  | .complete bytes => bytes

def readOk : FileSystem.ReadResult → Bool
  | .complete _ => true
  | _ => false

/-- The arguments of the program; by default the name of its file. -/
def Call.arguments (call : Call) : Int × PointerArray :=
  if call.argc = 0 then
    (1, some fun i => if i = 0 then some call.filename else none)
  else (call.argc, call.argv)

def stackFlags : Nat :=
  pagePresent ||| pageWritable ||| pageUser ||| pageOwned ||| pageNx

/-- The loop that maps the stack; `left` pages are still to come. -/
def mapStack (window : Memory) (pml4 : Nat) :
    Nat → Nat → Paging.State → Paging.State × Bool
  | 0, _, st => (st, true)
  | left + 1, offset, st =>
      let (pmm, stackFrame) := st.pmm.allocFrame
      let st := { st with pmm := pmm }
      if stackFrame = 0 then (st, false)
      else
        let st :=
          { st with mem := store st.mem stackFrame (load window offset 4096) }
        let (st, mapped) :=
          st.mapPageIn pml4 (stackVirt + offset) stackFrame stackFlags
        if mapped then mapStack window pml4 left (offset + 4096) st
        else (st.free stackFrame, false)

namespace Kernel

variable (kernel : Kernel) (call : Call)

/-- The address space is given up. -/
def abandon (paging : Paging.State) (pml4 : Nat) : Kernel :=
  { kernel with paging := paging.destroyAddressSpace pml4 }

/-- The end of run: a task for a complete address space.  `stack` is what
heap::kmalloc returns for it. -/
def enroll (stack : Nat) (header : Ehdr) (pml4 sp : Nat) :
    Kernel × Option String :=
  if kernel.paging.countWxPages pml4 ≠ 0 then
    (kernel.abandon kernel.paging pml4, some
      "Refusing to run: the process image would have writable+executable pages.\n")
  else
    match kernel.tasks.createProcess (.code kernel.processEntry)
        call.filename.text stack pml4 header.entry sp with
    | (tasks, none) =>
        ({ kernel with tasks := tasks }.abandon kernel.paging pml4, some
          "Failed to create a task for this process (out of task slots or memory).\n")
    | (tasks, some _) => ({ kernel with tasks := tasks }, none)

/-- The stack of a process whose segments are loaded. -/
def addStack (stack : Nat) (header : Ehdr) (pml4 : Nat) :
    Kernel × Option String :=
  let (argc, argv) := call.arguments
  match buildInitialStack kernel.stackWindow stackSize argc argv call.envc
      call.envp with
  | none =>
      (kernel.abandon kernel.paging pml4, some
        "Too many or too long arguments/environment strings for the process stack.\n")
  | some (window, initialSp) =>
      let kernel := { kernel with stackWindow := window }
      match mapStack window pml4 (stackSize / 4096) 0 kernel.paging with
      | (paging, false) =>
          (kernel.abandon paging pml4,
            some "Failed to map the process's stack.\n")
      | (paging, true) =>
          { kernel with paging := paging }.enroll call stack header pml4
            initialSp

/-- run from where the file has been accepted. -/
def start (stack : Nat) (header : Ehdr) (phdrs : List Phdr) :
    Kernel × Option String :=
  let (paging, pml4) := kernel.paging.createAddressSpace
  let kernel := { kernel with paging := paging }
  if pml4 = 0 then
    (kernel, some "Failed to create an address space (out of memory).\n")
  else
    match (loadSegments kernel.fileBuffer pml4 phdrs kernel.paging).value with
    | (paging, some message) => (kernel.abandon paging pml4, some message)
    | (paging, none) =>
        { kernel with paging := paging }.addStack call stack header pml4

/-- The kernel afterwards, and what is printed if run returns false. -/
def run (stack : Nat) : Kernel × Option String :=
  let name := fileName call.filename
  if !FileSystem.fileExists kernel.files name then
    (kernel, some "File not found.\n")
  else
    let size := FileSystem.fileSize kernel.files name
    if size ≤ 0 then (kernel, some "Cannot run an empty file.\n")
    else if size.toNat > maxElfSize then
      (kernel, some "File is too large to run (max 64KB).\n")
    else
      let (result, files) := FileSystem.read kernel.files name maxElfSize
      let bytes := readBytes result
      let kernel :=
        { kernel with
          files := files
          fileBuffer := store kernel.fileBuffer 0 bytes }
      if !readOk result || bytes.isEmpty then
        (kernel, some "Failed to read the file.\n")
      else
        match validate kernel.fileBuffer bytes.length with
        | .error message => (kernel, some ("Rejected: " ++ message ++ "\n"))
        | .ok (header, phdrs) => kernel.start call stack header phdrs

end Kernel

/-- How an address space was filled: with the segments of a file and with a
stack. -/
structure Filled (st : Paging.State) (file : Memory) (phdrs : List Phdr)
    (window : Memory) (pml4 : Nat) (st' : Paging.State) : Prop where
  steps : ∃ st₁ st₂, st.createAddressSpace = (st₁, pml4) ∧ pml4 ≠ 0 ∧
    (loadSegments file pml4 phdrs st₁).value = (st₂, none) ∧
    mapStack window pml4 (stackSize / 4096) 0 st₂ = (st', true)

/-- What a successful run has done. -/
structure Started (kernel : Kernel) (call : Call) (kernel' : Kernel)
    (bytes : List UInt8) (header : Ehdr) (phdrs : List Phdr)
    (slot : Tasks.Slot) : Prop where
  read : (FileSystem.read kernel.files (fileName call.filename) maxElfSize).1 =
    .complete bytes
  buffer : kernel'.fileBuffer = store kernel.fileBuffer 0 bytes
  valid : validate kernel'.fileBuffer bytes.length = .ok (header, phdrs)
  built : ∃ sp, buildInitialStack kernel.stackWindow stackSize
    call.arguments.1 call.arguments.2 call.envc call.envp =
      some (kernel'.stackWindow, sp)
  free : kernel.tasks.findFreeSlot = some slot
  filled : Filled kernel.paging kernel'.fileBuffer phdrs kernel'.stackWindow
    (kernel'.tasks.tasks slot).cr3 kernel'.paging

variable {kernel kernel' : Kernel} {call : Call} {stack : Nat}

theorem createProcess_eq_some {m m' : Tasks.Machine} {entry : Tasks.EntryFn}
    {name : String} {cr3 userEntry userStackTop : Nat} {slot : Tasks.Slot}
    (hcreate : m.createProcess entry name stack cr3 userEntry userStackTop =
      (m', some slot)) :
    m.findFreeSlot = some slot ∧ (m'.tasks slot).cr3 = cr3 := by
  unfold Tasks.Machine.createProcess Tasks.Machine.initCommonSlot at hcreate
  cases hfree : m.findFreeSlot with
  | none => simp [hfree] at hcreate
  | some free =>
      by_cases hstack : stack = 0
      · simp [hfree, hstack] at hcreate
      · simp only [hfree, hstack, ↓reduceIte, Prod.mk.injEq,
          Option.some.injEq] at hcreate
        obtain ⟨rfl, rfl⟩ := hcreate
        simp [Tasks.Machine.modify]

theorem enroll_eq_none {header : Ehdr} {pml4 sp : Nat}
    (henroll : kernel.enroll call stack header pml4 sp = (kernel', none)) :
    ∃ tasks slot, kernel' = { kernel with tasks := tasks } ∧
      kernel.tasks.findFreeSlot = some slot ∧ (tasks.tasks slot).cr3 = pml4 := by
  unfold Kernel.enroll at henroll
  split at henroll
  · cases henroll
  split at henroll
  · cases henroll
  · rename_i tasks slot hcreate
    obtain ⟨rfl, _⟩ := Prod.mk.inj henroll
    exact ⟨tasks, slot, rfl, createProcess_eq_some hcreate⟩

theorem addStack_eq_none {header : Ehdr} {pml4 : Nat}
    (hadd : kernel.addStack call stack header pml4 = (kernel', none)) :
    ∃ window sp paging tasks slot,
      buildInitialStack kernel.stackWindow stackSize call.arguments.1
        call.arguments.2 call.envc call.envp = some (window, sp) ∧
      mapStack window pml4 (stackSize / 4096) 0 kernel.paging =
        (paging, true) ∧
      kernel' = { kernel with
        stackWindow := window, paging := paging, tasks := tasks } ∧
      kernel.tasks.findFreeSlot = some slot ∧ (tasks.tasks slot).cr3 = pml4 := by
  unfold Kernel.addStack at hadd
  dsimp only at hadd
  split at hadd
  · cases hadd
  rename_i window sp hbuild
  split at hadd
  · cases hadd
  rename_i paging hmap
  obtain ⟨tasks, slot, rfl, hfree, hcr3⟩ := enroll_eq_none hadd
  exact ⟨window, sp, paging, tasks, slot, hbuild, hmap, rfl, hfree, hcr3⟩

theorem start_eq_none {header : Ehdr} {phdrs : List Phdr}
    (hstart : kernel.start call stack header phdrs = (kernel', none)) :
    kernel'.fileBuffer = kernel.fileBuffer ∧
    (∃ sp, buildInitialStack kernel.stackWindow stackSize call.arguments.1
      call.arguments.2 call.envc call.envp =
        some (kernel'.stackWindow, sp)) ∧
    ∃ slot, kernel.tasks.findFreeSlot = some slot ∧
      Filled kernel.paging kernel.fileBuffer phdrs kernel'.stackWindow
        (kernel'.tasks.tasks slot).cr3 kernel'.paging := by
  unfold Kernel.start at hstart
  generalize hcreate : kernel.paging.createAddressSpace = created at hstart
  obtain ⟨st₁, pml4⟩ := created
  dsimp only at hstart
  split at hstart
  · cases hstart
  rename_i hpml4
  split at hstart
  · cases hstart
  rename_i st₂ hload
  obtain ⟨window, sp, paging, tasks, slot, hbuild, hmap, rfl, hfree, hcr3⟩ :=
    addStack_eq_none hstart
  refine ⟨rfl, ⟨sp, hbuild⟩, slot, hfree, st₁, st₂, ?_⟩
  rw [hcr3]
  exact ⟨hcreate, hpml4, hload, hmap⟩

/-- A run that succeeds went through all steps. -/
theorem started_of_run (hrun : kernel.run call stack = (kernel', none)) :
    ∃ bytes header phdrs slot,
      Started kernel call kernel' bytes header phdrs slot := by
  unfold Kernel.run at hrun
  dsimp only at hrun
  split at hrun
  · cases hrun
  split at hrun
  · cases hrun
  split at hrun
  · cases hrun
  split at hrun
  · cases hrun
  rename_i hread
  generalize hresult : FileSystem.read kernel.files (fileName call.filename)
    maxElfSize = result at hrun hread
  obtain ⟨result, files⟩ := result
  cases result with
  | missing => simp [readOk] at hread
  | failed bytes => simp [readOk] at hread
  | complete bytes =>
      dsimp only [readBytes] at hrun
      split at hrun
      · cases hrun
      rename_i header phdrs hvalid
      obtain ⟨hbuffer, hbuilt, slot, hfree, hfilled⟩ := start_eq_none hrun
      refine ⟨bytes, header, phdrs, slot, ?_, hbuffer, ?_, hbuilt, hfree, ?_⟩
      · rw [hresult]
      · rw [hbuffer]
        exact hvalid
      · rw [hbuffer]
        exact hfilled

/-- What the page of the stack at an offset is to hold. -/
def stackImage (window : Memory) (offset : Nat) : PageImage where
  virtAddr := stackVirt + offset
  flags := stackFlags
  bytes k := window (offset + k)

def stackImages (window : Memory) : Nat → Nat → List PageImage
  | 0, _ => []
  | left + 1, offset =>
      stackImage window offset :: stackImages window left (offset + 4096)

/-- The four pages of a stack. -/
def stackPages (window : Memory) : List PageImage :=
  stackImages window (stackSize / 4096) 0

variable {window file : Memory} {st st' : Paging.State} {pml4 left offset : Nat}

theorem mapStack_places
    (hmap : mapStack window pml4 left offset st = (st', true)) :
    Places pml4 (stackImages window left offset) st st' := by
  induction left generalizing offset st with
  | zero =>
      obtain ⟨rfl, _⟩ := Prod.mk.inj hmap
      exact .nil
  | succ left ih =>
      rw [mapStack] at hmap
      rcases st.pmm.allocFrame_cases with ⟨n, hlt, hclear, halloc⟩ | ⟨_, halloc⟩
      · rw [halloc, Pmm.frameSize] at hmap
        dsimp only at hmap
        split at hmap
        · cases hmap
        generalize hplace : State.mapPageIn
          { st with
            pmm := st.pmm.take n
            mem := store st.mem (n * 4096) (load window offset 4096) }
          pml4 (stackVirt + offset) (n * 4096) stackFlags = placed at hmap
        obtain ⟨between, mapped⟩ := placed
        cases mapped with
        | false => cases hmap
        | true =>
            refine .cons ⟨n, _, hlt, hclear, fun k hk => ?_, fun addr haddr => ?_,
              hplace⟩ (ih hmap)
            · rw [store_inside (by rwa [load_length])]
              simp [load, hk, stackImage]
            · exact store_outside (by rw [load_length]; omega)
      · rw [halloc] at hmap
        cases hmap

theorem userPage_stack (haligned : offset % 4096 = 0)
    (hoffset : offset < stackSize) :
    UserPage (stackVirt + offset) stackFlags := by
  simp only [stackSize] at hoffset
  refine ⟨?_, ?_, ?_, ⟨by decide, by decide⟩, by decide⟩
  · simp only [userSpaceMin, stackVirt]
    omega
  · simp only [userSpaceMax, stackVirt]
    omega
  · simp only [stackVirt]
    omega

theorem mem_stackPages {image : PageImage} :
    image ∈ stackPages window ↔ ∃ offset, offset % 4096 = 0 ∧
      offset < stackSize ∧ stackImage window offset = image := by
  have hpages : stackPages window = [stackImage window 0,
    stackImage window 4096, stackImage window 8192,
    stackImage window 12288] := rfl
  rw [hpages]
  simp only [List.mem_cons, List.not_mem_nil, or_false]
  constructor
  · rintro (rfl | rfl | rfl | rfl)
    · exact ⟨0, rfl, by decide, rfl⟩
    · exact ⟨4096, rfl, by decide, rfl⟩
    · exact ⟨8192, rfl, by decide, rfl⟩
    · exact ⟨12288, rfl, by decide, rfl⟩
  · rintro ⟨offset, haligned, hoffset, rfl⟩
    have hcases : offset = 0 ∨ offset = 4096 ∨ offset = 8192 ∨
        offset = 12288 := by
      simp only [stackSize] at hoffset
      omega
    rcases hcases with rfl | rfl | rfl | rfl <;> simp

theorem userPage_stackPages :
    ∀ image ∈ stackPages window, UserPage image.virtAddr image.flags := by
  intro image himage
  obtain ⟨offset, haligned, hoffset, rfl⟩ := mem_stackPages.mp himage
  exact userPage_stack haligned hoffset

theorem nodup_stackPages :
    ((stackPages window).map fun image => vaPath image.virtAddr).Nodup := by
  change [vaPath (stackVirt + 0), vaPath (stackVirt + 4096),
    vaPath (stackVirt + 8192), vaPath (stackVirt + 12288)].Nodup
  decide

/-- The processor sees the window in the pages of the stack and may write but
not execute it. -/
theorem stack_visible {label : Nat → Option Path}
    (hshows : ∀ image ∈ stackPages window, Shows st pml4 image)
    (hspace : Space st pml4 label) (hoffset : offset < stackSize) :
    byteAt st pml4 (stackVirt + offset) = some (window offset) ∧
      ∃ frame, translate st.mem pml4 (stackVirt + offset) =
        some ⟨frame, true, true, true⟩ := by
  have hmem : stackImage window (offset / 4096 * 4096) ∈ stackPages window :=
    mem_stackPages.mpr ⟨_, Nat.mul_mod_left _ _, by omega, rfl⟩
  have hwithin : Within (stackImage window (offset / 4096 * 4096)).virtAddr
      (stackVirt + offset) := by
    refine ⟨?_, ?_⟩
    · simp only [stackImage]
      omega
    · simp only [stackImage]
      omega
  obtain ⟨frame, htranslate, hbyte⟩ := (hshows _ hmem).visible hspace
    (userPage_stackPages _ hmem) hwithin
  have hrights : flagRights stackFlags = (true, true, false) := by decide
  refine ⟨?_, frame, ?_⟩
  · rw [hbyte]
    simp only [stackImage]
    congr 2
    omega
  · rw [htranslate]
    simp only [stackImage, hrights, Bool.not_false]

/-- The segments leave room for the stack and its guard page. -/
def Clear (phdrs : List Phdr) : Prop :=
  ∀ phdr ∈ phdrs, phdr.type = ptLoad →
    phdr.pageEnd ≤ stackGuardVirt ∨ stackVirt + stackSize ≤ phdr.pageStart

/-- Segments, stack and guard page of an address space are as they should be,
and nothing has been lost since `before`. -/
structure Intact (before st : Paging.State) (file : Memory)
    (phdrs : List Phdr) (window : Memory) (pml4 : Nat) : Prop where
  segments : ∀ phdr ∈ phdrs, phdr.type = ptLoad → ∀ addr, phdr.vaddr ≤ addr →
    addr < phdr.vaddr + phdr.memsz →
    byteAt st pml4 addr = some (segmentByte file phdr addr) ∧
    ∃ mapping, translate st.mem pml4 addr = some mapping ∧
      mapping.user = true ∧
      (mapping.writable = true ↔ phdr.flags &&& pfWrite ≠ 0) ∧
      (mapping.noExecute = false ↔ phdr.flags &&& pfExec ≠ 0)
  stack : ∀ offset < stackSize,
    byteAt st pml4 (stackVirt + offset) = some (window offset) ∧
    ∃ mapping, translate st.mem pml4 (stackVirt + offset) = some mapping ∧
      mapping.writable = true ∧ mapping.noExecute = true
  guard : ∀ addr, stackGuardVirt ≤ addr → addr < stackVirt →
    translate st.mem pml4 addr = none
  frames : ∀ frame, st.pmm.used frame = true →
    before.pmm.used frame = true ∨ Referenced st pml4 (frame * 4096)

variable {fileSize : Nat} {header : Ehdr} {phdrs : List Phdr}

theorem Filled.loaded
    (hfilled : Filled st file phdrs window pml4 st')
    (haccepted : Accepted file fileSize header phdrs)
    (hsize : fileSize < 2 ^ 64) :
    ∃ st₂ label, Image st.pmm (fileImages file phdrs) st₂ pml4 label ∧
      Places pml4 (stackPages window) st₂ st' := by
  obtain ⟨st₁, st₂, hcreate, hpml4, hload, hmap⟩ := hfilled.steps
  have hloads : Loads fileSize pml4 (fileImages file phdrs) st₁
      (loadSegments file pml4 phdrs st₁) :=
    loadSegments_loads haccepted.loadable hsize
  obtain ⟨label, hnew⟩ := Image.create hcreate hpml4
  have hplaces := (hloads.placed (congrArg Prod.snd hload)).2
  rw [hload] at hplaces
  obtain ⟨label', himage⟩ := hnew.places hplaces
    (userPage_fileImages haccepted.loadable)
    (nodup_vaPath_fileImages haccepted.loadable haccepted.apart)
  exact ⟨st₂, label', himage, mapStack_places hmap⟩

theorem separate_segmentPageFlags (flags : Nat) :
    ¬ ((flagRights (segmentPageFlags flags)).2.1 = true ∧
      (flagRights (segmentPageFlags flags)).2.2 = true) := by
  have hflags := segmentPageFlags_cases flags
  simp only [List.mem_cons, List.not_mem_nil, or_false] at hflags
  rcases hflags with hflags | hflags | hflags <;> rw [hflags] <;> decide

/-- The last check of run never fails. -/
theorem Filled.countWxPages (hfilled : Filled st file phdrs window pml4 st')
    (haccepted : Accepted file fileSize header phdrs)
    (hsize : fileSize < 2 ^ 64) : st'.countWxPages pml4 = 0 := by
  obtain ⟨st₂, label, himage, hplaces⟩ := hfilled.loaded haccepted hsize
  have hseparate : Separate st₂ pml4 := by
    intro path rights page hmaps
    obtain ⟨image, hmem, rfl⟩ := himage.only hmaps
    obtain ⟨frame, hown, _⟩ := himage.holds image hmem
    have hsame := hmaps.symm.trans hown
    simp only [Option.some.injEq, Prod.mk.injEq, and_true] at hsame
    obtain ⟨phdr, _, p, _, rfl⟩ := mem_fileImages.mp hmem
    rw [hsame.1]
    exact separate_segmentPageFlags phdr.flags
  obtain ⟨label', hspace, hseparate'⟩ := hplaces.separate himage.space
    userPage_stackPages hseparate fun image hmem => by
      obtain ⟨offset, _, _, rfl⟩ := mem_stackPages.mp hmem
      exact (by decide : ¬ ((flagRights stackFlags).2.1 = true ∧
        (flagRights stackFlags).2.2 = true))
  exact hspace.countWxPages_eq_zero hseparate'

section Together

variable {before : Paging.State} {label : Nat → Option Path}
  (haccepted : Accepted file fileSize header phdrs)
  (himage : Image before.pmm (fileImages file phdrs) st pml4 label)
  (hplaces : Places pml4 (stackPages window) st st')

include haccepted

theorem nodup_together (hclear : Clear phdrs) :
    ((fileImages file phdrs ++ stackPages window).map fun image =>
      vaPath image.virtAddr).Nodup := by
  rw [List.map_append, List.nodup_append']
  refine ⟨nodup_vaPath_fileImages haccepted.loadable haccepted.apart,
    nodup_stackPages, ?_⟩
  rw [List.disjoint_left]
  intro path hmem hmem'
  obtain ⟨image, himage, rfl⟩ := List.mem_map.mp hmem
  obtain ⟨image', himage', heq⟩ := List.mem_map.mp hmem'
  have hsame := (userPage_fileImages haccepted.loadable image himage).eq_of_vaPath
    (userPage_stackPages image' himage') heq.symm
  obtain ⟨phdr, hload, p, hp, rfl⟩ := mem_fileImages.mp himage
  obtain ⟨offset, _, hoffset, rfl⟩ := mem_stackPages.mp himage'
  obtain ⟨hphdr, htype⟩ := List.mem_filter.mp hload
  have hpage := onPage (haccepted.loadable phdr hload) hp
  have hfirst := hpage.first
  have hlast := hpage.last
  have hout := hclear phdr hphdr (by simpa using htype)
  simp only [pageImage, stackImage] at hsame
  simp only [stackGuardVirt, stackVirt, stackSize] at *
  omega

include himage hplaces

theorem intact_of_clear (hclear : Clear phdrs) :
    Intact before st' file phdrs window pml4 := by
  have huser : ∀ image ∈ fileImages file phdrs ++ stackPages window,
      UserPage image.virtAddr image.flags := by
    intro image hmem
    rcases List.mem_append.mp hmem with hmem | hmem
    · exact userPage_fileImages haccepted.loadable image hmem
    · exact userPage_stackPages image hmem
  obtain ⟨label', hwhole⟩ := himage.places hplaces userPage_stackPages
    (nodup_together haccepted hclear)
  refine ⟨fun phdr hphdr htype addr hfirst hlast => ?_, fun offset hoffset => ?_,
    fun addr hfirst hlast => ?_, fun frame hused => ?_⟩
  · have hload : phdr ∈ loads phdrs :=
      List.mem_filter.mpr ⟨hphdr, by simp [htype]⟩
    have hloadable := haccepted.loadable phdr hload
    have hstart := hloadable.pageStart_eq
    have hstop := hloadable.pageEnd_eq
    obtain ⟨hbyte, frame, htranslate⟩ := segment_visible haccepted.loadable
      (fun image hmem => hwhole.holds image (List.mem_append_left _ hmem))
      hwhole.space hload (show phdr.pageStart ≤ addr by omega)
      (show addr < phdr.pageEnd by omega)
    exact ⟨hbyte, _, htranslate, rfl, decide_eq_true_iff, by simp⟩
  · obtain ⟨hbyte, frame, htranslate⟩ := stack_visible
      (fun image hmem => hwhole.holds image (List.mem_append_right _ hmem))
      hwhole.space hoffset
    exact ⟨hbyte, _, htranslate, rfl, rfl⟩
  · refine hwhole.absent huser ?_ ?_ fun image hmem hwithin => ?_
    · simp only [stackGuardVirt] at hfirst
      omega
    · simp only [stackVirt] at hlast
      omega
    · have hwithin₁ := hwithin.first
      have hwithin₂ := hwithin.last
      rcases List.mem_append.mp hmem with hmem | hmem
      · obtain ⟨phdr, hload, p, hp, rfl⟩ := mem_fileImages.mp hmem
        obtain ⟨hphdr, htype⟩ := List.mem_filter.mp hload
        have hpage := onPage (haccepted.loadable phdr hload) hp
        have hfirst' := hpage.first
        have hlast' := hpage.last
        have hout := hclear phdr hphdr (by simpa using htype)
        simp only [pageImage] at hwithin₁ hwithin₂
        simp only [stackGuardVirt, stackVirt, stackSize] at *
        omega
      · obtain ⟨offset, _, _, rfl⟩ := mem_stackPages.mp hmem
        simp only [stackImage] at hwithin₁
        omega
  · exact (hwhole.taken frame hused).imp_right hwhole.space.referenced

/-- What a segment covers below the stack stays mapped. -/
theorem mapped_below {phdr : Phdr} (hload : phdr ∈ loads phdrs) {addr : Nat}
    (hfirst : phdr.pageStart ≤ addr) (hlast : addr < phdr.pageEnd)
    (hbelow : addr < stackVirt) : (translate st'.mem pml4 addr).isSome := by
  obtain ⟨p, hmem, hwithin⟩ : ∃ p, pageImage file phdr p ∈
      fileImages file phdrs ∧ Within (pageImage file phdr p).virtAddr addr :=
    within_fileImages haccepted.loadable hload hfirst hlast
  have huser := userPage_fileImages haccepted.loadable _ hmem
  obtain ⟨label', hspace, _, hkept⟩ := hplaces.shows himage.space
    userPage_stackPages nodup_stackPages
  have hshows := hkept _ (himage.holds _ hmem) fun image hstack heq => by
    have hsame := huser.eq_of_vaPath (userPage_stackPages image hstack) heq
    obtain ⟨offset, _, _, rfl⟩ := mem_stackPages.mp hstack
    have hwithin₁ := hwithin.first
    simp only [stackImage] at hsame
    omega
  obtain ⟨frame, htranslate, _⟩ := hshows.visible hspace huser hwithin
  rw [htranslate]
  rfl

/-- The frame that a segment has under a page of the stack is lost. -/
theorem frame_lost {phdr : Phdr} (hload : phdr ∈ loads phdrs)
    (hfirst : phdr.pageStart ≤ stackVirt + offset)
    (hlast : stackVirt + offset < phdr.pageEnd) (hoffset : offset < stackSize) :
    ∃ frame, st'.pmm.used frame = true ∧ before.pmm.used frame = false ∧
      ¬ Referenced st' pml4 (frame * 4096) := by
  obtain ⟨p, hmem, hwithin⟩ : ∃ p, pageImage file phdr p ∈
      fileImages file phdrs ∧
        Within (pageImage file phdr p).virtAddr (stackVirt + offset) :=
    within_fileImages haccepted.loadable hload hfirst hlast
  have huser := userPage_fileImages haccepted.loadable _ hmem
  obtain ⟨frame, hmaps, _⟩ := himage.holds _ hmem
  obtain ⟨label', hspace, hpinned⟩ := hplaces.pinned himage.space
    userPage_stackPages (himage.pinned hmaps)
  have hreserved := (himage.space.owned hmaps).1
  have hframe : frame / 4096 * 4096 = frame :=
    Nat.div_mul_cancel (Nat.dvd_of_mod_eq_zero hreserved.aligned)
  refine ⟨frame / 4096, hpinned.used, himage.fresh _ ?_, ?_⟩
  · rw [hframe]
    exact .inr ⟨_, _, hmaps, List.nil_prefix⟩
  · rw [hframe]
    refine hpinned.not_referenced hspace ?_
    rintro path ⟨rfl, hnot⟩
    have haligned := huser.aligned
    have hwithin₁ := hwithin.first
    have hwithin₂ := hwithin.last
    have hle : stackVirt ≤ (pageImage file phdr p).virtAddr := by
      simp only [stackVirt] at *
      omega
    refine hnot (stackImage window
      ((pageImage file phdr p).virtAddr - stackVirt))
      (mem_stackPages.mpr ⟨_, ?_, by omega, rfl⟩) ?_
    · simp only [stackVirt] at *
      omega
    · simp only [stackImage]
      rw [Nat.add_sub_cancel' hle]

/-- A segment on the guard page makes it a page, and under a page of the stack
its frame is lost. -/
theorem clear_of_intact (hintact : Intact before st' file phdrs window pml4) :
    Clear phdrs := by
  intro phdr hphdr htype
  by_contra hover
  rw [not_or, Nat.not_le, Nat.not_le] at hover
  have hload : phdr ∈ loads phdrs :=
    List.mem_filter.mpr ⟨hphdr, by simp [htype]⟩
  have hfirst := le_max_left phdr.pageStart stackGuardVirt
  have hguard := le_max_right phdr.pageStart stackGuardVirt
  have hlast := max_lt (haccepted.loadable phdr hload).nonempty hover.1
  have htop : max phdr.pageStart stackGuardVirt < stackVirt + stackSize :=
    max_lt hover.2 (by decide)
  generalize max phdr.pageStart stackGuardVirt = addr at hfirst hguard hlast htop
  by_cases hbelow : addr < stackVirt
  · have hmapped := mapped_below haccepted himage hplaces hload hfirst hlast
      hbelow
    rw [hintact.guard addr hguard hbelow] at hmapped
    cases hmapped
  · obtain ⟨offset, rfl⟩ := Nat.exists_eq_add_of_le (Nat.le_of_not_lt hbelow)
    obtain ⟨frame, hused, hfresh, hlost⟩ := frame_lost haccepted himage hplaces
      hload hfirst hlast (by omega)
    rcases hintact.frames frame hused with hold | href
    · rw [hfresh] at hold
      cases hold
    · exact hlost href

end Together

/-- What a started process finds is in order exactly when no segment of its
file reaches into the guard page or the stack. -/
theorem run_intact_iff {kernel kernel' : Kernel} {call : Call} {stack : Nat}
    {bytes : List UInt8} {header : Ehdr} {phdrs : List Phdr}
    (hread : (FileSystem.read kernel.files (fileName call.filename)
      maxElfSize).1 = .complete bytes)
    (hvalid : validate (store kernel.fileBuffer 0 bytes) bytes.length =
      .ok (header, phdrs))
    (hrun : kernel.run call stack = (kernel', none)) :
    ∃ slot window sp, kernel.tasks.findFreeSlot = some slot ∧
      buildInitialStack kernel.stackWindow stackSize call.arguments.1
        call.arguments.2 call.envc call.envp = some (window, sp) ∧
      (Intact kernel.paging kernel'.paging (store kernel.fileBuffer 0 bytes)
          phdrs window (kernel'.tasks.tasks slot).cr3 ↔ Clear phdrs) := by
  obtain ⟨bytes', header', phdrs', slot, hstarted⟩ := started_of_run hrun
  obtain ⟨sp, hbuilt⟩ := hstarted.built
  have hbytes := hstarted.read
  rw [hread] at hbytes
  cases hbytes
  have hsame := hstarted.valid
  rw [hstarted.buffer, hvalid] at hsame
  cases hsame
  have hfilled := hstarted.filled
  rw [hstarted.buffer] at hfilled
  have haccepted := accepted_of_validate hvalid
  have hsize : bytes.length < 2 ^ 64 :=
    (FileSystem.read_length_le hread).trans_lt (by decide)
  obtain ⟨st₂, label, himage, hplaces⟩ := hfilled.loaded haccepted hsize
  exact ⟨slot, kernel'.stackWindow, sp, hstarted.free, hbuilt,
    clear_of_intact haccepted himage hplaces,
    intact_of_clear haccepted himage hplaces⟩

/-- The steps of a run that succeeds. -/
theorem run_eq_none {bytes : List UInt8} {sp : Nat} {st₁ : Paging.State}
    (hexists : FileSystem.fileExists kernel.files (fileName call.filename) =
      true)
    (hmin : 0 < FileSystem.fileSize kernel.files (fileName call.filename))
    (hmax : (FileSystem.fileSize kernel.files (fileName call.filename)).toNat ≤
      maxElfSize)
    (hread : (FileSystem.read kernel.files (fileName call.filename)
      maxElfSize).1 = .complete bytes) (hbytes : bytes.isEmpty = false)
    (hfile : store kernel.fileBuffer 0 bytes = file)
    (hvalid : validate file bytes.length = .ok (header, phdrs))
    (hst₁ : kernel.paging.createAddressSpace = (st₁, pml4)) (hpml4 : pml4 ≠ 0)
    (hload : (loadSegments file pml4 phdrs st₁).value.2 = none)
    (hbuild : buildInitialStack kernel.stackWindow stackSize call.arguments.1
      call.arguments.2 call.envc call.envp = some (window, sp))
    (hmap : (mapStack window pml4 (stackSize / 4096) 0
      (loadSegments file pml4 phdrs st₁).value.1).2 = true)
    (hslot : kernel.tasks.findFreeSlot.isSome = true) (hstack : stack ≠ 0) :
    ∃ kernel', kernel.run call stack = (kernel', none) ∧
      kernel'.stackWindow = window ∧
      kernel'.files = (FileSystem.read kernel.files (fileName call.filename)
        maxElfSize).2 ∧
      kernel'.fileBuffer = file ∧
      kernel'.paging = (mapStack window pml4 (stackSize / 4096) 0
        (loadSegments file pml4 phdrs st₁).value.1).1 ∧
      kernel'.tasks = (kernel.tasks.createProcess (.code kernel.processEntry)
        call.filename.text stack pml4 header.entry sp).1 := by
  subst hfile
  obtain ⟨files, hresult⟩ : ∃ files, FileSystem.read kernel.files
      (fileName call.filename) maxElfSize = (.complete bytes, files) :=
    ⟨_, Prod.ext hread rfl⟩
  obtain ⟨st₂, hst₂⟩ : ∃ st₂, (loadSegments (store kernel.fileBuffer 0 bytes)
      pml4 phdrs st₁).value = (st₂, none) := ⟨_, Prod.ext rfl hload⟩
  rw [hst₂] at hmap ⊢
  obtain ⟨st₃, hst₃⟩ : ∃ st₃, mapStack window pml4 (stackSize / 4096) 0 st₂ =
      (st₃, true) := ⟨_, Prod.ext rfl hmap⟩
  have hfilled : Filled kernel.paging (store kernel.fileBuffer 0 bytes) phdrs
      window pml4 st₃ := ⟨st₁, st₂, hst₁, hpml4, hst₂, hst₃⟩
  have hwx := hfilled.countWxPages (accepted_of_validate hvalid)
    ((FileSystem.read_length_le hread).trans_lt (by decide))
  obtain ⟨slot, hslot⟩ := Option.isSome_iff_exists.mp hslot
  obtain ⟨tasks, hcreated⟩ : ∃ tasks, kernel.tasks.createProcess
      (.code kernel.processEntry) call.filename.text stack pml4 header.entry
      sp = (tasks, some slot) := by
    simp [Tasks.Machine.createProcess, Tasks.Machine.initCommonSlot, hslot,
      hstack]
  have hpositive : ¬ FileSystem.fileSize kernel.files
      (fileName call.filename) ≤ 0 := Int.not_le.mpr hmin
  have hsmall : ¬ (FileSystem.fileSize kernel.files
      (fileName call.filename)).toNat > maxElfSize := Nat.not_lt.mpr hmax
  refine ⟨{ kernel with
    files := files
    fileBuffer := store kernel.fileBuffer 0 bytes
    paging := st₃
    tasks := tasks
    stackWindow := window }, ?_, rfl, congrArg Prod.snd hresult.symm, rfl,
    congrArg Prod.fst hst₃.symm, congrArg Prod.fst hcreated.symm⟩
  simp only [Kernel.run, Kernel.start, Kernel.addStack, Kernel.enroll, hexists,
    hpositive, hsmall, hresult, readBytes, readOk, hbytes, hvalid, hst₁, hpml4,
    hst₂, hbuild, hst₃, hwx, hcreated, Bool.not_true, Bool.or_self,
    Bool.false_eq_true, ne_eq, not_true, if_false]

/-- A file with one segment, on the guard page and on the page behind it. -/
def guardBytes : List UInt8 :=
  [ 0x7F, 0x45, 0x4C, 0x46, 2, 1, 1, 0, 0, 0, 0, 0, 0, 0, 0, 0, 2, 0, 0x3E, 0,
    1, 0, 0, 0, 0x78, 0xE0, 0xFF, 0x7F, 0, 0, 0, 0, 0x40, 0, 0, 0, 0, 0, 0, 0,
    0, 0, 0, 0, 0, 0, 0, 0, 0, 0, 0, 0, 0x40, 0, 0x38, 0, 1, 0, 0, 0, 0, 0, 0,
    0, 1, 0, 0, 0, 5, 0, 0, 0, 0, 0, 0, 0, 0, 0, 0, 0, 0, 0xE0, 0xFF, 0x7F, 0,
    0, 0, 0, 0, 0xE0, 0xFF, 0x7F, 0, 0, 0, 0, 0x7C, 0, 0, 0, 0, 0, 0, 0, 0x88,
    0x13, 0, 0, 0, 0, 0, 0, 0, 0x10, 0, 0, 0, 0, 0, 0, 0xEB, 0xFE, 0x90, 0x90]

/-- The only file of a drive, in its first block. -/
def sampleEntry (size : Nat) : FileSystem.FileEntry :=
  { FileSystem.FileEntry.zero with
    name := fun i => if i.val = 0 then 0x61 else 0
    sizeBytes := UInt32.ofNat size
    extentCount := 1
    used := 1
    extents := fun i => if i.val = 0 then ⟨274, 1⟩ else ⟨0, 0⟩ }

def sampleFiles (bytes : List UInt8) : FileSystem.State where
  table i :=
    if i.val = 0 then sampleEntry bytes.length else FileSystem.FileEntry.zero
  bitmap b := b = 0
  dev := ⟨store (fun _ => 0) (274 * 512) bytes, [], fun _ => none, 0⟩

def sampleKernel (bytes : List UInt8) (window : Memory) : Kernel where
  files := sampleFiles bytes
  paging := bootState
  tasks := Tasks.Machine.boot
  fileBuffer _ := 0
  stackWindow := window
  processEntry := 0x100000

def sampleName : CString := ⟨[0x61], by decide⟩

/-- No arguments, so that the program gets its name. -/
def plainCall : Call := ⟨sampleName, 0, none, 0, none⟩

/-- What is in the window after a call. -/
def windowAfter (window : Memory) (call : Call) : Memory :=
  ((buildInitialStack window stackSize call.arguments.1 call.arguments.2
    call.envc call.envp).getD (window, 0)).1

def guardPhdr : Phdr := ⟨1, 5, 0, 0x7FFFE000, 124, 5000, 4096⟩

def jumpPhdr : Phdr := ⟨1, 5, 0, 0x40000000, 124, 5000, 4096⟩

/-- The file buffer with a file in it. -/
def sampleBuffer (bytes : List UInt8) : Memory := store (fun _ => 0) 0 bytes

/-- A drive with a file that may be run. -/
def Runnable (files : FileSystem.State) : Prop :=
  FileSystem.fileExists files (fileName sampleName) = true ∧
    0 < FileSystem.fileSize files (fileName sampleName) ∧
    (FileSystem.fileSize files (fileName sampleName)).toNat ≤ maxElfSize

instance (files : FileSystem.State) : Decidable (Runnable files) :=
  inferInstanceAs (Decidable (_ ∧ _))

theorem runnable_guard : Runnable (sampleFiles guardBytes) := by
  decide +kernel

theorem runnable_jump : Runnable (sampleFiles jumpBytes) := by
  decide +kernel

theorem read_guard : (FileSystem.read (sampleFiles guardBytes)
    (fileName sampleName) maxElfSize).1 = .complete guardBytes := by
  decide +kernel

theorem read_jump : (FileSystem.read (sampleFiles jumpBytes)
    (fileName sampleName) maxElfSize).1 = .complete jumpBytes := by
  decide +kernel

theorem validate_guard : validate (sampleBuffer guardBytes) 124 =
    .ok (readEhdr (sampleBuffer guardBytes), [guardPhdr]) := by
  decide +kernel

theorem validate_jump : validate (sampleBuffer jumpBytes) 124 =
    .ok (readEhdr (sampleBuffer jumpBytes), [jumpPhdr]) := by
  decide +kernel

theorem create_eq {st : Paging.State} {root : Nat}
    (hroot : st.createAddressSpace.2 = root) :
    st.createAddressSpace = (st.createAddressSpace.1, root) :=
  Prod.ext rfl hroot

theorem create_sample : bootState.createAddressSpace =
    (bootState.createAddressSpace.1, 0x4000) :=
  create_eq (by decide +kernel)

/-- A call that names the file succeeds if its arguments fit. -/
theorem run_jump {window : Memory} {call : Call}
    (hname : call.filename = sampleName)
    (hbuild : (buildInitialStack window stackSize call.arguments.1
      call.arguments.2 call.envc call.envp).isSome = true)
    (hmap : (mapStack (windowAfter window call) 0x4000 (stackSize / 4096) 0
      (loadSegments (sampleBuffer jumpBytes) 0x4000 [jumpPhdr]
        bootState.createAddressSpace.1).value.1).2 = true) :
    ∃ sp kernel', (sampleKernel jumpBytes window).run call 0x9000 =
        (kernel', none) ∧
      kernel'.stackWindow = windowAfter window call ∧
      kernel'.files = (FileSystem.read (sampleFiles jumpBytes)
        (fileName sampleName) maxElfSize).2 ∧
      kernel'.fileBuffer = sampleBuffer jumpBytes ∧
      kernel'.paging = (mapStack (windowAfter window call) 0x4000
        (stackSize / 4096) 0 (loadSegments (sampleBuffer jumpBytes) 0x4000
          [jumpPhdr] bootState.createAddressSpace.1).value.1).1 ∧
      kernel'.tasks = (Tasks.Machine.boot.createProcess (.code 0x100000)
        sampleName.text 0x9000 0x4000 (readEhdr (sampleBuffer jumpBytes)).entry
        sp).1 := by
  obtain ⟨⟨built, sp⟩, hbuilt⟩ := Option.isSome_iff_exists.mp hbuild
  have hafter : windowAfter window call = built := by
    rw [windowAfter, hbuilt]
    rfl
  rw [hafter] at hmap ⊢
  rw [← hname]
  refine ⟨sp, run_eq_none ?_ ?_ ?_ ?_ rfl
    (show _ = sampleBuffer jumpBytes from rfl) validate_jump create_sample
    (by decide) (by decide +kernel) hbuilt hmap rfl (by decide)⟩
  · rw [hname]
    exact runnable_jump.1
  · rw [hname]
    exact runnable_jump.2.1
  · rw [hname]
    exact runnable_jump.2.2
  · rw [hname]
    exact read_jump

theorem run_guard : ∃ kernel',
    (sampleKernel guardBytes fun _ => 0).run plainCall 0x9000 =
      (kernel', none) := by
  obtain ⟨⟨built, sp⟩, hbuilt⟩ := Option.isSome_iff_exists.mp
    (show (buildInitialStack (fun _ => 0) stackSize plainCall.arguments.1
      plainCall.arguments.2 plainCall.envc plainCall.envp).isSome = true by
      decide +kernel)
  have hafter : windowAfter (fun _ => 0) plainCall = built := by
    rw [windowAfter, hbuilt]
    rfl
  have hmap : (mapStack (windowAfter (fun _ => 0) plainCall) 0x4000
      (stackSize / 4096) 0 (loadSegments (sampleBuffer guardBytes) 0x4000
        [guardPhdr] bootState.createAddressSpace.1).value.1).2 = true := by
    decide +kernel
  rw [hafter] at hmap
  obtain ⟨kernel', hrun, _⟩ :=
    @run_eq_none (sampleKernel guardBytes fun _ => 0) plainCall 0x9000 built _
      _ _ _ _ sp _ runnable_guard.1 runnable_guard.2.1 runnable_guard.2.2
      read_guard rfl
      (show _ = sampleBuffer guardBytes from rfl) validate_guard create_sample
      (by decide) (by decide +kernel) hbuilt hmap rfl (by decide)
  exact ⟨kernel', hrun⟩

theorem run_intact_jump : ∃ kernel' slot window,
    (sampleKernel jumpBytes fun _ => 0).run plainCall 0x9000 =
      (kernel', none) ∧
    Intact bootState kernel'.paging (sampleBuffer jumpBytes) [jumpPhdr] window
      (kernel'.tasks.tasks slot).cr3 := by
  obtain ⟨_, kernel', hrun, _⟩ := @run_jump (fun _ => 0) plainCall rfl
    (by decide +kernel) (by decide +kernel)
  have hvalid : validate (store (sampleKernel jumpBytes fun _ => 0).fileBuffer 0
      jumpBytes) jumpBytes.length =
        .ok (readEhdr (sampleBuffer jumpBytes), [jumpPhdr]) := validate_jump
  obtain ⟨slot, window, _, _, _, hintact⟩ :=
    @run_intact_iff (sampleKernel jumpBytes fun _ => 0) kernel' plainCall 0x9000
      jumpBytes _ _ read_jump hvalid hrun
  refine ⟨kernel', slot, window, hrun, hintact.mpr ?_⟩
  intro phdr hphdr _
  obtain rfl := List.mem_singleton.mp hphdr
  exact .inl (by decide)

/-- The guard page of this program is no guard, and the frame of its second
page is lost. -/
theorem run_guard_broken : ∃ kernel' slot,
    (sampleKernel guardBytes fun _ => 0).run plainCall 0x9000 =
      (kernel', none) ∧
    Tasks.Machine.boot.findFreeSlot = some slot ∧
    (translate kernel'.paging.mem (kernel'.tasks.tasks slot).cr3
      stackGuardVirt).isSome ∧
    (∃ frame, kernel'.paging.pmm.used frame = true ∧
      bootState.pmm.used frame = false ∧
      ¬ Referenced kernel'.paging (kernel'.tasks.tasks slot).cr3
        (frame * 4096)) ∧
    ∀ window, ¬ Intact bootState kernel'.paging (sampleBuffer guardBytes)
      [guardPhdr] window (kernel'.tasks.tasks slot).cr3 := by
  obtain ⟨kernel', hrun⟩ := run_guard
  obtain ⟨bytes, header, phdrs, slot, hstarted⟩ := started_of_run hrun
  have hbytes := hstarted.read
  rw [show (sampleKernel guardBytes fun _ => 0).files = sampleFiles guardBytes
    from rfl, show plainCall.filename = sampleName from rfl, read_guard]
    at hbytes
  cases hbytes
  have hbuffer : kernel'.fileBuffer = sampleBuffer guardBytes :=
    hstarted.buffer
  have hvalid := hstarted.valid
  rw [hbuffer, show guardBytes.length = 124 from rfl, validate_guard] at hvalid
  cases hvalid
  have haccepted := accepted_of_validate validate_guard
  have hfilled := hstarted.filled
  rw [hbuffer] at hfilled
  obtain ⟨st₂, label, himage, hplaces⟩ := hfilled.loaded haccepted (by decide)
  have hload : guardPhdr ∈ loads [guardPhdr] := by decide
  refine ⟨kernel', slot, hrun, hstarted.free, ?_, ?_, fun window hintact => ?_⟩
  · exact mapped_below haccepted himage hplaces hload (by decide) (by decide)
      (by decide)
  · exact @frame_lost _ _ _ _ _ 0 _ _ _ _ _ haccepted himage hplaces _ hload
      (by decide) (by decide) (by decide)
  · have hmapped := mapped_below haccepted himage hplaces hload
      (show guardPhdr.pageStart ≤ stackGuardVirt by decide) (by decide)
      (by decide)
    rw [hintact.guard stackGuardVirt le_rfl (by decide)] at hmapped
    cases hmapped

end Process

end VenomOS
