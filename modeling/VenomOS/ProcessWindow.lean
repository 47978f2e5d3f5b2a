/-
What one process can find of another one's arguments.  The window in which run
lays out a stack is static, and only its upper end is written for each process,
but all of it is copied to the stack.
-/
import VenomOS.ProcessRun

namespace VenomOS

namespace Process

open ByteMemory RadixTable Paging Elf

/-- Two layouts that are the same at an offset and write at the same places. -/
structure Alike (offset : Nat) (first second : Layout) : Prop where
  byte : first.window offset = second.window offset
  strCursor : first.strCursor = second.strCursor
  wordCursor : first.wordCursor = second.wordCursor

variable {offset : Nat} {first second : Layout}

variable {window : Memory} {bytes : List UInt8} {header : Ehdr}
  {phdrs : List Phdr}

theorem store_congr {mem mem' : Memory} {addr : Nat}
    (hbyte : mem offset = mem' offset) :
    store mem addr bytes offset = store mem' addr bytes offset := by
  rw [store, store, hbyte]

section

variable (halike : Alike offset first second)

include halike

theorem Alike.store (addr : Nat) (bytes : List UInt8)
    (strCursor wordCursor : Nat) :
    Alike offset ⟨store first.window addr bytes, strCursor, wordCursor⟩
      ⟨store second.window addr bytes, strCursor, wordCursor⟩ :=
  ⟨store_congr halike.byte, rfl, rfl⟩

theorem Alike.putWord (value : Nat) :
    Alike offset (putWord first value) (putWord second value) := by
  rw [Process.putWord, Process.putWord, halike.strCursor, halike.wordCursor]
  exact halike.store _ _ _ _

theorem Alike.putString (string : CString) :
    Alike offset (putString first string).1 (putString second string).1 := by
  rw [Process.putString, Process.putString, halike.strCursor,
    halike.wordCursor]
  exact halike.store _ _ _ _

theorem Alike.putStrings (array : PointerArray) (left i : Nat) :
    Alike offset (putStrings array left i first)
      (putStrings array left i second) := by
  induction left generalizing i first second with
  | zero => exact halike
  | succ left ih =>
      rw [Process.putStrings, Process.putStrings]
      cases entryOf array i with
      | none => exact halike
      | some string =>
          have hat : (Process.putString first string).2 =
              (Process.putString second string).2 := by
            rw [Process.putString, Process.putString, halike.strCursor]
          dsimp only
          rw [hat]
          exact ih ((halike.putString string).putWord _) (i + 1)

end

/-- From the stack pointer up nothing is left of the old window. -/
theorem fillStack_congr {argc envc base sp : Nat} {argv envp : PointerArray}
    (hsp : sp ≤ stackVirt + offset) (hoffset : offset < stackSize)
    (window window' : Memory) :
    fillStack window argc envc argv envp base sp offset =
      fillStack window' argc envc argv envp base sp offset := by
  have hzeros : store window (sp - stackVirt)
        (List.replicate (stackVirt + stackSize - sp) 0) offset =
      store window' (sp - stackVirt)
        (List.replicate (stackVirt + stackSize - sp) 0) offset := by
    rw [store_zeros, store_zeros, if_pos (by omega), if_pos (by omega)]
  unfold fillStack
  generalize store window (sp - stackVirt)
    (List.replicate (stackVirt + stackSize - sp) 0) = cleared at hzeros ⊢
  generalize store window' (sp - stackVirt)
    (List.replicate (stackVirt + stackSize - sp) 0) = cleared' at hzeros ⊢
  have hstart : Alike offset ⟨cleared, base, sp⟩ ⟨cleared', base, sp⟩ :=
    ⟨hzeros, rfl, rfl⟩
  have hargs := (hstart.putWord argc).putStrings argv argc 0
  have henvs := (hargs.putWord 0).putStrings envp envc 0
  exact (((henvs.putWord 0).putWord 0).putWord 0).byte

section Window

variable {argc envc : Int} {argv envp : PointerArray}
  {args envs : List CString} {window : Memory}

section

variable (hfits : Fits argc argv envc envp args envs)

include hfits

/-- What a call leaves in the window. -/
theorem Fits.window_eq {window' : Memory} {sp : Nat}
    (hbuild : buildInitialStack window stackSize argc argv envc envp =
      some (window', sp)) :
    window' = fillStack window args.length envs.length argv envp
      (stackVirt + stackSize - stringBytes (args ++ envs))
      (stackPointer args envs) := by
  rw [hfits.buildInitialStack_eq] at hbuild
  obtain ⟨rfl, _⟩ := Prod.mk.inj (Option.some.inj hbuild)
  rfl

theorem Fits.kept (window : Memory)
    (hbelow : stackVirt + offset < stackPointer args envs) :
    fillStack window args.length envs.length argv envp
      (stackVirt + stackSize - stringBytes (args ++ envs))
      (stackPointer args envs) offset = window offset :=
  (fillStack_decodes window hfits.argsAt.from_zero hfits.envsAt.from_zero
    hfits.small).kept offset (.inl hbelow)

/-- The stack pointer stays close to the top. -/
theorem Fits.pointer_gt :
    stackVirt + stackSize - maxArgBytes < stackPointer args envs := by
  have hsmall := hfits.small
  rw [stackPointer_eq]
  simp only [stackVirt, stackSize, maxArgBytes] at *
  omega

/-- Two windows after the same call are the same exactly when they were so
below the stack pointer. -/
theorem Fits.same_iff (window window' : Memory) :
    (∀ offset < stackSize,
      fillStack window args.length envs.length argv envp
        (stackVirt + stackSize - stringBytes (args ++ envs))
        (stackPointer args envs) offset =
      fillStack window' args.length envs.length argv envp
        (stackVirt + stackSize - stringBytes (args ++ envs))
        (stackPointer args envs) offset) ↔
    ∀ offset < stackSize, stackVirt + offset < stackPointer args envs →
      window offset = window' offset := by
  refine ⟨fun hsame offset hoffset hbelow => ?_,
    fun hsame offset hoffset => ?_⟩
  · rw [← hfits.kept window hbelow, ← hfits.kept window' hbelow]
    exact hsame offset hoffset
  · by_cases hbelow : stackVirt + offset < stackPointer args envs
    · rw [hfits.kept window hbelow, hfits.kept window' hbelow]
      exact hsame offset hoffset hbelow
    · exact fillStack_congr (Nat.le_of_not_lt hbelow) hoffset window window'

end

end Window

variable {kernel kernel' : Kernel} {call : Call} {stack : Nat}

theorem enroll_window {pml4 sp : Nat} :
    (kernel.enroll call stack header pml4 sp).1.stackWindow =
      kernel.stackWindow := by
  unfold Kernel.enroll
  split
  · rfl
  · split <;> rfl

/-- The window after a call is the old one or what the builder made of it. -/
def Rewritten (call : Call) (window window' : Memory) : Prop :=
  window' = window ∨ ∃ sp, buildInitialStack window stackSize call.arguments.1
    call.arguments.2 call.envc call.envp = some (window', sp)

theorem addStack_window {pml4 : Nat} (hwindow : kernel.stackWindow = window) :
    Rewritten call window
      (kernel.addStack call stack header pml4).1.stackWindow := by
  subst hwindow
  unfold Kernel.addStack
  dsimp only
  split
  · exact .inl rfl
  · rename_i window sp hbuild
    split
    · exact .inr ⟨sp, hbuild⟩
    · rw [enroll_window]
      exact .inr ⟨sp, hbuild⟩

theorem start_window (hwindow : kernel.stackWindow = window) :
    Rewritten call window
      (kernel.start call stack header phdrs).1.stackWindow := by
  subst hwindow
  unfold Kernel.start
  dsimp only
  split
  · exact .inl rfl
  · split
    · exact .inl rfl
    · exact addStack_window rfl

theorem run_window : Rewritten call kernel.stackWindow
    (kernel.run call stack).1.stackWindow := by
  unfold Kernel.run
  dsimp only
  split
  · exact .inl rfl
  split
  · exact .inl rfl
  split
  · exact .inl rfl
  split
  · exact .inl rfl
  split
  · exact .inl rfl
  · exact start_window rfl

/-- What has become of a kernel that started with an empty window.  Between
calls of run anything may happen, but nothing else knows the window. -/
inductive Reached : Kernel → Prop
  | boot {kernel : Kernel}
      (hwindow : ∀ offset < stackSize, kernel.stackWindow offset = 0) :
      Reached kernel
  | run {kernel : Kernel} (hreached : Reached kernel) (call : Call)
      (stack : Nat) : Reached (kernel.run call stack).1
  | other {kernel kernel' : Kernel} (hreached : Reached kernel)
      (hwindow : kernel'.stackWindow = kernel.stackWindow) : Reached kernel'

/-- Only the upper end of the window is ever written. -/
theorem Reached.low (hreached : Reached kernel)
    (hoffset : offset < stackSize - maxArgBytes) :
    kernel.stackWindow offset = 0 := by
  induction hreached with
  | boot hwindow => exact hwindow offset (by omega)
  | @run kernel _ call stack ih =>
      rcases @run_window kernel call stack with hsame | ⟨sp, hbuild⟩
      · rw [hsame]
        exact ih
      · obtain ⟨args, envs, hfits⟩ := fits_of_buildInitialStack hbuild
        have hpointer := hfits.pointer_gt
        rw [hfits.window_eq hbuild, hfits.kept _ (by
          simp only [stackVirt, stackSize, maxArgBytes] at *
          omega)]
        exact ih
  | other _ hwindow ih =>
      rw [hwindow]
      exact ih

/-- A new process finds the whole window on its stack. -/
theorem Started.stack_byte {slot : Tasks.Slot}
    (hstarted : Started kernel call kernel' bytes header phdrs slot)
    (hoffset : offset < stackSize) :
    byteAt kernel'.paging (kernel'.tasks.tasks slot).cr3 (stackVirt + offset) =
      some (kernel'.stackWindow offset) := by
  have hsize : bytes.length < 2 ^ 64 :=
    (FileSystem.read_length_le hstarted.read).trans_lt (by decide)
  obtain ⟨st₂, label, himage, hplaces⟩ := hstarted.filled.loaded
    (accepted_of_validate hstarted.valid) hsize
  obtain ⟨label', hspace, hshows, _⟩ := hplaces.shows himage.space
    userPage_stackPages nodup_stackPages
  exact (stack_visible hshows hspace hoffset).1

/-- Two processes that are started by the same call after different histories
find the same on their stacks exactly when the histories left the same in the
window, below the stack pointer of the call. -/
theorem run_stack_same_iff {kernel₁ kernel₂ kernel₁' kernel₂' : Kernel}
    {call : Call} {stack₁ stack₂ : Nat}
    (hreached₁ : Reached kernel₁) (hreached₂ : Reached kernel₂)
    (hrun₁ : kernel₁.run call stack₁ = (kernel₁', none))
    (hrun₂ : kernel₂.run call stack₂ = (kernel₂', none)) :
    ∃ slot₁ slot₂ args envs,
      kernel₁.tasks.findFreeSlot = some slot₁ ∧
      kernel₂.tasks.findFreeSlot = some slot₂ ∧
      Fits call.arguments.1 call.arguments.2 call.envc call.envp args envs ∧
      ((∀ offset < stackSize,
          byteAt kernel₁'.paging (kernel₁'.tasks.tasks slot₁).cr3
            (stackVirt + offset) =
          byteAt kernel₂'.paging (kernel₂'.tasks.tasks slot₂).cr3
            (stackVirt + offset)) ↔
        ∀ offset, stackSize - maxArgBytes ≤ offset →
          stackVirt + offset < stackPointer args envs →
          kernel₁.stackWindow offset = kernel₂.stackWindow offset) := by
  obtain ⟨_, _, _, slot₁, hstarted₁⟩ := started_of_run hrun₁
  obtain ⟨_, _, _, slot₂, hstarted₂⟩ := started_of_run hrun₂
  obtain ⟨sp₁, hbuilt₁⟩ := hstarted₁.built
  obtain ⟨sp₂, hbuilt₂⟩ := hstarted₂.built
  obtain ⟨args, envs, hfits⟩ := fits_of_buildInitialStack hbuilt₁
  refine ⟨slot₁, slot₂, args, envs, hstarted₁.free, hstarted₂.free, hfits, ?_⟩
  have hbytes : (∀ offset < stackSize,
      byteAt kernel₁'.paging (kernel₁'.tasks.tasks slot₁).cr3
        (stackVirt + offset) =
      byteAt kernel₂'.paging (kernel₂'.tasks.tasks slot₂).cr3
        (stackVirt + offset)) ↔ ∀ offset < stackSize,
      kernel₁'.stackWindow offset = kernel₂'.stackWindow offset := by
    refine forall₂_congr fun offset hoffset => ?_
    rw [hstarted₁.stack_byte hoffset, hstarted₂.stack_byte hoffset, Option.some.injEq]
  rw [hbytes, hfits.window_eq hbuilt₁, hfits.window_eq hbuilt₂,
    hfits.same_iff]
  have htop := (stackPointer_bounds hfits.small).2.2
  refine ⟨fun hsame offset _ hbelow => hsame offset (by omega) hbelow,
    fun hsame offset _ hbelow => ?_⟩
  by_cases hlow : offset < stackSize - maxArgBytes
  · rw [hreached₁.low hlow, hreached₂.low hlow]
  · exact hsame offset (Nat.le_of_not_lt hlow) hbelow

theorem reached_sample : Reached (sampleKernel jumpBytes fun _ => 0) :=
  .boot fun _ _ => rfl

theorem run_plain : ∃ kernel',
    (sampleKernel jumpBytes fun _ => 0).run plainCall 0x9000 =
      (kernel', none) ∧
    kernel'.stackWindow = windowAfter (fun _ => 0) plainCall := by
  obtain ⟨_, kernel', hrun, hwindow, _⟩ := @run_jump (fun _ => 0) plainCall rfl
    (by decide +kernel) (by decide +kernel)
  exact ⟨kernel', hrun, hwindow⟩

theorem run_plain_again : ∃ kernel',
    (sampleKernel jumpBytes (windowAfter (fun _ => 0) plainCall)).run plainCall
      0x9000 = (kernel', none) := by
  obtain ⟨_, kernel', hrun, _⟩ :=
    @run_jump (windowAfter (fun _ => 0) plainCall) plainCall rfl
      (by decide +kernel) (by decide +kernel)
  exact ⟨kernel', hrun⟩

theorem sampleKernel_window :
    (sampleKernel bytes window).stackWindow = window := rfl

theorem Fits.windowAfter_eq {args envs : List CString}
    (hfits : Fits call.arguments.1 call.arguments.2 call.envc call.envp args
      envs) (window : Memory)
    (hbelow : stackVirt + offset < stackPointer args envs) :
    windowAfter window call offset = window offset := by
  rw [windowAfter, hfits.buildInitialStack_eq, Option.getD_some]
  dsimp only
  rw [hfits.kept window hbelow]

theorem Reached.sample (hreached : Reached kernel)
    (hwindow : kernel.stackWindow = window) :
    Reached (sampleKernel jumpBytes window) :=
  hreached.other hwindow.symm

/-- A program whose only predecessor had the same arguments finds what the
first one found. -/
theorem run_plain_same : ∃ kernel₁ kernel₂ slot₁ slot₂,
    (sampleKernel jumpBytes fun _ => 0).run plainCall 0x9000 =
      (kernel₁, none) ∧
    (sampleKernel jumpBytes (windowAfter (fun _ => 0) plainCall)).run plainCall
      0x9000 = (kernel₂, none) ∧
    ∀ offset < stackSize,
      byteAt kernel₁.paging (kernel₁.tasks.tasks slot₁).cr3
        (stackVirt + offset) =
      byteAt kernel₂.paging (kernel₂.tasks.tasks slot₂).cr3
        (stackVirt + offset) := by
  obtain ⟨kernel₁, hrun₁, hwindow⟩ := run_plain
  obtain ⟨kernel₂, hrun₂⟩ := run_plain_again
  have hreached : Reached kernel₁ := by
    have hnext := reached_sample.run plainCall 0x9000
    rw [hrun₁] at hnext
    exact hnext
  have hgone : Reached
      (sampleKernel jumpBytes (windowAfter (fun _ => 0) plainCall)) :=
    hreached.sample hwindow
  obtain ⟨slot₁, slot₂, args, envs, _, _, hfits, hsame⟩ :=
    run_stack_same_iff reached_sample hgone hrun₁ hrun₂
  refine ⟨kernel₁, kernel₂, slot₁, slot₂, hrun₁, hrun₂, hsame.mpr ?_⟩
  intro offset _ hbelow
  rw [sampleKernel_window, sampleKernel_window,
    hfits.windowAfter_eq _ hbelow]

def secret : CString := ⟨List.replicate 100 0x62, by decide⟩

def secretCall : Call :=
  ⟨sampleName, 1, some fun i => if i = 0 then some secret else none, 0, none⟩

/-- The page tables once the secret has been passed to a process. -/
def secretState : Paging.State :=
  (mapStack (windowAfter (fun _ => 0) secretCall) 0x4000 (stackSize / 4096) 0
    (loadSegments (sampleBuffer jumpBytes) 0x4000 [jumpPhdr]
      bootState.createAddressSpace.1).value.1).1

theorem create_secret : secretState.createAddressSpace =
    (secretState.createAddressSpace.1, 0x11000) :=
  create_eq (by decide +kernel)

theorem read_again :
    Runnable (FileSystem.read (sampleFiles jumpBytes) (fileName sampleName)
      maxElfSize).2 ∧
    (FileSystem.read (FileSystem.read (sampleFiles jumpBytes)
      (fileName sampleName) maxElfSize).2 (fileName sampleName)
      maxElfSize).1 = .complete jumpBytes := by
  decide +kernel

/-- The buffer when the file has been read again. -/
def secondBuffer : Memory := store (sampleBuffer jumpBytes) 0 jumpBytes

theorem validate_again : validate secondBuffer 124 =
    .ok (readEhdr secondBuffer, [jumpPhdr]) := by
  decide +kernel

theorem load_again : (loadSegments secondBuffer 0x11000 [jumpPhdr]
    secretState.createAddressSpace.1).value.2 = none := by
  decide +kernel

theorem map_again :
    (mapStack (windowAfter (windowAfter (fun _ => 0) secretCall) plainCall)
      0x11000 (stackSize / 4096) 0 (loadSegments secondBuffer 0x11000
        [jumpPhdr] secretState.createAddressSpace.1).value.1).2 = true := by
  decide +kernel

/-- A program that is started after the secret has been passed on. -/
theorem run_after_secret : ∃ kernel₁ kernel₂,
    (sampleKernel jumpBytes fun _ => 0).run secretCall 0x9000 =
      (kernel₁, none) ∧
    kernel₁.run plainCall 0xA000 = (kernel₂, none) ∧
    kernel₂.stackWindow =
      windowAfter (windowAfter (fun _ => 0) secretCall) plainCall := by
  obtain ⟨sp, kernel₁, hrun₁, hwindow, hfiles, hbuffer, hpaging, htasks⟩ :=
    @run_jump (fun _ => 0) secretCall rfl (by decide +kernel)
      (by decide +kernel)
  obtain ⟨⟨built, sp₂⟩, hbuilt⟩ := Option.isSome_iff_exists.mp
    (show (buildInitialStack (windowAfter (fun _ => 0) secretCall) stackSize
      plainCall.arguments.1 plainCall.arguments.2 plainCall.envc
      plainCall.envp).isSome = true by decide +kernel)
  have hafter : windowAfter (windowAfter (fun _ => 0) secretCall) plainCall =
      built := by
    rw [windowAfter, hbuilt]
    rfl
  have hmap := map_again
  rw [hafter] at hmap ⊢
  have hcreate : kernel₁.paging.createAddressSpace =
      (secretState.createAddressSpace.1, 0x11000) := by
    rw [hpaging]
    exact create_secret
  have hslot : kernel₁.tasks.findFreeSlot.isSome = true := by
    rw [htasks]
    rfl
  obtain ⟨kernel₂, hrun₂, hwindow₂, _⟩ :=
    @run_eq_none kernel₁ plainCall 0xA000 built secondBuffer 0x11000 _
      [jumpPhdr] jumpBytes sp₂ secretState.createAddressSpace.1
      (by rw [hfiles]; exact read_again.1.1)
      (by rw [hfiles]; exact read_again.1.2.1)
      (by rw [hfiles]; exact read_again.1.2.2)
      (by rw [hfiles]; exact read_again.2) rfl
      (by rw [hbuffer]; rfl) validate_again hcreate (by decide) load_again
      (by rw [hwindow]; exact hbuilt) hmap hslot (by decide)
  exact ⟨kernel₁, kernel₂, hrun₁, hrun₂, hwindow₂⟩

/-- The same call finds the end of the secret on its stack, and nothing there
if it is the first one. -/
theorem run_stack_leaks : ∃ kernel₀ kernel₁ kernel₂ slot₀ slot₂,
    (sampleKernel jumpBytes fun _ => 0).run plainCall 0x9000 =
      (kernel₀, none) ∧
    (sampleKernel jumpBytes fun _ => 0).tasks.findFreeSlot = some slot₀ ∧
    (sampleKernel jumpBytes fun _ => 0).run secretCall 0x9000 =
      (kernel₁, none) ∧
    kernel₁.run plainCall 0xA000 = (kernel₂, none) ∧
    kernel₁.tasks.findFreeSlot = some slot₂ ∧
    byteAt kernel₀.paging (kernel₀.tasks.tasks slot₀).cr3
      (stackVirt + (stackSize - 80)) = some 0 ∧
    byteAt kernel₂.paging (kernel₂.tasks.tasks slot₂).cr3
      (stackVirt + (stackSize - 80)) = some 0x62 := by
  obtain ⟨kernel₀, hrun₀, hwindow₀⟩ := run_plain
  obtain ⟨kernel₁, kernel₂, hrun₁, hrun₂, hwindow₂⟩ := run_after_secret
  obtain ⟨_, _, _, slot₀, hstarted₀⟩ := started_of_run hrun₀
  obtain ⟨_, _, _, slot₂, hstarted₂⟩ := started_of_run hrun₂
  have hclean : windowAfter (fun _ => 0) plainCall (stackSize - 80) = 0 := by
    decide +kernel
  have hstale : windowAfter (windowAfter (fun _ => 0) secretCall) plainCall
      (stackSize - 80) = 0x62 := by
    decide +kernel
  refine ⟨kernel₀, kernel₁, kernel₂, slot₀, slot₂, hrun₀, hstarted₀.free,
    hrun₁, hrun₂, hstarted₂.free, ?_, ?_⟩
  · rw [hstarted₀.stack_byte (by decide), hwindow₀, hclean]
  · rw [hstarted₂.stack_byte (by decide), hwindow₂, hstale]

end Process

end VenomOS
