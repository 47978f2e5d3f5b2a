/-
load_segments of kernel/process.cpp.  The loader keeps a record of its
arithmetic on addresses, of the bytes of the file it reads and of the pages it
maps.
-/
import VenomOS.PagingImage

namespace VenomOS

namespace Process

open ByteMemory RadixTable Paging Elf

inductive Event where
  | add (a b : Nat)
  | sub (a b : Nat)
  | mul (a b : Nat)
  | read (offset : Nat)
  | map (virtAddr : Nat)
deriving Repr, DecidableEq

/-- A value and what was done to get it. -/
structure Traced (α : Type) where
  value : α
  events : List Event

namespace Traced

variable {α β : Type}

instance : Monad Traced where
  pure value := ⟨value, []⟩
  bind first next :=
    ⟨(next first.value).value, first.events ++ (next first.value).events⟩

theorem bind_events (first : Traced α) (next : α → Traced β) :
    (first >>= next).events =
      first.events ++ (next first.value).events := rfl

end Traced

def add (a b : Nat) : Traced Nat := ⟨add64 a b, [.add a b]⟩

def sub (a b : Nat) : Traced Nat := ⟨sub64 a b, [.sub a b]⟩

def mul (a b : Nat) : Traced Nat := ⟨mul64 a b, [.mul a b]⟩

def readFile (file : Memory) (offset : Nat) : Traced UInt8 :=
  ⟨file offset, [.read offset]⟩

def segmentPageFlags (flags : Nat) : Nat :=
  let pageFlags := pagePresent ||| pageUser ||| pageOwned
  if flags &&& pfWrite ≠ 0 then pageFlags ||| (pageWritable ||| pageNx)
  else if flags &&& pfExec = 0 then pageFlags ||| pageNx
  else pageFlags

/-- The loop that copies from the file; `left` bytes are still to come. -/
def copyBytes (file : Memory) (dest pageOff fileOff : Nat) :
    Nat → Nat → Memory → Traced Memory
  | 0, _, mem => pure mem
  | left + 1, b, mem => do
      let within ← add pageOff b
      let offset ← add fileOff b
      let byte ← readFile file offset
      copyBytes file dest pageOff fileOff left (b + 1)
        (Function.update mem (dest + within) byte)

/-- A frame is cleared and gets its part of the segment. -/
def fillPage (file : Memory) (phdr : Phdr) (dest frameVaddr : Nat)
    (mem : Memory) : Traced Memory := do
  let mem := store mem dest (List.replicate 4096 0)
  let segDataEnd ← add phdr.vaddr phdr.filesz
  let copyStart := if frameVaddr > phdr.vaddr then frameVaddr else phdr.vaddr
  let frameEnd ← add frameVaddr 4096
  let copyEnd := if frameEnd < segDataEnd then frameEnd else segDataEnd
  if copyEnd > copyStart then do
    let skipped ← sub copyStart phdr.vaddr
    let fileOff ← add phdr.offset skipped
    let pageOff ← sub copyStart frameVaddr
    let len ← sub copyEnd copyStart
    copyBytes file dest pageOff fileOff len 0 mem
  else pure mem

/-- A frame is filled and mapped as page `p` of a segment. -/
def placePage (file : Memory) (phdr : Phdr) (pml4 p frame : Nat) (st : State) :
    Traced (State × Bool) := do
  let offset ← mul p 4096
  let frameVaddr ← add phdr.pageStart offset
  let mem ← fillPage file phdr frame frameVaddr st.mem
  ⟨State.mapPageIn { st with mem := mem } pml4 frameVaddr
    frame (segmentPageFlags phdr.flags), [.map frameVaddr]⟩

/-- One page of a segment, with the message if it fails. -/
def loadPage (file : Memory) (phdr : Phdr) (pml4 p : Nat) (st : State) :
    Traced (State × Option String) := do
  let (pmm, frame) := st.pmm.allocFrame
  let st := { st with pmm := pmm }
  if frame = 0 then
    pure (st, some "Out of physical memory while loading the process.\n")
  else do
    let (st, mapped) ← placePage file phdr pml4 p frame st
    if mapped then pure (st, none)
    else pure (st.free frame, some "Failed to map a segment of the process.\n")

/-- The next step of a loop, unless this one failed. -/
def proceed (first : Traced (State × Option String))
    (next : State → Traced (State × Option String)) :
    Traced (State × Option String) := do
  let (st, error) ← first
  match error with
  | some message => pure (st, some message)
  | none => next st

/-- The pages of a segment from page `p` on, of which `left` are left. -/
def loadPages (file : Memory) (phdr : Phdr) (pml4 : Nat) :
    Nat → Nat → State → Traced (State × Option String)
  | 0, _, st => pure (st, none)
  | left + 1, p, st =>
      proceed (loadPage file phdr pml4 p st)
        (loadPages file phdr pml4 left (p + 1))

def loadSegment (file : Memory) (phdr : Phdr) (pml4 : Nat) (st : State) :
    Traced (State × Option String) := do
  let segEnd ← add phdr.vaddr phdr.memsz
  let padded ← add segEnd pageMask
  let span ← sub (padded &&& not64 pageMask) phdr.pageStart
  loadPages file phdr pml4 (span / 4096) 0 st

def loadSegments (file : Memory) (pml4 : Nat) :
    List Phdr → State → Traced (State × Option String)
  | [], st => pure (st, none)
  | phdr :: rest, st =>
      if phdr.type ≠ ptLoad then loadSegments file pml4 rest st
      else
        proceed (loadSegment file phdr pml4 st) (loadSegments file pml4 rest)

/-- No sum, difference or product wraps, only the file is read, and only user
pages are mapped. -/
def Event.Safe (fileSize : Nat) : Event → Prop
  | .add a b => a + b < 2 ^ 64
  | .sub a b => b ≤ a
  | .mul a b => a * b < 2 ^ 64
  | .read offset => offset < fileSize
  | .map virtAddr =>
      userSpaceMin ≤ virtAddr ∧ virtAddr + 4096 ≤ userSpaceMax

/-- The page that an event maps. -/
def Event.page? : Event → Option Nat
  | .map virtAddr => some virtAddr
  | _ => none

/-- The pages that are mapped, in order. -/
def mappedPages (events : List Event) : List Nat := events.filterMap Event.page?

/-- What a segment puts at an address. -/
def segmentByte (file : Memory) (phdr : Phdr) (addr : Nat) : UInt8 :=
  if phdr.vaddr ≤ addr ∧ addr < phdr.vaddr + phdr.filesz then
    file (phdr.offset + (addr - phdr.vaddr))
  else 0

theorem mappedPages_append (first second : List Event) :
    mappedPages (first ++ second) = mappedPages first ++ mappedPages second :=
  List.filterMap_append

/-- Nothing that is done could go wrong, these pages are mapped, and what comes
of it is as `post` says. -/
structure Yields {α : Type} (fileSize : Nat) (pages : List Nat)
    (result : Traced α) (post : α → Prop) : Prop where
  safe : ∀ event ∈ result.events, event.Safe fileSize
  pages : mappedPages result.events = pages
  value : post result.value

variable {file : Memory} {phdr : Phdr}
  {fileSize dest pageOff fileOff left b : Nat} {mem : Memory}

section Rules

variable {α β : Type} {first : Traced α} {next : α → Traced β}
  {pages : List Nat} {post : α → Prop} {post' : β → Prop} {a : Nat}

theorem Yields.pure {value : α} (hvalue : post value) :
    Yields fileSize [] (pure value) post where
  safe _ hevent := absurd hevent List.not_mem_nil
  pages := rfl
  value := hvalue

theorem Yields.bind (hfirst : Yields fileSize [] first post)
    (hnext : ∀ value, post value → Yields fileSize pages (next value) post') :
    Yields fileSize pages (first >>= next) post' := by
  obtain ⟨hsafe, hpages, hvalue⟩ := hnext _ hfirst.value
  refine ⟨fun event hevent => ?_, ?_, hvalue⟩
  · exact (List.mem_append.mp hevent).elim (hfirst.safe event) (hsafe event)
  · rw [Traced.bind_events, mappedPages_append, hfirst.pages, hpages]
    rfl

theorem Yields.single {value : α} (event : Event)
    (hsafe : event.Safe fileSize) (hvalue : post value) :
    Yields fileSize (mappedPages [event]) ⟨value, [event]⟩ post where
  safe _ hevent := List.mem_singleton.mp hevent ▸ hsafe
  pages := rfl
  value := hvalue

theorem add_yields (hsum : a + b < 2 ^ 64) :
    Yields fileSize [] (add a b) (· = a + b) :=
  Yields.single (.add a b) hsum (add64_of_lt hsum)

theorem sub_yields (hle : b ≤ a) (hlt : a < 2 ^ 64) :
    Yields fileSize [] (sub a b) (· = a - b) :=
  Yields.single (.sub a b) hle (sub64_of_le hle hlt)

theorem mul_yields (hproduct : a * b < 2 ^ 64) :
    Yields fileSize [] (mul a b) (· = a * b) :=
  Yields.single (.mul a b) hproduct (Nat.mod_eq_of_lt hproduct)

theorem readFile_yields (hlt : a < fileSize) :
    Yields fileSize [] (readFile file a) (· = file a) :=
  Yields.single (.read a) hlt rfl

end Rules

theorem copyBytes_yields (hpage : pageOff + b + left < 2 ^ 64)
    (hfile : fileOff + b + left ≤ fileSize) (hsize : fileSize < 2 ^ 64) :
    Yields fileSize [] (copyBytes file dest pageOff fileOff left b mem)
      fun mem' => ∀ addr, mem' addr =
        if dest + pageOff + b ≤ addr ∧ addr < dest + pageOff + b + left then
          file (fileOff + (addr - (dest + pageOff)))
        else mem addr := by
  induction left generalizing b mem with
  | zero => exact Yields.pure fun addr => (if_neg (by omega)).symm
  | succ left ih =>
      apply (add_yields (by omega)).bind
      rintro _ rfl
      apply (add_yields (by omega)).bind
      rintro _ rfl
      apply (readFile_yields (by omega)).bind
      rintro _ rfl
      obtain ⟨hsafe, hpages, hvalue⟩ := @ih (b + 1)
        (Function.update mem (dest + (pageOff + b)) (file (fileOff + b)))
        (by omega) (by omega)
      refine ⟨hsafe, hpages, fun addr => ?_⟩
      rw [hvalue]
      by_cases hself : addr = dest + (pageOff + b)
      · rw [if_neg (by omega), if_pos (by omega), hself, Function.update_self]
        congr 1
        omega
      · rw [Function.update_of_ne hself]
        exact if_congr (by omega) rfl rfl

/-- One of the pages of a segment. -/
structure OnPage (phdr : Phdr) (frameVaddr : Nat) : Prop where
  aligned : frameVaddr % 4096 = 0
  first : phdr.pageStart ≤ frameVaddr
  last : frameVaddr + 4096 ≤ phdr.pageEnd

/-- The bounds that the arithmetic on a page stays in. -/
structure PageBounds (fileSize : Nat) (phdr : Phdr) (frameVaddr : Nat) :
    Prop where
  data : phdr.vaddr + phdr.filesz ≤ userSpaceMax
  file : phdr.offset + phdr.filesz ≤ fileSize
  page : frameVaddr + 4096 ≤ userSpaceMax
  vaddr : phdr.vaddr < frameVaddr + 4096
  min : userSpaceMin ≤ frameVaddr

variable {phdrs : List Phdr} {image : PageImage} {frameVaddr p : Nat}

theorem OnPage.bounds (hpage : OnPage phdr frameVaddr)
    (hloadable : Loadable fileSize phdr) :
    PageBounds fileSize phdr frameVaddr := by
  obtain ⟨haligned, hfirst, hlast⟩ := hpage
  have hend := hloadable.pageEnd_le
  rw [hloadable.pageStart_eq] at hfirst
  have hmin := hloadable.min
  have hmax := hloadable.max
  have hsizes := hloadable.sizes
  refine ⟨by omega, hloadable.inFile, by omega, by omega, ?_⟩
  simp only [userSpaceMin] at *
  omega

theorem store_zeros (mem : Memory) (dest count addr : Nat) :
    store mem dest (List.replicate count 0) addr =
      if dest ≤ addr ∧ addr < dest + count then 0 else mem addr := by
  rw [store, List.length_replicate]
  refine if_congr Iff.rfl ?_ rfl
  rw [List.getD_eq_getElem?_getD, List.getElem?_replicate]
  split <;> rfl

theorem later_cases {a b c : Nat} (hc : (if a > b then a else b) = c) :
    (c = a ∨ c = b) ∧ a ≤ c ∧ b ≤ c := by
  rw [← hc]
  split <;> omega

theorem earlier_cases {a b c : Nat} (hc : (if a < b then a else b) = c) :
    (c = a ∨ c = b) ∧ c ≤ a ∧ c ≤ b := by
  rw [← hc]
  split <;> omega

theorem fillPage_yields (hbounds : PageBounds fileSize phdr frameVaddr)
    (hsize : fileSize < 2 ^ 64) :
    Yields fileSize [] (fillPage file phdr dest frameVaddr mem)
      fun mem' => ∀ addr, mem' addr =
        if dest ≤ addr ∧ addr < dest + 4096 then
          segmentByte file phdr (frameVaddr + (addr - dest))
        else mem addr := by
  obtain ⟨hdata, hfile, hpage, hvaddr, _⟩ := hbounds
  simp only [userSpaceMax] at hdata hpage
  apply (add_yields (by omega)).bind
  rintro _ rfl
  apply (add_yields (by omega)).bind
  rintro _ rfl
  generalize hstart : (if frameVaddr > phdr.vaddr then frameVaddr
    else phdr.vaddr) = copyStart
  generalize hstop : (if frameVaddr + 4096 < phdr.vaddr + phdr.filesz then
    frameVaddr + 4096 else phdr.vaddr + phdr.filesz) = copyEnd
  have hcases := later_cases hstart
  have hcases' := earlier_cases hstop
  by_cases hcopy : copyEnd > copyStart
  · rw [if_pos hcopy]
    apply (sub_yields hcases.2.2 (by omega)).bind
    rintro _ rfl
    apply (add_yields (by omega)).bind
    rintro _ rfl
    apply (sub_yields hcases.2.1 (by omega)).bind
    rintro _ rfl
    apply (sub_yields hcopy.le (by omega)).bind
    rintro _ rfl
    obtain ⟨hsafe, hpages, hvalue⟩ := @copyBytes_yields file fileSize dest
      (copyStart - frameVaddr) (phdr.offset + (copyStart - phdr.vaddr))
      (copyEnd - copyStart) 0 (store mem dest (List.replicate 4096 0))
      (by omega) (by omega) hsize
    refine ⟨hsafe, hpages, fun addr => ?_⟩
    rw [hvalue, store_zeros, segmentByte]
    by_cases hin : dest ≤ addr ∧ addr < dest + 4096
    · rw [if_pos hin, if_pos hin]
      refine if_congr (by omega) (congrArg file ?_) rfl
      omega
    · rw [if_neg hin, if_neg hin, if_neg (by omega)]
  · rw [if_neg hcopy]
    refine Yields.pure fun addr => ?_
    rw [store_zeros, segmentByte]
    refine if_congr Iff.rfl ?_ rfl
    rw [if_neg (by omega)]

/-- What page `p` of a segment is to hold. -/
def pageImage (file : Memory) (phdr : Phdr) (p : Nat) : PageImage where
  virtAddr := phdr.pageStart + p * 4096
  flags := segmentPageFlags phdr.flags
  bytes k := segmentByte file phdr (phdr.pageStart + p * 4096 + k)

def pageCount (phdr : Phdr) : Nat := (phdr.pageEnd - phdr.pageStart) / 4096

def segmentImages (file : Memory) (phdr : Phdr) : List PageImage :=
  (List.range (pageCount phdr)).map (pageImage file phdr)

def fileImages (file : Memory) (phdrs : List Phdr) : List PageImage :=
  (loads phdrs).flatMap (segmentImages file)

theorem onPage (hloadable : Loadable fileSize phdr) (hp : p < pageCount phdr) :
    OnPage phdr (phdr.pageStart + p * 4096) := by
  have hstart := hloadable.pageStart_eq
  have hstop := hloadable.pageEnd_eq
  simp only [pageCount] at hp
  refine ⟨by omega, by omega, by omega⟩

/-- The loader does nothing that could go wrong, maps pages from the front of a
list, and if it succeeds all of them hold what they should. -/
structure Loads (fileSize pml4 : Nat) (images : List PageImage) (st : State)
    (result : Traced (State × Option String)) : Prop where
  safe : ∀ event ∈ result.events, event.Safe fileSize
  pages : mappedPages result.events <+: images.map PageImage.virtAddr
  placed : result.value.2 = none →
    mappedPages result.events = images.map PageImage.virtAddr ∧
      Places pml4 images st result.value.1

variable {pml4 : Nat} {st : State} {images images' : List PageImage}

theorem Loads.pure : Loads fileSize pml4 [] st (pure (st, none)) where
  safe _ hevent := absurd hevent List.not_mem_nil
  pages := List.prefix_rfl
  placed _ := ⟨rfl, .nil⟩

theorem Loads.proceed {first : Traced (State × Option String)}
    {next : State → Traced (State × Option String)}
    (hfirst : Loads fileSize pml4 images st first)
    (hnext : first.value.2 = none →
      Loads fileSize pml4 images' first.value.1 (next first.value.1)) :
    Loads fileSize pml4 (images ++ images') st (proceed first next) := by
  obtain ⟨⟨between, error⟩, events⟩ := first
  unfold Process.proceed
  cases error with
  | some message =>
      refine ⟨fun event hevent => hfirst.safe event ?_, ?_, fun hnone => ?_⟩
      · exact (List.mem_append.mp hevent).resolve_right List.not_mem_nil
      · rw [List.map_append, Traced.bind_events, mappedPages_append]
        exact (List.append_nil _).symm ▸
          hfirst.pages.trans (List.prefix_append _ _)
      · cases hnone
  | none =>
      obtain ⟨hmapped, hplaces⟩ := hfirst.placed rfl
      obtain ⟨hsafe, hpages, hplaced⟩ := hnext rfl
      refine ⟨fun event hevent => ?_, ?_, fun hnone => ?_⟩
      · rcases List.mem_append.mp hevent with hevent | hevent
        · exact hfirst.safe event hevent
        · exact hsafe event hevent
      · rw [List.map_append, Traced.bind_events, mappedPages_append]
        refine hmapped ▸ (List.prefix_append_right_inj _).mpr hpages
      · obtain ⟨hmapped', hplaces'⟩ := hplaced hnone
        refine ⟨?_, hplaces.append hplaces'⟩
        rw [List.map_append, Traced.bind_events, mappedPages_append, ← hmapped,
          ← hmapped']

theorem placePage_yields (hloadable : Loadable fileSize phdr)
    (hsize : fileSize < 2 ^ 64) (hp : p < pageCount phdr) (frame : Nat) :
    Yields fileSize [phdr.pageStart + p * 4096]
      (placePage file phdr pml4 p frame st) fun result =>
      ∃ mem, (∀ k < 4096, mem (frame + k) = (pageImage file phdr p).bytes k) ∧
        (∀ addr, addr < frame ∨ frame + 4096 ≤ addr →
          mem addr = st.mem addr) ∧
        result = State.mapPageIn { st with mem := mem } pml4
          (phdr.pageStart + p * 4096) frame (segmentPageFlags phdr.flags) := by
  have hbounds := (onPage hloadable hp).bounds hloadable
  have hmax := hbounds.page
  simp only [userSpaceMax] at hmax
  apply (mul_yields (by omega)).bind
  rintro _ rfl
  apply (add_yields (by omega)).bind
  rintro _ rfl
  apply (fillPage_yields hbounds hsize).bind
  intro mem hmem
  apply Yields.single (.map _) ⟨hbounds.min, hbounds.page⟩
  refine ⟨mem, fun k hk => ?_, fun addr haddr => ?_, rfl⟩
  · rw [hmem, if_pos (by omega), Nat.add_sub_cancel_left]
    rfl
  · rw [hmem, if_neg (by omega)]

theorem loadPage_loads (hloadable : Loadable fileSize phdr)
    (hsize : fileSize < 2 ^ 64) (hp : p < pageCount phdr) :
    Loads fileSize pml4 [pageImage file phdr p] st
      (loadPage file phdr pml4 p st) := by
  unfold loadPage
  rcases st.pmm.allocFrame_cases with ⟨n, hlt, hclear, halloc⟩ | ⟨_, halloc⟩
  · rw [halloc, Pmm.frameSize]
    dsimp only
    obtain ⟨hsafe, hpages, mem, hin, hout, hvalue⟩ :=
      @placePage_yields file phdr fileSize p pml4
        { st with pmm := st.pmm.take n } hloadable hsize hp (n * 4096)
    generalize placePage file phdr pml4 p (n * 4096)
      { st with pmm := st.pmm.take n } = placed at hsafe hpages hvalue ⊢
    obtain ⟨⟨st', mapped⟩, events⟩ := placed
    have hmapped : mappedPages (events ++ []) =
        [pageImage file phdr p].map PageImage.virtAddr := by
      rw [List.append_nil]
      exact hpages
    split
    · exact ⟨fun _ hevent => absurd hevent List.not_mem_nil,
        List.nil_prefix, fun hnone => by cases hnone⟩
    · cases mapped with
      | true =>
          refine ⟨fun event hevent => hsafe event ?_, ?_, fun _ => ⟨?_, ?_⟩⟩
          · exact (List.mem_append.mp hevent).resolve_right List.not_mem_nil
          · exact hmapped ▸ List.prefix_rfl
          · exact hmapped
          · exact .cons ⟨n, mem, hlt, hclear, hin, hout, hvalue.symm⟩ .nil
      | false =>
          refine ⟨fun event hevent => hsafe event ?_, ?_, fun hnone => ?_⟩
          · exact (List.mem_append.mp hevent).resolve_right List.not_mem_nil
          · exact hmapped ▸ List.prefix_rfl
          · cases hnone
  · rw [halloc]
    exact ⟨fun _ hevent => absurd hevent List.not_mem_nil, List.nil_prefix,
      fun hnone => by cases hnone⟩

theorem loadPages_loads (hloadable : Loadable fileSize phdr)
    (hsize : fileSize < 2 ^ 64) {left p : Nat}
    (hleft : p + left ≤ pageCount phdr) :
    Loads fileSize pml4 ((List.range' p left).map (pageImage file phdr)) st
      (loadPages file phdr pml4 left p st) := by
  induction left generalizing p st with
  | zero => exact .pure
  | succ left ih =>
      rw [List.range'_succ, List.map_cons, ← List.singleton_append, loadPages]
      exact (loadPage_loads hloadable hsize (by omega)).proceed
        fun _ => ih (by omega)

theorem Loads.after {α : Type} {first : Traced α} {post : α → Prop}
    {next : α → Traced (State × Option String)}
    (hfirst : Yields fileSize [] first post)
    (hnext : ∀ value, post value →
      Loads fileSize pml4 images st (next value)) :
    Loads fileSize pml4 images st (first >>= next) := by
  obtain ⟨hsafe, hpages, hplaced⟩ := hnext _ hfirst.value
  have hmapped : mappedPages (first >>= next).events =
      mappedPages (next first.value).events := by
    rw [Traced.bind_events, mappedPages_append, hfirst.pages, List.nil_append]
  refine ⟨fun event hevent => ?_, hmapped ▸ hpages,
    fun hnone => hmapped ▸ hplaced hnone⟩
  exact (List.mem_append.mp hevent).elim (hfirst.safe event) (hsafe event)

theorem loadSegment_loads (hloadable : Loadable fileSize phdr)
    (hsize : fileSize < 2 ^ 64) :
    Loads fileSize pml4 (segmentImages file phdr) st
      (loadSegment file phdr pml4 st) := by
  have hmax := hloadable.max
  have hmin := hloadable.nonempty
  have hstart := hloadable.pageStart_eq
  have hstop := hloadable.pageEnd_eq
  simp only [userSpaceMax] at hmax
  have hend : (phdr.vaddr + phdr.memsz + pageMask) &&& not64 pageMask =
      phdr.pageEnd := by
    rw [and_not64_pageMask (by simp only [pageMask]; omega), hstop]
    rfl
  apply Loads.after (add_yields (by omega))
  rintro _ rfl
  apply Loads.after (add_yields (by simp only [pageMask]; omega))
  rintro _ rfl
  rw [hend]
  apply Loads.after (sub_yields hmin.le (by omega))
  rintro _ rfl
  rw [segmentImages, List.range_eq_range']
  exact loadPages_loads hloadable hsize (by simp [pageCount])

/-- Accepted program headers are loaded without a slip. -/
theorem loadSegments_loads
    (hloadable : ∀ phdr ∈ loads phdrs, Loadable fileSize phdr)
    (hsize : fileSize < 2 ^ 64) :
    Loads fileSize pml4 (fileImages file phdrs) st
      (loadSegments file pml4 phdrs st) := by
  induction phdrs generalizing st with
  | nil => exact .pure
  | cons phdr rest ih =>
      by_cases hload : phdr.type = ptLoad
      · have hloads : loads (phdr :: rest) = phdr :: loads rest := by
          simp [loads, hload]
        rw [hloads] at hloadable
        rw [fileImages, hloads, List.flatMap_cons, loadSegments,
          if_neg (not_not.mpr hload)]
        exact (loadSegment_loads (hloadable _ List.mem_cons_self) hsize).proceed
          fun _ => ih fun later hlater =>
            hloadable later (List.mem_cons_of_mem _ hlater)
      · have hloads : loads (phdr :: rest) = loads rest := by
          simp [loads, hload]
        rw [hloads] at hloadable
        rw [fileImages, hloads, loadSegments, if_pos hload]
        exact ih hloadable

theorem segmentPageFlags_cases (flags : Nat) :
    segmentPageFlags flags ∈ [0x8000000000000207, 0x8000000000000205, 0x205] := by
  unfold segmentPageFlags
  split
  · decide
  · split <;> decide

theorem flagRights_segmentPageFlags {flags : Nat}
    (hseparate : ¬ (flags &&& pfWrite ≠ 0 ∧ flags &&& pfExec ≠ 0)) :
    flagRights (segmentPageFlags flags) =
      (true, decide (flags &&& pfWrite ≠ 0), decide (flags &&& pfExec ≠ 0)) := by
  unfold segmentPageFlags
  by_cases hwrite : flags &&& pfWrite = 0
  · rw [if_neg (not_not.mpr hwrite), decide_eq_false (not_not.mpr hwrite)]
    by_cases hexec : flags &&& pfExec = 0
    · rw [if_pos hexec, decide_eq_false (not_not.mpr hexec)]
      decide
    · rw [if_neg hexec, decide_eq_true hexec]
      decide
  · have hexec : ¬ flags &&& pfExec ≠ 0 := fun hexec =>
      hseparate ⟨hwrite, hexec⟩
    rw [if_pos hwrite, decide_eq_true hwrite, decide_eq_false hexec]
    decide

theorem plain_segmentPageFlags (flags : Nat) :
    Plain (segmentPageFlags flags) ∧
      hasFlag (segmentPageFlags flags) pageOwned = true := by
  have hflags := segmentPageFlags_cases flags
  simp only [List.mem_cons, List.not_mem_nil, or_false] at hflags
  rcases hflags with hflags | hflags | hflags <;> rw [hflags] <;>
    exact ⟨⟨by decide, by decide⟩, by decide⟩

theorem userPage_pageImage (hloadable : Loadable fileSize phdr)
    (hp : p < pageCount phdr) :
    UserPage (pageImage file phdr p).virtAddr (pageImage file phdr p).flags := by
  have hpage := onPage hloadable hp
  have hbounds := hpage.bounds hloadable
  obtain ⟨hplain, howned⟩ := plain_segmentPageFlags phdr.flags
  exact ⟨hbounds.min, Nat.lt_of_lt_of_le (Nat.lt_add_of_pos_right (by decide))
    hbounds.page, hpage.aligned, hplain, howned⟩

theorem mem_segmentImages :
    image ∈ segmentImages file phdr ↔
      ∃ p < pageCount phdr, pageImage file phdr p = image := by
  simp [segmentImages]

theorem mem_fileImages :
    image ∈ fileImages file phdrs ↔ ∃ phdr ∈ loads phdrs,
      ∃ p < pageCount phdr, pageImage file phdr p = image := by
  simp only [fileImages, List.mem_flatMap, mem_segmentImages]

section Images

variable {phdrs : List Phdr}
  (hloadable : ∀ phdr ∈ loads phdrs, Loadable fileSize phdr)

include hloadable

theorem userPage_fileImages :
    ∀ image ∈ fileImages file phdrs, UserPage image.virtAddr image.flags := by
  intro image himage
  obtain ⟨phdr, hphdr, p, hp, rfl⟩ := mem_fileImages.mp himage
  exact userPage_pageImage (hloadable phdr hphdr) hp

theorem nodup_fileImages (hapart : (loads phdrs).Pairwise Apart) :
    ((fileImages file phdrs).map PageImage.virtAddr).Nodup := by
  rw [fileImages, List.map_flatMap, List.nodup_flatMap]
  refine ⟨fun phdr hphdr => ?_, ?_⟩
  · rw [segmentImages, List.map_map]
    refine List.nodup_range.map fun p p' heq => ?_
    simp only [Function.comp_apply, pageImage] at heq
    omega
  · refine hapart.imp_of_mem fun {first second} hfirst hsecond hor => ?_
    rw [Function.onFun, List.disjoint_left]
    intro virtAddr hmem hmem'
    obtain ⟨image, himage, rfl⟩ := List.mem_map.mp hmem
    obtain ⟨image', himage', heq⟩ := List.mem_map.mp hmem'
    obtain ⟨p, hp, rfl⟩ := mem_segmentImages.mp himage
    obtain ⟨p', hp', rfl⟩ := mem_segmentImages.mp himage'
    have hpage := onPage (hloadable first hfirst) hp
    have hpage' := onPage (hloadable second hsecond) hp'
    have hends := hpage.last
    have hends' := hpage'.last
    have hstarts := hpage.first
    have hstarts' := hpage'.first
    simp only [pageImage] at heq
    rcases hor with hor | hor <;> omega

theorem nodup_vaPath_fileImages (hapart : (loads phdrs).Pairwise Apart) :
    ((fileImages file phdrs).map fun image => vaPath image.virtAddr).Nodup := by
  have hdistinct : ((fileImages file phdrs).map PageImage.virtAddr).Nodup :=
    nodup_fileImages hloadable hapart
  have hpaths := hdistinct.map_on (f := vaPath) fun virtAddr hmem virtAddr'
      hmem' heq => ?_
  · rwa [List.map_map] at hpaths
  obtain ⟨image, himage, rfl⟩ := List.mem_map.mp hmem
  obtain ⟨image', himage', rfl⟩ := List.mem_map.mp hmem'
  exact (userPage_fileImages hloadable image himage).eq_of_vaPath
    (userPage_fileImages hloadable image' himage') heq

theorem within_fileImages {phdr : Phdr} (hphdr : phdr ∈ loads phdrs) {addr : Nat}
    (hfirst : phdr.pageStart ≤ addr) (hlast : addr < phdr.pageEnd) :
    ∃ p, pageImage file phdr p ∈ fileImages file phdrs ∧
      Within (pageImage file phdr p).virtAddr addr := by
  have hstart := (hloadable phdr hphdr).pageStart_eq
  have hstop := (hloadable phdr hphdr).pageEnd_eq
  refine ⟨(addr - phdr.pageStart) / 4096,
    mem_fileImages.mpr ⟨phdr, hphdr, _, ?_, rfl⟩, ?_, ?_⟩
  · simp only [pageCount]
    omega
  · simp only [pageImage]
    omega
  · simp only [pageImage]
    omega

/-- What the file's segments look like once they are loaded. -/
theorem segment_visible {root : Nat} {label : Nat → Option Path}
    (hshows : ∀ image ∈ fileImages file phdrs, Shows st root image)
    (hspace : Space st root label) {phdr : Phdr} (hphdr : phdr ∈ loads phdrs)
    {addr : Nat} (hfirst : phdr.pageStart ≤ addr) (hlast : addr < phdr.pageEnd) :
    byteAt st root addr = some (segmentByte file phdr addr) ∧
      ∃ frame, translate st.mem root addr =
        some ⟨frame, true, decide (phdr.flags &&& pfWrite ≠ 0),
          !decide (phdr.flags &&& pfExec ≠ 0)⟩ := by
  obtain ⟨p, hmem, hwithin⟩ : ∃ p, pageImage file phdr p ∈
      fileImages file phdrs ∧ Within (pageImage file phdr p).virtAddr addr :=
    within_fileImages hloadable hphdr hfirst hlast
  obtain ⟨frame, htranslate, hbyte⟩ := (hshows _ hmem).visible hspace
    (userPage_fileImages hloadable _ hmem) hwithin
  have hrights := flagRights_segmentPageFlags (hloadable phdr hphdr).separate
  refine ⟨?_, frame, ?_⟩
  · rw [hbyte]
    have hle := hwithin.first
    simp only [pageImage] at hle ⊢
    rw [Nat.add_sub_cancel' hle]
  · rw [htranslate]
    simp only [pageImage, hrights]

end Images

/-- A file that the validator accepts is loaded exactly, and loading it does
nothing that could go wrong. -/
theorem loadSegments_exact {file : Memory} {fileSize : Nat}
    (hsize : fileSize ≤ 0x10000) {header : Ehdr} {phdrs : List Phdr}
    (hvalid : validate file fileSize = .ok (header, phdrs)) {st st₁ : State}
    {pml4 : Nat} (hcreate : st.createAddressSpace = (st₁, pml4))
    (hpml4 : pml4 ≠ 0) :
    header.phoff + header.phnum * phdrSize ≤ fileSize ∧
    (∀ event ∈ (loadSegments file pml4 phdrs st₁).events,
      event.Safe fileSize) ∧
    (mappedPages (loadSegments file pml4 phdrs st₁).events).Nodup ∧
    ∀ st', (loadSegments file pml4 phdrs st₁).value = (st', none) →
      (∀ phdr ∈ phdrs, phdr.type = ptLoad → ∀ addr, phdr.pageStart ≤ addr →
        addr < phdr.pageEnd →
        byteAt st' pml4 addr = some (segmentByte file phdr addr) ∧
        ∃ mapping, translate st'.mem pml4 addr = some mapping ∧
          mapping.user = true ∧
          (mapping.writable = true ↔ phdr.flags &&& pfWrite ≠ 0) ∧
          (mapping.noExecute = false ↔ phdr.flags &&& pfExec ≠ 0) ∧
          ¬ (mapping.writable = true ∧ mapping.noExecute = false)) ∧
      (∀ addr, 2 ^ 30 ≤ addr → addr < 2 ^ 48 →
        (∀ phdr ∈ phdrs, phdr.type = ptLoad →
          addr < phdr.pageStart ∨ phdr.pageEnd ≤ addr) →
        translate st'.mem pml4 addr = none) ∧
      (translate st'.mem pml4 header.entry).isSome := by
  have haccepted := accepted_of_validate hvalid
  have hloadable := haccepted.loadable
  have hloads : Loads fileSize pml4 (fileImages file phdrs) st₁
      (loadSegments file pml4 phdrs st₁) :=
    loadSegments_loads hloadable (by omega)
  refine ⟨haccepted.table, hloads.safe, ?_, fun st' hresult => ?_⟩
  · exact hloads.pages.sublist.nodup
      (nodup_fileImages hloadable haccepted.apart)
  obtain ⟨label, hnew⟩ := Image.create hcreate hpml4
  have hplaces := (hloads.placed (congrArg Prod.snd hresult)).2
  rw [hresult] at hplaces
  obtain ⟨label', himage⟩ := hnew.places hplaces (userPage_fileImages hloadable)
    (nodup_vaPath_fileImages hloadable haccepted.apart)
  rw [List.nil_append] at himage
  refine ⟨fun phdr hphdr htype addr hfirst hlast => ?_,
    fun addr hmin hmax hnone => ?_, ?_⟩
  · have hload : phdr ∈ loads phdrs :=
      List.mem_filter.mpr ⟨hphdr, by simp [htype]⟩
    obtain ⟨hbyte, frame, htranslate⟩ := segment_visible hloadable
      himage.holds himage.space hload hfirst hlast
    refine ⟨hbyte, _, htranslate, rfl, decide_eq_true_iff, by simp, ?_⟩
    have hseparate := (hloadable phdr hload).separate
    simpa using hseparate
  · refine himage.absent (userPage_fileImages hloadable) hmin hmax
      fun image hmem hwithin => ?_
    obtain ⟨phdr, hload, p, hp, rfl⟩ := mem_fileImages.mp hmem
    obtain ⟨hphdr, htype⟩ := List.mem_filter.mp hload
    have hpage := onPage (hloadable phdr hload) hp
    have hfirst := hpage.first
    have hlast := hpage.last
    have hwithin₁ := hwithin.first
    have hwithin₂ := hwithin.last
    simp only [pageImage] at hwithin₁ hwithin₂
    have hout := hnone phdr hphdr (by simpa using htype)
    omega
  · obtain ⟨phdr, hload, hge, hlt⟩ := haccepted.entry
    have hstart := (hloadable phdr hload).pageStart_eq
    have hstop := (hloadable phdr hload).pageEnd_eq
    obtain ⟨_, frame, htranslate⟩ := segment_visible hloadable himage.holds
      himage.space hload (show phdr.pageStart ≤ header.entry by omega)
      (show header.entry < phdr.pageEnd by omega)
    rw [htranslate]
    rfl

/-- A file with one segment: two pages to execute, of which the file gives the
first bytes. -/
def jumpBytes : List UInt8 :=
  [ 0x7F, 0x45, 0x4C, 0x46, 2, 1, 1, 0, 0, 0, 0, 0, 0, 0, 0, 0, 2, 0, 0x3E, 0,
    1, 0, 0, 0, 0x78, 0, 0, 0x40, 0, 0, 0, 0, 0x40, 0, 0, 0, 0, 0, 0, 0, 0, 0,
    0, 0, 0, 0, 0, 0, 0, 0, 0, 0, 0x40, 0, 0x38, 0, 1, 0, 0, 0, 0, 0, 0, 0, 1,
    0, 0, 0, 5, 0, 0, 0, 0, 0, 0, 0, 0, 0, 0, 0, 0, 0, 0, 0x40, 0, 0, 0, 0, 0,
    0, 0, 0x40, 0, 0, 0, 0, 0x7C, 0, 0, 0, 0, 0, 0, 0, 0x88, 0x13, 0, 0, 0, 0,
    0, 0, 0, 0x10, 0, 0, 0, 0, 0, 0, 0xEB, 0xFE, 0x90, 0x90]

def jumpFile : Memory := fun addr => jumpBytes.getD addr 0

theorem validate_jumpFile : validate jumpFile 124 =
    .ok (readEhdr jumpFile, [⟨1, 5, 0, 0x40000000, 124, 5000, 4096⟩]) := by
  decide +kernel

theorem loadSegments_exact_jumpFile :
    (loadSegments jumpFile 0x4000 [⟨1, 5, 0, 0x40000000, 124, 5000, 4096⟩]
      bootState.createAddressSpace.1).value.2 = none ∧
    byteAt (loadSegments jumpFile 0x4000
        [⟨1, 5, 0, 0x40000000, 124, 5000, 4096⟩]
        bootState.createAddressSpace.1).value.1 0x4000 0x40000078 =
      some 0xEB := by
  have hroot : bootState.createAddressSpace.2 = 0x4000 := by decide +kernel
  have hcreate : bootState.createAddressSpace =
      (bootState.createAddressSpace.1, 0x4000) := Prod.ext rfl hroot
  have hloaded : (loadSegments jumpFile 0x4000
      [⟨1, 5, 0, 0x40000000, 124, 5000, 4096⟩]
      bootState.createAddressSpace.1).value.2 = none := by
    decide +kernel
  refine ⟨hloaded, ?_⟩
  generalize hvalue : (loadSegments jumpFile 0x4000
    [⟨1, 5, 0, 0x40000000, 124, 5000, 4096⟩]
    bootState.createAddressSpace.1).value = result at hloaded ⊢
  obtain ⟨st', error⟩ := result
  obtain rfl : error = none := hloaded
  obtain ⟨_, _, _, hexact⟩ := loadSegments_exact (by decide) validate_jumpFile
    hcreate (by decide)
  have hbyte := ((hexact st' hvalue).1 _ List.mem_cons_self rfl
    0x40000078 (by decide) (by decide)).1
  rw [hbyte]
  decide

end Process

end VenomOS
