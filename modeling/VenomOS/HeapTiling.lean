/-
The block list tiles exactly the frames the heap took.  This survives every
growth, every allocation and every release; what may change hands is only
which of the blocks are in use.
-/
import VenomOS.HeapBlocks

namespace VenomOS

namespace Heap

open BlockTiling

/-- What `pmm::alloc_frame` answers when it has a frame. -/
structure IsFrame (frame : Nat) : Prop where
  ne_zero : frame ≠ 0
  aligned : frameSize ∣ frame
  bounded : frame + frameSize < addressCount

instance (frame : Nat) : Decidable (IsFrame frame) :=
  decidable_of_iff
    (frame ≠ 0 ∧ frameSize ∣ frame ∧ frame + frameSize < addressCount)
    ⟨fun ⟨hne, haligned, hbounded⟩ => ⟨hne, haligned, hbounded⟩,
      fun hframe => ⟨hframe.ne_zero, hframe.aligned, hframe.bounded⟩⟩

/-- Answers of `pmm::alloc_frame` to a heap that holds the frames `taken`.
After a `0` the heap asks no more. -/
def FreshFrames : List Nat → List Nat → Prop
  | _, [] => True
  | _, 0 :: _ => True
  | taken, frame :: rest =>
      IsFrame frame ∧ frame ∉ taken ∧ FreshFrames (taken ++ [frame]) rest

instance decidableFreshFrames :
    ∀ taken frames, Decidable (FreshFrames taken frames)
  | _, [] => isTrue trivial
  | _, 0 :: _ => isTrue trivial
  | taken, (frame + 1) :: rest =>
      have := decidableFreshFrames (taken ++ [frame + 1]) rest
      inferInstanceAs (Decidable (IsFrame (frame + 1) ∧ frame + 1 ∉ taken ∧
        FreshFrames (taken ++ [frame + 1]) rest))

/-- The list of the heap is the list `blocks`, and these blocks tile the frames
`taken`. -/
structure Tiling (heap : State) (taken : List Nat) (blocks : List Block) :
    Prop where
  segment : Segment heap heap.freeListHead blocks
  ordered : Ordered blocks
  granular : Granular alignment blocks
  covers : ∀ x, Covers blocks x ↔
    ∃ frame ∈ taken, frame ≤ x ∧ x < frame + frameSize
  isFrame : ∀ frame ∈ taken, IsFrame frame
  range : ∀ frame ∈ taken, heap.heapMin ≠ 0 ∧ heap.heapMin ≤ frame ∧
    frame + frameSize ≤ heap.heapMax

variable {heap heap' : State} {taken frames : List Nat} {frame size : Nat}
variable {blocks blocks' front back : List Block} {block : Block}

theorem init_tiling (header : Nat → BlockHeader) :
    Tiling (init header) [] [] where
  segment := segment_nil_iff.mpr rfl
  ordered := List.Pairwise.nil
  granular := by simp [Granular]
  covers := by simp [Covers]
  isFrame := by simp
  range := by simp

section

variable (htiling : Tiling heap taken blocks)

include htiling

/-- The frame a byte of a block lies in. -/
theorem Tiling.frame_of_byte (hblock : block ∈ blocks) {x : Nat}
    (hlow : block.addr ≤ x) (hhigh : x < block.limit) :
    ∃ frame ∈ taken, frame ≤ x ∧ x < frame + frameSize :=
  (htiling.covers x).mp ⟨block, hblock, hlow, hhigh⟩

theorem Tiling.span_pos :
    ∀ block ∈ blocks, 0 < block.span := by
  intro block hblock
  have := htiling.segment.span_ge hblock
  simp only [headerSize] at this
  omega

theorem Tiling.addr_lt :
    ∀ block ∈ blocks, block.addr < addressCount := by
  intro block hblock
  have hpos := htiling.span_pos block hblock
  obtain ⟨frame, hframe, _, hhigh⟩ := htiling.frame_of_byte hblock
    (Nat.le_refl _) (by simp only [Block.limit]; omega)
  have := (htiling.isFrame frame hframe).bounded
  omega

theorem Tiling.eq_of_addr_eq {first second : Block} (hfirst : first ∈ blocks)
    (hsecond : second ∈ blocks) (haddr : first.addr = second.addr) :
    first = second :=
  htiling.ordered.eq_of_addr_eq htiling.span_pos hfirst hsecond haddr

/-- No block reaches into a frame the heap does not hold. -/
theorem Tiling.away_from (hframe : IsFrame frame) (hnew : frame ∉ taken) :
    ∀ block ∈ blocks, block.limit ≤ frame ∨ frame + frameSize ≤ block.addr := by
  intro block hblock
  by_contra hmeets
  simp only [not_or, Nat.not_le] at hmeets
  have hpos := htiling.span_pos block hblock
  obtain ⟨held, hheld, hlow, hhigh⟩ :=
    htiling.frame_of_byte hblock (Nat.le_max_left block.addr frame)
      (by simp only [Block.limit] at hmeets ⊢; omega)
  obtain ⟨i, rfl⟩ := (htiling.isFrame held hheld).aligned
  obtain ⟨j, rfl⟩ := hframe.aligned
  have hij : i ≠ j := by
    rintro rfl
    exact hnew hheld
  simp only [frameSize] at hmeets hlow hhigh
  omega

theorem Tiling.split_at (hframe : IsFrame frame) (hnew : frame ∉ taken) :
    ∃ front back, blocks = front ++ back ∧
      (∀ block ∈ front, block.limit ≤ frame) ∧
      ∀ block ∈ back, frame + frameSize ≤ block.addr :=
  htiling.ordered.split_at (htiling.away_from hframe hnew)

end

/-- The free block a new frame brings. -/
def frameBlock (frame : Nat) : Block := ⟨frame, frameSize, true⟩

theorem frameBlock_limit (frame : Nat) :
    (frameBlock frame).limit = frame + frameSize := rfl

/-- The segment after `grow_heap`. -/
theorem growHeap_segment (htiling : Tiling heap taken (front ++ back))
    (hframe : IsFrame frame)
    (hfront : ∀ block ∈ front, block.limit ≤ frame)
    (hback : ∀ block ∈ back, frame + frameSize ≤ block.addr) :
    ∃ heap', heap.growHeap frame = some heap' ∧
      Segment heap' heap'.freeListHead
        (place (fun _ => true) front (frameBlock frame) back) ∧
      heap'.heapMin =
        (if heap.heapMin = 0 ∨ frame < heap.heapMin then frame
          else heap.heapMin) ∧
      heap'.heapMax =
        (if heap.heapMax < frame + frameSize then frame + frameSize
          else heap.heapMax) := by
  let grown : State :=
    { heap.setHeader frame ⟨frameSize - headerSize, true, magicFreed, 0⟩ with
      heapMin := if heap.heapMin = 0 ∨ frame < heap.heapMin then frame
        else heap.heapMin
      heapMax := if heap.heapMax < frame + frameSize then frame + frameSize
        else heap.heapMax }
  have hfront' : ∀ block ∈ front, block.addr < frame := by
    intro block hblock
    have hpos := htiling.span_pos block (by simp [hblock])
    have hlimit := hfront block hblock
    simp only [Block.limit] at hlimit
    omega
  have hback' : ∀ block ∈ back, frame < block.addr := by
    intro block hblock
    have := hback block hblock
    simp only [frameSize] at this
    omega
  have hseg : Segment grown grown.freeListHead (front ++ back) := by
    refine htiling.segment.congr fun block hblock => ?_
    refine setHeader_header_of_ne heap _ ?_
    rcases List.mem_append.mp hblock with hmem | hmem
    · exact Nat.ne_of_lt (hfront' block hmem)
    · exact Nat.ne_of_gt (hback' block hmem)
  obtain ⟨heap', hinsert, hsegment, hglobals⟩ :=
    insertFreeBlock_segment hframe.ne_zero hseg htiling.addr_lt hfront' hback'
  have hsize : (grown.header frame).size + headerSize = frameSize := by
    change ((heap.setHeader frame _).header frame).size + headerSize = frameSize
    rw [setHeader_header_self]
    rfl
  rw [hsize] at hsegment
  simp only [State.globals, Prod.mk.injEq] at hglobals
  exact ⟨heap', hinsert, hsegment, hglobals.1, hglobals.2⟩

/-- Growth extends the tiling by the new frame. -/
theorem Tiling.grow (htiling : Tiling heap taken (front ++ back))
    (hframe : IsFrame frame)
    (hfront : ∀ block ∈ front, block.limit ≤ frame)
    (hback : ∀ block ∈ back, frame + frameSize ≤ block.addr) :
    ∃ heap', heap.growHeap frame = some heap' ∧
      Tiling heap' (taken ++ [frame])
        (place (fun _ => true) front (frameBlock frame) back) := by
  obtain ⟨heap', hgrow, hsegment, hmin, hmax⟩ :=
    growHeap_segment htiling hframe hfront hback
  have hmerges : Merges (fun _ => true) (front ++ frameBlock frame :: back)
      (place (fun _ => true) front (frameBlock frame) back) :=
    place_merges rfl rfl fun _ => rfl
  refine ⟨heap', hgrow, hsegment, ?_, ?_, ?_, ?_, ?_⟩
  · exact hmerges.ordered (ordered_insert htiling.ordered hfront hback)
  · refine hmerges.granular (granular_split_iff.mpr ⟨?_, ⟨?_, ?_⟩, ?_⟩)
    · exact fun block hblock => htiling.granular block (by simp [hblock])
    · exact Nat.dvd_trans (by decide) hframe.aligned
    · exact (by decide : alignment ∣ frameSize)
    · exact fun block hblock => htiling.granular block (by simp [hblock])
  · intro x
    have hold := htiling.covers x
    rw [covers_append_iff] at hold
    rw [hmerges.covers_iff, covers_append_iff, covers_cons_iff,
      frameBlock_limit]
    simp only [List.mem_append, List.mem_singleton]
    constructor
    · rintro (hleft | hnew | hright)
      · obtain ⟨held, hheld, hx⟩ := hold.mp (Or.inl hleft)
        exact ⟨held, Or.inl hheld, hx⟩
      · exact ⟨frame, Or.inr rfl, hnew⟩
      · obtain ⟨held, hheld, hx⟩ := hold.mp (Or.inr hright)
        exact ⟨held, Or.inl hheld, hx⟩
    · rintro ⟨held, hheld | rfl, hx⟩
      · rcases hold.mpr ⟨held, hheld, hx⟩ with hleft | hright
        · exact Or.inl hleft
        · exact Or.inr (Or.inr hright)
      · exact Or.inr (Or.inl hx)
  · intro held hheld
    rcases List.mem_append.mp hheld with hmem | hmem
    · exact htiling.isFrame held hmem
    · rw [List.mem_singleton.mp hmem]
      exact hframe
  · intro held hheld
    rw [hmin, hmax]
    have hne := hframe.ne_zero
    rcases List.mem_append.mp hheld with hmem | hmem
    · have hrange := htiling.range held hmem
      refine ⟨?_, ?_, ?_⟩ <;> split <;> omega
    · rw [List.mem_singleton.mp hmem]
      refine ⟨?_, ?_, ?_⟩ <;> split <;> omega

/-- No block in use starts right behind a frame of `frames`. -/
def ClearBehind (frames : List Nat) (blocks : List Block) : Prop :=
  ∀ frame ∈ frames, ∀ block ∈ inUse blocks, block.addr ≠ frame + frameSize

theorem place_inUse (hclear : ClearBehind [frame] (front ++ back)) :
    inUse (place (fun _ => true) front (frameBlock frame) back) =
      inUse (front ++ back) := by
  have hagree : ∀ other ∈ back, other.addr = (frameBlock frame).limit →
      true = other.free := by
    intro other hother haddr
    by_contra hused
    refine hclear frame (List.mem_singleton.mpr rfl) other ?_ haddr
    simp only [inUse, List.mem_filter, List.mem_append]
    exact ⟨Or.inr hother, by simpa using Ne.symm hused⟩
  rw [place_congr hagree]
  have hmerges : Merges Block.free (front ++ frameBlock frame :: back)
      (place Block.free front (frameBlock frame) back) :=
    place_merges rfl rfl fun _ => rfl
  rw [hmerges.inUse_eq]
  simp [inUse, frameBlock]

/-- How an allocation of `span` bytes changes the blocks in use: not at all when
it failed, and by one new block when it returned a pointer. -/
def Allocates (span ptr : Nat) (blocks blocks' : List Block) : Prop :=
  (ptr = 0 ∧ inUse blocks' = inUse blocks) ∨
    ∃ front back block, inUse blocks = front ++ back ∧
      inUse blocks' = front ++ block :: back ∧
      ptr = dataPtr block.addr ∧ span ≤ block.span

theorem takeBlock_globals (heap : State) (addr size : Nat) :
    (heap.takeBlock addr size).globals = heap.globals := by
  unfold State.takeBlock
  simp only
  split <;> rfl

/-- Taking a block carves the allocation off its front. -/
theorem Tiling.take_carve (htiling : Tiling heap taken (front ++ block :: back))
    (haligned : alignment ∣ size) (hfree : block.free = true)
    (hfits : spanOf size ≤ block.span) :
    Tiling (heap.takeBlock block.addr size) taken
        (front ++ carve (spanOf size) (headerSize + minSplitRemainder) block ++
          back) ∧
      ∃ span, spanOf size ≤ span ∧
        inUse (front ++ carve (spanOf size) (headerSize + minSplitRemainder)
          block ++ back) =
          inUse front ++ ⟨block.addr, span, false⟩ :: inUse back ∧
        inUse (front ++ block :: back) = inUse front ++ inUse back := by
  have hglobals := takeBlock_globals heap block.addr size
  simp only [State.globals, Prod.mk.injEq] at hglobals
  obtain ⟨hhead, hmin, hmax⟩ := hglobals
  refine ⟨⟨?_, carve_ordered hfits htiling.ordered,
    carve_granular ?_ htiling.granular, ?_, htiling.isFrame, ?_⟩, ?_⟩
  · rw [hhead]
    exact takeBlock_segment htiling.segment htiling.ordered hfits
  · exact Nat.dvd_add haligned (by decide)
  · intro x
    rw [carve_covers hfits]
    exact htiling.covers x
  · rw [hmin, hmax]
    exact htiling.range
  · obtain ⟨span, hcarve⟩ := inUse_carve hfree
    exact ⟨span, hcarve hfits⟩

/-- The growth of the heap during a call that finds no free block of `need`
bytes: the frames it takes, one after the other. -/
inductive Growth (need : Nat) : State → List Nat → List Block → List Nat →
    State → List Block → Prop
  | done {heap : State} {taken : List Nat} {blocks : List Block} :
      Growth need heap taken blocks [] heap blocks
  | grow {heap heap' heap'' : State} {taken frames : List Nat} {frame : Nat}
      {front back blocks : List Block} (hframe : IsFrame frame)
      (hnew : frame ∉ taken)
      (hfront : ∀ block ∈ front, block.limit ≤ frame)
      (hback : ∀ block ∈ back, frame + frameSize ≤ block.addr)
      (hnone : ∀ block ∈ front ++ back, ¬ (block.free ∧ need ≤ block.span))
      (hgrow : heap.growHeap frame = some heap')
      (htiling : Tiling heap' (taken ++ [frame])
        (place (fun _ => true) front (frameBlock frame) back))
      (hrest : Growth need heap' (taken ++ [frame])
        (place (fun _ => true) front (frameBlock frame) back) frames heap''
        blocks) :
      Growth need heap taken (front ++ back) (frame :: frames) heap'' blocks

variable {need : Nat}

theorem Growth.tiling
    (hgrowth : Growth need heap taken blocks frames heap' blocks')
    (htiling : Tiling heap taken blocks) :
    Tiling heap' (taken ++ frames) blocks' := by
  induction hgrowth with
  | done => simpa using htiling
  | grow _ _ _ _ _ _ hgrown _ ih => simpa using ih hgrown

/-- As long as no block in use starts right behind a frame that is taken, the
blocks in use stay as they are. -/
theorem Growth.inUse_eq
    (hgrowth : Growth need heap taken blocks frames heap' blocks')
    (hclear : ClearBehind frames blocks) : inUse blocks' = inUse blocks := by
  induction hgrowth with
  | done => rfl
  | @grow _ _ _ taken frames frame front back blocks _ _ _ _ _ _ _ _ ih =>
      have hhere : ClearBehind [frame] (front ++ back) := by
        intro held hheld
        rw [List.mem_singleton.mp hheld]
        exact hclear frame List.mem_cons_self
      have hkeep := place_inUse hhere
      have hlater : ClearBehind frames
          (place (fun _ => true) front (frameBlock frame) back) := by
        intro held hheld
        rw [hkeep]
        exact hclear held (List.mem_cons_of_mem _ hheld)
      rw [ih hlater, hkeep]

/-- How a call ends after its growth: it takes the first part of a free block,
or it gives up because it was its last attempt or no frame is left. -/
def Ends (size attempts : Nat) (frames : List Nat) (heap : State)
    (blocks : List Block) (result : Allocation) : Prop :=
  (∃ front block back, blocks = front ++ block :: back ∧ block.free = true ∧
    spanOf size ≤ block.span ∧ result.ptr = dataPtr block.addr ∧
    result.heap = heap.takeBlock block.addr size) ∨
  (result.ptr = 0 ∧ result.heap = heap ∧
    (result.taken.length = attempts ∨
      (∀ block ∈ blocks, ¬ (block.free ∧ spanOf size ≤ block.span)) ∧
        (frames.drop result.taken.length).headD 0 = 0))

/-- The attempt loop of `kmalloc` ends; it is a growth and one last step. -/
theorem kmallocLoop_cases (size attempts : Nat)
    (htiling : Tiling heap taken blocks) (hfresh : FreshFrames taken frames) :
    ∃ result heap' blocks',
      kmallocLoop size attempts heap frames = some result ∧
      Growth (spanOf size) heap taken blocks result.taken heap' blocks' ∧
      result.taken <+: frames ∧
      Ends size attempts frames heap' blocks' result := by
  induction attempts generalizing heap taken blocks frames with
  | zero =>
      exact ⟨⟨0, heap, []⟩, heap, blocks, rfl, .done, List.nil_prefix,
        .inr ⟨rfl, rfl, .inl rfl⟩⟩
  | succ attempts ih =>
      rcases htiling.segment.findBlock_eq size htiling.addr_lt with
        ⟨hfind, hnone⟩ | ⟨front, block, back, rfl, hfind, hfree, hfits⟩
      · have hstop : frames.headD 0 = 0 →
            kmallocLoop size (attempts + 1) heap frames =
              some ⟨0, heap, []⟩ := by
          intro hhead
          rcases frames with _ | ⟨_ | frame, rest⟩
          · simp [kmallocLoop, hfind]
          · simp [kmallocLoop, hfind]
          · simp at hhead
        rcases frames with _ | ⟨_ | frame, rest⟩
        · exact ⟨_, heap, blocks, hstop rfl, .done, List.nil_prefix,
            .inr ⟨rfl, rfl, .inr ⟨hnone, rfl⟩⟩⟩
        · exact ⟨_, heap, blocks, hstop rfl, .done, List.nil_prefix,
            .inr ⟨rfl, rfl, .inr ⟨hnone, rfl⟩⟩⟩
        · obtain ⟨hframe, hnew, hrest⟩ := hfresh
          obtain ⟨front, back, rfl, hfront, hback⟩ :=
            htiling.split_at hframe hnew
          obtain ⟨heap', hgrow, hgrown⟩ := htiling.grow hframe hfront hback
          obtain ⟨result, heap'', blocks', hloop, hgrowth, htaken, hends⟩ :=
            ih hgrown hrest
          refine ⟨{ result with taken := (frame + 1) :: result.taken }, heap'',
            blocks', by simp [kmallocLoop, hfind, hgrow, hloop],
            .grow hframe hnew hfront hback hnone hgrow hgrown hgrowth,
            List.cons_prefix_cons.mpr ⟨rfl, htaken⟩, ?_⟩
          rcases hends with htake | ⟨hptr, hheap, hwhy⟩
          · exact .inl htake
          · exact .inr ⟨hptr, hheap, by simpa using hwhy⟩
      · have hne : block.addr ≠ 0 := htiling.segment.addr_ne_zero (by simp)
        exact ⟨⟨dataPtr block.addr, heap.takeBlock block.addr size, []⟩, heap,
          _, by simp [kmallocLoop, hfind, hne], .done, List.nil_prefix,
          .inl ⟨front, block, back, rfl, hfree, hfits, rfl, rfl⟩⟩

/-- The attempt loop of `kmalloc` keeps the tiling and, as long as no block in
use starts right behind a frame it took, leaves the blocks in use alone but
for the new one. -/
theorem kmallocLoop_tiling (haligned : alignment ∣ size) (attempts : Nat)
    (htiling : Tiling heap taken blocks) (hfresh : FreshFrames taken frames) :
    ∃ result blocks', kmallocLoop size attempts heap frames = some result ∧
      Tiling result.heap (taken ++ result.taken) blocks' ∧
      (∀ frame ∈ result.taken, frame ∈ frames) ∧
      (ClearBehind result.taken blocks →
        Allocates (spanOf size) result.ptr blocks blocks') := by
  obtain ⟨result, heap', blocks', hloop, hgrowth, htaken, hends⟩ :=
    kmallocLoop_cases size attempts htiling hfresh
  have hgrown := hgrowth.tiling htiling
  rcases hends with
    ⟨front, block, back, rfl, hfree, hfits, hptr, hheap⟩ | ⟨hptr, hheap, _⟩
  · obtain ⟨htiling', span, hspan, hafter, hbefore⟩ :=
      hgrown.take_carve haligned hfree hfits
    refine ⟨result, _, hloop, hheap ▸ htiling', htaken.subset,
      fun hclear => .inr ⟨_, _, _, ?_, hafter, hptr, hspan⟩⟩
    rw [← hgrowth.inUse_eq hclear, hbefore]
  · exact ⟨result, blocks', hloop, hheap ▸ hgrown, htaken.subset,
      fun hclear => .inl ⟨hptr, hgrowth.inUse_eq hclear⟩⟩

theorem alignment_dvd_alignUp (size : Nat) :
    alignment ∣ alignUp size alignment := by
  simp only [alignUp, alignment]
  omega

theorem le_alignUp (hsize : size ≤ 2 ^ 64 - 16) :
    size ≤ alignUp size alignment := by
  simp only [alignUp, alignment]
  omega

/-- The header of a listed block with the guards `kfree` applies to it. -/
theorem Tiling.guards (htiling : Tiling heap taken blocks)
    (hblock : block ∈ blocks) (hbacked : Covers blocks (dataPtr block.addr)) :
    dataPtr block.addr % alignment = 0 ∧
      heap.inHeapRange (dataPtr block.addr) = true ∧
      heap.heapMin + headerSize ≤ dataPtr block.addr := by
  have haddr := (htiling.granular block hblock).1
  have hpos := htiling.span_pos block hblock
  obtain ⟨first, hfirst, hlow, _⟩ := htiling.frame_of_byte hblock
    (Nat.le_refl _) (by simp only [Block.limit]; omega)
  obtain ⟨last, hlast, _, hhigh⟩ := (htiling.covers _).mp hbacked
  have hmin := htiling.range first hfirst
  have hmax := htiling.range last hlast
  have hmod := Nat.mod_eq_zero_of_dvd haddr
  simp only [alignment, dataPtr, headerSize] at hmod hhigh
  refine ⟨?_, ?_, ?_⟩
  · simp only [dataPtr, alignment, headerSize]
    omega
  · have habove : heap.heapMin ≤ dataPtr block.addr := by
      simp only [dataPtr]
      omega
    have hbelow : dataPtr block.addr < heap.heapMax := by
      simp only [dataPtr, headerSize]
      omega
    simp [State.inHeapRange, hmin.1, habove, hbelow]
  · simp only [dataPtr]
    omega

theorem release_merges (front : List Block) (block : Block)
    (back : List Block) :
    Merges Block.free (front ++ { block with free := true } :: back)
      (place Block.free front { block with free := true } back) :=
  place_merges rfl rfl fun _ => rfl

theorem inUse_release (front : List Block) (block : Block)
    (back : List Block) :
    inUse (place Block.free front { block with free := true } back) =
      inUse (front ++ back) := by
  rw [(release_merges front block back).inUse_eq]
  simp [inUse]

/-- Marking a block free keeps a tiling up to the joins that follow. -/
theorem Tiling.release (htiling : Tiling heap taken (front ++ block :: back)) :
    ∃ heap', heap.releaseBlock block.addr = some heap' ∧
      Tiling heap' taken
        (place Block.free front { block with free := true } back) := by
  obtain ⟨heap', hrelease, hsegment, hglobals⟩ :=
    releaseBlock_segment htiling.segment htiling.addr_lt
  have hmerges := release_merges front block back
  simp only [State.globals, Prod.mk.injEq] at hglobals
  refine ⟨heap', hrelease, hsegment, ?_, ?_, ?_, htiling.isFrame, ?_⟩
  · have hordered := htiling.ordered
    rw [ordered_split_iff] at hordered
    exact hmerges.ordered (ordered_split_iff.mpr hordered)
  · have hgranular := htiling.granular
    rw [granular_split_iff] at hgranular
    exact hmerges.granular (granular_split_iff.mpr hgranular)
  · intro x
    have hold := htiling.covers x
    rw [covers_append_iff, covers_cons_iff] at hold
    rw [hmerges.covers_iff, covers_append_iff, covers_cons_iff]
    exact hold
  · rw [hglobals.1, hglobals.2]
    exact htiling.range

/-- `kfree` accepts the pointer of a block in use, marks this block free and
joins it with its neighbours. -/
theorem Tiling.kfree_accepted
    (htiling : Tiling heap taken (front ++ block :: back))
    (hused : block.free = false)
    (hbacked : Covers (front ++ block :: back) (dataPtr block.addr)) :
    ∃ heap', kfree heap (dataPtr block.addr) = some (heap', .accepted) ∧
      Tiling heap' taken
        (place Block.free front { block with free := true } back) := by
  obtain ⟨haligned, hrange, hlow⟩ := htiling.guards (by simp) hbacked
  obtain ⟨heap', hrelease, htiling'⟩ := htiling.release
  obtain ⟨_, hfree, hmagic⟩ := htiling.segment.headers block (by simp)
  have htracked := htiling.segment.isTrackedBlock_eq htiling.addr_lt block.addr
  have hptr : dataPtr block.addr ≠ 0 := by simp [dataPtr, headerSize]
  have hback : dataPtr block.addr - headerSize = block.addr :=
    Nat.add_sub_cancel _ _
  have hmagic' : (heap.header block.addr).magic = magicAllocated := by
    rw [hmagic, hused]
    rfl
  rw [hused] at hfree
  refine ⟨heap', ?_, htiling'⟩
  simp [kfree, hptr, haligned, hrange, Nat.not_lt.mpr hlow, hback, htracked,
    hmagic', hfree, hrelease, magicAllocated, magicFreed]

/-- `kfree` leaves the heap alone when its pointer is not that of a block in
use. -/
theorem Tiling.kfree_rejected (htiling : Tiling heap taken blocks) {ptr : Nat}
    (hnone : ∀ block ∈ inUse blocks, dataPtr block.addr ≠ ptr) :
    ∃ outcome, kfree heap ptr = some (heap, outcome) ∧
      outcome ≠ .accepted := by
  unfold kfree
  by_cases hzero : ptr = 0
  · exact ⟨.ignored, by simp [hzero], by simp⟩
  by_cases haligned : ptr % alignment = 0
  swap
  · exact ⟨.rejected "misaligned pointer", by simp [hzero, haligned],
      by simp⟩
  by_cases hrange : heap.inHeapRange ptr = true
  swap
  · exact ⟨.rejected "pointer outside heap range",
      by simp [hzero, haligned, hrange], by simp⟩
  by_cases hlow : ptr < heap.heapMin + headerSize
  · exact ⟨.rejected "pointer too low for a valid block header",
      by simp [hzero, haligned, hrange, hlow], by simp⟩
  have htracked :=
    htiling.segment.isTrackedBlock_eq htiling.addr_lt (ptr - headerSize)
  by_cases hmem : ptr - headerSize ∈ blocks.map Block.addr
  swap
  · exact ⟨.rejected "pointer is not a tracked heap block",
      by simp [hzero, haligned, hrange, hlow, htracked, hmem], by simp⟩
  obtain ⟨block, hblock, haddr⟩ := List.mem_map.mp hmem
  have hfree : block.free = true := by
    by_contra hused
    refine hnone block (by simpa [inUse, hblock] using hused) ?_
    simp only [dataPtr, haddr]
    omega
  have hmagic : (heap.header (ptr - headerSize)).magic = magicFreed := by
    rw [← haddr, (htiling.segment.headers block hblock).2.2, hfree]
    rfl
  exact ⟨.rejected "double free detected",
    by simp [hzero, haligned, hrange, hlow, htracked, hmem, hmagic], by simp⟩

end Heap

end VenomOS
