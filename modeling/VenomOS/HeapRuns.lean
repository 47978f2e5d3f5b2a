/-
Runs of the allocator with any sizes and any pointers.  The block list stays a
tiling of the frames even where an allocation loses its block, and that is
enough to say what each single call returns and what it leaves alone.
-/
import VenomOS.HeapLive

namespace VenomOS

namespace Heap

open LinkedChain BlockTiling

variable {run run' : Run} {heap heap' : State} {taken frames : List Nat}
variable {blocks blocks' front back : List Block} {block : Block}
variable {need size ptr : Nat}

/-- The block that the header at `cell` describes. -/
def State.blockAt (heap : State) (cell : Nat) : Block :=
  ⟨cell, spanOf (heap.header cell).size, (heap.header cell).free⟩

/-- The blocks met on a walk along the list. -/
def State.blockList (heap : State) : Option (List Block) :=
  walkFold heap.next 0 (fun blocks cell => blocks ++ [heap.blockAt cell])
    addressCount heap.freeListHead []

theorem foldl_blockAt (heap : State) (cells : List Nat) (blocks : List Block) :
    cells.foldl (fun blocks cell => blocks ++ [heap.blockAt cell]) blocks =
      blocks ++ cells.map heap.blockAt := by
  induction cells generalizing blocks with
  | nil => simp
  | cons cell cells ih => simp [ih]

theorem Segment.blockAt_eq {start : Nat} (hseg : Segment heap start blocks)
    (hblock : block ∈ blocks) : heap.blockAt block.addr = block := by
  obtain ⟨hsize, hfree, _⟩ := hseg.headers block hblock
  rw [State.blockAt, hfree, spanOf, hsize]

theorem Tiling.length_lt (htiling : Tiling heap taken blocks) :
    (blocks.map Block.addr).length < addressCount := by
  simpa using htiling.segment.length_lt htiling.addr_lt

theorem Tiling.blockList_eq (htiling : Tiling heap taken blocks) :
    heap.blockList = some blocks := by
  have hsame : (blocks.map Block.addr).map heap.blockAt = blocks := by
    rw [List.map_map]
    exact (List.map_congr_left fun _ => htiling.segment.blockAt_eq).trans
      (List.map_id' blocks)
  rw [State.blockList, walkFold_eq htiling.segment.chain htiling.length_lt,
    foldl_blockAt, List.nil_append, hsame]

/-- The bytes of the payload of a block that has the given mark. -/
def markedSize (free : Bool) (block : Block) : Nat :=
  if block.free == free then block.span - headerSize else 0

theorem Segment.foldl_marked {start : Nat} (hseg : Segment heap start blocks)
    (free : Bool) {total : Nat} (htotal : total < 2 ^ 64) :
    (blocks.map Block.addr).foldl
        (fun total cell =>
          if (heap.header cell).free == free then
            (total + (heap.header cell).size) % 2 ^ 64
          else total) total =
      (total + (blocks.map (markedSize free)).sum) % 2 ^ 64 := by
  induction blocks generalizing start total with
  | nil => simpa using (Nat.mod_eq_of_lt htotal).symm
  | cons block blocks ih =>
      obtain ⟨_, _, ⟨hsize, hfree, _⟩, hrest⟩ := segment_cons_iff.mp hseg
      rw [List.map_cons, List.foldl_cons, List.map_cons, List.sum_cons,
        markedSize, hfree]
      by_cases hmark : (block.free == free) = true
      · rw [if_pos hmark, if_pos hmark, ih hrest (Nat.mod_lt _ (by decide))]
        omega
      · rw [if_neg hmark, if_neg hmark, ih hrest htotal, Nat.zero_add]

theorem sum_markedSize (hspan : ∀ block ∈ blocks, headerSize ≤ block.span) :
    (blocks.map (markedSize false)).sum + (blocks.map (markedSize true)).sum +
      headerSize * blocks.length = (blocks.map Block.span).sum := by
  induction blocks with
  | nil => rfl
  | cons block blocks ih =>
      have hrest := ih fun other hother =>
        hspan other (List.mem_cons_of_mem _ hother)
      have hhead := hspan block List.mem_cons_self
      simp only [List.map_cons, List.sum_cons, List.length_cons, markedSize,
        Nat.mul_add, Nat.mul_one]
      cases block.free <;> simp <;> omega

theorem frames_apart (hnodup : taken.Nodup)
    (hframes : ∀ frame ∈ taken, IsFrame frame) :
    (taken.map frameBlock).Pairwise fun first second =>
      first.limit ≤ second.addr ∨ second.limit ≤ first.addr := by
  refine List.pairwise_map.mpr (hnodup.imp_of_mem ?_)
  intro first second hfirst hsecond hne
  obtain ⟨i, rfl⟩ := (hframes first hfirst).aligned
  obtain ⟨j, rfl⟩ := (hframes second hsecond).aligned
  simp only [frameBlock, Block.limit, frameSize] at hne ⊢
  omega

section

variable (htiling : Tiling heap taken blocks)

include htiling

theorem Tiling.bytes_eq :
    bytes blocks = bytes (taken.map frameBlock) := by
  ext x
  rw [mem_bytes_iff, mem_bytes_iff, htiling.covers]
  simp [Covers, frameBlock, Block.limit]

theorem Tiling.sum_span (hnodup : taken.Nodup) :
    (blocks.map Block.span).sum = frameSize * taken.length := by
  rw [← card_bytes (htiling.ordered.imp Or.inl), htiling.bytes_eq,
    card_bytes (frames_apart hnodup htiling.isFrame), List.map_map]
  simp [Function.comp_def, frameBlock, Nat.mul_comm]

theorem Tiling.sum_span_lt :
    (blocks.map Block.span).sum < 2 ^ 64 := by
  have hsubset : bytes blocks ⊆ Finset.range (2 ^ 64 - 1) := by
    intro x hx
    obtain ⟨frame, hframe, _, hhigh⟩ :=
      (htiling.covers x).mp (mem_bytes_iff.mp hx)
    have hbound := (htiling.isFrame frame hframe).bounded
    rw [Finset.mem_range]
    simp only [addressCount] at hbound
    omega
  have hcard := Finset.card_le_card hsubset
  rw [card_bytes (htiling.ordered.imp Or.inl), Finset.card_range] at hcard
  omega

theorem Tiling.bytesMarked_eq (free : Bool) :
    heap.bytesMarked free = some (blocks.map (markedSize free)).sum := by
  have hsum := sum_markedSize fun _ => htiling.segment.span_ge
  have hlt := htiling.sum_span_lt
  rw [State.bytesMarked, walkFold_eq htiling.segment.chain htiling.length_lt,
    htiling.segment.foldl_marked free (by decide), Nat.zero_add,
    Nat.mod_eq_of_lt]
  cases free <;> omega

end

/-- The size is a `size_t`, and the frames are frames nobody holds. -/
def Call.Fresh (run : Run) : Call → Prop
  | .kmalloc size frames => size < 2 ^ 64 ∧ FreshFrames run.taken frames
  | .kfree _ => True

instance (run : Run) : ∀ call : Call, Decidable (call.Fresh run)
  | .kmalloc size frames => inferInstanceAs (Decidable
      (size < 2 ^ 64 ∧ FreshFrames run.taken frames))
  | .kfree _ => isTrue trivial

/-- The states reached from `heap::init` by calls with any sizes and any
pointers. -/
inductive Reached : Run → Prop
  | start (header : Nat → BlockHeader) : Reached (Run.start header)
  | call {run run' : Run} (call : Call) (hrun : Reached run)
      (hfresh : call.Fresh run) (hexec : run.exec call = some run') :
      Reached run'

/-- The invariant of these runs.  The payload of a block begins inside a frame
even when it is empty, so that `kfree` finds its pointer in range. -/
structure Tiled (run : Run) (blocks : List Block) : Prop where
  tiling : Tiling run.heap run.taken blocks
  backed : Backed headerSize blocks
  nodup : run.taken.Nodup

theorem Growth.none_fits
    (hgrowth : Growth need heap taken blocks frames heap' blocks')
    (hne : frames ≠ []) :
    ∀ block ∈ blocks, ¬ (block.free ∧ need ≤ block.span) := by
  cases hgrowth with
  | done => exact absurd rfl hne
  | grow _ _ _ _ hnone _ _ _ => exact hnone

theorem grown_merges (front : List Block) (frame : Nat) (back : List Block) :
    Merges (fun _ => true) (front ++ frameBlock frame :: back)
      (place (fun _ => true) front (frameBlock frame) back) :=
  place_merges rfl rfl fun _ => rfl

theorem grown_exists_free (front : List Block) (frame : Nat)
    (back : List Block) :
    ∃ block ∈ place (fun _ => true) front (frameBlock frame) back,
      block.free = true :=
  (grown_merges front frame back).exists_free
    ⟨frameBlock frame, by simp, rfl⟩

section

variable (hgrowth : Growth need heap taken blocks frames heap' blocks')

include hgrowth

theorem Growth.exists_free
    (hfree : frames ≠ [] ∨ ∃ block ∈ blocks, block.free = true) :
    ∃ block ∈ blocks', block.free = true := by
  induction hgrowth with
  | done => exact hfree.resolve_left fun hne => hne rfl
  | grow _ _ _ _ _ _ _ _ ih => exact ih (.inr (grown_exists_free _ _ _))

theorem Growth.backed (hbacked : Backed headerSize blocks) :
    Backed headerSize blocks' := by
  induction hgrowth with
  | done => exact hbacked
  | @grow _ _ _ _ _ frame front back _ _ _ _ _ _ _ _ _ ih =>
      refine ih ((grown_merges front frame back).backed ?_)
      intro block hblock
      rw [covers_append_iff, covers_cons_iff]
      by_cases hnew : block = frameBlock frame
      · refine .inr (.inl ⟨?_, ?_⟩)
        · rw [hnew]
          exact Nat.le_add_right _ _
        · rw [hnew]
          exact Nat.add_lt_add_left (by decide : headerSize < frameSize) _
      · have hold : block ∈ front ++ back := by
          simpa [hnew] using hblock
        rcases covers_append_iff.mp (hbacked block hold) with h | h
        · exact .inl h
        · exact .inr (.inr h)

theorem Growth.nodup (hnodup : taken.Nodup) : (taken ++ frames).Nodup := by
  induction hgrowth with
  | done => simpa using hnodup
  | grow _ hnew _ _ _ _ _ _ ih =>
      have hnodup' := hnodup.concat hnew
      rw [List.concat_eq_append] at hnodup'
      simpa using ih hnodup'

/-- Without a minimum to look for, one frame is enough. -/
theorem Growth.length_le_one (hneed : need ≤ headerSize) :
    frames.length ≤ 1 := by
  cases hgrowth with
  | done => simp
  | @grow _ _ _ _ frames frame front back _ _ _ _ _ _ _ hgrown hrest =>
      by_contra hlong
      have hne : frames ≠ [] := by
        rintro rfl
        simp at hlong
      obtain ⟨block, hblock, hfree⟩ := grown_exists_free front frame back
      have hspan := hgrown.segment.span_ge hblock
      exact hrest.none_fits hne block hblock ⟨hfree, hneed.trans hspan⟩

end

/-- What `kmalloc` does to a tiled heap. -/
theorem Tiled.kmalloc (htiled : Tiled run blocks)
    (hfresh : FreshFrames run.taken frames) (size : Nat) :
    ∃ result blocks', kmalloc run.heap size frames = some result ∧
      Tiling result.heap (run.taken ++ result.taken) blocks' ∧
      Backed headerSize blocks' ∧ (run.taken ++ result.taken).Nodup ∧
      (result.ptr ≠ 0 → ∃ block ∈ inUse blocks',
        result.ptr = dataPtr block.addr ∧
        spanOf (alignUp size alignment) ≤ block.span) := by
  by_cases hzero : size = 0
  · refine ⟨⟨0, run.heap, []⟩, blocks, by simp [Heap.kmalloc, hzero], ?_,
      htiled.backed, ?_, fun hptr => absurd rfl hptr⟩
    · simpa using htiled.tiling
    · simpa using htiled.nodup
  · obtain ⟨result, heap', blocks', hloop, hgrowth, _, hends⟩ :=
      kmallocLoop_cases (alignUp size alignment) (maxGrowAttempts + 1)
        htiled.tiling hfresh
    have hresult : Heap.kmalloc run.heap size frames = some result := by
      rw [Heap.kmalloc, if_neg hzero, hloop]
    have hgrown := hgrowth.tiling htiled.tiling
    have hbacked := hgrowth.backed htiled.backed
    rcases hends with
      ⟨front, block, back, rfl, hfree, hfits, hptr, hheap⟩ | ⟨hptr, hheap, _⟩
    · obtain ⟨htaken, span, hspan, hafter, _⟩ :=
        hgrown.take_carve (alignment_dvd_alignUp size) hfree hfits
      exact ⟨result, _, hresult, hheap ▸ htaken,
        carve_backed hfits (by decide) hbacked, hgrowth.nodup htiled.nodup,
        fun _ => ⟨⟨block.addr, span, false⟩, by rw [hafter]; simp, hptr,
          hspan⟩⟩
    · exact ⟨result, blocks', hresult, hheap ▸ hgrown, hbacked,
        hgrowth.nodup htiled.nodup, fun hne => absurd hptr hne⟩

theorem Tiled.kfree_rejects (htiled : Tiled run blocks)
    (hnone : ∀ block ∈ inUse blocks, dataPtr block.addr ≠ ptr) :
    ∃ outcome, outcome ≠ .accepted ∧
      kfree run.heap ptr = some (run.heap, outcome) := by
  obtain ⟨outcome, hfree, hne⟩ := htiled.tiling.kfree_rejected hnone
  exact ⟨outcome, hne, hfree⟩

/-- The blocks in use after a call of `kfree` are those from before without the
freed one. -/
theorem Tiled.kfree (htiled : Tiled run blocks) (ptr : Nat) :
    ∃ heap' outcome blocks', kfree run.heap ptr = some (heap', outcome) ∧
      Tiling heap' run.taken blocks' ∧ Backed headerSize blocks' ∧
      (∀ block ∈ inUse blocks', block ∈ inUse blocks ∧
        dataPtr block.addr ≠ ptr) := by
  by_cases hlive : ∃ block ∈ inUse blocks, dataPtr block.addr = ptr
  · obtain ⟨block, hblock, rfl⟩ := hlive
    obtain ⟨front, back, rfl, hused, hunique⟩ := htiled.tiling.split_used hblock
    have hbacked := htiled.backed
    obtain ⟨heap', hfree, htiling'⟩ := htiled.tiling.kfree_accepted hused
      (hbacked block (by simp))
    refine ⟨heap', .accepted, _, hfree, htiling', ?_, ?_⟩
    · refine (release_merges front block back).backed fun other hother => ?_
      have hcovers : ∀ x, Covers (front ++ block :: back) x →
          Covers (front ++ { block with free := true } :: back) x := by
        intro x
        simp only [covers_append_iff, covers_cons_iff]
        exact id
      refine hcovers _ ?_
      rcases List.mem_append.mp hother with hmem | hmem
      · exact hbacked other (by simp [hmem])
      · rcases List.mem_cons.mp hmem with rfl | hback
        · exact hbacked block (by simp)
        · exact hbacked other (by simp [hback])
    · intro other hother
      rw [inUse_release] at hother
      refine ⟨?_, fun haddr => hunique other hother (Nat.add_right_cancel haddr)⟩
      rw [mem_inUse_iff] at hother ⊢
      refine ⟨?_, hother.2⟩
      rcases List.mem_append.mp hother.1 with hmem | hmem
      · simp [hmem]
      · simp [hmem]
  · have hnone : ∀ block ∈ inUse blocks, dataPtr block.addr ≠ ptr :=
      fun block hblock haddr => hlive ⟨block, hblock, haddr⟩
    obtain ⟨outcome, _, hfree⟩ := htiled.kfree_rejects hnone
    exact ⟨run.heap, outcome, blocks, hfree, htiled.tiling, htiled.backed,
      fun block hblock => ⟨hblock, hnone block hblock⟩⟩

theorem Reached.tiled (hreached : Reached run) : ∃ blocks, Tiled run blocks := by
  induction hreached with
  | start header =>
      exact ⟨[], init_tiling header, by simp [Backed], List.nodup_nil⟩
  | call call _ hfresh hexec ih =>
      obtain ⟨blocks, htiled⟩ := ih
      cases call with
      | kmalloc size frames =>
          obtain ⟨result, blocks', hresult, htiling, hbacked, hnodup, _⟩ :=
            htiled.kmalloc hfresh.2 size
          simp only [Run.exec, hresult, Option.map_some,
            Option.some.injEq] at hexec
          subst hexec
          exact ⟨blocks', htiling, hbacked, hnodup⟩
      | kfree ptr =>
          obtain ⟨heap', outcome, blocks', hfree, htiling, hbacked, _⟩ :=
            htiled.kfree ptr
          simp only [Run.exec, hfree, Option.map_some,
            Option.some.injEq] at hexec
          subst hexec
          exact ⟨blocks', htiling, hbacked, htiled.nodup⟩

/-- The block list tiles the frames: it ends, it is in address order without
overlap, its blocks cover exactly the frames, and the totals the heap reports
add up to the frames.  Every further call returns. -/
structure Exact (run : Run) (blocks : List Block) : Prop where
  listed : run.heap.blockList = some blocks
  increasing : (blocks.map Block.addr).Pairwise (· < ·)
  granular : ∀ block ∈ blocks,
    alignment ∣ (run.heap.header block.addr).size
  apart : blocks.Pairwise fun first second => first.limit ≤ second.addr
  covers : ∀ x, (∃ block ∈ blocks, block.addr ≤ x ∧ x < block.limit) ↔
    ∃ frame ∈ run.taken, frame ≤ x ∧ x < frame + frameSize
  total : ∃ used free, run.heap.bytesInUse = some used ∧
    run.heap.bytesFree = some free ∧
    used + free + headerSize * blocks.length = frameSize * run.taken.length
  returns : ∀ call : Call, call.Fresh run → (run.exec call).isSome

theorem Tiled.exact (htiled : Tiled run blocks) : Exact run blocks where
  listed := htiled.tiling.blockList_eq
  increasing := by
    rw [List.pairwise_map]
    refine htiled.tiling.ordered.imp_of_mem fun {first second} hfirst _ h => ?_
    have hpos := htiled.tiling.span_pos first hfirst
    simp only [Block.limit] at h
    omega
  granular := by
    intro block hblock
    have hsize := (htiled.tiling.segment.headers block hblock).1
    have hspan := (htiled.tiling.granular block hblock).2
    simp only [alignment, headerSize] at hsize hspan ⊢
    omega
  apart := htiled.tiling.ordered
  covers := htiled.tiling.covers
  total := by
    refine ⟨_, _, htiled.tiling.bytesMarked_eq false,
      htiled.tiling.bytesMarked_eq true, ?_⟩
    rw [sum_markedSize fun _ => htiled.tiling.segment.span_ge,
      htiled.tiling.sum_span htiled.nodup]
  returns := by
    intro call hfresh
    cases call with
    | kmalloc size frames =>
        obtain ⟨result, _, hresult, _⟩ := htiled.kmalloc hfresh.2 size
        simp [Run.exec, hresult]
    | kfree ptr =>
        obtain ⟨_, _, _, hfree, _⟩ := htiled.kfree ptr
        simp [Run.exec, hfree]

theorem block_list_tiles_frames (hreached : Reached run) :
    ∃ blocks, Exact run blocks := by
  obtain ⟨blocks, htiled⟩ := hreached.tiled
  exact ⟨blocks, htiled.exact⟩

/-- Run a list of calls, stopping at a call that is not fresh. -/
def Run.follow : List Call → Run → Option Run
  | [], run => some run
  | call :: calls, run =>
      if call.Fresh run then run.exec call >>= Run.follow calls else none

theorem Reached.follow (calls : List Call) (hrun : Reached run)
    (hfollow : Run.follow calls run = some run') : Reached run' := by
  induction calls generalizing run with
  | nil =>
      cases hfollow
      exact hrun
  | cons call calls ih =>
      simp only [Run.follow] at hfollow
      split at hfollow
      · rename_i hcall
        obtain ⟨next, hexec, hrest⟩ := Option.bind_eq_some_iff.mp hfollow
        exact ih (Reached.call call hrun hcall hexec) hrest
      · cases hfollow

/-- Growth below and above the heap, a size that wraps to an empty block, a
growth that swallows a block in use, and pointers `kfree` refuses. -/
def wildCalls : List Call :=
  [.kmalloc 4000 [0x201000], .kmalloc (2 ^ 64 - 1) [], .kfree 0x201fe0,
    .kmalloc 100 [0x203000], .kfree 0x203021, .kmalloc 5000 [0x200000]]

theorem reached_wildCalls :
    ∃ run, run.taken = [0x201000, 0x203000, 0x200000] ∧ Reached run := by
  have htaken : (Run.follow wildCalls blankStart).map Run.taken =
      some [0x201000, 0x203000, 0x200000] := by decide +kernel
  obtain ⟨run, hfollow, hrun⟩ := Option.map_eq_some_iff.mp htaken
  exact ⟨run, hrun, Reached.follow wildCalls (Reached.start _) hfollow⟩

theorem block_list_tiles_wildCalls :
    ∃ run blocks, run.taken = [0x201000, 0x203000, 0x200000] ∧
      Exact run blocks := by
  obtain ⟨run, hrun, hreached⟩ := reached_wildCalls
  obtain ⟨blocks, hexact⟩ := block_list_tiles_frames hreached
  exact ⟨run, blocks, hrun, hexact⟩

/-- The pointer of an allocation heads an allocated block of at least `size`
bytes that lies inside the frames of the heap. -/
structure Serves (size : Nat) (result : Allocation) (taken : List Nat) :
    Prop where
  aligned : alignment ∣ result.ptr
  headed : headerSize ≤ result.ptr
  allocated : result.heap.allocatedAt (result.ptr - headerSize) = true
  enough : size ≤ (result.heap.header (result.ptr - headerSize)).size
  inside : ∀ x, result.ptr - headerSize ≤ x →
    x < result.ptr + (result.heap.header (result.ptr - headerSize)).size →
    ∃ frame ∈ taken, frame ≤ x ∧ x < frame + frameSize

theorem Tiling.serves_iff {result : Allocation}
    (htiling : Tiling result.heap taken blocks) (hblock : block ∈ inUse blocks)
    (hptr : result.ptr = dataPtr block.addr) :
    Serves size result taken ↔ spanOf size ≤ block.span := by
  obtain ⟨hmem, hused⟩ := mem_inUse_iff.mp hblock
  have hback : result.ptr - headerSize = block.addr := by
    rw [hptr, dataPtr, Nat.add_sub_cancel]
  have hspan := (htiling.segment.headers block hmem).1
  constructor
  · intro hserves
    have henough := hserves.enough
    rw [hback] at henough
    simp only [spanOf]
    omega
  · intro hfits
    refine ⟨?_, ?_, ?_, ?_, ?_⟩
    · rw [hptr]
      exact Nat.dvd_add (htiling.granular block hmem).1 (by decide)
    · rw [hptr]
      exact Nat.le_add_left _ _
    · rw [hback]
      exact (htiling.allocatedAt_iff _).mpr ⟨block, hblock, rfl⟩
    · rw [hback]
      simp only [spanOf] at hfits
      omega
    · intro x hlow hhigh
      rw [hback] at hlow hhigh
      refine htiling.frame_of_byte hmem hlow ?_
      simp only [Block.limit, hptr, dataPtr] at hhigh ⊢
      omega

theorem Tiling.span_lt (htiling : Tiling heap taken blocks)
    (hblock : block ∈ blocks) : block.span < 2 ^ 64 := by
  have hpos := htiling.span_pos block hblock
  obtain ⟨frame, hframe, _, hhigh⟩ := htiling.frame_of_byte hblock
    (Nat.le_add_right block.addr (block.span - 1))
    (by simp only [Block.limit]; omega)
  have hbound := (htiling.isFrame frame hframe).bounded
  simp only [addressCount] at hbound
  omega

theorem alignUp_wraps (hlow : 2 ^ 64 - 16 < size) (hhigh : size < 2 ^ 64) :
    alignUp size alignment = 0 := by
  simp only [alignUp, alignment]
  omega

/-- Nothing is free on the list. -/
def State.exhausted (heap : State) : Prop :=
  ∀ addr, heap.isTrackedBlock addr = some true →
    (heap.header addr).free = false

theorem Tiling.exhausted_iff (htiling : Tiling heap taken blocks) :
    heap.exhausted ↔ ∀ block ∈ blocks, block.free = false := by
  have htracked := htiling.segment.isTrackedBlock_eq htiling.addr_lt
  simp only [State.exhausted, htracked, Option.some.injEq, decide_eq_true_eq,
    List.mem_map, forall_exists_index, and_imp, forall_apply_eq_imp_iff₂]
  refine forall₂_congr fun block hblock => ?_
  rw [(htiling.segment.headers block hblock).2.1]

/-- A request that wraps to nothing fails only where not even an empty block
can be found. -/
theorem Tiled.wrapped_null_iff (htiled : Tiled run blocks)
    (hfresh : FreshFrames run.taken frames) {result : Allocation}
    (hwraps : alignUp size alignment = 0) (hpos : 1 ≤ size)
    (hresult : Heap.kmalloc run.heap size frames = some result) :
    result.ptr = 0 ↔ frames.headD 0 = 0 ∧ run.heap.exhausted := by
  obtain ⟨result', heap', blocks', hloop, hgrowth, hinitial, hends⟩ :=
    kmallocLoop_cases 0 (maxGrowAttempts + 1) htiled.tiling hfresh
  rw [Heap.kmalloc, if_neg (by omega), hwraps, hloop] at hresult
  cases hresult
  have hshort := hgrowth.length_le_one (by decide)
  have hgrown := hgrowth.tiling htiled.tiling
  rw [htiled.tiling.exhausted_iff]
  constructor
  · intro hnull
    rcases hends with ⟨_, block, _, _, _, _, hptr, _⟩ | ⟨_, _, hwhy⟩
    · rw [hnull] at hptr
      simp [dataPtr, headerSize] at hptr
    rcases hwhy with hlast | ⟨hnone, hhead⟩
    · simp only [hlast, maxGrowAttempts] at hshort
      omega
    have hnofree : ¬ ∃ block ∈ blocks', block.free = true := by
      rintro ⟨block, hblock, hfree⟩
      have hspan := hgrown.segment.span_ge hblock
      exact hnone block hblock ⟨hfree, by simpa [spanOf] using hspan⟩
    have hold : ∀ block ∈ blocks, block.free = false := by
      intro block hblock
      by_contra hused
      exact hnofree (hgrowth.exists_free
        (.inr ⟨block, hblock, by simpa using hused⟩))
    have htaken : result.taken = [] := by
      by_contra hne
      exact hnofree (hgrowth.exists_free (.inl hne))
    rw [htaken] at hhead
    exact ⟨by simpa using hhead, hold⟩
  · rintro ⟨hhead, hold⟩
    have htaken : result.taken = [] := by
      cases hcase : result.taken with
      | nil => rfl
      | cons frame rest =>
          rw [hcase] at hinitial hgrown
          obtain ⟨more, rfl⟩ := hinitial
          exact absurd hhead (hgrown.isFrame frame (by simp)).ne_zero
    rw [htaken] at hgrowth
    rcases hends with ⟨front, block, back, rfl, hfree, _⟩ | ⟨hnull, _⟩
    · cases hgrowth with
      | done =>
          have hused := hold block (by simp)
          exact absurd (hfree.symm.trans hused) (by decide)
    · exact hnull

/-- A pointer `kmalloc` returns heads a block of the size that was asked for,
unless rounding the size up wraps around. -/
theorem kmalloc_serves_iff (hreached : Reached run) (hpos : 1 ≤ size)
    (hsize : size < 2 ^ 64) (hfresh : FreshFrames run.taken frames) :
    (∃ result, kmalloc run.heap size frames = some result ∧
      (result.ptr ≠ 0 → Serves size result (run.taken ++ result.taken))) ↔
    size ≤ 2 ^ 64 - 16 ∨ (frames.headD 0 = 0 ∧ run.heap.exhausted) := by
  obtain ⟨blocks, htiled⟩ := hreached.tiled
  obtain ⟨result, blocks', hresult, htiling, _, _, hblock⟩ :=
    htiled.kmalloc hfresh size
  have hsame : (∃ result, kmalloc run.heap size frames = some result ∧
      (result.ptr ≠ 0 → Serves size result (run.taken ++ result.taken))) ↔
      (result.ptr ≠ 0 → Serves size result (run.taken ++ result.taken)) := by
    simp [hresult]
  rw [hsame]
  by_cases hsmall : size ≤ 2 ^ 64 - 16
  · simp only [hsmall, true_or, iff_true]
    intro hptr
    obtain ⟨block, hused, haddr, hspan⟩ := hblock hptr
    refine (htiling.serves_iff hused haddr).mpr (Nat.le_trans ?_ hspan)
    exact Nat.add_le_add_right (le_alignUp hsmall) _
  · have hwraps := alignUp_wraps (Nat.lt_of_not_le hsmall) hsize
    rw [← htiled.wrapped_null_iff hfresh hwraps hpos hresult]
    simp only [hsmall, false_or]
    constructor
    · intro hserves
      by_contra hptr
      obtain ⟨block, hused, haddr, _⟩ := hblock hptr
      have hfits := (htiling.serves_iff hused haddr).mp (hserves hptr)
      have hspan := htiling.span_lt (mem_inUse_iff.mp hused).1
      simp only [spanOf, headerSize] at hfits
      omega
    · intro hnull hptr
      exact absurd hnull hptr

theorem kmalloc_serves_start :
    ∃ result, kmalloc blankStart.heap 100 [0x200000] = some result ∧
      (result.ptr ≠ 0 → Serves 100 result ([] ++ result.taken)) :=
  (kmalloc_serves_iff (Reached.start _) (by decide) (by decide)
    (by decide)).mpr (.inl (by decide))

/-- The largest request is rounded up to nothing: the first frame of the heap
answers it with a block of no bytes. -/
theorem kmalloc_wraps_to_nothing :
    ∃ run size frames result, Reached run ∧ 1 ≤ size ∧ size < 2 ^ 64 ∧
      FreshFrames run.taken frames ∧
      kmalloc run.heap size frames = some result ∧ result.ptr ≠ 0 ∧
      (result.heap.header (result.ptr - headerSize)).size < size := by
  have hwrapped : (kmalloc blankStart.heap (2 ^ 64 - 1) [0x200000]).map
      (fun result => (result.ptr,
        (result.heap.header (result.ptr - headerSize)).size)) =
      some (0x200020, 0) := by decide +kernel
  obtain ⟨result, hresult, hpair⟩ := Option.map_eq_some_iff.mp hwrapped
  obtain ⟨hptr, hsize⟩ := Prod.mk.inj hpair
  refine ⟨blankStart, 2 ^ 64 - 1, [0x200000], result, Reached.start _,
    by decide, by decide, by decide, hresult, ?_, ?_⟩
  · rw [hptr]
    decide
  · rw [hsize]
    decide

/-- Calls of `kfree`, one after the other. -/
def freeAll (heap : State) : List Nat → Option State
  | [] => some heap
  | ptr :: ptrs => do
      let (heap, _) ← kfree heap ptr
      freeAll heap ptrs

/-- `ptr` is not the payload of an allocated block of the list. -/
def Stray (ptr : Nat) (blocks : List Block) : Prop :=
  ∀ block ∈ blocks, block.free = false → dataPtr block.addr ≠ ptr

/-- What one call of `kfree` does to the list: nothing on a stray pointer; on
the pointer of an allocated block it marks this block free and joins it with
its free neighbours.  Until the next allocation the pointer is stray. -/
structure FreesExactly (heap : State) (ptr : Nat) (blocks : List Block) :
    Prop where
  listed : heap.blockList = some blocks
  rejects : Stray ptr blocks →
    ∃ outcome, outcome ≠ .accepted ∧ kfree heap ptr = some (heap, outcome)
  releases : ∀ front block back, blocks = front ++ block :: back →
    block.free = false → dataPtr block.addr = ptr →
    ∃ heap' blocks', kfree heap ptr = some (heap', .accepted) ∧
      heap'.blockList = some blocks' ∧ Joined front block back blocks' ∧
      inUse blocks' = inUse (front ++ back)
  again : ∀ ptrs heap', freeAll heap (ptr :: ptrs) = some heap' →
    ∃ outcome, outcome ≠ .accepted ∧ kfree heap' ptr = some (heap', outcome)

theorem stray_iff : Stray ptr blocks ↔
    ∀ block ∈ inUse blocks, dataPtr block.addr ≠ ptr := by
  simp [Stray, mem_inUse_iff, and_imp]

/-- A stray pointer stays stray while blocks are freed. -/
theorem Tiled.freeAll_stray (htiled : Tiled run blocks)
    (hstray : Stray ptr blocks) (ptrs : List Nat)
    (hfree : freeAll run.heap ptrs = some heap') :
    ∃ outcome, outcome ≠ .accepted ∧
      Heap.kfree heap' ptr = some (heap', outcome) := by
  induction ptrs generalizing run blocks with
  | nil =>
      cases hfree
      exact htiled.kfree_rejects (stray_iff.mp hstray)
  | cons other ptrs ih =>
      obtain ⟨next, outcome, blocks', hkfree, htiling, hbacked, hused⟩ :=
        htiled.kfree other
      simp only [freeAll, hkfree, Option.bind_eq_bind, Option.bind_some] at hfree
      have htiled' : Tiled { run with heap := next } blocks' :=
        ⟨htiling, hbacked, htiled.nodup⟩
      refine ih htiled' (stray_iff.mpr fun block hblock => ?_) hfree
      exact stray_iff.mp hstray block (hused block hblock).1

theorem Tiled.freesExactly (htiled : Tiled run blocks) (ptr : Nat) :
    FreesExactly run.heap ptr blocks where
  listed := htiled.tiling.blockList_eq
  rejects := fun hstray => htiled.kfree_rejects (stray_iff.mp hstray)
  releases := by
    rintro front block back rfl hused rfl
    obtain ⟨heap', hfree, htiling⟩ := htiled.tiling.kfree_accepted hused
      (htiled.backed block (by simp))
    have hjoined : Joined front { block with free := true } back _ :=
      place_joined rfl front back
    exact ⟨heap', _, hfree, htiling.blockList_eq, hjoined,
      inUse_release front block back⟩
  again := by
    intro ptrs heap' hfree
    obtain ⟨next, outcome, blocks', hkfree, htiling, hbacked, hused⟩ :=
      htiled.kfree ptr
    simp only [freeAll, hkfree, Option.bind_eq_bind, Option.bind_some] at hfree
    have htiled' : Tiled { run with heap := next } blocks' :=
      ⟨htiling, hbacked, htiled.nodup⟩
    refine htiled'.freeAll_stray (stray_iff.mpr fun block hblock => ?_) ptrs
      hfree
    exact (hused block hblock).2

theorem kfree_frees_exactly (hreached : Reached run) (ptr : Nat) :
    ∃ blocks, FreesExactly run.heap ptr blocks := by
  obtain ⟨blocks, htiled⟩ := hreached.tiled
  exact ⟨blocks, htiled.freesExactly ptr⟩

theorem kfree_frees_exactly_wildCalls :
    ∃ (run : Run) (blocks : List Block),
      run.taken = [0x201000, 0x203000, 0x200000] ∧
      FreesExactly run.heap 0x203020 blocks := by
  obtain ⟨run, hrun, hreached⟩ := reached_wildCalls
  obtain ⟨blocks, hexact⟩ := kfree_frees_exactly hreached 0x203020
  exact ⟨run, blocks, hrun, hexact⟩

end Heap

end VenomOS
