/-
Runs of the allocator.  A run remembers the pointers that were returned and
not yet freed; the question is whether each of them still owns its block.
-/
import VenomOS.HeapTiling

namespace VenomOS

namespace Heap

open BlockTiling

/-- One call of the public interface.  An allocation carries the answers it
gets from `pmm::alloc_frame`. -/
inductive Call where
  | kmalloc (size : Nat) (frames : List Nat)
  | kfree (ptr : Nat)

/-- The heap, the frames it took and the live allocations with the sizes they
were asked for. -/
structure Run where
  heap : State
  taken : List Nat
  live : List (Nat × Nat)

def Run.start (header : Nat → BlockHeader) : Run := ⟨init header, [], []⟩

def Run.exec (run : Run) : Call → Option Run
  | .kmalloc size frames =>
      (kmalloc run.heap size frames).map fun result =>
        ⟨result.heap, run.taken ++ result.taken,
          if result.ptr = 0 then run.live else (result.ptr, size) :: run.live⟩
  | .kfree ptr =>
      (kfree run.heap ptr).map fun result =>
        ⟨result.1, run.taken, run.live.filter fun entry => entry.1 != ptr⟩

/-- The calls considered: sizes up to `2 ^ 63`, and frames nobody holds. -/
def Call.Allowed (run : Run) : Call → Prop
  | .kmalloc size frames =>
      1 ≤ size ∧ size ≤ 2 ^ 63 ∧ FreshFrames run.taken frames
  | .kfree _ => True

instance (run : Run) : ∀ call : Call, Decidable (call.Allowed run)
  | .kmalloc size frames => inferInstanceAs (Decidable
      (1 ≤ size ∧ size ≤ 2 ^ 63 ∧ FreshFrames run.taken frames))
  | .kfree _ => isTrue trivial

/-- An allocated block of the list starts at `addr`. -/
def State.allocatedAt (heap : State) (addr : Nat) : Bool :=
  heap.isTrackedBlock addr == some true && !(heap.header addr).free

/-- The call is offered no frame that ends where an allocated block starts. -/
def Call.SafeGrowth (run : Run) : Call → Prop
  | .kmalloc _ frames =>
      ∀ frame ∈ frames, frame ≠ 0 →
        run.heap.allocatedAt (frame + frameSize) = false
  | .kfree _ => True

instance (run : Run) : ∀ call : Call, Decidable (call.SafeGrowth run)
  | .kmalloc _ frames => inferInstanceAs (Decidable
      (∀ frame ∈ frames, frame ≠ 0 →
        run.heap.allocatedAt (frame + frameSize) = false))
  | .kfree _ => isTrue trivial

/-- The states reached from `heap::init` by allowed calls that meet `ok`. -/
inductive Reaches (ok : Run → Call → Prop) : Run → Prop
  | start (header : Nat → BlockHeader) : Reaches ok (Run.start header)
  | call {run run' : Run} (call : Call) (hrun : Reaches ok run)
      (hallowed : call.Allowed run) (hok : ok run call)
      (hexec : run.exec call = some run') : Reaches ok run'

/-- Live allocations are disjoint and each still has its block: on the list,
marked allocated, large enough, and accepted by `kfree`.  Every allowed call
returns. -/
structure Intact (run : Run) : Prop where
  disjoint : run.live.Pairwise fun first second =>
    first.1 + first.2 ≤ second.1 ∨ second.1 + second.2 ≤ first.1
  tracked : ∀ entry ∈ run.live, headerSize ≤ entry.1 ∧
    run.heap.allocatedAt (entry.1 - headerSize) = true ∧
    (run.heap.header (entry.1 - headerSize)).magic = magicAllocated ∧
    entry.2 ≤ (run.heap.header (entry.1 - headerSize)).size
  accepted : ∀ entry ∈ run.live,
    ∃ heap', kfree run.heap entry.1 = some (heap', .accepted)
  returns : ∀ call : Call, call.Allowed run → (run.exec call).isSome

variable {run run' : Run} {blocks blocks' : List Block} {block : Block}

/-- The live allocations are the blocks in use. -/
structure Owns (live : List (Nat × Nat)) (blocks : List Block) : Prop where
  nodup : (live.map Prod.fst).Nodup
  block_of : ∀ entry ∈ live, ∃ block ∈ inUse blocks,
    entry.1 = dataPtr block.addr ∧ 0 < entry.2 ∧ spanOf entry.2 ≤ block.span
  entry_of : ∀ block ∈ inUse blocks, ∃ entry ∈ live,
    entry.1 = dataPtr block.addr

/-- The invariant of the runs. -/
def Sound (run : Run) : Prop :=
  ∃ blocks, Tiling run.heap run.taken blocks ∧ Owns run.live blocks

theorem start_sound (header : Nat → BlockHeader) : Sound (Run.start header) :=
  ⟨[], init_tiling header, List.nodup_nil, by simp [Run.start],
    by simp [inUse]⟩

theorem mem_inUse_iff : block ∈ inUse blocks ↔
    block ∈ blocks ∧ block.free = false := by
  simp [inUse]

variable {live : List (Nat × Nat)} {taken : List Nat} {heap : State}

theorem Tiling.allocatedAt_iff (htiling : Tiling heap taken blocks)
    (addr : Nat) :
    heap.allocatedAt addr = true ↔ ∃ block ∈ inUse blocks, block.addr = addr := by
  have htracked := htiling.segment.isTrackedBlock_eq htiling.addr_lt addr
  simp only [State.allocatedAt, htracked, Bool.and_eq_true, beq_iff_eq,
    Option.some.injEq, decide_eq_true_eq, Bool.not_eq_true', mem_inUse_iff,
    List.mem_map]
  constructor
  · rintro ⟨⟨block, hblock, rfl⟩, hused⟩
    refine ⟨block, ⟨hblock, ?_⟩, rfl⟩
    rw [← (htiling.segment.headers block hblock).2.1, hused]
  · rintro ⟨block, ⟨hblock, hused⟩, rfl⟩
    refine ⟨⟨block, hblock, rfl⟩, ?_⟩
    rw [(htiling.segment.headers block hblock).2.1, hused]

/-- A failed allocation changes no owner, a successful one adds one. -/
theorem Owns.allocate {size span ptr : Nat} (howns : Owns live blocks)
    (hpos : 0 < size) (hspan : spanOf size ≤ span)
    (halloc : Allocates span ptr blocks blocks')
    (hunique : ∀ first ∈ inUse blocks', ∀ second ∈ inUse blocks',
      first.addr = second.addr → first = second)
    (hnodup : (inUse blocks').Nodup) :
    Owns (if ptr = 0 then live else (ptr, size) :: live) blocks' := by
  rcases halloc with ⟨rfl, hsame⟩ | ⟨front, back, block, hold, hnew, rfl, hfits⟩
  · refine ⟨by simpa using howns.nodup, ?_, ?_⟩
    · simpa [hsame] using howns.block_of
    · simpa [hsame] using howns.entry_of
  · have hptr : dataPtr block.addr ≠ 0 := by simp [dataPtr, headerSize]
    have hkept : ∀ other, other ∈ inUse blocks → other ∈ inUse blocks' := by
      intro other hother
      rw [hnew]
      rw [hold] at hother
      rcases List.mem_append.mp hother with h | h <;> simp [h]
    have hblock : block ∈ inUse blocks' := by simp [hnew]
    have hfresh : block ∉ inUse blocks := by
      rw [hnew] at hnodup
      rw [hold]
      exact (List.nodup_middle.mp hnodup).notMem
    rw [if_neg hptr]
    refine ⟨?_, ?_, ?_⟩
    · refine List.nodup_cons.mpr ⟨fun hmem => ?_, howns.nodup⟩
      obtain ⟨entry, hentry, haddr⟩ := List.mem_map.mp hmem
      obtain ⟨other, hother, hother', _⟩ := howns.block_of entry hentry
      have hsame : other = block := by
        refine hunique other (hkept other hother) block hblock ?_
        simp only [dataPtr] at haddr hother'
        omega
      exact hfresh (hsame ▸ hother)
    · refine List.forall_mem_cons.mpr ⟨?_, ?_⟩
      · exact ⟨block, hblock, rfl, hpos, Nat.le_trans hspan hfits⟩
      · intro entry hentry
        obtain ⟨other, hother, hrest⟩ := howns.block_of entry hentry
        exact ⟨other, hkept other hother, hrest⟩
    · intro other hother
      by_cases hsame : other = block
      · exact ⟨_, List.mem_cons_self, by rw [hsame]⟩
      · have hmem : other ∈ inUse blocks := by
          rw [hnew] at hother
          rw [hold]
          simpa [hsame] using hother
        obtain ⟨entry, hentry, haddr⟩ := howns.entry_of other hmem
        exact ⟨entry, List.mem_cons_of_mem _ hentry, haddr⟩

theorem Tiling.inUse_unique (htiling : Tiling heap taken blocks) :
    ∀ first ∈ inUse blocks, ∀ second ∈ inUse blocks,
      first.addr = second.addr → first = second :=
  fun _ hfirst _ hsecond => htiling.eq_of_addr_eq
    (mem_inUse_iff.mp hfirst).1 (mem_inUse_iff.mp hsecond).1

theorem Tiling.inUse_nodup (htiling : Tiling heap taken blocks) :
    (inUse blocks).Nodup :=
  (htiling.segment.nodup.of_map _).filter _

/-- What an allowed `kmalloc` does to a tiled heap. -/
theorem Tiling.kmalloc_returns {taken frames : List Nat} {size : Nat}
    (htiling : Tiling heap taken blocks) (hpos : 1 ≤ size)
    (hfresh : FreshFrames taken frames) :
    ∃ result blocks', kmalloc heap size frames = some result ∧
      Tiling result.heap (taken ++ result.taken) blocks' ∧
      (∀ frame ∈ result.taken, frame ∈ frames) ∧
      (ClearBehind result.taken blocks →
        Allocates (spanOf (alignUp size alignment)) result.ptr blocks
          blocks') := by
  obtain ⟨result, blocks', hloop, htiling', htaken, halloc⟩ :=
    kmallocLoop_tiling (alignment_dvd_alignUp size) (maxGrowAttempts + 1)
      htiling hfresh
  refine ⟨result, blocks', ?_, htiling', htaken, halloc⟩
  rw [kmalloc, if_neg (by omega), hloop]

theorem kmalloc_sound {size : Nat} {frames : List Nat} (hrun : Sound run)
    (hallowed : (Call.kmalloc size frames).Allowed run)
    (hsafe : (Call.kmalloc size frames).SafeGrowth run)
    (hexec : run.exec (.kmalloc size frames) = some run') : Sound run' := by
  obtain ⟨blocks, htiling, howns⟩ := hrun
  obtain ⟨hpos, hsize, hfresh⟩ := hallowed
  obtain ⟨result, blocks', hresult, htiling', htaken, halloc⟩ :=
    htiling.kmalloc_returns hpos hfresh
  have hclear : ClearBehind result.taken blocks := by
    intro frame hframe block hblock haddr
    have hne := (htiling'.isFrame frame (by simp [hframe])).ne_zero
    have hnot := hsafe frame (htaken frame hframe) hne
    have hthere := (htiling.allocatedAt_iff (frame + frameSize)).mpr
      ⟨block, hblock, haddr⟩
    exact Bool.false_ne_true (hnot.symm.trans hthere)
  simp only [Run.exec, hresult, Option.map_some, Option.some.injEq] at hexec
  subst hexec
  refine ⟨blocks', htiling', ?_⟩
  refine howns.allocate hpos ?_ (halloc hclear) htiling'.inUse_unique
    htiling'.inUse_nodup
  exact Nat.add_le_add_right (le_alignUp (by omega)) _

/-- Releasing one block in use drops its owner. -/
theorem Owns.free {front back : List Block}
    (howns : Owns live (front ++ block :: back)) (hused : block.free = false)
    (hunique : ∀ other ∈ inUse (front ++ back), other.addr ≠ block.addr)
    (hsame : inUse blocks' = inUse (front ++ back)) :
    Owns (live.filter fun entry => entry.1 != dataPtr block.addr) blocks' := by
  have hmem : ∀ other, other ∈ inUse (front ++ block :: back) ↔
      other = block ∨ other ∈ inUse (front ++ back) := by
    intro other
    simp only [mem_inUse_iff, List.mem_append, List.mem_cons]
    grind
  refine ⟨?_, ?_, ?_⟩
  · exact howns.nodup.sublist (List.filter_sublist.map _)
  · intro entry hentry
    obtain ⟨hlive, hne⟩ := List.mem_filter.mp hentry
    obtain ⟨other, hother, haddr, hrest⟩ := howns.block_of entry hlive
    rcases (hmem other).mp hother with rfl | hkept
    · simp [haddr] at hne
    · exact ⟨other, hsame ▸ hkept, haddr, hrest⟩
  · intro other hother
    rw [hsame] at hother
    obtain ⟨entry, hentry, haddr⟩ :=
      howns.entry_of other ((hmem other).mpr (Or.inr hother))
    refine ⟨entry, List.mem_filter.mpr ⟨hentry, ?_⟩, haddr⟩
    have hne := hunique other hother
    simp only [haddr, dataPtr, bne_iff_ne, ne_eq]
    omega

/-- A block in use at its place in the list. -/
theorem Tiling.split_used (htiling : Tiling heap taken blocks)
    (hblock : block ∈ inUse blocks) :
    ∃ front back, blocks = front ++ block :: back ∧ block.free = false ∧
      ∀ other ∈ inUse (front ++ back), other.addr ≠ block.addr := by
  obtain ⟨hmem, hused⟩ := mem_inUse_iff.mp hblock
  obtain ⟨front, back, rfl⟩ := List.append_of_mem hmem
  refine ⟨front, back, rfl, hused, fun other hother haddr => ?_⟩
  have hnodup := htiling.segment.nodup
  simp only [List.map_append, List.map_cons] at hnodup
  refine (List.nodup_middle.mp hnodup).notMem ?_
  rw [← List.map_append, ← haddr]
  exact List.mem_map_of_mem (mem_inUse_iff.mp hother).1

theorem Owns.span_gt {entry : Nat × Nat} (howns : Owns live blocks)
    (hentry : entry ∈ live) :
    ∃ block ∈ inUse blocks, entry.1 = dataPtr block.addr ∧
      spanOf entry.2 ≤ block.span ∧ headerSize < block.span := by
  obtain ⟨block, hblock, haddr, hpos, hspan⟩ := howns.block_of entry hentry
  refine ⟨block, hblock, haddr, hspan, ?_⟩
  simp only [spanOf] at hspan
  omega

/-- `kfree` accepts a live pointer and drops its owner; it rejects every other
pointer and changes nothing. -/
theorem Tiling.kfree_cases (htiling : Tiling heap taken blocks)
    (howns : Owns live blocks) (ptr : Nat) :
    (∃ heap' blocks', kfree heap ptr = some (heap', .accepted) ∧
        Tiling heap' taken blocks' ∧
        Owns (live.filter fun entry => entry.1 != ptr) blocks') ∨
      ((∀ entry ∈ live, entry.1 ≠ ptr) ∧
        ∃ outcome, kfree heap ptr = some (heap, outcome)) := by
  by_cases hlive : ∃ entry ∈ live, entry.1 = ptr
  · obtain ⟨entry, hentry, rfl⟩ := hlive
    obtain ⟨block, hblock, haddr, _, hspan⟩ := howns.span_gt hentry
    obtain ⟨front, back, rfl, hused, hunique⟩ := htiling.split_used hblock
    have hbacked : Covers (front ++ block :: back) (dataPtr block.addr) :=
      ⟨block, by simp, Nat.le_add_right _ _, Nat.add_lt_add_left hspan _⟩
    obtain ⟨heap', hfree, htiling'⟩ := htiling.kfree_accepted hused hbacked
    rw [haddr]
    exact Or.inl ⟨heap', _, hfree, htiling',
      howns.free hused hunique (inUse_release front block back)⟩
  · have hnone : ∀ block ∈ inUse blocks, dataPtr block.addr ≠ ptr := by
      rintro block hblock rfl
      exact hlive (howns.entry_of block hblock)
    obtain ⟨outcome, hfree, _⟩ := htiling.kfree_rejected hnone
    exact Or.inr ⟨fun entry hentry heq => hlive ⟨entry, hentry, heq⟩,
      outcome, hfree⟩

theorem kfree_sound {ptr : Nat} (hrun : Sound run)
    (hexec : run.exec (.kfree ptr) = some run') : Sound run' := by
  obtain ⟨blocks, htiling, howns⟩ := hrun
  rcases htiling.kfree_cases howns ptr with
    ⟨heap', blocks', hfree, htiling', howns'⟩ | ⟨hnone, outcome, hfree⟩
  · simp only [Run.exec, hfree, Option.map_some, Option.some.injEq] at hexec
    subst hexec
    exact ⟨blocks', htiling', howns'⟩
  · have hkeep : (run.live.filter fun entry => entry.1 != ptr) = run.live :=
      List.filter_eq_self.mpr fun entry hentry => by
        simpa using hnone entry hentry
    simp only [Run.exec, hfree, Option.map_some, Option.some.injEq,
      hkeep] at hexec
    subst hexec
    exact ⟨blocks, htiling, howns⟩

theorem Sound.pairwise (hrun : Sound run) :
    run.live.Pairwise fun first second =>
      first.1 + first.2 ≤ second.1 ∨ second.1 + second.2 ≤ first.1 := by
  obtain ⟨blocks, htiling, howns⟩ := hrun
  have hnodup := List.pairwise_map.mp howns.nodup
  refine hnodup.imp_of_mem fun {first second} hfirst hsecond hne => ?_
  obtain ⟨block, hblock, haddr, hspan, _⟩ := howns.span_gt hfirst
  obtain ⟨block', hblock', haddr', hspan', _⟩ := howns.span_gt hsecond
  have hapart : block ≠ block' := by
    rintro rfl
    exact hne (haddr.trans haddr'.symm)
  have hsides := htiling.ordered.separated (mem_inUse_iff.mp hblock).1
    (mem_inUse_iff.mp hblock').1 hapart
  simp only [Block.limit, dataPtr, spanOf] at *
  omega

theorem Sound.intact (hrun : Sound run) : Intact run := by
  have hpairwise := hrun.pairwise
  obtain ⟨blocks, htiling, howns⟩ := hrun
  refine ⟨hpairwise, ?_, ?_, ?_⟩
  · intro entry hentry
    obtain ⟨block, hblock, haddr, hspan, _⟩ := howns.span_gt hentry
    obtain ⟨hmem, hused⟩ := mem_inUse_iff.mp hblock
    obtain ⟨hsize, _, hmagic⟩ := htiling.segment.headers block hmem
    have hback : entry.1 - headerSize = block.addr := by
      rw [haddr, dataPtr, Nat.add_sub_cancel]
    rw [hback]
    refine ⟨?_, ?_, ?_, ?_⟩
    · rw [haddr]
      exact Nat.le_add_left _ _
    · exact (htiling.allocatedAt_iff _).mpr ⟨block, hblock, rfl⟩
    · rw [hmagic, hused]
      rfl
    · simp only [spanOf] at hspan
      omega
  · intro entry hentry
    rcases htiling.kfree_cases howns entry.1 with
      ⟨heap', _, hfree, _⟩ | ⟨hnone, _⟩
    · exact ⟨heap', hfree⟩
    · exact absurd rfl (hnone entry hentry)
  · intro call hallowed
    cases call with
    | kmalloc size frames =>
        obtain ⟨result, _, hresult, _⟩ :=
          htiling.kmalloc_returns hallowed.1 hallowed.2.2
        simp [Run.exec, hresult]
    | kfree ptr =>
        rcases htiling.kfree_cases howns ptr with
          ⟨_, _, hfree, _⟩ | ⟨_, _, hfree⟩
        · simp [Run.exec, hfree]
        · simp [Run.exec, hfree]

theorem Reaches.sound (hreaches : Reaches (fun run call => call.SafeGrowth run)
    run) : Sound run := by
  induction hreaches with
  | start header => exact start_sound header
  | call call _ hallowed hok hexec ih =>
      cases call with
      | kmalloc size frames => exact kmalloc_sound ih hallowed hok hexec
      | kfree ptr => exact kfree_sound ih hexec

/-- Run a list of calls, stopping at a call that is not allowed. -/
def Run.replay (ok : Run → Call → Prop) [∀ run, DecidablePred (ok run)] :
    List Call → Run → Option Run
  | [], run => some run
  | call :: calls, run =>
      if call.Allowed run ∧ ok run call then
        run.exec call >>= Run.replay ok calls
      else none

theorem Reaches.replay {ok : Run → Call → Prop}
    [∀ run, DecidablePred (ok run)] (calls : List Call) (hrun : Reaches ok run)
    (hreplay : Run.replay ok calls run = some run') : Reaches ok run' := by
  induction calls generalizing run with
  | nil =>
      cases hreplay
      exact hrun
  | cons call calls ih =>
      simp only [Run.replay] at hreplay
      split at hreplay
      · rename_i hcall
        obtain ⟨next, hexec, hrest⟩ := Option.bind_eq_some_iff.mp hreplay
        exact ih (Reaches.call call hrun hcall.1 hcall.2 hexec) hrest
      · cases hreplay

/-- A heap in memory that holds no header. -/
def blankStart : Run := Run.start fun _ => ⟨0, false, 0, 0⟩

/-- As long as no call is offered a frame that ends where an allocated block starts,
every live allocation keeps its block. -/
theorem live_allocations_intact
    (hreaches : Reaches (fun run call => call.SafeGrowth run) run) :
    Intact run :=
  hreaches.sound.intact

/-- Growth into a frame above the heap, a split, a release and a growth into a
frame below the heap whose neighbour is free. -/
def safeCalls : List Call :=
  [.kmalloc 4000 [0x201000], .kmalloc 100 [0x203000], .kmalloc 200 [],
    .kfree 0x201020, .kmalloc 5000 [0x200000]]

theorem live_allocations_intact_safeCalls :
    ∃ run, run.live = [(0x200020, 5000), (0x2030b0, 200), (0x203020, 100)] ∧
      Intact run := by
  have hlive : (Run.replay (fun run call => call.SafeGrowth run) safeCalls
      blankStart).map Run.live =
        some [(0x200020, 5000), (0x2030b0, 200), (0x203020, 100)] := by
    decide +kernel
  obtain ⟨run, hreplay, hrun⟩ := Option.map_eq_some_iff.mp hlive
  exact ⟨run, hrun, live_allocations_intact
    (Reaches.replay safeCalls (Reaches.start _) hreplay)⟩

/-- The second frame lies right below the first one, whose block is in use. -/
def swallowingCalls : List Call :=
  [.kmalloc 4064 [0x201000], .kmalloc 4064 [0x200000], .kmalloc 4064 []]

/-- Growth into the frame below a block in use swallows this block, and the
next allocation hands the same pointer out again. -/
theorem live_allocation_swallowed :
    ∃ run, Reaches (fun _ _ => True) run ∧
      run.live = [(0x201020, 4064), (0x200020, 4064), (0x201020, 4064)] ∧
      ¬ Intact run := by
  have hlive : (Run.replay (fun _ _ => True) swallowingCalls blankStart).map
      Run.live =
        some [(0x201020, 4064), (0x200020, 4064), (0x201020, 4064)] := by decide
  obtain ⟨run, hreplay, hrun⟩ := Option.map_eq_some_iff.mp hlive
  refine ⟨run, Reaches.replay swallowingCalls (Reaches.start _) hreplay, hrun,
    fun hintact => ?_⟩
  have hdisjoint := hintact.disjoint
  rw [hrun] at hdisjoint
  revert hdisjoint
  decide

end Heap

end VenomOS
