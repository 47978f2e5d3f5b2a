/-
The pointer-level heap refines an ordered list of blocks.  A segment of headers
linked in memory represents a list of abstract blocks; each pointer update of
the allocator is matched by one list operation.
-/
import VenomOS.Heap
import VenomOS.BlockTiling

namespace VenomOS

namespace Heap

open LinkedChain BlockTiling

def magicOf (free : Bool) : Nat :=
  if free then magicFreed else magicAllocated

/-- The header in memory is the header of the abstract block. -/
def Describes (header : BlockHeader) (block : Block) : Prop :=
  header.size + headerSize = block.span ∧ header.free = block.free ∧
    header.magic = magicOf block.free

/-- The headers reached from `start` are those of `blocks`. -/
structure Segment (heap : State) (start : Nat) (blocks : List Block) :
    Prop where
  chain : Chain heap.next 0 start (blocks.map Block.addr)
  headers : ∀ block ∈ blocks, Describes (heap.header block.addr) block

variable {heap heap' : State} {start : Nat} {block prev : Block}
variable {blocks front back rest : List Block}

theorem segment_nil_iff : Segment heap start [] ↔ start = 0 :=
  ⟨fun hseg => hseg.chain, fun hstart => ⟨hstart, by simp⟩⟩

theorem segment_cons_iff :
    Segment heap start (block :: blocks) ↔
      start = block.addr ∧ block.addr ≠ 0 ∧
        Describes (heap.header block.addr) block ∧
        Segment heap (heap.next block.addr) blocks := by
  constructor
  · rintro ⟨⟨hstart, hne, hchain⟩, hheaders⟩
    exact ⟨hstart, hne, hheaders block List.mem_cons_self, hchain,
      fun other hother => hheaders other (List.mem_cons_of_mem _ hother)⟩
  · rintro ⟨hstart, hne, hdescribes, hchain, hheaders⟩
    exact ⟨⟨hstart, hne, hchain⟩,
      List.forall_mem_cons.mpr ⟨hdescribes, hheaders⟩⟩

section

variable (hseg : Segment heap start blocks)

include hseg

theorem Segment.nodup :
    (blocks.map Block.addr).Nodup := hseg.chain.nodup

theorem Segment.addr_ne_zero (hblock : block ∈ blocks) : block.addr ≠ 0 :=
  hseg.chain.ne_nil_of_mem (List.mem_map_of_mem hblock)

theorem Segment.span_ge (hblock : block ∈ blocks) :
    headerSize ≤ block.span := by
  have := (hseg.headers block hblock).1
  omega

/-- Only the headers of the listed blocks matter. -/
theorem Segment.congr
    (hsame : ∀ block ∈ blocks,
      heap'.header block.addr = heap.header block.addr) :
    Segment heap' start blocks := by
  refine ⟨hseg.chain.congr ?_, ?_⟩
  · intro addr haddr
    obtain ⟨block, hblock, rfl⟩ := List.mem_map.mp haddr
    simp only [State.next, hsame block hblock]
  · intro block hblock
    rw [hsame block hblock]
    exact hseg.headers block hblock

end

@[simp]
theorem setHeader_header_self (heap : State) (addr : Nat)
    (value : BlockHeader) : (heap.setHeader addr value).header addr = value := by
  simp [State.setHeader]

theorem setHeader_header_of_ne (heap : State) {addr other : Nat}
    (value : BlockHeader) (hne : other ≠ addr) :
    (heap.setHeader addr value).header other = heap.header other := by
  simp [State.setHeader, hne]

/-- Replace a segment from one block on, keeping the headers before it. -/
theorem Segment.splice {old tail : List Block} {block' : Block}
    (hseg : Segment heap start (front ++ block :: old))
    (hsame : ∀ other ∈ front,
      heap'.header other.addr = heap.header other.addr)
    (haddr : block'.addr = block.addr)
    (htail : Segment heap' block.addr (block' :: tail)) :
    Segment heap' start (front ++ block' :: tail) := by
  rw [segment_cons_iff] at htail
  obtain ⟨_, _, hdescribes, hrest⟩ := htail
  refine ⟨?_, ?_⟩
  · have hchain := hseg.chain
    simp only [List.map_append, List.map_cons, haddr] at hchain ⊢
    refine hchain.splice ?_ (haddr ▸ hrest.chain)
    intro addr hmem
    obtain ⟨other, hother, rfl⟩ := List.mem_map.mp hmem
    simp only [State.next, hsame other hother]
  · intro other hother
    rcases List.mem_append.mp hother with hfront | hcons
    · rw [hsame other hfront]
      exact hseg.headers other (List.mem_append_left _ hfront)
    · rcases List.mem_cons.mp hcons with rfl | hmem
      · exact hdescribes
      · exact hrest.headers other hmem

section

variable (hseg : Segment heap start (front ++ block :: back))

include hseg

theorem Segment.apart :
    (∀ other ∈ front, other.addr ≠ block.addr) ∧
      ∀ other ∈ back, other.addr ≠ block.addr := by
  have hnodup := hseg.nodup
  simp only [List.map_append, List.map_cons, List.nodup_append,
    List.nodup_cons, List.mem_map, not_exists, not_and, List.mem_cons] at hnodup
  refine ⟨fun other hother => ?_, hnodup.2.1.1⟩
  exact hnodup.2.2 _ ⟨other, hother, rfl⟩ _ (Or.inl rfl)

theorem Segment.tail_of_split :
    Segment heap (heap.next block.addr) back := by
  have hchain := hseg.chain
  rw [List.map_append, List.map_cons] at hchain
  exact ⟨hchain.tail_of_split,
    fun other hother => hseg.headers other (by simp [hother])⟩

/-- Write the header of one block, with another list behind it. -/
theorem Segment.setHeader {tail : List Block} {block' : Block}
    {value : BlockHeader} (haddr : block'.addr = block.addr)
    (hvalue : Describes value block') (htail : Segment heap value.next tail)
    (hapart : ∀ other ∈ tail, other.addr ≠ block.addr) :
    Segment (heap.setHeader block.addr value) start
      (front ++ block' :: tail) := by
  refine hseg.splice ?_ haddr ?_
  · intro other hother
    exact setHeader_header_of_ne _ _ (hseg.apart.1 other hother)
  · have hto : (heap.setHeader block.addr value).next block.addr =
        value.next := by
      simp [State.next]
    rw [segment_cons_iff, haddr, setHeader_header_self, hto]
    refine ⟨rfl, hseg.addr_ne_zero (by simp), hvalue, ?_⟩
    exact htail.congr fun other hother =>
      setHeader_header_of_ne _ _ (hapart other hother)

end

theorem Describes.adjacent_eq
    (hdescribes : Describes (heap.header block.addr) block) (other : Nat) :
    heap.adjacent block.addr other = (block.limit == other) := by
  have hlimit : dataPtr block.addr + (heap.header block.addr).size =
      block.limit := by
    have hsize := hdescribes.1
    simp only [dataPtr, Block.limit]
    omega
  rw [State.adjacent, hlimit]

theorem Segment.absorb
    (hseg : Segment heap start (front ++ prev :: back))
    (hnew : Segment heap block.addr (block :: rest))
    (hapart : ∀ other ∈ rest, other.addr ≠ prev.addr) :
    Segment (heap.absorb prev.addr block.addr) start
      (front ++ prev.join block :: rest) := by
  obtain ⟨hsize, hkind⟩ := hseg.headers prev (by simp)
  obtain ⟨_, _, hblock, hrest⟩ := segment_cons_iff.mp hnew
  refine hseg.setHeader rfl ⟨?_, hkind⟩ hrest hapart
  have hsize' := hblock.1
  simp only [Block.join]
  omega

/-- The absorption shared by `insert_free_block` and `kfree`: whatever test
guards it in the source, it is `absorbNext` with that test. -/
theorem Segment.absorbNext {test : Block → Bool} {guard : Bool}
    (hseg : Segment heap start (front ++ block :: back))
    (hguard : guard = absorbs test block back) :
    Segment
      (if guard then heap.absorb block.addr (heap.next block.addr) else heap)
      start (front ++ absorbNext test block back) := by
  cases back with
  | nil => simpa [hguard, absorbs, BlockTiling.absorbNext] using hseg
  | cons next rest =>
      by_cases hjoin : (test next && block.limit == next.addr) = true
      · simp only [hguard, absorbs, hjoin, ↓reduceIte,
          BlockTiling.absorbNext]
        have htail := hseg.tail_of_split
        have hnext : heap.next block.addr = next.addr :=
          (segment_cons_iff.mp htail).1
        rw [hnext] at htail ⊢
        exact hseg.absorb htail fun other hmem =>
          hseg.apart.2 other (List.mem_cons_of_mem _ hmem)
      · simpa only [hguard, absorbs, hjoin, Bool.false_eq_true, ↓reduceIte,
          BlockTiling.absorbNext] using hseg

/-- The link to the predecessor shared by `insert_free_block` and `kfree` is
`joinPrev`. -/
theorem Segment.joinPrev
    (hold : Segment heap start (front ++ prev :: back))
    (hnew : Segment heap block.addr (block :: rest))
    (hapart : ∀ other ∈ block :: rest, other.addr ≠ prev.addr) :
    Segment
      (if heap.adjacent prev.addr block.addr && (heap.header prev.addr).free
      then heap.absorb prev.addr block.addr
      else heap.setNext prev.addr block.addr)
      start (joinPrev (front ++ [prev]) (block :: rest)) := by
  have hdescribes := hold.headers prev (by simp)
  rw [joinPrev_append_singleton, hdescribes.adjacent_eq, hdescribes.2.1,
    Bool.and_comm]
  by_cases hjoin : (prev.free && prev.limit == block.addr) = true
  · simp only [hjoin, ↓reduceIte, BlockTiling.joinPrev]
    exact hold.absorb hnew fun other hmem =>
      hapart other (List.mem_cons_of_mem _ hmem)
  · simp only [hjoin, Bool.false_eq_true, ↓reduceIte, BlockTiling.joinPrev]
    exact hold.setHeader rfl hdescribes hnew hapart

theorem absorbNext_eq_cons (test : Block → Bool) (block : Block)
    (back : List Block) :
    ∃ head tail, BlockTiling.absorbNext test block back = head :: tail ∧
      head.addr = block.addr ∧ head.free = block.free ∧
      ∀ other ∈ tail, other ∈ back := by
  cases back with
  | nil => exact ⟨block, [], rfl, rfl, rfl, by simp⟩
  | cons next rest =>
      by_cases hjoin : (test next && block.limit == next.addr) = true
      · exact ⟨block.join next, rest, by simp [BlockTiling.absorbNext, hjoin],
          rfl, rfl, fun other hother => List.mem_cons_of_mem _ hother⟩
      · exact ⟨block, next :: rest, by simp [BlockTiling.absorbNext, hjoin],
          rfl, rfl, fun other hother => hother⟩

/-- The guard `block->next != nullptr && adjacent(block, block->next)`. -/
theorem Segment.touch_guard
    (hseg : Segment heap start (front ++ block :: back)) :
    (heap.next block.addr != 0 &&
      heap.adjacent block.addr (heap.next block.addr)) =
        absorbs (fun _ => true) block back := by
  rw [(hseg.headers block (by simp)).adjacent_eq]
  have htail := hseg.tail_of_split
  cases back with
  | nil => simp [absorbs, segment_nil_iff.mp htail]
  | cons next rest =>
      rw [segment_cons_iff] at htail
      simp [absorbs, htail.1, htail.2.1]

/-- The guard of `kfree`, which also asks the successor to be free. -/
theorem Segment.touch_free_guard
    (hseg : Segment heap start (front ++ block :: back)) :
    (heap.next block.addr != 0 &&
      (heap.header (heap.next block.addr)).free &&
      heap.adjacent block.addr (heap.next block.addr)) =
        absorbs Block.free block back := by
  have htouch := hseg.touch_guard
  have htail := hseg.tail_of_split
  cases back with
  | nil => simp [absorbs, segment_nil_iff.mp htail]
  | cons next rest =>
      obtain ⟨hnext, _, ⟨_, hfree, _⟩, _⟩ := segment_cons_iff.mp htail
      simp only [absorbs, Bool.true_and] at htouch ⊢
      rw [← htouch, hnext, hfree]
      grind

/-- The walk bound is never reached on a list of distinct non-null
pointers. -/
theorem Segment.length_lt (hseg : Segment heap start blocks)
    (hbelow : ∀ block ∈ blocks, block.addr < addressCount) :
    blocks.length < addressCount := by
  have hnodup : (0 :: blocks.map Block.addr).Nodup := by
    refine List.nodup_cons.mpr ⟨fun hmem => ?_, hseg.nodup⟩
    obtain ⟨block, hblock, hzero⟩ := List.mem_map.mp hmem
    exact hseg.addr_ne_zero hblock hzero
  have hlt : ∀ addr ∈ 0 :: blocks.map Block.addr, addr < addressCount := by
    intro addr haddr
    rcases List.mem_cons.mp haddr with rfl | hmem
    · simp [addressCount]
    · obtain ⟨block, hblock, rfl⟩ := List.mem_map.mp hmem
      exact hbelow block hblock
  have hlength := length_le_of_nodup_lt hnodup hlt
  rw [List.length_cons, List.length_map] at hlength
  omega

theorem Segment.absorbNext_any
    (hseg : Segment heap start (front ++ block :: back)) :
    Segment (heap.absorbNext block.addr) start
      (front ++ BlockTiling.absorbNext (fun _ => true) block back) :=
  hseg.absorbNext hseg.touch_guard

theorem Segment.absorbNext_free
    (hseg : Segment heap start (front ++ block :: back)) :
    Segment (heap.absorbFreeNext block.addr) start
      (front ++ BlockTiling.absorbNext Block.free block back) :=
  hseg.absorbNext hseg.touch_free_guard

theorem absorbNext_header_of_ne (heap : State) {addr other : Nat}
    (hne : other ≠ addr) :
    (heap.absorbNext addr).header other = heap.header other := by
  unfold State.absorbNext
  split
  · exact setHeader_header_of_ne _ _ hne
  · rfl

/-- The three globals of the allocator. -/
def State.globals (heap : State) : Nat × Nat × Nat :=
  (heap.freeListHead, heap.heapMin, heap.heapMax)

@[simp]
theorem setHeader_globals (heap : State) (addr : Nat) (value : BlockHeader) :
    (heap.setHeader addr value).globals = heap.globals := rfl

@[simp]
theorem absorb_globals (heap : State) (addr other : Nat) :
    (heap.absorb addr other).globals = heap.globals := rfl

@[simp]
theorem setNext_globals (heap : State) (addr target : Nat) :
    (heap.setNext addr target).globals = heap.globals := rfl

@[simp]
theorem absorbNext_globals (heap : State) (addr : Nat) :
    (heap.absorbNext addr).globals = heap.globals := by
  unfold State.absorbNext
  split <;> rfl

@[simp]
theorem absorbFreeNext_globals (heap : State) (addr : Nat) :
    (heap.absorbFreeNext addr).globals = heap.globals := by
  unfold State.absorbFreeNext
  split <;> rfl

@[simp]
theorem setNext_next_self (heap : State) (addr target : Nat) :
    (heap.setNext addr target).next addr = target := by
  simp [State.setNext, State.next]

theorem setNext_absorb (heap : State) {addr target other : Nat}
    (hne : other ≠ addr) :
    (heap.setNext addr target).absorb addr other = heap.absorb addr other := by
  simp [State.setNext, State.absorb, State.setHeader, State.next, hne]

theorem setNext_adjacent (heap : State) (addr target other : Nat) :
    (heap.setNext addr target).adjacent addr other =
      heap.adjacent addr other := by
  simp [State.setNext, State.adjacent]

/-- A block whose header is in place and that is linked in front of a
segment. -/
theorem Segment.setNext_cons (hne : block.addr ≠ 0)
    (hheader : Describes (heap.header block.addr) block)
    (hseg : Segment heap start back)
    (hapart : ∀ other ∈ back, other.addr ≠ block.addr) :
    Segment (heap.setNext block.addr start) block.addr (block :: back) := by
  rw [segment_cons_iff, setNext_next_self]
  refine ⟨rfl, hne, ?_, ?_⟩
  · simpa [State.setNext, Describes] using hheader
  · refine hseg.congr fun other hother => ?_
    exact setHeader_header_of_ne _ _ (hapart other hother)

theorem insertAtHead_segment (hne : block.addr ≠ 0)
    (hheader : Describes (heap.header block.addr) block)
    (hseg : Segment heap heap.freeListHead back)
    (hapart : ∀ other ∈ back, other.addr ≠ block.addr) :
    Segment (heap.insertAtHead block.addr)
      (heap.insertAtHead block.addr).freeListHead
      (BlockTiling.absorbNext (fun _ => true) block back) := by
  have hlinked := Segment.setNext_cons hne hheader hseg hapart
  have hmerged := @Segment.absorbNext_any _ _ block [] back hlinked
  refine hmerged.congr fun other _ => ?_
  rw [State.absorbNext, setNext_next_self, setNext_adjacent]
  by_cases hhead : heap.freeListHead = block.addr
  · have hself : ¬ heap.adjacent block.addr block.addr = true := by
      simp only [State.adjacent, dataPtr, headerSize, beq_iff_eq]
      omega
    simp [State.insertAtHead, hhead, hself]
  · rw [setNext_absorb heap hhead]
    simp only [State.insertAtHead]

/-- A list with a block `prev` in it does not begin behind `prev`. -/
theorem Segment.start_eq
    (hseg : Segment heap start (front ++ prev :: back)) :
    start ≠ 0 ∧ ∃ first ∈ front ++ [prev], start = first.addr := by
  cases front with
  | nil =>
      obtain ⟨hstart, hne, _⟩ := segment_cons_iff.mp hseg
      exact ⟨hstart ▸ hne, prev, by simp, hstart⟩
  | cons first rest =>
      obtain ⟨hstart, hne, _⟩ := segment_cons_iff.mp hseg
      exact ⟨hstart ▸ hne, first, by simp, hstart⟩

/-- The loops that look for the block before a place stop at `prev`. -/
theorem Segment.walk_to_prev {stop : Nat → Bool}
    (hseg : Segment heap start (front ++ prev :: back))
    (hbelow : ∀ other ∈ front ++ prev :: back, other.addr < addressCount)
    (hfront : ∀ other ∈ front ++ [prev], stop other.addr = false)
    (hback : heap.next prev.addr = 0 ∨ stop (heap.next prev.addr) = true) :
    walkUntil heap.next
      (fun cell => heap.next cell == 0 || stop (heap.next cell))
      addressCount start = some prev.addr := by
  have hchain := hseg.chain
  rw [List.map_append, List.map_cons] at hchain
  refine walkUntil_eq_of_split hchain ?_ (by simpa using hback) ?_
  · intro cell hcell
    have hmem : heap.next cell ∈ (front ++ [prev]).map Block.addr := by
      simpa using hchain.next_mem hcell
    obtain ⟨other, hother, heq⟩ := List.mem_map.mp hmem
    have hzero : other.addr ≠ 0 := hseg.addr_ne_zero (by
      simp only [List.mem_append, List.mem_cons] at hother ⊢
      tauto)
    simp [← heq, hfront other hother, hzero]
  · have hlength := hseg.length_lt hbelow
    simp only [List.length_append, List.length_map] at hlength ⊢
    omega

theorem insertAfter_segment (hne : block.addr ≠ 0)
    (hheader : Describes (heap.header block.addr) block)
    (hseg : Segment heap start (front ++ prev :: back))
    (hapart : ∀ other ∈ front ++ prev :: back, other.addr ≠ block.addr) :
    Segment (heap.insertAfter prev.addr block.addr) start
      (joinPrev (front ++ [prev])
        (BlockTiling.absorbNext (fun _ => true) block back)) := by
  have hlinked := Segment.setNext_cons hne hheader hseg.tail_of_split
    fun other hother => hapart other (by simp [hother])
  have hresult := @Segment.absorbNext_any _ _ block [] back hlinked
  obtain ⟨head, tail, hcons, haddr, _, htail⟩ :=
    absorbNext_eq_cons (fun _ => true) block back
  rw [List.nil_append, hcons, ← haddr] at hresult
  have hkept : Segment ((heap.setNext block.addr
      (heap.next prev.addr)).absorbNext block.addr) start
      (front ++ prev :: back) :=
    hseg.congr fun other hother =>
      (absorbNext_header_of_ne _ (hapart other hother)).trans
        (setHeader_header_of_ne _ _ (hapart other hother))
  rw [hcons]
  rw [← haddr] at hkept
  have hjoined := hkept.joinPrev hresult ?_
  · rw [haddr] at hjoined
    exact hjoined
  · intro other hother
    rcases List.mem_cons.mp hother with rfl | hmem
    · rw [haddr]
      exact (hapart prev (by simp)).symm
    · exact hseg.apart.2 other (htail other hmem)

/-- `insert_free_block` puts the block at its place in the address order and
joins it with its neighbours. -/
theorem insertFreeBlock_segment {heap : State} {addr : Nat}
    (hne : addr ≠ 0) (hseg : Segment heap heap.freeListHead (front ++ back))
    (hbelow : ∀ other ∈ front ++ back, other.addr < addressCount)
    (hfront : ∀ other ∈ front, other.addr < addr)
    (hback : ∀ other ∈ back, addr < other.addr) :
    ∃ heap', heap.insertFreeBlock addr = some heap' ∧
      Segment heap' heap'.freeListHead
        (place (fun _ => true) front
          ⟨addr, (heap.header addr).size + headerSize, true⟩ back) ∧
      heap'.globals.2 = heap.globals.2 := by
  let block : Block := ⟨addr, (heap.header addr).size + headerSize, true⟩
  let marked := heap.setHeader addr
    { heap.header addr with free := true, magic := magicFreed }
  have hapart : ∀ other ∈ front ++ back, other.addr ≠ addr := by
    intro other hother
    rcases List.mem_append.mp hother with hmem | hmem
    · exact (hfront other hmem).ne
    · exact (hback other hmem).ne'
  have hmarked : Segment marked marked.freeListHead (front ++ back) :=
    hseg.congr fun other hother =>
      setHeader_header_of_ne _ _ (hapart other hother)
  have hheader : Describes (marked.header block.addr) block := by
    simp [marked, block, Describes, magicOf]
  have hblockNe : block.addr ≠ 0 := hne
  rcases List.eq_nil_or_concat front with rfl | ⟨front, prev, rfl⟩
  · have hhead : marked.freeListHead = 0 ∨ addr < marked.freeListHead := by
      cases back with
      | nil => exact Or.inl (segment_nil_iff.mp hmarked)
      | cons next rest =>
          rw [List.nil_append, segment_cons_iff] at hmarked
          rw [hmarked.1]
          exact Or.inr (hback next List.mem_cons_self)
    refine ⟨marked.insertAtHead addr, ?_, ?_, ?_⟩
    · simp only [State.insertFreeBlock]
      rw [if_pos hhead]
    · have hinsert := insertAtHead_segment hblockNe hheader
        (by simpa using hmarked) (by simpa using hapart)
      exact hinsert
    · simp only [State.insertAtHead]
      split <;> rfl
  · have hsplit : front ++ [prev] ++ back = front ++ prev :: back := by simp
    rw [List.concat_eq_append] at *
    rw [hsplit] at hmarked hapart hbelow
    have hhead : ¬ (marked.freeListHead = 0 ∨ addr < marked.freeListHead) := by
      obtain ⟨hzero, first, hmem, heq⟩ := hmarked.start_eq
      have hlt := hfront first hmem
      omega
    have hstop : marked.next prev.addr = 0 ∨
        (!decide (marked.next prev.addr < addr)) = true := by
      have htail := hmarked.tail_of_split
      cases back with
      | nil => exact Or.inl (segment_nil_iff.mp htail)
      | cons next rest =>
          have hlt := hback next List.mem_cons_self
          rw [(segment_cons_iff.mp htail).1]
          simp only [Bool.not_eq_true', decide_eq_false_iff_not]
          omega
    have hglobals : (marked.insertAfter prev.addr addr).globals =
        marked.globals := by
      simp only [State.insertAfter]
      split <;> simp
    refine ⟨marked.insertAfter prev.addr addr, ?_, ?_, ?_⟩
    · simp only [State.insertFreeBlock]
      rw [if_neg hhead, @Segment.walk_to_prev _ _ _ _ _
        (fun cell => !decide (cell < addr)) hmarked hbelow
        (fun other hother => by simpa using hfront other hother) hstop]
      rfl
    · have hhead' : (marked.insertAfter prev.addr addr).freeListHead =
          marked.freeListHead := congrArg Prod.fst hglobals
      rw [hhead']
      have hinsert := insertAfter_segment hblockNe hheader hmarked hapart
      exact hinsert
    · exact congrArg Prod.snd hglobals

/-- The size a caller asked for, as a span. -/
def spanOf (size : Nat) : Nat := size + headerSize

/-- `findBlock` returns the first block that is free and large enough. -/
theorem Segment.findBlock_eq (size : Nat)
    (hseg : Segment heap heap.freeListHead blocks)
    (hbelow : ∀ block ∈ blocks, block.addr < addressCount) :
    (heap.findBlock size = some 0 ∧
        ∀ block ∈ blocks, ¬ (block.free ∧ spanOf size ≤ block.span)) ∨
      ∃ front block back, blocks = front ++ block :: back ∧
        heap.findBlock size = some block.addr ∧ block.free = true ∧
        spanOf size ≤ block.span := by
  let fits : Block → Bool :=
    fun block => block.free && decide (spanOf size ≤ block.span)
  have hstop : ∀ block ∈ blocks,
      (block.addr == 0 || ((heap.header block.addr).free &&
        decide (size ≤ (heap.header block.addr).size))) = fits block := by
    intro block hblock
    obtain ⟨hsize, hfree, _⟩ := hseg.headers block hblock
    have hiff : size ≤ (heap.header block.addr).size ↔
        spanOf size ≤ block.span := by
      unfold spanOf
      omega
    simp [fits, hseg.addr_ne_zero hblock, hfree, hiff]
  have hlength := hseg.length_lt hbelow
  cases hfind : blocks.find? fits with
  | none =>
      have hnone := List.find?_eq_none.mp hfind
      refine Or.inl ⟨walkUntil_eq_nil hseg.chain ?_ rfl ?_, ?_⟩
      · intro addr haddr
        obtain ⟨block, hblock, rfl⟩ := List.mem_map.mp haddr
        rw [hstop block hblock]
        exact Bool.eq_false_iff.mpr (hnone block hblock)
      · simpa using hlength
      · intro block hblock hfits
        exact hnone block hblock (by simpa [fits] using hfits)
  | some block =>
      obtain ⟨hfits, front, back, rfl, hfront⟩ :=
        List.find?_eq_some_iff_append.mp hfind
      refine Or.inr ⟨front, block, back, rfl, ?_, ?_⟩
      · have hchain := hseg.chain
        rw [List.map_append, List.map_cons] at hchain
        refine walkUntil_eq_of_split hchain ?_ ?_ ?_
        · intro addr haddr
          obtain ⟨other, hother, rfl⟩ := List.mem_map.mp haddr
          rw [hstop other (List.mem_append_left _ hother)]
          simpa using hfront other hother
        · rw [hstop block (by simp)]
          exact hfits
        · simp only [List.length_append, List.length_map] at hlength ⊢
          omega
      · simpa [fits] using hfits

/-- Taking a block is carving it: the header of the remainder is written
inside the block, and the block becomes allocated. -/
theorem takeBlock_segment {size : Nat}
    (hseg : Segment heap start (front ++ block :: back))
    (hordered : Ordered (front ++ block :: back))
    (hfits : spanOf size ≤ block.span) :
    Segment (heap.takeBlock block.addr size) start
      (front ++ carve (spanOf size) (headerSize + minSplitRemainder) block ++
        back) := by
  obtain ⟨hsize, hfree, hmagic⟩ := hseg.headers block (by simp)
  have hremainder : (heap.header block.addr).size - size =
      block.span - spanOf size := by
    unfold spanOf at hfits ⊢
    omega
  by_cases hsplit : headerSize + minSplitRemainder ≤ block.span - spanOf size
  · rw [ordered_split_iff] at hordered
    obtain ⟨_, _, hleft, hright, _⟩ := hordered
    let rear : Block :=
      ⟨block.addr + spanOf size, block.span - spanOf size, true⟩
    let split := heap.setHeader rear.addr
      ⟨block.span - spanOf size - headerSize, true, magicFreed,
        heap.next block.addr⟩
    have hrear : dataPtr block.addr + size = rear.addr := by
      simp only [rear, dataPtr, spanOf]
      omega
    have hrearNe : rear.addr ≠ block.addr := by
      simp only [rear, spanOf, headerSize]
      omega
    have hapart : ∀ other ∈ front ++ block :: back,
        other.addr ≠ rear.addr := by
      simp only [List.mem_append, List.mem_cons, Block.limit, rear, spanOf,
        headerSize] at hleft hright hsplit ⊢
      rintro other (hmem | rfl | hmem)
      · have hbefore := hleft other hmem
        omega
      · omega
      · have hafter := hright other hmem
        omega
    have htaken : heap.takeBlock block.addr size = split.setHeader block.addr
        ⟨size, false, magicAllocated, rear.addr⟩ := by
      simp [State.takeBlock, hremainder, hsplit, State.setHeader, hrear,
        Function.update_idem, split]
    have hcarve : front ++ carve (spanOf size)
        (headerSize + minSplitRemainder) block ++ back =
          front ++ ⟨block.addr, spanOf size, false⟩ :: rear :: back := by
      simp [carve, hsplit, rear]
    have hkept : Segment split start (front ++ block :: back) :=
      hseg.congr fun other hother =>
        setHeader_header_of_ne _ _ (hapart other hother)
    have htail : Segment split rear.addr (rear :: back) := by
      have hto : split.next rear.addr = split.next block.addr := by
        simp [split, State.next, setHeader_header_of_ne _ _ hrearNe.symm]
      rw [segment_cons_iff, setHeader_header_self, hto]
      refine ⟨rfl, by simp only [rear, spanOf, headerSize]; omega,
        ⟨?_, rfl, rfl⟩, hkept.tail_of_split⟩
      simp only [rear]
      omega
    rw [hcarve, htaken]
    refine hkept.setHeader rfl ⟨rfl, rfl, rfl⟩ htail fun other hother => ?_
    rcases List.mem_cons.mp hother with rfl | hmem
    · exact hrearNe
    · exact hseg.apart.2 other hmem
  · have htaken : heap.takeBlock block.addr size =
        heap.setHeader block.addr { heap.header block.addr with
          free := false, magic := magicAllocated } := by
      simp [State.takeBlock, hremainder, hsplit]
    have hcarve : front ++ carve (spanOf size)
        (headerSize + minSplitRemainder) block ++ back =
          front ++ { block with free := false } :: back := by
      simp [carve, hsplit]
    rw [hcarve, htaken]
    exact hseg.setHeader rfl ⟨hsize, rfl, rfl⟩ hseg.tail_of_split hseg.apart.2

/-- `is_tracked_block` decides membership in the block list. -/
theorem Segment.isTrackedBlock_eq
    (hseg : Segment heap heap.freeListHead blocks)
    (hbelow : ∀ block ∈ blocks, block.addr < addressCount) (addr : Nat) :
    heap.isTrackedBlock addr =
      some (decide (addr ∈ blocks.map Block.addr)) := by
  have hlength := hseg.length_lt hbelow
  by_cases hmem : addr ∈ blocks.map Block.addr
  · have hne := hseg.chain.ne_nil_of_mem hmem
    have hnodup := hseg.nodup
    obtain ⟨front, back, hsplit⟩ := List.append_of_mem hmem
    have hchain := hseg.chain
    rw [hsplit] at hchain hnodup
    have hwalk : walkUntil heap.next
        (fun cell => cell == 0 || cell == addr) addressCount
        heap.freeListHead = some addr := by
      refine walkUntil_eq_of_split hchain ?_ (by simp) ?_
      · intro cell hcell
        have hzero := hchain.ne_nil_of_mem (List.mem_append_left _ hcell)
        have hother : cell ≠ addr := by
          simp only [List.nodup_append, List.mem_cons] at hnodup
          exact hnodup.2.2 cell hcell addr (Or.inl rfl)
        simp [hzero, hother]
      · have hcount := congrArg List.length hsplit
        simp only [List.length_map, List.length_append] at hcount
        omega
    simp [State.isTrackedBlock, hwalk, hmem, hne]
  · have hwalk : walkUntil heap.next
        (fun cell => cell == 0 || cell == addr) addressCount
        heap.freeListHead = some 0 := by
      refine walkUntil_eq_nil hseg.chain ?_ rfl (by simpa using hlength)
      intro cell hcell
      have hzero := hseg.chain.ne_nil_of_mem hcell
      have hother : cell ≠ addr := fun heq => hmem (heq ▸ hcell)
      simp [hzero, hother]
    simp [State.isTrackedBlock, hwalk, hmem]

theorem setNext_eq_self {addr target : Nat} (hnext : heap.next addr = target) :
    heap.setNext addr target = heap := by
  subst hnext
  simp [State.setNext, State.setHeader, State.next]

/-- The end of `kfree`: a free predecessor absorbs the block `head`. -/
theorem Segment.joinFreePrev {head : Block} {tail : List Block}
    (hseg : Segment heap start (front ++ prev :: head :: tail)) :
    Segment (if (heap.header prev.addr).free &&
        heap.adjacent prev.addr head.addr then
      heap.absorb prev.addr head.addr else heap) start
      (BlockTiling.joinPrev (front ++ [prev]) (head :: tail)) := by
  have htail := hseg.tail_of_split
  have hlink : heap.next prev.addr = head.addr :=
    (segment_cons_iff.mp htail).1
  rw [hlink] at htail
  have hjoined := hseg.joinPrev htail hseg.apart.2
  rwa [setNext_eq_self hlink, Bool.and_comm] at hjoined

/-- Freeing a tracked block: it is marked free, absorbs a free successor and is
absorbed by a free predecessor. -/
theorem releaseBlock_segment
    (hseg : Segment heap heap.freeListHead (front ++ block :: back))
    (hbelow : ∀ other ∈ front ++ block :: back, other.addr < addressCount) :
    ∃ heap', heap.releaseBlock block.addr = some heap' ∧
      Segment heap' heap'.freeListHead
        (place Block.free front { block with free := true } back) ∧
      heap'.globals.2 = heap.globals.2 := by
  have hmarked := @Segment.setHeader _ _ _ _ _ hseg back
    { block with free := true }
    { heap.header block.addr with free := true, magic := magicFreed } rfl
    ⟨(hseg.headers block (by simp)).1, rfl, rfl⟩ hseg.tail_of_split
    hseg.apart.2
  have hmerged := hmarked.absorbNext_free
  obtain ⟨head, tail, hcons, haddr, _, htail⟩ :=
    absorbNext_eq_cons Block.free { block with free := true } back
  rw [State.releaseBlock, place, hcons]
  rw [hcons] at hmerged
  dsimp only at hmerged haddr ⊢
  generalize hstate : (heap.setHeader block.addr { heap.header block.addr with
    free := true, magic := magicFreed }).absorbFreeNext block.addr = merged
    at hmerged ⊢
  have hglobals : merged.globals = heap.globals := by simp [← hstate]
  have hhead : merged.freeListHead = heap.freeListHead :=
    congrArg Prod.fst hglobals
  rw [← hhead] at hmerged
  rcases List.eq_nil_or_concat front with rfl | ⟨front, prev, rfl⟩
  · have hfirst : merged.freeListHead = block.addr :=
      (segment_cons_iff.mp hmerged).1.trans haddr
    refine ⟨merged, ?_, hmerged, congrArg Prod.snd hglobals⟩
    rw [if_neg (by simp [hfirst])]
  · rw [List.concat_eq_append] at *
    have hsplit : front ++ [prev] ++ head :: tail =
        front ++ prev :: head :: tail := by simp
    rw [hsplit] at hmerged
    have hlink : merged.next prev.addr = block.addr :=
      (segment_cons_iff.mp hmerged.tail_of_split).1.trans haddr
    have henter : (merged.freeListHead != 0 &&
        merged.freeListHead != block.addr) = true := by
      obtain ⟨hzero, first, hmem, heq⟩ := hmerged.start_eq
      rw [heq] at hzero ⊢
      simpa [hzero] using hseg.apart.1 first hmem
    have hwalk := @Segment.walk_to_prev _ _ _ _ _ (· == block.addr) hmerged
      (fun other hother => ?_)
      (fun other hother => by simpa using hseg.apart.1 other hother)
      (Or.inr (by simp [hlink]))
    · have hjoined := hmerged.joinFreePrev
      rw [if_pos henter, hwalk, Option.map_some]
      rw [hlink, beq_self_eq_true, Bool.true_and]
      rw [haddr] at hjoined
      refine ⟨_, rfl, ?_, ?_⟩
      · split at hjoined
        · rwa [if_pos ‹_›]
        · rwa [if_neg ‹_›]
      · split <;> exact congrArg Prod.snd hglobals
    · simp only [List.mem_append, List.mem_cons, List.not_mem_nil,
        or_false] at hother hbelow
      rcases hother with hmem | rfl | rfl | hmem
      · exact hbelow other (Or.inl (Or.inl hmem))
      · exact hbelow other (Or.inl (Or.inr rfl))
      · rw [haddr]
        exact hbelow block (Or.inr (Or.inl rfl))
      · exact hbelow other (Or.inr (Or.inr (htail other hmem)))

end Heap

end VenomOS
