/-
Blocks that tile a region of addresses.  A list of blocks is kept in address
order without overlap; splitting a block, joining two blocks that touch and
inserting a block between others are the only edits, and each of them is
described by what it does to the covered addresses and to the blocks in use.
-/
import Mathlib

namespace BlockTiling

/-- A block with its whole extent, header included. -/
structure Block where
  addr : Nat
  span : Nat
  free : Bool
deriving Repr, DecidableEq

def Block.limit (block : Block) : Nat := block.addr + block.span

/-- The first block extended by the bytes of the second. -/
def Block.join (first second : Block) : Block :=
  ⟨first.addr, first.span + second.span, first.free⟩

/-- Address order without overlap. -/
def Ordered (blocks : List Block) : Prop :=
  blocks.Pairwise fun first second => first.limit ≤ second.addr

def Covers (blocks : List Block) (x : Nat) : Prop :=
  ∃ block ∈ blocks, block.addr ≤ x ∧ x < block.limit

/-- The blocks in use, in list order. -/
def inUse (blocks : List Block) : List Block :=
  blocks.filter fun block => !block.free

/-- Every block starts and ends on a multiple of `unit`. -/
def Granular (unit : Nat) (blocks : List Block) : Prop :=
  ∀ block ∈ blocks, unit ∣ block.addr ∧ unit ∣ block.span

/-- The byte at `offset` behind the start of a block is covered, by this block
or by the next one. -/
def Backed (offset : Nat) (blocks : List Block) : Prop :=
  ∀ block ∈ blocks, Covers blocks (block.addr + offset)

/-- One join of a free block with a block right behind it that passes
`test`. -/
inductive Coalesce (test : Block → Bool) : List Block → List Block → Prop
  | join (front back : List Block) (first second : Block)
      (hfree : first.free = true) (htest : test second = true)
      (htouch : first.limit = second.addr) :
      Coalesce test (front ++ first :: second :: back)
        (front ++ first.join second :: back)

/-- Any number of joins. -/
def Merges (test : Block → Bool) : List Block → List Block → Prop :=
  Relation.ReflTransGen (Coalesce test)

variable {blocks blocks' front back : List Block} {block first second : Block}
variable {test : Block → Bool} {unit : Nat}

theorem ordered_split_iff :
    Ordered (front ++ block :: back) ↔
      Ordered front ∧ Ordered back ∧
        (∀ other ∈ front, other.limit ≤ block.addr) ∧
        (∀ other ∈ back, block.limit ≤ other.addr) ∧
        ∀ left ∈ front, ∀ right ∈ back, left.limit ≤ right.addr := by
  simp only [Ordered, List.pairwise_append, List.pairwise_cons, List.mem_cons]
  grind

variable {need least x : Nat}

theorem covers_append_iff :
    Covers (front ++ back) x ↔ Covers front x ∨ Covers back x := by
  simp only [Covers, List.mem_append]
  grind

theorem covers_cons_iff :
    Covers (block :: blocks) x ↔
      (block.addr ≤ x ∧ x < block.limit) ∨ Covers blocks x := by
  simp only [Covers, List.mem_cons]
  grind

theorem granular_split_iff :
    Granular unit (front ++ block :: back) ↔
      Granular unit front ∧ (unit ∣ block.addr ∧ unit ∣ block.span) ∧
        Granular unit back := by
  simp only [Granular, List.mem_append, List.mem_cons]
  grind

@[simp]
theorem join_addr : (first.join second).addr = first.addr := rfl

@[simp]
theorem join_free : (first.join second).free = first.free := rfl

theorem join_limit (htouch : first.limit = second.addr) :
    (first.join second).limit = second.limit := by
  simp only [Block.limit, Block.join] at htouch ⊢
  omega

/-- Joining two touching blocks keeps the order. -/
theorem ordered_join (htouch : first.limit = second.addr)
    (hordered : Ordered (front ++ first :: second :: back)) :
    Ordered (front ++ first.join second :: back) := by
  rw [ordered_split_iff] at hordered ⊢
  obtain ⟨hfront, hrest, hleft, hright, hacross⟩ := hordered
  simp only [Ordered, List.pairwise_cons, List.mem_cons] at hrest hright
  refine ⟨hfront, hrest.2, hleft, ?_, ?_⟩
  · intro other hother
    rw [join_limit htouch]
    exact hrest.1 other hother
  · intro left hl right hr
    exact hacross left hl right (List.mem_cons_of_mem _ hr)

theorem covers_join (htouch : first.limit = second.addr) :
    Covers (front ++ first.join second :: back) x ↔
      Covers (front ++ first :: second :: back) x := by
  simp only [covers_append_iff, covers_cons_iff, join_limit htouch, join_addr]
  have hspan : first.addr ≤ first.limit := Nat.le_add_right _ _
  have hspan' : second.addr ≤ second.limit := Nat.le_add_right _ _
  grind

theorem granular_join (hgranular : Granular unit
    (front ++ first :: second :: back)) :
    Granular unit (front ++ first.join second :: back) := by
  rw [granular_split_iff] at hgranular ⊢
  obtain ⟨hfront, ⟨haddr, hspan⟩, hrest⟩ := hgranular
  have hsecond := hrest second List.mem_cons_self
  refine ⟨hfront, ⟨haddr, Nat.dvd_add hspan hsecond.2⟩, ?_⟩
  exact fun other hother => hrest other (List.mem_cons_of_mem _ hother)

/-- Joining two free blocks leaves the blocks in use alone. -/
theorem inUse_join (hfirst : first.free = true) (hsecond : second.free = true) :
    inUse (front ++ first.join second :: back) =
      inUse (front ++ first :: second :: back) := by
  simp [inUse, hfirst, hsecond]

theorem Merges.ordered (hmerges : Merges test blocks blocks')
    (hordered : Ordered blocks) : Ordered blocks' := by
  induction hmerges with
  | refl => exact hordered
  | tail _ hstep ih =>
      cases hstep with
      | join front back first second _ _ htouch =>
          exact ordered_join htouch ih

theorem Merges.covers_iff (hmerges : Merges test blocks blocks') :
    Covers blocks' x ↔ Covers blocks x := by
  induction hmerges with
  | refl => exact Iff.rfl
  | tail _ hstep ih =>
      cases hstep with
      | join front back first second _ _ htouch =>
          exact (covers_join htouch).trans ih

theorem Merges.granular (hmerges : Merges test blocks blocks')
    (hgranular : Granular unit blocks) : Granular unit blocks' := by
  induction hmerges with
  | refl => exact hgranular
  | tail _ hstep ih =>
      cases hstep with
      | join front back first second _ _ _ => exact granular_join ih

theorem Merges.inUse_eq (hmerges : Merges Block.free blocks blocks') :
    inUse blocks' = inUse blocks := by
  induction hmerges with
  | refl => rfl
  | tail _ hstep ih =>
      cases hstep with
      | join front back first second hfree htest _ =>
          rw [inUse_join hfree htest, ih]

theorem Merges.addr_mem (hmerges : Merges test blocks blocks') :
    ∀ block ∈ blocks', ∃ old ∈ blocks, old.addr = block.addr := by
  induction hmerges with
  | refl => exact fun block hblock => ⟨block, hblock, rfl⟩
  | tail _ hstep ih =>
      cases hstep with
      | join front back first second _ _ _ =>
          intro block hblock
          rcases List.mem_append.mp hblock with hmem | hmem
          · exact ih block (List.mem_append_left _ hmem)
          · rcases List.mem_cons.mp hmem with rfl | hback
            · exact ih first (by simp)
            · exact ih block (by simp [hback])

theorem Merges.backed {offset : Nat} (hmerges : Merges test blocks blocks')
    (hbacked : Backed offset blocks) : Backed offset blocks' := by
  intro block hblock
  obtain ⟨old, hold, haddr⟩ := hmerges.addr_mem block hblock
  rw [hmerges.covers_iff, ← haddr]
  exact hbacked old hold

theorem Merges.exists_free (hmerges : Merges test blocks blocks')
    (hfree : ∃ block ∈ blocks, block.free = true) :
    ∃ block ∈ blocks', block.free = true := by
  induction hmerges with
  | refl => exact hfree
  | tail _ hstep ih =>
      cases hstep with
      | join front back first second hfirst _ _ =>
          exact ⟨first.join second, by simp, hfirst⟩

/-- The head of `rest` touches `block` and passes `test`. -/
def absorbs (test : Block → Bool) (block : Block) : List Block → Bool
  | [] => false
  | next :: _ => test next && block.limit == next.addr

/-- Let `block` absorb the head of `rest` when it touches it and passes
`test`. -/
def absorbNext (test : Block → Bool) (block : Block) :
    List Block → List Block
  | [] => [block]
  | next :: rest =>
      if test next && block.limit == next.addr then block.join next :: rest
      else block :: next :: rest

/-- Put `rest` behind `front`; the last block of `front` absorbs the head of
`rest` when it is free and touches it. -/
def joinPrev : List Block → List Block → List Block
  | [], rest => rest
  | [prev], [] => [prev]
  | [prev], block :: rest =>
      if prev.free && prev.limit == block.addr then prev.join block :: rest
      else prev :: block :: rest
  | prev :: next :: front, rest => prev :: joinPrev (next :: front) rest

theorem absorbNext_merges (hfree : block.free = true) (rest : List Block) :
    Merges test (front ++ block :: rest)
      (front ++ absorbNext test block rest) := by
  cases rest with
  | nil => exact Relation.ReflTransGen.refl
  | cons next rest =>
      by_cases hjoin : (test next && block.limit == next.addr) = true
      · have htouch := hjoin
        simp only [Bool.and_eq_true, beq_iff_eq] at htouch
        simp only [absorbNext, hjoin, ↓reduceIte]
        exact Relation.ReflTransGen.single
          (Coalesce.join front rest block next hfree htouch.1 htouch.2)
      · simp only [absorbNext, hjoin, Bool.false_eq_true, ↓reduceIte]
        exact Relation.ReflTransGen.refl

theorem Merges.cons (hmerges : Merges test blocks blocks') (head : Block) :
    Merges test (head :: blocks) (head :: blocks') := by
  induction hmerges with
  | refl => exact Relation.ReflTransGen.refl
  | tail _ hstep ih =>
      cases hstep with
      | join front back first second hfree htest htouch =>
          exact ih.tail (Coalesce.join (head :: front) back first second
            hfree htest htouch)

theorem joinPrev_merges (htest : test block = true) (rest : List Block) :
    Merges test (front ++ block :: rest) (joinPrev front (block :: rest)) := by
  induction front with
  | nil => exact Relation.ReflTransGen.refl
  | cons prev tail ih =>
      cases tail with
      | nil =>
          by_cases hjoin : (prev.free && prev.limit == block.addr) = true
          · have htouch := hjoin
            simp only [Bool.and_eq_true, beq_iff_eq] at htouch
            simp only [joinPrev, hjoin, ↓reduceIte]
            exact Relation.ReflTransGen.single
              (Coalesce.join [] rest prev block htouch.1 htest htouch.2)
          · simp only [joinPrev, hjoin, Bool.false_eq_true, ↓reduceIte]
            exact Relation.ReflTransGen.refl
      | cons next tail => exact ih.cons prev

/-- Put a block between `front` and `back` and join it with its
neighbours. -/
def place (test : Block → Bool) (front : List Block) (block : Block)
    (back : List Block) : List Block :=
  joinPrev front (absorbNext test block back)

theorem place_merges (hfree : block.free = true) (htest : test block = true)
    (hjoin : ∀ other, test (block.join other) = test block) :
    Merges test (front ++ block :: back) (place test front block back) := by
  have hnext : Merges test (front ++ block :: back)
      (front ++ absorbNext test block back) := absorbNext_merges hfree back
  unfold place
  refine hnext.trans ?_
  cases back with
  | nil => exact joinPrev_merges htest []
  | cons next rest =>
      simp only [absorbNext]
      split
      · exact joinPrev_merges ((hjoin next).trans htest) rest
      · exact joinPrev_merges htest (next :: rest)

/-- Two tests that agree on the touching block place it alike. -/
theorem place_congr {test' : Block → Bool}
    (hagree : ∀ other ∈ back, other.addr = block.limit →
      test other = test' other) :
    place test front block back = place test' front block back := by
  unfold place
  congr 1
  cases back with
  | nil => rfl
  | cons next rest =>
      by_cases htouch : block.limit = next.addr
      · have hnext := hagree next List.mem_cons_self htouch.symm
        simp only [absorbNext, hnext]
      · simp [absorbNext, htouch]

/-- Only the last block in front takes part in the join. -/
theorem joinPrev_append_singleton (front : List Block) (prev : Block)
    (rest : List Block) :
    joinPrev (front ++ [prev]) rest = front ++ joinPrev [prev] rest := by
  induction front with
  | nil => rfl
  | cons head tail ih =>
      cases tail with
      | nil => rfl
      | cons next tail =>
          simp only [List.cons_append, joinPrev] at ih ⊢
          rw [ih]

/-- `block` stands between `front` and `back`, in one block with each neighbour
that is free and touches it. -/
def Joined (front : List Block) (block : Block) (back blocks : List Block) :
    Prop :=
  ∃ left merged right, blocks = left ++ merged :: right ∧
    merged.free = true ∧
    ((∃ prev, front = left ++ [prev] ∧ prev.free = true ∧
        prev.limit = block.addr ∧ merged.addr = prev.addr) ∨
      (front = left ∧ merged.addr = block.addr ∧
        ∀ prev ∈ front.getLast?, ¬ (prev.free = true ∧
          prev.limit = block.addr))) ∧
    ((∃ next, back = next :: right ∧ next.free = true ∧
        block.limit = next.addr ∧ merged.limit = next.limit) ∨
      (back = right ∧ merged.limit = block.limit ∧
        ∀ next ∈ back.head?, ¬ (next.free = true ∧
          block.limit = next.addr)))

theorem absorbNext_joined (hfree : block.free = true) (back : List Block) :
    ∃ merged right, absorbNext Block.free block back = merged :: right ∧
      merged.free = true ∧ merged.addr = block.addr ∧
      ((∃ next, back = next :: right ∧ next.free = true ∧
          block.limit = next.addr ∧ merged.limit = next.limit) ∨
        (back = right ∧ merged.limit = block.limit ∧
          ∀ next ∈ back.head?, ¬ (next.free = true ∧
            block.limit = next.addr))) := by
  cases back with
  | nil => exact ⟨block, [], rfl, hfree, rfl, .inr ⟨rfl, rfl, by simp⟩⟩
  | cons next rest =>
      by_cases hjoin : next.free = true ∧ block.limit = next.addr
      · refine ⟨block.join next, rest, by simp [absorbNext, hjoin], hfree, rfl,
          .inl ⟨next, rfl, hjoin.1, hjoin.2, join_limit hjoin.2⟩⟩
      · refine ⟨block, next :: rest, ?_, hfree, rfl,
          .inr ⟨rfl, rfl, by simpa using hjoin⟩⟩
        simp only [absorbNext, Bool.and_eq_true, beq_iff_eq, hjoin,
          ↓reduceIte]

theorem place_joined (hfree : block.free = true) (front back : List Block) :
    Joined front block back (place Block.free front block back) := by
  obtain ⟨merged, right, hplace, hmerged, haddr, hright⟩ :=
    absorbNext_joined hfree back
  rw [place, hplace]
  rcases List.eq_nil_or_concat front with rfl | ⟨left, prev, rfl⟩
  · exact ⟨[], merged, right, rfl, hmerged, .inr ⟨rfl, haddr, by simp⟩, hright⟩
  · rw [List.concat_eq_append, joinPrev_append_singleton]
    by_cases hjoin : prev.free = true ∧ prev.limit = block.addr
    · have htouch : prev.limit = merged.addr := hjoin.2.trans haddr.symm
      refine ⟨left, prev.join merged, right, ?_, hjoin.1,
        .inl ⟨prev, rfl, hjoin.1, hjoin.2, rfl⟩, ?_⟩
      · simp [joinPrev, hjoin.1, htouch]
      · rw [join_limit htouch]
        exact hright
    · refine ⟨left ++ [prev], merged, right, ?_, hmerged,
        .inr ⟨rfl, haddr, by simpa using hjoin⟩, hright⟩
      simp only [joinPrev, Bool.and_eq_true, beq_iff_eq, haddr, hjoin,
        ↓reduceIte]
      simp

/-- Carve `need` bytes off the front of a block; the remainder becomes a free
block when it has at least `least` bytes. -/
def carve (need least : Nat) (block : Block) : List Block :=
  if least ≤ block.span - need then
    [⟨block.addr, need, false⟩,
      ⟨block.addr + need, block.span - need, true⟩]
  else [{ block with free := false }]

theorem carve_ordered (hneed : need ≤ block.span)
    (hordered : Ordered (front ++ block :: back)) :
    Ordered (front ++ carve need least block ++ back) := by
  unfold carve
  rw [ordered_split_iff] at hordered
  obtain ⟨hfront, hback, hleft, hright, hacross⟩ := hordered
  split
  · simp only [List.append_assoc, List.cons_append, List.nil_append]
    rw [ordered_split_iff]
    simp only [Ordered, List.pairwise_cons, List.mem_cons, Block.limit] at *
    refine ⟨hfront, ⟨?_, hback⟩, hleft, ?_, ?_⟩
    · intro other hother
      have := hright other hother
      omega
    · rintro other (rfl | hother)
      · exact Nat.le_refl _
      · have := hright other hother
        omega
    · rintro left hl right (rfl | hr)
      · have := hleft left hl
        simp only
        omega
      · exact hacross left hl right hr
  · simp only [List.append_assoc, List.cons_append, List.nil_append]
    exact ordered_split_iff.mpr ⟨hfront, hback, hleft, hright, hacross⟩

theorem carve_covers {need least x : Nat} (hneed : need ≤ block.span) :
    Covers (front ++ carve need least block ++ back) x ↔
      Covers (front ++ block :: back) x := by
  unfold carve
  split
  · simp only [covers_append_iff, covers_cons_iff, Block.limit]
    have hempty : ¬ Covers [] x := by simp [Covers]
    grind
  · simp only [covers_append_iff, covers_cons_iff, Block.limit]
    have hempty : ¬ Covers [] x := by simp [Covers]
    grind

theorem carve_granular (hneed : unit ∣ need)
    (hgranular : Granular unit (front ++ block :: back)) :
    Granular unit (front ++ carve need least block ++ back) := by
  unfold carve
  rw [granular_split_iff] at hgranular
  obtain ⟨hfront, ⟨haddr, hspan⟩, hback⟩ := hgranular
  split
  · simp only [List.append_assoc, List.cons_append, List.nil_append]
    refine granular_split_iff.mpr ⟨hfront, ⟨haddr, hneed⟩, ?_⟩
    refine List.forall_mem_cons.mpr ⟨⟨Nat.dvd_add haddr hneed, ?_⟩, hback⟩
    exact Nat.dvd_sub hspan hneed
  · simp only [List.append_assoc, List.cons_append, List.nil_append]
    exact granular_split_iff.mpr ⟨hfront, ⟨haddr, hspan⟩, hback⟩

theorem carve_backed {need least offset : Nat} (hneed : need ≤ block.span)
    (hoffset : offset < least) (hbacked : Backed offset
      (front ++ block :: back)) :
    Backed offset (front ++ carve need least block ++ back) := by
  intro other hother
  by_cases hsplit : least ≤ block.span - need ∧ other.addr = block.addr + need
  · refine ⟨⟨block.addr + need, block.span - need, true⟩, ?_, ?_, ?_⟩
    · simp [carve, hsplit.1]
    · simp only
      omega
    · simp only [Block.limit]
      omega
  · rw [carve_covers hneed]
    have hold : ∃ old ∈ front ++ block :: back, old.addr = other.addr := by
      simp only [carve, List.mem_append] at hother
      rcases hother with (hmem | hmem) | hmem
      · exact ⟨other, by simp [hmem], rfl⟩
      · refine ⟨block, by simp, ?_⟩
        split at hmem <;> grind
      · exact ⟨other, by simp [hmem], rfl⟩
    obtain ⟨old, hmem, haddr⟩ := hold
    rw [← haddr]
    exact hbacked old hmem

/-- Inserting a block whose bytes no other block covers, at its place in the
order. -/
theorem ordered_insert (hordered : Ordered (front ++ back))
    (hleft : ∀ other ∈ front, other.limit ≤ block.addr)
    (hright : ∀ other ∈ back, block.limit ≤ other.addr) :
    Ordered (front ++ block :: back) := by
  rw [Ordered, List.pairwise_append] at hordered
  exact ordered_split_iff.mpr
    ⟨hordered.1, hordered.2.1, hleft, hright, hordered.2.2⟩

theorem inUse_carve (hfree : block.free = true) :
    ∃ span, need ≤ block.span → need ≤ span ∧
      inUse (front ++ carve need least block ++ back) =
        inUse front ++ ⟨block.addr, span, false⟩ :: inUse back ∧
      inUse (front ++ block :: back) = inUse front ++ inUse back := by
  by_cases hsplit : least ≤ block.span - need
  · refine ⟨need, fun _ => ⟨Nat.le_refl _, ?_, ?_⟩⟩
    · simp [carve, hsplit, inUse]
    · simp [inUse, hfree]
  · refine ⟨block.span, fun hneed => ⟨hneed, ?_, ?_⟩⟩
    · simp [carve, hsplit, inUse]
    · simp [inUse, hfree]

/-- An address range that no block reaches into splits an ordered list. -/
theorem Ordered.split_at {low high : Nat} (hordered : Ordered blocks)
    (haway : ∀ block ∈ blocks, block.limit ≤ low ∨ high ≤ block.addr) :
    ∃ front back, blocks = front ++ back ∧
      (∀ block ∈ front, block.limit ≤ low) ∧
      ∀ block ∈ back, high ≤ block.addr := by
  induction blocks with
  | nil => exact ⟨[], [], rfl, by simp, by simp⟩
  | cons head tail ih =>
      simp only [Ordered, List.pairwise_cons] at hordered
      rcases haway head List.mem_cons_self with hlow | hhigh
      · obtain ⟨front, back, rfl, hfront, hback⟩ := ih hordered.2
          fun block hblock => haway block (List.mem_cons_of_mem _ hblock)
        exact ⟨head :: front, back, rfl,
          List.forall_mem_cons.mpr ⟨hlow, hfront⟩, hback⟩
      · refine ⟨[], head :: tail, rfl, by simp, ?_⟩
        refine List.forall_mem_cons.mpr ⟨hhigh, fun block hblock => ?_⟩
        have hafter := hordered.1 block hblock
        simp only [Block.limit] at hafter
        omega

/-- Two different blocks of an ordered list lie on either side of each
other. -/
theorem Ordered.separated (hordered : Ordered blocks) (hfirst : first ∈ blocks)
    (hsecond : second ∈ blocks) (hne : first ≠ second) :
    first.limit ≤ second.addr ∨ second.limit ≤ first.addr := by
  induction blocks with
  | nil => simp at hfirst
  | cons head tail ih =>
      simp only [Ordered, List.pairwise_cons] at hordered
      rcases List.mem_cons.mp hfirst with rfl | hleft
      · rcases List.mem_cons.mp hsecond with rfl | hright
        · exact absurd rfl hne
        · exact Or.inl (hordered.1 second hright)
      · rcases List.mem_cons.mp hsecond with rfl | hright
        · exact Or.inr (hordered.1 first hleft)
        · exact ih hordered.2 hleft hright

/-- The addresses of the blocks as a finite set. -/
def bytes (blocks : List Block) : Finset Nat :=
  blocks.foldr (fun block rest => Finset.Ico block.addr block.limit ∪ rest) ∅

theorem mem_bytes_iff : x ∈ bytes blocks ↔ Covers blocks x := by
  induction blocks with
  | nil => simp [bytes, Covers]
  | cons head tail ih =>
      rw [covers_cons_iff, ← ih]
      simp [bytes]

/-- Blocks that lie apart cover as many addresses as their extents add up
to. -/
theorem card_bytes (hapart : blocks.Pairwise fun first second =>
    first.limit ≤ second.addr ∨ second.limit ≤ first.addr) :
    (bytes blocks).card = (blocks.map Block.span).sum := by
  induction blocks with
  | nil => rfl
  | cons head tail ih =>
      obtain ⟨hhead, htail⟩ := List.pairwise_cons.mp hapart
      have hdisjoint :
          Disjoint (Finset.Ico head.addr head.limit) (bytes tail) := by
        rw [Finset.disjoint_left]
        intro x hx hmem
        obtain ⟨block, hblock, hlow, hhigh⟩ := mem_bytes_iff.mp hmem
        have hsides := hhead block hblock
        rw [Finset.mem_Ico] at hx
        omega
      have hsplit : bytes (head :: tail) =
          Finset.Ico head.addr head.limit ∪ bytes tail := rfl
      rw [hsplit, Finset.card_union_of_disjoint hdisjoint, ih htail,
        Nat.card_Ico, List.map_cons, List.sum_cons, Block.limit,
        Nat.add_sub_cancel_left]

theorem Ordered.eq_of_addr_eq (hordered : Ordered blocks)
    (hspan : ∀ block ∈ blocks, 0 < block.span) (hfirst : first ∈ blocks)
    (hsecond : second ∈ blocks) (haddr : first.addr = second.addr) :
    first = second := by
  by_contra hne
  have hpos := hspan first hfirst
  have hpos' := hspan second hsecond
  rcases hordered.separated hfirst hsecond hne with h | h
  · simp only [Block.limit] at h
    omega
  · simp only [Block.limit] at h
    omega

end BlockTiling
