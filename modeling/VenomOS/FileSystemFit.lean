/-
When the block allocator finds room.  It takes one free run when there is one
that is long enough, and else the free runs from the front, four at most; what
lies behind the fourth run does not count.
-/
import VenomOS.FileSystemAlloc

namespace VenomOS

namespace FileSystem

/-- The free blocks below `cut`. -/
def freeBelow (bits : Bitmap) : Nat → Nat
  | 0 => 0
  | cut + 1 => freeBelow bits cut + if bits cut then 0 else 1

/-- A free run begins at the block. -/
def runStarts (bits : Bitmap) (block : Nat) : Bool :=
  !bits block && (block == 0 || bits (block - 1))

/-- The free runs that begin below `cut`. -/
def runsBelow (bits : Bitmap) : Nat → Nat
  | 0 => 0
  | cut + 1 => runsBelow bits cut + if runStarts bits cut then 1 else 0

/-- A free run of the data region holds the blocks, or the first four runs
together do. -/
def FirstFit (bits : Bitmap) (needed : Nat) : Prop :=
  (∃ start, start + needed ≤ totalDataBlocks ∧
      ∀ b, start ≤ b → b < start + needed → bits b = false) ∨
    ∃ cut ≤ totalDataBlocks, needed ≤ freeBelow bits cut ∧
      runsBelow bits cut ≤ maxExtents

variable {bits : Bitmap} {found : List Extent}
variable {block cut length needed remaining : Nat}

theorem freeBelow_mono (bits : Bitmap) (hle : block ≤ cut) :
    freeBelow bits block ≤ freeBelow bits cut := by
  induction hle with
  | refl => exact Nat.le_refl _
  | step _ ih => exact Nat.le_trans ih (Nat.le_add_right _ _)

theorem runsBelow_mono (bits : Bitmap) (hle : block ≤ cut) :
    runsBelow bits block ≤ runsBelow bits cut := by
  induction hle with
  | refl => exact Nat.le_refl _
  | step _ ih => exact Nat.le_trans ih (Nat.le_add_right _ _)

theorem freeBelow_run
    (hfree : ∀ b, block ≤ b → b < block + length → bits b = false) :
    freeBelow bits (block + length) = freeBelow bits block + length := by
  induction length with
  | zero => rfl
  | succ length ih =>
      have hlast := hfree (block + length) (by omega) (by omega)
      rw [← Nat.add_assoc, freeBelow, hlast,
        ih fun b hlow hhigh => hfree b hlow (by omega)]
      simp [Nat.add_assoc]

/-- Nothing free lies right in front of the block, or the block is taken. -/
def Boundary (bits : Bitmap) (block : Nat) : Prop :=
  block = 0 ∨ bits (block - 1) = true ∨ bits block = true

theorem runsBelow_run (hboundary : Boundary bits block)
    (hfree : ∀ b, block ≤ b → b < block + (length + 1) → bits b = false) :
    runsBelow bits (block + (length + 1)) = runsBelow bits block + 1 := by
  induction length with
  | zero =>
      have hblock := hfree block (by omega) (by omega)
      have hstarts : runStarts bits block = true := by
        rcases hboundary with rfl | hbefore | htaken
        · simp [runStarts, hblock]
        · simp [runStarts, hblock, hbefore]
        · simp [hblock] at htaken
      simp [runsBelow, hstarts]
  | succ length ih =>
      have hlast := hfree (block + (length + 1)) (by omega) (by omega)
      have hbefore := hfree (block + length) (by omega) (by omega)
      have hstarts : runStarts bits (block + (length + 1)) = false := by
        have hpred : block + (length + 1) - 1 = block + length := by omega
        simp [runStarts, hlast, hpred, hbefore]
      rw [← Nat.add_assoc block, runsBelow, hstarts,
        ih fun b hlow hhigh => hfree b hlow (by omega)]
      simp

/-- A free block behind a boundary belongs to a run that begins behind it. -/
theorem runsBelow_lt (hboundary : Boundary bits block) (hle : block ≤ cut)
    (hmore : freeBelow bits block < freeBelow bits cut) :
    runsBelow bits block < runsBelow bits cut := by
  induction hle with
  | refl => omega
  | @step cut hle ih =>
      by_cases hearlier : freeBelow bits block < freeBelow bits cut
      · exact Nat.lt_of_lt_of_le (ih hearlier) (Nat.le_add_right _ _)
      · -- the first free block behind the boundary is `cut` itself
        have hcut : bits cut = false := by
          by_contra htaken
          rw [freeBelow, if_pos (by simpa using htaken)] at hmore
          omega
        have hstarts : runStarts bits cut = true := by
          rcases Nat.eq_or_lt_of_le hle with rfl | hlt
          · rcases hboundary with rfl | hbefore | htaken
            · simp [runStarts, hcut]
            · simp [runStarts, hcut, hbefore]
            · simp [hcut] at htaken
          · obtain ⟨prev, rfl⟩ : ∃ prev, cut = prev + 1 :=
              Nat.exists_eq_succ_of_ne_zero (by omega)
            have hprev : bits prev = true := by
              by_contra hfree
              have hstep := freeBelow_mono bits (show block ≤ prev by omega)
              rw [freeBelow, if_neg hfree] at hearlier
              omega
            simp [runStarts, hcut, hprev]
        have hle' := runsBelow_mono bits hle
        rw [runsBelow, hstarts, if_pos rfl]
        omega

/-- The scan of `find_free_run` misses no run.  `runLength` is the length of
the free run that ends at `block`. -/
theorem findFreeRunFrom_none {left runStart runLength : Nat}
    (hleft : block + left = totalDataBlocks) (hshort : runLength < needed)
    (hlongest : ∀ start ≤ block,
      (∀ b, start ≤ b → b < block → bits b = false) →
        block ≤ start + runLength)
    (hnone : findFreeRunFrom bits needed left block runStart runLength = none)
    {start : Nat} (hfits : start + needed ≤ totalDataBlocks)
    (hbehind : block < start + needed)
    (hfree : ∀ b, start ≤ b → b < start + needed → bits b = false) :
    False := by
  induction left generalizing block runStart runLength with
  | zero => omega
  | succ left ih =>
      by_cases hbit : bits block = true
      · simp only [findFreeRunFrom, hbit, ↓reduceIte] at hnone
        have hafter : block < start := by
          by_contra hle
          rw [hfree block (by omega) hbehind] at hbit
          cases hbit
        refine ih (by omega) (by omega) ?_ hnone (by omega)
        intro other hother hclear
        by_contra hlt
        rw [hclear block (by omega) (by omega)] at hbit
        cases hbit
      · simp only [findFreeRunFrom, hbit, Bool.false_eq_true, ↓reduceIte]
          at hnone
        split at hnone
        · cases hnone
        · rename_i hneeded
          refine ih (by omega) (by omega) ?_ hnone ?_
          · intro other hother hclear
            rcases Nat.eq_or_lt_of_le hother with rfl | hlt
            · omega
            · have hmax := hlongest other (by omega) fun b hlow hhigh =>
                hclear b hlow (by omega)
              omega
          · by_contra hend
            have hmax := hlongest start (by omega) fun b hlow hhigh =>
              hfree b hlow (by omega)
            omega

theorem findFreeRun_isSome_iff (hpos : 0 < needed) :
    (findFreeRun bits needed).isSome ↔
      ∃ start, start + needed ≤ totalDataBlocks ∧
        ∀ b, start ≤ b → b < start + needed → bits b = false := by
  rw [findFreeRun, if_neg (by omega)]
  cases hfind : findFreeRunFrom bits needed totalDataBlocks 0 0 0 with
  | some start =>
      simp only [Option.isSome_some, true_iff]
      exact ⟨start, findFreeRunFrom_spec (Nat.zero_add _) (by omega) (by omega)
        hfind⟩
  | none =>
      simp only [Option.isSome_none, Bool.false_eq_true, false_iff]
      rintro ⟨start, hfits, hfree⟩
      exact findFreeRunFrom_none (Nat.zero_add _) hpos
        (fun _ _ _ => Nat.zero_le _) hfind hfits (by omega) hfree

/-- A run that was not cut short ends at a taken block or at the end of the
region. -/
theorem freeRunLength_end
    (hlt : freeRunLength bits block remaining < remaining) :
    totalDataBlocks ≤ block + freeRunLength bits block remaining ∨
      bits (block + freeRunLength bits block remaining) = true := by
  induction remaining generalizing block with
  | zero => simp at hlt
  | succ remaining ih =>
      by_cases hfree : (block < totalDataBlocks && !bits block) = true
      · simp only [freeRunLength, hfree, ↓reduceIte] at hlt ⊢
        have hnext := ih (Nat.lt_of_succ_lt_succ hlt)
        rwa [Nat.add_assoc, Nat.add_comm 1] at hnext
      · simp only [freeRunLength, hfree, Bool.false_eq_true, ↓reduceIte,
          Nat.add_zero]
        simp only [Bool.and_eq_true, decide_eq_true_eq, Bool.not_eq_true',
          not_and, Bool.not_eq_false] at hfree
        by_cases hend : block < totalDataBlocks
        · exact .inr (hfree hend)
        · exact .inl (by omega)

/-- What the scan of `find_free_extents` has seen: every free block and every
run in front of `block`. -/
structure Seen (bits : Bitmap) (needed block remaining : Nat)
    (found : List Extent) : Prop where
  runs : found.length = runsBelow bits block
  free : freeBelow bits block + remaining = needed
  boundary : remaining = 0 ∨ totalDataBlocks ≤ block ∨ Boundary bits block
  inside : block ≤ totalDataBlocks
  room : found.length ≤ maxExtents

theorem Seen.skip (hseen : Seen bits needed block remaining found)
    (hblock : block < totalDataBlocks) (hbit : bits block = true) :
    Seen bits needed (block + 1) remaining found where
  runs := by simp [hseen.runs, runsBelow, runStarts, hbit]
  free := by simp [freeBelow, hbit, hseen.free]
  boundary := .inr (.inr (.inr (.inl hbit)))
  inside := hblock
  room := hseen.room

theorem Seen.run (hseen : Seen bits needed block remaining found)
    (hblock : block < totalDataBlocks) (hpos : 0 < remaining)
    (hroom : found.length < maxExtents) (hbit : bits block = false)
    (extent : Extent) :
    Seen bits needed (block + freeRunLength bits block remaining)
      (remaining - freeRunLength bits block remaining) (found ++ [extent]) := by
  obtain ⟨hle, hrun⟩ := freeRunLength_spec bits block remaining
  have hboundary : Boundary bits block := by
    have := hseen.boundary
    grind
  obtain ⟨more, hmore⟩ :
      ∃ more, freeRunLength bits block remaining = more + 1 := by
    obtain ⟨rest, rfl⟩ := Nat.exists_eq_succ_of_ne_zero (by omega : remaining ≠ 0)
    exact ⟨_, by rw [freeRunLength, if_pos (by simp [hblock, hbit])]⟩
  have hfree : ∀ b, block ≤ b → b < block + (more + 1) → bits b = false :=
    fun b hlow hhigh => (hrun b hlow (by omega)).2
  have hlast := (hrun (block + more) (by omega) (by omega)).1
  have hend : remaining - freeRunLength bits block remaining = 0 ∨
      totalDataBlocks ≤ block + freeRunLength bits block remaining ∨
        bits (block + freeRunLength bits block remaining) = true := by
    by_cases hall : freeRunLength bits block remaining < remaining
    · exact .inr (freeRunLength_end hall)
    · exact .inl (by omega)
  rw [hmore] at hend hle ⊢
  refine ⟨?_, ?_, ?_, by omega, ?_⟩
  · rw [runsBelow_run hboundary hfree, List.length_append, hseen.runs]
    rfl
  · have := hseen.free
    rw [freeBelow_run hfree]
    omega
  · rcases hend with hdone | hend | htaken
    · exact .inl hdone
    · exact .inr (.inl hend)
    · exact .inr (.inr (.inr (.inr htaken)))
  · rw [List.length_append, List.length_singleton]
    omega

/-- Where the scan ends nothing is left to place, or the first four runs do
not hold the blocks. -/
theorem Seen.done (hseen : Seen bits needed block remaining found)
    (hstop : ¬ (block < totalDataBlocks ∧ 0 < remaining ∧
      found.length < maxExtents)) :
    remaining = 0 ↔ ∃ cut ≤ totalDataBlocks, needed ≤ freeBelow bits cut ∧
      runsBelow bits cut ≤ maxExtents := by
  have hfree := hseen.free
  constructor
  · rintro rfl
    exact ⟨block, hseen.inside, by omega, hseen.runs ▸ hseen.room⟩
  · rintro ⟨cut, hcut, hneeded, hruns⟩
    by_contra hremaining
    have hlt : block < cut := by
      by_contra hle
      have := freeBelow_mono bits (Nat.le_of_not_lt hle)
      omega
    have hboundary : Boundary bits block := by
      have := hseen.boundary
      grind
    have hmore := runsBelow_lt hboundary (Nat.le_of_lt hlt) (by omega)
    have hruns' := hseen.runs
    omega

theorem findFreeExtentsFrom_zero_iff (passes : Nat)
    (hpasses : totalDataBlocks ≤ block + passes)
    (hseen : Seen bits needed block remaining found) :
    (findFreeExtentsFrom bits passes block remaining found).1 = 0 ↔
      ∃ cut ≤ totalDataBlocks, needed ≤ freeBelow bits cut ∧
        runsBelow bits cut ≤ maxExtents := by
  induction passes generalizing block remaining found with
  | zero => exact hseen.done (by omega)
  | succ passes ih =>
      rw [findFreeExtentsFrom]
      split
      · rename_i hgo
        split
        · rename_i hbit
          exact ih (by omega) (hseen.skip hgo.1 hbit)
        · rename_i hbit
          have hclear : bits block = false := by simpa using hbit
          have hrun := hseen.run hgo.1 hgo.2.1 hgo.2.2 hclear
          refine ih ?_ (hrun _)
          obtain ⟨rest, rfl⟩ :=
            Nat.exists_eq_succ_of_ne_zero (by omega : remaining ≠ 0)
          rw [freeRunLength, if_pos (by simp [hgo.1, hclear])]
          omega
      · rename_i hstop
        exact hseen.done hstop

/-- The scan that places everything found an extent. -/
theorem findFreeExtentsFrom_ne_nil (hpos : 0 < needed)
    (hzero : (findFreeExtentsFrom bits totalDataBlocks 0 needed []).1 = 0) :
    (findFreeExtentsFrom bits totalDataBlocks 0 needed []).2 ≠ [] := by
  obtain ⟨block, hinv⟩ :=
    findFreeExtentsFrom_spec totalDataBlocks (ScanInv.start bits needed)
  intro hnil
  have htotal := hinv.total
  rw [hnil, hzero] at htotal
  simp only [blockTotal, List.map_nil, List.sum_nil] at htotal
  omega

theorem findFreeExtents_ne_nil_iff (hpos : 0 < needed) :
    findFreeExtents bits needed ≠ [] ↔
      ∃ cut ≤ totalDataBlocks, needed ≤ freeBelow bits cut ∧
        runsBelow bits cut ≤ maxExtents := by
  have hseen : Seen bits needed 0 needed [] :=
    ⟨rfl, by simp [freeBelow], .inr (.inr (.inl rfl)), Nat.zero_le _, by simp⟩
  rw [← findFreeExtentsFrom_zero_iff totalDataBlocks (by omega) hseen]
  simp only [findFreeExtents]
  split
  · rename_i hleft
    simp only [ne_eq, not_true_eq_false, false_iff]
    omega
  · rename_i hleft
    have hzero : (findFreeExtentsFrom bits totalDataBlocks 0 needed []).1 = 0 :=
      by omega
    exact iff_of_true (findFreeExtentsFrom_ne_nil hpos hzero) hzero

/-- The allocator finds room exactly where the first fit has room. -/
theorem chooseExtents_isSome_iff (bits : Bitmap) (needed : Nat) :
    (chooseExtents bits needed).isSome ↔ FirstFit bits needed := by
  unfold chooseExtents FirstFit
  split
  · rename_i hzero
    simp only [Option.isSome_some, true_iff]
    exact .inl ⟨0, by omega, by omega⟩
  · rename_i hne
    rw [← findFreeRun_isSome_iff (by omega),
      ← findFreeExtents_ne_nil_iff (by omega)]
    cases findFreeRun bits needed with
    | some start => simp
    | none => cases findFreeExtents bits needed <;> simp

end FileSystem

end VenomOS
