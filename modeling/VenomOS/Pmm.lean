/-
The physical memory manager of kernel/pmm.cpp: one bit per frame of the first
gigabyte, and a counter of the clear bits.
-/
import Mathlib

namespace VenomOS

structure Pmm where
  /-- The bitmap, by frame number. -/
  used : Nat → Bool
  freeCount : UInt64

namespace Pmm

def frameSize : Nat := 4096

def managedLimit : Nat := 0x40000000

def managedFrames : Nat := managedLimit / frameSize

variable (pmm : Pmm)

/-- Set a clear bit. -/
def take (frame : Nat) : Pmm :=
  ⟨Function.update pmm.used frame true, pmm.freeCount - 1⟩

/-- Clear a set bit. -/
def give (frame : Nat) : Pmm :=
  ⟨Function.update pmm.used frame false, pmm.freeCount + 1⟩

/-- The first clear bit among `fuel` frames from `frame` on. -/
def firstClear (used : Nat → Bool) : Nat → Nat → Option Nat
  | 0, _ => none
  | fuel + 1, frame =>
      if used frame then firstClear used fuel (frame + 1) else some frame

def allocFrame : Pmm × Nat :=
  match firstClear pmm.used managedFrames 0 with
  | some frame => (pmm.take frame, frame * frameSize)
  | none => (pmm, 0)

def freeFrame (physAddr : Nat) : Pmm :=
  if managedLimit ≤ physAddr then pmm
  else if physAddr % frameSize ≠ 0 then pmm
  else if pmm.used (physAddr / frameSize) = false then pmm
  else pmm.give (physAddr / frameSize)

def freeFrames : UInt64 := pmm.freeCount

variable {pmm} {used used' : Nat → Bool} {frame fuel start : Nat}

theorem used_take_of_used {other : Nat} (hused : pmm.used other = true) :
    (pmm.take frame).used other = true := by
  by_cases heq : other = frame
  · rw [heq]
    exact Function.update_self ..
  · exact (Function.update_of_ne heq ..).trans hused

/-- Freeing what was just taken undoes the allocation. -/
theorem give_take (hclear : pmm.used frame = false) :
    (pmm.take frame).give frame = pmm := by
  obtain ⟨used, count⟩ := pmm
  simp only at hclear
  simp only [take, give, Function.update_idem, sub_add_cancel]
  rw [← hclear, Function.update_eq_self]

theorem used_take_self (pmm : Pmm) (frame : Nat) :
    (pmm.take frame).used frame = true :=
  Function.update_self ..

theorem used_take_of_ne {other : Nat} (hne : other ≠ frame) :
    (pmm.take frame).used other = pmm.used other :=
  Function.update_of_ne hne ..

theorem firstClear_some (hfirst : firstClear used fuel start = some frame) :
    used frame = false ∧ start ≤ frame ∧ frame < start + fuel := by
  induction fuel generalizing start with
  | zero => cases hfirst
  | succ fuel ih =>
      rw [firstClear] at hfirst
      split at hfirst
      · obtain ⟨hclear, hge, hlt⟩ := ih hfirst
        exact ⟨hclear, by omega, by omega⟩
      · rename_i hclear
        cases hfirst
        exact ⟨Bool.eq_false_of_not_eq_true hclear, le_rfl, by omega⟩

theorem firstClear_none (hfirst : firstClear used fuel start = none)
    (hge : start ≤ frame) (hlt : frame < start + fuel) :
    used frame = true := by
  induction fuel generalizing start with
  | zero => omega
  | succ fuel ih =>
      rw [firstClear] at hfirst
      split at hfirst
      · rename_i hused
        by_cases heq : frame = start
        · rw [heq]
          exact hused
        · exact ih hfirst (by omega) (by omega)
      · cases hfirst

/-- An allocation takes a clear bit, or there is none. -/
theorem allocFrame_cases (pmm : Pmm) :
    (∃ frame < managedFrames, pmm.used frame = false ∧
      pmm.allocFrame = (pmm.take frame, frame * frameSize)) ∨
    (∀ frame < managedFrames, pmm.used frame = true) ∧
      pmm.allocFrame = (pmm, 0) := by
  unfold allocFrame
  cases hfirst : firstClear pmm.used managedFrames 0 with
  | some frame =>
      obtain ⟨hclear, _, hlt⟩ := firstClear_some hfirst
      exact Or.inl ⟨frame, by omega, hclear, rfl⟩
  | none =>
      refine Or.inr ⟨fun frame hlt => ?_, rfl⟩
      exact firstClear_none hfirst (Nat.zero_le _) (by omega)

theorem freeFrame_of_used (hlt : frame < managedFrames)
    (hused : pmm.used frame = true) :
    pmm.freeFrame (frame * frameSize) = pmm.give frame := by
  have hlimit : ¬ managedLimit ≤ frame * frameSize := by
    simp only [managedFrames, managedLimit, frameSize] at hlt ⊢
    omega
  have hdiv : frame * frameSize / frameSize = frame :=
    Nat.mul_div_cancel _ (by decide)
  rw [freeFrame, if_neg hlimit, if_neg (by simp), hdiv,
    if_neg (by simp [hused])]

theorem used_freeFrame (pmm : Pmm) (physAddr frame : Nat) :
    (pmm.freeFrame physAddr).used frame = true ↔ pmm.used frame = true ∧
      ¬ (frame < managedFrames ∧ physAddr = frame * frameSize) := by
  have hframes : managedFrames = 262144 := rfl
  have hlimit : managedLimit = 262144 * 4096 := rfl
  have hsize : frameSize = 4096 := rfl
  unfold freeFrame
  split
  · have hother : ¬ (frame < managedFrames ∧
        physAddr = frame * frameSize) := by
      rw [hsize]
      omega
    simp [hother]
  · split
    · rename_i haligned
      have hother : ¬ (frame < managedFrames ∧
          physAddr = frame * frameSize) := by
        rintro ⟨_, rfl⟩
        exact haligned (Nat.mul_mod_left _ _)
      simp [hother]
    · have hiff : (frame < managedFrames ∧ physAddr = frame * frameSize) ↔
          frame = physAddr / frameSize := by
        simp only [hsize] at *
        omega
      rw [hiff]
      by_cases heq : frame = physAddr / frameSize
      · rw [← heq]
        split
        · rename_i hclear
          simp [hclear]
        · simp [give]
      · split
        · simp [heq]
        · simp [heq, give]

theorem used_foldl_freeFrame (frames : List Nat) (pmm : Pmm) (frame : Nat) :
    (frames.foldl freeFrame pmm).used frame = true ↔ pmm.used frame = true ∧
      ¬ (frame < managedFrames ∧ frame * frameSize ∈ frames) := by
  induction frames generalizing pmm with
  | nil => simp
  | cons first rest ih =>
      rw [List.foldl_cons, ih, used_freeFrame, and_assoc, ← not_or,
        ← and_or_left, List.mem_cons, eq_comm (a := first)]

/-- The number of clear bits. -/
def clearCount (used : Nat → Bool) : Nat :=
  ((Finset.range managedFrames).filter fun frame => used frame = false).card

/-- The counter is right. -/
def Counted (pmm : Pmm) : Prop :=
  pmm.freeCount.toNat = clearCount pmm.used

theorem clearCount_le (used : Nat → Bool) :
    clearCount used ≤ managedFrames := by
  have hcard := Finset.card_filter_le (Finset.range managedFrames)
    fun frame => used frame = false
  rwa [Finset.card_range] at hcard

theorem clearCount_set (hlt : frame < managedFrames)
    (hclear : used frame = false) :
    clearCount (Function.update used frame true) + 1 = clearCount used := by
  have hmem : frame ∈ (Finset.range managedFrames).filter
      fun frame => used frame = false := by
    simp [hlt, hclear]
  have herase : (Finset.range managedFrames).filter
      (fun other => Function.update used frame true other = false) =
        ((Finset.range managedFrames).filter
          fun other => used other = false).erase frame := by
    ext other
    by_cases heq : other = frame
    · simp [heq]
    · simp [heq]
  rw [clearCount, herase]
  exact Finset.card_erase_add_one hmem

theorem clearCount_clear (hlt : frame < managedFrames)
    (hused : used frame = true) :
    clearCount (Function.update used frame false) = clearCount used + 1 := by
  have hset := clearCount_set hlt
    (Function.update_self frame false used)
  rw [Function.update_idem, ← hused, Function.update_eq_self] at hset
  exact hset.symm

theorem Counted.take (hcounted : pmm.Counted) (hlt : frame < managedFrames)
    (hclear : pmm.used frame = false) :
    (pmm.take frame).Counted ∧
      (pmm.take frame).freeCount.toNat + 1 = pmm.freeCount.toNat := by
  have hset := clearCount_set hlt hclear
  have hle : (1 : UInt64) ≤ pmm.freeCount := by
    rw [UInt64.le_iff_toNat_le, hcounted]
    exact Nat.le_of_lt_succ (by simp [← hset])
  have hsub : (pmm.freeCount - 1).toNat = pmm.freeCount.toNat - 1 :=
    UInt64.toNat_sub_of_le _ _ hle
  have hpos : 1 ≤ pmm.freeCount.toNat := UInt64.le_iff_toNat_le.mp hle
  unfold Counted at *
  simp only [Pmm.take, hsub]
  omega

theorem Counted.give (hcounted : pmm.Counted) (hlt : frame < managedFrames)
    (hused : pmm.used frame = true) :
    (pmm.give frame).Counted ∧
      (pmm.give frame).freeCount.toNat = pmm.freeCount.toNat + 1 := by
  have hclear := clearCount_clear hlt hused
  have hle := clearCount_le (Function.update pmm.used frame false)
  have hframes : managedFrames = 262144 := rfl
  have hadd : (pmm.freeCount + 1).toNat = pmm.freeCount.toNat + 1 := by
    unfold Counted at hcounted
    rw [UInt64.toNat_add]
    apply Nat.mod_eq_of_lt
    simp only [UInt64.toNat_one]
    omega
  refine ⟨?_, hadd⟩
  change (pmm.freeCount + 1).toNat = _
  rw [hadd, hcounted, ← hclear]
  rfl

/-- How far the counter is off. -/
def drift (pmm : Pmm) : UInt64 :=
  pmm.freeCount - UInt64.ofNat (clearCount pmm.used)

theorem drift_take (hlt : frame < managedFrames)
    (hclear : pmm.used frame = false) :
    (pmm.take frame).drift = pmm.drift := by
  simp only [drift, take]
  rw [← clearCount_set hlt hclear, UInt64.ofNat_add]
  exact (sub_add_eq_sub_sub_swap ..).symm

theorem drift_give (hlt : frame < managedFrames)
    (hused : pmm.used frame = true) :
    (pmm.give frame).drift = pmm.drift := by
  simp only [drift, give]
  rw [clearCount_clear hlt hused, UInt64.ofNat_add]
  exact add_sub_add_right_eq_sub ..

theorem drift_allocFrame (pmm : Pmm) : pmm.allocFrame.1.drift = pmm.drift := by
  rcases pmm.allocFrame_cases with ⟨frame, hlt, hclear, halloc⟩ | ⟨_, halloc⟩
  · rw [halloc]
    exact drift_take hlt hclear
  · rw [halloc]

theorem drift_freeFrame (pmm : Pmm) (physAddr : Nat) :
    (pmm.freeFrame physAddr).drift = pmm.drift := by
  unfold freeFrame
  split
  · rfl
  · rename_i hlimit
    split
    · rfl
    · split
      · rfl
      · rename_i hused
        refine drift_give ?_ (Bool.eq_true_of_not_eq_false hused)
        simp only [managedFrames, managedLimit, frameSize] at hlimit ⊢
        omega

theorem drift_foldl_freeFrame (frames : List Nat) (pmm : Pmm) :
    (frames.foldl freeFrame pmm).drift = pmm.drift := by
  induction frames generalizing pmm with
  | nil => rfl
  | cons first rest ih =>
      exact (ih _).trans (drift_freeFrame pmm first)

/-- Equal bitmaps that are off by the same have equal counters. -/
theorem ext_of_drift {pmm' : Pmm} (hdrift : pmm'.drift = pmm.drift)
    (hused : pmm'.used = pmm.used) : pmm' = pmm := by
  obtain ⟨used, count⟩ := pmm
  obtain ⟨used', count'⟩ := pmm'
  simp only at hused
  subst hused
  simp only [drift, sub_left_inj] at hdrift
  rw [hdrift]

/-- The clear bits are those left and those set in between. -/
theorem clearCount_eq_add (hmono : ∀ frame, used frame = true →
    used' frame = true) :
    clearCount used = clearCount used' + ((Finset.range managedFrames).filter
      fun frame => used frame = false ∧ used' frame = true).card := by
  unfold clearCount
  generalize Finset.range managedFrames = frames
  have hdisjoint : Disjoint (frames.filter fun frame => used' frame = false)
      (frames.filter fun frame => used frame = false ∧ used' frame = true) := by
    rw [Finset.disjoint_filter]
    intro frame _ hclear
    simp [hclear]
  rw [← Finset.card_union_of_disjoint hdisjoint, ← Finset.filter_or]
  refine congrArg Finset.card (Finset.filter_congr fun frame _ => ?_)
  have hused := hmono frame
  cases hframe : used frame with
  | false => simp
  | true => simp [hused hframe]

end Pmm

end VenomOS
