/-
How the physical memory manager starts and is used.  `init` turns the memory
map of the firmware, whatever it says, into a bitmap with a right counter in
which the low megabyte and the kernel image are in use; allocations and frees
of allocated frames keep it that way.
-/
import VenomOS.Pmm

namespace VenomOS

structure E820Entry where
  base : UInt64
  length : UInt64
  type : UInt32
  acpiAttributes : UInt32
deriving Repr, DecidableEq

def e820TypeUsable : UInt32 := 1

/-- The entry describes the memory at `x`. -/
def E820Entry.Holds (entry : E820Entry) (x : Nat) : Prop :=
  entry.base.toNat ≤ x ∧ x < entry.base.toNat + entry.length.toNat

namespace Pmm

variable (pmm : Pmm)

/-- The body of the loop of `mark_range_used`. -/
def markUsed (frame : Nat) : Pmm :=
  if pmm.used frame then pmm else pmm.take frame

/-- The body of the loop of `mark_range_free`. -/
def markFree (frame : Nat) : Pmm :=
  if pmm.used frame then pmm.give frame else pmm

def markFrames (mark : Pmm → Nat → Pmm) : Nat → Nat → Pmm → Pmm
  | 0, _, pmm => pmm
  | count + 1, frame, pmm =>
      markFrames mark count (frame + 1) (mark pmm frame)

/-- What the two range functions share: the end is cut at the managed limit,
and partial frames count as whole ones. -/
def markRange (mark : Pmm → Nat → Pmm) (start stop : Nat) : Pmm :=
  let stop := if managedLimit < stop then managedLimit else stop
  if stop ≤ start then pmm
  else
    let firstFrame := start / frameSize
    let lastFrame := (stop + frameSize - 1) / frameSize
    markFrames mark (lastFrame - firstFrame) firstFrame pmm

def markRangeUsed (start stop : Nat) : Pmm := pmm.markRange markUsed start stop

def markRangeFree (start stop : Nat) : Pmm := pmm.markRange markFree start stop

/-- One turn of the loop over the memory map.  The end of a region wraps
around like the 64-bit sum it is. -/
def addRegion (entry : E820Entry) : Pmm :=
  if entry.type ≠ e820TypeUsable then pmm
  else if managedLimit ≤ entry.base.toNat then pmm
  else
    let regionEnd := entry.base + entry.length
    pmm.markRangeFree entry.base.toNat regionEnd.toNat

/-- `kernelEnd` is the address of the linker symbol. -/
def init (entries : List E820Entry) (kernelEnd : UInt64) : Pmm :=
  let pmm : Pmm := ⟨fun _ => true, 0⟩
  let pmm := entries.foldl addRegion pmm
  let pmm := pmm.markRangeUsed 0x0 0x100000
  pmm.markRangeUsed 0x100000 kernelEnd.toNat

def totalFrames : UInt64 := UInt64.ofNat managedFrames

def usedFrames : UInt64 := UInt64.ofNat managedFrames - pmm.freeCount

variable {pmm} {entries : List E820Entry} {kernelEnd : UInt64}
  {frame start stop : Nat}

/-- The range holds a byte of this managed frame. -/
def Meets (start stop frame : Nat) : Prop :=
  start < stop ∧ frame < managedFrames ∧ start < (frame + 1) * frameSize ∧
    frame * frameSize < stop

theorem markRange_eq (pmm : Pmm) (mark : Pmm → Nat → Pmm)
    (start stop : Nat) :
    ∃ first count, pmm.markRange mark start stop =
        markFrames mark count first pmm ∧
      first + count ≤ managedFrames ∧
      ∀ frame, first ≤ frame ∧ frame < first + count ↔
        Meets start stop frame := by
  obtain ⟨last, hlast⟩ : ∃ last,
      last = if managedLimit < stop then managedLimit else stop := ⟨_, rfl⟩
  have hcut : last = min managedLimit stop := by
    rw [hlast]
    split
    · omega
    · omega
  unfold markRange Meets
  rw [← hlast]
  simp only [managedFrames, managedLimit, frameSize] at *
  by_cases hempty : last ≤ start
  · exact ⟨0, 0, if_pos hempty, by omega, fun frame => by omega⟩
  · exact ⟨_, _, if_neg hempty, by omega, fun frame => by omega⟩

section

variable (hcounted : pmm.Counted)

include hcounted

variable {mark : Pmm → Nat → Pmm}

/-- The counter stays right while a loop marks managed frames. -/
theorem Counted.markFrames
    (hmark : ∀ {pmm : Pmm} {frame : Nat}, pmm.Counted →
      frame < managedFrames → (mark pmm frame).Counted)
    {count : Nat} (hlast : frame + count ≤ managedFrames) :
    (markFrames mark count frame pmm).Counted := by
  induction count generalizing frame pmm with
  | zero => exact hcounted
  | succ count ih => exact ih (hmark hcounted (by omega)) (by omega)

theorem Counted.markRange
    (hmark : ∀ {pmm : Pmm} {frame : Nat}, pmm.Counted →
      frame < managedFrames → (mark pmm frame).Counted)
    (start stop : Nat) :
    (pmm.markRange mark start stop).Counted := by
  obtain ⟨first, count, heq, hlast, _⟩ := markRange_eq pmm mark start stop
  rw [heq]
  exact hcounted.markFrames hmark hlast

theorem Counted.markUsed (hlt : frame < managedFrames) :
    (pmm.markUsed frame).Counted := by
  unfold Pmm.markUsed
  split
  · exact hcounted
  · rename_i hclear
    exact (hcounted.take hlt (by simpa using hclear)).1

theorem Counted.markFree (hlt : frame < managedFrames) :
    (pmm.markFree frame).Counted := by
  unfold Pmm.markFree
  split
  · rename_i hused
    exact (hcounted.give hlt hused).1
  · exact hcounted

theorem Counted.addRegion (entry : E820Entry) :
    (pmm.addRegion entry).Counted := by
  unfold Pmm.addRegion
  split
  · exact hcounted
  · split
    · exact hcounted
    · exact hcounted.markRange Counted.markFree _ _

theorem Counted.addRegions :
    (entries.foldl Pmm.addRegion pmm).Counted := by
  induction entries generalizing pmm with
  | nil => exact hcounted
  | cons entry entries ih => exact ih (hcounted.addRegion entry)

end

theorem init_counted (entries : List E820Entry) (kernelEnd : UInt64) :
    (init entries kernelEnd).Counted := by
  have hfull : (⟨fun _ => true, 0⟩ : Pmm).Counted := by
    simp [Counted, clearCount]
  exact (hfull.addRegions.markRange Counted.markUsed _ _).markRange
    Counted.markUsed _ _

theorem used_markUsed (other : Nat) :
    (pmm.markUsed frame).used other =
      (pmm.used other || decide (other = frame)) := by
  unfold markUsed
  split
  · rename_i hused
    by_cases heq : other = frame
    · simp [heq, hused]
    · simp [heq]
  · by_cases heq : other = frame
    · simp [heq, used_take_self]
    · simp [heq, used_take_of_ne]

theorem used_markFrames {count : Nat} (other : Nat) :
    (markFrames markUsed count frame pmm).used other =
      (pmm.used other ||
        decide (frame ≤ other ∧ other < frame + count)) := by
  induction count generalizing frame pmm with
  | zero =>
      simp [markFrames]
  | succ count ih =>
      rw [markFrames, ih, used_markUsed, Bool.or_assoc, ← Bool.decide_or]
      congr 2
      apply propext
      omega

theorem used_markRangeUsed :
    (pmm.markRangeUsed start stop).used frame = true ↔
      pmm.used frame = true ∨ Meets start stop frame := by
  obtain ⟨first, count, heq, _, hmeets⟩ :=
    markRange_eq pmm markUsed start stop
  rw [markRangeUsed, heq, used_markFrames, Bool.or_eq_true,
    decide_eq_true_eq, hmeets]

/-- The frames that `init` sets aside: those below one megabyte and those
that hold a part of the kernel image. -/
def Kept (kernelEnd : UInt64) (frame : Nat) : Prop :=
  frame * frameSize < 0x100000 ∨ frame * frameSize < kernelEnd.toNat

theorem init_kept (entries : List E820Entry) (hlt : frame < managedFrames)
    (hkept : Kept kernelEnd frame) :
    (init entries kernelEnd).used frame = true := by
  unfold init
  rw [used_markRangeUsed, used_markRangeUsed]
  by_cases hlow : frame * frameSize < 0x100000
  · exact Or.inl (Or.inr ⟨by decide, hlt, by simp [frameSize], hlow⟩)
  · have hkernel := hkept.resolve_left hlow
    refine Or.inr ⟨by omega, hlt, ?_, hkernel⟩
    simp only [frameSize] at *
    omega

/-- The states that allocations and frees reach, with the addresses that are
still out.  Only a frame that is out is freed. -/
inductive Reaches (entries : List E820Entry) (kernelEnd : UInt64) :
    Pmm → Finset Nat → Prop where
  | start : Reaches entries kernelEnd (init entries kernelEnd) ∅
  | alloc {pmm pmm' : Pmm} {out : Finset Nat} {addr : Nat}
      (hreaches : Reaches entries kernelEnd pmm out)
      (halloc : pmm.allocFrame = (pmm', addr)) :
      Reaches entries kernelEnd pmm'
        (if addr = 0 then out else insert addr out)
  | free {pmm : Pmm} {out : Finset Nat} {addr : Nat}
      (hreaches : Reaches entries kernelEnd pmm out) (hout : addr ∈ out) :
      Reaches entries kernelEnd (pmm.freeFrame addr) (out.erase addr)

/-- The counter is right, the reserved frames are in use, and what is out is
in use and not reserved. -/
structure Sound (kernelEnd : UInt64) (pmm : Pmm) (out : Finset Nat) :
    Prop where
  counted : pmm.Counted
  kept : ∀ frame < managedFrames, Kept kernelEnd frame →
    pmm.used frame = true
  out_used : ∀ addr ∈ out, ∃ frame < managedFrames,
    addr = frame * frameSize ∧ pmm.used frame = true ∧
      ¬ Kept kernelEnd frame

theorem init_sound (entries : List E820Entry) (kernelEnd : UInt64) :
    Sound kernelEnd (init entries kernelEnd) ∅ where
  counted := init_counted entries kernelEnd
  kept _ hlt hkept := init_kept entries hlt hkept
  out_used := by simp

variable {out : Finset Nat}

/-- A clear bit is a frame that may be handed out. -/
theorem Sound.fresh (hsound : Sound kernelEnd pmm out)
    (hlt : frame < managedFrames) (hclear : pmm.used frame = false) :
    ¬ Kept kernelEnd frame ∧ frame * frameSize ∉ out := by
  constructor
  · intro hkept
    rw [hsound.kept frame hlt hkept] at hclear
    cases hclear
  · intro hout
    obtain ⟨other, _, heq, hused, _⟩ := hsound.out_used _ hout
    have hsame : frame = other := Nat.eq_of_mul_eq_mul_right (by decide) heq
    rw [hsame, hused] at hclear
    cases hclear

theorem Sound.take (hsound : Sound kernelEnd pmm out)
    (hlt : frame < managedFrames) (hclear : pmm.used frame = false) :
    Sound kernelEnd (pmm.take frame) (insert (frame * frameSize) out) where
  counted := (hsound.counted.take hlt hclear).1
  kept other hother hkept := used_take_of_used (hsound.kept other hother hkept)
  out_used := by
    refine Finset.forall_mem_insert _ _ _ |>.mpr ⟨?_, fun addr haddr => ?_⟩
    · exact ⟨frame, hlt, rfl, used_take_self pmm frame,
        (hsound.fresh hlt hclear).1⟩
    · obtain ⟨other, hother, heq, hused, hkept⟩ := hsound.out_used addr haddr
      exact ⟨other, hother, heq, used_take_of_used hused, hkept⟩

theorem Sound.give (hsound : Sound kernelEnd pmm out)
    (hlt : frame < managedFrames) (hused : pmm.used frame = true)
    (hkept : ¬ Kept kernelEnd frame) :
    Sound kernelEnd (pmm.give frame) (out.erase (frame * frameSize)) where
  counted := (hsound.counted.give hlt hused).1
  kept other hother hother' := by
    have hne : other ≠ frame := fun heq => hkept (heq ▸ hother')
    exact (Function.update_of_ne hne ..).trans
      (hsound.kept other hother hother')
  out_used addr haddr := by
    obtain ⟨hne, hmem⟩ := Finset.mem_erase.mp haddr
    obtain ⟨other, hother, heq, hused', hkept'⟩ := hsound.out_used addr hmem
    have hframe : other ≠ frame := fun heq' => hne (heq' ▸ heq)
    exact ⟨other, hother, heq,
      (Function.update_of_ne hframe ..).trans hused', hkept'⟩

theorem Kept.zero (kernelEnd : UInt64) : Kept kernelEnd 0 :=
  Or.inl (by simp)

/-- An allocation hands out a fresh frame, or there is none. -/
theorem Sound.alloc_cases (hsound : Sound kernelEnd pmm out) :
    (∃ frame < managedFrames, pmm.used frame = false ∧
      frame * frameSize ≠ 0 ∧
      pmm.allocFrame = (pmm.take frame, frame * frameSize)) ∨
    (∀ frame < managedFrames, pmm.used frame = true) ∧
      pmm.allocFrame = (pmm, 0) := by
  rcases allocFrame_cases pmm with ⟨frame, hlt, hclear, halloc⟩ | hnone
  · refine Or.inl ⟨frame, hlt, hclear, fun hzero => ?_, halloc⟩
    have hframe : frame = 0 :=
      (Nat.mul_eq_zero.mp hzero).resolve_right (by decide)
    exact (hsound.fresh hlt hclear).1 (hframe ▸ Kept.zero kernelEnd)
  · exact Or.inr hnone

theorem Reaches.sound (hreaches : Reaches entries kernelEnd pmm out) :
    Sound kernelEnd pmm out := by
  induction hreaches with
  | start => exact init_sound entries kernelEnd
  | alloc _ halloc ih =>
      rcases ih.alloc_cases with
        ⟨frame, hlt, hclear, hne, halloc'⟩ | ⟨_, halloc'⟩
      · rw [halloc] at halloc'
        cases halloc'
        rw [if_neg hne]
        exact ih.take hlt hclear
      · rw [halloc] at halloc'
        cases halloc'
        rw [if_pos rfl]
        exact ih
  | free _ hout ih =>
      obtain ⟨frame, hlt, rfl, hused, hkept⟩ := ih.out_used _ hout
      rw [freeFrame_of_used hlt hused]
      exact ih.give hlt hused hkept

/-- Whatever the memory map says and however frames were allocated and freed:
the counter is the number of clear bits, an allocation fails only when there
is none, and what it returns is a whole frame outside the low megabyte and the
kernel image that is not out. -/
theorem frame_allocator_invariant
    (hreaches : Reaches entries kernelEnd pmm out) :
    pmm.freeFrames.toNat = clearCount pmm.used ∧
    pmm.usedFrames + pmm.freeFrames = totalFrames ∧
    (pmm.allocFrame.2 = 0 ↔
      ∀ frame < managedFrames, pmm.used frame = true) ∧
    (pmm.allocFrame.2 ≠ 0 →
      pmm.allocFrame.2 ∉ out ∧ 0x100000 ≤ pmm.allocFrame.2 ∧
      kernelEnd.toNat ≤ pmm.allocFrame.2 ∧
      pmm.allocFrame.2 % frameSize = 0 ∧
      pmm.allocFrame.2 < managedLimit) := by
  have hsound := hreaches.sound
  refine ⟨hsound.counted, by simp [usedFrames, freeFrames, totalFrames], ?_⟩
  rcases hsound.alloc_cases with
    ⟨frame, hlt, hclear, hne, halloc⟩ | ⟨hfull, halloc⟩
  · obtain ⟨hkept, hout⟩ := hsound.fresh hlt hclear
    simp only [Kept, not_or, not_lt] at hkept
    rw [halloc]
    refine ⟨iff_of_false hne fun hfull => ?_, fun _ => ⟨hout, hkept.1,
      hkept.2, Nat.mul_mod_left _ _, ?_⟩⟩
    · rw [hfull frame hlt] at hclear
      cases hclear
    · simp only [managedFrames, managedLimit, frameSize] at *
      omega
  · rw [halloc]
    exact ⟨iff_of_true rfl hfull, fun hne => absurd rfl hne⟩

/-- Overlapping, empty, reserved and wrapping regions. -/
def oddMap : List E820Entry :=
  [⟨0x200000, 0x100000, 1, 1⟩, ⟨0x0, 0x9FC00, 1, 1⟩,
    ⟨0x280123, 0x100000, 1, 1⟩, ⟨0x300000, 0, 1, 1⟩,
    ⟨0x3FFFF000, 0xFFFFFFFFFFFFFFFF, 1, 1⟩, ⟨0x400000, 0x1000, 2, 1⟩]

theorem frame_allocator_invariant_oddMap :
    ∃ pmm out, Reaches oddMap 0x180000 pmm out ∧
      pmm.freeFrames.toNat = clearCount pmm.used := by
  have hstart : Reaches oddMap 0x180000 _ _ := Reaches.start
  have hreaches := (hstart.alloc Prod.mk.eta.symm).alloc Prod.mk.eta.symm
  exact ⟨_, _, hreaches, (frame_allocator_invariant hreaches).1⟩

theorem used_markFree (other : Nat) :
    (pmm.markFree frame).used other =
      (pmm.used other && !decide (other = frame)) := by
  unfold markFree
  split
  · by_cases heq : other = frame
    · simp [heq, give]
    · simp [heq, give]
  · rename_i hclear
    by_cases heq : other = frame
    · simp [heq, hclear]
    · simp [heq]

theorem used_markFrames_markFree {count : Nat} (other : Nat) :
    (markFrames markFree count frame pmm).used other =
      (pmm.used other &&
        !decide (frame ≤ other ∧ other < frame + count)) := by
  induction count generalizing frame pmm with
  | zero =>
      simp [markFrames, Nat.lt_or_ge]
  | succ count ih =>
      rw [markFrames, ih, used_markFree, Bool.and_assoc, ← Bool.not_or,
        ← Bool.decide_or]
      congr 3
      apply propext
      omega

theorem used_markRangeFree :
    (pmm.markRangeFree start stop).used frame = true ↔
      pmm.used frame = true ∧ ¬ Meets start stop frame := by
  obtain ⟨first, count, heq, _, hmeets⟩ :=
    markRange_eq pmm markFree start stop
  rw [markRangeFree, heq, used_markFrames_markFree, Bool.and_eq_true,
    Bool.not_eq_true', decide_eq_false_iff_not, hmeets]

/-- A usable entry that does not wrap around holds a byte of the frame. -/
def Touches (entry : E820Entry) (frame : Nat) : Prop :=
  entry.type = e820TypeUsable ∧
    entry.base.toNat + entry.length.toNat < 2 ^ 64 ∧
    ∃ x, frame * frameSize ≤ x ∧ x < (frame + 1) * frameSize ∧ entry.Holds x

variable {entry : E820Entry}

theorem meets_iff_touches (hlt : frame < managedFrames)
    (htype : entry.type = e820TypeUsable)
    (hbase : entry.base.toNat < managedLimit) :
    Meets entry.base.toNat (entry.base + entry.length).toNat frame ↔
      Touches entry frame := by
  have hlength := entry.length.toNat_lt
  rw [UInt64.toNat_add]
  simp only [Meets, Touches, E820Entry.Holds, htype, true_and, managedLimit,
    managedFrames, frameSize] at *
  constructor
  · rintro ⟨_, _, _, _⟩
    refine ⟨by omega, max entry.base.toNat (frame * 4096), ?_, ?_, ?_, ?_⟩ <;>
      omega
  · rintro ⟨_, x, _, _, _, _⟩
    omega

theorem used_addRegion (hlt : frame < managedFrames) :
    (pmm.addRegion entry).used frame = true ↔
      pmm.used frame = true ∧ ¬ Touches entry frame := by
  unfold addRegion
  split
  · rename_i htype
    simp [Touches, htype]
  · rename_i htype
    rw [not_not] at htype
    split
    · rename_i hbase
      have hnot : ¬ Touches entry frame := by
        rintro ⟨_, _, x, _, hx, hheld, _⟩
        simp only [managedFrames, managedLimit, frameSize] at *
        omega
      simp [hnot]
    · rename_i hbase
      rw [used_markRangeFree, meets_iff_touches hlt htype (by omega)]

theorem used_addRegions (hlt : frame < managedFrames) :
    (entries.foldl addRegion pmm).used frame = true ↔
      pmm.used frame = true ∧ ∀ entry ∈ entries, ¬ Touches entry frame := by
  induction entries generalizing pmm with
  | nil => simp
  | cons entry entries ih =>
      rw [List.foldl_cons, ih, used_addRegion hlt, List.forall_mem_cons,
        and_assoc]

/-- The frames `init` leaves free: those that hold a byte of a usable entry
and are not set aside. -/
theorem init_clear_iff (hlt : frame < managedFrames) :
    (init entries kernelEnd).used frame = false ↔
      ¬ Kept kernelEnd frame ∧ ∃ entry ∈ entries, Touches entry frame := by
  by_cases hkept : Kept kernelEnd frame
  · simp [hkept, init_kept entries hlt hkept]
  · have hlow : ¬ Meets 0x0 0x100000 frame := fun hmeets =>
      hkept (Or.inl hmeets.2.2.2)
    have hkernel : ¬ Meets 0x100000 kernelEnd.toNat frame := fun hmeets =>
      hkept (Or.inr hmeets.2.2.2)
    rw [← Bool.not_eq_true, init, used_markRangeUsed, used_markRangeUsed,
      used_addRegions hlt]
    simp [hkept, hlow, hkernel]

/-- Every byte of the frame is memory that an entry calls usable and no entry
calls anything else. -/
def Genuine (entries : List E820Entry) (frame : Nat) : Prop :=
  ∀ x, frame * frameSize ≤ x → x < (frame + 1) * frameSize →
    (∃ entry ∈ entries, entry.type = e820TypeUsable ∧ entry.Holds x) ∧
      ∀ entry ∈ entries, entry.type ≠ e820TypeUsable → ¬ entry.Holds x

/-- The frame lies outside the low megabyte and the kernel image. -/
def Outside (kernelEnd : UInt64) (frame : Nat) : Prop :=
  ∀ x, frame * frameSize ≤ x → x < (frame + 1) * frameSize →
    ¬ x < 0x100000 ∧ ¬ (0x100000 ≤ x ∧ x < kernelEnd.toNat)

theorem outside_of_not_kept (hkept : ¬ Kept kernelEnd frame) :
    Outside kernelEnd frame := by
  intro x hlow _
  simp only [Kept] at hkept
  omega

/-- `init` frees only genuinely usable memory exactly when each frame that a
usable entry touches is usable as a whole: it rounds entries outwards and
ignores the entries of other types. -/
theorem init_frees_genuine_iff (entries : List E820Entry)
    (kernelEnd : UInt64) :
    (∀ frame < managedFrames, (init entries kernelEnd).used frame = false →
      Genuine entries frame ∧ Outside kernelEnd frame) ↔
    ∀ frame < managedFrames, ¬ Kept kernelEnd frame →
      (∃ entry ∈ entries, Touches entry frame) → Genuine entries frame := by
  refine forall₂_congr fun frame hlt => ?_
  rw [init_clear_iff hlt]
  constructor
  · intro hgood hkept htouched
    exact (hgood ⟨hkept, htouched⟩).1
  · rintro hgood ⟨hkept, htouched⟩
    exact ⟨hgood hkept htouched, outside_of_not_kept hkept⟩

/-- A usable region that ends in the middle of a frame. -/
theorem init_frees_half_frame :
    ∃ entries kernelEnd frame, frame < managedFrames ∧
      (init entries kernelEnd).used frame = false ∧
      ¬ Genuine entries frame := by
  refine ⟨[⟨0x200000, 0x800, 1, 1⟩], 0x180000, 0x200, by decide, ?_, ?_⟩
  · refine (init_clear_iff (by decide)).mpr ⟨by unfold Kept; decide, _,
      List.mem_singleton.mpr rfl, rfl, by decide, 0x200000, ?_⟩
    unfold E820Entry.Holds
    decide
  · intro hgenuine
    obtain ⟨⟨entry, hentry, _, hholds⟩, _⟩ :=
      hgenuine 0x200800 (by decide) (by decide)
    rw [List.mem_singleton.mp hentry] at hholds
    exact absurd hholds.2 (by decide)

end Pmm

end VenomOS
