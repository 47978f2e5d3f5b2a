/-
The queue of kernel/keyboard.cpp between the interrupt handler, which fills it,
and one reader, which empties it.  The handler runs with interrupts off and is
one step; read_char can be interrupted between any two of its accesses to
memory.  Apart from that, the main loop polls: what comes of interrupts in the
middle of its enqueue is said at the end.
-/
import VenomOS.Keyboard

namespace VenomOS

namespace Keyboard

section Waiting

variable (kb : Keyboard)

def slotAfter (i : Nat) : Fin queueSize :=
  ⟨(kb.queueTail.val + i) % queueSize, Nat.mod_lt _ (by decide)⟩

/-- The characters that wait, the oldest first. -/
def waiting : List UInt8 :=
  (List.range kb.queued).map fun i => kb.queue (kb.slotAfter i)

variable {kb}

theorem queued_lt : kb.queued < queueSize := Fin.isLt _

theorem queued_eq :
    kb.queued = (kb.queueHead.val + queueSize - kb.queueTail.val) % queueSize := by
  have htail := kb.queueTail.isLt
  rw [queued, Fin.sub_def]
  dsimp only
  congr 1
  omega

theorem full_iff : kb.queueHead + 1 = kb.queueTail ↔ kb.queued = queueSize - 1 := by
  have hhead := kb.queueHead.isLt
  have htail := kb.queueTail.isLt
  rw [queued_eq, Fin.ext_iff, Fin.add_def, Fin.val_one]
  simp only [queueSize] at *
  omega

theorem enqueue_of_room (hroom : kb.queued + 1 < queueSize) (character : UInt8) :
    kb.enqueue character =
      { kb with
        queue := Function.update kb.queue kb.queueHead character
        queueHead := kb.queueHead + 1 } := by
  rw [enqueue]
  refine if_pos fun hfull => ?_
  have hcount := full_iff.1 hfull
  simp only [queueSize] at *
  omega

theorem enqueue_of_full (hfull : queueSize ≤ kb.queued + 1) (character : UInt8) :
    kb.enqueue character = kb := by
  have hlt := @queued_lt kb
  rw [enqueue]
  refine if_neg (not_not.2 (full_iff.2 ?_))
  omega

theorem head_eq_slotAfter : kb.queueHead = kb.slotAfter kb.queued := by
  have hhead := kb.queueHead.isLt
  have htail := kb.queueTail.isLt
  rw [Fin.ext_iff, slotAfter, queued_eq]
  simp only [queueSize] at *
  omega

theorem slotAfter_zero : kb.slotAfter 0 = kb.queueTail :=
  Fin.ext (Nat.mod_eq_of_lt kb.queueTail.isLt)

theorem slotAfter_ne_head {i : Nat} (hi : i < kb.queued) :
    kb.slotAfter i ≠ kb.queueHead := by
  have hlt := @queued_lt kb
  have htail := kb.queueTail.isLt
  rw [head_eq_slotAfter, Ne, Fin.ext_iff, slotAfter, slotAfter]
  simp only [queueSize] at *
  omega

theorem queued_enqueue (hroom : kb.queued + 1 < queueSize) (character : UInt8) :
    (kb.enqueue character).queued = kb.queued + 1 := by
  have hhead := kb.queueHead.isLt
  have htail := kb.queueTail.isLt
  have hbefore := @queued_eq kb
  rw [enqueue_of_room hroom, queued_eq]
  simp only [Fin.add_def, Fin.val_one, queueSize] at *
  omega

/-- A character that is taken goes to the end. -/
theorem waiting_enqueue (hroom : kb.queued + 1 < queueSize) (character : UInt8) :
    (kb.enqueue character).waiting = kb.waiting ++ [character] := by
  have hslot : ∀ i, (kb.enqueue character).slotAfter i = kb.slotAfter i := by
    intro i
    rw [enqueue_of_room hroom]
    rfl
  rw [waiting, queued_enqueue hroom, List.range_succ, List.map_append,
    List.map_singleton]
  simp only [hslot]
  rw [enqueue_of_room hroom]
  congr 1
  · refine List.map_congr_left fun i hi => ?_
    exact Function.update_of_ne (slotAfter_ne_head (List.mem_range.1 hi)) _ _
  · rw [← head_eq_slotAfter]
    exact congrArg (· :: []) (Function.update_self _ _ _)

/-- The queue without its oldest character. -/
def dropOldest (kb : Keyboard) : Keyboard :=
  { kb with queueTail := kb.queueTail + 1 }

theorem waiting_tail (hsome : 0 < kb.queued) :
    kb.waiting = kb.queue kb.queueTail :: kb.dropOldest.waiting := by
  have hhead := kb.queueHead.isLt
  have htail := kb.queueTail.isLt
  have hbefore := @queued_eq kb
  have hcount : kb.queued = kb.dropOldest.queued + 1 := by
    rw [@queued_eq kb.dropOldest]
    simp only [dropOldest, Fin.add_def, Fin.val_one, queueSize] at *
    omega
  have hslot : ∀ i, kb.slotAfter (i + 1) = kb.dropOldest.slotAfter i := by
    intro i
    rw [Fin.ext_iff, slotAfter, slotAfter]
    simp only [dropOldest, Fin.add_def, Fin.val_one, queueSize]
    omega
  rw [waiting, hcount, List.range_succ_eq_map, List.map_cons, slotAfter_zero,
    List.map_map]
  congr 1
  refine List.map_congr_left fun i _ => ?_
  exact congrArg kb.queue (hslot i)

theorem queueTail_enqueue (character : UInt8) :
    (kb.enqueue character).queueTail = kb.queueTail := by
  rw [enqueue]
  split <;> rfl

end Waiting

def arrowOf (key : UInt8) : Option UInt8 :=
  if key = scancodeUp then some keyUp
  else if key = scancodeDown then some keyDown
  else if key = scancodeLeft then some keyLeft
  else if key = scancodeRight then some keyRight
  else none

/-- The character that a scancode stands for, by the flags of the driver. -/
def decode (d : Driver) (scancode : UInt8) : Option UInt8 :=
  if scancode = extendedPrefix then none
  else
    let key := keyOf scancode
    if d.extendedSequence && !released scancode then arrowOf key
    else if isShift key then none
    else if key = capsLockKey ∧ released scancode = false then none
    else if (!released scancode && !d.extendedSequence) && translate d key ≠ 0 then
      some (translate d key)
    else none

def enqueueAll (kb : Keyboard) : Option UInt8 → Keyboard
  | none => kb
  | some character => kb.enqueue character

theorem enqueueArrow_eq (kb : Keyboard) (key : UInt8) :
    enqueueArrow kb key = enqueueAll kb (arrowOf key) := by
  rw [enqueueArrow, arrowOf]
  repeat' split
  all_goals rfl

theorem processScancode_keyboard (d : Driver) (scancode : UInt8) :
    (processScancode d scancode).keyboard =
      enqueueAll d.keyboard (decode d scancode) := by
  rw [processScancode, decode]
  by_cases hcode : scancode = extendedPrefix
  · rw [if_pos hcode, if_pos hcode]
    rfl
  rw [if_neg hcode, if_neg hcode]
  dsimp only
  by_cases harrow : (d.extendedSequence && !released scancode) = true
  · rw [if_pos harrow, if_pos harrow]
    exact enqueueArrow_eq d.keyboard (keyOf scancode)
  rw [if_neg harrow, if_neg harrow]
  by_cases hshift : isShift (keyOf scancode) = true
  · rw [if_pos hshift, if_pos hshift]
    rfl
  rw [if_neg hshift, if_neg hshift]
  by_cases hcaps : keyOf scancode = capsLockKey ∧ released scancode = false
  · rw [if_pos hcaps, if_pos hcaps]
    rfl
  rw [if_neg hcaps, if_neg hcaps]
  by_cases hplain : (!released scancode && !d.extendedSequence) = true
  · rw [if_pos hplain, hplain]
    by_cases hzero : translate d (keyOf scancode) = 0
    · simp [hzero, enqueueAll]
    · simp [hzero, enqueueAll]
  · rw [if_neg hplain, Bool.eq_false_of_not_eq_true hplain]
    rfl

/-- What the driver keeps besides the queue. -/
def Driver.flags (d : Driver) : Bool × Bool × Bool :=
  (d.shiftDown, d.capsLock, d.extendedSequence)

section Flags

variable {d d' : Driver} (hflags : d'.flags = d.flags) (scancode : UInt8)

include hflags

theorem decode_congr : decode d' scancode = decode d scancode := by
  simp only [Driver.flags, Prod.mk.injEq] at hflags
  simp only [decode, translate, hflags]

theorem flags_processScancode :
    (processScancode d' scancode).flags =
      (processScancode d scancode).flags := by
  obtain ⟨hextended, hshift, hcaps⟩ := processScancode_flags d scancode
  obtain ⟨hextended', hshift', hcaps'⟩ := processScancode_flags d' scancode
  simp only [Driver.flags, Prod.mk.injEq] at hflags ⊢
  simp only [hextended, hshift, hcaps, hextended', hshift', hcaps', hflags,
    and_self]

end Flags

/-- The characters that a user has typed. -/
def typedFrom (d : Driver) : List UInt8 → List UInt8
  | [] => []
  | code :: rest => (decode d code).toList ++ typedFrom (processScancode d code) rest

/-- Where read_char is: between two of its accesses, with what it has read. -/
inductive Reader where
  | outside
  | sawHead (head : Fin queueSize)
  | sawSome
  | sawTail (tail : Fin queueSize)
  | gotChar (character : UInt8)
  | gotTail (character : UInt8) (tail : Fin queueSize)

/-- The interrupt handler and one reader; neither SYS_READ, which reads the same
queue, nor the poll of the main loop comes in between. -/
structure System where
  driver : Driver
  reader : Reader
  delivered : List UInt8

/-- A scancode that the handler takes, or one access of the reader. -/
inductive Event where
  | scancode (code : UInt8)
  | access

def System.boot : System := ⟨Driver.boot, .outside, []⟩

/-- The next access of read_char; the reader calls it again and again. -/
def System.access (s : System) : System :=
  match s.reader with
  | .outside => { s with reader := .sawHead s.driver.keyboard.queueHead }
  | .sawHead head =>
      { s with
        reader := if head = s.driver.keyboard.queueTail then .outside else .sawSome }
  | .sawSome => { s with reader := .sawTail s.driver.keyboard.queueTail }
  | .sawTail tail => { s with reader := .gotChar (s.driver.keyboard.queue tail) }
  | .gotChar character =>
      { s with reader := .gotTail character s.driver.keyboard.queueTail }
  | .gotTail character tail =>
      { driver :=
          { s.driver with
            keyboard := { s.driver.keyboard with queueTail := tail + 1 } }
        reader := .outside
        delivered := s.delivered ++ [character] }

def System.step (s : System) : Event → System
  | .scancode code => { s with driver := processScancode s.driver code }
  | .access => s.access

def System.run (events : List Event) : System :=
  events.foldl System.step System.boot

def scancodes (events : List Event) : List UInt8 :=
  events.filterMap fun event =>
    match event with
    | .scancode code => some code
    | .access => none

theorem typedFrom_append (d : Driver) (codes rest : List UInt8) :
    typedFrom d (codes ++ rest) =
      typedFrom d codes ++ typedFrom (codes.foldl processScancode d) rest := by
  induction codes generalizing d with
  | nil => rfl
  | cons code codes ih =>
      rw [List.cons_append, typedFrom, ih, typedFrom, List.foldl_cons,
        List.append_assoc]

/-- What the reader has seen is still true of the queue. -/
def Reader.Agrees (kb : Keyboard) : Reader → Prop
  | .outside => True
  | .sawHead head => head ≠ kb.queueTail → 0 < kb.queued
  | .sawSome => 0 < kb.queued
  | .sawTail tail => 0 < kb.queued ∧ tail = kb.queueTail
  | .gotChar character => 0 < kb.queued ∧ character = kb.queue kb.queueTail
  | .gotTail character tail =>
      0 < kb.queued ∧ tail = kb.queueTail ∧ character = kb.queue kb.queueTail

/-- A character that arrives takes nothing away from the reader. -/
theorem Reader.Agrees.enqueue {kb : Keyboard} {reader : Reader}
    (hagrees : reader.Agrees kb) (character : UInt8) :
    reader.Agrees (kb.enqueue character) := by
  rcases Nat.lt_or_ge (kb.queued + 1) queueSize with hroom | hfull
  · have hcount := queued_enqueue hroom character
    have htail := @queueTail_enqueue kb character
    have hslot : 0 < kb.queued →
        (kb.enqueue character).queue kb.queueTail = kb.queue kb.queueTail := by
      intro hsome
      rw [enqueue_of_room hroom, ← slotAfter_zero]
      exact Function.update_of_ne (slotAfter_ne_head hsome) _ _
    cases reader with
    | outside => trivial
    | sawHead head =>
        intro hne
        rw [hcount]
        omega
    | sawSome =>
        rw [Agrees, hcount]
        omega
    | sawTail tail =>
        obtain ⟨hsome, rfl⟩ := hagrees
        exact ⟨by omega, htail.symm⟩
    | gotChar got =>
        obtain ⟨hsome, rfl⟩ := hagrees
        refine ⟨by omega, ?_⟩
        rw [htail, hslot hsome]
    | gotTail got tail =>
        obtain ⟨hsome, rfl, rfl⟩ := hagrees
        refine ⟨by omega, htail.symm, ?_⟩
        rw [htail, hslot hsome]
  · rw [enqueue_of_full hfull]
    exact hagrees

namespace System

/-- The characters in order: those that were read, then those that wait. -/
def contents (s : System) : List UInt8 := s.delivered ++ s.driver.keyboard.waiting

/-- What an event adds: a character that comes when the queue is full is
dropped. -/
def taken (s : System) : Event → List UInt8
  | .scancode code =>
      if s.driver.keyboard.queued + 1 < queueSize then (decode s.driver code).toList
      else []
  | .access => []

def Sound (s : System) : Prop := s.reader.Agrees s.driver.keyboard

variable {s : System}

theorem Sound.scancode (hsound : s.Sound) (code : UInt8) :
    (s.step (.scancode code)).Sound ∧
      (s.step (.scancode code)).contents = s.contents ++ s.taken (.scancode code) := by
  have hkeyboard := processScancode_keyboard s.driver code
  simp only [Sound, contents, step, taken, hkeyboard]
  cases hdecode : decode s.driver code with
  | none => exact ⟨hsound, by simp [enqueueAll]⟩
  | some character =>
      refine ⟨hsound.enqueue character, ?_⟩
      simp only [enqueueAll, Option.toList_some]
      split
      next hroom => rw [waiting_enqueue hroom, List.append_assoc]
      next hfull =>
        rw [enqueue_of_full (Nat.le_of_not_lt hfull), List.append_nil]

theorem Sound.access (hsound : s.Sound) :
    s.access.Sound ∧ s.access.contents = s.contents ∧
      s.access.driver.flags = s.driver.flags := by
  obtain ⟨driver, reader, delivered⟩ := s
  replace hsound : reader.Agrees driver.keyboard := hsound
  cases reader with
  | outside =>
      refine ⟨fun hne => ?_, rfl, rfl⟩
      exact (available_iff driver.keyboard).1 (bne_iff_ne.2 hne)
  | sawHead head =>
      refine ⟨?_, rfl, rfl⟩
      by_cases hempty : head = driver.keyboard.queueTail
      · simp only [System.Sound, System.access, hempty, ↓reduceIte]
        trivial
      · simp only [System.Sound, System.access, hempty, ↓reduceIte]
        exact hsound hempty
  | sawSome => exact ⟨⟨hsound, rfl⟩, rfl, rfl⟩
  | sawTail tail =>
      obtain ⟨hsome, rfl⟩ := hsound
      exact ⟨⟨hsome, rfl⟩, rfl, rfl⟩
  | gotChar character =>
      obtain ⟨hsome, hchar⟩ := hsound
      exact ⟨⟨hsome, rfl, hchar⟩, rfl, rfl⟩
  | gotTail character tail =>
      obtain ⟨hsome, rfl, rfl⟩ := hsound
      refine ⟨trivial, ?_, rfl⟩
      simp only [contents]
      rw [waiting_tail hsome, List.append_cons]
      rfl

theorem run_snoc (events : List Event) (event : Event) :
    run (events ++ [event]) = (run events).step event := by
  rw [run, List.foldl_append]
  rfl

theorem sound_run (events : List Event) :
    (run events).Sound ∧ (run events).driver.flags =
      ((scancodes events).foldl processScancode Driver.boot).flags := by
  induction events using List.reverseRecOn with
  | nil => exact ⟨trivial, rfl⟩
  | append_singleton events event ih =>
      obtain ⟨hsound, hflags⟩ := ih
      rw [run_snoc]
      cases event with
      | scancode code =>
          refine ⟨(hsound.scancode code).1, ?_⟩
          rw [scancodes, List.filterMap_append, List.foldl_append]
          exact flags_processScancode hflags code
      | access =>
          obtain ⟨hsound', _, hsame⟩ := hsound.access
          refine ⟨hsound', hsame.trans ?_⟩
          rw [scancodes, List.filterMap_append, List.foldl_append]
          exact hflags

/-- What the characters of a scancode are, and how many of them are taken. -/
theorem contents_snoc (events : List Event) (event : Event) :
    (run (events ++ [event])).contents =
      (run events).contents ++ (run events).taken event := by
  obtain ⟨hsound, _⟩ := sound_run events
  rw [run_snoc]
  cases event with
  | scancode code => exact (hsound.scancode code).2
  | access => exact hsound.access.2.1.trans (List.append_nil _).symm

theorem typed_snoc (events : List Event) (code : UInt8) :
    typedFrom Driver.boot (scancodes (events ++ [.scancode code])) =
      typedFrom Driver.boot (scancodes events) ++
        (decode (run events).driver code).toList := by
  obtain ⟨_, hflags⟩ := sound_run events
  rw [scancodes, List.filterMap_append, typedFrom_append]
  congr 1
  change (decode _ code).toList ++ [] = _
  rw [List.append_nil, decode_congr hflags]
  rfl

theorem typed_access (events : List Event) :
    scancodes (events ++ [.access]) = scancodes events := by
  rw [scancodes, List.filterMap_append]
  exact List.append_nil _

/-- The queue has room whenever a scancode comes. -/
def Roomy (events : List Event) : Prop :=
  ∀ front code, front ++ [.scancode code] <+: events →
    (run front).driver.keyboard.queued + 1 < queueSize

theorem queued_dropOldest {kb : Keyboard} (hsome : 0 < kb.queued) :
    kb.dropOldest.queued + 1 = kb.queued := by
  have hlength := congrArg List.length (waiting_tail hsome)
  simpa [waiting] using hlength.symm

/-- The accesses up to the end of read_char, seven for each character. -/
def left (s : System) : Nat :=
  7 * s.driver.keyboard.queued +
    match s.reader with
    | .outside => 5
    | .sawHead head => if head = s.driver.keyboard.queueTail then 6 else 4
    | .sawSome => 3
    | .sawTail _ => 2
    | .gotChar _ => 1
    | .gotTail _ _ => 0

theorem Sound.left_access (hsound : s.Sound) (hsome : 0 < s.driver.keyboard.queued) :
    s.access.left < s.left := by
  obtain ⟨driver, reader, delivered⟩ := s
  replace hsound : reader.Agrees driver.keyboard := hsound
  replace hsome : 0 < driver.keyboard.queued := hsome
  cases reader with
  | outside =>
      have hne : driver.keyboard.queueHead ≠ driver.keyboard.queueTail :=
        bne_iff_ne.1 ((available_iff driver.keyboard).2 hsome)
      apply Nat.add_lt_add_left
      change (if driver.keyboard.queueHead = driver.keyboard.queueTail
        then 6 else 4) < 5
      rw [if_neg hne]
      decide
  | sawHead head =>
      by_cases hempty : head = driver.keyboard.queueTail
      · simp only [left, System.access, if_pos hempty]
        omega
      · simp only [left, System.access, if_neg hempty]
        omega
  | gotTail character tail =>
      obtain ⟨_, rfl, _⟩ := hsound
      have hdrop := queued_dropOldest hsome
      change 7 * driver.keyboard.dropOldest.queued + 5 <
        7 * driver.keyboard.queued + 0
      omega
  | _ => exact Nat.lt_succ_self _

theorem Sound.drains (hsound : s.Sound) :
    ∃ n, (System.access^[n] s).delivered = s.contents := by
  induction hleft : s.left using Nat.strong_induction_on generalizing s with
  | h count ih =>
      rcases Nat.eq_zero_or_pos s.driver.keyboard.queued with hnone | hsome
      · refine ⟨0, ?_⟩
        rw [contents, waiting, hnone]
        exact (List.append_nil _).symm
      · obtain ⟨hsound', hsame, _⟩ := hsound.access
        obtain ⟨n, hdone⟩ := ih _ (hleft ▸ hsound.left_access hsome) hsound' rfl
        exact ⟨n + 1, hdone.trans hsame⟩

theorem run_accesses (events : List Event) (n : Nat) :
    run (events ++ List.replicate n .access) = access^[n] (run events) := by
  induction n with
  | zero => rw [List.replicate_zero, List.append_nil]; rfl
  | succ n ih =>
      rw [List.replicate_succ', ← List.append_assoc, run_snoc, ih,
        Function.iterate_succ_apply']
      rfl

/-- The keys that are typed reach the reader, whenever the interrupts come: in
order, each at most once, all of them if the queue always has room, and
whatever was taken is read in the end. -/
theorem typed_keys_arrive (events : List Event) :
    (run events).contents.Sublist (typedFrom Driver.boot (scancodes events)) ∧
      (Roomy events →
        (run events).contents = typedFrom Driver.boot (scancodes events)) ∧
      ∃ n, (run (events ++ List.replicate n .access)).delivered =
        (run events).contents := by
  refine ⟨?_, ?_, ?_⟩
  · induction events using List.reverseRecOn with
    | nil => exact List.nil_sublist _
    | append_singleton events event ih =>
        rw [contents_snoc]
        cases event with
        | scancode code =>
            rw [typed_snoc, taken]
            refine ih.append ?_
            split
            · exact List.Sublist.refl _
            · exact List.nil_sublist _
        | access =>
            rw [typed_access, taken, List.append_nil]
            exact ih
  · intro hroomy
    induction events using List.reverseRecOn with
    | nil => rfl
    | append_singleton events event ih =>
        have hroomy' : Roomy events := fun front code hfront =>
          hroomy front code (hfront.trans (List.prefix_append _ _))
        rw [contents_snoc, ih hroomy']
        cases event with
        | scancode code =>
            rw [typed_snoc, taken, if_pos (hroomy events code (List.prefix_refl _))]
        | access => rw [typed_access, taken, List.append_nil]
  · obtain ⟨n, hdone⟩ := (sound_run events).1.drains
    exact ⟨n, by rw [run_accesses, hdone]⟩

end System

section Interrupted

/-- enqueue as the main loop runs it through poll: interrupts put characters in
after the first read of queue_head, after the read of queue_tail, after the
second read of queue_head, and after the write to the queue. -/
def enqueueInterrupted (kb : Keyboard) (character : UInt8)
    (first second third fourth : List UInt8) : Keyboard :=
  let nextHead := kb.queueHead + 1
  let kb₁ := first.foldl enqueue kb
  if nextHead ≠ kb₁.queueTail then
    let kb₂ := second.foldl enqueue kb₁
    let kb₃ := third.foldl enqueue kb₂
    let kb₄ := fourth.foldl enqueue
      { kb₃ with queue := Function.update kb₃.queue kb₂.queueHead character }
    { kb₄ with queueHead := nextHead }
  else fourth.foldl enqueue (third.foldl enqueue (second.foldl enqueue kb₁))

example (kb : Keyboard) (character : UInt8) :
    enqueueInterrupted kb character [] [] [] [] = kb.enqueue character := rfl

/-- From `kb` on, only characters of `arrived` were written, and only behind
those that waited. -/
structure Overrun (arrived : List UInt8) (kb kb' : Keyboard) : Prop where
  tail : kb'.queueTail = kb.queueTail
  count : kb.queued ≤ kb'.queued
  kept : ∀ i < kb.queued, kb'.queue (kb.slotAfter i) = kb.queue (kb.slotAfter i)
  next : kb.queued < kb'.queued → kb'.queue kb.queueHead ∈ arrived

variable {arrived : List UInt8} {kb kb' : Keyboard}

theorem slotAfter_congr (htail : kb'.queueTail = kb.queueTail) (i : Nat) :
    kb'.slotAfter i = kb.slotAfter i := by
  simp only [slotAfter, htail]

theorem waiting_congr (hhead : kb'.queueHead = kb.queueHead)
    (htail : kb'.queueTail = kb.queueTail)
    (hsame : ∀ i < kb.queued, kb'.queue (kb.slotAfter i) = kb.queue (kb.slotAfter i)) :
    kb'.waiting = kb.waiting := by
  have hcount : kb'.queued = kb.queued := by rw [queued, queued, hhead, htail]
  rw [waiting, waiting, hcount]
  refine List.map_congr_left fun i hi => ?_
  rw [slotAfter_congr htail, hsame i (List.mem_range.1 hi)]

theorem Overrun.refl (arrived : List UInt8) (kb : Keyboard) :
    Overrun arrived kb kb :=
  ⟨rfl, le_rfl, fun _ _ => rfl, fun h => absurd h (lt_irrefl _)⟩

/-- A slot that was waiting is not the head, however far the head has moved. -/
theorem Overrun.slot_ne (hover : Overrun arrived kb kb') {i : Nat}
    (hi : i < kb.queued) : kb.slotAfter i ≠ kb'.queueHead := by
  rw [← slotAfter_congr hover.tail]
  exact slotAfter_ne_head (lt_of_lt_of_le hi hover.count)

/-- The head is where it was until the queue has grown. -/
theorem Overrun.head_or_next (hover : Overrun arrived kb kb') :
    kb'.queueHead = kb.queueHead ∨ kb'.queue kb.queueHead ∈ arrived := by
  rcases Nat.eq_or_lt_of_le hover.count with hcount | hgrown
  · left
    rw [head_eq_slotAfter, slotAfter_congr hover.tail, ← hcount, ← head_eq_slotAfter]
  · exact Or.inr (hover.next hgrown)

theorem Overrun.enqueue (hover : Overrun arrived kb kb') {character : UInt8}
    (harrived : character ∈ arrived) : Overrun arrived kb (kb'.enqueue character) := by
  rcases Nat.lt_or_ge (kb'.queued + 1) queueSize with hroom | hfull
  · refine ⟨(queueTail_enqueue character).trans hover.tail, ?_, fun i hi => ?_,
      fun _ => ?_⟩
    · rw [queued_enqueue hroom]
      exact Nat.le_succ_of_le hover.count
    · rw [enqueue_of_room hroom]
      exact (Function.update_of_ne (hover.slot_ne hi) _ _).trans (hover.kept i hi)
    · rw [enqueue_of_room hroom]
      dsimp only
      by_cases hsame : kb.queueHead = kb'.queueHead
      · rw [hsame, Function.update_self]
        exact harrived
      · rw [Function.update_of_ne hsame]
        exact hover.head_or_next.resolve_left (Ne.symm hsame)
  · rw [enqueue_of_full hfull]
    exact hover

theorem Overrun.foldl (hover : Overrun arrived kb kb') (characters : List UInt8)
    (harrived : ∀ character ∈ characters, character ∈ arrived) :
    Overrun arrived kb (characters.foldl Keyboard.enqueue kb') ∧
      kb'.queued ≤ (characters.foldl Keyboard.enqueue kb').queued := by
  induction characters generalizing kb' with
  | nil => exact ⟨hover, le_rfl⟩
  | cons character rest ih =>
      obtain ⟨hlast, hgrown⟩ := ih
        (hover.enqueue (harrived character List.mem_cons_self))
        fun other hmem => harrived other (List.mem_cons_of_mem _ hmem)
      refine ⟨hlast, le_trans ?_ hgrown⟩
      rcases Nat.lt_or_ge (kb'.queued + 1) queueSize with hroom | hfull
      · rw [queued_enqueue hroom]
        exact Nat.le_succ _
      · rw [enqueue_of_full hfull]

/-- The slot behind those that waited holds a character of `arrived`. -/
theorem mem_foldl_enqueue {slot : Fin queueSize} (hslot : kb.queue slot ∈ arrived)
    (characters : List UInt8)
    (harrived : ∀ character ∈ characters, character ∈ arrived) :
    (characters.foldl Keyboard.enqueue kb).queue slot ∈ arrived := by
  induction characters generalizing kb with
  | nil => exact hslot
  | cons character rest ih =>
      apply ih
      on_goal 2 => exact fun other hmem => harrived other (List.mem_cons_of_mem _ hmem)
      rw [enqueue]
      split
      · dsimp only
        by_cases hsame : slot = kb.queueHead
        · rw [hsame, Function.update_self]
          exact harrived character List.mem_cons_self
        · rw [Function.update_of_ne hsame]
          exact hslot
      · exact hslot

/-- poll is called by the main loop too.  When interrupts come while its
character is put in, exactly one of all the characters is kept. -/
theorem interrupted_enqueue_keeps_one (hroom : kb.queued + 1 < queueSize)
    (character : UInt8) (first second third fourth : List UInt8) :
    ∃ kept ∈ character :: (first ++ second ++ third ++ fourth),
      (enqueueInterrupted kb character first second third fourth).waiting =
        kb.waiting ++ [kept] := by
  generalize hall : character :: (first ++ second ++ third ++ fourth) = arrived
  have hmem : ∀ other, other = character ∨ other ∈ first ∨ other ∈ second ∨
      other ∈ third ∨ other ∈ fourth → other ∈ arrived := by
    rw [← hall]
    simp only [List.mem_cons, List.mem_append]
    tauto
  obtain ⟨h₁, _⟩ := (Overrun.refl arrived kb).foldl first
    fun other h => hmem other (by tauto)
  obtain ⟨h₂, _⟩ := h₁.foldl second fun other h => hmem other (by tauto)
  obtain ⟨h₃, hgrown⟩ := h₂.foldl third fun other h => hmem other (by tauto)
  have hopen : kb.queueHead + 1 ≠ (first.foldl enqueue kb).queueTail := by
    rw [h₁.tail]
    intro hfull
    have hcount := full_iff.1 hfull
    omega
  rw [enqueueInterrupted]
  dsimp only
  rw [if_pos hopen]
  generalize second.foldl enqueue (first.foldl enqueue kb) = kb₂ at h₂ h₃ hgrown ⊢
  generalize third.foldl enqueue kb₂ = kb₃ at h₃ hgrown ⊢
  have hkept : ∀ i < kb.queued,
      Function.update kb₃.queue kb₂.queueHead character (kb.slotAfter i) =
        kb.queue (kb.slotAfter i) := fun i hi =>
    (Function.update_of_ne (h₂.slot_ne hi) _ _).trans (h₃.kept i hi)
  have hwritten : Function.update kb₃.queue kb₂.queueHead character kb.queueHead ∈
      arrived := by
    by_cases hsame : kb.queueHead = kb₂.queueHead
    · rw [hsame, Function.update_self]
      exact hmem character (Or.inl rfl)
    · rw [Function.update_of_ne hsame]
      apply h₃.next
      refine lt_of_lt_of_le (lt_of_le_of_ne h₂.count fun hcount => hsame ?_) hgrown
      rw [head_eq_slotAfter, hcount, ← slotAfter_congr h₂.tail, ← head_eq_slotAfter]
  generalize Function.update kb₃.queue kb₂.queueHead character = queue
    at hkept hwritten ⊢
  have h₄ : Overrun arrived kb { kb₃ with queue := queue } :=
    ⟨h₃.tail, h₃.count, hkept, fun _ => hwritten⟩
  replace hwritten : ({ kb₃ with queue := queue } : Keyboard).queue kb.queueHead ∈
      arrived := hwritten
  generalize ({ kb₃ with queue := queue } : Keyboard) = kb₄ at h₄ hwritten ⊢
  have hfourth : ∀ other ∈ fourth, other ∈ arrived := fun other h =>
    hmem other (by tauto)
  have hlast := mem_foldl_enqueue hwritten fourth hfourth
  obtain ⟨h₅, _⟩ := h₄.foldl fourth hfourth
  generalize fourth.foldl enqueue kb₄ = kb₅ at h₅ hlast ⊢
  refine ⟨kb₅.queue kb.queueHead, hlast, ?_⟩
  rw [← waiting_enqueue hroom]
  refine waiting_congr ?_ ?_ ?_
  · rw [enqueue_of_room hroom]
  · rw [enqueue_of_room hroom]
    exact h₅.tail
  · intro i hi
    rw [queued_enqueue hroom] at hi
    rw [slotAfter_congr (queueTail_enqueue _), enqueue_of_room hroom]
    dsimp only
    rcases Nat.lt_succ_iff_lt_or_eq.1 hi with hlt | rfl
    · rw [Function.update_of_ne (slotAfter_ne_head hlt), h₅.kept i hlt]
    · rw [← head_eq_slotAfter, Function.update_self]

theorem interrupted_enqueue_from_boot :
    Driver.boot.keyboard.queued + 1 < queueSize ∧
      ∃ kept ∈ [97, 98, 99],
        (enqueueInterrupted Driver.boot.keyboard 97 [98] [] [] [99]).waiting =
          Driver.boot.keyboard.waiting ++ [kept] :=
  ⟨by decide, interrupted_enqueue_keeps_one (by decide) 97 [98] [] [] [99]⟩

end Interrupted

end Keyboard

end VenomOS
