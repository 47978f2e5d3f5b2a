/-
kernel/keyboard.cpp: the queue of characters and the decoding of scancodes.
The ports of the controller are not part of the model; a scancode is what
poll() has read from the data port.
-/
import VenomOS.ByteMemory

namespace VenomOS

abbrev queueSize : Nat := 64

instance : NeZero queueSize := ⟨by decide⟩

structure Keyboard where
  queue : Fin queueSize → UInt8
  queueHead : Fin queueSize
  queueTail : Fin queueSize

namespace Keyboard

open ByteMemory (charCode forall_byte)

section Queue

variable (kb : Keyboard)

def available : Bool := kb.queueHead != kb.queueTail

def enqueue (character : UInt8) : Keyboard :=
  let nextHead := kb.queueHead + 1
  if nextHead ≠ kb.queueTail then
    { kb with
      queue := Function.update kb.queue kb.queueHead character
      queueHead := nextHead }
  else kb

def readChar : UInt8 × Keyboard :=
  if !kb.available then (0, kb)
  else (kb.queue kb.queueTail, { kb with queueTail := kb.queueTail + 1 })

/-- How many characters wait in the queue. -/
def queued : Nat := (kb.queueHead - kb.queueTail).val

theorem available_iff : kb.available = true ↔ 0 < kb.queued := by
  rw [Keyboard.available, Keyboard.queued, bne_iff_ne, Nat.pos_iff_ne_zero]
  refine not_congr ?_
  rw [← Fin.val_zero queueSize, ← Fin.ext_iff, sub_eq_zero]

theorem queued_readChar (havailable : kb.available) :
    kb.readChar.2.queued + 1 = kb.queued := by
  have hne : kb.queueHead.val ≠ kb.queueTail.val := by
    rw [Keyboard.available, bne_iff_ne] at havailable
    exact fun heq => havailable (Fin.ext heq)
  have hhead := kb.queueHead.isLt
  have htail := kb.queueTail.isLt
  simp only [Keyboard.readChar, havailable, Bool.not_true, Bool.false_eq_true,
    if_false, Keyboard.queued, Fin.sub_def, Fin.add_def, Fin.val_one,
    queueSize] at *
  omega

end Queue

/-- The rest of the 128 entries is zero. -/
def keymap : List UInt8 := List.map charCode
  ['\x00', '\x1b', '1', '2', '3', '4', '5', '6', '7', '8', '9', '0', '-', '=',
    '\x08', '\t',
    'q', 'w', 'e', 'r', 't', 'y', 'u', 'i', 'o', 'p', '[', ']', '\n', '\x00',
    'a', 's', 'd', 'f', 'g', 'h', 'j', 'k', 'l', ';', Char.ofNat 39,
    Char.ofNat 96, '\x00', '\\',
    'z', 'x', 'c', 'v', 'b', 'n', 'm', ',', '.', '/', '\x00', '*', '\x00', ' ']

def shiftedKeymap : List UInt8 := List.map charCode
  ['\x00', '\x1b', '!', '@', '#', '$', '%', '^', '&', '*', '(', ')', '_', '+',
    '\x08', '\t',
    'Q', 'W', 'E', 'R', 'T', 'Y', 'U', 'I', 'O', 'P', '{', '}', '\n', '\x00',
    'A', 'S', 'D', 'F', 'G', 'H', 'J', 'K', 'L', ':', Char.ofNat 34,
    '~', '\x00', '|',
    'Z', 'X', 'C', 'V', 'B', 'N', 'M', '<', '>', '?', '\x00', '*', '\x00', ' ']

def leftShift : UInt8 := 0x2A

def rightShift : UInt8 := 0x36

def capsLockKey : UInt8 := 0x3A

def extendedPrefix : UInt8 := 0xE0

def scancodeUp : UInt8 := 0x48

def scancodeDown : UInt8 := 0x50

def scancodeLeft : UInt8 := 0x4B

def scancodeRight : UInt8 := 0x4D

def keyUp : UInt8 := 0x11

def keyDown : UInt8 := 0x12

def keyLeft : UInt8 := 0x13

def keyRight : UInt8 := 0x14

/-- The queue and the flags of the driver. -/
structure Driver where
  keyboard : Keyboard
  shiftDown : Bool
  capsLock : Bool
  extendedSequence : Bool

/-- The static initialisers. -/
def Driver.boot : Driver := ⟨⟨fun _ => 0, 0, 0⟩, false, false, false⟩

def isLower (character : UInt8) : Bool :=
  charCode 'a' ≤ character && character ≤ charCode 'z'

def isUpper (character : UInt8) : Bool :=
  charCode 'A' ≤ character && character ≤ charCode 'Z'

def translate (d : Driver) (scancode : UInt8) : UInt8 :=
  if scancode ≥ 128 then 0
  else
    let character := keymap.getD scancode.toNat 0
    let alphabetic := isLower character
    if alphabetic && (d.shiftDown != d.capsLock) || !alphabetic && d.shiftDown
    then shiftedKeymap.getD scancode.toNat 0
    else character

def released (scancode : UInt8) : Bool := scancode &&& 0x80 != 0

def keyOf (scancode : UInt8) : UInt8 := scancode &&& 0x7F

def isShift (key : UInt8) : Bool := key == leftShift || key == rightShift

def enqueueArrow (kb : Keyboard) (key : UInt8) : Keyboard :=
  if key = scancodeUp then kb.enqueue keyUp
  else if key = scancodeDown then kb.enqueue keyDown
  else if key = scancodeLeft then kb.enqueue keyLeft
  else if key = scancodeRight then kb.enqueue keyRight
  else kb

def processScancode (d : Driver) (scancode : UInt8) : Driver :=
  if scancode = extendedPrefix then { d with extendedSequence := true }
  else
    let key := keyOf scancode
    if d.extendedSequence && !released scancode then
      { d with
        keyboard := enqueueArrow d.keyboard key
        extendedSequence := false }
    else if isShift key then
      { d with shiftDown := !released scancode, extendedSequence := false }
    else if key = capsLockKey ∧ released scancode = false then
      { d with capsLock := !d.capsLock, extendedSequence := false }
    else if !released scancode && !d.extendedSequence then
      let character := translate d key
      { d with
        keyboard :=
          if character ≠ 0 then d.keyboard.enqueue character else d.keyboard
        extendedSequence := false }
    else { d with extendedSequence := false }

/-- Scancodes arrive and characters are read in any order. -/
inductive Operation where
  | scancode (code : UInt8)
  | readChar
deriving Repr, DecidableEq

def step (d : Driver) : Operation → Driver
  | .scancode code => processScancode d code
  | .readChar => { d with keyboard := d.keyboard.readChar.2 }

def run (operations : List Operation) : Driver :=
  operations.foldl step Driver.boot

def codes (operations : List Operation) : List UInt8 :=
  operations.filterMap fun operation =>
    match operation with
    | .scancode code => some code
    | .readChar => none

/-- Each code, and whether the code before it was the extended code. -/
def marked : Bool → List UInt8 → List (Bool × UInt8)
  | _, [] => []
  | extended, code :: rest =>
      (extended, code) :: marked (code == extendedPrefix) rest

/-- The last code was the extended code. -/
def endsExtended (stream : List UInt8) : Bool :=
  stream.getLast? == some extendedPrefix

/-- The latest of the chosen codes is a make code. -/
def latestDown (choose : Bool × UInt8 → Bool) (stream : List UInt8) : Bool :=
  (((marked false stream).filter choose).getLast?.map
    fun entry => !released entry.2).getD false

/-- The latest code of the key that no extended code precedes is a make
code. -/
def held (key : UInt8) (stream : List UInt8) : Bool :=
  latestDown (fun entry => !entry.1 && keyOf entry.2 == key) stream

def shiftHeld (stream : List UInt8) : Bool :=
  held leftShift stream || held rightShift stream

/-- An odd number of make codes of the caps lock key. -/
def capsOn (stream : List UInt8) : Bool :=
  (marked false stream).count (false, capsLockKey) % 2 == 1

/-- A code of either shift key that the driver acts on: a release counts also
behind an extended code. -/
def isShiftCode (entry : Bool × UInt8) : Bool :=
  isShift (keyOf entry.2) && (!entry.1 || released entry.2)

/-- The latest shift code is a make code. -/
def shiftLatest (stream : List UInt8) : Bool := latestDown isShiftCode stream

theorem marked_concat (extended : Bool) (stream : List UInt8) (code : UInt8) :
    marked extended (stream ++ [code]) = marked extended stream ++
      [((stream.getLast?.map (· == extendedPrefix)).getD extended, code)] := by
  induction stream generalizing extended with
  | nil => rfl
  | cons head tail ih =>
      rw [List.cons_append, marked, ih, marked]
      cases tail with
      | nil => rfl
      | cons next rest => simp [List.getLast?_cons]

theorem marked_snoc (stream : List UInt8) (code : UInt8) :
    marked false (stream ++ [code]) =
      marked false stream ++ [(endsExtended stream, code)] := by
  rw [marked_concat, endsExtended]
  cases stream.getLast? <;> rfl

theorem latestDown_snoc (choose : Bool × UInt8 → Bool) (stream : List UInt8)
    (code : UInt8) :
    latestDown choose (stream ++ [code]) =
      if choose (endsExtended stream, code) then !released code
      else latestDown choose stream := by
  rw [latestDown, marked_snoc, List.filter_append, List.filter_singleton]
  cases choose (endsExtended stream, code) with
  | true => simp
  | false =>
      rw [cond_false, List.append_nil]
      rfl

theorem shiftLatest_snoc (stream : List UInt8) (code : UInt8) :
    shiftLatest (stream ++ [code]) =
      if isShiftCode (endsExtended stream, code) then !released code
      else shiftLatest stream :=
  latestDown_snoc isShiftCode stream code

theorem endsExtended_snoc (stream : List UInt8) (code : UInt8) :
    endsExtended (stream ++ [code]) = (code == extendedPrefix) := by
  simp [endsExtended]

theorem capsOn_snoc (stream : List UInt8) (code : UInt8) :
    capsOn (stream ++ [code]) =
      if (endsExtended stream, code) = (false, capsLockKey) then
        !capsOn stream
      else capsOn stream := by
  rw [capsOn, capsOn, marked_snoc, List.count_append, List.count_singleton]
  by_cases hcode : (endsExtended stream, code) = (false, capsLockKey)
  · have hparity := Nat.mod_two_eq_zero_or_one
      ((marked false stream).count (false, capsLockKey))
    rcases hparity with hparity | hparity <;> simp [hcode, hparity, Nat.add_mod]
  · rw [if_neg (by simpa using hcode), if_neg hcode, Nat.add_zero]

def modifiers (d : Driver) : Bool × Bool := (d.shiftDown, d.capsLock)

theorem keyOf_of_pressed {code : UInt8} (hpressed : released code = false) :
    keyOf code = code := by
  refine @forall_byte (fun code => released code = false → keyOf code = code)
    ?_ code hpressed
  decide +kernel

/-- What a scancode does to the flags. -/
theorem processScancode_flags (d : Driver) (code : UInt8) :
    (processScancode d code).extendedSequence = (code == extendedPrefix) ∧
    (processScancode d code).shiftDown =
      (if isShiftCode (d.extendedSequence, code) then !released code
        else d.shiftDown) ∧
    (processScancode d code).capsLock =
      (if (d.extendedSequence, code) = (false, capsLockKey) then !d.capsLock
        else d.capsLock) := by
  unfold processScancode
  by_cases hcode : code = extendedPrefix
  · subst hcode
    have hnone : isShiftCode (d.extendedSequence, extendedPrefix) = false := by
      cases d.extendedSequence <;> decide
    have hcaps : (d.extendedSequence, extendedPrefix) ≠ (false, capsLockKey) :=
      fun heq => absurd (Prod.mk.inj heq).2 (by decide)
    rw [if_pos rfl, hnone, if_neg hcaps]
    exact ⟨rfl, rfl, rfl⟩
  rw [if_neg hcode, beq_false_of_ne hcode]
  dsimp only
  cases hreleased : released code with
  | true =>
      have hcaps : (d.extendedSequence, code) ≠ (false, capsLockKey) := by
        rintro heq
        rw [(Prod.mk.inj heq).2] at hreleased
        exact absurd hreleased (by decide)
      rw [if_neg hcaps]
      cases hshift : isShift (keyOf code) <;>
        simp [isShiftCode, hshift, hreleased]
  | false =>
      have hkey := keyOf_of_pressed hreleased
      rw [hkey]
      cases hext : d.extendedSequence with
      | true => simp [isShiftCode, hreleased]
      | false =>
          cases hshift : isShift code with
          | true =>
              have hcaps : code ≠ capsLockKey := by
                rintro rfl
                exact absurd hshift (by decide)
              simp [isShiftCode, hkey, hshift, hcaps]
          | false =>
              have hnone : isShiftCode (false, code) = false := by
                rw [isShiftCode, hkey, hshift, Bool.false_and]
              rw [hnone]
              by_cases hcaps : code = capsLockKey <;>
                simp [hcaps]

/-- The flags after a run, read off the stream. -/
theorem run_flags (operations : List Operation) :
    (run operations).extendedSequence = endsExtended (codes operations) ∧
    (run operations).shiftDown = shiftLatest (codes operations) ∧
    (run operations).capsLock = capsOn (codes operations) := by
  induction operations using List.reverseRecOn with
  | nil => exact ⟨rfl, rfl, rfl⟩
  | append_singleton front operation ih =>
      obtain ⟨hextended, hshift, hcaps⟩ := ih
      rw [run, List.foldl_append, List.foldl_cons, List.foldl_nil, ← run]
      cases operation with
      | scancode code =>
          obtain ⟨hextended', hshift', hcaps'⟩ :=
            processScancode_flags (run front) code
          have hcodes : codes (front ++ [.scancode code]) =
              codes front ++ [code] := List.filterMap_append
          rw [step, hcodes, hextended', hshift', hcaps', hextended, hshift,
            hcaps, endsExtended_snoc, shiftLatest_snoc, capsOn_snoc]
          exact ⟨rfl, rfl, rfl⟩
      | readChar =>
          have hcodes : codes (front ++ [.readChar]) = codes front := by
            simp [codes]
          rw [step, hcodes]
          exact ⟨hextended, hshift, hcaps⟩

/-- The make code of a letter key. -/
def isLetter (code : UInt8) : Bool := isLower (keymap.getD code.toNat 0)

theorem letter_facts : ∀ n < 256, isLetter (UInt8.ofNat n) = true →
    UInt8.ofNat n < 128 ∧ released (UInt8.ofNat n) = false ∧
    UInt8.ofNat n ≠ extendedPrefix ∧ UInt8.ofNat n ≠ capsLockKey ∧
    isShift (UInt8.ofNat n) = false ∧
    isUpper (keymap.getD n 0) = false ∧
    isUpper (shiftedKeymap.getD n 0) = true ∧
    keymap.getD n 0 ≠ 0 ∧ shiftedKeymap.getD n 0 ≠ 0 := by
  decide +kernel

theorem translate_letter (d : Driver) {code : UInt8}
    (hletter : isLetter code = true) :
    isUpper (translate d code) = (d.shiftDown != d.capsLock) ∧
      translate d code ≠ 0 := by
  have hfacts := letter_facts code.toNat code.toNat_lt
  rw [UInt8.ofNat_toNat] at hfacts
  obtain ⟨hlt, _, _, _, _, hlower, hupper, hne, hne'⟩ := hfacts hletter
  have halphabetic : isLower (keymap.getD code.toNat 0) = true := hletter
  rw [translate, if_neg (UInt8.not_le.mpr hlt)]
  dsimp only
  rw [halphabetic]
  cases d.shiftDown <;> cases d.capsLock <;>
    first | exact ⟨hupper, hne'⟩ | exact ⟨hlower, hne⟩

/-- The make code of a letter key enqueues what it translates to. -/
theorem processScancode_letter {d : Driver} {code : UInt8}
    (hletter : isLetter code = true) (hplain : d.extendedSequence = false) :
    processScancode d code =
      { d with keyboard := d.keyboard.enqueue (translate d code) } := by
  have hfacts := letter_facts code.toNat code.toNat_lt
  rw [UInt8.ofNat_toNat] at hfacts
  obtain ⟨_, hpressed, hcode, hcaps, hshift, _⟩ := hfacts hletter
  simp [processScancode, hcode, keyOf_of_pressed hpressed, hplain, hshift,
    hcaps, hpressed, (translate_letter d hletter).2]

/-- The driver treats a code as the stream before it demands: a letter gets
the case that the shift keys and caps lock ask for, and a code behind an
extended code changes neither. -/
structure Tracks (front : List Operation) (code : UInt8) : Prop where
  letter : isLetter code = true → endsExtended (codes front) = false →
    processScancode (run front) code =
      { run front with
        keyboard :=
          (run front).keyboard.enqueue (translate (run front) code) } ∧
    (isUpper (translate (run front) code) = true ↔
      shiftHeld (codes front) ≠ capsOn (codes front))
  extended : endsExtended (codes front) = true →
    modifiers (processScancode (run front) code) = modifiers (run front)

/-- A letter comes when the latest shift code tells whether a shift key is
held, and no shift key is released behind an extended code while the latest
shift code is a make code. -/
structure Unambiguous (stream : List UInt8) (code : UInt8) : Prop where
  letter : isLetter code = true → endsExtended stream = false →
    shiftLatest stream = shiftHeld stream
  extended : endsExtended stream = true → isShift (keyOf code) = true →
    released code = true → shiftLatest stream = false

theorem tracks_iff (front : List Operation) (code : UInt8) :
    Tracks front code ↔ Unambiguous (codes front) code := by
  obtain ⟨hextended, hshift, hcaps⟩ := run_flags front
  obtain ⟨_, hshift', hcaps'⟩ := processScancode_flags (run front) code
  rw [hextended, hshift] at hshift'
  rw [hextended, hcaps] at hcaps'
  have hcase : isLetter code = true → isUpper (translate (run front) code) =
      (shiftLatest (codes front) != capsOn (codes front)) := fun hletter => by
    rw [(translate_letter (run front) hletter).1, hshift, hcaps]
  refine ⟨fun htracks => ⟨fun hletter hplain => ?_,
    fun hbehind hkey hreleased => ?_⟩,
    fun hclear => ⟨fun hletter hplain => ?_, fun hbehind => ?_⟩⟩
  · have hupper := (htracks.letter hletter hplain).2
    rw [hcase hletter] at hupper
    revert hupper
    cases shiftLatest (codes front) <;> cases shiftHeld (codes front) <;>
      cases capsOn (codes front) <;> simp
  · have hsame := (Prod.mk.inj (htracks.extended hbehind)).1
    rw [hshift', hshift, hbehind, hreleased,
      if_pos (by simp [isShiftCode, hkey, hreleased])] at hsame
    exact hsame.symm
  · refine ⟨processScancode_letter hletter (hextended.trans hplain), ?_⟩
    rw [hcase hletter, hclear.letter hletter hplain, bne_iff_ne]
  · rw [hbehind] at hshift' hcaps'
    rw [modifiers, modifiers, hshift', hcaps', hshift, hcaps,
      if_neg (by simp : (true, code) ≠ (false, capsLockKey))]
    split
    · rename_i hcode
      rw [isShiftCode, Bool.and_eq_true] at hcode
      have hreleased : released code = true := by simpa using hcode.2
      rw [hreleased, hclear.extended hbehind hcode.1 hreleased]
      rfl
    · rfl

/-- The driver keeps track of the modifiers on exactly the unambiguous
streams. -/
theorem tracks_modifiers_iff (operations : List Operation) :
    (∀ front code rest, operations = front ++ .scancode code :: rest →
      Tracks front code) ↔
    ∀ front code rest, operations = front ++ .scancode code :: rest →
      Unambiguous (codes front) code := by
  simp only [tracks_iff]

/-- Both shift keys are pressed and one is released: the letter comes out in
lower case.  A fake release of the left key ends a shift that is held. -/
theorem loses_held_shift :
    (shiftHeld [0x2A, 0x36, 0xB6] = true ∧ capsOn [0x2A, 0x36, 0xB6] = false ∧
      (run [.scancode 0x2A, .scancode 0x36, .scancode 0xB6,
        .scancode 0x1E]).keyboard.queue 0 = charCode 'a') ∧
    modifiers (run [.scancode 0x2A, .scancode 0xE0]) = (true, false) ∧
    modifiers (run [.scancode 0x2A, .scancode 0xE0, .scancode 0xAA]) =
      (false, false) := by
  decide

end Keyboard

end VenomOS
