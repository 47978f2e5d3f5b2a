/-
The terminal of kernel/vga.cpp.  Besides the buffer of the screen there is a
record of the cells that have been written.
-/
import Mathlib

namespace VenomOS

namespace Vga

def vgaWidth : Nat := 80

def vgaHeight : Nat := 25

inductive Color where
  | black
  | blue
  | green
  | cyan
  | red
  | magenta
  | brown
  | lightGrey
  | darkGrey
  | lightBlue
  | lightGreen
  | lightCyan
  | lightRed
  | lightMagenta
  | yellow
  | white
deriving Repr, DecidableEq

def Color.code : Color → UInt8
  | .black => 0
  | .blue => 1
  | .green => 2
  | .cyan => 3
  | .red => 4
  | .magenta => 5
  | .brown => 6
  | .lightGrey => 7
  | .darkGrey => 8
  | .lightBlue => 9
  | .lightGreen => 10
  | .lightCyan => 11
  | .lightRed => 12
  | .lightMagenta => 13
  | .yellow => 14
  | .white => 15

def makeColor (fg bg : Color) : UInt8 := fg.code ||| bg.code <<< 4

def makeEntry (c color : UInt8) : UInt16 := c.toUInt16 ||| color.toUInt16 <<< 8

abbrev backspace : UInt8 := 8

abbrev newline : UInt8 := 10

abbrev space : UInt8 := 32

/-- The last two fields are the cursor registers of the display and the cells
that have been written, the last one first. -/
structure Terminal where
  buffer : Nat → UInt16
  cursorRow : Nat
  cursorCol : Nat
  currentColor : UInt8
  cursorRegisters : UInt8 × UInt8
  written : List Nat

namespace Terminal

variable (t : Terminal)

def write (index : Nat) (entry : UInt16) : Terminal :=
  { t with
    buffer := Function.update t.buffer index entry
    written := index :: t.written }

/-- The high and the low byte of the position go to the display. -/
def updateHardwareCursor : Terminal :=
  let position := UInt16.ofNat (t.cursorRow * vgaWidth + t.cursorCol)
  { t with
    cursorRegisters :=
      (((position >>> 8) &&& 0xFF).toUInt8, (position &&& 0xFF).toUInt8) }

/-- A loop over the columns of a row. -/
def fillRow (row : Nat) (entry : Terminal → Nat → UInt16) : Terminal :=
  (List.range vgaWidth).foldl (fun t col =>
    t.write (row * vgaWidth + col) (entry t col)) t

def copyRow (row : Nat) : Terminal :=
  t.fillRow (row - 1) fun t col => t.buffer (row * vgaWidth + col)

def blankRow (row : Nat) : Terminal :=
  t.fillRow row fun t _ => makeEntry space t.currentColor

def scroll : Terminal :=
  let t := (List.range' 1 (vgaHeight - 1)).foldl copyRow t
  let t := t.blankRow (vgaHeight - 1)
  { t with cursorRow := vgaHeight - 1, cursorCol := 0 }

def init : Terminal :=
  { t with
    currentColor := makeColor .lightGrey .black
    cursorRow := 0
    cursorCol := 0 }.updateHardwareCursor

def clear (fg bg : Color) : Terminal :=
  let t := { t with currentColor := makeColor fg bg }
  let t := (List.range vgaHeight).foldl blankRow t
  { t with cursorRow := 0, cursorCol := 0 }.updateHardwareCursor

def setColor (fg bg : Color) : Terminal :=
  { t with currentColor := makeColor fg bg }

/-- The end of put_char. -/
def settle : Terminal :=
  (if t.cursorRow ≥ vgaHeight then t.scroll else t).updateHardwareCursor

/-- Write at the cursor. -/
def writeHere (c : UInt8) : Terminal :=
  t.write (t.cursorRow * vgaWidth + t.cursorCol) (makeEntry c t.currentColor)

def nextRow : Terminal :=
  { t with cursorCol := 0, cursorRow := t.cursorRow + 1 }

def putChar (c : UInt8) : Terminal :=
  if c = newline then t.nextRow.settle
  else if c = backspace then
    if t.cursorCol ≠ 0 then
      (writeHere { t with cursorCol := t.cursorCol - 1 } space).settle
    else if t.cursorRow ≠ 0 then
      (writeHere
        { t with cursorRow := t.cursorRow - 1, cursorCol := vgaWidth - 1 }
        space).settle
    else t.updateHardwareCursor
  else
    let t := t.writeHere c
    let t := { t with cursorCol := t.cursorCol + 1 }
    (if t.cursorCol ≥ vgaWidth then t.nextRow else t).settle

/-- The characters in front of the terminator. -/
def print (str : List UInt8) : Terminal := str.foldl putChar t

def putCharAt (row col : Nat) (c : UInt8) (fg bg : Color) : Terminal :=
  if row ≥ vgaHeight ∨ col ≥ vgaWidth then t
  else t.write (row * vgaWidth + col) (makeEntry c (makeColor fg bg))

end Terminal

/-- The rows of a text of which `row` is already there: a row ends at a newline
or right behind its 80th character. -/
def layoutFrom (row : List UInt8) : List UInt8 → List (List UInt8)
  | [] => [row]
  | c :: rest =>
      if c = newline then row :: layoutFrom [] rest
      else if row.length + 1 = vgaWidth then (row ++ [c]) :: layoutFrom [] rest
      else layoutFrom (row ++ [c]) rest

def layout (text : List UInt8) : List (List UInt8) := layoutFrom [] text

/-- The rows that fit on the screen. -/
def lastRows (rows : List (List UInt8)) : List (List UInt8) :=
  rows.drop (rows.length - vgaHeight)

/-- The screen holds these rows and is blank elsewhere. -/
def Holds (color : UInt8) (rows : List (List UInt8)) (t : Terminal) : Prop :=
  ∀ row < vgaHeight, ∀ col < vgaWidth,
    t.buffer (row * vgaWidth + col) =
      makeEntry ((rows.getD row []).getD col space) color

/-- The screen holds the last rows of a text, and the cursor is at its end. -/
structure Displays (color : UInt8) (rows : List (List UInt8)) (t : Terminal) :
    Prop where
  holds : Holds color (lastRows rows) t
  cursorRow : t.cursorRow + 1 = (lastRows rows).length
  cursorCol : some t.cursorCol = rows.getLast?.map List.length
  registers : t.cursorRegisters.1.toNat * 256 + t.cursorRegisters.2.toNat =
    t.cursorRow * vgaWidth + t.cursorCol

variable {t t' : Terminal} {row col i : Nat} {color : UInt8}
  {rows above : List (List UInt8)} {line : List UInt8}

/-- The cells from `start` up to `stop` have been filled, and nothing else has
changed. -/
structure Filled (t : Terminal) (start stop : Nat) (value : Nat → UInt16)
    (t' : Terminal) : Prop where
  buffer : ∀ i, t'.buffer i =
    if start ≤ i ∧ i < stop then value i else t.buffer i
  cursorRow : t'.cursorRow = t.cursorRow
  cursorCol : t'.cursorCol = t.cursorCol
  color : t'.currentColor = t.currentColor
  written : ∀ i ∈ t'.written, i ∈ t.written ∨ start ≤ i ∧ i < stop

variable {start middle stop n : Nat} {value : Nat → UInt16}

theorem Filled.empty (t : Terminal) (start : Nat) (value : Nat → UInt16) :
    Filled t start start value t where
  buffer i := by
    rw [if_neg (by omega)]
  cursorRow := rfl
  cursorCol := rfl
  color := rfl
  written _ hi := .inl hi

theorem Filled.trans {t'' : Terminal} (hfirst : Filled t start middle value t')
    (hsecond : Filled t' middle stop value t'') (hstart : start ≤ middle)
    (hstop : middle ≤ stop) : Filled t start stop value t'' where
  buffer i := by
    rw [hsecond.buffer, hfirst.buffer]
    by_cases hlow : i < middle
    · rw [if_neg (by omega)]
      exact if_congr (by omega) rfl rfl
    · by_cases hhigh : i < stop
      · rw [if_pos (by omega), if_pos (by omega)]
      · rw [if_neg (by omega), if_neg (by omega), if_neg (by omega)]
  cursorRow := hsecond.cursorRow.trans hfirst.cursorRow
  cursorCol := hsecond.cursorCol.trans hfirst.cursorCol
  color := hsecond.color.trans hfirst.color
  written i hi := by
    rcases hsecond.written i hi with hold | hnew
    · rcases hfirst.written i hold with hold | hnew
      · exact .inl hold
      · exact .inr (by omega)
    · exact .inr (by omega)

theorem filled_write (t : Terminal) (hvalue : value i = entry) :
    Filled t i (i + 1) value (t.write i entry) where
  buffer j := by
    by_cases hj : j = i
    · subst hj
      rw [if_pos (by omega), hvalue]
      exact Function.update_self ..
    · rw [if_neg (by omega)]
      exact Function.update_of_ne hj ..
  cursorRow := rfl
  cursorCol := rfl
  color := rfl
  written j hj := by
    rcases List.mem_cons.mp hj with rfl | hj
    · exact .inr (by omega)
    · exact .inl hj

/-- A loop that fills a row, as long as what it writes does not depend on the
cells it has written. -/
theorem filled_fillRow {entry : Terminal → Nat → UInt16}
    (hentry : ∀ col t', Filled t (row * vgaWidth) (row * vgaWidth + col) value
      t' → entry t' col = value (row * vgaWidth + col)) :
    Filled t (row * vgaWidth) ((row + 1) * vgaWidth) value
      (t.fillRow row entry) := by
  have hloop : ∀ n, Filled t (row * vgaWidth) (row * vgaWidth + n) value
      ((List.range n).foldl (fun t col =>
        t.write (row * vgaWidth + col) (entry t col)) t) := by
    intro n
    induction n with
    | zero => exact .empty t _ value
    | succ n ih =>
        rw [List.range_succ, List.foldl_append, ← Nat.add_assoc]
        exact ih.trans (filled_write _ (hentry n _ ih).symm) (by omega)
          (by omega)
  rw [Nat.succ_mul, Terminal.fillRow]
  exact hloop vgaWidth

theorem filled_blankRow (t : Terminal) (row : Nat) :
    Filled t (row * vgaWidth) ((row + 1) * vgaWidth)
      (fun _ => makeEntry space t.currentColor) (t.blankRow row) := by
  unfold Terminal.blankRow
  exact filled_fillRow fun _ _ hfilled => by rw [hfilled.color]

theorem filled_blankRows (t : Terminal) (n : Nat) :
    Filled t 0 (n * vgaWidth) (fun _ => makeEntry space t.currentColor)
      ((List.range n).foldl Terminal.blankRow t) := by
  induction n with
  | zero =>
      rw [Nat.zero_mul]
      exact .empty t 0 _
  | succ n ih =>
      rw [List.range_succ, List.foldl_append, List.foldl_cons, List.foldl_nil]
      generalize (List.range n).foldl Terminal.blankRow t = t' at ih ⊢
      have hrow := filled_blankRow t' n
      rw [ih.color] at hrow
      exact ih.trans hrow (Nat.zero_le _) (Nat.mul_le_mul_right _ n.le_succ)

/-- Every row takes over the next one. -/
theorem filled_copyRows (t : Terminal) (n : Nat) :
    Filled t 0 (n * vgaWidth) (fun i => t.buffer (i + vgaWidth))
      ((List.range' 1 n).foldl Terminal.copyRow t) := by
  induction n with
  | zero =>
      rw [Nat.zero_mul]
      exact .empty t 0 _
  | succ n ih =>
      rw [List.range'_1_concat, List.foldl_append]
      refine ih.trans ?_ (Nat.zero_le _) (Nat.mul_le_mul_right _ n.le_succ)
      have hrow : 1 + n - 1 = n := by omega
      simp only [List.foldl_cons, List.foldl_nil, Terminal.copyRow, hrow]
      refine filled_fillRow fun col t' hfilled => ?_
      have hbelow : (1 + n) * vgaWidth = n * vgaWidth + vgaWidth := by
        rw [Nat.add_comm, Nat.succ_mul]
      rw [hfilled.buffer, ih.buffer, hbelow, if_neg (by omega),
        if_neg (by omega)]
      congr 1
      omega

/-- The screen after scrolling, before the cursor is moved. -/
theorem filled_scroll (t : Terminal) : ∃ t',
    Filled t 0 (vgaHeight * vgaWidth) (fun i =>
      if i < (vgaHeight - 1) * vgaWidth then t.buffer (i + vgaWidth)
      else makeEntry space t.currentColor) t' ∧
    t.scroll = { t' with cursorRow := vgaHeight - 1, cursorCol := 0 } := by
  have hcopied := filled_copyRows t (vgaHeight - 1)
  unfold Terminal.scroll
  generalize (List.range' 1 (vgaHeight - 1)).foldl Terminal.copyRow t = t'
    at hcopied
  have hblank := filled_blankRow t' (vgaHeight - 1)
  refine ⟨t'.blankRow (vgaHeight - 1), ⟨fun i => ?_, ?_, ?_, ?_, ?_⟩, rfl⟩
  · have hrows : (vgaHeight - 1 + 1) * vgaWidth = vgaHeight * vgaWidth := rfl
    have hless : (vgaHeight - 1) * vgaWidth ≤ vgaHeight * vgaWidth := by decide
    rw [hblank.buffer, hcopied.buffer, hcopied.color, hrows]
    by_cases hlow : i < (vgaHeight - 1) * vgaWidth
    · rw [if_neg (by omega), if_pos (by omega), if_pos (by omega), if_pos hlow]
    · by_cases hhigh : i < vgaHeight * vgaWidth
      · rw [if_pos (by omega), if_pos (by omega), if_neg hlow]
      · rw [if_neg (by omega), if_neg (by omega), if_neg (by omega)]
  · exact hblank.cursorRow.trans hcopied.cursorRow
  · exact hblank.cursorCol.trans hcopied.cursorCol
  · exact hblank.color.trans hcopied.color
  · intro i hi
    simp only [vgaHeight, vgaWidth] at *
    rcases hblank.written i hi with hold | hnew
    · exact (hcopied.written i hold).imp_right fun hnew => by omega
    · exact .inr (by omega)

theorem cell_lt (hrow : row < vgaHeight) (hcol : col < vgaWidth) :
    row * vgaWidth + col < vgaHeight * vgaWidth := by
  simp only [vgaHeight, vgaWidth] at *
  omega

theorem getD_drop_one (rows : List (List UInt8)) (row : Nat) :
    (rows.drop 1).getD row [] = rows.getD (row + 1) [] := by
  simp [List.getD]

theorem Holds.scroll (hholds : Holds t.currentColor rows t)
    (hlength : rows.length ≤ vgaHeight) :
    Holds t.currentColor (rows.drop 1) t.scroll := by
  obtain ⟨t', hfilled, hscroll⟩ := filled_scroll t
  intro row hrow col hcol
  rw [hscroll]
  change t'.buffer _ = _
  rw [hfilled.buffer, getD_drop_one, if_pos ⟨Nat.zero_le _, cell_lt hrow hcol⟩]
  by_cases hlast : row + 1 < vgaHeight
  · have hbelow : row * vgaWidth + col < (vgaHeight - 1) * vgaWidth := by
      simp only [vgaHeight, vgaWidth] at *
      omega
    rw [if_pos hbelow, ← hholds (row + 1) hlast col hcol, Nat.succ_mul,
      Nat.add_right_comm]
  · have hbelow : ¬ row * vgaWidth + col < (vgaHeight - 1) * vgaWidth := by
      simp only [vgaHeight, vgaWidth] at *
      omega
    have hnone : rows.getD (row + 1) [] = [] :=
      List.getD_eq_default _ _ (by omega)
    rw [if_neg hbelow, hnone, List.getD_nil]

theorem getD_snoc {α : Type} (xs : List α) (x d : α) (i : Nat) :
    (xs ++ [x]).getD i d = if i = xs.length then x else xs.getD i d := by
  by_cases hi : i = xs.length
  · simp [hi]
  · rw [if_neg hi]
    by_cases hlt : i < xs.length
    · exact List.getD_append _ _ _ _ hlt
    · rw [List.getD_eq_default _ _ (by simp; omega),
        List.getD_eq_default _ _ (by omega)]

/-- An empty row at the end makes no difference. -/
theorem Holds.snoc_nil (hholds : Holds color rows t) :
    Holds color (rows ++ [[]]) t := by
  intro row hrow col hcol
  rw [hholds row hrow col hcol, getD_snoc]
  split
  · rw [List.getD_eq_default rows [] (by omega)]
  · rfl

theorem cell_eq_iff {row' col' : Nat} (hcol : col < vgaWidth)
    (hcol' : col' < vgaWidth) :
    row * vgaWidth + col = row' * vgaWidth + col' ↔ row = row' ∧ col = col' := by
  simp only [vgaWidth] at *
  omega

theorem Holds.writeHere (hholds : Holds t.currentColor (above ++ [line]) t)
    (hrow : t.cursorRow = above.length) (hcol : t.cursorCol = line.length)
    (hline : line.length < vgaWidth) (c : UInt8) :
    Holds t.currentColor (above ++ [line ++ [c]]) (t.writeHere c) := by
  intro row hrow' col hcol'
  have hcell := hholds row hrow' col hcol'
  rw [getD_snoc] at hcell ⊢
  change Function.update t.buffer _ _ _ = _
  by_cases hhere : row = t.cursorRow ∧ col = t.cursorCol
  · obtain ⟨rfl, rfl⟩ := hhere
    rw [Function.update_self, if_pos hrow, getD_snoc, if_pos hcol]
  · rw [Function.update_of_ne (mt (cell_eq_iff hcol' (hcol ▸ hline)).mp hhere),
      hcell]
    split
    · rw [getD_snoc, if_neg (by omega)]
    · rfl

theorem lastRows_snoc (front : List (List UInt8)) (line : List UInt8) :
    lastRows (front ++ [line]) =
      front.drop (front.length + 1 - vgaHeight) ++ [line] := by
  have hle : front.length + 1 - vgaHeight ≤ front.length := by
    simp only [vgaHeight]
    omega
  rw [lastRows, List.length_append, List.length_singleton,
    List.drop_append_of_le_length hle]

theorem lastRows_length (rows : List (List UInt8)) :
    (lastRows rows).length = min rows.length vgaHeight := by
  rw [lastRows, List.length_drop]
  omega

theorem registers_eq : ∀ position < 2000,
    ((UInt16.ofNat position >>> 8) &&& 0xFF).toUInt8.toNat * 256 +
      (UInt16.ofNat position &&& 0xFF).toUInt8.toNat = position := by
  decide +kernel

theorem updateHardwareCursor_registers (hrow : t.cursorRow < vgaHeight)
    (hcol : t.cursorCol < vgaWidth) :
    t.updateHardwareCursor.cursorRegisters.1.toNat * 256 +
      t.updateHardwareCursor.cursorRegisters.2.toNat =
        t.cursorRow * vgaWidth + t.cursorCol := by
  refine registers_eq _ ?_
  simp only [vgaHeight, vgaWidth] at *
  omega

/-- The screen shows rows and a line that is not full, at whose end the cursor
is. -/
structure Typing (color : UInt8) (front : List (List UInt8))
    (line : List UInt8) (t : Terminal) : Prop where
  holds : Holds color (lastRows (front ++ [line])) t
  cursorRow : t.cursorRow + 1 = (lastRows (front ++ [line])).length
  cursorCol : t.cursorCol = line.length
  color : t.currentColor = color
  short : line.length < vgaWidth
  registers : t.cursorRegisters.1.toNat * 256 + t.cursorRegisters.2.toNat =
    t.cursorRow * vgaWidth + t.cursorCol

variable {front : List (List UInt8)}

theorem Typing.displays (htyping : Typing color front line t) :
    Displays color (front ++ [line]) t where
  holds := htyping.holds
  cursorRow := htyping.cursorRow
  cursorCol := by
    rw [List.getLast?_append]
    exact congrArg some htyping.cursorCol
  registers := htyping.registers

section Settle

variable (hholds : Holds t.currentColor (lastRows (front ++ [line])) t)
  (hrow : t.cursorRow + 1 = (lastRows (front ++ [line])).length)

include hholds hrow

theorem typing_updateHardwareCursor (hcol : t.cursorCol = line.length)
    (hshort : line.length < vgaWidth) :
    Typing t.currentColor front line t.updateHardwareCursor := by
  have hlength := lastRows_length (front ++ [line])
  exact ⟨hholds, hrow, hcol, rfl, hshort,
    updateHardwareCursor_registers (by omega) (by omega)⟩

theorem typing_settle (hcol : t.cursorCol = line.length)
    (hshort : line.length < vgaWidth) :
    Typing t.currentColor front line t.settle := by
  have hlength := lastRows_length (front ++ [line])
  rw [Terminal.settle, if_neg (by omega)]
  exact typing_updateHardwareCursor hholds hrow hcol hshort

/-- A new row.  On a full screen the topmost one goes. -/
theorem typing_nextRow :
    Typing t.currentColor (front ++ [line]) [] t.nextRow.settle := by
  have hlength := lastRows_length (front ++ [line])
  generalize front ++ [line] = rows at hholds hrow hlength ⊢
  by_cases hroom : rows.length < vgaHeight
  · have hall : lastRows rows = rows := by
      rw [lastRows, Nat.sub_eq_zero_of_le hroom.le, List.drop_zero]
    have hnext : lastRows (rows ++ [[]]) = rows ++ [[]] := by
      rw [lastRows_snoc, Nat.sub_eq_zero_of_le hroom, List.drop_zero]
    rw [hall] at hholds hrow
    refine @typing_settle t.nextRow [] rows ?_ ?_ rfl (by decide)
    · rw [hnext]
      exact hholds.snoc_nil
    · rw [hnext, List.length_append]
      exact congrArg (· + 1) hrow
  · have hnext : lastRows (rows ++ [[]]) = (lastRows rows).drop 1 ++ [[]] := by
      rw [lastRows_snoc, lastRows, List.drop_drop]
      congr 2
      omega
    have hfull : t.nextRow.cursorRow ≥ vgaHeight := by
      change vgaHeight ≤ t.cursorRow + 1
      omega
    obtain ⟨t', hfilled, hscroll⟩ := filled_scroll t.nextRow
    have hscrolled : Holds t.nextRow.currentColor (lastRows (rows ++ [[]]))
        t.nextRow.scroll := by
      rw [hnext]
      have hsame : Holds t.nextRow.currentColor (lastRows rows) t.nextRow :=
        hholds
      exact (hsame.scroll (by omega)).snoc_nil
    have hcolor : t.nextRow.scroll.currentColor = t.currentColor := by
      rw [hscroll]
      exact hfilled.color
    rw [Terminal.settle, if_pos hfull, ← hcolor]
    refine typing_updateHardwareCursor ?_ ?_ ?_ (by decide)
    · rw [hcolor]
      exact hscrolled
    · rw [hscroll, lastRows_length, List.length_append, List.length_singleton]
      change vgaHeight - 1 + 1 = _
      simp only [vgaHeight] at *
      omega
    · rw [hscroll]
      rfl

end Settle

theorem Typing.breakLine (htyping : Typing color front line t) :
    Typing color (front ++ [line]) [] (t.putChar newline) := by
  have hcolor := htyping.color
  subst hcolor
  rw [Terminal.putChar, if_pos rfl]
  exact typing_nextRow htyping.holds htyping.cursorRow

theorem Typing.char (htyping : Typing color front line t) {c : UInt8}
    (hnewline : c ≠ newline) (hbackspace : c ≠ backspace) :
    if line.length + 1 = vgaWidth then
      Typing color (front ++ [line ++ [c]]) [] (t.putChar c)
    else Typing color front (line ++ [c]) (t.putChar c) := by
  have hcolor := htyping.color
  subst hcolor
  have hrow := htyping.cursorRow
  have hcol := htyping.cursorCol
  have hshort := htyping.short
  have hholds := htyping.holds
  rw [lastRows_snoc] at hholds hrow
  rw [List.length_append, List.length_singleton, Nat.add_right_cancel_iff]
    at hrow
  have hwritten := hholds.writeHere hrow hcol hshort c
  rw [← lastRows_snoc] at hwritten
  have hrow' : t.cursorRow + 1 = (lastRows (front ++ [line ++ [c]])).length := by
    rw [lastRows_snoc, List.length_append, List.length_singleton, hrow]
  have hadvanced : (t.writeHere c).cursorCol + 1 = line.length + 1 :=
    congrArg (· + 1) hcol
  simp only [Terminal.putChar, if_neg hnewline, if_neg hbackspace, hadvanced]
  by_cases hfull : line.length + 1 = vgaWidth
  · rw [if_pos hfull, if_pos hfull.ge]
    exact @typing_nextRow { t.writeHere c with cursorCol := line.length + 1 }
      (line ++ [c]) front hwritten hrow'
  · rw [if_neg hfull, if_neg (by omega)]
    exact @typing_settle { t.writeHere c with cursorCol := line.length + 1 }
      (line ++ [c]) front hwritten hrow' (by simp) (by simp; omega)

/-- Printing a text in the middle of a line. -/
theorem Typing.print (htyping : Typing color front line t)
    {text : List UInt8} (htext : backspace ∉ text) :
    Displays color (front ++ layoutFrom line text) (t.print text) := by
  induction text generalizing front line t with
  | nil => exact htyping.displays
  | cons c rest ih =>
      rw [List.mem_cons, not_or] at htext
      rw [Terminal.print, List.foldl_cons, ← Terminal.print, layoutFrom]
      by_cases hnewline : c = newline
      · subst hnewline
        have hrest := ih htyping.breakLine htext.2
        rw [if_pos rfl]
        rwa [List.append_assoc, List.singleton_append] at hrest
      · have hchar := htyping.char hnewline (Ne.symm htext.1)
        rw [if_neg hnewline]
        split at hchar
        · rename_i hfull
          have hrest := ih hchar htext.2
          rw [if_pos hfull]
          rwa [List.append_assoc, List.singleton_append] at hrest
        · rename_i hroom
          rw [if_neg hroom]
          exact ih hchar htext.2

/-- The screen after clearing, before the cursor is moved. -/
theorem filled_clear (t : Terminal) (fg bg : Color) : ∃ t',
    Filled { t with currentColor := makeColor fg bg } 0 (vgaHeight * vgaWidth)
      (fun _ => makeEntry space (makeColor fg bg)) t' ∧
    t.clear fg bg =
      { t' with cursorRow := 0, cursorCol := 0 }.updateHardwareCursor :=
  ⟨_, filled_blankRows _ vgaHeight, rfl⟩

theorem typing_clear (t : Terminal) (fg bg : Color) :
    Typing (makeColor fg bg) [] [] (t.clear fg bg) := by
  obtain ⟨t', hfilled, hclear⟩ := filled_clear t fg bg
  have hcolor : t'.currentColor = makeColor fg bg := hfilled.color
  rw [hclear, ← hcolor]
  refine @typing_updateHardwareCursor
    { t' with cursorRow := 0, cursorCol := 0 } [] [] (fun row hrow col hcol => ?_)
    rfl rfl (by decide)
  change t'.buffer _ = makeEntry _ t'.currentColor
  rw [hfilled.buffer, if_pos ⟨Nat.zero_le _, cell_lt hrow hcol⟩, hcolor]
  have hnone : (lastRows ([] ++ [[]])).getD row [] = [] := by
    cases row <;> rfl
  rw [hnone, List.getD_nil]

inductive Operation where
  | init
  | clear (fg bg : Color)
  | setColor (fg bg : Color)
  | putChar (c : UInt8)
  | putCharAt (row col : Nat) (c : UInt8) (fg bg : Color)

def Terminal.perform (t : Terminal) : Operation → Terminal
  | .init => t.init
  | .clear fg bg => t.clear fg bg
  | .setColor fg bg => t.setColor fg bg
  | .putChar c => t.putChar c
  | .putCharAt row col c fg bg => t.putCharAt row col c fg bg

def Terminal.performAll (t : Terminal) (operations : List Operation) :
    Terminal :=
  operations.foldl Terminal.perform t

/-- The static initialisers; the screen shows whatever was there before. -/
def Terminal.boot (buffer : Nat → UInt16) : Terminal :=
  ⟨buffer, 0, 0, 0, (0, 0), []⟩

/-- The cursor is on the screen, and so is every cell that was written. -/
structure OnScreen (t : Terminal) : Prop where
  cursorRow : t.cursorRow < vgaHeight
  cursorCol : t.cursorCol < vgaWidth
  written : ∀ i ∈ t.written, i < vgaHeight * vgaWidth

theorem height_pos : 0 < vgaHeight := by decide

theorem width_pos : 0 < vgaWidth := by decide

theorem OnScreen.write (hscreen : OnScreen t) (hi : i < vgaHeight * vgaWidth)
    (entry : UInt16) : OnScreen (t.write i entry) := by
  refine ⟨hscreen.cursorRow, hscreen.cursorCol, fun j hj => ?_⟩
  rcases List.mem_cons.mp hj with rfl | hj
  · exact hi
  · exact hscreen.written j hj

theorem OnScreen.writeHere (hscreen : OnScreen t) (c : UInt8) :
    OnScreen (t.writeHere c) :=
  hscreen.write (cell_lt hscreen.cursorRow hscreen.cursorCol) _

theorem onScreen_settle (hcol : t.cursorCol < vgaWidth)
    (hwritten : ∀ i ∈ t.written, i < vgaHeight * vgaWidth) :
    OnScreen t.settle := by
  rw [Terminal.settle]
  split
  · obtain ⟨t', hfilled, hscroll⟩ := filled_scroll t
    rw [hscroll]
    refine ⟨Nat.sub_one_lt_of_lt height_pos, width_pos, fun i hi => ?_⟩
    exact (hfilled.written i hi).elim (hwritten i) And.right
  · rename_i hrow
    exact ⟨Nat.not_le.mp hrow, hcol, hwritten⟩

theorem OnScreen.putChar (hscreen : OnScreen t) (c : UInt8) :
    OnScreen (t.putChar c) := by
  have hrow := hscreen.cursorRow
  have hcol := hscreen.cursorCol
  rw [Terminal.putChar]
  split
  · exact onScreen_settle width_pos hscreen.written
  split
  · split
    · have hback : OnScreen { t with cursorCol := t.cursorCol - 1 } :=
        ⟨hrow, (Nat.sub_le _ _).trans_lt hcol, hscreen.written⟩
      have herased := hback.writeHere space
      exact onScreen_settle herased.cursorCol herased.written
    split
    · have hback : OnScreen
          { t with cursorRow := t.cursorRow - 1, cursorCol := vgaWidth - 1 } :=
        ⟨(Nat.sub_le _ _).trans_lt hrow, Nat.sub_one_lt_of_lt width_pos,
          hscreen.written⟩
      have herased := hback.writeHere space
      exact onScreen_settle herased.cursorCol herased.written
    · exact ⟨hrow, hcol, hscreen.written⟩
  · have hwritten := (hscreen.writeHere c).written
    dsimp only
    split
    · exact onScreen_settle width_pos hwritten
    · rename_i hshort
      exact onScreen_settle (Nat.not_le.mp hshort) hwritten

theorem OnScreen.clear (hscreen : OnScreen t) (fg bg : Color) :
    OnScreen (t.clear fg bg) := by
  obtain ⟨t', hfilled, hclear⟩ := filled_clear t fg bg
  rw [hclear]
  refine ⟨height_pos, width_pos, fun i hi => ?_⟩
  exact (hfilled.written i hi).elim (hscreen.written i) And.right

/-- No operation leaves the screen. -/
theorem OnScreen.perform (hscreen : OnScreen t) (operation : Operation) :
    OnScreen (t.perform operation) := by
  cases operation with
  | init => exact ⟨height_pos, width_pos, hscreen.written⟩
  | clear fg bg => exact hscreen.clear fg bg
  | setColor fg bg =>
      exact ⟨hscreen.cursorRow, hscreen.cursorCol, hscreen.written⟩
  | putChar c => exact hscreen.putChar c
  | putCharAt row col c fg bg =>
      rw [Terminal.perform, Terminal.putCharAt]
      split
      · exact hscreen
      · rename_i hinside
        rw [not_or, Nat.not_le, Nat.not_le] at hinside
        exact hscreen.write (cell_lt hinside.1 hinside.2) _

theorem OnScreen.performAll (hscreen : OnScreen t)
    (operations : List Operation) : OnScreen (t.performAll operations) := by
  induction operations generalizing t with
  | nil => exact hscreen
  | cons operation rest ih => exact ih (hscreen.perform operation)

theorem onScreen_boot (buffer : Nat → UInt16) :
    OnScreen (Terminal.boot buffer) :=
  ⟨height_pos, width_pos, by simp [Terminal.boot]⟩

/-- A text that is printed on a clear screen can be read there, but for the
rows that have scrolled away; and whatever is done, nothing outside of the
screen is written. -/
theorem terminal_shows_tail :
    (∀ (t : Terminal) (fg bg : Color) (text : List UInt8),
      backspace ∉ text →
      Displays (makeColor fg bg) (layout text) ((t.clear fg bg).print text)) ∧
    ∀ (buffer : Nat → UInt16) (operations : List Operation),
      OnScreen ((Terminal.boot buffer).performAll operations) := by
  refine ⟨fun t fg bg text htext => ?_, fun buffer operations => ?_⟩
  · have hprinted := (typing_clear t fg bg).print htext
    rwa [List.nil_append] at hprinted
  · exact (onScreen_boot buffer).performAll operations

theorem terminal_shows_two_lines :
    Displays (makeColor .lightGrey .black) [[72, 105], [33]]
      (((Terminal.boot fun _ => 0).clear .lightGrey .black).print
        [72, 105, newline, 33]) :=
  terminal_shows_tail.1 (Terminal.boot fun _ => 0) .lightGrey .black
    [72, 105, newline, 33] (by decide)

end Vga

end VenomOS
