/-
Singly linked chains threaded through a successor function.  A chain is the
list of cells met before the terminator, so insertion and removal after a cell
become statements about lists, and a bounded walk ends where the list says.
-/
import Mathlib

namespace LinkedChain

universe u

variable {α : Type u}

/-- Following `next` from `start` visits exactly `cells` and then stops at
`nil`. -/
def Chain (next : α → α) (nil : α) : α → List α → Prop
  | start, [] => start = nil
  | start, cell :: rest =>
      start = cell ∧ cell ≠ nil ∧ Chain next nil (next cell) rest

/-- Follow `next` until `stop` holds.  `none` reports that the fuel ran out
before the loop left its condition. -/
def walkUntil (next : α → α) (stop : α → Bool) : Nat → α → Option α
  | 0, _ => none
  | fuel + 1, cell =>
      if stop cell then some cell else walkUntil next stop fuel (next cell)

/-- Visit the cells up to the terminator with an accumulator.  `none` reports
that the fuel ran out. -/
def walkFold {β : Type u} [DecidableEq α] (next : α → α) (nil : α)
    (visit : β → α → β) : Nat → α → β → Option β
  | 0, _, _ => none
  | fuel + 1, cell, acc =>
      if cell = nil then some acc
      else walkFold next nil visit fuel (next cell) (visit acc cell)

variable {next next' : α → α} {nil start : α} {cells : List α}

@[simp]
theorem chain_nil_iff : Chain next nil start [] ↔ start = nil := Iff.rfl

/-- A chain is determined by its first cell. -/
theorem Chain.unique {other : List α} (hchain : Chain next nil start cells)
    (hother : Chain next nil start other) : cells = other := by
  induction cells generalizing start other with
  | nil =>
      cases other with
      | nil => rfl
      | cons cell rest =>
          exact absurd (hother.1.symm.trans hchain) hother.2.1
  | cons cell rest ih =>
      cases other with
      | nil => exact absurd (hchain.1.symm.trans hother) hchain.2.1
      | cons cell' rest' =>
          obtain ⟨rfl, _, htail⟩ := hchain
          obtain ⟨rfl, _, htail'⟩ := hother
          rw [ih htail htail']

variable {stop : α → Bool} {front back : List α} {cell : α} {fuel : Nat}

theorem Chain.ne_nil_of_mem (hchain : Chain next nil start cells)
    (hcell : cell ∈ cells) : cell ≠ nil := by
  induction cells generalizing start with
  | nil => simp at hcell
  | cons head rest ih =>
      rcases List.mem_cons.mp hcell with rfl | hrest
      · exact hchain.2.1
      · exact ih hchain.2.2 hrest

/-- The suffix of a chain that starts at one of its cells is the chain of that
cell. -/
theorem Chain.suffix (hchain : Chain next nil start (front ++ cell :: back)) :
    Chain next nil cell (cell :: back) := by
  induction front generalizing start with
  | nil =>
      obtain ⟨rfl, hne, htail⟩ := hchain
      exact ⟨rfl, hne, htail⟩
  | cons head rest ih => exact ih hchain.2.2

/-- A terminating chain never repeats a cell: the suffix at a second
occurrence would be a proper suffix of itself. -/
theorem Chain.nodup (hchain : Chain next nil start cells) : cells.Nodup := by
  induction cells generalizing start with
  | nil => exact List.nodup_nil
  | cons cell rest ih =>
      refine List.nodup_cons.mpr ⟨fun hmem => ?_, ih hchain.2.2⟩
      obtain ⟨front, back, hsplit⟩ := List.append_of_mem hmem
      have hself : Chain next nil cell (cell :: rest) :=
        ⟨rfl, hchain.2.1, hchain.2.2⟩
      have hlater : Chain next nil cell (cell :: back) :=
        Chain.suffix (hsplit ▸ hchain.2.2)
      have hlength := congrArg List.length (hself.unique hlater)
      rw [hsplit] at hlength
      simp only [List.length_cons, List.length_append] at hlength
      omega

/-- Only the successors of the visited cells matter. -/
theorem Chain.congr (hchain : Chain next nil start cells)
    (hagree : ∀ cell ∈ cells, next' cell = next cell) :
    Chain next' nil start cells := by
  induction cells generalizing start with
  | nil => exact hchain
  | cons cell rest ih =>
      refine ⟨hchain.1, hchain.2.1, ?_⟩
      rw [hagree cell List.mem_cons_self]
      exact ih hchain.2.2 fun other hother =>
        hagree other (List.mem_cons_of_mem cell hother)

theorem Chain.update [DecidableEq α] {cell value : α}
    (hchain : Chain next nil start cells) (hcell : cell ∉ cells) :
    Chain (Function.update next cell value) nil start cells :=
  hchain.congr fun _ hother =>
    Function.update_of_ne (ne_of_mem_of_not_mem hother hcell) value next

/-- Replace everything after one cell: the cells before it keep their
successors and the cell gets a new continuation. -/
theorem Chain.splice {front back back' : List α}
    (hchain : Chain next nil start (front ++ cell :: back))
    (hfront : ∀ other ∈ front, next' other = next other)
    (hback : Chain next' nil (next' cell) back') :
    Chain next' nil start (front ++ cell :: back') := by
  induction front generalizing start with
  | nil =>
      obtain ⟨rfl, hne, _⟩ := hchain
      exact ⟨rfl, hne, hback⟩
  | cons head rest ih =>
      refine ⟨hchain.1, hchain.2.1, ?_⟩
      rw [hfront head List.mem_cons_self]
      exact ih hchain.2.2 fun other hother =>
        hfront other (List.mem_cons_of_mem head hother)

theorem Chain.tail_of_split
    (hchain : Chain next nil start (front ++ cell :: back)) :
    Chain next nil (next cell) back := hchain.suffix.2.2

/-- The successor of a cell is the next cell of the chain. -/
theorem Chain.next_mem {cell other : α}
    (hchain : Chain next nil start (front ++ cell :: back))
    (hother : other ∈ front) : next other ∈ front ++ [cell] := by
  induction front generalizing start with
  | nil => simp at hother
  | cons head rest ih =>
      obtain ⟨rfl, _, htail⟩ := hchain
      rcases List.mem_cons.mp hother with rfl | hrest
      · cases rest with
        | nil => simp [htail.1]
        | cons second rest => simp [htail.1]
      · exact List.mem_cons_of_mem _ (ih htail hrest)

theorem walkUntil_stop (hwalk : walkUntil next stop fuel start = some cell) :
    stop cell = true := by
  induction fuel generalizing start with
  | zero => cases hwalk
  | succ fuel ih =>
      rw [walkUntil] at hwalk
      split at hwalk
      · cases hwalk
        assumption
      · exact ih hwalk

/-- The walk from `cell` ends at `last`. -/
def EndsAt (next : α → α) (stop : α → Bool) (cell last : α) : Prop :=
  ∃ fuel, walkUntil next stop fuel cell = some last

theorem EndsAt.eq_last {cell last : α} (hends : EndsAt next stop cell last)
    (hstop : stop cell = true) :
    cell = last := by
  obtain ⟨fuel, hwalk⟩ := hends
  cases fuel with
  | zero => cases hwalk
  | succ fuel =>
      rw [walkUntil, if_pos hstop] at hwalk
      exact Option.some.inj hwalk

theorem EndsAt.tail {cell last : α} (hends : EndsAt next stop cell last)
    (hstop : stop cell = false) :
    EndsAt next stop (next cell) last := by
  obtain ⟨fuel, hwalk⟩ := hends
  cases fuel with
  | zero => cases hwalk
  | succ fuel =>
      rw [walkUntil, if_neg (by simp [hstop])] at hwalk
      exact ⟨fuel, hwalk⟩

/-- The walk ends at the first cell that satisfies the condition. -/
theorem walkUntil_eq_of_split
    (hchain : Chain next nil start (front ++ cell :: back))
    (hfront : ∀ other ∈ front, stop other = false) (hcell : stop cell = true)
    (hfuel : front.length < fuel) :
    walkUntil next stop fuel start = some cell := by
  induction front generalizing start fuel with
  | nil =>
      obtain ⟨more, rfl⟩ := Nat.exists_eq_succ_of_ne_zero hfuel.ne_bot
      obtain ⟨rfl, _, _⟩ := hchain
      simp [walkUntil, hcell]
  | cons head rest ih =>
      obtain ⟨more, rfl⟩ := Nat.exists_eq_succ_of_ne_zero hfuel.ne_bot
      obtain ⟨rfl, _, htail⟩ := hchain
      have hhead := hfront start List.mem_cons_self
      simp only [walkUntil, hhead, Bool.false_eq_true, ↓reduceIte]
      exact ih htail
        (fun other hother => hfront other (List.mem_cons_of_mem _ hother))
        (by simpa using hfuel)

/-- The walk ends at the terminator when no cell satisfies the condition. -/
theorem walkUntil_eq_nil (hchain : Chain next nil start cells)
    (hcells : ∀ cell ∈ cells, stop cell = false) (hnil : stop nil = true)
    (hfuel : cells.length < fuel) :
    walkUntil next stop fuel start = some nil := by
  induction cells generalizing start fuel with
  | nil =>
      obtain ⟨more, rfl⟩ := Nat.exists_eq_succ_of_ne_zero hfuel.ne_bot
      rw [chain_nil_iff] at hchain
      simp [walkUntil, hchain, hnil]
  | cons cell rest ih =>
      obtain ⟨more, rfl⟩ := Nat.exists_eq_succ_of_ne_zero hfuel.ne_bot
      obtain ⟨rfl, _, htail⟩ := hchain
      have hhead := hcells start List.mem_cons_self
      simp only [walkUntil, hhead, Bool.false_eq_true, ↓reduceIte]
      exact ih htail
        (fun other hother => hcells other (List.mem_cons_of_mem _ hother))
        (by simpa using hfuel)

theorem walkFold_eq {β : Type u} [DecidableEq α] {visit : β → α → β}
    (hchain : Chain next nil start cells) (hfuel : cells.length < fuel)
    (acc : β) :
    walkFold next nil visit fuel start acc = some (cells.foldl visit acc) := by
  induction cells generalizing start fuel acc with
  | nil =>
      obtain ⟨more, rfl⟩ := Nat.exists_eq_succ_of_ne_zero hfuel.ne_bot
      rw [chain_nil_iff] at hchain
      simp [walkFold, hchain]
  | cons cell rest ih =>
      obtain ⟨more, rfl⟩ := Nat.exists_eq_succ_of_ne_zero hfuel.ne_bot
      obtain ⟨rfl, hne, htail⟩ := hchain
      rw [walkFold, if_neg hne, ih htail (by simpa using hfuel)]
      rfl

/-- A duplicate-free list of numbers below a bound is no longer than the
bound. -/
theorem length_le_of_nodup_lt {numbers : List Nat} {bound : Nat}
    (hnodup : numbers.Nodup) (hlt : ∀ number ∈ numbers, number < bound) :
    numbers.length ≤ bound := by
  rw [← List.toFinset_card_of_nodup hnodup, ← Finset.card_range bound]
  apply Finset.card_le_card
  intro number hnumber
  exact Finset.mem_range.mpr (hlt number (List.mem_toFinset.mp hnumber))

end LinkedChain
