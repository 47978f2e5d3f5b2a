/-
Lists that are made of blocks of one width.
-/
import Mathlib

namespace Blocks

variable {α : Type*} {width : Nat} {blocks : List (List α)}

/-- All blocks have one width. -/
def Uniform (width : Nat) (blocks : List (List α)) : Prop :=
  ∀ block ∈ blocks, block.length = width

theorem uniform_cons {block : List α} :
    Uniform width (block :: blocks) ↔
      block.length = width ∧ Uniform width blocks := by
  simp [Uniform]

theorem Uniform.length_flatten (huniform : Uniform width blocks) :
    blocks.flatten.length = width * blocks.length := by
  induction blocks with
  | nil => simp
  | cons block blocks ih =>
      obtain ⟨hblock, hrest⟩ := uniform_cons.1 huniform
      rw [List.flatten_cons, List.length_append, ih hrest, hblock,
        List.length_cons, Nat.mul_succ, Nat.add_comm]

/-- Element `i` of block `j`. -/
theorem Uniform.getD_flatten (huniform : Uniform width blocks) {i : Nat}
    (hi : i < width) (j : Nat) (default : α) :
    blocks.flatten.getD (width * j + i) default =
      (blocks.getD j []).getD i default := by
  induction blocks generalizing j with
  | nil => simp
  | cons block blocks ih =>
      obtain ⟨hblock, hrest⟩ := uniform_cons.1 huniform
      cases j with
      | zero =>
          rw [List.flatten_cons, List.getD_append _ _ _ _ (by omega)]
          simp
      | succ j =>
          rw [List.flatten_cons, List.getD_append_right _ _ _ _ (by
            rw [hblock, Nat.mul_succ]
            omega), List.getD_cons_succ, ← ih hrest j]
          congr 1
          rw [hblock, Nat.mul_succ]
          omega

/-- Block number `i` of a list. -/
def chunk (width : Nat) (list : List α) (i : Nat) : List α :=
  (list.drop (i * width)).take width

theorem chunk_length {list : List α} {n i : Nat}
    (hlength : list.length = n * width) (hi : i < n) :
    (chunk width list i).length = width := by
  have hroom : (i + 1) * width ≤ n * width := Nat.mul_le_mul_right width hi
  rw [Nat.add_mul, Nat.one_mul] at hroom
  rw [chunk, List.length_take, List.length_drop, hlength]
  omega

/-- A list is its blocks one after the other. -/
theorem flatten_chunks {n : Nat} {list : List α}
    (hlength : list.length = n * width) :
    ((List.range n).map (chunk width list)).flatten = list := by
  induction n generalizing list with
  | zero =>
      rw [Nat.zero_mul] at hlength
      simp [List.eq_nil_of_length_eq_zero hlength]
  | succ n ih =>
      have hrest : (list.drop width).length = n * width := by
        rw [List.length_drop, hlength, Nat.succ_mul, Nat.add_sub_cancel]
      have htail : (List.range n).map (fun i => chunk width list (i + 1)) =
          (List.range n).map (chunk width (list.drop width)) := by
        refine List.map_congr_left fun i _ => ?_
        rw [chunk, chunk, List.drop_drop, Nat.add_mul, Nat.one_mul,
          Nat.add_comm]
      rw [List.range_succ_eq_map, List.map_cons, List.map_map,
        List.flatten_cons]
      change chunk width list 0 ++
        ((List.range n).map fun i => chunk width list (i + 1)).flatten = list
      rw [htail, ih hrest, chunk, Nat.zero_mul, List.drop_zero,
        List.take_append_drop]

end Blocks
