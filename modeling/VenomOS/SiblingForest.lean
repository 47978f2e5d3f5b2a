/-
Families of nodes whose children are threaded through a first-child link and
next-sibling links, with a parent link going back.  The links of a valid
forest agree: the list that starts at a node's first child holds exactly the
live nodes whose parent link names it.
-/
import VenomOS.LinkedChain

namespace SiblingForest

open LinkedChain

universe u

variable {α : Type u}

structure Forest (α : Type u) where
  live : α → Prop
  parent : α → α
  first : α → α
  next : α → α

namespace Forest

/-- `cells` are the children of `node` in link order. -/
structure Children (forest : Forest α) (nil node : α) (cells : List α) :
    Prop where
  chain : Chain forest.next nil (forest.first node) cells
  mem_iff : ∀ child, child ∈ cells ↔
    forest.live child ∧ forest.parent child = node

structure Valid (forest : Forest α) (nil : α) : Prop where
  nil_dead : ¬ forest.live nil
  children : ∀ node, forest.live node →
    ∃ cells, forest.Children nil node cells
  parent_live : ∀ node, forest.live node → forest.parent node ≠ nil →
    forest.live (forest.parent node)

/-- The links of the live nodes are the same. -/
structure Agree (forest forest' : Forest α) : Prop where
  live_iff : ∀ node, forest'.live node ↔ forest.live node
  parent_eq : ∀ node, forest.live node →
    forest'.parent node = forest.parent node
  first_eq : ∀ node, forest.live node →
    forest'.first node = forest.first node
  next_eq : ∀ node, forest.live node → forest'.next node = forest.next node

section Operations

variable [DecidableEq α]

/-- A new node without relatives. -/
def spawn (forest : Forest α) (nil node : α) : Forest α where
  live other := other = node ∨ forest.live other
  parent := Function.update forest.parent node nil
  first := Function.update forest.first node nil
  next := Function.update forest.next node nil

def setParent (forest : Forest α) (node cell : α) : Forest α :=
  { forest with parent := Function.update forest.parent node cell }

def setFirst (forest : Forest α) (node cell : α) : Forest α :=
  { forest with first := Function.update forest.first node cell }

def setNext (forest : Forest α) (node cell : α) : Forest α :=
  { forest with next := Function.update forest.next node cell }

/-- Put `child` in front of the children of `node`. -/
def attach (forest : Forest α) (node child : α) : Forest α :=
  { forest with
    parent := Function.update forest.parent child node
    next := Function.update forest.next child (forest.first node)
    first := Function.update forest.first node child }

/-- Unlink the first child of `node`. -/
def detachFirst (forest : Forest α) (nil node child : α) : Forest α :=
  { forest with
    parent := Function.update forest.parent child nil
    first := Function.update forest.first node (forest.next child) }

/-- Unlink the child that follows `prev`. -/
def detachAfter (forest : Forest α) (nil prev child : α) : Forest α :=
  { forest with
    parent := Function.update forest.parent child nil
    next := Function.update forest.next prev (forest.next child) }

end Operations

/-- Take a node out of the forest. -/
def bury (forest : Forest α) (node : α) : Forest α :=
  { forest with live := fun other => forest.live other ∧ other ≠ node }

variable {forest forest' : Forest α} {nil node child : α} {cells : List α}

theorem Valid.ne_nil (hvalid : forest.Valid nil) (hlive : forest.live node) :
    node ≠ nil :=
  fun heq => hvalid.nil_dead (heq ▸ hlive)

section

variable (hcells : forest.Children nil node cells)

include hcells

theorem Children.live (hmem : child ∈ cells) : forest.live child :=
  ((hcells.mem_iff child).mp hmem).1

theorem Children.parent_eq (hmem : child ∈ cells) :
    forest.parent child = node :=
  ((hcells.mem_iff child).mp hmem).2

theorem Children.not_mem (hparent : forest.parent child ≠ node) :
    child ∉ cells :=
  fun hmem => hparent (hcells.parent_eq hmem)

theorem Children.agree (hagree : forest.Agree forest')
    (hlive : forest.live node) :
    forest'.Children nil node cells where
  chain := by
    rw [hagree.first_eq node hlive]
    exact hcells.chain.congr fun cell hcell =>
      hagree.next_eq cell (hcells.live hcell)
  mem_iff child := by
    rw [hcells.mem_iff, hagree.live_iff]
    constructor
    · rintro ⟨hchild, hparent⟩
      exact ⟨hchild, (hagree.parent_eq child hchild).trans hparent⟩
    · rintro ⟨hchild, hparent⟩
      exact ⟨hchild, (hagree.parent_eq child hchild).symm.trans hparent⟩

end

theorem Valid.agree (hvalid : forest.Valid nil)
    (hagree : forest.Agree forest') : forest'.Valid nil where
  nil_dead hnil := hvalid.nil_dead ((hagree.live_iff nil).mp hnil)
  children node hlive := by
    have hlive' := (hagree.live_iff node).mp hlive
    obtain ⟨cells, hcells⟩ := hvalid.children node hlive'
    exact ⟨cells, hcells.agree hagree hlive'⟩
  parent_live node hlive hne := by
    have hlive' := (hagree.live_iff node).mp hlive
    rw [hagree.parent_eq node hlive'] at hne ⊢
    exact (hagree.live_iff _).mpr (hvalid.parent_live node hlive' hne)

theorem Valid.bury (hvalid : forest.Valid nil)
    (hroot : forest.parent node = nil)
    (hchildless : ∀ child, forest.live child → forest.parent child ≠ node) :
    (forest.bury node).Valid nil where
  nil_dead hnil := hvalid.nil_dead hnil.1
  children other hother := by
    obtain ⟨cells, hcells⟩ := hvalid.children other hother.1
    refine ⟨cells, hcells.chain, fun child => ?_⟩
    rw [hcells.mem_iff]
    constructor
    · rintro ⟨hlive, hparent⟩
      refine ⟨⟨hlive, fun heq => ?_⟩, hparent⟩
      rw [heq, hroot] at hparent
      exact hvalid.ne_nil hother.1 hparent.symm
    · rintro ⟨⟨hlive, _⟩, hparent⟩
      exact ⟨hlive, hparent⟩
  parent_live other hother hne :=
    ⟨hvalid.parent_live other hother.1 hne, hchildless other hother.1⟩

section OperationLemmas

variable [DecidableEq α]

@[simp]
theorem setFirst_first_self (forest : Forest α) (node cell : α) :
    (forest.setFirst node cell).first node = cell :=
  Function.update_self ..

theorem Valid.spawn (hvalid : forest.Valid nil) (hdead : ¬ forest.live node)
    (hne : node ≠ nil) : (forest.spawn nil node).Valid nil where
  nil_dead := by
    rintro (hnil | hnil)
    · exact hne hnil.symm
    · exact hvalid.nil_dead hnil
  children other hother := by
    by_cases heq : other = node
    · subst heq
      refine ⟨[], by simp [Forest.spawn], fun child => ?_⟩
      simp only [List.not_mem_nil, false_iff, not_and]
      rintro (rfl | hlive) hparent
      · simp only [Forest.spawn, Function.update_self] at hparent
        exact hne hparent.symm
      · have hchild : child ≠ other := fun heq => hdead (heq ▸ hlive)
        simp only [Forest.spawn, Function.update_of_ne hchild] at hparent
        have hparentLive := hvalid.parent_live child hlive
        rw [hparent] at hparentLive
        exact hdead (hparentLive hne)
    · have hlive : forest.live other := hother.resolve_left heq
      obtain ⟨cells, hcells⟩ := hvalid.children other hlive
      have hnode : node ∉ cells := fun hmem => hdead (hcells.live hmem)
      refine ⟨cells, ?_, fun child => ?_⟩
      · simp only [Forest.spawn, Function.update_of_ne heq]
        exact hcells.chain.update hnode
      · by_cases hchild : child = node
        · subst hchild
          simp only [hnode, Forest.spawn, Function.update_self, false_iff,
            not_and]
          exact fun _ hnil => hvalid.ne_nil hlive hnil.symm
        · simp [hcells.mem_iff, Forest.spawn, hchild]
  parent_live other hother hparent := by
    by_cases heq : other = node
    · simp [Forest.spawn, heq] at hparent
    · simp only [Forest.spawn, Function.update_of_ne heq] at hparent ⊢
      exact Or.inr (hvalid.parent_live other (hother.resolve_left heq) hparent)

theorem Valid.attach (hvalid : forest.Valid nil) (hnode : forest.live node)
    (hchild : forest.live child) (hroot : forest.parent child = nil) :
    (forest.attach node child).Valid nil where
  nil_dead := hvalid.nil_dead
  children other hother := by
    obtain ⟨cells, hcells⟩ := hvalid.children other hother
    have hnew : child ∉ cells := hcells.not_mem
      (hroot ▸ (hvalid.ne_nil hother).symm)
    have hkept : Chain (forest.attach node child).next nil
        (forest.first other) cells := hcells.chain.update hnew
    by_cases heq : other = node
    · subst heq
      refine ⟨child :: cells, ⟨?_, hvalid.ne_nil hchild, ?_⟩, fun cell => ?_⟩
      · simp [Forest.attach]
      · simpa [Forest.attach] using hkept
      · by_cases hcell : cell = child
        · simp [hcell, Forest.attach, hchild]
        · simp [hcell, Forest.attach, hcells.mem_iff]
    · refine ⟨cells, ?_, fun cell => ?_⟩
      · simpa [Forest.attach, heq] using hkept
      · by_cases hcell : cell = child
        · simp [hcell, hnew, Forest.attach, Ne.symm heq]
        · simp [hcell, Forest.attach, hcells.mem_iff]
  parent_live other hother hparent := by
    by_cases heq : other = child
    · simpa [Forest.attach, heq] using hnode
    · simp only [Forest.attach, Function.update_of_ne heq] at hparent ⊢
      exact hvalid.parent_live other hother hparent

/-- What the two ways of unlinking share: the child becomes a root, the list
it was on is shorter, and no other list is touched. -/
theorem Valid.detach {front back : List α} (hvalid : forest.Valid nil)
    (hcells : forest.Children nil node (front ++ child :: back))
    (hlive : forest'.live = forest.live)
    (hparent : forest'.parent = Function.update forest.parent child nil)
    (hchain : Chain forest'.next nil (forest'.first node) (front ++ back))
    (hfirst : ∀ other, other ≠ node →
      forest'.first other = forest.first other)
    (hnext : ∀ other, forest.live other → forest.parent other ≠ node →
      forest'.next other = forest.next other) : forest'.Valid nil where
  nil_dead := by
    rw [hlive]
    exact hvalid.nil_dead
  children other hother := by
    rw [hlive] at hother
    have hnil : other ≠ nil := hvalid.ne_nil hother
    have hmem : child ∈ front ++ child :: back := by simp
    by_cases heq : other = node
    · subst heq
      refine ⟨front ++ back, hchain, fun cell => ?_⟩
      rw [hlive, hparent]
      have hnodup := hcells.chain.nodup
      by_cases hcell : cell = child
      · subst hcell
        rw [List.nodup_middle, List.nodup_cons] at hnodup
        simp [hnodup.1, hnil.symm]
      · rw [Function.update_of_ne hcell, ← hcells.mem_iff]
        simp [hcell]
    · obtain ⟨cells, hothers⟩ := hvalid.children other hother
      refine ⟨cells, ?_, fun cell => ?_⟩
      · rw [hfirst other heq]
        refine hothers.chain.congr fun cell hcell => hnext cell
          (hothers.live hcell) ?_
        rw [hothers.parent_eq hcell]
        exact heq
      · rw [hlive, hparent]
        by_cases hcell : cell = child
        · have hnot : child ∉ cells := hothers.not_mem
            (hcells.parent_eq hmem ▸ Ne.symm heq)
          simp [hcell, hnot, hnil.symm]
        · rw [Function.update_of_ne hcell, hothers.mem_iff]
  parent_live other hother hne := by
    rw [hlive] at hother ⊢
    rw [hparent] at hne ⊢
    by_cases heq : other = child
    · simp [heq] at hne
    · rw [Function.update_of_ne heq] at hne ⊢
      exact hvalid.parent_live other hother hne

theorem Valid.detachFirst (hvalid : forest.Valid nil)
    (hcells : forest.Children nil node (child :: cells)) :
    (forest.detachFirst nil node child).Valid nil := by
  have hsplit : forest.Children nil node ([] ++ child :: cells) := hcells
  refine hvalid.detach hsplit rfl rfl ?_ ?_ ?_
  · simpa [Forest.detachFirst] using hcells.chain.2.2
  · intro other hne
    simp [Forest.detachFirst, hne]
  · exact fun _ _ _ => rfl

/-- The first child of `node` moves to another node: what is left of the list
is valid once `node` is made to start it. -/
theorem Valid.moveFirst {other : α}
    (hvalid : (forest.setFirst node child).Valid nil)
    (hcells : (forest.setFirst node child).Children nil node (child :: cells))
    (hnode : forest.live node) (hother : forest.live other)
    (hne : other ≠ node) :
    ((forest.attach other child).setFirst node (forest.next child)).Valid
      nil ∧
    ((forest.attach other child).setFirst node (forest.next child)).Children
      nil node cells := by
  have heq : (forest.attach other child).setFirst node (forest.next child) =
      ((forest.setFirst node child).detachFirst nil node child).attach other
        child := by
    simp [Forest.attach, Forest.setFirst, Forest.detachFirst, hne,
      Function.update_comm hne]
  have hchild : forest.live child := hcells.live List.mem_cons_self
  have hmoved := (hvalid.detachFirst hcells).attach
    (hother : ((forest.setFirst node child).detachFirst nil node child).live
      other) hchild (by simp [Forest.detachFirst])
  rw [← heq] at hmoved
  refine ⟨hmoved, ?_⟩
  obtain ⟨rest, hrest⟩ := hmoved.children node hnode
  have hcut : child ∉ cells := (List.nodup_cons.mp hcells.chain.nodup).1
  have hchain : Chain
      ((forest.attach other child).setFirst node (forest.next child)).next
      nil (((forest.attach other child).setFirst node
        (forest.next child)).first node) cells := by
    rw [setFirst_first_self]
    exact hcells.chain.2.2.update hcut
  exact hrest.chain.unique hchain ▸ hrest

theorem Valid.detachAfter {front back : List α} {prev : α}
    (hvalid : forest.Valid nil)
    (hcells : forest.Children nil node (front ++ prev :: child :: back)) :
    (forest.detachAfter nil prev child).Valid nil := by
  have hmem : prev ∈ front ++ prev :: child :: back := by simp
  have hsplit : front ++ prev :: child :: back =
      (front ++ [prev]) ++ child :: back := by simp
  have hnodup := hcells.chain.nodup
  rw [List.nodup_middle, List.nodup_cons, List.mem_append,
    List.mem_cons, not_or, not_or] at hnodup
  obtain ⟨⟨hfront, _, hback⟩, _⟩ := hnodup
  refine hvalid.detach (hsplit ▸ hcells) rfl rfl ?_ ?_ ?_
  · rw [List.append_assoc, List.singleton_append]
    refine hcells.chain.splice (fun other hother => ?_) ?_
    · exact Function.update_of_ne (ne_of_mem_of_not_mem hother hfront) _ _
    · simp only [Forest.detachAfter, Function.update_self]
      exact hcells.chain.tail_of_split.2.2.update hback
  · exact fun _ _ => rfl
  · intro other _ hne
    refine Function.update_of_ne (fun heq => hne ?_) _ _
    rw [heq]
    exact hcells.parent_eq hmem

end OperationLemmas

end Forest

end SiblingForest
