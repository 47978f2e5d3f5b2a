/-
The family links of the task table.  Parent, first-child and next-sibling
links are pids, so the table is read as a forest over pids; creation, adoption
and reaping are the forest's own operations.
-/
import VenomOS.SiblingForest
import VenomOS.Task

namespace VenomOS

namespace Tasks

open LinkedChain SiblingForest

variable {m m' : Machine} {i j : Slot} {pid : Pid}

theorem makePid_and_mask (i : Slot) (generation : UInt64) :
    (makePid i generation &&& pidIndexFieldMask).toNat = i.val + 1 := by
  have hi : i.val < 128 := i.isLt
  have hindex : (UInt64.ofNat i.val + 1).toNat = i.val + 1 := by
    simp
    omega
  have hmask : pidIndexFieldMask.toNat = 2 ^ 8 - 1 := by decide
  have hbits : pidIndexBits.toNat % 64 = 8 := by decide
  rw [makePid, UInt64.toNat_and, UInt64.toNat_or, UInt64.toNat_shiftLeft,
    hindex, hmask, hbits, Nat.and_two_pow_sub_one_eq_mod,
    Nat.or_mod_two_pow, Nat.mod_mod_of_dvd _ (by norm_num),
    Nat.shiftLeft_eq, Nat.mul_mod_left, Nat.zero_or, Nat.mod_eq_of_lt]
  omega

theorem slotAt_makePid (i : Slot) (generation : UInt64) :
    slotAt (pidSlotIndex (makePid i generation)) = some i := by
  have hi : i.val < 128 := i.isLt
  simp only [pidSlotIndex, makePid_and_mask, slotAt]
  rw [dif_neg (by simp only [maxTasks]; omega)]
  congr
  omega

theorem makePid_ne_noPid (i : Slot) (generation : UInt64) :
    makePid i generation ≠ noPid := by
  intro hpid
  have hmask := makePid_and_mask i generation
  rw [hpid] at hmask
  simp at hmask

namespace Machine

def Live (m : Machine) (i : Slot) : Prop := (m.tasks i).state ≠ .dead

/-- Every live task carries the pid of its slot and generation. -/
def PidsMatch (m : Machine) : Prop :=
  ∀ i, m.Live i → (m.tasks i).pid = makePid i (m.tasks i).generation

theorem findByPid_noPid : m.findByPid noPid = none := by
  simp [findByPid]

theorem findByPid_spec (hfind : m.findByPid pid = some i) :
    m.Live i ∧ (m.tasks i).pid = pid := by
  unfold findByPid at hfind
  split at hfind
  · cases hfind
  · split at hfind
    · cases hfind
    · split at hfind
      · cases hfind
      · split at hfind
        · cases hfind
        · rename_i hlive hpid
          cases hfind
          exact ⟨hlive, not_not.mp hpid⟩

theorem PidsMatch.findByPid_eq (hpids : m.PidsMatch) (hlive : m.Live i) :
    m.findByPid (m.tasks i).pid = some i := by
  have hpid := hpids i hlive
  unfold findByPid
  rw [if_neg (hpid ▸ makePid_ne_noPid i _)]
  rw [congrArg pidSlotIndex hpid, slotAt_makePid]
  simp only [ne_eq, not_true_eq_false, if_false]
  exact if_neg hlive

theorem PidsMatch.findByPid_iff (hpids : m.PidsMatch) :
    m.findByPid pid = some i ↔ m.Live i ∧ (m.tasks i).pid = pid := by
  constructor
  · exact findByPid_spec
  · rintro ⟨hlive, rfl⟩
    exact hpids.findByPid_eq hlive

theorem PidsMatch.pid_inj (hpids : m.PidsMatch) (hi : m.Live i)
    (hj : m.Live j) (hpid : (m.tasks i).pid = (m.tasks j).pid) : i = j := by
  have hfind := hpids.findByPid_eq hi
  rw [hpid, hpids.findByPid_eq hj] at hfind
  exact (Option.some.inj hfind).symm

/-- A link of the task a pid names. -/
def linkOf (m : Machine) (link : Task → Pid) (pid : Pid) : Pid :=
  match m.findByPid pid with
  | some i => link (m.tasks i)
  | none => noPid

def forest (m : Machine) : Forest Pid where
  live pid := ∃ i, m.findByPid pid = some i
  parent := m.linkOf Task.parentPid
  first := m.linkOf Task.firstChild
  next := m.nextSiblingOf

theorem linkOf_eq {link : Task → Pid} (hfind : m.findByPid pid = some i) :
    m.linkOf link pid = link (m.tasks i) := by
  simp [linkOf, hfind]

theorem nextSiblingOf_eq_linkOf :
    m.nextSiblingOf = m.linkOf Task.nextSibling := rfl

theorem PidsMatch.live_iff (hpids : m.PidsMatch) :
    m.forest.live pid ↔ ∃ i, m.Live i ∧ (m.tasks i).pid = pid := by
  simp only [forest, hpids.findByPid_iff]

theorem PidsMatch.parent_iff (hpids : m.PidsMatch) {parent : Pid} :
    m.forest.live pid ∧ m.forest.parent pid = parent ↔
      ∃ i, m.Live i ∧ (m.tasks i).pid = pid ∧
        (m.tasks i).parentPid = parent := by
  constructor
  · rintro ⟨⟨i, hfind⟩, hparent⟩
    have hspec := findByPid_spec hfind
    exact ⟨i, hspec.1, hspec.2, (linkOf_eq hfind).symm.trans hparent⟩
  · rintro ⟨i, hlive, rfl, rfl⟩
    have hfind := hpids.findByPid_eq hlive
    exact ⟨⟨i, hfind⟩, linkOf_eq hfind⟩

/-- A child list has no more cells than the table has slots. -/
theorem PidsMatch.length_lt (hpids : m.PidsMatch) {cells : List Pid}
    (hnodup : cells.Nodup) (hlive : ∀ cell ∈ cells, m.forest.live cell) :
    cells.length < walkLimit := by
  have hsubset : cells ⊆
      (List.finRange maxTasks).map fun i => (m.tasks i).pid := by
    intro cell hcell
    obtain ⟨i, _, hpid⟩ := hpids.live_iff.mp (hlive cell hcell)
    exact List.mem_map.mpr ⟨i, List.mem_finRange i, hpid⟩
  have hlength := (hnodup.subperm hsubset).length_le
  rw [List.length_map, List.length_finRange] at hlength
  exact Nat.lt_succ_of_le hlength

@[simp]
theorem modify_tasks_self (m : Machine) (i : Slot) (f : Task → Task) :
    (m.modify i f).tasks i = f (m.tasks i) := by
  simp [modify]

theorem modify_tasks_of_ne (m : Machine) (f : Task → Task) (hne : j ≠ i) :
    (m.modify i f).tasks j = m.tasks j := by
  simp [modify, hne]

theorem modify_modify (m : Machine) (i : Slot) (f g : Task → Task) :
    (m.modify i f).modify i g = m.modify i (g ∘ f) := by
  simp [modify]

end Machine

/-- The task stays the same incarnation. -/
structure SameIdentity (t t' : Task) : Prop where
  pid_eq : t'.pid = t.pid
  generation_eq : t'.generation = t.generation
  dead_iff : t'.state = .dead ↔ t.state = .dead

/-- The incarnation also stays out of, or among, the zombies, and a task that
does not run any more is given nothing to own. -/
structure SameRole (t t' : Task) : Prop extends SameIdentity t t' where
  zombie_iff : t'.state = .zombie ↔ t.state = .zombie
  owned : t.state = .dead ∨ t.state = .zombie →
    t'.stackBase = t.stackBase ∧ t'.cr3 = t.cr3

structure SameLinks (t t' : Task) : Prop where
  parentPid_eq : t'.parentPid = t.parentPid
  firstChild_eq : t'.firstChild = t.firstChild
  nextSibling_eq : t'.nextSibling = t.nextSibling

/-- Nothing changes but what the scheduler reads. -/
structure SameFamily (t t' : Task) : Prop extends SameRole t t',
    SameLinks t t'

theorem SameRole.refl (t : Task) : SameRole t t :=
  ⟨⟨rfl, rfl, Iff.rfl⟩, Iff.rfl, fun _ => ⟨rfl, rfl⟩⟩

theorem SameRole.trans {t t' t'' : Task} (hleft : SameRole t t')
    (hright : SameRole t' t'') : SameRole t t'' where
  pid_eq := hright.pid_eq.trans hleft.pid_eq
  generation_eq := hright.generation_eq.trans hleft.generation_eq
  dead_iff := hright.dead_iff.trans hleft.dead_iff
  zombie_iff := hright.zombie_iff.trans hleft.zombie_iff
  owned hgone := by
    have hgone' := hgone
    rw [← hleft.dead_iff, ← hleft.zombie_iff] at hgone'
    obtain ⟨hstack, hcr3⟩ := hright.owned hgone'
    obtain ⟨hstack', hcr3'⟩ := hleft.owned hgone
    exact ⟨hstack.trans hstack', hcr3.trans hcr3'⟩

theorem SameFamily.refl (t : Task) : SameFamily t t :=
  ⟨SameRole.refl t, rfl, rfl, rfl⟩

theorem SameFamily.trans {t t' t'' : Task} (hleft : SameFamily t t')
    (hright : SameFamily t' t'') : SameFamily t t'' where
  toSameRole := hleft.toSameRole.trans hright.toSameRole
  parentPid_eq := hright.parentPid_eq.trans hleft.parentPid_eq
  firstChild_eq := hright.firstChild_eq.trans hleft.firstChild_eq
  nextSibling_eq := hright.nextSibling_eq.trans hleft.nextSibling_eq

namespace Machine

variable {f : Task → Task}

/-- A relation between tasks holds slot by slot after an update that respects
it. -/
theorem modify_rel {R : Task → Task → Prop} (hrefl : ∀ t, R t t)
    (hupdate : R (m.tasks i) (f (m.tasks i))) (j : Slot) :
    R (m.tasks j) ((m.modify i f).tasks j) := by
  by_cases hj : j = i
  · rw [hj, modify_tasks_self]
    exact hupdate
  · rw [modify_tasks_of_ne m f hj]
    exact hrefl _

theorem setParentPid_role (m : Machine) (i : Slot) (pid : Pid) (j : Slot) :
    SameRole (m.tasks j) ((m.setParentPid i pid).tasks j) :=
  modify_rel SameRole.refl
    ⟨⟨rfl, rfl, Iff.rfl⟩, Iff.rfl, fun _ => ⟨rfl, rfl⟩⟩ j

theorem setFirstChild_role (m : Machine) (i : Slot) (pid : Pid) (j : Slot) :
    SameRole (m.tasks j) ((m.setFirstChild i pid).tasks j) :=
  modify_rel SameRole.refl
    ⟨⟨rfl, rfl, Iff.rfl⟩, Iff.rfl, fun _ => ⟨rfl, rfl⟩⟩ j

theorem setNextSibling_role (m : Machine) (i : Slot) (pid : Pid) (j : Slot) :
    SameRole (m.tasks j) ((m.setNextSibling i pid).tasks j) :=
  modify_rel SameRole.refl
    ⟨⟨rfl, rfl, Iff.rfl⟩, Iff.rfl, fun _ => ⟨rfl, rfl⟩⟩ j

section

variable (hsame : ∀ i, SameIdentity (m.tasks i) (m'.tasks i))

include hsame

theorem findByPid_congr :
    m'.findByPid = m.findByPid := by
  funext pid
  unfold findByPid
  split
  · rfl
  · split
    · rfl
    · rename_i i _
      simp only [(hsame i).pid_eq, (hsame i).dead_iff]

theorem PidsMatch.congr (hpids : m.PidsMatch) : m'.PidsMatch := by
  intro i hlive
  have hlive' : m.Live i := fun hdead => hlive ((hsame i).dead_iff.mpr hdead)
  rw [(hsame i).pid_eq, (hsame i).generation_eq]
  exact hpids i hlive'

/-- A link that no task changes. -/
theorem linkOf_congr {link : Task → Pid}
    (hlink : ∀ i, link (m'.tasks i) = link (m.tasks i)) :
    m'.linkOf link = m.linkOf link := by
  funext pid
  unfold linkOf
  rw [findByPid_congr hsame]
  cases m.findByPid pid with
  | none => rfl
  | some i => exact hlink i

end

section

variable (hpids : m.PidsMatch) (hlive : m.Live i)

include hpids hlive

variable {link : Task → Pid} {f : Task → Task}

theorem PidsMatch.linkOf_modify
    (hsame : SameIdentity (m.tasks i) (f (m.tasks i))) :
    (m.modify i f).linkOf link =
      Function.update (m.linkOf link) (m.tasks i).pid
        (link (f (m.tasks i))) := by
  have hfinds : (m.modify i f).findByPid = m.findByPid :=
    findByPid_congr (modify_rel (fun _ => ⟨rfl, rfl, Iff.rfl⟩) hsame)
  funext pid
  unfold linkOf
  rw [hfinds]
  by_cases hpid : pid = (m.tasks i).pid
  · rw [hpid, hpids.findByPid_eq hlive, Function.update_self]
    simp only [modify_tasks_self]
  · rw [Function.update_of_ne hpid]
    cases hfind : m.findByPid pid with
    | none => rfl
    | some j =>
        have hj : j ≠ i := fun heq =>
          hpid (heq ▸ (findByPid_spec hfind).2.symm)
        simp only [modify_tasks_of_ne m f hj]

theorem PidsMatch.linkOf_pid :
    m.linkOf link (m.tasks i).pid = link (m.tasks i) :=
  linkOf_eq (hpids.findByPid_eq hlive)

/-- Writing back the value a link has. -/
theorem PidsMatch.update_linkOf :
    Function.update (m.linkOf link) (m.tasks i).pid (link (m.tasks i)) =
      m.linkOf link := by
  have hlink : m.linkOf link (m.tasks i).pid = link (m.tasks i) :=
    hpids.linkOf_pid hlive
  rw [← hlink, Function.update_eq_self]

theorem PidsMatch.forest_modify
    (hsame : SameIdentity (m.tasks i) (f (m.tasks i))) :
    (m.modify i f).forest =
      ((m.forest.setParent (m.tasks i).pid (f (m.tasks i)).parentPid).setFirst
        (m.tasks i).pid (f (m.tasks i)).firstChild).setNext
          (m.tasks i).pid (f (m.tasks i)).nextSibling := by
  have hfinds : (m.modify i f).findByPid = m.findByPid :=
    findByPid_congr (modify_rel (fun _ => ⟨rfl, rfl, Iff.rfl⟩) hsame)
  simp only [forest, nextSiblingOf_eq_linkOf, Forest.setParent,
    Forest.setFirst, Forest.setNext, hpids.linkOf_modify hlive hsame, hfinds]

theorem PidsMatch.forest_setParentPid (value : Pid) :
    (m.setParentPid i value).forest =
      m.forest.setParent (m.tasks i).pid value := by
  rw [setParentPid, hpids.forest_modify hlive ⟨rfl, rfl, Iff.rfl⟩]
  simp only [forest, nextSiblingOf_eq_linkOf, Forest.setParent,
    Forest.setFirst, Forest.setNext, hpids.update_linkOf hlive]

theorem PidsMatch.forest_setFirstChild (value : Pid) :
    (m.setFirstChild i value).forest =
      m.forest.setFirst (m.tasks i).pid value := by
  rw [setFirstChild, hpids.forest_modify hlive ⟨rfl, rfl, Iff.rfl⟩]
  simp only [forest, nextSiblingOf_eq_linkOf, Forest.setParent,
    Forest.setFirst, Forest.setNext, hpids.update_linkOf hlive]

theorem PidsMatch.forest_setNextSibling (value : Pid) :
    (m.setNextSibling i value).forest =
      m.forest.setNext (m.tasks i).pid value := by
  rw [setNextSibling, hpids.forest_modify hlive ⟨rfl, rfl, Iff.rfl⟩]
  simp only [forest, nextSiblingOf_eq_linkOf, Forest.setParent,
    Forest.setFirst, Forest.setNext, hpids.update_linkOf hlive]

end

theorem forest_congr
    (hsame : ∀ i, SameIdentity (m.tasks i) (m'.tasks i))
    (hlinks : ∀ i, SameLinks (m.tasks i) (m'.tasks i)) :
    m'.forest = m.forest := by
  simp only [forest, nextSiblingOf_eq_linkOf, findByPid_congr hsame,
    linkOf_congr hsame fun i => (hlinks i).parentPid_eq,
    linkOf_congr hsame fun i => (hlinks i).firstChild_eq,
    linkOf_congr hsame fun i => (hlinks i).nextSibling_eq]

theorem SameIdentity.live (hsame : SameIdentity (m.tasks i) (m'.tasks i))
    (hlive : m.Live i) : m'.Live i :=
  fun hdead => hlive (hsame.dead_iff.mp hdead)

/-- A field that an update of one task keeps. -/
theorem modify_proj {β : Type} (g : Task → β)
    (hg : g (f (m.tasks i)) = g (m.tasks i)) (j : Slot) :
    g ((m.modify i f).tasks j) = g (m.tasks j) :=
  modify_rel (R := fun t t' => g t' = g t) (fun _ => rfl) hg j

theorem addChild_role (m : Machine) (p child j : Slot) :
    SameRole (m.tasks j) ((m.addChild p child).tasks j) :=
  (setNextSibling_role m child _ j).trans (setFirstChild_role _ p _ j)

theorem PidsMatch.forest_addChild {p child : Slot} (hpids : m.PidsMatch)
    (hp : m.Live p) (hchild : m.Live child) :
    (m.addChild p child).forest =
      (m.forest.setNext (m.tasks child).pid (m.tasks p).firstChild).setFirst
        (m.tasks p).pid (m.tasks child).pid := by
  have hrole := setNextSibling_role m child (m.tasks p).firstChild
  have hsame := fun j => (hrole j).toSameIdentity
  rw [addChild, (hpids.congr hsame).forest_setFirstChild
    (SameIdentity.live (hsame p) hp), hpids.forest_setNextSibling hchild,
    (hrole p).pid_eq, (hrole child).pid_eq]

/-- A live task that gets a parent and is put on the parent's list. -/
theorem PidsMatch.forest_link {p child : Slot} (hpids : m.PidsMatch)
    (hp : m.Live p) (hchild : m.Live child) :
    (((m.setParentPid child (m.tasks p).pid).setNextSibling child
      noPid).addChild p child).forest =
        m.forest.attach (m.tasks p).pid (m.tasks child).pid := by
  have hparent := setParentPid_role m child (m.tasks p).pid
  have hrole := fun j => (hparent j).trans
    (setNextSibling_role _ child noPid j)
  have hsame := fun j => (hrole j).toSameIdentity
  have hpids' := hpids.congr fun j => (hparent j).toSameIdentity
  have hchild' := SameIdentity.live (hparent child).toSameIdentity hchild
  have hfirst : (((m.setParentPid child (m.tasks p).pid).setNextSibling child
      noPid).tasks p).firstChild = (m.tasks p).firstChild :=
    (modify_proj Task.firstChild rfl p).trans
      (modify_proj Task.firstChild rfl p)
  rw [(hpids.congr hsame).forest_addChild (SameIdentity.live (hsame p) hp)
    (SameIdentity.live (hsame child) hchild),
    hpids'.forest_setNextSibling hchild', hpids.forest_setParentPid hchild,
    (hrole p).pid_eq, (hrole child).pid_eq, (hparent child).pid_eq, hfirst]
  have hlink : m.forest.first (m.tasks p).pid = (m.tasks p).firstChild :=
    hpids.linkOf_pid hp
  simp [Forest.attach, Forest.setParent, Forest.setNext, Forest.setFirst,
    hlink]

structure Roster (m : Machine) : Prop where
  pids : m.PidsMatch
  childless : ∀ i j, (m.tasks i).state = .zombie → m.Live j →
    (m.tasks j).parentPid ≠ (m.tasks i).pid
  stripped : ∀ i, (m.tasks i).state = .dead ∨ (m.tasks i).state = .zombie →
    (m.tasks i).stackBase = 0 ∧ (m.tasks i).cr3 = 0

structure Family (m : Machine) : Prop extends Roster m where
  valid : m.forest.Valid noPid

/-- Every zombie is some task's child. -/
def Claimed (m : Machine) : Prop :=
  ∀ i, (m.tasks i).state = .zombie → (m.tasks i).parentPid ≠ noPid

theorem Claimed.congr (hclaimed : m.Claimed)
    (hkeeps : ∀ i, (m'.tasks i).state = .zombie →
      (m'.tasks i).parentPid ≠ noPid ∨ (m.tasks i).state = .zombie ∧
        (m'.tasks i).parentPid = (m.tasks i).parentPid) : m'.Claimed := by
  intro i hzombie
  rcases hkeeps i hzombie with hparent | ⟨hzombie', hparent⟩
  · exact hparent
  · rw [hparent]
    exact hclaimed i hzombie'

theorem Claimed.family (hclaimed : m.Claimed)
    (hsame : ∀ i, SameFamily (m.tasks i) (m'.tasks i)) : m'.Claimed :=
  hclaimed.congr fun i hzombie =>
    Or.inr ⟨(hsame i).zombie_iff.mp hzombie, (hsame i).parentPid_eq⟩

/-- New parents are not zombies. -/
theorem Roster.congr (hroster : m.Roster)
    (hsame : ∀ i, SameRole (m.tasks i) (m'.tasks i))
    (hparent : ∀ j, m.Live j →
      (m'.tasks j).parentPid = (m.tasks j).parentPid ∨
        ∀ i, (m.tasks i).state = .zombie →
          (m'.tasks j).parentPid ≠ (m.tasks i).pid) : m'.Roster where
  pids := hroster.pids.congr fun i => (hsame i).toSameIdentity
  childless i j hzombie hlive := by
    rw [(hsame i).pid_eq]
    have hzombie' := (hsame i).zombie_iff.mp hzombie
    have hlive' : m.Live j := fun hdead =>
      hlive ((hsame j).dead_iff.mpr hdead)
    rcases hparent j hlive' with hkept | hnew
    · rw [hkept]
      exact hroster.childless i j hzombie' hlive'
    · exact hnew i hzombie'
  stripped i hstate := by
    rw [(hsame i).dead_iff, (hsame i).zombie_iff] at hstate
    obtain ⟨hstack, hcr3⟩ := (hsame i).owned hstate
    rw [hstack, hcr3]
    exact hroster.stripped i hstate

theorem Family.congr (hfamily : m.Family)
    (hsame : ∀ i, SameFamily (m.tasks i) (m'.tasks i)) : m'.Family where
  toRoster := hfamily.toRoster.congr (fun i => (hsame i).toSameRole)
    fun j _ => Or.inl (hsame j).parentPid_eq
  valid := by
    rw [forest_congr (fun i => (hsame i).toSameIdentity)
      fun i => (hsame i).toSameLinks]
    exact hfamily.valid

end Machine

end Tasks

end VenomOS
