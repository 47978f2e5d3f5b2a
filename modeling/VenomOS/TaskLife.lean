/-
Birth, adoption, reaping and death of tasks keep the family links valid.
-/
import VenomOS.TaskFamily

namespace VenomOS

namespace Tasks

open LinkedChain SiblingForest

namespace Machine

variable {m m' : Machine} {i j p child : Slot} {pid : Pid}

/-- Nothing outside the table changes. -/
def OnlyTasks (m m' : Machine) : Prop := m' = { m with tasks := m'.tasks }

theorem OnlyTasks.refl (m : Machine) : OnlyTasks m m := rfl

theorem OnlyTasks.trans {m'' : Machine} (hleft : OnlyTasks m m')
    (hright : OnlyTasks m' m'') : OnlyTasks m m'' := by
  rw [OnlyTasks, hright, hleft]

theorem OnlyTasks.current_eq (honly : OnlyTasks m m') :
    m'.current = m.current := by
  rw [honly]

theorem OnlyTasks.initPid_eq (honly : OnlyTasks m m') :
    m'.initPid = m.initPid := by
  rw [honly]

/-- The assignments by which a task becomes the first child of another. -/
def link (m : Machine) (p child : Slot) : Machine :=
  ((m.setParentPid child (m.tasks p).pid).setNextSibling child
    noPid).addChild p child

theorem link_role (m : Machine) (p child j : Slot) :
    SameRole (m.tasks j) ((m.link p child).tasks j) :=
  ((setParentPid_role m child _ j).trans
    (setNextSibling_role _ child _ j)).trans (addChild_role _ p child j)

@[simp]
theorem setFirstChild_parentPid (m : Machine) (i : Slot) (pid : Pid)
    (j : Slot) :
    ((m.setFirstChild i pid).tasks j).parentPid = (m.tasks j).parentPid :=
  modify_proj Task.parentPid rfl j

@[simp]
theorem setNextSibling_parentPid (m : Machine) (i : Slot) (pid : Pid)
    (j : Slot) :
    ((m.setNextSibling i pid).tasks j).parentPid = (m.tasks j).parentPid :=
  modify_proj Task.parentPid rfl j

theorem setParentPid_parentPid (m : Machine) (i : Slot) (pid : Pid)
    (j : Slot) :
    ((m.setParentPid i pid).tasks j).parentPid =
      if j = i then pid else (m.tasks j).parentPid := by
  by_cases hj : j = i
  · rw [if_pos hj, hj, setParentPid, modify_tasks_self]
  · rw [if_neg hj, setParentPid, modify_tasks_of_ne _ _ hj]

theorem link_parentPid (m : Machine) (p child j : Slot) :
    ((m.link p child).tasks j).parentPid =
      if j = child then (m.tasks p).pid else (m.tasks j).parentPid := by
  simp [link, addChild, setParentPid_parentPid]

theorem Claimed.link (hclaimed : m.Claimed)
    (hp : (m.tasks p).pid ≠ noPid) : (m.link p child).Claimed := by
  refine hclaimed.congr fun j hzombie => ?_
  rw [link_parentPid]
  by_cases hj : j = child
  · rw [if_pos hj]
    exact Or.inl hp
  · exact Or.inr ⟨(link_role m p child j).zombie_iff.mp hzombie, if_neg hj⟩

theorem Roster.link (hroster : m.Roster) (hp : m.Live p)
    (hzombie : (m.tasks p).state ≠ .zombie) : (m.link p child).Roster := by
  refine hroster.congr (link_role m p child) fun j _ => ?_
  rw [link_parentPid]
  by_cases hj : j = child
  · refine Or.inr fun i hi => ?_
    rw [if_pos hj]
    intro hpid
    have hlive : m.Live i := fun hdead => by simp [hdead] at hi
    rw [hroster.pids.pid_inj hp hlive hpid] at hzombie
    exact hzombie hi
  · exact Or.inl (if_neg hj)

theorem Family.link (hfamily : m.Family) (hp : m.Live p)
    (hzombie : (m.tasks p).state ≠ .zombie) (hchild : m.Live child)
    (hroot : (m.tasks child).parentPid = noPid) :
    (m.link p child).Family where
  toRoster := hfamily.toRoster.link hp hzombie
  valid := by
    have hpids := hfamily.pids
    rw [Machine.link, hpids.forest_link hp hchild]
    exact hfamily.valid.attach (hpids.live_iff.mpr ⟨p, hp, rfl⟩)
      (hpids.live_iff.mpr ⟨child, hchild, rfl⟩)
      ((hpids.linkOf_pid hchild).trans hroot)

theorem Family.children (hfamily : m.Family) (hp : m.Live p) :
    ∃ cells, m.forest.Children noPid (m.tasks p).pid cells :=
  hfamily.valid.children _ (hfamily.pids.live_iff.mpr ⟨p, hp, rfl⟩)

/-- The walk of `remove_child` stops at the task in front of the child. -/
theorem Family.walk_to_prev (hfamily : m.Family) {front back : List Pid}
    {prevPid childPid : Pid} (hp : m.Live p)
    (hcells : m.forest.Children noPid (m.tasks p).pid
      (front ++ prevPid :: childPid :: back)) :
    walkUntil m.nextSiblingOf (m.precedes childPid) walkLimit
      (m.tasks p).firstChild = some prevPid := by
  have hpids := hfamily.pids
  have hnodup := hcells.chain.nodup
  have hfirst : m.forest.first (m.tasks p).pid = (m.tasks p).firstChild :=
    hpids.linkOf_pid hp
  have hchain := hcells.chain
  rw [hfirst] at hchain
  have hlength := hpids.length_lt hnodup fun cell hcell => hcells.live hcell
  refine walkUntil_eq_of_split hchain (fun other hother => ?_) ?_ ?_
  · obtain ⟨k, hfind⟩ := hcells.live (List.mem_append_left _ hother)
    have hnext : m.nextSiblingOf other ∈ front ++ [prevPid] :=
      hchain.next_mem hother
    rw [nextSiblingOf_eq_linkOf, linkOf_eq hfind] at hnext
    simp only [precedes, hfind, beq_eq_false_iff_ne]
    intro heq
    rw [heq] at hnext
    have hsplit : front ++ prevPid :: childPid :: back =
        (front ++ [prevPid]) ++ childPid :: back := by simp
    rw [hsplit, List.nodup_middle, List.nodup_cons] at hnodup
    exact hnodup.1 (List.mem_append_left _ hnext)
  · obtain ⟨k, hfind⟩ : m.forest.live prevPid :=
      hcells.live (by simp)
    have hnext : m.nextSiblingOf prevPid = childPid :=
      hchain.tail_of_split.1
    rw [nextSiblingOf_eq_linkOf, linkOf_eq hfind] at hnext
    simp [precedes, hfind, hnext]
  · simp only [List.length_append, List.length_cons] at hlength
    omega

/-- What `remove_child` does with a child of the task. -/
structure Unlinked (m m' : Machine) (child : Slot) : Prop where
  onlyTasks : OnlyTasks m m'
  role : ∀ j, SameRole (m.tasks j) (m'.tasks j)
  parentPid_eq : ∀ j, (m'.tasks j).parentPid = (m.tasks j).parentPid
  valid : (m'.setParentPid child noPid).forest.Valid noPid

theorem Family.removeChild (hfamily : m.Family) (hp : m.Live p)
    (hchild : m.Live child)
    (hparent : (m.tasks child).parentPid = (m.tasks p).pid) :
    ∃ m', m.removeChild p (m.tasks child).pid = some m' ∧
      Unlinked m m' child := by
  have hpids := hfamily.pids
  obtain ⟨cells, hcells⟩ := hfamily.children hp
  have hmem : (m.tasks child).pid ∈ cells := by
    rw [hcells.mem_iff]
    exact hpids.parent_iff.mpr ⟨child, hchild, rfl, hparent⟩
  have hfirst : m.forest.first (m.tasks p).pid = (m.tasks p).firstChild :=
    hpids.linkOf_pid hp
  obtain ⟨front, back, rfl⟩ := List.append_of_mem hmem
  rcases List.eq_nil_or_concat front with rfl | ⟨front, prevPid, rfl⟩
  · refine ⟨m.setFirstChild p (m.nextSiblingOf (m.tasks child).pid),
      ?_, rfl, setFirstChild_role m p _,
      setFirstChild_parentPid m p _, ?_⟩
    · rw [Machine.removeChild, if_pos]
      exact hfirst.symm.trans hcells.chain.1
    · have hrole := setFirstChild_role m p
        (m.nextSiblingOf (m.tasks child).pid)
      rw [(hpids.congr fun j =>
          (hrole j).toSameIdentity).forest_setParentPid
          (SameIdentity.live (hrole child).toSameIdentity hchild),
        hpids.forest_setFirstChild hp, (hrole child).pid_eq]
      exact hfamily.valid.detachFirst hcells
  · rw [List.concat_eq_append, List.append_assoc,
      List.singleton_append] at hcells
    have hwalk := hfamily.walk_to_prev hp hcells
    obtain ⟨prev, hfind⟩ : m.forest.live prevPid := hcells.live (by simp)
    obtain ⟨hprev, hprevPid⟩ := findByPid_spec hfind
    refine ⟨m.setNextSibling prev (m.nextSiblingOf (m.tasks child).pid),
      ?_, rfl, setNextSibling_role m prev _,
      setNextSibling_parentPid m prev _, ?_⟩
    · have hne : (m.tasks p).firstChild ≠ (m.tasks child).pid := by
        intro heq
        have hnodup := hcells.chain.nodup
        have hhead := hcells.chain
        rw [hfirst, heq] at hhead
        cases front with
        | nil =>
            rw [← hhead.1] at hnodup
            simp at hnodup
        | cons cell rest =>
            rw [← hhead.1] at hnodup
            simp at hnodup
      rw [Machine.removeChild, if_neg hne, hwalk]
      simp only [hfind]
    · have hrole := setNextSibling_role m prev
        (m.nextSiblingOf (m.tasks child).pid)
      rw [(hpids.congr fun j =>
          (hrole j).toSameIdentity).forest_setParentPid
          (SameIdentity.live (hrole child).toSameIdentity hchild),
        hpids.forest_setNextSibling hprev, (hrole child).pid_eq, hprevPid]
      exact hfamily.valid.detachAfter hcells

theorem PidsMatch.pid_ne_noPid (hpids : m.PidsMatch) (hlive : m.Live i) :
    (m.tasks i).pid ≠ noPid := by
  rw [hpids i hlive]
  exact makePid_ne_noPid i _

theorem live_of_zombie (hzombie : (m.tasks i).state = .zombie) : m.Live i := by
  simp [Live, hzombie]

theorem Unlinked.family (hunlinked : Unlinked m m' child)
    (hroster : m.Roster) : (m'.setParentPid child noPid).Family where
  toRoster := by
    refine hroster.congr (fun j => (hunlinked.role j).trans
      (setParentPid_role m' child noPid j)) fun j _ => ?_
    rw [setParentPid_parentPid, hunlinked.parentPid_eq]
    by_cases hj : j = child
    · refine Or.inr fun i hi => ?_
      rw [if_pos hj]
      exact (hroster.pids.pid_ne_noPid (live_of_zombie hi)).symm
    · exact Or.inl (if_neg hj)
  valid := hunlinked.valid

theorem PidsMatch.agree {forest : Forest Pid} (hpids : m.PidsMatch)
    (hlive : ∀ node, m.forest.live node ↔ forest.live node)
    (hlinks : ∀ i, m.Live i →
      forest.parent (m.tasks i).pid = (m.tasks i).parentPid ∧
      forest.first (m.tasks i).pid = (m.tasks i).firstChild ∧
      forest.next (m.tasks i).pid = (m.tasks i).nextSibling) :
    forest.Agree m.forest := by
  have hread : ∀ node, forest.live node →
      ∃ i, m.Live i ∧ (m.tasks i).pid = node := fun node hnode =>
    hpids.live_iff.mp ((hlive node).mpr hnode)
  refine ⟨hlive, fun node hnode => ?_, fun node hnode => ?_,
    fun node hnode => ?_⟩
  · obtain ⟨i, hi, rfl⟩ := hread node hnode
    exact (hpids.linkOf_pid hi).trans (hlinks i hi).1.symm
  · obtain ⟨i, hi, rfl⟩ := hread node hnode
    exact (hpids.linkOf_pid hi).trans (hlinks i hi).2.1.symm
  · obtain ⟨i, hi, rfl⟩ := hread node hnode
    exact (hpids.linkOf_pid hi).trans (hlinks i hi).2.2.symm

@[simp]
theorem setState_tasks_self (m : Machine) (i : Slot) (state : State) :
    (m.setState i state).tasks i = { m.tasks i with state := state } :=
  modify_tasks_self m i _

theorem setState_tasks_of_ne (m : Machine) (state : State) (hne : j ≠ i) :
    (m.setState i state).tasks j = m.tasks j :=
  modify_tasks_of_ne m _ hne

theorem setState_links (m : Machine) (i : Slot) (state : State) (j : Slot) :
    SameLinks (m.tasks j) ((m.setState i state).tasks j) :=
  modify_rel (fun _ => ⟨rfl, rfl, rfl⟩) ⟨rfl, rfl, rfl⟩ j

theorem setState_dead_live :
    (m.setState child .dead).Live j ↔ m.Live j ∧ j ≠ child := by
  by_cases hj : j = child
  · subst hj
    simp [Live]
  · simp [Live, setState_tasks_of_ne m .dead hj, hj]

theorem Family.bury (hfamily : m.Family) (hlive : m.Live child)
    (hroot : (m.tasks child).parentPid = noPid)
    (hchildless : ∀ j, m.Live j →
      (m.tasks j).parentPid ≠ (m.tasks child).pid)
    (hstripped : (m.tasks child).stackBase = 0 ∧ (m.tasks child).cr3 = 0) :
    (m.setState child .dead).Family := by
  have hpids := hfamily.pids
  have htasks : ∀ j, (m.setState child .dead).Live j →
      (m.setState child .dead).tasks j = m.tasks j := fun j hj =>
    setState_tasks_of_ne m .dead (setState_dead_live.mp hj).2
  have hpids' : (m.setState child .dead).PidsMatch := by
    intro j hj
    rw [htasks j hj]
    exact hpids j (setState_dead_live.mp hj).1
  refine ⟨⟨hpids', fun i j hi hj => ?_, fun i hi => ?_⟩, ?_⟩
  · have hlive' := live_of_zombie hi
    rw [htasks i hlive'] at hi ⊢
    rw [htasks j hj]
    exact hfamily.childless i j hi (setState_dead_live.mp hj).1
  · by_cases hne : i = child
    · subst hne
      rw [setState_tasks_self]
      exact hstripped
    · rw [setState_tasks_of_ne m .dead hne] at hi ⊢
      exact hfamily.stripped i hi
  · have hvalid : (m.forest.bury (m.tasks child).pid).Valid noPid := by
      refine hfamily.valid.bury ((hpids.linkOf_pid hlive).trans hroot) ?_
      rintro node hnode hparent
      obtain ⟨j, hj, _, hparent'⟩ := hpids.parent_iff.mp ⟨hnode, hparent⟩
      exact hchildless j hj hparent'
    refine hvalid.agree (hpids'.agree (fun node => ?_) fun i hi => ?_)
    · change _ ↔ m.forest.live node ∧ node ≠ (m.tasks child).pid
      rw [hpids'.live_iff, hpids.live_iff]
      constructor
      · rintro ⟨i, hi, hpid⟩
        rw [htasks i hi] at hpid
        obtain ⟨hi', hne⟩ := setState_dead_live.mp hi
        refine ⟨⟨i, hi', hpid⟩, fun heq => hne ?_⟩
        exact hpids.pid_inj hi' hlive (hpid.trans heq)
      · rintro ⟨⟨i, hi, rfl⟩, hne⟩
        have hi' : (m.setState child .dead).Live i :=
          setState_dead_live.mpr ⟨hi, fun heq => hne (by rw [heq])⟩
        exact ⟨i, hi', by rw [htasks i hi']⟩
    · have hi' := (setState_dead_live.mp hi).1
      rw [htasks i hi]
      exact ⟨hpids.linkOf_pid hi', hpids.linkOf_pid hi',
        hpids.linkOf_pid hi'⟩

theorem Family.zombify (hfamily : m.Family) (hlive : m.Live child)
    (hchildless : ∀ j, m.Live j →
      (m.tasks j).parentPid ≠ (m.tasks child).pid)
    (hstripped : (m.tasks child).stackBase = 0 ∧ (m.tasks child).cr3 = 0) :
    (m.setState child .zombie).Family := by
  have hsame : ∀ j, SameIdentity (m.tasks j)
      ((m.setState child .zombie).tasks j) :=
    modify_rel (fun _ => ⟨rfl, rfl, Iff.rfl⟩)
      ⟨rfl, rfl, iff_of_false (by simp) hlive⟩
  have hlinks := setState_links m child .zombie
  refine ⟨⟨hfamily.pids.congr hsame, fun i j hi hj => ?_, fun i hi => ?_⟩,
    ?_⟩
  · have hj' : m.Live j := fun hdead => hj ((hsame j).dead_iff.mpr hdead)
    rw [(hsame i).pid_eq, (hlinks j).parentPid_eq]
    by_cases hne : i = child
    · rw [hne]
      exact hchildless j hj'
    · rw [setState_tasks_of_ne m .zombie hne] at hi
      exact hfamily.childless i j hi hj'
  · by_cases hne : i = child
    · subst hne
      rw [setState_tasks_self]
      exact hstripped
    · rw [setState_tasks_of_ne m .zombie hne] at hi ⊢
      exact hfamily.stripped i hi
  · rw [forest_congr hsame hlinks]
    exact hfamily.valid

/-- A new incarnation before it has a parent. -/
def born (m : Machine) (slot : Slot) (entry : EntryFn) (stack : Nat) :
    Machine :=
  (((m.incarnate slot entry stack).setParentPid slot noPid).setFirstChild slot
    noPid).setNextSibling slot noPid

section Creation

variable {slot : Slot} {entry : EntryFn} {stack : Nat} {name : String}

theorem born_tasks_self (m : Machine) (slot : Slot) (entry : EntryFn)
    (stack : Nat) :
    (m.born slot entry stack).tasks slot =
      { m.tasks slot with
        state := .new
        stackBase := stack
        entry := entry
        generation := (m.tasks slot).generation + 1
        pid := makePid slot ((m.tasks slot).generation + 1)
        parentPid := noPid
        firstChild := noPid
        nextSibling := noPid } := by
  simp [born, incarnate, setParentPid, setFirstChild, setNextSibling]

theorem born_tasks_of_ne (hne : i ≠ slot) :
    (m.born slot entry stack).tasks i = m.tasks i := by
  simp [born, incarnate, setParentPid, setFirstChild, setNextSibling,
    modify_tasks_of_ne _ _ hne]

theorem born_live : (m.born slot entry stack).Live i ↔ i = slot ∨ m.Live i := by
  by_cases hi : i = slot
  · simp [hi, Live, born_tasks_self]
  · simp [hi, Live, born_tasks_of_ne hi]

theorem Family.born (hfamily : m.Family)
    (hdead : (m.tasks slot).state = .dead) :
    (m.born slot entry stack).Family := by
  have hpids := hfamily.pids
  have hold : ∀ i, m.Live i → i ≠ slot := fun i hi heq => hi (heq ▸ hdead)
  have hpids' : (m.born slot entry stack).PidsMatch := by
    intro i hi
    rcases born_live.mp hi with rfl | hlive
    · simp [born_tasks_self]
    · rw [born_tasks_of_ne (hold i hlive)]
      exact hpids i hlive
  have hnew : ∀ i, m.Live i → (m.tasks i).pid ≠
      makePid slot ((m.tasks slot).generation + 1) := by
    intro i hi hpid
    have hslot := congrArg (fun pid => slotAt (pidSlotIndex pid)) hpid
    simp only [hpids i hi, slotAt_makePid, Option.some.injEq] at hslot
    exact hold i hi hslot
  refine ⟨⟨hpids', fun i j hi hj => ?_, fun i hi => ?_⟩, ?_⟩
  · have hne : i ≠ slot := fun heq => by simp [heq, born_tasks_self] at hi
    rw [born_tasks_of_ne hne] at hi ⊢
    rcases born_live.mp hj with rfl | hlive
    · rw [born_tasks_self]
      exact (hpids.pid_ne_noPid (live_of_zombie hi)).symm
    · rw [born_tasks_of_ne (hold j hlive)]
      exact hfamily.childless i j hi hlive
  · have hne : i ≠ slot := fun heq => by simp [heq, born_tasks_self] at hi
    rw [born_tasks_of_ne hne] at hi ⊢
    exact hfamily.stripped i hi
  · have hvalid : (m.forest.spawn noPid
        (makePid slot ((m.tasks slot).generation + 1))).Valid noPid := by
      refine hfamily.valid.spawn (fun hlive => ?_) (makePid_ne_noPid slot _)
      obtain ⟨i, hi, hpid⟩ := hpids.live_iff.mp hlive
      exact hnew i hi hpid
    refine hvalid.agree (hpids'.agree (fun node => ?_) fun i hi => ?_)
    · change _ ↔ node = _ ∨ m.forest.live node
      rw [hpids'.live_iff, hpids.live_iff]
      constructor
      · rintro ⟨i, hi, rfl⟩
        rcases born_live.mp hi with rfl | hlive
        · exact Or.inl (by rw [born_tasks_self])
        · rw [born_tasks_of_ne (hold i hlive)]
          exact Or.inr ⟨i, hlive, rfl⟩
      · rintro (rfl | ⟨i, hi, rfl⟩)
        · exact ⟨slot, born_live.mpr (Or.inl rfl), by rw [born_tasks_self]⟩
        · exact ⟨i, born_live.mpr (Or.inr hi),
            by rw [born_tasks_of_ne (hold i hi)]⟩
    · rcases born_live.mp hi with rfl | hlive
      · simp [born_tasks_self, Forest.spawn]
      · rw [born_tasks_of_ne (hold i hlive)]
        simp only [Forest.spawn, Function.update_of_ne (hnew i hlive)]
        exact ⟨hpids.linkOf_pid hlive, hpids.linkOf_pid hlive,
          hpids.linkOf_pid hlive⟩

theorem fillSlot_eq (hcurrent : m.current = some p) (hne : p ≠ slot) :
    m.fillSlot slot entry name stack =
      ((m.born slot entry stack).link p slot).modify slot fun t =>
        { t with exitCode := 0, wakeTick := 0, name := name } := by
  have hpid : (m.incarnate slot entry stack).currentPid =
      ((m.born slot entry stack).tasks p).pid := by
    rw [born_tasks_of_ne hne]
    simp [currentPid, incarnate, modify, hcurrent, hne]
  have hset : (((m.incarnate slot entry stack).setParentPid slot
      (m.incarnate slot entry stack).currentPid).setFirstChild slot
        noPid).setNextSibling slot noPid =
      ((m.born slot entry stack).setParentPid slot
        ((m.born slot entry stack).tasks p).pid).setNextSibling slot noPid := by
    rw [hpid]
    simp [Machine.born, setParentPid, setFirstChild, setNextSibling, modify]
  have hparent : (((m.born slot entry stack).setParentPid slot
      ((m.born slot entry stack).tasks p).pid).setNextSibling slot
        noPid).current = some p := hcurrent
  simp only [fillSlot, hset, hparent, link]

/-- A free slot now holds a ready task, and the other tasks are as before. -/
structure Created (m m' : Machine) (slot : Slot) : Prop where
  family : m'.Family
  onlyTasks : OnlyTasks m m'
  dead : (m.tasks slot).state = .dead
  ready : (m'.tasks slot).state = .ready
  role : ∀ j, j ≠ slot → SameRole (m.tasks j) (m'.tasks j)
  state_eq : ∀ j, j ≠ slot → (m'.tasks j).state = (m.tasks j).state
  parentPid_eq : ∀ j, j ≠ slot →
    (m'.tasks j).parentPid = (m.tasks j).parentPid

theorem Created.claimed (hcreated : Created m m' slot)
    (hclaimed : m.Claimed) : m'.Claimed := by
  refine hclaimed.congr fun j hzombie => Or.inr ?_
  have hj : j ≠ slot := fun heq => by simp [heq, hcreated.ready] at hzombie
  exact ⟨(hcreated.role j hj).zombie_iff.mp hzombie,
    hcreated.parentPid_eq j hj⟩

theorem link_state (m : Machine) (p child j : Slot) :
    ((m.link p child).tasks j).state = (m.tasks j).state := by
  simp [link, addChild, setParentPid, setFirstChild, setNextSibling,
    modify_proj Task.state]

theorem Family.fillSlot (hfamily : m.Family)
    (hcurrent : m.current = some p) (hlive : m.Live p)
    (hzombie : (m.tasks p).state ≠ .zombie)
    (hdead : (m.tasks slot).state = .dead) {g : Task → Task}
    (hready : ∀ t, (g t).state = .ready)
    (hidentity : ∀ t, (g t).pid = t.pid ∧ (g t).generation = t.generation)
    (hlinks : ∀ t, SameLinks t (g t)) :
    Created m ((m.fillSlot slot entry name stack).modify slot g) slot ∧
      (((m.fillSlot slot entry name stack).modify slot g).tasks
        slot).parentPid = (m.tasks p).pid := by
  have hne : p ≠ slot := fun heq => hlive (heq ▸ hdead)
  have htask : (m.born slot entry stack).tasks p = m.tasks p :=
    born_tasks_of_ne hne
  have hborn : (m.born slot entry stack).Live slot :=
    born_live.mpr (Or.inl rfl)
  have hlinked : ((m.born slot entry stack).link p slot).Family :=
    (hfamily.born hdead).link (born_live.mpr (Or.inr hlive))
      (htask ▸ hzombie) hborn (by rw [born_tasks_self])
  have hnew : (((m.born slot entry stack).link p slot).tasks slot).state =
      .new := by
    rw [link_state, born_tasks_self]
  rw [fillSlot_eq hcurrent hne, modify_modify]
  have hsame : ∀ j, SameFamily
      (((m.born slot entry stack).link p slot).tasks j)
      ((((m.born slot entry stack).link p slot).modify slot (g ∘ fun t =>
        { t with exitCode := 0, wakeTick := 0, name := name })).tasks j) := by
    refine modify_rel SameFamily.refl ⟨⟨⟨(hidentity _).1, (hidentity _).2,
      ?_⟩, ?_, ?_⟩, (hlinks _).1, (hlinks _).2, (hlinks _).3⟩
    · simp [hready, hnew]
    · simp [hready, hnew]
    · simp [hnew]
  have hother : ∀ j, j ≠ slot →
      (((m.born slot entry stack).link p slot).modify slot (g ∘ fun t =>
        { t with exitCode := 0, wakeTick := 0, name := name })).tasks j =
          ((m.born slot entry stack).link p slot).tasks j :=
    fun j hj => modify_tasks_of_ne _ _ hj
  refine ⟨⟨hlinked.congr hsame, rfl, hdead, ?_, fun j hj => ?_,
    fun j hj => ?_, fun j hj => ?_⟩, ?_⟩
  · simp [hready]
  · rw [hother j hj]
    have hrole := link_role (m.born slot entry stack) p slot j
    rwa [born_tasks_of_ne hj] at hrole
  · rw [hother j hj, link_state, born_tasks_of_ne hj]
  · rw [hother j hj, link_parentPid, if_neg hj, born_tasks_of_ne hj]
  · rw [(hsame slot).parentPid_eq, link_parentPid, if_pos rfl, htask]

theorem findFreeSlot_dead (hslot : m.findFreeSlot = some slot) :
    (m.tasks slot).state = .dead := by
  have hfree := List.find?_some hslot
  simp only [Bool.and_eq_true, beq_iff_eq] at hfree
  exact hfree.1

/-- A request that fails changes nothing. -/
theorem initCommonSlot_cases (m : Machine) (entry : EntryFn) (name : String)
    (stack : Nat) :
    m.initCommonSlot entry name stack = (m, none) ∨
      ∃ slot, (m.tasks slot).state = .dead ∧
        m.initCommonSlot entry name stack =
          (m.fillSlot slot entry name stack, some slot) := by
  unfold initCommonSlot
  cases hslot : m.findFreeSlot with
  | none => exact Or.inl rfl
  | some slot =>
      by_cases hstack : stack = 0
      · exact Or.inl (if_pos hstack)
      · exact Or.inr ⟨slot, findFreeSlot_dead hslot, if_neg hstack⟩

theorem Family.create_cases (hfamily : m.Family)
    (hcurrent : m.current = some p) (hlive : m.Live p)
    (hzombie : (m.tasks p).state ≠ .zombie) (entry : EntryFn)
    (name : String) (stack : Nat) :
    m.create entry name stack = (m, none) ∨
      ∃ m' slot, m.create entry name stack = (m', some slot) ∧
        Created m m' slot ∧
        (m'.tasks slot).parentPid = (m.tasks p).pid := by
  unfold create
  rcases initCommonSlot_cases m entry name stack with
    hnone | ⟨slot, hdead, hsome⟩
  · exact Or.inl (by rw [hnone])
  · rw [hsome]
    exact Or.inr ⟨_, slot, rfl, hfamily.fillSlot hcurrent hlive hzombie
      hdead (fun _ => rfl) (fun _ => ⟨rfl, rfl⟩) fun _ => ⟨rfl, rfl, rfl⟩⟩

theorem Family.createProcess_cases (hfamily : m.Family)
    (hcurrent : m.current = some p) (hlive : m.Live p)
    (hzombie : (m.tasks p).state ≠ .zombie) (entry : EntryFn)
    (name : String) (stack cr3 userEntry userStackTop : Nat) :
    m.createProcess entry name stack cr3 userEntry userStackTop = (m, none) ∨
      ∃ m' slot, m.createProcess entry name stack cr3 userEntry
        userStackTop = (m', some slot) ∧ Created m m' slot ∧
        (m'.tasks slot).parentPid = (m.tasks p).pid := by
  unfold createProcess
  rcases initCommonSlot_cases m entry name stack with
    hnone | ⟨slot, hdead, hsome⟩
  · exact Or.inl (by rw [hnone])
  · rw [hsome]
    exact Or.inr ⟨_, slot, rfl, hfamily.fillSlot hcurrent hlive hzombie
      hdead (fun _ => rfl) (fun _ => ⟨rfl, rfl⟩) fun _ => ⟨rfl, rfl, rfl⟩⟩

end Creation

end Machine

end Tasks

end VenomOS
