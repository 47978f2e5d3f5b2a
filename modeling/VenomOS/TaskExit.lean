/-
Reaping a zombie and exiting.  An exiting task first gives its children, the
zombies among them, to init, one turn of the loop at a time; only then does it
become a zombie itself or leave the table.
-/
import VenomOS.TaskLife

namespace VenomOS

namespace Tasks

open LinkedChain SiblingForest

namespace Machine

variable {m m' : Machine} {i j cur child ini : Slot} {pid : Pid}

/-- Links may change and blocked tasks may wake, and nothing else. -/
structure Quiet (m m' : Machine) : Prop where
  onlyTasks : OnlyTasks m m'
  role : ∀ j, SameRole (m.tasks j) (m'.tasks j)
  owned_eq : ∀ j, (m'.tasks j).stackBase = (m.tasks j).stackBase ∧
    (m'.tasks j).cr3 = (m.tasks j).cr3
  wakes : ∀ j, (m'.tasks j).state = (m.tasks j).state ∨
    (m.tasks j).state = .blocked ∧ (m'.tasks j).state = .ready

theorem Quiet.refl (m : Machine) : Quiet m m where
  onlyTasks := OnlyTasks.refl m
  role _ := SameRole.refl _
  owned_eq _ := ⟨rfl, rfl⟩
  wakes _ := Or.inl rfl

theorem Quiet.trans {m'' : Machine} (hleft : Quiet m m')
    (hright : Quiet m' m'') : Quiet m m'' where
  onlyTasks := hleft.onlyTasks.trans hright.onlyTasks
  role j := (hleft.role j).trans (hright.role j)
  owned_eq j := ⟨(hright.owned_eq j).1.trans (hleft.owned_eq j).1,
    (hright.owned_eq j).2.trans (hleft.owned_eq j).2⟩
  wakes j := by
    rcases hright.wakes j with hkept | ⟨hblocked, hready⟩
    · rw [hkept]
      exact hleft.wakes j
    · rcases hleft.wakes j with hkept | ⟨_, hready'⟩
      · exact Or.inr ⟨hkept ▸ hblocked, hready⟩
      · rw [hready'] at hblocked
        cases hblocked

variable {cells : List Pid} {f : Task → Task}

theorem Quiet.modify (hrole : SameRole (m.tasks i) (f (m.tasks i)))
    (howned : (f (m.tasks i)).stackBase = (m.tasks i).stackBase ∧
      (f (m.tasks i)).cr3 = (m.tasks i).cr3)
    (hwakes : (f (m.tasks i)).state = (m.tasks i).state ∨
      (m.tasks i).state = .blocked ∧ (f (m.tasks i)).state = .ready) :
    Quiet m (m.modify i f) where
  onlyTasks := rfl
  role := modify_rel SameRole.refl hrole
  owned_eq := modify_rel (R := fun t t' =>
    t'.stackBase = t.stackBase ∧ t'.cr3 = t.cr3) (fun _ => ⟨rfl, rfl⟩) howned
  wakes := modify_rel (R := fun t t' => t'.state = t.state ∨
    t.state = .blocked ∧ t'.state = .ready) (fun _ => Or.inl rfl) hwakes

/-- Link assignments are quiet. -/
theorem Quiet.setLink (hrole : SameRole (m.tasks i) (f (m.tasks i)))
    (howned : (f (m.tasks i)).stackBase = (m.tasks i).stackBase ∧
      (f (m.tasks i)).cr3 = (m.tasks i).cr3)
    (hstate : (f (m.tasks i)).state = (m.tasks i).state) :
    Quiet m (m.modify i f) :=
  Quiet.modify hrole howned (Or.inl hstate)

theorem setParentPid_quiet (m : Machine) (i : Slot) (pid : Pid) :
    Quiet m (m.setParentPid i pid) :=
  Quiet.setLink ⟨⟨rfl, rfl, Iff.rfl⟩, Iff.rfl, fun _ => ⟨rfl, rfl⟩⟩
    ⟨rfl, rfl⟩ rfl

theorem setFirstChild_quiet (m : Machine) (i : Slot) (pid : Pid) :
    Quiet m (m.setFirstChild i pid) :=
  Quiet.setLink ⟨⟨rfl, rfl, Iff.rfl⟩, Iff.rfl, fun _ => ⟨rfl, rfl⟩⟩
    ⟨rfl, rfl⟩ rfl

theorem setNextSibling_quiet (m : Machine) (i : Slot) (pid : Pid) :
    Quiet m (m.setNextSibling i pid) :=
  Quiet.setLink ⟨⟨rfl, rfl, Iff.rfl⟩, Iff.rfl, fun _ => ⟨rfl, rfl⟩⟩
    ⟨rfl, rfl⟩ rfl

theorem link_quiet (m : Machine) (p child : Slot) : Quiet m (m.link p child) :=
  (((setParentPid_quiet m child _).trans
    (setNextSibling_quiet _ child _)).trans
      (setNextSibling_quiet _ child _)).trans (setFirstChild_quiet _ p _)

theorem unblock_cases (m : Machine) (pid : Pid) :
    m.unblock pid = m ∨
      ∃ i, (m.tasks i).state = .blocked ∧
        m.unblock pid = m.setState i .ready := by
  unfold unblock
  cases m.findByPid pid with
  | none => exact Or.inl rfl
  | some i =>
      by_cases hblocked : (m.tasks i).state = .blocked
      · exact Or.inr ⟨i, hblocked, if_pos hblocked⟩
      · exact Or.inl (if_neg hblocked)

theorem unblock_quiet (m : Machine) (pid : Pid) : Quiet m (m.unblock pid) := by
  rcases unblock_cases m pid with hsame | ⟨i, hblocked, heq⟩
  · rw [hsame]
    exact Quiet.refl m
  · rw [heq]
    refine Quiet.modify ⟨⟨rfl, rfl, ?_⟩, ?_, fun _ => ⟨rfl, rfl⟩⟩
      ⟨rfl, rfl⟩ (Or.inr ⟨hblocked, rfl⟩)
    · simp [hblocked]
    · simp [hblocked]

theorem adopt_quiet (m : Machine) (initTask : Option Slot) (child : Slot) :
    Quiet m (m.adopt initTask child) := by
  have hroot := (setParentPid_quiet m child m.initPid).trans
    (setNextSibling_quiet _ child noPid)
  cases initTask with
  | none => exact hroot.trans (unblock_quiet _ _)
  | some i =>
      exact ((hroot.trans (setNextSibling_quiet _ child _)).trans
        (setFirstChild_quiet _ i _)).trans (unblock_quiet _ _)

theorem adoptAll_quiet {initTask : Option Slot} {fuel : Nat}
    (hadopt : adoptAll initTask fuel pid m = some m') : Quiet m m' := by
  induction fuel generalizing m pid with
  | zero => cases hadopt
  | succ fuel ih =>
      rw [adoptAll] at hadopt
      split at hadopt
      · cases hadopt
        exact Quiet.refl _
      · exact (adopt_quiet _ initTask _).trans (ih hadopt)

theorem abandonChildren_quiet (habandon : m.abandonChildren i = some m') :
    Quiet m m' := by
  unfold abandonChildren at habandon
  split at habandon
  · split at habandon
    · cases habandon
    · rename_i hadopt
      cases habandon
      exact (adoptAll_quiet hadopt).trans (setFirstChild_quiet _ _ _)
  · cases habandon
    exact Quiet.refl m

theorem finish_quiet (m : Machine) (cur : Slot) :
    ∃ state, (state = .zombie ∨ state = .dead) ∧
      Quiet (m.setState cur state) (m.finish cur) := by
  unfold finish
  split
  · exact ⟨.zombie, Or.inl rfl, unblock_quiet _ _⟩
  · exact ⟨.dead, Or.inr rfl, setParentPid_quiet _ cur noPid⟩

theorem unblock_links (m : Machine) (pid : Pid) (j : Slot) :
    SameLinks (m.tasks j) ((m.unblock pid).tasks j) := by
  rcases unblock_cases m pid with hsame | ⟨i, _, heq⟩
  · rw [hsame]
    exact ⟨rfl, rfl, rfl⟩
  · rw [heq]
    exact setState_links m i .ready j

theorem unblock_family (m : Machine) (pid : Pid) (j : Slot) :
    SameFamily (m.tasks j) ((m.unblock pid).tasks j) :=
  ⟨(unblock_quiet m pid).role j, unblock_links m pid j⟩

theorem adopt_eq (hpid : (m.tasks ini).pid = m.initPid) :
    m.adopt (some ini) child = (m.link ini child).unblock m.initPid := by
  simp only [adopt, link, hpid]
  rfl

/-- The loop of `exit_current` between two turns: the children still to move
are `cells`, which start at the loop variable and not at the task's own
link. -/
structure Leaving (m : Machine) (cur ini : Slot) (pid : Pid)
    (cells : List Pid) : Prop where
  roster : m.Roster
  claimed : m.Claimed
  cur_live : m.Live cur
  ini_live : m.Live ini
  ini_zombie : (m.tasks ini).state ≠ .zombie
  ini_pid : (m.tasks ini).pid = m.initPid
  ini_ne : ini ≠ cur
  valid : (m.forest.setFirst (m.tasks cur).pid pid).Valid noPid
  children : (m.forest.setFirst (m.tasks cur).pid pid).Children noPid
    (m.tasks cur).pid cells

theorem Leaving.adopt (hleaving : Leaving m cur ini pid (pid :: cells))
    (hfind : m.findByPid pid = some child) :
    Leaving (m.adopt (some ini) child) cur ini (m.tasks child).nextSibling
      cells := by
  obtain ⟨hchild, rfl⟩ := findByPid_spec hfind
  have hpids := hleaving.roster.pids
  rw [adopt_eq hleaving.ini_pid]
  have hquiet := (link_quiet m ini child).trans
    (unblock_quiet (m.link ini child) m.initPid)
  have hforest : ((m.link ini child).unblock m.initPid).forest =
      m.forest.attach (m.tasks ini).pid (m.tasks child).pid := by
    rw [forest_congr (fun j => (unblock_family (m.link ini child)
      m.initPid j).toSameIdentity) (unblock_links (m.link ini child)
        m.initPid), link, hpids.forest_link hleaving.ini_live hchild]
  have hcur : m.forest.live (m.tasks cur).pid :=
    hpids.live_iff.mpr ⟨cur, hleaving.cur_live, rfl⟩
  have hini : m.forest.live (m.tasks ini).pid :=
    hpids.live_iff.mpr ⟨ini, hleaving.ini_live, rfl⟩
  have hne : (m.tasks ini).pid ≠ (m.tasks cur).pid := fun heq =>
    hleaving.ini_ne (hpids.pid_inj hleaving.ini_live hleaving.cur_live heq)
  have hnext : m.forest.next (m.tasks child).pid =
      (m.tasks child).nextSibling := hpids.linkOf_pid hchild
  obtain ⟨hvalid, hcells⟩ := hleaving.valid.moveFirst hleaving.children hcur
    hini hne
  rw [hnext, ← hforest, ← (hquiet.role cur).pid_eq] at hvalid hcells
  exact {
    roster := (hleaving.roster.link hleaving.ini_live
      hleaving.ini_zombie).congr
        (unblock_quiet (m.link ini child) m.initPid).role fun j _ =>
          Or.inl (unblock_links (m.link ini child) m.initPid j).parentPid_eq
    claimed := (hleaving.claimed.link
      (hpids.pid_ne_noPid hleaving.ini_live)).family
        (unblock_family (m.link ini child) m.initPid)
    cur_live := SameIdentity.live (hquiet.role cur).toSameIdentity
      hleaving.cur_live
    ini_live := SameIdentity.live (hquiet.role ini).toSameIdentity
      hleaving.ini_live
    ini_zombie := fun hzombie => hleaving.ini_zombie
      ((hquiet.role ini).zombie_iff.mp hzombie)
    ini_pid := by
      rw [(hquiet.role ini).pid_eq, hquiet.onlyTasks.initPid_eq]
      exact hleaving.ini_pid
    ini_ne := hleaving.ini_ne
    valid := hvalid
    children := hcells }

/-- Children of `cur` may have gone to init, and no other task has a new
parent. -/
def Moved (m m' : Machine) (cur : Slot) : Prop :=
  ∀ j, (m'.tasks j).parentPid = (m.tasks j).parentPid ∨
    (m.tasks j).parentPid = (m.tasks cur).pid ∧
      (m'.tasks j).parentPid = m.initPid

theorem Leaving.adopt_moved (hleaving : Leaving m cur ini pid (pid :: cells))
    (hfind : m.findByPid pid = some child) :
    Moved m (m.adopt (some ini) child) cur := by
  have hparent : (m.tasks child).parentPid = (m.tasks cur).pid :=
    (linkOf_eq hfind).symm.trans
      (hleaving.children.parent_eq List.mem_cons_self)
  intro j
  rw [adopt_eq hleaving.ini_pid, (unblock_links _ _ j).parentPid_eq,
    link_parentPid]
  by_cases hj : j = child
  · rw [if_pos hj, hj]
    exact Or.inr ⟨hparent, hleaving.ini_pid⟩
  · rw [if_neg hj]
    exact Or.inl rfl

theorem Moved.trans {m'' : Machine} (hleft : Moved m m' cur)
    (hright : Moved m' m'' cur) (hquiet : Quiet m m') : Moved m m'' cur := by
  intro j
  rcases hright j with hkept | ⟨hparent, hinit⟩
  · rw [hkept]
    exact hleft j
  · rw [hquiet.onlyTasks.initPid_eq] at hinit
    rw [(hquiet.role cur).pid_eq] at hparent
    rcases hleft j with hkept | ⟨hparent', _⟩
    · exact Or.inr ⟨hkept.symm.trans hparent, hinit⟩
    · exact Or.inr ⟨hparent', hinit⟩

theorem Leaving.adoptAll {fuel : Nat} (hleaving : Leaving m cur ini pid cells)
    (hfuel : cells.length < fuel) :
    ∃ m', adoptAll (some ini) fuel pid m = some m' ∧ Quiet m m' ∧
      Leaving m' cur ini noPid [] ∧ Moved m m' cur := by
  induction cells generalizing m pid fuel with
  | nil =>
      have hpid : pid = noPid := by
        have hchain := hleaving.children.chain
        rwa [chain_nil_iff, Forest.setFirst_first_self] at hchain
      obtain ⟨more, rfl⟩ : ∃ more, fuel = more + 1 :=
        Nat.exists_eq_succ_of_ne_zero (by omega)
      subst hpid
      refine ⟨m, ?_, Quiet.refl m, hleaving, fun _ => Or.inl rfl⟩
      simp only [Machine.adoptAll, findByPid_noPid]
  | cons cell rest ih =>
      have hpid : pid = cell := by
        have hchain := hleaving.children.chain.1
        rwa [Forest.setFirst_first_self] at hchain
      subst hpid
      obtain ⟨more, rfl⟩ : ∃ more, fuel = more + 1 :=
        Nat.exists_eq_succ_of_ne_zero (by omega)
      obtain ⟨child, hfind⟩ : m.forest.live pid :=
        hleaving.children.live List.mem_cons_self
      obtain ⟨m', hrun, hquiet, hdone, hmoved⟩ := ih (hleaving.adopt hfind)
        (by simpa using hfuel)
      have hadopt := adopt_quiet m (some ini) child
      refine ⟨m', ?_, hadopt.trans hquiet, hdone,
        (hleaving.adopt_moved hfind).trans hmoved hadopt⟩
      simp only [Machine.adoptAll, hfind]
      exact hrun

/-- A task that nothing links to any more. -/
structure Stripped (m : Machine) (cur : Slot) : Prop where
  live : m.Live cur
  childless : ∀ j, m.Live j → (m.tasks j).parentPid ≠ (m.tasks cur).pid
  owned : (m.tasks cur).stackBase = 0 ∧ (m.tasks cur).cr3 = 0

/-- Init can take over the children of others. -/
structure InitAlive (m : Machine) (ini : Slot) : Prop where
  live : m.Live ini
  zombie : (m.tasks ini).state ≠ .zombie
  pid_eq : (m.tasks ini).pid = m.initPid

theorem InitAlive.role (hinit : InitAlive m ini)
    (hrole : SameRole (m.tasks ini) (m'.tasks ini))
    (hpid : m'.initPid = m.initPid) : InitAlive m' ini where
  live := SameIdentity.live hrole.toSameIdentity hinit.live
  zombie hzombie := hinit.zombie (hrole.zombie_iff.mp hzombie)
  pid_eq := by
    rw [hrole.pid_eq, hpid]
    exact hinit.pid_eq

theorem Family.abandonChildren (hfamily : m.Family)
    (hclaimed : m.Claimed) (hinit : InitAlive m ini) (hlive : m.Live cur)
    (hne : ini ≠ cur)
    (howned : (m.tasks cur).stackBase = 0 ∧ (m.tasks cur).cr3 = 0) :
    ∃ m', m.abandonChildren cur = some m' ∧ Quiet m m' ∧ m'.Family ∧
      m'.Claimed ∧ Stripped m' cur ∧ Moved m m' cur := by
  have hpids := hfamily.pids
  have hfirst : m.forest.setFirst (m.tasks cur).pid
      (m.tasks cur).firstChild = m.forest := by
    have hlink : m.forest.first (m.tasks cur).pid =
        (m.tasks cur).firstChild := hpids.linkOf_pid hlive
    simp [Forest.setFirst, ← hlink]
  obtain ⟨cells, hcells⟩ := hfamily.children hlive
  have hleaving : Leaving m cur ini (m.tasks cur).firstChild cells := {
    roster := hfamily.toRoster
    claimed := hclaimed
    cur_live := hlive
    ini_live := hinit.live
    ini_zombie := hinit.zombie
    ini_pid := hinit.pid_eq
    ini_ne := hne
    valid := hfirst.symm ▸ hfamily.valid
    children := hfirst.symm ▸ hcells }
  obtain ⟨m', hrun, hquiet, hdone, hmoved⟩ := hleaving.adoptAll
    (hpids.length_lt hcells.chain.nodup fun _ hcell => hcells.live hcell)
  have hpids' := hdone.roster.pids
  have hset := setFirstChild_quiet m' cur noPid
  have hforest := hpids'.forest_setFirstChild hdone.cur_live noPid
  have hguard : m.initPid ≠ noPid ∧ (m.tasks cur).pid ≠ m.initPid := by
    rw [← hinit.pid_eq]
    exact ⟨hpids.pid_ne_noPid hinit.live, fun heq =>
      hne (hpids.pid_inj hinit.live hlive heq.symm)⟩
  refine ⟨m'.setFirstChild cur noPid, ?_, hquiet.trans hset, ?_, ?_, ?_,
    fun j => ?_⟩
  · rw [Machine.abandonChildren, if_pos hguard, ← hinit.pid_eq,
      hpids.findByPid_eq hinit.live, hrun]
  · exact ⟨hdone.roster.congr hset.role fun j _ =>
      Or.inl (setFirstChild_parentPid m' cur noPid j),
      hforest ▸ hdone.valid⟩
  · exact hdone.claimed.congr fun j hzombie => Or.inr
      ⟨(hset.role j).zombie_iff.mp hzombie,
        setFirstChild_parentPid m' cur noPid j⟩
  · refine ⟨SameIdentity.live (hset.role cur).toSameIdentity hdone.cur_live,
      fun j hj hparent => ?_, ?_⟩
    · have hj' : m'.Live j := fun hdead =>
        hj ((hset.role j).dead_iff.mpr hdead)
      rw [setFirstChild_parentPid, (hset.role cur).pid_eq] at hparent
      have hmem := (hdone.children.mem_iff (m'.tasks j).pid).mpr
        (hpids'.parent_iff.mpr ⟨j, hj', rfl, hparent⟩)
      simp at hmem
    · rw [((hquiet.trans hset).owned_eq cur).1,
        ((hquiet.trans hset).owned_eq cur).2]
      exact howned
  · rw [setFirstChild_parentPid]
    exact hmoved j

/-- The state a finished task is left in. -/
structure Finished (m m' : Machine) (cur : Slot) : Prop where
  family : m'.Family
  onlyTasks : OnlyTasks m m'
  role : ∀ j, j ≠ cur → SameRole (m.tasks j) (m'.tasks j)
  wakes : ∀ j, j ≠ cur → (m'.tasks j).state = (m.tasks j).state ∨
    (m.tasks j).state = .blocked ∧ (m'.tasks j).state = .ready
  gone : (m'.tasks cur).state = .zombie ∨ (m'.tasks cur).state = .dead
  claimed : m.Claimed → m'.Claimed
  parentPid_eq : ∀ j, m'.Live j →
    (m'.tasks j).parentPid = (m.tasks j).parentPid
  kept : (m.findByPid (m.tasks cur).parentPid).isSome →
    (m'.tasks cur).state = .zombie

theorem Family.finish (hfamily : m.Family) (hstripped : Stripped m cur) :
    Finished m (m.finish cur) cur := by
  have hpids := hfamily.pids
  unfold Machine.finish
  cases hparent : m.findByPid (m.tasks cur).parentPid with
  | some p =>
      have hzombie := hfamily.zombify hstripped.live hstripped.childless
        hstripped.owned
      have hquiet := unblock_quiet (m.setState cur .zombie)
        (m.tasks cur).parentPid
      have hgone : ((((m.setState cur .zombie).unblock
          (m.tasks cur).parentPid)).tasks cur).state = .zombie :=
        (hquiet.role cur).zombie_iff.mpr (by simp)
      refine ⟨hzombie.congr (unblock_family _ _), hquiet.onlyTasks,
        fun j hj => ?_, fun j hj => ?_, Or.inl hgone, fun hclaimed => ?_,
        fun j _ => ?_, fun _ => hgone⟩
      · have hrole := hquiet.role j
        rwa [setState_tasks_of_ne m .zombie hj] at hrole
      · have hwakes := hquiet.wakes j
        rwa [setState_tasks_of_ne m .zombie hj] at hwakes
      · refine Claimed.family (hclaimed.congr fun j hzombie' => ?_)
          (unblock_family _ _)
        rw [(setState_links m cur .zombie j).parentPid_eq]
        by_cases hj : j = cur
        · refine Or.inl fun hroot => ?_
          rw [← hj, hroot, findByPid_noPid] at hparent
          cases hparent
        · rw [setState_tasks_of_ne m .zombie hj] at hzombie'
          exact Or.inr ⟨hzombie', rfl⟩
      · rw [(unblock_links _ _ j).parentPid_eq,
          (setState_links m cur .zombie j).parentPid_eq]
  | none =>
      have hroot : (m.tasks cur).parentPid = noPid := by
        by_contra hne
        have hcur : m.forest.live (m.tasks cur).pid :=
          hpids.live_iff.mpr ⟨cur, hstripped.live, rfl⟩
        have hlink : m.forest.parent (m.tasks cur).pid =
            (m.tasks cur).parentPid := hpids.linkOf_pid hstripped.live
        obtain ⟨p, hp⟩ := hfamily.valid.parent_live _ hcur (hlink ▸ hne)
        rw [hlink, hparent] at hp
        cases hp
      have hdead := hfamily.bury hstripped.live hroot hstripped.childless
        hstripped.owned
      have heq : (m.setState cur .dead).setParentPid cur noPid =
          m.setState cur .dead := by
        simp [setState, setParentPid, modify, hroot]
      simp only [heq]
      refine ⟨hdead, rfl, fun j hj => ?_, fun j hj => ?_, Or.inr ?_,
        fun hclaimed => hclaimed.congr fun j hzombie => ?_,
        fun j _ => (setState_links m cur .dead j).parentPid_eq,
        by simp [hparent]⟩
      · rw [setState_tasks_of_ne m .dead hj]
        exact SameRole.refl _
      · rw [setState_tasks_of_ne m .dead hj]
        exact Or.inl rfl
      · simp
      · have hj : j ≠ cur := fun heq => by simp [heq] at hzombie
        rw [setState_tasks_of_ne m .dead hj] at hzombie ⊢
        exact Or.inr ⟨hzombie, rfl⟩

/-- A zombie that was taken off its parent's list and out of the table. -/
structure Reaped (m m' : Machine) (child : Slot) : Prop where
  family : m'.Family
  onlyTasks : OnlyTasks m m'
  zombie : (m.tasks child).state = .zombie
  dead : (m'.tasks child).state = .dead
  role : ∀ j, j ≠ child → SameRole (m.tasks j) (m'.tasks j)
  state_eq : ∀ j, j ≠ child → (m'.tasks j).state = (m.tasks j).state
  parentPid_eq : ∀ j, j ≠ child →
    (m'.tasks j).parentPid = (m.tasks j).parentPid

theorem Reaped.claimed (hreaped : Reaped m m' child) (hclaimed : m.Claimed) :
    m'.Claimed := by
  refine hclaimed.congr fun j hzombie => Or.inr ?_
  have hj : j ≠ child := fun heq => by simp [heq, hreaped.dead] at hzombie
  exact ⟨(hreaped.role j hj).zombie_iff.mp hzombie,
    hreaped.parentPid_eq j hj⟩

theorem removeChild_state {p : Slot}
    (hremove : m.removeChild p pid = some m') (j : Slot) :
    (m'.tasks j).state = (m.tasks j).state := by
  unfold removeChild at hremove
  split at hremove
  · cases hremove
    exact modify_proj Task.state rfl j
  · split at hremove
    · cases hremove
    · split at hremove
      · cases hremove
        rfl
      · cases hremove
        exact modify_proj Task.state rfl j

theorem Family.reap (hfamily : m.Family) (hcur : m.Live cur)
    (hzombie : (m.tasks child).state = .zombie)
    (hparent : (m.tasks child).parentPid = (m.tasks cur).pid) :
    ∃ m', m.removeChild cur (m.tasks child).pid = some m' ∧
      Reaped m ((m'.setState child .dead).setParentPid child noPid)
        child := by
  have hchild := live_of_zombie hzombie
  obtain ⟨m', hremove, hunlinked⟩ :=
    hfamily.removeChild hcur hchild hparent
  have hcommute : (m'.setState child .dead).setParentPid child noPid =
      (m'.setParentPid child noPid).setState child .dead := by
    simp [setState, setParentPid, modify]
  have hroot := hunlinked.family hfamily.toRoster
  have hrole := fun j => (hunlinked.role j).trans
    (setParentPid_role m' child noPid j)
  have hgone := (hrole child).owned (Or.inr hzombie)
  have howned := hfamily.stripped child (Or.inr hzombie)
  refine ⟨m', hremove, ?_⟩
  rw [hcommute]
  refine ⟨hroot.bury ?_ ?_ (fun j hj => ?_) ?_, hunlinked.onlyTasks.trans rfl,
    hzombie,
    by simp, fun j hj => ?_, fun j hj => ?_, fun j hj => ?_⟩
  · exact SameIdentity.live (hrole child).toSameIdentity hchild
  · rw [setParentPid_parentPid, if_pos rfl]
  · have hj' : m.Live j := fun hdead => hj ((hrole j).dead_iff.mpr hdead)
    rw [setParentPid_parentPid, (hrole child).pid_eq,
      hunlinked.parentPid_eq]
    split
    · exact (hfamily.pids.pid_ne_noPid hchild).symm
    · exact hfamily.childless child j hzombie hj'
  · rw [hgone.1, hgone.2]
    exact howned
  · rw [setState_tasks_of_ne _ _ hj]
    exact hrole j
  · rw [setState_tasks_of_ne _ _ hj]
    exact (modify_proj Task.state rfl j).trans (removeChild_state hremove j)
  · rw [setState_tasks_of_ne _ _ hj, setParentPid_parentPid, if_neg hj,
      hunlinked.parentPid_eq]

theorem Family.waitScan_cases (hfamily : m.Family) (hcur : m.Live cur) :
    (m.waitScan cur = some (m.blockCurrent, .blocked) ∧
      ∀ j, (m.tasks j).state = .zombie →
        (m.tasks j).parentPid ≠ (m.tasks cur).pid) ∨
      ∃ m' child, m.waitScan cur =
          some (m', .reaped (m.tasks child).pid (m.tasks child).exitCode) ∧
        Reaped m m' child ∧
        (m.tasks child).parentPid = (m.tasks cur).pid := by
  have hpids := hfamily.pids
  obtain ⟨cells, hcells⟩ := hfamily.children hcur
  have hfirst : m.forest.first (m.tasks cur).pid =
      (m.tasks cur).firstChild := hpids.linkOf_pid hcur
  have hchain := hcells.chain
  rw [hfirst] at hchain
  have hlength := hpids.length_lt hchain.nodup fun _ hcell =>
    hcells.live hcell
  unfold waitScan
  cases hfind : cells.find? m.reapable with
  | none =>
      have hwalk : walkUntil m.nextSiblingOf m.reapable walkLimit
          (m.tasks cur).firstChild = some noPid := by
        refine walkUntil_eq_nil hchain (fun cell hcell => ?_) ?_ hlength
        · simpa using List.find?_eq_none.mp hfind cell hcell
        · simp [reapable, findByPid_noPid]
      refine Or.inl ⟨by simp only [hwalk, findByPid_noPid],
        fun j hzombie hparent => ?_⟩
      have hj := live_of_zombie hzombie
      have hmem := (hcells.mem_iff (m.tasks j).pid).mpr
        (hpids.parent_iff.mpr ⟨j, hj, rfl, hparent⟩)
      have hkept := List.find?_eq_none.mp hfind _ hmem
      simp [reapable, hpids.findByPid_eq hj, hzombie] at hkept
  | some pid =>
      obtain ⟨hstop, front, back, rfl, hfront⟩ :=
        List.find?_eq_some_iff_append.mp hfind
      have hwalk : walkUntil m.nextSiblingOf m.reapable walkLimit
          (m.tasks cur).firstChild = some pid := by
        refine walkUntil_eq_of_split hchain (fun cell hcell => ?_) hstop ?_
        · simpa using hfront cell hcell
        · simp only [List.length_append, List.length_cons] at hlength
          omega
      have hmem : pid ∈ front ++ pid :: back := by simp
      obtain ⟨child, hchild⟩ : m.forest.live pid := hcells.live hmem
      obtain ⟨k, hk, hkpid, hkparent⟩ := hpids.parent_iff.mp
        ((hcells.mem_iff pid).mp hmem)
      have hzombie : (m.tasks child).state = .zombie := by
        simpa [reapable, hchild] using hstop
      have hkeq : k = child := by
        rw [hpids.findByPid_iff.mpr ⟨hk, hkpid⟩] at hchild
        exact Option.some.inj hchild
      obtain ⟨m', hremove, hreaped⟩ :=
        hfamily.reap hcur hzombie (hkeq ▸ hkparent)
      refine Or.inr ⟨_, child, ?_, hreaped, hkeq ▸ hkparent⟩
      simp only [hwalk, hchild, hremove]

end Machine

end Tasks

end VenomOS
