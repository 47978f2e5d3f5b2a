/-
Waiting for a child under preemption.  The calls of the table that run with
interrupts on are taken statement by statement, with each turn of a loop over
a child list on its own, and the timer may come between any two of them;
`exit_current` is one step and wakes a parent that is blocked.
-/
import VenomOS.TaskReports
import VenomOS.TaskThreads

namespace VenomOS

namespace Tasks

open Machine

/-- How far a task is in a call of the table. -/
inductive Phase where
  | free
  | creating (stage : Stage) (slot : Slot) (stack : Nat) (request : Request)
  /-- In `unblock`, after a test that succeeded. -/
  | waking (i : Slot)
  /-- In `sleep_current`, after `wake_tick` is set. -/
  | timed
  /-- In `block_current` or `sleep_current`, after the state is set; with
  `waiting`, the caller is `wait_for_child`. -/
  | stopped (waiting : Bool)
  /-- In `wait_for_child`, at the head of its endless loop. -/
  | looping
  /-- Before the turn of its scan that looks at `child_pid`. -/
  | scanning (childPid : Pid)
  /-- After a scan that met no zombie. -/
  | scanned
  /-- After a scan that met one. -/
  | found (child : Slot)
  /-- Before the turn of the loop of `remove_child` that looks at
  `prev_pid`. -/
  | removing (child : Slot) (childPid prevPid : Pid)
  | removed (child : Slot)
  /-- After `child->state = Dead`. -/
  | buried (child : Slot)
  /-- Inside the `reschedule` of `block_current`. -/
  | parked
deriving Repr, DecidableEq

/-- A switch must not come here: the call has read or written something that
the rest of it relies on. -/
def Phase.critical : Phase → Bool
  | .free | .timed | .stopped _ | .looping | .parked => false
  | _ => true

/-- Idle is never here. -/
def Phase.pauses : Phase → Bool
  | .free | .creating _ _ _ _ | .waking _ => false
  | _ => true

structure Waits where
  machine : Machine
  phase : Slot → Phase

inductive WaitAct where
  | timer
  /-- `reap_pending_cleanup`. -/
  | reap
  | yield
  | exit (exitCode : Int)
  | create (request : Request)
  /-- The allocator returns a stack to the creation under way. -/
  | kmalloc (stack : Nat)
  | unblock (pid : Pid)
  | block
  | sleep (ticksToSleep : UInt64)
  /-- `wait_for_child`. -/
  | wait
  /-- The next statement of the call the task is in. -/
  | advance

def WaitAct.isTimer : WaitAct → Bool
  | .timer => true
  | _ => false

namespace Waits

variable (w : Waits)

/-- The running task goes on at `phase`. -/
def goTo (self : Slot) (machine : Machine) (phase : Phase) : Waits :=
  ⟨machine, Function.update w.phase self phase⟩

/-- The first statement of a call, or all of one that is not interrupted. -/
def call (self : Slot) : WaitAct → Option Waits
  | .yield => some { w with machine := w.machine.yield }
  | .exit exitCode =>
      (w.machine.exitCurrent exitCode).map fun m => { w with machine := m }
  | .create request =>
      match w.machine.findFreeSlot with
      | none => some w
      | some slot =>
          some (w.goTo self w.machine (.creating .chosen slot 0 request))
  | .unblock pid =>
      match w.machine.findByPid pid with
      | none => some w
      | some i =>
          if (w.machine.tasks i).state = .blocked then
            some (w.goTo self w.machine (.waking i))
          else some w
  | .block =>
      some (w.goTo self (w.machine.setState self .blocked) (.stopped false))
  | .sleep ticksToSleep =>
      some (w.goTo self (w.machine.modify self fun t =>
        { t with wakeTick := w.machine.timerTicks + ticksToSleep }) .timed)
  | .wait =>
      if (w.machine.tasks self).firstChild = noPid then some w
      else some (w.goTo self w.machine .looping)
  | _ => none

/-- One statement of a creation; a new thread starts outside all calls. -/
def createStep (self slot : Slot) (stack : Nat) (request : Request)
    (stage : Stage) : Waits :=
  let started : Waits := if stage = .marked then w.goTo slot w.machine .free else w
  started.goTo self (w.machine.createStore slot stack request stage)
    (stage.next.elim .free fun next => .creating next slot stack request)

/-- One turn of the scan. -/
def scanTurn (self : Slot) (childPid : Pid) : Waits :=
  match w.machine.findByPid childPid with
  | none => w.goTo self w.machine .scanned
  | some child =>
      if (w.machine.tasks child).state = .zombie then
        w.goTo self w.machine (.found child)
      else
        w.goTo self w.machine
          (.scanning (w.machine.tasks child).nextSibling)

/-- `remove_child` up to its loop. -/
def removeFirst (self child : Slot) : Waits :=
  let childPid := (w.machine.tasks child).pid
  if (w.machine.tasks self).firstChild = childPid then
    w.goTo self (w.machine.setFirstChild self
      (w.machine.nextSiblingOf childPid)) (.removed child)
  else
    w.goTo self w.machine
      (.removing child childPid (w.machine.tasks self).firstChild)

/-- One turn of the loop of `remove_child`. -/
def removeTurn (self child : Slot) (childPid prevPid : Pid) : Waits :=
  match w.machine.findByPid prevPid with
  | none => w.goTo self w.machine (.removed child)
  | some prev =>
      if (w.machine.tasks prev).nextSibling = childPid then
        w.goTo self (w.machine.setNextSibling prev
          (w.machine.nextSiblingOf childPid)) (.removed child)
      else
        w.goTo self w.machine
          (.removing child childPid (w.machine.tasks prev).nextSibling)

def advance (self : Slot) : Phase → Option Waits
  | .free => none
  | .creating stage slot stack request =>
      if stage = .chosen then none
      else some (w.createStep self slot stack request stage)
  | .waking i => some (w.goTo self (w.machine.setState i .ready) .free)
  | .timed =>
      some (w.goTo self (w.machine.setState self .sleeping) (.stopped false))
  | .stopped waiting =>
      some (w.goTo self w.machine.reschedule
        (if waiting then .parked else .free))
  | .looping | .parked =>
      some (w.goTo self w.machine
        (.scanning (w.machine.tasks self).firstChild))
  | .scanning childPid => some (w.scanTurn self childPid)
  | .scanned =>
      some (w.goTo self (w.machine.setState self .blocked) (.stopped true))
  | .found child => some (w.removeFirst self child)
  | .removing child childPid prevPid =>
      some (w.removeTurn self child childPid prevPid)
  | .removed child =>
      some (w.goTo self (w.machine.setState child .dead) (.buried child))
  | .buried child =>
      some (w.goTo self (w.machine.setParentPid child noPid) .free)

def step (act : WaitAct) : Option Waits :=
  match w.machine.current with
  | none => none
  | some self =>
      match act with
      | .timer => some { w with machine := w.machine.timerInterrupt }
      | .reap => some { w with machine := w.machine.reapPendingCleanup.1 }
      | .kmalloc stack =>
          match w.phase self with
          | .creating .chosen slot _ request =>
              some (w.goTo self w.machine
                (if stack = 0 then .free
                else .creating .allocated slot stack request))
          | _ => none
      | .advance => w.advance self (w.phase self)
      | act => if w.phase self = .free then w.call self act else none

end Waits

/-- The code of idle is a halt loop, and neither idle nor init exits. -/
def WaitAct.Allowed (idle : Slot) (w : Waits) : WaitAct → Prop
  | .exit _ => w.machine.current ≠ some idle ∧
      w.machine.currentPid ≠ w.machine.initPid
  | .block | .sleep _ | .wait => w.machine.current ≠ some idle
  | _ => True

instance (idle : Slot) (w : Waits) (act : WaitAct) :
    Decidable (act.Allowed idle w) := by
  cases act <;> unfold WaitAct.Allowed <;> infer_instance

/-- A task sits in the `block_current` of `wait_for_child`, blocked and
switched away from, while one of its children is a zombie. -/
def Waits.LostWakeup (w : Waits) : Prop :=
  ∃ i j, w.machine.current ≠ some i ∧
    (w.phase i = .stopped true ∨ w.phase i = .parked) ∧
    (w.machine.tasks i).state = .blocked ∧
    (w.machine.tasks j).state = .zombie ∧
    (w.machine.tasks j).parentPid = (w.machine.tasks i).pid

namespace Machine

variable {m m' m₁ : Machine} {idle ini cur i j p : Slot} {pid : Pid}

/-- No child of the task is a zombie. -/
def NoZombieChild (m : Machine) (i : Slot) : Prop :=
  ∀ j, (m.tasks j).state = .zombie →
    (m.tasks j).parentPid ≠ (m.tasks i).pid

/-- A task other than `cur` that is blocked has been so before, and has no new
zombie child. -/
def Undisturbed (m m' : Machine) (cur : Slot) : Prop :=
  ∀ i, i ≠ cur → (m'.tasks i).state = .blocked →
    (m.tasks i).state = .blocked ∧ (m.NoZombieChild i → m'.NoZombieChild i)

theorem NoZombieChild.family (hnone : m.NoZombieChild i)
    (hfamily : ∀ j, SameFamily (m.tasks j) (m'.tasks j)) :
    m'.NoZombieChild i := by
  intro j hzombie
  rw [(hfamily j).parentPid_eq, (hfamily i).pid_eq]
  exact hnone j ((hfamily j).zombie_iff.mp hzombie)

theorem reschedule_blocked
    (hblocked : (m.reschedule.tasks i).state = .blocked)
    (hcurrent : m.current = some cur) :
    (m.tasks i).state = .blocked := by
  unfold reschedule at hblocked
  rcases nextReady_cases m with ⟨next, hnext, hready⟩ | ⟨hnone, _⟩
  · rw [hnext] at hblocked
    dsimp only at hblocked
    by_cases hne : next = cur
    · rwa [switchTo, if_pos (hne ▸ hcurrent)] at hblocked
    · have hswitched := switchTo_switched hcurrent hne hready
      by_cases hi : i = next
      · rw [hi, hswitched.next_state] at hblocked
        cases hblocked
      · by_cases hi' : i = cur
        · rw [hi', hswitched.cur_state] at hblocked
          split at hblocked
          · cases hblocked
          · exact hi' ▸ hblocked
        · rwa [hswitched.other_state i hi hi'] at hblocked
  · rwa [hnone] at hblocked

theorem unblock_awake (hfind : m.findByPid pid = some i) :
    ((m.unblock pid).tasks i).state ≠ .blocked := by
  unfold unblock
  rw [hfind]
  dsimp only
  split
  · simp
  · assumption

theorem Quiet.awake (hquiet : Quiet m m')
    (hstate : (m.tasks i).state ≠ .blocked) :
    (m'.tasks i).state ≠ .blocked := by
  rcases hquiet.wakes i with hkept | ⟨hblocked, _⟩
  · rwa [hkept]
  · exact absurd hblocked hstate

theorem adopt_awake (hinit : InitAlive m ini)
    (hfind : m.findByPid m.initPid = some ini) (child : Slot) :
    ((m.adopt (some ini) child).tasks ini).state ≠ .blocked := by
  rw [adopt_eq hinit.pid_eq]
  refine unblock_awake ?_
  rw [findByPid_congr fun j => (link_role m ini child j).toSameIdentity]
  exact hfind

/-- Either no child was left, or init has been woken. -/
theorem adoptAll_awake {fuel : Nat} (hinit : InitAlive m ini)
    (hfind : m.findByPid m.initPid = some ini)
    (hadopt : adoptAll (some ini) fuel pid m = some m') :
    m' = m ∨ (m'.tasks ini).state ≠ .blocked := by
  cases fuel with
  | zero => cases hadopt
  | succ fuel =>
      rw [adoptAll] at hadopt
      split at hadopt
      · cases hadopt
        exact Or.inl rfl
      · exact Or.inr ((adoptAll_quiet hadopt).awake
          (adopt_awake hinit hfind _))

theorem abandonChildren_awake (hinit : InitAlive m ini)
    (hfind : m.findByPid m.initPid = some ini)
    (habandon : m.abandonChildren cur = some m') :
    (∀ j, (m'.tasks j).parentPid = (m.tasks j).parentPid) ∨
      (m'.tasks ini).state ≠ .blocked := by
  unfold abandonChildren at habandon
  split at habandon
  · rw [hfind] at habandon
    split at habandon
    · cases habandon
    · rename_i m₁ hadopt
      cases habandon
      rcases adoptAll_awake hinit hfind hadopt with rfl | hawake
      · exact Or.inl (setFirstChild_parentPid _ cur noPid)
      · exact Or.inr ((setFirstChild_quiet _ cur noPid).awake hawake)
  · cases habandon
    exact Or.inl fun _ => rfl

theorem finish_awake (hlive : m.Live cur)
    (hfind : m.findByPid (m.tasks cur).parentPid = some i) :
    ((m.finish cur).tasks i).state ≠ .blocked := by
  unfold finish
  rw [hfind]
  dsimp only
  refine unblock_awake ?_
  rw [findByPid_congr (m := m) fun j => ?_]
  · exact hfind
  · exact modify_rel (fun _ => ⟨rfl, rfl, Iff.rfl⟩)
      ⟨rfl, rfl, iff_of_false (by simp) hlive⟩ j

theorem Inv.exit_undisturbed (hinv : Inv m idle ini)
    (hrunning : Running m cur) (hini : ini ≠ cur) {exitCode : Int}
    (habandon : (m.surrender cur exitCode).abandonChildren cur = some m₁) :
    Undisturbed m (m₁.finish cur) cur := by
  have hsurrender := surrender_family hrunning exitCode
  have hfamily := hinv.family.congr hsurrender
  have hinit : InitAlive (m.surrender cur exitCode) ini :=
    hinv.init.role (hsurrender ini).toSameRole rfl
  have hfind : (m.surrender cur exitCode).findByPid
      (m.surrender cur exitCode).initPid = some ini := by
    rw [← hinit.pid_eq]
    exact hfamily.pids.findByPid_eq hinit.live
  obtain ⟨_, habandon', hquiet, hfamily₁, _, hstripped, hmoved⟩ :=
    hfamily.abandonChildren (hinv.claimed.family hsurrender) hinit
      (SameIdentity.live (hsurrender cur).toSameIdentity hrunning.live) hini
      (by simp [surrender])
  rw [habandon] at habandon'
  cases habandon'
  have hfinished := hfamily₁.finish hstripped
  have hrole := fun j => (hsurrender j).toSameRole.trans (hquiet.role j)
  have hinit₁ := hinit.role (hquiet.role ini) hquiet.onlyTasks.initPid_eq
  intro i hne hblocked
  have hblocked₁ : (m₁.tasks i).state = .blocked := by
    rcases hfinished.wakes i hne with hkept | ⟨hbefore, _⟩
    · exact hkept ▸ hblocked
    · exact hbefore
  have hlive₁ : m₁.Live i := by simp [Live, hblocked₁]
  refine ⟨?_, fun hnone j hzombie hparent => ?_⟩
  · have hwakes := hquiet.wakes i
    rw [surrender_tasks_of_ne m exitCode hne, hblocked₁] at hwakes
    rcases hwakes with hkept | ⟨hbefore, _⟩
    · exact hkept.symm
    · exact hbefore
  · rw [hfinished.parentPid_eq j (live_of_zombie hzombie),
      (hfinished.role i hne).pid_eq] at hparent
    by_cases hj : j = cur
    · have hfound := hfamily₁.pids.findByPid_eq hlive₁
      rw [← hparent, hj] at hfound
      exact finish_awake hstripped.live hfound hblocked
    · have hkept : (m₁.tasks j).parentPid ≠
          ((m.surrender cur exitCode).tasks j).parentPid := by
        intro hsame
        refine hnone j ((hrole j).zombie_iff.mp
          ((hfinished.role j hj).zombie_iff.mp hzombie)) ?_
        rw [← (hsurrender j).parentPid_eq, ← hsame, hparent]
        exact (hrole i).pid_eq
      obtain ⟨_, hgiven⟩ := (hmoved j).resolve_left hkept
      have hawake := (abandonChildren_awake hinit hfind habandon).resolve_left
        fun hsame => hkept (hsame j)
      have heq : i = ini := hfamily₁.pids.pid_inj hlive₁ hinit₁.live (by
        rw [← hparent, hgiven, ← hquiet.onlyTasks.initPid_eq]
        exact hinit₁.pid_eq.symm)
      exact hawake (heq ▸ hblocked₁)

theorem Inv.exitCurrent_undisturbed (hinv : Inv m idle ini)
    (hrunning : Running m cur) (hidle : idle ≠ cur) (hini : ini ≠ cur)
    {exitCode : Int} (hexit : m.exitCurrent exitCode = some m') :
    Undisturbed m m' cur := by
  obtain ⟨m₁, habandon, hexited⟩ := hinv.exited hrunning hini exitCode
  have hpoised := hexited.poised hrunning
    (hrunning.idle_ready hinv.idle_state hidle) hidle
  rw [Machine.exitCurrent, hrunning.current] at hexit
  simp only [habandon, Option.some.injEq] at hexit
  rw [← hexit]
  intro i hne hblocked
  obtain ⟨hbefore, hnone⟩ := hinv.exit_undisturbed hrunning hini habandon i hne
    (reschedule_blocked hblocked hexited.current)
  exact ⟨hbefore, fun hnone' =>
    (hnone hnone').family hpoised.reschedule.family⟩

/-- Whoever is blocked or a zombie afterwards has been so, with the same
parent. -/
theorem Undisturbed.of_kept (hkept : ∀ j, (m'.tasks j).state = .blocked ∨
      (m'.tasks j).state = .zombie → (m.tasks j).state = (m'.tasks j).state ∧
        (m'.tasks j).parentPid = (m.tasks j).parentPid ∧
        (m'.tasks j).pid = (m.tasks j).pid) : Undisturbed m m' cur := by
  intro i _ hblocked
  obtain ⟨hstate, _, hpid⟩ := hkept i (Or.inl hblocked)
  refine ⟨hstate.trans hblocked, fun hnone j hzombie => ?_⟩
  obtain ⟨hstate, hparent, _⟩ := hkept j (Or.inr hzombie)
  rw [hparent, hpid]
  exact hnone j (hstate.trans hzombie)

theorem Created.undisturbed {slot : Slot} (hcreated : Created m m' slot) :
    Undisturbed m m' cur := by
  apply Undisturbed.of_kept
  intro j hj
  have hne : j ≠ slot := by
    rintro rfl
    simp [hcreated.ready] at hj
  exact ⟨(hcreated.state_eq j hne).symm, hcreated.parentPid_eq j hne,
    (hcreated.role j hne).pid_eq⟩

theorem Reaped.undisturbed {child : Slot} (hreaped : Reaped m m' child) :
    Undisturbed m m' cur := by
  apply Undisturbed.of_kept
  intro j hj
  have hne : j ≠ child := by
    rintro rfl
    simp [hreaped.dead] at hj
  exact ⟨(hreaped.state_eq j hne).symm, hreaped.parentPid_eq j hne,
    (hreaped.role j hne).pid_eq⟩

theorem Undisturbed.of_family
    (hfamily : ∀ j, SameFamily (m.tasks j) (m'.tasks j))
    (hstate : ∀ i, i ≠ cur → (m'.tasks i).state = .blocked →
      (m.tasks i).state = .blocked) : Undisturbed m m' cur :=
  fun i hne hblocked => ⟨hstate i hne hblocked, fun hnone =>
    hnone.family hfamily⟩

theorem Undisturbed.refl (m : Machine) (cur : Slot) : Undisturbed m m cur :=
  fun _ _ hblocked => ⟨hblocked, id⟩

end Machine

end Tasks

end VenomOS
