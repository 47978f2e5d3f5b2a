/-
No wake-up is lost as long as no time slice ends in the middle of a call.  A
tick that does not end the slice changes little, so the call under way can be
compared with the table it started from, ticked in the same way: at its end it
has done what the table does in one step.
-/
import VenomOS.TaskWaits

namespace VenomOS

namespace Tasks

open Machine LinkedChain StepRuns

/-- What a timer interrupt that ends no time slice and `reap_pending_cleanup`
leave behind: which sleeping tasks are due, and the registers of the table. -/
structure Pulse where
  due : UInt64 → Bool
  ticks : UInt64
  count : Nat
  pending : PendingCleanup

def Task.rouse (due : UInt64 → Bool) (t : Task) : Task :=
  if t.state = .sleeping ∧ due t.wakeTick = true then { t with state := .ready }
  else t

namespace Machine

variable {m m' : Machine} {idle ini cur i slot : Slot} {p : Pulse}

def pulse (m : Machine) (p : Pulse) : Machine :=
  { m with
    tasks := fun i => (m.tasks i).rouse p.due
    timerTicks := p.ticks
    tickCounter := p.count
    pendingCleanup := p.pending }

theorem timerInterrupt_eq (m : Machine) :
    m.timerInterrupt =
      if m.tickCounter + 1 < ticksPerSwitch then
        m.pulse ⟨fun tick => tick ≤ m.timerTicks + 1, m.timerTicks + 1,
          m.tickCounter + 1, m.pendingCleanup⟩
      else
        (m.pulse ⟨fun tick => tick ≤ m.timerTicks + 1, m.timerTicks + 1, 0,
          m.pendingCleanup⟩).reschedule := by
  simp only [timerInterrupt, tick, wakeSleepingTasks, pulse, Task.rouse,
    decide_eq_true_eq]

theorem reapPendingCleanup_eq (m : Machine) :
    m.reapPendingCleanup.1 = m.pulse ⟨fun _ => false, m.timerTicks,
      m.tickCounter, if m.pendingCleanup.active then ⟨0, 0, false⟩
        else m.pendingCleanup⟩ := by
  unfold reapPendingCleanup
  split <;> simp [pulse, Task.rouse, *]

theorem rouse_of_ne {due : UInt64 → Bool} {t : Task}
    (hstate : t.state ≠ .sleeping) : t.rouse due = t :=
  if_neg fun hasleep => hstate hasleep.1

theorem pulse_state (m : Machine) (p : Pulse) (i : Slot) :
    ((m.pulse p).tasks i).state = (m.tasks i).state ∨
      (m.tasks i).state = .sleeping ∧
        ((m.pulse p).tasks i).state = .ready := by
  simp only [pulse, Task.rouse]
  split
  · rename_i hasleep
    exact Or.inr ⟨hasleep.1, rfl⟩
  · exact Or.inl rfl

theorem pulse_family (m : Machine) (p : Pulse) (j : Slot) :
    SameFamily (m.tasks j) ((m.pulse p).tasks j) := by
  simp only [pulse, Task.rouse]
  split
  · rename_i hasleep
    refine ⟨⟨⟨rfl, rfl, ?_⟩, ?_, fun _ => ⟨rfl, rfl⟩⟩, rfl, rfl, rfl⟩
    · simp [hasleep.1]
    · simp [hasleep.1]
  · exact SameFamily.refl _

theorem pulse_blocked (m : Machine) (p : Pulse) (i : Slot) :
    ((m.pulse p).tasks i).state = .blocked ↔
      (m.tasks i).state = .blocked := by
  rcases pulse_state m p i with hsame | ⟨hasleep, hready⟩
  · rw [hsame]
  · simp [hasleep, hready]

variable {f : Task → Task}

/-- The store of a call and the pulse may come in either order. -/
theorem pulse_modify
    (hf : (f (m.tasks i)).rouse p.due = f ((m.tasks i).rouse p.due)) :
    (m.modify i f).pulse p = (m.pulse p).modify i f := by
  unfold pulse modify
  congr 1
  funext j
  by_cases hj : j = i
  · subst hj
    simpa using hf
  · simp [Function.update_of_ne hj]

/-- Stores that read and write neither the state nor the wake tick. -/
theorem pulse_modify_link
    (hf : ∀ t : Task, (f t).state = t.state ∧ (f t).wakeTick = t.wakeTick ∧
      f { t with state := .ready } = { f t with state := .ready }) :
    (m.modify i f).pulse p = (m.pulse p).modify i f := by
  apply pulse_modify
  obtain ⟨hstate, hwake, hready⟩ := hf (m.tasks i)
  unfold Task.rouse
  by_cases hasleep : (m.tasks i).state = .sleeping ∧
      p.due (m.tasks i).wakeTick = true
  · rw [if_pos hasleep, if_pos (by rwa [hstate, hwake])]
    exact hready.symm
  · rw [if_neg hasleep, if_neg (by rwa [hstate, hwake])]

/-- Stores into a task that is not asleep, before and after. -/
theorem pulse_modify_awake (hold : (m.tasks i).state ≠ .sleeping)
    (hnew : (f (m.tasks i)).state ≠ .sleeping) :
    (m.modify i f).pulse p = (m.pulse p).modify i f := by
  apply pulse_modify
  rw [rouse_of_ne hold, rouse_of_ne hnew]

theorem pulse_setParentPid (i : Slot) (pid : Pid) :
    (m.setParentPid i pid).pulse p = (m.pulse p).setParentPid i pid :=
  pulse_modify_link fun _ => ⟨rfl, rfl, rfl⟩

theorem pulse_setFirstChild (i : Slot) (pid : Pid) :
    (m.setFirstChild i pid).pulse p = (m.pulse p).setFirstChild i pid :=
  pulse_modify_link fun _ => ⟨rfl, rfl, rfl⟩

theorem pulse_setNextSibling (i : Slot) (pid : Pid) :
    (m.setNextSibling i pid).pulse p = (m.pulse p).setNextSibling i pid :=
  pulse_modify_link fun _ => ⟨rfl, rfl, rfl⟩

theorem pulse_addChild (parent child : Slot) :
    (m.addChild parent child).pulse p = (m.pulse p).addChild parent child := by
  simp only [addChild]
  rw [pulse_setFirstChild, (pulse_family m p parent).firstChild_eq,
    ← pulse_setNextSibling, (pulse_family _ p child).pid_eq]

theorem pulse_link (parent child : Slot) :
    (m.link parent child).pulse p = (m.pulse p).link parent child := by
  simp only [link, pulse_addChild, pulse_setNextSibling, pulse_setParentPid,
    (pulse_family m p parent).pid_eq]

theorem pulse_fillSlot (hcurrent : m.current = some cur) (hne : cur ≠ slot)
    (hdead : (m.tasks slot).state = .dead) (entry : EntryFn) (name : String)
    (stack : Nat) : (m.fillSlot slot entry name stack).pulse p =
      (m.pulse p).fillSlot slot entry name stack := by
  have hcurrent' : (m.pulse p).current = some cur := hcurrent
  have hborn : (m.born slot entry stack).pulse p =
      (m.pulse p).born slot entry stack := by
    simp only [Machine.born, pulse_setNextSibling, pulse_setFirstChild,
      pulse_setParentPid, incarnate]
    rw [pulse_modify_awake (by simp [hdead]) (by simp)]
  have hnew : (((m.born slot entry stack).link cur slot).tasks slot).state =
      .new := by
    rw [link_state, born_tasks_self]
  rw [fillSlot_eq hcurrent hne, fillSlot_eq hcurrent' hne,
    pulse_modify_awake (by simp [hnew]) (by simp [hnew]), pulse_link, hborn]

theorem pulse_createdTo (hcurrent : m.current = some cur) (hne : cur ≠ slot)
    (hdead : (m.tasks slot).state = .dead) (stack : Nat) (request : Request)
    (stage : Stage) : (m.createdTo slot stack request stage).pulse p =
      (m.pulse p).createdTo slot stack request stage := by
  have hnew : (m.setState slot .new).pulse p =
      (m.pulse p).setState slot .new :=
    pulse_modify_awake (by simp [hdead]) (by simp)
  have hfill := pulse_fillSlot (p := p) hcurrent hne hdead request.entry
    request.name stack
  cases stage with
  | chosen => rfl
  | allocated => rfl
  | marked => exact hnew
  | pointed => exact hnew
  | based =>
      rw [createdTo, createdTo, ← hnew]
      apply pulse_modify_link
      exact fun _ => ⟨rfl, rfl, rfl⟩
  | linked => exact hfill
  | spaced =>
      rw [createdTo, createdTo, ← hfill]
      apply pulse_modify_link
      intro t
      cases request <;> exact ⟨rfl, rfl, rfl⟩

theorem findByPid_pulse (m : Machine) (p : Pulse) :
    (m.pulse p).findByPid = m.findByPid :=
  findByPid_congr fun j => (pulse_family m p j).toSameIdentity

theorem nextSiblingOf_pulse (m : Machine) (p : Pulse) :
    (m.pulse p).nextSiblingOf = m.nextSiblingOf := by
  funext pid
  simp only [nextSiblingOf, findByPid_pulse,
    (pulse_family m p _).nextSibling_eq]

theorem reapable_pulse (m : Machine) (p : Pulse) :
    (m.pulse p).reapable = m.reapable := by
  funext pid
  unfold reapable
  rw [findByPid_pulse]
  split
  · rfl
  · rename_i child _
    rw [Bool.eq_iff_iff, beq_iff_eq, beq_iff_eq]
    exact (pulse_family m p child).zombie_iff

theorem precedes_pulse (m : Machine) (p : Pulse) (childPid : Pid) :
    (m.pulse p).precedes childPid = m.precedes childPid := by
  funext pid
  simp only [precedes, findByPid_pulse, (pulse_family m p _).nextSibling_eq]

theorem findFreeSlot_pulse (m : Machine) (p : Pulse) :
    (m.pulse p).findFreeSlot = m.findFreeSlot := by
  unfold findFreeSlot
  congr 1
  funext i
  rw [(pulse_family m p i).generation_eq]
  congr 1
  rw [Bool.eq_iff_iff, beq_iff_eq, beq_iff_eq]
  exact (pulse_family m p i).dead_iff

theorem pulse_removeChild {parent : Slot} {childPid : Pid}
    (hremove : m.removeChild parent childPid = some m') :
    (m.pulse p).removeChild parent childPid = some (m'.pulse p) := by
  unfold removeChild at hremove ⊢
  rw [(pulse_family m p parent).firstChild_eq, nextSiblingOf_pulse,
    precedes_pulse, findByPid_pulse]
  split at hremove
  · cases hremove
    rw [if_pos ‹_›, pulse_setFirstChild]
  · rw [if_neg ‹_›]
    split at hremove
    · cases hremove
    · split at hremove
      · cases hremove
        rfl
      · cases hremove
        rw [pulse_setNextSibling]

theorem Inv.pulse (hinv : Inv m idle ini) (p : Pulse) :
    Inv (m.pulse p) idle ini :=
  hinv.wake (pulse_family m p) rfl rfl fun j =>
    (pulse_state m p j).imp_right fun hwoken => ⟨by simp [hwoken.1], hwoken.2⟩

/-- The running task set its own state, and has not been switched away from. -/
structure Stopped (m : Machine) (idle ini cur : Slot) : Prop where
  family : m.Family
  claimed : m.Claimed
  init : InitAlive m ini
  poised : Poised m idle cur
  ne : idle ≠ cur

/-- `block_current` and `sleep_current` set the state. -/
theorem Inv.stopped (hinv : Inv m idle ini) (hrunning : Running m cur)
    (hidle : idle ≠ cur) {state : State} (hdead : state ≠ .dead)
    (hzombie : state ≠ .zombie) :
    Stopped (m.setState cur state) idle ini cur ∧
      ∀ j, SameFamily (m.tasks j) ((m.setState cur state).tasks j) := by
  have hfamily := setState_family hrunning.live hrunning.not_zombie hdead
    hzombie
  exact ⟨⟨hinv.family.congr hfamily, hinv.claimed.family hfamily,
    hinv.init.role (hfamily ini).toSameRole rfl, hinv.parked hrunning hidle,
    hidle⟩, hfamily⟩

theorem Stopped.pulse (hstopped : Stopped m idle ini cur) (p : Pulse) :
    Stopped (m.pulse p) idle ini cur where
  family := hstopped.family.congr (pulse_family m p)
  claimed := hstopped.claimed.family (pulse_family m p)
  init := hstopped.init.role (pulse_family m p ini).toSameRole rfl
  poised := by
    have hpoised := hstopped.poised
    refine ⟨hpoised.current, fun i hi => ?_, fun _ => hstopped.ne, ?_⟩
    · rcases pulse_state m p i with hkept | ⟨_, hready⟩
      · rw [hkept]
        exact hpoised.others i hi
      · simp [hready]
    · rcases pulse_state m p idle with hkept | ⟨_, hready⟩
      · rw [hkept]
        exact Or.inl (hpoised.idle_state.resolve_right fun h =>
          hstopped.ne h.1)
      · exact Or.inl hready
  ne := hstopped.ne

theorem Stopped.reschedule (hstopped : Stopped m idle ini cur) :
    Inv m.reschedule idle ini ∧
      ∀ j, SameFamily (m.tasks j) (m.reschedule.tasks j) :=
  ⟨hstopped.poised.inv hstopped.family hstopped.claimed hstopped.init,
    hstopped.poised.reschedule.family⟩

/-- A creation made its slot a ready task. -/
theorem Inv.createdTo (hinv : Inv m idle ini) (hrunning : Running m cur)
    (hfree : m.findFreeSlot = some slot) (stack : Nat) (request : Request) :
    Created m ((m.createdTo slot stack request .spaced).setState slot .ready)
      slot := by
  rw [setState, Machine.createdTo, modify_modify]
  apply (hinv.family.fillSlot hrunning.current hrunning.live
    hrunning.not_zombie (findFreeSlot_dead hfree) _ _ _).1
  · exact fun _ => rfl
  · intro t
    cases request <;> exact ⟨rfl, rfl⟩
  · intro t
    cases request <;> exact ⟨rfl, rfl, rfl⟩

/-- A zombie on the child list of a task. -/
structure ZombieChild (m : Machine) (cur child : Slot) : Prop where
  zombie : (m.tasks child).state = .zombie
  parent : (m.tasks child).parentPid = (m.tasks cur).pid

theorem ZombieChild.pulse {child : Slot} (hchild : m.ZombieChild cur child)
    (p : Pulse) : (m.pulse p).ZombieChild cur child := by
  have hfamily := pulse_family m p
  refine ⟨(hfamily child).zombie_iff.mpr hchild.zombie, ?_⟩
  rw [(hfamily child).parentPid_eq, (hfamily cur).pid_eq]
  exact hchild.parent

/-- The scan ends at the end of the list, or at a zombie. -/
theorem Inv.scan_end (hinv : Inv m idle ini) (hrunning : Running m cur)
    {last : Pid} (hwalk : walkUntil m.nextSiblingOf m.reapable walkLimit
      (m.tasks cur).firstChild = some last) :
    (m.findByPid last = none → m.NoZombieChild cur) ∧
      ∀ child, m.findByPid last = some child → m.ZombieChild cur child := by
  have hfamily := hinv.family
  have hcases := hfamily.waitScan_cases hrunning.live
  rw [Machine.waitScan, hwalk] at hcases
  constructor
  · intro hfind
    simp only [hfind] at hcases
    rcases hcases with ⟨_, hnone⟩ | ⟨_, _, hreap, _⟩
    · exact hnone
    · simp at hreap
  · intro child hfind
    have hzombie : (m.tasks child).state = .zombie := by
      simpa [reapable, hfind] using walkUntil_stop hwalk
    simp only [hfind] at hcases
    split at hcases
    · simp at hcases
    · rcases hcases with ⟨hblocked, _⟩ | ⟨_, child', hreap, hreaped, hparent⟩
      · simp at hblocked
      · simp only [Option.some.injEq, Prod.mk.injEq,
          WaitOutcome.reaped.injEq] at hreap
        have heq := hfamily.pids.pid_inj (live_of_zombie hzombie)
          (live_of_zombie hreaped.zombie) hreap.2.1
        exact ⟨hzombie, heq ▸ hparent⟩

theorem createdTo_onlyTasks (m : Machine) (slot : Slot) (stack : Nat)
    (request : Request) (stage : Stage) :
    OnlyTasks m (m.createdTo slot stack request stage) := by
  have hfill (entry : EntryFn) (name : String) :
      OnlyTasks m (m.fillSlot slot entry name stack) := by
    unfold Machine.fillSlot
    dsimp only
    split <;> rfl
  cases stage with
  | linked => exact hfill _ _
  | spaced => exact (hfill _ _).trans rfl
  | _ => rfl

/-- In the middle of a creation the slot is not blocked and no zombie, and the
other tasks are as before. -/
theorem Inv.createdTo_undisturbed (hinv : Inv m idle ini)
    (hrunning : Running m cur) (hfree : m.findFreeSlot = some slot)
    (stack : Nat) (request : Request) (stage : Stage) :
    Undisturbed m (m.createdTo slot stack request stage) cur := by
  have hdead := findFreeSlot_dead hfree
  have hne : cur ≠ slot := fun heq => hrunning.live (heq ▸ hdead)
  have hcreated := hinv.createdTo hrunning hfree stack request
  have hslot : ((m.createdTo slot stack request stage).tasks slot).state =
      .dead ∨ ((m.createdTo slot stack request stage).tasks slot).state =
        .new := by
    have hfill : ((m.fillSlot slot request.entry request.name stack).tasks
        slot).state = .new := by
      rw [fillSlot_eq hrunning.current hne, modify_tasks_self]
      exact (link_state _ _ _ _).trans (by rw [born_tasks_self])
    cases stage with
    | chosen => exact Or.inl hdead
    | allocated => exact Or.inl hdead
    | linked => exact Or.inr hfill
    | spaced =>
        refine Or.inr ?_
        rw [Machine.createdTo, modify_tasks_self]
        cases request <;> exact hfill
    | _ => simp [Machine.createdTo]
  have hother : ∀ j, j ≠ slot →
      (m.createdTo slot stack request stage).tasks j = m.tasks j ∨
        (m.createdTo slot stack request stage).tasks j =
          ((m.createdTo slot stack request .spaced).setState slot
            .ready).tasks j := by
    intro j hj
    cases stage with
    | chosen => exact Or.inl rfl
    | allocated => exact Or.inl rfl
    | marked => exact Or.inl (setState_tasks_of_ne m .new hj)
    | pointed => exact Or.inl (setState_tasks_of_ne m .new hj)
    | based =>
        refine Or.inl ?_
        rw [Machine.createdTo, modify_tasks_of_ne _ _ hj,
          setState_tasks_of_ne _ _ hj]
    | linked =>
        refine Or.inr ?_
        rw [setState_tasks_of_ne _ _ hj, Machine.createdTo,
          Machine.createdTo, modify_tasks_of_ne _ _ hj]
    | spaced => exact Or.inr (setState_tasks_of_ne _ _ hj).symm
  apply Undisturbed.of_kept
  intro j hstate
  have hj : j ≠ slot := by
    rintro rfl
    rcases hslot with hslot | hslot <;> simp [hslot] at hstate
  rcases hother j hj with heq | heq
  · rw [heq]
    exact ⟨rfl, rfl, rfl⟩
  · rw [heq]
    exact ⟨(hcreated.state_eq j hj).symm, hcreated.parentPid_eq j hj,
      (hcreated.role j hj).pid_eq⟩

end Machine

namespace Waits

variable {w : Waits} {m₀ m : Machine} {idle ini cur : Slot} {phase : Phase}

/-- What the statements of a call so far have made of the table `m₀` it started
from. -/
def made (m₀ : Machine) (cur : Slot) : Phase → Option Machine
  | .creating stage slot stack request =>
      some (m₀.createdTo slot stack request stage)
  | .removed child => m₀.removeChild cur (m₀.tasks child).pid
  | .buried child => (m₀.removeChild cur (m₀.tasks child).pid).map
      (·.setState child .dead)
  | _ => some m₀

/-- What they have found there. -/
def Found (m₀ : Machine) (cur : Slot) : Phase → Prop
  | .creating _ slot _ _ => m₀.findFreeSlot = some slot
  | .waking i => (m₀.tasks i).state = .blocked
  | .scanning childPid => ∃ last,
      walkUntil m₀.nextSiblingOf m₀.reapable walkLimit
        (m₀.tasks cur).firstChild = some last ∧
      EndsAt m₀.nextSiblingOf m₀.reapable childPid last
  | .scanned => m₀.NoZombieChild cur
  | .found child | .removed child | .buried child => m₀.ZombieChild cur child
  | .removing child childPid prevPid => m₀.ZombieChild cur child ∧
      childPid = (m₀.tasks child).pid ∧
      (m₀.tasks cur).firstChild ≠ childPid ∧ ∃ last,
        walkUntil m₀.nextSiblingOf (m₀.precedes childPid) walkLimit
          (m₀.tasks cur).firstChild = some last ∧
        EndsAt m₀.nextSiblingOf (m₀.precedes childPid) prevPid last
  | _ => True

structure Progress (m₀ m : Machine) (cur : Slot) (phase : Phase) : Prop where
  made : made m₀ cur phase = some m
  found : Found m₀ cur phase

theorem Progress.eq_of_settled (hprogress : Progress m₀ m cur phase)
    (hsettled : phase.critical = false) : m = m₀ := by
  cases phase <;>
    first | exact (Option.some.inj hprogress.made).symm | cases hsettled

theorem Progress.of_settled (m : Machine) (cur : Slot)
    (hsettled : phase.critical = false) : Progress m m cur phase := by
  cases phase <;> first | exact ⟨rfl, trivial⟩ | cases hsettled

theorem made_current (hmade : made m₀ cur phase = some m) :
    m.current = m₀.current := by
  have hremoved : ∀ {pid m₁}, m₀.removeChild cur pid = some m₁ →
      m₁.current = m₀.current := by
    intro pid m₁ hremove
    unfold removeChild at hremove
    split at hremove
    · cases hremove
      rfl
    · split at hremove
      · cases hremove
      · split at hremove <;> cases hremove <;> rfl
  cases phase with
  | creating stage slot stack request =>
      cases hmade
      exact (createdTo_onlyTasks _ _ _ _ _).current_eq
  | removed child => exact hremoved hmade
  | buried child =>
      obtain ⟨m₁, hremove, rfl⟩ := Option.map_eq_some_iff.mp hmade
      change m₁.current = _
      exact hremoved hremove
  | _ =>
      cases hmade
      rfl

theorem Found.pulse (hfound : Found m₀ cur phase) (p : Pulse) :
    Found (m₀.pulse p) cur phase := by
  have hfamily := pulse_family m₀ p
  cases phase with
  | creating stage slot stack request =>
      exact (findFreeSlot_pulse m₀ p).trans hfound
  | waking i => exact (pulse_blocked m₀ p i).mpr hfound
  | scanning childPid =>
      unfold Found at hfound ⊢
      rwa [nextSiblingOf_pulse, reapable_pulse, (hfamily cur).firstChild_eq]
  | scanned => exact NoZombieChild.family hfound hfamily
  | found child => exact ZombieChild.pulse hfound p
  | removing child childPid prevPid =>
      obtain ⟨hchild, hpid, hfirst, hwalk⟩ := hfound
      refine ⟨hchild.pulse p, hpid.trans (hfamily child).pid_eq.symm, ?_⟩
      rw [nextSiblingOf_pulse, precedes_pulse, (hfamily cur).firstChild_eq]
      exact ⟨hfirst, hwalk⟩
  | removed child => exact ZombieChild.pulse hfound p
  | buried child => exact ZombieChild.pulse hfound p
  | _ => trivial

/-- The call goes on as if the pulse had come before it. -/
theorem Progress.pulse (hprogress : Progress m₀ m cur phase)
    (hcurrent : m₀.current = some cur) (hlive : m₀.Live cur) (p : Pulse) :
    Progress (m₀.pulse p) (m.pulse p) cur phase := by
  obtain ⟨hmade, hfound⟩ := hprogress
  refine ⟨?_, hfound.pulse p⟩
  cases phase with
  | creating stage slot stack request =>
      cases hmade
      have hdead := findFreeSlot_dead hfound
      exact congrArg some (pulse_createdTo hcurrent
        (fun heq => hlive (heq ▸ hdead)) hdead stack request stage).symm
  | removed child =>
      rw [Waits.made, (pulse_family m₀ p child).pid_eq]
      exact pulse_removeChild hmade
  | buried child =>
      obtain ⟨m₁, hremove, rfl⟩ := Option.map_eq_some_iff.mp hmade
      rw [Waits.made, (pulse_family m₀ p child).pid_eq,
        pulse_removeChild hremove]
      refine congrArg some (pulse_modify_awake ?_ ?_).symm
      · rw [removeChild_state hremove, hfound.zombie]
        simp
      · simp
  | _ =>
      cases hmade
      rfl

theorem Progress.undisturbed (hprogress : Progress m₀ m cur phase)
    (hinv : Machine.Inv m₀ idle ini) (hrunning : Running m₀ cur) :
    Undisturbed m₀ m cur := by
  obtain ⟨hmade, hfound⟩ := hprogress
  have hunlinked : ∀ {child m₁}, m₀.ZombieChild cur child →
      m₀.removeChild cur (m₀.tasks child).pid = some m₁ →
      ∀ j, (m₁.tasks j).state = (m₀.tasks j).state ∧
        (m₁.tasks j).parentPid = (m₀.tasks j).parentPid ∧
        (m₁.tasks j).pid = (m₀.tasks j).pid := by
    intro child m₁ hchild hremove j
    obtain ⟨m', hremove', hgone⟩ := hinv.family.removeChild hrunning.live
      (live_of_zombie hchild.zombie) hchild.parent
    cases hremove.symm.trans hremove'
    exact ⟨removeChild_state hremove j, hgone.parentPid_eq j,
      (hgone.role j).pid_eq⟩
  cases phase with
  | creating stage slot stack request =>
      cases hmade
      exact hinv.createdTo_undisturbed hrunning hfound stack request stage
  | removed child =>
      apply Undisturbed.of_kept
      intro j _
      obtain ⟨hstate, hkept⟩ := hunlinked hfound hmade j
      exact ⟨hstate.symm, hkept⟩
  | buried child =>
      obtain ⟨m₁, hremove, rfl⟩ := Option.map_eq_some_iff.mp hmade
      apply Undisturbed.of_kept
      intro j hj
      have hne : j ≠ child := by
        rintro rfl
        simp at hj
      rw [setState_tasks_of_ne _ _ hne]
      obtain ⟨hstate, hkept⟩ := hunlinked hfound hremove j
      exact ⟨hstate.symm, hkept⟩
  | _ =>
      cases hmade
      exact Undisturbed.refl m₀ cur

/-- The running task `cur` is in a call that started from the table `m₀`, and
no task waits there next to a zombie child. -/
structure Holds (w : Waits) (idle ini : Slot) (m₀ : Machine) (cur : Slot) :
    Prop where
  current : m₀.current = some cur
  progress : Progress m₀ w.machine cur (w.phase cur)
  inOrder : Machine.Inv m₀ idle ini ∨
    (∃ waiting, w.phase cur = .stopped waiting) ∧ Stopped m₀ idle ini cur
  others : ∀ i, i ≠ cur → (w.phase i).critical = false
  idle_phase : (w.phase idle).pauses = false
  waiting : ∀ i, w.phase i = .stopped true ∨ w.phase i = .parked →
    (m₀.tasks i).state = .blocked → m₀.NoZombieChild i

def Inv (w : Waits) (idle ini : Slot) : Prop := ∃ m₀ cur, w.Holds idle ini m₀ cur

theorem Holds.table (hholds : w.Holds idle ini m₀ cur)
    (hphase : ∀ waiting, w.phase cur ≠ .stopped waiting) :
    Machine.Inv m₀ idle ini ∧ Running m₀ cur := by
  rcases hholds.inOrder with htable | ⟨⟨waiting, hstopped⟩, _⟩
  · obtain ⟨self, hrunning⟩ := htable.running
    cases hrunning.current.symm.trans hholds.current
    exact ⟨htable, hrunning⟩
  · exact absurd hstopped (hphase waiting)

theorem Holds.live (hholds : w.Holds idle ini m₀ cur)
    (hphase : ∀ waiting, w.phase cur ≠ .stopped waiting) : m₀.Live cur :=
  (hholds.table hphase).2.live

theorem Holds.idle_ne (hholds : w.Holds idle ini m₀ cur)
    (hphase : (w.phase cur).pauses = true) : idle ≠ cur := by
  rintro rfl
  have hidle := hholds.idle_phase
  rw [hphase] at hidle
  cases hidle

theorem Inv.not_lost (hinv : w.Inv idle ini) : ¬w.LostWakeup := by
  obtain ⟨m₀, cur, hholds⟩ := hinv
  rintro ⟨i, j, hcurrent, hphase, hblocked, hzombie, hparent⟩
  have hi : i ≠ cur := by
    rintro rfl
    exact hcurrent ((made_current hholds.progress.made).trans hholds.current)
  have hundisturbed : Undisturbed m₀ w.machine cur := by
    by_cases hstopped : ∀ waiting, w.phase cur ≠ .stopped waiting
    · obtain ⟨htable, hrunning⟩ := hholds.table hstopped
      exact hholds.progress.undisturbed htable hrunning
    · push Not at hstopped
      obtain ⟨waiting, hstopped⟩ := hstopped
      rw [hholds.progress.eq_of_settled (by rw [hstopped]; rfl)]
      exact Undisturbed.refl m₀ cur
  obtain ⟨hbefore, hnone⟩ := hundisturbed i hi hblocked
  exact hnone (hholds.waiting i hphase hbefore) j hzombie hparent

/-- Nobody is in the middle of a call. -/
theorem Inv.of_table {phase : Slot → Phase} (htable : Machine.Inv m idle ini)
    (hsettled : ∀ i, (phase i).critical = false)
    (hidle : (phase idle).pauses = false)
    (hwaiting : ∀ i, phase i = .stopped true ∨ phase i = .parked →
      (m.tasks i).state = .blocked → m.NoZombieChild i) :
    Inv ⟨m, phase⟩ idle ini := by
  obtain ⟨cur, hrunning⟩ := htable.running
  exact ⟨m, cur, hrunning.current, Progress.of_settled m cur (hsettled cur),
    Or.inl htable, fun i _ => hsettled i, hidle, hwaiting⟩

section

variable {m₀' m' : Machine} {phase' : Phase}
  (hholds : w.Holds idle ini m₀ cur)

include hholds

/-- The running task takes a step of its call, or begins or ends one. -/
theorem Holds.goTo (hcurrent : m₀'.current = some cur)
    (hprogress : Progress m₀' m' cur phase')
    (hinOrder : Machine.Inv m₀' idle ini ∨
      (∃ waiting, phase' = .stopped waiting) ∧ Stopped m₀' idle ini cur)
    (hidle : phase'.pauses = true → idle ≠ cur)
    (hundisturbed : Undisturbed m₀ m₀' cur)
    (hwaiting : phase' = .stopped true ∨ phase' = .parked →
      m₀'.NoZombieChild cur) :
    (w.goTo cur m' phase').Holds idle ini m₀' cur := by
  have hself : (w.goTo cur m' phase').phase cur = phase' :=
    Function.update_self _ _ _
  have hother : ∀ i, i ≠ cur → (w.goTo cur m' phase').phase i = w.phase i :=
    fun i hi => Function.update_of_ne hi _ _
  constructor
  · exact hcurrent
  · rwa [hself]
  · rwa [hself]
  · intro i hi
    rw [hother i hi]
    exact hholds.others i hi
  · by_cases hi : idle = cur
    · rw [hi, hself]
      by_contra hpauses
      exact hidle (by simpa using hpauses) hi
    · rw [hother idle hi]
      exact hholds.idle_phase
  · intro i hphase hblocked
    by_cases hi : i = cur
    · rw [hi] at hphase ⊢
      rw [hself] at hphase
      exact hwaiting hphase
    · rw [hother i hi] at hphase
      obtain ⟨hbefore, hnone⟩ := hundisturbed i hi hblocked
      exact hnone (hholds.waiting i hphase hbefore)

/-- A step that only reads. -/
theorem Holds.read (hphase : ∀ waiting, w.phase cur ≠ .stopped waiting)
    (hprogress : Progress m₀ m' cur phase')
    (hidle : phase'.pauses = true → idle ≠ cur)
    (hwaiting : phase' ≠ .stopped true ∧ phase' ≠ .parked) :
    (w.goTo cur m' phase').Inv idle ini :=
  ⟨m₀, cur, hholds.goTo hholds.current hprogress
    (Or.inl (hholds.table hphase).1) hidle (Undisturbed.refl m₀ cur)
    fun h => h.elim (absurd · hwaiting.1) (absurd · hwaiting.2)⟩

/-- A store after which a switch may come. -/
theorem Holds.settle (htable : Machine.Inv m' idle ini)
    (hcurrent : m'.current = some cur)
    (hundisturbed : Undisturbed m₀ m' cur)
    (hsettled : phase'.critical = false)
    (hidle : phase'.pauses = true → idle ≠ cur)
    (hwaiting : phase' ≠ .stopped true ∧ phase' ≠ .parked) :
    (w.goTo cur m' phase').Inv idle ini :=
  ⟨m', cur, hholds.goTo hcurrent (Progress.of_settled m' cur hsettled)
    (Or.inl htable) hidle hundisturbed
    fun h => h.elim (absurd · hwaiting.1) (absurd · hwaiting.2)⟩

/-- The last statement of a call. -/
theorem Holds.finish (htable : Machine.Inv m' idle ini)
    (hcurrent : m'.current = some cur)
    (hundisturbed : Undisturbed m₀ m' cur) :
    (w.goTo cur m' .free).Inv idle ini :=
  hholds.settle htable hcurrent hundisturbed rfl (by simp [Phase.pauses])
    (by simp)

/-- The running task sets its own state, and will call `reschedule`. -/
theorem Holds.stop (hphase : ∀ waiting, w.phase cur ≠ .stopped waiting)
    (hidle : idle ≠ cur) {state : State}
    (hstate : state = .blocked ∨ state = .sleeping) {waiting : Bool}
    (hnone : waiting = true → m₀.NoZombieChild cur) :
    (w.goTo cur (m₀.setState cur state) (.stopped waiting)).Inv idle ini := by
  obtain ⟨htable, hrunning⟩ := hholds.table hphase
  have hborn : state ≠ .dead ∧ state ≠ .zombie := by
    rcases hstate with rfl | rfl <;> simp
  obtain ⟨hstopped, hfamily⟩ :=
    htable.stopped hrunning hidle hborn.1 hborn.2
  refine ⟨_, cur, hholds.goTo hstopped.poised.current ⟨rfl, trivial⟩
    (Or.inr ⟨⟨waiting, rfl⟩, hstopped⟩) (fun _ => hidle) ?_ fun h => ?_⟩
  · apply Undisturbed.of_family hfamily
    intro i hi hblocked
    rwa [setState_tasks_of_ne _ _ hi] at hblocked
  · exact (hnone (by simpa using h)).family hfamily

/-- A pulse moves in front of the call. -/
theorem Holds.pulse (p : Pulse) :
    Inv { w with machine := w.machine.pulse p } idle ini := by
  refine ⟨m₀.pulse p, cur, hholds.current, ?_, ?_, hholds.others,
    hholds.idle_phase, fun i hphase hblocked => ?_⟩
  · by_cases hsettled : (w.phase cur).critical = false
    · rw [hholds.progress.eq_of_settled hsettled]
      exact Progress.of_settled _ cur hsettled
    · have hlive := hholds.live fun waiting hstopped => hsettled (by
        rw [hstopped]
        rfl)
      exact hholds.progress.pulse hholds.current hlive p
  · exact hholds.inOrder.imp (·.pulse p) fun h => ⟨h.1, h.2.pulse p⟩
  · exact (hholds.waiting i hphase ((pulse_blocked m₀ p i).mp hblocked)).family
      (pulse_family m₀ p)

/-- A switch from a task that is not in the middle of a call. -/
theorem Holds.reschedule (hsettled : (w.phase cur).critical = false)
    {phase : Slot → Phase} (hphase : ∀ i, (phase i).critical = false)
    (hidle : (phase idle).pauses = false)
    (hwaiting : ∀ i, phase i = .stopped true ∨ phase i = .parked →
      w.phase i = .stopped true ∨ w.phase i = .parked) :
    Inv ⟨w.machine.reschedule, phase⟩ idle ini := by
  rw [hholds.progress.eq_of_settled hsettled]
  have hdone : Machine.Inv m₀.reschedule idle ini ∧
      ∀ j, SameFamily (m₀.tasks j) (m₀.reschedule.tasks j) := by
    rcases hholds.inOrder with htable | ⟨_, hstopped⟩
    · exact ⟨htable.reschedule, htable.reschedule_family⟩
    · exact hstopped.reschedule
  refine Inv.of_table hdone.1 hphase hidle fun i hi hblocked => ?_
  exact (hholds.waiting i (hwaiting i hi)
    (reschedule_blocked hblocked hholds.current)).family hdone.2

theorem Holds.settled (hsettled : (w.phase cur).critical = false) (i : Slot) :
    (w.phase i).critical = false := by
  by_cases hi : i = cur
  · rwa [hi]
  · exact hholds.others i hi

theorem Holds.found (hphase : w.phase cur = phase) :
    made m₀ cur phase = some w.machine ∧ Found m₀ cur phase :=
  hphase ▸ ⟨hholds.progress.made, hholds.progress.found⟩

theorem Holds.callStep {act : WaitAct} {w' : Waits}
    (hphase : w.phase cur = .free) (hallowed : act.Allowed idle w)
    (hcall : w.call cur act = some w') : w'.Inv idle ini := by
  have hfree : ∀ waiting, w.phase cur ≠ .stopped waiting := by simp [hphase]
  have hsettled : (w.phase cur).critical = false := by rw [hphase]; rfl
  have hmachine := hholds.progress.eq_of_settled hsettled
  have hself : w.machine.current = some cur :=
    (made_current hholds.progress.made).trans hholds.current
  obtain ⟨htable, hrunning⟩ := hholds.table hfree
  rw [← hmachine] at htable hrunning hholds
  cases act with
  | yield =>
      cases hcall
      exact hholds.reschedule hsettled (hholds.settled hsettled)
        hholds.idle_phase fun _ => id
  | exit exitCode =>
      obtain ⟨m', hexit, rfl⟩ := Option.map_eq_some_iff.mp hcall
      have hidle : idle ≠ cur := fun heq => hallowed.1 (heq ▸ hself)
      have hini : ini ≠ cur := by
        rintro rfl
        apply hallowed.2
        rw [currentPid, hself, ← htable.init.pid_eq]
      obtain ⟨_, hexit', htable'⟩ :=
        htable.exitCurrent hrunning hidle hini exitCode
      cases hexit.symm.trans hexit'
      refine Inv.of_table htable' (hholds.settled hsettled)
        hholds.idle_phase fun i hi hblocked => ?_
      have hne : i ≠ cur := by
        rintro rfl
        simp [hphase] at hi
      obtain ⟨hbefore, hnone⟩ := htable.exitCurrent_undisturbed hrunning
        hidle hini hexit i hne hblocked
      exact hnone (hholds.waiting i hi hbefore)
  | create request =>
      simp only [call] at hcall
      split at hcall
      · cases hcall
        exact ⟨_, cur, hholds⟩
      · rename_i slot hslot
        cases hcall
        exact hholds.read hfree ⟨rfl, hslot⟩ (by simp [Phase.pauses]) (by simp)
  | unblock pid =>
      simp only [call] at hcall
      split at hcall
      · cases hcall
        exact ⟨_, cur, hholds⟩
      · split at hcall
        · cases hcall
          exact hholds.read hfree ⟨rfl, ‹_›⟩ (by simp [Phase.pauses]) (by simp)
        · cases hcall
          exact ⟨_, cur, hholds⟩
  | block =>
      cases hcall
      exact hholds.stop hfree (fun heq => hallowed (heq ▸ hself)) (Or.inl rfl)
        (by simp)
  | sleep ticksToSleep =>
      cases hcall
      have hfamily : ∀ j, SameFamily (w.machine.tasks j)
          ((w.machine.modify cur fun t => { t with wakeTick :=
            w.machine.timerTicks + ticksToSleep }).tasks j) :=
        modify_rel SameFamily.refl ⟨⟨⟨rfl, rfl, Iff.rfl⟩, Iff.rfl,
          fun _ => ⟨rfl, rfl⟩⟩, rfl, rfl, rfl⟩
      have hstate : ∀ j, ((w.machine.modify cur fun t => { t with wakeTick :=
          w.machine.timerTicks + ticksToSleep }).tasks j).state =
            (w.machine.tasks j).state :=
        modify_proj Task.state rfl
      apply hholds.settle
      · exact htable.wake hfamily rfl rfl fun j => Or.inl (hstate j)
      · exact hself
      · exact Undisturbed.of_family hfamily fun i _ hblocked =>
          (hstate i).symm.trans hblocked
      · rfl
      · exact fun _ heq => hallowed (heq ▸ hself)
      · simp
  | wait =>
      simp only [call] at hcall
      split at hcall
      · cases hcall
        exact ⟨_, cur, hholds⟩
      · cases hcall
        exact hholds.read hfree ⟨rfl, trivial⟩
          (fun _ heq => hallowed (heq ▸ hself))
          (by simp)
  | _ => cases hcall

/-- The first read of a scan. -/
theorem Holds.loopHead (hmade : some m₀ = some w.machine)
    (hphase : ∀ waiting, w.phase cur ≠ .stopped waiting)
    (hpauses : (w.phase cur).pauses = true) :
    (w.goTo cur w.machine
      (.scanning (w.machine.tasks cur).firstChild)).Inv idle ini := by
  obtain ⟨htable, hrunning⟩ := hholds.table hphase
  obtain ⟨m', outcome, hscan, _⟩ :=
    htable.waitScan hrunning (hholds.idle_ne hpauses)
  rw [waitScan] at hscan
  split at hscan
  · cases hscan
  · rename_i last hwalk
    rw [← Option.some.inj hmade]
    exact hholds.read hphase ⟨rfl, last, hwalk, _, hwalk⟩
      (fun _ => hholds.idle_ne hpauses) (by simp)

theorem Holds.scanTurn {childPid : Pid}
    (hphase : w.phase cur = .scanning childPid) :
    (w.scanTurn cur childPid).Inv idle ini := by
  have hfree : ∀ waiting, w.phase cur ≠ .stopped waiting := by simp [hphase]
  have hidle := hholds.idle_ne (by rw [hphase]; rfl)
  obtain ⟨htable, hrunning⟩ := hholds.table hfree
  obtain ⟨hmade, last, hwalk, hends⟩ := hholds.found hphase
  obtain ⟨hnone, hchild⟩ := htable.scan_end hrunning hwalk
  unfold Waits.scanTurn
  rw [← Option.some.inj hmade]
  cases hfind : m₀.findByPid childPid with
  | none =>
      cases hends.eq_last (by simp [reapable, hfind])
      exact hholds.read hfree ⟨rfl, hnone hfind⟩ (fun _ => hidle) (by simp)
  | some child =>
      dsimp only
      split
      · rename_i hzombie
        cases hends.eq_last (by simp [reapable, hfind, hzombie])
        exact hholds.read hfree ⟨rfl, hchild child hfind⟩ (fun _ => hidle)
          (by simp)
      · rename_i hother
        have htail := hends.tail (by simpa [reapable, hfind] using hother)
        rw [nextSiblingOf, hfind] at htail
        exact hholds.read hfree ⟨rfl, last, hwalk, htail⟩ (fun _ => hidle)
          (by simp)

theorem Holds.removeFirst {child : Slot} (hphase : w.phase cur = .found child) :
    (w.removeFirst cur child).Inv idle ini := by
  have hfree : ∀ waiting, w.phase cur ≠ .stopped waiting := by simp [hphase]
  have hidle := hholds.idle_ne (by rw [hphase]; rfl)
  obtain ⟨htable, hrunning⟩ := hholds.table hfree
  obtain ⟨hmade, hchild⟩ := hholds.found hphase
  obtain ⟨m₁, hremove, _⟩ :=
    htable.family.reap hrunning.live hchild.zombie hchild.parent
  unfold Waits.removeFirst
  rw [← Option.some.inj hmade]
  dsimp only
  split
  · rename_i hfirst
    exact hholds.read hfree ⟨if_pos hfirst, hchild⟩ (fun _ => hidle) (by simp)
  · rename_i hfirst
    rw [removeChild, if_neg hfirst] at hremove
    split at hremove
    · cases hremove
    · rename_i last hwalk
      exact hholds.read hfree ⟨rfl, hchild, rfl, hfirst, last, hwalk, _, hwalk⟩
        (fun _ => hidle) (by simp)

theorem Holds.removeTurn {child : Slot} {childPid prevPid : Pid}
    (hphase : w.phase cur = .removing child childPid prevPid) :
    (w.removeTurn cur child childPid prevPid).Inv idle ini := by
  have hfree : ∀ waiting, w.phase cur ≠ .stopped waiting := by simp [hphase]
  have hidle := hholds.idle_ne (by rw [hphase]; rfl)
  obtain ⟨hmade, hchild, rfl, hfirst, last, hwalk, hends⟩ :=
    hholds.found hphase
  unfold Waits.removeTurn
  rw [← Option.some.inj hmade]
  cases hfind : m₀.findByPid prevPid with
  | none =>
      cases hends.eq_last (by simp [precedes, hfind])
      have hremove : m₀.removeChild cur (m₀.tasks child).pid = some m₀ := by
        simp only [removeChild, if_neg hfirst, hwalk, hfind]
      exact hholds.read hfree ⟨hremove, hchild⟩ (fun _ => hidle) (by simp)
  | some prev =>
      dsimp only
      split
      · rename_i hnext
        cases hends.eq_last (by simp [precedes, hfind, hnext])
        have hremove : m₀.removeChild cur (m₀.tasks child).pid =
            some (m₀.setNextSibling prev
              (m₀.nextSiblingOf (m₀.tasks child).pid)) := by
          simp only [removeChild, if_neg hfirst, hwalk, hfind]
        exact hholds.read hfree ⟨hremove, hchild⟩ (fun _ => hidle) (by simp)
      · rename_i hnext
        have htail := hends.tail (by simpa [precedes, hfind] using hnext)
        rw [nextSiblingOf, hfind] at htail
        exact hholds.read hfree ⟨rfl, hchild, rfl, hfirst, last, hwalk, htail⟩
          (fun _ => hidle) (by simp)

variable {slot : Slot} {request : Request}

/-- A slot that is not running is put outside all calls. -/
theorem Holds.forget (hne : slot ≠ cur) :
    (w.goTo slot w.machine .free).Holds idle ini m₀ cur := by
  have hself : (w.goTo slot w.machine .free).phase cur = w.phase cur :=
    Function.update_of_ne hne.symm _ _
  have hother : ∀ i, (w.goTo slot w.machine .free).phase i = .free ∨
      (w.goTo slot w.machine .free).phase i = w.phase i := by
    intro i
    by_cases hi : i = slot
    · exact Or.inl (hi ▸ Function.update_self _ _ _)
    · exact Or.inr (Function.update_of_ne hi _ _)
  refine ⟨hholds.current, hself ▸ hholds.progress, hself ▸ hholds.inOrder,
    fun i hi => ?_, ?_, fun i hi => ?_⟩
  · rcases hother i with h | h <;> rw [h]
    · rfl
    · exact hholds.others i hi
  · rcases hother idle with h | h <;> rw [h]
    · rfl
    · exact hholds.idle_phase
  · rcases hother i with h | h <;> rw [h] at hi
    · simp at hi
    · exact hholds.waiting i hi

theorem Holds.createStep {stage : Stage} {stack : Nat}
    (hphase : w.phase cur = .creating stage slot stack request) :
    (w.createStep cur slot stack request stage).Inv idle ini := by
  obtain ⟨htable, hrunning⟩ := hholds.table (by simp [hphase])
  obtain ⟨hmade, hslot⟩ := hholds.found hphase
  have hmachine := (Option.some.inj hmade).symm
  have hne : slot ≠ cur := fun heq =>
    hrunning.live (heq ▸ findFreeSlot_dead hslot)
  unfold Waits.createStep
  rw [hmachine]
  generalize hstarted : (if stage = .marked then
    w.goTo slot (m₀.createdTo slot stack request stage) .free else w) = started
  have hstart : started.Holds idle ini m₀ cur ∧
      started.phase cur = w.phase cur := by
    rw [← hstarted, ← hmachine]
    split
    · exact ⟨hholds.forget hne, Function.update_of_ne hne.symm _ _⟩
    · exact ⟨hholds, rfl⟩
  cases hnext : stage.next with
  | none =>
      cases stage <;> cases hnext
      have hcreated := htable.createdTo hrunning hslot stack request
      exact hstart.1.finish (htable.created hcreated)
        (hcreated.onlyTasks.current_eq.trans hholds.current)
        hcreated.undisturbed
  | some next =>
      exact hstart.1.read (by simp [hstart.2, hphase])
        ⟨congrArg some (createStore_createdTo request hnext).symm, hslot⟩
        (by simp [Phase.pauses]) (by simp)

theorem Holds.wakeStore {i : Slot} (hphase : w.phase cur = .waking i) :
    (w.goTo cur (w.machine.setState i .ready) .free).Inv idle ini := by
  obtain ⟨hmade, hblocked⟩ := hholds.found hphase
  obtain ⟨htable, hrunning⟩ := hholds.table (by simp [hphase])
  have hfamily : ∀ j, SameFamily (m₀.tasks j)
      ((m₀.setState i .ready).tasks j) :=
    setState_family (by simp [Live, show _ = _ from hblocked])
      (by simp [show _ = _ from hblocked]) (by simp) (by simp)
  have hstate : ∀ j, ((m₀.setState i .ready).tasks j).state =
      (m₀.tasks j).state ∨ (m₀.tasks j).state = .blocked ∧
        ((m₀.setState i .ready).tasks j).state = .ready := by
    intro j
    by_cases hj : j = i
    · exact Or.inr ⟨hj ▸ hblocked, by simp [hj]⟩
    · exact Or.inl (by rw [setState_tasks_of_ne _ _ hj])
  rw [← Option.some.inj hmade]
  apply hholds.finish
  · apply htable.wake hfamily rfl rfl
    exact fun j => (hstate j).imp_right fun h => ⟨by simp [h.1], h.2⟩
  · exact hholds.current
  · apply Undisturbed.of_family hfamily
    intro j _ hj
    rcases hstate j with h | ⟨_, h⟩
    · exact h.symm.trans hj
    · cases h.symm.trans hj

/-- The `reschedule` of `block_current` or `sleep_current`. -/
theorem Holds.leave {waiting : Bool} (hphase : w.phase cur = .stopped waiting) :
    (w.goTo cur w.machine.reschedule
      (if waiting then .parked else .free)).Inv idle ini := by
  have hidle := hholds.idle_ne (by rw [hphase]; rfl)
  have hother : ∀ i, i ≠ cur → (w.goTo cur w.machine.reschedule
      (if waiting then .parked else .free)).phase i = w.phase i :=
    fun i hi => Function.update_of_ne hi _ _
  have hself : (w.goTo cur w.machine.reschedule
      (if waiting then .parked else .free)).phase cur =
        if waiting then .parked else .free := Function.update_self _ _ _
  apply hholds.reschedule (by rw [hphase]; rfl)
  · intro i
    by_cases hi : i = cur
    · rw [hi]
      refine (congrArg Phase.critical hself).trans ?_
      cases waiting <;> rfl
    · refine (congrArg Phase.critical (hother i hi)).trans ?_
      exact hholds.others i hi
  · exact (congrArg Phase.pauses (hother idle hidle)).trans
      hholds.idle_phase
  · intro i hi
    by_cases hcur : i = cur
    · rw [hcur] at hi ⊢
      have hwaiting : waiting = true := by
        rcases hi with h | h <;> cases waiting <;>
          first | rfl | cases hself.symm.trans h
      exact Or.inl (hwaiting ▸ hphase)
    · exact (hother i hcur) ▸ hi

/-- The last store of the reaping makes it a reaping of the table. -/
theorem Holds.reaped {child : Slot} (hphase : w.phase cur = .buried child) :
    (w.goTo cur (w.machine.setParentPid child noPid) .free).Inv idle ini := by
  obtain ⟨hmade, hchild⟩ := hholds.found hphase
  obtain ⟨m₁, hremove, hmachine⟩ := Option.map_eq_some_iff.mp hmade
  obtain ⟨htable, hrunning⟩ := hholds.table (by simp [hphase])
  obtain ⟨m', hremove', hreaped⟩ := htable.family.reap hrunning.live
    hchild.zombie hchild.parent
  cases hremove.symm.trans hremove'
  rw [← hmachine]
  exact hholds.finish (htable.reaped hreaped)
    (hreaped.onlyTasks.current_eq.trans hholds.current) hreaped.undisturbed

theorem Holds.advanceStep {w' : Waits}
    (hadvance : w.advance cur (w.phase cur) = some w') :
    w'.Inv idle ini := by
  generalize hphase : w.phase cur = phase at hadvance
  cases phase with
  | free => cases hadvance
  | creating stage slot stack request =>
      rw [advance] at hadvance
      split at hadvance
      · cases hadvance
      · cases hadvance
        exact hholds.createStep hphase
  | waking i =>
      cases hadvance
      exact hholds.wakeStore hphase
  | timed =>
      cases hadvance
      rw [← Option.some.inj (hholds.found hphase).1]
      exact hholds.stop (by simp [hphase])
        (hholds.idle_ne (by rw [hphase]; rfl)) (Or.inr rfl) (by simp)
  | stopped waiting =>
      cases hadvance
      exact hholds.leave hphase
  | looping | parked =>
      cases hadvance
      exact hholds.loopHead (hholds.found hphase).1 (by simp [hphase])
        (by rw [hphase]; rfl)
  | scanning childPid =>
      cases hadvance
      exact hholds.scanTurn hphase
  | scanned =>
      cases hadvance
      obtain ⟨hmade, hnone⟩ := hholds.found hphase
      rw [← Option.some.inj hmade]
      exact hholds.stop (by simp [hphase])
        (hholds.idle_ne (by rw [hphase]; rfl)) (Or.inl rfl) fun _ => hnone
  | found child =>
      cases hadvance
      exact hholds.removeFirst hphase
  | removing child childPid prevPid =>
      cases hadvance
      exact hholds.removeTurn hphase
  | removed child =>
      cases hadvance
      obtain ⟨hremove, hchild⟩ := hholds.found hphase
      exact hholds.read (by simp [hphase])
        ⟨Option.map_eq_some_iff.mpr ⟨w.machine, hremove, rfl⟩, hchild⟩
        (fun _ => hholds.idle_ne (by rw [hphase]; rfl)) (by simp)
  | buried child =>
      cases hadvance
      exact hholds.reaped hphase

theorem Holds.kmallocStep {unset stack : Nat}
    (hphase : w.phase cur = .creating .chosen slot unset request) :
    (w.goTo cur w.machine (if stack = 0 then .free
      else .creating .allocated slot stack request)).Inv idle ini := by
  obtain ⟨hmade, hslot⟩ := hholds.found hphase
  split
  · exact hholds.read (by simp [hphase]) ⟨hmade, trivial⟩
      (by simp [Phase.pauses]) (by simp)
  · exact hholds.read (by simp [hphase]) ⟨hmade, hslot⟩
      (by simp [Phase.pauses]) (by simp)

theorem Holds.timerStep (hcalm : (w.phase cur).critical = true →
    w.machine.tickCounter + 1 < ticksPerSwitch) :
    Inv { w with machine := w.machine.timerInterrupt } idle ini := by
  rw [timerInterrupt_eq]
  split
  · exact hholds.pulse _
  · rename_i hslice
    have hsettled : (w.phase cur).critical = false :=
      Bool.eq_false_iff.mpr fun hcritical => hslice (hcalm hcritical)
    obtain ⟨m₁, cur₁, hpulsed⟩ := hholds.pulse ⟨fun tick =>
      tick ≤ w.machine.timerTicks + 1, w.machine.timerTicks + 1, 0,
      w.machine.pendingCleanup⟩
    exact hpulsed.reschedule (hholds.settled hsettled cur₁)
      (hholds.settled hsettled) hholds.idle_phase fun _ => id

end

/-- No time slice ends while the running task is inside `create` or
`create_process`, between the test and the store of `unblock`, or in
`wait_for_child` between its first read of the child list and the store
`state = Blocked` or the return. -/
def Calm (w : Waits) (act : WaitAct) : Prop :=
  act.isTimer = true →
    w.machine.current.any (fun self => (w.phase self).critical) = true →
      w.machine.tickCounter + 1 < ticksPerSwitch

instance (w : Waits) (act : WaitAct) : Decidable (Calm w act) := by
  unfold Calm
  infer_instance

theorem Inv.step {act : WaitAct} {w' : Waits} (hinv : w.Inv idle ini)
    (hallowed : act.Allowed idle w) (hcalm : Calm w act)
    (hstep : w.step act = some w') : w'.Inv idle ini := by
  obtain ⟨m₀, cur, hholds⟩ := hinv
  have hself : w.machine.current = some cur :=
    (made_current hholds.progress.made).trans hholds.current
  have hcall : (if w.phase cur = .free then w.call cur act else none) =
      some w' → w'.Inv idle ini := by
    intro hcall
    split at hcall
    · exact hholds.callStep ‹_› hallowed hcall
    · cases hcall
  simp only [Waits.step, hself] at hstep
  cases act with
  | timer =>
      cases hstep
      apply hholds.timerStep
      intro hcritical
      exact hcalm rfl (by rw [hself]; exact hcritical)
  | reap =>
      cases hstep
      rw [reapPendingCleanup_eq]
      exact hholds.pulse _
  | kmalloc stack =>
      dsimp only at hstep
      split at hstep
      · rename_i hphase
        cases hstep
        exact hholds.kmallocStep hphase
      · cases hstep
  | advance => exact hholds.advanceStep hstep
  | _ => exact hcall hstep

/-- Nobody waits yet. -/
def starting (m : Machine) : Waits := ⟨m, fun _ => .free⟩

theorem starting_inv {m : Machine} (hstart : Started idle ini m) :
    (starting m).Inv idle ini := by
  obtain ⟨cr3, idleStack, initStack, hinit⟩ := hstart
  apply Inv.of_table (init_inv hinit)
  · exact fun _ => rfl
  · rfl
  · intro i hphase
    rcases hphase with h | h <;> cases h

/-- In every run in which no time slice ends in the middle of a call, no
wake-up is lost. -/
theorem no_lost_wakeup {m : Machine} (hstart : Started idle ini m)
    (hruns : Runs Waits.step (fun w act => act.Allowed idle w ∧ Calm w act)
      (starting m) w) : ¬w.LostWakeup := by
  have hinv : w.Inv idle ini :=
    hruns.invariant (P := fun w => w.Inv idle ini) (starting_inv hstart)
      fun hinv hact hstep => hinv.step hact.1 hact.2 hstep
  exact hinv.not_lost

/-- A run from the start of the system. -/
def session (allowed : Slot → Waits → WaitAct → Prop)
    [∀ idle w act, Decidable (allowed idle w act)]
    (cr3 idleStack initStack : Nat) (acts : List WaitAct) : Option Waits :=
  match Machine.boot.init cr3 idleStack initStack with
  | some (m, some idle, some _) =>
      replay Waits.step (allowed idle) (starting m) acts
  | _ => none

theorem exists_session {allowed : Slot → Waits → WaitAct → Prop}
    [∀ idle w act, Decidable (allowed idle w act)]
    {cr3 idleStack initStack : Nat} {acts : List WaitAct}
    (check : Waits → Bool)
    (hcheck : (session allowed cr3 idleStack initStack acts).any check) :
    ∃ idle ini m w, Started idle ini m ∧
      Runs Waits.step (allowed idle) (starting m) w ∧ check w := by
  unfold session at hcheck
  split at hcheck
  · rename_i m idle ini hinit
    obtain ⟨w, hruns, hw⟩ := exists_runs check hcheck
    exact ⟨idle, ini, m, w, ⟨_, _, _, hinit⟩, hruns, hw⟩
  · cases hcheck

/-- The shell creates a task, statement by statement. -/
def creationActs : List WaitAct :=
  [.create (.task (.code 1) "a"), .kmalloc 0x30000] ++
    List.replicate 6 .advance

/-- The shell blocks in `wait_for_child` and its child goes on running. -/
def waitActs : List WaitAct :=
  creationActs ++ [.timer, .wait, .advance, .timer, .advance, .advance, .timer,
    .advance, .timer, .advance] ++ List.replicate 10 .timer

theorem no_lost_wakeup_waitActs : ∃ idle ini m w, Started idle ini m ∧
    Runs Waits.step (fun w act => act.Allowed idle w ∧ Calm w act)
      (starting m) w ∧ w.phase 0 = .parked ∧
    (w.machine.tasks 0).state = .blocked ∧ ¬w.LostWakeup := by
  obtain ⟨idle, ini, m, w, hstart, hruns, hcheck⟩ := exists_session
    (fun w : Waits => decide (w.phase 0 = .parked ∧
      (w.machine.tasks 0).state = .blocked))
    (show (session (fun idle w act => act.Allowed idle w ∧ Calm w act) 0x1000
      0x10000 0x20000 waitActs).any _ by decide +kernel)
  obtain ⟨hphase, hstate⟩ := of_decide_eq_true hcheck
  exact ⟨idle, ini, m, w, hstart, hruns, hphase, hstate,
    no_lost_wakeup hstart hruns⟩

/-- The shell scans its list and finds its child still running; its time slice
ends.  The child exits: the shell is ready, so nobody is woken.  Then the
shell sets its state to `Blocked`. -/
def lostActs : List WaitAct :=
  creationActs ++ [.wait, .advance, .advance, .advance] ++
  List.replicate 15 .timer ++ [.exit 7, .reap, .advance, .advance]

theorem wakeup_lost : ∃ idle ini m w, Started idle ini m ∧
    Runs Waits.step (fun w act => act.Allowed idle w) (starting m) w ∧
    w.LostWakeup := by
  obtain ⟨idle, ini, m, w, hstart, hruns, hcheck⟩ := exists_session
    (fun w : Waits => decide (w.machine.current ≠ some 0 ∧
      w.phase 0 = .parked ∧ (w.machine.tasks 0).state = .blocked ∧
      (w.machine.tasks 3).state = .zombie ∧
      (w.machine.tasks 3).parentPid = (w.machine.tasks 0).pid))
    (show (session (fun idle w act => act.Allowed idle w) 0x1000 0x10000
      0x20000 lostActs).any _ by decide +kernel)
  obtain ⟨hcurrent, hphase, hlost⟩ := of_decide_eq_true hcheck
  exact ⟨idle, ini, m, w, hstart, hruns, 0, 3, hcurrent, Or.inr hphase, hlost⟩

end Waits

end Tasks

end VenomOS
