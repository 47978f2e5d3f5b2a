/-
Runs of the task table.  Every operation of the current task or the timer
leaves exactly one running task, keeps idle schedulable, and keeps the family
links valid.
-/
import VenomOS.TaskExit

namespace VenomOS

namespace Tasks

open LinkedChain SiblingForest

namespace Machine

variable {m m' : Machine} {i j cur next idle ini slot : Slot}

/-- Exactly one task is running, the current one. -/
structure Running (m : Machine) (cur : Slot) : Prop where
  current : m.current = some cur
  running_iff : ∀ i, (m.tasks i).state = .running ↔ i = cur

def Schedulable (m : Machine) (idle : Slot) : Prop :=
  (m.tasks idle).state = .ready ∨ (m.tasks idle).state = .running

/-- What `reschedule` starts from: the current task may have stopped running,
or may be ready although it still runs, but then idle is ready. -/
structure Poised (m : Machine) (idle cur : Slot) : Prop where
  current : m.current = some cur
  others : ∀ i, i ≠ cur → (m.tasks i).state ≠ .running
  cur_state : (m.tasks cur).state = .ready → idle ≠ cur
  idle_state : (m.tasks idle).state = .ready ∨
    idle = cur ∧ (m.tasks cur).state = .running

theorem Running.poised (hrunning : Running m cur)
    (hidle : Schedulable m idle) : Poised m idle cur where
  current := hrunning.current
  others i hne hrun := hne ((hrunning.running_iff i).mp hrun)
  cur_state := by simp [(hrunning.running_iff cur).mpr rfl]
  idle_state := by
    rcases hidle with hready | hrun
    · exact Or.inl hready
    · have hcur := (hrunning.running_iff idle).mp hrun
      exact Or.inr ⟨hcur, hcur ▸ hrun⟩

theorem mem_candidates (start i : Slot) : i ∈ candidates start := by
  have hi : i.val < 128 := i.isLt
  have hstart : start.val < 128 := start.isLt
  refine List.mem_map.mpr ⟨(i.val + (255 - start.val)) % 128, ?_, ?_⟩
  · exact List.mem_range.mpr (Nat.mod_lt _ (by decide))
  · apply Fin.ext
    simp only [maxTasks]
    omega

theorem nextReady_cases (m : Machine) :
    (∃ next, m.nextReady = some next ∧ (m.tasks next).state = .ready) ∨
      m.nextReady = none ∧ ∀ i, (m.tasks i).state ≠ .ready := by
  unfold nextReady
  cases hfind : (candidates (m.current.getD 0)).find? fun i =>
      (m.tasks i).state == .ready with
  | some next =>
      exact Or.inl ⟨next, rfl, by simpa using List.find?_some hfind⟩
  | none =>
      refine Or.inr ⟨rfl, fun i => ?_⟩
      simpa using List.find?_eq_none.mp hfind i (mem_candidates _ i)

/-- How many slots the search from `cur` tries before `i`. -/
def ahead (cur i : Slot) : Nat := (i.val + (127 - cur.val)) % 128

theorem nextReady_ahead (hcurrent : m.current = some cur)
    (hnext : m.nextReady = some j) (hready : (m.tasks i).state = .ready) :
    ahead cur j ≤ ahead cur i := by
  have hi : i.val < 128 := i.isLt
  have hcur : cur.val < 128 := cur.isLt
  rw [nextReady, hcurrent, Option.getD_some, candidates, List.find?_map]
    at hnext
  obtain ⟨k, hfind, rfl⟩ := Option.map_eq_some_iff.mp hnext
  obtain ⟨_, hk, hbefore⟩ := List.find?_range_eq_some.mp hfind
  have hk' : k < 128 := List.mem_range.mp hk
  by_contra hlater
  have hposition : ahead cur i < k := by
    simp only [ahead, maxTasks] at hlater ⊢
    omega
  have hskipped := hbefore (ahead cur i) hposition
  have hslot : (⟨(cur.val + (ahead cur i + 1)) % maxTasks,
      Nat.mod_lt _ (by decide)⟩ : Slot) = i := by
    apply Fin.ext
    simp only [ahead, maxTasks]
    omega
  simp [hslot, hready] at hskipped

/-- The current task after a switch, whose predecessor is ready again if it
was still running. -/
structure Switched (m m' : Machine) (cur next : Slot) : Prop where
  current : m'.current = some next
  initPid_eq : m'.initPid = m.initPid
  next_state : (m'.tasks next).state = .running
  cur_state : (m'.tasks cur).state =
    if (m.tasks cur).state = .running then .ready else (m.tasks cur).state
  other_state : ∀ i, i ≠ next → i ≠ cur →
    (m'.tasks i).state = (m.tasks i).state
  family : ∀ i, SameFamily (m.tasks i) (m'.tasks i)

theorem setState_family {state : State} (hold : m.Live i)
    (hzombie : (m.tasks i).state ≠ .zombie) (hnew : state ≠ .dead)
    (hnew' : state ≠ .zombie) (j : Slot) :
    SameFamily (m.tasks j) ((m.setState i state).tasks j) := by
  refine modify_rel SameFamily.refl ⟨⟨⟨rfl, rfl, ?_⟩, ?_, fun _ =>
    ⟨rfl, rfl⟩⟩, rfl, rfl, rfl⟩ j
  · exact iff_of_false hnew hold
  · exact iff_of_false hnew' hzombie

theorem demote_family (hcurrent : m.current = some cur) (j : Slot) :
    SameFamily (m.tasks j) (m.demote.tasks j) := by
  unfold demote
  rw [hcurrent]
  by_cases hrun : (m.tasks cur).state = .running
  · simp only [hrun, if_true]
    exact setState_family (by simp [Live, hrun]) (by simp [hrun])
      (by simp) (by simp) j
  · simp only [hrun, if_false]
    exact SameFamily.refl _

theorem demote_state (hcurrent : m.current = some cur) (j : Slot) :
    (m.demote.tasks j).state =
      if j = cur ∧ (m.tasks cur).state = .running then .ready
      else (m.tasks j).state := by
  unfold demote
  rw [hcurrent]
  by_cases hrun : (m.tasks cur).state = .running
  · simp only [hrun, if_true, and_true]
    by_cases hj : j = cur
    · simp [hj]
    · simp [hj, setState_tasks_of_ne m .ready hj]
  · simp only [hrun, and_false, if_false]

theorem switchTo_switched (hcurrent : m.current = some cur)
    (hne : next ≠ cur) (hready : (m.tasks next).state = .ready) :
    Switched m (m.switchTo next) cur next := by
  have hcurrent' : m.current ≠ some next := by
    simpa [hcurrent] using hne.symm
  have hstate : (m.demote.tasks next).state = .ready := by
    rw [demote_state hcurrent, if_neg fun h => hne h.1, hready]
  have htasks : (m.switchTo next).tasks =
      (m.demote.setState next .running).tasks := by
    rw [switchTo, if_neg hcurrent']
  have hother : ∀ i, i ≠ next →
      (m.switchTo next).tasks i = m.demote.tasks i := fun i hi => by
    rw [htasks, setState_tasks_of_ne _ _ hi]
  refine ⟨?_, ?_, ?_, ?_, fun i hi hcur => ?_, fun i => ?_⟩
  · rw [switchTo, if_neg hcurrent']
  · rw [switchTo, if_neg hcurrent']
    unfold demote
    rw [hcurrent]
    by_cases hrun : (m.tasks cur).state = .running
    · simp [hrun, setState, modify]
    · simp [hrun, setState, modify]
  · rw [htasks, setState_tasks_self]
  · rw [hother cur hne.symm, demote_state hcurrent]
    simp
  · rw [hother i hi, demote_state hcurrent, if_neg fun h => hcur h.1]
  · rw [htasks]
    exact (demote_family hcurrent i).trans (setState_family
      (by simp [Live, hstate]) (by simp [hstate]) (by simp) (by simp) i)

/-- The outcome of `reschedule`: a running task, and idle still there. -/
structure Rescheduled (m m' : Machine) (idle : Slot) : Prop where
  running : ∃ cur, Running m' cur
  idle_state : Schedulable m' idle
  family : ∀ i, SameFamily (m.tasks i) (m'.tasks i)
  initPid_eq : m'.initPid = m.initPid

/-- The search comes to the current task last. -/
theorem Poised.next_ne (hpoised : Poised m idle cur)
    (hnext : m.nextReady = some next) : next ≠ cur := by
  rintro rfl
  have hready : (m.tasks next).state = .ready := by
    simpa using List.find?_some hnext
  have hidle := hpoised.cur_state hready
  have hahead := nextReady_ahead hpoised.current hnext
    (hpoised.idle_state.resolve_right fun h => hidle h.1)
  have hval : idle.val ≠ next.val := fun heq => hidle (Fin.ext heq)
  have hlt : idle.val < 128 := idle.isLt
  have hlt' : next.val < 128 := next.isLt
  simp only [ahead] at hahead
  omega

theorem Poised.reschedule (hpoised : Poised m idle cur) :
    Rescheduled m m.reschedule idle := by
  unfold Machine.reschedule
  rcases nextReady_cases m with ⟨next, hnext, hready⟩ | ⟨hnone, hall⟩
  · rw [hnext]
    have hne := hpoised.next_ne hnext
    have hswitched := switchTo_switched hpoised.current hne hready
    refine ⟨⟨next, hswitched.current, fun i => ?_⟩, ?_, hswitched.family,
      hswitched.initPid_eq⟩
    · by_cases hi : i = next
      · simp [hi, hswitched.next_state]
      · refine iff_of_false (fun hrun => ?_) hi
        by_cases hcur : i = cur
        · rw [hcur, hswitched.cur_state] at hrun
          split at hrun
          · cases hrun
          · contradiction
        · rw [hswitched.other_state i hi hcur] at hrun
          exact hpoised.others i hcur hrun
    · by_cases hi : idle = next
      · exact Or.inr (hi ▸ hswitched.next_state)
      · refine Or.inl ?_
        by_cases hcur : idle = cur
        · rw [hcur, hswitched.cur_state]
          rcases hpoised.idle_state with hidle | ⟨_, hrun⟩
          · exact absurd hcur (hpoised.cur_state (hcur ▸ hidle))
          · exact if_pos hrun
        · rw [hswitched.other_state idle hi hcur]
          exact hpoised.idle_state.resolve_right fun h => hcur h.1
  · rw [hnone]
    obtain ⟨hidle, hrun⟩ := hpoised.idle_state.resolve_left (hall idle)
    refine ⟨⟨cur, hpoised.current, fun i => ?_⟩,
      Or.inr (hidle ▸ hrun), fun i => SameFamily.refl _, rfl⟩
    constructor
    · intro hi
      by_contra hne
      exact hpoised.others i hne hi
    · rintro rfl
      exact hrun

/-- The invariant of the table, with the slots of idle and init. -/
structure Inv (m : Machine) (idle ini : Slot) : Prop where
  family : m.Family
  claimed : m.Claimed
  init : InitAlive m ini
  running : ∃ cur, Running m cur
  idle_state : Schedulable m idle

theorem Running.live (hrunning : Running m cur) : m.Live cur := by
  simp [Live, (hrunning.running_iff cur).mpr rfl]

theorem Running.not_zombie (hrunning : Running m cur) :
    (m.tasks cur).state ≠ .zombie := by
  simp [(hrunning.running_iff cur).mpr rfl]

theorem Running.idle_ready (hrunning : Running m cur)
    (hidle : Schedulable m idle) (hne : idle ≠ cur) :
    (m.tasks idle).state = .ready :=
  hidle.resolve_right fun hrun => hne ((hrunning.running_iff idle).mp hrun)

theorem Poised.inv (hpoised : Poised m idle cur) (hfamily : m.Family)
    (hclaimed : m.Claimed) (hinit : InitAlive m ini) :
    Inv m.reschedule idle ini := by
  have hdone := hpoised.reschedule
  exact {
    family := hfamily.congr hdone.family
    claimed := hclaimed.family hdone.family
    init := hinit.role (hdone.family ini).toSameRole hdone.initPid_eq
    running := hdone.running
    idle_state := hdone.idle_state }

section

variable (hinv : Inv m idle ini)

include hinv

theorem Inv.reschedule_family (j : Slot) :
    SameFamily (m.tasks j) (m.reschedule.tasks j) := by
  obtain ⟨cur, hrunning⟩ := hinv.running
  exact (hrunning.poised hinv.idle_state).reschedule.family j

theorem Inv.reschedule : Inv m.reschedule idle ini := by
  obtain ⟨cur, hrunning⟩ := hinv.running
  exact (hrunning.poised hinv.idle_state).inv hinv.family hinv.claimed
    hinv.init

variable {f : Task → Task}

/-- The current task stops running, as `block_current` and `sleep_current`
make it. -/
theorem Inv.parked (hrunning : Running m cur) (hne : idle ≠ cur) :
    Poised (m.modify cur f) idle cur := by
  refine ⟨hrunning.current, fun i hi => ?_, fun _ => hne, ?_⟩
  · rw [modify_tasks_of_ne m f hi]
    exact fun hrun => hi ((hrunning.running_iff i).mp hrun)
  · rw [modify_tasks_of_ne m f hne]
    exact Or.inl (hrunning.idle_ready hinv.idle_state hne)

theorem Inv.park (hrunning : Running m cur) (hne : idle ≠ cur)
    (hsame : SameFamily (m.tasks cur) (f (m.tasks cur))) :
    Inv (m.modify cur f).reschedule idle ini ∧
      ∀ j, SameFamily (m.tasks j) ((m.modify cur f).reschedule.tasks j) := by
  have hfamily := modify_rel SameFamily.refl hsame
  have hpoised := hinv.parked hrunning hne (f := f)
  exact ⟨hpoised.inv (hinv.family.congr hfamily)
    (hinv.claimed.family hfamily)
    (hinv.init.role (hfamily ini).toSameRole rfl),
    fun j => (hfamily j).trans (hpoised.reschedule.family j)⟩

theorem Inv.blockCurrent (hrunning : Running m cur) (hne : idle ≠ cur) :
    Inv m.blockCurrent idle ini ∧
      ∀ j, SameFamily (m.tasks j) (m.blockCurrent.tasks j) := by
  rw [Machine.blockCurrent, hrunning.current]
  refine hinv.park hrunning hne ⟨⟨⟨rfl, rfl, ?_⟩, ?_, fun _ => ⟨rfl, rfl⟩⟩,
    rfl, rfl, rfl⟩
  · exact iff_of_false (by simp) hrunning.live
  · exact iff_of_false (by simp) hrunning.not_zombie

theorem Inv.sleepCurrent (hrunning : Running m cur) (hne : idle ≠ cur)
    (ticks : UInt64) :
    Inv (m.sleepCurrent ticks) idle ini ∧
      ∀ j, SameFamily (m.tasks j) ((m.sleepCurrent ticks).tasks j) := by
  rw [Machine.sleepCurrent, hrunning.current]
  refine hinv.park hrunning hne ⟨⟨⟨rfl, rfl, ?_⟩, ?_, fun _ => ⟨rfl, rfl⟩⟩,
    rfl, rfl, rfl⟩
  · exact iff_of_false (by simp) hrunning.live
  · exact iff_of_false (by simp) hrunning.not_zombie

/-- Tasks that were not running become ready. -/
theorem Inv.wake (hfamily : ∀ j, SameFamily (m.tasks j) (m'.tasks j))
    (hcurrent : m'.current = m.current) (hinitPid : m'.initPid = m.initPid)
    (hstate : ∀ j, (m'.tasks j).state = (m.tasks j).state ∨
      (m.tasks j).state ≠ .running ∧ (m'.tasks j).state = .ready) :
    Inv m' idle ini where
  family := hinv.family.congr hfamily
  claimed := hinv.claimed.family hfamily
  init := hinv.init.role (hfamily ini).toSameRole hinitPid
  running := by
    obtain ⟨cur, hrunning⟩ := hinv.running
    refine ⟨cur, hcurrent.trans hrunning.current, fun i => ?_⟩
    rw [← hrunning.running_iff i]
    rcases hstate i with hkept | ⟨hother, hready⟩
    · rw [hkept]
    · exact iff_of_false (by simp [hready]) hother
  idle_state := by
    rcases hstate idle with hkept | ⟨_, hready⟩
    · rw [Schedulable, hkept]
      exact hinv.idle_state
    · exact Or.inl hready

theorem Inv.unblock (pid : Pid) :
    Inv (m.unblock pid) idle ini := by
  have hquiet := unblock_quiet m pid
  refine hinv.wake (unblock_family m pid) hquiet.onlyTasks.current_eq
    hquiet.onlyTasks.initPid_eq fun j => ?_
  rcases hquiet.wakes j with hkept | ⟨hblocked, hready⟩
  · exact Or.inl hkept
  · exact Or.inr ⟨by simp [hblocked], hready⟩

end

theorem wakeSleepingTasks_family (m : Machine) (j : Slot) :
    SameFamily (m.tasks j) (m.wakeSleepingTasks.tasks j) := by
  simp only [Machine.wakeSleepingTasks]
  split
  · rename_i hsleeping
    refine ⟨⟨⟨rfl, rfl, ?_⟩, ?_, fun _ => ⟨rfl, rfl⟩⟩, rfl, rfl, rfl⟩
    · simp [hsleeping.1]
    · simp [hsleeping.1]
  · exact SameFamily.refl _

theorem wakeSleepingTasks_state (m : Machine) (j : Slot) :
    (m.wakeSleepingTasks.tasks j).state = (m.tasks j).state ∨
      (m.tasks j).state = .sleeping ∧
        (m.wakeSleepingTasks.tasks j).state = .ready := by
  simp only [Machine.wakeSleepingTasks]
  split
  · rename_i hsleeping
    exact Or.inr ⟨hsleeping.1, rfl⟩
  · exact Or.inl rfl

theorem Inv.wakeSleepingTasks (hinv : Inv m idle ini) :
    Inv m.wakeSleepingTasks idle ini := by
  refine hinv.wake (wakeSleepingTasks_family m) rfl rfl fun j => ?_
  exact (wakeSleepingTasks_state m j).imp_right fun hwoken =>
    ⟨by simp [hwoken.1], hwoken.2⟩

theorem Inv.tick (hinv : Inv m idle ini) : Inv m.tick idle ini ∧
    ∀ j, SameFamily (m.tasks j) (m.tick.tasks j) := by
  have hwoken := hinv.wakeSleepingTasks
  unfold Machine.tick
  dsimp only
  split
  · exact ⟨hwoken.wake (fun _ => SameFamily.refl _) rfl rfl
      fun _ => Or.inl rfl, wakeSleepingTasks_family m⟩
  · have hreset : Inv { m.wakeSleepingTasks with tickCounter := 0 } idle
        ini :=
      hwoken.wake (fun _ => SameFamily.refl _) rfl rfl fun _ => Or.inl rfl
    exact ⟨hreset.reschedule, fun j => (wakeSleepingTasks_family m j).trans
      (hreset.reschedule_family j)⟩

theorem Inv.timerInterrupt (hinv : Inv m idle ini) :
    Inv m.timerInterrupt idle ini ∧
      ∀ j, SameFamily (m.tasks j) (m.timerInterrupt.tasks j) :=
  Inv.tick (hinv.wake (fun _ => SameFamily.refl _) rfl rfl
    fun _ => Or.inl rfl)

theorem Created.ne (hcreated : Created m m' slot) (hlive : m.Live i) :
    i ≠ slot :=
  fun heq => hlive (heq ▸ hcreated.dead)

theorem Created.running (hcreated : Created m m' slot)
    (hrunning : Running m cur) : Running m' cur := by
  refine ⟨hcreated.onlyTasks.current_eq.trans hrunning.current, fun i => ?_⟩
  by_cases hi : i = slot
  · rw [hi]
    exact iff_of_false (by simp [hcreated.ready])
      (hcreated.ne hrunning.live).symm
  · rw [hcreated.state_eq i hi, hrunning.running_iff]

theorem Schedulable.live (hidle : Schedulable m idle) : m.Live idle := by
  rcases hidle with hready | hrun
  · simp [Live, hready]
  · simp [Live, hrun]

theorem Inv.created (hinv : Inv m idle ini) (hcreated : Created m m' slot) :
    Inv m' idle ini where
  family := hcreated.family
  claimed := hcreated.claimed hinv.claimed
  init := hinv.init.role (hcreated.role ini (hcreated.ne hinv.init.live))
    hcreated.onlyTasks.initPid_eq
  running := by
    obtain ⟨cur, hrunning⟩ := hinv.running
    exact ⟨cur, hcreated.running hrunning⟩
  idle_state := by
    rw [Schedulable, hcreated.state_eq idle
      (hcreated.ne hinv.idle_state.live)]
    exact hinv.idle_state

theorem Inv.reaped {child : Slot} (hinv : Inv m idle ini)
    (hreaped : Reaped m m' child) : Inv m' idle ini := by
  obtain ⟨cur, hrunning⟩ := hinv.running
  have hne : ∀ {i}, (m.tasks i).state ≠ .zombie → i ≠ child :=
    fun hstate heq => hstate (heq ▸ hreaped.zombie)
  have hidle : idle ≠ child := hne (by
    rcases hinv.idle_state with hready | hrun
    · simp [hready]
    · simp [hrun])
  exact {
    family := hreaped.family
    claimed := hreaped.claimed hinv.claimed
    init := hinv.init.role (hreaped.role ini (hne hinv.init.zombie))
      hreaped.onlyTasks.initPid_eq
    running := by
      refine ⟨cur, hreaped.onlyTasks.current_eq.trans hrunning.current,
        fun i => ?_⟩
      by_cases hi : i = child
      · rw [hi]
        exact iff_of_false (by simp [hreaped.dead])
          (hne hrunning.not_zombie).symm
      · rw [hreaped.state_eq i hi, hrunning.running_iff]
    idle_state := by
      rw [Schedulable, hreaped.state_eq idle hidle]
      exact hinv.idle_state }

theorem surrender_tasks_of_ne (m : Machine) (exitCode : Int)
    (hne : i ≠ cur) : (m.surrender cur exitCode).tasks i = m.tasks i := by
  simp [surrender, modify_tasks_of_ne _ _ hne]

theorem surrender_family (hrunning : Running m cur) (exitCode : Int)
    (j : Slot) :
    SameFamily (m.tasks j) ((m.surrender cur exitCode).tasks j) := by
  by_cases hj : j = cur
  · subst hj
    have hrun := (hrunning.running_iff j).mpr rfl
    simp only [surrender, modify_tasks_self]
    exact ⟨⟨⟨rfl, rfl, Iff.rfl⟩, Iff.rfl, fun hgone => by simp [hrun] at hgone⟩,
      rfl, rfl, rfl⟩
  · rw [surrender_tasks_of_ne m exitCode hj]
    exact SameFamily.refl _

/-- What an exit leaves to the scheduler. -/
structure Exited (m m' : Machine) (cur ini : Slot) : Prop where
  current : m'.current = some cur
  family : m'.Family
  claimed : m'.Claimed
  init : InitAlive m' ini
  gone : (m'.tasks cur).state = .zombie ∨ (m'.tasks cur).state = .dead
  wakes : ∀ j, j ≠ cur → (m'.tasks j).state = (m.tasks j).state ∨
    (m.tasks j).state = .blocked ∧ (m'.tasks j).state = .ready
  role : ∀ j, j ≠ cur → SameRole (m.tasks j) (m'.tasks j)
  moved : ∀ j, m'.Live j →
    (m'.tasks j).parentPid = (m.tasks j).parentPid ∨
      (m.tasks j).parentPid = (m.tasks cur).pid ∧
        (m'.tasks j).parentPid = m.initPid
  kept : (m.findByPid (m.tasks cur).parentPid).isSome →
    (m'.tasks cur).state = .zombie

theorem Inv.exited (hinv : Inv m idle ini) (hrunning : Running m cur)
    (hini : ini ≠ cur) (exitCode : Int) :
    ∃ m', (m.surrender cur exitCode).abandonChildren cur = some m' ∧
      Exited m (m'.finish cur) cur ini := by
  have hsurrender := surrender_family hrunning exitCode
  have hinit₀ : InitAlive (m.surrender cur exitCode) ini :=
    hinv.init.role (hsurrender ini).toSameRole rfl
  obtain ⟨m₁, habandon, hquiet, hfamily₁, hclaimed₁, hstripped, hmoved⟩ :=
    (hinv.family.congr hsurrender).abandonChildren
      (hinv.claimed.family hsurrender) hinit₀
      (SameIdentity.live (hsurrender cur).toSameIdentity hrunning.live) hini
      (by simp [surrender])
  have hfinished := hfamily₁.finish hstripped
  have hcurrent : m₁.current = some cur :=
    hquiet.onlyTasks.current_eq.trans hrunning.current
  refine ⟨m₁, habandon, hfinished.onlyTasks.current_eq.trans hcurrent,
    hfinished.family, hfinished.claimed hclaimed₁,
    (hinit₀.role (hquiet.role ini) hquiet.onlyTasks.initPid_eq).role
      (hfinished.role ini hini) hfinished.onlyTasks.initPid_eq,
    hfinished.gone, fun j hj => ?_, fun j hj => ((hsurrender j).toSameRole.trans
      (hquiet.role j)).trans (hfinished.role j hj), fun j hj => ?_,
    fun hfound => ?_⟩
  · have hbefore := hquiet.wakes j
    rw [surrender_tasks_of_ne m exitCode hj] at hbefore
    rcases hfinished.wakes j hj with hkept | ⟨hblocked, hready⟩
    · rw [hkept]
      exact hbefore
    · rcases hbefore with hkept | ⟨_, hready'⟩
      · exact Or.inr ⟨hkept ▸ hblocked, hready⟩
      · rw [hready'] at hblocked
        cases hblocked
  · rw [hfinished.parentPid_eq j hj, ← (hsurrender j).parentPid_eq,
      ← (hsurrender cur).pid_eq]
    exact hmoved j
  · apply hfinished.kept
    have hsame : m₁.findByPid = m.findByPid :=
      (findByPid_congr fun j => (hquiet.role j).toSameIdentity).trans
        (findByPid_congr fun j => (hsurrender j).toSameIdentity)
    rw [hsame]
    rcases hmoved cur with hparent | ⟨_, hparent⟩
    · rw [hparent, (hsurrender cur).parentPid_eq]
      exact hfound
    · have hinitPid : (m.surrender cur exitCode).initPid = m.initPid := rfl
      rw [hparent, hinitPid, ← hinv.init.pid_eq,
        hinv.family.pids.findByPid_eq hinv.init.live]
      rfl

theorem Exited.poised (hexited : Exited m m' cur ini)
    (hrunning : Running m cur) (hidle : (m.tasks idle).state = .ready)
    (hne : idle ≠ cur) : Poised m' idle cur := by
  refine ⟨hexited.current, fun j hj => ?_, ?_, Or.inl ?_⟩
  · rcases hexited.wakes j hj with hkept | ⟨_, hready⟩
    · rw [hkept]
      exact fun hrun => hj ((hrunning.running_iff j).mp hrun)
    · simp [hready]
  · rcases hexited.gone with hgone | hgone
    · simp [hgone]
    · simp [hgone]
  · rcases hexited.wakes idle hne with hkept | ⟨_, hready⟩
    · rw [hkept, hidle]
    · exact hready

theorem Inv.exitCurrent (hinv : Inv m idle ini) (hrunning : Running m cur)
    (hidle : idle ≠ cur) (hini : ini ≠ cur) (exitCode : Int) :
    ∃ m', m.exitCurrent exitCode = some m' ∧ Inv m' idle ini := by
  obtain ⟨m₁, habandon, hexited⟩ := hinv.exited hrunning hini exitCode
  have hpoised := hexited.poised hrunning
    (hrunning.idle_ready hinv.idle_state hidle) hidle
  refine ⟨(m₁.finish cur).reschedule, ?_, hpoised.inv hexited.family
    hexited.claimed hexited.init⟩
  rw [Machine.exitCurrent, hrunning.current]
  simp only [habandon]

theorem Inv.waitScan (hinv : Inv m idle ini) (hrunning : Running m cur)
    (hidle : idle ≠ cur) :
    ∃ m' outcome, m.waitScan cur = some (m', outcome) ∧
      Inv m' idle ini := by
  rcases hinv.family.waitScan_cases hrunning.live with
    ⟨hblocked, _⟩ | ⟨m', child, hreap, hreaped, _⟩
  · exact ⟨_, _, hblocked, (hinv.blockCurrent hrunning hidle).1⟩
  · exact ⟨_, _, hreap, hinv.reaped hreaped⟩

theorem Inv.reapPendingCleanup (hinv : Inv m idle ini) :
    Inv m.reapPendingCleanup.1 idle ini := by
  unfold Machine.reapPendingCleanup
  split
  · exact hinv.wake (fun _ => SameFamily.refl _) rfl rfl fun _ => Or.inl rfl
  · exact hinv

end Machine

/-- The operations of the current task and the timer.  `waitAgain` is the next
turn of the loop of a `wait_for_child` that had blocked. -/
inductive Op where
  | create (entry : EntryFn) (name : String) (stack : Nat)
  | createProcess (entry : EntryFn) (name : String)
      (stack cr3 userEntry userStackTop : Nat)
  | blockCurrent
  | unblock (pid : Pid)
  | sleepCurrent (ticks : UInt64)
  | timer
  | yield
  | waitForChild
  | waitAgain
  | exitCurrent (exitCode : Int)
  | reapPendingCleanup

inductive Report where
  | none
  | created (slot : Option Slot)
  | waited (outcome : Machine.WaitOutcome)
  | released (cleanup : PendingCleanup)
deriving Repr, DecidableEq

namespace Machine

def exec (m : Machine) : Op → Option (Machine × Report)
  | .create entry name stack =>
      let (m', slot) := m.create entry name stack
      some (m', .created slot)
  | .createProcess entry name stack cr3 userEntry userStackTop =>
      let (m', slot) :=
        m.createProcess entry name stack cr3 userEntry userStackTop
      some (m', .created slot)
  | .blockCurrent => some (m.blockCurrent, .none)
  | .unblock pid => some (m.unblock pid, .none)
  | .sleepCurrent ticks => some (m.sleepCurrent ticks, .none)
  | .timer => some (m.timerInterrupt, .none)
  | .yield => some (m.yield, .none)
  | .waitForChild =>
      m.waitForChild.map fun (m', outcome) => (m', .waited outcome)
  | .waitAgain =>
      match m.current with
      | none => some (m, .none)
      | some self =>
          (m.waitScan self).map fun (m', outcome) => (m', .waited outcome)
  | .exitCurrent exitCode =>
      (m.exitCurrent exitCode).map fun m' => (m', .none)
  | .reapPendingCleanup =>
      let (m', cleanup) := m.reapPendingCleanup
      some (m', .released cleanup)

end Machine

/-- The code of idle is a halt loop, so it never stops running of its own
accord, and neither idle nor init ever exits. -/
def Op.Allowed (idle : Slot) (m : Machine) : Op → Prop
  | .blockCurrent => m.current ≠ some idle
  | .sleepCurrent _ => m.current ≠ some idle
  | .waitForChild => m.current ≠ some idle
  | .waitAgain => m.current ≠ some idle
  | .exitCurrent _ => m.current ≠ some idle ∧ m.currentPid ≠ m.initPid
  | _ => True

instance (idle : Slot) (m : Machine) (op : Op) :
    Decidable (op.Allowed idle m) := by
  cases op <;> unfold Op.Allowed <;> infer_instance

open Machine

variable {m m' : Machine} {idle ini : Slot}

theorem Machine.Inv.exec (hinv : Inv m idle ini) {op : Op}
    (hop : op.Allowed idle m) :
    ∃ m' report, m.exec op = some (m', report) ∧ Inv m' idle ini := by
  obtain ⟨cur, hrunning⟩ := hinv.running
  have hidle : m.current ≠ some idle → idle ≠ cur := fun hne heq =>
    hne (heq ▸ hrunning.current)
  cases op with
  | create entry name stack =>
      rcases hinv.family.create_cases hrunning.current hrunning.live
        hrunning.not_zombie entry name stack with
        hfail | ⟨m', slot, hcreate, hcreated, _⟩
      · exact ⟨m, .created none, by simp [Machine.exec, hfail], hinv⟩
      · exact ⟨m', .created (some slot), by simp [Machine.exec, hcreate],
          hinv.created hcreated⟩
  | createProcess entry name stack cr3 userEntry userStackTop =>
      rcases hinv.family.createProcess_cases hrunning.current hrunning.live
        hrunning.not_zombie entry name stack cr3 userEntry userStackTop with
        hfail | ⟨m', slot, hcreate, hcreated, _⟩
      · exact ⟨m, .created none, by simp [Machine.exec, hfail], hinv⟩
      · exact ⟨m', .created (some slot), by simp [Machine.exec, hcreate],
          hinv.created hcreated⟩
  | blockCurrent =>
      exact ⟨_, _, rfl, (hinv.blockCurrent hrunning (hidle hop)).1⟩
  | unblock pid => exact ⟨_, _, rfl, hinv.unblock pid⟩
  | sleepCurrent ticks =>
      exact ⟨_, _, rfl, (hinv.sleepCurrent hrunning (hidle hop) ticks).1⟩
  | timer => exact ⟨_, _, rfl, hinv.timerInterrupt.1⟩
  | yield => exact ⟨_, _, rfl, hinv.reschedule⟩
  | waitForChild =>
      by_cases hfirst : (m.tasks cur).firstChild = noPid
      · refine ⟨m, .waited .noChild, ?_, hinv⟩
        simp [Machine.exec, waitForChild, hrunning.current, hfirst]
      · obtain ⟨m', outcome, hscan, hinv'⟩ :=
          hinv.waitScan hrunning (hidle hop)
        refine ⟨m', .waited outcome, ?_, hinv'⟩
        simp [Machine.exec, waitForChild, hrunning.current, hfirst, hscan]
  | waitAgain =>
      obtain ⟨m', outcome, hscan, hinv'⟩ :=
        hinv.waitScan hrunning (hidle hop)
      refine ⟨m', .waited outcome, ?_, hinv'⟩
      simp [Machine.exec, hrunning.current, hscan]
  | exitCurrent exitCode =>
      have hini : ini ≠ cur := by
        intro heq
        apply hop.2
        rw [currentPid, hrunning.current, ← hinv.init.pid_eq, heq]
      obtain ⟨m', hexit, hinv'⟩ :=
        hinv.exitCurrent hrunning (hidle hop.1) hini exitCode
      exact ⟨m', .none, by simp [Machine.exec, hexit], hinv'⟩
  | reapPendingCleanup => exact ⟨_, _, rfl, hinv.reapPendingCleanup⟩

theorem Machine.boot_family (m : Machine) (hdead : ∀ i, ¬ m.Live i)
    (howned : ∀ i, (m.tasks i).stackBase = 0 ∧ (m.tasks i).cr3 = 0) :
    m.Family where
  pids i hlive := absurd hlive (hdead i)
  childless i _ hzombie := absurd (live_of_zombie hzombie) (hdead i)
  stripped i _ := howned i
  valid := by
    have hnone : ∀ pid, ¬ m.forest.live pid := by
      rintro pid ⟨i, hfind⟩
      exact hdead i (findByPid_spec hfind).1
    exact ⟨hnone _, fun node hlive => absurd hlive (hnone node),
      fun node hlive => absurd hlive (hnone node)⟩

/-- A machine whose only tasks so far are ready or the running shell. -/
structure Machine.Starting (m : Machine) : Prop where
  family : m.Family
  claimed : m.Claimed
  running : Running m 0

theorem Machine.initShell_starting (cr3 : Nat) :
    (boot.initShell cr3).Starting := by
  have hdead : boot.Family := boot_family boot (fun i => by
    simp [boot, Live, Task.zero]) fun i => by simp [boot, Task.zero]
  have hborn : (boot.born 0 .null 0).Family := hdead.born rfl
  have hself : (boot.initShell cr3).tasks 0 =
      { Task.zero with
        state := .running
        generation := 1
        pid := makePid 0 1
        name := "shell" } := by
    simp [initShell, boot, Task.zero]
  have hother : ∀ i, i ≠ 0 → (boot.initShell cr3).tasks i = Task.zero := by
    intro i hi
    simp [initShell, boot, Task.zero, modify, hi]
  have hsame : ∀ i, SameFamily ((boot.born 0 .null 0).tasks i)
      ((boot.initShell cr3).tasks i) := by
    intro i
    by_cases hi : i = 0
    · subst hi
      rw [hself, born_tasks_self]
      refine ⟨⟨⟨rfl, rfl, ?_⟩, ?_, fun _ => ⟨rfl, rfl⟩⟩, rfl, rfl, rfl⟩
      · simp
      · simp
    · rw [hother i hi, born_tasks_of_ne hi]
      exact SameFamily.refl _
  refine ⟨hborn.congr hsame, fun i hzombie => ?_, rfl, fun i => ?_⟩
  · by_cases hi : i = 0
    · simp [hi, hself] at hzombie
    · simp [hother i hi, Task.zero] at hzombie
  · by_cases hi : i = 0
    · simp [hi, hself]
    · simp [hother i hi, Task.zero, hi]

theorem Machine.Starting.createOrphan (hstart : m.Starting)
    (entry : EntryFn) (name : String) (stack : Nat) :
    m.createOrphan entry name stack = some (m, none) ∨
      ∃ m' slot, m.createOrphan entry name stack = some (m', some slot) ∧
        m'.Starting ∧ Created m m' slot := by
  have hrunning := hstart.running
  unfold Machine.createOrphan
  rcases hstart.family.create_cases hrunning.current hrunning.live
    hrunning.not_zombie entry name stack with
    hfail | ⟨m₁, slot, hcreate, hcreated, hparent⟩
  · exact Or.inl (by rw [hfail])
  · have hshell := hcreated.role 0 (hcreated.ne hrunning.live)
    obtain ⟨m₂, hremove, hunlinked⟩ := hcreated.family.removeChild
      (SameIdentity.live hshell.toSameIdentity hrunning.live)
      (by simp [Live, hcreated.ready]) (hparent.trans hshell.pid_eq.symm)
    have hstate : ∀ j, ((m₂.setParentPid slot noPid).tasks j).state =
        (m₁.tasks j).state := fun j =>
      (modify_proj Task.state rfl j).trans (removeChild_state hremove j)
    have horphan : Created m (m₂.setParentPid slot noPid) slot := {
      family := hunlinked.family hcreated.family.toRoster
      onlyTasks := (hcreated.onlyTasks.trans hunlinked.onlyTasks).trans rfl
      dead := hcreated.dead
      ready := (hstate slot).trans hcreated.ready
      role := fun j hj => ((hcreated.role j hj).trans
        (hunlinked.role j)).trans (setParentPid_role m₂ slot noPid j)
      state_eq := fun j hj => (hstate j).trans (hcreated.state_eq j hj)
      parentPid_eq := fun j hj => by
        rw [setParentPid_parentPid, if_neg hj, hunlinked.parentPid_eq,
          hcreated.parentPid_eq j hj] }
    refine Or.inr ⟨m₂.setParentPid slot noPid, slot, ?_,
      ⟨horphan.family, horphan.claimed hstart.claimed,
        horphan.running hrunning⟩, horphan⟩
    rw [hcreate]
    simp only [orphan, hremove]

/-- A start that creates both kernel tasks, one after the other. -/
structure Machine.Booted (m : Machine) (idle ini : Slot)
    (cr3 idleStack initStack : Nat) (m₁ m₂ : Machine) : Prop where
  idle_made : (boot.initShell cr3).createOrphan .idleEntry "idle" idleStack =
    some (m₁, some idle)
  idle_created : Created (boot.initShell cr3) m₁ idle
  idle_starting : m₁.Starting
  init_made : m₁.createOrphan .initEntry "init" initStack =
    some (m₂, some ini)
  init_created : Created m₁ m₂ ini
  init_starting : m₂.Starting
  last : m = { m₂ with initPid := (m₂.tasks ini).pid }

variable {cr3 idleStack initStack : Nat}

theorem Machine.init_booted
    (hinit : boot.init cr3 idleStack initStack =
      some (m, some idle, some ini)) :
    ∃ m₁ m₂, Booted m idle ini cr3 idleStack initStack m₁ m₂ := by
  unfold Machine.init at hinit
  rcases (initShell_starting cr3).createOrphan .idleEntry "idle"
    idleStack with hfail | ⟨m₁, slot₁, hcreate₁, hstart₁, hcreated₁⟩
  · rw [hfail] at hinit
    dsimp only at hinit
    split at hinit
    all_goals cases hinit
  · rw [hcreate₁] at hinit
    dsimp only at hinit
    rcases hstart₁.createOrphan .initEntry "init" initStack with
      hfail | ⟨m₂, slot₂, hcreate₂, hstart₂, hcreated₂⟩
    · rw [hfail] at hinit
      cases hinit
    · rw [hcreate₂] at hinit
      cases hinit
      exact ⟨m₁, m₂, hcreate₁, hcreated₁, hstart₁, hcreate₂, hcreated₂,
        hstart₂, rfl⟩

theorem Machine.Booted.idle_live {m₁ m₂ : Machine}
    (hbooted : Booted m idle ini cr3 idleStack initStack m₁ m₂) :
    m₁.Live idle := by
  simp [Live, hbooted.idle_created.ready]

theorem Machine.init_inv
    (hinit : boot.init cr3 idleStack initStack =
      some (m, some idle, some ini)) : Inv m idle ini := by
  obtain ⟨m₁, m₂, hbooted⟩ := init_booted hinit
  have hstart := hbooted.init_starting
  have hready := hbooted.init_created.ready
  have hidle := (hbooted.init_created.state_eq idle
    (hbooted.init_created.ne hbooted.idle_live)).trans
      hbooted.idle_created.ready
  rw [hbooted.last]
  exact {
    family := hstart.family.congr fun _ => SameFamily.refl _
    claimed := hstart.claimed
    init := {
      live := by simp [Live, hready]
      zombie := by simp [hready]
      pid_eq := rfl }
    running := ⟨0, hstart.running.current, hstart.running.running_iff⟩
    idle_state := Or.inl hidle }

/-- The states that operations of the current task and the timer reach from a
start in which idle and init were created. -/
inductive Reaches (idle : Slot) : Machine → Prop where
  | start {cr3 idleStack initStack : Nat} {m : Machine} {ini : Slot}
      (hinit : Machine.boot.init cr3 idleStack initStack =
        some (m, some idle, some ini)) : Reaches idle m
  | step {m m' : Machine} {op : Op} {report : Report}
      (hreaches : Reaches idle m) (hop : op.Allowed idle m)
      (hexec : m.exec op = some (m', report)) : Reaches idle m'

theorem Reaches.inv (hreaches : Reaches idle m) : ∃ ini, Inv m idle ini := by
  induction hreaches with
  | start hinit => exact ⟨_, init_inv hinit⟩
  | step _ hop hexec ih =>
      obtain ⟨ini, hinv⟩ := ih
      obtain ⟨m', report, hexec', hinv'⟩ := hinv.exec hop
      rw [hexec] at hexec'
      cases hexec'
      exact ⟨ini, hinv'⟩

/-- Run operations one after the other, as long as they are allowed. -/
def Machine.replay (idle : Slot) (m : Machine) : List Op → Option Machine
  | [] => some m
  | op :: ops =>
      if op.Allowed idle m then
        match m.exec op with
        | none => none
        | some (m', _) => m'.replay idle ops
      else none

theorem Reaches.replay {ops : List Op} (hreaches : Reaches idle m)
    (hreplay : m.replay idle ops = some m') : Reaches idle m' := by
  induction ops generalizing m with
  | nil =>
      cases hreplay
      exact hreaches
  | cons op ops ih =>
      rw [Machine.replay] at hreplay
      split at hreplay
      · rename_i hop
        cases hexec : m.exec op with
        | none => simp [hexec] at hreplay
        | some result =>
            rw [hexec] at hreplay
            exact ih (hreaches.step hop hexec) hreplay
      · cases hreplay

def session (cr3 idleStack initStack : Nat) (ops : List Op) :
    Option (Slot × Machine) :=
  match Machine.boot.init cr3 idleStack initStack with
  | some (m, some idle, some _) =>
      (m.replay idle ops).map fun m' => (idle, m')
  | _ => none

theorem reaches_of_session {ops : List Op}
    (hsession : session cr3 idleStack initStack ops = some (idle, m)) :
    Reaches idle m := by
  unfold session at hsession
  split at hsession
  · rename_i hinit
    obtain ⟨m', hreplay, hresult⟩ := Option.map_eq_some_iff.mp hsession
    cases hresult
    exact (Reaches.start hinit).replay hreplay
  · cases hsession

/-- What every caller may rely on between two operations. -/
structure TableInvariant (m : Machine) (idle : Slot) : Prop where
  one_running : ∃ cur, m.current = some cur ∧
    ∀ i, (m.tasks i).state = .running ↔ i = cur
  idle_schedulable : (m.tasks idle).state = .ready ∨
    (m.tasks idle).state = .running
  findable : ∀ i, m.Live i → m.findByPid (m.tasks i).pid = some i
  owns_nothing : ∀ i, (m.tasks i).state = .dead ∨
      (m.tasks i).state = .zombie →
    (m.tasks i).stackBase = 0 ∧ (m.tasks i).cr3 = 0
  child_list : ∀ i, m.Live i → ∃ pids,
    Chain m.nextSiblingOf noPid (m.tasks i).firstChild pids ∧ pids.Nodup ∧
      ∀ pid, pid ∈ pids ↔ ∃ j, m.Live j ∧ (m.tasks j).pid = pid ∧
        (m.tasks j).parentPid = (m.tasks i).pid
  parent_alive : ∀ i, m.Live i → (m.tasks i).parentPid ≠ noPid →
    ∃ p, m.findByPid (m.tasks i).parentPid = some p ∧
      (m.tasks p).state ≠ .zombie
  zombie_claimed : ∀ i, (m.tasks i).state = .zombie →
    (m.tasks i).parentPid ≠ noPid

theorem Machine.Inv.tableInvariant (hinv : Inv m idle ini) :
    TableInvariant m idle where
  one_running := by
    obtain ⟨cur, hrunning⟩ := hinv.running
    exact ⟨cur, hrunning.current, hrunning.running_iff⟩
  idle_schedulable := hinv.idle_state
  findable i hlive := hinv.family.pids.findByPid_eq hlive
  owns_nothing := hinv.family.stripped
  child_list i hlive := by
    obtain ⟨cells, hcells⟩ := hinv.family.children hlive
    have hfirst : m.forest.first (m.tasks i).pid = (m.tasks i).firstChild :=
      hinv.family.pids.linkOf_pid hlive
    refine ⟨cells, hfirst ▸ hcells.chain, hcells.chain.nodup, fun pid => ?_⟩
    rw [hcells.mem_iff, hinv.family.pids.parent_iff]
  parent_alive i hlive hne := by
    have hpids := hinv.family.pids
    have hlink : m.forest.parent (m.tasks i).pid = (m.tasks i).parentPid :=
      hpids.linkOf_pid hlive
    obtain ⟨p, hp⟩ := hinv.family.valid.parent_live _
      (hpids.live_iff.mpr ⟨i, hlive, rfl⟩) (hlink ▸ hne)
    rw [hlink] at hp
    exact ⟨p, hp, fun hzombie => hinv.family.childless p i hzombie hlive
      (findByPid_spec hp).2.symm⟩
  zombie_claimed := hinv.claimed

/-- Every state that is reached has the invariant, and no operation walks a
child list for ever. -/
theorem task_table_invariant (hreaches : Reaches idle m) :
    TableInvariant m idle ∧
      ∀ op : Op, op.Allowed idle m → (m.exec op).isSome := by
  obtain ⟨ini, hinv⟩ := hreaches.inv
  refine ⟨hinv.tableInvariant, fun op hop => ?_⟩
  obtain ⟨m', report, hexec, _⟩ := hinv.exec hop
  simp [hexec]

/-- The shell waits for a worker that leaves an orphan to init. -/
def orphanSession : List Op :=
  [.create (.code 0x10000) "worker" 0x30000, .waitForChild, .timer, .timer,
    .timer, .timer, .timer, .waitForChild, .sleepCurrent 9,
    .create (.code 0x20000) "orphan" 0x40000, .exitCurrent 7,
    .reapPendingCleanup, .exitCurrent 0, .waitAgain]

theorem task_table_invariant_orphanSession :
    ∃ idle m, session 0x1000 0x10000 0x20000 orphanSession =
        some (idle, m) ∧
      TableInvariant m idle ∧ (m.exec .waitForChild).isSome := by
  have hsome : (session 0x1000 0x10000 0x20000 orphanSession).isSome := by
    decide +kernel
  obtain ⟨⟨idle, m⟩, hsession⟩ := Option.isSome_iff_exists.mp hsome
  have hidle : m.current ≠ some idle := by
    have hcurrent : (session 0x1000 0x10000 0x20000 orphanSession).map
        (fun result => (result.2.current, result.1)) = some (some 0, 1) := by
      decide +kernel
    rw [hsession] at hcurrent
    simp only [Option.map_some, Option.some.injEq, Prod.mk.injEq] at hcurrent
    simp [hcurrent.1, hcurrent.2]
  obtain ⟨htable, hreturns⟩ :=
    task_table_invariant (reaches_of_session hsession)
  exact ⟨idle, m, hsession, htable, hreturns .waitForChild hidle⟩

end Tasks

end VenomOS
