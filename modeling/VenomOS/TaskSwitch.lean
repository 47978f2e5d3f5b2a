/-
Switches, the timer interrupt and the exit of a task keep the threads and the
table in agreement.
-/
import VenomOS.TaskCustody

namespace VenomOS

namespace Tasks

namespace Kernel

variable {k k' : Kernel} {cur : Slot} {m' : Machine}

theorem switchTo_registers {m : Machine} {next : Slot}
    (hcurrent : m.current = some cur) (hne : next ≠ cur) :
    (m.switchTo next).kernelCr3 = m.kernelCr3 ∧
      (m.switchTo next).pendingCleanup = m.pendingCleanup ∧
      (m.switchTo next).loadedCr3 =
        if (m.tasks next).cr3 ≠ 0 then (m.tasks next).cr3
        else m.kernelCr3 := by
  have hne' : m.current ≠ some next := by simpa [hcurrent] using hne.symm
  have hcr3 : ((m.demote.setState next .running).tasks next).cr3 =
      (m.tasks next).cr3 :=
    ((Machine.demote_keeps m Blind.cr3).trans
      (Machine.setState_keeps _ Blind.cr3 next .running)) next
  have hdemote : m.demote.kernelCr3 = m.kernelCr3 ∧
      m.demote.pendingCleanup = m.pendingCleanup := by
    unfold Machine.demote
    rw [hcurrent]
    dsimp only
    split <;> exact ⟨rfl, rfl⟩
  rw [Machine.switchTo, if_neg hne']
  refine ⟨hdemote.1, hdemote.2, ?_⟩
  simp only [hcr3]
  rw [← hdemote.1]
  rfl

section

variable {next : Slot} (hthreads : k.Threads cur) (hne : next ≠ cur)
  (hready : (k.machine.tasks next).state = .ready)

include hthreads hne

/-- The threads stay what they are; only the running one changes. -/
theorem Threads.switchTo_thread (i : Slot) :
    ((k.switchTo cur next k.control).thread i).stack = (k.thread i).stack ∧
      ((k.switchTo cur next k.control).thread i).control =
        (k.thread i).control := by
  have hcurrent : (k.machine.switchTo next).current = some next := by
    rw [Machine.switchTo, if_neg]
    simpa [hthreads.current] using hne.symm
  rw [Kernel.switchTo, if_neg hne]
  by_cases hi : i = next
  · rw [hi, hthreads.thread_of_ne hne, thread, if_pos hcurrent]
    exact ⟨rfl, rfl⟩
  · have hi' : (k.machine.switchTo next).current ≠ some i := by
      simpa [hcurrent] using Ne.symm hi
    rw [thread, if_neg hi']
    dsimp only
    by_cases hcur : i = cur
    · rw [hcur, hthreads.thread_cur, Function.update_self]
      exact ⟨rfl, rfl⟩
    · rw [hthreads.thread_of_ne hcur, Function.update_of_ne hcur]
      exact ⟨rfl, rfl⟩

include hready

theorem Threads.switchTo_active (i : Slot) :
    ((k.switchTo cur next k.control).machine.tasks i).state.active =
      (k.machine.tasks i).state.active := by
  have hswitched := Machine.switchTo_switched hthreads.current hne hready
  rw [Kernel.switchTo, if_neg hne]
  by_cases hnext : i = next
  · rw [hnext, hswitched.next_state, hready]
    rfl
  · by_cases hcur : i = cur
    · rw [hcur, hswitched.cur_state]
      split
      · rename_i hrunning
        rw [hrunning]
        rfl
      · rfl
    · rw [hswitched.other_state i hnext hcur]

theorem Threads.switchTo_content (htail : k.tail = none) (r : Resource) :
    (k.switchTo cur next k.control).content r = k.content r := by
  funext p
  cases p with
  | task i =>
      rw [Kernel.switchTo, if_neg hne]
      cases r with
      | kernelStack => exact Machine.switchTo_keeps _ Blind.stackBase next i
      | addressSpace => exact Machine.switchTo_keeps _ Blind.cr3 next i
  | pending =>
      rw [Kernel.switchTo, if_neg hne]
      exact congrArg r.ofPending
        (switchTo_registers hthreads.current hne).2.1
  | tail =>
      rw [Kernel.switchTo, if_neg hne]
      simp only [content, htail]
      split <;> cases r <;> rfl
  | thread i =>
      simp only [content, hthreads.switchTo_active hne hready,
        (hthreads.switchTo_thread hne i).2]

theorem Threads.switchTo (hsettled : k.control.halfway = false) :
    (k.switchTo cur next k.control).Threads next := by
  have hactive := hthreads.switchTo_active hne hready
  have hthread := hthreads.switchTo_thread hne
  have hnext : (k.machine.tasks next).state.active := by
    rw [hready]
    rfl
  have hstack := Machine.switchTo_keeps k.machine Blind.stackBase next
  obtain ⟨hkernel, _, hloaded⟩ := switchTo_registers hthreads.current hne
  have hcr3 := Machine.switchTo_keeps k.machine Blind.cr3 next
  have hcontrol := hthreads.control_ne next hnext
  rw [hthreads.thread_of_ne hne] at hcontrol
  have hhalfway := hthreads.settled next hne hnext
  have heq : k.switchTo cur next k.control = { k with
      machine := k.machine.switchTo next
      contexts := Function.update k.contexts cur ⟨k.stack, k.control, false⟩
      stack := (k.contexts next).stack
      tail := if (k.contexts next).fresh then none else some .start
      control := (k.contexts next).control } := if_neg hne
  have hother : ∀ i,
      ((k.switchTo cur next k.control).machine.tasks i).state.active →
      (k.switchTo cur next k.control).contexts i =
          ⟨k.stack, k.control, false⟩ ∨
        i ≠ cur ∧ (k.machine.tasks i).state.active ∧
          (k.switchTo cur next k.control).contexts i = k.contexts i := by
    intro i hi
    rw [hactive] at hi
    rw [heq]
    by_cases hcur : i = cur
    · exact Or.inl (hcur ▸ Function.update_self _ _ _)
    · exact Or.inr ⟨hcur, hi, Function.update_of_ne hcur _ _⟩
  constructor
  · rw [heq]
    exact (Machine.switchTo_switched hthreads.current hne hready).current
  · intro _
    rwa [hactive]
  · rw [heq]
    exact fun _ => hcontrol
  · intro i hi
    rw [hactive] at hi
    rw [(hthread i).1, hthreads.stack_eq i hi, heq]
    exact (hstack i).symm
  · intro i hi
    rw [hactive] at hi
    rw [(hthread i).2]
    exact hthreads.control_ne i hi
  · intro i _ hi
    rcases hother i hi with hself | ⟨hcur, hold, hsame⟩
    · rw [hself]
      exact hsettled
    · rw [hsame]
      exact hthreads.settled i hcur hold
  · intro i _ hi hfresh
    rcases hother i hi with hself | ⟨hcur, hold, hsame⟩
    · simp [hself] at hfresh
    · rw [hsame] at hfresh ⊢
      exact hthreads.fresh i hcur hold hfresh
  · intro _
    rw [heq]
    dsimp only
    rw [hloaded, hkernel, hcr3]
  · intro stage slot stack request hcreating
    rw [heq] at hcreating
    exact absurd (congrArg Control.halfway hcreating) (by simp [hhalfway]; rfl)
  · intro change i hchanging
    rw [heq] at hchanging
    exact absurd (congrArg Control.halfway hchanging) (by simp [hhalfway]; rfl)

end

theorem Inv.reschedule (hinv : k.Inv) (htail : k.tail = none)
    (hsettled : k.control.halfway = false) :
    (k.reschedule k.control).Inv := by
  obtain ⟨cur, hthreads⟩ := hinv.threads
  unfold Kernel.reschedule
  rw [hthreads.current]
  rcases Machine.nextReady_cases k.machine with
    ⟨next, hnext, hready⟩ | ⟨hnext, _⟩
  · rw [hnext]
    dsimp only
    by_cases hne : next = cur
    · rw [Kernel.switchTo, if_pos hne]
      exact hinv
    · obtain ⟨hkernel, hpending, _⟩ := switchTo_registers hthreads.current hne
      refine ⟨⟨next, hthreads.switchTo hne hready hsettled⟩, ⟨?_, ?_⟩,
        fun r => ?_, ?_⟩
      · intro _
        rw [Kernel.switchTo, if_neg hne]
        by_cases hfresh : (k.contexts next).fresh
        · have hstart := hthreads.fresh next hne (by rw [hready]; rfl) hfresh
          simp [reaper, hfresh, hstart]
        · simp [reaper, hfresh]
      · rw [Kernel.switchTo, if_neg hne]
        dsimp only
        rw [hpending]
        exact hinv.awaited.empty
      · have hwaste : ∀ p, (k.switchTo cur next k.control).Waste p →
            k.content r p ≠ 0 → k.Waste p := by
          intro p hp _
          cases p with
          | thread i =>
              obtain ⟨reap, hreap⟩ := hp
              exact ⟨reap, (hthreads.switchTo_thread hne i).2.symm.trans hreap⟩
          | task i => exact hp
          | pending => exact hp
          | tail => exact hp
        rw [hthreads.switchTo_content hne hready htail]
        have hcustody := (hinv.custody r).mono hwaste
        rw [Kernel.switchTo, if_neg hne] at hcustody ⊢
        cases r <;> exact hcustody
      · rw [Kernel.switchTo, if_neg hne]
        dsimp only
        rw [hkernel]
        exact hinv.kernel
  · rw [hnext]
    exact hinv

theorem wakeSleepingTasks_settled (m : Machine) (timerTicks : UInt64)
    (tickCounter : Nat) :
    Settled m { ({ m with timerTicks := timerTicks }.wakeSleepingTasks) with
      tickCounter := tickCounter } := by
  have hstate := Machine.wakeSleepingTasks_state
    { m with timerTicks := timerTicks }
  have hstack := Machine.wakeSleepingTasks_keeps
    { m with timerTicks := timerTicks } Blind.stackBase
  have hcr3 := Machine.wakeSleepingTasks_keeps
    { m with timerTicks := timerTicks } Blind.cr3
  refine ⟨rfl, rfl, rfl, rfl, hstack, hcr3, fun i => ?_, fun i hunborn => ?_⟩
  · rcases hstate i with hsame | ⟨hasleep, hready⟩
    · exact congrArg State.active hsame
    · exact (congrArg State.active hready).trans
        (congrArg State.active hasleep).symm
  · rcases hstate i with hsame | ⟨hasleep, _⟩
    · exact hsame
    · rw [hasleep] at hunborn
      simp at hunborn

theorem Inv.timerInterrupt (hinv : k.Inv) (htail : k.tail = none)
    (hcalm : k.control.halfway = true →
      k.machine.tickCounter + 1 < ticksPerSwitch) :
    k.timerInterrupt.Inv := by
  obtain ⟨cur, hthreads⟩ := hinv.threads
  have hwoken : ∀ count, ({ k with machine := { ({ k.machine with
      timerTicks := k.machine.timerTicks + 1 }.wakeSleepingTasks) with
        tickCounter := count } } : Kernel).Inv := by
    intro count
    apply hinv.settle (wakeSleepingTasks_settled _ _ _)
    intro change i hcontrol
    apply (Machine.wakeSleepingTasks_state _ i).resolve_right
    rintro ⟨hasleep, _⟩
    have htested := (hthreads.changing change i hcontrol).symm.trans hasleep
    cases change <;> cases htested
  unfold Kernel.timerInterrupt
  dsimp only
  split
  · exact hwoken _
  · rename_i hswitch
    apply Inv.reschedule (hwoken 0) htail
    by_contra hhalfway
    exact hswitch (hcalm (by simpa using hhalfway))

theorem Inv.assign (hinv : k.Inv) (i : Slot)
    (parentPid firstChild nextSibling : Pid) (wakeTick : UInt64) :
    (k.assign i parentPid firstChild nextSibling wakeTick).Inv := by
  have hkeeps : Machine.Keeps Task.holdings k.machine
      (k.assign i parentPid firstChild nextSibling wakeTick).machine := by
    unfold Kernel.assign
    dsimp only
    apply Machine.modify_keeps
    intro t
    rfl
  have hstate := fun j => congrArg (fun held => held.2.2) (hkeeps j)
  exact hinv.settle ⟨rfl, rfl, rfl, rfl, fun j => congrArg Prod.fst (hkeeps j),
    fun j => congrArg (fun held => held.2.1) (hkeeps j),
    fun j => congrArg State.active (hstate j), fun j _ => hstate j⟩
    fun _ j _ => hstate j

/-- The state of one task is set, and it stays schedulable or not. -/
theorem Inv.setState (hinv : k.Inv) {i : Slot} {state : State}
    (hactive : state.active = (k.machine.tasks i).state.active)
    (hborn : (k.machine.tasks i).state ≠ .dead ∧
      (k.machine.tasks i).state ≠ .new)
    (hcontrol : k.control = .running) :
    ({ k with machine := k.machine.setState i state } : Kernel).Inv := by
  refine hinv.settle ⟨rfl, rfl, rfl, rfl, ?_, ?_, ?_, ?_⟩ (by simp [hcontrol])
  · exact Machine.setState_keeps _ Blind.stackBase i state
  · exact Machine.setState_keeps _ Blind.cr3 i state
  · exact Machine.modify_proj (fun t => t.state.active) hactive
  · intro j hunborn
    have hne : j ≠ i := by
      rintro rfl
      exact hunborn.elim hborn.1 hborn.2
    rw [Machine.setState_tasks_of_ne _ _ hne]

theorem Inv.setOwnState (hinv : k.Inv) (hcontrol : k.control = .running)
    {state : State} (hactive : state.active = true) :
    (k.setOwnState state).Inv := by
  obtain ⟨cur, hthreads⟩ := hinv.threads
  have hself := hthreads.active (by simp [hcontrol])
  rw [Kernel.setOwnState, hthreads.current]
  apply hinv.setState (hactive.trans hself.symm) _ hcontrol
  constructor
  · rintro hdead
    rw [hdead] at hself
    cases hself
  · rintro hnew
    rw [hnew] at hself
    cases hself

/-- A thread that has nothing in its hands goes to another such place. -/
theorem Inv.setControl {control' : Control} (hinv : k.Inv)
    (hcontrol : k.control = .running ∨ ∃ change i,
      k.control = .changing change i)
    (hcontrol' : control' = .running ∨ ∃ change i,
      control' = .changing change i ∧
        (k.machine.tasks i).state = change.tested) :
    ({ k with control := control' } : Kernel).Inv := by
  obtain ⟨cur, hthreads⟩ := hinv.threads
  have hne : k.control ≠ .halted := by
    rcases hcontrol with h | ⟨_, _, h⟩ <;> simp [h]
  have hempty : ∀ r : Resource, r.ofControl k.control = 0 := by
    rcases hcontrol with h | ⟨_, _, h⟩ <;> simp [h, Resource.ofControl]
  have hempty' : ∀ r : Resource, r.ofControl control' = 0 := by
    rcases hcontrol' with h | ⟨_, _, h, _⟩ <;> simp [h, Resource.ofControl]
  have hreaper : ({ k with control := control' } : Kernel).reaper =
      k.reaper := by
    rcases hcontrol with h | ⟨_, _, h⟩ <;>
      rcases hcontrol' with h' | ⟨_, _, h', _⟩ <;>
        simp only [reaper, h, h'] <;> cases k.tail <;> rfl
  refine ⟨⟨cur, hthreads.setControl hne ?_ ?_ ?_⟩, ⟨fun hactive => ?_,
    hinv.awaited.empty⟩, fun r => ?_, hinv.kernel⟩
  · rcases hcontrol' with h | ⟨_, _, h, _⟩ <;> simp [h]
  · rcases hcontrol' with h | ⟨_, _, h, _⟩ <;> simp [h]
  · rcases hcontrol' with h | ⟨change, i, h, htested⟩
    · simp [h]
    · rintro _ _ hchanging
      cases h.symm.trans hchanging
      exact htested
  · rw [hreaper]
    rcases hinv.awaited.reaper hactive with h | h | h
    · exact Or.inl h
    · exact Or.inr (Or.inl h)
    · exact absurd h hne
  · have hcontent := hthreads.content_setControl hne control' r
    rw [hempty', Function.update_eq_self_iff.mpr
      ((hthreads.content_cur hne r).trans (hempty r)).symm] at hcontent
    have hwaste : ∀ q, ({ k with control := control' } : Kernel).Waste q →
        k.content r q ≠ 0 → k.Waste q := by
      intro q hq _
      rcases hthreads.waste_setControl hq with hold | ⟨_, reap, hreap⟩
      · exact hold
      · rcases hcontrol' with h | ⟨_, _, h, _⟩ <;>
          cases h.symm.trans hreap
    have hcustody := (hinv.custody r).mono hwaste
    rw [hcontent]
    cases r <;> exact hcustody

theorem Inv.test (hinv : k.Inv) (hcontrol : k.control = .running)
    (change : Change) (i : Slot) : (k.test change i).Inv := by
  unfold Kernel.test
  split
  · exact hinv.setControl (Or.inl hcontrol) (Or.inr ⟨change, i, rfl, ‹_›⟩)
  · exact hinv

/-- The store after the test. -/
theorem Inv.change (hinv : k.Inv) {change : Change} {i : Slot}
    (hcontrol : k.control = .changing change i) :
    ({ k with
      machine := k.machine.setState i change.stored
      control := .running } : Kernel).Inv := by
  obtain ⟨cur, hthreads⟩ := hinv.threads
  have htested := hthreads.changing change i hcontrol
  have hrunning : ({ k with control := .running } : Kernel).Inv :=
    hinv.setControl (Or.inr ⟨change, i, hcontrol⟩) (Or.inl rfl)
  apply hrunning.setState _ _ rfl
  · rw [htested]
    exact change.active_stored
  · rw [htested]
    cases change <;> decide

theorem reschedule_control (k : Kernel) (after : Control) :
    k.reschedule after =
      ({ k with control := after } : Kernel).reschedule after := rfl

/-- What the exit of `cur` does to the table. -/
structure Departs (m m' : Machine) (cur : Slot) : Prop where
  current_eq : m'.current = m.current
  kernelCr3_eq : m'.kernelCr3 = m.kernelCr3
  pending_eq : m'.pendingCleanup =
    ⟨(m.tasks cur).stackBase, (m.tasks cur).cr3,
      (m.tasks cur).stackBase != 0 || (m.tasks cur).cr3 != 0⟩
  owned : ∀ r : Resource, r.ofTask (m'.tasks cur) = 0
  inactive : (m'.tasks cur).state.active = false
  owned_eq : ∀ (r : Resource) i, i ≠ cur →
    r.ofTask (m'.tasks i) = r.ofTask (m.tasks i)
  active_eq : ∀ i, i ≠ cur →
    (m'.tasks i).state.active = (m.tasks i).state.active

theorem exit_departs {m m₁ : Machine} {exitCode : Int}
    (habandon : (m.surrender cur exitCode).abandonChildren cur = some m₁) :
    Departs m (m₁.finish cur) cur := by
  have hquiet := Machine.abandonChildren_quiet habandon
  obtain ⟨state, hstate, hfinish⟩ := Machine.finish_quiet m₁ cur
  have honly := hquiet.onlyTasks
  have hrest : m₁.finish cur = { m.surrender cur exitCode with
      tasks := (m₁.finish cur).tasks } := by
    rw [hfinish.onlyTasks]
    change { m₁ with tasks := _ } = _
    rw [honly]
  have howned : ∀ (r : Resource) i, r.ofTask ((m₁.finish cur).tasks i) =
      r.ofTask ((m.surrender cur exitCode).tasks i) := by
    intro r i
    have hset := Machine.setState_keeps m₁ (g := r.ofTask)
      (by cases r; exacts [Blind.stackBase, Blind.cr3]) cur state i
    cases r with
    | kernelStack =>
        exact ((hfinish.owned_eq i).1.trans hset).trans (hquiet.owned_eq i).1
    | addressSpace =>
        exact ((hfinish.owned_eq i).2.trans hset).trans (hquiet.owned_eq i).2
  have hwakes : ∀ {t t' : State}, t' = t ∨ t = .blocked ∧ t' = .ready →
      t'.active = t.active := by
    rintro t t' (rfl | ⟨rfl, rfl⟩) <;> rfl
  refine ⟨?_, ?_, ?_, fun r => ?_, ?_, fun r i hi => ?_, fun i hi => ?_⟩
  · rw [hrest]
    rfl
  · rw [hrest]
    rfl
  · rw [hrest]
    rfl
  · rw [howned]
    simp only [Machine.surrender, Machine.modify_tasks_self]
    cases r <;> rfl
  · rw [hwakes (hfinish.wakes cur), Machine.setState_tasks_self]
    rcases hstate with rfl | rfl <;> rfl
  · rw [howned, Machine.surrender, Machine.modify_tasks_of_ne _ _ hi]
  · rw [hwakes (hfinish.wakes i), Machine.setState_tasks_of_ne _ _ hi,
      hwakes (hquiet.wakes i), Machine.surrender,
      Machine.modify_tasks_of_ne _ _ hi]

/-- The kernel before the `reschedule` of an exit that leaves the table `m'`. -/
def departed (k : Kernel) (m' : Machine) (cur : Slot) : Kernel :=
  { k with
    machine := m'
    control := .halted
    retiredStacks := insert (k.machine.tasks cur).stackBase k.retiredStacks
    retiredSpaces := insert (k.machine.tasks cur).cr3 k.retiredSpaces }

section

variable (hthreads : k.Threads cur) (hdeparts : Departs k.machine m' cur)

include hthreads hdeparts

theorem departed_thread {i : Slot} (hne : i ≠ cur) :
    (k.departed m' cur).thread i = k.contexts i := by
  refine if_neg fun hself => hne ?_
  exact Option.some.inj (hself.symm.trans
    (hdeparts.current_eq.trans hthreads.current))

theorem departed_content (hcontrol : k.control = .running) (r : Resource) :
    (k.departed m' cur).content r = Function.update (Function.update
      (k.content r) (.task cur) 0) .pending (k.content r (.task cur)) := by
  funext q
  cases q with
  | pending =>
      rw [Function.update_self]
      refine (congrArg r.ofPending hdeparts.pending_eq).trans ?_
      cases r <;> rfl
  | task i =>
      rw [Function.update_of_ne (by simp)]
      by_cases hi : i = cur
      · rw [hi, Function.update_self]
        exact hdeparts.owned r
      · rw [Function.update_of_ne (by simpa using hi)]
        exact hdeparts.owned_eq r i hi
  | tail =>
      rw [Function.update_of_ne (by simp), Function.update_of_ne (by simp)]
      rfl
  | thread i =>
      rw [Function.update_of_ne (by simp), Function.update_of_ne (by simp)]
      by_cases hi : i = cur
      · have hrunning := hthreads.content_cur (by simp [hcontrol]) r
        rw [hi, hrunning, hcontrol]
        exact if_neg (by simp [departed, hdeparts.inactive])
      · rw [content, content, departed_thread hthreads hdeparts hi,
          hthreads.thread_of_ne hi]
        simp only [departed, hdeparts.active_eq i hi]

theorem departed_waste {q : Place} (hwaste : (k.departed m' cur).Waste q) :
    k.Waste q := by
  cases q with
  | thread i =>
      have hi : i ≠ cur := by
        rintro rfl
        obtain ⟨reap, hreap⟩ := hwaste
        have hcurrent := hdeparts.current_eq.trans hthreads.current
        simp [thread, departed, hcurrent] at hreap
      rw [Waste, departed_thread hthreads hdeparts hi] at hwaste
      rwa [Waste, hthreads.thread_of_ne hi]
  | task i => exact hwaste
  | pending => exact hwaste
  | tail => exact hwaste

theorem Threads.depart (htail : k.tail = none) :
    (k.departed m' cur).Threads cur := by
  have hother : ∀ i, (m'.tasks i).state.active → i ≠ cur ∧
      (k.machine.tasks i).state.active := by
    intro i hi
    have hne : i ≠ cur := fun heq => by
      rw [heq, hdeparts.inactive] at hi
      cases hi
    exact ⟨hne, (hdeparts.active_eq i hne).symm.trans hi⟩
  constructor
  · exact hdeparts.current_eq.trans hthreads.current
  · exact fun hne => absurd rfl hne
  · exact fun hne => absurd htail hne
  · intro i hi
    obtain ⟨hne, hold⟩ := hother i hi
    have hstack := hthreads.stack_eq i hold
    rw [hthreads.thread_of_ne hne] at hstack
    rw [departed_thread hthreads hdeparts hne, hstack]
    exact (hdeparts.owned_eq .kernelStack i hne).symm
  · intro i hi
    obtain ⟨hne, hold⟩ := hother i hi
    rw [departed_thread hthreads hdeparts hne, ← hthreads.thread_of_ne hne]
    exact hthreads.control_ne i hold
  · exact fun i hne hi => hthreads.settled i hne (hother i hi).2
  · exact fun i hne hi => hthreads.fresh i hne (hother i hi).2
  · exact fun hne => absurd rfl hne
  · intro stage slot stack request hcreating
    cases hcreating
  · intro change i hchanging
    cases hchanging

theorem Inv.depart (hinv : k.Inv) (hcontrol : k.control = .running)
    (htail : k.tail = none) : (k.departed m' cur).Inv := by
  refine ⟨⟨cur, hthreads.depart hdeparts htail⟩,
    ⟨fun _ => Or.inr (Or.inr rfl), fun hactive => ?_⟩, fun r => ?_, ?_⟩
  · dsimp only [departed] at hactive ⊢
    rw [hdeparts.pending_eq] at hactive ⊢
    simpa using hactive
  · have hmoved := (hinv.custody r).move
      (departed_content hthreads hdeparts hcontrol r)
      (fun _ _ hwaste _ => departed_waste hthreads hdeparts hwaste)
      (Finset.subset_insert (k.content r (.task cur)) _)
      fun _ _ => Finset.mem_insert_self _ _
    cases r <;> exact hmoved
  · dsimp only [departed]
    rw [hdeparts.kernelCr3_eq]
    exact hinv.kernel

end

theorem Inv.exitCurrent (hinv : k.Inv) (htail : k.tail = none)
    (hcontrol : k.control = .running) {exitCode : Int}
    (hexit : k.exitCurrent exitCode = some k') : k'.Inv := by
  obtain ⟨cur, hthreads⟩ := hinv.threads
  rw [Kernel.exitCurrent, hthreads.current] at hexit
  dsimp only at hexit
  split at hexit
  · cases hexit
  · rename_i m habandon
    cases hexit
    have hdeparts := exit_departs habandon
    rw [reschedule_control]
    exact Inv.reschedule (Inv.depart hthreads hdeparts hinv hcontrol htail)
      htail rfl

end Kernel

end Tasks

end VenomOS
