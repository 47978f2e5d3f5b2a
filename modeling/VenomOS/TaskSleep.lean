/-
Sleeping tasks.  While a task sleeps nothing but the timer touches its state,
and the timer compares the tick counter with a wake-up time that was computed
in 64 bits.
-/
import VenomOS.TaskRuns

namespace VenomOS

namespace Tasks

open LinkedChain

namespace Machine

variable {m m' : Machine} {i j idle ini : Slot} {wake now : UInt64}

/-- A task sleeps until a tick. -/
structure Dozes (m : Machine) (i : Slot) (wake now : UInt64) : Prop where
  state : (m.tasks i).state = .sleeping
  wakeTick : (m.tasks i).wakeTick = wake
  ticks : m.timerTicks = now

namespace Dozes

variable (hdozes : Dozes m i wake now)

include hdozes

theorem ne_of_state {state : State} (hstate : (m.tasks j).state = state)
    (hne : state ≠ .sleeping) : j ≠ i := by
  rintro rfl
  exact hne (hstate.symm.trans hdozes.state)

theorem modify (hne : j ≠ i) (f : Task → Task) :
    Dozes (m.modify j f) i wake now where
  state := by rw [modify_tasks_of_ne m f hne.symm, hdozes.state]
  wakeTick := by rw [modify_tasks_of_ne m f hne.symm, hdozes.wakeTick]
  ticks := hdozes.ticks

theorem demote : Dozes m.demote i wake now := by
  unfold Machine.demote
  split
  · split
    · rename_i hrunning
      exact hdozes.modify (hdozes.ne_of_state hrunning (by decide)) _
    · exact hdozes
  · exact hdozes

theorem switchTo (hne : j ≠ i) : Dozes (m.switchTo j) i wake now := by
  unfold Machine.switchTo
  split
  · exact hdozes
  · have hnext := hdozes.demote.modify hne fun t =>
      { t with state := .running }
    exact ⟨hnext.state, hnext.wakeTick, hnext.ticks⟩

/-- The scheduler looks for ready tasks only. -/
theorem reschedule : Dozes m.reschedule i wake now := by
  unfold Machine.reschedule
  rcases nextReady_cases m with ⟨next, hnext, hready⟩ | ⟨hnone, _⟩
  · rw [hnext]
    exact hdozes.switchTo (hdozes.ne_of_state hready (by decide))
  · rw [hnone]
    exact hdozes

end Dozes

/-- A task sleeps while another task is current. -/
structure Sleeps (m : Machine) (i : Slot) (wake now : UInt64) : Prop
    extends Dozes m i wake now where
  away : m.current ≠ some i

namespace Sleeps

variable (hsleeps : Sleeps m i wake now)

include hsleeps

theorem modify (hne : j ≠ i) (f : Task → Task) :
    Sleeps (m.modify j f) i wake now :=
  ⟨hsleeps.toDozes.modify hne f, hsleeps.away⟩

/-- Links may change, of the sleeping task too. -/
theorem link (j : Slot) {f : Task → Task} (hstate : ∀ t, (f t).state = t.state)
    (hwake : ∀ t, (f t).wakeTick = t.wakeTick) :
    Sleeps (m.modify j f) i wake now where
  state := (modify_proj Task.state (hstate _) i).trans hsleeps.state
  wakeTick := (modify_proj Task.wakeTick (hwake _) i).trans hsleeps.wakeTick
  away := hsleeps.away
  ticks := hsleeps.ticks

theorem setParentPid (j : Slot) (pid : Pid) :
    Sleeps (m.setParentPid j pid) i wake now :=
  hsleeps.link j (fun _ => rfl) fun _ => rfl

theorem setFirstChild (j : Slot) (pid : Pid) :
    Sleeps (m.setFirstChild j pid) i wake now :=
  hsleeps.link j (fun _ => rfl) fun _ => rfl

theorem setNextSibling (j : Slot) (pid : Pid) :
    Sleeps (m.setNextSibling j pid) i wake now :=
  hsleeps.link j (fun _ => rfl) fun _ => rfl

theorem addChild (p child : Slot) : Sleeps (m.addChild p child) i wake now :=
  (hsleeps.setNextSibling child _).setFirstChild p _

theorem removeChild {p : Slot} {pid : Pid}
    (hremove : m.removeChild p pid = some m') : Sleeps m' i wake now := by
  unfold Machine.removeChild at hremove
  split at hremove
  · cases hremove
    exact hsleeps.setFirstChild _ _
  · split at hremove
    · cases hremove
    · split at hremove
      · cases hremove
        exact hsleeps
      · cases hremove
        exact hsleeps.setNextSibling _ _

theorem switchTo (hne : j ≠ i) : Sleeps (m.switchTo j) i wake now := by
  refine ⟨hsleeps.toDozes.switchTo hne, ?_⟩
  unfold Machine.switchTo
  split
  · exact hsleeps.away
  · simpa using hne

theorem reschedule : Sleeps m.reschedule i wake now := by
  unfold Machine.reschedule
  rcases nextReady_cases m with ⟨next, hnext, hready⟩ | ⟨hnone, _⟩
  · rw [hnext]
    exact hsleeps.switchTo (hsleeps.ne_of_state hready (by decide))
  · rw [hnone]
    exact hsleeps

theorem unblock (pid : Pid) : Sleeps (m.unblock pid) i wake now := by
  unfold Machine.unblock
  split
  · exact hsleeps
  · split
    · rename_i hblocked
      exact hsleeps.modify (hsleeps.ne_of_state hblocked (by decide)) _
    · exact hsleeps

theorem blockCurrent : Sleeps m.blockCurrent i wake now := by
  unfold Machine.blockCurrent
  split
  · exact hsleeps
  · rename_i self hcurrent
    have hne : self ≠ i := fun heq => hsleeps.away (heq ▸ hcurrent)
    exact (hsleeps.modify hne _).reschedule

theorem sleepCurrent (ticks : UInt64) :
    Sleeps (m.sleepCurrent ticks) i wake now := by
  unfold Machine.sleepCurrent
  split
  · exact hsleeps
  · rename_i self hcurrent
    have hne : self ≠ i := fun heq => hsleeps.away (heq ▸ hcurrent)
    exact (hsleeps.modify hne _).reschedule

theorem waitScan {self : Slot} {outcome : WaitOutcome}
    (hscan : m.waitScan self = some (m', outcome)) : Sleeps m' i wake now := by
  unfold Machine.waitScan at hscan
  split at hscan
  · cases hscan
  · rename_i childPid hwalk
    split at hscan
    · cases hscan
      exact hsleeps.blockCurrent
    · rename_i child hfind
      split at hscan
      · cases hscan
      · rename_i next hremove
        cases hscan
        have hzombie : (m.tasks child).state = .zombie := by
          have hstop := walkUntil_stop hwalk
          simpa [reapable, hfind] using hstop
        have hne := hsleeps.ne_of_state hzombie (by decide)
        exact ((hsleeps.removeChild hremove).modify hne _).setParentPid child _

theorem waitForChild {outcome : WaitOutcome}
    (hwait : m.waitForChild = some (m', outcome)) : Sleeps m' i wake now := by
  unfold Machine.waitForChild at hwait
  split at hwait
  · cases hwait
    exact hsleeps
  · split at hwait
    · cases hwait
      exact hsleeps
    · exact hsleeps.waitScan hwait

theorem adopt (initTask : Option Slot) (child : Slot) :
    Sleeps (m.adopt initTask child) i wake now := by
  have hlinked := (hsleeps.setParentPid child m.initPid).setNextSibling child
    noPid
  unfold Machine.adopt
  dsimp only
  split
  · exact (hlinked.addChild _ child).unblock _
  · exact hlinked.unblock _

end Sleeps

theorem Sleeps.adoptAll {initTask : Option Slot} {fuel : Nat} {childPid : Pid}
    (hsleeps : Sleeps m i wake now)
    (hadopt : Machine.adoptAll initTask fuel childPid m = some m') :
    Sleeps m' i wake now := by
  induction fuel generalizing m childPid with
  | zero => cases hadopt
  | succ fuel ih =>
      rw [Machine.adoptAll] at hadopt
      split at hadopt
      · cases hadopt
        exact hsleeps
      · exact ih (hsleeps.adopt initTask _) hadopt

namespace Sleeps

variable (hsleeps : Sleeps m i wake now)

include hsleeps

theorem abandonChildren {self : Slot}
    (habandon : m.abandonChildren self = some m') : Sleeps m' i wake now := by
  unfold Machine.abandonChildren at habandon
  split at habandon
  · split at habandon
    · cases habandon
    · rename_i next hadopt
      cases habandon
      exact (hsleeps.adoptAll hadopt).setFirstChild self noPid
  · cases habandon
    exact hsleeps

theorem finish (hne : j ≠ i) : Sleeps (m.finish j) i wake now := by
  unfold Machine.finish
  split
  · exact Sleeps.unblock (hsleeps.modify hne _) _
  · exact Sleeps.setParentPid (hsleeps.modify hne _) j noPid

theorem exitCurrent {exitCode : Int}
    (hexit : m.exitCurrent exitCode = some m') : Sleeps m' i wake now := by
  unfold Machine.exitCurrent at hexit
  split at hexit
  · cases hexit
    exact hsleeps.reschedule
  · rename_i self hcurrent
    have hne : self ≠ i := fun heq => hsleeps.away (heq ▸ hcurrent)
    split at hexit
    · cases hexit
    · rename_i next habandon
      cases hexit
      have htask := surrender_tasks_of_ne m exitCode hne.symm
      have hgiven : Sleeps (m.surrender self exitCode) i wake now :=
        ⟨⟨htask ▸ hsleeps.state, htask ▸ hsleeps.wakeTick, hsleeps.ticks⟩,
          hsleeps.away⟩
      exact ((hgiven.abandonChildren habandon).finish hne).reschedule

theorem fillSlot (hne : j ≠ i) (entry : EntryFn) (name : String)
    (stack : Nat) : Sleeps (m.fillSlot j entry name stack) i wake now := by
  have hlinked := (((hsleeps.modify hne fun t =>
    { t with
      state := .new
      stackBase := stack
      entry := entry
      generation := t.generation + 1
      pid := makePid j (t.generation + 1) }).setParentPid j
        (m.incarnate j entry stack).currentPid).setFirstChild j
          noPid).setNextSibling j noPid
  unfold Machine.fillSlot
  dsimp only
  split
  · exact (hlinked.addChild _ j).modify hne _
  · exact hlinked.modify hne _

theorem initCommonSlot {entry : EntryFn} {name : String} {stack : Nat}
    {made : Option Slot}
    (hmade : m.initCommonSlot entry name stack = (m', made)) :
    Sleeps m' i wake now ∧ ∀ slot, made = some slot → slot ≠ i := by
  unfold Machine.initCommonSlot at hmade
  split at hmade
  · cases hmade
    exact ⟨hsleeps, by simp⟩
  · rename_i slot hfree
    have hdead : (m.tasks slot).state = .dead := by
      have hfound := List.find?_some hfree
      simp only [Bool.and_eq_true, beq_iff_eq] at hfound
      exact hfound.1
    have hne := hsleeps.ne_of_state hdead (by decide)
    split at hmade
    · cases hmade
      exact ⟨hsleeps, by simp⟩
    · cases hmade
      exact ⟨hsleeps.fillSlot hne entry name stack, fun other hother => by
        cases hother
        exact hne⟩

theorem create (entry : EntryFn) (name : String) (stack : Nat) :
    Sleeps (m.create entry name stack).1 i wake now := by
  unfold Machine.create
  split
  · rename_i hmade
    exact (hsleeps.initCommonSlot hmade).1
  · rename_i hmade
    obtain ⟨hmade, hne⟩ := hsleeps.initCommonSlot hmade
    dsimp only
    exact hmade.modify (hne _ rfl) _

theorem createProcess (entry : EntryFn) (name : String) (stack : Nat)
    (cr3 userEntry userStackTop : Nat) :
    Sleeps (m.createProcess entry name stack cr3 userEntry userStackTop).1 i
      wake now := by
  unfold Machine.createProcess
  split
  · rename_i hmade
    exact (hsleeps.initCommonSlot hmade).1
  · rename_i hmade
    obtain ⟨hmade, hne⟩ := hsleeps.initCommonSlot hmade
    dsimp only
    exact hmade.modify (hne _ rfl) _

theorem reapPendingCleanup : Sleeps m.reapPendingCleanup.1 i wake now := by
  unfold Machine.reapPendingCleanup
  split
  · exact ⟨⟨hsleeps.state, hsleeps.wakeTick, hsleeps.ticks⟩, hsleeps.away⟩
  · exact hsleeps

/-- The timer wakes those whose time has come. -/
theorem timerInterrupt (hearly : ¬ wake ≤ now + 1) :
    Sleeps m.timerInterrupt i wake (now + 1) := by
  have hkept : Sleeps { m with timerTicks := m.timerTicks + 1 }.wakeSleepingTasks
      i wake (now + 1) := by
    have htask : ({ m with
        timerTicks := m.timerTicks + 1 }.wakeSleepingTasks.tasks i) =
          m.tasks i := by
      rw [wakeSleepingTasks]
      dsimp only
      rw [if_neg]
      rintro ⟨_, hdue⟩
      rw [hsleeps.wakeTick, hsleeps.ticks] at hdue
      exact hearly hdue
    exact ⟨⟨htask ▸ hsleeps.state, htask ▸ hsleeps.wakeTick,
      congrArg (· + 1) hsleeps.ticks⟩, hsleeps.away⟩
  unfold Machine.timerInterrupt Machine.tick
  dsimp only
  split
  · exact ⟨⟨hkept.state, hkept.wakeTick, hkept.ticks⟩, hkept.away⟩
  · exact reschedule
      ⟨⟨hkept.state, hkept.wakeTick, hkept.ticks⟩, hkept.away⟩

end Sleeps

end Machine

open Machine

variable {m m' : Machine} {i idle : Slot} {wake now : UInt64} {op : Op}
  {ops : List Op} {report : Report}

/-- How often an operation lets the timer fire. -/
def Op.timers : Op → Nat
  | .timer => 1
  | _ => 0

def timers (ops : List Op) : Nat := (ops.map Op.timers).sum

/-- No operation but the timer wakes a sleeping task. -/
theorem Machine.Sleeps.exec (hsleeps : Sleeps m i wake now)
    (hexec : m.exec op = some (m', report))
    (hearly : op = .timer → ¬ wake ≤ now + 1) :
    Sleeps m' i wake (now + UInt64.ofNat op.timers) := by
  have hstill : now + UInt64.ofNat 0 = now := UInt64.add_zero now
  cases op with
  | timer =>
      cases hexec
      exact hsleeps.timerInterrupt (hearly rfl)
  | create entry name stack =>
      cases hexec
      exact hstill.symm ▸ hsleeps.create entry name stack
  | createProcess entry name stack cr3 userEntry userStackTop =>
      cases hexec
      exact hstill.symm ▸
        hsleeps.createProcess entry name stack cr3 userEntry userStackTop
  | blockCurrent =>
      cases hexec
      exact hstill.symm ▸ hsleeps.blockCurrent
  | unblock pid =>
      cases hexec
      exact hstill.symm ▸ hsleeps.unblock pid
  | sleepCurrent ticks =>
      cases hexec
      exact hstill.symm ▸ hsleeps.sleepCurrent ticks
  | yield =>
      cases hexec
      exact hstill.symm ▸ hsleeps.reschedule
  | waitForChild =>
      obtain ⟨⟨next, outcome⟩, hwait, hresult⟩ :=
        Option.map_eq_some_iff.mp hexec
      cases hresult
      exact hstill.symm ▸ hsleeps.waitForChild hwait
  | waitAgain =>
      rw [Machine.exec] at hexec
      split at hexec
      · cases hexec
        exact hstill.symm ▸ hsleeps
      · obtain ⟨⟨next, outcome⟩, hscan, hresult⟩ :=
          Option.map_eq_some_iff.mp hexec
        cases hresult
        exact hstill.symm ▸ hsleeps.waitScan hscan
  | exitCurrent exitCode =>
      obtain ⟨next, hexit, hresult⟩ := Option.map_eq_some_iff.mp hexec
      cases hresult
      exact hstill.symm ▸ hsleeps.exitCurrent hexit
  | reapPendingCleanup =>
      cases hexec
      exact hstill.symm ▸ hsleeps.reapPendingCleanup

theorem Machine.Sleeps.replay (hsleeps : Sleeps m i wake now)
    (hreplay : m.replay idle ops = some m')
    (hearly : ∀ k < timers ops, ¬ wake ≤ now + UInt64.ofNat (k + 1)) :
    Sleeps m' i wake (now + UInt64.ofNat (timers ops)) := by
  induction ops generalizing m now with
  | nil =>
      cases hreplay
      exact (UInt64.add_zero now).symm ▸ hsleeps
  | cons op ops ih =>
      have hcount : timers (op :: ops) = op.timers + timers ops := by
        simp [timers]
      have hsum : ∀ k, now + UInt64.ofNat op.timers + UInt64.ofNat k =
          now + UInt64.ofNat (op.timers + k) := fun k => by
        rw [UInt64.ofNat_add, UInt64.add_assoc]
      rw [hcount] at hearly ⊢
      rw [Machine.replay] at hreplay
      split at hreplay
      · cases hexec : m.exec op with
        | none => simp [hexec] at hreplay
        | some result =>
            rw [hexec] at hreplay
            have hnext := hsleeps.exec hexec fun htimer => by
              rw [htimer] at hearly
              exact hearly 0 (by simp [Op.timers])
            rw [← hsum]
            refine ih hnext hreplay fun k hk => ?_
            rw [hsum, ← Nat.add_assoc]
            exact hearly (op.timers + k) (by omega)
      · cases hreplay

/-- A task that calls `sleep_current` sleeps, and another one runs. -/
theorem Machine.Inv.sleeps {ini self : Slot} (hinv : Inv m idle ini)
    (hself : m.current = some self) (hidle : m.current ≠ some idle)
    (n : UInt64) :
    Sleeps (m.sleepCurrent n) self (m.timerTicks + n) m.timerTicks := by
  obtain ⟨cur, hrunning⟩ := hinv.running
  obtain rfl : self = cur := by
    simpa [hself] using hrunning.current
  have hne : idle ≠ self := fun heq => hidle (heq ▸ hself)
  have hdozes : Dozes (m.modify self fun t =>
      { t with wakeTick := m.timerTicks + n, state := .sleeping }) self
      (m.timerTicks + n) m.timerTicks := by
    constructor <;> simp [Machine.modify]
  rw [Machine.sleepCurrent, hself]
  refine ⟨hdozes.reschedule, fun hback => ?_⟩
  obtain ⟨cur, hafter⟩ := (hinv.parked hrunning hne
    (f := fun t => { t with
      wakeTick := m.timerTicks + n, state := .sleeping })).reschedule.running
  obtain rfl : self = cur := by
    simpa [hback] using hafter.current
  have hrun := (hafter.running_iff self).mpr rfl
  rw [hdozes.reschedule.state] at hrun
  cases hrun

/-- The scheduler puts nobody to sleep. -/
theorem Machine.sleeping_of_setState {j : Slot} {state : State}
    (hstate : state ≠ .sleeping)
    (hsleeping : ((m.setState j state).tasks i).state = .sleeping) :
    (m.tasks i).state = .sleeping := by
  by_cases hi : i = j
  · rw [hi, setState_tasks_self] at hsleeping
    exact absurd hsleeping hstate
  · rwa [setState_tasks_of_ne m state hi] at hsleeping

theorem Machine.sleeping_of_reschedule
    (hsleeping : (m.reschedule.tasks i).state = .sleeping) :
    (m.tasks i).state = .sleeping := by
  have hdemote : (m.demote.tasks i).state = .sleeping →
      (m.tasks i).state = .sleeping := fun hsleeping => by
    unfold demote at hsleeping
    split at hsleeping
    · split at hsleeping
      · exact sleeping_of_setState (by decide) hsleeping
      · exact hsleeping
    · exact hsleeping
  unfold reschedule at hsleeping
  split at hsleeping
  · unfold switchTo at hsleeping
    split at hsleeping
    · exact hsleeping
    · exact hdemote (sleeping_of_setState (by decide) hsleeping)
  · exact hsleeping

/-- A tick at or after the wake-up time ends the sleep. -/
theorem Machine.timerInterrupt_wakes
    (hdue : (m.tasks i).wakeTick ≤ m.timerTicks + 1) :
    (m.timerInterrupt.tasks i).state ≠ .sleeping := by
  have hwoken : ({ m with timerTicks := m.timerTicks + 1 }.wakeSleepingTasks.tasks
      i).state ≠ .sleeping := by
    rw [wakeSleepingTasks]
    dsimp only
    split
    · simp
    · rename_i hnot
      exact fun hsleeping => hnot ⟨hsleeping, hdue⟩
  unfold timerInterrupt tick
  dsimp only
  split
  · exact hwoken
  · intro hsleeping
    have hstill := sleeping_of_reschedule hsleeping
    exact hwoken hstill

/-- The wake-up time is not reached early unless the sum wraps. -/
theorem not_due {t n : UInt64} {k : Nat}
    (hsum : t.toNat + n.toNat < 2 ^ 64 ∨ t.toNat = 2 ^ 64 - 1)
    (hk : k + 1 < n.toNat) : ¬ t + n ≤ t + UInt64.ofNat (k + 1) := by
  have hn := n.toNat_lt
  have ht := t.toNat_lt
  rw [UInt64.le_iff_toNat_le, UInt64.toNat_add, UInt64.toNat_add,
    UInt64.toNat_ofNat_of_lt' (by rw [UInt64.size]; omega)]
  omega

theorem due_of_wraps {t n : UInt64} (hwraps : 2 ^ 64 ≤ t.toNat + n.toNat)
    (hlast : t.toNat ≠ 2 ^ 64 - 1) : t + n ≤ t + 1 := by
  have hn := n.toNat_lt
  have ht := t.toNat_lt
  rw [UInt64.le_iff_toNat_le, UInt64.toNat_add, UInt64.toNat_add]
  simp only [UInt64.reduceToNat]
  omega

/-- A task sleeps until the counter has advanced by `n`, whatever the others
do, exactly when the wake-up time does not wrap below the present. -/
theorem sleeps_until_due_iff {self : Slot} (hreaches : Reaches idle m)
    (hself : m.current = some self) (hidle : m.current ≠ some idle)
    (n : UInt64) :
    (∀ ops m', (m.sleepCurrent n).replay idle ops = some m' →
      timers ops < n.toNat → (m'.tasks self).state = .sleeping) ↔
    m.timerTicks.toNat + n.toNat < 2 ^ 64 ∨
      m.timerTicks.toNat = 2 ^ 64 - 1 := by
  obtain ⟨ini, hinv⟩ := hreaches.inv
  have hsleeps := hinv.sleeps hself hidle n
  constructor
  · intro hsafe
    by_contra hsum
    rw [not_or, Nat.not_lt] at hsum
    have hone : timers [.timer] < n.toNat := by
      have ht := m.timerTicks.toNat_lt
      simp only [timers, Op.timers, List.map_cons, List.map_nil,
        List.sum_cons, List.sum_nil]
      omega
    refine timerInterrupt_wakes ?_ (hsafe [.timer] _ rfl hone)
    rw [hsleeps.wakeTick, hsleeps.ticks]
    exact due_of_wraps hsum.1 hsum.2
  · intro hsum ops m' hreplay hcount
    refine (hsleeps.replay hreplay fun k hk => ?_).state
    exact not_due hsum (by omega)

/-- The shell runs after the first tick. -/
theorem reaches_first_tick : ∃ idle m, Reaches idle m ∧ m.current = some 0 ∧
    m.current ≠ some idle ∧ m.timerTicks = 1 := by
  have hfacts : (session 0x1000 0x10000 0x20000 [.timer]).map (fun result =>
      (result.1, result.2.current, result.2.timerTicks)) =
        some (1, some 0, 1) := by
    decide +kernel
  obtain ⟨⟨idle, m⟩, hsession, hresult⟩ := Option.map_eq_some_iff.mp hfacts
  simp only [Prod.mk.injEq] at hresult
  obtain ⟨rfl, hcurrent, hticks⟩ := hresult
  exact ⟨1, m, reaches_of_session hsession, hcurrent, by simp [hcurrent],
    hticks⟩

theorem sleeps_until_due_first_tick : ∃ idle m, Reaches idle m ∧
    m.timerTicks = 1 ∧ ∀ ops m', (m.sleepCurrent 10).replay idle ops = some m' →
      timers ops < 10 → (m'.tasks 0).state = .sleeping := by
  obtain ⟨idle, m, hreaches, hself, hidle, hticks⟩ := reaches_first_tick
  refine ⟨idle, m, hreaches, hticks, ?_⟩
  refine (sleeps_until_due_iff hreaches hself hidle 10).mpr (.inl ?_)
  rw [hticks]
  decide

/-- After one tick the shell asks for the longest sleep there is and is woken
by the next tick. -/
theorem wakes_at_once :
    (session 0x1000 0x10000 0x20000
      [.timer, .sleepCurrent 0xFFFFFFFFFFFFFFFF]).map (fun result =>
        (result.2.tasks 0).state) = some .sleeping ∧
    (session 0x1000 0x10000 0x20000
      [.timer, .sleepCurrent 0xFFFFFFFFFFFFFFFF, .timer]).map (fun result =>
        (result.2.tasks 0).state) = some .ready := by
  decide +kernel

end Tasks

end VenomOS
