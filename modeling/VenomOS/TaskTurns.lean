/-
Turns of the scheduler.  The search for the next task starts behind the slot
of the current one, so a task that stays ready comes closer with every
selection of another one, and nobody is selected twice before it.
-/
import VenomOS.TaskHistory

namespace VenomOS

namespace Tasks

open Machine

variable {m m' start : Machine} {idle ini cur i j : Slot} {steps : List Step}

/-- The selection of another task brings `i` closer. -/
theorem ahead_lt (hle : ahead cur j ≤ ahead cur i) (hne : j ≠ i) :
    ahead j i < ahead cur i := by
  have hi : i.val < 128 := i.isLt
  have hj : j.val < 128 := j.isLt
  have hcur : cur.val < 128 := cur.isLt
  have hval : j.val ≠ i.val := fun heq => hne (Fin.ext heq)
  simp only [ahead] at hle ⊢
  omega

/-- The machine on which an operation calls `reschedule`, if it does. -/
def Machine.poised (m : Machine) : Op → Option Machine
  | .blockCurrent => m.current.map fun self => m.setState self .blocked
  | .sleepCurrent ticks => m.current.map fun self =>
      m.modify self fun t =>
        { t with
          wakeTick := m.timerTicks + ticks
          state := .sleeping }
  | .timer =>
      let m := { m with timerTicks := m.timerTicks + 1 }.wakeSleepingTasks
      if m.tickCounter + 1 < ticksPerSwitch then none
      else some { m with tickCounter := 0 }
  | .yield => some m
  | .waitForChild =>
      match m.current, m.waitForChild with
      | some self, some (_, .blocked) => some (m.setState self .blocked)
      | _, _ => none
  | .waitAgain =>
      match m.current with
      | some self =>
          match m.waitScan self with
          | some (_, .blocked) => some (m.setState self .blocked)
          | _ => none
      | none => none
  | .exitCurrent exitCode =>
      match m.current with
      | none => some m
      | some self =>
          ((m.surrender self exitCode).abandonChildren self).map fun m' =>
            m'.finish self
  | _ => none

/-- The task that `reschedule` selects in an operation. -/
def Machine.selected (m : Machine) (op : Op) : Option Slot :=
  (m.poised op).bind nextReady

def Step.selected (step : Step) : Option Slot := step.before.selected step.op

/-- An operation leaves the choice of the current task to `reschedule`, which
finds every ready task still ready, or the current task stays. -/
structure Offers (m poised m' : Machine) : Prop where
  outcome : m' = poised.reschedule
  current : poised.current = m.current
  ready : ∀ i, (m.tasks i).state = .ready → (poised.tasks i).state = .ready

namespace Machine

theorem Running.ready_ne (hrunning : Running m cur)
    (hready : (m.tasks i).state = .ready) : i ≠ cur := by
  intro heq
  rw [heq, (hrunning.running_iff cur).mpr rfl] at hready
  cases hready

theorem Running.offers_park (hrunning : Running m cur) (f : Task → Task) :
    Offers m (m.modify cur f) (m.modify cur f).reschedule := by
  refine ⟨rfl, rfl, fun i hready => ?_⟩
  rwa [modify_tasks_of_ne m f (hrunning.ready_ne hready)]

theorem Running.offers_block (hrunning : Running m cur) :
    Offers m (m.setState cur .blocked) m.blockCurrent := by
  rw [blockCurrent, hrunning.current]
  exact hrunning.offers_park _

/-- The tick that completes a time slice. -/
theorem timerInterrupt_offers (m : Machine) :
    (∃ poised, m.poised .timer = some poised ∧
      Offers m poised m.timerInterrupt) ∨
        m.poised .timer = none ∧ m.timerInterrupt.current = m.current := by
  simp only [Machine.poised, timerInterrupt, tick]
  split
  · exact Or.inr ⟨rfl, rfl⟩
  · refine Or.inl ⟨_, rfl, rfl, rfl, fun i hready => ?_⟩
    simp [wakeSleepingTasks, hready]

theorem Inv.exit_offers (hinv : Inv m idle ini) (hrunning : Running m cur)
    (hini : ini ≠ cur) {exitCode : Int}
    (hexit : m.exitCurrent exitCode = some m') :
    ∃ poised, m.poised (.exitCurrent exitCode) = some poised ∧
      Offers m poised m' := by
  have hcurrent := hrunning.current
  obtain ⟨m₁, habandon, hexited⟩ := hinv.exited hrunning hini exitCode
  refine ⟨m₁.finish cur, ?_, ?_, ?_, fun i hready => ?_⟩
  · simp [Machine.poised, hcurrent, habandon]
  · rw [Machine.exitCurrent, hcurrent] at hexit
    simp only [habandon, Option.some.injEq] at hexit
    exact hexit.symm
  · exact hexited.current.trans hcurrent.symm
  · rcases hexited.wakes i (hrunning.ready_ne hready) with
      hkept | ⟨_, hready'⟩
    · rw [hkept, hready]
    · exact hready'

theorem Inv.exec_offers (hinv : Inv m idle ini) {op : Op} {report : Report}
    (hop : op.Allowed idle m) (hexec : m.exec op = some (m', report)) :
    (∃ poised, m.poised op = some poised ∧ Offers m poised m') ∨
      m.poised op = none ∧ m'.current = m.current := by
  obtain ⟨cur, hrunning⟩ := hinv.running
  have hcurrent := hrunning.current
  cases op with
  | create entry name stack =>
      refine Or.inr ⟨rfl, ?_⟩
      rcases hinv.family.create_cases hcurrent hrunning.live
        hrunning.not_zombie entry name stack with
        hfail | ⟨m₁, slot, hcreate, hcreated, _⟩
      · simp only [Machine.exec, hfail, Option.some.injEq, Prod.mk.injEq] at hexec
        rw [hexec.1]
      · simp only [Machine.exec, hcreate, Option.some.injEq, Prod.mk.injEq] at hexec
        rw [← hexec.1]
        exact hcreated.onlyTasks.current_eq
  | createProcess entry name stack cr3 userEntry userStackTop =>
      refine Or.inr ⟨rfl, ?_⟩
      rcases hinv.family.createProcess_cases hcurrent hrunning.live
        hrunning.not_zombie entry name stack cr3 userEntry userStackTop with
        hfail | ⟨m₁, slot, hcreate, hcreated, _⟩
      · simp only [Machine.exec, hfail, Option.some.injEq, Prod.mk.injEq] at hexec
        rw [hexec.1]
      · simp only [Machine.exec, hcreate, Option.some.injEq, Prod.mk.injEq] at hexec
        rw [← hexec.1]
        exact hcreated.onlyTasks.current_eq
  | blockCurrent =>
      cases hexec
      exact Or.inl ⟨_, by simp only [Machine.poised, hcurrent, Option.map_some],
        hrunning.offers_block⟩
  | unblock pid =>
      cases hexec
      exact Or.inr ⟨rfl, (unblock_quiet m pid).onlyTasks.current_eq⟩
  | sleepCurrent ticks =>
      cases hexec
      refine Or.inl ⟨_, congrArg (Option.map _) hcurrent, ?_⟩
      rw [Machine.sleepCurrent, hcurrent]
      exact hrunning.offers_park _
  | timer =>
      cases hexec
      exact timerInterrupt_offers m
  | yield =>
      cases hexec
      exact Or.inl ⟨m, rfl, rfl, rfl, fun _ hready => hready⟩
  | waitForChild =>
      by_cases hfirst : (m.tasks cur).firstChild = noPid
      · have hwait : m.waitForChild = some (m, .noChild) := by
          simp [waitForChild, hcurrent, hfirst]
        simp only [Machine.exec, hwait, Option.map_some, Option.some.injEq,
          Prod.mk.injEq] at hexec
        exact Or.inr ⟨by simp [Machine.poised, hcurrent, hwait],
          by rw [hexec.1]⟩
      · have hwait : m.waitForChild = m.waitScan cur := by
          simp [waitForChild, hcurrent, hfirst]
        rcases hinv.family.waitScan_cases hrunning.live with
          ⟨hblocked, _⟩ | ⟨m₁, child, hreap, hreaped, _⟩
        · simp only [Machine.exec, hwait, hblocked, Option.map_some,
            Option.some.injEq, Prod.mk.injEq] at hexec
          rw [← hexec.1]
          exact Or.inl ⟨_, by simp only [Machine.poised, hcurrent, hwait,
            hblocked], hrunning.offers_block⟩
        · simp only [Machine.exec, hwait, hreap, Option.map_some,
            Option.some.injEq, Prod.mk.injEq] at hexec
          rw [← hexec.1]
          exact Or.inr ⟨by simp only [Machine.poised, hcurrent, hwait, hreap],
            hreaped.onlyTasks.current_eq⟩
  | waitAgain =>
      simp only [Machine.exec, hcurrent] at hexec
      rcases hinv.family.waitScan_cases hrunning.live with
        ⟨hblocked, _⟩ | ⟨m₁, child, hreap, hreaped, _⟩
      · simp only [hblocked, Option.map_some, Option.some.injEq,
          Prod.mk.injEq] at hexec
        rw [← hexec.1]
        exact Or.inl ⟨_, by simp only [Machine.poised, hcurrent, hblocked],
          hrunning.offers_block⟩
      · simp only [hreap, Option.map_some, Option.some.injEq,
          Prod.mk.injEq] at hexec
        rw [← hexec.1]
        exact Or.inr ⟨by simp only [Machine.poised, hcurrent, hreap],
          hreaped.onlyTasks.current_eq⟩
  | exitCurrent exitCode =>
      have hini : ini ≠ cur := by
        intro heq
        apply hop.2
        rw [currentPid, hcurrent, ← hinv.init.pid_eq, heq]
      obtain ⟨next, hexit, hresult⟩ := Option.map_eq_some_iff.mp hexec
      cases hresult
      exact Or.inl (hinv.exit_offers hrunning hini hexit)
  | reapPendingCleanup =>
      simp only [Machine.exec, Option.some.injEq, Prod.mk.injEq] at hexec
      rw [← hexec.1]
      refine Or.inr ⟨rfl, ?_⟩
      unfold Machine.reapPendingCleanup
      split
      · rfl
      · rfl

theorem switchTo_current (m : Machine) (next : Slot) :
    (m.switchTo next).current = some next := by
  unfold switchTo
  split
  · assumption
  · rfl

/-- One operation: the current task stays, or the selected one is at most as
far behind it as any task that was ready. -/
theorem Inv.turn (hinv : Inv m idle ini) {op : Op} {report : Report}
    (hop : op.Allowed idle m) (hexec : m.exec op = some (m', report)) :
    (m.selected op = none ∧ m'.current = m.current) ∨
      ∃ next, m.selected op = some next ∧ m'.current = some next ∧
        ∀ {cur i : Slot}, m.current = some cur →
          (m.tasks i).state = .ready → ahead cur next ≤ ahead cur i := by
  rcases hinv.exec_offers hop hexec with
    ⟨poised, hpoised, hoffers⟩ | ⟨hnone, hcurrent⟩
  · rw [selected, hpoised, Option.bind_some, hoffers.outcome,
      Machine.reschedule]
    cases hnext : poised.nextReady with
    | none => exact Or.inl ⟨rfl, hoffers.current⟩
    | some next =>
        refine Or.inr ⟨next, rfl, ?_, fun hcur hready => ?_⟩
        · exact switchTo_current poised next
        · exact nextReady_ahead (hoffers.current.trans hcur) hnext
            (hoffers.ready _ hready)
  · rw [selected, hnone]
    exact Or.inl ⟨rfl, hcurrent⟩

end Machine

/-- As long as `i` stays ready, the search of every later state tries no more
slots before it than the search from the task selected first. -/
theorem History.approaches {first : Step} {between earlier : List Step}
    (hstart : Started idle ini start)
    (hhistory : History idle start m (between ++ first :: earlier))
    (hfirst : first.selected = some j)
    (hready : ∀ step ∈ between ++ [first],
      (step.after.tasks i).state = .ready) :
    (m.tasks i).state = .ready ∧
      ∃ cur, m.current = some cur ∧ ahead cur i ≤ ahead j i := by
  induction between generalizing m with
  | nil =>
      have hi := hready first (by simp)
      cases hhistory with
      | cons hbefore hop hexec =>
          rcases (hbefore.inv hstart).turn hop hexec with
            ⟨hnone, _⟩ | ⟨next, hnext, hcurrent, _⟩
          · rw [Step.selected, hnone] at hfirst
            cases hfirst
          · rw [Step.selected, hnext] at hfirst
            cases hfirst
            exact ⟨hi, j, hcurrent, le_rfl⟩
  | cons step between ih =>
      obtain ⟨hi, hrest⟩ := List.forall_mem_cons.mp hready
      cases hhistory with
      | cons hbefore hop hexec =>
          obtain ⟨hi', cur, hcur, hle⟩ := ih hbefore hrest
          rcases (hbefore.inv hstart).turn hop hexec with
            ⟨_, hkept⟩ | ⟨next, _, hcurrent, hahead⟩
          · exact ⟨hi, cur, hkept.trans hcur, hle⟩
          · refine ⟨hi, next, hcurrent, ?_⟩
            have hne : next ≠ i := by
              obtain ⟨cur', hrunning⟩ :=
                ((hbefore.cons hop hexec).inv hstart).running
              rw [hrunning.current] at hcurrent
              cases hcurrent
              exact (hrunning.ready_ne hi).symm
            exact ((ahead_lt (hahead hcur hi') hne).trans_le hle).le

/-- Between two selections of one task, no other task stays ready all the
time: it stops being ready when it is selected or otherwise. -/
theorem no_overtaking_twice {first last : Step}
    {between earlier : List Step} (hstart : Started idle ini start)
    (hhistory : History idle start m
      (last :: (between ++ first :: earlier)))
    (hfirst : first.selected = some j) (hlast : last.selected = some j)
    (hne : i ≠ j) :
    ∃ step ∈ between ++ [first], (step.after.tasks i).state ≠ .ready := by
  by_contra hnone
  push Not at hnone
  cases hhistory with
  | cons hbefore hop hexec =>
      obtain ⟨hready, cur, hcur, hle⟩ :=
        hbefore.approaches hstart hfirst hnone
      rcases (hbefore.inv hstart).turn hop hexec with
        ⟨hselected, _⟩ | ⟨next, hselected, _, hahead⟩
      · rw [Step.selected, hselected] at hlast
        cases hlast
      · rw [Step.selected, hselected] at hlast
        cases hlast
        have hcloser := ahead_lt (hahead hcur hready) hne.symm
        omega

/-- The shell, idle and init take turns until idle runs again. -/
def turnsSession : List Op := [.yield, .yield, .yield, .yield]

theorem no_overtaking_twice_turnsSession :
    ∃ session : Session, ∃ step ∈ session.steps,
      (step.after.tasks session.ini).state ≠ .ready := by
  obtain ⟨⟨idle, ini, start, last, steps⟩, hstart, hhistory, hcheck⟩ :=
    Session.exists_run (fun session =>
      session.steps.map Step.selected ==
          [some 1, some 0, some 2, some 1] && session.ini == 2)
      (show (Session.run 0x1000 0x10000 0x20000 turnsSession).any _ by
        decide +kernel)
  simp only [Bool.and_eq_true, beq_iff_eq] at hcheck
  obtain ⟨hselected, rfl⟩ := hcheck
  obtain ⟨fourth, _, rfl, hlast, hselected⟩ :=
    List.map_eq_cons_iff.mp hselected
  obtain ⟨third, _, rfl, _, hselected⟩ := List.map_eq_cons_iff.mp hselected
  obtain ⟨second, _, rfl, _, hselected⟩ := List.map_eq_cons_iff.mp hselected
  obtain ⟨first, _, rfl, hfirst, hselected⟩ :=
    List.map_eq_cons_iff.mp hselected
  have hhistory' : History idle start last
      (fourth :: ([third, second] ++ first :: _)) := hhistory
  obtain ⟨step, hstep, hready⟩ := no_overtaking_twice hstart hhistory' hfirst
    hlast (show (2 : Slot) ≠ 1 by decide)
  cases List.map_eq_nil_iff.mp hselected
  exact ⟨⟨idle, 2, start, last, _⟩, step,
    List.mem_cons_of_mem fourth hstep, hready⟩

end Tasks

end VenomOS
