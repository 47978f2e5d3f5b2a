/-
Histories of the task table, and what its operations leave alone.  A field
that neither the scheduler nor the family links touch keeps its value in every
slot, whatever the operation; only creation gives a slot a new incarnation,
and only exit takes its stack, its address space and its exit code.
-/
import VenomOS.TaskRuns

namespace VenomOS

namespace Tasks

variable {β : Type}

/-- A reading of a task that does not depend on its state, its links or its
wake-up time. -/
structure Blind (g : Task → β) : Prop where
  state : ∀ t state, g { t with state := state } = g t
  parentPid : ∀ t pid, g { t with parentPid := pid } = g t
  firstChild : ∀ t pid, g { t with firstChild := pid } = g t
  nextSibling : ∀ t pid, g { t with nextSibling := pid } = g t
  wakeTick : ∀ t ticks, g { t with wakeTick := ticks } = g t

theorem Blind.pid : Blind Task.pid := by
  constructor <;> intros <;> rfl

theorem Blind.generation : Blind Task.generation := by
  constructor <;> intros <;> rfl

theorem Blind.exitCode : Blind Task.exitCode := by
  constructor <;> intros <;> rfl

theorem Blind.stackBase : Blind Task.stackBase := by
  constructor <;> intros <;> rfl

theorem Blind.cr3 : Blind Task.cr3 := by
  constructor <;> intros <;> rfl

/-- What tells one incarnation from another. -/
structure Incarnation where
  slot : Slot
  generation : UInt64
deriving Repr, DecidableEq

namespace Machine

variable {m m' m'' : Machine} {i j p child slot : Slot} {pid : Pid}
  {g : Task → β}

def incarnation (m : Machine) (i : Slot) : Incarnation :=
  ⟨i, (m.tasks i).generation⟩

def Keeps (g : Task → β) (m m' : Machine) : Prop :=
  ∀ i, g (m'.tasks i) = g (m.tasks i)

theorem Keeps.refl (m : Machine) : Keeps g m m := fun _ => rfl

theorem Keeps.trans (hleft : Keeps g m m') (hright : Keeps g m' m'') :
    Keeps g m m'' := fun i => (hright i).trans (hleft i)

theorem modify_keeps {f : Task → Task} (hf : ∀ t, g (f t) = g t) (m : Machine)
    (i : Slot) : Keeps g m (m.modify i f) :=
  fun j => modify_proj g (hf _) j

section

variable (hblind : Blind g) (m)

include hblind

theorem setState_keeps (i : Slot) (state : State) :
    Keeps g m (m.setState i state) :=
  modify_keeps (fun t => hblind.state t state) m i

theorem setParentPid_keeps (i : Slot) (pid : Pid) :
    Keeps g m (m.setParentPid i pid) :=
  modify_keeps (fun t => hblind.parentPid t pid) m i

theorem setFirstChild_keeps (i : Slot) (pid : Pid) :
    Keeps g m (m.setFirstChild i pid) :=
  modify_keeps (fun t => hblind.firstChild t pid) m i

theorem setNextSibling_keeps (i : Slot) (pid : Pid) :
    Keeps g m (m.setNextSibling i pid) :=
  modify_keeps (fun t => hblind.nextSibling t pid) m i

theorem addChild_keeps (p child : Slot) : Keeps g m (m.addChild p child) :=
  (setNextSibling_keeps m hblind child _).trans
    (setFirstChild_keeps _ hblind p _)

theorem removeChild_keeps (hremove : m.removeChild p pid = some m') :
    Keeps g m m' := by
  unfold removeChild at hremove
  split at hremove
  · cases hremove
    exact setFirstChild_keeps m hblind _ _
  · split at hremove
    · cases hremove
    · split at hremove
      · cases hremove
        exact Keeps.refl m
      · cases hremove
        exact setNextSibling_keeps m hblind _ _

theorem demote_keeps : Keeps g m m.demote := by
  unfold demote
  split
  · split
    · exact setState_keeps m hblind _ _
    · exact Keeps.refl m
  · exact Keeps.refl m

theorem switchTo_keeps (next : Slot) : Keeps g m (m.switchTo next) := by
  unfold switchTo
  split
  · exact Keeps.refl m
  · exact (demote_keeps m hblind).trans (setState_keeps _ hblind next _)

theorem reschedule_keeps : Keeps g m m.reschedule := by
  unfold reschedule
  split
  · exact switchTo_keeps m hblind _
  · exact Keeps.refl m

theorem wakeSleepingTasks_keeps : Keeps g m m.wakeSleepingTasks := by
  intro i
  simp only [wakeSleepingTasks]
  split
  · exact hblind.state _ _
  · rfl

theorem tick_keeps : Keeps g m m.tick := by
  have hwoken := wakeSleepingTasks_keeps m hblind
  unfold tick
  dsimp only
  split
  · exact hwoken
  · exact hwoken.trans (reschedule_keeps
      { m.wakeSleepingTasks with tickCounter := 0 } hblind)

theorem timerInterrupt_keeps : Keeps g m m.timerInterrupt :=
  tick_keeps { m with timerTicks := m.timerTicks + 1 } hblind

theorem blockCurrent_keeps : Keeps g m m.blockCurrent := by
  unfold blockCurrent
  split
  · exact Keeps.refl m
  · exact (setState_keeps m hblind _ _).trans (reschedule_keeps _ hblind)

theorem unblock_keeps (pid : Pid) : Keeps g m (m.unblock pid) := by
  rcases unblock_cases m pid with hsame | ⟨i, _, heq⟩
  · rw [hsame]
    exact Keeps.refl m
  · rw [heq]
    exact setState_keeps m hblind i _

theorem sleepCurrent_keeps (ticks : UInt64) :
    Keeps g m (m.sleepCurrent ticks) := by
  unfold sleepCurrent
  split
  · exact Keeps.refl m
  · refine Keeps.trans (modify_keeps (fun t => ?_) m _)
      (reschedule_keeps _ hblind)
    exact (hblind.state { t with wakeTick := m.timerTicks + ticks }
      .sleeping).trans (hblind.wakeTick t _)

variable {outcome : WaitOutcome}

theorem waitScan_keeps (hscan : m.waitScan p = some (m', outcome)) :
    Keeps g m m' := by
  unfold waitScan at hscan
  split at hscan
  · cases hscan
  · split at hscan
    · cases hscan
      exact blockCurrent_keeps m hblind
    · split at hscan
      · cases hscan
      · rename_i hremove
        cases hscan
        exact ((removeChild_keeps m hblind hremove).trans
          (setState_keeps _ hblind _ _)).trans
            (setParentPid_keeps _ hblind _ _)

theorem waitForChild_keeps (hwait : m.waitForChild = some (m', outcome)) :
    Keeps g m m' := by
  unfold waitForChild at hwait
  split at hwait
  · cases hwait
    exact Keeps.refl m
  · split at hwait
    · cases hwait
      exact Keeps.refl m
    · exact waitScan_keeps m hblind hwait

theorem adopt_keeps (initTask : Option Slot) (child : Slot) :
    Keeps g m (m.adopt initTask child) := by
  have hroot := (setParentPid_keeps m hblind child m.initPid).trans
    (setNextSibling_keeps _ hblind child noPid)
  cases initTask with
  | none => exact hroot.trans (unblock_keeps _ hblind _)
  | some i =>
      exact (hroot.trans (addChild_keeps _ hblind i child)).trans
        (unblock_keeps _ hblind _)

theorem adoptAll_keeps {initTask : Option Slot} {fuel : Nat}
    (hadopt : adoptAll initTask fuel pid m = some m') : Keeps g m m' := by
  induction fuel generalizing m pid with
  | zero => cases hadopt
  | succ fuel ih =>
      rw [adoptAll] at hadopt
      split at hadopt
      · cases hadopt
        exact Keeps.refl _
      · exact (adopt_keeps _ hblind initTask _).trans (ih _ hadopt)

theorem abandonChildren_keeps (habandon : m.abandonChildren i = some m') :
    Keeps g m m' := by
  unfold abandonChildren at habandon
  split at habandon
  · split at habandon
    · cases habandon
    · rename_i hadopt
      cases habandon
      exact (adoptAll_keeps m hblind hadopt).trans
        (setFirstChild_keeps _ hblind _ _)
  · cases habandon
    exact Keeps.refl m

theorem finish_keeps (i : Slot) : Keeps g m (m.finish i) := by
  unfold finish
  split
  · exact (setState_keeps m hblind i _).trans (unblock_keeps _ hblind _)
  · exact (setState_keeps m hblind i _).trans
      (setParentPid_keeps _ hblind i _)

/-- After the exiting task gave up what it owns, nothing but states and links
changes. -/
theorem exitCurrent_keeps {exitCode : Int} (hcurrent : m.current = some i)
    (hexit : m.exitCurrent exitCode = some m') :
    Keeps g (m.surrender i exitCode) m' := by
  rw [exitCurrent, hcurrent] at hexit
  dsimp only at hexit
  split at hexit
  · cases hexit
  · rename_i habandon
    cases hexit
    exact ((abandonChildren_keeps _ hblind habandon).trans
      (finish_keeps _ hblind i)).trans (reschedule_keeps _ hblind)

end

theorem reapPendingCleanup_keeps (m : Machine) :
    Keeps g m m.reapPendingCleanup.1 := by
  unfold reapPendingCleanup
  split
  · exact fun _ => rfl
  · exact Keeps.refl m

/-- A free slot holds its next incarnation, and the fields of the other tasks
that are not links are as before. -/
structure Born (m m' : Machine) (slot : Slot) : Prop where
  free : m.findFreeSlot = some slot
  generation : (m'.tasks slot).generation = (m.tasks slot).generation + 1
  pid : (m'.tasks slot).pid = makePid slot (m'.tasks slot).generation
  others : ∀ {β : Type} {g : Task → β}, Blind g →
    ∀ j, j ≠ slot → g (m'.tasks j) = g (m.tasks j)

theorem Born.keeps (hborn : Born m m' slot)
    (hkeeps : ∀ {β : Type} {g : Task → β}, Blind g → Keeps g m' m'') :
    Born m m'' slot where
  free := hborn.free
  generation := (hkeeps Blind.generation slot).trans hborn.generation
  pid := by
    rw [hkeeps Blind.pid slot, hkeeps Blind.generation slot]
    exact hborn.pid
  others hblind j hj := (hkeeps hblind j).trans (hborn.others hblind j hj)

section

variable {entry : EntryFn} {name : String} {stack : Nat}

/-- The links of a new task and of its parent are all that `init_common_slot`
sets between the incarnation and the last three fields. -/
theorem fillSlot_linked (m : Machine) (slot : Slot) (entry : EntryFn)
    (name : String) (stack : Nat) :
    ∃ linked, (∀ {β : Type} {g : Task → β}, Blind g →
        Keeps g (m.incarnate slot entry stack) linked) ∧
      m.fillSlot slot entry name stack = linked.modify slot fun t =>
        { t with exitCode := 0, wakeTick := 0, name := name } := by
  have hlinks : ∀ {β : Type} {g : Task → β}, Blind g → Keeps g _ _ :=
    fun hblind => ((setParentPid_keeps (m.incarnate slot entry stack) hblind
      slot (m.incarnate slot entry stack).currentPid).trans
        (setFirstChild_keeps _ hblind slot noPid)).trans
          (setNextSibling_keeps _ hblind slot noPid)
  unfold fillSlot
  dsimp only
  split
  · exact ⟨_, fun hblind => (hlinks hblind).trans
      (addChild_keeps _ hblind _ slot), rfl⟩
  · exact ⟨_, hlinks, rfl⟩

variable {cr3 userEntry userStackTop : Nat} {f : Task → Task}

theorem fillSlot_born (hfree : m.findFreeSlot = some slot)
    (hgeneration : ∀ t, (f t).generation = t.generation)
    (hpid : ∀ t, (f t).pid = t.pid) :
    Born m ((m.fillSlot slot entry name stack).modify slot f) slot := by
  obtain ⟨linked, hkeeps, hfill⟩ := fillSlot_linked m slot entry name stack
  have hgeneration' : (((m.fillSlot slot entry name stack).modify slot
      f).tasks slot).generation = (m.tasks slot).generation + 1 := by
    rw [hfill, modify_tasks_self, hgeneration, modify_tasks_self]
    exact (hkeeps Blind.generation slot).trans (by simp [incarnate])
  refine ⟨hfree, hgeneration', ?_, fun hblind j hj => ?_⟩
  · rw [hgeneration', hfill, modify_tasks_self, hpid, modify_tasks_self]
    exact (hkeeps Blind.pid slot).trans (by simp [incarnate])
  · rw [hfill, modify_tasks_of_ne _ _ hj, modify_tasks_of_ne _ _ hj,
      hkeeps hblind j, incarnate, modify_tasks_of_ne _ _ hj]

theorem initCommonSlot_born {next : Machine}
    (hinit : m.initCommonSlot entry name stack = (next, some slot))
    (hgeneration : ∀ t, (f t).generation = t.generation)
    (hpid : ∀ t, (f t).pid = t.pid) : Born m (next.modify slot f) slot := by
  unfold initCommonSlot at hinit
  split at hinit
  · cases hinit
  · rename_i hfree
    split at hinit
    · cases hinit
    · cases hinit
      exact fillSlot_born hfree hgeneration hpid

theorem initCommonSlot_fails {next : Machine}
    (hinit : m.initCommonSlot entry name stack = (next, none)) :
    next = m := by
  rcases initCommonSlot_cases m entry name stack with
    hnone | ⟨slot, _, hsome⟩
  · rw [hnone] at hinit
    cases hinit
    rfl
  · rw [hsome] at hinit
    cases hinit

theorem create_born (hcreate : m.create entry name stack = (m', some slot)) :
    Born m m' slot := by
  unfold create at hcreate
  split at hcreate
  · cases hcreate
  · rename_i hinit
    cases hcreate
    exact initCommonSlot_born hinit (fun _ => rfl) fun _ => rfl

theorem create_fails (hcreate : m.create entry name stack = (m', none)) :
    m' = m := by
  unfold create at hcreate
  split at hcreate
  · rename_i hinit
    cases hcreate
    exact initCommonSlot_fails hinit
  · cases hcreate

theorem createProcess_born
    (hcreate : m.createProcess entry name stack cr3 userEntry
      userStackTop = (m', some slot)) : Born m m' slot := by
  unfold createProcess at hcreate
  split at hcreate
  · cases hcreate
  · rename_i hinit
    cases hcreate
    exact initCommonSlot_born hinit (fun _ => rfl) fun _ => rfl

theorem createProcess_fails
    (hcreate : m.createProcess entry name stack cr3 userEntry
      userStackTop = (m', none)) : m' = m := by
  unfold createProcess at hcreate
  split at hcreate
  · rename_i hinit
    cases hcreate
    exact initCommonSlot_fails hinit
  · cases hcreate

end

theorem surrender_keeps (hcode : ∀ t stackBase cr3 exitCode,
      g { t with stackBase := stackBase, cr3 := cr3, exitCode := exitCode } =
        g t) (m : Machine) (i : Slot) (exitCode : Int) :
    Keeps g m (m.surrender i exitCode) := by
  intro j
  by_cases hj : j = i
  · rw [hj]
    simp only [surrender, modify_tasks_self]
    exact hcode _ 0 0 exitCode
  · rw [surrender_tasks_of_ne m exitCode hj]

/-- Either a new incarnation was created, or no slot changed its
incarnation. -/
theorem exec_incarnations {op : Op} {report : Report}
    (hexec : m.exec op = some (m', report)) :
    (∃ slot, report = .created (some slot) ∧ Born m m' slot) ∨
      (∀ slot, report ≠ .created (some slot)) ∧
        ∀ {β : Type} {g : Task → β}, Blind g →
          (∀ t stackBase cr3 exitCode, g { t with
            stackBase := stackBase, cr3 := cr3, exitCode := exitCode } =
              g t) → Keeps g m m' := by
  cases op with
  | create entry name stack =>
      obtain ⟨result, hcreate⟩ :
          ∃ result, m.create entry name stack = result := ⟨_, rfl⟩
      rcases result with ⟨next, _ | slot⟩
      · simp only [exec, hcreate, Option.some.injEq, Prod.mk.injEq] at hexec
        obtain ⟨rfl, rfl⟩ := hexec
        rw [create_fails hcreate]
        exact Or.inr ⟨by simp, fun _ _ => Keeps.refl m⟩
      · simp only [exec, hcreate, Option.some.injEq, Prod.mk.injEq] at hexec
        obtain ⟨rfl, rfl⟩ := hexec
        exact Or.inl ⟨slot, rfl, create_born hcreate⟩
  | createProcess entry name stack cr3 userEntry userStackTop =>
      obtain ⟨result, hcreate⟩ : ∃ result, m.createProcess entry name stack
          cr3 userEntry userStackTop = result := ⟨_, rfl⟩
      rcases result with ⟨next, _ | slot⟩
      · simp only [exec, hcreate, Option.some.injEq, Prod.mk.injEq] at hexec
        obtain ⟨rfl, rfl⟩ := hexec
        rw [createProcess_fails hcreate]
        exact Or.inr ⟨by simp, fun _ _ => Keeps.refl m⟩
      · simp only [exec, hcreate, Option.some.injEq, Prod.mk.injEq] at hexec
        obtain ⟨rfl, rfl⟩ := hexec
        exact Or.inl ⟨slot, rfl, createProcess_born hcreate⟩
  | blockCurrent =>
      cases hexec
      exact Or.inr ⟨by simp, fun hblind _ => blockCurrent_keeps m hblind⟩
  | unblock pid =>
      cases hexec
      exact Or.inr ⟨by simp, fun hblind _ => unblock_keeps m hblind pid⟩
  | sleepCurrent ticks =>
      cases hexec
      exact Or.inr ⟨by simp, fun hblind _ =>
        sleepCurrent_keeps m hblind ticks⟩
  | timer =>
      cases hexec
      exact Or.inr ⟨by simp, fun hblind _ => timerInterrupt_keeps m hblind⟩
  | yield =>
      cases hexec
      exact Or.inr ⟨by simp, fun hblind _ => reschedule_keeps m hblind⟩
  | waitForChild =>
      obtain ⟨⟨next, outcome⟩, hwait, hresult⟩ :=
        Option.map_eq_some_iff.mp hexec
      cases hresult
      exact Or.inr ⟨by simp, fun hblind _ =>
        waitForChild_keeps m hblind hwait⟩
  | waitAgain =>
      rw [exec] at hexec
      split at hexec
      · cases hexec
        exact Or.inr ⟨by simp, fun _ _ => Keeps.refl m⟩
      · obtain ⟨⟨next, outcome⟩, hscan, hresult⟩ :=
          Option.map_eq_some_iff.mp hexec
        cases hresult
        exact Or.inr ⟨by simp, fun hblind _ => waitScan_keeps m hblind hscan⟩
  | exitCurrent exitCode =>
      obtain ⟨next, hexit, hresult⟩ := Option.map_eq_some_iff.mp hexec
      cases hresult
      refine Or.inr ⟨by simp, fun hblind hcode => ?_⟩
      cases hcurrent : m.current with
      | none =>
          rw [Machine.exitCurrent, hcurrent] at hexit
          cases hexit
          exact reschedule_keeps m hblind
      | some i =>
          exact (surrender_keeps hcode m i exitCode).trans
            (exitCurrent_keeps m hblind hcurrent hexit)
  | reapPendingCleanup =>
      cases hexec
      exact Or.inr ⟨by simp, fun _ _ => reapPendingCleanup_keeps m⟩

end Machine

structure Step where
  before : Machine
  op : Op
  after : Machine
  report : Report

/-- The machine in which the system starts, with idle and init created. -/
def Started (idle ini : Slot) (m : Machine) : Prop :=
  ∃ cr3 idleStack initStack,
    Machine.boot.init cr3 idleStack initStack = some (m, some idle, some ini)

/-- A run of operations, the latest first. -/
inductive History (idle : Slot) (start : Machine) :
    Machine → List Step → Prop where
  | nil : History idle start start []
  | cons {m m' : Machine} {op : Op} {report : Report} {steps : List Step}
      (hhistory : History idle start m steps) (hop : op.Allowed idle m)
      (hexec : m.exec op = some (m', report)) :
      History idle start m' (⟨m, op, m', report⟩ :: steps)

open Machine

variable {idle ini : Slot} {start m m' : Machine} {steps : List Step}

theorem History.inv (hhistory : History idle start m steps)
    (hstart : Started idle ini start) : Inv m idle ini := by
  induction hhistory with
  | nil =>
      obtain ⟨cr3, idleStack, initStack, hinit⟩ := hstart
      exact init_inv hinit
  | cons _ hop hexec ih =>
      obtain ⟨m', report, hexec', hinv'⟩ := ih.exec hop
      rw [hexec] at hexec'
      cases hexec'
      exact hinv'

/-- Run operations and write down the history. -/
def Machine.record (idle : Slot) (m : Machine) (steps : List Step) :
    List Op → Option (Machine × List Step)
  | [] => some (m, steps)
  | op :: ops =>
      if op.Allowed idle m then
        match m.exec op with
        | none => none
        | some (m', report) =>
            m'.record idle (⟨m, op, m', report⟩ :: steps) ops
      else none

variable {cr3 idleStack initStack : Nat} {ops : List Op}

theorem History.record {steps' : List Step}
    (hhistory : History idle start m steps)
    (hrecord : m.record idle steps ops = some (m', steps')) :
    History idle start m' steps' := by
  induction ops generalizing m steps with
  | nil =>
      cases hrecord
      exact hhistory
  | cons op ops ih =>
      rw [Machine.record] at hrecord
      split at hrecord
      · rename_i hop
        cases hexec : m.exec op with
        | none => simp [hexec] at hrecord
        | some result =>
            rw [hexec] at hrecord
            exact ih (hhistory.cons hop hexec) hrecord
      · cases hrecord

/-- A whole run from the start. -/
structure Session where
  idle : Slot
  ini : Slot
  start : Machine
  last : Machine
  steps : List Step

def Session.run (cr3 idleStack initStack : Nat) (ops : List Op) :
    Option Session :=
  match Machine.boot.init cr3 idleStack initStack with
  | some (start, some idle, some ini) =>
      (start.record idle [] ops).map fun (last, steps) =>
        ⟨idle, ini, start, last, steps⟩
  | _ => none

theorem Session.run_history {session : Session}
    (hrun : Session.run cr3 idleStack initStack ops = some session) :
    Started session.idle session.ini session.start ∧
      History session.idle session.start session.last session.steps := by
  unfold Session.run at hrun
  split at hrun
  · rename_i hinit
    obtain ⟨⟨last, steps⟩, hrecord, rfl⟩ := Option.map_eq_some_iff.mp hrun
    exact ⟨⟨_, _, _, hinit⟩, History.nil.record hrecord⟩
  · cases hrun

/-- A run whose outcome was computed is a history. -/
theorem Session.exists_run (check : Session → Bool)
    (hcheck : (Session.run cr3 idleStack initStack ops).any check) :
    ∃ session, Started session.idle session.ini session.start ∧
      History session.idle session.start session.last session.steps ∧
      check session := by
  cases hrun : Session.run cr3 idleStack initStack ops with
  | none => simp [hrun] at hcheck
  | some session =>
      rw [hrun] at hcheck
      obtain ⟨hstart, hhistory⟩ := Session.run_history hrun
      exact ⟨session, hstart, hhistory, hcheck⟩

end Tasks

end VenomOS
