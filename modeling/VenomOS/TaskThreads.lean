/-
The threads behind the task table of kernel/task.cpp.  A thread that is not
running is a saved stack pointer; a new one starts in `task_trampoline`, every
other one goes on in `switch_to`, and both begin with `reap_pending_cleanup`.
The timer interrupt may come between any two steps that run with interrupts
on, as between the test and the store of `unblock`.  `exit_current`, the
choice of the next task, the tail of `switch_to` and the assignments of
`reap_pending_cleanup` run with interrupts off.
-/
import VenomOS.StepRuns
import VenomOS.TaskHistory

namespace VenomOS

namespace Tasks

/-- The arguments of `create` and of `create_process`. -/
inductive Request where
  | task (entry : EntryFn) (name : String)
  | process (entry : EntryFn) (name : String)
      (cr3 userEntry userStackTop : Nat)
deriving Repr, DecidableEq

namespace Request

def entry : Request → EntryFn
  | .task entry _ => entry
  | .process entry _ _ _ _ => entry

def name : Request → String
  | .task _ name => name
  | .process _ name _ _ _ => name

def cr3 : Request → Nat
  | .task _ _ => 0
  | .process _ _ cr3 _ _ => cr3

/-- The assignments between `init_common_slot` and `state = Ready`. -/
def assignSpace : Request → Task → Task
  | .task _ _, t => { t with cr3 := 0 }
  | .process _ _ cr3 userEntry userStackTop, t =>
      { t with
        cr3 := cr3
        userEntry := userEntry
        userStackTop := userStackTop }

end Request

/-- The last thing a creation has done: found a free slot, allocated the
stack, set the state to `New`, the stack pointer, the base of the stack, the
fields from `entry` to `name`, the address space. -/
inductive Stage where
  | chosen
  | allocated
  | marked
  | pointed
  | based
  | linked
  | spaced
deriving Repr, DecidableEq

def Stage.next : Stage → Option Stage
  | .chosen => some .allocated
  | .allocated => some .marked
  | .marked => some .pointed
  | .pointed => some .based
  | .based => some .linked
  | .linked => some .spaced
  | .spaced => none

/-- The state of a task is tested and then set: `unblock` makes a blocked task
ready, and `wait_for_child` makes a zombie dead. -/
inductive Change where
  | wake
  | reap
deriving Repr, DecidableEq

def Change.tested : Change → State
  | .wake => .blocked
  | .reap => .zombie

def Change.stored : Change → State
  | .wake => .ready
  | .reap => .dead

/-- How far a call of `reap_pending_cleanup` is: before its test, after a
test that succeeded, before `kfree` and before `destroy_address_space`. -/
inductive Reap where
  | start
  | seen
  | holding (stack cr3 : Nat)
  | holdingSpace (cr3 : Nat)
deriving Repr, DecidableEq

/-- Where a thread is.  One that changes a state has tested it and not yet
set it; a halted one came back from the last `reschedule` of
`exit_current`. -/
inductive Control where
  | running
  | trampoline (reap : Reap)
  | creating (stage : Stage) (slot : Slot) (stack : Nat) (request : Request)
  | changing (change : Change) (i : Slot)
  | halted
deriving Repr, DecidableEq

/-- Inside a creation, or between a test and the store that relies on it. -/
def Control.halfway : Control → Bool
  | .creating _ _ _ _ | .changing _ _ => true
  | _ => false

/-- What a saved stack pointer stands for. -/
structure Context where
  stack : Nat
  control : Control
  /-- Nothing has run here: the stack holds what `init_common_slot` put
  there. -/
  fresh : Bool
deriving Repr, DecidableEq

structure Kernel where
  machine : Machine
  /-- The thread behind the saved `rsp` of each slot. -/
  contexts : Slot → Context
  /-- The stack the processor is on. -/
  stack : Nat
  /-- The call of `reap_pending_cleanup` at the end of `switch_to`. -/
  tail : Option Reap
  /-- Where the running thread is once the tail is done. -/
  control : Control
  /-- The stacks that `init_common_slot` allocated and nobody freed. -/
  ownedStacks : Finset Nat
  /-- The address spaces given to `create_process` and not destroyed. -/
  ownedSpaces : Finset Nat
  /-- The stacks whose owner exited since they were allocated. -/
  retiredStacks : Finset Nat
  retiredSpaces : Finset Nat

/-- A task with a thread that can still be scheduled. -/
def State.active : State → Bool
  | .ready | .running | .blocked | .sleeping => true
  | .dead | .new | .zombie => false

inductive Action where
  | timer
  | yield
  /-- The running task sets its own state, as `block_current` and
  `sleep_current` do before they call `reschedule`. -/
  | block
  | sleep
  /-- The test of `unblock` or of `wait_for_child`. -/
  | test (change : Change) (i : Slot)
  /-- Links and wake ticks are written by other code of the table. -/
  | assign (i : Slot) (parentPid firstChild nextSibling : Pid)
      (wakeTick : UInt64)
  | setInitPid (pid : Pid)
  | exit (exitCode : Int)
  | create (request : Request)
  /-- The allocator returns a stack to the creation under way. -/
  | kmalloc (stack : Nat)
  /-- The next statement of the code the thread is in. -/
  | advance
deriving Repr, DecidableEq

/-- The fields `init_common_slot` sets after the base of the stack. -/
def Machine.enlist (m : Machine) (slot : Slot) (entry : EntryFn)
    (name : String) : Machine :=
  let m := m.modify slot fun t =>
    { t with
      entry := entry
      generation := t.generation + 1
      pid := makePid slot (t.generation + 1) }
  let m := m.setParentPid slot m.currentPid
  let m := m.setFirstChild slot noPid
  let m := m.setNextSibling slot noPid
  let m : Machine :=
    match m.current with
    | some parent => m.addChild parent slot
    | none => m
  m.modify slot fun t =>
    { t with exitCode := 0, wakeTick := 0, name := name }

/-- What a creation stores into the table after a stage; the stack pointer is
not part of it. -/
def Machine.createStore (m : Machine) (slot : Slot) (stack : Nat)
    (request : Request) : Stage → Machine
  | .chosen | .marked => m
  | .allocated => m.setState slot .new
  | .pointed => m.modify slot fun t => { t with stackBase := stack }
  | .based => m.enlist slot request.entry request.name
  | .linked => m.modify slot request.assignSpace
  | .spaced => m.setState slot .ready

namespace Machine

variable {m : Machine} {slot : Slot} {stack : Nat}

/-- `create` or `create_process`, in one step of the table. -/
def createFor (m : Machine) (request : Request) (stack : Nat) :
    Machine × Option Slot :=
  match request with
  | .task entry name => m.create entry name stack
  | .process entry name cr3 userEntry userStackTop =>
      m.createProcess entry name stack cr3 userEntry userStackTop

/-- What a creation has made of the table when it is at a stage. -/
def createdTo (m : Machine) (slot : Slot) (stack : Nat) (request : Request) :
    Stage → Machine
  | .chosen | .allocated => m
  | .marked | .pointed => m.setState slot .new
  | .based => (m.setState slot .new).modify slot fun t =>
      { t with stackBase := stack }
  | .linked => m.fillSlot slot request.entry request.name stack
  | .spaced =>
      (m.fillSlot slot request.entry request.name stack).modify slot
        request.assignSpace

theorem enlist_eq_fillSlot (m : Machine) (slot : Slot) (entry : EntryFn)
    (name : String) (stack : Nat) :
    ((m.setState slot .new).modify slot fun t =>
      { t with stackBase := stack }).enlist slot entry name =
        m.fillSlot slot entry name stack := by
  rw [enlist, setState, modify_modify, modify_modify]
  rfl

theorem createStore_createdTo {stage next : Stage} (request : Request)
    (hnext : stage.next = some next) :
    (m.createdTo slot stack request stage).createStore slot stack request
      stage = m.createdTo slot stack request next := by
  cases stage with
  | based =>
      cases hnext
      exact enlist_eq_fillSlot m slot _ _ stack
  | chosen | allocated | marked | pointed | linked | spaced =>
      cases hnext <;> rfl

/-- The stages put together are what the table does in one step. -/
theorem createStore_spaced (request : Request)
    (hfree : m.findFreeSlot = some slot) (hstack : stack ≠ 0) :
    m.createFor request stack =
      ((m.createdTo slot stack request .spaced).createStore slot stack
        request .spaced, some slot) := by
  cases request <;>
    simp [createFor, create, createProcess, initCommonSlot, hfree, hstack,
      createdTo, createStore, setState, modify_modify, Function.comp_def,
      Request.assignSpace, Request.entry, Request.name]

end Machine

namespace Kernel

variable (k : Kernel)

/-- `switch_to` up to its tail; the thread that calls it goes on at
`after`. -/
def switchTo (prev next : Slot) (after : Control) : Kernel :=
  if next = prev then { k with control := after }
  else
    { k with
      machine := k.machine.switchTo next
      contexts := Function.update k.contexts prev ⟨k.stack, after, false⟩
      stack := (k.contexts next).stack
      tail := if (k.contexts next).fresh then none else some .start
      control := (k.contexts next).control }

def reschedule (after : Control) : Kernel :=
  match k.machine.current, k.machine.nextReady with
  | some prev, some next => k.switchTo prev next after
  | _, _ => { k with control := after }

/-- The timer interrupt: the thread goes on where it is. -/
def timerInterrupt : Kernel :=
  let m := { k.machine with
    timerTicks := k.machine.timerTicks + 1 }.wakeSleepingTasks
  if m.tickCounter + 1 < ticksPerSwitch then
    { k with machine := { m with tickCounter := m.tickCounter + 1 } }
  else { k with machine := { m with tickCounter := 0 } }.reschedule k.control

def exitCurrent (exitCode : Int) : Option Kernel :=
  match k.machine.current with
  | none => some (k.reschedule .halted)
  | some self =>
      let t := k.machine.tasks self
      match (k.machine.surrender self exitCode).abandonChildren self with
      | none => none
      | some m =>
          some ({ k with
            machine := m.finish self
            retiredStacks := insert t.stackBase k.retiredStacks
            retiredSpaces := insert t.cr3 k.retiredSpaces
            }.reschedule .halted)

/-- One statement of `reap_pending_cleanup`, and what is left of the call. -/
def reapStep : Reap → Kernel × Option Reap
  | .start =>
      (k, if k.machine.pendingCleanup.active then some .seen else none)
  | .seen =>
      ({ k with
        machine := { k.machine with pendingCleanup := ⟨0, 0, false⟩ } },
        some (.holding k.machine.pendingCleanup.stackBase
          k.machine.pendingCleanup.cr3))
  | .holding stack cr3 =>
      ({ k with ownedStacks := k.ownedStacks.erase stack }, some (.holdingSpace cr3))
  | .holdingSpace cr3 => ({ k with ownedSpaces := k.ownedSpaces.erase cr3 }, none)

/-- `find_free_slot`; an address space that is given to `create_process` is the
task's from now on. -/
def startCreate (request : Request) : Kernel :=
  match k.machine.findFreeSlot with
  | none => k
  | some slot =>
      { k with
        control := .creating .chosen slot 0 request
        ownedSpaces :=
          if request.cr3 = 0 then k.ownedSpaces else insert request.cr3 k.ownedSpaces
        retiredSpaces :=
          if request.cr3 = 0 then k.retiredSpaces
          else k.retiredSpaces.erase request.cr3 }

/-- `kmalloc` returned; a creation that fails leaves the address space to its
caller. -/
def allocateStack (slot : Slot) (request : Request) (stack : Nat) : Kernel :=
  if stack = 0 then
    { k with control := .running, ownedSpaces := k.ownedSpaces.erase request.cr3 }
  else
    { k with
      control := .creating .allocated slot stack request
      ownedStacks := insert stack k.ownedStacks
      retiredStacks := k.retiredStacks.erase stack }

/-- One statement of a creation after the allocation. -/
def createStep (slot : Slot) (stack : Nat) (request : Request)
    (stage : Stage) : Kernel :=
  { k with
    machine := k.machine.createStore slot stack request stage
    contexts :=
      if stage = .marked then
        Function.update k.contexts slot ⟨stack, .trampoline .start, true⟩
      else k.contexts
    control := stage.next.elim .running fun next =>
      .creating next slot stack request }

def setOwnState (state : State) : Kernel :=
  match k.machine.current with
  | none => k
  | some self => { k with machine := k.machine.setState self state }

def test (change : Change) (i : Slot) : Kernel :=
  if (k.machine.tasks i).state = change.tested then
    { k with control := .changing change i }
  else k

def assign (i : Slot) (parentPid firstChild nextSibling : Pid)
    (wakeTick : UInt64) : Kernel :=
  { k with
    machine := k.machine.modify i fun t =>
      { t with
        parentPid := parentPid
        firstChild := firstChild
        nextSibling := nextSibling
        wakeTick := wakeTick } }

def runningStep : Action → Option Kernel
  | .timer => some k.timerInterrupt
  | .yield => some (k.reschedule .running)
  | .block => some (k.setOwnState .blocked)
  | .sleep => some (k.setOwnState .sleeping)
  | .test change i => some (k.test change i)
  | .assign i parentPid firstChild nextSibling wakeTick =>
      some (k.assign i parentPid firstChild nextSibling wakeTick)
  | .setInitPid pid =>
      some { k with machine := { k.machine with initPid := pid } }
  | .exit exitCode => k.exitCurrent exitCode
  | .create request => some (k.startCreate request)
  | .kmalloc _ | .advance => none

def trampolineStep (reap : Reap) : Action → Option Kernel
  | .timer => some k.timerInterrupt
  | .advance =>
      some { (k.reapStep reap).1 with
        control := (k.reapStep reap).2.elim .running .trampoline }
  | _ => none

def creatingStep (stage : Stage) (slot : Slot) (stack : Nat)
    (request : Request) : Action → Option Kernel
  | .timer => some k.timerInterrupt
  | .kmalloc result =>
      if stage = .chosen then some (k.allocateStack slot request result)
      else none
  | .advance =>
      if stage = .chosen then none
      else some (k.createStep slot stack request stage)
  | _ => none

/-- `remove_child` stores between the test and `state = Dead`. -/
def changingStep (change : Change) (i : Slot) : Action → Option Kernel
  | .timer => some k.timerInterrupt
  | .assign i parentPid firstChild nextSibling wakeTick =>
      some (k.assign i parentPid firstChild nextSibling wakeTick)
  | .advance =>
      some { k with
        machine := k.machine.setState i change.stored
        control := .running }
  | _ => none

/-- The steps of a thread with interrupts on. -/
def threadStep (action : Action) : Option Kernel :=
  match k.control with
  | .halted => none
  | .running => k.runningStep action
  | .trampoline reap => k.trampolineStep reap action
  | .creating stage slot stack request =>
      k.creatingStep stage slot stack request action
  | .changing change i => k.changingStep change i action

/-- One step; the tail of `switch_to` comes first. -/
def step (action : Action) : Option Kernel :=
  match k.tail with
  | none => k.threadStep action
  | some reap =>
      if action = .advance then
        some { (k.reapStep reap).1 with tail := (k.reapStep reap).2 }
      else none

/-- The shell, before `task::init` creates the other two tasks. -/
def boot (cr3 : Nat) : Kernel where
  machine := Machine.boot.initShell cr3
  contexts _ := ⟨0, .running, false⟩
  stack := 0
  tail := none
  control := .running
  ownedStacks := ∅
  ownedSpaces := ∅
  retiredStacks := ∅
  retiredSpaces := ∅

section

variable {k} {cur slot : Slot} {stack : Nat}

theorem reschedule_machine (after : Control)
    (hcurrent : k.machine.current = some cur) :
    (k.reschedule after).machine = k.machine.reschedule := by
  rw [reschedule, Machine.reschedule, hcurrent]
  cases k.machine.nextReady with
  | none => rfl
  | some next =>
      dsimp only
      rw [switchTo]
      by_cases hnext : next = cur
      · rw [if_pos hnext, Machine.switchTo, hcurrent, if_pos (by rw [hnext])]
      · rw [if_neg hnext]

theorem timerInterrupt_machine (hcurrent : k.machine.current = some cur) :
    k.timerInterrupt.machine = k.machine.timerInterrupt := by
  unfold timerInterrupt Machine.timerInterrupt Machine.tick
  dsimp only
  split
  · rfl
  · exact @reschedule_machine _ cur _ hcurrent

theorem exitCurrent_machine (hcurrent : k.machine.current = some cur)
    (exitCode : Int) : (k.exitCurrent exitCode).map Kernel.machine =
      k.machine.exitCurrent exitCode := by
  rw [exitCurrent, Machine.exitCurrent, hcurrent]
  dsimp only
  cases habandon :
      (k.machine.surrender cur exitCode).abandonChildren cur with
  | none => rfl
  | some m =>
      obtain ⟨state, _, hfinish⟩ := Machine.finish_quiet m cur
      have hcurrent' : (m.finish cur).current = some cur := by
        rw [hfinish.onlyTasks.current_eq]
        exact (Machine.abandonChildren_quiet
          habandon).onlyTasks.current_eq.trans hcurrent
      exact congrArg some (@reschedule_machine _ cur _ hcurrent')

theorem replay_create (hcontrol : k.control = .running)
    (htail : k.tail = none) (hfree : k.machine.findFreeSlot = some slot)
    (hstack : stack ≠ 0) (request : Request) :
    ∃ k', StepRuns.replay Kernel.step (fun _ _ => True) k
        ([.create request, .kmalloc stack] ++
          List.replicate 6 .advance) = some k' ∧
      k'.machine = (k.machine.createFor request stack).1 ∧
      k'.control = .running ∧
      k'.contexts = Function.update k.contexts slot
        ⟨stack, .trampoline .start, true⟩ := by
  rw [Machine.createStore_spaced request hfree hstack, Machine.createdTo,
    ← Machine.enlist_eq_fillSlot]
  simp [StepRuns.replay, step, threadStep, htail, hcontrol, runningStep, creatingStep,
    startCreate, hfree, allocateStack, hstack, createStep, Stage.next, Machine.createStore]

end

end Kernel

end Tasks

end VenomOS
