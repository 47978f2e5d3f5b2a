/-
The task table of kernel/task.cpp and the scheduler of kernel/scheduler.cpp.
A task pointer is the index of its slot.  The context switch itself is the
change of `current`; the stack pointers it exchanges are not part of the
model.
-/
import VenomOS.LinkedChain

namespace VenomOS

namespace Tasks

open LinkedChain

abbrev maxTasks : Nat := 128

def pidIndexBits : UInt64 := 8

def pidIndexFieldMask : UInt64 := (1 <<< pidIndexBits) - 1

def pidGenerationMax : UInt64 := ~~~0

def taskStackSize : Nat := 16384

def ticksPerSwitch : Nat := 5

abbrev Pid := UInt64

abbrev noPid : Pid := 0

abbrev Slot := Fin maxTasks

instance : NeZero maxTasks := ⟨by decide⟩

inductive State where
  | dead
  | new
  | ready
  | running
  | blocked
  | sleeping
  | zombie
deriving Repr, DecidableEq

/-- The entry points the table itself knows, and the code of other tasks. -/
inductive EntryFn where
  | null
  | idleEntry
  | initEntry
  | code (address : Nat)
deriving Repr, DecidableEq

structure Task where
  stackBase : Nat
  entry : EntryFn
  state : State
  pid : Pid
  generation : UInt64
  parentPid : Pid
  firstChild : Pid
  nextSibling : Pid
  exitCode : Int
  wakeTick : UInt64
  name : String
  cr3 : Nat
  userEntry : Nat
  userStackTop : Nat
deriving Repr, DecidableEq

structure PendingCleanup where
  stackBase : Nat
  cr3 : Nat
  active : Bool
deriving Repr, DecidableEq

structure Machine where
  tasks : Slot → Task
  current : Option Slot
  kernelCr3 : Nat
  loadedCr3 : Nat
  /-- The ring 0 stack of the task state segment. -/
  rsp0 : Nat
  pendingCleanup : PendingCleanup
  initPid : Pid
  timerTicks : UInt64
  tickCounter : Nat

def Task.zero : Task :=
  ⟨0, .null, .dead, 0, 0, 0, 0, 0, 0, 0, "", 0, 0, 0⟩

/-- The static initialisers. -/
def Machine.boot : Machine :=
  ⟨fun _ => Task.zero, none, 0, 0, 0, ⟨0, 0, false⟩, noPid, 0, 0⟩

def makePid (slotIndex : Slot) (generation : UInt64) : Pid :=
  (generation <<< pidIndexBits) ||| (UInt64.ofNat slotIndex.val + 1)

def pidSlotIndex (pid : Pid) : Int :=
  ((pid &&& pidIndexFieldMask).toNat : Int) - 1

def pidGeneration (pid : Pid) : UInt64 := pid >>> pidIndexBits

/-- The function `at` of the source. -/
def slotAt (index : Int) : Option Slot :=
  if h : index < 0 ∨ maxTasks ≤ index then none
  else some ⟨index.toNat, by omega⟩

namespace Machine

variable (m : Machine)

def modify (i : Slot) (f : Task → Task) : Machine :=
  { m with tasks := Function.update m.tasks i (f (m.tasks i)) }

def setState (i : Slot) (state : State) : Machine :=
  m.modify i fun t => { t with state := state }

def setParentPid (i : Slot) (pid : Pid) : Machine :=
  m.modify i fun t => { t with parentPid := pid }

def setFirstChild (i : Slot) (pid : Pid) : Machine :=
  m.modify i fun t => { t with firstChild := pid }

def setNextSibling (i : Slot) (pid : Pid) : Machine :=
  m.modify i fun t => { t with nextSibling := pid }

def findByPid (pid : Pid) : Option Slot :=
  if pid = noPid then none
  else
    match slotAt (pidSlotIndex pid) with
    | none => none
    | some i =>
        if (m.tasks i).state = .dead then none
        else if (m.tasks i).pid ≠ pid then none
        else some i

def findFreeSlot : Option Slot :=
  (List.finRange maxTasks).find? fun i =>
    (m.tasks i).state == .dead && (m.tasks i).generation != pidGenerationMax

/-- One step along a child list: what `find_by_pid(pid)->next_sibling` reads,
and the end of the list when the pid names no task. -/
def nextSiblingOf (pid : Pid) : Pid :=
  match m.findByPid pid with
  | some i => (m.tasks i).nextSibling
  | none => noPid

/-- The loops over child lists have no bound of their own; a walk that is
still going after this many steps is reported as `none`. -/
def walkLimit : Nat := maxTasks + 1

def addChild (parent child : Slot) : Machine :=
  let m := m.setNextSibling child (m.tasks parent).firstChild
  m.setFirstChild parent (m.tasks child).pid

/-- Where the loop of `remove_child` stops: at the end of the list, at a pid
that names no task, or in front of the child. -/
def precedes (childPid pid : Pid) : Bool :=
  match m.findByPid pid with
  | none => true
  | some prev => (m.tasks prev).nextSibling == childPid

def removeChild (parent : Slot) (childPid : Pid) : Option Machine :=
  if (m.tasks parent).firstChild = childPid then
    some (m.setFirstChild parent (m.nextSiblingOf childPid))
  else
    match walkUntil m.nextSiblingOf (m.precedes childPid) walkLimit
        (m.tasks parent).firstChild with
    | none => none
    | some prevPid =>
        match m.findByPid prevPid with
        | none => some m
        | some prev =>
            some (m.setNextSibling prev (m.nextSiblingOf childPid))

def currentPid : Pid :=
  match m.current with
  | some parent => (m.tasks parent).pid
  | none => noPid

/-- A new incarnation in a free slot. -/
def incarnate (slot : Slot) (entry : EntryFn) (stack : Nat) : Machine :=
  m.modify slot fun t =>
    { t with
      state := .new
      stackBase := stack
      entry := entry
      generation := t.generation + 1
      pid := makePid slot (t.generation + 1) }

/-- `init_common_slot` after the two allocations succeeded. -/
def fillSlot (slot : Slot) (entry : EntryFn) (name : String) (stack : Nat) :
    Machine :=
  let m := m.incarnate slot entry stack
  let m := m.setParentPid slot m.currentPid
  let m := m.setFirstChild slot noPid
  let m := m.setNextSibling slot noPid
  let m : Machine :=
    match m.current with
    | some parent => m.addChild parent slot
    | none => m
  m.modify slot fun t =>
    { t with exitCode := 0, wakeTick := 0, name := name }

/-- `stack` is what `heap::kmalloc(TASK_STACK_SIZE)` returns. -/
def initCommonSlot (entry : EntryFn) (name : String) (stack : Nat) :
    Machine × Option Slot :=
  match m.findFreeSlot with
  | none => (m, none)
  | some slot =>
      if stack = 0 then (m, none)
      else (m.fillSlot slot entry name stack, some slot)

def create (entry : EntryFn) (name : String) (stack : Nat) :
    Machine × Option Slot :=
  match m.initCommonSlot entry name stack with
  | (m, none) => (m, none)
  | (m, some slot) =>
      (m.modify slot fun t => { t with cr3 := 0, state := .ready }, some slot)

def createProcess (entry : EntryFn) (name : String) (stack : Nat)
    (cr3 userEntry userStackTop : Nat) : Machine × Option Slot :=
  match m.initCommonSlot entry name stack with
  | (m, none) => (m, none)
  | (m, some slot) =>
      (m.modify slot fun t =>
        { t with
          cr3 := cr3
          userEntry := userEntry
          userStackTop := userStackTop
          state := .ready }, some slot)

/-- The task that is switched away from stays ready if it was running. -/
def demote : Machine :=
  match m.current with
  | some prev =>
      if (m.tasks prev).state = .running then m.setState prev .ready else m
  | none => m

def switchTo (next : Slot) : Machine :=
  if m.current = some next then m
  else
    let m := m.demote.setState next .running
    let task := m.tasks next
    { m with
      current := some next
      loadedCr3 := if task.cr3 ≠ 0 then task.cr3 else m.kernelCr3
      rsp0 :=
        if task.stackBase ≠ 0 then task.stackBase + taskStackSize
        else m.rsp0 }

/-- Slots in the order of the search, the one after `start` first and `start`
itself last. -/
def candidates (start : Slot) : List Slot :=
  (List.range maxTasks).map fun k =>
    ⟨(start.val + (k + 1)) % maxTasks, Nat.mod_lt _ (by decide)⟩

def nextReady : Option Slot :=
  (candidates (m.current.getD 0)).find? fun i => (m.tasks i).state == .ready

def reschedule : Machine :=
  match m.nextReady with
  | some candidate => m.switchTo candidate
  | none => m

def yield : Machine := m.reschedule

def wakeSleepingTasks : Machine :=
  { m with
    tasks := fun i =>
      if (m.tasks i).state = .sleeping ∧ (m.tasks i).wakeTick ≤ m.timerTicks
      then { m.tasks i with state := .ready }
      else m.tasks i }

/-- `scheduler::tick`. -/
def tick : Machine :=
  let m := m.wakeSleepingTasks
  if m.tickCounter + 1 < ticksPerSwitch then
    { m with tickCounter := m.tickCounter + 1 }
  else { m with tickCounter := 0 }.reschedule

/-- The timer interrupt. -/
def timerInterrupt : Machine :=
  { m with timerTicks := m.timerTicks + 1 }.tick

def blockCurrent : Machine :=
  match m.current with
  | none => m
  | some self => (m.setState self .blocked).reschedule

def unblock (pid : Pid) : Machine :=
  match m.findByPid pid with
  | none => m
  | some i =>
      if (m.tasks i).state = .blocked then m.setState i .ready else m

def sleepCurrent (ticksToSleep : UInt64) : Machine :=
  match m.current with
  | none => m
  | some self =>
      (m.modify self fun t =>
        { t with
          wakeTick := m.timerTicks + ticksToSleep
          state := .sleeping }).reschedule

inductive WaitOutcome where
  | noChild
  | reaped (pid : Pid) (exitCode : Int)
  | blocked
deriving Repr, DecidableEq

/-- Where the scan of `wait_for_child` stops. -/
def reapable (pid : Pid) : Bool :=
  match m.findByPid pid with
  | none => true
  | some child => (m.tasks child).state == .zombie

/-- The body of the endless loop: one scan, which either reaps a child or
blocks.  A task that blocked here runs the body again when it is resumed. -/
def waitScan (self : Slot) : Option (Machine × WaitOutcome) :=
  match walkUntil m.nextSiblingOf m.reapable walkLimit
      (m.tasks self).firstChild with
  | none => none
  | some childPid =>
      match m.findByPid childPid with
      | none => some (m.blockCurrent, .blocked)
      | some child =>
          match m.removeChild self (m.tasks child).pid with
          | none => none
          | some m' =>
              some ((m'.setState child .dead).setParentPid child noPid,
                .reaped (m.tasks child).pid (m.tasks child).exitCode)

def waitForChild : Option (Machine × WaitOutcome) :=
  match m.current with
  | none => some (m, .noChild)
  | some self =>
      if (m.tasks self).firstChild = noPid then some (m, .noChild)
      else m.waitScan self

/-- One turn of the loop that gives a child to init. -/
def adopt (initTask : Option Slot) (child : Slot) : Machine :=
  let m := m.setParentPid child m.initPid
  let m := m.setNextSibling child noPid
  let m : Machine :=
    match initTask with
    | some i => m.addChild i child
    | none => m
  m.unblock m.initPid

def adoptAll (initTask : Option Slot) : Nat → Pid → Machine → Option Machine
  | 0, _, _ => none
  | fuel + 1, childPid, m =>
      match m.findByPid childPid with
      | none => some m
      | some child =>
          adoptAll initTask fuel (m.tasks child).nextSibling
            (m.adopt initTask child)

/-- The task hands over its stack, its address space and its exit code. -/
def surrender (self : Slot) (exitCode : Int) : Machine :=
  let t := m.tasks self
  { m with
    pendingCleanup :=
      ⟨t.stackBase, t.cr3, t.stackBase != 0 || t.cr3 != 0⟩ }.modify self
    fun t => { t with stackBase := 0, cr3 := 0, exitCode := exitCode }

def abandonChildren (self : Slot) : Option Machine :=
  if m.initPid ≠ noPid ∧ (m.tasks self).pid ≠ m.initPid then
    match adoptAll (m.findByPid m.initPid) walkLimit
        (m.tasks self).firstChild m with
    | none => none
    | some m' => some (m'.setFirstChild self noPid)
  else some m

def finish (self : Slot) : Machine :=
  match m.findByPid (m.tasks self).parentPid with
  | some _ =>
      (m.setState self .zombie).unblock (m.tasks self).parentPid
  | none => (m.setState self .dead).setParentPid self noPid

def exitCurrent (exitCode : Int) : Option Machine :=
  match m.current with
  | none => some m.reschedule
  | some self =>
      match (m.surrender self exitCode).abandonChildren self with
      | none => none
      | some m' => some (m'.finish self).reschedule

/-- What a resumed task does first: take the pending cleanup, whose stack and
address space it then frees. -/
def reapPendingCleanup : Machine × PendingCleanup :=
  if m.pendingCleanup.active then
    ({ m with pendingCleanup := ⟨0, 0, false⟩ }, m.pendingCleanup)
  else (m, ⟨0, 0, false⟩)

def initShell (cr3 : Nat) : Machine :=
  let m : Machine :=
    { m with tasks := fun i => { m.tasks i with state := .dead } }
  let generation := (m.tasks 0).generation + 1
  { m with kernelCr3 := cr3, loadedCr3 := cr3, current := some 0 }.modify 0
    fun t =>
      { t with
        stackBase := 0
        entry := .null
        state := .running
        generation := generation
        pid := makePid 0 generation
        parentPid := noPid
        firstChild := noPid
        nextSibling := noPid
        exitCode := 0
        wakeTick := 0
        name := "shell"
        cr3 := 0 }

/-- Make a task that was just created nobody's child. -/
def orphan (slot : Slot) : Option Machine :=
  match m.removeChild 0 (m.tasks slot).pid with
  | none => none
  | some m' => some (m'.setParentPid slot noPid)

/-- Create one of the two kernel tasks. -/
def createOrphan (entry : EntryFn) (name : String) (stack : Nat) :
    Option (Machine × Option Slot) :=
  match m.create entry name stack with
  | (m, none) => some (m, none)
  | (m, some slot) =>
      match m.orphan slot with
      | none => none
      | some m' => some (m', some slot)

/-- `cr3` is the value of the register, the stacks are what the allocator
returns.  Besides the machine, the locals `idle` and `init_task`. -/
def init (cr3 idleStack initStack : Nat) :
    Option (Machine × Option Slot × Option Slot) :=
  match (m.initShell cr3).createOrphan .idleEntry "idle" idleStack with
  | none => none
  | some (m, idle) =>
      match m.createOrphan .initEntry "init" initStack with
      | none => none
      | some (m, none) => some (m, idle, none)
      | some (m, some slot) =>
          some ({ m with initPid := (m.tasks slot).pid }, idle, some slot)

end Machine

end Tasks

end VenomOS
