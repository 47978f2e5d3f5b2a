/-
The one pending cleanup of kernel/task.cpp under preemption.  A stack or an
address space is in one place at a time: a task owns it, it is pending, or a
thread that is creating a task or reaping has it in a local variable.
-/
import VenomOS.Custody
import VenomOS.TaskThreads

namespace VenomOS

namespace Tasks

/-- The two things an exiting task leaves to be released. -/
inductive Resource where
  | kernelStack
  | addressSpace
deriving Repr, DecidableEq

namespace Resource

def ofTask : Resource → Task → Nat
  | .kernelStack, t => t.stackBase
  | .addressSpace, t => t.cr3

def ofPending : Resource → PendingCleanup → Nat
  | .kernelStack, pending => pending.stackBase
  | .addressSpace, pending => pending.cr3

def ofReap : Resource → Reap → Nat
  | _, .start => 0
  | _, .seen => 0
  | .kernelStack, .holding stack _ => stack
  | .kernelStack, .holdingSpace _ => 0
  | .addressSpace, .holding _ cr3 => cr3
  | .addressSpace, .holdingSpace cr3 => cr3

/-- A creation has the stack from the allocation until the task owns it, and
the address space from the call on. -/
def ofCreation : Resource → Stage → Nat → Request → Nat
  | .kernelStack, .allocated, stack, _ => stack
  | .kernelStack, .marked, stack, _ => stack
  | .kernelStack, .pointed, stack, _ => stack
  | .kernelStack, _, _, _ => 0
  | .addressSpace, .spaced, _, _ => 0
  | .addressSpace, _, _, request => request.cr3

def ofControl (r : Resource) : Control → Nat
  | .running => 0
  | .trampoline reap => r.ofReap reap
  | .creating stage _ stack request => r.ofCreation stage stack request
  | .changing _ _ => 0
  | .halted => 0

end Resource

/-- Where a resource can be. -/
inductive Place where
  | task (i : Slot)
  | pending
  | tail
  | thread (i : Slot)
deriving DecidableEq

/-- What the threads read of a task. -/
def Task.holdings (t : Task) : Nat × Nat × State :=
  (t.stackBase, t.cr3, t.state)

/-- What a store of a creation makes of what the slot holds. -/
def Stage.held (stack : Nat) (request : Request)
    (held : Nat × Nat × State) : Stage → Nat × Nat × State
  | .chosen | .marked | .based => held
  | .allocated => (held.1, held.2.1, .new)
  | .pointed => (stack, held.2.1, held.2.2)
  | .linked => (held.1, request.cr3, held.2.2)
  | .spaced => (held.1, held.2.1, .ready)

theorem Resource.ofTask_congr {t t' : Task} (hsame : t'.holdings = t.holdings)
    (r : Resource) : r.ofTask t' = r.ofTask t := by
  cases r with
  | kernelStack => exact congrArg Prod.fst hsame
  | addressSpace => exact congrArg (fun held => held.2.1) hsame

theorem Change.active_stored (change : Change) :
    change.stored.active = change.tested.active := by
  cases change <;> rfl

namespace Kernel

variable (k : Kernel)

def owned : Resource → Finset Nat
  | .kernelStack => k.ownedStacks
  | .addressSpace => k.ownedSpaces

def retired : Resource → Finset Nat
  | .kernelStack => k.retiredStacks
  | .addressSpace => k.retiredSpaces

/-- The thread of a task, running or saved. -/
def thread (i : Slot) : Context :=
  if k.machine.current = some i then ⟨k.stack, k.control, false⟩
  else k.contexts i

def content (r : Resource) : Place → Nat
  | .task i => r.ofTask (k.machine.tasks i)
  | .pending => r.ofPending k.machine.pendingCleanup
  | .tail => k.tail.elim 0 r.ofReap
  | .thread i =>
      if (k.machine.tasks i).state.active then r.ofControl (k.thread i).control
      else 0

/-- The places of what nobody owns any more. -/
def Waste : Place → Prop
  | .task _ => False
  | .pending => True
  | .tail => True
  | .thread i => ∃ reap, (k.thread i).control = .trampoline reap

/-- The call of `reap_pending_cleanup` whose statement is next. -/
def reaper : Option Reap :=
  match k.tail, k.control with
  | some reap, _ => some reap
  | none, .trampoline reap => some reap
  | none, _ => none

/-- A creation under way: its slot is nobody's, and holds what was stored. -/
structure Building (stage : Stage) (slot cur : Slot) (stack : Nat) :
    Prop where
  ne : slot ≠ cur
  state : (k.machine.tasks slot).state =
    match stage with
    | .chosen | .allocated => .dead
    | _ => .new
  context : stage = .pointed ∨ stage = .based ∨ stage = .linked ∨
      stage = .spaced →
    k.contexts slot = ⟨stack, .trampoline .start, true⟩
  base : stage = .based ∨ stage = .linked ∨ stage = .spaced →
    (k.machine.tasks slot).stackBase = stack

/-- The threads and the table agree. -/
structure Threads (cur : Slot) : Prop where
  current : k.machine.current = some cur
  active : k.control ≠ .halted → (k.machine.tasks cur).state.active
  tail : k.tail ≠ none → k.control ≠ .halted
  stack_eq : ∀ i, (k.machine.tasks i).state.active →
    (k.thread i).stack = (k.machine.tasks i).stackBase
  control_ne : ∀ i, (k.machine.tasks i).state.active →
    (k.thread i).control ≠ .halted
  settled : ∀ i, i ≠ cur → (k.machine.tasks i).state.active →
    (k.contexts i).control.halfway = false
  fresh : ∀ i, i ≠ cur → (k.machine.tasks i).state.active →
    (k.contexts i).fresh → (k.contexts i).control = .trampoline .start
  loaded : k.control ≠ .halted → k.machine.loadedCr3 =
    if (k.machine.tasks cur).cr3 ≠ 0 then (k.machine.tasks cur).cr3
    else k.machine.kernelCr3
  building : ∀ stage slot stack request,
    k.control = .creating stage slot stack request →
      k.Building stage slot cur stack
  changing : ∀ change i, k.control = .changing change i →
    (k.machine.tasks i).state = change.tested

/-- What is pending will be reaped before the running thread goes on. -/
structure Awaited : Prop where
  reaper : k.machine.pendingCleanup.active = true →
    k.reaper = some .start ∨ k.reaper = some .seen ∨ k.control = .halted
  empty : k.machine.pendingCleanup.active = false →
    k.machine.pendingCleanup.stackBase = 0 ∧ k.machine.pendingCleanup.cr3 = 0

structure Inv : Prop where
  threads : ∃ cur, k.Threads cur
  awaited : k.Awaited
  custody : ∀ r, Custody (k.content r) k.Waste (k.owned r) (k.retired r)
  kernel : k.machine.kernelCr3 ∉ k.ownedSpaces

/-- At the statement that comes next nothing is lost, released twice or
released while it is in use: an exit overwrites no pending cleanup, and what
is passed to `kfree` or to `destroy_address_space` is allocated, was given up
by the exit of its owner, and is not what the processor runs on. -/
structure Safe : Prop where
  store : ∀ exitCode k', k.step (.exit exitCode) = some k' →
    k.machine.pendingCleanup = ⟨0, 0, false⟩
  kfree : ∀ stack cr3, k.reaper = some (.holding stack cr3) → stack ≠ 0 →
    stack ∈ k.ownedStacks ∧ stack ∈ k.retiredStacks ∧ stack ≠ k.stack
  destroy : ∀ cr3, k.reaper = some (.holdingSpace cr3) → cr3 ≠ 0 →
    cr3 ∈ k.ownedSpaces ∧ cr3 ∈ k.retiredSpaces ∧
      cr3 ≠ k.machine.loadedCr3

section

variable {k} {k' : Kernel} {cur : Slot} {reap : Reap} {m' : Machine}

theorem Threads.thread_cur (hthreads : k.Threads cur) :
    k.thread cur = ⟨k.stack, k.control, false⟩ :=
  if_pos hthreads.current

theorem Threads.thread_of_ne (hthreads : k.Threads cur) {i : Slot}
    (hne : i ≠ cur) : k.thread i = k.contexts i := by
  refine if_neg fun hcurrent => hne ?_
  rw [hthreads.current] at hcurrent
  exact (Option.some.inj hcurrent).symm

theorem Threads.content_cur (hthreads : k.Threads cur)
    (hcontrol : k.control ≠ .halted) (r : Resource) :
    k.content r (.thread cur) = r.ofControl k.control := by
  simp only [content, hthreads.active hcontrol, hthreads.thread_cur, if_true]

theorem Threads.reaper_place (hthreads : k.Threads cur)
    (hreaper : k.reaper = some reap) :
    k.control ≠ .halted ∧ ∃ p, k.Waste p ∧ p ≠ .task cur ∧
      ∀ r, k.content r p = r.ofReap reap := by
  unfold reaper at hreaper
  split at hreaper
  · rename_i htail
    cases hreaper
    refine ⟨hthreads.tail (by simp [htail]), .tail, trivial, by simp, ?_⟩
    simp [content, htail]
  · rename_i hcontrol
    cases hreaper
    have hne : k.control ≠ .halted := by simp [hcontrol]
    refine ⟨hne, .thread cur, ⟨reap, ?_⟩, by simp, fun r => ?_⟩
    · rw [hthreads.thread_cur, hcontrol]
    · rw [hthreads.content_cur hne, hcontrol, Resource.ofControl]
  · cases hreaper

theorem Inv.pending_inactive (hinv : k.Inv) (hcontrol : k.control ≠ .halted)
    (hstart : k.reaper ≠ some .start) (hseen : k.reaper ≠ some .seen) :
    k.machine.pendingCleanup = ⟨0, 0, false⟩ := by
  have hactive : k.machine.pendingCleanup.active = false := by
    by_contra hactive
    rcases hinv.awaited.reaper (by simpa using hactive) with h | h | h
    · exact hstart h
    · exact hseen h
    · exact hcontrol h
  obtain ⟨hstack, hcr3⟩ := hinv.awaited.empty hactive
  have heta : k.machine.pendingCleanup = ⟨k.machine.pendingCleanup.stackBase,
    k.machine.pendingCleanup.cr3, k.machine.pendingCleanup.active⟩ := rfl
  rw [heta, hstack, hcr3, hactive]

theorem step_exit_running {exitCode : Int}
    (hstep : k.step (.exit exitCode) = some k') :
    k.tail = none ∧ k.control = .running := by
  unfold step threadStep at hstep
  split at hstep
  · split at hstep <;> first | exact ⟨‹_›, ‹_›⟩ | cases hstep
  · simp at hstep

theorem Inv.safe (hinv : k.Inv) : k.Safe := by
  obtain ⟨cur, hthreads⟩ := hinv.threads
  refine ⟨fun exitCode k' hstep => ?_, fun stack cr3 hreaper hne => ?_,
    fun cr3 hreaper hne => ?_⟩
  · obtain ⟨htail, hcontrol⟩ := step_exit_running hstep
    exact hinv.pending_inactive (by simp [hcontrol])
      (by simp [reaper, htail, hcontrol]) (by simp [reaper, htail, hcontrol])
  · obtain ⟨hcontrol, p, hwaste, hp, hcontent⟩ :=
      hthreads.reaper_place hreaper
    have hstack : k.content .kernelStack p = stack := hcontent _
    have hcustody := hinv.custody .kernelStack
    rw [← hstack] at hne ⊢
    refine ⟨hcustody.owned hne, hcustody.retired hwaste hne, fun heq => hp ?_⟩
    refine hcustody.distinct (heq.trans ?_) hne
    have hown := hthreads.stack_eq cur (hthreads.active hcontrol)
    rwa [hthreads.thread_cur] at hown
  · obtain ⟨hcontrol, p, hwaste, hp, hcontent⟩ :=
      hthreads.reaper_place hreaper
    have hspace : k.content .addressSpace p = cr3 := hcontent _
    have hcustody := hinv.custody .addressSpace
    rw [← hspace] at hne ⊢
    refine ⟨hcustody.owned hne, hcustody.retired hwaste hne, fun heq => ?_⟩
    rw [hthreads.loaded hcontrol] at heq
    split at heq
    · exact hp (hcustody.distinct heq hne)
    · exact hinv.kernel (heq ▸ hcustody.owned hne)

/-- Tasks keep what they own and stay schedulable or not. -/
structure Settled (m m' : Machine) : Prop where
  current_eq : m'.current = m.current
  kernelCr3_eq : m'.kernelCr3 = m.kernelCr3
  loadedCr3_eq : m'.loadedCr3 = m.loadedCr3
  pending_eq : m'.pendingCleanup = m.pendingCleanup
  stackBase_eq : ∀ i, (m'.tasks i).stackBase = (m.tasks i).stackBase
  cr3_eq : ∀ i, (m'.tasks i).cr3 = (m.tasks i).cr3
  active_eq : ∀ i, (m'.tasks i).state.active = (m.tasks i).state.active
  unborn : ∀ i, (m.tasks i).state = .dead ∨ (m.tasks i).state = .new →
    (m'.tasks i).state = (m.tasks i).state

theorem Settled.ofTask_eq {m : Machine} (hsettled : Settled m m')
    (r : Resource) (i : Slot) :
    r.ofTask (m'.tasks i) = r.ofTask (m.tasks i) := by
  cases r with
  | kernelStack => exact hsettled.stackBase_eq i
  | addressSpace => exact hsettled.cr3_eq i

theorem Inv.settle (hinv : k.Inv) (hsettled : Settled k.machine m')
    (hkept : ∀ change i, k.control = .changing change i →
      (m'.tasks i).state = (k.machine.tasks i).state) :
    ({ k with machine := m' } : Kernel).Inv := by
  obtain ⟨cur, hthreads⟩ := hinv.threads
  have hthread : ({ k with machine := m' } : Kernel).thread = k.thread := by
    funext i
    simp only [thread, hsettled.current_eq]
  have hcontent : ({ k with machine := m' } : Kernel).content = k.content := by
    funext r p
    cases p with
    | task i => exact hsettled.ofTask_eq r i
    | pending => exact congrArg r.ofPending hsettled.pending_eq
    | tail => rfl
    | thread i => simp only [content, hthread, hsettled.active_eq]
  refine ⟨⟨cur, ?_⟩, ⟨fun hactive => ?_, fun hactive => ?_⟩, fun r => ?_, ?_⟩
  · constructor
    · exact hsettled.current_eq.trans hthreads.current
    · intro hcontrol
      exact (hsettled.active_eq cur).trans (hthreads.active hcontrol)
    · exact hthreads.tail
    · intro i hi
      rw [hthread, hsettled.stackBase_eq]
      exact hthreads.stack_eq i ((hsettled.active_eq i).symm.trans hi)
    · intro i hi
      rw [hthread]
      exact hthreads.control_ne i ((hsettled.active_eq i).symm.trans hi)
    · intro i hne hi
      exact hthreads.settled i hne ((hsettled.active_eq i).symm.trans hi)
    · intro i hne hi
      exact hthreads.fresh i hne ((hsettled.active_eq i).symm.trans hi)
    · intro hcontrol
      rw [hsettled.loadedCr3_eq, hsettled.cr3_eq, hsettled.kernelCr3_eq]
      exact hthreads.loaded hcontrol
    · intro stage slot stack request hcontrol
      have hbuilding := hthreads.building stage slot stack request hcontrol
      refine ⟨hbuilding.ne, ?_, hbuilding.context, fun hstage => ?_⟩
      · refine (hsettled.unborn slot ?_).trans hbuilding.state
        rw [hbuilding.state]
        cases stage <;> simp
      · exact (hsettled.stackBase_eq slot).trans (hbuilding.base hstage)
    · intro change i hcontrol
      exact (hkept change i hcontrol).trans
        (hthreads.changing change i hcontrol)
  · exact hinv.awaited.reaper (hsettled.pending_eq ▸ hactive)
  · rw [hsettled.pending_eq] at hactive ⊢
    exact hinv.awaited.empty hactive
  · rw [hcontent]
    refine (hinv.custody r).mono fun p hp _ => ?_
    cases p with
    | thread i => simpa only [Waste, hthread] using hp
    | task i => exact hp
    | pending => exact hp
    | tail => exact hp
  · rw [hsettled.kernelCr3_eq]
    exact hinv.kernel

theorem Threads.setControl {control' : Control} (hthreads : k.Threads cur)
    (hcontrol : k.control ≠ .halted) (hcontrol' : control' ≠ .halted)
    (hbuilding : ∀ stage slot stack request,
      control' = .creating stage slot stack request →
        k.Building stage slot cur stack)
    (hchanging : ∀ change i, control' = .changing change i →
      (k.machine.tasks i).state = change.tested) :
    ({ k with control := control' } : Kernel).Threads cur := by
  have hthread : ∀ i, i ≠ cur →
      ({ k with control := control' } : Kernel).thread i = k.thread i := by
    intro i hne
    rw [hthreads.thread_of_ne hne]
    refine if_neg fun hcurrent => hne ?_
    exact Option.some.inj (hcurrent.symm.trans hthreads.current)
  have hself : ({ k with control := control' } : Kernel).thread cur =
      ⟨k.stack, control', false⟩ := if_pos hthreads.current
  constructor
  · exact hthreads.current
  · exact fun _ => hthreads.active hcontrol
  · exact fun _ => hcontrol'
  · intro i hi
    by_cases hne : i = cur
    · have hstack := hthreads.stack_eq i hi
      rw [hne, hthreads.thread_cur] at hstack
      rwa [hne, hself]
    · rw [hthread i hne]
      exact hthreads.stack_eq i hi
  · intro i hi
    by_cases hne : i = cur
    · rwa [hne, hself]
    · rw [hthread i hne]
      exact hthreads.control_ne i hi
  · exact hthreads.settled
  · exact hthreads.fresh
  · exact fun _ => hthreads.loaded hcontrol
  · intro stage slot stack request hcreating
    have hnow := hbuilding stage slot stack request hcreating
    exact ⟨hnow.ne, hnow.state, hnow.context, hnow.base⟩
  · exact hchanging

theorem Threads.content_setControl (hthreads : k.Threads cur)
    (hcontrol : k.control ≠ .halted) (control' : Control) (r : Resource) :
    ({ k with control := control' } : Kernel).content r =
      Function.update (k.content r) (.thread cur) (r.ofControl control') := by
  funext q
  by_cases hq : q = .thread cur
  · have hself : ({ k with control := control' } : Kernel).thread cur =
        ⟨k.stack, control', false⟩ := if_pos hthreads.current
    rw [hq, Function.update_self, content, hself]
    exact if_pos (hthreads.active hcontrol)
  · rw [Function.update_of_ne hq]
    cases q with
    | thread i =>
        have hne : k.machine.current ≠ some i := fun hcurrent => hq (by
          rw [Option.some.inj (hcurrent.symm.trans hthreads.current)])
        simp only [content, thread, hne, if_false]
    | task i => rfl
    | pending => rfl
    | tail => rfl

theorem Threads.waste_setControl (hthreads : k.Threads cur)
    {control' : Control} {q : Place}
    (hwaste : ({ k with control := control' } : Kernel).Waste q) :
    k.Waste q ∨ q = .thread cur ∧ ∃ reap, control' = .trampoline reap := by
  cases q with
  | thread i =>
      by_cases hcurrent : k.machine.current = some i
      · obtain ⟨reap, hreap⟩ := hwaste
        rw [thread, if_pos hcurrent] at hreap
        rw [Option.some.inj (hcurrent.symm.trans hthreads.current)]
        exact Or.inr ⟨rfl, reap, hreap⟩
      · refine Or.inl ?_
        simpa only [Waste, thread, hcurrent, if_false] using hwaste
  | task i => exact Or.inl hwaste
  | pending => exact Or.inl hwaste
  | tail => exact Or.inl hwaste

/-- The threads do not read the pending cleanup and the allocators. -/
theorem Threads.frame (hthreads : k.Threads cur) (pending : PendingCleanup)
    (ownedStacks ownedSpaces retiredStacks retiredSpaces : Finset Nat)
    {tail' : Option Reap} (htail : tail' ≠ none → k.control ≠ .halted) :
    ({ k with
      machine := { k.machine with pendingCleanup := pending }
      tail := tail'
      ownedStacks := ownedStacks
      ownedSpaces := ownedSpaces
      retiredStacks := retiredStacks
      retiredSpaces := retiredSpaces } : Kernel).Threads cur where
  current := hthreads.current
  active := hthreads.active
  tail := htail
  stack_eq := hthreads.stack_eq
  control_ne := hthreads.control_ne
  settled := hthreads.settled
  fresh := hthreads.fresh
  loaded := hthreads.loaded
  building stage slot stack request hcreating :=
    have hnow := hthreads.building stage slot stack request hcreating
    ⟨hnow.ne, hnow.state, hnow.context, hnow.base⟩
  changing := hthreads.changing

/-- One statement of a reap whose locals are at `p`. -/
theorem Inv.reap_custody (hinv : k.Inv) {p : Place}
    (hcontent_p : ∀ r, k.content r p = r.ofReap reap)
    (hcontent : ∀ r, k'.content r = Function.update
      ((k.reapStep reap).1.content r) p ((k.reapStep reap).2.elim 0 r.ofReap))
    (howned : ∀ r, k'.owned r = (k.reapStep reap).1.owned r)
    (hretired : ∀ r, k'.retired r = k.retired r)
    (hwaste : ∀ q, k'.Waste q → k.Waste q) (r : Resource) :
    Custody (k'.content r) k'.Waste (k'.owned r) (k'.retired r) := by
  have hcustody := hinv.custody r
  have hcontent := hcontent r
  have hcontent_p := hcontent_p r
  have hkept : r.ofReap reap = 0 → Function.update (k.content r) p 0 =
      k.content r := fun hzero =>
    Function.update_eq_self_iff.mpr (hzero ▸ hcontent_p.symm)
  rw [howned r, hretired r]
  cases reap with
  | start =>
      have hnone : (k.reapStep .start).2.elim 0 r.ofReap = 0 := by
        rw [reapStep]
        split <;> cases r <;> rfl
      rw [hcontent, hnone]
      change Custody (Function.update (k.content r) p 0) _ (k.owned r) _
      rw [hkept (by cases r <;> rfl)]
      exact hcustody.mono fun q hq _ => hwaste q hq
  | seen =>
      have hcleared : (k.reapStep .seen).1.content r =
          Function.update (k.content r) .pending 0 := by
        funext q
        cases q with
        | pending => cases r <;> rfl
        | task i => rfl
        | tail => rfl
        | thread i => rfl
      have htaken : (k.reapStep .seen).2.elim 0 r.ofReap =
          k.content r .pending := by
        cases r <;> rfl
      rw [hcleared, htaken] at hcontent
      refine hcustody.move hcontent (fun q _ hq _ => hwaste q hq)
        (Finset.Subset.refl _) fun _ hne => ?_
      exact hcustody.retired trivial hne
  | holding stack cr3 =>
      cases r with
      | kernelStack =>
          have hreleased := hcustody.release hcontent
            fun q hq _ => hwaste q hq
          rwa [hcontent_p] at hreleased
      | addressSpace =>
          have hsame : k'.content .addressSpace = k.content .addressSpace :=
            hcontent.trans (Function.update_eq_self_iff.mpr hcontent_p.symm)
          rw [hsame]
          exact hcustody.mono fun q hq _ => hwaste q hq
  | holdingSpace cr3 =>
      cases r with
      | kernelStack =>
          rw [hcontent]
          change Custody (Function.update (k.content .kernelStack) p 0) _
            (k.owned .kernelStack) _
          rw [hkept rfl]
          exact hcustody.mono fun q hq _ => hwaste q hq
      | addressSpace =>
          have hreleased := hcustody.release hcontent
            fun q hq _ => hwaste q hq
          rwa [hcontent_p] at hreleased

theorem Inv.reap_awaited (hinv : k.Inv) (hcontrol : k.control ≠ .halted)
    (hreaper : k.reaper = some reap)
    (hmachine : k'.machine.pendingCleanup =
      (k.reapStep reap).1.machine.pendingCleanup)
    (hreaper' : (k.reapStep reap).2 = some .seen → k'.reaper = some .seen) :
    k'.Awaited := by
  cases reap with
  | start =>
      have hsame : k'.machine.pendingCleanup = k.machine.pendingCleanup :=
        hmachine
      constructor
      · intro hactive
        rw [hsame] at hactive
        exact Or.inr (Or.inl (hreaper' (if_pos hactive)))
      · rw [hsame]
        exact hinv.awaited.empty
  | seen =>
      have hcleared : k'.machine.pendingCleanup = ⟨0, 0, false⟩ := hmachine
      constructor
      · simp [hcleared]
      · simp [hcleared]
  | holding stack cr3 | holdingSpace cr3 =>
      have hcleared : k'.machine.pendingCleanup = ⟨0, 0, false⟩ :=
        hmachine.trans (hinv.pending_inactive hcontrol (by simp [hreaper])
          (by simp [hreaper]))
      constructor
      · simp [hcleared]
      · simp [hcleared]

theorem reapStep_frame (k : Kernel) (reap : Reap) :
    ∃ pending ownedStacks ownedSpaces,
      (k.reapStep reap).1 = { k with
        machine := { k.machine with pendingCleanup := pending }
        ownedStacks := ownedStacks
        ownedSpaces := ownedSpaces } ∧ ownedSpaces ⊆ k.ownedSpaces := by
  cases reap with
  | start => exact ⟨_, _, _, rfl, Finset.Subset.refl _⟩
  | seen => exact ⟨_, _, _, rfl, Finset.Subset.refl _⟩
  | holding stack cr3 => exact ⟨_, _, _, rfl, Finset.Subset.refl _⟩
  | holdingSpace cr3 => exact ⟨_, _, _, rfl, Finset.erase_subset _ _⟩

theorem Inv.reapTail (hinv : k.Inv) (htail : k.tail = some reap) :
    ({ (k.reapStep reap).1 with tail := (k.reapStep reap).2 } :
      Kernel).Inv := by
  obtain ⟨cur, hthreads⟩ := hinv.threads
  obtain ⟨pending, ownedStacks, ownedSpaces, heq, hsub⟩ :=
    reapStep_frame k reap
  have hcontrol : k.control ≠ .halted := hthreads.tail (by simp [htail])
  refine ⟨⟨cur, ?_⟩, hinv.reap_awaited hcontrol (by simp [reaper, htail]) rfl
    fun hseen => by simp [reaper, hseen], fun r => ?_, ?_⟩
  · rw [heq]
    exact hthreads.frame pending ownedStacks ownedSpaces _ _ fun _ => hcontrol
  · have hplace : ∀ r, k.content r .tail = r.ofReap reap := by
      simp [content, htail]
    refine hinv.reap_custody hplace (fun r => ?_) (fun r => ?_) (fun r => ?_)
      (fun q hq => ?_) r
    · funext q
      cases q with
      | tail => rw [Function.update_self]; rfl
      | task i => rfl
      | pending => rfl
      | thread i => rfl
    · cases r <;> rfl
    · rw [heq]
      cases r <;> rfl
    · rw [heq] at hq
      cases q <;> exact hq
  · rw [heq]
    exact fun hmem => hinv.kernel (hsub hmem)

theorem Inv.reapTrampoline (hinv : k.Inv) (htail : k.tail = none)
    (htrampoline : k.control = .trampoline reap) :
    ({ (k.reapStep reap).1 with
      control := (k.reapStep reap).2.elim .running .trampoline } :
        Kernel).Inv := by
  obtain ⟨cur, hthreads⟩ := hinv.threads
  obtain ⟨pending, ownedStacks, ownedSpaces, heq, hsub⟩ :=
    reapStep_frame k reap
  have hcontrol : k.control ≠ .halted := by simp [htrampoline]
  have hframe := hthreads.frame pending ownedStacks ownedSpaces
    k.retiredStacks k.retiredSpaces hthreads.tail
  refine ⟨⟨cur, ?_⟩, hinv.reap_awaited hcontrol
    (by simp [reaper, htail, htrampoline]) rfl fun hseen => ?_,
    fun r => ?_, ?_⟩
  · rw [heq]
    refine hframe.setControl hcontrol ?_ ?_ ?_
    · cases (k.reapStep reap).2 <;> simp
    · cases (k.reapStep reap).2 <;> simp
    · cases (k.reapStep reap).2 <;> simp
  · rw [heq, hseen]
    simp [reaper, htail]
  · have hplace : ∀ r, k.content r (.thread cur) = r.ofReap reap := by
      intro r
      rw [hthreads.content_cur hcontrol, htrampoline, Resource.ofControl]
    refine hinv.reap_custody hplace (fun r => ?_) (fun r => ?_) (fun r => ?_)
      (fun q hq => ?_) r
    · have hcontent := hframe.content_setControl hcontrol
        ((k.reapStep reap).2.elim .running .trampoline) r
      rw [← heq] at hcontent
      rw [hcontent]
      congr 1
      cases (k.reapStep reap).2 <;> rfl
    · cases r <;> rfl
    · rw [heq]
      cases r <;> rfl
    · rw [heq] at hq
      rcases hframe.waste_setControl hq with hold | ⟨rfl, _⟩
      · cases q <;> exact hold
      · exact ⟨reap, by rw [hthreads.thread_cur, htrampoline]⟩
  · rw [heq]
    exact fun hmem => hinv.kernel (hsub hmem)

end

end Kernel

end Tasks

end VenomOS
