/-
Creations under preemption, and the one pending cleanup over whole runs.  The
argument needs that no other task runs in the middle of a creation or between
a test of a task's state and the store that relies on it, and that the
allocators hand out what nobody has.  Two creations at once can set a task
whose stack is already freed to `Ready`.
-/
import VenomOS.TaskSwitch

namespace VenomOS

namespace Tasks

namespace Kernel

open StepRuns

section

variable {k k' : Kernel} {cur : Slot}

/-- A step of a creation in `slot` by the running thread of `cur`. -/
structure Builds (k k' : Kernel) (cur slot : Slot) : Prop where
  unborn : (k.machine.tasks slot).state.active = false
  ne : slot ≠ cur
  current_eq : k'.machine.current = k.machine.current
  kernelCr3_eq : k'.machine.kernelCr3 = k.machine.kernelCr3
  loadedCr3_eq : k'.machine.loadedCr3 = k.machine.loadedCr3
  pending_eq : k'.machine.pendingCleanup = k.machine.pendingCleanup
  stack_eq : k'.stack = k.stack
  tail_eq : k'.tail = k.tail
  owned_eq : ∀ (r : Resource) i, i ≠ slot →
    r.ofTask (k'.machine.tasks i) = r.ofTask (k.machine.tasks i)
  active_eq : ∀ i, i ≠ slot → (k'.machine.tasks i).state.active =
    (k.machine.tasks i).state.active
  contexts_eq : ∀ i, i ≠ slot → k'.contexts i = k.contexts i
  born : (k'.machine.tasks slot).state.active = true → k'.contexts slot =
    ⟨(k'.machine.tasks slot).stackBase, .trampoline .start, true⟩
  control : k'.control = .running ∨ ∃ stage stack request,
    k'.control = .creating stage slot stack request ∧
      k'.Building stage slot cur stack

section

variable {slot : Slot} (hbuilds : Builds k k' cur slot)
  (hthreads : k.Threads cur)

include hbuilds

theorem Builds.control_ne : k'.control ≠ .halted := by
  rcases hbuilds.control with h | ⟨_, _, _, h, _⟩ <;> simp [h]

theorem Builds.control_ne_trampoline (reap : Reap) :
    k'.control ≠ .trampoline reap := by
  rcases hbuilds.control with h | ⟨_, _, _, h, _⟩ <;> simp [h]

include hthreads

theorem Builds.thread_of_ne {i : Slot} (hne : i ≠ cur) :
    k'.thread i = k'.contexts i := by
  refine if_neg fun hcurrent => hne ?_
  rw [hbuilds.current_eq, hthreads.current] at hcurrent
  exact (Option.some.inj hcurrent).symm

theorem Builds.thread_cur : k'.thread cur = ⟨k.stack, k'.control, false⟩ := by
  rw [thread, if_pos (hbuilds.current_eq.trans hthreads.current),
    hbuilds.stack_eq]

theorem Builds.threads (hcontrol : k.control ≠ .halted) :
    k'.Threads cur := by
  have hactive := hbuilds.active_eq
  have hcur := hbuilds.ne.symm
  constructor
  · exact hbuilds.current_eq.trans hthreads.current
  · intro _
    rw [hactive cur hcur]
    exact hthreads.active hcontrol
  · exact fun _ => hbuilds.control_ne
  · intro i hi
    by_cases hslot : i = slot
    · rw [hslot] at hi ⊢
      rw [hbuilds.thread_of_ne hthreads hbuilds.ne, hbuilds.born hi]
    · rw [hactive i hslot] at hi
      refine Eq.trans ?_ ((hthreads.stack_eq i hi).trans
        (hbuilds.owned_eq .kernelStack i hslot).symm)
      by_cases hi : i = cur
      · rw [hi, hbuilds.thread_cur hthreads, hthreads.thread_cur]
      · rw [hbuilds.thread_of_ne hthreads hi, hthreads.thread_of_ne hi,
          hbuilds.contexts_eq i hslot]
  · intro i hi
    by_cases hslot : i = slot
    · rw [hslot] at hi ⊢
      rw [hbuilds.thread_of_ne hthreads hbuilds.ne, hbuilds.born hi]
      simp
    · rw [hactive i hslot] at hi
      by_cases hcur : i = cur
      · rw [hcur, hbuilds.thread_cur hthreads]
        exact hbuilds.control_ne
      · rw [hbuilds.thread_of_ne hthreads hcur, hbuilds.contexts_eq i hslot,
          ← hthreads.thread_of_ne hcur]
        exact hthreads.control_ne i hi
  · intro i hne hi
    by_cases hslot : i = slot
    · rw [hslot] at hi ⊢
      rw [hbuilds.born hi]
      rfl
    · rw [hbuilds.contexts_eq i hslot]
      exact hthreads.settled i hne ((hactive i hslot).symm.trans hi)
  · intro i hne hi
    by_cases hslot : i = slot
    · rw [hslot] at hi ⊢
      rw [hbuilds.born hi]
      simp
    · rw [hbuilds.contexts_eq i hslot]
      exact hthreads.fresh i hne ((hactive i hslot).symm.trans hi)
  · intro _
    have hcr3 : (k'.machine.tasks cur).cr3 = (k.machine.tasks cur).cr3 :=
      hbuilds.owned_eq .addressSpace cur hcur
    rw [hbuilds.loadedCr3_eq, hbuilds.kernelCr3_eq, hcr3]
    exact hthreads.loaded hcontrol
  · intro stage slot' stack request hcreating
    rcases hbuilds.control with h | ⟨stage', stack', request', h, hbuilding⟩
    · rw [h] at hcreating
      cases hcreating
    · rw [h] at hcreating
      cases hcreating
      exact hbuilding
  · intro change i hchanging
    rcases hbuilds.control with h | ⟨_, _, _, h, _⟩ <;>
      cases h.symm.trans hchanging

theorem Builds.content (hcontrol : k.control ≠ .halted) (r : Resource) :
    k'.content r = Function.update (Function.update (k.content r)
      (.thread cur) (r.ofControl k'.control)) (.task slot)
        (r.ofTask (k'.machine.tasks slot)) := by
  have hthreads' := hbuilds.threads hthreads hcontrol
  funext q
  cases q with
  | task i =>
      by_cases hi : i = slot
      · rw [hi, Function.update_self]
        rfl
      · rw [Function.update_of_ne (by simpa using hi),
          Function.update_of_ne (by simp)]
        exact hbuilds.owned_eq r i hi
  | pending =>
      rw [Function.update_of_ne (by simp), Function.update_of_ne (by simp)]
      exact congrArg r.ofPending hbuilds.pending_eq
  | tail =>
      rw [Function.update_of_ne (by simp), Function.update_of_ne (by simp),
        Kernel.content, Kernel.content, hbuilds.tail_eq]
  | thread i =>
      rw [Function.update_of_ne (by simp)]
      by_cases hcur : i = cur
      · rw [hcur, Function.update_self]
        exact hthreads'.content_cur hbuilds.control_ne r
      · rw [Function.update_of_ne (by simpa using hcur)]
        by_cases hslot : i = slot
        · rw [hslot, Kernel.content, Kernel.content, hbuilds.unborn]
          split
          · rename_i hborn
            rw [hbuilds.thread_of_ne hthreads hbuilds.ne, hbuilds.born hborn]
            cases r <;> rfl
          · rfl
        · rw [Kernel.content, Kernel.content,
            hbuilds.thread_of_ne hthreads hcur, hthreads.thread_of_ne hcur,
            hbuilds.contexts_eq i hslot, hbuilds.active_eq i hslot]

theorem Builds.waste (hcontrol : k.control ≠ .halted) (r : Resource)
    (q : Place) (hq : k'.Waste q) (hne : k'.content r q ≠ 0) : k.Waste q := by
  cases q with
  | thread i =>
      obtain ⟨reap, hreap⟩ := hq
      by_cases hcur : i = cur
      · rw [hcur, hbuilds.thread_cur hthreads] at hreap
        exact absurd hreap (hbuilds.control_ne_trampoline reap)
      · rw [hbuilds.content hthreads hcontrol, Function.update_of_ne (by simp),
          Function.update_of_ne (by simpa using hcur)] at hne
        have hslot : i ≠ slot := by
          rintro rfl
          simp [Kernel.content, hbuilds.unborn] at hne
        rw [hbuilds.thread_of_ne hthreads hcur,
          hbuilds.contexts_eq i hslot] at hreap
        exact ⟨reap, hthreads.thread_of_ne hcur ▸ hreap⟩
  | task i => exact hq
  | pending => exact hq
  | tail => exact hq

end

section

variable {slot : Slot} (hinv : k.Inv) (hthreads : k.Threads cur)
  (hcontrol : k.control ≠ .halted) (hbuilds : Builds k k' cur slot)

include hthreads hcontrol hbuilds

variable {owned retired : Finset Nat} {r : Resource}

theorem Builds.custody_kept
    (hcustody : Custody (k.content r) k.Waste owned retired)
    (hheld : r.ofControl k'.control = r.ofControl k.control)
    (htask : r.ofTask (k'.machine.tasks slot) =
      r.ofTask (k.machine.tasks slot)) :
    Custody (k'.content r) k'.Waste owned retired := by
  have hwaste := hbuilds.waste hthreads hcontrol r
  have hcontent := hbuilds.content hthreads hcontrol r
  rw [hheld, htask, ← hthreads.content_cur hcontrol,
    Function.update_eq_self] at hcontent
  have hsame : k'.content r = k.content r :=
    hcontent.trans (Function.update_eq_self (Place.task slot) _)
  rw [hsame] at hwaste ⊢
  exact hcustody.mono hwaste

theorem Builds.custody_moved
    (hcustody : Custody (k.content r) k.Waste owned retired)
    (hheld : r.ofControl k'.control = 0)
    (htask : r.ofTask (k'.machine.tasks slot) = r.ofControl k.control) :
    Custody (k'.content r) k'.Waste owned retired := by
  have hwaste := hbuilds.waste hthreads hcontrol r
  have hcontent := hbuilds.content hthreads hcontrol r
  rw [hheld, htask, ← hthreads.content_cur hcontrol] at hcontent
  exact hcustody.move hcontent (fun q _ => hwaste q) (Finset.Subset.refl _)
    fun hslot => hslot.elim

/-- What the creation holds when the task itself is left alone. -/
theorem Builds.content_held
    (htask : r.ofTask (k'.machine.tasks slot) =
      r.ofTask (k.machine.tasks slot)) :
    k'.content r = Function.update (k.content r) (.thread cur)
      (r.ofControl k'.control) := by
  rw [hbuilds.content hthreads hcontrol r, htask, Function.update_eq_self_iff,
    Function.update_of_ne (by simp)]
  rfl

theorem Builds.custody_gained {resource : Nat}
    (hcustody : Custody (k.content r) k.Waste owned retired)
    (hheld : r.ofControl k'.control = resource) (hfresh : resource ∉ owned)
    (htask : r.ofTask (k'.machine.tasks slot) =
      r.ofTask (k.machine.tasks slot)) :
    Custody (k'.content r) k'.Waste (insert resource owned)
      (retired.erase resource) := by
  have hcontent := hbuilds.content_held hthreads hcontrol htask
  rw [hheld] at hcontent
  refine hcustody.gain hcontent hfresh (hbuilds.waste hthreads hcontrol r)
    fun ⟨reap, hreap⟩ => ?_
  rw [hbuilds.thread_cur hthreads] at hreap
  exact hbuilds.control_ne_trampoline reap hreap

theorem Builds.custody_released
    (hcustody : Custody (k.content r) k.Waste owned retired)
    (hheld : r.ofControl k'.control = 0)
    (htask : r.ofTask (k'.machine.tasks slot) =
      r.ofTask (k.machine.tasks slot)) :
    Custody (k'.content r) k'.Waste (owned.erase (r.ofControl k.control))
      retired := by
  have hcontent := hbuilds.content_held hthreads hcontrol htask
  rw [hheld] at hcontent
  rw [← hthreads.content_cur hcontrol]
  exact hcustody.release hcontent (hbuilds.waste hthreads hcontrol r)

include hinv

theorem Inv.build (htail : k.tail = none)
    (htrampoline : ∀ reap, k.control ≠ .trampoline reap)
    (hcustody : ∀ r, Custody (k'.content r) k'.Waste (k'.owned r)
      (k'.retired r))
    (hkernel : k.machine.kernelCr3 ∉ k'.ownedSpaces) : k'.Inv := by
  have hreaper : k.reaper = none := by
    unfold reaper
    split
    · simp_all
    · rename_i reap _ hreap
      exact absurd hreap (htrampoline reap)
    · rfl
  have hpending := hbuilds.pending_eq.trans (hinv.pending_inactive hcontrol
    (by simp [hreaper]) (by simp [hreaper]))
  refine ⟨⟨cur, hbuilds.threads hthreads hcontrol⟩, ⟨?_, ?_⟩, hcustody, ?_⟩
  · simp [hpending]
  · simp [hpending]
  · rwa [hbuilds.kernelCr3_eq]

end

theorem enlist_keeps (m : Machine) (slot : Slot) (entry : EntryFn)
    (name : String) : Machine.Keeps Task.holdings m
      (m.enlist slot entry name) := by
  have hparent (n : Machine) (i : Slot) (pid : Pid) :
      Machine.Keeps Task.holdings n (n.setParentPid i pid) :=
    Machine.modify_keeps (f := fun t => { t with parentPid := pid })
      (fun _ => rfl) n i
  have hfirst (n : Machine) (i : Slot) (pid : Pid) :
      Machine.Keeps Task.holdings n (n.setFirstChild i pid) :=
    Machine.modify_keeps (f := fun t => { t with firstChild := pid })
      (fun _ => rfl) n i
  have hnext (n : Machine) (i : Slot) (pid : Pid) :
      Machine.Keeps Task.holdings n (n.setNextSibling i pid) :=
    Machine.modify_keeps (f := fun t => { t with nextSibling := pid })
      (fun _ => rfl) n i
  unfold Machine.enlist
  dsimp only
  refine Machine.Keeps.trans ?_ (Machine.modify_keeps (f := fun t =>
    { t with exitCode := 0, wakeTick := 0, name := name }) (fun _ => rfl) _ _)
  have hroot (pid : Pid) := (((Machine.modify_keeps (g := Task.holdings)
    (f := fun t => { t with
      entry := entry
      generation := t.generation + 1
      pid := makePid slot (t.generation + 1) }) (fun _ => rfl) m slot).trans
    (hparent _ slot pid)).trans (hfirst _ slot noPid)).trans
      (hnext _ slot noPid)
  split
  · exact ((hroot _).trans (hnext _ _ _)).trans (hfirst _ _ _)
  · exact hroot _

theorem enlist_onlyTasks (m : Machine) (slot : Slot) (entry : EntryFn)
    (name : String) : Machine.OnlyTasks m (m.enlist slot entry name) := by
  unfold Machine.enlist
  dsimp only
  split <;> rfl

theorem createStore_onlyTasks (m : Machine) (slot : Slot) (stack : Nat)
    (request : Request) (stage : Stage) :
    Machine.OnlyTasks m (m.createStore slot stack request stage) := by
  cases stage <;> first | rfl | exact enlist_onlyTasks m slot _ _

end

section

variable {k k' : Kernel} {cur slot : Slot} {stack : Nat} {request : Request}
  {stage : Stage}

theorem createStore_holdings (m : Machine) (slot : Slot) (stack : Nat)
    (request : Request) (stage : Stage) (i : Slot) :
    ((m.createStore slot stack request stage).tasks i).holdings =
      if i = slot then Stage.held stack request (m.tasks slot).holdings stage
      else (m.tasks i).holdings := by
  by_cases hi : i = slot
  · rw [hi, if_pos rfl]
    cases stage with
    | based => exact enlist_keeps m slot request.entry request.name slot
    | linked => cases request <;> simp [Machine.createStore, Task.holdings,
        Stage.held, Request.assignSpace, Request.cr3]
    | _ => simp [Machine.createStore, Task.holdings, Stage.held]
  · rw [if_neg hi]
    cases stage with
    | based => exact enlist_keeps m slot request.entry request.name i
    | _ => simp [Machine.createStore, Machine.setState,
        Machine.modify_tasks_of_ne _ _ hi]

theorem Building.unborn (hbuilding : k.Building stage slot cur stack) :
    (k.machine.tasks slot).state.active = false := by
  rw [hbuilding.state]
  cases stage <;> rfl

/-- A step that writes nothing but the slot under construction. -/
theorem Building.builds (hbuilding : k.Building stage slot cur stack)
    (honly : Machine.OnlyTasks k.machine k'.machine)
    (hstack : k'.stack = k.stack) (htail : k'.tail = k.tail)
    (hothers : ∀ i, i ≠ slot →
      (k'.machine.tasks i).holdings = (k.machine.tasks i).holdings)
    (hcontexts : ∀ i, i ≠ slot → k'.contexts i = k.contexts i)
    (hborn : (k'.machine.tasks slot).state.active = true →
      k'.contexts slot =
        ⟨(k'.machine.tasks slot).stackBase, .trampoline .start, true⟩)
    (hcontrol : k'.control = .running ∨ ∃ stage stack request,
      k'.control = .creating stage slot stack request ∧
        k'.Building stage slot cur stack) :
    Builds k k' cur slot where
  unborn := hbuilding.unborn
  ne := hbuilding.ne
  current_eq := by rw [honly]
  kernelCr3_eq := by rw [honly]
  loadedCr3_eq := by rw [honly]
  pending_eq := by rw [honly]
  stack_eq := hstack
  tail_eq := htail
  owned_eq r i hi := Resource.ofTask_congr (hothers i hi) r
  active_eq i hi := congrArg (fun held => held.2.2.active) (hothers i hi)
  contexts_eq := hcontexts
  born := hborn
  control := hcontrol

theorem createStep_slot (k : Kernel) (slot : Slot) (stack : Nat)
    (request : Request) (stage : Stage) :
    ((k.createStep slot stack request stage).machine.tasks slot).holdings =
      Stage.held stack request (k.machine.tasks slot).holdings stage :=
  (createStore_holdings k.machine slot stack request stage slot).trans
    (if_pos rfl)

theorem Building.next {next : Stage}
    (hbuilding : k.Building stage slot cur stack) (request : Request)
    (hstage : stage ≠ .chosen) (hnext : stage.next = some next) :
    (k.createStep slot stack request stage).Building next slot cur stack := by
  have hslot := createStep_slot k slot stack request stage
  have hstate := congrArg (fun held => held.2.2) hslot
  have hbase := congrArg Prod.fst hslot
  cases stage with
  | chosen => exact absurd rfl hstage
  | allocated =>
      cases hnext
      exact ⟨hbuilding.ne, hstate, by simp, by simp⟩
  | marked =>
      cases hnext
      exact ⟨hbuilding.ne, hstate.trans hbuilding.state,
        fun _ => Function.update_self _ _ _, by simp⟩
  | pointed =>
      cases hnext
      exact ⟨hbuilding.ne, hstate.trans hbuilding.state,
        fun _ => hbuilding.context (by simp), fun _ => hbase⟩
  | based | linked =>
      cases hnext
      exact ⟨hbuilding.ne, hstate.trans hbuilding.state,
        fun _ => hbuilding.context (by simp),
        fun _ => hbase.trans (hbuilding.base (by simp))⟩
  | spaced => cases hnext

theorem Building.createStep (hbuilding : k.Building stage slot cur stack)
    (request : Request) (hstage : stage ≠ .chosen) :
    Builds k (k.createStep slot stack request stage) cur slot := by
  have hslot := createStep_slot k slot stack request stage
  have hstate := congrArg (fun held => held.2.2) hslot
  apply hbuilding.builds
  · exact createStore_onlyTasks k.machine slot stack request stage
  · rfl
  · rfl
  · intro i hi
    exact (createStore_holdings k.machine slot stack request stage i).trans
      (if_neg hi)
  · intro i hi
    simp only [Kernel.createStep]
    split
    · exact Function.update_of_ne hi _ _
    · rfl
  · intro hborn
    cases hnext : stage.next with
    | none =>
        cases stage <;> cases hnext
        have hbase : ((k.createStep slot stack request .spaced).machine.tasks
            slot).stackBase = stack :=
          (congrArg Prod.fst hslot).trans (hbuilding.base (by simp))
        rw [hbase]
        exact hbuilding.context (by simp)
    | some next =>
        exact absurd hborn (by
          rw [(hbuilding.next request hstage hnext).unborn]
          simp)
  · cases hnext : stage.next with
    | none => exact Or.inl (by simp [Kernel.createStep, hnext])
    | some next =>
        exact Or.inr ⟨next, stack, request,
          by simp [Kernel.createStep, hnext],
          hbuilding.next request hstage hnext⟩

/-- A resource stays where it is, or goes from the creation to the task. -/
theorem createStep_custody (k : Kernel) (slot : Slot) (stack : Nat)
    (request : Request) (hstage : stage ≠ .chosen) (r : Resource) :
    (r.ofControl (k.createStep slot stack request stage).control =
        r.ofControl (.creating stage slot stack request) ∧
      r.ofTask ((k.createStep slot stack request stage).machine.tasks slot) =
        r.ofTask (k.machine.tasks slot)) ∨
    (r.ofControl (k.createStep slot stack request stage).control = 0 ∧
      r.ofTask ((k.createStep slot stack request stage).machine.tasks slot) =
        r.ofControl (.creating stage slot stack request)) := by
  have hslot := createStep_slot k slot stack request stage
  have hbase := congrArg Prod.fst hslot
  have hcr3 := congrArg (fun held => held.2.1) hslot
  cases r with
  | kernelStack =>
      cases stage with
      | chosen => exact absurd rfl hstage
      | pointed => exact Or.inr ⟨rfl, hbase⟩
      | _ => exact Or.inl ⟨rfl, hbase⟩
  | addressSpace =>
      cases stage with
      | chosen => exact absurd rfl hstage
      | linked => exact Or.inr ⟨rfl, hcr3⟩
      | _ => exact Or.inl ⟨rfl, hcr3⟩

theorem Inv.createStep (hinv : k.Inv) (htail : k.tail = none)
    (hcontrol : k.control = .creating stage slot stack request)
    (hstage : stage ≠ .chosen) :
    (k.createStep slot stack request stage).Inv := by
  obtain ⟨cur, hthreads⟩ := hinv.threads
  have hbuilding := hthreads.building stage slot stack request hcontrol
  have hne : k.control ≠ .halted := by simp [hcontrol]
  have hbuilds := hbuilding.createStep request hstage
  refine hinv.build hthreads hne hbuilds htail (by simp [hcontrol])
    (fun r => ?_) hinv.kernel
  have hcase := createStep_custody k slot stack request hstage r
  rw [← hcontrol] at hcase
  rcases hcase with ⟨hheld, htask⟩ | ⟨hheld, htask⟩
  · have hkept :=
      hbuilds.custody_kept hthreads hne (hinv.custody r) hheld htask
    cases r <;> exact hkept
  · have hmoved :=
      hbuilds.custody_moved hthreads hne (hinv.custody r) hheld htask
    cases r <;> exact hmoved

/-- What the creation under way holds is kept, gained or given back. -/
def Exchanged (k k' : Kernel) (r : Resource) : Prop :=
  (r.ofControl k'.control = r.ofControl k.control ∧
      k'.owned r = k.owned r ∧ k'.retired r = k.retired r) ∨
    (r.ofControl k'.control ∉ k.owned r ∧
      k'.owned r = insert (r.ofControl k'.control) (k.owned r) ∧
      k'.retired r = (k.retired r).erase (r.ofControl k'.control)) ∨
    (r.ofControl k'.control = 0 ∧
      k'.owned r = (k.owned r).erase (r.ofControl k.control) ∧
      k'.retired r = k.retired r)

/-- A creation goes on and leaves the table alone. -/
theorem Inv.buildControl (hinv : k.Inv) (hthreads : k.Threads cur)
    (hne : k.control ≠ .halted) (htail : k.tail = none)
    (htrampoline : ∀ reap, k.control ≠ .trampoline reap)
    (hbuilding : k.Building stage slot cur stack)
    (hmachine : k'.machine = k.machine) (hstack : k'.stack = k.stack)
    (htail' : k'.tail = k.tail) (hcontexts : k'.contexts = k.contexts)
    (hcontrol : k'.control = .running ∨ ∃ stage stack request,
      k'.control = .creating stage slot stack request ∧
        k'.Building stage slot cur stack)
    (hexchanged : ∀ r, Exchanged k k' r)
    (hkernel : k.machine.kernelCr3 ∉ k'.ownedSpaces) : k'.Inv := by
  have hbuilds : Builds k k' cur slot := by
    apply hbuilding.builds _ hstack htail' _ _ _ hcontrol
    · rw [hmachine]
      rfl
    · exact fun i _ => by rw [hmachine]
    · exact fun i _ => by rw [hcontexts]
    · simp [hmachine, hbuilding.unborn]
  have htask : ∀ r : Resource, r.ofTask (k'.machine.tasks slot) =
      r.ofTask (k.machine.tasks slot) := fun r => by rw [hmachine]
  refine hinv.build hthreads hne hbuilds htail htrampoline (fun r => ?_) hkernel
  rcases hexchanged r with ⟨hheld, howned, hretired⟩ |
    ⟨hfresh, howned, hretired⟩ | ⟨hheld, howned, hretired⟩
  · rw [howned, hretired]
    exact hbuilds.custody_kept hthreads hne (hinv.custody r) hheld (htask r)
  · rw [howned, hretired]
    exact hbuilds.custody_gained hthreads hne (hinv.custody r) rfl hfresh
      (htask r)
  · rw [howned, hretired]
    exact hbuilds.custody_released hthreads hne (hinv.custody r) hheld (htask r)

theorem Inv.startCreate (hinv : k.Inv) (htail : k.tail = none)
    (hcontrol : k.control = .running) (hfresh : request.cr3 ≠ 0 →
      request.cr3 ≠ k.machine.kernelCr3 ∧ request.cr3 ∉ k.ownedSpaces) :
    (k.startCreate request).Inv := by
  obtain ⟨cur, hthreads⟩ := hinv.threads
  have hne : k.control ≠ .halted := by simp [hcontrol]
  unfold Kernel.startCreate
  split
  · exact hinv
  · rename_i slot hfree
    have hdead := Machine.findFreeSlot_dead hfree
    have hcur : slot ≠ cur := by
      rintro rfl
      have hactive := hthreads.active hne
      rw [hdead] at hactive
      cases hactive
    have hbuilding : k.Building .chosen slot cur 0 :=
      ⟨hcur, hdead, by simp, by simp⟩
    refine hinv.buildControl hthreads hne htail (by simp [hcontrol]) hbuilding
      rfl rfl rfl rfl (Or.inr ⟨_, _, _, rfl, hcur, hdead, by simp, by simp⟩)
      ?_ ?_
    · intro r
      cases r with
      | kernelStack => exact Or.inl ⟨by rw [hcontrol]; rfl, rfl, rfl⟩
      | addressSpace =>
          by_cases hzero : request.cr3 = 0
          · exact Or.inl ⟨by rw [hcontrol]; exact hzero, if_pos hzero,
              if_pos hzero⟩
          · exact Or.inr (Or.inl ⟨(hfresh hzero).2, if_neg hzero,
              if_neg hzero⟩)
    · dsimp only
      split
      · exact hinv.kernel
      · rename_i hzero
        rw [Finset.mem_insert, not_or]
        exact ⟨Ne.symm (hfresh hzero).1, hinv.kernel⟩

theorem Inv.allocateStack (hinv : k.Inv) (htail : k.tail = none)
    {stack₀ : Nat}
    (hcontrol : k.control = .creating .chosen slot stack₀ request)
    (hfresh : stack ∉ k.ownedStacks) :
    (k.allocateStack slot request stack).Inv := by
  obtain ⟨cur, hthreads⟩ := hinv.threads
  have hne : k.control ≠ .halted := by simp [hcontrol]
  have hbuilding := hthreads.building .chosen slot stack₀ request hcontrol
  unfold Kernel.allocateStack
  split
  · refine hinv.buildControl hthreads hne htail (by simp [hcontrol]) hbuilding
      rfl rfl rfl rfl (Or.inl rfl) ?_ ?_
    · intro r
      cases r with
      | kernelStack => exact Or.inl ⟨by rw [hcontrol]; rfl, rfl, rfl⟩
      | addressSpace =>
          exact Or.inr (Or.inr ⟨rfl, by rw [hcontrol]; rfl, rfl⟩)
    · exact fun hmem => hinv.kernel (Finset.mem_of_mem_erase hmem)
  · refine hinv.buildControl hthreads hne htail (by simp [hcontrol]) hbuilding
      rfl rfl rfl rfl (Or.inr ⟨_, _, _, rfl, hbuilding.ne, hbuilding.state,
        by simp, by simp⟩) ?_ ?_
    · intro r
      cases r with
      | kernelStack => exact Or.inr (Or.inl ⟨hfresh, rfl, rfl⟩)
      | addressSpace => exact Or.inl ⟨by rw [hcontrol]; rfl, rfl, rfl⟩
    · exact hinv.kernel

end

section

variable {k k' : Kernel}

/-- The timer does not end the time slice of a task that is inside `create` or
`create_process`, or between the test and the store of `unblock` or of
`wait_for_child`; `kmalloc` returns no stack that is in use; and an address
space given to `create_process` is neither the kernel's nor in use. -/
def Calm (k : Kernel) : Action → Prop
  | .timer => k.control.halfway = true →
      k.machine.tickCounter + 1 < ticksPerSwitch
  | .kmalloc stack => stack ∉ k.ownedStacks
  | .create request => request.cr3 ≠ 0 →
      request.cr3 ≠ k.machine.kernelCr3 ∧ request.cr3 ∉ k.ownedSpaces
  | _ => True

instance (k : Kernel) (action : Action) : Decidable (Calm k action) := by
  cases action <;> unfold Calm <;> infer_instance

section

variable {action : Action} (hinv : k.Inv) (htail : k.tail = none)
  (hcalm : Calm k action)

include hinv htail hcalm

theorem Inv.runningStep (hcontrol : k.control = .running)
    (hstep : k.runningStep action = some k') : k'.Inv := by
  cases action with
  | timer =>
      cases hstep
      exact hinv.timerInterrupt htail hcalm
  | yield =>
      cases hstep
      rw [← hcontrol]
      exact hinv.reschedule htail (by rw [hcontrol]; rfl)
  | block =>
      cases hstep
      exact hinv.setOwnState hcontrol rfl
  | sleep =>
      cases hstep
      exact hinv.setOwnState hcontrol rfl
  | test change i =>
      cases hstep
      exact hinv.test hcontrol change i
  | assign i parentPid firstChild nextSibling wakeTick =>
      cases hstep
      exact hinv.assign i parentPid firstChild nextSibling wakeTick
  | setInitPid pid =>
      cases hstep
      exact hinv.settle ⟨rfl, rfl, rfl, rfl, fun _ => rfl, fun _ => rfl,
        fun _ => rfl, fun _ _ => rfl⟩ fun _ _ _ => rfl
  | exit exitCode => exact hinv.exitCurrent htail hcontrol hstep
  | create request =>
      cases hstep
      exact hinv.startCreate htail hcontrol hcalm
  | kmalloc stack => cases hstep
  | advance => cases hstep

theorem Inv.trampolineStep {reap : Reap}
    (hcontrol : k.control = .trampoline reap)
    (hstep : k.trampolineStep reap action = some k') : k'.Inv := by
  cases action with
  | timer =>
      cases hstep
      exact hinv.timerInterrupt htail hcalm
  | advance =>
      cases hstep
      exact hinv.reapTrampoline htail hcontrol
  | _ => cases hstep

theorem Inv.creatingStep {stage : Stage} {slot : Slot} {stack : Nat}
    {request : Request}
    (hcontrol : k.control = .creating stage slot stack request)
    (hstep : k.creatingStep stage slot stack request action = some k') :
    k'.Inv := by
  cases action with
  | timer =>
      cases hstep
      exact hinv.timerInterrupt htail hcalm
  | kmalloc result =>
      by_cases hstage : stage = .chosen
      · cases (if_pos hstage).symm.trans hstep
        rw [hstage] at hcontrol
        exact hinv.allocateStack htail hcontrol hcalm
      · cases (if_neg hstage).symm.trans hstep
  | advance =>
      by_cases hstage : stage = .chosen
      · cases (if_pos hstage).symm.trans hstep
      · cases (if_neg hstage).symm.trans hstep
        exact hinv.createStep htail hcontrol hstage
  | _ => cases hstep

theorem Inv.changingStep {change : Change} {i : Slot}
    (hcontrol : k.control = .changing change i)
    (hstep : k.changingStep change i action = some k') : k'.Inv := by
  cases action with
  | timer =>
      cases hstep
      exact hinv.timerInterrupt htail hcalm
  | assign i parentPid firstChild nextSibling wakeTick =>
      cases hstep
      exact hinv.assign i parentPid firstChild nextSibling wakeTick
  | advance =>
      cases hstep
      exact hinv.change hcontrol
  | _ => cases hstep

theorem Inv.threadStep (hstep : k.threadStep action = some k') : k'.Inv := by
  unfold Kernel.threadStep at hstep
  split at hstep
  · cases hstep
  · exact hinv.runningStep htail hcalm ‹_› hstep
  · exact hinv.trampolineStep htail hcalm ‹_› hstep
  · exact hinv.creatingStep htail hcalm ‹_› hstep
  · exact hinv.changingStep htail hcalm ‹_› hstep

end

theorem Inv.step {action : Action} (hinv : k.Inv) (hcalm : Calm k action)
    (hstep : k.step action = some k') : k'.Inv := by
  unfold Kernel.step at hstep
  split at hstep
  · rename_i htail
    exact hinv.threadStep htail hcalm hstep
  · rename_i reap htail
    split at hstep
    · cases hstep
      exact hinv.reapTail htail
    · cases hstep

theorem boot_tasks (cr3 : Nat) (i : Slot) :
    ((boot cr3).machine.tasks i).stackBase = 0 ∧
      ((boot cr3).machine.tasks i).cr3 = 0 ∧
      (((boot cr3).machine.tasks i).state.active = true → i = 0) := by
  by_cases hi : i = 0
  · rw [hi]
    exact ⟨rfl, rfl, fun _ => rfl⟩
  · have hzero : (boot cr3).machine.tasks i = Task.zero := by
      simp [boot, Machine.initShell, Machine.boot, Task.zero, Machine.modify,
        hi]
    rw [hzero]
    exact ⟨rfl, rfl, fun hactive => by cases hactive⟩

theorem boot_inv (cr3 : Nat) : (boot cr3).Inv := by
  have htasks := boot_tasks cr3
  have hcontrol : ∀ i, ((boot cr3).thread i).control = .running := by
    intro i
    unfold thread
    split <;> rfl
  have hcontent : ∀ r p, (boot cr3).content r p = 0 := by
    intro r p
    cases p with
    | task i =>
        cases r with
        | kernelStack => exact (htasks i).1
        | addressSpace => exact (htasks i).2.1
    | pending => cases r <;> rfl
    | tail => rfl
    | thread i =>
        rw [content, hcontrol]
        split <;> rfl
  refine ⟨⟨0, ?_⟩, ⟨by simp [boot, Machine.initShell, Machine.boot,
    Machine.modify], fun _ => ⟨rfl, rfl⟩⟩, fun r => ?_, by simp [boot]⟩
  · constructor
    · rfl
    · exact fun _ => rfl
    · exact fun h => absurd rfl h
    · intro i hi
      rw [(htasks i).1, (htasks i).2.2 hi]
      rfl
    · intro i _
      simp [hcontrol]
    · exact fun _ _ _ => rfl
    · exact fun _ _ _ h => by cases h
    · intro _
      rw [(htasks 0).2.1]
      rfl
    · exact fun _ _ _ _ h => by cases h
    · exact fun _ _ h => by cases h
  · exact ⟨fun _ hne => absurd (hcontent r _) hne,
      fun hne => absurd (hcontent r _) hne,
      fun _ hne => absurd (hcontent r _) hne⟩

/-- In every run in which no task is switched away from in the middle of a
creation or of a change of state, and in which the allocators hand out what
nobody has, every reached state is safe. -/
theorem cleanup_safe (cr3 : Nat)
    (hruns : Runs Kernel.step Calm (boot cr3) k) : k.Safe :=
  (hruns.invariant (boot_inv cr3) Inv.step).safe

end

def advances (count : Nat) : List Action := List.replicate count .advance

/-- A time slice that the running thread uses up. -/
def slice : List Action := List.replicate ticksPerSwitch .timer

/-- `task::init`: idle and init are made nobody's children. -/
def initActions : List Action :=
  [.create (.task .idleEntry "idle"), .kmalloc 0x10000] ++ advances 6 ++
  [.assign 0 0 0 0 0, .assign 1 0 0 0 0,
    .create (.task .initEntry "init"), .kmalloc 0x20000] ++ advances 6 ++
  [.assign 0 0 0 0 0, .assign 2 0 0 0 0, .setInitPid 0x103]

/-- A process is created, runs, and exits; the shell reaps what it left. -/
def exitActions : List Action :=
  initActions ++
  [.create (.process (.code 1) "a" 0x9000 0x400000 0x7fff0000),
    .kmalloc 0x30000] ++ advances 6 ++
  slice ++ slice ++ slice ++ advances 1 ++ [.exit 7] ++ advances 2

theorem cleanup_safe_exitActions : ∃ k, Runs Kernel.step Calm (boot 0x1000) k ∧
    k.reaper = some (.holding 0x30000 0x9000) ∧ k.Safe := by
  obtain ⟨k, hruns, hcheck⟩ := exists_runs
    (fun k : Kernel => decide (k.reaper = some (.holding 0x30000 0x9000)))
    (show (replay Kernel.step Calm (boot 0x1000) exitActions).any _ by decide +kernel)
  exact ⟨k, hruns, of_decide_eq_true hcheck, cleanup_safe 0x1000 hruns⟩

/-- Two tasks create a child at the same time.  The task in slot 3 (`a`) has a
child in slot 4 (`d`), finds slot 5 free and is switched away from.  `d`
exits.  The shell finds slot 5 free as well and goes through its creation
until `state = Ready` is left to do, on the stack that `d` had; it is switched
away from.  `a` goes on with a stack of its own and makes its child (`z`)
ready, which runs and exits; its stack is freed.  The shell goes on and sets
the zombie to `Ready`.  `a` reaps `d` and creates a child (`w`) in slot 4,
whose stack is the one `z` had.  `w` exits, and the next ready task is the
zombie. -/
def raceActions : List Action :=
  initActions ++
  [.create (.task (.code 1) "a"), .kmalloc 0x30000] ++ advances 6 ++
  slice ++ slice ++ slice ++ advances 1 ++
  [.create (.task (.code 2) "d"), .kmalloc 0x40000] ++ advances 6 ++
  [.create (.task (.code 3) "z")] ++ slice ++
  advances 1 ++ [.exit 0] ++ advances 4 ++
  [.create (.task (.code 4) "b"), .kmalloc 0x40000] ++ advances 5 ++
  slice ++ advances 1 ++ slice ++ advances 1 ++ slice ++ advances 1 ++
  [.kmalloc 0x50000] ++ advances 6 ++ [.yield] ++
  advances 1 ++ [.exit 0] ++ advances 4 ++
  advances 1 ++
  slice ++ advances 1 ++ slice ++ advances 1 ++ slice ++ advances 1 ++
  [.test .reap 4, .assign 5 0x104 0 0 0] ++ advances 1 ++
  [.assign 4 0 0 0 0,
    .create (.task (.code 5) "w"), .kmalloc 0x50000] ++ advances 6 ++
  [.yield] ++ advances 1 ++ [.exit 0] ++ advances 2

/-- The stack under the running thread is passed to `kfree`. -/
theorem creation_race_frees_running_stack :
    ∃ k, Runs Kernel.step (fun _ _ => True) (boot 0x1000) k ∧
      k.reaper = some (.holding 0x50000 0) ∧ k.stack = 0x50000 ∧
      ¬k.Safe := by
  obtain ⟨k, hruns, hcheck⟩ := exists_runs
    (fun k : Kernel => decide (k.reaper = some (.holding 0x50000 0) ∧
      k.stack = 0x50000))
    (show (replay Kernel.step (fun _ _ => True) (boot 0x1000) raceActions).any _ by
      decide +kernel)
  obtain ⟨hreaper, hstack⟩ := of_decide_eq_true hcheck
  exact ⟨k, hruns, hreaper, hstack, fun hsafe =>
    (hsafe.kfree _ _ hreaper (by decide)).2.2 hstack.symm⟩

end Kernel

end Tasks

end VenomOS
