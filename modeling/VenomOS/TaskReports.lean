/-
Who learns of an exit.  The ledger of a run lists its creations, exits and
reports; it shows that every report names an exited child of the caller with
its own exit code, that no incarnation is reported twice, and that an exited
task with a parent waits as a zombie until it is reported.
-/
import VenomOS.TaskHistory

namespace VenomOS

namespace Tasks

open Machine LinkedChain

variable {m m' start : Machine} {idle ini cur slot child i j p : Slot}
  {steps : List Step} {op : Op} {report : Report}

/-- The outcome of an exit for every slot. -/
structure Departed (m m' : Machine) (cur : Slot) (exitCode : Int) : Prop where
  generation : Keeps Task.generation m m'
  pid : Keeps Task.pid m m'
  gone : (m'.tasks cur).state = .zombie ∨ (m'.tasks cur).state = .dead
  others : ∀ j, j ≠ cur → SameRole (m.tasks j) (m'.tasks j)
  exitCode_self : (m'.tasks cur).exitCode = exitCode
  exitCode_other : ∀ j, j ≠ cur →
    (m'.tasks j).exitCode = (m.tasks j).exitCode
  moved : ∀ j, m'.Live j →
    (m'.tasks j).parentPid = (m.tasks j).parentPid ∨
      (m.tasks j).parentPid = (m.tasks cur).pid ∧
        (m'.tasks j).parentPid = m.initPid
  kept : (m.findByPid (m.tasks cur).parentPid).isSome →
    (m'.tasks cur).state = .zombie

/-- Every operation creates a task, reaps one, ends one, or leaves all
families as they are. -/
inductive Effect (m m' : Machine) : Op → Report → Prop where
  | created {op : Op} {p slot : Slot} (hop : ∀ code, op ≠ .exitCurrent code)
      (hcurrent : m.current = some p) (hcreated : Created m m' slot)
      (hborn : Born m m' slot)
      (hparent : (m'.tasks slot).parentPid = (m.tasks p).pid) :
      Effect m m' op (.created (some slot))
  | reaped {op : Op} {cur child : Slot}
      (hop : ∀ code, op ≠ .exitCurrent code)
      (hcurrent : m.current = some cur) (hreaped : Reaped m m' child)
      (hgeneration : Keeps Task.generation m m')
      (hcode : Keeps Task.exitCode m m')
      (hparent : (m.tasks child).parentPid = (m.tasks cur).pid) :
      Effect m m' op
        (.waited (.reaped (m.tasks child).pid (m.tasks child).exitCode))
  | exited {code : Int} {cur : Slot} (hrunning : Running m cur)
      (hdeparted : Departed m m' cur code) :
      Effect m m' (.exitCurrent code) .none
  | routine {op : Op} {report : Report}
      (hop : ∀ code, op ≠ .exitCurrent code)
      (hcreated : ∀ slot, report ≠ .created (some slot))
      (hreaped : ∀ pid code, report ≠ .waited (.reaped pid code))
      (hfamily : ∀ j, SameFamily (m.tasks j) (m'.tasks j))
      (hcode : Keeps Task.exitCode m m') : Effect m m' op report

namespace Machine

theorem Exited.departed {m₁ : Machine} {exitCode : Int}
    (hexited : Exited m m₁ cur ini) (hpoised : Poised m₁ idle cur)
    (hkeeps : ∀ {β : Type} {g : Task → β}, Blind g →
      Keeps g (m.surrender cur exitCode) m₁.reschedule) :
    Departed m m₁.reschedule cur exitCode := by
  have hfamily := hpoised.reschedule.family
  have hcode : ∀ j, (m₁.reschedule.tasks j).exitCode =
      ((m.surrender cur exitCode).tasks j).exitCode := hkeeps Blind.exitCode
  refine {
    generation := (surrender_keeps (fun _ _ _ _ => rfl) m cur exitCode).trans
      (hkeeps Blind.generation)
    pid := (surrender_keeps (fun _ _ _ _ => rfl) m cur exitCode).trans
      (hkeeps Blind.pid)
    gone := ?_
    others := fun j hj => (hexited.role j hj).trans (hfamily j).toSameRole
    exitCode_self := ?_
    exitCode_other := fun j hj => ?_
    moved := fun j hj => ?_
    kept := fun hfound => (hfamily cur).zombie_iff.mpr (hexited.kept hfound) }
  · rw [(hfamily cur).zombie_iff, (hfamily cur).dead_iff]
    exact hexited.gone
  · rw [hcode]
    simp [surrender]
  · rw [hcode, surrender_tasks_of_ne m exitCode hj]
  · rw [(hfamily j).parentPid_eq]
    exact hexited.moved j fun hdead => hj ((hfamily j).dead_iff.mpr hdead)

theorem Inv.exit_effect (hinv : Inv m idle ini) (hrunning : Running m cur)
    (hidle : idle ≠ cur) (hini : ini ≠ cur) {exitCode : Int}
    (hexit : m.exitCurrent exitCode = some m') :
    Effect m m' (.exitCurrent exitCode) .none := by
  obtain ⟨m₁, habandon, hexited⟩ := hinv.exited hrunning hini exitCode
  have hpoised := hexited.poised hrunning
    (hrunning.idle_ready hinv.idle_state hidle) hidle
  have hkeeps : ∀ {β : Type} {g : Task → β}, Blind g →
      Keeps g (m.surrender cur exitCode) m' := fun hblind =>
    exitCurrent_keeps m hblind hrunning.current hexit
  rw [Machine.exitCurrent, hrunning.current] at hexit
  simp only [habandon, Option.some.injEq] at hexit
  rw [← hexit] at hkeeps ⊢
  exact Effect.exited hrunning (hexited.departed hpoised hkeeps)

theorem Inv.scan_effect (hinv : Inv m idle ini) (hrunning : Running m cur)
    (hidle : idle ≠ cur) {outcome : WaitOutcome}
    (hop : ∀ code, op ≠ .exitCurrent code)
    (hscan : m.waitScan cur = some (m', outcome)) :
    Effect m m' op (.waited outcome) := by
  have hgeneration := waitScan_keeps m Blind.generation hscan
  have hcode := waitScan_keeps m Blind.exitCode hscan
  rcases hinv.family.waitScan_cases hrunning.live with
    ⟨hblocked, _⟩ | ⟨m₁, child, hreap, hreaped, hparent⟩
  · rw [hblocked] at hscan
    cases hscan
    exact Effect.routine hop (by simp) (by simp)
      (hinv.blockCurrent hrunning hidle).2 hcode
  · rw [hreap] at hscan
    cases hscan
    exact Effect.reaped hop hrunning.current hreaped hgeneration hcode hparent

/-- A request that fails and one that creates a task. -/
theorem Running.create_effect (hrunning : Running m cur)
    (hop : ∀ code, op ≠ .exitCurrent code) {result : Option Slot}
    (hcases : (m', result) = (m, none) ∨
      ∃ m₁ slot, (m', result) = (m₁, some slot) ∧ Created m m₁ slot ∧
        (m₁.tasks slot).parentPid = (m.tasks cur).pid)
    (hborn : ∀ slot, result = some slot → Born m m' slot) :
    Effect m m' op (.created result) := by
  rcases hcases with hfail | ⟨m₁, slot, hresult, hcreated, hparent⟩
  · cases hfail
    exact Effect.routine hop (by simp) (by simp)
      (fun _ => SameFamily.refl _) (Keeps.refl m)
  · cases hresult
    exact Effect.created hop hrunning.current hcreated (hborn slot rfl)
      hparent

theorem reapPendingCleanup_family (m : Machine) (j : Slot) :
    SameFamily (m.tasks j) (m.reapPendingCleanup.1.tasks j) := by
  unfold reapPendingCleanup
  split
  · exact SameFamily.refl _
  · exact SameFamily.refl _

theorem Inv.effect (hinv : Inv m idle ini) (hop : op.Allowed idle m)
    (hexec : m.exec op = some (m', report)) : Effect m m' op report := by
  obtain ⟨cur, hrunning⟩ := hinv.running
  have hidle : m.current ≠ some idle → idle ≠ cur := fun hne heq =>
    hne (heq ▸ hrunning.current)
  have hroutine : ∀ {op : Op}, (∀ code, op ≠ .exitCurrent code) →
      (∀ j, SameFamily (m.tasks j) (m'.tasks j)) →
      Keeps Task.exitCode m m' → Effect m m' op .none := fun hop hfamily hcode =>
    Effect.routine hop (by simp) (by simp) hfamily hcode
  cases op with
  | create entry name stack =>
      cases hexec
      exact hrunning.create_effect (by simp)
        (hinv.family.create_cases hrunning.current hrunning.live
          hrunning.not_zombie entry name stack)
        fun slot hslot => create_born (Prod.ext rfl hslot)
  | createProcess entry name stack cr3 userEntry userStackTop =>
      cases hexec
      exact hrunning.create_effect (by simp)
        (hinv.family.createProcess_cases hrunning.current hrunning.live
          hrunning.not_zombie entry name stack cr3 userEntry userStackTop)
        fun slot hslot => createProcess_born (Prod.ext rfl hslot)
  | blockCurrent =>
      cases hexec
      exact hroutine (by simp) (hinv.blockCurrent hrunning (hidle hop)).2
        (blockCurrent_keeps m Blind.exitCode)
  | unblock pid =>
      cases hexec
      exact hroutine (by simp) (unblock_family m pid)
        (unblock_keeps m Blind.exitCode pid)
  | sleepCurrent ticks =>
      cases hexec
      exact hroutine (by simp)
        (hinv.sleepCurrent hrunning (hidle hop) ticks).2
        (sleepCurrent_keeps m Blind.exitCode ticks)
  | timer =>
      cases hexec
      exact hroutine (by simp) hinv.timerInterrupt.2
        (timerInterrupt_keeps m Blind.exitCode)
  | yield =>
      cases hexec
      exact hroutine (by simp) hinv.reschedule_family
        (reschedule_keeps m Blind.exitCode)
  | waitForChild =>
      obtain ⟨⟨next, outcome⟩, hwait, hresult⟩ :=
        Option.map_eq_some_iff.mp hexec
      cases hresult
      rw [waitForChild, hrunning.current] at hwait
      dsimp only at hwait
      split at hwait
      · cases hwait
        exact Effect.routine (by simp) (by simp) (by simp)
          (fun _ => SameFamily.refl _) (Keeps.refl m)
      · exact hinv.scan_effect hrunning (hidle hop) (by simp) hwait
  | waitAgain =>
      simp only [Machine.exec, hrunning.current] at hexec
      obtain ⟨⟨next, outcome⟩, hscan, hresult⟩ :=
        Option.map_eq_some_iff.mp hexec
      cases hresult
      exact hinv.scan_effect hrunning (hidle hop) (by simp) hscan
  | exitCurrent exitCode =>
      have hini : ini ≠ cur := by
        intro heq
        apply hop.2
        rw [currentPid, hrunning.current, ← hinv.init.pid_eq, heq]
      obtain ⟨next, hexit, hresult⟩ := Option.map_eq_some_iff.mp hexec
      cases hresult
      exact hinv.exit_effect hrunning (hidle hop.1) hini hexit
  | reapPendingCleanup =>
      cases hexec
      exact Effect.routine (by simp) (by simp) (by simp)
        (reapPendingCleanup_family m) (reapPendingCleanup_keeps m)

end Machine

/-- The incarnation that ends with this step, and its exit code. -/
def Step.exit (step : Step) : Option (Incarnation × Int) :=
  match step.op with
  | .exitCurrent code =>
      step.before.current.map fun self =>
        (step.before.incarnation self, code)
  | _ => none

/-- The same, if the exiting task has a live parent. -/
def Step.claimedExit (step : Step) : Option Incarnation :=
  match step.op with
  | .exitCurrent _ =>
      step.before.current.bind fun self =>
        if (step.before.findByPid
            (step.before.tasks self).parentPid).isSome then
          some (step.before.incarnation self)
        else none
  | _ => none

/-- A new incarnation and its creator. -/
def Step.creation (step : Step) : Option (Incarnation × Incarnation) :=
  match step.report with
  | .created (some slot) =>
      step.before.current.map fun self =>
        (step.after.incarnation slot, step.before.incarnation self)
  | _ => none

/-- The incarnation whose pid a wait reports. -/
def Step.reaped (step : Step) : Option Incarnation :=
  match step.report with
  | .waited (.reaped pid _) =>
      (step.before.findByPid pid).map step.before.incarnation
  | _ => none

/-- Why `p` is the parent of `child`: it created it, or it is init and the
creator is gone. -/
def Inherits (ini : Slot) (m : Machine) (steps : List Step) (p child : Slot) :
    Prop :=
  ∃ creator, (m.incarnation child, creator) ∈ steps.filterMap Step.creation ∧
    (creator = m.incarnation p ∨
      p = ini ∧ ∃ code, (creator, code) ∈ steps.filterMap Step.exit)

/-- What the ledger says about the table. -/
structure Ledger (ini : Slot) (m : Machine) (steps : List Step) : Prop where
  exited : ∀ i, (m.tasks i).state = .zombie →
    (m.incarnation i, (m.tasks i).exitCode) ∈ steps.filterMap Step.exit
  origin : ∀ i p, m.Live i → m.Live p →
    (m.tasks i).parentPid = (m.tasks p).pid → Inherits ini m steps p i
  past : ∀ inc ∈ steps.filterMap Step.reaped,
    inc.generation.toNat < (m.tasks inc.slot).generation.toNat ∨
      m.incarnation inc.slot = inc ∧ (m.tasks inc.slot).state = .dead
  distinct : (steps.filterMap Step.reaped).Nodup
  waiting : ∀ inc ∈ steps.filterMap Step.claimedExit,
    inc ∈ steps.filterMap Step.reaped ∨
      m.incarnation inc.slot = inc ∧ (m.tasks inc.slot).state = .zombie

theorem mem_filterMap_cons {α β : Type} {f : α → Option β} {a : α} {b : β}
    {list : List α} (hb : b ∈ list.filterMap f) :
    b ∈ (a :: list).filterMap f := by
  obtain ⟨source, hsource, heq⟩ := List.mem_filterMap.mp hb
  exact List.mem_filterMap.mpr ⟨source, List.mem_cons_of_mem a hsource, heq⟩

variable {step : Step}

theorem Inherits.cons (hinherits : Inherits ini m steps p i)
    (hp : m'.incarnation p = m.incarnation p)
    (hi : m'.incarnation i = m.incarnation i) :
    Inherits ini m' (step :: steps) p i := by
  obtain ⟨creator, hcreation, hwhy⟩ := hinherits
  refine ⟨creator, hi ▸ mem_filterMap_cons hcreation, ?_⟩
  rcases hwhy with rfl | ⟨hini, code, hexit⟩
  · exact Or.inl hp.symm
  · exact Or.inr ⟨hini, code, mem_filterMap_cons hexit⟩

theorem Step.exit_eq_none (hop : ∀ code, step.op ≠ .exitCurrent code) :
    step.exit = none ∧ step.claimedExit = none := by
  obtain ⟨before, op, after, report⟩ := step
  cases op with
  | exitCurrent code => exact absurd rfl (hop code)
  | _ => exact ⟨rfl, rfl⟩

theorem Step.reaped_eq_none
    (hreport : ∀ pid code, step.report ≠ .waited (.reaped pid code)) :
    step.reaped = none := by
  unfold Step.reaped
  split
  · rename_i pid code heq
    exact absurd heq (hreport pid code)
  · rfl

theorem incarnation_congr (hsame : Keeps Task.generation m m') (i : Slot) :
    m'.incarnation i = m.incarnation i := by
  rw [incarnation, incarnation, hsame i]

theorem Ledger.routine (hledger : Ledger ini m steps)
    (hop : ∀ code, step.op ≠ .exitCurrent code)
    (hreaped : ∀ pid code, step.report ≠ .waited (.reaped pid code))
    (hfamily : ∀ j, SameFamily (m.tasks j) (m'.tasks j))
    (hcode : Keeps Task.exitCode m m') : Ledger ini m' (step :: steps) := by
  have hsame : ∀ i, m'.incarnation i = m.incarnation i :=
    incarnation_congr fun j => (hfamily j).generation_eq
  have hlive : ∀ {j}, m'.Live j → m.Live j := fun {j} hj hdead =>
    hj ((hfamily j).dead_iff.mpr hdead)
  obtain ⟨hexit, hclaimed⟩ := Step.exit_eq_none hop
  refine ⟨fun i hzombie => ?_, fun i p hi hp hparent => ?_, ?_, ?_, ?_⟩
  · rw [hsame, hcode i]
    exact mem_filterMap_cons
      (hledger.exited i ((hfamily i).zombie_iff.mp hzombie))
  · rw [(hfamily i).parentPid_eq, (hfamily p).pid_eq] at hparent
    exact (hledger.origin i p (hlive hi) (hlive hp) hparent).cons (hsame p)
      (hsame i)
  · intro inc hinc
    rw [List.filterMap_cons_none (Step.reaped_eq_none hreaped)] at hinc
    rw [hsame, (hfamily inc.slot).generation_eq, (hfamily inc.slot).dead_iff]
    exact hledger.past inc hinc
  · rw [List.filterMap_cons_none (Step.reaped_eq_none hreaped)]
    exact hledger.distinct
  · intro inc hinc
    rw [List.filterMap_cons_none hclaimed] at hinc
    rw [List.filterMap_cons_none (Step.reaped_eq_none hreaped), hsame,
      (hfamily inc.slot).zombie_iff]
    exact hledger.waiting inc hinc

theorem findFreeSlot_generation (hfree : m.findFreeSlot = some slot) :
    ((m.tasks slot).generation + 1).toNat =
      (m.tasks slot).generation.toNat + 1 := by
  have hfound := List.find?_some hfree
  simp only [Bool.and_eq_true, bne_iff_ne] at hfound
  have hne : (m.tasks slot).generation.toNat ≠ 2 ^ 64 - 1 := fun heq =>
    hfound.2 (UInt64.toNat_inj.mp (heq.trans (by decide)))
  have hlt := (m.tasks slot).generation.toNat_lt
  rw [UInt64.toNat_add, UInt64.toNat_one]
  exact Nat.mod_eq_of_lt (by omega)

/-- The pid of a new task is nobody's parent link yet. -/
theorem Machine.Created.parentPid_ne (hinv : Inv m idle ini) (hfamily : m'.Family)
    (hcreated : Created m m' slot) (hlive : m.Live i) :
    (m.tasks i).parentPid ≠ (m'.tasks slot).pid := by
  have hslot : m'.Live slot := by simp [Live, hcreated.ready]
  intro hparent
  obtain ⟨p, hfind, _⟩ := hinv.tableInvariant.parent_alive i hlive
    (hparent ▸ hfamily.pids.pid_ne_noPid hslot)
  obtain ⟨hp, hpid⟩ := findByPid_spec hfind
  have hne := hcreated.ne hp
  have hrole := hcreated.role p hne
  refine hne (hfamily.pids.pid_inj
    (SameIdentity.live hrole.toSameIdentity hp) hslot ?_)
  rw [hrole.pid_eq, hpid, hparent]

theorem Ledger.created (hledger : Ledger ini m steps)
    (hinv : Inv m idle ini) (hop : ∀ code, op ≠ .exitCurrent code)
    (hcurrent : m.current = some p) (hlive : m.Live p)
    (hcreated : Created m m' slot) (hborn : Born m m' slot)
    (hparent : (m'.tasks slot).parentPid = (m.tasks p).pid) :
    Ledger ini m' (⟨m, op, m', .created (some slot)⟩ :: steps) := by
  have hsame : ∀ {i}, i ≠ slot → m'.incarnation i = m.incarnation i :=
    fun hi => by
      rw [incarnation, incarnation, hborn.others Blind.generation _ hi]
  have hold : ∀ {i}, m'.Live i → i ≠ slot → m.Live i := fun hi hne hdead =>
    hi ((hcreated.role _ hne).dead_iff.mpr hdead)
  have hp : m'.Live p := SameIdentity.live
    (hcreated.role p (hcreated.ne hlive)).toSameIdentity hlive
  have hpids := hcreated.family.pids
  have hreaped : Step.reaped ⟨m, op, m', .created (some slot)⟩ = none := rfl
  have hcreation : Step.creation ⟨m, op, m', .created (some slot)⟩ =
      some (m'.incarnation slot, m.incarnation p) := by
    simp [Step.creation, hcurrent]
  refine ⟨fun i hzombie => ?_, fun i p' hi hp' hlink => ?_,
    fun inc hinc => ?_, ?_, fun inc hinc => ?_⟩
  · have hne : i ≠ slot := fun heq => by simp [heq, hcreated.ready] at hzombie
    rw [hsame hne, hborn.others Blind.exitCode i hne]
    rw [hcreated.state_eq i hne] at hzombie
    exact mem_filterMap_cons (hledger.exited i hzombie)
  · by_cases hi' : i = slot
    · have hpp : p' = p := by
        refine hpids.pid_inj hp' hp ?_
        rw [← hlink, hi', hparent,
          (hcreated.role p (hcreated.ne hlive)).pid_eq]
      rw [hpp, hi']
      refine ⟨m.incarnation p, ?_, Or.inl (hsame (hcreated.ne hlive)).symm⟩
      rw [List.filterMap_cons_some hcreation]
      exact List.mem_cons_self
    · rw [hcreated.parentPid_eq i hi'] at hlink
      have hpp : p' ≠ slot := fun heq => hcreated.parentPid_ne hinv
        hcreated.family (hold hi hi') (heq ▸ hlink)
      rw [(hcreated.role p' hpp).pid_eq] at hlink
      exact (hledger.origin i p' (hold hi hi') (hold hp' hpp) hlink).cons
        (hsame hpp) (hsame hi')
  · rw [List.filterMap_cons_none hreaped] at hinc
    by_cases hslot : inc.slot = slot
    · left
      rw [hslot, hborn.generation, findFreeSlot_generation hborn.free]
      rcases hledger.past inc hinc with hlt | ⟨heq, _⟩
      · rw [hslot] at hlt
        omega
      · rw [← heq, hslot]
        exact Nat.lt_succ_self _
    · rw [hsame hslot, hborn.others Blind.generation _ hslot,
        hcreated.state_eq _ hslot]
      exact hledger.past inc hinc
  · rw [List.filterMap_cons_none hreaped]
    exact hledger.distinct
  · rw [List.filterMap_cons_none (Step.exit_eq_none hop).2] at hinc
    rw [List.filterMap_cons_none hreaped]
    rcases hledger.waiting inc hinc with hdone | ⟨heq, hzombie⟩
    · exact Or.inl hdone
    · have hslot : inc.slot ≠ slot := fun heq => by
        rw [heq, hcreated.dead] at hzombie
        cases hzombie
      rw [hsame hslot, hcreated.state_eq _ hslot]
      exact Or.inr ⟨heq, hzombie⟩

theorem Ledger.reaped (hledger : Ledger ini m steps)
    (hinv : Inv m idle ini) (hop : ∀ code, op ≠ .exitCurrent code)
    (hreaped : Reaped m m' child)
    (hgeneration : Keeps Task.generation m m')
    (hcode : Keeps Task.exitCode m m') :
    Ledger ini m' (⟨m, op, m', .waited (.reaped (m.tasks child).pid
      (m.tasks child).exitCode)⟩ :: steps) := by
  have hsame := incarnation_congr hgeneration
  have hold : ∀ {i}, m'.Live i → i ≠ child ∧ m.Live i := fun {i} hi => by
    have hne : i ≠ child := fun heq => hi (heq ▸ hreaped.dead)
    exact ⟨hne, fun hdead => hi ((hreaped.role i hne).dead_iff.mpr hdead)⟩
  have hlist : Step.reaped ⟨m, op, m', .waited (.reaped (m.tasks child).pid
      (m.tasks child).exitCode)⟩ = some (m.incarnation child) := by
    simp [Step.reaped,
      hinv.family.pids.findByPid_eq (live_of_zombie hreaped.zombie)]
  refine ⟨fun i hzombie => ?_, fun i p hi hp hlink => ?_,
    fun inc hinc => ?_, ?_, fun inc hinc => ?_⟩
  · have hne : i ≠ child := fun heq => by simp [heq, hreaped.dead] at hzombie
    rw [hsame, hcode i]
    rw [hreaped.state_eq i hne] at hzombie
    exact mem_filterMap_cons (hledger.exited i hzombie)
  · obtain ⟨hne, hi'⟩ := hold hi
    obtain ⟨hpne, hp'⟩ := hold hp
    rw [hreaped.parentPid_eq i hne, (hreaped.role p hpne).pid_eq] at hlink
    exact (hledger.origin i p hi' hp' hlink).cons (hsame p) (hsame i)
  · rw [List.filterMap_cons_some hlist] at hinc
    rw [hsame, hgeneration]
    rcases List.mem_cons.mp hinc with rfl | hinc
    · exact Or.inr ⟨rfl, hreaped.dead⟩
    · rcases hledger.past inc hinc with hlt | ⟨heq, hdead⟩
      · exact Or.inl hlt
      · have hne : inc.slot ≠ child := fun heq => by
          rw [heq, hreaped.zombie] at hdead
          cases hdead
        exact Or.inr ⟨heq, (hreaped.state_eq _ hne).trans hdead⟩
  · rw [List.filterMap_cons_some hlist, List.nodup_cons]
    refine ⟨fun hmem => ?_, hledger.distinct⟩
    rcases hledger.past _ hmem with hlt | ⟨_, hdead⟩
    · exact lt_irrefl _ hlt
    · rw [incarnation, hreaped.zombie] at hdead
      cases hdead
  · rw [List.filterMap_cons_none (Step.exit_eq_none hop).2] at hinc
    rw [List.filterMap_cons_some hlist]
    rcases hledger.waiting inc hinc with hdone | ⟨heq, hzombie⟩
    · exact Or.inl (List.mem_cons_of_mem _ hdone)
    · by_cases hslot : inc.slot = child
      · left
        rw [← heq, hslot]
        exact List.mem_cons_self
      · rw [hsame, hreaped.state_eq _ hslot]
        exact Or.inr ⟨heq, hzombie⟩

theorem Ledger.departed {code : Int} (hledger : Ledger ini m steps)
    (hinv : Inv m idle ini) (hrunning : Running m cur)
    (hdeparted : Departed m m' cur code) :
    Ledger ini m' (⟨m, .exitCurrent code, m', .none⟩ :: steps) := by
  have hsame := incarnation_congr hdeparted.generation
  have hcur := (hrunning.running_iff cur).mpr rfl
  have hold : ∀ {i}, m'.Live i → m.Live i := fun {i} hi => by
    by_cases hne : i = cur
    · simp [Live, hne, hcur]
    · exact fun hdead => hi ((hdeparted.others i hne).dead_iff.mpr hdead)
  have hexit : Step.exit ⟨m, .exitCurrent code, m', .none⟩ =
      some (m.incarnation cur, code) := by
    simp [Step.exit, hrunning.current]
  have hnone : Step.reaped ⟨m, .exitCurrent code, m', .none⟩ = none := rfl
  have hpids := hinv.family.pids
  refine ⟨fun i hzombie => ?_, fun i p hi hp hlink => ?_,
    fun inc hinc => ?_, ?_, fun inc hinc => ?_⟩
  · rw [hsame]
    by_cases hne : i = cur
    · rw [hne, hdeparted.exitCode_self, List.filterMap_cons_some hexit]
      exact List.mem_cons_self
    · rw [hdeparted.exitCode_other i hne]
      exact mem_filterMap_cons (hledger.exited i
        ((hdeparted.others i hne).zombie_iff.mp hzombie))
  · rw [hdeparted.pid] at hlink
    rcases hdeparted.moved i hi with hkept | ⟨hchild, hmoved⟩
    · rw [hkept] at hlink
      exact (hledger.origin i p (hold hi) (hold hp) hlink).cons (hsame p)
        (hsame i)
    · have hpini : p = ini := by
        refine hpids.pid_inj (hold hp) hinv.init.live ?_
        rw [← hlink, hmoved, hinv.init.pid_eq]
      obtain ⟨creator, hcreation, hwhy⟩ :=
        hledger.origin i cur (hold hi) hrunning.live hchild
      refine ⟨creator, hsame i ▸ mem_filterMap_cons hcreation,
        Or.inr ⟨hpini, ?_⟩⟩
      rcases hwhy with rfl | ⟨_, code', hgone⟩
      · refine ⟨code, ?_⟩
        rw [List.filterMap_cons_some hexit]
        exact List.mem_cons_self
      · exact ⟨code', mem_filterMap_cons hgone⟩
  · rw [List.filterMap_cons_none hnone] at hinc
    rw [hsame, hdeparted.generation]
    rcases hledger.past inc hinc with hlt | ⟨heq, hdead⟩
    · exact Or.inl hlt
    · have hne : inc.slot ≠ cur := fun heq => by
        rw [heq, hcur] at hdead
        cases hdead
      exact Or.inr ⟨heq, (hdeparted.others _ hne).dead_iff.mpr hdead⟩
  · rw [List.filterMap_cons_none hnone]
    exact hledger.distinct
  · rw [List.filterMap_cons_none hnone, hsame]
    have hrest : inc ∈ steps.filterMap Step.claimedExit →
        inc ∈ steps.filterMap Step.reaped ∨ m.incarnation inc.slot = inc ∧
          (m'.tasks inc.slot).state = .zombie := by
      intro hinc
      rcases hledger.waiting inc hinc with hdone | ⟨heq, hzombie⟩
      · exact Or.inl hdone
      · have hne : inc.slot ≠ cur := fun heq => by
          rw [heq, hcur] at hzombie
          cases hzombie
        exact Or.inr ⟨heq, (hdeparted.others _ hne).zombie_iff.mpr hzombie⟩
    by_cases hfound : (m.findByPid (m.tasks cur).parentPid).isSome
    · have hclaimed : Step.claimedExit ⟨m, .exitCurrent code, m', .none⟩ =
          some (m.incarnation cur) := by
        simp [Step.claimedExit, hrunning.current, hfound]
      rw [List.filterMap_cons_some hclaimed] at hinc
      rcases List.mem_cons.mp hinc with rfl | hinc
      · exact Or.inr ⟨rfl, hdeparted.kept hfound⟩
      · exact hrest hinc
    · have hclaimed : Step.claimedExit ⟨m, .exitCurrent code, m', .none⟩ =
          none := by
        simp [Step.claimedExit, hrunning.current, hfound]
      rw [List.filterMap_cons_none hclaimed] at hinc
      exact hrest hinc

theorem Machine.createOrphan_parentPid {entry : EntryFn} {name : String}
    {stack : Nat}
    (hcreate : m.createOrphan entry name stack = some (m', some slot)) :
    (m'.tasks slot).parentPid = noPid := by
  unfold Machine.createOrphan at hcreate
  split at hcreate
  · cases hcreate
  · unfold orphan at hcreate
    split at hcreate
    · cases hcreate
    · rename_i horphan
      split at horphan
      · cases horphan
      · cases horphan
        cases hcreate
        rw [setParentPid_parentPid, if_pos rfl]

/-- The tasks of the start have no parents. -/
theorem Started.no_parent (hstart : Started idle ini start) (i : Slot) :
    (start.tasks i).parentPid = noPid := by
  obtain ⟨cr3, idleStack, initStack, hinit⟩ := hstart
  obtain ⟨m₁, m₂, hbooted⟩ := init_booted hinit
  have hidle := hbooted.idle_created
  have hini := hbooted.init_created
  have hshell : ((boot.initShell cr3).tasks i).parentPid = noPid := by
    by_cases hi : i = 0
    · simp [hi, initShell, boot, Task.zero]
    · simp [hi, initShell, boot, Task.zero, Machine.modify]
  have htasks : start.tasks = m₂.tasks := by
    rw [hbooted.last]
  rw [htasks]
  by_cases hi : i = ini
  · rw [hi]
    exact createOrphan_parentPid hbooted.init_made
  · rw [hini.parentPid_eq i hi]
    by_cases hi' : i = idle
    · rw [hi']
      exact createOrphan_parentPid hbooted.idle_made
    · rw [hidle.parentPid_eq i hi', hshell]

theorem Started.ledger (hstart : Started idle ini start) :
    Ledger ini start [] := by
  have hinv := History.nil.inv hstart
  refine ⟨fun i hzombie => ?_, fun i p hi hp hlink => ?_, by simp, by simp,
    by simp⟩
  · exact absurd (hstart.no_parent i) (hinv.claimed i hzombie)
  · rw [hstart.no_parent i] at hlink
    exact absurd hlink.symm (hinv.family.pids.pid_ne_noPid hp)

theorem History.ledger (hhistory : History idle start m steps)
    (hstart : Started idle ini start) : Ledger ini m steps := by
  induction hhistory with
  | nil => exact hstart.ledger
  | cons hhistory hop hexec ih =>
      have hinv := hhistory.inv hstart
      obtain ⟨cur, hrunning⟩ := hinv.running
      cases hinv.effect hop hexec with
      | created hop' hcurrent hcreated hborn hparent =>
          rw [hrunning.current] at hcurrent
          cases hcurrent
          exact ih.created hinv hop' hrunning.current hrunning.live hcreated
            hborn hparent
      | reaped hop' _ hreaped hgeneration hcode _ =>
          exact ih.reaped hinv hop' hreaped hgeneration hcode
      | exited hrunning' hdeparted =>
          exact ih.departed hinv hrunning' hdeparted
      | routine hop' _ hreaped hfamily hcode =>
          exact ih.routine hop' hreaped hfamily hcode

/-- The history up to any of its steps. -/
theorem History.split {later earlier : List Step}
    (hhistory : History idle start m (later ++ step :: earlier)) :
    History idle start step.before earlier ∧
      step.op.Allowed idle step.before ∧
      step.before.exec step.op = some (step.after, step.report) := by
  induction later generalizing m with
  | nil =>
      cases hhistory with
      | cons hbefore hop hexec => exact ⟨hbefore, hop, hexec⟩
  | cons last later ih =>
      cases hhistory with
      | cons hbefore _ _ => exact ih hbefore

/-- The pid stands on the child list of `p`. -/
def Machine.OnChildList (m : Machine) (p : Slot) (pid : Pid) : Prop :=
  ∃ pids, Chain m.nextSiblingOf noPid (m.tasks p).firstChild pids ∧
    pid ∈ pids

theorem Machine.Inv.onChildList_iff (hinv : Inv m idle ini) (hp : m.Live p)
    (hi : m.Live i) : m.OnChildList p (m.tasks i).pid ↔
      (m.tasks i).parentPid = (m.tasks p).pid := by
  obtain ⟨pids, hchain, _, hmem⟩ := hinv.tableInvariant.child_list p hp
  constructor
  · rintro ⟨pids', hchain', hmem'⟩
    rw [hchain'.unique hchain] at hmem'
    obtain ⟨j, hj, hpid, hparent⟩ := (hmem _).mp hmem'
    rwa [hinv.family.pids.pid_inj hj hi hpid] at hparent
  · intro hparent
    exact ⟨pids, hchain, (hmem _).mpr ⟨i, hi, rfl, hparent⟩⟩

/-- A zombie is on the child list of exactly one task. -/
theorem Machine.Inv.zombie_listed (hinv : Inv m idle ini)
    (hzombie : (m.tasks i).state = .zombie) :
    ∃! p, m.Live p ∧ m.OnChildList p (m.tasks i).pid := by
  have hlive := live_of_zombie hzombie
  obtain ⟨p, hfind, _⟩ := hinv.tableInvariant.parent_alive i hlive
    (hinv.claimed i hzombie)
  obtain ⟨hp, hpid⟩ := findByPid_spec hfind
  refine ⟨p, ⟨hp, (hinv.onChildList_iff hp hlive).mpr hpid.symm⟩, ?_⟩
  rintro q ⟨hq, hlist⟩
  refine hinv.family.pids.pid_inj hq hp ?_
  rw [hpid, (hinv.onChildList_iff hq hlive).mp hlist]

/-- Every report of a wait is the exit code of a child of the caller, no
incarnation is reported twice, and an exit with a live parent is kept for the
one task that has it on its list until it is reported. -/
theorem exit_codes_delivered_once (hstart : Started idle ini start)
    (hhistory : History idle start m steps) :
    (∀ later step earlier pid code, steps = later ++ step :: earlier →
      step.report = .waited (.reaped pid code) →
      ∃ caller child, step.before.current = some caller ∧
        step.before.findByPid pid = some child ∧
        (step.before.incarnation child, code) ∈
          earlier.filterMap Step.exit ∧
        (step.before.tasks child).parentPid =
          (step.before.tasks caller).pid ∧
        Inherits ini step.before earlier caller child) ∧
    (steps.filterMap Step.reaped).Nodup ∧
    ∀ inc ∈ steps.filterMap Step.claimedExit,
      inc ∈ steps.filterMap Step.reaped ∨
        m.incarnation inc.slot = inc ∧
        (m.tasks inc.slot).state = .zombie ∧
        ∃! p, m.Live p ∧ m.OnChildList p (m.tasks inc.slot).pid := by
  have hledger := hhistory.ledger hstart
  refine ⟨?_, hledger.distinct, fun inc hinc => ?_⟩
  · rintro later ⟨before, op, after, report⟩ earlier pid code rfl hreport
    obtain ⟨hbefore, hop, hexec⟩ := hhistory.split
    dsimp only at hreport hbefore hop hexec ⊢
    have hinv := hbefore.inv hstart
    have hledger' := hbefore.ledger hstart
    subst hreport
    cases hinv.effect hop hexec with
    | @reaped _ caller child _ hcurrent hreaped _ _ hparent =>
        have hchild := live_of_zombie hreaped.zombie
        obtain ⟨cur, hrunning⟩ := hinv.running
        have hcur : cur = caller := by
          rw [hrunning.current] at hcurrent
          exact Option.some.inj hcurrent
        refine ⟨caller, child, hcurrent,
          hinv.family.pids.findByPid_eq hchild,
          hledger'.exited child hreaped.zombie, hparent,
          hledger'.origin child caller hchild ?_ hparent⟩
        exact hcur ▸ hrunning.live
    | routine _ _ hnone _ _ => exact absurd rfl (hnone pid code)
  · rcases hledger.waiting inc hinc with hdone | ⟨heq, hzombie⟩
    · exact Or.inl hdone
    · exact Or.inr ⟨heq, hzombie,
        (hhistory.inv hstart).zombie_listed hzombie⟩

/-- In the session of the orphan the shell is told of its worker, and the
orphan, which the worker left to init, has exited too. -/
theorem exit_codes_delivered_once_orphanSession :
    ∃ session : Session,
      session.steps.filterMap Step.reaped = [⟨3, 1⟩] ∧
      session.steps.filterMap Step.claimedExit = [⟨4, 1⟩, ⟨3, 1⟩] ∧
      (session.last.tasks 4).state = .zombie := by
  obtain ⟨session, hstart, hhistory, hcheck⟩ :=
    Session.exists_run (fun session =>
      session.steps.filterMap Step.reaped == [⟨3, 1⟩] &&
        session.steps.filterMap Step.claimedExit == [⟨4, 1⟩, ⟨3, 1⟩])
      (show (Session.run 0x1000 0x10000 0x20000 orphanSession).any _ by
        decide +kernel)
  simp only [Bool.and_eq_true, beq_iff_eq] at hcheck
  obtain ⟨hreaped, hclaimed⟩ := hcheck
  obtain ⟨_, _, hwaiting⟩ := exit_codes_delivered_once hstart hhistory
  have hzombie := hwaiting ⟨4, 1⟩ (by simp [hclaimed])
  rw [hreaped] at hzombie
  exact ⟨session, hreaped, hclaimed,
    (hzombie.resolve_left (by decide)).2.1⟩

end Tasks

end VenomOS
