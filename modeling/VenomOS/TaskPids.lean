/-
What a pid identifies.  A pid packs the slot into its low byte and the
generation above it, so 56 bits of the generation survive.  As long as every
new incarnation fits them, no pid is ever given twice, and a pid never finds
a later task.
-/
import VenomOS.TaskHistory

namespace VenomOS

namespace Tasks

open Machine

theorem pidSlotIndex_makePid (i : Slot) (generation : UInt64) :
    pidSlotIndex (makePid i generation) = i.val := by
  rw [pidSlotIndex, makePid_and_mask]
  omega

theorem pidGeneration_toNat (i : Slot) (generation : UInt64) :
    (pidGeneration (makePid i generation)).toNat =
      generation.toNat % 2 ^ 56 := by
  have hi : i.val < 128 := i.isLt
  have hindex : (UInt64.ofNat i.val + 1).toNat = i.val + 1 := by
    simp
    omega
  have hbits : pidIndexBits.toNat % 64 = 8 := by decide
  have hlow : (i.val + 1) >>> 8 = 0 := by
    rw [Nat.shiftRight_eq_div_pow]
    omega
  rw [pidGeneration, makePid, UInt64.toNat_shiftRight, UInt64.toNat_or,
    UInt64.toNat_shiftLeft, hindex, hbits, Nat.shiftRight_or_distrib, hlow,
    Nat.or_zero, Nat.shiftLeft_eq, Nat.shiftRight_eq_div_pow]
  omega

theorem pidGeneration_makePid_iff (i : Slot) (generation : UInt64) :
    pidGeneration (makePid i generation) = generation ↔
      generation.toNat < 2 ^ 56 := by
  rw [← UInt64.toNat_inj, pidGeneration_toNat]
  omega

/-- What the first 2 ^ 56 incarnations of each slot have in common. -/
def Incarnation.Fits (incarnation : Incarnation) : Prop :=
  incarnation.generation.toNat < 2 ^ 56

def Incarnation.pid (incarnation : Incarnation) : Pid :=
  makePid incarnation.slot incarnation.generation

theorem Incarnation.pid_inj {a b : Incarnation} (ha : a.Fits) (hb : b.Fits)
    (hpid : a.pid = b.pid) : a = b := by
  have hslot : a.slot = b.slot := by
    apply Fin.ext
    have hindex := congrArg pidSlotIndex hpid
    rw [Incarnation.pid, Incarnation.pid, pidSlotIndex_makePid,
      pidSlotIndex_makePid] at hindex
    exact_mod_cast hindex
  have hgeneration : a.generation = b.generation := by
    have hgeneration := congrArg pidGeneration hpid
    rwa [Incarnation.pid, Incarnation.pid,
      (pidGeneration_makePid_iff _ _).mpr ha,
      (pidGeneration_makePid_iff _ _).mpr hb] at hgeneration
  cases a
  cases b
  simp_all

/-- A new incarnation with the pid that was written into its slot. -/
structure Birth where
  incarnation : Incarnation
  pid : Pid
deriving Repr, DecidableEq

def Machine.birth (m : Machine) (i : Slot) : Birth :=
  ⟨m.incarnation i, (m.tasks i).pid⟩

/-- The shell, idle and init, and every task that was created since. -/
def births (idle ini : Slot) (start : Machine) : List Step → List Birth
  | [] => [start.birth ini, start.birth idle, start.birth 0]
  | step :: steps =>
      match step.report with
      | .created (some slot) =>
          step.after.birth slot :: births idle ini start steps
      | _ => births idle ini start steps

/-- A creation would take a slot whose next generation fits a pid. -/
def Op.Numbered (m : Machine) : Op → Prop
  | .create .. | .createProcess .. => ∀ slot, m.findFreeSlot = some slot →
      (m.tasks slot).generation.toNat + 1 < 2 ^ 56
  | _ => True

instance (m : Machine) : (op : Op) → Decidable (op.Numbered m)
  | .create .. | .createProcess .. => inferInstanceAs (Decidable
      (∀ slot, m.findFreeSlot = some slot →
        (m.tasks slot).generation.toNat + 1 < 2 ^ 56))
  | .blockCurrent | .unblock _ | .sleepCurrent _ | .timer | .yield
  | .waitForChild | .waitAgain | .exitCurrent _ | .reapPendingCleanup =>
      isTrue trivial

theorem Op.Numbered.fits {m m' : Machine} {op : Op} {slot : Slot}
    (hnumbered : op.Numbered m)
    (hexec : m.exec op = some (m', .created (some slot)))
    (hborn : Born m m' slot) :
    (m.tasks slot).generation.toNat + 1 < 2 ^ 56 := by
  cases op with
  | create => exact hnumbered slot hborn.free
  | createProcess => exact hnumbered slot hborn.free
  | waitForChild =>
      obtain ⟨_, _, hresult⟩ := Option.map_eq_some_iff.mp hexec
      cases hresult
  | waitAgain =>
      rw [Machine.exec] at hexec
      split at hexec
      · cases hexec
      · obtain ⟨_, _, hresult⟩ := Option.map_eq_some_iff.mp hexec
        cases hresult
  | exitCurrent =>
      obtain ⟨_, _, hresult⟩ := Option.map_eq_some_iff.mp hexec
      cases hresult
  | _ => cases hexec

variable {m m' start : Machine} {idle ini slot : Slot} {log : List Birth}
  {steps : List Step}

/-- The register of births agrees with the table. -/
structure Registered (m : Machine) (log : List Birth) : Prop where
  fits : ∀ i, (m.incarnation i).Fits
  pid_eq : ∀ birth ∈ log, birth.pid = birth.incarnation.pid
  past : ∀ birth ∈ log, birth.incarnation.generation.toNat ≤
    (m.tasks birth.incarnation.slot).generation.toNat
  distinct : (log.map Birth.incarnation).Nodup

section

variable (hregistered : Registered m log)

include hregistered

theorem Registered.keeps (hkeeps : Keeps Task.generation m m') :
    Registered m' log where
  fits i := by
    rw [incarnation, hkeeps]
    exact hregistered.fits i
  pid_eq := hregistered.pid_eq
  past birth hbirth := by
    rw [hkeeps]
    exact hregistered.past birth hbirth
  distinct := hregistered.distinct

theorem Registered.born (hborn : Born m m' slot)
    (hfits : (m.tasks slot).generation.toNat + 1 < 2 ^ 56) :
    Registered m' (m'.birth slot :: log) := by
  have hnext : (m'.tasks slot).generation.toNat =
      (m.tasks slot).generation.toNat + 1 := by
    rw [hborn.generation, UInt64.toNat_add, UInt64.toNat_one]
    exact Nat.mod_eq_of_lt (by omega)
  have hpast : ∀ birth ∈ log, birth.incarnation.generation.toNat ≤
      (m'.tasks birth.incarnation.slot).generation.toNat ∧
        birth.incarnation ≠ m'.incarnation slot := by
    intro birth hbirth
    have hbefore := hregistered.past birth hbirth
    by_cases hslot : birth.incarnation.slot = slot
    · rw [hslot] at hbefore ⊢
      refine ⟨by omega, fun heq => ?_⟩
      rw [heq] at hbefore
      simp only [incarnation] at hbefore
      omega
    · rw [hborn.others Blind.generation _ hslot]
      exact ⟨hbefore, fun heq => hslot (congrArg Incarnation.slot heq)⟩
  refine ⟨fun i => ?_, ?_, ?_, ?_⟩
  · by_cases hi : i = slot
    · simpa only [hi, Incarnation.Fits, incarnation, hnext] using hfits
    · rw [incarnation, hborn.others Blind.generation i hi]
      exact hregistered.fits i
  · exact List.forall_mem_cons.mpr ⟨hborn.pid, hregistered.pid_eq⟩
  · exact List.forall_mem_cons.mpr ⟨le_rfl, fun birth hbirth =>
      (hpast birth hbirth).1⟩
  · rw [List.map_cons, List.nodup_cons]
    refine ⟨fun hmem => ?_, hregistered.distinct⟩
    obtain ⟨birth, hbirth, heq⟩ := List.mem_map.mp hmem
    exact (hpast birth hbirth).2 heq

theorem Registered.fits_of_mem {birth : Birth} (hbirth : birth ∈ log) :
    birth.incarnation.Fits :=
  (hregistered.past birth hbirth).trans_lt (hregistered.fits _)

theorem Registered.pids_distinct :
    log.Pairwise fun birth later => birth.pid ≠ later.pid := by
  have hdistinct := List.pairwise_map.mp hregistered.distinct
  refine hdistinct.imp_of_mem fun hbirth hlater hne hpid => hne ?_
  rw [hregistered.pid_eq _ hbirth, hregistered.pid_eq _ hlater] at hpid
  exact Incarnation.pid_inj (hregistered.fits_of_mem hbirth)
    (hregistered.fits_of_mem hlater) hpid

/-- A pid finds the incarnation it was given to or nothing. -/
theorem Registered.find (hpids : m.PidsMatch) {birth : Birth}
    (hbirth : birth ∈ log) {i : Slot} (hfind : m.findByPid birth.pid = some i) :
    m.incarnation i = birth.incarnation := by
  obtain ⟨hlive, hpid⟩ := findByPid_spec hfind
  rw [hpids i hlive, hregistered.pid_eq birth hbirth] at hpid
  exact Incarnation.pid_inj (hregistered.fits i)
    (hregistered.fits_of_mem hbirth) hpid

end

theorem createOrphan_born {entry : EntryFn} {name : String} {stack : Nat}
    (hcreate : m.createOrphan entry name stack = some (m', some slot)) :
    Born m m' slot := by
  unfold Machine.createOrphan at hcreate
  split at hcreate
  · cases hcreate
  · rename_i hborn
    unfold orphan at hcreate
    split at hcreate
    · cases hcreate
    · rename_i horphan
      split at horphan
      · cases horphan
      · rename_i hremove
        cases horphan
        cases hcreate
        exact (create_born hborn).keeps fun hblind =>
          (removeChild_keeps _ hblind hremove).trans
            (setParentPid_keeps _ hblind _ _)

/-- The two kernel tasks are born one after the other. -/
theorem Started.created (hstart : Started idle ini start) :
    ∃ cr3 m, Born (boot.initShell cr3) m idle ∧ Born m start ini ∧
      idle ≠ 0 ∧ ini ≠ 0 ∧ ini ≠ idle := by
  obtain ⟨cr3, idleStack, initStack, hinit⟩ := hstart
  obtain ⟨m₁, m₂, hbooted⟩ := init_booted hinit
  have hidle := hbooted.idle_created
  have hini := hbooted.init_created
  refine ⟨cr3, m₁, createOrphan_born hbooted.idle_made, ?_, ?_, ?_, ?_⟩
  · rw [hbooted.last]
    exact (createOrphan_born hbooted.init_made).keeps fun _ _ => rfl
  · exact (hidle.ne (initShell_starting cr3).running.live).symm
  · exact (hini.ne hbooted.idle_starting.running.live).symm
  · exact (hini.ne hbooted.idle_live).symm

theorem initShell_generation (cr3 : Nat) (i : Slot) :
    ((boot.initShell cr3).tasks i).generation = if i = 0 then 1 else 0 := by
  by_cases hi : i = 0
  · simp [hi, initShell, boot, Task.zero]
  · simp [hi, initShell, boot, Task.zero, Machine.modify]

theorem initShell_registered (cr3 : Nat) :
    Registered (boot.initShell cr3) [(boot.initShell cr3).birth 0] := by
  refine ⟨fun i => ?_, ?_, ?_, by simp⟩
  · rw [Incarnation.Fits, incarnation, initShell_generation]
    split
    · simp
    · simp
  · simp [Machine.birth, Incarnation.pid, incarnation, initShell, boot,
      Task.zero]
  · simp [Machine.birth, incarnation]

theorem Born.birth_eq (hborn : Born m m' slot) {i : Slot} (hi : i ≠ slot) :
    m'.birth i = m.birth i := by
  simp only [Machine.birth, incarnation,
    hborn.others Blind.generation i hi, hborn.others Blind.pid i hi]

theorem Started.registered (hstart : Started idle ini start) :
    Registered start (births idle ini start []) := by
  obtain ⟨cr3, m, hidle, hini, hidle0, hini0, hne⟩ := hstart.created
  have hfits : ∀ i, i ≠ 0 → ((boot.initShell cr3).tasks i).generation.toNat +
      1 < 2 ^ 56 := by
    intro i hi
    rw [initShell_generation, if_neg hi]
    simp
  have hregistered := ((initShell_registered cr3).born hidle
    (hfits idle hidle0)).born hini (by
      rw [hidle.others Blind.generation ini hne]
      exact hfits ini hini0)
  rw [births, Born.birth_eq hini hne.symm, Born.birth_eq hini hini0.symm,
    Born.birth_eq hidle hidle0.symm]
  exact hregistered

theorem births_cons_of_ne {step : Step}
    (hnone : ∀ slot, step.report ≠ .created (some slot)) :
    births idle ini start (step :: steps) = births idle ini start steps := by
  rw [births]
  split
  · rename_i slot hreport
    exact absurd hreport (hnone slot)
  · rfl

theorem History.registered (hhistory : History idle start m steps)
    (hstart : Started idle ini start)
    (hnumbered : ∀ step ∈ steps, step.op.Numbered step.before) :
    Registered m (births idle ini start steps) := by
  induction hhistory with
  | nil => exact hstart.registered
  | cons hhistory _ hexec ih =>
      obtain ⟨hstep, hrest⟩ := List.forall_mem_cons.mp hnumbered
      rcases exec_incarnations hexec with
        ⟨slot, rfl, hborn⟩ | ⟨hnone, hkeeps⟩
      · exact (ih hrest).born hborn (hstep.fits hexec hborn)
      · rw [births_cons_of_ne hnone]
        exact (ih hrest).keeps (hkeeps Blind.generation fun _ _ _ _ => rfl)

/-- A pid decodes to its slot, and to its generation when that is below
2 ^ 56.  In a run in which every creation stays below that bound, no two
incarnations are given the same pid, and a pid never finds a later task. -/
theorem pids_identify_incarnations (s : Slot) (g : UInt64) :
    (pidSlotIndex (makePid s g) = s.val ∧
      (pidGeneration (makePid s g) = g ↔ g.toNat < 2 ^ 56)) ∧
    ∀ (idle ini : Slot) (start m : Machine) (steps : List Step),
      Started idle ini start → History idle start m steps →
      (∀ step ∈ steps, step.op.Numbered step.before) →
      ((births idle ini start steps).Pairwise fun birth later =>
        birth.pid ≠ later.pid) ∧
      ∀ birth ∈ births idle ini start steps, ∀ i,
        m.findByPid birth.pid = some i →
          m.incarnation i = birth.incarnation := by
  refine ⟨⟨pidSlotIndex_makePid s g, pidGeneration_makePid_iff s g⟩, ?_⟩
  intro idle ini start m steps hstart hhistory hnumbered
  have hregistered := hhistory.registered hstart hnumbered
  have hpids := (hhistory.inv hstart).family.pids
  exact ⟨hregistered.pids_distinct, fun birth hbirth i hfind =>
    hregistered.find hpids hbirth hfind⟩

/-- A shell that starts a worker, waits for its exit and starts another one
in the slot that became free. -/
def reuseSession : List Op :=
  [.create (.code 0x10000) "worker" 0x30000, .waitForChild, .yield, .yield,
    .exitCurrent 7, .reapPendingCleanup, .waitAgain,
    .create (.code 0x10000) "worker" 0x30000]

theorem pids_identify_incarnations_reuseSession :
    ∃ session : Session,
      session.last.findByPid (makePid 3 1) = none ∧
      ((births session.idle session.ini session.start
        session.steps).Pairwise fun birth later =>
          birth.pid ≠ later.pid) := by
  obtain ⟨session, hstart, hhistory, hcheck⟩ :=
    Session.exists_run (fun session =>
      session.last.findByPid (makePid 3 1) == none &&
        decide (∀ step ∈ session.steps, step.op.Numbered step.before))
      (show (Session.run 0x1000 0x10000 0x20000 reuseSession).any _ by
        decide +kernel)
  simp only [Bool.and_eq_true, beq_iff_eq, decide_eq_true_eq] at hcheck
  exact ⟨session, hcheck.1, ((pids_identify_incarnations 3 1).2 _ _ _ _ _
    hstart hhistory hcheck.2).1⟩

/-- The slot has been through 2 ^ 56 incarnations, and `find_free_slot` still
accepts it. -/
def wornMachine : Machine :=
  { boot with tasks := fun _ => { Task.zero with generation := 2 ^ 56 } }

/-- The next incarnation of a worn slot gets the pid of the first one, which
then finds it. -/
theorem pid_generation_wraps :
    pidGeneration (makePid 0 (2 ^ 56)) ≠ 2 ^ 56 ∧
    (wornMachine.create (.code 0x10000) "late" 0x30000).2 = some 0 ∧
    ((wornMachine.create (.code 0x10000) "late" 0x30000).1.tasks 0).pid =
      makePid 0 1 ∧
    (wornMachine.create (.code 0x10000) "late" 0x30000).1.findByPid
      (makePid 0 1) = some 0 := by
  decide +kernel

end Tasks

end VenomOS
