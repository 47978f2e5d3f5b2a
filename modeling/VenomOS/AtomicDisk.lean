/-
A block device whose writes are atomic.  The device keeps the log of the writes
that took effect, so that the contents after a power loss are the replay of a
prefix of the log; a scripted outcome decides for every call whether it fails.
-/
import VenomOS.ByteMemory

namespace AtomicDisk

open ByteMemory

structure Write where
  addr : Nat
  bytes : List UInt8

def Write.apply (mem : Memory) (write : Write) : Memory :=
  store mem write.addr write.bytes

/-- The contents after the writes of a log. -/
def replay (mem : Memory) (log : List Write) : Memory :=
  log.foldl Write.apply mem

/-- `outcome n` is `none` when call number `n` succeeds, and the number of units
it transferred when it fails. -/
structure Device where
  base : Memory
  log : List Write
  outcome : Nat → Option Nat
  calls : Nat

def Device.disk (dev : Device) : Memory := replay dev.base dev.log

/-- Start the next call: its outcome, and the device that counted it. -/
def Device.attempt (dev : Device) : Option Nat × Device :=
  (dev.outcome dev.calls, { dev with calls := dev.calls + 1 })

def Device.write (dev : Device) (write : Write) : Bool × Device :=
  match dev.attempt with
  | (none, dev) => (true, { dev with log := dev.log ++ [write] })
  | (some _, dev) => (false, dev)

/-- Every call succeeds. -/
def Reliable (dev : Device) : Prop := ∀ call, dev.outcome call = none

/-- `dev'` comes from `dev` by writes that satisfy `ok`. -/
structure Grows (ok : Write → Prop) (dev dev' : Device) : Prop where
  base : dev'.base = dev.base
  outcome : dev'.outcome = dev.outcome
  log : ∃ new, dev'.log = dev.log ++ new ∧ ∀ write ∈ new, ok write

variable {ok ok' : Write → Prop} {dev dev' dev'' : Device} {mem : Memory}
variable {write : Write} {log : List Write} {P : Memory → Prop}

theorem replay_append (first second : List Write) :
    replay mem (first ++ second) = replay (replay mem first) second :=
  List.foldl_append

theorem Grows.refl (ok : Write → Prop) (dev : Device) : Grows ok dev dev :=
  ⟨rfl, rfl, [], by simp, by simp⟩

theorem Grows.trans (hfirst : Grows ok dev dev') (hsecond : Grows ok dev' dev'') :
    Grows ok dev dev'' := by
  obtain ⟨new, hlog, hok⟩ := hfirst.log
  obtain ⟨new', hlog', hok'⟩ := hsecond.log
  refine ⟨hsecond.base.trans hfirst.base, hsecond.outcome.trans hfirst.outcome,
    new ++ new', ?_, ?_⟩
  · rw [hlog', hlog, List.append_assoc]
  · intro write hwrite
    rcases List.mem_append.mp hwrite with hmem | hmem
    · exact hok write hmem
    · exact hok' write hmem

theorem Grows.mono (hgrows : Grows ok dev dev')
    (himp : ∀ write, ok write → ok' write) : Grows ok' dev dev' := by
  obtain ⟨new, hlog, hok⟩ := hgrows.log
  exact ⟨hgrows.base, hgrows.outcome, new, hlog,
    fun write hwrite => himp write (hok write hwrite)⟩

theorem Grows.reliable (hgrows : Grows ok dev dev') (hreliable : Reliable dev) :
    Reliable dev' := by
  intro call
  rw [hgrows.outcome]
  exact hreliable call

/-- A call that writes nothing. -/
theorem attempt_grows (ok : Write → Prop) (dev : Device) :
    Grows ok dev dev.attempt.2 :=
  ⟨rfl, rfl, [], by simp [Device.attempt], by simp⟩

@[simp]
theorem attempt_disk (dev : Device) : dev.attempt.2.disk = dev.disk := rfl

theorem write_grows (hok : ok write) : Grows ok dev (dev.write write).2 := by
  unfold Device.write
  cases houtcome : dev.outcome dev.calls with
  | none =>
      simp only [Device.attempt, houtcome]
      exact ⟨rfl, rfl, [write], rfl, by simpa using hok⟩
  | some units =>
      simp only [Device.attempt, houtcome]
      exact ⟨rfl, rfl, [], by simp, by simp⟩

/-- A write that succeeded is in effect. -/
theorem write_disk_of_ok (hwrite : (dev.write write).1 = true) :
    (dev.write write).2.disk = write.apply dev.disk := by
  unfold Device.write at hwrite ⊢
  cases houtcome : dev.outcome dev.calls with
  | none => simp [Device.attempt, houtcome, Device.disk, replay]
  | some units => simp [Device.attempt, houtcome] at hwrite

/-- A write that failed changed nothing. -/
theorem write_disk_of_failed (hwrite : (dev.write write).1 = false) :
    (dev.write write).2.disk = dev.disk := by
  unfold Device.write at hwrite ⊢
  cases houtcome : dev.outcome dev.calls with
  | none => simp [Device.attempt, houtcome] at hwrite
  | some units => simp [Device.attempt, houtcome, Device.disk]

theorem write_ok_of_reliable (hreliable : Reliable dev) :
    (dev.write write).1 = true := by
  simp [Device.write, Device.attempt, hreliable dev.calls]

theorem write_reliable (hreliable : Reliable dev) :
    Reliable (dev.write write).2 := by
  have hgrows : Grows (fun _ => True) dev (dev.write write).2 :=
    write_grows trivial
  exact hgrows.reliable hreliable

theorem replay_invariant (hinit : P mem)
    (hstep : ∀ mem write, ok write → P mem → P (write.apply mem))
    (hok : ∀ write ∈ log, ok write) : P (replay mem log) := by
  induction log generalizing mem with
  | nil => exact hinit
  | cons head tail ih =>
      refine ih (hstep mem head (hok head List.mem_cons_self) hinit) ?_
      exact fun write hwrite => hok write (List.mem_cons_of_mem _ hwrite)

/-- What every admissible write preserves holds on the disk at the end. -/
theorem Grows.invariant (hgrows : Grows ok dev dev') (hinit : P dev.disk)
    (hstep : ∀ mem write, ok write → P mem → P (write.apply mem)) :
    P dev'.disk := by
  obtain ⟨new, hlog, hok⟩ := hgrows.log
  rw [Device.disk, hlog, hgrows.base, replay_append]
  exact replay_invariant hinit hstep hok

/-- What every admissible write preserves holds wherever the power was lost. -/
theorem Grows.at_cut (hgrows : Grows ok dev dev') (hinit : P dev.disk)
    (hstep : ∀ mem write, ok write → P mem → P (write.apply mem)) {cut : Nat}
    (hcut : dev.log.length ≤ cut) :
    P (replay dev'.base (dev'.log.take cut)) := by
  obtain ⟨new, hlog, hok⟩ := hgrows.log
  rw [hgrows.base, hlog, List.take_append, List.take_of_length_le hcut,
    replay_append]
  refine replay_invariant hinit hstep fun write hwrite => ?_
  exact hok write (List.mem_of_mem_take hwrite)

end AtomicDisk
