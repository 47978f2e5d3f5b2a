/-
Programs that talk to an environment by requests.  A program is the tree of its
requests.  It can be run on a device, and it can be judged by a monitor that
sees the requests and lets the device answer as it likes.
-/
import Mathlib

namespace Interaction

variable {R : Type} {Answer : R → Type}

inductive Program {R : Type} (Answer : R → Type) (α : Type) where
  | done (result : α)
  | ask (request : R) (next : Answer request → Program Answer α)

/-- A request with its answer. -/
abbrev Access (Answer : R → Type) := (request : R) × Answer request

/-- How a device answers, and what a request does to it. -/
abbrev Device (Answer : R → Type) (σ : Type) :=
  (request : R) → σ → Answer request × σ

/-- A monitor that allows a request with its answer, or does not. -/
abbrev Monitor (Answer : R → Type) (μ : Type) := μ → Access Answer → Option μ

namespace Program

variable {α β σ μ : Type}

def bind (f : α → Program Answer β) : Program Answer α → Program Answer β
  | .done result => f result
  | .ask request next => .ask request fun answer => (next answer).bind f

instance : Monad (Program Answer) where
  pure := .done
  bind program f := program.bind f

def run (dev : Device Answer σ) : Program Answer α → σ → α × σ
  | .done result, s => (result, s)
  | .ask request next, s =>
      (next (dev request s).1).run dev (dev request s).2

/-- The accesses of the run. -/
def accesses (dev : Device Answer σ) : Program Answer α → σ → List (Access Answer)
  | .done _, _ => []
  | .ask request next, s =>
      ⟨request, (dev request s).1⟩ ::
        (next (dev request s).1).accesses dev (dev request s).2

/-- Whatever the device answers, the monitor allows every access, and `post`
holds at the end. -/
def Safe (allow : Monitor Answer μ) (post : α → μ → Prop) :
    Program Answer α → μ → Prop
  | .done result, m => post result m
  | .ask request next, m => ∀ answer, ∃ m', allow m ⟨request, answer⟩ = some m' ∧
      (next answer).Safe allow post m'

/-- Whatever the device answers, there are at most `n` accesses. -/
def Within : Program Answer α → Nat → Prop
  | .done _, _ => True
  | .ask _ next, n => 0 < n ∧ ∀ answer, (next answer).Within (n - 1)

/-- A program that makes one request. -/
def request (r : R) : Program Answer (Answer r) := .ask r .done

variable {dev : Device Answer σ} {program : Program Answer α}
  {f : α → Program Answer β} {s : σ} {allow : Monitor Answer μ}
  {post post' : α → μ → Prop} {m : μ} {n k : Nat} {r : R}

theorem Safe.mono (hsafe : program.Safe allow post m)
    (himp : ∀ result m, post result m → post' result m) :
    program.Safe allow post' m := by
  induction program generalizing m with
  | done => exact himp _ _ hsafe
  | ask request next ih =>
      intro answer
      obtain ⟨m', hallow, hnext⟩ := hsafe answer
      exact ⟨m', hallow, ih answer hnext⟩

/-- A safe program keeps to the monitor on every device. -/
theorem Safe.accesses (hsafe : program.Safe allow post m)
    (dev : Device Answer σ) (s : σ) :
    ∃ m', (program.accesses dev s).foldlM allow m = some m' ∧
      post (program.run dev s).1 m' := by
  induction program generalizing m s with
  | done => exact ⟨m, rfl, hsafe⟩
  | ask request next ih =>
      obtain ⟨m', hallow, hnext⟩ := hsafe (dev request s).1
      obtain ⟨m'', hrest, hpost⟩ := ih _ hnext (dev request s).2
      refine ⟨m'', ?_, hpost⟩
      rw [Program.accesses, List.foldlM_cons, hallow]
      exact hrest

theorem Within.mono (hwithin : program.Within n) (hle : n ≤ k) :
    program.Within k := by
  induction program generalizing n k with
  | done => trivial
  | ask request next ih =>
      exact ⟨lt_of_lt_of_le hwithin.1 hle,
        fun answer => ih answer (hwithin.2 answer) (Nat.sub_le_sub_right hle 1)⟩

end Program

/-- The accesses to input and output ports. -/
inductive Port where
  | inb (port : UInt16)
  | inw (port : UInt16)
  | outb (port : UInt16) (value : UInt8)
  | outw (port value : UInt16)

abbrev Port.Reply : Port → Type
  | .inb _ => UInt8
  | .inw _ => UInt16
  | .outb _ _ => Unit
  | .outw _ _ => Unit

abbrev PortProgram (α : Type) := Program Port.Reply α

def inb (port : UInt16) : PortProgram UInt8 := .ask (.inb port) .done
def inw (port : UInt16) : PortProgram UInt16 := .ask (.inw port) .done
def outb (port : UInt16) (value : UInt8) : PortProgram Unit :=
  .ask (.outb port value) .done
def outw (port value : UInt16) : PortProgram Unit :=
  .ask (.outw port value) .done

end Interaction
