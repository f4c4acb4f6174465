import Libvsync.Core.Machine

/-!
Locks as their callers see them. A lock is taken by one thread, or shared by
threads that only read; a lock that does not know readers treats them like
writers. What a lock promises is a part of it: a call goes through the phases
that its caller expects, and a thread that may write has the lock alone.
-/

namespace Libvsync.Core

/-- What a thread does with a lock: it begins a call, or takes the next step of
the call that it is in. -/
inductive LockAct (Tid : Type*) where
  | acquire (reading : Bool) (t : Tid)
  | tryacquire (reading : Bool) (t : Tid)
  | release (t : Tid)
  | step (t : Tid)
  deriving DecidableEq

/-- Where a thread stands with a lock. `reading` is what the lock grants. -/
inductive Phase where
  | out
  | acquires (reading : Bool)
  | tries (reading : Bool)
  | has (reading : Bool)
  | releases
  deriving DecidableEq

variable {Tid : Type*}

def LockAct.thread : LockAct Tid → Tid
  | .acquire _ t | .tryacquire _ t | .release t | .step t => t

/-- In a call of the lock. -/
def Phase.calling : Phase → Bool
  | .acquires _ | .tries _ | .releases => true
  | .out | .has _ => false

/-- How the phase of a thread goes on. A reader may be granted more than it
asks for. -/
inductive Phase.Next : LockAct Tid → Phase → Phase → Prop
  | acquire {t : Tid} {asked granted : Bool} (h : granted = true → asked = true) :
      Next (.acquire asked t) .out (.acquires granted)
  | tryacquire {t : Tid} {asked granted : Bool} (h : granted = true → asked = true) :
      Next (.tryacquire asked t) .out (.tries granted)
  | release {t : Tid} {reading : Bool} : Next (.release t) (.has reading) .releases
  | goesOn {t : Tid} {p : Phase} (h : p.calling = true) : Next (.step t) p p
  | acquired {t : Tid} {reading : Bool} : Next (.step t) (.acquires reading) (.has reading)
  | taken {t : Tid} {reading : Bool} : Next (.step t) (.tries reading) (.has reading)
  | failed {t : Tid} {reading : Bool} : Next (.step t) (.tries reading) .out
  | released {t : Tid} : Next (.step t) .releases .out

/-- The code of a lock, with what it is for. -/
structure Lock (Tid : Type) where
  State : Type
  machine : Machine State (LockAct Tid)
  phase : State → Tid → Phase
  start : ∀ s, machine.start s → ∀ t, phase s t = .out
  own : ∀ s a s', machine.step s a = some s' →
    Phase.Next a (phase s a.thread) (phase s' a.thread)
  others : ∀ s a s', machine.step s a = some s' → ∀ u, u ≠ a.thread → phase s' u = phase s u
  /-- Who may write has the lock alone. -/
  excludes : ∀ past s, machine.Run past s → ∀ t u reading, phase s t = .has false →
    phase s u = .has reading → u = t
  /-- The lock is not lost: while nobody has it, its calls do not all wait. -/
  live : ∀ past s, machine.Run past s → ∀ t, (phase s t).calling = true →
    (∃ u reading, phase s u = .has reading) ∨
      ∃ u s', (phase s u).calling = true ∧ machine.step s (.step u) = some s'
  calls : ∀ s t reading, phase s t = .out → (machine.step s (.acquire reading t)).isSome
  leaves : ∀ s t reading, phase s t = .has reading → (machine.step s (.release t)).isSome

end Libvsync.Core
