import PackageCoupling.Fault

/-!
Cancellation tokens.

A token made afresh starts a *family*; copies of it belong to the same family. Cancelling one token
cancels its family. A token may carry a deadline, which its copies share. Time is told by a clock
that is never set back.
-/

namespace PackageCoupling

/-- Instants are counted in nanoseconds since the clock was started. -/
def Instant.perSecond : Nat := 1000000000

/-- The seconds of an instant have 63 bits; from here on instants cannot be expressed. -/
def Instant.limit : Nat := Nat.pow 2 63 * perSecond

/-- When a token fires by itself: never, or some nanoseconds after it is made. -/
inductive Deadline where
  | never
  | after (time : Nat)
  deriving DecidableEq, Repr

/-- Some whole seconds after it is made. -/
def Deadline.afterSeconds (seconds : Nat) : Deadline := .after (seconds * Instant.perSecond)

/-- The instant at which a token made at `now` fires by itself. -/
def Deadline.instant? (now : Nat) : Deadline → Option Nat
  | .never => none
  | .after time => some (now + time)

/-- Whether that instant can be expressed. -/
def Deadline.fits (now : Nat) (d : Deadline) : Bool := (d.instant? now).all (· < Instant.limit)

structure CancelToken where
  family : Nat
  deadline : Option Nat
  deriving DecidableEq, Repr

/-- All tokens made so far, the families that have been cancelled, and the time on the clock. -/
structure Cancellation where
  now : Nat
  tokens : List CancelToken
  cancelled : List Nat
  deriving DecidableEq, Repr

namespace Cancellation

def initial (now : Nat) : Cancellation := ⟨now, [], []⟩

/-- A new family, named by its place in the list of tokens. A deadline that cannot be expressed
breaks off the program. -/
def create (c : Cancellation) (deadline : Deadline) : Option Cancellation :=
  if deadline.fits c.now then
    some { c with tokens := c.tokens ++ [⟨c.tokens.length, deadline.instant? c.now⟩] }
  else none

/-- A copy of the token at `index`. -/
def clone (c : Cancellation) (index : Nat) : Option Cancellation :=
  c.tokens[index]?.map fun t => { c with tokens := c.tokens ++ [t] }

def cancel (c : Cancellation) (index : Nat) : Option Cancellation :=
  c.tokens[index]?.map fun t => { c with cancelled := t.family :: c.cancelled }

/-- Lets some time pass. -/
def wait (c : Cancellation) (time : Nat) : Cancellation := { c with now := c.now + time }

/-- Whether a token has fired. -/
def fired (c : Cancellation) (t : CancelToken) : Bool :=
  c.cancelled.contains t.family || t.deadline.any (· ≤ c.now)

def check (c : Cancellation) (t : CancelToken) : Except Fault Unit :=
  if c.fired t then .error .canceled else .ok ()

/-- What can happen to tokens. A token is known by its place in the order in which they are made. -/
inductive Step where
  | create (deadline : Deadline)
  | clone (index : Nat)
  | cancel (index : Nat)
  | wait (time : Nat)
  deriving DecidableEq, Repr

def step (c : Cancellation) : Step → Option Cancellation
  | .create deadline => c.create deadline
  | .clone index => c.clone index
  | .cancel index => c.cancel index
  | .wait time => some (c.wait time)

/-- Where some steps lead from the instant `start` on, if they can all be taken. -/
def after (start : Nat) (steps : List Step) : Option Cancellation :=
  steps.foldlM step (initial start)

end Cancellation

end PackageCoupling
