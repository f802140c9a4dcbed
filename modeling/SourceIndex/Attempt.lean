/-! Computations that may end early. An error goes to whoever can handle it. An overflow is handled
by nobody and ends the run. In either case what was done before stays done. -/

namespace SourceIndex

/-- The sums that may not fit: ids have 64 bits, all the others 32. -/
inductive Overflow where
  | id | localNumber | keyNumber | ownerDepth | referenceEnd
  deriving DecidableEq

inductive Fault (ε : Type) where
  | error (e : ε)
  | overflow (o : Overflow)

abbrev Attempt (S ε α : Type) := EStateM (Fault ε) S α

def bound32 : Nat := 4294967296

def bound64 : Nat := 18446744073709551616

namespace Attempt

variable {S T ε ε' α : Type}

def fail (e : ε) : Attempt S ε α := throw (.error e)

def overflow (o : Overflow) : Attempt S ε α := throw (.overflow o)

def sure (x : StateM S α) : Attempt S ε α := fun s => .ok (x.run s).1 (x.run s).2

/-- Works on a part of the state. -/
def within (get : T → S) (put : S → T → T) (x : Attempt S ε α) : Attempt T ε α := fun t =>
  match x (get t) with
  | .ok a s => .ok a (put s t)
  | .error fault s => .error fault (put s t)

def mapError (f : ε → ε') (x : Attempt S ε α) : Attempt S ε' α := fun s =>
  match x s with
  | .ok a s => .ok a s
  | .error (.error e) s => .error (.error (f e)) s
  | .error (.overflow o) s => .error (.overflow o) s

def caught (x : Attempt S ε α) : Attempt S ε' (Except ε α) := fun s =>
  match x s with
  | .ok a s => .ok (.ok a) s
  | .error (.error e) s => .ok (.error e) s
  | .error (.overflow o) s => .error (.overflow o) s

end Attempt

end SourceIndex
