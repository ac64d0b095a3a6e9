import Mathlib.Init

/-!
# Rome.Core.Status — error statuses

A status is a code and a message; a fallible call returns either an error status
or its value.
-/

namespace Absl

/-- `absl::StatusCode` without `kOk`. -/
inductive StatusCode where
  | cancelled
  | unknown
  | invalidArgument
  | deadlineExceeded
  | notFound
  | alreadyExists
  | permissionDenied
  | resourceExhausted
  | failedPrecondition
  | aborted
  | outOfRange
  | unimplemented
  | internal
  | unavailable
  | dataLoss
  | unauthenticated
deriving DecidableEq, Repr

structure Status where
  code : StatusCode
  message : String
deriving DecidableEq, Repr

abbrev StatusOr (α : Type) := Except Status α

def failedPreconditionError (message : String) : Status := ⟨.failedPrecondition, message⟩

def notFoundError (message : String) : Status := ⟨.notFound, message⟩

def alreadyExistsError (message : String) : Status := ⟨.alreadyExists, message⟩

def internalError (message : String) : Status := ⟨.internal, message⟩

def outOfRangeError (message : String) : Status := ⟨.outOfRange, message⟩

def unavailableError (message : String) : Status := ⟨.unavailable, message⟩

end Absl
