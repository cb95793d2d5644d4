/-!
# Failures

What stops a helper, a conversion or a call of the library without being the fault of a template.
-/

namespace Stencil

/-- What a failure is about: an argument that is not acceptable, an argument of the wrong kind, a
key that is not there, a place in a list that is not there, or a member that is not there. -/
inductive FailureKind
  | value
  | kind
  | key
  | place
  | member
  deriving DecidableEq, Repr, Inhabited

/-- A failure with its message. -/
structure Failure where
  about : FailureKind
  message : String
  deriving DecidableEq, Repr, Inhabited

namespace Failure

/-- The most digits that an integer may be spelled with. -/
def maxDigits : Nat := 4300

/-- The failure of an integer numeral with too many digits. -/
def tooManyDigits (count : Nat) : Failure :=
  ⟨.value, "Exceeds the limit (" ++ toString maxDigits ++
    " digits) for integer string conversion: value has " ++ toString count ++
    " digits; use sys.set_int_max_str_digits() to increase the limit"⟩

/-- The failure of reading a place that a list does not have. -/
def noItem : Failure := ⟨.place, "list index out of range"⟩

/-- The failure of filling a place that a list does not have. -/
def noPlace : Failure := ⟨.place, "list assignment index out of range"⟩

/-- The failure of taking the last item of an empty list. -/
def nothingToTake : Failure := ⟨.place, "pop from empty list"⟩

/-- The failure of asking for a frame where there is none; `asked` is what it was asked to do. -/
def noFrame (asked : String) : Failure :=
  ⟨.member, "'NoneType' object has no attribute '" ++ asked ++ "'"⟩

/-- The argument name that every call has taken already. -/
def takenName : String := "self"

/-- The failure of a call that is given the argument of the taken name. -/
def nameTaken (called : String) : Failure :=
  ⟨.kind, called ++ "() got multiple values for argument '" ++ takenName ++ "'"⟩

end Failure

end Stencil
