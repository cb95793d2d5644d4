import Stencil.Error.Template
import Stencil.Text.Quoted

/-!
# Faults

The causes of template errors, each with its wording.
-/

namespace Stencil

/-- A cause of a template error. -/
inductive Fault
  | emptyMarker
  | noBlockName
  | unclosedMarker (startTag endTag : String)
  | climbsTooFar (path : String) (climbs : Nat) (enclosing : Int)
  | hiddenLocal (name path : String)
  | invalidPath (path : String)
  | invalidVariable (token : String)
  | invalidArgument (token helper : String)
  | unknownHelper (helper kind : String)
  | reservedScope (helper scope : String)
  | branchOutside (helper : String)
  | secondBranch (opened helper : String)
  | closeWithoutOpen (helper : String)
  | closeMismatch (helper opened : String) (line : Nat)
  | unclosedBlock (helper : String)
  | noCondition
  | noOperand (args : List String)
  | invalidOperand (token : String)
  | noRightOperand (comparison : String)
  | noConnective (token : String)
  | argumentCount (helper : String) (count : Nat)
  | branchArguments (helper : String)
  | other (message : String)
  deriving DecidableEq, Repr, Inhabited

namespace Fault

open Text (quoted)

/-- The wording of a fault. -/
def message : Fault → String
  | .emptyMarker => "Empty marker"
  | .noBlockName => "Block marker without a helper name"
  | .unclosedMarker s e => "Missing " ++ quoted e ++ " for marker opened with " ++ quoted s
  | .climbsTooFar p n k =>
    "Path " ++ quoted p ++ " climbs " ++ toString n ++ " scope(s) but only " ++ toString k ++
      " enclose it"
  | .hiddenLocal n p =>
    "Helper local " ++ quoted n ++ " cannot be reached through " ++ quoted p ++
      "; use '../this' for an enclosing loop value"
  | .invalidPath p => "Invalid path " ++ quoted p
  | .invalidVariable t => "Invalid variable path " ++ quoted t
  | .invalidArgument t h => "Invalid argument " ++ quoted t ++ " to inline helper " ++ quoted h
  | .unknownHelper h k => "No " ++ k ++ " helper named '" ++ h ++ "'"
  | .reservedScope h s => "Block helper " ++ quoted h ++ " cannot open scope " ++ quoted s
  | .branchOutside h => "'" ++ h ++ "' outside of a block"
  | .secondBranch o h => "Block '" ++ o ++ "' already has an '" ++ h ++ "' branch"
  | .closeWithoutOpen h => "Close marker '/" ++ h ++ "' without an open block"
  | .closeMismatch h o l =>
    "Close marker '/" ++ h ++ "' does not match open block '" ++ o ++ "' (line " ++ toString l ++
      ")"
  | .unclosedBlock h => "Unclosed block '" ++ h ++ "'"
  | .noCondition => "if requires a condition"
  | .noOperand args => "Expected operand in if condition: " ++ quoted (Text.join " " args)
  | .invalidOperand t => "Invalid operand " ++ quoted t ++ " in if condition"
  | .noRightOperand c => "Missing right operand after " ++ quoted c ++ " in if condition"
  | .noConnective t => "Unexpected " ++ quoted t ++ " in if condition; expected && or ||"
  | .argumentCount h n => h ++ " expects exactly one argument, got " ++ toString n
  | .branchArguments h => h ++ " takes no arguments"
  | .other m => m

/-- The kind of mistake a fault is. -/
def mistake : Fault → Mistake
  | .unclosedMarker _ _ => .unclosedMarker
  | .unknownHelper h k => .unknownHelper h k
  | .closeWithoutOpen h => .unmatchedClose none (some h)
  | .closeMismatch h o _ => .unmatchedClose (some o) (some h)
  | .unclosedBlock h => .unmatchedClose (some h) none
  | _ => .malformed

/-- The template error of a fault, with no place yet. -/
def toError (f : Fault) : TemplateError := { mistake := f.mistake, message := f.message }

/-- A fault as what stops a compilation. -/
def stop (f : Fault) : CompileError := .mistake f.toError

end Fault

end Stencil
