import Stencil.Error.Fault

/-!
# Raised errors

A template error that has been raised keeps the text of its report. The text is made with the error,
and made anew whenever the error is located.
-/

namespace Stencil

/-- What an error is about, with what the errors of its class are made from. -/
inductive Complaint
  | malformed (message : String)
  | unknownHelper (helper kind : String)
  | unmatchedClose (message : String) (expected found : Option String)
  | unclosedMarker (message : String)
  deriving DecidableEq, Repr, Inhabited

namespace Complaint

def mistake : Complaint → Mistake
  | .malformed _ => .malformed
  | .unknownHelper h k => .unknownHelper h k
  | .unmatchedClose _ e f => .unmatchedClose e f
  | .unclosedMarker _ => .unclosedMarker

def message : Complaint → String
  | .unknownHelper h k => (Fault.unknownHelper h k).message
  | .malformed m | .unmatchedClose m _ _ | .unclosedMarker m => m

end Complaint

/-- Where an error is, as far as that is known. -/
structure Location where
  line : Option Int := none
  column : Option Int := none
  name : Option String := none
  source : Option String := none
  deriving DecidableEq, Repr, Inhabited

/-- What is given where an error is located: the line always, the rest as far as it is known. -/
structure Sighting where
  line : Int
  column : Option Int := none
  name : Option String := none
  source : Option String := none
  deriving DecidableEq, Repr, Inhabited

/-- A template error with the text that is kept for it. -/
structure RaisedError where
  error : TemplateError
  shown : String
  deriving DecidableEq, Repr, Inhabited

namespace RaisedError

/-- Keeps the report of an error. -/
def keep (e : TemplateError) : RaisedError := ⟨e, e.report⟩

/-- A new error. -/
def make (c : Complaint) (l : Location) : RaisedError :=
  keep ⟨c.mistake, c.message, l.line, l.column, l.name, l.source⟩

def locate (e : RaisedError) (s : Sighting) : RaisedError :=
  keep (e.error.locate s.line s.column s.name s.source)

def location (e : RaisedError) : Location :=
  ⟨e.error.line, e.error.column, e.error.name, e.error.source⟩

/-- The report on one line. It is not kept. -/
def compact (e : RaisedError) : String := e.error.compact

end RaisedError

end Stencil
