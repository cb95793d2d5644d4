import Stencil.Proofs.Outline
import Stencil.Proofs.Paths
import Stencil.Render
import Stencil.Render.Recursive

/-!
# The direct interpreter

The meaning of an outline without a compilation: there is a stack of the values of the open scopes
and a chain of the locals of the passes, and every path is read where it stands. Nothing is hoisted
and nothing is given a name.
-/

namespace Stencil

/-- The values of the open scopes, innermost first, and the locals of the passes around. -/
structure Scene where
  values : List Value
  locals : Frame

namespace Scene

def start (context : Value) : Scene := ⟨[context], Template.rootFrame context⟩

/-- The value of a path. One that names a local is read from the innermost pass that gives the
local, any other one from the scope that it climbs to. -/
def value (s : Scene) (path : String) : Value :=
  match Path.localText? path.toList with
  | some cs =>
    (s.locals.lookup (String.ofList ((Token.dotted cs).headD []))).follow
      ((Token.dotted cs).tail.map Path.wordStep)
  | none =>
    ((s.values[Path.height s.values.length path.toList]?).getD .null).follow
      ((Path.steps path.toList).map Path.wordStep)

def evaluate (s : Scene) : Spelling → Value
  | .path p => s.value p
  | .constant v => v

def enter (s : Scene) (locals : Locals) : Scene := { s with locals := s.locals.child locals }

/-- Inside one more scope. The empty path keeps the current one. -/
def within (s : Scene) (scope : String) : Scene :=
  { s with values := (if scope = "" then s.values.headD .null else s.value scope) :: s.values }

end Scene

namespace Direct

def label (helper : String) (p : Position) : String :=
  "#" ++ helper ++ " (line " ++ toString p.line ++ ")"

/-- Calls an inline helper and puts its value out. `inside` are the blocks around the call,
innermost first. -/
def call (tools : Toolbox) (inside : List String) (line : Nat) (helper : String)
    (args : List Value) (escape : Bool) : Outcome :=
  match tools.inlines.get? helper with
  | none =>
    ⟨[], some (.report (.ofMissingHelper helper tools.template (some line) inside.reverse))⟩
  | some h =>
    match h args with
    | .ok v => (Render.putOut tools v escape).after [.called helper args]
    | .error f => ⟨[.called helper args], some (.failure f)⟩

/-- What comes behind the passes of a block: `other` if there was none. -/
def ending (passes : Passes) (other : Outcome) : Outcome :=
  match passes.failure with
  | some failure => ⟨[], some (.failure failure)⟩
  | none => if passes.locals.isEmpty then other else {}

mutual

def passage (tools : Toolbox) (inside : List String) (s : Scene) : Passage → Outcome
  | .text _ v => ⟨[.text v], none⟩
  | .output _ v escape => Render.putOut tools (s.evaluate v) escape
  | .call p helper args escape =>
    call tools inside p.line helper (args.map s.evaluate) escape
  | .block p helper run scope paths body otherwise =>
    let around := label helper p :: inside
    let values := paths.map s.value
    let passes := run values
    let taken :=
      Render.takePasses (fun l => outline tools around ((s.enter l).within scope) body)
        passes.locals
    let other := branch tools around ((s.enter []).within "") otherwise
    (taken.andThen (ending passes other)).after [.entered helper values]

def outline (tools : Toolbox) (inside : List String) (s : Scene) : List Passage → Outcome
  | [] => {}
  | d :: ds => (passage tools inside s d).andThen (outline tools inside s ds)

def branch (tools : Toolbox) (inside : List String) (s : Scene) :
    Option (List Passage) → Outcome
  | none => {}
  | some ds => outline tools inside s ds

end

end Direct

end Stencil
