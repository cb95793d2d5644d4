import Stencil.Path

/-!
# Binding properties to locals

Every property that a path reads from a scope is read once per scope, into a local. A level of the
binder is an open scope with the locals bound in it. A path whose property is already in a local of
some open level uses that local; otherwise a new local is bound in the innermost level, under the
property's own name or, where that name is taken, under a numbered one.
-/

namespace Stencil

/-- A local and the property it holds: `target` is `key` read from `source`. -/
structure Binding where
  target : String
  source : Ref
  key : Segment
  deriving DecidableEq, Repr, Inhabited

/-- An open scope and the locals bound in it, in order of binding. -/
structure Level where
  scope : Ref
  bound : List Binding := []
  deriving DecidableEq, Repr, Inhabited

/-- Puts a binding into a list: in the place of the one with the same target, else at the end. -/
def Binding.put (new : Binding) : List Binding → List Binding
  | [] => [new]
  | b :: bs => if b.target = new.target then new :: bs else b :: put new bs

/-- Adds a binding to a level. -/
def Level.add (l : Level) (new : Binding) : Level := { l with bound := new.put l.bound }

/-- The open levels, innermost first, and the number of numbered names given out so far. -/
structure Binder where
  count : Nat := 0
  levels : List Level
  deriving DecidableEq, Repr, Inhabited

namespace Binder

/-- The binder at the start of a template: the render context is the only scope. -/
def initial : Binder := { levels := [⟨Ref.context, []⟩] }

/-- The open scopes, innermost first. -/
def scopes (b : Binder) : List Ref := b.levels.map Level.scope

/-- The innermost scope, or the render context where no scope is open. -/
def scope (b : Binder) : Ref := b.scopes.headD Ref.context

/-! ### Opening and closing scopes -/

/-- Opens a scope with no locals. -/
def push (b : Binder) (scope : Ref) : Binder := { b with levels := ⟨scope, []⟩ :: b.levels }

/-- Closes the innermost scope, if there is one. -/
def pop (b : Binder) : Binder := { b with levels := b.levels.tail }

/-- Changes the innermost level, if there is one. -/
def modify (b : Binder) (f : Level → Level) : Binder :=
  match b.levels with
  | [] => b
  | l :: ls => { b with levels := f l :: ls }

/-- Forgets the locals of the innermost scope. -/
def reset (b : Binder) : Binder := b.modify fun l => ⟨l.scope, []⟩

/-- Puts another scope with no locals in the place of the innermost one. -/
def replace (b : Binder) (scope : Ref) : Binder := b.modify fun _ => ⟨scope, []⟩

/-- A change of the innermost level by a binder that must have one. -/
def demand (b : Binder) (change : Binder → Binder) (failure : Failure) : Except Failure Binder :=
  if b.levels.isEmpty then .error failure else .ok (change b)

/-- Closes the innermost scope, which there must be. -/
def tryPop (b : Binder) : Except Failure Binder := b.demand pop .nothingToTake

/-- Forgets the locals of the innermost scope, which there must be. -/
def tryReset (b : Binder) : Except Failure Binder := b.demand reset .noPlace

/-! ### Names -/

/-- What stands between a name and its number. -/
def numberMark : String := "@"

/-- A numbered name derived from `name`, each number being used once. -/
def fresh (b : Binder) (name : String) : String × Binder :=
  (name ++ numberMark ++ toString (b.count + 1), { b with count := b.count + 1 })

/-- Whether a name is taken in some open level. -/
def isTaken (b : Binder) (name : String) : Bool :=
  b.levels.any fun l => l.bound.any fun e => e.target == name

/-- The local that holds a property: of the innermost level that has one, the first. -/
def holder? (b : Binder) (source : Ref) (key : Segment) : Option String :=
  b.levels.findSome? fun l =>
    (l.bound.find? fun e => e.source == source && e.key == key).map Binding.target

/-! ### Binding -/

/-- Adds a binding to the innermost level. -/
def add (b : Binder) (new : Binding) : Binder := b.modify fun l => l.add new

/-- The outcome of binding one path: the reference to use, and the binding made for it, if any. -/
structure Bound where
  ref : Ref
  made : Option Binding := none
  deriving DecidableEq, Repr, Inhabited

/-- Binds the property `name` of `base` unless some open level holds it. -/
def bindProperty (b : Binder) (base : Ref) (name : String) (key : Segment) (rest : List Segment) :
    Binder × Bound :=
  match b.holder? base key with
  | some target => (b, ⟨⟨target, rest⟩, none⟩)
  | none =>
    let identifier := Path.placeholder name
    let named := if b.isTaken identifier then b.fresh identifier else (identifier, b)
    let new : Binding := ⟨named.1, base, key⟩
    (named.2.add new, ⟨⟨named.1, rest⟩, some new⟩)

/-- Binds one path in the innermost level. -/
def bindPath (b : Binder) (path : String) : Except CompileError (Binder × Bound) :=
  match Path.resolve path b.scopes with
  | .error e => .error e
  | .ok r =>
    match r.name with
    | none => .ok (b, ⟨r.direct, none⟩)
    | some name =>
      match Path.key name with
      | .error f => .error (.failure f)
      | .ok key => .ok (b.bindProperty r.base name key r.rest)

/-- Binds paths in order. What was bound before a path that fails stays bound. -/
def bindEach (b : Binder) : List String → Binder × Except CompileError (List Bound)
  | [] => (b, .ok [])
  | p :: ps =>
    match b.bindPath p with
    | .error e => (b, .error e)
    | .ok (b', bound) =>
      let next := bindEach b' ps
      (next.1, next.2.map (bound :: ·))

/-- Binds paths in the innermost level, which there must be. -/
def bind (b : Binder) (paths : List String) : Binder × Except CompileError (List Bound) :=
  if b.levels.isEmpty then (b, .error (.failure .noItem)) else b.bindEach paths

end Binder

end Stencil
