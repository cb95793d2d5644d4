import Stencil.Error.Template
import Stencil.Helper.Builtin

/-!
# Registries of helpers

A registry holds block helpers and inline helpers under names. Names are texts without blanks; what
is registered under a name replaces what was there before.
-/

namespace Stencil

/-- Block helpers and inline helpers under names. -/
structure Registry where
  blocks : Table BlockHelper := []
  inlines : Table InlineHelper := []
  deriving Inhabited

/-- Why something cannot be registered or taken out. -/
inductive RegistryFault
  | badName (name : Value)
  | notCallable (name kindName : String)
  | unknownName (name : String)

/-- A registry fault as a failure. -/
def RegistryFault.toFailure : RegistryFault → Failure
  | .badName v =>
    ⟨.value, "Helper name must be a non-empty string without whitespace, got " ++ v.inspect⟩
  | .notCallable n k => ⟨.kind, "Helper " ++ Text.quoted n ++ " must be callable, got " ++ k⟩
  | .unknownName n => ⟨.key, Text.quoted n⟩

namespace Registry

/-- The registry of the built-in helpers. -/
def builtin : Registry := ⟨Builtin.blocks, Builtin.inlines⟩

/-- The text that a name must be: not empty and without blanks. -/
def checkName (name : Value) : Except RegistryFault String :=
  match name with
  | .str s => if s = "" || s.toList.any Text.isBlank then .error (.badName name) else .ok s
  | _ => .error (.badName name)

/-- What is handed in to be registered: a helper, or a plain value, which is refused. -/
inductive Candidate (α : Type)
  | helper (h : α)
  | value (v : Value)

/-- Puts a candidate into a table under a name. -/
def enter {α : Type} (t : Table α) (name : Value) (c : Candidate α) :
    Except RegistryFault (Table α) :=
  match checkName name with
  | .error f => .error f
  | .ok n =>
    match c with
    | .helper h => .ok (t.set n h)
    | .value v => .error (.notCallable n v.kindName)

/-- Takes a name out of a table, where it must be. -/
def remove {α : Type} (t : Table α) (name : String) : Except RegistryFault (Table α) :=
  if t.has name then .ok (t.erase name) else .error (.unknownName name)

/-- Registers a block helper. -/
def registerBlock (r : Registry) (name : Value) (c : Candidate BlockHelper) :
    Except RegistryFault Registry :=
  (enter r.blocks name c).map fun t => { r with blocks := t }

/-- Registers an inline helper. -/
def registerInline (r : Registry) (name : Value) (c : Candidate InlineHelper) :
    Except RegistryFault Registry :=
  (enter r.inlines name c).map fun t => { r with inlines := t }

/-- Takes a block helper out. -/
def unregisterBlock (r : Registry) (name : String) : Except RegistryFault Registry :=
  (remove r.blocks name).map fun t => { r with blocks := t }

/-- Takes an inline helper out. -/
def unregisterInline (r : Registry) (name : String) : Except RegistryFault Registry :=
  (remove r.inlines name).map fun t => { r with inlines := t }

/-- What block helpers are called in messages. -/
def blockKind : String := "block"

/-- What inline helpers are called in messages. -/
def inlineKind : String := "inline"

/-- The block helper of a name. -/
def block (r : Registry) (name : String) : Except Fault BlockHelper :=
  match r.blocks.get? name with
  | some h => .ok h
  | none => .error (.unknownHelper name blockKind)

/-- The inline helper of a name. -/
def inline (r : Registry) (name : String) : Except Fault InlineHelper :=
  match r.inlines.get? name with
  | some h => .ok h
  | none => .error (.unknownHelper name inlineKind)

end Registry

end Stencil
