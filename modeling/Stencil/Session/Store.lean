import Stencil.Session

/-!
# Sessions over shared tables

A session that knows its tables by their addresses. A registry refers to a table of block helpers
and to one of inline helpers; a kept view refers to the tables that its registry referred to at that
moment, and tables are changed where they stand. What a registration or a removal changes is a copy
of a table, which then takes the place of the table in the registry.
-/

namespace Stencil

/-- Tables by their addresses. -/
abbrev Shelf (α : Type) := List (Table α)

namespace Shelf

variable {α : Type}

/-- The table at an address. -/
def read (s : Shelf α) (i : Nat) : Table α := s.getD i []

/-- The shelf with a copy of a table, which has the next address. -/
def copy (s : Shelf α) (i : Nat) : Shelf α := s ++ [s.read i]

/-- Changes a table where it stands. -/
def change (s : Shelf α) (i : Nat) (f : Table α → Table α) : Shelf α := s.modify i f

/-- Registers a candidate in a copy of a table, and gives the address of the copy. What cannot be
registered is refused before anything is copied. -/
def enter (s : Shelf α) (i : Nat) (name : Value) (c : Registry.Candidate α) :
    Shelf α × Except RegistryFault Nat :=
  match Registry.checkName name with
  | .error f => (s, .error f)
  | .ok n =>
    match c with
    | .helper h => ((s.copy i).change s.length fun t => t.set n h, .ok s.length)
    | .value v => (s, .error (.notCallable n v.kindName))

/-- Takes a name out of a copy of a table, and gives the address of the copy. Where the name is
missing the copy stays behind. -/
def remove (s : Shelf α) (i : Nat) (name : String) : Shelf α × Except RegistryFault Nat :=
  let copied := s.copy i
  if (copied.read s.length).has name then
    (copied.change s.length fun t => t.erase name, .ok s.length)
  else (copied, .error (.unknownName name))

end Shelf

/-- The addresses of the tables of a registry. -/
structure Tables where
  blocks : Nat
  inlines : Nat
  deriving DecidableEq, Repr, Inhabited

/-- The state of a session over shared tables. -/
structure Store where
  blocks : Shelf BlockHelper := []
  inlines : Shelf InlineHelper := []
  registries : List Tables := []
  environments : Table Environment := []
  templates : Table Compiled := []
  views : Table Tables := []
  deriving Inhabited

namespace Store

/-! ### Reading -/

/-- The registry whose tables have the given addresses. -/
def registryAt (s : Store) (t : Tables) : Registry :=
  ⟨s.blocks.read t.blocks, s.inlines.read t.inlines⟩

/-- The addresses of the tables of a registry. -/
def tables (s : Store) (n : Nat) : Tables := s.registries.getD n ⟨0, 0⟩

/-- The session that a store shows: every address stands for what its table has. -/
def read (s : Store) : Session where
  registries := s.registries.map s.registryAt
  environments := s.environments
  templates := s.templates
  views := s.views.map fun v => (v.1, s.registryAt v.2)

/-! ### Changing tables -/

/-- Lets a registry refer to another table of block helpers, if `change` gives one. -/
def changeBlocks (s : Store) (n : Nat)
    (change : Shelf BlockHelper → Nat → Shelf BlockHelper × Except RegistryFault Nat) :
    Store × Except RegistryFault Unit :=
  let changed := change s.blocks (s.tables n).blocks
  match changed.2 with
  | .error f => ({ s with blocks := changed.1 }, .error f)
  | .ok i =>
    ({ s with
      blocks := changed.1
      registries := s.registries.set n { s.tables n with blocks := i } }, .ok ())

/-- Lets a registry refer to another table of inline helpers, if `change` gives one. -/
def changeInlines (s : Store) (n : Nat)
    (change : Shelf InlineHelper → Nat → Shelf InlineHelper × Except RegistryFault Nat) :
    Store × Except RegistryFault Unit :=
  let changed := change s.inlines (s.tables n).inlines
  match changed.2 with
  | .error f => ({ s with inlines := changed.1 }, .error f)
  | .ok i =>
    ({ s with
      inlines := changed.1
      registries := s.registries.set n { s.tables n with inlines := i } }, .ok ())

def registerBlock (s : Store) (n : Nat) (name : Value) (c : Registry.Candidate BlockHelper) :
    Store × Except RegistryFault Unit := s.changeBlocks n fun b i => b.enter i name c

def registerInline (s : Store) (n : Nat) (name : Value) (c : Registry.Candidate InlineHelper) :
    Store × Except RegistryFault Unit := s.changeInlines n fun b i => b.enter i name c

def unregisterBlock (s : Store) (n : Nat) (name : String) : Store × Except RegistryFault Unit :=
  s.changeBlocks n fun b i => b.remove i name

def unregisterInline (s : Store) (n : Nat) (name : String) : Store × Except RegistryFault Unit :=
  s.changeInlines n fun b i => b.remove i name

/-! ### New registries -/

/-- A new registry, with two new tables. -/
def make (s : Store) : Store :=
  { s with
    blocks := s.blocks ++ [[]]
    inlines := s.inlines ++ [[]]
    registries := s.registries ++ [⟨s.blocks.length, s.inlines.length⟩] }

/-- Registers the built-in helpers one by one. -/
def fill (s : Store) (n : Nat) : Store :=
  let filled := Builtin.blocks.foldl
    (fun s e => (s.registerBlock n (.str e.1) (.helper e.2)).1) s
  Builtin.inlines.foldl (fun s e => (s.registerInline n (.str e.1) (.helper e.2)).1) filled

/-- Lets a registry refer to copies of the tables of another one. -/
def copyInto (s : Store) (n m : Nat) : Store :=
  { s with
    blocks := s.blocks.copy (s.tables m).blocks
    inlines := s.inlines.copy (s.tables m).inlines
    registries := s.registries.set n ⟨s.blocks.length, s.inlines.length⟩ }

/-- The number of the registry for a new environment, in a store that has it. -/
def provide (s : Store) : HelperSource → Except SessionError (Store × Nat)
  | .builtin => .ok (s.make.fill s.registries.length, s.registries.length)
  | .empty => .ok (s.make, s.registries.length)
  | .share id => (s.read.environment id).map fun e => (s, e.registry)
  | .copy id =>
    (s.read.environment id).map fun e =>
      (s.make.copyInto s.registries.length e.registry, s.registries.length)

/-! ### Steps -/

/-- Makes an environment. A registry that was made for one which then fails is lost: its tables stay
behind, and nothing refers to them. -/
def create (s : Store) (id : String) (options : List (String × Value)) (helpers : HelperSource) :
    Store × Except SessionError Answer :=
  match s.provide helpers with
  | .error e => (s, .error e)
  | .ok (s', n) =>
    match Session.ofConfig (Config.initial options) with
    | .error e => ({ s' with registries := s.registries }, .error e)
    | .ok c =>
      ({ s' with environments := s'.environments.set id ⟨n, c⟩ },
        .ok (.described (Session.describe (s'.registryAt (s'.tables n)) c)))

/-- Changes the registry of an environment and answers with its names. -/
def changeRegistry (s : Store) (env : String)
    (change : Nat → Store × Except RegistryFault Unit) : Store × Except SessionError Answer :=
  match s.read.environment env with
  | .error e => (s, .error e)
  | .ok e =>
    let changed := change e.registry
    match Session.ofRegistry changed.2 with
    | .error f => (changed.1, .error f)
    | .ok () =>
      (changed.1, .ok (Session.namesOf (changed.1.registryAt (changed.1.tables e.registry))))

/-- Keeps the tables of the registry of an environment in view. -/
def keepView (s : Store) (env id : String) : Store × Except SessionError Answer :=
  match s.read.environment env with
  | .error e => (s, .error e)
  | .ok e =>
    ({ s with views := s.views.set id (s.tables e.registry) },
      .ok (Session.namesOf (s.registryAt (s.tables e.registry))))

/-- A step that only reads tables does what it does in the session that the store shows. -/
def follow (s : Store) (st : Step) : Store × Except SessionError Answer :=
  match s.read.attempt st with
  | .error e => (s, .error e)
  | .ok (t, a) => ({ s with environments := t.environments, templates := t.templates }, .ok a)

/-- Does a step. -/
def step (s : Store) : Step → Store × Except SessionError Answer
  | .create id options helpers => s.create id options helpers
  | .registerInline env name c => s.changeRegistry env fun n => s.registerInline n name c
  | .registerBlock env name c => s.changeRegistry env fun n => s.registerBlock n name c
  | .unregisterInline env name => s.changeRegistry env fun n => s.unregisterInline n name
  | .unregisterBlock env name => s.changeRegistry env fun n => s.unregisterBlock n name
  | .keepView env id => s.keepView env id
  | st => s.follow st

/-- The state after steps. -/
def after (s : Store) (sts : List Step) : Store := sts.foldl (fun s st => (s.step st).1) s

/-- Does steps in order. -/
def run (s : Store) : List Step → List (Except SessionError Answer)
  | [] => []
  | st :: sts => (s.step st).2 :: run (s.step st).1 sts

end Store

end Stencil
