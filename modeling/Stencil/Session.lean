import Stencil.Compile
import Stencil.Helper.Gallery
import Stencil.Render

/-!
# Sessions

A session works with several environments side by side. Environments may share a registry, and a
template keeps to the registry it was compiled with, so registries are kept once and referred to by
number. A step either succeeds or leaves the session as it was.
-/

namespace Stencil

/-- What a step of a session can be stopped by. -/
inductive SessionError
  | template (e : TemplateError)
  | render (r : RenderReport)
  | failure (f : Failure)
  deriving DecidableEq, Repr, Inhabited

namespace SessionError

/-- What stops a compilation, as what stops a step. -/
def ofCompile : CompileError → SessionError
  | .mistake e => .template e
  | .failure f => .failure f

/-- What stops a render, as what stops a step. -/
def ofRender : RenderError → SessionError
  | .report r => .render r
  | .failure f => .failure f

end SessionError

/-- An environment of a session: the number of its registry, and its configuration. -/
structure Environment where
  registry : Nat
  config : Config
  deriving DecidableEq, Repr, Inhabited

/-- A template and the number of the registry it was compiled with. -/
structure Compiled where
  template : Template
  registry : Nat
  deriving Inhabited

/-- The state of a session. -/
structure Session where
  registries : List Registry := []
  environments : Table Environment := []
  templates : Table Compiled := []
  /-- Registries as they were when they were looked at. -/
  views : Table Registry := []
  deriving Inhabited

/-- Where a new environment takes its helpers from. -/
inductive HelperSource
  | builtin
  | empty
  | share (id : String)
  | copy (id : String)
  deriving DecidableEq, Repr, Inhabited

/-- Options for a change of configuration: a map of them or a single one. The value may be
missing, and may be given where it does not belong. -/
inductive Options
  | many (options : List (String × Value)) (extra : Option Value)
  | one (name : String) (value : Option Value)
  deriving Inhabited

/-- How a template is called: plainly, or with named arguments. -/
inductive Call
  | plain (args : List Value)
  | named (args : List Value) (names : Locals)
  deriving Inhabited

/-- A step of a session. -/
inductive Step
  | create (id : String) (options : List (String × Value)) (helpers : HelperSource)
  | configure (env : String) (options : Options)
  | defaults (options : List (String × Value))
  | settings (env : String)
  | compile (env id source : String) (name : Option String)
  | render (template : String) (call : Call)
  | listing (template : String)
  | registerInline (env : String) (name : Value) (c : Registry.Candidate InlineHelper)
  | registerBlock (env : String) (name : Value) (c : Registry.Candidate BlockHelper)
  | unregisterInline (env name : String)
  | unregisterBlock (env name : String)
  | names (env : String)
  | has (env name : String)
  | lookupBlock (env name : String)
  | lookupInline (env name : String)
  | keepView (env id : String)
  | viewNames (id : String)

/-- What a step answers. -/
inductive Answer
  | described (s : String)
  | config (c : Config)
  | settings (c : Config) (s : String)
  | compiled (description source : String)
  | rendered (s : String)
  | listing (s : String)
  | names (blocks inlines : List String)
  | present (block inline : Bool)
  | found
  deriving DecidableEq, Repr, Inhabited

namespace Session

/-- How an environment shows itself. -/
def describe (r : Registry) (c : Config) : String :=
  "<Environment " ++ c.startTag ++ " " ++ c.endTag ++ " block=" ++ toString r.blocks.length ++
    " inline=" ++ toString r.inlines.length ++ ">"

/-- A name that the session does not know. -/
def unknown (id : String) : SessionError := .failure (RegistryFault.unknownName id).toFailure

/-- The environment of a name. -/
def environment (s : Session) (id : String) : Except SessionError Environment :=
  match s.environments.get? id with
  | some e => .ok e
  | none => .error (unknown id)

/-- The registry of a number. -/
def registry (s : Session) (n : Nat) : Registry := s.registries.getD n {}

/-- The template of a name. -/
def compiled (s : Session) (id : String) : Except SessionError Compiled :=
  match s.templates.get? id with
  | some c => .ok c
  | none => .error (unknown id)

/-- The answer that lists the names of a registry. -/
def namesOf (r : Registry) : Answer := .names r.blocks.sortedNames r.inlines.sortedNames

/-- The number of the registry for a new environment, in a session that has it. -/
def provide (s : Session) : HelperSource → Except SessionError (Session × Nat)
  | .builtin => .ok ({ s with registries := s.registries ++ [.builtin] }, s.registries.length)
  | .empty => .ok ({ s with registries := s.registries ++ [{}] }, s.registries.length)
  | .share id => (s.environment id).map fun e => (s, e.registry)
  | .copy id =>
    (s.environment id).map fun e =>
      ({ s with registries := s.registries ++ [s.registry e.registry] }, s.registries.length)

/-- The configuration that options lead to. -/
def configured (c : Config) : Options → Except ConfigFault Config
  | .many options none => c.updated options
  | .many _ (some _) => .error .mappingAndValue
  | .one name none => .error (.missingValue name)
  | .one name (some v) => c.updated [(name, v)]

/-- The context that a call passes. -/
def contextOf : Call → Except Failure Value
  | .plain args => Template.callContext args
  | .named args names => Template.renderContext args names

/-- Lifts a failure of the configuration. -/
def ofConfig {α : Type} (r : Except ConfigFault α) : Except SessionError α :=
  r.mapError fun f => .failure f.toFailure

/-- Lifts a failure of a registry. -/
def ofRegistry {α : Type} (r : Except RegistryFault α) : Except SessionError α :=
  r.mapError fun f => .failure f.toFailure

/-- Changes the registry of an environment and answers with its names. -/
def changeRegistry (s : Session) (env : String)
    (f : Registry → Except RegistryFault Registry) : Except SessionError (Session × Answer) := do
  let e ← s.environment env
  let r ← ofRegistry (f (s.registry e.registry))
  return ({ s with registries := s.registries.set e.registry r }, namesOf r)

/-- Does a step, if it succeeds. -/
def attempt (s : Session) : Step → Except SessionError (Session × Answer)
  | .create id options helpers => do
    let (s, n) ← s.provide helpers
    let c ← ofConfig (Config.initial options)
    return ({ s with environments := s.environments.set id ⟨n, c⟩ },
      .described (describe (s.registry n) c))
  | .configure env options => do
    let e ← s.environment env
    let c ← ofConfig (configured e.config options)
    return ({ s with environments := s.environments.set env { e with config := c } }, .config c)
  | .defaults options => do
    let c ← ofConfig (Config.ofOptions options)
    return (s, .config c)
  | .settings env => do
    let e ← s.environment env
    return (s, .settings e.config (describe (s.registry e.registry) e.config))
  | .compile env id source name => do
    let e ← s.environment env
    let t ← (Workshop.compile ⟨s.registry e.registry, e.config⟩ source name).mapError .ofCompile
    return ({ s with templates := s.templates.set id ⟨t, e.registry⟩ },
      .compiled t.describe t.source)
  | .render id call => do
    let c ← s.compiled id
    let context ← (contextOf call).mapError .failure
    let out ← (c.template.render (s.registry c.registry).inlines context).mapError .ofRender
    return (s, .rendered out)
  | .listing id => do
    let c ← s.compiled id
    return (s, .listing c.template.listing)
  | .registerInline env name c => s.changeRegistry env fun r => r.registerInline name c
  | .registerBlock env name c => s.changeRegistry env fun r => r.registerBlock name c
  | .unregisterInline env name => s.changeRegistry env fun r => r.unregisterInline name
  | .unregisterBlock env name => s.changeRegistry env fun r => r.unregisterBlock name
  | .names env => do
    let e ← s.environment env
    return (s, namesOf (s.registry e.registry))
  | .has env name => do
    let e ← s.environment env
    let r := s.registry e.registry
    return (s, .present (r.blocks.has name) (r.inlines.has name))
  | .lookupBlock env name => do
    let e ← s.environment env
    let _ ← ((s.registry e.registry).block name).mapError fun f => .template f.toError
    return (s, .found)
  | .lookupInline env name => do
    let e ← s.environment env
    let _ ← ((s.registry e.registry).inline name).mapError fun f => .template f.toError
    return (s, .found)
  | .keepView env id => do
    let e ← s.environment env
    let r := s.registry e.registry
    return ({ s with views := s.views.set id r }, namesOf r)
  | .viewNames id =>
    match s.views.get? id with
    | some r => .ok (s, namesOf r)
    | none => .error (unknown id)

/-- Does a step. One that fails leaves the session as it was. -/
def step (s : Session) (st : Step) : Session × Except SessionError Answer :=
  match s.attempt st with
  | .ok (s, a) => (s, .ok a)
  | .error e => (s, .error e)

/-- Does steps in order. -/
def run (s : Session) : List Step → List (Except SessionError Answer)
  | [] => []
  | st :: sts => (s.step st).2 :: run (s.step st).1 sts

end Session

end Stencil
