import Stencil.Error.Failure
import Stencil.Table
import Stencil.Value.Text

/-!
# Configuration

The settings a template is compiled with. Options come as values under names, in one of two
spellings; a configuration is changed as a whole or not at all.
-/

namespace Stencil

/-- The settings of a compilation. -/
structure Config where
  /-- Whether output goes through the escape helper unless its marker says otherwise. -/
  escapeHtml : Bool := true
  /-- What a marker starts with. -/
  startTag : String := "\x7b\x7b"
  /-- What a marker ends with. -/
  endTag : String := "\x7d\x7d"
  /-- What the body of a block marker starts with. -/
  blockFlag : String := "#"
  /-- The name of the output in listings. -/
  resultName : String := "$html"
  deriving DecidableEq, Repr, Inhabited

/-- An option of the configuration. -/
inductive Setting
  | escapeHtml
  | startTag
  | endTag
  | blockFlag
  | resultName
  deriving DecidableEq, Repr, Inhabited

namespace Setting

/-- The name of an option. -/
def name : Setting → String
  | .escapeHtml => "escape_html"
  | .startTag => "start_tag"
  | .endTag => "end_tag"
  | .blockFlag => "block_helper_flag"
  | .resultName => "result_var_name"

/-- The other spelling of an option's name. -/
def otherName : Setting → String
  | .escapeHtml => "escapeHtml"
  | .startTag => "startTag"
  | .endTag => "endTag"
  | .blockFlag => "blockHelperFlag"
  | .resultName => "resultVarName"

/-- All options. -/
def all : List Setting := [.escapeHtml, .startTag, .endTag, .blockFlag, .resultName]

/-- The option of a name in its first spelling. -/
def ofName? (s : String) : Option Setting := all.find? fun o => o.name == s

/-- The option of a name in either spelling. -/
def ofEither? (s : String) : Option Setting := all.find? fun o => o.name == s || o.otherName == s

end Setting

/-- Why options are refused. -/
inductive ConfigFault
  | unknownOption (name : String)
  | unexpectedOption (name : String)
  | nameTaken (called : String)
  | notText (option : Setting) (v : Value)
  | notBoolean (v : Value)
  | mappingAndValue
  | missingValue (name : String)

/-- A configuration fault as a failure. -/
def ConfigFault.toFailure : ConfigFault → Failure
  | .unknownOption n => ⟨.value, "Unknown config option " ++ Text.quoted n⟩
  | .unexpectedOption n =>
    ⟨.kind, "Config.__init__() got an unexpected keyword argument " ++ Text.quoted n⟩
  | .nameTaken called => .nameTaken called
  | .notText o v =>
    ⟨.value, "Config option " ++ Text.quoted o.name ++ " must be a non-empty string, got " ++
      v.inspect⟩
  | .notBoolean v => ⟨.value, "Config option 'escape_html' must be a bool, got " ++ v.inspect⟩
  | .mappingAndValue => ⟨.kind, "config() takes a mapping or a key and a value, not both"⟩
  | .missingValue n => ⟨.kind, "config() missing value for option " ++ Text.quoted n⟩

namespace Config

/-- The value of an option in a configuration. -/
def value (c : Config) : Setting → Value
  | .escapeHtml => .bool c.escapeHtml
  | .startTag => .str c.startTag
  | .endTag => .str c.endTag
  | .blockFlag => .str c.blockFlag
  | .resultName => .str c.resultName

/-- The new value of an option: the last one given, else the one it has. -/
def chosen (c : Config) (changes : List (Setting × Value)) (o : Setting) : Value :=
  match changes.reverse.find? fun e => e.1 == o with
  | some e => e.2
  | none => c.value o

/-- The text that an option's value must be: any but the empty one. -/
def checkText (o : Setting) (v : Value) : Except ConfigFault String :=
  match v with
  | .str s => if s = "" then .error (.notText o v) else .ok s
  | _ => .error (.notText o v)

/-- The boolean that an option's value must be. -/
def checkBoolean (v : Value) : Except ConfigFault Bool :=
  match v with
  | .bool b => .ok b
  | _ => .error (.notBoolean v)

/-- The configuration with changed options, each checked. -/
def change (c : Config) (changes : List (Setting × Value)) : Except ConfigFault Config := do
  let startTag ← checkText .startTag (c.chosen changes .startTag)
  let endTag ← checkText .endTag (c.chosen changes .endTag)
  let blockFlag ← checkText .blockFlag (c.chosen changes .blockFlag)
  let resultName ← checkText .resultName (c.chosen changes .resultName)
  let escapeHtml ← checkBoolean (c.chosen changes .escapeHtml)
  return { escapeHtml, startTag, endTag, blockFlag, resultName }

/-- Reads the names of options. The first name that `read` does not know is refused. -/
def named (read : String → Option Setting) (refuse : String → ConfigFault) :
    List (String × Value) → Except ConfigFault (List (Setting × Value))
  | [] => .ok []
  | (n, v) :: options =>
    match read n with
    | some o => (named read refuse options).map ((o, v) :: ·)
    | none => .error (refuse n)

/-- The configuration with options in either spelling applied. -/
def updated (c : Config) (options : List (String × Value)) : Except ConfigFault Config :=
  match named Setting.ofEither? .unknownOption options with
  | .error f => .error f
  | .ok changes => c.change changes

/-- The configuration that a new environment has, with options in either spelling. -/
def initial (options : List (String × Value)) : Except ConfigFault Config :=
  if options.any fun o => o.1 == Failure.takenName then .error (.nameTaken "Environment.__init__")
  else ({} : Config).updated options

/-- Why a name that is no option's first spelling is refused. -/
def refuse (name : String) : ConfigFault :=
  if name = Failure.takenName then .nameTaken "Config.__init__" else .unexpectedOption name

/-- The default configuration with options in their first spelling applied. -/
def ofOptions (options : List (String × Value)) : Except ConfigFault Config :=
  match named Setting.ofName? refuse options with
  | .error f => .error f
  | .ok changes => ({} : Config).change changes

end Config

end Stencil
