import WebFonts.Injection.Order

/-!
# Arguments

The command line: the stylesheet to transform, and options on where the faces come from and where
the result goes. It may also ask for a text about the command, and is then read no further.
-/

namespace WebFonts.Command

/-- What is wrong with a command line. -/
inductive UsageError where
  | unknownOption (argument : String)
  | missingValue (option : String)
  | unexpectedValue (option : String)
  | emptyValue
  | repeated (option : String)
  | unknownOrder (order : String)
  | extraArgument (argument : String)
  | missingInput
  | mapWithoutOutput
  deriving DecidableEq, Repr

/-- A text about the command. -/
inductive Topic where
  | help
  | version
  deriving DecidableEq, Repr

/-- The long name of the option that asks for a text. -/
def Topic.name : Topic → String
  | help => "--help"
  | version => "--version"

/-- The text that is asked for. -/
def Topic.text : Topic → String
  | help =>
    "Inject @font-face rules for the font families a stylesheet uses\n\n" ++
    "Usage: fontinject [OPTIONS] <INPUT>\n\n" ++
    "Arguments:\n" ++
    "  <INPUT>  Stylesheet to transform\n\n" ++
    "Options:\n" ++
    "  -c, --config <CONFIG>  JSON file mapping family names to font faces\n" ++
    "  -o, --output <OUTPUT>  Where to write the result (stdout when omitted)\n" ++
    "      --source-map       Also write `<output>.map`\n" ++
    "      --order <ORDER>    Injection order, overriding the config file\n" ++
    "  -h, --help             Print help\n" ++
    "  -V, --version          Print version\n"
  | version => "fontinject 0.1.0\n"

/-- Why a command line makes up no command: there is a mistake in it, or it asks for a text. -/
inductive Halt where
  | mistake (error : UsageError)
  | topic (topic : Topic)
  deriving DecidableEq, Repr

/-- Arguments as far as they were read. -/
structure Draft where
  input : Option String
  config : Option String
  output : Option String
  sourceMap : Bool
  order : Option Order
  deriving DecidableEq, Repr

/-- No arguments. -/
def Draft.empty : Draft := ⟨none, none, none, false, none⟩

/-- Arguments that make up a whole command. -/
structure Arguments where
  input : String
  config : Option String
  output : Option String
  sourceMap : Bool
  order : Option Order
  deriving DecidableEq, Repr

/-- An option that takes a value. -/
inductive Setting where
  | config
  | output
  | order
  deriving DecidableEq, Repr

/-- The long name of an option. -/
def Setting.name : Setting → String
  | config => "--config"
  | output => "--output"
  | order => "--order"

/-- What one argument is. -/
inductive Kind where
  | positional
  /-- All that follows is positional. -/
  | escape
  | sourceMap
  | topic (topic : Topic)
  /-- An option, with its value if that is part of the argument. -/
  | setting (setting : Setting) (value : Option String)
  | invalid (error : UsageError)
  deriving DecidableEq, Repr

/-- The value of a short option that stands in the same argument; an equals sign may stand in
front of it. -/
def attachedValue : List Char → Option String
  | [] => none
  | '=' :: value => some (String.ofList value)
  | value => some (String.ofList value)

/-- An option that takes no value, and the value that is given to it all the same. -/
def flagKind (name : String) (kind : Kind) (value : Option String) : Kind :=
  if value.isSome then .invalid (.unexpectedValue name) else kind

/-- An argument that starts with two dashes, given what follows these. -/
def longKind (body : List Char) : Kind :=
  let name := String.ofList (body.takeWhile (· != '='))
  let value :=
    match body.dropWhile (· != '=') with
    | [] => none
    | _ :: value => some (String.ofList value)
  if name = "config" then .setting .config value
  else if name = "output" then .setting .output value
  else if name = "order" then .setting .order value
  else if name = "source-map" then flagKind "--source-map" .sourceMap value
  else if name = "help" then flagKind Topic.help.name (.topic .help) value
  else if name = "version" then flagKind Topic.version.name (.topic .version) value
  else .invalid (.unknownOption (String.ofList ('-' :: '-' :: body)))

/-- What an argument is by its spelling. A lone dash is positional. A letter that asks for a text
counts before those behind it. -/
def kind (argument : String) : Kind :=
  match argument.toList with
  | ['-', '-'] => .escape
  | '-' :: '-' :: body => longKind body
  | '-' :: 'c' :: rest => .setting .config (attachedValue rest)
  | '-' :: 'o' :: rest => .setting .output (attachedValue rest)
  | '-' :: 'h' :: _ => .topic .help
  | '-' :: 'V' :: _ => .topic .version
  | '-' :: _ :: _ => .invalid (.unknownOption argument)
  | _ => .positional

/-- Stores the value of an option, which may be given once and is not empty. -/
def Draft.set (draft : Draft) (setting : Setting) (value : String) : Except UsageError Draft :=
  if value.isEmpty then .error .emptyValue
  else
    match setting with
    | .config =>
      if draft.config.isSome then .error (.repeated setting.name)
      else .ok { draft with config := some value }
    | .output =>
      if draft.output.isSome then .error (.repeated setting.name)
      else .ok { draft with output := some value }
    | .order =>
      if draft.order.isSome then .error (.repeated setting.name)
      else
        match Order.parse value with
        | .ok order => .ok { draft with order := some order }
        | .error unknown => .error (.unknownOrder unknown)

/-- Stores the one positional argument. -/
def Draft.setInput (draft : Draft) (value : String) : Except UsageError Draft :=
  if draft.input.isSome then .error (.extraArgument value)
  else if value.isEmpty then .error .emptyValue
  else .ok { draft with input := some value }

/-- Stores arguments that are all positional. -/
def Draft.setInputs (draft : Draft) : List String → Except UsageError Draft
  | [] => .ok draft
  | argument :: arguments =>
    match draft.setInput argument with
    | .error error => .error error
    | .ok draft => draft.setInputs arguments

/-- Whether an argument can be the value of an option in front of it. -/
def canBeValue (argument : String) : Bool := kind argument = .positional

/-- Stores arguments one after another, up to a mistake or to one that asks for a text. -/
def Draft.read (draft : Draft) : List String → Except Halt Draft
  | [] => .ok draft
  | argument :: arguments =>
    match kind argument with
    | .invalid error => .error (.mistake error)
    | .topic topic => .error (.topic topic)
    | .escape => (draft.setInputs arguments).mapError .mistake
    | .positional =>
      match draft.setInput argument with
      | .error error => .error (.mistake error)
      | .ok draft => draft.read arguments
    | .sourceMap =>
      if draft.sourceMap then .error (.mistake (.repeated "--source-map"))
      else Draft.read { draft with sourceMap := true } arguments
    | .setting setting (some value) =>
      match draft.set setting value with
      | .error error => .error (.mistake error)
      | .ok draft => draft.read arguments
    | .setting setting none =>
      match arguments with
      | [] => .error (.mistake (.missingValue setting.name))
      | value :: others =>
        if canBeValue value then
          match draft.set setting value with
          | .error error => .error (.mistake error)
          | .ok draft => draft.read others
        else .error (.mistake (.missingValue setting.name))

/-- The command that arguments make up. There is always an input, and a source map is only written
next to an output. A text can be asked for without these. -/
def Arguments.parse (arguments : List String) : Except Halt Arguments :=
  match Draft.empty.read arguments with
  | .error halt => .error halt
  | .ok draft =>
    match draft.input with
    | none => .error (.mistake .missingInput)
    | some input =>
      if draft.sourceMap && draft.output.isNone then .error (.mistake .mapWithoutOutput)
      else .ok ⟨input, draft.config, draft.output, draft.sourceMap, draft.order⟩

end WebFonts.Command
