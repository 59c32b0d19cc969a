import WebFonts.Command.Arguments
import WebFonts.Plugin
import WebFonts.SourceMap.Json

/-!
# The command

Reads a configuration and a stylesheet, and writes the stylesheet with the rules injected. The
files may be those of a disk or those of a table; the command only reads and writes whole texts.
-/

namespace WebFonts.Command

open Injection (Discovery)

/-- Access to files. Reading gives nothing if there is no such file or it holds no text in UTF-8;
writing tells whether it succeeded. -/
structure Files (m : Type → Type) where
  read : String → m (Option String)
  write : String → String → m Bool

/-- Why a command failed. -/
inductive Failure where
  | usage (error : UsageError)
  | file (path : String)
  | json (problem : Json.Problem)
  | config (error : ConfigError)
  | transform (failure : Injection.Failure)
  deriving DecidableEq, Repr

/-- The wording of a failure. -/
def Failure.message : Failure → String
  | usage _ => "the arguments do not make up a command"
  | file path => "'" ++ path ++ "' cannot be read or written"
  | json _ => "the configuration is not of the expected form"
  | config error => error.message
  | transform failure => Plugin.failureMessage failure

/-- The exit status of a failed command. -/
def Failure.status : Failure → Nat
  | usage _ => 2
  | _ => 1

/-- What a command prints, unless it fails. -/
abbrev Result := Except Failure String

/-- The plugin for a configuration, and an order that goes before the one configured. -/
def plugin (config : Config) (order : Option Order) : Except Failure Plugin :=
  match config.catalogue with
  | .error error => .error (.config error)
  | .ok catalogue => .ok ⟨catalogue, order.getD config.order⟩

/-- The last component of a path, if that names a file. -/
def fileName? (path : String) : Option String :=
  let components := (Text.splitAt '/' path.toList).filter fun component =>
    !component.isEmpty && component != ['.']
  match components.getLast? with
  | none => none
  | some component => if component = ['.', '.'] then none else some (String.ofList component)

/-- Reads the configuration, which is empty if no file is named. -/
def readConfig {m : Type → Type} [Monad m] (files : Files m) :
    Option String → m (Except Failure Config)
  | none => return .ok Config.standard
  | some path => do
    match ← files.read path with
    | none => return .error (.file path)
    | some text =>
      match Config.parse text with
      | .error problem => return .error (.json problem)
      | .ok config => return .ok config

/-- Writes a text, and after it the source map of what was injected, if one is wanted. Without an
output the text is printed. -/
def deliver {m : Type → Type} [Monad m] (files : Files m) (arguments : Arguments)
    (code : String) (output : Option Injection.Output) : m Result := do
  let text := (output.map (·.code)).getD code
  match arguments.output with
  | none => return .ok text
  | some path =>
    if !(← files.write path text) then return .error (.file path)
    match arguments.sourceMap, output with
    | true, some output =>
      let mapPath := path ++ ".map"
      let map := { output.map with file := fileName? path }
      if ← files.write mapPath map.toJson.render then return .ok ""
      else return .error (.file mapPath)
    | _, _ => return .ok ""

/-- Runs a command. The configuration is read and checked before the stylesheet is read. The
schedule is the order in which the families that the stylesheet uses are answered. -/
def run {m : Type → Type} [Monad m] (files : Files m) (schedule : List Discovery → List Discovery)
    (arguments : Arguments) : m Result := do
  match ← readConfig files arguments.config with
  | .error failure => return .error failure
  | .ok config =>
    match plugin config arguments.order with
    | .error failure => return .error failure
    | .ok plugin =>
      match ← files.read arguments.input with
      | none => return .error (.file arguments.input)
      | some code =>
        match plugin.transformBy schedule code arguments.input with
        | .error failure => return .error (.transform failure)
        | .ok output => deliver files arguments code output

/-- Runs the command that a list of arguments makes up, or prints the text that they ask for. -/
def executeBy {m : Type → Type} [Monad m] (files : Files m)
    (schedule : List Discovery → List Discovery) (arguments : List String) : m Result :=
  match Arguments.parse arguments with
  | .error (.mistake error) => return .error (.usage error)
  | .error (.topic topic) => return .ok topic.text
  | .ok arguments => run files schedule arguments

/-- Runs a command whose families are answered one after another, as they are asked for. -/
def execute {m : Type → Type} [Monad m] (files : Files m) (arguments : List String) : m Result :=
  executeBy files (fun asked => asked) arguments

end WebFonts.Command
