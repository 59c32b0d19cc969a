import WebFonts.Config
import WebFonts.Injection.Run

/-!
# Plugin for build tools

A build tool asks for each of its modules whether it is a stylesheet, and has those that are
transformed.
-/

namespace WebFonts

/-- A table of families, and the order of the rules for them. -/
structure Plugin where
  catalogue : Catalogue
  order : Order
  deriving DecidableEq, Repr

namespace Plugin

/-- The name under which a build tool knows the plugin. -/
def name : String := "fontinject:font-family-injection"

/-- The file name extensions of stylesheets. -/
def stylesheetExtensions : List String :=
  ["css", "scss", "sass", "postcss", "pcss", "less", "stylus", "styl"]

/-- Whether a module is a stylesheet: behind the last dot of its name stands the extension of one,
alone or with a query that is more than a question mark. -/
def includes (id : String) : Bool :=
  match Text.splitLast? '.' id.toList with
  | none => false
  | some (_, tail) =>
    let extension := tail.takeWhile (· != '?')
    let query := tail.dropWhile (· != '?')
    stylesheetExtensions.contains (String.ofList extension) && query.length != 1

/-- Transforms a stylesheet, which its name stands for in the source map. All answers are in the
table, but may come in another order than the one in which they are asked for. -/
def transformBy (plugin : Plugin)
    (schedule : List Injection.Discovery → List Injection.Discovery) (code id : String) :
    Except Injection.Failure (Option Injection.Output) :=
  Injection.run ⟨plugin.order, some id⟩ plugin.catalogue.answer schedule code

/-- Transforms a stylesheet with one answer after another, as they are asked for. -/
def transform (plugin : Plugin) (code id : String) :
    Except Injection.Failure (Option Injection.Output) :=
  plugin.transformBy (fun asked => asked) code id

/-- The wording of a failed transformation. -/
def failureMessage (failure : Injection.Failure) : String :=
  "Transform failed: " ++ failure.message

end Plugin

end WebFonts
