import WebFonts.Face.Basic

/-!
# Resolvers

Who answers which faces a family has, and what the answers are.
-/

namespace WebFonts

/-- Why a resolver has no answer. -/
inductive ResolveError where
  | notFound (family : String)
  | failed (family message : String)
  | other (message : String)
  deriving DecidableEq, Repr

/-- The wording of an error. -/
def ResolveError.message : ResolveError → String
  | notFound family => "Font family not found: " ++ family
  | failed family message => "Failed to resolve font family '" ++ family ++ "': " ++ message
  | other message => "Resolver error: " ++ message

/-- The answer for one family. -/
inductive Answer where
  | faces (faces : Faces)
  /-- Nothing is to be injected. -/
  | nothing
  | error (error : ResolveError)
  /-- The resolver broke off without an answer. -/
  | aborted
  deriving DecidableEq, Repr

/-- A table of families with their faces. Each family stands there once. -/
structure Catalogue where
  families : List (String × Faces)
  deriving DecidableEq, Repr

namespace Catalogue

/-- A table of no families. -/
def empty : Catalogue := ⟨[]⟩

/-- The faces of a family. -/
def find? (catalogue : Catalogue) (family : String) : Option Faces :=
  catalogue.families.lookup family

/-- Whether a family is in the table. -/
def contains (catalogue : Catalogue) (family : String) : Bool :=
  (catalogue.find? family).isSome

/-- Takes a family out of the table. -/
def remove (catalogue : Catalogue) (family : String) : Catalogue :=
  ⟨catalogue.families.filter (·.1 != family)⟩

/-- Puts a family into the table, in place of an earlier entry. -/
def add (catalogue : Catalogue) (family : String) (faces : Faces) : Catalogue :=
  ⟨(family, faces) :: (catalogue.remove family).families⟩

/-- The number of families. -/
def size (catalogue : Catalogue) : Nat := catalogue.families.length

/-- The answer of the table for a family. -/
def answer (catalogue : Catalogue) (family : String) : Answer :=
  match catalogue.find? family with
  | some found => .faces found
  | none => .nothing

end Catalogue

end WebFonts
