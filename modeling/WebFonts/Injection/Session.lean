/-!
# Sessions

What is remembered while one stylesheet is worked on.
-/

namespace WebFonts

/-- Three sets of texts, each kept as the list of its members, the latest first. -/
structure Session where
  /-- Families that the stylesheet declares itself. -/
  declared : List String
  /-- Families that the resolver was asked for. -/
  asked : List String
  /-- Rules that were put into the stylesheet. -/
  written : List String
  deriving DecidableEq, Repr

namespace Session

/-- A session in which nothing has happened. -/
def empty : Session := ⟨[], [], []⟩

/-- Adds a text to a set. -/
def add (text : String) (set : List String) : List String :=
  if set.contains text then set else text :: set

/-- Remembers a family that the stylesheet declares. -/
def declare (session : Session) (family : String) : Session :=
  { session with declared := add family session.declared }

/-- Whether the stylesheet declares a family. -/
def isDeclared (session : Session) (family : String) : Bool := session.declared.contains family

/-- Asks for a family, unless the stylesheet declares it or it was asked for before. -/
def ask (session : Session) (family : String) : Session × Bool :=
  if session.declared.contains family || session.asked.contains family then (session, false)
  else ({ session with asked := family :: session.asked }, true)

/-- Writes a rule, unless the same rule was written before. -/
def write (session : Session) (rule : String) : Session × Bool :=
  if session.written.contains rule then (session, false)
  else ({ session with written := rule :: session.written }, true)

/-- How many families were asked for. -/
def askedCount (session : Session) : Nat := session.asked.length

/-- How many rules were written. -/
def writtenCount (session : Session) : Nat := session.written.length

end Session

end WebFonts
