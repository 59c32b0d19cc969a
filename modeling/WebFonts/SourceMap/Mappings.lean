import WebFonts.SourceMap.Vlq
import WebFonts.Text.Split

/-!
# Mappings

The positions of a generated text that come from the source it was made of, line by line, and their
spelling: lines end in semicolons, segments are separated by commas, and each segment holds its
distance from the one before it.
-/

namespace WebFonts.SourceMap

/-- A column of the generated line and the place in the source it comes from; all count from
zero, and columns count UTF-16 units. -/
structure Segment where
  generatedColumn : Nat
  sourceLine : Nat
  sourceColumn : Nat
  deriving DecidableEq, Repr

/-- The distance of a segment from the one before it. Without a place in the source it only
moves along the generated line. -/
structure Delta where
  generated : Int
  place : Option (Int × Int)
  deriving DecidableEq, Repr

/-! ## Writing -/

/-- The distances within one line, each from the segment before; `line` and `column` are the
place in the source of the last segment in front of the line. -/
def lineDeltas (generated line column : Nat) : List Segment → List Delta
  | [] => []
  | s :: segments =>
    ⟨(s.generatedColumn : Int) - generated,
      some ((s.sourceLine : Int) - line, (s.sourceColumn : Int) - column)⟩ ::
    lineDeltas s.generatedColumn s.sourceLine s.sourceColumn segments

/-- The distances of all segments. Generated columns start anew in every line, while places in
the source are carried on. -/
def deltas (line column : Nat) : List (List Segment) → List (List Delta)
  | [] => []
  | segments :: lines =>
    lineDeltas 0 line column segments ::
    match segments.getLast? with
    | none => deltas line column lines
    | some s => deltas s.sourceLine s.sourceColumn lines

/-- A segment in digits. There is one source, so the distance between sources is always zero. -/
def Delta.encode (delta : Delta) : List Char :=
  Vlq.encode delta.generated ++
    match delta.place with
    | none => []
    | some (line, column) => Vlq.encode 0 ++ Vlq.encode line ++ Vlq.encode column

/-- The spelling of the segments of every line. -/
def writeMappings (lines : List (List Segment)) : List Char :=
  List.intercalate [';'] ((deltas 0 0 lines).map fun line =>
    List.intercalate [','] (line.map Delta.encode))

/-! ## Reading -/

/-- Reads a segment: one field, or four. The second, the distance between sources, is not used,
and neither is what follows the fourth. -/
def Delta.decode (text : List Char) : Option Delta := do
  let (generated, rest) ← Vlq.decode text
  if rest.isEmpty then return ⟨generated, none⟩
  let (_, rest) ← Vlq.decode rest
  let (line, rest) ← Vlq.decode rest
  let (column, _) ← Vlq.decode rest
  return ⟨generated, some (line, column)⟩

/-- A line or column; these have 32 bits. -/
def position? (n : Int) : Option Nat :=
  if 0 ≤ n ∧ n < Nat.pow 2 32 then some n.toNat else none

/-- The segments of a line and the place in the source behind it, from the distances between
them. -/
def lineSegments (generated line column : Int) : List Delta → Option (List Segment × Int × Int)
  | [] => some ([], line, column)
  | ⟨distance, none⟩ :: rest => lineSegments (Vlq.word (generated + distance)) line column rest
  | ⟨distance, some (lines, columns)⟩ :: rest => do
    let generated := Vlq.word (generated + distance)
    let line := Vlq.word (line + lines)
    let column := Vlq.word (column + columns)
    let segment := ⟨← position? generated, ← position? line, ← position? column⟩
    let (segments, last) ← lineSegments generated line column rest
    return (segment :: segments, last)

/-- The segments of all lines, from the distances between them. -/
def segments (line column : Int) : List (List Delta) → Option (List (List Segment))
  | [] => some []
  | distances :: rest => do
    let (found, line, column) ← lineSegments 0 line column distances
    return found :: (← segments line column rest)

/-- The segments that a text spells, if it spells any in every place. Empty segments do not
count. -/
def readMappings (text : List Char) : Option (List (List Segment)) := do
  let lines ← (Text.splitAt ';' text).mapM fun line =>
    ((Text.splitAt ',' line).filter fun s => !s.isEmpty).mapM Delta.decode
  segments 0 0 lines

end WebFonts.SourceMap
