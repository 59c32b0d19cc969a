import WebFonts.Json.Reading

/-!
# Readers

Readers of strings, lists, records and choices. Each follows the text from left to right and
reports the first problem that it meets.
-/

namespace WebFonts.Json

namespace Reading

/-- A string. -/
def text : Reading → Except Problem String
  | string contents => contents
  | reading => .error reading.misfit

/-- An integer in eight bits, written without fraction and exponent. -/
def byte : Reading → Except Problem UInt8
  | number (.ok numeral) =>
    match numeral.toNat? with
    | some n => if n < 256 then .ok (UInt8.ofNat n) else .error .unsuitable
    | none => .error .unsuitable
  | reading => .error reading.misfit

/-- A value that may be null. -/
def optional {α : Type} (read : Reading → Except Problem α) :
    Reading → Except Problem (Option α)
  | null => .ok none
  | reading => (read reading).map some

/-- Values one after another. -/
def each {α : Type} (read : Reading → Except Problem α) : List Reading → Except Problem (List α)
  | [] => .ok []
  | item :: items => do
    let a ← read item
    let as ← each read items
    return a :: as

/-- A list of values. -/
def list {α : Type} (read : Reading → Except Problem α) : Reading → Except Problem (List α)
  | array items stop => do
    let found ← each read items
    match stop with
    | none => return found
    | some problem => throw problem
  | reading => .error reading.misfit

/-- One of several names, as a string or as the only key of an object that holds null. -/
def choice {α : Type} (named : String → Option α) : Reading → Except Problem α
  | string (.ok name) =>
    match named name with
    | some a => .ok a
    | none => .error .unsuitable
  | string (.error problem) => .error problem
  | object [] none => .error .malformed
  | object [] (some problem) => .error problem
  | object ((.error problem, _) :: _) _ => .error problem
  | object ((.ok name, value) :: others) stop =>
    match named name with
    | none => .error .unsuitable
    | some a =>
      match value with
      | null =>
        match others, stop with
        | [], none => .ok a
        | [], some problem => .error problem
        | _, _ => .error .malformed
      | value => .error value.misfit
  | absent => .error .cutShort
  | _ => .error .malformed

end Reading

/-! ## Records -/

/-- A field of a record: its key, whether it may not be left out, and how a value for it is
stored. -/
structure RecordField (σ : Type) where
  key : String
  needed : Bool
  store : σ → Reading → Except Problem σ

/-- Stores the entries of an object, of which none of the keys in `seen` may come again. Entries
with other keys than those of the fields do not count. -/
def RecordField.storeEntries {σ : Type} (fields : List (RecordField σ)) (record : σ)
    (seen : List String) :
    List (Except Problem String × Reading) → Except Problem (σ × List String)
  | [] => .ok (record, seen)
  | (.error problem, _) :: _ => .error problem
  | (.ok key, value) :: entries =>
    match fields.find? (·.key == key) with
    | none => storeEntries fields record seen entries
    | some field =>
      if seen.contains key then .error .unsuitable
      else
        match field.store record value with
        | .error problem => .error problem
        | .ok record => storeEntries fields record (key :: seen) entries

/-- Stores the items of an array in the order of the fields. -/
def RecordField.storeItems {σ : Type} (stop : Option Problem) :
    List (RecordField σ) → σ → List Reading → Except Problem σ
  | [], _, _ :: _ => .error .malformed
  | [], record, [] =>
    match stop with
    | none => .ok record
    | some problem => .error problem
  | fields, record, [] =>
    match stop with
    | none => if fields.any (·.needed) then .error .unsuitable else .ok record
    | some problem => .error problem
  | field :: fields, record, item :: items =>
    match field.store record item with
    | .error problem => .error problem
    | .ok record => storeItems stop fields record items

/-- A record, as an object or as an array of its fields in order. `blank` holds the values of
fields that are left out. -/
def Reading.record {σ : Type} (fields : List (RecordField σ)) (blank : σ) :
    Reading → Except Problem σ
  | object entries stop =>
    match RecordField.storeEntries fields blank [] entries with
    | .error problem => .error problem
    | .ok (record, seen) =>
      match stop with
      | none =>
        if fields.any fun field => field.needed && !seen.contains field.key then
          .error .unsuitable
        else .ok record
      | some problem => .error problem
  | array items stop => RecordField.storeItems stop fields blank items
  | reading => .error reading.misfit

end WebFonts.Json
