import WebFonts.Json.Numeral

/-!
# JSON values

Values with the fields of their objects in order, repetitions included, and their text. What is
written has no white space and escapes only what it must.
-/

namespace WebFonts

/-- A JSON value. -/
inductive Json where
  | null
  | bool (b : Bool)
  | number (numeral : Numeral)
  | string (s : String)
  | array (items : List Json)
  | object (fields : List (String × Json))

namespace Json

/-- A natural number as a value. -/
def ofNat (n : Nat) : Json := .number (Numeral.ofNat n)

/-- A value that may be absent. -/
def ofOption {α : Type} (write : α → Json) : Option α → Json
  | none => .null
  | some a => write a

/-- The field of an object that holds an optional value: none if it is unset. -/
def optionalField {α : Type} (key : String) (write : α → Json) :
    Option α → List (String × Json)
  | none => []
  | some a => [(key, write a)]

/-- The spelling of a character inside of a string. Quotes, backslashes and control characters
are escaped. -/
def escape (c : Char) : List Char :=
  if c = '"' then ['\\', '"']
  else if c = '\\' then ['\\', '\\']
  else if c = '\x08' then ['\\', 'b']
  else if c = '\t' then ['\\', 't']
  else if c = '\n' then ['\\', 'n']
  else if c = '\x0c' then ['\\', 'f']
  else if c = '\r' then ['\\', 'r']
  else if c.toNat < 0x20 then
    ['\\', 'u', '0', '0', Nat.digitChar (c.toNat / 16), Nat.digitChar (c.toNat % 16)]
  else [c]

/-- A string in quotes. -/
def quote (s : String) : List Char := '"' :: (s.toList.flatMap escape ++ ['"'])

mutual

/-- The text of a value. -/
def toChars : Json → List Char
  | .null => "null".toList
  | .bool true => "true".toList
  | .bool false => "false".toList
  | .number numeral => numeral.toChars
  | .string s => quote s
  | .array items => '[' :: (itemsToChars items ++ [']'])
  | .object fields => '{' :: (fieldsToChars fields ++ ['}'])

/-- The values of an array, separated by commas. -/
def itemsToChars : List Json → List Char
  | [] => []
  | [item] => item.toChars
  | item :: items => item.toChars ++ ',' :: itemsToChars items

/-- The fields of an object, separated by commas. -/
def fieldsToChars : List (String × Json) → List Char
  | [] => []
  | [(key, value)] => quote key ++ ':' :: value.toChars
  | (key, value) :: fields => quote key ++ ':' :: (value.toChars ++ ',' :: fieldsToChars fields)

end

/-- The text of a value. -/
def render (json : Json) : String := String.ofList json.toChars

end Json

end WebFonts
