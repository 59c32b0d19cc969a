import WebFonts.Command.Run

/-!
# Stores

A directory and what lies in it, as a table of files.
-/

namespace WebFonts.Command

/-- Files by the components of their paths. A file without contents is one that holds no text. -/
structure Store where
  files : List (List String × Option String)
  deriving DecidableEq, Repr

namespace Store

/-- Whether a path leads to a directory: the outermost one, or one with a file in it. -/
def isDirectory (store : Store) (path : List String) : Bool :=
  path.isEmpty || store.files.any fun file => path.isPrefixOf file.1.dropLast

/-- The components of a path that lead on, without those that stay where they are. -/
def components (path : String) : List String :=
  (Text.splitAt '/' path.toList).map String.ofList

/-- Walks from a directory through components to the file that the last one names. -/
def walk (store : Store) (directory : List String) : List String → Option (List String)
  | [] => none
  | [name] =>
    if name = "" || name = "." || name = ".." || store.isDirectory (directory ++ [name]) then none
    else some (directory ++ [name])
  | name :: names =>
    if name = "" || name = "." then store.walk directory names
    else if name = ".." then
      if directory.isEmpty then none else store.walk directory.dropLast names
    else if store.isDirectory (directory ++ [name]) then store.walk (directory ++ [name]) names
    else none

/-- The file that a path names. Absolute paths, and those that leave the directory, name none. -/
def locate? (store : Store) (path : String) : Option (List String) :=
  if path.toList.head? = some '/' then none else store.walk [] (components path)

/-- The text of a file. -/
def read (store : Store) (path : String) : Option String :=
  match store.locate? path with
  | none => none
  | some file => (store.files.lookup file).join

/-- Writes a text to a file, which is made if it is not there. -/
def write (store : Store) (path text : String) : Option Store :=
  match store.locate? path with
  | none => none
  | some file => some ⟨(file, some text) :: store.files.filter (·.1 != file)⟩

/-- Access to the files of a store. -/
def access : Files (StateM Store) where
  read path := do return (← get).read path
  write path text := do
    match (← get).write path text with
    | none => return false
    | some store =>
      set store
      return true

end Store

end WebFonts.Command
