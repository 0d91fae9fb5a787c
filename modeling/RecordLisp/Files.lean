/-!
# Files

The files that a program can see, as a value: a directory of named texts and directories. Names
along a path are divided by slashes; an empty name and a single point stay in place and two points
lead back.
-/

namespace RecordLisp

/-- Why a file cannot be read or written. -/
inductive FileFault where
  | notFound
  | notDirectory
  | isDirectory
  | notText
deriving DecidableEq, Inhabited

/-- The wording of a fault. -/
def FileFault.message : FileFault → String
  | .notFound => "No such file or directory (os error 2)"
  | .notDirectory => "Not a directory (os error 20)"
  | .isDirectory => "Is a directory (os error 21)"
  | .notText => "stream did not contain valid UTF-8"

/-- What a path leads to. -/
inductive FileEntry where
  | directory
  | file (content : ByteArray)
deriving Inhabited

/-- Directories and files under their paths, relative to the working directory. -/
structure Files where
  entries : List (List String × FileEntry)
deriving Inhabited

namespace Files

/-- No files. -/
def empty : Files := ⟨[]⟩

/-- The names along a path. -/
def resolve (path : String) : List String :=
  (path.splitOn "/").foldl (fun names name =>
    if name = "" ∨ name = "." then names
    else if name = ".." then names.dropLast
    else names ++ [name]) []

/-- Whether a path can only be that of a directory, which a slash at its end says. -/
def namesDirectory (path : String) : Bool := path.toList.getLast? == some '/'

/-- What the names along a path lead to. -/
def find? (files : Files) (names : List String) : Option FileEntry :=
  if names.isEmpty then some .directory else files.entries.lookup names

/-- Checks that every name but the last leads to a directory. -/
def checkParents (files : Files) (names : List String) : Except FileFault Unit :=
  (List.range names.length).forM fun count =>
    match files.find? (names.take count) with
    | some .directory => .ok ()
    | some (.file _) => .error .notDirectory
    | none => .error .notFound

/-- Replaces what a path leads to. -/
def put (files : Files) (names : List String) (entry : FileEntry) : Files :=
  ⟨(names, entry) :: files.entries.filter (·.1 != names)⟩

/-- Reads a whole file as text. -/
def read (files : Files) (path : String) : Except FileFault String := do
  if path = "" then throw .notFound
  let names := resolve path
  files.checkParents names
  match files.find? names with
  | none => throw .notFound
  | some .directory => throw .isDirectory
  | some (.file content) =>
      if namesDirectory path then throw .notDirectory
      else
        match String.fromUTF8? content with
        | some text => return text
        | none => throw .notText

/-- Writes a text as a whole file. -/
def write (files : Files) (path text : String) : Except FileFault Files := do
  if path = "" then throw .notFound
  let names := resolve path
  files.checkParents names
  match files.find? names, namesDirectory path with
  | some .directory, _ => throw .isDirectory
  | some (.file _), true => throw .notDirectory
  | none, true => throw .isDirectory
  | _, false => return files.put names (.file text.toUTF8)

end Files

end RecordLisp
