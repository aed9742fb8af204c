/-!
# Files

Why a file cannot be read, and a folder of files that is only a value: `Folder.read` answers for
it as a disk would, for paths that stay in the folder.
-/

namespace ScopeScript.CommandLine

inductive ReadError where
  | notFound
  | isFolder
  | notFolder
  | notText
  | other (reason : String)
  deriving DecidableEq, Repr

def ReadError.describe : ReadError → String
  | notFound => "No such file or directory (os error 2)"
  | isFolder => "Is a directory (os error 21)"
  | notFolder => "Not a directory (os error 20)"
  | notText => "stream did not contain valid UTF-8"
  | other reason => reason

/-- The text that bytes encode. -/
def decodeText (bytes : ByteArray) : Except ReadError String :=
  match String.fromUTF8? bytes with
  | some text => .ok text
  | none => .error .notText

/-- A folder that holds files only. -/
structure Folder where
  files : List (String × ByteArray) := []

namespace Folder

/-- The names on a path; empty ones and single dots lead nowhere. -/
def steps (path : String) : List String :=
  (path.splitOn "/").filter fun name => name != "" && name != "."

/-- A path that ends in a slash or a dot asks for a folder. -/
def asksForFolder (path : String) : Bool :=
  match (path.splitOn "/").getLast? with
  | some name => name == "" || name == "."
  | none => true

def read (folder : Folder) (path : String) : Except ReadError String :=
  if path = "" then .error .notFound
  else if (steps path).all (· == "..") then .error .isFolder
  else if path.startsWith "/" then .error .notFound
  else
    match steps path with
    | name :: rest =>
      match folder.files.lookup name with
      | none => .error .notFound
      | some bytes =>
        if rest.isEmpty && !asksForFolder path then decodeText bytes else .error .notFolder
    | [] => .error .isFolder

end Folder

end ScopeScript.CommandLine
