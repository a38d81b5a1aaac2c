import MarkovElimination.Model.Path
import MarkovElimination.Model.Reading

/-! # Model files

A model is loaded from the files of one **stem**: the transitions and the labels have to exist,
rewards are read if they exist. All files are read before any of them is interpreted. Where the
files come from is left open: a `FileSystem` tells what stands at a path. -/

namespace MarkovElimination

/-- Why a file cannot be read. -/
inductive FileError where
  /-- Nothing stands at the path. -/
  | notFound
  /-- The path leads through a file. -/
  | notADirectory
  | isADirectory
  | permissionDenied
  /-- The path, or a part of it, has too many bytes. -/
  | nameTooLong
  /-- The path holds a character that no file name has. -/
  | invalidName
  /-- The file is not a text. -/
  | notText
deriving DecidableEq

namespace FileError

/-- The wording of an error. -/
def message : FileError → String
  | .notFound => "No such file or directory (os error 2)"
  | .notADirectory => "Not a directory (os error 20)"
  | .isADirectory => "Is a directory (os error 21)"
  | .permissionDenied => "Permission denied (os error 13)"
  | .nameTooLong => "File name too long (os error 36)"
  | .invalidName => "file name contained an unexpected NUL byte"
  | .notText => "stream did not contain valid UTF-8"

/-- Whether nothing can stand at the path. -/
def isAbsence : FileError → Bool
  | .notFound | .notADirectory | .nameTooLong | .invalidName => true
  | _ => false

end FileError

/-- The content of the file at a path. -/
abbrev FileSystem := List Char → Except FileError (List Char)

namespace FileSystem

/-- A file that has to exist. -/
def require (files : FileSystem) (path : List Char) : Except ModelError (List Char) :=
  match files path with
  | .ok content => pure content
  | .error e => throw (.unreadable path e.message)

/-- A file that need not exist. -/
def find? (files : FileSystem) (path : List Char) : Except ModelError (Option (List Char)) :=
  match files path with
  | .ok content => pure (some content)
  | .error e => if e.isAbsence then pure none else throw (.unreadable path e.message)

/-- The texts of a model. -/
def modelTexts (files : FileSystem) (stem : List Char) : Except ModelError ModelTexts := do
  let file (ext : String) := Path.withExtension stem ext.toList
  let transitions ← files.require (file "tra")
  let labels ← files.require (file "lab")
  let stateRewards ← files.find? (file "rew")
  let transitionRewards ← files.find? (file "trew")
  pure ⟨transitions, labels, stateRewards, transitionRewards⟩

/-- The model of a stem. -/
def load {α : Type} [Weight α] [WeightText α] (files : FileSystem) (stem : List Char) :
    Except ModelError (Chain α) := do
  ModelTexts.read (← files.modelTexts stem)

end FileSystem

/-- The stem of a model one of whose files is named. -/
def modelStem (file : List Char) : List Char := Path.withExtension file []

/-- The paths at which the files of a model are looked for. -/
def modelPaths (stem : List Char) : List (List Char) :=
  ["tra", "lab", "rew", "trew"].map fun ext => Path.withExtension stem ext.toList

/-! ### Files in memory -/

/-- The greatest number of bytes of a file name. -/
def nameLimit : Nat := 255

/-- The greatest number of bytes of a path. -/
def pathLimit : Nat := 4095

/-- Files below one directory, each with the parts of its path. -/
abbrev FileTree := List (List (List Char) × List Char)

namespace FileTree

/-- The tree of files with relative paths. -/
def ofFiles (files : List (List Char × List Char)) : FileTree :=
  files.map fun (path, content) =>
    ((Path.components path).filter fun part => part ≠ [] && part ≠ ['.'], content)

/-- Whether some file lies below a directory. -/
def hasDirectory (tree : FileTree) (directory : List (List Char)) : Bool :=
  tree.any fun (path, _) => directory.isPrefixOf path && directory ≠ path

/-- The error at a path into directories about which nothing is known but that they exist. -/
def unknown (parts : List (List Char)) : FileError :=
  match parts.find? fun part => part ≠ [] && part ≠ ['.'] && part ≠ ['.', '.'] with
  | none => .isADirectory
  | some part => if nameLimit < Path.byteCount part then .nameTooLong else .notFound

/-- Follows the parts of a path from a directory. A later file of the same path replaces an earlier
one, and what lies above the tree is unknown, apart from being a directory. -/
def follow (tree : FileTree) (directory : List (List Char)) :
    List (List Char) → Except FileError (List Char)
  | [] => throw .isADirectory
  | part :: rest =>
    if part = [] || part = ['.'] then follow tree directory rest
    else if part = ['.', '.'] then
      if directory = [] then throw (unknown rest) else follow tree directory.dropLast rest
    else if nameLimit < Path.byteCount part then throw .nameTooLong
    else
      let path := directory ++ [part]
      match tree.reverse.lookup path with
      | some content => if rest = [] then pure content else throw .notADirectory
      | none => if tree.hasDirectory path then follow tree path rest else throw .notFound

/-- The files of a tree; nothing is known about absolute paths, apart from the root. -/
def fileSystem (tree : FileTree) : FileSystem := fun path =>
  if path.contains (Char.ofNat 0) then throw .invalidName
  else if pathLimit < Path.byteCount path then throw .nameTooLong
  else
    match path with
    | [] => throw .notFound
    | '/' :: rest => throw (unknown (Path.components rest))
    | path => tree.follow [] (Path.components path)

end FileTree

end MarkovElimination
