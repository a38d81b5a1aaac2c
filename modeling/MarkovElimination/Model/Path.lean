/-! # Paths of model files

All files of a model share one path and differ in their **extension**: the part of the file name
behind its last dot, where a dot that starts the name does not count. A path such as `..` or `/` has
no file name, so it has no extension and none can be given to it. The old extension is taken off
before the new one is put on; what is left of `..x` is `..`, which can have no extension. -/

namespace MarkovElimination.Path

/-- A reversed path without separators and `.` components at its end. -/
def dropTrivial : List Char → List Char
  | '/' :: rest => dropTrivial rest
  | '.' :: '/' :: rest => dropTrivial rest
  | path => path

/-- The directory of a path, with its separator, and the file name, if there is one. -/
def split? (path : List Char) : Option (List Char × List Char) :=
  let reversed := dropTrivial path.reverse
  let name := (reversed.takeWhile (· != '/')).reverse
  if name = [] || name = ['.'] || name = ['.', '.'] then none
  else some ((reversed.dropWhile (· != '/')).reverse, name)

/-- A file name without its extension. -/
def stem (name : List Char) : List Char :=
  match name.reverse.dropWhile (· != '.') with
  | '.' :: c :: rest => (c :: rest).reverse
  | _ => name

/-- The extension of a file name; it is empty if there is none. -/
def extension (name : List Char) : List Char := name.drop ((stem name).length + 1)

/-- A path less as many characters at its end as its extension has. -/
def dropExtension (path : List Char) : List Char :=
  match split? path with
  | none => path
  | some (_, name) => path.take (path.length - (extension name).length)

/-- A path with another extension; the empty extension removes the dot as well. -/
def withExtension (path ext : List Char) : List Char :=
  match split? (dropExtension path) with
  | none => dropExtension path
  | some (directory, name) =>
    directory ++ stem name ++ (if ext = [] then [] else '.' :: ext)

/-- The number of bytes that a text takes in a file system. -/
def byteCount (text : List Char) : Nat :=
  text.foldl (fun count c => count + c.utf8Size) 0

/-- The parts of a path between its separators. -/
def components (path : List Char) : List (List Char) :=
  path.foldr (fun c parts =>
    if c = '/' then [] :: parts
    else match parts with
      | [] => [[c]]
      | first :: rest => (c :: first) :: rest) [[]]

end MarkovElimination.Path
