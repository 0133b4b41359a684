/-!
# Path names

A path is a text of names between slashes. Slashes at the end, and dots that stand for the directory
itself, belong to no name. The last name has a stem, which ends before the last dot; a dot that the
name begins with does not count.
-/

namespace PldSynth.PathName

/-- A path in reverse, without what stands behind its last name. -/
def dropTail : List Char → List Char
  | '/' :: rest => dropTail rest
  | '.' :: '/' :: rest => dropTail rest
  | cs => cs

/-- The path in reverse up to its last name. -/
def reversed (path : String) : List Char :=
  dropTail path.toList.reverse

/-- The last name, also where it only points to a directory. -/
def lastName (path : String) : List Char :=
  ((reversed path).takeWhile (· ≠ '/')).reverse

/-- What stands before the last name. -/
def front (path : String) : List Char :=
  ((reversed path).dropWhile (· ≠ '/')).reverse

/-- A name that only points to a directory. -/
def isPointer (name : List Char) : Bool :=
  name = [] || name = ['.'] || name = ['.', '.']

/-- The part of a name before its last dot, unless nothing stands there. -/
def stemOf (name : List Char) : List Char :=
  match name.reverse.dropWhile (· ≠ '.') with
  | _ :: before => if before.isEmpty then name else before.reverse
  | [] => name

/-- The stem of the last name. -/
def stem? (path : String) : Option String :=
  let name := lastName path
  if isPointer name then none else some (String.ofList (stemOf name))

/-- The part of a name behind the dot that ends its stem. -/
def extensionOf (name : List Char) : List Char :=
  name.drop ((stemOf name).length + 1)

/-- The path without the extension of its last name; the dot before it stays. -/
def dropExtension (path : String) : String :=
  String.ofList (path.toList.take (path.length - (extensionOf (lastName path)).length))

/-- Adds an extension to the stem of the last name, unless that only points to a directory. -/
def extend (path extension : String) : String :=
  let name := lastName path
  if isPointer name then path
  else String.ofList (front path ++ stemOf name) ++ "." ++ extension

/-- The path with another extension of its last name. The old one is taken off first; where two dots
stay behind, they point to a directory, and there is no new extension. -/
def withExtension (path extension : String) : String :=
  if isPointer (lastName path) then path else extend (dropExtension path) extension

/-- The directory that the last name stands in; nothing if it stands in none. -/
def parent (path : String) : String :=
  let dir := dropTail (front path).reverse
  if dir.isEmpty && !(front path).isEmpty then "/" else String.ofList dir.reverse

/-- Whether a path starts at the root. -/
def isAbsolute (path : String) : Bool :=
  path.toList.head? = some '/'

/-- A path as seen from a directory. -/
def join (dir path : String) : String :=
  if isAbsolute path || dir.isEmpty then path
  else if dir.toList.getLast? = some '/' then dir ++ path
  else dir ++ "/" ++ path

example : stem? "a/x.tar.gz" = some "x.tar" ∧ stem? "b/" = some "b" ∧ stem? ".x" = some ".x" ∧
    stem? "x.." = some "x." ∧ stem? "a/.." = none := by decide +kernel

example : withExtension "d/out" "it1" = "d/out.it1" ∧ withExtension "out." "it1" = "out.it1" ∧
    withExtension ".." "it1" = ".." ∧ withExtension "d/..z" "it1" = "d/.." ∧
    withExtension "...z" "it1" = "...it1" ∧ withExtension "..z/" "it1" = "..it1" := by
  decide +kernel

example : parent "d//x" = "d" ∧ parent "/x" = "/" ∧ parent "x" = "" ∧ parent "./x" = "." := by
  decide +kernel

end PldSynth.PathName
