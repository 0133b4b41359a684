import PldSynth.Project.Error
import PldSynth.Text.Split

/-!
# File trees

A file tree holds files and directories by their place, which is the list of names that lead there
from the root. A path is followed name by name; every name but the last must be a directory, and so
must the last one if a slash or a dot stands behind it.

`get?` is the view of a tree: `get?_put_self` and `get?_put_of_ne` say what putting an entry does
to it.
-/

namespace PldSynth

/-- The names that lead from the root to a file or directory. -/
abbrev Place := List String

/-- What stands at a place. -/
inductive FileTree.Entry
  | file (text : String)
  | directory
  deriving DecidableEq, Repr

/-- The files and directories below the root. -/
structure FileTree where
  entries : List (Place × FileTree.Entry) := []
  deriving DecidableEq, Repr

namespace FileTree

/-- What stands at a place. The root is always a directory. -/
def get? (t : FileTree) (p : Place) : Option Entry :=
  if p = [] then some .directory else t.entries.lookup p

/-- Puts an entry into a list, in place of one at the same place. -/
def putEntry (p : Place) (e : Entry) : List (Place × Entry) → List (Place × Entry)
  | [] => [(p, e)]
  | x :: rest => if x.1 = p then (p, e) :: rest else x :: putEntry p e rest

/-- The tree with an entry at a place. -/
def put (t : FileTree) (p : Place) (e : Entry) : FileTree :=
  { entries := putEntry p e t.entries }

/-- An entry that is put changes what is at its own place. -/
theorem lookup_putEntry (p : Place) (e : Entry) (l : List (Place × Entry)) (q : Place) :
    (putEntry p e l).lookup q = if q = p then some e else l.lookup q := by
  induction l with
  | nil =>
    by_cases h : q = p
    · simp [putEntry, h]
    · simp [putEntry, List.lookup_cons, h, beq_eq_false_iff_ne.mpr h]
  | cons x rest ih =>
    obtain ⟨k, v⟩ := x
    by_cases hk : k = p
    · subst hk
      by_cases h : q = k
      · simp [putEntry, h]
      · simp [putEntry, List.lookup_cons, h, beq_eq_false_iff_ne.mpr h]
    · by_cases h : q = k
      · subst h
        simp [putEntry, hk]
      · simp [putEntry, hk, List.lookup_cons, beq_eq_false_iff_ne.mpr h, ih]

theorem get?_put_self (t : FileTree) {p : Place} (e : Entry) (hp : p ≠ []) :
    (t.put p e).get? p = some e := by
  simp [get?, put, hp, lookup_putEntry]

theorem get?_put_of_ne (t : FileTree) {p q : Place} (e : Entry) (h : q ≠ p) :
    (t.put p e).get? q = t.get? q := by
  simp [get?, put, lookup_putEntry, h]

/-! ## Following a path -/

/-- The names of a path; some may be empty. -/
def namesOf (path : String) : List String :=
  (Text.pieces '/' path.toList).map String.ofList

/-- A name that stands for the directory that it is found in. -/
def isHere (name : String) : Bool :=
  name = "" || name = "."

/-- A name that no file or directory can have. -/
def isTooLong (name : String) : Bool :=
  255 < name.utf8ByteSize

/-- Why a path cannot be followed at all. -/
def pathFault? (path : String) : Option FileFault :=
  if path.toList.contains '\x00' then some .nulInPath
  else if path.isEmpty then some .notFound
  else if 4096 ≤ path.utf8ByteSize then some .nameTooLong
  else none

/-- One step from a directory to another. -/
def enter (t : FileTree) (dir : Place) (name : String) : Except FileFault Place :=
  if isHere name then .ok dir
  else if name = ".." then .ok dir.dropLast
  else if isTooLong name then .error .nameTooLong
  else
    match t.get? (dir ++ [name]) with
    | some .directory => .ok (dir ++ [name])
    | some (.file _) => .error .notDirectory
    | none => .error .notFound

/-- Where a path begins. -/
def start (dir : Place) (path : String) : Place :=
  if path.toList.head? = some '/' then [] else dir

/-- What the names lead to from a directory. -/
def follow (t : FileTree) (dir : Place) : List String → Except FileFault Entry
  | [] => .ok .directory
  | [name] =>
    if isHere name || name = ".." then .ok .directory
    else if isTooLong name then .error .nameTooLong
    else
      match t.get? (dir ++ [name]) with
      | some e => .ok e
      | none => .error .notFound
  | name :: rest => do t.follow (← t.enter dir name) rest

/-- What stands at a path as seen from a directory. -/
def find (t : FileTree) (dir : Place) (path : String) : Except FileFault Entry :=
  match pathFault? path with
  | some fault => .error fault
  | none => t.follow (start dir path) (namesOf path)

/-- The text of the file at a path. -/
def read (t : FileTree) (dir : Place) (path : String) : Except FileFault String := do
  match ← t.find dir path with
  | .file text => .ok text
  | .directory => .error .isDirectory

/-- Whether a file stands at a path. -/
def isFile (t : FileTree) (dir : Place) (path : String) : Bool :=
  (t.read dir path).isOk

/-- The place of the file that is written at a path. A name with a slash behind it is no file. -/
def destination (t : FileTree) (dir : Place) (path : String) : Except FileFault Place :=
  match pathFault? path with
  | some fault => .error fault
  | none =>
    let names := namesOf path
    match names.reverse.dropWhile (· = "") with
    | [] => .error .isDirectory
    | last :: before => do
      let dir ← before.reverse.foldlM t.enter (start dir path)
      if last = "." || last = ".." || names.getLast? = some "" then .error .isDirectory
      else if isTooLong last then .error .nameTooLong
      else if t.get? (dir ++ [last]) = some .directory then .error .isDirectory
      else .ok (dir ++ [last])

/-- The tree with a text written to the file at a path. -/
def write (t : FileTree) (dir : Place) (path text : String) : Except FileFault FileTree := do
  return t.put (← t.destination dir path) (.file text)

/-! ## Making a tree -/

/-- The tree with a directory at a place and at every place on the way there. -/
def addDirectory (t : FileTree) (p : Place) : FileTree :=
  (List.range p.length).foldl (fun t i => t.put (p.take (i + 1)) .directory) t

/-- The tree with a file at a place, in directories that are made where they are missing. -/
def addFile (t : FileTree) (p : Place) (text : String) : FileTree :=
  (t.addDirectory p.dropLast).put p (.file text)

/-- The files below a directory, by the names that lead there from it. -/
def filesBelow (t : FileTree) (dir : Place) : List (Place × String) :=
  t.entries.filterMap fun e =>
    match e.2 with
    | .file text => if dir.isPrefixOf e.1 then some (e.1.drop dir.length, text) else none
    | .directory => none

end FileTree

end PldSynth
