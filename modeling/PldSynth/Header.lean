/-!
# The header of a listing

The fields that every listing begins with.
-/

namespace PldSynth

/-- The fields of the header. An empty name stands for the name of the module. -/
structure Header where
  name : String := ""
  partno : String := "00"
  date : String := ""
  revision : String := "01"
  designer : String := "Engineer"
  company : String := "None"
  assembly : String := "None"
  location : String := ""
  deriving DecidableEq, Repr, Inhabited

namespace Header

/-- The fields under their keywords, in the order in which they are written. -/
def fields (h : Header) : List (String × String) :=
  [("Name", h.name), ("Partno", h.partno), ("Date", h.date), ("Revision", h.revision),
    ("Designer", h.designer), ("Company", h.company), ("Assembly", h.assembly),
    ("Location", h.location)]

/-- The header with the name of the module where no name is given. -/
def named (h : Header) (moduleName : String) : Header :=
  if h.name.isEmpty then { h with name := moduleName } else h

/-- What stands between the value of a field and the semicolon. -/
def padding (key : String) : String :=
  if key = "Name" || key = "Partno" then " " else ""

end Header

end PldSynth
