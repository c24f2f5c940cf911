/-! Files of named sections with entries under keys. A name may head several sections and a key several
entries; looking up finds the first of each. -/
namespace StyledMap

structure Ini.Section where
  name : String
  entries : List (String × String)
  deriving Repr, DecidableEq

structure Ini where
  sections : List Ini.Section
  deriving Repr, DecidableEq

namespace Ini

/-- What a text states, one after the other. -/
inductive Statement where
  | heading (name : String)
  | entry (key value : String)
  deriving Repr, DecidableEq

/-- The entries in front of the first heading, and the sections from there on. -/
def grouped : List Statement → List (String × String) × List Section
  | [] => ([], [])
  | .entry key value :: rest => ((key, value) :: (grouped rest).1, (grouped rest).2)
  | .heading name :: rest => ([], ⟨name, (grouped rest).1⟩ :: (grouped rest).2)

/-- Entries in front of the first heading belong to no section and are dropped. -/
def ofStatements (statements : List Statement) : Ini := ⟨(grouped statements).2⟩

def section? (f : Ini) (name : String) : Option Section := f.sections.find? (·.name = name)

def get? (f : Ini) (name key : String) : Option String :=
  (f.section? name).bind (fun s => s.entries.lookup key)

end Ini
end StyledMap
