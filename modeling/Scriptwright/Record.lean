/-!
# Ordered fields

The fields of an object or of an interface keep the order in which their names
were first written. A name that is written again changes the value of its field
and leaves the field where it is.
-/

namespace Scriptwright

/-- Named values in order. -/
abbrev Record (α : Type) := List (String × α)

namespace Record
variable {α : Type}

/-- Gives the field `name` a value. A new field goes to the end. -/
def insert (name : String) (value : α) : Record α → Record α
  | [] => [(name, value)]
  | (n, v) :: fields =>
    if n = name then (n, value) :: fields else (n, v) :: insert name value fields

/-- The record that results from writing the given fields one after the other. -/
def ofList (written : List (String × α)) : Record α :=
  written.foldl (fun fields field => insert field.1 field.2 fields) []

def get? (name : String) : Record α → Option α
  | [] => none
  | (n, v) :: fields => if n = name then some v else get? name fields

@[simp] theorem get?_insert (r : Record α) (name other : String) (value : α) :
    get? other (insert name value r) = if name = other then some value else get? other r := by
  induction r with
  | nil => simp [insert, get?]
  | cons field r ih =>
    obtain ⟨n, v⟩ := field
    by_cases h : n = name <;> by_cases h' : name = other <;> simp_all [insert, get?]

end Record

end Scriptwright
