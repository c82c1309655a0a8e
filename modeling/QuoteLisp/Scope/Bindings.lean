import QuoteLisp.Value.Basic

/-!
# Bindings

The names that one scope binds, with their values. The entries are kept in increasing order of name
with one entry to a name, so a set of bindings has one representation only and listing it needs no
sorting. Names are ordered by code points, which is also the order of their bytes in UTF-8.
-/

namespace QuoteLisp

/-- Names with their values, in increasing order of name. -/
abbrev Bindings := List (String × Value)

namespace Bindings

/-- The value of a name. -/
def find? (bindings : Bindings) (name : String) : Option Value :=
  bindings.lookup name

/-- Binds a name to a value, in place of the value it had. -/
def insert (name : String) (value : Value) : Bindings → Bindings
  | [] => [(name, value)]
  | (other, held) :: rest =>
    if name = other then (name, value) :: rest
    else if name < other then (name, value) :: (other, held) :: rest
    else (other, held) :: insert name value rest

/-- The bindings made one after another from a list, a later entry replacing an earlier one. -/
def ofList (entries : List (String × Value)) : Bindings :=
  entries.foldl (fun bindings (name, value) ↦ insert name value bindings) []

/-- After a binding is made, its name has the new value and every other name the value it had. -/
theorem find?_insert (bindings : Bindings) (name other : String) (value : Value) :
    find? (insert name value bindings) other
      = if other = name then some value else find? bindings other := by
  induction bindings with
  | nil => grind [insert, find?]
  | cons entry rest ih => grind [insert, find?]

end Bindings

end QuoteLisp
