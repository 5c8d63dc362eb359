import RegisterMachine.Text.Case
import Std.Data.ExtTreeMap

/-!
# Label tables

A label table maps names to the indices of instructions. Names that differ only
in the case of ASCII letters are the same: the table holds them in upper case.

* `get?_insert`: an entry replaces the one of its name, and no other;
* `ext_get?`: tables that map all names alike are equal.
-/

namespace RegisterMachine

/-- The indices by name, in upper case. -/
structure LabelTable where
  entries : Std.ExtTreeMap String Nat
  upper : ∀ name ∈ entries, name.toUpper = name
  deriving DecidableEq

namespace LabelTable

/-- The table without labels. -/
def empty : LabelTable := ⟨∅, by simp⟩

instance : EmptyCollection LabelTable := ⟨empty⟩

/-- The table with the entry of a name added or replaced. -/
def insert (table : LabelTable) (name : String) (index : Nat) : LabelTable where
  entries := table.entries.insert name.toUpper index
  upper other h := by
    rcases Std.ExtTreeMap.mem_insert.1 h with h | h
    · rw [← Std.LawfulEqCmp.eq_of_compare h, Case.toUpper_toUpper]
    · exact table.upper other h

/-- The index of a name. -/
def get? (table : LabelTable) (name : String) : Option Nat :=
  table.entries[name.toUpper]?

/-- The number of labels. -/
def size (table : LabelTable) : Nat := table.entries.size

/-- Whether there are no labels. -/
def isEmpty (table : LabelTable) : Bool := table.entries.isEmpty

/-- The entries in the order of their names by code point. -/
def toList (table : LabelTable) : List (String × Nat) := table.entries.toList

@[simp] theorem get?_empty (name : String) : (∅ : LabelTable).get? name = none :=
  Std.ExtTreeMap.getElem?_empty

theorem get?_insert (table : LabelTable) (name other : String) (index : Nat) :
    (table.insert name index).get? other =
      if name.toUpper = other.toUpper then some index else table.get? other := by
  simp [get?, insert, Std.ExtTreeMap.getElem?_insert]

theorem ext_get? {table other : LabelTable} (h : ∀ name, table.get? name = other.get? name) :
    table = other := by
  suffices heq : table.entries = other.entries by
    cases table; cases other; cases heq; rfl
  refine Std.ExtTreeMap.ext_getElem? fun name => ?_
  by_cases hu : name.toUpper = name
  · simpa [get?, hu] using h name
  · rw [Std.ExtTreeMap.getElem?_eq_none fun hm => hu (table.upper name hm),
      Std.ExtTreeMap.getElem?_eq_none fun hm => hu (other.upper name hm)]

end LabelTable

end RegisterMachine
