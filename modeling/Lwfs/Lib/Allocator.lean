import Mathlib.Tactic.Common

/-!
Memory that is handed out.
-/

namespace SysLib

/-- `malloc` for objects of one type. It returns memory that is not in use, if
there is any. -/
structure Allocator (A N : Type) where
  malloc : (A → Option N) → Option A
  unused : ∀ store a, malloc store = some a → store a = none

/-- Memory of one cell. -/
def oneCell {A N : Type} (cell : A) : Allocator A N where
  malloc store := if (store cell).isSome then none else some cell
  unused store a h := by
    split at h
    · cases h
    · next hnone =>
        cases h
        simpa using hnone

end SysLib
