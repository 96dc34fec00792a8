import Lwfs.Lib.Allocator
import Lwfs.Lib.DoublyLinked
import Mathlib.Algebra.Group.Int.Defs

/-!
The list of `list.c`, which threads go through while others change it.

An item that is removed stays in the list while a thread is at it: the item
counts the threads (`ic`) and, in `rc`, the list itself with them. The last
one to leave takes the item out of the list and frees it.

Each call that changes the list is under its lock, and so is each that goes
through it; `tclist_items` is not. What follows a null pointer, or one to freed
memory, has no result.
-/

namespace Lwfs.Support

open SysLib DoublyLinked

/-- `struct tclist_item`, without its pointers to others. `free` is null or a
function, which is one of `F`. -/
structure Item (F α : Type) where
  data : α
  rc : ℤ
  ic : ℤ
  free : Option F
  deleted : Bool

/-- `struct tclist`, and the calls of the functions that free data. -/
structure Tclist (A F α : Type) where
  links : Links A (Item F α)
  items : ℕ
  deleted : ℕ
  freed : List (F × α)

/-- `tclist_next` or `tclist_prev`. -/
inductive Direction
  | next
  | prev

/-- Where a node points in a direction. -/
def Direction.of {A F α : Type} (node : Node A (Item F α)) : Direction → Option A
  | .next => node.next
  | .prev => node.prev

/-- The items in the order of a direction. -/
def Direction.along {β : Type} : Direction → List β → List β
  | .next, s => s
  | .prev, s => s.reverse

theorem Direction.mem_along {β : Type} (dir : Direction) {s : List β} {b : β} :
    b ∈ dir.along s ↔ b ∈ s := by
  cases dir <;> simp [Direction.along]

theorem Direction.along_filter {β : Type} (dir : Direction) (s : List β)
    (p : β → Bool) : dir.along (s.filter p) = (dir.along s).filter p := by
  cases dir <;> simp [Direction.along]

theorem Direction.length_along {β : Type} (dir : Direction) (s : List β) :
    (dir.along s).length = s.length := by
  cases dir <;> simp [Direction.along]

namespace Tclist

variable {A F α : Type}

/-- `tclist_new`. -/
def new : Tclist A F α := ⟨⟨none, none, fun _ => none⟩, 0, 0, []⟩

/-- `new_item`. -/
def newItem (p : α) : Item F α := ⟨p, 1, 0, none, false⟩

/-- `tclist_items`, which takes no lock. -/
def count (lst : Tclist A F α) : ℕ := lst.items - lst.deleted

/-- The end of the list that a direction starts from. -/
def endOf (lst : Tclist A F α) : Direction → Option A
  | .next => lst.links.start
  | .prev => lst.links.last

section Update

variable [DecidableEq A]

/-- The call of the function that frees the data, if there is one. -/
def callFree (free : Option F) (data : α) : List (F × α) :=
  match free with
  | none => []
  | some free => [(free, data)]

/-- The call that will free the data of an item that is still there. -/
def due (lst : Tclist A F α) (l : A) : List (F × α) :=
  match lst.links.store l with
  | none => []
  | some node => callFree node.value.free node.value.data

/-- `list_unlink`. -/
def listUnlink (lst : Tclist A F α) (l : A) : Option (Tclist A F α) :=
  (lst.links.store l).bind fun node =>
    (lst.links.unlink l).map fun links =>
      { links
        items := lst.items - 1
        deleted := if node.value.deleted then lst.deleted - 1 else lst.deleted
        freed := lst.freed ++ callFree node.value.free node.value.data }

def setItem (lst : Tclist A F α) (l : A) (f : Item F α → Item F α) :
    Option (Tclist A F α) :=
  (lst.links.setValue l f).map fun links => { lst with links }

/-- `list_ref`. -/
def listRef (lst : Tclist A F α) (l : A) : Option (Tclist A F α) :=
  lst.setItem l fun item => { item with rc := item.rc + 1 }

/-- `list_deref`. -/
def listDeref (lst : Tclist A F α) (l : A) : Option (Tclist A F α) :=
  (lst.setItem l fun item => { item with rc := item.rc - 1 }).bind fun lst =>
    (lst.links.store l).bind fun node =>
      if node.value.rc ≤ 0 ∧ node.value.ic ≤ 0 then lst.listUnlink l else some lst

/-- A thread leaves an item. -/
def leave (lst : Tclist A F α) (l : A) : Option (Tclist A F α) :=
  (lst.setItem l fun item => { item with ic := item.ic - 1 }).bind fun lst =>
    lst.listDeref l

/-- `tclist_unlock`. -/
def unlock (lst : Tclist A F α) (l : A) : Option (Tclist A F α) := lst.leave l

/-- `tclist_remove`. -/
def remove (lst : Tclist A F α) (l : A) (fr : Option F) : Option (Tclist A F α) :=
  (lst.setItem l fun item => { item with deleted := true, free := fr }).bind fun lst =>
    listDeref { lst with deleted := lst.deleted + 1 } l

/-- `tclist_push`. Without memory for the item it returns `-ENOMEM`. -/
def push (alloc : Allocator A (Node A (Item F α))) (lst : Tclist A F α) (p : α) :
    Option (Bool × Tclist A F α) :=
  match alloc.malloc lst.links.store with
  | none => some (false, lst)
  | some l => (lst.links.append l (newItem p)).map fun links =>
      (true, { lst with links, items := lst.items + 1 })

/-- `tclist_unshift`. -/
def unshift (alloc : Allocator A (Node A (Item F α))) (lst : Tclist A F α) (p : α) :
    Option (Bool × Tclist A F α) :=
  match alloc.malloc lst.links.store with
  | none => some (false, lst)
  | some l => (lst.links.prepend l (newItem p)).map fun links =>
      (true, { lst with links, items := lst.items + 1 })

/-- The thread goes to an item, which counts it. -/
def arrive (lst : Tclist A F α) : Option A → Option (Tclist A F α)
  | none => some lst
  | some l => lst.setItem l fun item => { item with ic := item.ic + 1 }

def refNext (lst : Tclist A F α) : Option A → Option (Tclist A F α)
  | none => some lst
  | some l => lst.listRef l

/-- The body of the loop in `tclist_next` and `tclist_prev`. -/
def hop (dir : Direction) (lst : Tclist A F α) :
    Option A → Option (Option A × Tclist A F α)
  | none => do
      let ln := lst.endOf dir
      let lst ← lst.refNext ln
      let lst ← lst.arrive ln
      some (ln, lst)
  | some l => do
      let node ← lst.links.store l
      let ln := Direction.of node dir
      let lst ← lst.refNext ln
      let lst ← lst.leave l
      let lst ← lst.arrive ln
      some (ln, lst)

/-- `tclist_next` and `tclist_prev`, which go on from items that are removed.
They make at most as many turns as the list has items, and one more. -/
def advanceFrom (dir : Direction) : ℕ → Tclist A F α → Option A →
    Option (Option (A × α) × Tclist A F α)
  | 0, _, _ => none
  | n + 1, lst, l => do
      let (l, lst) ← lst.hop dir l
      match l with
      | none => some (none, lst)
      | some l =>
          let node ← lst.links.store l
          if node.value.deleted then advanceFrom dir n lst (some l)
          else some (some (l, node.value.data), lst)

def advance (dir : Direction) (lst : Tclist A F α) (l : Option A) :
    Option (Option (A × α) × Tclist A F α) :=
  advanceFrom dir (lst.items + 1) lst l

end Update

end Tclist

end Lwfs.Support
