import Lwfs.Support.TclistRules

/-!
The calls of `list.c` that are made of others, and the lock in each mode.

In the modes `TC_LOCK_NONE` and `TC_LOCK_SLOPPY` a thread has the lock during
each call only. In `TC_LOCK_STRICT` it keeps the lock as long as it is at an
item: `tclist_next` takes it on the way into the list, and gives it back at the
end of the list or in `tclist_unlock`.

One thread uses the list here. The functions it hands in, to compare and to free
data, do not call the list, whose lock is held while they run. To take a lock
that the thread holds already has no result, and neither has giving back one
that it does not hold.
-/

namespace Lwfs.Support

open SysLib DoublyLinked

/-- `TC_LOCK_NONE`, `TC_LOCK_SLOPPY` and `TC_LOCK_STRICT`. -/
inductive Locking
  | none
  | sloppy
  | strict
  deriving DecidableEq

/-- A list with its lock. -/
structure LockedList (A F α : Type) where
  list : Tclist A F α
  locking : Locking
  held : Bool

namespace LockedList

variable {A F α : Type}

/-- `tclist_new`. -/
def new (locking : Locking) : LockedList A F α := ⟨.new, locking, false⟩

/-- `lock_list`. -/
def lockList (g : LockedList A F α) : Option (LockedList A F α) :=
  if g.locking = .none then some g
  else if g.held then none else some { g with held := true }

/-- `unlock_list`. -/
def unlockList (g : LockedList A F α) : Option (LockedList A F α) :=
  if g.locking = .none then some g
  else if g.held then some { g with held := false } else none

/-- The lock is taken under a condition. -/
def lockIf (p : Bool) (g : LockedList A F α) : Option (LockedList A F α) :=
  if p then g.lockList else some g

def unlockIf (p : Bool) (g : LockedList A F α) : Option (LockedList A F α) :=
  if p then g.unlockList else some g

section Calls

variable [DecidableEq A]

/-- `tclist_next` and `tclist_prev`. -/
def advance (dir : Direction) (g : LockedList A F α) (l : Option A) :
    Option (Option (A × α) × LockedList A F α) := do
  let g ← g.lockIf (g.locking ≠ .strict ∨ l.isNone)
  let (r, list) ← g.list.advance dir l
  let g ← unlockIf (g.locking ≠ .strict ∨ r.isNone) { g with list }
  some (r, g)

/-- `tclist_unlock`. -/
def unlock (g : LockedList A F α) (l : A) : Option (LockedList A F α) := do
  let g ← g.lockIf (g.locking ≠ .strict)
  let list ← g.list.unlock l
  unlockList { g with list }

/-- `tclist_remove`. -/
def remove (g : LockedList A F α) (l : A) (fr : Option F) :
    Option (LockedList A F α) := do
  let g ← g.lockIf (g.locking ≠ .strict)
  let list ← g.list.remove l fr
  unlockIf (g.locking ≠ .strict) { g with list }

/-- `tclist_push`. -/
def push (alloc : Allocator A (Node A (Item F α))) (g : LockedList A F α) (p : α) :
    Option (Bool × LockedList A F α) := do
  let g ← g.lockList
  let (done, list) ← g.list.push alloc p
  let g ← unlockList { g with list }
  some (done, g)

/-- `tclist_unshift`. -/
def unshift (alloc : Allocator A (Node A (Item F α))) (g : LockedList A F α) (p : α) :
    Option (Bool × LockedList A F α) := do
  let g ← g.lockList
  let (done, list) ← g.list.unshift alloc p
  let g ← unlockList { g with list }
  some (done, g)

/-- `tclist_shift` and `tclist_pop`. -/
def take (dir : Direction) (g : LockedList A F α) :
    Option (Option α × LockedList A F α) := do
  let (li, g) ← g.advance dir none
  match li with
  | none => some (none, g)
  | some (li, data) =>
      let g ← g.remove li none
      let g ← g.unlock li
      some (some data, g)

/-- `list_find_item`, where `cmp` says of an item if it is the one. -/
def findItemFrom (cmp : α → Bool) : ℕ → LockedList A F α → Option A →
    Option (Option (A × α) × LockedList A F α)
  | 0, _, _ => none
  | n + 1, g, li => do
      let (li, g) ← g.advance .next li
      match li with
      | none => some (none, g)
      | some (li, data) =>
          if cmp data then some (some (li, data), g)
          else findItemFrom cmp n g (some li)

def findItem (cmp : α → Bool) (g : LockedList A F α) :
    Option (Option (A × α) × LockedList A F α) :=
  findItemFrom cmp (g.list.items + 1) g none

/-- `tclist_find`, with what it stores at `ret`. -/
def find (cmp : α → Bool) (g : LockedList A F α) :
    Option (Option α × LockedList A F α) := do
  let (l, g) ← g.findItem cmp
  match l with
  | none => some (none, g)
  | some (l, data) =>
      let g ← g.unlock l
      some (some data, g)

end Calls

end LockedList

/-- What `tclist_search` returns: 0, 1 or `-ENOMEM`. -/
inductive Searched (α : Type)
  | found (data : α)
  | pushed
  | noMemory

namespace LockedList

variable {A F α : Type} [DecidableEq A]

/-- `tclist_search`. -/
def search (alloc : Allocator A (Node A (Item F α))) (cmp : α → Bool)
    (g : LockedList A F α) (p : α) : Option (Searched α × LockedList A F α) := do
  let (l, g) ← g.findItem cmp
  match l with
  | some (l, data) =>
      let g ← g.unlock l
      some (.found data, g)
  | none =>
      let (done, g) ← g.push alloc p
      some (if done then .pushed else .noMemory, g)

/-- `tclist_delete`. -/
def delete (cmp : α → Bool) (fr : Option F) (g : LockedList A F α) :
    Option (Bool × LockedList A F α) := do
  let (li, g) ← g.findItem cmp
  match li with
  | none => some (false, g)
  | some (li, _) =>
      let g ← g.remove li fr
      let g ← g.unlock li
      some (true, g)

/-- `tclist_delete_matched`. -/
def deleteMatchedFrom (cmp : α → Bool) (fr : Option F) : ℕ → ℕ →
    LockedList A F α → Option A → Option (ℕ × LockedList A F α)
  | 0, _, _, _ => none
  | m + 1, n, g, li => do
      let (li, g) ← g.advance .next li
      match li with
      | none => some (n, g)
      | some (li, data) =>
          if cmp data then
            (g.remove li fr).bind fun g => deleteMatchedFrom cmp fr m (n + 1) g (some li)
          else deleteMatchedFrom cmp fr m n g (some li)

def deleteMatched (cmp : α → Bool) (fr : Option F) (g : LockedList A F α) :
    Option (ℕ × LockedList A F α) :=
  deleteMatchedFrom cmp fr (g.list.items + 1) 0 g none

/-- `tclist_head` and `tclist_tail`. -/
def peek (dir : Direction) (g : LockedList A F α) :
    Option (Option α × LockedList A F α) := do
  let g ← g.lockList
  let data ← match g.list.endOf dir with
    | none => some none
    | some l => (g.list.links.store l).map fun node => some node.value.data
  let g ← g.unlockList
  some (data, g)

/-- The loop of `tclist_destroy`, which frees the items as they are. -/
def destroyFrom (lfree : Option F) : ℕ → Tclist A F α → Option (Tclist A F α)
  | 0, _ => none
  | n + 1, lst =>
      match lst.links.start with
      | none => some lst
      | some l =>
          (lst.setItem l fun item => { item with free := lfree }).bind fun lst =>
            (lst.listUnlink l).bind (destroyFrom lfree n)

/-- `tclist_destroy`, with the data that it frees and what is still allocated
of the items. `tclist_free` frees the list itself if it has no start. -/
def destroy (lfree : Option F) (g : LockedList A F α) :
    Option (Bool × LockedList A F α) := do
  let g ← g.lockList
  let list ← destroyFrom lfree (g.list.items + 1) g.list
  let g ← unlockList { g with list }
  some (g.list.links.start.isNone, g)

end LockedList

end Lwfs.Support
