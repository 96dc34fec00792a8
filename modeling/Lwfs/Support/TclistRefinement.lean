import Lwfs.Lib.Refinement
import Lwfs.Support.TclistCalls

/-!
A list of `list.c` is a list.

Whatever calls one thread makes, in whatever mode, they answer what a plain
list answers, the data of the elements that are deleted is freed with the
function that the call names, and the lock is not held in the end. Destroying
the list frees the data of the others and all memory of the items. The functions
that compare and free data do not call the list.
-/

namespace Lwfs.Support

open SysLib DoublyLinked Refinement

variable {A F α : Type}

/-- Whether a thread has the lock between calls, when it is at an item or at
none. -/
def Locking.holds {β : Type} (k : Locking) (l : Option β) : Bool :=
  l.isSome && k = .strict

@[simp] theorem Locking.holds_some {β : Type} (k : Locking) (b : β) :
    k.holds (some b) = decide (k = .strict) := rfl

namespace LockedList

/-! ### The lock -/

section Lock

variable (lst : Tclist A F α) (k : Locking)

/-- During a call the lock is held, if there is one. -/
theorem lockIf_holds {β : Type} (l : Option β) :
    lockIf (k ≠ .strict ∨ l.isNone) ⟨lst, k, k.holds l⟩ =
      some ⟨lst, k, k ≠ .none⟩ := by
  cases k <;> cases l <;> rfl

theorem unlockIf_holds {β : Type} (l : Option β) :
    unlockIf (k ≠ .strict ∨ l.isNone) ⟨lst, k, k ≠ .none⟩ =
      some ⟨lst, k, k.holds l⟩ := by
  cases k <;> cases l <;> rfl

theorem lockIf_at {β : Type} (b : β) :
    lockIf (k ≠ .strict) ⟨lst, k, k.holds (some b)⟩ = some ⟨lst, k, k ≠ .none⟩ := by
  simpa using lockIf_holds lst k (some b)

theorem unlockIf_at {β : Type} (b : β) :
    unlockIf (k ≠ .strict) ⟨lst, k, k ≠ .none⟩ = some ⟨lst, k, k.holds (some b)⟩ := by
  simpa using unlockIf_holds lst k (some b)

theorem lockList_of_free : lockList ⟨lst, k, false⟩ = some ⟨lst, k, k ≠ .none⟩ := by
  cases k <;> rfl

theorem unlockList_of_held :
    unlockList ⟨lst, k, k ≠ .none⟩ = some ⟨lst, k, false⟩ := by
  cases k <;> rfl

variable [DecidableEq A]

theorem advance_eq (dir : Direction) (l : Option A) :
    advance dir ⟨lst, k, k.holds l⟩ l =
      (lst.advance dir l).map fun r => (r.1, ⟨r.2, k, k.holds r.1⟩) := by
  simp only [advance, lockIf_holds]
  cases hadvance : lst.advance dir l with
  | none => simp [hadvance]
  | some r =>
      simp only [hadvance, Option.bind_eq_bind, Option.bind_some, Option.map_some,
        unlockIf_holds]

theorem unlock_eq (l : A) :
    unlock ⟨lst, k, k.holds (some l)⟩ l =
      (lst.unlock l).map fun lst => ⟨lst, k, false⟩ := by
  simp only [unlock, lockIf_at]
  cases hunlock : lst.unlock l with
  | none => simp [hunlock]
  | some lst' =>
      simp only [hunlock, Option.bind_eq_bind, Option.bind_some, Option.map_some,
        unlockList_of_held]

theorem remove_eq (l : A) (fr : Option F) :
    remove ⟨lst, k, k.holds (some l)⟩ l fr =
      (lst.remove l fr).map fun lst => ⟨lst, k, k.holds (some l)⟩ := by
  simp only [remove, lockIf_at]
  cases hremove : lst.remove l fr with
  | none => simp [hremove]
  | some lst' =>
      simp only [hremove, Option.bind_eq_bind, Option.bind_some, Option.map_some,
        unlockIf_at lst' k l]

theorem push_eq (alloc : Allocator A (Node A (Item F α))) (p : α) :
    push alloc ⟨lst, k, false⟩ p =
      (lst.push alloc p).map fun r => (r.1, ⟨r.2, k, false⟩) := by
  simp only [push, lockList_of_free]
  cases hpush : lst.push alloc p with
  | none => simp [hpush]
  | some r =>
      simp only [hpush, Option.bind_eq_bind, Option.bind_some, Option.map_some,
        unlockList_of_held]

theorem unshift_eq (alloc : Allocator A (Node A (Item F α))) (p : α) :
    unshift alloc ⟨lst, k, false⟩ p =
      (lst.unshift alloc p).map fun r => (r.1, ⟨r.2, k, false⟩) := by
  simp only [unshift, lockList_of_free]
  cases hunshift : lst.unshift alloc p with
  | none => simp [hunshift]
  | some r =>
      simp only [hunshift, Option.bind_eq_bind, Option.bind_some, Option.map_some,
        unlockList_of_held]

end Lock

end LockedList

/-! ### One thread -/

theorem Direction.along_map {β γ : Type} (dir : Direction) (s : List β) (f : β → γ) :
    (dir.along s).map f = dir.along (s.map f) := by
  cases dir <;> simp [Direction.along]

/-- The first element of a direction is somewhere in the list. -/
theorem Direction.exists_split {β : Type} (dir : Direction) {s rest : List β} {b : β}
    (h : dir.along s = b :: rest) :
    ∃ pre post, s = pre ++ b :: post ∧ dir.along (pre ++ post) = rest := by
  cases dir with
  | next => exact ⟨[], rest, h, rfl⟩
  | prev =>
      refine ⟨rest.reverse, [], ?_, by simp [Direction.along]⟩
      rw [← List.reverse_reverse s]
      change (Direction.along .prev s).reverse = _
      rw [h, List.reverse_cons]

namespace Tclist

/-- The items that are not removed. -/
def live (s : List (A × Cell F α)) : List (A × Cell F α) :=
  s.filter fun p => !p.2.deleted

/-- The data of the items that are. -/
def dropped (s : List (A × Cell F α)) : List (F × α) :=
  (s.filter fun p => p.2.deleted).flatMap fun p => callFree p.2.free p.2.data

@[simp] theorem live_append (s s' : List (A × Cell F α)) :
    live (s ++ s') = live s ++ live s' := List.filter_append _ _

@[simp] theorem dropped_append (s s' : List (A × Cell F α)) :
    dropped (s ++ s') = dropped s ++ dropped s' := by
  simp [dropped]

theorem live_of_forall {s : List (A × Cell F α)}
    (h : ∀ p ∈ s, p.2.deleted = false) : live s = s := by
  rw [live, List.filter_eq_self]
  intro p hp
  simp [h p hp]

theorem dropped_of_forall {s : List (A × Cell F α)}
    (h : ∀ p ∈ s, p.2.deleted = false) : dropped s = [] := by
  have hnone : (s.filter fun p => p.2.deleted) = [] := by
    apply List.filter_eq_nil_iff.mpr
    intro p hp
    simp [h p hp]
  rw [dropped, hnone, List.flatMap_nil]

theorem live_of_mem_live {s : List (A × Cell F α)} :
    ∀ p ∈ live s, p.2.deleted = false := by
  intro p hp
  simpa using (List.mem_filter.mp hp).2

@[simp] theorem live_live (s : List (A × Cell F α)) : live (live s) = live s :=
  live_of_forall live_of_mem_live

@[simp] theorem dropped_live (s : List (A × Cell F α)) : dropped (live s) = [] :=
  dropped_of_forall live_of_mem_live

section Alone

variable [DecidableEq A] {lst : Tclist A F α} {s behind rest pre post : List (A × Cell F α)}
  {c : Option A} {dir : Direction} {l : A} {cell : Cell F α}

/-- The one thread is counted at the item it is at. -/
def atItem (c : Option A) : A → ℤ := fun a => if c = some a then 1 else 0

theorem moved_atItem (c n : Option A) : moved (atItem c) c n = atItem n := by
  ext1 a
  simp only [moved, atItem]
  split <;> simp

theorem atItem_pos {a : A} : 0 < atItem c a ↔ c = some a := by
  simp only [atItem]
  split <;> simp [*]

/-- Only the item that the thread is at can be a removed one. -/
theorem Sound.at_deleted (h : Sound lst s (atItem c)) {p : A × Cell F α} (hp : p ∈ s)
    (hdeleted : p.2.deleted = true) : c = some p.1 :=
  atItem_pos.mp (h.kept p hp hdeleted)

theorem Sound.all_live (h : Sound lst s (atItem none)) :
    ∀ p ∈ s, p.2.deleted = false := by
  intro p hp
  cases hdeleted : p.2.deleted with
  | false => rfl
  | true => cases h.at_deleted hp hdeleted

/-- The items that go when the thread leaves are the removed ones. -/
theorem Sound.leaves_iff (h : Sound lst s (atItem c)) {p : A × Cell F α} (hp : p ∈ s) :
    (c = some p.1 ∧ p.2.deleted = true ∧ atItem c p.1 = 1) ↔ p.2.deleted = true := by
  constructor
  · rintro ⟨-, hdeleted, -⟩
    exact hdeleted
  · intro hdeleted
    have hc := h.at_deleted hp hdeleted
    exact ⟨hc, hdeleted, if_pos hc⟩

theorem Sound.left_eq (h : Sound lst s (atItem c)) : left (atItem c) c s = live s := by
  apply List.filter_congr
  intro p hp
  simp [h.leaves_iff hp]

theorem Sound.freedBy_eq (h : Sound lst s (atItem c)) :
    freedBy (atItem c) c s = dropped s := by
  rw [freedBy, dropped]
  congr 1
  apply List.filter_congr
  intro p hp
  simp [h.leaves_iff hp]

/-- The items ahead are not removed. -/
theorem Position.rest_live (hpos : Position dir s c behind rest)
    (h : Sound lst s (atItem c)) : ∀ p ∈ rest, p.2.deleted = false := by
  intro p hp
  have hmem : p ∈ dir.along s := hpos.along ▸ List.mem_append_right behind hp
  cases hdeleted : p.2.deleted with
  | false => rfl
  | true =>
      exact absurd (h.at_deleted (dir.mem_along.mp hmem) hdeleted)
        (hpos.notMem h.shows.nodup hp)

/-- The thread goes to the next item, and a removed one that it was at goes. -/
theorem Sound.advance_alone (h : Sound lst s (atItem c))
    (hpos : Position dir s c behind rest) :
    ∃ lst', lst.advance dir c =
        some (rest.head?.map fun p => (p.1, p.2.data), lst') ∧
      Sound lst' (live s) (atItem (firstOf rest)) ∧
      lst'.freed = lst.freed ++ dropped s := by
  obtain ⟨lst', hadvance, hsound, hfreed⟩ :=
    h.advance (fun _ ha => atItem_pos.mpr ha) hpos
  have hnext : nextLive rest = rest.head?.map fun p => (p.1, p.2.data) := by
    have hlive := hpos.rest_live h
    cases rest with
    | nil => rfl
    | cons p rest => simp [nextLive, hlive p List.mem_cons_self]
  have hfst : (nextLive rest).map Prod.fst = firstOf rest := by
    rw [hnext, Option.map_map]
    rfl
  rw [h.left_eq, moved_atItem, hfst] at hsound
  rw [h.freedBy_eq] at hfreed
  exact ⟨lst', hnext ▸ hadvance, hsound, hfreed⟩

theorem Position.advance_alone {p : A × Cell F α}
    (hpos : Position dir s c behind (p :: rest)) (h : Sound lst s (atItem c)) :
    Position dir (live s) (some p.1) (live behind ++ [p]) rest := by
  refine ⟨?_, by simp⟩
  rw [live, Direction.along_filter, hpos.along]
  change live (behind ++ p :: rest) = _
  rw [live_append, live_of_forall (hpos.rest_live h), List.append_assoc]
  rfl

/-- The thread leaves an item that stays. -/
theorem Sound.unlock_alone (h : Sound lst s (atItem (some l)))
    (hlive : ∀ p ∈ s, p.2.deleted = false) :
    ∃ lst', lst.unlock l = some lst' ∧ Sound lst' s (atItem none) ∧
      lst'.freed = lst.freed := by
  obtain ⟨lst', hunlock, hsound, hfreed⟩ := h.unlock (atItem_pos.mpr rfl)
  rw [h.left_eq, live_of_forall hlive, moved_atItem] at hsound
  rw [h.freedBy_eq, dropped_of_forall hlive, List.append_nil] at hfreed
  exact ⟨lst', hunlock, hsound, hfreed⟩

/-- The thread removes the item that it is at. -/
theorem Sound.remove_alone (h : Sound lst (pre ++ (l, cell) :: post) (atItem (some l)))
    (hlive : cell.deleted = false) (fr : Option F) :
    ∃ lst', lst.remove l fr = some lst' ∧
      Sound lst' (pre ++ (l, ⟨cell.data, fr, true⟩) :: post) (atItem (some l)) ∧
      lst'.freed = lst.freed := by
  obtain ⟨lst', hremove, hsound, hfreed⟩ :=
    h.remove (by simp) hlive (atItem_pos.mpr rfl) fr
  rw [marked_of_split h.shows.nodup] at hsound
  exact ⟨lst', hremove, hsound, hfreed⟩

/-- It leaves the item that it has removed, and the item goes. -/
theorem Sound.discard (h : Sound lst (pre ++ (l, cell) :: post) (atItem (some l)))
    (hlive : ∀ p ∈ pre ++ post, p.2.deleted = false)
    (hdeleted : cell.deleted = true) :
    ∃ lst', lst.unlock l = some lst' ∧ Sound lst' (pre ++ post) (atItem none) ∧
      lst'.freed = lst.freed ++ callFree cell.free cell.data := by
  obtain ⟨lst', hunlock, hsound, hfreed⟩ := h.unlock (atItem_pos.mpr rfl)
  have hpre : ∀ p ∈ pre, p.2.deleted = false := fun p hp =>
    hlive p (List.mem_append_left post hp)
  have hpost : ∀ p ∈ post, p.2.deleted = false := fun p hp =>
    hlive p (List.mem_append_right pre hp)
  have hleft : live (pre ++ (l, cell) :: post) = pre ++ post := by
    rw [List.append_cons, live_append, live_append, live_of_forall hpre,
      live_of_forall hpost]
    simp [live, hdeleted]
  have hdropped : dropped (pre ++ (l, cell) :: post) =
      callFree cell.free cell.data := by
    rw [List.append_cons, dropped_append, dropped_append, dropped_of_forall hpre,
      dropped_of_forall hpost]
    simp [dropped, hdeleted]
  rw [h.left_eq, hleft, moved_atItem] at hsound
  rw [h.freedBy_eq, hdropped] at hfreed
  exact ⟨lst', hunlock, hsound, hfreed⟩

end Alone

end Tclist

namespace LockedList

open Tclist

/-! ### The calls on a list with no thread in it -/

section Calls

variable [DecidableEq A] {lst : Tclist A F α} {s behind rest : List (A × Cell F α)}
  {c : Option A} {k : Locking}

/-- The calls that end a visit to the list, one after the other. -/
theorem remove_unlock {pre post : List (A × Cell F α)} {p : A × Cell F α}
    (h : Sound lst (pre ++ p :: post) (atItem (some p.1)))
    (hlive : ∀ q ∈ pre ++ p :: post, q.2.deleted = false) (fr : Option F) :
    ∃ g lst', remove ⟨lst, k, k.holds (some p.1)⟩ p.1 fr = some g ∧
      unlock g p.1 = some ⟨lst', k, false⟩ ∧
      Sound lst' (pre ++ post) (atItem none) ∧
      lst'.freed = lst.freed ++ callFree fr p.2.data := by
  obtain ⟨lst₁, hremove, hsound, hfreed⟩ := h.remove_alone (hlive p (by simp)) fr
  have hothers : ∀ q ∈ pre ++ post, q.2.deleted = false := by
    intro q hq
    apply hlive q
    rw [List.mem_append] at hq ⊢
    exact hq.imp_right (List.mem_cons_of_mem _)
  obtain ⟨lst', hunlock, hsound', hfreed'⟩ := hsound.discard hothers rfl
  refine ⟨⟨lst₁, k, k.holds (some p.1)⟩, lst', ?_, ?_, hsound', by rw [hfreed', hfreed]⟩
  · rw [remove_eq, hremove, Option.map_some]
  · rw [unlock_eq, hunlock, Option.map_some]

/-- The way into a list. -/
theorem enter_spec (h : Sound lst s (atItem none)) (dir : Direction) :
    ∃ lst', advance dir ⟨lst, k, false⟩ none =
        some ((dir.along s).head?.map fun p => (p.1, p.2.data),
          ⟨lst', k, k.holds (dir.along s).head?⟩) ∧
      Sound lst' s (atItem (firstOf (dir.along s))) ∧ lst'.freed = lst.freed := by
  obtain ⟨lst', hadvance, hsound, hfreed⟩ := h.advance_alone (position_start dir s)
  rw [live_of_forall h.all_live] at hsound
  rw [dropped_of_forall h.all_live, List.append_nil] at hfreed
  refine ⟨lst', ?_, hsound, hfreed⟩
  have henter := advance_eq lst k dir none
  rw [hadvance, Option.map_some] at henter
  refine henter.trans ?_
  cases dir.along s <;> rfl

/-- `tclist_shift` and `tclist_pop` take the first item of a direction. -/
theorem take_spec (h : Sound lst s (atItem none)) (dir : Direction) :
    ∃ lst' s', take dir ⟨lst, k, false⟩ =
        some ((dir.along s).head?.map fun p => p.2.data, ⟨lst', k, false⟩) ∧
      Sound lst' s' (atItem none) ∧ dir.along s' = (dir.along s).tail ∧
      lst'.freed = lst.freed := by
  obtain ⟨lst₁, henter, hsound, hfreed⟩ := enter_spec (k := k) h dir
  cases hs : dir.along s with
  | nil =>
      rw [hs] at hsound henter
      refine ⟨lst₁, s, ?_, hsound, hs, hfreed⟩
      rw [take, henter]
      rfl
  | cons p rest =>
      rw [hs] at hsound henter
      obtain ⟨pre, post, rfl, hrest⟩ := dir.exists_split hs
      obtain ⟨g, lst', hremove, hunlock, hsound', hfreed'⟩ :=
        remove_unlock (k := k) hsound h.all_live none
      refine ⟨lst', pre ++ post, ?_, hsound', hrest, ?_⟩
      · rw [take, henter]
        change (remove ⟨lst₁, k, k.holds (some p.1)⟩ p.1 none).bind _ = _
        rw [hremove, Option.bind_some, hunlock]
        rfl
      · rw [hfreed', hfreed]
        exact List.append_nil _

/-- The loop of `list_find_item` stops at the first item that `cmp` says. -/
theorem findItemFrom_spec (cmp : α → Bool) {m : ℕ} (h : Sound lst s (atItem c))
    (hlive : ∀ p ∈ s, p.2.deleted = false) (hpos : Position .next s c behind rest)
    (hm : rest.length < m) :
    ∃ lst', findItemFrom cmp m ⟨lst, k, k.holds c⟩ c =
        some ((rest.find? fun p => cmp p.2.data).map fun p => (p.1, p.2.data),
          ⟨lst', k, k.holds (rest.find? fun p => cmp p.2.data)⟩) ∧
      Sound lst' s (atItem ((rest.find? fun p => cmp p.2.data).map Prod.fst)) ∧
      lst'.freed = lst.freed := by
  induction m generalizing lst c behind rest with
  | zero => cases hm
  | succ m ih =>
      obtain ⟨lst₁, hadvance, hsound, hfreed⟩ := h.advance_alone hpos
      rw [live_of_forall hlive] at hsound
      rw [dropped_of_forall hlive, List.append_nil] at hfreed
      rw [findItemFrom, advance_eq, hadvance]
      cases rest with
      | nil => exact ⟨lst₁, rfl, hsound, hfreed⟩
      | cons p rest =>
          cases hcmp : cmp p.2.data with
          | true =>
              refine ⟨lst₁, ?_, ?_, hfreed⟩
              · simp [hcmp, Locking.holds]
              · simpa [hcmp] using hsound
          | false =>
              have hpos' := hpos.advance_alone h
              rw [live_of_forall hlive] at hpos'
              obtain ⟨lst', hfind, hsound', hfreed'⟩ := ih hsound hpos' (by
                rw [List.length_cons] at hm
                omega)
              refine ⟨lst', ?_, ?_, hfreed'.trans hfreed⟩
              · simp only [Option.map_some, List.head?_cons, Option.bind_eq_bind,
                  Option.bind_some, hcmp, Bool.false_eq_true, if_false,
                  List.find?_cons]
                exact hfind
              · simpa [hcmp] using hsound'

/-- The data of the items. -/
def values (s : List (A × Cell F α)) : List α := s.map fun p => p.2.data

omit [DecidableEq A] in
@[simp] theorem values_append (s s' : List (A × Cell F α)) :
    values (s ++ s') = values s ++ values s' := List.map_append

omit [DecidableEq A] in
@[simp] theorem values_cons (p : A × Cell F α) (s : List (A × Cell F α)) :
    values (p :: s) = p.2.data :: values s := rfl

omit [DecidableEq A] in
theorem find?_values (s : List (A × Cell F α)) (cmp : α → Bool) :
    (values s).find? cmp = (s.find? fun p => cmp p.2.data).map fun p => p.2.data :=
  List.find?_map

/-- `list_find_item` stays at what it finds. -/
theorem findItem_spec (h : Sound lst s (atItem none)) (cmp : α → Bool) :
    (∃ lst', findItem cmp ⟨lst, k, false⟩ = some (none, ⟨lst', k, false⟩) ∧
        (values s).find? cmp = none ∧ Sound lst' s (atItem none) ∧
        lst'.freed = lst.freed) ∨
      ∃ p lst', (values s).find? cmp = some p.2.data ∧
        (∃ pre post, s = pre ++ p :: post ∧ cmp p.2.data = true ∧
          ∀ q ∈ pre, cmp q.2.data = false) ∧
        findItem cmp ⟨lst, k, false⟩ =
          some (some (p.1, p.2.data), ⟨lst', k, k.holds (some p.1)⟩) ∧
        Sound lst' s (atItem (some p.1)) ∧ lst'.freed = lst.freed := by
  have hm : s.length < lst.items + 1 := by
    rw [h.shows.items]
    exact Nat.lt_succ_self _
  obtain ⟨lst', hfind, hsound, hfreed⟩ :=
    findItemFrom_spec (k := k) cmp h h.all_live (position_start .next s) hm
  have hvalues := find?_values s cmp
  cases hs : s.find? fun p => cmp p.2.data with
  | none =>
      rw [Direction.along, hs] at hfind hsound
      rw [hs] at hvalues
      exact .inl ⟨lst', hfind, hvalues, hsound, hfreed⟩
  | some p =>
      rw [Direction.along, hs] at hfind hsound
      rw [hs] at hvalues
      obtain ⟨hcmp, pre, post, hsplit, hpre⟩ := List.find?_eq_some_iff_append.mp hs
      refine .inr ⟨p, lst', hvalues, ⟨pre, post, hsplit, hcmp, fun q hq => ?_⟩, hfind,
        hsound, hfreed⟩
      simpa using hpre q hq

/-- The thread leaves what it has found. -/
theorem unlock_found {p : A × Cell F α} (h : Sound lst s (atItem (some p.1)))
    (hlive : ∀ q ∈ s, q.2.deleted = false) :
    ∃ lst', unlock ⟨lst, k, k.holds (some p.1)⟩ p.1 = some ⟨lst', k, false⟩ ∧
      Sound lst' s (atItem none) ∧ lst'.freed = lst.freed := by
  obtain ⟨lst', hunlock, hsound, hfreed⟩ := h.unlock_alone hlive
  exact ⟨lst', by rw [unlock_eq, hunlock, Option.map_some], hsound, hfreed⟩

theorem find_spec (h : Sound lst s (atItem none)) (cmp : α → Bool) :
    ∃ lst', find cmp ⟨lst, k, false⟩ = some ((values s).find? cmp, ⟨lst', k, false⟩) ∧
      Sound lst' s (atItem none) ∧ lst'.freed = lst.freed := by
  obtain ⟨lst₁, hfind, hnone, hsound, hfreed⟩ |
    ⟨p, lst₁, hsome, -, hfind, hsound, hfreed⟩ := findItem_spec (k := k) h cmp
  · refine ⟨lst₁, ?_, hsound, hfreed⟩
    rw [find, hfind, hnone]
    rfl
  · obtain ⟨lst', hunlock, hsound', hfreed'⟩ := unlock_found (k := k) hsound h.all_live
    refine ⟨lst', ?_, hsound', hfreed'.trans hfreed⟩
    rw [find, hfind, hsome]
    change (unlock ⟨lst₁, k, k.holds (some p.1)⟩ p.1).bind _ = _
    rw [hunlock]
    rfl

theorem push_spec (h : Sound lst s (atItem none))
    (alloc : Allocator A (Node A (Item F α))) (p : α) :
    ((∃ store, alloc.malloc store = none) ∧
        push alloc ⟨lst, k, false⟩ p = some (false, ⟨lst, k, false⟩)) ∨
      ∃ lst' s', push alloc ⟨lst, k, false⟩ p = some (true, ⟨lst', k, false⟩) ∧
        Sound lst' s' (atItem none) ∧ values s' = values s ++ [p] ∧
        lst'.freed = lst.freed := by
  obtain ⟨hfull, hpush⟩ | ⟨l, lst', -, hpush, hsound, hfreed⟩ := h.push alloc p
  · exact .inl ⟨⟨_, hfull⟩, by rw [push_eq, hpush, Option.map_some]⟩
  · exact .inr ⟨lst', _, by rw [push_eq, hpush, Option.map_some], hsound,
      values_append _ _, hfreed⟩

theorem unshift_spec (h : Sound lst s (atItem none))
    (alloc : Allocator A (Node A (Item F α))) (p : α) :
    ((∃ store, alloc.malloc store = none) ∧
        unshift alloc ⟨lst, k, false⟩ p = some (false, ⟨lst, k, false⟩)) ∨
      ∃ lst' s', unshift alloc ⟨lst, k, false⟩ p = some (true, ⟨lst', k, false⟩) ∧
        Sound lst' s' (atItem none) ∧ values s' = p :: values s ∧
        lst'.freed = lst.freed := by
  obtain ⟨hfull, hunshift⟩ | ⟨l, lst', -, hunshift, hsound, hfreed⟩ := h.unshift alloc p
  · exact .inl ⟨⟨_, hfull⟩, by rw [unshift_eq, hunshift, Option.map_some]⟩
  · exact .inr ⟨lst', _, by rw [unshift_eq, hunshift, Option.map_some], hsound,
      values_cons _ _, hfreed⟩

/-- `tclist_search` gives the lock back before it adds what it has not found. -/
theorem search_spec (h : Sound lst s (atItem none))
    (alloc : Allocator A (Node A (Item F α))) (cmp : α → Bool) (p : α) :
    (∃ d lst', (values s).find? cmp = some d ∧
        search alloc cmp ⟨lst, k, false⟩ p = some (.found d, ⟨lst', k, false⟩) ∧
        Sound lst' s (atItem none) ∧ lst'.freed = lst.freed) ∨
      (values s).find? cmp = none ∧
        (((∃ store, alloc.malloc store = none) ∧ ∃ lst',
            search alloc cmp ⟨lst, k, false⟩ p = some (.noMemory, ⟨lst', k, false⟩) ∧
              Sound lst' s (atItem none) ∧ lst'.freed = lst.freed) ∨
          ∃ lst' s', search alloc cmp ⟨lst, k, false⟩ p =
              some (.pushed, ⟨lst', k, false⟩) ∧
            Sound lst' s' (atItem none) ∧ values s' = values s ++ [p] ∧
            lst'.freed = lst.freed) := by
  obtain ⟨lst₁, hfind, hnone, hsound, hfreed⟩ |
    ⟨q, lst₁, hsome, -, hfind, hsound, hfreed⟩ := findItem_spec (k := k) h cmp
  · refine .inr ⟨hnone, ?_⟩
    obtain ⟨hfull, hpush⟩ | ⟨lst', s', hpush, hsound', hvalues, hfreed'⟩ :=
      push_spec (k := k) hsound alloc p
    · refine .inl ⟨hfull, lst₁, ?_, hsound, hfreed⟩
      rw [search, hfind]
      change (push alloc ⟨lst₁, k, false⟩ p).bind _ = _
      rw [hpush]
      rfl
    · refine .inr ⟨lst', s', ?_, hsound', hvalues, hfreed'.trans hfreed⟩
      rw [search, hfind]
      change (push alloc ⟨lst₁, k, false⟩ p).bind _ = _
      rw [hpush]
      rfl
  · obtain ⟨lst', hunlock, hsound', hfreed'⟩ := unlock_found (k := k) hsound h.all_live
    refine .inl ⟨q.2.data, lst', hsome, ?_, hsound', hfreed'.trans hfreed⟩
    rw [search, hfind]
    change (unlock ⟨lst₁, k, k.holds (some q.1)⟩ q.1).bind _ = _
    rw [hunlock]
    rfl

/-- `tclist_delete` deletes the first item that `cmp` says. -/
theorem delete_spec (h : Sound lst s (atItem none)) (cmp : α → Bool) (fr : Option F) :
    (∃ lst', delete cmp fr ⟨lst, k, false⟩ = some (false, ⟨lst', k, false⟩) ∧
        (values s).find? cmp = none ∧ Sound lst' s (atItem none) ∧
        lst'.freed = lst.freed) ∨
      ∃ d lst' s', delete cmp fr ⟨lst, k, false⟩ = some (true, ⟨lst', k, false⟩) ∧
        (values s).find? cmp = some d ∧ Sound lst' s' (atItem none) ∧
        values s' = (values s).eraseP cmp ∧
        lst'.freed = lst.freed ++ callFree fr d := by
  obtain ⟨lst₁, hfind, hnone, hsound, hfreed⟩ |
    ⟨p, lst₁, hsome, ⟨pre, post, rfl, hcmp, hpre⟩, hfind, hsound, hfreed⟩ :=
      findItem_spec (k := k) h cmp
  · refine .inl ⟨lst₁, ?_, hnone, hsound, hfreed⟩
    rw [delete, hfind]
    rfl
  · obtain ⟨g, lst', hremove, hunlock, hsound', hfreed'⟩ :=
      remove_unlock (k := k) hsound h.all_live fr
    refine .inr ⟨p.2.data, lst', pre ++ post, ?_, hsome, hsound', ?_, ?_⟩
    · rw [delete, hfind]
      change (remove ⟨lst₁, k, k.holds (some p.1)⟩ p.1 fr).bind _ = _
      rw [hremove, Option.bind_some, hunlock]
      rfl
    · have hpre' : ∀ d ∈ values pre, ¬ cmp d = true := by
        intro d hd
        obtain ⟨q, hq, rfl⟩ := List.mem_map.mp hd
        simp [hpre q hq]
      rw [values_append, values_append, values_cons, List.eraseP_append_right _ hpre',
        List.eraseP_cons_of_pos hcmp]
    · rw [hfreed', hfreed]

/-- What `tclist_delete_matched` does from where the thread is. -/
theorem deleteMatchedFrom_spec (cmp : α → Bool) (fr : Option F) {m n : ℕ}
    (h : Sound lst s (atItem c)) (hpos : Position .next s c behind rest)
    (hm : rest.length < m) :
    ∃ lst', deleteMatchedFrom cmp fr m n ⟨lst, k, k.holds c⟩ c =
        some (n + rest.countP fun p => cmp p.2.data, ⟨lst', k, false⟩) ∧
      Sound lst' (live behind ++ rest.filter fun p => !cmp p.2.data) (atItem none) ∧
      lst'.freed = lst.freed ++ dropped s ++
        (rest.filter fun p => cmp p.2.data).flatMap fun p => callFree fr p.2.data := by
  induction m generalizing lst s c behind rest n with
  | zero => cases hm
  | succ m ih =>
      obtain ⟨lst₁, hadvance, hsound, hfreed⟩ := h.advance_alone hpos
      rw [deleteMatchedFrom, advance_eq, hadvance]
      cases rest with
      | nil =>
          have hs : s = behind := by simpa [Direction.along] using hpos.along
          refine ⟨lst₁, rfl, ?_, by simpa using hfreed⟩
          simpa [hs] using hsound
      | cons p rest =>
          have hpos' := hpos.advance_alone h
          have hp := hpos.rest_live h p List.mem_cons_self
          have hkeep : live [p] = [p] := by simp [live, hp]
          rw [List.length_cons, Nat.succ_lt_succ_iff] at hm
          cases hcmp : cmp p.2.data with
          | false =>
              obtain ⟨lst', hdelete, hsound', hfreed'⟩ := ih hsound hpos' hm
              refine ⟨lst', ?_, ?_, ?_⟩
              · simpa [hcmp] using hdelete
              · simpa [hcmp, hkeep] using hsound'
              · simpa [hcmp, hfreed] using hfreed'
          | true =>
              -- the item stays until the next turn, which frees it
              have hlive : live s = live behind ++ p :: rest := by
                simpa [Direction.along] using hpos'.along
              rw [hlive] at hsound
              obtain ⟨lst₂, hremove, hsound₂, hfreed₂⟩ := hsound.remove_alone hp fr
              have hpos₂ : Position .next (live behind ++ (p.1, ⟨p.2.data, fr, true⟩) :: rest)
                  (some p.1) (live behind ++ [(p.1, ⟨p.2.data, fr, true⟩)]) rest :=
                ⟨by simp [Direction.along], by simp⟩
              obtain ⟨lst', hdelete, hsound', hfreed'⟩ := ih (n := n + 1) hsound₂ hpos₂ hm
              have hdropped : dropped (live behind ++ (p.1, ⟨p.2.data, fr, true⟩) :: rest) =
                  callFree fr p.2.data := by
                rw [List.append_cons, dropped_append, dropped_append, dropped_live,
                  dropped_of_forall fun q hq =>
                    hpos.rest_live h q (List.mem_cons_of_mem p hq)]
                simp [dropped]
              refine ⟨lst', ?_, ?_, ?_⟩
              · rw [List.countP_cons, if_pos hcmp, ← Nat.add_assoc, Nat.add_right_comm,
                  ← hdelete]
                change (if cmp p.2.data then
                  (remove ⟨lst₁, k, k.holds (some p.1)⟩ p.1 fr).bind _ else _) = _
                rw [if_pos hcmp, remove_eq, hremove]
                rfl
              · simpa [hcmp, live] using hsound'
              · rw [hfreed', hdropped, hfreed₂, hfreed, List.filter_cons, if_pos hcmp,
                  List.flatMap_cons]
                simp only [List.append_assoc]

theorem deleteMatched_spec (h : Sound lst s (atItem none)) (cmp : α → Bool)
    (fr : Option F) :
    ∃ lst' s', deleteMatched cmp fr ⟨lst, k, false⟩ =
        some ((values s).countP cmp, ⟨lst', k, false⟩) ∧
      Sound lst' s' (atItem none) ∧ values s' = (values s).filter (fun d => !cmp d) ∧
      lst'.freed = lst.freed ++ ((values s).filter cmp).flatMap (callFree fr) := by
  have hm : s.length < lst.items + 1 := by
    rw [h.shows.items]
    exact Nat.lt_succ_self _
  obtain ⟨lst', hdelete, hsound, hfreed⟩ := deleteMatchedFrom_spec (k := k) (n := 0) cmp fr h
    (position_start .next s) hm
  refine ⟨lst', _, ?_, hsound, ?_, ?_⟩
  · rw [Nat.zero_add] at hdelete
    rw [values, List.countP_map]
    exact hdelete
  · simp [values, live, List.filter_map, Direction.along, Function.comp_def]
  · rw [hfreed, dropped_of_forall h.all_live, List.append_nil, values, List.filter_map,
      List.flatMap_map]
    rfl

/-- `tclist_head` and `tclist_tail`. -/
theorem peek_spec (h : Sound lst s (atItem none)) (dir : Direction) :
    peek dir ⟨lst, k, false⟩ =
      some ((dir.along s).head?.map fun p => p.2.data, ⟨lst, k, false⟩) := by
  have hend := h.shows.endOf dir
  rw [peek, lockList_of_free]
  cases hs : dir.along s with
  | nil =>
      rw [hs] at hend
      simp only [Option.bind_eq_bind, Option.bind_some, hend, firstOf_nil]
      rw [unlockList_of_held]
      rfl
  | cons p rest =>
      rw [hs] at hend
      have hmem : p ∈ s := dir.mem_along.mp (hs ▸ List.mem_cons_self)
      obtain ⟨next, prev, hread⟩ := h.shows.read hmem
      simp only [Option.bind_eq_bind, Option.bind_some, hend, firstOf_cons, hread,
        Option.map_some]
      rw [unlockList_of_held]
      rfl

/-- The first item gets the function that is to free its data. -/
theorem setFree_spec {R I : A → ℤ} {p : A × Cell F α} (h : Shows lst (p :: s) R I)
    (lfree : Option F) :
    ∃ lst', lst.setItem p.1 (fun item => { item with free := lfree }) = some lst' ∧
      Shows lst' ((p.1, ⟨p.2.data, lfree, p.2.deleted⟩) :: s) R I ∧
      lst'.freed = lst.freed := by
  obtain ⟨links', hset, hlinked, hdomain⟩ :=
    h.linked.setValue (a := p.1) (by simp [item]) fun item => { item with free := lfree }
  refine ⟨{ lst with links := links' }, by simp [Tclist.setItem, hset],
    ⟨?_, h.items, ?_, fun c hc => h.owned c fun hnone => hc ((hdomain c).mpr hnone)⟩, rfl⟩
  · have hrest : s.map (item R I) = (s.map (item R I)).map fun q =>
        if q.1 = p.1 then (q.1, { q.2 with free := lfree }) else q := by
      rw [List.map_map]
      apply List.map_congr_left
      intro q hq
      have hne : q.1 ≠ p.1 := by
        have hnodup := (List.nodup_cons.mp h.nodup).1
        rintro heq
        exact hnodup (heq ▸ List.mem_map_of_mem hq)
      simp [item, hne]
    rw [List.map_cons, List.map_cons, ← hrest] at hlinked
    simpa [item] using hlinked
  · simpa [List.countP_cons] using h.deleted

/-- The loop of `tclist_destroy` frees every item. -/
theorem destroyFrom_spec {R I : A → ℤ} {m : ℕ} (lfree : Option F)
    (h : Shows lst s R I) (hm : s.length < m) :
    ∃ lst', destroyFrom lfree m lst = some lst' ∧ Shows lst' [] R I ∧
      lst'.freed = lst.freed ++ (values s).flatMap (callFree lfree) := by
  induction m generalizing lst s with
  | zero => cases hm
  | succ m ih =>
      have hstart := h.linked.start
      cases s with
      | nil =>
          refine ⟨lst, ?_, h, by simp [values]⟩
          rw [destroyFrom, hstart]
          rfl
      | cons p s =>
          obtain ⟨lst₁, hset, hshows, hfreed⟩ := setFree_spec h lfree
          obtain ⟨lst₂, hunlink, hshows₂, hfreed₂⟩ :=
            hshows.listUnlink List.mem_cons_self
          rw [← List.nil_append ((p.1, _) :: s), filter_ne_of_split hshows.nodup,
            List.nil_append] at hshows₂
          obtain ⟨lst', hdestroy, hshows', hfreed'⟩ :=
            ih hshows₂ (Nat.succ_lt_succ_iff.mp hm)
          refine ⟨lst', ?_, hshows', ?_⟩
          · have hfirst : lst.links.start = some p.1 := hstart
            rw [destroyFrom, hfirst]
            change (lst.setItem p.1 _).bind _ = _
            rw [hset, Option.bind_some, hunlink, Option.bind_some, hdestroy]
          · rw [hfreed', hfreed₂, hfreed, values_cons, List.flatMap_cons,
              List.append_assoc]

/-- `tclist_destroy` leaves nothing allocated. -/
theorem destroy_spec (h : Sound lst s (atItem none)) (lfree : Option F) :
    ∃ lst', destroy lfree ⟨lst, k, false⟩ = some (true, ⟨lst', k, false⟩) ∧
      (∀ a, lst'.links.store a = none) ∧
      lst'.freed = lst.freed ++ (values s).flatMap (callFree lfree) := by
  have hm : s.length < lst.items + 1 := by
    rw [h.shows.items]
    exact Nat.lt_succ_self _
  obtain ⟨lst', hdestroy, hshows, hfreed⟩ := destroyFrom_spec lfree h.shows hm
  refine ⟨lst', ?_, fun a => ?_, hfreed⟩
  · rw [destroy, lockList_of_free]
    simp only [Option.bind_eq_bind, Option.bind_some, hdestroy]
    rw [unlockList_of_held, Option.bind_some, hshows.linked.start]
    rfl
  · by_contra hne
    exact absurd (hshows.owned a hne) List.not_mem_nil

end Calls

/-! ### Runs -/

inductive Op (A F α : Type)
  | push (alloc : Allocator A (Node A (Item F α))) (p : α)
  | unshift (alloc : Allocator A (Node A (Item F α))) (p : α)
  | shift
  | pop
  | find (cmp : α → Bool)
  | search (alloc : Allocator A (Node A (Item F α))) (cmp : α → Bool) (p : α)
  | delete (cmp : α → Bool) (fr : Option F)
  | deleteMatched (cmp : α → Bool) (fr : Option F)
  | items
  | head
  | tail

inductive Answer (α : Type)
  | done (b : Bool)
  | data (d : Option α)
  | searched (r : Searched α)
  | count (n : ℕ)

section Run

variable [DecidableEq A]

def serve (g : LockedList A F α) : Op A F α → Option (Answer α × LockedList A F α)
  | .push alloc p => (g.push alloc p).map fun r => (.done r.1, r.2)
  | .unshift alloc p => (g.unshift alloc p).map fun r => (.done r.1, r.2)
  | .shift => (g.take .next).map fun r => (.data r.1, r.2)
  | .pop => (g.take .prev).map fun r => (.data r.1, r.2)
  | .find cmp => (g.find cmp).map fun r => (.data r.1, r.2)
  | .search alloc cmp p => (g.search alloc cmp p).map fun r => (.searched r.1, r.2)
  | .delete cmp fr => (g.delete cmp fr).map fun r => (.done r.1, r.2)
  | .deleteMatched cmp fr => (g.deleteMatched cmp fr).map fun r => (.count r.1, r.2)
  | .items => some (.count g.list.count, g)
  | .head => (g.peek .next).map fun r => (.data r.1, r.2)
  | .tail => (g.peek .prev).map fun r => (.data r.1, r.2)

end Run

/-- A list and the data freed so far: what a call answers, and what it makes of
them. A call that adds can be without memory. -/
inductive Does : List α × List (F × α) → Op A F α → Answer α →
    List α × List (F × α) → Prop
  | pushed {xs : List α} {freed : List (F × α)}
      {alloc : Allocator A (Node A (Item F α))} {p : α} :
      Does (xs, freed) (.push alloc p) (.done true) (xs ++ [p], freed)
  | notPushed {xs : List α} {freed : List (F × α)}
      {alloc : Allocator A (Node A (Item F α))} {p : α}
      (hfull : ∃ store, alloc.malloc store = none) :
      Does (xs, freed) (.push alloc p) (.done false) (xs, freed)
  | unshifted {xs : List α} {freed : List (F × α)}
      {alloc : Allocator A (Node A (Item F α))} {p : α} :
      Does (xs, freed) (.unshift alloc p) (.done true) (p :: xs, freed)
  | notUnshifted {xs : List α} {freed : List (F × α)}
      {alloc : Allocator A (Node A (Item F α))} {p : α}
      (hfull : ∃ store, alloc.malloc store = none) :
      Does (xs, freed) (.unshift alloc p) (.done false) (xs, freed)
  | shifted {xs : List α} {freed : List (F × α)} :
      Does (xs, freed) .shift (.data xs.head?) (xs.tail, freed)
  | popped {xs : List α} {freed : List (F × α)} :
      Does (xs, freed) .pop (.data xs.getLast?) (xs.dropLast, freed)
  | found {xs : List α} {freed : List (F × α)} {cmp : α → Bool} :
      Does (xs, freed) (.find cmp) (.data (xs.find? cmp)) (xs, freed)
  | searched {xs : List α} {freed : List (F × α)}
      {alloc : Allocator A (Node A (Item F α))} {cmp : α → Bool} {p d : α}
      (hd : xs.find? cmp = some d) :
      Does (xs, freed) (.search alloc cmp p) (.searched (.found d)) (xs, freed)
  | added {xs : List α} {freed : List (F × α)}
      {alloc : Allocator A (Node A (Item F α))} {cmp : α → Bool} {p : α}
      (hnone : xs.find? cmp = none) :
      Does (xs, freed) (.search alloc cmp p) (.searched .pushed) (xs ++ [p], freed)
  | notAdded {xs : List α} {freed : List (F × α)}
      {alloc : Allocator A (Node A (Item F α))} {cmp : α → Bool} {p : α}
      (hnone : xs.find? cmp = none) (hfull : ∃ store, alloc.malloc store = none) :
      Does (xs, freed) (.search alloc cmp p) (.searched .noMemory) (xs, freed)
  | deleted {xs : List α} {freed : List (F × α)} {cmp : α → Bool} {fr : Option F} {d : α}
      (hd : xs.find? cmp = some d) :
      Does (xs, freed) (.delete cmp fr) (.done true)
        (xs.eraseP cmp, freed ++ callFree fr d)
  | notDeleted {xs : List α} {freed : List (F × α)} {cmp : α → Bool} {fr : Option F}
      (hnone : xs.find? cmp = none) :
      Does (xs, freed) (.delete cmp fr) (.done false) (xs, freed)
  | deletedMatched {xs : List α} {freed : List (F × α)} {cmp : α → Bool}
      {fr : Option F} :
      Does (xs, freed) (.deleteMatched cmp fr) (.count (xs.countP cmp))
        (xs.filter fun d => !cmp d, freed ++ (xs.filter cmp).flatMap (callFree fr))
  | counted {xs : List α} {freed : List (F × α)} :
      Does (xs, freed) .items (.count xs.length) (xs, freed)
  | first {xs : List α} {freed : List (F × α)} :
      Does (xs, freed) .head (.data xs.head?) (xs, freed)
  | last {xs : List α} {freed : List (F × α)} :
      Does (xs, freed) .tail (.data xs.getLast?) (xs, freed)

variable [DecidableEq A]

/-- The list in memory is the plain list, with no thread in it and the lock
free. -/
def Represents (g : LockedList A F α) (b : List α × List (F × α)) : Prop :=
  ∃ s, Sound g.list s (atItem none) ∧ g.held = false ∧ values s = b.1 ∧
    g.list.freed = b.2

/-- Each call does what the plain list does. -/
theorem serve_does (g : LockedList A F α) (b : List α × List (F × α)) (op : Op A F α)
    (h : Represents g b) :
    ∃ r g' b', serve g op = some (r, g') ∧ Does b op r b' ∧ Represents g' b' := by
  obtain ⟨lst, k, held⟩ := g
  obtain ⟨xs, freed⟩ := b
  obtain ⟨s, hsound, rfl, hvalues, hfreed⟩ := h
  dsimp only at hsound hvalues hfreed
  subst hvalues hfreed
  have hhead : ∀ dir : Direction, (dir.along s).head?.map (fun p => p.2.data) =
      (dir.along (values s)).head? := by
    intro dir
    rw [values, ← dir.along_map, List.head?_map]
  -- one call of the list a case: its walk through the memory has a lemma of its own,
  -- what is left is to name the call of the plain list that it is
  cases op with
  | push alloc p =>
      obtain ⟨hfull, hpush⟩ | ⟨lst', s', hpush, hsound', hvalues, hfreed⟩ :=
        push_spec (k := k) hsound alloc p
      · exact ⟨_, _, _, by rw [serve, hpush]; rfl, .notPushed hfull,
          s, hsound, rfl, rfl, rfl⟩
      · exact ⟨_, _, _, by rw [serve, hpush]; rfl, .pushed,
          s', hsound', rfl, hvalues, hfreed⟩
  | unshift alloc p =>
      obtain ⟨hfull, hunshift⟩ | ⟨lst', s', hunshift, hsound', hvalues, hfreed⟩ :=
        unshift_spec (k := k) hsound alloc p
      · exact ⟨_, _, _, by rw [serve, hunshift]; rfl, .notUnshifted hfull,
          s, hsound, rfl, rfl, rfl⟩
      · exact ⟨_, _, _, by rw [serve, hunshift]; rfl, .unshifted,
          s', hsound', rfl, hvalues, hfreed⟩
  | shift =>
      obtain ⟨lst', s', htake, hsound', htail, hfreed⟩ := take_spec (k := k) hsound .next
      rw [hhead] at htake
      refine ⟨_, _, _, by rw [serve, htake]; rfl, .shifted, s', hsound', rfl, ?_, hfreed⟩
      change s' = s.tail at htail
      rw [htail]
      exact List.map_tail
  | pop =>
      obtain ⟨lst', s', htake, hsound', htail, hfreed⟩ := take_spec (k := k) hsound .prev
      rw [hhead, Direction.along, List.head?_reverse] at htake
      refine ⟨_, _, _, by rw [serve, htake]; rfl, .popped, s', hsound', rfl, ?_, hfreed⟩
      rw [Direction.along, Direction.along, List.tail_reverse, List.reverse_inj] at htail
      rw [htail]
      exact List.map_dropLast
  | find cmp =>
      obtain ⟨lst', hfind, hsound', hfreed⟩ := find_spec (k := k) hsound cmp
      exact ⟨_, _, _, by rw [serve, hfind]; rfl, .found, s, hsound', rfl, rfl, hfreed⟩
  | search alloc cmp p =>
      obtain ⟨d, lst', hd, hsearch, hsound', hfreed⟩ |
        ⟨hnone, ⟨hfull, lst', hsearch, hsound', hfreed⟩ |
          ⟨lst', s', hsearch, hsound', hvalues, hfreed⟩⟩ :=
            search_spec (k := k) hsound alloc cmp p
      · exact ⟨_, _, _, by rw [serve, hsearch]; rfl, .searched hd, s, hsound', rfl, rfl,
          hfreed⟩
      · exact ⟨_, _, _, by rw [serve, hsearch]; rfl, .notAdded hnone hfull, s, hsound',
          rfl, rfl, hfreed⟩
      · exact ⟨_, _, _, by rw [serve, hsearch]; rfl, .added hnone, s', hsound', rfl,
          hvalues, hfreed⟩
  | delete cmp fr =>
      obtain ⟨lst', hdelete, hnone, hsound', hfreed⟩ |
        ⟨d, lst', s', hdelete, hd, hsound', hvalues, hfreed⟩ :=
          delete_spec (k := k) hsound cmp fr
      · exact ⟨_, _, _, by rw [serve, hdelete]; rfl, .notDeleted hnone, s, hsound', rfl,
          rfl, hfreed⟩
      · exact ⟨_, _, _, by rw [serve, hdelete]; rfl, .deleted hd, s', hsound', rfl,
          hvalues, hfreed⟩
  | deleteMatched cmp fr =>
      obtain ⟨lst', s', hdelete, hsound', hvalues, hfreed⟩ :=
        deleteMatched_spec (k := k) hsound cmp fr
      exact ⟨_, _, _, by rw [serve, hdelete]; rfl, .deletedMatched, s', hsound', rfl,
        hvalues, hfreed⟩
  | items =>
      -- no thread is at an item, so none is deleted and still in the list
      have hcount : lst.count = (values s).length := by
        have hnone : s.countP (fun p => p.2.deleted) = 0 := by
          rw [List.countP_eq_zero]
          intro p hp
          simp [hsound.all_live p hp]
        rw [count, hsound.shows.items, hsound.shows.deleted, hnone, values, List.length_map,
          Nat.sub_zero]
      refine ⟨_, _, (values s, lst.freed), rfl, ?_, s, hsound, rfl, rfl, rfl⟩
      rw [hcount]
      exact .counted
  | head =>
      have hpeek := peek_spec (k := k) hsound .next
      rw [hhead] at hpeek
      exact ⟨_, _, _, by rw [serve, hpeek]; rfl, .first, s, hsound, rfl, rfl, rfl⟩
  | tail =>
      have hpeek := peek_spec (k := k) hsound .prev
      rw [hhead, Direction.along, List.head?_reverse] at hpeek
      exact ⟨_, _, _, by rw [serve, hpeek]; rfl, .last, s, hsound, rfl, rfl, rfl⟩

end LockedList

end Lwfs.Support
