import Mathlib.Logic.Function.Basic
import Mathlib.Data.List.Nodup
import Mathlib.Tactic.Common

/-!
Singly linked lists in a store.

A store maps addresses to nodes, and a node holds a value and the address of
the next node. `Linked store first l` says that the list that starts at
`first` ends, and that `l` lists its nodes. What is in the store beside them
is not a question, and that is what the frame rule `Linked.congr` is for: a
program that allocates a node, or frees one that it took off, leaves the list
alone. The two updates a queue makes are `Linked.link`, which hangs a node on
the last one, and `Linked.tail`, which steps over the first.
-/

namespace SysLib

namespace LinkedList

/-- A node. `none` is the null pointer. -/
structure Node (A α : Type*) where
  value : α
  next : Option A

abbrev Store (A α : Type*) := A → Option (Node A α)

variable {A α : Type*}

/-- The list from `first` has these nodes, each with its address. -/
inductive Linked (store : Store A α) : Option A → List (A × α) → Prop
  | nil : Linked store none []
  | cons {a : A} {v : α} {next : Option A} {l : List (A × α)}
      (read : store a = some ⟨v, next⟩) (rest : Linked store next l) :
      Linked store (some a) ((a, v) :: l)

variable {store store' : Store A α} {first : Option A} {l l' : List (A × α)}
  {a b : A} {v w : α}

@[simp] theorem linked_nil_iff : Linked store first [] ↔ first = none := by
  constructor
  · rintro ⟨⟩
    rfl
  · rintro rfl
    exact .nil

theorem linked_cons_iff : Linked store first ((a, v) :: l) ↔
    first = some a ∧ ∃ next, store a = some ⟨v, next⟩ ∧ Linked store next l := by
  constructor
  · rintro (_ | ⟨read, rest⟩)
    exact ⟨rfl, _, read, rest⟩
  · rintro ⟨rfl, next, read, rest⟩
    exact .cons read rest

/-- A pointer leads to one list. -/
theorem Linked.unique (h : Linked store first l)
    (h' : Linked store first l') : l = l' := by
  induction h generalizing l' with
  | nil =>
      cases h'
      rfl
  | cons read rest ih =>
      cases h' with
      | cons read' rest' =>
          cases read.symm.trans read'
          rw [ih rest']

theorem Linked.of_append (h : Linked store first (l ++ l')) :
    ∃ next, Linked store next l' := by
  induction l generalizing first with
  | nil => exact ⟨first, h⟩
  | cons p l ih =>
      obtain ⟨-, next, -, rest⟩ := linked_cons_iff.mp h
      exact ih rest

theorem Linked.read (h : Linked store first l) (hmem : (a, v) ∈ l) :
    ∃ next, store a = some ⟨v, next⟩ := by
  induction h with
  | nil => cases hmem
  | cons read rest ih =>
      cases hmem with
      | head => exact ⟨_, read⟩
      | tail _ hmem => exact ih hmem

/-- A list that ends comes by no node twice: what follows a node does not
depend on the way to it. -/
theorem Linked.nodup (h : Linked store first l) : (l.map Prod.fst).Nodup := by
  induction h with
  | nil => exact List.nodup_nil
  | @cons a v next l read rest ih =>
      refine List.nodup_cons.mpr ⟨fun hmem => ?_, ih⟩
      obtain ⟨⟨b, w⟩, hb, rfl⟩ := List.mem_map.mp hmem
      obtain ⟨pre, post, rfl⟩ := List.append_of_mem hb
      obtain ⟨again, hagain⟩ := rest.of_append
      obtain ⟨-, next', read', rest'⟩ := linked_cons_iff.mp hagain
      cases read.symm.trans read'
      have hsame := congrArg List.length (rest.unique rest')
      simp at hsame
      omega

/-- The list depends on its own nodes only. -/
theorem Linked.congr (h : Linked store first l)
    (hsame : ∀ p ∈ l, store' p.1 = store p.1) : Linked store' first l := by
  induction h with
  | nil => exact .nil
  | cons read rest ih =>
      refine .cons ((hsame _ List.mem_cons_self).trans read) (ih ?_)
      exact fun p hp => hsame p (List.mem_cons_of_mem _ hp)

theorem Linked.tail (h : Linked store (some a) ((b, v) :: l)) :
    ∃ next, store a = some ⟨v, next⟩ ∧ Linked store next l := by
  obtain ⟨hab, next, read, rest⟩ := linked_cons_iff.mp h
  cases hab
  exact ⟨next, read, rest⟩

/-- A list that is not empty starts somewhere. -/
theorem Linked.exists_head (h : Linked store first l) (hne : l ≠ []) :
    ∃ a v l', first = some a ∧ l = (a, v) :: l' := by
  cases h with
  | nil => exact absurd rfl hne
  | cons read rest => exact ⟨_, _, _, rfl, rfl⟩

/-- The list that the list of the addresses from `0` makes: each node points
to the next. -/
theorem linked_range (n : ℕ) (value : ℕ → α) (m : ℕ) :
    Linked (fun a => if a < m + n then
        some ⟨value a, if a + 1 < m + n then some (a + 1) else none⟩ else none)
      (if m < m + n then some m else none)
      ((List.range' m n).map fun a => (a, value a)) := by
  induction n generalizing m with
  | zero => simp
  | succ n ih =>
      have hrest := ih (m + 1)
      simp only [Nat.add_right_comm m 1 n] at hrest
      rw [if_pos (by omega), List.range'_succ]
      exact .cons (if_pos (by omega)) hrest

/-- The pointer to the last node, which nobody reads when there is none. -/
def LastIs (last : Option A) (l : List (A × α)) : Prop :=
  ∀ p ∈ l.getLast?, last = some p.1

theorem lastIs_append (a : A) (v : α) (l : List (A × α)) :
    LastIs (some a) (l ++ [(a, v)]) := by
  simp [LastIs]

section Update

variable [DecidableEq A]

/-- `last->next = a`, a fault where there is no such node. -/
def setNext (store : Store A α) (last a : A) : Option (Store A α) :=
  (store last).map fun node =>
    Function.update store last (some { node with next := some a })

/-- A node goes to the end of a list with a pointer to its last node: it
becomes the first one of an empty list, and the next one of the last
otherwise. -/
def hang (empty : Bool) (store : Store A α) (first last : Option A) (a : A) :
    Option (Store A α × Option A) :=
  if empty then some (store, some a)
  else last.bind fun last => (setNext store last a).map fun store => (store, first)

/-- An address outside the list can be written to, and freed. -/
theorem Linked.update (h : Linked store first l) (ha : a ∉ l.map Prod.fst)
    (node : Option (Node A α)) :
    Linked (Function.update store a node) first l :=
  h.congr fun _ hp => Function.update_of_ne
    (ne_of_mem_of_not_mem (List.mem_map_of_mem hp) ha) _ _

/-- Hanging a node on the last one. -/
theorem Linked.link (h : Linked store first (l ++ [(b, w)]))
    (ha : store a = some ⟨v, none⟩) (hfresh : a ∉ (l ++ [(b, w)]).map Prod.fst) :
    ∃ store', setNext store b a = some store' ∧
      Linked store' first (l ++ [(b, w), (a, v)]) ∧
      ∀ c, c ≠ b → store' c = store c := by
  obtain ⟨next, hb⟩ := h.read (List.mem_append_right l List.mem_cons_self)
  refine ⟨Function.update store b (some ⟨w, some a⟩),
    congrArg (Option.map _) hb, ?_,
    fun c hc => Function.update_of_ne hc _ _⟩
  have hne : a ≠ b := by
    rintro rfl
    exact hfresh (by simp)
  have hnodup := h.nodup
  induction l generalizing first with
  | nil =>
      obtain ⟨rfl, next', read, -⟩ := linked_cons_iff.mp h
      exact .cons (Function.update_self _ _ _)
        (.cons ((Function.update_of_ne hne _ _).trans ha) .nil)
  | cons p l ih =>
      obtain ⟨c, u⟩ := p
      obtain ⟨rfl, next', read, rest⟩ := linked_cons_iff.mp h
      have hc : c ≠ b := by
        rintro rfl
        simp at hnodup
      refine .cons ((Function.update_of_ne hc _ _).trans read) (ih rest ?_ ?_)
      · exact fun hmem => hfresh (List.mem_cons_of_mem _ hmem)
      · exact (List.nodup_cons.mp hnodup).2

/-- What `hang` does to a list, and that it leaves the other nodes alone. -/
theorem Linked.hang {last : Option A} {empty : Bool} (h : Linked store first l)
    (hlast : LastIs last l) (ha : store a = some ⟨v, none⟩)
    (hfresh : a ∉ l.map Prod.fst) (hempty : empty = l.isEmpty) :
    ∃ store' first', LinkedList.hang empty store first last a =
        some (store', first') ∧
      Linked store' first' (l ++ [(a, v)]) ∧
      ∀ c ∉ l.map Prod.fst, store' c = store c := by
  subst hempty
  rcases List.eq_nil_or_concat l with rfl | ⟨l, ⟨b, w⟩, rfl⟩
  · exact ⟨store, some a, rfl, .cons ha .nil, fun _ _ => rfl⟩
  · rw [List.concat_eq_append] at h hlast hfresh ⊢
    obtain ⟨store', hset, hlinked, hframe⟩ := h.link ha hfresh
    have hb : last = some b := hlast (b, w) (by simp)
    refine ⟨store', first, ?_, ?_, fun c hc => hframe c ?_⟩
    · simp [LinkedList.hang, hb, hset]
    · rwa [List.append_assoc]
    · rintro rfl
      exact hc (by simp)

end Update

end LinkedList

end SysLib
