import Lwfs.Lib.LinkedList
import Mathlib.Data.List.GetD

/-!
Arrays of singly linked lists in one store.

`Chained store firsts chains` says that the list that starts at the pointer
`firsts[i]` has the nodes `chains[i]`, and that no two of the lists share a
node. A program changes one list at a time: `Chained.set` is the rule for
that, and it asks only that the nodes of the other lists stay as they are and
that the new list has nodes of the old one and unused ones. Putting a node in
front of a list and taking one out of it are cases of it.
-/

namespace SysLib

namespace LinkedList

variable {A α : Type*} {store store' : Store A α} {first : Option A}
  {l l' : List (A × α)} {a b : A} {v w : α}

theorem Linked.first_eq (h : Linked store first l) :
    first = l.head?.map Prod.fst := by
  cases h <;> rfl

theorem Linked.eq_nil (h : Linked store none l) : l = [] := by
  generalize hfirst : (none : Option A) = first at h
  cases h with
  | nil => rfl
  | cons read rest => cases hfirst

/-- The pointer to the node after the nodes `l`. -/
theorem Linked.drop (h : Linked store first (l ++ (a, v) :: l')) :
    ∃ next, store a = some ⟨v, next⟩ ∧ Linked store next l' := by
  obtain ⟨again, hagain⟩ := h.of_append
  obtain ⟨-, next, read, rest⟩ := linked_cons_iff.mp hagain
  exact ⟨next, read, rest⟩

theorem Linked.notMem_of_append (h : Linked store first (l ++ (a, v) :: l')) :
    a ∉ (l ++ l').map Prod.fst := by
  have hnodup := h.nodup
  simp only [List.map_append, List.map_cons] at hnodup ⊢
  exact (List.nodup_middle.mp hnodup).notMem

section Update

variable [DecidableEq A]

/-- A node is taken out of the list: the one before it points to the one
after it. -/
theorem Linked.bypass {next : Option A}
    (h : Linked store first (l ++ (b, w) :: (a, v) :: l'))
    (ha : store a = some ⟨v, next⟩) :
    Linked (Function.update store b (some ⟨w, next⟩)) first
      (l ++ (b, w) :: l') := by
  induction l generalizing first with
  | nil =>
      obtain ⟨rfl, _, -, hrest⟩ := linked_cons_iff.mp h
      obtain ⟨-, next', ha', htail⟩ := linked_cons_iff.mp hrest
      obtain rfl : next' = next := by
        have hnode := ha'.symm.trans ha
        simpa using hnode
      have hb : b ∉ l'.map Prod.fst := by
        have hnot := h.notMem_of_append
        simp only [List.nil_append, List.map_cons, List.mem_cons, not_or] at hnot
        exact hnot.2
      exact .cons (Function.update_self _ _ _) (htail.update hb _)
  | cons p l ih =>
      obtain ⟨c, u⟩ := p
      obtain ⟨rfl, next', read, hrest⟩ := linked_cons_iff.mp h
      have hc : c ≠ b := by
        rintro rfl
        have hnodup := h.nodup
        simp at hnodup
      exact .cons ((Function.update_of_ne hc _ _).trans read) (ih hrest)

end Update

/-! ### The lists in a row -/

section Flatten

variable {β : Type*} {L : List (List β)} {i : ℕ}

theorem flatten_eq_at (hi : i < L.length) :
    L.flatten = (L.take i).flatten ++ (L[i] ++ (L.drop (i + 1)).flatten) := by
  conv_lhs => rw [← List.take_append_drop i L, List.drop_eq_getElem_cons hi]
  rw [List.flatten_append, List.flatten_cons]

theorem flatten_set (hi : i < L.length) (bs : List β) :
    (L.set i bs).flatten =
      (L.take i).flatten ++ (bs ++ (L.drop (i + 1)).flatten) := by
  rw [List.set_eq_take_append_cons_drop, if_pos hi, List.flatten_append,
    List.flatten_cons]

/-- One element is taken out of one list. -/
theorem flatten_perm_of_split {b : β} {pre post : List β} (hi : i < L.length)
    (hL : L[i] = pre ++ b :: post) :
    L.flatten.Perm (b :: (L.set i (pre ++ post)).flatten) := by
  rw [flatten_eq_at hi, flatten_set hi, hL]
  have hmiddle : (pre ++ b :: post).Perm (b :: (pre ++ post)) := List.perm_middle
  have happend := (hmiddle.append_right (L.drop (i + 1)).flatten).append_left
    (L.take i).flatten
  exact happend.trans List.perm_middle

end Flatten

/-! ### Arrays of lists -/

/-- The lists from the pointers of an array, which share no node. -/
structure Chained (store : Store A α) (firsts : List (Option A))
    (chains : List (List (A × α))) : Prop where
  length : firsts.length = chains.length
  linked : ∀ (i : ℕ) (h : i < firsts.length) (h' : i < chains.length),
    Linked store firsts[i] chains[i]
  apart : ∀ (i j : ℕ) (hi : i < chains.length) (hj : j < chains.length),
    i ≠ j → ∀ p ∈ chains[i], p.1 ∉ chains[j].map Prod.fst

namespace Chained

variable {firsts : List (Option A)} {chains : List (List (A × α))} {i : ℕ}

theorem replicate (n : ℕ) :
    Chained store (List.replicate n none) (List.replicate n []) where
  length := by simp
  linked i h h' := by simp
  apart i j hi hj _ p hp := by simp at hp

/-- The lists depend on their own nodes only. -/
theorem congr (h : Chained store firsts chains)
    (hsame : ∀ p ∈ chains.flatten, store' p.1 = store p.1) :
    Chained store' firsts chains where
  length := h.length
  linked i hi hi' := (h.linked i hi hi').congr fun p hp =>
    hsame p (List.mem_flatten_of_mem (List.getElem_mem hi') hp)
  apart := h.apart

theorem getD (h : Chained store firsts chains) (hi : i < chains.length) :
    Linked store (firsts.getD i none) chains[i] := by
  have hi' : i < firsts.length := h.length ▸ hi
  rw [List.getD_eq_getElem _ _ hi']
  exact h.linked i hi' hi

/-- All the nodes are different. -/
theorem nodup (h : Chained store firsts chains) :
    (chains.flatten.map Prod.fst).Nodup := by
  rw [List.map_flatten, List.nodup_flatten]
  constructor
  · intro addrs haddrs
    obtain ⟨chain, hchain, rfl⟩ := List.mem_map.mp haddrs
    obtain ⟨i, hi, rfl⟩ := List.getElem_of_mem hchain
    exact (h.getD hi).nodup
  · rw [List.pairwise_iff_getElem]
    intro i j hi hj hij
    simp only [List.getElem_map]
    intro c hc hc'
    obtain ⟨p, hp, rfl⟩ := List.mem_map.mp hc
    simp only [List.length_map] at hi hj
    exact h.apart i j hi hj (Nat.ne_of_lt hij) p hp hc'

theorem read (h : Chained store firsts chains) {p : A × α}
    (hp : p ∈ chains.flatten) : ∃ next, store p.1 = some ⟨p.2, next⟩ := by
  obtain ⟨chain, hchain, hp⟩ := List.mem_flatten.mp hp
  obtain ⟨i, hi, rfl⟩ := List.getElem_of_mem hchain
  exact (h.getD hi).read hp

/-- The first list of an array, and the rest of the array. -/
theorem of_cons {chain : List (A × α)}
    (h : Chained store (first :: firsts) (chain :: chains)) :
    Linked store first chain ∧ Chained store firsts chains ∧
      ∀ p ∈ chains.flatten, p.1 ∉ chain.map Prod.fst := by
  refine ⟨h.linked 0 (Nat.succ_pos _) (Nat.succ_pos _), ?_, ?_⟩
  · refine ⟨by simpa using h.length, ?_, ?_⟩
    · intro i hi hi'
      exact h.linked (i + 1) (Nat.succ_lt_succ hi) (Nat.succ_lt_succ hi')
    · intro i j hi hj hij
      exact h.apart (i + 1) (j + 1) (Nat.succ_lt_succ hi) (Nat.succ_lt_succ hj)
        (fun heq => hij (Nat.succ.inj heq))
  · intro p hp
    obtain ⟨l, hl, hp⟩ := List.mem_flatten.mp hp
    obtain ⟨i, hi, rfl⟩ := List.getElem_of_mem hl
    exact h.apart (i + 1) 0 (Nat.succ_lt_succ hi) (Nat.succ_pos _)
      (Nat.succ_ne_zero i) p hp

/-- A node that is taken out of its list is in no list any more. -/
theorem notMem_of_split (h : Chained store firsts chains)
    (hi : i < chains.length) (hchain : chains[i] = l ++ (a, v) :: l') :
    a ∉ (chains.set i (l ++ l')).flatten.map Prod.fst := by
  have hperm := (flatten_perm_of_split hi hchain).map Prod.fst
  have hnodup := hperm.nodup_iff.mp h.nodup
  exact (List.nodup_cons.mp hnodup).1

/-- One list changes, with its own nodes or with unused ones. -/
theorem set (h : Chained store firsts chains) (hi : i < chains.length)
    (hlinked : Linked store' first l')
    (hsame : ∀ (j : ℕ) (hj : j < chains.length), j ≠ i →
      ∀ p ∈ chains[j], store' p.1 = store p.1)
    (hsub : ∀ p ∈ l', p.1 ∈ chains[i].map Prod.fst ∨
      p.1 ∉ chains.flatten.map Prod.fst) :
    Chained store' (firsts.set i first) (chains.set i l') := by
  -- a node of the new list is in no other one
  have hother : ∀ (j : ℕ) (hj : j < chains.length), j ≠ i →
      ∀ p ∈ l', p.1 ∉ chains[j].map Prod.fst := by
    intro j hj hne p hp hmem
    obtain hold | hfresh := hsub p hp
    · obtain ⟨q, hq, hqp⟩ := List.mem_map.mp hold
      exact h.apart i j hi hj (Ne.symm hne) q hq (hqp ▸ hmem)
    · apply hfresh
      obtain ⟨q, hq, hqp⟩ := List.mem_map.mp hmem
      exact List.mem_map.mpr
        ⟨q, List.mem_flatten_of_mem (List.getElem_mem hj) hq, hqp⟩
  refine ⟨by simp [h.length], ?_, ?_⟩
  · intro j hj hj'
    simp only [List.length_set] at hj hj'
    rcases eq_or_ne j i with rfl | hne
    · simpa using hlinked
    · rw [List.getElem_set_of_ne (Ne.symm hne), List.getElem_set_of_ne (Ne.symm hne)]
      exact (h.linked j hj hj').congr (hsame j hj' hne)
  · intro j k hj hk hjk p hp
    simp only [List.length_set] at hj hk
    rcases eq_or_ne j i with rfl | hji
    · rw [List.getElem_set_self] at hp
      rw [List.getElem_set_of_ne hjk]
      exact hother k (by simpa using hk) (Ne.symm hjk) p hp
    · rw [List.getElem_set_of_ne (Ne.symm hji)] at hp
      rcases eq_or_ne k i with rfl | hki
      · rw [List.getElem_set_self]
        intro hmem
        obtain ⟨q, hq, hqp⟩ := List.mem_map.mp hmem
        exact hother j (by simpa using hj) hji q hq
          (List.mem_map.mpr ⟨p, hp, hqp.symm⟩)
      · rw [List.getElem_set_of_ne (Ne.symm hki)]
        exact h.apart j k hj hk hjk p hp

/-- The first node is taken off a list. -/
theorem pop (h : Chained store firsts chains) (hi : i < chains.length)
    (hchain : chains[i] = (a, v) :: l) {next : Option A}
    (ha : store a = some ⟨v, next⟩) :
    Chained store (firsts.set i next) (chains.set i l) := by
  have hlinked := h.getD hi
  rw [hchain] at hlinked
  obtain ⟨-, next', ha', hrest⟩ := linked_cons_iff.mp hlinked
  obtain rfl : next' = next := by
    have hnode := ha'.symm.trans ha
    simpa using hnode
  refine h.set hi hrest (fun _ _ _ _ _ => rfl) fun p hp => .inl ?_
  rw [hchain]
  exact List.mem_map_of_mem (List.mem_cons_of_mem _ hp)

section Update

variable [DecidableEq A]

/-- An address outside the lists can be written to, and freed. -/
theorem update (h : Chained store firsts chains)
    (ha : a ∉ chains.flatten.map Prod.fst) (node : Option (Node A α)) :
    Chained (Function.update store a node) firsts chains :=
  h.congr fun _ hp => Function.update_of_ne
    (ne_of_mem_of_not_mem (List.mem_map_of_mem hp) ha) _ _

/-- An unused node goes to the front of a list. -/
theorem push (h : Chained store firsts chains) (hi : i < chains.length)
    (ha : a ∉ chains.flatten.map Prod.fst) (v : α) :
    Chained (Function.update store a (some ⟨v, firsts.getD i none⟩))
      (firsts.set i (some a)) (chains.set i ((a, v) :: chains[i])) := by
  have hupdate := h.update ha (some ⟨v, firsts.getD i none⟩)
  refine h.set hi (.cons (Function.update_self _ _ _) (hupdate.getD hi)) ?_ ?_
  · intro j hj _ p hp
    apply Function.update_of_ne
    rintro rfl
    exact ha (List.mem_map_of_mem
      (List.mem_flatten_of_mem (List.getElem_mem hj) hp))
  · intro p hp
    obtain rfl | hold := List.mem_cons.mp hp
    · exact .inr ha
    · exact .inl (List.mem_map_of_mem hold)

/-- A node after another is taken out of a list. -/
theorem bypass (h : Chained store firsts chains) (hi : i < chains.length)
    (hchain : chains[i] = l ++ (b, w) :: (a, v) :: l') {next : Option A}
    (ha : store a = some ⟨v, next⟩) :
    Chained (Function.update store b (some ⟨w, next⟩)) firsts
      (chains.set i (l ++ (b, w) :: l')) := by
  have hi' : i < firsts.length := h.length ▸ hi
  have hlinked := h.linked i hi' hi
  rw [hchain] at hlinked
  have hset := h.set hi (hlinked.bypass ha) (fun j hj hne p hp => ?_)
    fun p hp => .inl ?_
  · rwa [List.set_getElem_self] at hset
  · apply Function.update_of_ne
    rintro rfl
    refine h.apart j i hj hi hne p hp ?_
    rw [hchain]
    simp
  · rw [hchain]
    apply List.mem_map_of_mem
    simp only [List.mem_append, List.mem_cons] at hp ⊢
    tauto

end Update

end Chained

end LinkedList

end SysLib
