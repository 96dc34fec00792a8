import Mathlib.Data.List.Nodup
import Mathlib.Logic.Function.Basic
import Mathlib.Tactic.Common

/-!
Doubly linked lists in a store.

`Linked links l` says that the pointers to the two ends and the pointers in
the nodes are those of the list `l`. `Segment` says it of a part of a list,
with what is before it and what is behind it, so that a list can be taken
apart where one of its nodes changes and put together again. The operations
are those that a list in C has: a node is hung on an end or taken out, and
what is in it is overwritten. Each has a result if it is applied to a node of
the list, and the list it leaves is `l` with that one change.
-/

namespace SysLib

namespace DoublyLinked

/-- A node. `none` is the null pointer. -/
structure Node (A α : Type*) where
  value : α
  next : Option A
  prev : Option A

abbrev Store (A α : Type*) := A → Option (Node A α)

/-- The pointers to the two ends, and the nodes. -/
structure Links (A α : Type*) where
  start : Option A
  last : Option A
  store : Store A α

variable {A α : Type*}

def firstOf (l : List (A × α)) : Option A := l.head?.map Prod.fst

def lastOf (l : List (A × α)) : Option A := l.getLast?.map Prod.fst

@[simp] theorem firstOf_nil : firstOf ([] : List (A × α)) = none := rfl

@[simp] theorem firstOf_cons (p : A × α) (l : List (A × α)) :
    firstOf (p :: l) = some p.1 := rfl

@[simp] theorem lastOf_nil : lastOf ([] : List (A × α)) = none := rfl

@[simp] theorem lastOf_concat (l : List (A × α)) (p : A × α) :
    lastOf (l ++ [p]) = some p.1 := by
  simp [lastOf]

theorem lastOf_cons (p : A × α) (l : List (A × α)) :
    lastOf (p :: l) = (lastOf l).or (some p.1) := by
  cases hl : l.getLast? <;> simp [lastOf, List.getLast?_cons, hl]

theorem firstOf_append (l l' : List (A × α)) :
    firstOf (l ++ l') = (firstOf l).or (firstOf l') := by
  cases l <;> rfl

theorem lastOf_append (l l' : List (A × α)) :
    lastOf (l ++ l') = (lastOf l').or (lastOf l) := by
  simp only [lastOf, List.getLast?_append]
  cases l'.getLast? <;> rfl

theorem lastOf_eq_none {l : List (A × α)} : lastOf l = none ↔ l = [] := by
  simp [lastOf]

theorem lastOf_reverse (l : List (A × α)) : lastOf l.reverse = firstOf l := by
  simp [lastOf, firstOf]

theorem firstOf_map {β : Type*} {g : A × α → A × β} (hg : ∀ p, (g p).1 = p.1)
    (l : List (A × α)) : firstOf (l.map g) = firstOf l := by
  cases l <;> simp [hg]

theorem lastOf_map {β : Type*} {g : A × α → A × β} (hg : ∀ p, (g p).1 = p.1)
    (l : List (A × α)) : lastOf (l.map g) = lastOf l := by
  simp only [lastOf, List.getLast?_map, Option.map_map]
  congr 1
  ext1 p
  exact hg p

/-! ### Segments -/

section Segment

variable {store store' : Store A α} {before after : Option A}
  {l l' : List (A × α)} {a : A} {v : α}

/-- These nodes follow each other, behind `before` and in front of `after`. -/
def Segment (store : Store A α) : Option A → List (A × α) → Option A → Prop
  | _, [], _ => True
  | before, (a, v) :: l, after =>
      store a = some ⟨v, (firstOf l).or after, before⟩ ∧
        Segment store (some a) l after

@[simp] theorem segment_nil : Segment store before [] after := trivial

@[simp] theorem segment_cons : Segment store before ((a, v) :: l) after ↔
    store a = some ⟨v, (firstOf l).or after, before⟩ ∧
      Segment store (some a) l after := Iff.rfl

theorem segment_append : Segment store before (l ++ l') after ↔
    Segment store before l ((firstOf l').or after) ∧
      Segment store ((lastOf l).or before) l' after := by
  induction l generalizing before with
  | nil => simp
  | cons p l ih =>
      obtain ⟨a, v⟩ := p
      simp only [List.cons_append, segment_cons, ih, firstOf_append, lastOf_cons,
        Option.or_assoc, Option.or_some, and_assoc]
      simp

/-- A segment depends on its own nodes only. -/
theorem Segment.congr (h : Segment store before l after)
    (hsame : ∀ p ∈ l, store' p.1 = store p.1) : Segment store' before l after := by
  induction l generalizing before with
  | nil => trivial
  | cons p l ih =>
      rw [List.forall_mem_cons] at hsame
      exact ⟨hsame.1.trans h.1, ih h.2 hsame.2⟩

theorem Segment.update [DecidableEq A] (h : Segment store before l after)
    (ha : a ∉ l.map Prod.fst) (node : Option (Node A α)) :
    Segment (Function.update store a node) before l after :=
  h.congr fun _ hp => Function.update_of_ne
    (ne_of_mem_of_not_mem (List.mem_map_of_mem hp) ha) _ _

end Segment

/-! ### Lists -/

/-- The pointers are those of the list. -/
structure Linked (links : Links A α) (l : List (A × α)) : Prop where
  nodup : (l.map Prod.fst).Nodup
  start : links.start = firstOf l
  last : links.last = lastOf l
  segment : Segment links.store none l none

theorem linked_empty : Linked (⟨none, none, fun _ => none⟩ : Links A α) [] :=
  ⟨List.nodup_nil, rfl, rfl, trivial⟩

theorem exists_split {l : List (A × α)} {a : A} (ha : a ∈ l.map Prod.fst) :
    ∃ pre v post, l = pre ++ (a, v) :: post := by
  obtain ⟨⟨b, v⟩, hp, rfl⟩ := List.mem_map.mp ha
  obtain ⟨pre, post, hl⟩ := List.append_of_mem hp
  exact ⟨pre, v, post, hl⟩

theorem notMem_of_split {pre post : List (A × α)} {a : A} {v : α}
    (h : ((pre ++ (a, v) :: post).map Prod.fst).Nodup) :
    a ∉ pre.map Prod.fst ∧ a ∉ post.map Prod.fst ∧
      ((pre ++ post).map Prod.fst).Nodup := by
  rw [List.map_append, List.map_cons] at h
  have hmiddle := List.nodup_middle.mp h
  rw [List.nodup_cons, List.mem_append, not_or] at hmiddle
  rw [List.map_append]
  exact ⟨hmiddle.1.1, hmiddle.1.2, hmiddle.2⟩

theorem filter_ne_of_split [DecidableEq A] {pre post : List (A × α)} {a : A} {v : α}
    (h : ((pre ++ (a, v) :: post).map Prod.fst).Nodup) :
    (pre ++ (a, v) :: post).filter (fun p => p.1 ≠ a) = pre ++ post := by
  obtain ⟨hpre, hpost, -⟩ := notMem_of_split h
  have hkeep : ∀ l : List (A × α), a ∉ l.map Prod.fst →
      l.filter (fun p => p.1 ≠ a) = l := by
    intro l hl
    rw [List.filter_eq_self]
    intro p hp
    rw [decide_eq_true_eq]
    rintro rfl
    exact hl (List.mem_map_of_mem hp)
  rw [List.filter_append, List.filter_cons, hkeep pre hpre, hkeep post hpost]
  simp

section Links

variable {links : Links A α} {l pre post : List (A × α)} {a : A} {v : α}

/-- What is in a node of the list. -/
theorem Linked.read (h : Linked links (pre ++ (a, v) :: post)) :
    links.store a = some ⟨v, firstOf post, lastOf pre⟩ := by
  have hread := (segment_append.mp h.segment).2.1
  simpa using hread

variable [DecidableEq A]

namespace Links

/-- What is in a node is overwritten. -/
def setValue (links : Links A α) (a : A) (f : α → α) : Option (Links A α) :=
  (links.store a).map fun node =>
    { links with
      store := Function.update links.store a
        (some { node with value := f node.value }) }

def setNext (links : Links A α) (a : A) (next : Option A) : Option (Links A α) :=
  (links.store a).map fun node =>
    { links with store := Function.update links.store a (some { node with next }) }

def setPrev (links : Links A α) (a : A) (prev : Option A) : Option (Links A α) :=
  (links.store a).map fun node =>
    { links with store := Function.update links.store a (some { node with prev }) }

/-- The node before a node, if there is one, is told what comes next. -/
def passNext (links : Links A α) (next : Option A) : Option A → Option (Links A α)
  | none => some links
  | some p => links.setNext p next

def passPrev (links : Links A α) (prev : Option A) : Option A → Option (Links A α)
  | none => some links
  | some n => links.setPrev n prev

/-- A node is taken out and freed. -/
def unlink (links : Links A α) (a : A) : Option (Links A α) :=
  (links.store a).bind fun node =>
    ((links.passNext node.next node.prev).bind fun links =>
      links.passPrev node.prev node.next).map fun links =>
        { start := if links.start = some a then node.next else links.start
          last := if links.last = some a then node.prev else links.last
          store := Function.update links.store a none }

/-- A node is hung on the end. -/
def append (links : Links A α) (a : A) (v : α) : Option (Links A α) :=
  match links.start with
  | none => some
      { start := some a
        last := some a
        store := Function.update links.store a (some ⟨v, none, none⟩) }
  | some _ => links.last.bind fun e =>
      (links.setNext e (some a)).map fun links =>
        { start := links.start
          last := some a
          store := Function.update links.store a (some ⟨v, none, some e⟩) }

/-- A node is put in front. -/
def prepend (links : Links A α) (a : A) (v : α) : Option (Links A α) :=
  match links.start with
  | none => some
      { start := some a
        last := some a
        store := Function.update links.store a (some ⟨v, none, none⟩) }
  | some s => (links.setPrev s (some a)).map fun links =>
      { start := some a
        last := links.last
        store := Function.update links.store a (some ⟨v, some s, none⟩) }

end Links

/-- The same nodes are allocated. -/
def SameDomain (links links' : Links A α) : Prop :=
  ∀ c, links'.store c = none ↔ links.store c = none

omit [DecidableEq A] in
theorem SameDomain.refl (links : Links A α) : SameDomain links links :=
  fun _ => Iff.rfl

omit [DecidableEq A] in
theorem SameDomain.trans {links links' links'' : Links A α}
    (h : SameDomain links links') (h' : SameDomain links' links'') :
    SameDomain links links'' := fun c => (h' c).trans (h c)

theorem sameDomain_update {a : A} {node node' : Node A α}
    (ha : links.store a = some node) :
    SameDomain links
      { links with store := Function.update links.store a (some node') } := by
  intro c
  rcases eq_or_ne c a with rfl | hne
  · simp [ha]
  · simp [hne]

theorem Linked.setValue (h : Linked links l) (ha : a ∈ l.map Prod.fst)
    (f : α → α) :
    ∃ links', links.setValue a f = some links' ∧
      Linked links' (l.map fun p => if p.1 = a then (p.1, f p.2) else p) ∧
      SameDomain links links' := by
  obtain ⟨pre, v, post, rfl⟩ := exists_split ha
  have hread := h.read
  obtain ⟨hpre, hpost, -⟩ := notMem_of_split h.nodup
  have hfix : ∀ l : List (A × α), a ∉ l.map Prod.fst →
      l.map (fun p => if p.1 = a then (p.1, f p.2) else p) = l := by
    intro l hl
    conv_rhs => rw [← List.map_id l]
    apply List.map_congr_left
    intro p hp
    rw [if_neg]
    · rfl
    · rintro rfl
      exact hl (List.mem_map_of_mem hp)
  refine ⟨_, by rw [Links.setValue, hread]; rfl, ?_, sameDomain_update hread⟩
  rw [List.map_append, List.map_cons, hfix pre hpre, hfix post hpost, if_pos rfl]
  obtain ⟨hbefore, -, hafter⟩ := segment_append.mp h.segment
  refine ⟨?_, ?_, ?_, ?_⟩
  · simpa using h.nodup
  · simpa [firstOf_append] using h.start
  · simpa [lastOf_append, lastOf_cons] using h.last
  · rw [segment_append, segment_cons]
    refine ⟨hbefore.update hpre _, ?_, hafter.update hpost _⟩
    simp

/-- What changes if one pointer of a node changes: the store, at nodes of the
segment. -/
structure Rewired (links links' : Links A α) (l : List (A × α)) : Prop where
  start : links'.start = links.start
  last : links'.last = links.last
  frame : ∀ c ∉ l.map Prod.fst, links'.store c = links.store c
  domain : SameDomain links links'

omit [DecidableEq A] in
theorem Rewired.refl (links : Links A α) (l : List (A × α)) : Rewired links links l :=
  ⟨rfl, rfl, fun _ _ => rfl, fun _ => Iff.rfl⟩

/-- The last node of a segment gets another one behind it. -/
theorem Segment.passNext {before after : Option A}
    (h : Segment links.store before l after) (hnodup : (l.map Prod.fst).Nodup)
    (next : Option A) :
    ∃ links', links.passNext next (lastOf l) = some links' ∧
      Segment links'.store before l next ∧ Rewired links links' l := by
  obtain rfl | ⟨l, ⟨b, w⟩, rfl⟩ := List.eq_nil_or_concat l
  · exact ⟨links, rfl, trivial, Rewired.refl _ _⟩
  · rw [List.concat_eq_append] at h hnodup ⊢
    obtain ⟨hl, hb, -⟩ := segment_append.mp h
    obtain ⟨hbl, -, -⟩ := notMem_of_split hnodup
    refine ⟨⟨links.start, links.last, Function.update links.store b
        (some ⟨w, next, (lastOf l).or before⟩)⟩, ?_, ?_, rfl, rfl, ?_,
      sameDomain_update hb⟩
    · rw [lastOf_concat, Links.passNext, Links.setNext, hb]
      rfl
    · rw [segment_append]
      exact ⟨hl.update hbl _, by simp, trivial⟩
    · intro c hc
      apply Function.update_of_ne
      rintro rfl
      simp at hc

/-- The first node of a segment gets another one before it. -/
theorem Segment.passPrev {before after : Option A}
    (h : Segment links.store before l after) (hnodup : (l.map Prod.fst).Nodup)
    (prev : Option A) :
    ∃ links', links.passPrev prev (firstOf l) = some links' ∧
      Segment links'.store prev l after ∧ Rewired links links' l := by
  cases l with
  | nil => exact ⟨links, rfl, trivial, Rewired.refl _ _⟩
  | cons p l =>
      obtain ⟨b, w⟩ := p
      obtain ⟨hb, hl⟩ := h
      rw [List.map_cons, List.nodup_cons] at hnodup
      refine ⟨⟨links.start, links.last, Function.update links.store b
          (some ⟨w, (firstOf l).or after, prev⟩)⟩, ?_,
        ⟨?_, hl.update hnodup.1 _⟩, rfl, rfl, ?_, sameDomain_update hb⟩
      · rw [firstOf_cons, Links.passPrev, Links.setPrev, hb]
        rfl
      · simp
      · intro c hc
        apply Function.update_of_ne
        rintro rfl
        simp at hc

/-- A node of the list is taken out of it, and freed. -/
theorem Linked.unlink (h : Linked links l) (ha : a ∈ l.map Prod.fst) :
    ∃ links', links.unlink a = some links' ∧
      Linked links' (l.filter fun p => p.1 ≠ a) ∧
      ∀ c, links'.store c = none ↔ c = a ∨ links.store c = none := by
  obtain ⟨pre, v, post, rfl⟩ := exists_split ha
  have hread := h.read
  obtain ⟨hapre, hapost, hnodup⟩ := notMem_of_split h.nodup
  rw [List.map_append, List.nodup_append'] at hnodup
  obtain ⟨hpre, -, hpost⟩ := segment_append.mp h.segment
  obtain ⟨links₁, hnext, hpre₁, hrewired₁⟩ := hpre.passNext hnodup.1 (firstOf post)
  have hpost₁ : Segment links₁.store (some a) post none :=
    hpost.congr fun p hp => hrewired₁.frame p.1 fun hmem =>
      hnodup.2.2 hmem (List.mem_map_of_mem hp)
  obtain ⟨links₂, hprev, hpost₂, hrewired₂⟩ :=
    hpost₁.passPrev hnodup.2.1 (lastOf pre)
  have hpre₂ : Segment links₂.store none pre (firstOf post) :=
    hpre₁.congr fun p hp => hrewired₂.frame p.1 fun hmem =>
      hnodup.2.2 (List.mem_map_of_mem hp) hmem
  -- the pointers to the ends follow if the node was one
  have hstart : (if links₂.start = some a then firstOf post else links₂.start) =
      firstOf (pre ++ post) := by
    rw [hrewired₂.start, hrewired₁.start, h.start]
    cases pre with
    | nil => simp
    | cons p pre =>
        rw [List.cons_append, firstOf_cons, if_neg, List.cons_append, firstOf_cons]
        rintro ⟨⟩
        simp at hapre
  have hlast : (if links₂.last = some a then lastOf pre else links₂.last) =
      lastOf (pre ++ post) := by
    rw [hrewired₂.last, hrewired₁.last, h.last]
    obtain rfl | ⟨post, p, rfl⟩ := List.eq_nil_or_concat post
    · simp
    · rw [List.concat_eq_append, ← List.cons_append, ← List.append_assoc,
        lastOf_concat, ← List.append_assoc, lastOf_concat, if_neg]
      rintro ⟨⟩
      simp at hapost
  rw [filter_ne_of_split h.nodup]
  refine ⟨⟨if links₂.start = some a then firstOf post else links₂.start,
      if links₂.last = some a then lastOf pre else links₂.last,
      Function.update links₂.store a none⟩, ?_, ⟨?_, hstart, hlast, ?_⟩, ?_⟩
  · simp only [Links.unlink, hread, Option.bind_some, hnext, hprev, Option.map_some]
  · rw [List.map_append, List.nodup_append']
    exact hnodup
  · rw [segment_append, Option.or_none, Option.or_none]
    exact ⟨hpre₂.update hapre none, hpost₂.update hapost none⟩
  · intro c
    rcases eq_or_ne c a with rfl | hne
    · simp
    · change Function.update links₂.store a none c = none ↔ _
      rw [Function.update_of_ne hne, hrewired₂.domain c, hrewired₁.domain c]
      simp [hne]

omit [DecidableEq A] in
theorem SameDomain.update [DecidableEq A] {links' : Links A α}
    (h : SameDomain links links') (a : A) (node : Node A α) (c : A) :
    Function.update links'.store a (some node) c = none ↔
      c ≠ a ∧ links.store c = none := by
  rcases eq_or_ne c a with rfl | hne
  · simp
  · rw [Function.update_of_ne hne, h c]
    simp [hne]

/-- An unused node is hung on the end. -/
theorem Linked.append (h : Linked links l) (ha : a ∉ l.map Prod.fst) (v : α) :
    ∃ links', links.append a v = some links' ∧ Linked links' (l ++ [(a, v)]) ∧
      ∀ c, links'.store c = none ↔ c ≠ a ∧ links.store c = none := by
  have hnodup : ((l ++ [(a, v)]).map Prod.fst).Nodup := by
    rw [List.map_append, List.nodup_append']
    refine ⟨h.nodup, List.nodup_singleton _, ?_⟩
    simpa using ha
  obtain rfl | ⟨l, ⟨b, w⟩, rfl⟩ := List.eq_nil_or_concat l
  · have hstart := h.start
    rw [firstOf_nil] at hstart
    refine ⟨⟨some a, some a, Function.update links.store a (some ⟨v, none, none⟩)⟩,
      by rw [Links.append, hstart], ⟨hnodup, rfl, rfl, ?_⟩,
      (SameDomain.refl links).update a _⟩
    simp
  · rw [List.concat_eq_append] at *
    obtain ⟨links₁, hnext, hsegment, hrewired⟩ :=
      h.segment.passNext h.nodup (some a)
    have hlast := h.last
    rw [lastOf_concat] at hnext hlast
    have hstart : ∃ s, links.start = some s := by
      rw [h.start, firstOf_append]
      cases firstOf l <;> simp
    obtain ⟨s, hs⟩ := hstart
    refine ⟨⟨links₁.start, some a,
        Function.update links₁.store a (some ⟨v, none, some b⟩)⟩, ?_,
      ⟨hnodup, ?_, ?_, ?_⟩, hrewired.domain.update a _⟩
    · rw [Links.passNext] at hnext
      simp only [Links.append, hs, hlast, Option.bind_some, hnext, Option.map_some]
    · rw [hrewired.start, h.start, firstOf_append, firstOf_append, firstOf_append]
      cases firstOf l <;> simp
    · rw [lastOf_concat]
    · rw [segment_append]
      refine ⟨hsegment.update ha _, ?_⟩
      simp

/-- An unused node is put in front. -/
theorem Linked.prepend (h : Linked links l) (ha : a ∉ l.map Prod.fst) (v : α) :
    ∃ links', links.prepend a v = some links' ∧ Linked links' ((a, v) :: l) ∧
      ∀ c, links'.store c = none ↔ c ≠ a ∧ links.store c = none := by
  have hnodup : (((a, v) :: l).map Prod.fst).Nodup :=
    List.nodup_cons.mpr ⟨ha, h.nodup⟩
  cases l with
  | nil =>
      have hstart := h.start
      rw [firstOf_nil] at hstart
      refine ⟨⟨some a, some a, Function.update links.store a (some ⟨v, none, none⟩)⟩,
        by rw [Links.prepend, hstart], ⟨hnodup, rfl, rfl, ?_⟩,
        (SameDomain.refl links).update a _⟩
      simp
  | cons p l =>
      obtain ⟨links₁, hprev, hsegment, hrewired⟩ :=
        h.segment.passPrev h.nodup (some a)
      have hstart := h.start
      rw [firstOf_cons] at hprev hstart
      refine ⟨⟨some a, links₁.last,
          Function.update links₁.store a (some ⟨v, some p.1, none⟩)⟩, ?_,
        ⟨hnodup, rfl, ?_, ?_, ?_⟩, hrewired.domain.update a _⟩
      · rw [Links.passPrev] at hprev
        simp only [Links.prepend, hstart, hprev, Option.map_some]
      · rw [hrewired.last, h.last, lastOf_cons (a, v), lastOf_cons p]
        simp
      · simp
      · exact hsegment.update ha _

end Links

end DoublyLinked

end SysLib
