import Lwfs.Support.TclistRules

/-!
Threads that share a list.

Each thread has a pointer to an item, its cursor, and calls the list with it.
The calls of all threads come in some order, each under the lock. What a
thread must keep to is little (`Allowed`): it hands in a cursor only while it
is at an item, and no item is removed twice. Then no call crashes, the list
counts its items, and all data that is to be freed is freed once
(`runs_safe`). A thread that goes through the whole list comes by each item
that is there from beginning to end once, and in order, whatever the others do
to the list (`iteration_complete`).
-/

namespace Lwfs.Support.Tclist

open SysLib DoublyLinked

variable {A F α : Type}

/-- The list, the cursors of the threads, and the data of the items that have
been removed, with the functions that are to free it. -/
structure Shared (A F α : Type) where
  list : Tclist A F α
  cursors : List (Option A)
  asked : List (F × α)

/-- A call of a thread, or one that needs no cursor. -/
inductive Call (A F α : Type)
  | advance (i : ℕ) (dir : Direction)
  | unlock (i : ℕ)
  | remove (i : ℕ) (fr : Option F)
  | push (alloc : Allocator A (Node A (Item F α))) (p : α)
  | unshift (alloc : Allocator A (Node A (Item F α))) (p : α)

inductive Reply (A α : Type)
  | reached (item : Option (A × α))
  | unlocked
  | removed (item : A)
  | added (done : Bool)

/-- What the threads keep to. -/
def Allowed (w : Shared A F α) : Call A F α → Prop
  | .advance i _ => ∃ c, w.cursors[i]? = some c
  | .unlock i => ∃ l, w.cursors[i]? = some (some l)
  | .remove i _ => ∃ l, w.cursors[i]? = some (some l) ∧
      ∀ node, w.list.links.store l = some node → node.value.deleted = false
  | .push _ _ => True
  | .unshift _ _ => True

/-- The threads before they call the list. -/
def start (n : ℕ) : Shared A F α := ⟨new, List.replicate n none, []⟩

section Step

variable [DecidableEq A]

/-- A call. A thread that has unlocked its item has no cursor any more. -/
def step (w : Shared A F α) : Call A F α → Option (Reply A α × Shared A F α)
  | .advance i dir => do
      let c ← w.cursors[i]?
      let (n, list) ← w.list.advance dir c
      some (.reached n, ⟨list, w.cursors.set i (n.map Prod.fst), w.asked⟩)
  | .unlock i => do
      let l ← w.cursors.getD i none
      let list ← w.list.unlock l
      some (.unlocked, ⟨list, w.cursors.set i none, w.asked⟩)
  | .remove i fr => do
      let l ← w.cursors.getD i none
      let node ← w.list.links.store l
      let list ← w.list.remove l fr
      some (.removed l, ⟨list, w.cursors, w.asked ++ callFree fr node.value.data⟩)
  | .push alloc p => (w.list.push alloc p).map fun r =>
      (.added r.1, ⟨r.2, w.cursors, w.asked⟩)
  | .unshift alloc p => (w.list.unshift alloc p).map fun r =>
      (.added r.1, ⟨r.2, w.cursors, w.asked⟩)

/-- A run of allowed calls, with the replies. -/
inductive Runs : Shared A F α → List (Call A F α × Reply A α) → Shared A F α → Prop
  | nil {w : Shared A F α} : Runs w [] w
  | cons {w w' w'' : Shared A F α} {c : Call A F α} {r : Reply A α}
      {events : List (Call A F α × Reply A α)} (allowed : Allowed w c)
      (first : step w c = some (r, w')) (rest : Runs w' events w'') :
      Runs w ((c, r) :: events) w''

/-- The number of threads at an item. -/
def countOf (cursors : List (Option A)) (a : A) : ℤ := cursors.count (some a)

/-- The items that are removed and still there. -/
def gone (s : List (A × Cell F α)) : List (A × Cell F α) :=
  s.filter fun p => p.2.deleted

/-- The data of removed items that threads are still at. -/
def pending (s : List (A × Cell F α)) : List (F × α) :=
  (gone s).flatMap fun p => callFree p.2.free p.2.data

/-- The list shows these items, and data that is to be freed either is or
waits for threads. -/
structure WellFormed (w : Shared A F α) (s : List (A × Cell F α)) : Prop where
  sound : Sound w.list s (countOf w.cursors)
  ledger : (w.list.freed ++ pending s).Perm w.asked

theorem wellFormed_start (n : ℕ) : WellFormed (start n : Shared A F α) [] where
  sound := by
    have hzero : countOf (List.replicate n (none : Option A)) = fun _ => 0 := by
      ext1 a
      simp [countOf, List.count_replicate]
    rw [start, hzero]
    exact sound_new
  ledger := List.Perm.refl _

section Lemmas

variable {w : Shared A F α} {s : List (A × Cell F α)}

theorem countOf_set {cursors : List (Option A)} {i : ℕ} {c : Option A}
    (hc : cursors[i]? = some c) (n : Option A) :
    countOf (cursors.set i n) = moved (countOf cursors) c n := by
  obtain ⟨hi, rfl⟩ := List.getElem?_eq_some_iff.mp hc
  ext1 a
  have hpos : cursors[i] = some a → 0 < cursors.count (some a) := fun h =>
    List.count_pos_iff.mpr (h ▸ List.getElem_mem hi)
  simp only [countOf, moved, List.count_set hi, beq_iff_eq]
  by_cases hca : cursors[i] = some a
  · have hle := hpos hca
    simp only [hca, if_true]
    split <;> omega
  · simp only [hca, if_false]
    split <;> omega

theorem countOf_pos {cursors : List (Option A)} {i : ℕ} {l : A}
    (hl : cursors[i]? = some (some l)) : 0 < countOf cursors l := by
  have hmem := List.mem_of_getElem? hl
  have hcount := List.count_pos_iff.mpr hmem
  simp only [countOf]
  omega

theorem WellFormed.cursor_pos (_ : WellFormed w s) {i : ℕ} {c : Option A}
    (hc : w.cursors[i]? = some c) : ∀ a, c = some a → 0 < countOf w.cursors a := by
  rintro a rfl
  exact countOf_pos hc

omit [DecidableEq A] in
theorem pending_cons (p : A × Cell F α) (s : List (A × Cell F α)) :
    pending (p :: s) =
      (if p.2.deleted then callFree p.2.free p.2.data else []) ++ pending s := by
  simp only [pending, gone, List.filter_cons]
  split <;> simp

omit [DecidableEq A] in
theorem pending_append (s s' : List (A × Cell F α)) :
    pending (s ++ s') = pending s ++ pending s' := by
  simp [pending, gone]

/-- The data of an item that is taken out is freed. -/
theorem pending_left (K : A → ℤ) (c : Option A) (s : List (A × Cell F α)) :
    (freedBy K c s ++ pending (left K c s)).Perm (pending s) := by
  induction s with
  | nil => exact List.Perm.refl _
  | cons p s ih =>
      by_cases hgone : c = some p.1 ∧ p.2.deleted = true ∧ K p.1 = 1
      · have hfreed : freedBy K c (p :: s) =
            callFree p.2.free p.2.data ++ freedBy K c s := by
          simp [freedBy, hgone]
        have hleft : left K c (p :: s) = left K c s := by
          simp [left, hgone]
        rw [hfreed, hleft, pending_cons, if_pos hgone.2.1, List.append_assoc]
        exact ih.append_left _
      · have hfreed : freedBy K c (p :: s) = freedBy K c s := by
          rw [freedBy, List.filter_cons_of_neg (by simpa using hgone)]
          rfl
        have hleft : left K c (p :: s) = p :: left K c s := by
          exact List.filter_cons_of_pos (decide_eq_true hgone)
        rw [hfreed, hleft, pending_cons, pending_cons]
        exact (List.perm_append_comm_assoc _ _ _).trans (ih.append_left _)

/-- The data of an item that is removed waits to be freed. -/
theorem pending_marked {l : A} {cell : Cell F α} (hnodup : (s.map Prod.fst).Nodup)
    (hl : (l, cell) ∈ s) (hlive : cell.deleted = false) (fr : Option F) :
    (pending (marked l fr s)).Perm (pending s ++ callFree fr cell.data) := by
  obtain ⟨pre, post, rfl⟩ := List.append_of_mem hl
  rw [marked_of_split hnodup, pending_append, pending_append, pending_cons,
    pending_cons, hlive]
  simp only [if_true, Bool.false_eq_true, if_false, List.nil_append,
    List.append_assoc]
  exact (List.perm_append_comm).append_left _

/-- What a call does to the items. -/
inductive Effect (w : Shared A F α) (s : List (A × Cell F α)) :
    Call A F α → Reply A α → Shared A F α → List (A × Cell F α) → Prop
  | advance {i : ℕ} {dir : Direction} {c : Option A} {list : Tclist A F α}
      {behind rest : List (A × Cell F α)} (hc : w.cursors[i]? = some c)
      (hpos : Position dir s c behind rest) :
      Effect w s (.advance i dir) (.reached (nextLive rest))
        ⟨list, w.cursors.set i ((nextLive rest).map Prod.fst), w.asked⟩
        (left (countOf w.cursors) c s)
  | unlock {i : ℕ} {l : A} {list : Tclist A F α}
      (hl : w.cursors[i]? = some (some l)) :
      Effect w s (.unlock i) .unlocked ⟨list, w.cursors.set i none, w.asked⟩
        (left (countOf w.cursors) (some l) s)
  | remove {i : ℕ} {fr : Option F} {l : A} {cell : Cell F α} {list : Tclist A F α}
      (hl : w.cursors[i]? = some (some l)) (hcell : (l, cell) ∈ s)
      (hlive : cell.deleted = false) :
      Effect w s (.remove i fr) (.removed l)
        ⟨list, w.cursors, w.asked ++ callFree fr cell.data⟩ (marked l fr s)
  | push {alloc : Allocator A (Node A (Item F α))} {p : α} {l : A}
      {list : Tclist A F α} (hl : l ∉ s.map Prod.fst) :
      Effect w s (.push alloc p) (.added true) ⟨list, w.cursors, w.asked⟩
        (s ++ [(l, ⟨p, none, false⟩)])
  | pushFull {alloc : Allocator A (Node A (Item F α))} {p : α} :
      Effect w s (.push alloc p) (.added false) w s
  | unshift {alloc : Allocator A (Node A (Item F α))} {p : α} {l : A}
      {list : Tclist A F α} (hl : l ∉ s.map Prod.fst) :
      Effect w s (.unshift alloc p) (.added true) ⟨list, w.cursors, w.asked⟩
        ((l, ⟨p, none, false⟩) :: s)
  | unshiftFull {alloc : Allocator A (Node A (Item F α))} {p : α} :
      Effect w s (.unshift alloc p) (.added false) w s

theorem step_advance (h : WellFormed w s) {i : ℕ} {dir : Direction} {c : Option A}
    {behind rest : List (A × Cell F α)} (hc : w.cursors[i]? = some c)
    (hpos : Position dir s c behind rest) :
    ∃ w', step w (.advance i dir) = some (.reached (nextLive rest), w') ∧
      w'.cursors = w.cursors.set i ((nextLive rest).map Prod.fst) ∧
      w'.asked = w.asked ∧ WellFormed w' (left (countOf w.cursors) c s) := by
  obtain ⟨list, hadvance, hsound, hfreed⟩ := h.sound.advance (h.cursor_pos hc) hpos
  refine ⟨⟨list, w.cursors.set i ((nextLive rest).map Prod.fst), w.asked⟩, ?_, rfl,
    rfl, ?_, ?_⟩
  · simp only [step, hc, hadvance, Option.bind_eq_bind, Option.bind_some]
  · rwa [countOf_set hc]
  · rw [hfreed, List.append_assoc]
    exact ((pending_left _ _ _).append_left _).trans h.ledger

/-- An allowed call has a result. -/
theorem step_effect (h : WellFormed w s) {c : Call A F α} (ha : Allowed w c) :
    ∃ r w' s', step w c = some (r, w') ∧ Effect w s c r w' s' ∧ WellFormed w' s' := by
  cases c with
  | advance i dir =>
      obtain ⟨c, hc⟩ := ha
      obtain ⟨behind, rest, hpos⟩ := h.sound.exists_position dir (h.cursor_pos hc)
      obtain ⟨⟨list, cursors, asked⟩, hs, rfl, rfl, hwf⟩ := step_advance h hc hpos
      exact ⟨_, _, _, hs, .advance hc hpos, hwf⟩
  | unlock i =>
      obtain ⟨l, hl⟩ := ha
      obtain ⟨list, hunlock, hsound, hfreed⟩ := h.sound.unlock (countOf_pos hl)
      have hget : w.cursors.getD i none = some l := by
        simp [List.getD_eq_getElem?_getD, hl]
      refine ⟨_, ⟨list, w.cursors.set i none, w.asked⟩, _, ?_, .unlock hl, ?_, ?_⟩
      · simp only [step, hget, hunlock, Option.bind_eq_bind, Option.bind_some]
      · rwa [countOf_set hl]
      · rw [hfreed, List.append_assoc]
        exact ((pending_left _ _ _).append_left _).trans h.ledger
  | remove i fr =>
      obtain ⟨l, hl, hnode⟩ := ha
      obtain ⟨⟨l', cell⟩, hcell, heq⟩ :=
        List.mem_map.mp (h.sound.held l (countOf_pos hl))
      obtain rfl : l' = l := heq
      obtain ⟨next, prev, hread⟩ := h.sound.shows.read hcell
      have hlive : cell.deleted = false := hnode _ hread
      obtain ⟨list, hremove, hsound, hfreed⟩ :=
        h.sound.remove hcell hlive (countOf_pos hl) fr
      have hget : w.cursors.getD i none = some l' := by
        simp [List.getD_eq_getElem?_getD, hl]
      refine ⟨_, ⟨list, w.cursors, w.asked ++ callFree fr cell.data⟩, _, ?_,
        .remove hl hcell hlive, hsound, ?_⟩
      · simp only [step, hget, hread, hremove, Option.bind_eq_bind, Option.bind_some]
        rfl
      · have hpending := pending_marked h.sound.shows.nodup hcell hlive fr
        rw [hfreed]
        refine (hpending.append_left _).trans ?_
        rw [← List.append_assoc]
        exact h.ledger.append_right _
  | push alloc p =>
      obtain ⟨-, hpush⟩ | ⟨l, list, hl, hpush, hsound, hfreed⟩ := h.sound.push alloc p
      · exact ⟨_, _, _, by simp [step, hpush], .pushFull, h⟩
      · refine ⟨_, ⟨list, w.cursors, w.asked⟩, _, by simp [step, hpush], .push hl,
          hsound, ?_⟩
        simpa [pending_append, pending_cons, pending, gone, hfreed] using h.ledger
  | unshift alloc p =>
      obtain ⟨-, hunshift⟩ | ⟨l, list, hl, hunshift, hsound, hfreed⟩ :=
        h.sound.unshift alloc p
      · exact ⟨_, _, _, by simp [step, hunshift], .unshiftFull, h⟩
      · refine ⟨_, ⟨list, w.cursors, w.asked⟩, _, by simp [step, hunshift],
          .unshift hl, hsound, ?_⟩
        simpa [pending, gone, hfreed] using h.ledger

theorem effect_of_step {w' : Shared A F α} {c : Call A F α} {r : Reply A α}
    (h : WellFormed w s) (ha : Allowed w c) (hs : step w c = some (r, w')) :
    ∃ s', Effect w s c r w' s' ∧ WellFormed w' s' := by
  obtain ⟨r', w'', s', hs', heffect, hwf⟩ := step_effect h ha
  cases hs.symm.trans hs'
  exact ⟨s', heffect, hwf⟩

/-! ### Safety -/

/-- An item is removed. -/
def isRemove : Call A F α × Reply A α → Bool
  | (.remove _ _, _) => true
  | _ => false

/-- An item is added. -/
def isAdd : Call A F α × Reply A α → Bool
  | (_, .added true) => true
  | _ => false

/-- The number of items that are not removed. -/
def liveCount (s : List (A × Cell F α)) : ℕ := s.countP fun p => !p.2.deleted

theorem liveCount_left (K : A → ℤ) (c : Option A) (s : List (A × Cell F α)) :
    liveCount (left K c s) = liveCount s := by
  rw [liveCount, left, List.countP_filter]
  apply List.countP_congr
  intro p _
  cases p.2.deleted <;> simp

theorem Effect.liveCount {w' : Shared A F α} {s' : List (A × Cell F α)}
    {c : Call A F α} {r : Reply A α} (h : WellFormed w s) (he : Effect w s c r w' s') :
    liveCount s' + (if isRemove (c, r) then 1 else 0) =
      liveCount s + if isAdd (c, r) then 1 else 0 := by
  cases he with
  | advance hc hpos => simp [liveCount_left, isRemove, isAdd]
  | unlock hl => simp [liveCount_left, isRemove, isAdd]
  | @remove i fr l cell list hl hcell hlive =>
      have hnodup := h.sound.shows.nodup
      obtain ⟨pre, post, rfl⟩ := List.append_of_mem hcell
      rw [marked_of_split hnodup]
      simp [Tclist.liveCount, isRemove, isAdd, hlive]
      omega
  | push hl => simp [Tclist.liveCount, isRemove, isAdd]
  | pushFull => simp [isRemove, isAdd]
  | unshift hl => simp [Tclist.liveCount, isRemove, isAdd]
  | unshiftFull => simp [isRemove, isAdd]

omit [DecidableEq A] in
theorem Sound.count_eq {lst : Tclist A F α} {K : A → ℤ} (h : Sound lst s K) :
    lst.count = liveCount s := by
  have hlength := List.length_eq_countP_add_countP (fun p => p.2.deleted) (l := s)
  have hlive : s.countP (fun p => decide ¬ p.2.deleted = true) = liveCount s := by
    apply List.countP_congr
    intro p _
    cases p.2.deleted <;> simp
  rw [hlive] at hlength
  rw [count, h.shows.items, h.shows.deleted]
  omega

theorem Runs.wellFormed {w' : Shared A F α} {events : List (Call A F α × Reply A α)}
    (hruns : Runs w events w') (h : WellFormed w s) :
    ∃ s', WellFormed w' s' ∧
      liveCount s' + events.countP isRemove = liveCount s + events.countP isAdd := by
  induction hruns generalizing s with
  | nil => exact ⟨s, h, rfl⟩
  | cons allowed first rest ih =>
      obtain ⟨s₁, heffect, hwf⟩ := effect_of_step h allowed first
      obtain ⟨s', hwf', hcount⟩ := ih hwf
      have hstep := heffect.liveCount h
      refine ⟨s', hwf', ?_⟩
      simp only [List.countP_cons]
      omega

theorem WellFormed.mem_gone (h : WellFormed w s) {a : A} :
    a ∈ (gone s).map Prod.fst ↔
      ∃ node, w.list.links.store a = some node ∧ node.value.deleted = true := by
  constructor
  · intro ha
    obtain ⟨p, hp, rfl⟩ := List.mem_map.mp ha
    obtain ⟨hs, hdeleted⟩ := List.mem_filter.mp hp
    obtain ⟨next, prev, hread⟩ := h.sound.shows.read hs
    exact ⟨_, hread, hdeleted⟩
  · rintro ⟨node, hnode, hdeleted⟩
    have ha : a ∈ s.map Prod.fst := h.sound.shows.owned a (by simp [hnode])
    obtain ⟨p, hp, rfl⟩ := List.mem_map.mp ha
    obtain ⟨next, prev, hread⟩ := h.sound.shows.read hp
    rw [hnode] at hread
    cases hread
    exact List.mem_map_of_mem (List.mem_filter.mpr ⟨hp, hdeleted⟩)

/-- What waits is what the items in memory say. -/
theorem WellFormed.pending_eq (h : WellFormed w s) :
    pending s = ((gone s).map Prod.fst).flatMap w.list.due := by
  rw [pending, List.flatMap_map]
  apply List.flatMap_congr
  intro p hp
  obtain ⟨next, prev, hread⟩ := h.sound.shows.read (List.mem_filter.mp hp).1
  rw [due, hread]
  rfl

/-- In every run, whatever the threads do next has a result; no thread is at
memory that is freed; the list counts its items; the items that are removed and
still there (`gone`) have threads at them; what is to be freed has been freed
once, or is the data of one of them and waits for the threads. -/
theorem runs_safe (n : ℕ) {events : List (Call A F α × Reply A α)}
    (hruns : Runs (start n) events w) :
    (∀ c, Allowed w c → ∃ r w', step w c = some (r, w')) ∧
      (∀ a, some a ∈ w.cursors → w.list.links.store a ≠ none) ∧
      w.list.count + events.countP isRemove = events.countP isAdd ∧
      (∀ a node, w.list.links.store a = some node → node.value.deleted = true →
        some a ∈ w.cursors) ∧
      (∃ gone : List A, gone.Nodup ∧
        (∀ a, a ∈ gone ↔
          ∃ node, w.list.links.store a = some node ∧ node.value.deleted = true) ∧
        (w.list.freed ++ gone.flatMap w.list.due).Perm w.asked) ∧
      ((∀ c ∈ w.cursors, c = none) → w.list.freed.Perm w.asked) := by
  obtain ⟨s, h, hcount⟩ := hruns.wellFormed (wellFormed_start n)
  have hmem : ∀ a, 0 < countOf w.cursors a → some a ∈ w.cursors := by
    intro a ha
    apply List.count_pos_iff.mp
    simp only [countOf] at ha
    omega
  refine ⟨fun c hc => ?_, fun a ha => ?_, ?_, fun a node hnode hdeleted => ?_,
    ⟨(gone s).map Prod.fst, ?_, fun a => h.mem_gone, ?_⟩, fun hnone => ?_⟩
  · obtain ⟨r, w', -, hs, -⟩ := step_effect h hc
    exact ⟨r, w', hs⟩
  · obtain ⟨i, hi⟩ := List.getElem?_of_mem ha
    obtain ⟨p, hp, rfl⟩ := List.mem_map.mp (h.sound.held a (countOf_pos hi))
    obtain ⟨next, prev, hread⟩ := h.sound.shows.read hp
    rw [hread]
    exact Option.some_ne_none _
  · rw [h.sound.count_eq, hcount]
    simp [liveCount]
  · obtain ⟨p, hp, rfl⟩ := List.mem_map.mp (h.mem_gone.mpr ⟨node, hnode, hdeleted⟩)
    obtain ⟨hs, hgone⟩ := List.mem_filter.mp hp
    exact hmem _ (h.sound.kept p hs hgone)
  · exact h.sound.shows.nodup.sublist (List.filter_sublist.map Prod.fst)
  · rw [← h.pending_eq]
    exact h.ledger
  · have hempty : pending s = [] := by
      have hgone : gone s = [] := by
        rw [gone, List.filter_eq_nil_iff]
        intro p hp hdeleted
        cases hnone _ (hmem _ (h.sound.kept p hp hdeleted))
      rw [pending, hgone]
      rfl
    have hledger := h.ledger
    rwa [hempty, List.append_nil] at hledger

end Lemmas

/-! ### Going through a list that others change -/

/-- The item that a thread gets to with a call. -/
def visit (i : ℕ) : Call A F α × Reply A α → Option A
  | (.advance j _, .reached (some item)) => if j = i then some item.1 else none
  | _ => none

/-- The items that a thread comes by. -/
def visited (i : ℕ) (events : List (Call A F α × Reply A α)) : List A :=
  events.filterMap (visit i)

def removedBy : Call A F α × Reply A α → Option A
  | (_, .removed l) => some l
  | _ => none

/-- The items that are removed. -/
def removedIn (events : List (Call A F α × Reply A α)) : List A :=
  events.filterMap removedBy

/-- The thread goes on in one direction until it is through, and does not
unlock an item. It may remove items. -/
inductive Iterates (i : ℕ) (dir : Direction) :
    List (Call A F α × Reply A α) → Prop
  | through : Iterates i dir [(.advance i dir, .reached none)]
  | own {item : A × α} {events : List (Call A F α × Reply A α)}
      (rest : Iterates i dir events) :
      Iterates i dir ((.advance i dir, .reached (some item)) :: events)
  | other {c : Call A F α} {r : Reply A α} {events : List (Call A F α × Reply A α)}
      (hadvance : ∀ dir', c ≠ .advance i dir') (hunlock : c ≠ .unlock i)
      (rest : Iterates i dir events) : Iterates i dir ((c, r) :: events)

section Iteration

variable {w : Shared A F α} {s behind rest : List (A × Cell F α)} {dir : Direction}
  {c : Option A} {T : A → Bool} {i : ℕ}

/-- The items of `T` are not removed. -/
structure Stays (T : A → Bool) (s : List (A × Cell F α)) : Prop where
  mem : ∀ a, T a = true → a ∈ s.map Prod.fst
  live : ∀ p ∈ s, T p.1 = true → p.2.deleted = false

/-- The items of `T` among these. -/
def among (T : A → Bool) (s : List (A × Cell F α)) : List A :=
  (s.map Prod.fst).filter T

theorem among_left {K : A → ℤ} {c' : Option A} {s' : List (A × Cell F α)}
    (h : ∀ p ∈ s', T p.1 = true → p.2.deleted = false) :
    among T (left K c' s') = among T s' := by
  simp only [among, left, List.filter_map, List.filter_filter]
  congr 1
  apply List.filter_congr
  intro p hp
  cases hT : T p.1 with
  | false => simp [hT]
  | true => simp [hT, h p hp hT]

/-- Another thread that leaves its item takes no item of `T` out, and not the
one that this thread is at. -/
theorem Position.other_left {K : A → ℤ} {c' : Option A} (hstays : Stays T s)
    (hpos : Position dir s c behind rest) (hc : ∀ a, c = some a → c' = some a → K a ≠ 1) :
    ∃ behind' rest', Position dir (Tclist.left K c' s) c behind' rest' ∧
      among T rest' = among T rest := by
  refine ⟨Tclist.left K c' behind, Tclist.left K c' rest, ⟨?_, ?_⟩, among_left ?_⟩
  · rw [Tclist.left, Direction.along_filter, hpos.along, List.filter_append]
    rfl
  · have hlast := hpos.at_last
    obtain rfl | ⟨behind, p, rfl⟩ := List.eq_nil_or_concat behind
    · exact hlast
    · rw [List.concat_eq_append, lastOf_concat] at hlast
      have hp : Tclist.left K c' [p] = [p] := by
        rw [Tclist.left, List.filter_eq_self]
        intro q hq
        obtain rfl := List.mem_singleton.mp hq
        exact decide_eq_true fun hgone => hc q.1 hlast hgone.1 hgone.2.2
      have hsplit : Tclist.left K c' (behind ++ [p]) =
          Tclist.left K c' behind ++ Tclist.left K c' [p] :=
        List.filter_append _ _
      rw [List.concat_eq_append, hsplit, hp, lastOf_concat, hlast]
  · intro p hp hT
    apply hstays.live p _ hT
    rw [← dir.mem_along, hpos.along]
    exact List.mem_append_right _ hp

omit [DecidableEq A] in
/-- An item that is added is not in `T`. -/
theorem Position.added {s' : List (A × Cell F α)} {x : A × Cell F α}
    (hpos : Position dir s c behind rest) (hx : T x.1 = false)
    (hs' : dir.along s' = dir.along s ++ [x] ∨ dir.along s' = x :: dir.along s) :
    ∃ behind' rest', Position dir s' c behind' rest' ∧ among T rest' = among T rest := by
  have hlast := hpos.at_last
  obtain rfl | hne := eq_or_ne behind []
  · obtain rfl : c = none := hlast
    have hrest : dir.along s = rest := hpos.along
    refine ⟨[], _, position_start dir s', ?_⟩
    obtain hs' | hs' := hs' <;> simp [hs', hrest, among, hx]
  · obtain hs' | hs' := hs'
    · exact ⟨behind, rest ++ [x], ⟨by simp [hs', hpos.along], hlast⟩,
        by simp [among, hx]⟩
    · refine ⟨x :: behind, rest, ⟨by simp [hs', hpos.along], ?_⟩, rfl⟩
      obtain ⟨behind, p, rfl⟩ : ∃ l p, behind = l ++ [p] := by
        obtain rfl | ⟨l, p, rfl⟩ := List.eq_nil_or_concat behind
        · exact absurd rfl hne
        · exact ⟨l, p, List.concat_eq_append⟩
      rw [hlast, ← List.cons_append, lastOf_concat, lastOf_concat]

/-- A removed item keeps its place. -/
theorem Position.marked {l : A} {fr : Option F} (hpos : Position dir s c behind rest) :
    Position dir (marked l fr s) c (marked l fr behind) (marked l fr rest) := by
  have hfst : ∀ p : A × Cell F α,
      (if p.1 = l then (p.1, (⟨p.2.data, fr, true⟩ : Cell F α)) else p).1 = p.1 := by
    intro p
    split <;> rfl
  refine ⟨?_, ?_⟩
  · have halong := congrArg (Tclist.marked l fr) hpos.along
    cases dir with
    | next => simpa [Direction.along, Tclist.marked] using halong
    | prev => simpa [Direction.along, Tclist.marked] using halong
  · rw [hpos.at_last, Tclist.marked, lastOf_map hfst]

theorem Stays.left {K : A → ℤ} {c' : Option A} (h : Stays T s) :
    Stays T (Tclist.left K c' s) := by
  refine ⟨fun a ha => ?_, fun p hp => h.live p (mem_left.mp hp).1⟩
  obtain ⟨p, hp, rfl⟩ := List.mem_map.mp (h.mem a ha)
  apply List.mem_map_of_mem
  apply mem_left.mpr
  refine ⟨hp, ?_⟩
  rintro ⟨-, hdeleted, -⟩
  rw [h.live p hp ha] at hdeleted
  cases hdeleted

theorem Stays.marked {l : A} {fr : Option F} (h : Stays T s) (hl : T l = false) :
    Stays T (Tclist.marked l fr s) := by
  refine ⟨fun a ha => ?_, fun p hp hT => ?_⟩
  · rw [map_fst_marked]
    exact h.mem a ha
  · obtain ⟨q, hq, rfl⟩ := List.mem_map.mp hp
    rcases eq_or_ne q.1 l with heq | hne
    · rw [if_pos heq, heq, hl] at hT
      cases hT
    · rw [if_neg hne] at hT ⊢
      exact h.live q hq hT

omit [DecidableEq A] in
theorem Stays.added {x : A × Cell F α} {s' : List (A × Cell F α)} (h : Stays T s)
    (hx : x.2.deleted = false) (hperm : s'.Perm (x :: s)) : Stays T s' := by
  refine ⟨fun a ha => ?_, fun p hp hT => ?_⟩
  · rw [(hperm.map Prod.fst).mem_iff]
    exact List.mem_cons_of_mem _ (h.mem a ha)
  · obtain rfl | hp := List.mem_cons.mp (hperm.mem_iff.mp hp)
    · exact hx
    · exact h.live p hp hT

omit [DecidableEq A] in
theorem Stays.eq_false {l : A} (h : Stays T s) (hl : l ∉ s.map Prod.fst) :
    T l = false := by
  rw [Bool.eq_false_iff]
  exact fun hT => hl (h.mem l hT)

theorem among_marked {l : A} {fr : Option F} (s' : List (A × Cell F α)) :
    among T (marked l fr s') = among T s' := by
  rw [among, map_fst_marked, among]

omit [DecidableEq A] in
theorem among_append (s' s'' : List (A × Cell F α)) :
    among T (s' ++ s'') = among T s' ++ among T s'' := by
  simp [among]

omit [DecidableEq A] in
theorem Stays.of_rest (h : Stays T s) (hpos : Position dir s c behind rest) :
    ∀ p ∈ rest, T p.1 = true → p.2.deleted = false := by
  intro p hp hT
  apply h.live p _ hT
  rw [← dir.mem_along, hpos.along]
  exact List.mem_append_right _ hp

omit [DecidableEq A] in
theorem among_of_deleted {s' : List (A × Cell F α)}
    (hdeleted : ∀ p ∈ s', p.2.deleted = true)
    (h : ∀ p ∈ s', T p.1 = true → p.2.deleted = false) : among T s' = [] := by
  rw [among, List.filter_map, List.map_eq_nil_iff, List.filter_eq_nil_iff]
  intro p hp hT
  have hlive := h p hp hT
  rw [hdeleted p hp] at hlive
  cases hlive

omit [DecidableEq A] in
/-- The items before the next one that is not removed are. -/
theorem nextLive_eq_some {item : A × α} (h : nextLive rest = some item) :
    ∃ skipped cell rest', rest = skipped ++ (item.1, cell) :: rest' ∧
      ∀ p ∈ skipped, p.2.deleted = true := by
  obtain ⟨p, hfind, rfl⟩ := Option.map_eq_some_iff.mp h
  obtain ⟨-, skipped, rest', rfl, hskipped⟩ := List.find?_eq_some_iff_append.mp hfind
  refine ⟨skipped, p.2, rest', rfl, fun q hq => ?_⟩
  simpa using hskipped q hq

/-- Two threads at an item are counted twice. -/
theorem countOf_ne_one {cursors : List (Option A)} {j : ℕ} {a : A} (hne : i ≠ j)
    (hi : cursors[i]? = some (some a)) (hj : cursors[j]? = some (some a)) :
    countOf cursors a ≠ 1 := by
  have hset : (cursors.set j none)[i]? = some (some a) := by
    rwa [List.getElem?_set_ne (Ne.symm hne)]
  have hpos := countOf_pos hset
  rw [countOf_set hj] at hpos
  simp only [moved, if_true, reduceCtorEq, if_false] at hpos
  omega

/-- What the others do leaves a thread its cursor, and the items of `T` ahead
of it. -/
theorem Effect.other {w' : Shared A F α} {s' : List (A × Cell F α)}
    {call : Call A F α} {r : Reply A α} (heffect : Effect w s call r w' s')
    (hadvance : ∀ dir', call ≠ .advance i dir') (hunlock : call ≠ .unlock i)
    (hi : w.cursors[i]? = some c) (hpos : Position dir s c behind rest)
    (hstays : Stays T s) (hremoved : ∀ l, r = .removed l → T l = false) :
    w'.cursors[i]? = some c ∧ Stays T s' ∧ ∃ behind' rest',
      Position dir s' c behind' rest' ∧ among T rest' = among T rest := by
  cases heffect with
  | @advance j dir' c' list behind' rest' hj hpos' =>
      have hne : i ≠ j := by
        rintro rfl
        exact hadvance dir' rfl
      refine ⟨?_, hstays.left, hpos.other_left hstays ?_⟩
      · rwa [List.getElem?_set_ne (Ne.symm hne)]
      · rintro a rfl rfl
        exact countOf_ne_one hne hi hj
  | @unlock j l list hj =>
      have hne : i ≠ j := by
        rintro rfl
        exact hunlock rfl
      refine ⟨?_, hstays.left, hpos.other_left hstays ?_⟩
      · rwa [List.getElem?_set_ne (Ne.symm hne)]
      · rintro a rfl ⟨⟩
        exact countOf_ne_one hne hi hj
  | remove hl hcell hlive =>
      exact ⟨hi, hstays.marked (hremoved _ rfl), _, _, hpos.marked, among_marked _⟩
  | @push alloc p l list hl =>
      refine ⟨hi, hstays.added rfl (List.perm_append_singleton _ _),
        hpos.added (x := (l, ⟨p, none, false⟩)) (hstays.eq_false hl) ?_⟩
      cases dir <;> simp [Direction.along]
  | pushFull => exact ⟨hi, hstays, behind, rest, hpos, rfl⟩
  | @unshift alloc p l list hl =>
      refine ⟨hi, hstays.added rfl (List.Perm.refl _),
        hpos.added (x := (l, ⟨p, none, false⟩)) (hstays.eq_false hl) ?_⟩
      cases dir <;> simp [Direction.along]
  | unshiftFull => exact ⟨hi, hstays, behind, rest, hpos, rfl⟩

/-- A thread on its way comes by the items of `T` that are ahead of it. -/
theorem Iterates.visited_eq {events : List (Call A F α × Reply A α)}
    {w' : Shared A F α} (hiter : Iterates i dir events) (h : WellFormed w s)
    (hi : w.cursors[i]? = some c) (hpos : Position dir s c behind rest)
    (hruns : Runs w events w') (hstays : Stays T s)
    (hremoved : ∀ l ∈ removedIn events, T l = false) :
    (visited i events).filter T = among T rest := by
  -- on the calls of the iteration; the position of the cursor says what is ahead
  induction hiter generalizing w s c behind rest with
  | through =>
      cases hruns with
      | cons allowed first hruns =>
          obtain ⟨w₁, hs, -⟩ := step_advance h hi hpos
          rw [hs] at first
          have hnone : nextLive rest = none := by
            simp only [Option.some.injEq, Prod.mk.injEq, Reply.reached.injEq] at first
            exact first.1
          rw [nextLive, Option.map_eq_none_iff, List.find?_eq_none] at hnone
          rw [among_of_deleted fun p hp => by simpa using hnone p hp]
          · simp [visited, visit]
          · exact hstays.of_rest hpos
  | @own item events hrest ih =>
      cases hruns with
      | cons allowed first hruns =>
          obtain ⟨w₁, hs, hcursors, -, hwf⟩ := step_advance h hi hpos
          rw [hs] at first
          simp only [Option.some.injEq, Prod.mk.injEq, Reply.reached.injEq] at first
          obtain ⟨hnext, rfl⟩ := first
          -- what the step skips is deleted, so none of it is in `T`
          obtain ⟨skipped, cell, rest', rfl, hskipped⟩ := nextLive_eq_some hnext
          have halong := hpos.left (K := countOf w.cursors) h.sound.shows.nodup
          have hi' : w₁.cursors[i]? = some (some item.1) := by
            rw [hcursors, hnext]
            obtain ⟨hlt, -⟩ := List.getElem?_eq_some_iff.mp hi
            simp [hlt]
          have hpos' : Position dir (Tclist.left (countOf w.cursors) c s) (some item.1)
              (Tclist.left (countOf w.cursors) c behind ++ skipped ++ [(item.1, cell)])
              rest' := ⟨by simpa using halong, (lastOf_concat _ (item.1, cell)).symm⟩
          have hvisited := ih hwf hi' hpos' hruns hstays.left fun l hl =>
            hremoved l (by simpa [removedIn, removedBy] using hl)
          have hcons : visited i ((.advance i dir, .reached (some item)) :: events) =
              item.1 :: visited i events := by
            simp [visited, visit]
          have hrest := hstays.of_rest hpos
          rw [hcons, among_append, among_of_deleted hskipped fun p hp =>
            hrest p (List.mem_append_left _ hp), List.nil_append, List.filter_cons,
            hvisited]
          simp [among, List.filter_cons]
  | @other call r events hadvance hunlock hrest ih =>
      cases hruns with
      | cons allowed first hruns =>
          -- a call of another thread leaves the items of `T` that are ahead as they are
          obtain ⟨s', heffect, hwf⟩ := effect_of_step h allowed first
          obtain ⟨hi', hstays', behind', rest', hpos', hamong⟩ :=
            heffect.other hadvance hunlock hi hpos hstays (by
              rintro l rfl
              exact hremoved l (by simp [removedIn, removedBy]))
          have hnot : visit i (call, r) = none := by
            unfold visit
            split
            · next j dir' item heq =>
              cases heq
              rw [if_neg]
              rintro rfl
              exact hadvance dir' rfl
            · rfl
          have hsame : visited i ((call, r) :: events) = visited i events := by
            simp [visited, hnot]
          rw [hsame, ← hamong]
          apply ih hwf hi' hpos' hruns hstays'
          intro l hl
          apply hremoved l
          simp only [removedIn, List.filterMap_cons] at hl ⊢
          split
          · exact hl
          · exact List.mem_cons_of_mem _ hl

/-- The items that are there from the beginning of a run to its end. -/
def stay (s : List (A × Cell F α)) (events : List (Call A F α × Reply A α)) :
    List (A × Cell F α) :=
  s.filter fun p => !p.2.deleted && decide (p.1 ∉ removedIn events)

theorem mem_stay {events : List (Call A F α × Reply A α)} {p : A × Cell F α} :
    p ∈ stay s events ↔ p ∈ s ∧ p.2.deleted = false ∧ p.1 ∉ removedIn events := by
  simp [stay]

/-- Whatever the other threads do: one that goes through the whole list comes
by each item that stays once, in the order of its direction. -/
theorem iteration_complete (n : ℕ) {events : List (Call A F α × Reply A α)}
    (hruns : Runs (start n) events w) :
    ∃ s, WellFormed w s ∧
      ∀ (i : ℕ) (dir : Direction) (events' : List (Call A F α × Reply A α))
        (w' : Shared A F α), w.cursors[i]? = some none → Runs w events' w' →
        Iterates i dir events' →
          (visited i events').filter (fun a => a ∈ (stay s events').map Prod.fst) =
            (dir.along (stay s events')).map Prod.fst := by
  obtain ⟨s, h, -⟩ := hruns.wellFormed (wellFormed_start n)
  refine ⟨s, h, fun i dir events' w' hi hruns' hiter => ?_⟩
  have hstays : Stays (fun a => decide (a ∈ (stay s events').map Prod.fst)) s := by
    refine ⟨fun a ha => ?_, fun p hp ha => ?_⟩
    · obtain ⟨q, hq, rfl⟩ := List.mem_map.mp (of_decide_eq_true ha)
      exact List.mem_map_of_mem (mem_stay.mp hq).1
    · obtain ⟨q, hq, heq⟩ := List.mem_map.mp (of_decide_eq_true ha)
      obtain ⟨hqs, hlive, -⟩ := mem_stay.mp hq
      rwa [← List.inj_on_of_nodup_map h.sound.shows.nodup hqs hp heq]
  have hremoved : ∀ l ∈ removedIn events',
      decide (l ∈ (stay s events').map Prod.fst) = false := by
    intro l hl
    rw [decide_eq_false_iff_not]
    intro hmem
    obtain ⟨q, hq, rfl⟩ := List.mem_map.mp hmem
    exact (mem_stay.mp hq).2.2 hl
  rw [hiter.visited_eq h hi (position_start dir s) hruns' hstays hremoved, among,
    List.filter_map]
  congr 1
  conv_rhs => rw [stay, Direction.along_filter]
  apply List.filter_congr
  intro p hp
  rw [dir.mem_along] at hp
  rw [Function.comp_apply, Bool.eq_iff_iff, Bool.and_eq_true, decide_eq_true_eq,
    decide_eq_true_eq]
  constructor
  · intro hmem
    obtain ⟨q, hq, heq⟩ := List.mem_map.mp hmem
    obtain ⟨hqs, hlive, hnot⟩ := mem_stay.mp hq
    obtain rfl := List.inj_on_of_nodup_map h.sound.shows.nodup hqs hp heq
    exact ⟨by simp [hlive], hnot⟩
  · rintro ⟨hlive, hnot⟩
    exact List.mem_map_of_mem (mem_stay.mpr ⟨hp, by simpa using hlive, hnot⟩)

end Iteration

end Step

/-- A thread removes the one item, and the other one is at it when its memory
is still there. -/
def removedEvents : List (Call Unit Unit ℕ × Reply Unit ℕ) :=
  [(.push (oneCell ()) 7, .added true),
    (.advance 0 .next, .reached (some ((), 7))),
    (.advance 1 .prev, .reached (some ((), 7))),
    (.remove 0 (some ()), .removed ()),
    (.unlock 0, .unlocked)]

theorem exists_removedRun : ∃ w, Runs (start 2) removedEvents w := by
  refine ⟨_, .cons trivial rfl (.cons ⟨none, rfl⟩ rfl (.cons ⟨none, rfl⟩ rfl
    (.cons ⟨(), rfl, ?_⟩ rfl (.cons ⟨(), rfl⟩ rfl .nil))))⟩
  intro node hnode
  cases hnode
  rfl

theorem runs_safe_removed :
    ∃ w, Runs (start 2) removedEvents w ∧
      (∀ c, Allowed w c → ∃ r w', step w c = some (r, w')) ∧
        (∀ a, some a ∈ w.cursors → w.list.links.store a ≠ none) ∧
        w.list.count + removedEvents.countP isRemove = removedEvents.countP isAdd ∧
        (∀ a node, w.list.links.store a = some node → node.value.deleted = true →
          some a ∈ w.cursors) ∧
        (∃ gone : List Unit, gone.Nodup ∧
          (∀ a, a ∈ gone ↔
            ∃ node, w.list.links.store a = some node ∧ node.value.deleted = true) ∧
          (w.list.freed ++ gone.flatMap w.list.due).Perm w.asked) ∧
        ((∀ c ∈ w.cursors, c = none) → w.list.freed.Perm w.asked) := by
  obtain ⟨w, hruns⟩ := exists_removedRun
  exact ⟨w, hruns, runs_safe 2 hruns⟩

/-- A list of three items. -/
def pushedEvents : List (Call ℕ Unit ℕ × Reply ℕ ℕ) :=
  [(.push (oneCell 1) 7, .added true), (.push (oneCell 2) 8, .added true),
    (.push (oneCell 3) 9, .added true)]

/-- A thread goes through the three items. Meanwhile another one removes the
second, at which it still is when the first thread goes by, and adds a fourth. -/
def iterationEvents : List (Call ℕ Unit ℕ × Reply ℕ ℕ) :=
  [(.advance 0 .next, .reached (some (1, 7))),
    (.advance 1 .next, .reached (some (1, 7))),
    (.advance 1 .next, .reached (some (2, 8))),
    (.remove 1 (some ()), .removed 2),
    (.advance 0 .next, .reached (some (3, 9))),
    (.push (oneCell 4) 10, .added true),
    (.unlock 1, .unlocked),
    (.advance 0 .next, .reached (some (4, 10))),
    (.advance 0 .next, .reached none)]

theorem exists_iterationRun :
    ∃ w w' : Shared ℕ Unit ℕ, Runs (start 2) pushedEvents w ∧
      w.cursors[0]? = some none ∧ Runs w iterationEvents w' := by
  refine ⟨_, _, .cons trivial rfl (.cons trivial rfl (.cons trivial rfl .nil)), rfl,
    .cons ⟨none, rfl⟩ rfl (.cons ⟨none, rfl⟩ rfl (.cons ⟨some 1, rfl⟩ rfl
      (.cons ⟨2, rfl, ?_⟩ rfl (.cons ⟨some 1, rfl⟩ rfl (.cons trivial rfl
        (.cons ⟨2, rfl⟩ rfl (.cons ⟨some 3, rfl⟩ rfl
          (.cons ⟨some 4, rfl⟩ rfl .nil))))))))⟩
  intro node hnode
  cases hnode
  rfl

theorem iterates_iterationEvents : Iterates 0 .next iterationEvents := by
  apply Iterates.own
  apply Iterates.other (by simp) (by simp)
  apply Iterates.other (by simp) (by simp)
  apply Iterates.other (by simp) (by simp)
  apply Iterates.own
  apply Iterates.other (by simp) (by simp)
  apply Iterates.other (by simp) (by simp)
  apply Iterates.own
  exact Iterates.through

theorem iteration_complete_changing :
    ∃ (w w' : Shared ℕ Unit ℕ) (s : List (ℕ × Cell Unit ℕ)),
      Runs (start 2) pushedEvents w ∧ WellFormed w s ∧ Runs w iterationEvents w' ∧
        visited 0 iterationEvents = [1, 3, 4] ∧
        (visited 0 iterationEvents).filter
            (fun a => a ∈ (stay s iterationEvents).map Prod.fst) =
          (stay s iterationEvents).map Prod.fst := by
  obtain ⟨w, w', hpush, hi, hruns⟩ := exists_iterationRun
  obtain ⟨s, h, hvisited⟩ := iteration_complete 2 hpush
  refine ⟨w, w', s, hpush, h, hruns, rfl, ?_⟩
  exact hvisited 0 .next iterationEvents w' hi hruns iterates_iterationEvents

end Lwfs.Support.Tclist
