import Lwfs.Support.Tclist

/-!
Rules for the operations of the list.

`Shows` says what a list in memory shows, with the counters as functions that
the proofs follow through a call. `Sound` says that the counters are the
numbers of threads at the items, and that removed items are there for the
threads alone. Each call keeps it, and moves one thread at most
(`Sound.advance`, `Sound.unlock`, `Sound.remove`, `Sound.push`,
`Sound.unshift`).
-/

namespace Lwfs.Support

open SysLib DoublyLinked

namespace Tclist

variable {A F α : Type}

/-! ### What a list shows -/

/-- What an item is to its users. -/
structure Cell (F α : Type) where
  data : α
  free : Option F
  deleted : Bool

/-- The item with its counters: `rc` and `ic` count the threads at it, and `rc`
counts the list. -/
def item (R I : A → ℤ) (p : A × Cell F α) : A × Item F α :=
  (p.1, ⟨p.2.data, (if p.2.deleted then 0 else 1) + R p.1, I p.1, p.2.free,
    p.2.deleted⟩)

/-- The list in memory has these items, and no other memory is allocated for
it. -/
structure Shows (lst : Tclist A F α) (s : List (A × Cell F α)) (R I : A → ℤ) :
    Prop where
  linked : Linked lst.links (s.map (item R I))
  items : lst.items = s.length
  deleted : lst.deleted = s.countP fun p => p.2.deleted
  owned : ∀ c, lst.links.store c ≠ none → c ∈ s.map Prod.fst

@[simp] theorem map_fst_item (R I : A → ℤ) (s : List (A × Cell F α)) :
    (s.map (item R I)).map Prod.fst = s.map Prod.fst := by
  simp [Function.comp_def, item]

theorem shows_new (R I : A → ℤ) : Shows (new : Tclist A F α) [] R I :=
  ⟨linked_empty, rfl, rfl, fun _ hc => absurd rfl hc⟩

section Rules

variable {lst : Tclist A F α} {s : List (A × Cell F α)} {R I R' I' : A → ℤ}
  {l : A} {cell : Cell F α}

theorem Shows.nodup (h : Shows lst s R I) : (s.map Prod.fst).Nodup := by
  rw [← map_fst_item R I]
  exact h.linked.nodup

/-- The counters matter at the items only. -/
theorem Shows.congr (h : Shows lst s R I) (hR : ∀ p ∈ s, R' p.1 = R p.1)
    (hI : ∀ p ∈ s, I' p.1 = I p.1) : Shows lst s R' I' := by
  refine ⟨?_, h.items, h.deleted, h.owned⟩
  have hitem : s.map (item R' I') = s.map (item R I) := by
    apply List.map_congr_left
    intro p hp
    simp [item, hR p hp, hI p hp]
  rw [hitem]
  exact h.linked

/-- An item of the list, with the pointers to its neighbours. -/
theorem Shows.read_of_split {pre post : List (A × Cell F α)}
    (h : Shows lst (pre ++ (l, cell) :: post) R I) :
    lst.links.store l =
      some ⟨(item R I (l, cell)).2, firstOf post, lastOf pre⟩ := by
  have hlinked := h.linked
  rw [List.map_append, List.map_cons] at hlinked
  have hread := hlinked.read
  have hfst : ∀ p : A × Cell F α, (item R I p).1 = p.1 := fun _ => rfl
  rwa [firstOf_map hfst, lastOf_map hfst] at hread

theorem Shows.read (h : Shows lst s R I) (hl : (l, cell) ∈ s) :
    ∃ next prev, lst.links.store l = some ⟨(item R I (l, cell)).2, next, prev⟩ := by
  obtain ⟨pre, post, rfl⟩ := List.append_of_mem hl
  exact ⟨_, _, h.read_of_split⟩

variable [DecidableEq A]

/-- The counter of one item changes, if there is an item. -/
def bump (K : A → ℤ) (c : Option A) (x : ℤ) : A → ℤ := fun a =>
  if c = some a then K a + x else K a

@[simp] theorem bump_none (K : A → ℤ) (x : ℤ) : bump K none x = K := by
  ext1 a
  simp [bump]

@[simp] theorem bump_self (K : A → ℤ) (l : A) (x : ℤ) : bump K (some l) x l = K l + x :=
  if_pos rfl

@[simp] theorem bump_zero (K : A → ℤ) (c : Option A) : bump K c 0 = K := by
  ext1 a
  simp [bump]

theorem bump_of_ne {K : A → ℤ} {c : Option A} {a : A} (x : ℤ) (h : c ≠ some a) :
    bump K c x a = K a := if_neg h

/-- An item gets other counters. -/
theorem Shows.setItem (h : Shows lst s R I) (hl : l ∈ s.map Prod.fst)
    {f : Item F α → Item F α} {x y : ℤ}
    (hf : ∀ i, f i = ⟨i.data, i.rc + x, i.ic + y, i.free, i.deleted⟩) :
    ∃ lst', lst.setItem l f = some lst' ∧ Shows lst' s (bump R (some l) x) (bump I (some l) y) ∧
      lst'.freed = lst.freed := by
  rw [← map_fst_item R I] at hl
  obtain ⟨links', hset, hlinked, hdomain⟩ := h.linked.setValue hl f
  refine ⟨{ lst with links := links' }, by simp [Tclist.setItem, hset],
    ⟨?_, h.items, h.deleted, fun c hc => h.owned c fun hnone => hc ?_⟩, rfl⟩
  · rw [List.map_map] at hlinked
    have hitem : s.map (item (bump R (some l) x) (bump I (some l) y)) =
        s.map ((fun p => if p.1 = l then (p.1, f p.2) else p) ∘ item R I) := by
      apply List.map_congr_left
      intro p _
      rcases eq_or_ne p.1 l with heq | hne
      · simp [item, heq, hf, add_assoc]
      · simp [item, hne, bump_of_ne, Ne.symm hne]
    rw [hitem]
    exact hlinked
  · exact (hdomain c).mpr hnone

/-- An item is taken out of the list and freed, and so is its data. -/
theorem Shows.listUnlink (h : Shows lst s R I) (hl : (l, cell) ∈ s) :
    ∃ lst', lst.listUnlink l = some lst' ∧
      Shows lst' (s.filter fun p => p.1 ≠ l) R I ∧
      lst'.freed = lst.freed ++ callFree cell.free cell.data := by
  obtain ⟨pre, post, rfl⟩ := List.append_of_mem hl
  have hread := h.read_of_split
  have hmem : l ∈ ((pre ++ (l, cell) :: post).map (item R I)).map Prod.fst := by
    rw [map_fst_item]
    exact List.mem_map_of_mem hl
  obtain ⟨links', hunlink, hlinked, hdomain⟩ := h.linked.unlink hmem
  refine ⟨⟨links', lst.items - 1,
      if cell.deleted then lst.deleted - 1 else lst.deleted,
      lst.freed ++ callFree cell.free cell.data⟩, ?_, ⟨?_, ?_, ?_, ?_⟩, rfl⟩
  · simp [Tclist.listUnlink, hread, hunlink, item]
  · rw [List.filter_map] at hlinked
    exact hlinked
  · rw [filter_ne_of_split h.nodup, h.items]
    simp
  · rw [filter_ne_of_split h.nodup, h.deleted]
    cases hdel : cell.deleted <;> simp [hdel]
  · intro c hc
    rw [ne_eq, hdomain, not_or] at hc
    have hc' := h.owned c hc.2
    obtain ⟨p, hp, rfl⟩ := List.mem_map.mp hc'
    exact List.mem_map_of_mem (List.mem_filter.mpr ⟨hp, by simpa using hc.1⟩)

/-- What is left of the list when a thread leaves the item it is at: a removed
item goes with the last thread. -/
def left (K : A → ℤ) (c : Option A) (s : List (A × Cell F α)) : List (A × Cell F α) :=
  s.filter fun p => ¬ (c = some p.1 ∧ p.2.deleted = true ∧ K p.1 = 1)

/-- The data that is freed then. -/
def freedBy (K : A → ℤ) (c : Option A) (s : List (A × Cell F α)) : List (F × α) :=
  (s.filter fun p => c = some p.1 ∧ p.2.deleted = true ∧ K p.1 = 1).flatMap fun p =>
    callFree p.2.free p.2.data

/-- A thread that is not the only one at its item leaves it in the list. -/
theorem left_eq_self {K : A → ℤ} {c : Option A}
    (h : ∀ a, c = some a → K a ≠ 1) : left K c s = s := by
  rw [left, List.filter_eq_self]
  intro p _
  rw [decide_eq_true_eq]
  exact fun hgone => h p.1 hgone.1 hgone.2.2

theorem freedBy_eq_nil {K : A → ℤ} {c : Option A}
    (h : ∀ a, c = some a → K a ≠ 1) : freedBy K c s = [] := by
  rw [freedBy, List.flatMap_eq_nil_iff]
  intro p hp
  rw [List.mem_filter, decide_eq_true_eq] at hp
  exact absurd hp.2.2.2 (h p.1 hp.2.1)

theorem left_of_split {K : A → ℤ} {pre post : List (A × Cell F α)}
    (h : ((pre ++ (l, cell) :: post).map Prod.fst).Nodup) :
    left K (some l) (pre ++ (l, cell) :: post) =
      if cell.deleted = true ∧ K l = 1 then pre ++ post
      else pre ++ (l, cell) :: post := by
  obtain ⟨hpre, hpost, -⟩ := notMem_of_split h
  have hkeep : ∀ s : List (A × Cell F α), l ∉ s.map Prod.fst →
      left K (some l) s = s := by
    intro s hs
    rw [left, List.filter_eq_self]
    intro p hp
    rw [decide_eq_true_eq]
    rintro ⟨⟨⟩, -⟩
    exact hs (List.mem_map_of_mem hp)
  have hsplit : left K (some l) (pre ++ (l, cell) :: post) =
      left K (some l) pre ++ left K (some l) [(l, cell)] ++
        left K (some l) post := by
    rw [List.append_cons]
    simp only [left, List.filter_append]
  rw [hsplit, hkeep pre hpre, hkeep post hpost]
  split
  · next hgone => simp [left, hgone]
  · next hstays =>
    have hone : left K (some l) [(l, cell)] = [(l, cell)] := by
      rw [left, List.filter_eq_self]
      intro p hp
      obtain rfl := List.mem_singleton.mp hp
      exact decide_eq_true fun hgone => hstays hgone.2
    simp [hone]

theorem freedBy_of_split {K : A → ℤ} {pre post : List (A × Cell F α)}
    (h : ((pre ++ (l, cell) :: post).map Prod.fst).Nodup) :
    freedBy K (some l) (pre ++ (l, cell) :: post) =
      if cell.deleted = true ∧ K l = 1 then callFree cell.free cell.data else [] := by
  obtain ⟨hpre, hpost, -⟩ := notMem_of_split h
  have hnone : ∀ s : List (A × Cell F α), l ∉ s.map Prod.fst →
      freedBy K (some l) s = [] := by
    intro s hs
    rw [freedBy, List.flatMap_eq_nil_iff]
    intro p hp
    rw [List.mem_filter, decide_eq_true_eq] at hp
    obtain ⟨hp, ⟨⟩, -⟩ := hp
    exact absurd (List.mem_map_of_mem hp) hs
  have hsplit : freedBy K (some l) (pre ++ (l, cell) :: post) =
      freedBy K (some l) pre ++ freedBy K (some l) [(l, cell)] ++
        freedBy K (some l) post := by
    rw [List.append_cons]
    simp only [freedBy, List.filter_append, List.flatMap_append]
  rw [hsplit, hnone pre hpre, hnone post hpost]
  by_cases hgone : cell.deleted = true ∧ K l = 1
  · simp [freedBy, hgone]
  · simp [freedBy, hgone]

/-- The item that the thread goes to counts it. -/
theorem Shows.refNext (h : Shows lst s R I) {n : Option A}
    (hn : ∀ a, n = some a → a ∈ s.map Prod.fst) :
    ∃ lst', lst.refNext n = some lst' ∧ Shows lst' s (bump R n 1) I ∧
      lst'.freed = lst.freed := by
  cases n with
  | none => exact ⟨lst, rfl, by simpa using h, rfl⟩
  | some a =>
      obtain ⟨lst', hset, hshows, hfreed⟩ := h.setItem (hn a rfl)
        (f := fun item => { item with rc := item.rc + 1 }) (x := 1) (y := 0)
        fun i => by simp
      exact ⟨lst', hset, by simpa using hshows, hfreed⟩

theorem Shows.arrive (h : Shows lst s R I) {n : Option A}
    (hn : ∀ a, n = some a → a ∈ s.map Prod.fst) :
    ∃ lst', lst.arrive n = some lst' ∧ Shows lst' s R (bump I n 1) ∧
      lst'.freed = lst.freed := by
  cases n with
  | none => exact ⟨lst, rfl, by simpa using h, rfl⟩
  | some a =>
      obtain ⟨lst', hset, hshows, hfreed⟩ := h.setItem (hn a rfl)
        (f := fun item => { item with ic := item.ic + 1 }) (x := 0) (y := 1)
        fun i => by simp
      exact ⟨lst', hset, by simpa using hshows, hfreed⟩

/-- The last reference to an item is dropped, or it is not the last. -/
theorem Shows.listDeref (h : Shows lst s R I) (hl : (l, cell) ∈ s) :
    ∃ lst', lst.listDeref l = some lst' ∧
      (((if cell.deleted then 0 else 1) + (R l + -1) ≤ 0 ∧ I l ≤ 0 ∧
          Shows lst' (s.filter fun p => p.1 ≠ l) R I ∧
          lst'.freed = lst.freed ++ callFree cell.free cell.data) ∨
        (¬ ((if cell.deleted then 0 else 1) + (R l + -1) ≤ 0 ∧ I l ≤ 0) ∧
          Shows lst' s (bump R (some l) (-1)) I ∧ lst'.freed = lst.freed)) := by
  obtain ⟨lst₁, hset, hshows, hfreed⟩ := h.setItem (List.mem_map_of_mem hl)
    (f := fun item => { item with rc := item.rc - 1 }) (x := -1) (y := 0)
    fun i => by simp [sub_eq_add_neg]
  have hcount : Shows lst₁ s (bump R (some l) (-1)) I :=
    by simpa using hshows
  obtain ⟨next, prev, hread⟩ := hcount.read hl
  simp only [item, bump_self] at hread
  rw [Tclist.listDeref, hset, Option.bind_some, hread, Option.bind_some]
  by_cases hlast : (if cell.deleted then 0 else 1) + (R l + -1) ≤ 0 ∧ I l ≤ 0
  · obtain ⟨lst', hunlink, hshows', hfreed'⟩ := hcount.listUnlink hl
    refine ⟨lst', (if_pos hlast).trans hunlink, .inl ⟨hlast.1, hlast.2, ?_, ?_⟩⟩
    · refine hshows'.congr (fun p hp => ?_) fun _ _ => rfl
      rw [bump_of_ne]
      rintro ⟨⟩
      have hne := (List.mem_filter.mp hp).2
      simp at hne
    · rw [hfreed', hfreed]
  · exact ⟨lst₁, if_neg hlast, .inr ⟨hlast, hcount, hfreed⟩⟩

/-- A thread leaves an item that counts it. -/
theorem Shows.leave (h : Shows lst s R I) (hl : (l, cell) ∈ s) (hR : R l = I l)
    (hI : 0 < I l) :
    ∃ lst', lst.leave l = some lst' ∧
      Shows lst' (left I (some l) s) (bump R (some l) (-1)) (bump I (some l) (-1)) ∧
      lst'.freed = lst.freed ++ freedBy I (some l) s := by
  obtain ⟨lst₁, hset, hshows, hfreed⟩ := h.setItem (List.mem_map_of_mem hl)
    (f := fun item => { item with ic := item.ic - 1 }) (x := 0) (y := -1)
    fun i => by simp [sub_eq_add_neg]
  have hcount : Shows lst₁ s R (bump I (some l) (-1)) :=
    by simpa using hshows
  obtain ⟨lst', hderef, hcases⟩ := hcount.listDeref hl
  rw [bump_self] at hcases
  refine ⟨lst', by rw [Tclist.leave, hset, Option.bind_some, hderef], ?_⟩
  obtain ⟨pre, post, rfl⟩ := List.append_of_mem hl
  rw [left_of_split h.nodup, freedBy_of_split h.nodup]
  obtain ⟨hrc, hic, hgone, hfreed'⟩ | ⟨hstays, hshows', hfreed'⟩ := hcases
  · have hlast : cell.deleted = true ∧ I l = 1 := by
      refine ⟨?_, by omega⟩
      cases hdel : cell.deleted with
      | true => rfl
      | false =>
          rw [hdel, hR] at hrc
          simp at hrc
          omega
    rw [if_pos hlast, if_pos hlast, hfreed', hfreed]
    rw [filter_ne_of_split h.nodup] at hgone
    refine ⟨hgone.congr (fun p hp => bump_of_ne _ ?_) fun _ _ => rfl, rfl⟩
    rintro ⟨⟩
    obtain ⟨hpre, hpost, -⟩ := notMem_of_split h.nodup
    obtain hmem | hmem := List.mem_append.mp hp
    · exact hpre (List.mem_map_of_mem hmem)
    · exact hpost (List.mem_map_of_mem hmem)
  · have hlast : ¬ (cell.deleted = true ∧ I l = 1) := by
      rintro ⟨hdel, hone⟩
      apply hstays
      rw [hdel, if_pos rfl]
      omega
    rw [if_neg hlast, if_neg hlast, hfreed', hfreed, List.append_nil]
    exact ⟨hshows', rfl⟩

/-- An item is marked as removed. -/
def marked (l : A) (fr : Option F) (s : List (A × Cell F α)) : List (A × Cell F α) :=
  s.map fun p => if p.1 = l then (p.1, ⟨p.2.data, fr, true⟩) else p

omit [DecidableEq A] in
@[simp] theorem map_fst_marked [DecidableEq A] (l : A) (fr : Option F)
    (s : List (A × Cell F α)) : (marked l fr s).map Prod.fst = s.map Prod.fst := by
  rw [marked, List.map_map]
  apply List.map_congr_left
  intro p _
  simp only [Function.comp_apply]
  split <;> rfl

end Rules

/-! ### The threads at the items -/

/-- The list shows the items, and their counters are the numbers of threads at
them. Removed items are there for the threads alone. -/
structure Sound (lst : Tclist A F α) (s : List (A × Cell F α)) (K : A → ℤ) :
    Prop where
  shows : Shows lst s K K
  nonneg : ∀ a, 0 ≤ K a
  held : ∀ a, 0 < K a → a ∈ s.map Prod.fst
  kept : ∀ p ∈ s, p.2.deleted = true → 0 < K p.1

theorem sound_new : Sound (new : Tclist A F α) [] fun _ => 0 where
  shows := shows_new _ _
  nonneg _ := Int.le_refl 0
  held _ h := absurd h (Int.lt_irrefl 0)
  kept _ hp := absurd hp (List.not_mem_nil)

section Threads

variable [DecidableEq A] {lst lst' : Tclist A F α} {s : List (A × Cell F α)}
  {K : A → ℤ} {c n : Option A} {l : A} {cell : Cell F α}

/-- The numbers of threads when one goes from an item to another. -/
def moved (K : A → ℤ) (c n : Option A) : A → ℤ := fun a =>
  K a + (if c = some a then -1 else 0) + if n = some a then 1 else 0

theorem mem_left {p : A × Cell F α} : p ∈ left K c s ↔
    p ∈ s ∧ ¬ (c = some p.1 ∧ p.2.deleted = true ∧ K p.1 = 1) := by
  rw [left, List.mem_filter, decide_eq_true_eq]

theorem mem_left_of_ne {a : A} (ha : a ∈ s.map Prod.fst) (hne : c ≠ some a) :
    a ∈ (left K c s).map Prod.fst := by
  obtain ⟨p, hp, rfl⟩ := List.mem_map.mp ha
  exact List.mem_map_of_mem (mem_left.mpr ⟨hp, fun h => hne h.1⟩)

/-- A thread that goes to another item leaves the list sound. -/
theorem Sound.of_shows (h : Sound lst s K) (hc : ∀ a, c = some a → 0 < K a)
    (hn : ∀ a, n = some a → a ∈ (left K c s).map Prod.fst)
    (hshows : Shows lst' (left K c s) (moved K c n) (moved K c n)) :
    Sound lst' (left K c s) (moved K c n) where
  shows := hshows
  nonneg a := by
    have hle := h.nonneg a
    simp only [moved]
    by_cases hca : c = some a
    · have hlt := hc a hca
      rw [if_pos hca]
      split <;> omega
    · rw [if_neg hca]
      split <;> omega
  held a ha := by
    by_cases hna : n = some a
    · exact hn a hna
    · simp only [moved, hna, if_false] at ha
      by_cases hca : c = some a
      · rw [if_pos hca] at ha
        obtain ⟨p, hp, rfl⟩ := List.mem_map.mp (h.held a (hc a hca))
        refine List.mem_map_of_mem (mem_left.mpr ⟨hp, ?_⟩)
        rintro ⟨-, -, hone⟩
        omega
      · rw [if_neg hca] at ha
        exact mem_left_of_ne (h.held a (by omega)) hca
  kept p hp hdeleted := by
    obtain ⟨hp, hstays⟩ := mem_left.mp hp
    have hkept := h.kept p hp hdeleted
    simp only [moved]
    by_cases hca : c = some p.1
    · have hne : K p.1 ≠ 1 := fun hone => hstays ⟨hca, hdeleted, hone⟩
      rw [if_pos hca]
      split <;> omega
    · rw [if_neg hca]
      split <;> omega

/-- `tclist_unlock` lets the thread leave the item. -/
theorem Sound.unlock (h : Sound lst s K) (hl : 0 < K l) :
    ∃ lst', lst.unlock l = some lst' ∧
      Sound lst' (left K (some l) s) (moved K (some l) none) ∧
      lst'.freed = lst.freed ++ freedBy K (some l) s := by
  obtain ⟨p, hp, rfl⟩ := List.mem_map.mp (h.held l hl)
  obtain ⟨lst', hleave, hshows, hfreed⟩ := h.shows.leave hp rfl hl
  refine ⟨lst', hleave, h.of_shows ?_ (fun _ hn => by cases hn) ?_, hfreed⟩
  · rintro a ⟨⟩
    exact hl
  · have hmoved : bump K (some p.1) (-1) = moved K (some p.1) none := by
      ext1 a
      rcases eq_or_ne a p.1 with rfl | hne
      · simp [moved]
      · simp [moved, bump, Ne.symm hne]
    rwa [hmoved] at hshows

end Threads

/-! ### Going through the list -/

section Advance

variable [DecidableEq A] {lst : Tclist A F α} {s behind rest : List (A × Cell F α)}
  {K : A → ℤ} {c : Option A} {dir : Direction}

/-- The thread has come by the items `behind`, is at the last of them, and has
the others before it. -/
structure Position (dir : Direction) (s : List (A × Cell F α)) (c : Option A)
    (behind rest : List (A × Cell F α)) : Prop where
  along : dir.along s = behind ++ rest
  at_last : c = lastOf behind

omit [DecidableEq A] in
theorem position_start (dir : Direction) (s : List (A × Cell F α)) :
    Position dir s none [] (dir.along s) := ⟨rfl, rfl⟩

omit [DecidableEq A] in
theorem Sound.exists_position (h : Sound lst s K) (dir : Direction)
    (hc : ∀ a, c = some a → 0 < K a) : ∃ behind rest, Position dir s c behind rest := by
  cases c with
  | none => exact ⟨[], _, position_start dir s⟩
  | some l =>
      obtain ⟨p, hp, rfl⟩ := List.mem_map.mp (h.held l (hc l rfl))
      obtain ⟨behind, rest, hsplit⟩ := List.append_of_mem (dir.mem_along.mpr hp)
      refine ⟨behind ++ [p], rest, ?_, by simp⟩
      rw [hsplit, List.append_assoc]
      rfl

omit [DecidableEq A] in
/-- The pointer in the direction of the item that the thread is at. -/
theorem Shows.read_of_position {R I : A → ℤ} {l : A} {cell : Cell F α}
    (h : Shows lst s R I) (hpos : Position dir s (some l) (behind ++ [(l, cell)]) rest) :
    ∃ node, lst.links.store l = some node ∧ node.value = (item R I (l, cell)).2 ∧
      Direction.of node dir = firstOf rest := by
  have halong := hpos.along
  rw [List.append_assoc] at halong
  cases dir with
  | next =>
      obtain rfl : s = behind ++ (l, cell) :: rest := halong
      exact ⟨_, h.read_of_split, rfl, rfl⟩
  | prev =>
      have hs : s = rest.reverse ++ (l, cell) :: behind.reverse := by
        rw [← List.reverse_reverse s]
        change (Direction.along .prev s).reverse = _
        rw [halong]
        simp
      subst hs
      exact ⟨_, h.read_of_split, rfl, lastOf_reverse rest⟩

omit [DecidableEq A] in
theorem Shows.endOf {R I : A → ℤ} (h : Shows lst s R I) (dir : Direction) :
    lst.endOf dir = firstOf (dir.along s) := by
  have hfst : ∀ p : A × Cell F α, (item R I p).1 = p.1 := fun _ => rfl
  cases dir with
  | next => exact h.linked.start.trans (firstOf_map hfst s)
  | prev =>
      have hlast := h.linked.last.trans (lastOf_map hfst s)
      rw [← List.reverse_reverse s, lastOf_reverse] at hlast
      exact hlast

omit [DecidableEq A] in
/-- The item that the thread is at is not ahead of it. -/
theorem Position.notMem (hpos : Position dir s c behind rest)
    (hnodup : (s.map Prod.fst).Nodup) {p : A × Cell F α} (hp : p ∈ rest) :
    c ≠ some p.1 := by
  intro hc
  have hlast := hpos.at_last
  obtain rfl | ⟨behind, q, rfl⟩ := List.eq_nil_or_concat behind
  · rw [hc] at hlast
    cases hlast
  · rw [List.concat_eq_append, lastOf_concat, hc] at hlast
    have hnodup' : ((dir.along s).map Prod.fst).Nodup := by
      cases dir with
      | next => exact hnodup
      | prev => simpa [Direction.along] using hnodup
    rw [hpos.along, List.concat_eq_append, List.append_assoc] at hnodup'
    obtain ⟨-, hrest, -⟩ := notMem_of_split hnodup'
    rw [← Option.some.inj hlast] at hrest
    exact hrest (List.mem_map_of_mem hp)

omit [DecidableEq A] in
theorem Position.firstOf_ne {l : A} (hpos : Position dir s (some l) behind rest)
    (hnodup : (s.map Prod.fst).Nodup) : firstOf rest ≠ some l := by
  cases rest with
  | nil => exact (Option.some_ne_none l).symm
  | cons p rest => exact (hpos.notMem hnodup List.mem_cons_self).symm

/-- The items ahead stay when the thread leaves the one it is at. -/
theorem Position.left (hpos : Position dir s c behind rest)
    (hnodup : (s.map Prod.fst).Nodup) :
    dir.along (left K c s) = left K c behind ++ rest := by
  rw [Tclist.left, Direction.along_filter, hpos.along, List.filter_append]
  congr 1
  rw [List.filter_eq_self]
  intro p hp
  rw [decide_eq_true_eq]
  exact fun hgone => hpos.notMem hnodup hp hgone.1

/-- The thread is counted at the item it goes to, and then it leaves the one it
was at. -/
theorem Sound.hop (h : Sound lst s K) (hc : ∀ a, c = some a → 0 < K a)
    (hpos : Position dir s c behind rest) :
    ∃ lst', lst.hop dir c = some (firstOf rest, lst') ∧
      Sound lst' (Tclist.left K c s) (moved K c (firstOf rest)) ∧
      lst'.freed = lst.freed ++ freedBy K c s := by
  have hmem : ∀ a, firstOf rest = some a → a ∈ s.map Prod.fst := by
    intro a ha
    cases rest with
    | nil => cases ha
    | cons p rest =>
        cases ha
        apply List.mem_map_of_mem
        rw [← dir.mem_along, hpos.along]
        simp
  obtain ⟨lst₁, href, hshows₁, hfreed₁⟩ := h.shows.refNext hmem
  cases c with
  | none =>
      have hbehind : behind = [] := lastOf_eq_none.mp hpos.at_last.symm
      have hend : lst.endOf dir = firstOf rest := by
        rw [h.shows.endOf, hpos.along, hbehind, List.nil_append]
      have hleft : Tclist.left K none s = s := by simp [Tclist.left]
      obtain ⟨lst₂, harrive, hshows₂, hfreed₂⟩ := hshows₁.arrive hmem
      have hmoved : bump K (firstOf rest) 1 = moved K none (firstOf rest) := by
        ext1 a
        simp [moved, bump]
        split <;> simp
      rw [hmoved] at hshows₂
      refine ⟨lst₂, ?_, h.of_shows hc ?_ ?_, ?_⟩
      · simp only [Tclist.hop, hend, href, harrive, Option.bind_eq_bind, Option.bind_some]
      · rwa [hleft]
      · rwa [hleft]
      · simp [hfreed₂, hfreed₁, freedBy]
  | some l =>
      have hlast := hpos.at_last
      obtain rfl | ⟨behind, ⟨l', cell⟩, rfl⟩ := List.eq_nil_or_concat behind
      · cases hlast
      rw [List.concat_eq_append] at hpos hlast
      rw [lastOf_concat] at hlast
      obtain rfl : l = l' := Option.some.inj hlast
      have hl : (l, cell) ∈ s := by
        rw [← dir.mem_along, hpos.along]
        simp
      -- the item it goes to is another one, so leaving cannot free it
      have hne : firstOf rest ≠ some l := hpos.firstOf_ne h.shows.nodup
      obtain ⟨node, hread, -, hof⟩ := h.shows.read_of_position hpos
      obtain ⟨lst₂, hleave, hshows₂, hfreed₂⟩ :=
        hshows₁.leave hl (bump_of_ne 1 hne) (hc l rfl)
      have hmem' : ∀ a, firstOf rest = some a →
          a ∈ (Tclist.left K (some l) s).map Prod.fst := by
        intro a ha
        apply mem_left_of_ne (hmem a ha)
        rintro ⟨⟩
        exact hne ha
      obtain ⟨lst₃, harrive, hshows₃, hfreed₃⟩ := hshows₂.arrive hmem'
      refine ⟨lst₃, ?_, h.of_shows hc hmem' (hshows₃.congr ?_ ?_), ?_⟩
      · simp only [Tclist.hop, hread, hof, href, hleave, harrive, Option.bind_eq_bind,
          Option.bind_some]
      · intro p _
        simp only [moved, bump]
        split <;> split <;> omega
      · intro p _
        simp only [moved, bump]
        split <;> split <;> omega
      · rw [hfreed₃, hfreed₂, hfreed₁]

/-- The next item that is not removed, with its data. -/
def nextLive (rest : List (A × Cell F α)) : Option (A × α) :=
  (rest.find? fun p => !p.2.deleted).map fun p => (p.1, p.2.data)

/-- The loop passes the removed items, each of which another thread is at. -/
theorem Sound.advanceFrom {m : ℕ} (h : Sound lst s K)
    (hc : ∀ a, c = some a → 0 < K a) (hpos : Position dir s c behind rest)
    (hm : rest.length < m) :
    ∃ lst', lst.advanceFrom dir m c = some (nextLive rest, lst') ∧
      Sound lst' (Tclist.left K c s) (moved K c ((nextLive rest).map Prod.fst)) ∧
      lst'.freed = lst.freed ++ freedBy K c s := by
  induction m generalizing lst s K c behind rest with
  | zero => cases hm
  | succ m ih =>
      obtain ⟨lst₁, hhop, hsound, hfreed⟩ := h.hop hc hpos
      have halong := hpos.left (K := K) h.shows.nodup
      cases rest with
      | nil => exact ⟨lst₁, by simp [Tclist.advanceFrom, hhop, nextLive], hsound, hfreed⟩
      | cons p rest =>
          obtain ⟨b, cell⟩ := p
          have hb : (b, cell) ∈ s := by
            rw [← dir.mem_along, hpos.along]
            simp
          have hb' : (b, cell) ∈ Tclist.left K c s := by
            rw [← dir.mem_along, halong]
            simp
          obtain ⟨next, prev, hread⟩ := hsound.shows.read hb'
          cases hdeleted : cell.deleted with
          | false =>
              refine ⟨lst₁, ?_, ?_, hfreed⟩
              · simp [Tclist.advanceFrom, hhop, hread, item, nextLive, hdeleted]
              · simpa [nextLive, hdeleted] using hsound
          | true =>
              have hne : c ≠ some b := hpos.notMem h.shows.nodup List.mem_cons_self
              have hcount : moved K c (some b) b = K b + 1 := by
                simp [moved, hne]
              have hkept : 0 < K b := h.kept _ hb hdeleted
              have hpos' : Position dir (Tclist.left K c s) (some b)
                  (Tclist.left K c behind ++ [(b, cell)]) rest :=
                ⟨by simpa using halong, by simp⟩
              obtain ⟨lst', hrest, hsound', hfreed'⟩ := ih hsound
                (by rintro a ⟨⟩; rw [firstOf_cons, hcount]; omega) hpos'
                (Nat.lt_of_succ_lt_succ hm)
              -- another thread is at the item, so it stays when this one leaves
              have hstays : Tclist.left (moved K c (some b)) (some b)
                  (Tclist.left K c s) = Tclist.left K c s := by
                apply left_eq_self
                rintro a ⟨⟩
                omega
              have hnone : freedBy (moved K c (some b)) (some b)
                  (Tclist.left K c s) = [] := by
                apply freedBy_eq_nil
                rintro a ⟨⟩
                omega
              have hmoved : ∀ n, moved (moved K c (some b)) (some b) n = moved K c n := by
                intro n
                ext1 a
                simp only [moved]
                split <;> split <;> split <;> omega
              rw [firstOf_cons, hstays, hmoved] at hsound'
              rw [firstOf_cons, hnone, List.append_nil] at hfreed'
              refine ⟨lst', ?_, ?_, hfreed'.trans hfreed⟩
              · simp [Tclist.advanceFrom, hhop, hread, item, hdeleted, hrest, nextLive]
              · simpa [nextLive, hdeleted] using hsound'

/-- `tclist_next` and `tclist_prev` go to the next item that is not removed. -/
theorem Sound.advance (h : Sound lst s K) (hc : ∀ a, c = some a → 0 < K a)
    (hpos : Position dir s c behind rest) :
    ∃ lst', lst.advance dir c = some (nextLive rest, lst') ∧
      Sound lst' (Tclist.left K c s) (moved K c ((nextLive rest).map Prod.fst)) ∧
      lst'.freed = lst.freed ++ freedBy K c s := by
  apply h.advanceFrom hc hpos
  have hlength := congrArg List.length hpos.along
  rw [Direction.length_along, List.length_append, ← h.shows.items] at hlength
  omega

end Advance

/-! ### Adding and removing -/

section Change

variable [DecidableEq A] {lst : Tclist A F α} {s : List (A × Cell F α)}
  {K : A → ℤ} {l : A} {cell : Cell F α}

omit [DecidableEq A] in
theorem Sound.eq_zero (h : Sound lst s K) (hl : l ∉ s.map Prod.fst) : K l = 0 := by
  have hle := h.nonneg l
  by_contra hne
  exact hl (h.held l (by omega))

omit [DecidableEq A] in
/-- Memory that is not in use is not an item. -/
theorem Sound.notMem (h : Sound lst s K) {alloc : Allocator A (Node A (Item F α))}
    (halloc : alloc.malloc lst.links.store = some l) : l ∉ s.map Prod.fst := by
  intro hmem
  obtain ⟨p, hp, rfl⟩ := List.mem_map.mp hmem
  obtain ⟨next, prev, hread⟩ := h.shows.read hp
  rw [alloc.unused _ _ halloc] at hread
  cases hread

/-- A new item is added to the list. -/
theorem Sound.add (h : Sound lst s K) {s' : List (A × Cell F α)} {p : α}
    {links' : Links A (Item F α)} (hperm : s'.Perm ((l, ⟨p, none, false⟩) :: s))
    (hlinked : Linked links' (s'.map (item K K)))
    (hdomain : ∀ c, links'.store c = none ↔ c ≠ l ∧ lst.links.store c = none) :
    Sound { lst with links := links', items := lst.items + 1 } s' K where
  shows := by
    refine ⟨hlinked, ?_, ?_, fun c hc => ?_⟩
    · simp [hperm.length_eq, h.shows.items]
    · simp [hperm.countP_eq, h.shows.deleted]
    · rw [(hperm.map Prod.fst).mem_iff, List.map_cons, List.mem_cons]
      by_contra hnot
      rw [not_or] at hnot
      apply hc
      apply (hdomain c).mpr
      refine ⟨hnot.1, ?_⟩
      by_contra hne
      exact hnot.2 (h.shows.owned c hne)
  nonneg := h.nonneg
  held a ha := by
    rw [(hperm.map Prod.fst).mem_iff]
    exact List.mem_cons_of_mem _ (h.held a ha)
  kept q hq hdeleted := by
    obtain rfl | hq := List.mem_cons.mp (hperm.mem_iff.mp hq)
    · cases hdeleted
    · exact h.kept q hq hdeleted

/-- `tclist_push` adds an item at the end, if there is memory for it. -/
theorem Sound.push (h : Sound lst s K) (alloc : Allocator A (Node A (Item F α)))
    (p : α) :
    (alloc.malloc lst.links.store = none ∧ lst.push alloc p = some (false, lst)) ∨
      ∃ l lst', l ∉ s.map Prod.fst ∧ lst.push alloc p = some (true, lst') ∧
        Sound lst' (s ++ [(l, ⟨p, none, false⟩)]) K ∧ lst'.freed = lst.freed := by
  cases halloc : alloc.malloc lst.links.store with
  | none => exact .inl ⟨rfl, by rw [Tclist.push, halloc]⟩
  | some l =>
      have hl := h.notMem halloc
      have hmem : l ∉ (s.map (item K K)).map Prod.fst := by
        rwa [map_fst_item]
      obtain ⟨links', happend, hlinked, hdomain⟩ :=
        h.shows.linked.append hmem (newItem p)
      refine .inr ⟨l, _, hl, ?_, h.add (List.perm_append_singleton _ _) ?_ hdomain,
        rfl⟩
      · simp [Tclist.push, halloc, happend]
      · simpa [item, newItem, h.eq_zero hl] using hlinked

/-- `tclist_unshift` adds an item in front, if there is memory for it. -/
theorem Sound.unshift (h : Sound lst s K)
    (alloc : Allocator A (Node A (Item F α))) (p : α) :
    (alloc.malloc lst.links.store = none ∧ lst.unshift alloc p = some (false, lst)) ∨
      ∃ l lst', l ∉ s.map Prod.fst ∧ lst.unshift alloc p = some (true, lst') ∧
        Sound lst' ((l, ⟨p, none, false⟩) :: s) K ∧ lst'.freed = lst.freed := by
  cases halloc : alloc.malloc lst.links.store with
  | none => exact .inl ⟨rfl, by rw [Tclist.unshift, halloc]⟩
  | some l =>
      have hl := h.notMem halloc
      have hmem : l ∉ (s.map (item K K)).map Prod.fst := by
        rwa [map_fst_item]
      obtain ⟨links', hprepend, hlinked, hdomain⟩ :=
        h.shows.linked.prepend hmem (newItem p)
      refine .inr ⟨l, _, hl, ?_, h.add (List.Perm.refl _) ?_ hdomain, rfl⟩
      · simp [Tclist.unshift, halloc, hprepend]
      · simpa [item, newItem, h.eq_zero hl] using hlinked

theorem marked_of_split {pre post : List (A × Cell F α)} {fr : Option F}
    (h : ((pre ++ (l, cell) :: post).map Prod.fst).Nodup) :
    marked l fr (pre ++ (l, cell) :: post) =
      pre ++ (l, ⟨cell.data, fr, true⟩) :: post := by
  obtain ⟨hpre, hpost, -⟩ := notMem_of_split h
  have hkeep : ∀ s : List (A × Cell F α), l ∉ s.map Prod.fst → marked l fr s = s := by
    intro s hs
    conv_rhs => rw [← List.map_id s]
    apply List.map_congr_left
    intro p hp
    rw [if_neg]
    · rfl
    · rintro rfl
      exact hs (List.mem_map_of_mem hp)
  have hsplit : marked l fr (pre ++ (l, cell) :: post) =
      marked l fr pre ++ (l, ⟨cell.data, fr, true⟩) :: marked l fr post := by
    simp [marked]
  rw [hsplit, hkeep pre hpre, hkeep post hpost]

/-- `tclist_remove`, from a thread that is at the item. The item stays. -/
theorem Sound.remove (h : Sound lst s K) (hl : (l, cell) ∈ s)
    (hlive : cell.deleted = false) (hK : 0 < K l) (fr : Option F) :
    ∃ lst', lst.remove l fr = some lst' ∧ Sound lst' (marked l fr s) K ∧
      lst'.freed = lst.freed := by
  have hmem : l ∈ (s.map (item K K)).map Prod.fst := by
    rw [map_fst_item]
    exact List.mem_map_of_mem hl
  obtain ⟨links', hset, hlinked, hdomain⟩ := h.shows.linked.setValue hmem
    fun item => { item with deleted := true, free := fr }
  -- the reference of the list is still counted, though the list gives it up
  have hitem : (marked l fr s).map (item (bump K (some l) 1) K) =
      (s.map (item K K)).map fun p =>
        if p.1 = l then (p.1, { p.2 with deleted := true, free := fr }) else p := by
    rw [marked, List.map_map, List.map_map]
    apply List.map_congr_left
    intro p hp
    rcases eq_or_ne p.1 l with heq | hne
    · obtain rfl : p = (l, cell) := List.inj_on_of_nodup_map h.shows.nodup hp hl heq
      simp [item, hlive, add_comm]
    · simp [item, hne, bump_of_ne, Ne.symm hne]
  have hcount : (marked l fr s).countP (fun p => p.2.deleted) =
      s.countP (fun p => p.2.deleted) + 1 := by
    have hnodup := h.shows.nodup
    obtain ⟨pre, post, rfl⟩ := List.append_of_mem hl
    rw [marked_of_split hnodup]
    simp [hlive]
    omega
  have hshows : Shows { lst with links := links', deleted := lst.deleted + 1 }
      (marked l fr s) (bump K (some l) 1) K := by
    refine ⟨hitem ▸ hlinked, ?_, ?_, fun c hc => ?_⟩
    · simp [marked, h.shows.items]
    · rw [hcount, h.shows.deleted]
    · rw [map_fst_marked]
      exact h.shows.owned c fun hnone => hc ((hdomain c).mpr hnone)
  have hl' : (l, (⟨cell.data, fr, true⟩ : Cell F α)) ∈ marked l fr s :=
    List.mem_map.mpr ⟨(l, cell), hl, by simp⟩
  obtain ⟨lst', hderef, ⟨hlast, -⟩ | ⟨-, hshows', hfreed⟩⟩ := hshows.listDeref hl'
  · rw [bump_self, if_pos rfl] at hlast
    omega
  · refine ⟨lst', ?_, ⟨hshows'.congr (fun p _ => ?_) fun _ _ => rfl, h.nonneg, ?_, ?_⟩,
      hfreed⟩
    · simp only [Tclist.remove, Tclist.setItem, hset, Option.map_some, Option.bind_some]
      exact hderef
    · simp only [bump]
      split <;> omega
    · rw [map_fst_marked]
      exact h.held
    · intro p hp hdeleted
      obtain ⟨q, hq, rfl⟩ := List.mem_map.mp hp
      rcases eq_or_ne q.1 l with heq | hne
      · rw [if_pos heq, heq]
        exact hK
      · rw [if_neg hne] at hdeleted ⊢
        exact h.kept q hq hdeleted

end Change

end Tclist

end Lwfs.Support
