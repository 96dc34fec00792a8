import Lwfs.Support.HashtableMemory

/-!
Iterators over the hash table in memory.

An iterator stands on an entry, and it remembers the entry before it in the
bucket, because the entry it stands on can be removed. `At` says what it
stands for: the entries it has passed and those it has still to come to. From
it follows what a loop over a table does that keeps some entries and removes
others, in any pattern: it comes by every entry once, and what is left are the
ones it kept (`sweep_eq`). `mt_hashtable_destroy` is such a loop, and
`hashtable_destroy` does the same without an iterator.
-/

namespace Lwfs.Support.Hashtable

open SysLib LinkedList

variable {A K V : Type}

/-- `struct hashtable_itr`. -/
structure Itr (A : Type) where
  e : Option A
  parent : Option A
  index : ℕ

/-- The loop over the buckets, from number `j`, for one that is not empty. -/
def firstUsed : List (Option A) → ℕ → Option A × ℕ
  | [], j => (none, j)
  | none :: table, j => firstUsed table (j + 1)
  | some e :: _, j => (some e, j)

namespace Memory

/-- The iterator that `hashtable_iterator` makes. -/
def iterator (m : Memory A K V) : Itr A :=
  if m.entrycount = 0 then ⟨none, none, m.table.length⟩
  else
    let used := firstUsed m.table 0
    ⟨used.1, none, used.2⟩

/-- `hashtable_iterator`, which may find no memory for the iterator. -/
def newIterator (m : Memory A K V) (found : Bool) : Option (Itr A) :=
  if found then some m.iterator else none

/-- `hashtable_iterator_advance`. -/
def iteratorAdvance (m : Memory A K V) (itr : Itr A) : Option (Bool × Itr A) :=
  match itr.e with
  | none => some (false, itr)
  | some e => (m.store e).map fun node =>
      match node.next with
      | some next => (true, ⟨some next, some e, itr.index⟩)
      | none =>
          let used := firstUsed (m.table.drop (itr.index + 1)) (itr.index + 1)
          (used.1.isSome, ⟨used.1, none, used.2⟩)

section Update

variable [DecidableEq A]

/-- `hashtable_iterator_remove`. The entry is out of the table when the
iterator goes on from it, and is freed after that. -/
def iteratorRemove (m : Memory A K V) (itr : Itr A) :
    Option (Bool × Itr A × Memory A K V) := do
  let e ← itr.e
  let node ← m.store e
  let m ← m.unlink itr.index itr.parent node.next
  let m := { m with entrycount := m.entrycount - 1 }
  let (more, itr') ← m.iteratorAdvance itr
  let parent := if itr'.parent = some e then itr.parent else itr'.parent
  let m ← m.free e
  some (more, { itr' with parent }, m)

/-- The caller of an iterator removes the entry or goes on from it. -/
def turn (m : Memory A K V) (removed : Bool) (itr : Itr A) :
    Option (Bool × Itr A × Memory A K V) :=
  if removed then m.iteratorRemove itr
  else (m.iteratorAdvance itr).map fun r => (r.1, r.2, m)

/-- A loop over the table, from where the iterator is, that at each entry
reads it and then removes it or goes on, as the list says. -/
def sweep : List Bool → Memory A K V → Itr A →
    Option (List (Entry K V) × Memory A K V)
  | [], _, _ => none
  | removed :: rest, m, itr => do
      let e ← itr.e
      let node ← m.store e
      let (more, itr, m) ← m.turn removed itr
      if more then
        (sweep rest m itr).map fun r => (node.value :: r.1, r.2)
      else some ([node.value], m)

/-- The loop of `hashtable_destroy` over a bucket. It deallocates the values,
in this order. -/
def destroyChain : ℕ → Option A → Store A (Entry K V) →
    Option (List V × Store A (Entry K V))
  | _, none, store => some ([], store)
  | 0, some _, _ => none
  | n + 1, some f, store => (store f).bind fun node =>
      (destroyChain n node.next (Function.update store f none)).map fun r =>
        (node.value.v :: r.1, r.2)

/-- `hashtable_destroy`, which leaves a table of no buckets. -/
def destroy (m : Memory A K V) : Option (List V × Memory A K V) :=
  (m.table.foldlM (fun done first =>
      (destroyChain m.entrycount first done.2).map fun r =>
        (done.1 ++ r.1, r.2))
    ([], m.store)).map fun done => (done.1, ⟨[], 0, 0, 0, done.2⟩)

/-- `mt_hashtable_destroy`: the iterator removes the entries one by one, after
their values are deallocated, and then there is nothing to deallocate in the
table. Whether there is an iterator is not asked. -/
def mtDestroy (m : Memory A K V) (found : Bool) :
    Option (List V × Memory A K V) := do
  let (values, m) ←
    if 0 < m.entrycount then
      (m.newIterator found).bind fun itr =>
        (sweep (List.replicate m.entrycount true) m itr).map fun r =>
          (r.1.map Entry.v, r.2)
    else some ([], m)
  let (_, m) ← m.destroy
  some (values, m)

end Update

end Memory

/-! ### Where an iterator is -/

/-- The iterator has passed the entries of the first list and has those of the
second before it. -/
inductive At (chains : List (List (A × Entry K V))) :
    Itr A → List (A × Entry K V) → List (A × Entry K V) → Prop
  | entry {i : ℕ} {pre post : List (A × Entry K V)} {a : A} {e : Entry K V}
      (hi : i < chains.length) (hchain : chains[i] = pre ++ (a, e) :: post) :
      At chains ⟨some a, before none pre, i⟩ ((chains.take i).flatten ++ pre)
        ((a, e) :: (post ++ (chains.drop (i + 1)).flatten))
  | done {parent : Option A} {i : ℕ} : At chains ⟨none, parent, i⟩ chains.flatten []

variable {chains : List (List (A × Entry K V))} {m : Memory A K V} {itr : Itr A}
  {visited todo : List (A × Entry K V)} {a : A} {e : Entry K V}

theorem At.flatten (h : At chains itr visited todo) :
    chains.flatten = visited ++ todo := by
  cases h with
  | entry hi hchain => rw [flatten_eq_at hi, hchain]; simp
  | done => simp

theorem At.isSome (h : At chains itr visited todo) :
    itr.e.isSome = true ↔ todo ≠ [] := by
  cases h <;> simp

/-- The first entry of the buckets from number `j` on. -/
theorem at_firstUsed {store : Store A (Entry K V)} {table : List (Option A)}
    (h : Chained store table chains) (j : ℕ) :
    At chains ⟨(firstUsed (table.drop j) j).1, none, (firstUsed (table.drop j) j).2⟩
      (chains.take j).flatten (chains.drop j).flatten := by
  induction hrest : table.drop j generalizing j with
  | nil =>
      have hj : chains.length ≤ j := by
        rw [← h.length]
        exact List.drop_eq_nil_iff.mp hrest
      rw [List.take_of_length_le hj, List.drop_of_length_le hj]
      exact .done
  | cons first rest ih =>
      have hj : j < table.length := by
        apply Nat.lt_of_not_le
        intro hle
        simp [List.drop_of_length_le hle] at hrest
      have hj' : j < chains.length := h.length ▸ hj
      rw [List.drop_eq_getElem_cons hj, List.cons.injEq] at hrest
      have hlinked := h.linked j hj hj'
      rw [hrest.1] at hlinked
      cases first with
      | none =>
          have hempty : chains[j] = [] := hlinked.eq_nil
          have hnext := ih (j + 1) hrest.2
          rw [List.take_succ_eq_append_getElem hj', hempty] at hnext
          rw [List.drop_eq_getElem_cons hj', hempty]
          simpa [firstUsed] using hnext
      | some a =>
          obtain ⟨b, e, post, hb, hchain⟩ :=
            hlinked.exists_head (by rintro hnil; rw [hnil] at hlinked; cases hlinked)
          cases hb
          have hentry : At chains ⟨some a, before none [], j⟩ _ _ :=
            .entry hj' hchain
          rw [List.drop_eq_getElem_cons hj', hchain]
          simpa [firstUsed] using hentry

theorem at_iterator {t : Hashtable K V} (h : Represents chains m t) :
    At chains m.iterator [] chains.flatten := by
  unfold Memory.iterator
  split
  · next hzero =>
    have hnil : chains.flatten = [] := by
      rw [h.counted] at hzero
      exact List.length_eq_zero_iff.mp hzero
    have hdone : At chains ⟨none, none, m.table.length⟩ chains.flatten [] := .done
    rwa [hnil] at hdone ⊢
  · simpa using at_firstUsed h.chained 0

/-- The step from an entry: to the next one of the bucket, or to the first one
of the buckets behind. -/
theorem iteratorAdvance_cases (parent : Option A) (i : ℕ) {next : Option A}
    {post : List (A × Entry K V)} (h : Chained m.store m.table chains)
    (ha : m.store a = some ⟨e, next⟩) (hnext : next = post.head?.map Prod.fst) :
    ∃ itr', m.iteratorAdvance ⟨some a, parent, i⟩ = some (itr'.e.isSome, itr') ∧
      ((∃ b w post', post = (b, w) :: post' ∧ itr' = ⟨some b, some a, i⟩) ∨
        (post = [] ∧ itr'.parent = none ∧
          At chains itr' (chains.take (i + 1)).flatten
            (chains.drop (i + 1)).flatten)) := by
  subst hnext
  cases post with
  | nil =>
      have hfirst := at_firstUsed h (i + 1)
      refine ⟨_, ?_, .inr ⟨rfl, rfl, hfirst⟩⟩
      simp [Memory.iteratorAdvance, ha]
  | cons p post =>
      refine ⟨⟨some p.1, some a, i⟩, ?_, .inl ⟨p.1, p.2, post, rfl, rfl⟩⟩
      simp [Memory.iteratorAdvance, ha]

/-- Going on passes one entry. -/
theorem At.advance (h : At chains itr visited ((a, e) :: todo))
    (hchained : Chained m.store m.table chains) :
    ∃ itr', m.iteratorAdvance itr = some (itr'.e.isSome, itr') ∧
      At chains itr' (visited ++ [(a, e)]) todo := by
  cases h with
  | @entry i pre post _ _ hi hchain =>
      have hlinked := hchained.getD hi
      rw [hchain] at hlinked
      obtain ⟨next, ha, hnext⟩ := hlinked.drop
      obtain ⟨itr', hadvance, hcases⟩ := iteratorAdvance_cases
        (before none pre) i hchained ha hnext.first_eq
      refine ⟨itr', hadvance, ?_⟩
      obtain ⟨b, w, post', rfl, rfl⟩ | ⟨rfl, -, hat⟩ := hcases
      · have hnext : chains[i] = (pre ++ [(a, e)]) ++ (b, w) :: post' := by
          simp [hchain]
        simpa using At.entry hi hnext
      · rw [List.take_succ_eq_append_getElem hi, hchain] at hat
        simpa using hat

variable [DecidableEq A]

/-- Removing takes out the entry under the iterator, frees it, and goes on to
the entry that was behind it. -/
theorem At.remove {t : Hashtable K V} (h : At chains itr visited ((a, e) :: todo))
    (hm : Represents chains m t) :
    ∃ itr' m' chains' i bucket,
      m.iteratorRemove itr = some (itr'.e.isSome, itr', m') ∧
        Represents chains' m' (t.takeOut i bucket) ∧
        bucket.Sublist (t.table.getD i []) ∧
        At chains' itr' visited todo := by
  cases h with
  | @entry i pre post _ _ hi hchain =>
      have hlinked := hm.chained.getD hi
      rw [hchain] at hlinked
      obtain ⟨next, ha, hnext⟩ := hlinked.drop
      obtain ⟨table, store, hunlink, hchained, ha', htaken⟩ :=
        hm.takeOut hi hchain ha
      have hbucket : ((pre ++ post).map Prod.snd).Sublist (t.table.getD i []) := by
        rw [hm.getD hi, hchain]
        exact (List.Sublist.append_left (List.sublist_cons_self _ _) pre).map _
      let m' : Memory A K V :=
        { m with table, entrycount := m.entrycount - 1, store }
      obtain ⟨itr', hadvance, hcases⟩ := iteratorAdvance_cases (m := m')
        (before none pre) i hchained ha' hnext.first_eq
      have hi' : i < (chains.set i (pre ++ post)).length := by
        rwa [List.length_set]
      -- the entry that is gone is not what the iterator remembers
      refine ⟨⟨itr'.e, if itr'.parent = some a then before none pre
        else itr'.parent, itr'.index⟩, _, _, i, _, ?_, htaken, hbucket, ?_⟩
      · simp only [Memory.iteratorRemove, Option.bind_eq_bind, Option.bind_some,
          ha, hunlink]
        change (m'.iteratorAdvance _).bind _ = _
        rw [hadvance, Option.bind_some]
        simp only [Memory.free, ha', Option.map_some, Option.bind_some]
      · obtain ⟨b, w, post', rfl, rfl⟩ | ⟨rfl, hparent, hat⟩ := hcases
        · have hentry := At.entry hi' (List.getElem_set_self hi')
          simpa [List.drop_set_of_lt, List.take_set_of_le] using hentry
        · obtain ⟨e', parent', i'⟩ := itr'
          subst hparent
          rw [List.take_succ_eq_append_getElem hi', List.getElem_set_self] at hat
          simpa [List.drop_set_of_lt, List.take_set_of_le] using hat

/-! ### Loops over a table -/

/-- The table has the same buckets, with some entries taken out. -/
structure Pruned (t t' : Hashtable K V) : Prop where
  length : t'.table.length = t.table.length
  sublist : ∀ i, (t'.table.getD i []).Sublist (t.table.getD i [])

theorem Pruned.refl (t : Hashtable K V) : Pruned t t :=
  ⟨rfl, fun _ => List.Sublist.refl _⟩

theorem Pruned.trans {t t' t'' : Hashtable K V} (h : Pruned t t')
    (h' : Pruned t' t'') : Pruned t t'' :=
  ⟨h'.length.trans h.length, fun i => (h'.sublist i).trans (h.sublist i)⟩

theorem pruned_takeOut (t : Hashtable K V) {i : ℕ} {bucket : List (Entry K V)}
    (h : bucket.Sublist (t.table.getD i [])) : Pruned t (t.takeOut i bucket) := by
  refine ⟨List.length_set, fun j => ?_⟩
  simp only [takeOut, List.getD_eq_getElem?_getD, List.getElem?_set] at h ⊢
  split
  · next hij =>
    subst hij
    split
    · exact h
    · simp
  · exact List.Sublist.refl _

/-- What is kept of a list by the decisions to remove. -/
def kept {α : Type} (decisions : List Bool) (l : List α) : List α :=
  ((decisions.zip l).filter fun p => !p.1).map Prod.snd

@[simp] theorem kept_nil {α : Type} (decisions : List Bool) :
    kept decisions ([] : List α) = [] := by
  simp [kept]

@[simp] theorem kept_cons {α : Type} (removed : Bool) (decisions : List Bool)
    (x : α) (l : List α) : kept (removed :: decisions) (x :: l) =
      if removed then kept decisions l else x :: kept decisions l := by
  cases removed <;> simp [kept]

theorem map_kept {α β : Type} (f : α → β) (decisions : List Bool) (l : List α) :
    (kept decisions l).map f = kept decisions (l.map f) := by
  induction l generalizing decisions with
  | nil => simp
  | cons x l ih =>
      cases decisions with
      | nil => simp [kept]
      | cons removed decisions => cases removed <;> simp [ih]

/-- One turn of the loop. -/
theorem At.turn {t : Hashtable K V} (h : At chains itr visited ((a, e) :: todo))
    (hm : Represents chains m t) (removed : Bool) :
    ∃ itr' m' chains' t',
      m.turn removed itr = some (itr'.e.isSome, itr', m') ∧
        Represents chains' m' t' ∧ Pruned t t' ∧
        At chains' itr' (visited ++ kept [removed] [(a, e)]) todo := by
  cases removed with
  | false =>
      obtain ⟨itr', hadvance, hat⟩ := h.advance hm.chained
      refine ⟨itr', m, chains, t, ?_, hm, Pruned.refl t, hat⟩
      simp [Memory.turn, hadvance]
  | true =>
      obtain ⟨itr', m', chains', i, bucket, hremove, hm', hsub, hat⟩ := h.remove hm
      refine ⟨itr', m', chains', _, (if_pos rfl).trans hremove, hm', pruned_takeOut t hsub, ?_⟩
      simpa using hat

/-- A loop from an entry on comes by every entry behind it once, in order. -/
theorem At.sweep {t : Hashtable K V} {decisions : List Bool}
    (h : At chains itr visited todo) (hm : Represents chains m t)
    (hlen : decisions.length = todo.length) (hne : todo ≠ []) :
    ∃ m' chains' t', Memory.sweep decisions m itr = some (todo.map Prod.snd, m') ∧
      Represents chains' m' t' ∧ Pruned t t' ∧
      chains'.flatten = visited ++ kept decisions todo := by
  induction decisions generalizing chains m itr visited todo t with
  | nil => exact absurd (List.length_eq_zero_iff.mp hlen.symm) hne
  | cons removed decisions ih =>
      obtain ⟨⟨a, e⟩, todo, rfl⟩ := List.exists_cons_of_ne_nil hne
      have hitr : itr.e = some a ∧ ∃ next, m.store a = some ⟨e, next⟩ := by
        have hmem : (a, e) ∈ chains.flatten := by
          rw [h.flatten]
          simp
        cases h with
        | entry hi hchain => exact ⟨rfl, hm.chained.read hmem⟩
      obtain ⟨next, ha⟩ := hitr.2
      obtain ⟨itr', m', chains', t', hturn, hm', hpruned, hat⟩ := h.turn hm removed
      have hsweep : Memory.sweep (removed :: decisions) m itr =
          if itr'.e.isSome then
            (Memory.sweep decisions m' itr').map fun r => (e :: r.1, r.2)
          else some ([e], m') := by
        simp only [Memory.sweep, hitr.1, ha, Option.bind_eq_bind,
          Option.bind_some, hturn]
      rw [hsweep]
      by_cases hmore : todo = []
      · subst hmore
        have hend : itr'.e.isSome = false := by
          rw [Bool.eq_false_iff]
          intro hsome
          exact hat.isSome.mp hsome rfl
        have hflat := hat.flatten
        refine ⟨m', chains', t', by simp [hend], hm', hpruned, ?_⟩
        cases removed <;> simpa using hflat
      · obtain ⟨m'', chains'', t'', hrest, hm'', hpruned', hflat⟩ :=
          ih hat hm' (Nat.succ.inj hlen) hmore
        refine ⟨m'', chains'', t'', ?_, hm'', hpruned.trans hpruned', ?_⟩
        · rw [if_pos (hat.isSome.mpr hmore), hrest]
          rfl
        · rw [hflat]
          cases removed <;> simp

/-- A loop over a whole table. -/
theorem Represents.sweep {t : Hashtable K V} {decisions : List Bool}
    (h : Represents chains m t) (hlen : decisions.length = m.entrycount)
    (hpos : 0 < m.entrycount) :
    ∃ m' chains' t', Memory.sweep decisions m m.iterator = some (t.entries, m') ∧
      Represents chains' m' t' ∧ Pruned t t' ∧
      chains'.flatten = kept decisions chains.flatten := by
  rw [h.counted] at hlen hpos
  have hat := at_iterator h
  obtain ⟨m', chains', t', hsweep, hm', hpruned, hflat⟩ :=
    hat.sweep h hlen (List.ne_nil_of_length_pos hpos)
  rw [← h.entries] at hsweep
  exact ⟨m', chains', t', hsweep, hm', hpruned, hflat⟩

/-! ### Destroying a table -/

section Destroy

variable {store : Store A (Entry K V)}

theorem destroyChain_of_linked {l : List (A × Entry K V)} {first : Option A}
    {n : ℕ} (h : Linked store first l) (hn : l.length ≤ n) :
    ∃ store', Memory.destroyChain n first store =
        some (l.map fun p => p.2.v, store') ∧
      (∀ c ∈ l.map Prod.fst, store' c = none) ∧
      ∀ c ∉ l.map Prod.fst, store' c = store c := by
  induction l generalizing store first n with
  | nil =>
      obtain rfl := linked_nil_iff.mp h
      exact ⟨store, by cases n <;> rfl, by simp, fun _ _ => rfl⟩
  | cons p l ih =>
      obtain ⟨a, e⟩ := p
      have hnodup := h.nodup
      simp only [List.map_cons, List.nodup_cons] at hnodup
      obtain ⟨rfl, next, ha, hrest⟩ := linked_cons_iff.mp h
      cases n with
      | zero => cases hn
      | succ n =>
          obtain ⟨store', hdestroy, hfreed, hframe⟩ :=
            ih (hrest.update hnodup.1 none) (Nat.le_of_succ_le_succ hn)
          refine ⟨store', ?_, ?_, ?_⟩
          · simp [Memory.destroyChain, ha, hdestroy]
          · rw [List.map_cons, List.forall_mem_cons]
            refine ⟨?_, hfreed⟩
            rw [hframe a hnodup.1, Function.update_self]
          · intro c hc
            simp only [List.map_cons, List.mem_cons, not_or] at hc
            rw [hframe c hc.2, Function.update_of_ne hc.1]

theorem destroyAll_of_chained {firsts : List (Option A)} {n : ℕ}
    (h : Chained store firsts chains) (hn : ∀ l ∈ chains, l.length ≤ n)
    (values : List V) :
    ∃ store', firsts.foldlM (fun done first =>
        (Memory.destroyChain n first done.2).map fun r => (done.1 ++ r.1, r.2))
          (values, store) =
          some (values ++ chains.flatten.map (fun p => p.2.v), store') ∧
      (∀ c ∈ chains.flatten.map Prod.fst, store' c = none) ∧
      ∀ c ∉ chains.flatten.map Prod.fst, store' c = store c := by
  induction firsts generalizing store chains values with
  | nil =>
      have hnil : chains = [] := List.length_eq_zero_iff.mp h.length.symm
      subst hnil
      exact ⟨store, by simp, by simp, fun _ _ => rfl⟩
  | cons first firsts ih =>
      obtain ⟨chain, chains, rfl⟩ : ∃ chain chains', chains = chain :: chains' :=
        List.exists_cons_of_length_eq_add_one h.length.symm
      obtain ⟨hchain, hrest, hapart⟩ := h.of_cons
      rw [List.forall_mem_cons] at hn
      obtain ⟨store', hdestroy, hfreed, hframe⟩ := destroyChain_of_linked hchain hn.1
      have hrest' : Chained store' firsts chains :=
        hrest.congr fun p hp => hframe p.1 (hapart p hp)
      obtain ⟨store'', hall, hfreed', hframe'⟩ := ih hrest' hn.2
        (values ++ chain.map fun p => p.2.v)
      refine ⟨store'', ?_, ?_, ?_⟩
      · simp [hdestroy, hall]
      · simp only [List.flatten_cons, List.map_append, List.forall_mem_append]
        refine ⟨fun c hc => ?_, hfreed'⟩
        rw [hframe' c ?_, hfreed c hc]
        intro hc'
        obtain ⟨p, hp, rfl⟩ := List.mem_map.mp hc'
        exact hapart p hp hc
      · intro c hc
        simp only [List.flatten_cons, List.map_append, List.mem_append, not_or] at hc
        rw [hframe' c hc.2, hframe c hc.1]

variable {t : Hashtable K V}

/-- A destroyed table has deallocated each of its values once, and nothing is
allocated for it any more. -/
theorem Represents.destroy_eq (h : Represents chains m t) :
    m.destroy = some (t.entries.map Entry.v, ⟨[], 0, 0, 0, fun _ => none⟩) := by
  have hn : ∀ l ∈ chains, l.length ≤ m.entrycount := by
    intro l hl
    rw [h.counted]
    exact (List.sublist_flatten_of_mem hl).length_le
  obtain ⟨store', hall, hfreed, hframe⟩ := destroyAll_of_chained h.chained hn []
  have hempty : store' = fun _ => none := by
    ext1 c
    by_cases hc : c ∈ chains.flatten.map Prod.fst
    · exact hfreed c hc
    · rw [hframe c hc]
      by_contra hne
      exact hc (h.owned c hne)
  subst hempty
  rw [h.entries, List.map_map]
  simp only [Memory.destroy, hall, Option.map_some, List.nil_append]
  rfl

/-- With an iterator the same is done. Without one, an empty table is
destroyed, and for another a null pointer is followed. -/
theorem Represents.mtDestroy_eq (h : Represents chains m t) (found : Bool) :
    m.mtDestroy found = if found = true ∨ m.entrycount = 0 then
      some (t.entries.map Entry.v, ⟨[], 0, 0, 0, fun _ => none⟩) else none := by
  by_cases hpos : 0 < m.entrycount
  · cases found with
    | false =>
        rw [if_neg (by simp [Nat.ne_of_gt hpos])]
        simp [Memory.mtDestroy, hpos, Memory.newIterator]
    | true =>
        obtain ⟨m', chains', t', hsweep, hm', -, hflat⟩ :=
          h.sweep (List.length_replicate (a := true)) hpos
        have hnone := hm'.destroy_eq
        simp [Memory.mtDestroy, hpos, hsweep, Memory.newIterator, hnone]
  · have hnil : t.entries = [] := by
      rw [h.entries, List.map_eq_nil_iff, ← List.length_eq_zero_iff, ← h.counted]
      exact Nat.eq_zero_of_not_pos hpos
    rw [if_pos (.inr (Nat.eq_zero_of_not_pos hpos))]
    simp [Memory.mtDestroy, hpos, h.destroy_eq, hnil]

end Destroy

end Lwfs.Support.Hashtable
