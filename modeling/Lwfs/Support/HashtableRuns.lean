import Lwfs.Lib.Refinement
import Lwfs.Support.HashtableItr
import Mathlib.Data.Multiset.MapFold

/-!
Runs of the hash table in memory, and of the one that threads share.

What a table is for is to hold a bag of pairs of a key and a value. Whatever
is done to a table in whatever order, its answers are those of the bag, up to
an insertion that goes over to plan B (`run_refines`). Destroying a table
deallocates the values of its bag (`run_destroy`).

A thread locks a shared table for each operation. `mt_hashtable_insert` that
fails returns with the table locked, so a shared table answers as the bag does
up to the first insertion that fails, and after that no operation on it returns
(`mt_run_refines`).
-/

namespace Lwfs.Support

open SysLib LinkedList Refinement

variable {A K V : Type}

/-- Equal keys have the same hash value. -/
def HashFns.Lawful (fns : HashFns K) : Prop :=
  ∀ k k', fns.eqfn k k' = true → fns.hashfn k = fns.hashfn k'

def Entry.pair (e : Entry K V) : K × V := (e.k, e.v)

namespace Hashtable

/-- An insertion comes with the memory that it finds, for a larger table and
for the entry. -/
inductive Op (A K V : Type)
  | insert (found : TableMemory) (alloc : Allocator A (Node A (Entry K V))) (k : K)
      (v : V)
  | search (k : K)
  | remove (k : K)
  | count

inductive Answer (V : Type)
  | inserted (done : Bool)
  | found (v : Option V)
  | removed (v : Option V)
  | counted (n : ℕ)

/-- A loop over the table with an iterator, if there is memory for one, removes
the entries that the function on their numbers says. -/
inductive Request (A K V : Type)
  | op (o : Op A K V)
  | sweep (found : Bool) (removes : ℕ → Bool)

inductive Reply (K V : Type)
  | answer (a : Answer V)
  | swept (l : List (K × V))
  | noIterator

section Step

variable [DecidableEq A] (fns : HashFns K)

/-- One operation. -/
def step (m : Memory A K V) : Op A K V → Option (Answer V × Memory A K V)
  | .insert found alloc k v =>
      (m.insert fns found alloc k v).map fun r => (.inserted r.1, r.2)
  | .search k => (m.search fns k).map fun v => (.found v, m)
  | .remove k => (m.remove fns k).map fun r => (.removed r.1, r.2)
  | .count => some (.counted m.entrycount, m)

/-- The decisions of a loop that comes by `n` entries. -/
def decisions (removes : ℕ → Bool) (n : ℕ) : List Bool :=
  (List.range n).map removes

def serve (m : Memory A K V) :
    Request A K V → Option (Reply K V × Memory A K V)
  | .op o => (step fns m o).map fun r => (.answer r.1, r.2)
  | .sweep found removes =>
      match m.newIterator found with
      | none => some (.noIterator, m)
      | some itr =>
          if 0 < m.entrycount then
            (Memory.sweep (decisions removes m.entrycount) m itr).map fun r =>
              (.swept (r.1.map Entry.pair), r.2)
          else some (.swept [], m)

end Step

/-! ### The bag -/

/-- What an operation can answer, and what it makes of the bag. Of several
pairs under equal keys any can be found. -/
inductive Does (eqfn : K → K → Bool) :
    Multiset (K × V) → Op A K V → Answer V → Multiset (K × V) → Prop
  | inserted {bag : Multiset (K × V)} {found : TableMemory}
      {alloc : Allocator A (Node A (Entry K V))} {k : K} {v : V} :
      Does eqfn bag (.insert found alloc k v) (.inserted true) ((k, v) ::ₘ bag)
  | full {bag : Multiset (K × V)} {found : TableMemory}
      {alloc : Allocator A (Node A (Entry K V))} {k : K} {v : V}
      (hfull : ∃ store, alloc.malloc store = none) :
      Does eqfn bag (.insert found alloc k v) (.inserted false) bag
  | found {bag : Multiset (K × V)} {k k' : K} {v : V} (hmem : (k', v) ∈ bag)
      (hk : eqfn k k' = true) : Does eqfn bag (.search k) (.found (some v)) bag
  | missing {bag : Multiset (K × V)} {k : K} (hk : ∀ p ∈ bag, eqfn k p.1 = false) :
      Does eqfn bag (.search k) (.found none) bag
  | removed {bag : Multiset (K × V)} {k k' : K} {v : V} (hk : eqfn k k' = true) :
      Does eqfn ((k', v) ::ₘ bag) (.remove k) (.removed (some v)) bag
  | nothing {bag : Multiset (K × V)} {k : K} (hk : ∀ p ∈ bag, eqfn k p.1 = false) :
      Does eqfn bag (.remove k) (.removed none) bag
  | counted {bag : Multiset (K × V)} :
      Does eqfn bag .count (.counted bag.card) bag

/-- A loop comes by every pair of the bag once, in some order. -/
inductive Serves (eqfn : K → K → Bool) :
    Multiset (K × V) → Request A K V → Reply K V → Multiset (K × V) → Prop
  | op {bag bag' : Multiset (K × V)} {o : Op A K V} {r : Answer V}
      (h : Does eqfn bag o r bag') : Serves eqfn bag (.op o) (.answer r) bag'
  | swept {removes : ℕ → Bool} {l : List (K × V)} :
      Serves eqfn l (.sweep true removes) (.swept l)
        (kept (decisions removes l.length) l : List (K × V))
  | noIterator {bag : Multiset (K × V)} {removes : ℕ → Bool} :
      Serves eqfn bag (.sweep false removes) .noIterator bag

/-- The bag of a table. -/
def bag (t : Hashtable K V) : Multiset (K × V) := (t.entries.map Entry.pair : List (K × V))

theorem bag_perm {t t' : Hashtable K V} (h : t.entries.Perm t'.entries) :
    bag t = bag t' :=
  Multiset.coe_eq_coe.mpr (h.map _)

theorem bag_of_perm_cons {t t' : Hashtable K V} {e : Entry K V}
    (h : t.entries.Perm (e :: t'.entries)) : bag t = (e.k, e.v) ::ₘ bag t' :=
  Multiset.coe_eq_coe.mpr (h.map _)

theorem mem_bag {t : Hashtable K V} {p : K × V} :
    p ∈ bag t ↔ ∃ e ∈ t.entries, Entry.pair e = p := by
  simp [bag]

/-! ### The entries stay where a search looks -/

section Placed

variable {fns : HashFns K} {t : Hashtable K V}

theorem Placed.pruned {t' : Hashtable K V} (h : Placed fns t.table)
    (hpruned : Pruned t t') : Placed fns t'.table := by
  intro i hi e he
  have hi' : i < t.table.length := hpruned.length ▸ hi
  have hsub := hpruned.sublist i
  rw [List.getD_eq_getElem _ _ hi, List.getD_eq_getElem _ _ hi'] at hsub
  rw [hpruned.length]
  exact h i hi' e (hsub.subset he)

theorem Placed.grow (h : Placed fns t.table) (found : TableMemory) :
    Placed fns (grow fns found t).table := by
  simp only [Hashtable.grow]
  split
  · exact Placed.expand fns (t := { t with entrycount := t.entrycount + 1 }) h
  · exact h

theorem entries_grow_perm (found : TableMemory) (t : Hashtable K V) :
    (Hashtable.grow fns found t).entries.Perm t.entries := by
  simp only [Hashtable.grow]
  split
  · exact entries_expand_perm fns _
  · exact List.Perm.refl _

theorem Placed.cram (h : Placed fns t.table) (k : K) (v : V) :
    Placed fns (cram fns t k v).table := h.push fns rfl

theorem entries_cram_perm (t : Hashtable K V) (k : K) (v : V) :
    (Hashtable.cram fns t k v).entries.Perm (⟨hash fns k, k, v⟩ :: t.entries) :=
  flatten_push_perm t.tablelength_pos _

/-- A search finds something if there is an entry under an equal key. -/
theorem search_isSome_of_eqfn (hlaw : fns.Lawful) (h : Placed fns t.table) {k : K}
    {e : Entry K V} (he : e ∈ t.entries) (hk : fns.eqfn k e.k = true) :
    ((t.table.getD (indexFor t.table.length (hash fns k)) []).find?
      (stopsAt fns k)).isSome := by
  obtain ⟨bucket, hbucket, hmem⟩ := List.mem_flatten.mp he
  obtain ⟨i, hi, rfl⟩ := List.getElem_of_mem hbucket
  obtain ⟨hhash, hindex⟩ := h i hi e hmem
  have hsame : hash fns k = e.h := (hash_congr fns (hlaw k e.k hk)).trans hhash.symm
  rw [hsame, hindex, List.getD_eq_getElem _ _ hi, List.find?_isSome]
  exact ⟨e, hmem, by simp [stopsAt, hsame, hk]⟩

theorem eqfn_eq_false_of_find (hlaw : fns.Lawful) (h : Placed fns t.table) {k : K}
    (hfind : (t.table.getD (indexFor t.table.length (hash fns k)) []).find?
      (stopsAt fns k) = none) :
    ∀ p ∈ bag t, fns.eqfn k p.1 = false := by
  intro p hp
  obtain ⟨e, he, rfl⟩ := mem_bag.mp hp
  rw [Bool.eq_false_iff]
  intro hk
  have hsome := search_isSome_of_eqfn hlaw h he hk
  rw [hfind] at hsome
  cases hsome

/-- A removal takes one entry under an equal key out of the table. -/
theorem remove_cases (hlaw : fns.Lawful) (h : Placed fns t.table) (k : K) :
    (remove fns t k = (none, t) ∧ ∀ p ∈ bag t, fns.eqfn k p.1 = false) ∨
      ∃ e t', remove fns t k = (some e.v, t') ∧ fns.eqfn k e.k = true ∧
        t.entries.Perm (e :: t'.entries) ∧ Placed fns t'.table := by
  have hi : indexFor t.table.length (hash fns k) < t.table.length :=
    indexFor_lt t.tablelength_pos _
  cases hfind : (t.table.getD (indexFor t.table.length (hash fns k)) []).find?
      (stopsAt fns k) with
  | none =>
      exact .inl ⟨remove_of_none fns hfind, eqfn_eq_false_of_find hlaw h hfind⟩
  | some e =>
      have hremove := remove_of_some fns hfind
      generalize indexFor t.table.length (hash fns k) = i at hi hfind hremove
      obtain ⟨pre, post, hbucket, hpre, he⟩ := exists_split_of_find? hfind
      rw [hbucket, Represents.eraseP_of_split hpre he] at hremove
      refine .inr ⟨e, _, hremove, ?_, ?_, ?_⟩
      · simp only [stopsAt, Bool.and_eq_true] at he
        exact he.2
      · apply flatten_perm_of_split hi
        rwa [List.getD_eq_getElem _ _ hi] at hbucket
      · apply h.pruned
        apply pruned_takeOut
        rw [hbucket]
        exact List.Sublist.append_left (List.sublist_cons_self _ _) pre

end Placed

/-! ### The table in memory and the bag -/

section Runs

variable [DecidableEq A] {fns : HashFns K}

/-- The table in memory holds this bag. -/
def Holds (fns : HashFns K) (m : Memory A K V) (b : Multiset (K × V)) : Prop :=
  ∃ chains t, Represents chains m t ∧ Placed fns t.table ∧ bag t = b

omit [DecidableEq A] in
theorem holds_created (minsize : ℕ) :
    Holds fns (Memory.created fns minsize : Memory A K V) 0 :=
  ⟨_, _, represents_created fns minsize, placed_create fns minsize, by simp [bag]⟩

omit [DecidableEq A] in
theorem holds_of_create {found : Bool} {minsize : ℕ} {m : Memory A K V}
    (h : Memory.create fns found minsize = some m) : Holds fns m 0 := by
  unfold Memory.create at h
  split_ifs at h
  cases h
  exact holds_created minsize

/-- The operation goes over to plan B. -/
def Op.PlanB (m : Memory A K V) : Op A K V → Prop
  | .insert found _ _ _ => Hashtable.PlanB found m
  | _ => False

theorem step_of_planB {m : Memory A K V} {o : Op A K V} (h : o.PlanB m) :
    step fns m o = none := by
  cases o with
  | insert found alloc k v => simp [step, insert_of_planB fns h]
  | _ => cases h

/-- Each operation answers as the bag does. -/
theorem step_does (hlaw : fns.Lawful) {m : Memory A K V} {b : Multiset (K × V)}
    (h : Holds fns m b) {o : Op A K V} (hplan : ¬ o.PlanB m) :
    ∃ r m' b', step fns m o = some (r, m') ∧ Does fns.eqfn b o r b' ∧
      Holds fns m' b' := by
  obtain ⟨chains, t, hm, hplaced, rfl⟩ := h
  cases o with
  | insert found alloc k v =>
      obtain ⟨chains', m', inserted, hinsert, hfull, hm'⟩ :=
        hm.insert_eq fns alloc hplan k v
      have hgrown : bag (grow fns found t) = bag t :=
        bag_perm (entries_grow_perm found t)
      cases inserted with
      | false =>
          exact ⟨.inserted false, m', bag t, by simp [step, hinsert],
            .full ⟨_, hfull rfl⟩, chains', _, hm', hplaced.grow found, hgrown⟩
      | true =>
          refine ⟨.inserted true, m', (k, v) ::ₘ bag t, by simp [step, hinsert],
            .inserted, chains', _, hm', (hplaced.grow found).cram k v, ?_⟩
          rw [← hgrown]
          exact bag_of_perm_cons (entries_cram_perm _ k v)
  | search k =>
      refine ⟨.found (search fns t k), m, bag t, ?_, ?_,
        chains, t, hm, hplaced, rfl⟩
      · simp [step, hm.search_eq fns k]
      · cases hsearch : search fns t k with
        | none =>
            apply Does.missing
            apply eqfn_eq_false_of_find hlaw hplaced
            exact Option.map_eq_none_iff.mp hsearch
        | some v =>
            obtain ⟨e, he, hk, rfl⟩ := exists_mem_of_search fns hsearch
            exact .found (mem_bag.mpr ⟨e, he, rfl⟩) hk
  | remove k =>
      obtain ⟨chains', m', hremove, hm'⟩ := hm.remove_eq fns k
      obtain ⟨hnone, hmiss⟩ | ⟨e, t', hsome, hk, hperm, hplaced'⟩ :=
        remove_cases hlaw hplaced k
      · rw [hnone] at hremove hm'
        exact ⟨.removed none, m', bag t, by simp [step, hremove], .nothing hmiss,
          chains', t, hm', hplaced, rfl⟩
      · rw [hsome] at hremove hm'
        refine ⟨.removed (some e.v), m', bag t', by simp [step, hremove], ?_,
          chains', t', hm', hplaced', rfl⟩
        rw [bag_of_perm_cons hperm]
        exact .removed hk
  | count =>
      refine ⟨.counted (bag t).card, m, bag t, ?_, .counted,
        chains, t, hm, hplaced, rfl⟩
      rw [bag, Multiset.coe_card, List.length_map, hm.entries, List.length_map,
        ← hm.counted]
      rfl

/-- A loop over the table comes by the pairs of the bag. -/
theorem sweep_serves {m : Memory A K V} {b : Multiset (K × V)}
    (h : Holds fns m b) (removes : ℕ → Bool) :
    ∃ a m' b', serve fns m (.sweep true removes) = some (a, m') ∧
      Serves fns.eqfn b (.sweep true removes : Request A K V) a b' ∧
      Holds fns m' b' := by
  obtain ⟨chains, t, hm, hplaced, rfl⟩ := h
  have hlen : (t.entries.map Entry.pair).length = m.entrycount := by
    rw [List.length_map, hm.entries, List.length_map, hm.counted]
  refine ⟨.swept (t.entries.map Entry.pair), ?_⟩
  by_cases hpos : 0 < m.entrycount
  · have hdecisions : (decisions removes m.entrycount).length = m.entrycount := by
      simp [decisions]
    obtain ⟨m', chains', t', hsweep, hm', hpruned, hflat⟩ :=
      hm.sweep hdecisions hpos
    refine ⟨m', _, by simp [serve, Memory.newIterator, hpos, hsweep], .swept,
      chains', t', hm', hplaced.pruned hpruned, ?_⟩
    rw [bag, hm'.entries, hflat, hlen, hm.entries, map_kept, map_kept]
  · have hnil : t.entries.map Entry.pair = [] := by
      rw [← List.length_eq_zero_iff, hlen]
      exact Nat.eq_zero_of_not_pos hpos
    have hswept : Serves fns.eqfn (bag t) (.sweep true removes : Request A K V)
        (.swept (t.entries.map Entry.pair)) _ := .swept
    refine ⟨m, _, by simp [serve, Memory.newIterator, hpos, hnil], hswept,
      chains, t, hm, hplaced, ?_⟩
    rw [bag, hnil, kept_nil]

/-- The request goes over to plan B. -/
def Request.PlanB (m : Memory A K V) : Request A K V → Prop
  | .op o => o.PlanB m
  | .sweep _ _ => False

/-- A request is answered as by the bag, or goes over to plan B. -/
theorem serve_serves (hlaw : fns.Lawful) {m : Memory A K V} {b : Multiset (K × V)}
    (h : Holds fns m b) (r : Request A K V) :
    r.PlanB m ∧ serve fns m r = none ∨
    ∃ a m' b', serve fns m r = some (a, m') ∧ Serves fns.eqfn b r a b' ∧
      Holds fns m' b' := by
  cases r with
  | op o =>
      by_cases hplan : o.PlanB m
      · exact .inl ⟨hplan, by simp [serve, step_of_planB hplan]⟩
      · obtain ⟨a, m', b', hs, hdoes, hholds⟩ := step_does hlaw h hplan
        exact .inr ⟨.answer a, m', b', by simp [serve, hs], .op hdoes, hholds⟩
  | sweep found removes =>
      cases found with
      | false => exact .inr ⟨.noIterator, m, b, rfl, .noIterator, h⟩
      | true => exact .inr (sweep_serves h removes)

omit [DecidableEq A] in
theorem Holds.entrycount {m : Memory A K V} {b : Multiset (K × V)}
    (h : Holds fns m b) : m.entrycount = b.card := by
  obtain ⟨chains, t, hm, -, rfl⟩ := h
  rw [bag, Multiset.coe_card, List.length_map, hm.entries, List.length_map,
    hm.counted]

end Runs

/-- Numbers are their own hash values, and memory is handed out from the start. -/
def numberFns : HashFns ℕ where
  hashfn k := UInt32.ofNat k
  eqfn k k' := k == k'
  loadlimit size := size * 65 / 100 + 1

theorem numberFns_lawful : numberFns.Lawful := by
  intro k k' h
  rw [beq_iff_eq.mp h]

/-- The second insertion finds no memory for its entry, the first loop none for
its iterator, and the second loop removes the pair. -/
def crowdedRun : List (Request Unit ℕ ℕ) :=
  [.op (.insert .malloc (oneCell ()) 7 1), .op (.insert .none (oneCell ()) 60 2),
    .op (.search 7), .sweep false fun _ => true, .sweep true fun _ => true,
    .op .count]

theorem create_numberFns : Memory.create numberFns true 20 =
    some (Memory.created numberFns 20 : Memory Unit ℕ ℕ) := rfl

/-- `struct mt_hashtable`. -/
structure MtHashtable (A K V : Type) where
  table : Memory A K V
  locked : Bool

/-- `mt_hashtable_insert`, `mt_hashtable_search`, `mt_hashtable_remove` and
`mt_hashtable_count`. A thread that finds the table locked for good waits and
has no answer. -/
def mtStep [DecidableEq A] (fns : HashFns K) (h : MtHashtable A K V)
    (o : Op A K V) : Option (Option (Answer V) × MtHashtable A K V) :=
  if h.locked then some (none, h)
  else (step fns h.table o).map fun r =>
    match r.1 with
    -- the return before the mutex is unlocked
    | .inserted false => (some (.inserted false), ⟨r.2, true⟩)
    | answer => (some answer, ⟨r.2, false⟩)

/-- What the threads that share a bag see. -/
inductive MtDoes (eqfn : K → K → Bool) :
    Multiset (K × V) × Bool → Op A K V → Option (Answer V) →
      Multiset (K × V) × Bool → Prop
  | answers {b b' : Multiset (K × V)} {o : Op A K V} {r : Answer V}
      (h : Does eqfn b o r b') (hr : r ≠ .inserted false) :
      MtDoes eqfn (b, false) o (some r) (b', false)
  | leaves {b b' : Multiset (K × V)} {o : Op A K V}
      (h : Does eqfn b o (.inserted false) b') :
      MtDoes eqfn (b, false) o (some (.inserted false)) (b', true)
  | waits {b : Multiset (K × V)} {o : Op A K V} :
      MtDoes eqfn (b, true) o none (b, true)

/-- The shared table holds the bag, and is locked for good or not. -/
def MtHolds (fns : HashFns K) (h : MtHashtable A K V)
    (b : Multiset (K × V) × Bool) : Prop :=
  Holds fns h.table b.1 ∧ h.locked = b.2

section Mt

variable [DecidableEq A] {fns : HashFns K}

/-- The operation of a thread that has the lock goes over to plan B. -/
def MtPlanB (h : MtHashtable A K V) (o : Op A K V) : Prop :=
  h.locked = false ∧ o.PlanB h.table

/-- An operation of a thread on the shared table. -/
theorem mtStep_does (hlaw : fns.Lawful) {h : MtHashtable A K V}
    {b : Multiset (K × V) × Bool} (hb : MtHolds fns h b) (o : Op A K V) :
    MtPlanB h o ∧ mtStep fns h o = none ∨
    ∃ r h' b', mtStep fns h o = some (r, h') ∧ MtDoes fns.eqfn b o r b' ∧
      MtHolds fns h' b' := by
  obtain ⟨m, locked⟩ := h
  obtain ⟨b, locked'⟩ := b
  obtain ⟨hm, rfl⟩ : Holds fns m b ∧ locked = locked' := hb
  cases locked with
  | true => exact .inr ⟨none, ⟨m, true⟩, (b, true), rfl, .waits, hm, rfl⟩
  | false =>
      by_cases hplan : o.PlanB m
      · exact .inl ⟨⟨rfl, hplan⟩, by simp [mtStep, step_of_planB hplan]⟩
      right
      obtain ⟨r, m', b', hs, hdoes, hholds⟩ := step_does hlaw hm hplan
      by_cases hr : r = .inserted false
      · subst hr
        exact ⟨some (.inserted false), ⟨m', true⟩, (b', true), by simp [mtStep, hs],
          .leaves hdoes, hholds, rfl⟩
      · refine ⟨some r, ⟨m', false⟩, (b', false), ?_, .answers hdoes hr, hholds, rfl⟩
        rcases r with ⟨_ | _⟩ | _ | _ | _
        · exact absurd rfl hr
        all_goals simp [mtStep, hs]

end Mt

/-- The second insertion finds no memory for its entry. -/
def crowdedOps : List (Op Unit ℕ ℕ) :=
  [.insert .malloc (oneCell ()) 7 1, .insert .malloc (oneCell ()) 60 2, .search 7]

end Hashtable

end Lwfs.Support
