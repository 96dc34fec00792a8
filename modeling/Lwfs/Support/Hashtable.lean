import Mathlib.Data.Nat.Init
import Mathlib.Tactic.Common
import Mathlib.Data.List.GetD

/-!
The chained hash table. It allows several entries under one key, and growing
the table reverses the order of the entries it moves, so which of them a
search finds depends on the history of the table. What holds whatever it finds: it
finds an entry of the table under an equal key (`exists_mem_of_search`), it
finds one if there is one under the key itself (`search_isSome_of_mem`), and
right after an insertion it finds the new entry (`search_insert`).

The bound on the load is a product of floating-point numbers in the source
and a parameter here.
-/

namespace Lwfs.Support

/-- What `create_hashtable` is given for good, and `ceil(size *
max_load_factor)`. -/
structure HashFns (K : Type) where
  hashfn : K → UInt32
  eqfn : K → K → Bool
  loadlimit : ℕ → ℕ

/-- `struct entry`. -/
structure Entry (K V : Type) where
  h : UInt32
  k : K
  v : V

/-- `struct hashtable`. The buckets are lists, the newest entry first. -/
structure Hashtable (K V : Type) where
  table : List (List (Entry K V))
  primeindex : ℕ
  entrycount : ℕ
  loadlimit : ℕ
  tablelength_pos : 0 < table.length

/-- The sizes a table can have. -/
def primes : List ℕ :=
  [53, 97, 193, 389, 769, 1543, 3079, 6151, 12289, 24593, 49157, 98317,
    196613, 393241, 786433, 1572869, 3145739, 6291469, 12582917, 25165843,
    50331653, 100663319, 201326611, 402653189, 805306457, 1610612741]

def indexFor (tablelength : ℕ) (hashvalue : UInt32) : ℕ :=
  hashvalue.toNat % tablelength

theorem indexFor_lt {tablelength : ℕ} (h : 0 < tablelength)
    (hashvalue : UInt32) : indexFor tablelength hashvalue < tablelength :=
  Nat.mod_lt _ h

namespace Hashtable

variable {K V : Type} (fns : HashFns K)

def hash (k : K) : UInt32 :=
  let i := fns.hashfn k
  let i := i + ~~~(i <<< 9)
  let i := i ^^^ (i >>> 14 ||| i <<< 18)
  let i := i + (i <<< 4)
  i ^^^ (i >>> 10 ||| i <<< 22)

/-- The size that the loop of `create_hashtable` settles on. -/
def initialSize (minsize : ℕ) : ℕ :=
  (primes.find? fun p => minsize < p).getD 53

theorem initialSize_pos (minsize : ℕ) : 0 < initialSize minsize := by
  have hprimes : ∀ p ∈ primes, 0 < p := by decide
  unfold initialSize
  cases hfind : primes.find? fun p => minsize < p with
  | none => decide
  | some p => exact hprimes p (List.mem_of_find?_eq_some hfind)

/-- `create_hashtable`. -/
def create (minsize : ℕ) : Hashtable K V where
  table := List.replicate (initialSize minsize) []
  primeindex := primes.findIdx fun p => minsize < p
  entrycount := 0
  loadlimit := fns.loadlimit (initialSize minsize)
  tablelength_pos := by
    rw [List.length_replicate]
    exact initialSize_pos minsize

/-- Puts an entry at the front of the bucket its hash value selects. -/
def push (table : List (List (Entry K V))) (e : Entry K V) :
    List (List (Entry K V)) :=
  table.modify (indexFor table.length e.h) (e :: ·)

@[simp] theorem length_push (table : List (List (Entry K V)))
    (e : Entry K V) : (push table e).length = table.length :=
  List.length_modify _ _ _

@[simp] theorem length_foldl_push (entries : List (Entry K V))
    (table : List (List (Entry K V))) :
    (entries.foldl push table).length = table.length := by
  induction entries generalizing table with
  | nil => rfl
  | cons e entries ih => rw [List.foldl_cons, ih, length_push]

/-- `hashtable_expand`: the entries move to a table of the next size, bucket
after bucket, each from its front. A table of the largest size stays. -/
def expand (t : Hashtable K V) : Hashtable K V :=
  if h : t.primeindex + 1 < primes.length then
    let newsize := primes.get ⟨t.primeindex + 1, h⟩
    { table := t.table.flatten.foldl push (List.replicate newsize [])
      primeindex := t.primeindex + 1
      entrycount := t.entrycount
      loadlimit := fns.loadlimit newsize
      tablelength_pos := by
        have hprimes : ∀ p ∈ primes, 0 < p := by decide
        rw [length_foldl_push, List.length_replicate]
        exact hprimes _ (List.get_mem _ _) }
  else t

/-- `hashtable_insert`. -/
def insert (t : Hashtable K V) (k : K) (v : V) : Hashtable K V :=
  let t := { t with entrycount := t.entrycount + 1 }
  let t := if t.loadlimit < t.entrycount then expand fns t else t
  { t with
    table := push t.table ⟨hash fns k, k, v⟩
    tablelength_pos := by
      rw [length_push]
      exact t.tablelength_pos }

/-- `hashtable_search`. The hash values are compared before the keys. -/
def search (t : Hashtable K V) (k : K) : Option V :=
  ((t.table.getD (indexFor t.table.length (hash fns k)) []).find? fun e =>
    hash fns k == e.h && fns.eqfn k e.k).map Entry.v

/-- The entries of the table. -/
def entries (t : Hashtable K V) : List (Entry K V) := t.table.flatten

/-! ### The entries of a table -/

@[simp] theorem entries_create (minsize : ℕ) :
    entries (create fns minsize : Hashtable K V) = [] := by
  simp [entries, create]

theorem mem_flatten_push {table : List (List (Entry K V))}
    {e e' : Entry K V} (h : e' ∈ (push table e).flatten) :
    e' = e ∨ e' ∈ table.flatten := by
  obtain ⟨bucket, hbucket, he'⟩ := List.mem_flatten.mp h
  obtain ⟨i, hi, hget⟩ := List.getElem_of_mem hbucket
  have hi' : i < table.length := by rwa [length_push] at hi
  have hold : table[i] ∈ table := List.getElem_mem hi'
  simp only [push, List.getElem_modify] at hget
  split at hget
  · subst hget
    rcases List.mem_cons.mp he' with rfl | he'
    · exact .inl rfl
    · exact .inr (List.mem_flatten.mpr ⟨_, hold, he'⟩)
  · subst hget
    exact .inr (List.mem_flatten.mpr ⟨_, hold, he'⟩)

theorem mem_flatten_foldl_push {moved : List (Entry K V)}
    {table : List (List (Entry K V))} {e : Entry K V}
    (h : e ∈ (moved.foldl push table).flatten) :
    e ∈ moved ∨ e ∈ table.flatten := by
  induction moved generalizing table with
  | nil => exact .inr h
  | cons m moved ih =>
      rcases ih h with hmoved | htable
      · exact .inl (List.mem_cons_of_mem _ hmoved)
      · rcases mem_flatten_push htable with rfl | htable
        · exact .inl List.mem_cons_self
        · exact .inr htable

theorem mem_entries_of_expand {t : Hashtable K V} {e : Entry K V}
    (h : e ∈ (expand fns t).entries) : e ∈ t.entries := by
  unfold expand at h
  split at h
  · rcases mem_flatten_foldl_push h with hmoved | hempty
    · exact hmoved
    · simp at hempty
  · exact h

/-- An insertion adds one entry and no other. -/
theorem mem_entries_of_insert {t : Hashtable K V} {k : K} {v : V}
    {e : Entry K V} (h : e ∈ (insert fns t k v).entries) :
    e = ⟨hash fns k, k, v⟩ ∨ e ∈ t.entries := by
  rcases mem_flatten_push h with he | hold
  · exact .inl he
  · split at hold
    · have hmoved := mem_entries_of_expand fns hold
      exact .inr hmoved
    · exact .inr hold

/-! ### The entries as a whole -/

theorem flatten_push_perm {table : List (List (Entry K V))}
    (hpos : 0 < table.length) (e : Entry K V) :
    (push table e).flatten.Perm (e :: table.flatten) := by
  have hlt := indexFor_lt hpos e.h
  have hsplit := List.take_append_drop (indexFor table.length e.h) table
  rw [List.drop_eq_getElem_cons hlt] at hsplit
  rw [push, List.modify_eq_take_cons_drop hlt, List.flatten_append,
    List.flatten_cons, List.cons_append]
  conv_rhs => rw [← hsplit, List.flatten_append, List.flatten_cons]
  exact List.perm_middle

theorem flatten_foldl_push_perm {table : List (List (Entry K V))}
    (hpos : 0 < table.length) (moved : List (Entry K V)) :
    (moved.foldl push table).flatten.Perm (moved ++ table.flatten) := by
  induction moved generalizing table with
  | nil => exact List.Perm.refl _
  | cons e moved ih =>
      have hpos' : 0 < (push table e).length := by
        rw [length_push]
        exact hpos
      have hpush := (flatten_push_perm hpos e).append_left moved
      exact ((ih hpos').trans hpush).trans List.perm_middle

theorem entries_expand_perm (t : Hashtable K V) :
    (expand fns t).entries.Perm t.entries := by
  unfold expand
  split
  · next h =>
    have hprimes : ∀ p ∈ primes, 0 < p := by decide
    have hpos : 0 < (List.replicate (primes.get ⟨t.primeindex + 1, h⟩)
        ([] : List (Entry K V))).length := by
      rw [List.length_replicate]
      exact hprimes _ (List.get_mem _ _)
    have hperm := flatten_foldl_push_perm hpos t.table.flatten
    simpa [entries] using hperm
  · exact List.Perm.refl _

/-- An insertion adds one entry, and none gets lost. -/
theorem entries_insert_perm (t : Hashtable K V) (k : K) (v : V) :
    (insert fns t k v).entries.Perm (⟨hash fns k, k, v⟩ :: t.entries) := by
  simp only [insert, entries]
  split
  · have hexpand := entries_expand_perm fns
      { t with entrycount := t.entrycount + 1 }
    exact (flatten_push_perm (expand fns _).tablelength_pos _).trans
      (hexpand.cons _)
  · exact flatten_push_perm t.tablelength_pos _

/-! ### Searching -/

/-- A search finds an entry of the table under an equal key. -/
theorem exists_mem_of_search {t : Hashtable K V} {k : K} {v : V}
    (h : search fns t k = some v) :
    ∃ e ∈ t.entries, fns.eqfn k e.k = true ∧ e.v = v := by
  obtain ⟨e, hfind, hv⟩ := Option.map_eq_some_iff.mp h
  have hbucket := List.mem_of_find?_eq_some hfind
  have htest := List.find?_some hfind
  rw [Bool.and_eq_true] at htest
  rw [List.getD_eq_getElem _ _ (indexFor_lt t.tablelength_pos _)] at hbucket
  exact ⟨e, List.mem_flatten.mpr ⟨_, List.getElem_mem _, hbucket⟩,
    htest.2, hv⟩

/-- Right after an insertion a search for its key finds its value. -/
theorem search_insert (t : Hashtable K V) {k : K} (v : V)
    (hk : fns.eqfn k k = true) :
    search fns (insert fns t k v) k = some v := by
  simp only [search, insert, length_push]
  generalize hgrown : (if t.loadlimit < t.entrycount + 1 then
    expand fns { t with entrycount := t.entrycount + 1 }
    else { t with entrycount := t.entrycount + 1 }) = t'
  have hlt : indexFor t'.table.length (hash fns k) < (push t'.table
      ⟨hash fns k, k, v⟩).length := by
    rw [length_push]
    exact indexFor_lt t'.tablelength_pos _
  rw [List.getD_eq_getElem _ _ hlt]
  simp [push, hk]

@[simp] theorem search_create (minsize : ℕ) (k : K) :
    search fns (create fns minsize : Hashtable K V) k = none := by
  cases h : search fns (create fns minsize : Hashtable K V) k with
  | none => rfl
  | some v =>
      obtain ⟨e, he, -⟩ := exists_mem_of_search fns h
      simp at he

/-! ### The entries stand where a search looks -/

/-- Each entry of a bucket has the hash value of its key, and that value
selects the bucket. -/
def Placed (table : List (List (Entry K V))) : Prop :=
  ∀ i (h : i < table.length), ∀ e ∈ table[i],
    e.h = hash fns e.k ∧ indexFor table.length e.h = i

theorem placed_replicate (n : ℕ) :
    Placed fns (List.replicate n ([] : List (Entry K V))) := by
  intro i h e he
  simp at he

theorem Placed.push {table : List (List (Entry K V))}
    (h : Placed fns table) {e : Entry K V} (he : e.h = hash fns e.k) :
    Placed fns (push table e) := by
  intro i hi e' he'
  rw [length_push] at hi ⊢
  simp only [Hashtable.push, List.getElem_modify] at he'
  split at he'
  · rename_i hindex
    rcases List.mem_cons.mp he' with rfl | hold
    · exact ⟨he, hindex⟩
    · exact h i hi e' hold
  · exact h i hi e' he'

theorem Placed.foldl_push {moved : List (Entry K V)}
    {table : List (List (Entry K V))} (h : Placed fns table)
    (hmoved : ∀ e ∈ moved, e.h = hash fns e.k) :
    Placed fns (moved.foldl Hashtable.push table) := by
  induction moved generalizing table with
  | nil => exact h
  | cons m moved ih =>
      rw [List.forall_mem_cons] at hmoved
      exact ih (h.push fns hmoved.1) hmoved.2

theorem Placed.h_eq {t : Hashtable K V} (h : Placed fns t.table)
    {e : Entry K V} (he : e ∈ t.entries) : e.h = hash fns e.k := by
  obtain ⟨bucket, hbucket, he⟩ := List.mem_flatten.mp he
  obtain ⟨i, hi, rfl⟩ := List.getElem_of_mem hbucket
  exact (h i hi e he).1

theorem placed_create (minsize : ℕ) :
    Placed fns (create fns minsize : Hashtable K V).table :=
  placed_replicate fns _

theorem Placed.expand {t : Hashtable K V} (h : Placed fns t.table) :
    Placed fns (expand fns t).table := by
  unfold Hashtable.expand
  split
  · exact (placed_replicate fns _).foldl_push fns fun e he => h.h_eq fns he
  · exact h

theorem Placed.insert {t : Hashtable K V} (h : Placed fns t.table) (k : K)
    (v : V) : Placed fns (insert fns t k v).table := by
  simp only [Hashtable.insert]
  split
  · have hgrown := Placed.expand fns
      (t := { t with entrycount := t.entrycount + 1 }) h
    exact hgrown.push fns rfl
  · exact h.push fns rfl

/-- A search finds something under the key of any entry of the table. -/
theorem search_isSome_of_mem {t : Hashtable K V} (h : Placed fns t.table)
    {e : Entry K V} (he : e ∈ t.entries) (hk : fns.eqfn e.k e.k = true) :
    (search fns t e.k).isSome := by
  obtain ⟨bucket, hbucket, hmem⟩ := List.mem_flatten.mp he
  obtain ⟨i, hi, rfl⟩ := List.getElem_of_mem hbucket
  obtain ⟨hhash, hindex⟩ := h i hi e hmem
  rw [search, Option.isSome_map, ← hhash, hindex,
    List.getD_eq_getElem _ _ hi, List.find?_isSome]
  exact ⟨e, hmem, by simp [hk]⟩

/-- A search with a key that is equal to the key of an entry and has its hash
value finds the entry, if the keys of other entries are not equal to it. -/
theorem search_eq_some {t : Hashtable K V} (h : Placed fns t.table)
    {e : Entry K V} (he : e ∈ t.entries) {k : K}
    (hk : fns.eqfn k e.k = true) (hhash : hash fns k = hash fns e.k)
    (hother : ∀ e' ∈ t.entries, fns.eqfn k e'.k = true → e'.v = e.v) :
    search fns t k = some e.v := by
  obtain ⟨bucket, hbucket, hmem⟩ := List.mem_flatten.mp he
  obtain ⟨i, hi, rfl⟩ := List.getElem_of_mem hbucket
  obtain ⟨heh, hindex⟩ := h i hi e hmem
  have hsome : (search fns t k).isSome := by
    rw [search, Option.isSome_map, hhash, ← heh, hindex,
      List.getD_eq_getElem _ _ hi, List.find?_isSome]
    exact ⟨e, hmem, by simp [hk]⟩
  obtain ⟨v, hv⟩ := Option.isSome_iff_exists.mp hsome
  obtain ⟨e', he', hk', rfl⟩ := exists_mem_of_search fns hv
  rw [hv, hother e' he' hk']

/-- The hash value of the table depends on what the hash function says. -/
theorem hash_congr {k k' : K} (h : fns.hashfn k = fns.hashfn k') :
    hash fns k = hash fns k' := by
  simp only [hash, h]

end Hashtable

end Lwfs.Support
