import Lwfs.Lib.Allocator
import Lwfs.Lib.Chains
import Lwfs.Support.Hashtable

/-!
The hash table in memory: an array of pointers to entries that are allocated
and freed one by one.

`Hashtable` takes the bucket of a table for a list. Here it is what the source
has, a chain of entries in memory, and a program that follows a null pointer
or one to freed memory, or goes round in a circle, has no result. `Represents`
relates the two. Every operation on the memory does what the one on the lists
does, and it has a result: it never follows a bad pointer, frees an entry
twice or loops for ever (`Represents.insert_eq`, `Represents.search_eq`,
`Represents.remove_eq`). The exception is the plan B of `hashtable_expand`, for
a table that has to grow when only `realloc` finds memory: it clears memory
through a pointer that it has not set (`insert_of_planB`).
-/

namespace Lwfs.Support

open SysLib LinkedList

namespace Hashtable

variable {A K V : Type} (fns : HashFns K)

/-! ### Removal, on lists -/

/-- An entry that a search for the key stops at. -/
def stopsAt (k : K) (e : Entry K V) : Bool :=
  hash fns k == e.h && fns.eqfn k e.k

/-- The table with one entry less, after which a bucket is as given. -/
def takeOut (t : Hashtable K V) (index : ℕ) (bucket : List (Entry K V)) :
    Hashtable K V :=
  { t with
    table := t.table.set index bucket
    entrycount := t.entrycount - 1
    tablelength_pos := by
      rw [List.length_set]
      exact t.tablelength_pos }

/-- `hashtable_remove`. -/
def remove (t : Hashtable K V) (k : K) : Option V × Hashtable K V :=
  let index := indexFor t.table.length (hash fns k)
  let bucket := t.table.getD index []
  match bucket.find? (stopsAt fns k) with
  | none => (none, t)
  | some e => (some e.v, t.takeOut index (bucket.eraseP (stopsAt fns k)))

theorem remove_of_none {t : Hashtable K V} {k : K}
    (h : (t.table.getD (indexFor t.table.length (hash fns k)) []).find?
      (stopsAt fns k) = none) : remove fns t k = (none, t) := by
  simp only [remove, h]

theorem remove_of_some {t : Hashtable K V} {k : K} {e : Entry K V}
    (h : (t.table.getD (indexFor t.table.length (hash fns k)) []).find?
      (stopsAt fns k) = some e) :
    remove fns t k = (some e.v, t.takeOut (indexFor t.table.length (hash fns k))
      ((t.table.getD (indexFor t.table.length (hash fns k)) []).eraseP
        (stopsAt fns k))) := by
  simp only [remove, h]

/-! ### Insertion, on lists, with the memory it finds -/

/-- Where `hashtable_expand` finds memory for a larger table: `malloc` has it,
or only `realloc` has, or neither. -/
inductive TableMemory
  | malloc
  | realloc
  | none
  deriving DecidableEq

/-- The table with room for one more entry, if it can grow. -/
def grow (found : TableMemory) (t : Hashtable K V) : Hashtable K V :=
  let t := { t with entrycount := t.entrycount + 1 }
  if t.loadlimit < t.entrycount ∧ found = .malloc then expand fns t else t

/-- The table with the entry for a key at the front of its bucket. -/
def cram (t : Hashtable K V) (k : K) (v : V) : Hashtable K V :=
  { t with
    table := push t.table ⟨hash fns k, k, v⟩
    tablelength_pos := by
      rw [length_push]
      exact t.tablelength_pos }

/-- Where there is memory, this is `insert`. -/
theorem cram_grow (t : Hashtable K V) (k : K) (v : V) :
    cram fns (grow fns .malloc t) k v = insert fns t k v := by
  simp only [grow, and_true]
  rfl

/-! ### The table in memory -/

/-- `struct hashtable`, with the entries that are allocated. -/
structure Memory (A K V : Type) where
  table : List (Option A)
  primeindex : ℕ
  entrycount : ℕ
  loadlimit : ℕ
  store : Store A (Entry K V)

/-- Where a loop over a bucket stops: the entry and the one before it. -/
structure Place (A K V : Type) where
  parent : Option A
  e : A
  node : Node A (Entry K V)

namespace Memory

/-- The table that `create_hashtable` makes. -/
def created (minsize : ℕ) : Memory A K V where
  table := List.replicate (initialSize minsize) none
  primeindex := primes.findIdx fun p => minsize < p
  entrycount := 0
  loadlimit := fns.loadlimit (initialSize minsize)
  store := fun _ => none

/-- `create_hashtable`, which may find no memory for the table. -/
def create (found : Bool) (minsize : ℕ) : Option (Memory A K V) :=
  if 1073741824 < minsize then none
  else if found then some (created fns minsize)
  else none

/-- The loop over a bucket, from the entry `e` behind `parent`. It makes at
most as many turns as the table counts entries. -/
def findFrom (store : Store A (Entry K V)) (k : K) :
    ℕ → Option A → Option A → Option (Option (Place A K V))
  | _, _, none => some none
  | 0, _, some _ => none
  | n + 1, parent, some e => (store e).bind fun node =>
      if stopsAt fns k node.value then some (some ⟨parent, e, node⟩)
      else findFrom store k n (some e) node.next

def find (m : Memory A K V) (k : K) : Option (Option (Place A K V)) :=
  findFrom fns m.store k m.entrycount none
    (m.table.getD (indexFor m.table.length (hash fns k)) none)

/-- `hashtable_search`. -/
def search (m : Memory A K V) (k : K) : Option (Option V) :=
  (m.find fns k).map fun place => place.map fun p => p.node.value.v

section Update

variable [DecidableEq A]

/-- The entry behind `parent`, or the first one of the bucket, is taken out of
the bucket. -/
def unlink (m : Memory A K V) (index : ℕ) (parent next : Option A) :
    Option (Memory A K V) :=
  match parent with
  | none => some { m with table := m.table.set index next }
  | some p => (m.store p).map fun node =>
      { m with store := Function.update m.store p (some { node with next }) }

/-- `free`, of an entry that is allocated. -/
def free (m : Memory A K V) (e : A) : Option (Memory A K V) :=
  (m.store e).map fun _ =>
    { m with store := Function.update m.store e none }

/-- `hashtable_remove`. -/
def remove (m : Memory A K V) (k : K) : Option (Option V × Memory A K V) := do
  match ← m.find fns k with
  | none => some (none, m)
  | some place =>
      let m ← m.unlink (indexFor m.table.length (hash fns k)) place.parent
        place.node.next
      let m ← free { m with entrycount := m.entrycount - 1 } place.e
      some (some place.node.value.v, m)

/-- The inner loop of `hashtable_expand`: the entries of one bucket move to
the new table, each to the front of its new bucket. -/
def moveChain (newsize : ℕ) :
    ℕ → Option A → List (Option A) × Store A (Entry K V) →
      Option (List (Option A) × Store A (Entry K V))
  | _, none, moved => some moved
  | 0, some _, _ => none
  | n + 1, some e, (newtable, store) => (store e).bind fun node =>
      let index := indexFor newsize node.value.h
      moveChain newsize n node.next
        (newtable.set index (some e),
          Function.update store e
            (some { node with next := newtable.getD index none }))

/-- `hashtable_expand`. -/
def expand (found : TableMemory) (m : Memory A K V) : Option (Memory A K V) :=
  if h : m.primeindex + 1 < primes.length then
    let newsize := primes.get ⟨m.primeindex + 1, h⟩
    match found with
    | .malloc =>
        (m.table.foldlM (fun moved first =>
            moveChain newsize m.entrycount first moved)
          (List.replicate newsize none, m.store)).map fun moved =>
            { m with
              table := moved.1
              primeindex := m.primeindex + 1
              loadlimit := fns.loadlimit newsize
              store := moved.2 }
    -- plan B clears what the first of the new pointers, not yet set, points to
    | .realloc => none
    | .none => some m
  else some m

/-- The first lines of `hashtable_insert`, which count the new entry. That the
table has not grown is no failure. -/
def grow (found : TableMemory) (m : Memory A K V) : Option (Memory A K V) :=
  let m := { m with entrycount := m.entrycount + 1 }
  if m.loadlimit < m.entrycount then m.expand fns found else some m

/-- `hashtable_insert`. Without memory for the entry the count is taken back,
but a table that has grown stays so. -/
def insert (found : TableMemory) (alloc : Allocator A (Node A (Entry K V)))
    (m : Memory A K V) (k : K) (v : V) : Option (Bool × Memory A K V) := do
  let m ← m.grow fns found
  match alloc.malloc m.store with
  | none => some (false, { m with entrycount := m.entrycount - 1 })
  | some e =>
      let h := hash fns k
      let index := indexFor m.table.length h
      some (true,
        { m with
          table := m.table.set index (some e)
          store := Function.update m.store e
            (some ⟨⟨h, k, v⟩, m.table.getD index none⟩) })

end Update

end Memory

/-! ### What the memory represents -/

/-- The table in memory has these chains of entries, which are the buckets of
the table `t`. -/
structure Shaped (chains : List (List (A × Entry K V))) (m : Memory A K V)
    (t : Hashtable K V) : Prop where
  chained : Chained m.store m.table chains
  table : t.table = chains.map (List.map Prod.snd)
  primeindex : m.primeindex = t.primeindex
  entrycount : m.entrycount = t.entrycount
  loadlimit : m.loadlimit = t.loadlimit

/-- It counts its entries, too, and no other memory is allocated for it. -/
structure Represents (chains : List (List (A × Entry K V))) (m : Memory A K V)
    (t : Hashtable K V) : Prop extends Shaped chains m t where
  counted : m.entrycount = chains.flatten.length
  owned : ∀ c, m.store c ≠ none → c ∈ chains.flatten.map Prod.fst

theorem Shaped.length_eq {chains : List (List (A × Entry K V))}
    {m : Memory A K V} {t : Hashtable K V} (h : Shaped chains m t) :
    m.table.length = t.table.length := by
  rw [h.table, List.length_map]
  exact h.chained.length

namespace Represents

variable {fns} {chains : List (List (A × Entry K V))} {m : Memory A K V}
  {t : Hashtable K V}

theorem entries (h : Represents chains m t) :
    t.entries = chains.flatten.map Prod.snd := by
  rw [Hashtable.entries, h.table, List.map_flatten]

theorem index_lt (h : Represents chains m t) (k : K) :
    indexFor m.table.length (hash fns k) < chains.length := by
  rw [← h.chained.length]
  exact indexFor_lt (h.length_eq ▸ t.tablelength_pos) _

theorem getD (h : Represents chains m t) {i : ℕ} (hi : i < chains.length) :
    t.table.getD i [] = chains[i].map Prod.snd := by
  rw [h.table, List.getD_eq_getElem _ _ (by simpa using hi), List.getElem_map]

theorem length_le (h : Represents chains m t) {i : ℕ} (hi : i < chains.length) :
    chains[i].length ≤ m.entrycount := by
  rw [h.counted]
  exact (List.sublist_flatten_of_mem (List.getElem_mem hi)).length_le

end Represents

/-! ### The loop over a bucket -/

section Find

variable {fns} {store : Store A (Entry K V)} {k : K}

/-- The pointer to the entry before a place. -/
def before (parent : Option A) : List (A × Entry K V) → Option A
  | [] => parent
  | p :: pre => before (some p.1) pre

@[simp] theorem before_nil (parent : Option A) :
    before parent ([] : List (A × Entry K V)) = parent := rfl

@[simp] theorem before_cons (parent : Option A) (p : A × Entry K V)
    (pre : List (A × Entry K V)) :
    before parent (p :: pre) = before (some p.1) pre := rfl

@[simp] theorem before_snoc (parent : Option A) (p : A × Entry K V)
    (pre : List (A × Entry K V)) : before parent (pre ++ [p]) = some p.1 := by
  induction pre generalizing parent with
  | nil => rfl
  | cons q pre ih => exact ih _

theorem findFrom_none {l : List (A × Entry K V)} {first parent : Option A}
    {n : ℕ} (h : Linked store first l) (hn : l.length ≤ n)
    (hnone : ∀ p ∈ l, stopsAt fns k p.2 = false) :
    Memory.findFrom fns store k n parent first = some none := by
  induction h generalizing parent n with
  | nil => cases n <;> rfl
  | cons read rest ih =>
      rw [List.forall_mem_cons] at hnone
      cases n with
      | zero => cases hn
      | succ n =>
          simp only [Memory.findFrom, read, Option.bind_some, hnone.1,
            Bool.false_eq_true, if_false]
          exact ih (Nat.le_of_succ_le_succ hn) hnone.2

theorem findFrom_some {pre post : List (A × Entry K V)} {a : A} {e : Entry K V}
    {first parent next : Option A} {n : ℕ}
    (h : Linked store first (pre ++ (a, e) :: post))
    (hn : (pre ++ (a, e) :: post).length ≤ n)
    (hpre : ∀ p ∈ pre, stopsAt fns k p.2 = false)
    (he : stopsAt fns k e = true) (ha : store a = some ⟨e, next⟩) :
    Memory.findFrom fns store k n parent first =
      some (some ⟨before parent pre, a, ⟨e, next⟩⟩) := by
  induction pre generalizing first parent n with
  | nil =>
      obtain ⟨rfl, next', ha', -⟩ := linked_cons_iff.mp h
      cases n with
      | zero => cases hn
      | succ n =>
          simp [Memory.findFrom, ha, he]
  | cons p pre ih =>
      obtain ⟨c, u⟩ := p
      obtain ⟨rfl, next', hc, hrest⟩ := linked_cons_iff.mp h
      rw [List.forall_mem_cons] at hpre
      cases n with
      | zero => cases hn
      | succ n =>
          simp only [Memory.findFrom, hc, Option.bind_some, hpre.1,
            Bool.false_eq_true, if_false, before_cons]
          exact ih hrest (Nat.le_of_succ_le_succ hn) hpre.2

/-- Where a search stops, in a list. -/
theorem exists_split_of_find? {α : Type} {p : α → Bool} {l : List α} {a : α}
    (h : l.find? p = some a) :
    ∃ pre post, l = pre ++ a :: post ∧ (∀ b ∈ pre, p b = false) ∧ p a = true := by
  obtain ⟨ha, pre, post, rfl, hpre⟩ := List.find?_eq_some_iff_append.mp h
  exact ⟨pre, post, rfl, fun b hb => by simpa using hpre b hb, ha⟩

end Find

namespace Represents

variable {fns} {chains : List (List (A × Entry K V))} {m : Memory A K V}
  {t : Hashtable K V}

/-- What a search in memory finds: nothing, or the first entry that a search
in the list stops at. -/
theorem find_cases (h : Represents chains m t) (k : K) {i : ℕ}
    (hindex : indexFor m.table.length (hash fns k) = i) :
    (m.find fns k = some none ∧
        (t.table.getD i []).find? (stopsAt fns k) = none) ∨
      ∃ (hi : i < chains.length) (pre post : List (A × Entry K V)) (a : A)
        (e : Entry K V) (next : Option A),
        chains[i] = pre ++ (a, e) :: post ∧
          (∀ p ∈ pre, stopsAt fns k p.2 = false) ∧ stopsAt fns k e = true ∧
          m.store a = some ⟨e, next⟩ ∧
          m.find fns k = some (some ⟨before none pre, a, ⟨e, next⟩⟩) ∧
          (t.table.getD i []).find? (stopsAt fns k) = some e := by
  have hi : i < chains.length := hindex ▸ h.index_lt k
  have hfind : m.find fns k = Memory.findFrom fns m.store k m.entrycount none
      (m.table.getD i none) := by
    rw [Memory.find, hindex]
  rw [hfind]
  have hlinked := h.chained.getD hi
  have hlen := h.length_le hi
  have hlist : (t.table.getD i []).find? (stopsAt fns k) =
      (chains[i].find? fun p => stopsAt fns k p.2).map Prod.snd := by
    rw [h.getD hi, List.find?_map]
    rfl
  cases hfind : chains[i].find? fun p => stopsAt fns k p.2 with
  | none =>
      left
      rw [List.find?_eq_none] at hfind
      refine ⟨findFrom_none hlinked hlen fun p hp => ?_, ?_⟩
      · simpa using hfind p hp
      · rw [hlist, List.find?_eq_none.mpr hfind]
        rfl
  | some p =>
      right
      obtain ⟨a, e⟩ := p
      obtain ⟨pre, post, hchain, hpre, he⟩ := exists_split_of_find? hfind
      rw [hchain] at hlinked hlen
      obtain ⟨next, ha, -⟩ := hlinked.drop
      refine ⟨hi, pre, post, a, e, next, hchain, hpre, he, ha,
        findFrom_some hlinked hlen hpre he ha, ?_⟩
      rw [hlist, hfind]
      rfl

variable (fns) in
/-- A search in memory returns what the search in the lists does. -/
theorem search_eq (h : Represents chains m t) (k : K) :
    m.search fns k = some (Hashtable.search fns t k) := by
  have hsearch : Hashtable.search fns t k =
      ((t.table.getD (indexFor m.table.length (hash fns k)) []).find?
        (stopsAt fns k)).map Entry.v := by
    rw [h.length_eq]
    rfl
  generalize hindex : indexFor m.table.length (hash fns k) = i at hsearch
  obtain ⟨hfind, hlist⟩ | ⟨_, _, _, a, e, next, -, -, -, -, hfind, hlist⟩ :=
    h.find_cases k hindex
  · rw [hsearch, hlist, Memory.search, hfind]
    rfl
  · rw [hsearch, hlist, Memory.search, hfind]
    rfl

end Represents

/-! ### Taking an entry out -/

section Unlink

variable [DecidableEq A] {chains : List (List (A × Entry K V))}
  {m : Memory A K V} {i : ℕ} {pre post : List (A × Entry K V)} {a : A}
  {e : Entry K V} {next : Option A}

/-- The entry is out of its chain, and it is still allocated. -/
theorem unlink_of_split (h : Chained m.store m.table chains)
    (hi : i < chains.length) (hchain : chains[i] = pre ++ (a, e) :: post)
    (ha : m.store a = some ⟨e, next⟩) :
    ∃ table store, m.unlink i (before none pre) next =
        some { m with table, store } ∧
      Chained store table (chains.set i (pre ++ post)) ∧
      store a = some ⟨e, next⟩ ∧ ∀ c, store c = none ↔ m.store c = none := by
  obtain rfl | ⟨pre, ⟨b, w⟩, rfl⟩ := List.eq_nil_or_concat pre
  · exact ⟨m.table.set i next, m.store, rfl, h.pop hi hchain ha, ha, fun _ => Iff.rfl⟩
  · rw [List.concat_eq_append, List.append_assoc] at hchain
    have hb : (b, w) ∈ chains.flatten := by
      refine List.mem_flatten_of_mem (List.getElem_mem hi) ?_
      rw [hchain]
      simp
    obtain ⟨next', hread⟩ := h.read hb
    have hab : a ≠ b := by
      rintro rfl
      have hlinked := h.getD hi
      rw [hchain] at hlinked
      have hnot := hlinked.notMem_of_append
      simp at hnot
    refine ⟨m.table, Function.update m.store b (some ⟨w, next⟩), ?_, ?_, ?_, ?_⟩
    · simp [Memory.unlink, hread]
    · rw [List.concat_eq_append, List.append_assoc]
      exact h.bypass hi hchain ha
    · rw [Function.update_of_ne hab, ha]
    · intro c
      rcases eq_or_ne c b with rfl | hne
      · simp [hread]
      · rw [Function.update_of_ne hne]

/-- The entry is taken out, and then it is freed. -/
theorem Represents.takeOut {t : Hashtable K V} (h : Represents chains m t)
    (hi : i < chains.length) (hchain : chains[i] = pre ++ (a, e) :: post)
    (ha : m.store a = some ⟨e, next⟩) :
    ∃ table store, m.unlink i (before none pre) next =
        some { m with table, store } ∧
      Chained store table (chains.set i (pre ++ post)) ∧
      store a = some ⟨e, next⟩ ∧
      Represents (chains.set i (pre ++ post))
        { m with
          table
          entrycount := m.entrycount - 1
          store := Function.update store a none }
        (t.takeOut i ((pre ++ post).map Prod.snd)) := by
  obtain ⟨table, store, hunlink, hchained, ha', hsame⟩ :=
    unlink_of_split h.chained hi hchain ha
  have hperm := flatten_perm_of_split hi hchain
  refine ⟨table, store, hunlink, hchained, ha',
    ⟨hchained.update (h.chained.notMem_of_split hi hchain) none, ?_,
      h.primeindex, ?_, h.loadlimit⟩, ?_, fun c hc => ?_⟩
  · simp only [Hashtable.takeOut, h.table, List.map_set]
  · simp only [Hashtable.takeOut, h.entrycount]
  · simp only [h.counted, hperm.length_eq, List.length_cons, Nat.add_sub_cancel]
  · change Function.update store a none c ≠ none at hc
    rcases eq_or_ne c a with rfl | hne
    · rw [Function.update_self] at hc
      exact absurd rfl hc
    · rw [Function.update_of_ne hne, ne_eq, hsame] at hc
      have hmem := (hperm.map Prod.fst).mem_iff.mp (h.owned c hc)
      exact (List.mem_cons.mp hmem).resolve_left hne

end Unlink

namespace Represents

variable [DecidableEq A] {fns} {chains : List (List (A × Entry K V))}
  {m : Memory A K V} {t : Hashtable K V}

theorem eraseP_of_split {α : Type} {p : α → Bool} {pre post : List α} {a : α}
    (hpre : ∀ b ∈ pre, p b = false) (ha : p a = true) :
    (pre ++ a :: post).eraseP p = pre ++ post := by
  induction pre with
  | nil => simp [ha]
  | cons b pre ih =>
      rw [List.forall_mem_cons] at hpre
      simp [hpre.1, ih hpre.2]

variable (fns) in
/-- A removal in memory does what the removal in the lists does, and frees the
entry. -/
theorem remove_eq (h : Represents chains m t) (k : K) :
    ∃ chains' m', m.remove fns k = some ((Hashtable.remove fns t k).1, m') ∧
      Represents chains' m' (Hashtable.remove fns t k).2 := by
  generalize hindex : indexFor m.table.length (hash fns k) = i
  have hindex' : indexFor t.table.length (hash fns k) = i := h.length_eq ▸ hindex
  obtain ⟨hfind, hlist⟩ |
      ⟨hi, pre, post, a, e, next, hchain, hpre, he, ha, hfind, hlist⟩ :=
    h.find_cases k hindex
  · rw [remove_of_none fns (hindex' ▸ hlist)]
    refine ⟨chains, m, ?_, h⟩
    simp only [Memory.remove, hfind, Option.bind_eq_bind, Option.bind_some]
  · rw [remove_of_some fns (hindex' ▸ hlist), hindex', h.getD hi]
    obtain ⟨table, store, hunlink, -, ha', htaken⟩ := h.takeOut hi hchain ha
    have herase : (chains[i].map Prod.snd).eraseP (stopsAt fns k) =
        (pre ++ post).map Prod.snd := by
      rw [hchain, List.map_append, List.map_cons, List.map_append]
      exact eraseP_of_split (List.forall_mem_map.mpr hpre) he
    rw [herase]
    refine ⟨_, _, ?_, htaken⟩
    simp only [Memory.remove, hfind, Option.bind_eq_bind, Option.bind_some,
      hindex, hunlink, Memory.free, ha', Option.map_some]

end Represents

/-! ### Growing -/

section Grow

variable [DecidableEq A] {fns} {chains : List (List (A × Entry K V))}

/-- An allocated entry goes to the front of the chain that its hash value
selects. -/
def pushAt (chains : List (List (A × Entry K V))) (p : A × Entry K V) :
    List (List (A × Entry K V)) :=
  chains.modify (indexFor chains.length p.2.h) (p :: ·)

omit [DecidableEq A] in
@[simp] theorem length_pushAt (chains : List (List (A × Entry K V)))
    (p : A × Entry K V) : (pushAt chains p).length = chains.length :=
  List.length_modify _ _ _

omit [DecidableEq A] in
theorem map_pushAt (chains : List (List (A × Entry K V))) (p : A × Entry K V) :
    (pushAt chains p).map (List.map Prod.snd) =
      push (chains.map (List.map Prod.snd)) p.2 := by
  apply List.ext_getElem
  · simp
  · intro i hi hi'
    simp only [pushAt, push, List.getElem_map, List.getElem_modify,
      List.length_map]
    split <;> rfl

omit [DecidableEq A] in
theorem map_foldl_pushAt (moved : List (A × Entry K V))
    (chains : List (List (A × Entry K V))) :
    (moved.foldl pushAt chains).map (List.map Prod.snd) =
      (moved.map Prod.snd).foldl push (chains.map (List.map Prod.snd)) := by
  induction moved generalizing chains with
  | nil => rfl
  | cons p moved ih => rw [List.foldl_cons, ih, map_pushAt, List.map_cons,
      List.foldl_cons]

omit [DecidableEq A] in
theorem flatten_pushAt_perm (hpos : 0 < chains.length) (p : A × Entry K V) :
    (pushAt chains p).flatten.Perm (p :: chains.flatten) := by
  have hi := indexFor_lt hpos p.2.h
  rw [pushAt, List.modify_eq_take_cons_drop hi, List.flatten_append,
    List.flatten_cons, flatten_eq_at hi, List.cons_append]
  exact List.perm_middle

omit [DecidableEq A] in
theorem length_foldl_pushAt (moved : List (A × Entry K V))
    (chains : List (List (A × Entry K V))) :
    (moved.foldl pushAt chains).length = chains.length := by
  induction moved generalizing chains with
  | nil => rfl
  | cons p moved ih => rw [List.foldl_cons, ih, length_pushAt]

omit [DecidableEq A] in
theorem flatten_foldl_pushAt_perm (hpos : 0 < chains.length)
    (moved : List (A × Entry K V)) :
    (moved.foldl pushAt chains).flatten.Perm (moved ++ chains.flatten) := by
  induction moved generalizing chains with
  | nil => exact List.Perm.refl _
  | cons p moved ih =>
      have hpos' : 0 < (pushAt chains p).length := by
        rw [length_pushAt]
        exact hpos
      have hpush := (flatten_pushAt_perm hpos p).append_left moved
      exact ((ih hpos').trans hpush).trans List.perm_middle

variable {store : Store A (Entry K V)} {table : List (Option A)}

theorem chained_pushAt (h : Chained store table chains) (hpos : 0 < chains.length)
    {a : A} {e : Entry K V} (ha : a ∉ chains.flatten.map Prod.fst) :
    Chained
      (Function.update store a
        (some ⟨e, table.getD (indexFor table.length e.h) none⟩))
      (table.set (indexFor table.length e.h) (some a)) (pushAt chains (a, e)) := by
  have hi := indexFor_lt hpos e.h
  have hset : pushAt chains (a, e) = chains.set (indexFor chains.length e.h)
      ((a, e) :: chains[indexFor chains.length e.h]) := by
    rw [pushAt, List.modify_eq_take_cons_drop hi,
      List.set_eq_take_append_cons_drop, if_pos hi]
  rw [h.length, hset]
  exact h.push hi ha e

/-- The inner loop moves a whole chain, whose entries are in no chain of the
new table. -/
theorem moveChain_of_linked {l : List (A × Entry K V)} {first : Option A} {n : ℕ}
    (h : Chained store table chains) (hpos : 0 < chains.length)
    (hl : Linked store first l) (hn : l.length ≤ n)
    (hout : ∀ p ∈ l, p.1 ∉ chains.flatten.map Prod.fst) :
    ∃ table' store', Memory.moveChain table.length n first (table, store) =
        some (table', store') ∧
      Chained store' table' (l.foldl pushAt chains) ∧
      (∀ c ∉ l.map Prod.fst, store' c = store c) ∧
      ∀ c, store' c = none ↔ store c = none := by
  induction l generalizing store table chains first n with
  | nil =>
      obtain rfl := linked_nil_iff.mp hl
      exact ⟨table, store, by cases n <;> rfl, h, fun _ _ => rfl, fun _ => Iff.rfl⟩
  | cons p l ih =>
      obtain ⟨a, e⟩ := p
      obtain ⟨rfl, next, ha, hrest⟩ := linked_cons_iff.mp hl
      rw [List.forall_mem_cons] at hout
      have hnodup := hl.nodup
      simp only [List.map_cons, List.nodup_cons] at hnodup
      cases n with
      | zero => cases hn
      | succ n =>
          have hpushed := chained_pushAt h hpos (e := e) hout.1
          have hpos' : 0 < (pushAt chains (a, e)).length := by
            rw [length_pushAt]
            exact hpos
          -- what is behind the entry is in no chain either, and not the entry
          have hout' : ∀ p ∈ l,
              p.1 ∉ (pushAt chains (a, e)).flatten.map Prod.fst := by
            intro p hp
            rw [((flatten_pushAt_perm hpos (a, e)).map Prod.fst).mem_iff,
              List.map_cons, List.mem_cons, not_or]
            refine ⟨?_, hout.2 p hp⟩
            rintro hpa
            exact hnodup.1 (List.mem_map.mpr ⟨p, hp, hpa⟩)
          obtain ⟨table', store', hmove, hchained, hframe, hsame⟩ := ih hpushed
            hpos' (hrest.update hnodup.1 _) (Nat.le_of_succ_le_succ hn) hout'
          refine ⟨table', store', ?_, hchained, fun c hc => ?_, fun c => ?_⟩
          · simp only [Memory.moveChain, ha, Option.bind_some]
            rwa [List.length_set] at hmove
          · simp only [List.map_cons, List.mem_cons, not_or] at hc
            rw [hframe c hc.2, Function.update_of_ne hc.1]
          · rw [hsame c]
            rcases eq_or_ne c a with rfl | hne
            · simp [ha]
            · rw [Function.update_of_ne hne]

/-- The outer loop moves one chain after the other. -/
theorem moveAll_of_chained {firsts : List (Option A)}
    {olds : List (List (A × Entry K V))} {n : ℕ}
    (h : Chained store table chains) (hpos : 0 < chains.length)
    (holds : Chained store firsts olds) (hn : ∀ l ∈ olds, l.length ≤ n)
    (hout : ∀ p ∈ olds.flatten, p.1 ∉ chains.flatten.map Prod.fst) :
    ∃ table' store', firsts.foldlM (fun moved first =>
        Memory.moveChain table.length n first moved) (table, store) =
          some (table', store') ∧
      Chained store' table' (olds.flatten.foldl pushAt chains) ∧
      ∀ c, store' c = none ↔ store c = none := by
  induction firsts generalizing store table chains olds with
  | nil =>
      have hnil : olds = [] := List.length_eq_zero_iff.mp holds.length.symm
      subst hnil
      exact ⟨table, store, rfl, h, fun _ => Iff.rfl⟩
  | cons first firsts ih =>
      obtain ⟨chain, olds, rfl⟩ : ∃ chain olds', olds = chain :: olds' :=
        List.exists_cons_of_length_eq_add_one holds.length.symm
      obtain ⟨hchain, hrest, hapart⟩ := holds.of_cons
      rw [List.forall_mem_cons] at hn
      simp only [List.flatten_cons, List.forall_mem_append] at hout
      obtain ⟨table', store', hmove, hmoved, hframe, hsame⟩ :=
        moveChain_of_linked h hpos hchain hn.1 hout.1
      have hlength : table'.length = table.length := by
        rw [hmoved.length, h.length]
        exact length_foldl_pushAt chain chains
      have hrest' : Chained store' firsts olds :=
        hrest.congr fun p hp => hframe p.1 (hapart p hp)
      have hout' : ∀ p ∈ olds.flatten,
          p.1 ∉ (chain.foldl pushAt chains).flatten.map Prod.fst := by
        intro p hp
        rw [((flatten_foldl_pushAt_perm hpos chain).map Prod.fst).mem_iff,
          List.map_append, List.mem_append, not_or]
        exact ⟨hapart p hp, hout.2 p hp⟩
      have hpos' : 0 < (chain.foldl pushAt chains).length := by
        rw [length_foldl_pushAt]
        exact hpos
      obtain ⟨table'', store'', hall, hchained, hsame'⟩ :=
        ih hmoved hpos' hrest' hn.2 hout'
      rw [hlength] at hall
      refine ⟨table'', store'', ?_, ?_, fun c => (hsame' c).trans (hsame c)⟩
      · simp only [List.foldlM_cons, hmove, Option.bind_eq_bind, Option.bind_some]
        exact hall
      · rw [List.flatten_cons, List.foldl_append]
        exact hchained

variable {m : Memory A K V} {t : Hashtable K V}

variable (fns) in
/-- Growing in memory does what growing does on the lists. -/
theorem Shaped.expand_eq (h : Shaped chains m t)
    (hn : ∀ l ∈ chains, l.length ≤ m.entrycount) :
    ∃ chains' m', m.expand fns .malloc = some m' ∧
      Shaped chains' m' (Hashtable.expand fns t) ∧
      chains'.flatten.Perm chains.flatten ∧
      ∀ c, m'.store c = none ↔ m.store c = none := by
  by_cases hlt : m.primeindex + 1 < primes.length
  · have hlt' : t.primeindex + 1 < primes.length := h.primeindex ▸ hlt
    have hprimes : ∀ p ∈ primes, 0 < p := by decide
    have hsize : primes.get ⟨t.primeindex + 1, hlt'⟩ =
        primes.get ⟨m.primeindex + 1, hlt⟩ := by
      simp only [h.primeindex]
    generalize hnewsize : primes.get ⟨m.primeindex + 1, hlt⟩ = newsize
    have hpos : 0 < newsize := hnewsize ▸ hprimes _ (List.get_mem _ _)
    let news : List (List (A × Entry K V)) := List.replicate newsize []
    have hnews : 0 < news.length := by simpa [news] using hpos
    obtain ⟨table, store, hall, hchained, hsame⟩ := moveAll_of_chained
      (Chained.replicate newsize) hnews h.chained hn (by simp)
    rw [List.length_replicate] at hall
    let grown : Memory A K V :=
      { m with
        table
        primeindex := m.primeindex + 1
        loadlimit := fns.loadlimit newsize
        store }
    refine ⟨chains.flatten.foldl pushAt news, grown, ?_,
      ⟨hchained, ?_, ?_, ?_, ?_⟩, ?_, hsame⟩
    · simp only [Memory.expand, dif_pos hlt, hnewsize]
      rw [hall]
      rfl
    · simp only [Hashtable.expand, dif_pos hlt', hsize, hnewsize]
      rw [map_foldl_pushAt, h.table, List.map_flatten, List.map_replicate]
      rfl
    · simp only [Hashtable.expand, dif_pos hlt', grown, h.primeindex]
    · simp only [Hashtable.expand, dif_pos hlt', grown, h.entrycount]
    · simp only [Hashtable.expand, dif_pos hlt', grown, hsize, hnewsize]
    · simpa [news] using flatten_foldl_pushAt_perm hnews chains.flatten
  · have hlt' : ¬ t.primeindex + 1 < primes.length := h.primeindex ▸ hlt
    refine ⟨chains, m, dif_neg hlt, ?_, List.Perm.refl _, fun _ => Iff.rfl⟩
    rw [Hashtable.expand, dif_neg hlt']
    exact h

/-- The table has to grow for one more entry, and goes over to plan B. -/
structure PlanB (found : TableMemory) (m : Memory A K V) : Prop where
  full : m.loadlimit < m.entrycount + 1
  larger : m.primeindex + 1 < primes.length
  realloc : found = .realloc

omit [DecidableEq A] in
instance (found : TableMemory) (m : Memory A K V) : Decidable (PlanB found m) :=
  decidable_of_iff
    (m.loadlimit < m.entrycount + 1 ∧ m.primeindex + 1 < primes.length ∧
      found = .realloc)
    ⟨fun h => ⟨h.1, h.2.1, h.2.2⟩, fun h => ⟨h.1, h.2, h.3⟩⟩

variable (fns) in
/-- Plan B does not end well. -/
theorem insert_of_planB {found : TableMemory} (h : PlanB found m)
    (alloc : Allocator A (Node A (Entry K V))) (k : K) (v : V) :
    m.insert fns found alloc k v = none := by
  obtain ⟨hfull, hlarger, rfl⟩ := h
  have hgrow : m.grow fns .realloc = none := by
    rw [Memory.grow, if_pos hfull, Memory.expand, dif_pos hlarger]
  simp only [Memory.insert, hgrow, Option.bind_eq_bind, Option.bind_none]

/-- A table that does not grow, for whatever reason. -/
theorem Memory.expand_of_ne_malloc {found : TableMemory}
    (hne : found ≠ .malloc)
    (hrealloc : m.primeindex + 1 < primes.length → found ≠ .realloc) :
    m.expand fns found = some m := by
  unfold Memory.expand
  split
  · next hlt =>
    cases found with
    | malloc => exact absurd rfl hne
    | realloc => exact absurd rfl (hrealloc hlt)
    | none => rfl
  · rfl

omit [DecidableEq A] in
theorem entrycount_grow (found : TableMemory) (t : Hashtable K V) :
    (grow fns found t).entrycount = t.entrycount + 1 := by
  simp only [grow, expand]
  split
  · split <;> rfl
  · rfl

variable (fns) in
/-- There is room for one more entry, counted already. -/
theorem Represents.grow_eq (h : Represents chains m t) {found : TableMemory}
    (hplan : ¬ PlanB found m) :
    ∃ chains' m', m.grow fns found = some m' ∧
      Shaped chains' m' (grow fns found t) ∧
      chains'.flatten.Perm chains.flatten ∧
      ∀ c, m'.store c = none ↔ m.store c = none := by
  let m₁ := { m with entrycount := m.entrycount + 1 }
  have hshaped : Shaped chains m₁ { t with entrycount := t.entrycount + 1 } :=
    ⟨h.chained, h.table, h.primeindex, congrArg (· + 1) h.entrycount, h.loadlimit⟩
  have hn : ∀ l ∈ chains, l.length ≤ m₁.entrycount := by
    intro l hl
    have hle := (List.sublist_flatten_of_mem hl).length_le
    simp only [m₁, h.counted]
    omega
  have hiff : m₁.loadlimit < m₁.entrycount ↔ t.loadlimit < t.entrycount + 1 := by
    rw [← h.loadlimit, ← h.entrycount]
  by_cases hfull : m₁.loadlimit < m₁.entrycount
  · by_cases hfound : found = .malloc
    · subst hfound
      rw [grow, if_pos ⟨hiff.mp hfull, rfl⟩]
      obtain ⟨chains', m', hexpand, hrest⟩ := hshaped.expand_eq fns hn
      exact ⟨chains', m', (if_pos hfull).trans hexpand, hrest⟩
    · rw [grow, if_neg (fun hgrows => hfound hgrows.2)]
      have hstays : m₁.expand fns found = some m₁ :=
        Memory.expand_of_ne_malloc hfound fun hlt hrealloc =>
          hplan ⟨hfull, hlt, hrealloc⟩
      exact ⟨chains, m₁, (if_pos hfull).trans hstays, hshaped, List.Perm.refl _,
        fun _ => Iff.rfl⟩
  · rw [grow, if_neg (fun hgrows => hfull (hiff.mpr hgrows.1))]
    exact ⟨chains, m₁, if_neg hfull, hshaped, List.Perm.refl _, fun _ => Iff.rfl⟩

variable (fns) in
/-- An insertion in memory does what the insertion in the lists does. Without
memory for the entry, the table may have grown, and holds what it held. -/
theorem Represents.insert_eq (alloc : Allocator A (Node A (Entry K V)))
    (h : Represents chains m t) {found : TableMemory} (hplan : ¬ PlanB found m)
    (k : K) (v : V) :
    ∃ chains' m' inserted,
      m.insert fns found alloc k v = some (inserted, m') ∧
        (inserted = false → alloc.malloc m'.store = none) ∧
        Represents chains' m'
          (if inserted then cram fns (grow fns found t) k v
          else { grow fns found t with entrycount := t.entrycount }) := by
  obtain ⟨chains', m', hgrow, hshaped, hperm, hsame⟩ := h.grow_eq fns hplan
  have hcount : m'.entrycount = m.entrycount + 1 := by
    rw [hshaped.entrycount, entrycount_grow, h.entrycount]
  have hlength : chains'.flatten.length = m.entrycount :=
    hperm.length_eq.trans h.counted.symm
  have howned : ∀ c, m'.store c ≠ none → c ∈ chains'.flatten.map Prod.fst := by
    intro c hc
    rw [ne_eq, hsame] at hc
    exact (hperm.map Prod.fst).mem_iff.mpr (h.owned c hc)
  -- the count goes up before the entry is allocated, and down again without memory
  cases halloc : alloc.malloc m'.store with
  | none =>
      refine ⟨chains', { m' with entrycount := m'.entrycount - 1 }, false, ?_,
        fun _ => halloc, ?_⟩
      · simp only [Memory.insert, hgrow, Option.bind_eq_bind,
          Option.bind_some, halloc]
      · refine ⟨⟨hshaped.chained, hshaped.table, hshaped.primeindex, ?_,
          hshaped.loadlimit⟩, ?_, howned⟩
        · simp [hcount, h.entrycount]
        · simp [hcount, hlength]
  | some a =>
      have hunused := alloc.unused _ _ halloc
      -- a fresh address is in no chain, which keeps the chains apart
      have ha : a ∉ chains'.flatten.map Prod.fst := by
        intro hmem
        obtain ⟨p, hp, rfl⟩ := List.mem_map.mp hmem
        obtain ⟨next, hread⟩ := hshaped.chained.read hp
        rw [hunused] at hread
        cases hread
      have hpos : 0 < chains'.length := by
        rw [← hshaped.chained.length, hshaped.length_eq]
        exact (grow fns found t).tablelength_pos
      have hpushed := chained_pushAt hshaped.chained hpos
        (e := ⟨hash fns k, k, v⟩) ha
      refine ⟨pushAt chains' (a, ⟨hash fns k, k, v⟩),
        { m' with
          table := m'.table.set (indexFor m'.table.length (hash fns k)) (some a)
          store := Function.update m'.store a (some ⟨⟨hash fns k, k, v⟩,
            m'.table.getD (indexFor m'.table.length (hash fns k)) none⟩) },
        true, ?_, fun h => absurd h (Bool.noConfusion), ?_⟩
      · simp only [Memory.insert, hgrow, Option.bind_eq_bind,
          Option.bind_some, halloc]
      · rw [if_pos rfl]
        refine ⟨⟨hpushed, ?_, hshaped.primeindex, hshaped.entrycount,
          hshaped.loadlimit⟩, ?_, fun c hc => ?_⟩
        · show push (grow fns found t).table _ = _
          rw [map_pushAt, hshaped.table]
        · have hlen := (flatten_pushAt_perm hpos
            (a, (⟨hash fns k, k, v⟩ : Entry K V))).length_eq
          simp only [hcount, hlen, hlength, List.length_cons]
        · rw [((flatten_pushAt_perm hpos _).map Prod.fst).mem_iff, List.map_cons,
            List.mem_cons]
          rcases eq_or_ne c a with rfl | hne
          · exact .inl rfl
          · have hread := Function.update_of_ne hne
              (some ⟨⟨hash fns k, k, v⟩,
                m'.table.getD (indexFor m'.table.length (hash fns k)) none⟩)
              m'.store
            exact .inr (howned c (hread ▸ hc))

end Grow

theorem represents_created (minsize : ℕ) :
    Represents (List.replicate (initialSize minsize) [])
      (Memory.created fns minsize : Memory A K V) (create fns minsize) where
  chained := Chained.replicate _
  table := by simp [create]
  primeindex := rfl
  entrycount := rfl
  loadlimit := rfl
  counted := by simp [Memory.created]
  owned c hc := absurd rfl hc

end Hashtable

end Lwfs.Support
