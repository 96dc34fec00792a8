import Mathlib.Data.List.AList
import Mathlib.Tactic.Common

/-!
A keyed table with a secondary index.

The records of a table stand under primary keys. A secondary index computes a
second key from each record. Whether a secondary key leads to a single record
is a property of the table, `Unique`; how many records a secondary key has is
`count`. Inserting a record under a new primary key and erasing a record both
change a count by that record's own share, which is what a proof about
reference counts consists of.
-/

namespace SysLib

/-- A table of records in `α` under primary keys in `κ`. -/
abbrev Table (κ α : Type) := AList fun _ : κ => α

namespace Table

variable {κ α ι : Type}

/-- The first record whose secondary key is `i`, with its primary key. -/
def find [DecidableEq ι] (f : α → ι) (t : Table κ α) (i : ι) : Option (κ × α) :=
  (t.entries.find? fun e => f e.2 = i).map fun e => (e.1, e.2)

/-- The records whose secondary key is `i`, in the order of the table. -/
def filter [DecidableEq ι] (f : α → ι) (t : Table κ α) (i : ι) : List α :=
  (t.entries.filter fun e => f e.2 = i).map fun e => e.2

/-- The number of records whose secondary key is `i`. -/
def count [DecidableEq ι] (f : α → ι) (t : Table κ α) (i : ι) : ℕ :=
  t.entries.countP fun e => f e.2 = i

/-- No two records of the table share a secondary key. -/
def Unique (f : α → ι) (t : Table κ α) : Prop :=
  (t.entries.map fun e => f e.2).Nodup

variable {f : α → ι} {t : Table κ α} {k : κ} {a : α}

theorem length_filter [DecidableEq ι] (i : ι) :
    (filter f t i).length = count f t i := by
  unfold filter count
  rw [List.length_map, List.countP_eq_length_filter]

variable [DecidableEq κ]

theorem mem_iff_lookup : k ∈ t ↔ ∃ a, t.lookup k = some a := by
  rw [← AList.lookup_isSome, Option.isSome_iff_exists]

theorem mem_of_lookup (h : t.lookup k = some a) : k ∈ t :=
  mem_iff_lookup.mpr ⟨a, h⟩

/-- The record erased and the records left are the records there were. -/
theorem perm_erase (h : t.lookup k = some a) :
    t.entries.Perm (⟨k, a⟩ :: (t.erase k).entries) := by
  have hkey : k ∈ t.entries.keys := AList.lookup_isSome.mp (by rw [h]; rfl)
  obtain ⟨b, l, r, -, heq, herase⟩ := List.exists_of_kerase hkey
  have hab : b = a := by
    have hb : (⟨k, b⟩ : Sigma fun _ : κ => α) ∈ t.entries := by
      rw [heq]
      exact List.mem_append_cons_self
    have hlookup : t.lookup k = some b := AList.mem_lookup_iff.mpr hb
    exact Option.some.inj (hlookup.symm.trans h)
  subst hab
  show t.entries.Perm (⟨k, b⟩ :: t.entries.kerase k)
  rw [herase, heq]
  exact List.perm_middle

theorem forall_lookup_iff {P : α → Prop} :
    (∀ k a, t.lookup k = some a → P a) ↔ ∀ e ∈ t.entries, P e.2 := by
  refine ⟨fun h e he => ?_, fun h k a ha => ?_⟩
  · exact h e.1 e.2 (AList.mem_lookup_iff.mpr he)
  · exact h ⟨k, a⟩ (AList.mem_lookup_iff.mp ha)

/-! ### Unique secondary keys -/

theorem Unique.eq_of_lookup (hu : Unique f t) {k' : κ} {a' : α}
    (h : t.lookup k = some a) (h' : t.lookup k' = some a')
    (hf : f a = f a') : k = k' ∧ a = a' := by
  have hm := AList.mem_lookup_iff.mp h
  have hm' := AList.mem_lookup_iff.mp h'
  have heq := List.inj_on_of_nodup_map hu hm hm' hf
  cases heq
  exact ⟨rfl, rfl⟩

theorem Unique.insert (hu : Unique f t) (hk : k ∉ t)
    (ha : ∀ k' a', t.lookup k' = some a' → f a' ≠ f a) :
    Unique f (t.insert k a) := by
  unfold Unique
  rw [AList.entries_insert_of_notMem hk, List.map_cons, List.nodup_cons]
  refine ⟨?_, hu⟩
  intro hmem
  obtain ⟨e, he, hf⟩ := List.mem_map.mp hmem
  exact ha e.1 e.2 (AList.mem_lookup_iff.mpr he) hf

theorem Unique.erase (hu : Unique f t) (k : κ) : Unique f (t.erase k) := by
  have hsub : (t.erase k).entries.Sublist t.entries :=
    List.kerase_sublist k t.entries
  exact hu.sublist (hsub.map _)

/-! ### Records by secondary key -/

variable [DecidableEq ι] {i : ι}

theorem lookup_of_find {e : κ × α} (h : find f t i = some e) :
    t.lookup e.1 = some e.2 ∧ f e.2 = i := by
  simp only [find, Option.map_eq_some_iff] at h
  obtain ⟨x, hx, rfl⟩ := h
  have hmem := List.mem_of_find?_eq_some hx
  have hi := List.find?_some hx
  exact ⟨AList.mem_lookup_iff.mpr hmem, of_decide_eq_true hi⟩

theorem find_eq_none :
    find f t i = none ↔ ∀ k a, t.lookup k = some a → f a ≠ i := by
  rw [forall_lookup_iff]
  simp only [find, Option.map_eq_none_iff, List.find?_eq_none,
    decide_eq_true_eq, ne_eq]

/-- Where secondary keys are unique, a record is found by its own. -/
theorem Unique.find_eq (hu : Unique f t) (h : t.lookup k = some a) :
    find f t (f a) = some (k, a) := by
  cases hfind : find f t (f a) with
  | none => exact absurd rfl (find_eq_none.mp hfind k a h)
  | some e =>
      obtain ⟨he, hf⟩ := lookup_of_find hfind
      obtain ⟨hk, ha⟩ := hu.eq_of_lookup he h hf
      rw [← hk, ← ha]

theorem mem_filter :
    a ∈ filter f t i ↔ ∃ k, t.lookup k = some a ∧ f a = i := by
  simp only [filter, List.mem_map, List.mem_filter, decide_eq_true_eq]
  constructor
  · rintro ⟨e, ⟨he, hi⟩, rfl⟩
    exact ⟨e.1, AList.mem_lookup_iff.mpr he, hi⟩
  · rintro ⟨k, hk, hi⟩
    exact ⟨⟨k, a⟩, ⟨AList.mem_lookup_iff.mp hk, hi⟩, rfl⟩

/-- Where every record stands under a key that is made from it, the records
with one secondary key differ in the primary one. -/
theorem nodup_map_filter {key : α → κ}
    (hkey : ∀ k a, t.lookup k = some a → k = key a) :
    ((filter f t i).map key).Nodup := by
  have hkeys : t.entries.map (fun e => key e.2) = t.entries.keys :=
    List.map_congr_left fun e he =>
      (hkey e.1 e.2 (AList.mem_lookup_iff.mpr he)).symm
  have hsub : ((filter f t i).map key).Sublist t.entries.keys := by
    rw [filter, List.map_map, ← hkeys]
    exact List.filter_sublist.map _
  have hnodup : t.entries.keys.Nodup := t.nodupKeys
  exact hnodup.sublist hsub

/-! ### Counts -/

/-- A record under a new key adds its own share to every count. -/
theorem count_insert (hk : k ∉ t) :
    count f (t.insert k a) i = count f t i + if f a = i then 1 else 0 := by
  unfold count
  rw [AList.entries_insert_of_notMem hk, List.countP_cons]
  simp only [decide_eq_true_eq]

/-- A record that is erased takes its own share from every count. -/
theorem count_erase (h : t.lookup k = some a) :
    count f (t.erase k) i + (if f a = i then 1 else 0) = count f t i := by
  unfold count
  rw [(perm_erase h).countP_eq, List.countP_cons]
  simp only [decide_eq_true_eq]

theorem count_pos_of_lookup (h : t.lookup k = some a) :
    0 < count f t (f a) :=
  List.countP_pos_iff.mpr
    ⟨⟨k, a⟩, AList.mem_lookup_iff.mp h, decide_eq_true rfl⟩

theorem count_eq_zero :
    count f t i = 0 ↔ ∀ k a, t.lookup k = some a → f a ≠ i := by
  rw [forall_lookup_iff]
  simp only [count, List.countP_eq_zero, decide_eq_true_eq, ne_eq]

end Table

end SysLib
