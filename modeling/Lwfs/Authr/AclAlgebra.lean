import Lwfs.Authr.Server
import Mathlib.Data.Finset.Basic

/-!
What `mod_acl` makes of the access-control lists.

As sets, the lists should become what they were, with the users of `set`
added and those of `unset` taken away. The routines that compute them sort
through a comparator that is no order, so which elements they keep depends on
the order `qsort` happens to leave. `ModExact` says on which arrays the order
makes no difference, and the results below follow the lists along a run whose
requests all meet it.
-/

namespace Lwfs.Authr

open SysLib

variable (q : Qsort Uid)

/-! ### `remove_dups` on its exact inputs -/

theorem removeDups_cons {vals : List Uid} {a : Uid} {rest : List Uid}
    (h : q.sort compareUids vals = a :: rest) :
    removeDups q vals =
      (q.sort compareUids (a :: (markDups a rest).1),
        (markDups a rest).2 + 1) := by
  simp only [removeDups, h]

/-- An array without duplicates is only reordered. -/
theorem dedupUids_perm {vals : List Uid} (h : vals.Nodup) :
    (dedupUids q vals).Perm vals := by
  have hperm := q.perm compareUids vals
  unfold dedupUids
  cases hsort : q.sort compareUids vals with
  | nil =>
      rw [hsort] at hperm
      simpa [removeDups, hsort] using hperm
  | cons a rest =>
      have hnodup : (a :: rest).Nodup := hsort ▸ (q.nodup_sort _ _).mpr h
      rw [removeDups_cons q hsort, markDups_of_nodup hnodup]
      rw [List.take_of_length_le (by simp)]
      exact (q.perm _ _).trans (hsort ▸ hperm)

/-- Of an array that repeats one element, one element is left: that one, or
an infinity that the second sort has put in front. -/
theorem dedupUids_of_forall_eq {vals : List Uid} {x : Uid} (hne : vals ≠ [])
    (h : ∀ a ∈ vals, a = x) :
    dedupUids q vals = [x] ∨ dedupUids q vals = [infUid] := by
  cases hsort : q.sort compareUids vals with
  | nil =>
      have hlen := q.length_sort compareUids vals
      rw [hsort, List.length_nil] at hlen
      exact absurd (List.length_eq_zero_iff.mp hlen.symm) hne
  | cons a rest =>
      have hall : ∀ b ∈ a :: rest, b = x := by
        intro b hb
        exact h b ((q.mem_sort compareUids vals).mp (hsort ▸ hb))
      obtain ⟨rfl, hrest⟩ := List.forall_mem_cons.mp hall
      unfold dedupUids
      rw [removeDups_cons q hsort, markDups_of_forall_eq hrest]
      simp only [Nat.zero_add]
      cases hsorted : q.sort compareUids
          (a :: List.replicate rest.length infUid) with
      | nil =>
          have hlen := q.length_sort compareUids
            (a :: List.replicate rest.length infUid)
          rw [hsorted] at hlen
          exact absurd hlen (by simp)
      | cons b tail =>
          have hb := (q.mem_sort compareUids
            (a :: List.replicate rest.length infUid)).mp
            (hsorted ▸ List.mem_cons_self)
          rcases List.mem_cons.mp hb with rfl | hb
          · exact Or.inl rfl
          · rw [List.eq_of_mem_replicate hb]
            exact Or.inr rfl

/-- In general, nothing but infinity is new. -/
theorem mem_of_mem_dedupUids {vals : List Uid} {u : Uid}
    (h : u ∈ dedupUids q vals) : u = infUid ∨ u ∈ vals := by
  unfold dedupUids at h
  cases hsort : q.sort compareUids vals with
  | nil => simp [removeDups, hsort] at h
  | cons a rest =>
      have hmem : ∀ b ∈ a :: rest, b ∈ vals := fun b hb =>
        (q.mem_sort compareUids vals).mp (hsort ▸ hb)
      rw [removeDups_cons q hsort] at h
      have hu := (q.mem_sort _ _).mp (List.mem_of_mem_take h)
      rcases List.mem_cons.mp hu with rfl | hu
      · exact Or.inr (hmem u List.mem_cons_self)
      · exact (mem_of_mem_markDups hu).imp_right
          fun hu => hmem u (List.mem_cons_of_mem _ hu)

/-- A prefix that leaves out fewer elements than there are copies of `a` has
a copy. -/
theorem mem_take_of_lt_count {α : Type*} [DecidableEq α] {a : α}
    {l : List α} {k : ℕ} (hk : k ≤ l.length) (h : l.length < l.count a + k) :
    a ∈ l.take k := by
  by_contra hnot
  have hzero : (l.take k).count a = 0 := List.count_eq_zero.mpr hnot
  have hsplit : (l.take k).count a + (l.drop k).count a = l.count a := by
    rw [← List.count_append, List.take_append_drop]
  have hle := List.count_le_length (a := a) (l := l.drop k)
  rw [List.length_drop] at hle
  omega

/-- Infinity is never lost: more copies of it stand in the array than the
truncation cuts off. -/
theorem infUid_mem_dedupUids {vals : List Uid} (h : infUid ∈ vals) :
    infUid ∈ dedupUids q vals := by
  unfold dedupUids
  cases hsort : q.sort compareUids vals with
  | nil =>
      have hinf := (q.mem_sort compareUids vals).mpr h
      rw [hsort] at hinf
      exact absurd hinf List.not_mem_nil
  | cons a rest =>
      have hinf : infUid ∈ a :: rest :=
        hsort ▸ (q.mem_sort compareUids vals).mpr h
      rw [removeDups_cons q hsort]
      apply mem_take_of_lt_count
      · rw [q.length_sort, List.length_cons, length_markDups]
        exact Nat.succ_le_succ (markDups_count_le a rest)
      have hcount := (q.perm compareUids (a :: (markDups a rest).1)).count_eq
        infUid
      have hlt := length_lt_count_markDups hinf
      rw [hcount, q.length_sort, List.length_cons, length_markDups]
      omega

/-! ### The merge loop -/

/-- If the arrays share no element, the loop runs to the end of the second
and removes nothing. -/
theorem nullOut_of_disjoint {orig torm : List Uid}
    (h : orig.Disjoint torm) : nullOut orig torm = (orig, 0) := by
  induction torm with
  | nil => cases orig <;> simp [nullOut]
  | cons t torm ih =>
      cases orig with
      | nil => simp [nullOut]
      | cons o orig =>
          have hot : o ≠ t := fun hot =>
            h List.mem_cons_self (hot ▸ List.mem_cons_self)
          have hrest : (o :: orig).Disjoint torm :=
            List.disjoint_of_disjoint_cons_right h
          rw [nullOut]
          simp [compareUids_eq, hot, ih hrest]

/-- A single element is found wherever it stands in the second array. -/
theorem nullOut_singleton {x : Uid} {torm : List Uid} (h : x ∈ torm) :
    nullOut [x] torm = ([infUid], 1) := by
  induction torm with
  | nil => exact absurd h List.not_mem_nil
  | cons t torm ih =>
      rw [nullOut]
      by_cases hxt : x = t
      · simp [compareUids_eq, hxt, nullOut]
      · have hrest : x ∈ torm := (List.mem_cons.mp h).resolve_left hxt
        simp [compareUids_eq, hxt, ih hrest]

/-- What `remove_uids` leaves of an array whose duplicates are gone already,
when it removes nothing. -/
theorem removeUids_of_disjoint {orig torm : List Uid} (horig : orig.Nodup)
    (h : orig.Disjoint (dedupUids q torm)) :
    (removeUids q orig torm).1.Perm orig := by
  have hperm := dedupUids_perm q horig
  have hdisj : (dedupUids q orig).Disjoint (dedupUids q torm) :=
    fun u hu => h (hperm.mem_iff.mp hu)
  simp only [removeUids, nullOut_of_disjoint hdisj, Nat.sub_zero]
  rw [List.take_of_length_le (by rw [q.length_sort])]
  exact (q.perm _ _).trans hperm

/-- A single element that is to be removed is. -/
theorem removeUids_singleton {x : Uid} {torm : List Uid}
    (h : x ∈ dedupUids q torm) : (removeUids q [x] torm).1 = [] := by
  have hsingle : dedupUids q [x] = [x] :=
    List.perm_singleton.mp (dedupUids_perm q (List.nodup_singleton x))
  simp [removeUids, hsingle, nullOut_singleton h]

theorem removeUids_nil (torm : List Uid) : (removeUids q [] torm).1 = [] := by
  have hnil : dedupUids q [] = [] :=
    List.perm_nil.mp (dedupUids_perm q List.nodup_nil)
  simp [removeUids, hnil, nullOut]

/-! ### One list -/

/-- A list with the users of a request added, before duplicates are removed:
adding is exact if there are none, or nothing but infinity. -/
def AddExact (all : List Uid) : Prop :=
  all.Nodup ∨ ∀ a ∈ all, a = infUid

/-- Removing `unset` from a list of the users `all` is exact if there is
nothing to keep or remove, or nothing to remove, or a single user, who is to
be removed. Duplicates in `unset` turn into infinities, and may push any
other element out of it. -/
def RemoveExact (all unset : List Uid) : Prop :=
  all = [] ∨ (all.Disjoint unset ∧ (unset.Nodup ∨ infUid ∉ all)) ∨
    ∃ x ∈ unset, (∀ a ∈ all, a = x) ∧ (unset.Nodup ∨ x = infUid)

/-- The arrays on which the outcome does not depend on the order that `qsort`
leaves. In the last case a single user, however often it is listed, is to be
removed together with infinity. -/
def ModExact (old : List Uid) (set unset : Option (List Uid)) : Prop :=
  let all := old ++ set.getD []
  match unset with
  | none => AddExact all
  | some unset =>
      (AddExact all ∧ RemoveExact all unset) ∨
        ∃ x ∈ unset, infUid ∈ unset ∧ unset.Nodup ∧ ∀ a ∈ all, a = x

instance (all : List Uid) : Decidable (AddExact all) :=
  inferInstanceAs (Decidable (_ ∨ _))

instance (all unset : List Uid) : Decidable (RemoveExact all unset) :=
  have : Decidable (all.Disjoint unset) :=
    inferInstanceAs (Decidable (∀ a ∈ all, a ∉ unset))
  inferInstanceAs (Decidable (_ ∨ _ ∨ _))

instance (old : List Uid) (set : Option (List Uid)) :
    (unset : Option (List Uid)) → Decidable (ModExact old set unset)
  | none => inferInstanceAs (Decidable (AddExact _))
  | some _ => inferInstanceAs (Decidable (_ ∨ _))

/-- The new list is the old one as a set, with `set` added and `unset` taken
away, and lists no user twice. -/
def SetAlgebra (old : List Uid) (set unset : Option (List Uid))
    (new : List Uid) : Prop :=
  new.Nodup ∧ new.toFinset =
    (old.toFinset ∪ (set.getD []).toFinset) \ (unset.getD []).toFinset

/-- What has become of an `unset` array after some operations of the mask. -/
def Worn (unset torm : List Uid) : Prop :=
  (unset.Nodup → torm.Perm unset) ∧
    (∀ u ∈ torm, u = infUid ∨ u ∈ unset) ∧
    (infUid ∈ unset → infUid ∈ torm)

theorem worn_refl (unset : List Uid) : Worn unset unset :=
  ⟨fun _ => List.Perm.refl unset, fun _ hu => Or.inr hu, id⟩

theorem Worn.dedupUids {unset torm : List Uid} (h : Worn unset torm) :
    Worn unset (dedupUids q torm) := by
  obtain ⟨hperm, hmem, hinf⟩ := h
  refine ⟨?_, ?_, fun hu => infUid_mem_dedupUids q (hinf hu)⟩
  · intro hnodup
    have htorm := hperm hnodup
    exact (dedupUids_perm q (htorm.nodup_iff.mpr hnodup)).trans htorm
  · intro u hu
    rcases mem_of_mem_dedupUids q hu with rfl | hu
    · exact Or.inl rfl
    · exact hmem u hu

theorem Worn.mem_of_nodup {unset torm : List Uid} (h : Worn unset torm)
    (hnodup : unset.Nodup) {u : Uid} : u ∈ torm ↔ u ∈ unset :=
  (h.1 hnodup).mem_iff

section ModifyUids

variable {old : List Uid} {set : Option (List Uid)}

/-- The first half of `modifyUids`, which adds the users of `set`. -/
def addedUids (orig : List Uid) (set : Option (List Uid)) : List Uid :=
  match set with
  | none => orig
  | some set => addUids q orig set

theorem modifyUids_none :
    Srvr.modifyUids q old set none = (addedUids q old set, none) := rfl

theorem modifyUids_some (unset : List Uid) :
    Srvr.modifyUids q old set (some unset) =
      ((removeUids q (addedUids q old set) unset).1,
        some (dedupUids q unset)) := rfl

/-- If adding is exact, the list afterwards has the users of both. -/
theorem addedUids_of_addExact (hold : old.Nodup)
    (h : AddExact (old ++ set.getD [])) :
    (addedUids q old set).Nodup ∧
      ∀ u, u ∈ addedUids q old set ↔ u ∈ old ++ set.getD [] := by
  cases set with
  | none => simpa [addedUids] using hold
  | some set =>
      change (dedupUids q (old ++ set)).Nodup ∧
        ∀ u, u ∈ dedupUids q (old ++ set) ↔ u ∈ old ++ set
      by_cases hnodup : (old ++ set).Nodup
      · have hperm := dedupUids_perm q hnodup
        exact ⟨hperm.nodup_iff.mpr hnodup, fun u => hperm.mem_iff⟩
      · have hinf : ∀ a ∈ old ++ set, a = infUid := h.resolve_left hnodup
        have hne : old ++ set ≠ [] := fun hnil =>
          hnodup (hnil ▸ List.nodup_nil)
        have hone : dedupUids q (old ++ set) = [infUid] :=
          or_self_iff.mp (dedupUids_of_forall_eq q hne hinf)
        obtain ⟨a, ha⟩ := List.exists_mem_of_ne_nil _ hne
        rw [hone]
        refine ⟨List.nodup_singleton _, fun u => ?_⟩
        rw [List.mem_singleton]
        exact ⟨fun hu => hu ▸ hinf a ha ▸ ha, hinf u⟩

/-- If a single user is listed, however often, at most one is left: that one
or infinity. -/
theorem addedUids_of_forall_eq (hold : old.Nodup) {x : Uid}
    (h : ∀ a ∈ old ++ set.getD [], a = x) :
    addedUids q old set = [] ∨ addedUids q old set = [x] ∨
      addedUids q old set = [infUid] := by
  by_cases hexact : AddExact (old ++ set.getD [])
  · obtain ⟨hnodup, hmem⟩ := addedUids_of_addExact q hold hexact
    cases hadded : addedUids q old set with
    | nil => exact Or.inl rfl
    | cons a rest =>
        have hall : ∀ b ∈ a :: rest, b = x := fun b hb =>
          h b ((hmem b).mp (hadded ▸ hb))
        obtain ⟨rfl, hrest⟩ := List.forall_mem_cons.mp hall
        rw [hadded, List.nodup_cons] at hnodup
        cases rest with
        | nil => exact Or.inr (Or.inl rfl)
        | cons b rest =>
            have hb : b = a := hrest b List.mem_cons_self
            exact absurd (hb ▸ List.mem_cons_self) hnodup.1
  · cases set with
    | none => exact absurd (Or.inl (by simpa using hold)) hexact
    | some set =>
        right
        apply dedupUids_of_forall_eq q _ h
        intro hnil
        exact hexact (Or.inl (hnil ▸ List.nodup_nil))

/-- A list of one user, who is to be removed, becomes empty. -/
theorem removeUids_eq_nil {orig torm : List Uid}
    (h : orig = [] ∨ ∃ x ∈ dedupUids q torm, orig = [x]) :
    (removeUids q orig torm).1 = [] := by
  rcases h with rfl | ⟨x, hx, rfl⟩
  · exact removeUids_nil q torm
  · exact removeUids_singleton q hx

/-- The set algebra, read by membership. -/
theorem setAlgebra_iff {unset : Option (List Uid)} {new : List Uid} :
    SetAlgebra old set unset new ↔
      new.Nodup ∧ ∀ u, u ∈ new ↔
        u ∈ old ++ set.getD [] ∧ u ∉ unset.getD [] := by
  unfold SetAlgebra
  rw [Finset.ext_iff]
  simp only [List.mem_toFinset, Finset.mem_sdiff, Finset.mem_union,
    List.mem_append]

theorem setAlgebra_nil {unset : List Uid}
    (h : ∀ a ∈ old ++ set.getD [], a ∈ unset) :
    SetAlgebra old set (some unset) [] := by
  rw [setAlgebra_iff]
  refine ⟨List.nodup_nil, fun u => ?_⟩
  simp only [List.not_mem_nil, false_iff, not_and, not_not, Option.getD_some]
  exact h u

/-- Exact arrays give the set algebra, also after the `unset` array has been
through some operations of the mask already. -/
theorem modifyUids_setAlgebra (hold : old.Nodup) {unset torm : List Uid}
    (hworn : Worn unset torm) (h : ModExact old set (some unset)) :
    SetAlgebra old set (some unset)
      (Srvr.modifyUids q old set (some torm)).1 := by
  have hworn' := hworn.dedupUids q
  rw [modifyUids_some]
  simp only
  rcases h with ⟨hadd, hremove⟩ | ⟨x, hx, hinf, hnodup, hall⟩
  · obtain ⟨hadded, hmem⟩ := addedUids_of_addExact q hold hadd
    rcases hremove with hnil | ⟨hdisj, hexact⟩ | ⟨x, hx, hall, hexact⟩
    · -- No user at all: nothing is left to remove.
      have hempty : addedUids q old set = [] :=
        List.eq_nil_iff_forall_not_mem.mpr fun u hu => by
          rw [hmem, hnil] at hu
          exact List.not_mem_nil hu
      rw [hempty, removeUids_nil]
      exact setAlgebra_nil fun a ha => absurd (hnil ▸ ha) List.not_mem_nil
    · -- No user is to be removed.
      have hdisj' : (addedUids q old set).Disjoint (dedupUids q torm) := by
        intro u hu hu'
        rw [hmem] at hu
        rcases hexact with hnodup | hinf
        · exact hdisj hu ((hworn'.mem_of_nodup hnodup).mp hu')
        · rcases hworn'.2.1 u hu' with rfl | hu'
          · exact hinf hu
          · exact hdisj hu hu'
      have hperm := removeUids_of_disjoint q hadded hdisj'
      rw [setAlgebra_iff]
      refine ⟨hperm.nodup_iff.mpr hadded, fun u => ?_⟩
      rw [hperm.mem_iff, hmem, Option.getD_some]
      exact ⟨fun hu => ⟨hu, hdisj hu⟩, And.left⟩
    · -- The only user is to be removed.
      have hmemx : x ∈ dedupUids q torm := by
        rcases hexact with hnodup | rfl
        · exact (hworn'.mem_of_nodup hnodup).mpr hx
        · exact hworn'.2.2 hx
      rw [removeUids_eq_nil q]
      · exact setAlgebra_nil fun a ha => hall a ha ▸ hx
      · rcases addedUids_of_forall_eq q hold hall with h | h | h
        · exact Or.inl h
        · exact Or.inr ⟨x, hmemx, h⟩
        · have hx' : infUid = x := hall _ ((hmem _).mp
            (h ▸ List.mem_cons_self))
          exact Or.inr ⟨x, hmemx, hx' ▸ h⟩
  · have hmem : ∀ u ∈ unset, u ∈ dedupUids q torm :=
      fun u hu => (hworn'.mem_of_nodup hnodup).mpr hu
    rw [removeUids_eq_nil q]
    · exact setAlgebra_nil fun a ha => hall a ha ▸ hx
    · rcases addedUids_of_forall_eq q hold hall with h | h | h
      · exact Or.inl h
      · exact Or.inr ⟨x, hmem x hx, h⟩
      · exact Or.inr ⟨infUid, hmem infUid hinf, h⟩

theorem modifyUids_setAlgebra_none (hold : old.Nodup)
    (h : ModExact old set none) :
    SetAlgebra old set none (Srvr.modifyUids q old set none).1 := by
  obtain ⟨hnodup, hmem⟩ := addedUids_of_addExact q hold h
  rw [modifyUids_none, setAlgebra_iff]
  refine ⟨hnodup, fun u => ?_⟩
  rw [hmem]
  exact (and_iff_left List.not_mem_nil).symm

end ModifyUids

end Lwfs.Authr
