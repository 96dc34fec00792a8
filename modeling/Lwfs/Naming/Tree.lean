import Lwfs.Lib.Forest
import Lwfs.Naming.Access

/-!
The tree of directory entries under the root of a namespace.

A file system mounts a namespace that has no entries yet, and works in it
while other entries stand in the same database: other namespaces and what
`naming_db_init` has put. The entries it adds form a tree if the parent ids
are followed. What one request makes of this tree is said here: an entry that
is put keeps every entry reachable from the root, and an entry that is removed
does so exactly if no entry stands under it. The server looks at neither.
-/

namespace Lwfs.Naming

open SysLib Routine

variable {Mac : Type} {env : Env Mac} {root : Oid} {mount db db' : NamingDb}

/-- An entry with the id `x` stands under the id `p`. -/
def ParentOf (db : NamingDb) (p x : Oid) : Prop :=
  ∃ k d, db.dirents.lookup k = some d ∧ d.oid = x ∧ d.parentOid = p

/-- The ids of the entries that were added since `mount`. -/
def added (mount db : NamingDb) : Set Oid :=
  {x | ∃ k d, db.dirents.lookup k = some d ∧ d.oid = x ∧
    mount.dirents.lookup k ≠ some d}

/-- Every entry that was added is reached from the root by parent ids. -/
def AllReachable (root : Oid) (mount db : NamingDb) : Prop :=
  Forest.Rooted (ParentOf db) root (added mount db)

/-- The root is stored, and no entry stands under it yet. -/
structure Mounted (root : Oid) (mount : NamingDb) : Prop where
  stored : ∃ k d, mount.dirents.lookup k = some d ∧ d.oid = root
  empty : ∀ k d, mount.dirents.lookup k = some d → d.parentOid ≠ root

/-- The id is the root's or none of an entry stored at `mount`, and no entry
stored at `mount` stands under it. -/
structure Inside (root : Oid) (mount : NamingDb) (oid : Oid) : Prop where
  own : oid = root ∨ ∀ k d, mount.dirents.lookup k = some d → d.oid ≠ oid
  empty : ∀ k d, mount.dirents.lookup k = some d → d.parentOid ≠ oid

/-- What was stored at `mount` still is, and what was added since has ids of
its own. -/
structure Tree (root : Oid) (mount db : NamingDb) : Prop where
  wellFormed : WellFormed db
  kept : ∀ k d, mount.dirents.lookup k = some d → db.dirents.lookup k = some d
  own : ∀ k d, db.dirents.lookup k = some d →
    mount.dirents.lookup k ≠ some d →
    Inside root mount d.oid ∧ d.oid ≠ root ∧ d.parentOid ≠ d.oid

/-- The generated ids are new: no entry has them, and none stands under
them. -/
structure NewIds (env : Env Mac) (db : NamingDb) : Prop where
  fresh : Fresh env db
  parent : ∀ k d, db.dirents.lookup k = some d → d.parentOid ≠ env.direntOid

theorem newIds_iff : NewIds env db ↔ Fresh env db ∧
    ∀ e ∈ db.dirents.entries, e.2.parentOid ≠ env.direntOid := by
  have hparent := Table.forall_lookup_iff (t := db.dirents)
    (P := fun d => d.parentOid ≠ env.direntOid)
  rw [← hparent]
  exact ⟨fun h => ⟨h.fresh, h.parent⟩, fun h => ⟨h.1, h.2⟩⟩

instance (env : Env Mac) (db : NamingDb) : Decidable (NewIds env db) :=
  decidable_of_iff' _ newIds_iff

theorem Mounted.inside_root (h : Mounted root mount) : Inside root mount root :=
  ⟨.inl rfl, h.empty⟩

theorem tree_mount (hwf : WellFormed mount) : Tree root mount mount where
  wellFormed := hwf
  kept _ _ h := h
  own _ _ h hne := absurd h hne

theorem allReachable_mount : AllReachable root mount mount := by
  rintro x ⟨k, d, hd, -, hne⟩
  exact absurd hd hne

/-- Only the entries matter, not their inodes. -/
theorem allReachable_congr (root : Oid) (mount : NamingDb)
    (h : db'.dirents = db.dirents) :
    AllReachable root mount db' ↔ AllReachable root mount db := by
  have hparent : ParentOf db' = ParentOf db := by
    funext p x
    simp only [ParentOf, h]
  have hadded : added mount db' = added mount db := by
    simp only [added, h]
  rw [AllReachable, AllReachable, hparent, hadded]

namespace Tree

/-- What stands under an id inside the namespace was added. -/
theorem added_of_parentOf {p c : Oid} (hp : Inside root mount p)
    (hc : ParentOf db p c) : c ∈ added mount db := by
  obtain ⟨k, d, hd, hoid, hparent⟩ := hc
  exact ⟨k, d, hd, hoid, fun hmount => hp.empty k d hmount hparent⟩

/-- An entry inside the namespace is its root or was added. -/
theorem root_or_added {p : Oid} (hp : Inside root mount p) {k : Db1Key}
    {d : Dirent} (hd : db.dirents.lookup k = some d) (hoid : d.oid = p) :
    p = root ∨ p ∈ added mount db :=
  hp.own.imp_right fun hown => ⟨k, d, hd, hoid, fun hmount => hown k d hmount hoid⟩

variable (htree : Tree root mount db)

include htree

/-- An entry has one parent. -/
theorem parent_unique (a b c : Oid) (ha : ParentOf db a c)
    (hb : ParentOf db b c) : a = b := by
  obtain ⟨k, d, hd, hoid, rfl⟩ := ha
  obtain ⟨k', d', hd', hoid', rfl⟩ := hb
  obtain ⟨-, rfl⟩ := htree.wellFormed.unique.eq_of_lookup hd hd'
    (hoid.trans hoid'.symm)
  rfl

theorem root_notMem : root ∉ added mount db := by
  rintro ⟨k, d, hd, hoid, hne⟩
  exact (htree.own k d hd hne).2.1 hoid

/-- A new id is inside the namespace. -/
theorem inside_newIds (hnew : NewIds env db) : Inside root mount env.direntOid :=
  ⟨.inr fun k m hm => hnew.fresh.dirent k m (htree.kept k m hm),
    fun k m hm => hnew.parent k m (htree.kept k m hm)⟩

/-! ### An entry is put -/

section Insert

variable {d : Dirent} (hd : Addable db d)
  (hdirents : db'.dirents = (db.addDirent d).dirents)
  (hparent : ∃ k p, db.dirents.lookup k = some p ∧ p.oid = d.parentOid)

include hd hdirents hparent

theorem insert (hmount : Mounted root mount) (hwf : WellFormed db')
    (hnew : ∀ k d', db.dirents.lookup k = some d' → d'.parentOid ≠ d.oid) :
    Tree root mount db' where
  wellFormed := hwf
  kept k m hm := by
    have hk := htree.kept k m hm
    have hne : k ≠ d.key := by
      rintro rfl
      exact hd.key (Table.mem_of_lookup hk)
    rw [hdirents]
    exact (AList.lookup_insert_ne hne).trans hk
  own k d' hk hne := by
    rw [hdirents] at hk
    rcases lookup_addDirent hk with ⟨rfl, rfl⟩ | hk
    · obtain ⟨k, p, hp, hpoid⟩ := hparent
      obtain ⟨r, m, hm, hroot⟩ := hmount.stored
      have hinside : Inside root mount d'.oid :=
        ⟨.inr fun k m hm => hd.oid k m (htree.kept k m hm),
          fun k m hm => hnew k m (htree.kept k m hm)⟩
      refine ⟨hinside, fun h => ?_, fun h => ?_⟩
      · exact hd.oid r m (htree.kept r m hm) (hroot.trans h.symm)
      · exact hd.oid k p hp (hpoid.trans h)
    · exact htree.own k d' hk hne

omit htree in
/-- An entry that is put under an entry inside the namespace is reached. -/
theorem allReachable_insert (h : AllReachable root mount db)
    (hp : Inside root mount d.parentOid) : AllReachable root mount db' := by
  have hlookup : ∀ k d', db'.dirents.lookup k = some d' ↔
      (k = d.key ∧ d' = d) ∨ db.dirents.lookup k = some d' := by
    intro k d'
    rw [hdirents]
    refine ⟨lookup_addDirent, ?_⟩
    rintro (⟨rfl, rfl⟩ | hk)
    · exact AList.lookup_insert _
    · have hne : k ≠ d.key := by
        rintro rfl
        exact hd.key (Table.mem_of_lookup hk)
      exact (AList.lookup_insert_ne hne).trans hk
  obtain ⟨k, p, hk, hpoid⟩ := hparent
  have hrooted : Forest.Rooted (ParentOf db') root
      (Set.insert d.oid (added mount db)) := Forest.Rooted.insert h
    (fun a b ⟨k, d', hk, hoid, hpar⟩ =>
      ⟨k, d', (hlookup k d').mpr (.inr hk), hoid, hpar⟩)
    (root_or_added hp hk hpoid)
    ⟨d.key, d, (hlookup d.key d).mpr (.inl ⟨rfl, rfl⟩), rfl, rfl⟩
  rintro x ⟨k, d', hk, hoid, hne⟩
  refine hrooted x ?_
  rcases (hlookup k d').mp hk with ⟨rfl, rfl⟩ | hk
  · exact .inl hoid.symm
  · exact .inr ⟨k, d', hk, hoid, hne⟩

end Insert

/-! ### An entry is removed -/

section Erase

variable {d : Dirent} (hd : db.dirents.lookup d.key = some d)
  (hp : Inside root mount d.parentOid)
  (hdirents : db'.dirents = (db.delDirent d).dirents)

include hd hp

omit htree hd in
theorem ne_mount : mount.dirents.lookup d.key ≠ some d :=
  fun hmount => hp.empty d.key d hmount rfl

include hdirents

theorem erase (hwf : WellFormed db') : Tree root mount db' where
  wellFormed := hwf
  kept k m hm := by
    have hk := htree.kept k m hm
    have hne : k ≠ d.key := by
      rintro rfl
      obtain rfl : m = d := Option.some.inj (hk.symm.trans hd)
      exact ne_mount hp hm
    rw [hdirents]
    exact (AList.lookup_erase_ne hne).trans hk
  own k d' hk hne := by
    rw [hdirents] at hk
    exact htree.own k d' (lookup_of_lookup_erase hk).2 hne

theorem lookup_erase_iff (k : Db1Key) (d' : Dirent) :
    db'.dirents.lookup k = some d' ↔
      db.dirents.lookup k = some d' ∧ d'.oid ≠ d.oid := by
  rw [hdirents]
  constructor
  · intro hk
    obtain ⟨hne, hk⟩ := lookup_of_lookup_erase hk
    refine ⟨hk, fun hoid => hne ?_⟩
    exact (htree.wellFormed.unique.eq_of_lookup hk hd hoid).1
  · rintro ⟨hk, hoid⟩
    have hne : k ≠ d.key := by
      rintro rfl
      obtain rfl : d' = d := Option.some.inj (hk.symm.trans hd)
      exact hoid rfl
    exact (AList.lookup_erase_ne hne).trans hk

/-- The removal of an entry keeps the others reachable exactly if none of them
stands under it. -/
theorem allReachable_erase_iff (h : AllReachable root mount db) :
    AllReachable root mount db' ↔ ∀ c, ¬ ParentOf db d.oid c := by
  have hne := ne_mount hp
  obtain ⟨hinside, -, hself⟩ := htree.own d.key d hd hne
  have hlookup := htree.lookup_erase_iff hd hp hdirents
  have hE : ∀ a b, ParentOf db' a b ↔ ParentOf db a b ∧ b ≠ d.oid := by
    refine fun a b => ⟨?_, ?_⟩
    · rintro ⟨k, d', hk, rfl, hpar⟩
      obtain ⟨hk, hoid⟩ := (hlookup k d').mp hk
      exact ⟨⟨k, d', hk, rfl, hpar⟩, hoid⟩
    · rintro ⟨⟨k, d', hk, rfl, hpar⟩, hoid⟩
      exact ⟨k, d', (hlookup k d').mpr ⟨hk, hoid⟩, rfl, hpar⟩
  have hadded : added mount db' = added mount db \ {d.oid} := by
    ext x
    constructor
    · rintro ⟨k, d', hk, rfl, hne'⟩
      obtain ⟨hk, hoid⟩ := (hlookup k d').mp hk
      exact ⟨⟨k, d', hk, rfl, hne'⟩, hoid⟩
    · rintro ⟨⟨k, d', hk, rfl, hne'⟩, hoid⟩
      exact ⟨k, d', (hlookup k d').mpr ⟨hk, hoid⟩, rfl, hne'⟩
  have hnotself : ¬ ParentOf db d.oid d.oid := by
    rintro ⟨k, d', hk, hoid, hpar⟩
    obtain ⟨-, rfl⟩ := htree.wellFormed.unique.eq_of_lookup hk hd hoid
    exact hself hpar
  unfold AllReachable
  rw [hadded]
  exact Forest.rooted_remove_iff h hE htree.root_notMem ⟨_, d, hd, rfl, hne⟩
    hnotself htree.parent_unique fun c => added_of_parentOf hinside

end Erase

end Tree

/-! ### What one request makes of the tree -/

/-- The request works in a directory inside the namespace, or it changes
nothing. -/
def Request.Within (root : Oid) (mount : NamingDb) : Request Mac → Prop
  | .createNamespace _ _ => False
  | .removeNamespace _ _ => False
  | .createDir parent _ _ _ => Inside root mount parent.direntOid
  | .removeDir parent _ _ => Inside root mount parent.direntOid
  | .createFile parent _ _ _ => Inside root mount parent.direntOid
  | .createLink parent _ _ _ _ _ => Inside root mount parent.direntOid
  | .unlink parent _ _ => Inside root mount parent.direntOid
  | _ => True

/-- The request removes an entry that has entries under it. -/
def Orphans (env : Env Mac) (db : NamingDb) (r : Request Mac) : Prop :=
  ∃ place e, deletes env db r = some place ∧
    namingDbGetByName place.1 place.2 db = .ok e ∧
    ∃ c, ParentOf db e.dirent.oid c

theorem not_orphans {r : Request Mac} (h : deletes env db r = none) :
    ¬ Orphans env db r := by
  rintro ⟨place, e, hplace, -⟩
  rw [h] at hplace
  cases hplace

theorem stored_of_permits {parent : NsEntry} {cap : Cap Mac}
    (h : permits env parent cap db = true) :
    ∃ k d, db.dirents.lookup k = some d ∧ d.oid = parent.direntOid := by
  obtain ⟨e, hget, -⟩ := checkPerm_eq_ok.mp (permits_iff.mp h).2
  obtain ⟨⟨k, hfind⟩, -⟩ := namingDbGetByOid_eq_ok.mp hget
  exact ⟨k, e.dirent, Table.lookup_of_find hfind⟩

/-- What a request puts, it puts under an entry inside the namespace. -/
theorem inside_of_puts {r : Request Mac} (hr : r.Within root mount)
    {entry : DbEntry} (h : puts env db r = some entry) :
    Inside root mount entry.dirent.parentOid ∧
      ∃ k d, db.dirents.lookup k = some d ∧ d.oid = entry.dirent.parentOid := by
  cases r <;> simp only [puts, reduceCtorEq] at h
  case createNamespace name cid => exact absurd hr id
  case createDir parent name cid cap =>
    obtain ⟨hpermits, heq⟩ := Option.ite_none_right_eq_some.mp h
    cases heq
    exact ⟨hr, stored_of_permits hpermits⟩
  case createFile parent name obj cap =>
    obtain ⟨hpermits, heq⟩ := Option.ite_none_right_eq_some.mp h
    cases heq
    exact ⟨hr, stored_of_permits hpermits⟩
  case createLink parent name cap targetParent targetName targetCap =>
    obtain ⟨hchecks, h⟩ := Option.ite_none_right_eq_some.mp h
    obtain ⟨hpermits, -⟩ := Bool.and_eq_true_iff.mp hchecks
    cases htarget : namingDbGetByName targetParent.direntOid targetName db with
    | error f => simp only [htarget, reduceCtorEq] at h
    | ok target =>
        simp only [htarget, Option.some.injEq] at h
        subst h
        exact ⟨hr, stored_of_permits hpermits⟩

theorem inside_of_deletes {r : Request Mac} (hr : r.Within root mount)
    {place : Oid × Name} (h : deletes env db r = some place) :
    Inside root mount place.1 := by
  cases r <;> simp only [deletes, reduceCtorEq] at h
  case removeNamespace name cap => exact absurd hr id
  case removeDir parent name cap =>
    obtain ⟨-, heq⟩ := Option.ite_none_right_eq_some.mp h
    cases heq
    exact hr
  case unlink parent name cap =>
    obtain ⟨-, heq⟩ := Option.ite_none_right_eq_some.mp h
    cases heq
    exact hr

/-- The entries stay, one is put in a directory inside the namespace, or the
entry at the place that the request deletes is erased from one. -/
theorem effect_of_handle (hwf : WellFormed db) {r : Request Mac}
    (hnew : puts env db r = none ∨ NewIds env db) (hr : r.Within root mount) :
    let db' := (handle env r).final db
    (db'.dirents = db.dirents ∧ ¬ Orphans env db r) ∨
    (∃ d, Addable db d ∧ d.oid = env.direntOid ∧
      db'.dirents = (db.addDirent d).dirents ∧ Inside root mount d.parentOid ∧
      (∃ k p, db.dirents.lookup k = some p ∧ p.oid = d.parentOid) ∧
      NewIds env db ∧ ¬ Orphans env db r) ∨
    ∃ d, db.dirents.lookup d.key = some d ∧ Inside root mount d.parentOid ∧
      db'.dirents = (db.delDirent d).dirents ∧
      (Orphans env db r ↔ ∃ c, ParentOf db d.oid c) := by
  intro db'
  -- a request puts an entry, deletes one or only reads
  cases hput : puts env db r with
  | some entry =>
      have hfinal : db' = (namingDbPut entry true).final db :=
        (handle_acts_put env hput).final_eq
      have hnew : NewIds env db := by
        rcases hnew with hnone | hnew
        · rw [hput] at hnone
          cases hnone
        · exact hnew
      have hdel : ¬ Orphans env db r := by
        refine not_orphans ?_
        cases r <;> simp only [puts, deletes, reduceCtorEq] at hput ⊢
      rw [hfinal]
      by_cases hkey : entry.dirent.key ∈ db.dirents
      · rw [final_of_error (namingDbPut_of_mem hkey)]
        exact .inl ⟨rfl, hdel⟩
      · obtain ⟨hinside, hparent⟩ := inside_of_puts hr hput
        exact .inr (.inl ⟨entry.dirent, addable_of_puts hnew.fresh hput hkey,
          direntOid_of_puts hput, dirents_namingDbPut hkey, hinside, hparent,
          hnew, hdel⟩)
  | none =>
      cases hdel : deletes env db r with
      | none =>
          have hfinal : db' = db := (handle_acts_none env hput hdel).final_eq
          exact .inl ⟨by rw [hfinal], not_orphans hdel⟩
      | some place =>
          have hfinal : db' = (namingDbDel place.1 place.2).final db :=
            (handle_acts_del env hdel).final_eq
          have hinside := inside_of_deletes hr hdel
          rw [hfinal]
          cases hget : namingDbGetByName place.1 place.2 db with
          | error e =>
              rw [final_of_error (namingDbDel_of_error hget)]
              refine .inl ⟨rfl, ?_⟩
              rintro ⟨place', e', hplace, hget', -⟩
              obtain rfl := Option.some.inj (hdel.symm.trans hplace)
              rw [hget] at hget'
              cases hget'
          | ok e =>
              obtain ⟨hd, -⟩ := namingDbGetByName_eq_ok.mp hget
              have hkey := hwf.key_eq _ _ hd
              have hparent : e.dirent.parentOid = place.1 :=
                (congrArg Db1Key.parentOid hkey).symm
              rw [hkey] at hd
              refine .inr (.inr ⟨e.dirent, hd, by rwa [hparent],
                dirents_namingDbDel hwf hget, ?_, ?_⟩)
              · rintro ⟨place', e', hplace, hget', hc⟩
                obtain rfl := Option.some.inj (hdel.symm.trans hplace)
                rw [hget] at hget'
                cases hget'
                exact hc
              · exact fun hc => ⟨place, e, hdel, hget, hc⟩

/-- Only a request that puts an entry needs fresh ids. -/
theorem wellFormed_handle (hwf : WellFormed db) {r : Request Mac}
    (hnew : puts env db r = none ∨ NewIds env db) :
    WellFormed ((handle env r).final db) := by
  rcases hnew with hput | hnew
  · cases hdel : deletes env db r with
    | none => rwa [(handle_acts_none env hput hdel).final_eq]
    | some place =>
        obtain ⟨b, hchange, -⟩ := change_of_deletes hwf place.1 place.2
        rw [(handle_acts_del env hdel).final_eq]
        exact hchange.wellFormed hwf
  · obtain ⟨b, hchange, -⟩ := change_of_handle (r := r) hwf hnew.fresh
    exact hchange.wellFormed hwf

/-- A request keeps what was stored at `mount`, and it keeps every entry
reachable exactly if it leaves no entry without its parent. -/
theorem tree_handle (hmount : Mounted root mount) (htree : Tree root mount db)
    {r : Request Mac} (hnew : puts env db r = none ∨ NewIds env db)
    (hr : r.Within root mount) :
    Tree root mount ((handle env r).final db) ∧
      (AllReachable root mount db →
        (AllReachable root mount ((handle env r).final db) ↔
          ¬ Orphans env db r)) := by
  have hwf := wellFormed_handle htree.wellFormed hnew
  rcases effect_of_handle htree.wellFormed hnew hr with
    ⟨hdirents, hspares⟩ |
    ⟨d, hd, hoid, hdirents, hinside, hparent, hnew, hspares⟩ |
    ⟨d, hd, hinside, hdirents, horphans⟩
  · have hsame := allReachable_congr root mount hdirents
    refine ⟨⟨hwf, ?_, ?_⟩, fun h => iff_of_true (hsame.mpr h) hspares⟩
    · rw [hdirents]
      exact htree.kept
    · rw [hdirents]
      exact htree.own
  · refine ⟨htree.insert hd hdirents hparent hmount hwf ?_, fun h => ?_⟩
    · rw [hoid]
      exact hnew.parent
    · exact iff_of_true (Tree.allReachable_insert hd hdirents hparent h hinside)
        hspares
  · refine ⟨htree.erase hd hinside hdirents hwf, fun h => ?_⟩
    rw [horphans, not_exists]
    exact htree.allReachable_erase_iff hd hinside hdirents h

/-- The tree with all its entries reachable. -/
structure Grown (root : Oid) (mount db : NamingDb) : Prop where
  tree : Tree root mount db
  reachable : AllReachable root mount db

theorem grown_step (hmount : Mounted root mount) {s : Server}
    (h : Grown root mount s.db) {r : Request Mac}
    (hnew : puts env s.db r = none ∨ NewIds env s.db)
    (hr : r.Within root mount) (hspares : s.up = true → ¬ Orphans env s.db r) :
    Grown root mount (step s (env, r)).db := by
  unfold step
  split_ifs with hup
  · obtain ⟨htree, hreachable⟩ := tree_handle hmount h.tree hnew hr
    exact ⟨htree, (hreachable h.reachable).mpr (hspares hup)⟩
  · exact h

end Lwfs.Naming
