import Lwfs.Naming.Initial

/-!
Who may change the namespace.

Apart from the creation of a namespace, every change is made under a
capability for writing that the authorization service has accepted, and that
is for the container stored for the directory in which the change is made, or
for the namespace that is removed. What the client says about the container
of that entry does not matter.
-/

namespace Lwfs.Naming

open SysLib Routine

variable {Mac : Type} {env : Env Mac} {db : NamingDb}

/-- The capability that a request presents for the entry it changes. -/
def Request.writeCap : Request Mac → Option (Cap Mac)
  | .removeNamespace _ cap => some cap
  | .createDir _ _ _ cap => some cap
  | .removeDir _ _ cap => some cap
  | .createFile _ _ _ cap => some cap
  | .createLink _ _ cap _ _ _ => some cap
  | .unlink _ _ cap => some cap
  | _ => none

/-- The stored entry that a request changes: the parent directory that its
argument names, or the namespace that it removes. -/
def Request.modified (db : NamingDb) : Request Mac → Option DbEntry
  | .removeNamespace name _ => (namingDbGetByName Oid.zero name db).toOption
  | .createDir parent _ _ _ => (namingDbGetByOid parent.direntOid db).toOption
  | .removeDir parent _ _ => (namingDbGetByOid parent.direntOid db).toOption
  | .createFile parent _ _ _ => (namingDbGetByOid parent.direntOid db).toOption
  | .createLink parent _ _ _ _ _ =>
      (namingDbGetByOid parent.direntOid db).toOption
  | .unlink parent _ _ => (namingDbGetByOid parent.direntOid db).toOption
  | _ => none

/-- The keys that belong to the entry `e` that a request changes: the keys in
the directory `e`, or the key of the namespace `e`. -/
def Request.InModified (e : DbEntry) (k : Db1Key) : Request Mac → Prop
  | .removeNamespace _ _ => k = e.dirent.key
  | _ => k.parentOid = e.dirent.oid

/-- The capability allows writing to the entry. -/
structure Grants (Accepted : Cap Mac → Prop) (cap : Cap Mac) (e : DbEntry) :
    Prop where
  accepted : Accepted cap
  write : containerWrite &&& cap.data.containerOp = containerWrite
  cid : e.inode.entryObj.cid = cidAny ∨ e.inode.entryObj.cid = cap.data.cid

/-! ### The entries that a change touches -/

/-- The inodes may differ, the entries do not. -/
def SameDirents (db db' : NamingDb) : Prop := db'.dirents = db.dirents

instance : Std.Refl SameDirents := ⟨fun _ => rfl⟩

instance : IsTrans NamingDb SameDirents := ⟨fun _ _ _ h h' => h'.trans h⟩

theorem inodePut_within (o : Oid) (i : Inode) (noOverwrite : Bool) :
    Within SameDirents (inodePut o i noOverwrite) := by
  intro db
  by_cases h : noOverwrite = true ∧ o ∈ db.inodes
  · obtain ⟨rfl, hmem⟩ := h
    rw [final_of_error (inodePut_of_mem hmem)]
    exact Std.Refl.refl db
  · rw [final_of_ok (inodePut_of_notMem h)]
    exact Eq.refl db.dirents

theorem inodeIncrementRefcnt_within (o : Oid) :
    Within SameDirents (inodeIncrementRefcnt o) := by
  refine within_bind within_get fun db => ?_
  cases db.inodes.lookup o with
  | none => exact within_throw _
  | some i => exact inodePut_within o _ false

theorem inodeAttach_within (e : DbEntry) (noOverwrite : Bool) :
    Within SameDirents (inodeAttach e noOverwrite) :=
  within_ite (fun _ => inodeIncrementRefcnt_within _)
    fun _ => inodePut_within _ _ _

theorem dirents_namingDbPut {entry : DbEntry}
    (hkey : entry.dirent.key ∉ db.dirents) :
    ((namingDbPut entry true).final db).dirents =
      (db.addDirent entry.dirent).dirents := by
  have hfin : (namingDbPut entry true).final db =
      (inodeAttach entry true).final (db.addDirent entry.dirent) := by
    simp only [final, namingDbPut_of_notMem hkey]
  rw [hfin]
  exact inodeAttach_within entry true (db.addDirent entry.dirent)

theorem dirents_namingDbDel (hwf : WellFormed db) {parentOid : Oid}
    {name : Name} {e : DbEntry} (h : namingDbGetByName parentOid name db = .ok e) :
    ((namingDbDel parentOid name).final db).dirents =
      (db.delDirent e.dirent).dirents := by
  rcases refCnt_trichotomy (e.inode.refCnt - 1) with hcnt | hcnt | hcnt
  · rw [final_of_ok (namingDbDel_last hwf h hcnt), NamingDb.delInode_dirents]
  · rw [final_of_ok (namingDbDel_more hwf h hcnt), NamingDb.putInode_dirents]
  · rw [final_of_error (namingDbDel_negative hwf h hcnt)]

/-- `naming_db_put` changes the directory at the key of its entry only. -/
theorem lookup_namingDbPut {entry : DbEntry} {k : Db1Key}
    (h : k ≠ entry.dirent.key) :
    ((namingDbPut entry true).final db).dirents.lookup k = db.dirents.lookup k := by
  by_cases hkey : entry.dirent.key ∈ db.dirents
  · rw [final_of_error (namingDbPut_of_mem hkey)]
  · rw [dirents_namingDbPut hkey]
    exact AList.lookup_insert_ne h

/-- `naming_db_del` changes the directory at its key only. -/
theorem lookup_namingDbDel (hwf : WellFormed db) {parentOid : Oid} {name : Name}
    {k : Db1Key} (h : k ≠ db1Keygen parentOid name) :
    ((namingDbDel parentOid name).final db).dirents.lookup k =
      db.dirents.lookup k := by
  cases hget : namingDbGetByName parentOid name db with
  | error e => rw [final_of_error (namingDbDel_of_error hget)]
  | ok e =>
      obtain ⟨hd, -⟩ := namingDbGetByName_eq_ok.mp hget
      have hkey : k ≠ e.dirent.key := hwf.key_eq _ _ hd ▸ h
      rw [dirents_namingDbDel hwf hget]
      exact AList.lookup_erase_ne hkey

/-! ### Requests that pass their checks are granted -/

theorem toOption_of_ok {α : Type} {x : Except Fault α} {a : α} (h : x = .ok a) :
    x.toOption = some a := by
  rw [h]
  rfl

theorem namespaceLookup_eq_ok {name : Name} {ns : Namespace}
    (h : namespaceLookup name db = .ok ns) :
    ∃ e, namingDbGetByName Oid.zero name db = .ok e ∧
      ns.nsEntry.direntOid = e.dirent.oid ∧
      ns.nsEntry.parentOid = e.dirent.parentOid := by
  unfold namespaceLookup at h
  cases hget : namingDbGetByName Oid.zero name db with
  | error f =>
      rw [hget] at h
      cases h
  | ok e =>
      have hcopy : copyDbToNamespace e db = .ok ns := by
        rw [hget] at h
        exact h
      unfold copyDbToNamespace copyDbToNsEntry at hcopy
      cases hobj : getFileObj db (db.dirents.entries.length + 2) e with
      | error f =>
          rw [hobj] at hcopy
          cases hcopy
      | ok fileObj =>
          rw [hobj] at hcopy
          cases hcopy
          exact ⟨e, rfl, rfl, rfl⟩

section Granted

variable {Accepted : Cap Mac → Prop}
  (haccepted : ∀ cap, env.verifyCaps cap = none → Accepted cap)

include haccepted

theorem grants_of_checkPerm {oid : Oid} {cap : Cap Mac}
    (h : checkPerm env oid cap containerWrite db = .ok ()) :
    ∃ e, namingDbGetByOid oid db = .ok e ∧ e.dirent.oid = oid ∧
      Grants Accepted cap e := by
  obtain ⟨e, hget, hcid, hop, hverify⟩ := checkPerm_eq_ok.mp h
  obtain ⟨⟨k, hfind⟩, -⟩ := namingDbGetByOid_eq_ok.mp hget
  exact ⟨e, hget, (Table.lookup_of_find hfind).2,
    haccepted cap hverify, hop, hcid⟩

/-- A client that passes the checks of a directory may write to it. -/
theorem grants_of_permits {parent : NsEntry} {cap : Cap Mac}
    (h : permits env parent cap db = true) :
    ∃ e, (namingDbGetByOid parent.direntOid db).toOption = some e ∧
      Grants Accepted cap e ∧ parent.direntOid = e.dirent.oid := by
  obtain ⟨e, hget, hoid, hgrants⟩ :=
    grants_of_checkPerm haccepted (permits_iff.mp h).2
  exact ⟨e, toOption_of_ok hget, hgrants, hoid.symm⟩

/-- What a request puts, it puts in the directory that it was granted. -/
theorem grants_of_puts {r : Request Mac} {entry : DbEntry}
    (h : puts env db r = some entry) :
    (∃ name cid, r = .createNamespace name cid) ∨
      ∃ cap e, r.writeCap = some cap ∧ r.modified db = some e ∧
        Grants Accepted cap e ∧ r.InModified e entry.dirent.key := by
  cases r <;> simp only [puts, reduceCtorEq] at h
  case createNamespace name cid => exact .inl ⟨name, cid, rfl⟩
  case createDir parent name cid cap =>
    obtain ⟨hpermits, heq⟩ := Option.ite_none_right_eq_some.mp h
    obtain ⟨e, hget, hgrants, hoid⟩ := grants_of_permits haccepted hpermits
    cases heq
    exact .inr ⟨cap, e, rfl, hget, hgrants, hoid⟩
  case createFile parent name obj cap =>
    obtain ⟨hpermits, heq⟩ := Option.ite_none_right_eq_some.mp h
    obtain ⟨e, hget, hgrants, hoid⟩ := grants_of_permits haccepted hpermits
    cases heq
    exact .inr ⟨cap, e, rfl, hget, hgrants, hoid⟩
  case createLink parent name cap targetParent targetName targetCap =>
    obtain ⟨hchecks, h⟩ := Option.ite_none_right_eq_some.mp h
    obtain ⟨hpermits, -⟩ := Bool.and_eq_true_iff.mp hchecks
    obtain ⟨e, hget, hgrants, hoid⟩ := grants_of_permits haccepted hpermits
    cases htarget : namingDbGetByName targetParent.direntOid targetName db with
    | error f => simp only [htarget, reduceCtorEq] at h
    | ok target =>
        simp only [htarget, Option.some.injEq] at h
        subst h
        exact .inr ⟨cap, e, rfl, hget, hgrants, hoid⟩

/-- What a request deletes, it deletes from the directory that it was
granted, or it is the namespace that it was granted. -/
theorem grants_of_deletes (hwf : WellFormed db) {r : Request Mac}
    {parentOid : Oid} {name : Name}
    (h : deletes env db r = some (parentOid, name)) :
    ∃ cap e, r.writeCap = some cap ∧ r.modified db = some e ∧
      Grants Accepted cap e ∧ r.InModified e (db1Keygen parentOid name) := by
  cases r <;> simp only [deletes, reduceCtorEq] at h
  case removeNamespace name' cap =>
    cases hns : namespaceLookup name' db with
    | error f => simp only [hns, reduceCtorEq] at h
    | ok ns =>
        simp only [hns] at h
        obtain ⟨hperm, heq⟩ := Option.ite_none_right_eq_some.mp h
        cases heq
        obtain ⟨e, hget, hoid, hparent⟩ := namespaceLookup_eq_ok hns
        obtain ⟨hd, hi⟩ := namingDbGetByName_eq_ok.mp hget
        have hkey := hwf.key_eq _ _ hd
        have hzero : e.dirent.parentOid = Oid.zero :=
          (congrArg Db1Key.parentOid hkey).symm
        obtain ⟨e', hget', -, hgrants⟩ :=
          grants_of_checkPerm haccepted (isOk_iff.mp hperm)
        -- the entry found by its id is the namespace that was looked up
        have heq : e' = e := by
          have hbyoid : namingDbGetByOid e.dirent.oid db = .ok e :=
            namingDbGetByOid_eq_ok.mpr ⟨⟨_, hwf.unique.find_eq hd⟩, hi⟩
          rw [hoid, hbyoid] at hget'
          exact (Except.ok.inj hget').symm
        subst heq
        refine ⟨cap, e', rfl, toOption_of_ok hget, hgrants, ?_⟩
        rw [hparent, hzero]
        exact hkey
  case removeDir parent name' cap =>
    obtain ⟨hpermits, heq⟩ := Option.ite_none_right_eq_some.mp h
    obtain ⟨e, hget, hgrants, hoid⟩ := grants_of_permits haccepted hpermits
    cases heq
    exact ⟨cap, e, rfl, hget, hgrants, hoid⟩
  case unlink parent name' cap =>
    obtain ⟨hpermits, heq⟩ := Option.ite_none_right_eq_some.mp h
    obtain ⟨e, hget, hgrants, hoid⟩ := grants_of_permits haccepted hpermits
    cases heq
    exact ⟨cap, e, rfl, hget, hgrants, hoid⟩

/-- What a step changes in a well-formed database, it was granted. -/
theorem grants_of_change {s : Server} (hwf : WellFormed s.db) {r : Request Mac}
    (hchange : (step s (env, r)).db ≠ s.db) :
    (∃ name cid, r = .createNamespace name cid) ∨
      ∃ cap e, r.writeCap = some cap ∧ r.modified s.db = some e ∧
        Grants Accepted cap e ∧
        ∀ k, (step s (env, r)).db.dirents.lookup k ≠ s.db.dirents.lookup k →
          r.InModified e k := by
  unfold step at hchange ⊢
  split_ifs at hchange ⊢ with hup
  · cases hput : puts env s.db r with
    | some entry =>
        rcases grants_of_puts haccepted hput with
          hcreate | ⟨cap, e, hcap, hmod, hgrants, hin⟩
        · exact .inl hcreate
        · refine .inr ⟨cap, e, hcap, hmod, hgrants, fun k hk => ?_⟩
          rw [(handle_acts_put env hput).final_eq] at hk
          by_contra hout
          have hne : k ≠ entry.dirent.key := fun heq => hout (heq ▸ hin)
          exact hk (lookup_namingDbPut hne)
    | none =>
        cases hdel : deletes env s.db r with
        | some place =>
            obtain ⟨parentOid, name⟩ := place
            obtain ⟨cap, e, hcap, hmod, hgrants, hin⟩ :=
              grants_of_deletes haccepted hwf hdel
            refine .inr ⟨cap, e, hcap, hmod, hgrants, fun k hk => ?_⟩
            rw [(handle_acts_del env hdel).final_eq] at hk
            by_contra hout
            have hne : k ≠ db1Keygen parentOid name := fun heq => hout (heq ▸ hin)
            exact hk (lookup_namingDbDel hwf hne)
        | none =>
            rw [(handle_acts_none env hput hdel).final_eq] at hchange
            exact absurd rfl hchange
  · exact absurd rfl hchange

end Granted

/-- In every state that the server reaches from a cleared database, a request
that changes an entry or an inode creates a namespace, or it presents a
capability that the authorization service has accepted, that allows writing,
and that is for the container stored for the entry it changes. -/
theorem change_granted {oids : InitOids} (hoids : oids.Fresh) {s : Server}
    (hs : Reachable Mac oids s) {Accepted : Cap Mac → Prop}
    (haccepted : ∀ cap, env.verifyCaps cap = none → Accepted cap)
    {r : Request Mac} (hchange : (step s (env, r)).db ≠ s.db) :
    (∃ name cid, r = .createNamespace name cid) ∨
      ∃ cap e, r.writeCap = some cap ∧ r.modified s.db = some e ∧
        Grants Accepted cap e ∧
        ∀ k, (step s (env, r)).db.dirents.lookup k ≠ s.db.dirents.lookup k →
          r.InModified e k :=
  grants_of_change haccepted (hs.wellFormed hoids) hchange

theorem change_granted_createFile :
    ∃ e, createFileStep.2.modified (Server.init countingOids).db = some e ∧
      Grants (· = readWriteCap) readWriteCap e := by
  have haccepted : ∀ cap, createFileStep.1.verifyCaps cap = none →
      cap = readWriteCap := fun cap h => by
    by_contra hne
    rw [show createFileStep.1.verifyCaps cap = some .errVerifycap from if_neg hne] at h
    cases h
  have hchange : (step (Server.init countingOids) createFileStep).db ≠
      (Server.init countingOids).db := fun h =>
    absurd (congrArg (fun db : NamingDb => db.links (oidOf 11)) h) (by decide)
  rcases change_granted (r := createFileStep.2) countingOids_fresh
    ⟨[], trivial, rfl⟩ haccepted hchange with ⟨_, _, h⟩ | ⟨_, e, ⟨rfl⟩, hmod, hg, -⟩
  · cases h
  · exact ⟨e, hmod, hg⟩

end Lwfs.Naming
