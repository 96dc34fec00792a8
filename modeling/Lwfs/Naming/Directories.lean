import Lwfs.Naming.Access
import Lwfs.Naming.CleanFailures
import Lwfs.Naming.LinkCounts
import Lwfs.Naming.Listing
import Lwfs.Naming.Namespaces

/-!
The naming server as its clients see it: a map from names to entries.

A client knows an entry by its id and the id of its inode. `Follows` says what
a request and its reply tell about the map, in terms of the map alone: a reply
to a creation that was free before is bound after it, a lookup returns what is
bound, a listing has the bound names of a directory and no others. The server
follows it in every run (`step_follows`), so that what a client was told stays
true until a request for the same name comes (`told_until_addressed`).

An error reply means that nothing has changed, with two exceptions that the
server really has: a link to the entry that is named after the latest
generated id is left behind, and an initial directory that is removed ends
the server.
-/

namespace Lwfs.Naming

open SysLib Routine

variable {Mac : Type}

/-! ### The map and the requests for it -/

/-- What a client knows an entry by. -/
structure Binding where
  direntOid : Oid
  inodeOid : Oid
  deriving DecidableEq

abbrev Directories := Db1Key → Option Binding

def Dirent.binding (d : Dirent) : Binding := ⟨d.oid, d.inodeOid⟩

def NamingDb.directories (db : NamingDb) : Directories := fun k =>
  (db.dirents.lookup k).map Dirent.binding

def NsEntry.binding (e : NsEntry) : Binding := ⟨e.direntOid, e.inodeOid⟩

/-- Where a returned entry stands. -/
def NsEntry.key (e : NsEntry) : Db1Key := ⟨e.parentOid, e.name⟩

/-- The binding that a reply has. -/
def Result.binding : Result → Option Binding
  | .namespace ns => some ns.nsEntry.binding
  | .nsEntry e => some e.binding
  | _ => none

/-- The name that a request creates. -/
def Request.creates : Request Mac → Option Db1Key
  | .createNamespace name _ => some (db1Keygen Oid.zero name)
  | .createDir parent name _ _ => some (db1Keygen parent.direntOid name)
  | .createFile parent name _ _ => some (db1Keygen parent.direntOid name)
  | .createLink parent name _ _ _ _ => some (db1Keygen parent.direntOid name)
  | _ => none

/-- The name that a request removes. -/
def Request.removes : Request Mac → Option Db1Key
  | .removeNamespace name _ => some (db1Keygen Oid.zero name)
  | .removeDir parent name _ => some (db1Keygen parent.direntOid name)
  | .unlink parent name _ => some (db1Keygen parent.direntOid name)
  | _ => none

/-- The name that a request asks for. -/
def Request.finds : Request Mac → Option Db1Key
  | .getNamespace name => some (db1Keygen Oid.zero name)
  | .lookup parent name _ => some (db1Keygen parent.direntOid name)
  | _ => none

/-- A request and its reply between two states of the map. -/
inductive Follows (dirs : Directories) :
    Request Mac → Except Fault Result → Directories → Prop
  | created {r : Request Mac} {k : Db1Key} {b : Binding} {result : Result}
      (hk : r.creates = some k) (hfree : dirs k = none)
      (hb : result.binding = some b) :
      Follows dirs r (.ok result) (Function.update dirs k (some b))
  | removed {r : Request Mac} {k : Db1Key} {b : Binding} {result : Result}
      (hk : r.removes = some k) (hbound : dirs k = some b)
      (hb : result.binding = some b) :
      Follows dirs r (.ok result) (Function.update dirs k none)
  | found {r : Request Mac} {k : Db1Key} {b : Binding} {result : Result}
      (hk : r.finds = some k) (hbound : dirs k = some b)
      (hb : result.binding = some b) :
      Follows dirs r (.ok result) dirs
  /-- A listing has exactly the bound names of the directory, each once. -/
  | listed {parent : NsEntry} {cap : Cap Mac} {entries : List NsEntry}
      (honce : (entries.map NsEntry.key).Nodup)
      (hall : ∀ k b, k.parentOid = parent.direntOid ∧ dirs k = some b ↔
        ∃ e ∈ entries, e.key = k ∧ e.binding = b) :
      Follows dirs (.listDir parent cap) (.ok (.nsEntries entries)) dirs
  | listedNamespaces {nss : List Namespace} :
      Follows dirs .listNamespaces (.ok (.namespaces nss)) dirs
  | told {obj : Obj} {cap : Cap Mac} {data : StatData} :
      Follows dirs (.stat obj cap) (.ok (.statData data)) dirs
  | refused {r : Request Mac} {fault : Fault} :
      Follows dirs r (.error fault) dirs
  /-- A link to the entry without an id stays, although the reply is an
  error. -/
  | leftBehind {parent targetParent : NsEntry} {name targetName : Name}
      {cap targetCap : Cap Mac} {b : Binding} {k : Db1Key}
      (htarget : dirs (db1Keygen targetParent.direntOid targetName) =
        some ⟨Oid.zero, Oid.zero⟩)
      (hk : k = db1Keygen parent.direntOid name) (hfree : dirs k = none) :
      Follows dirs
        (.createLink parent name cap targetParent targetName targetCap)
        (.error (.code .errExist)) (Function.update dirs k (some b))
  /-- The server aborts, and the name is gone. -/
  | aborted {r : Request Mac} {k : Db1Key} (hk : r.removes = some k)
      (hbound : dirs k ≠ none) :
      Follows dirs r (.error .abort) (Function.update dirs k none)

/-- A request that creates or removes a name. -/
def Request.Addresses (r : Request Mac) (k : Db1Key) : Prop :=
  r.creates = some k ∨ r.removes = some k

instance (r : Request Mac) (k : Db1Key) : Decidable (r.Addresses k) :=
  inferInstanceAs (Decidable (_ ∨ _))

/-- Only a request that creates or removes a name changes what it is bound
to. -/
theorem Follows.eq_of_not_addresses {dirs dirs' : Directories} {r : Request Mac}
    {reply : Except Fault Result} (h : Follows dirs r reply dirs') {k : Db1Key}
    (hk : ¬ r.Addresses k) : dirs' k = dirs k := by
  cases h with
  | created hcreates =>
      apply Function.update_of_ne
      rintro rfl
      exact hk (.inl hcreates)
  | removed hremoves =>
      apply Function.update_of_ne
      rintro rfl
      exact hk (.inr hremoves)
  | leftBehind _ hcreates =>
      apply Function.update_of_ne
      rintro rfl
      exact hk (.inl (hcreates ▸ rfl))
  | aborted hremoves =>
      apply Function.update_of_ne
      rintro rfl
      exact hk (.inr hremoves)
  | _ => rfl

/-! ### How the database maps names -/

section Database

variable {db : NamingDb}

theorem directories_eq_some {k : Db1Key} {b : Binding} :
    db.directories k = some b ↔
      ∃ d, db.dirents.lookup k = some d ∧ d.binding = b :=
  Option.map_eq_some_iff

theorem directories_eq_none {k : Db1Key} :
    db.directories k = none ↔ k ∉ db.dirents := by
  rw [NamingDb.directories, Option.map_eq_none_iff, AList.lookup_eq_none]

@[simp] theorem directories_putInode (i : Inode) :
    (db.putInode i).directories = db.directories := rfl

theorem directories_addDirent (d : Dirent) : (db.addDirent d).directories =
    Function.update db.directories d.key (some d.binding) := by
  ext k' : 1
  simp only [NamingDb.directories, NamingDb.addDirent]
  rcases eq_or_ne k' d.key with rfl | hne
  · simp
  · rw [AList.lookup_insert_ne hne, Function.update_of_ne hne]
    rfl

theorem directories_of_erase {t : NamingDb} {k : Db1Key}
    (h : t.dirents = db.dirents.erase k) :
    t.directories = Function.update db.directories k none := by
  ext k' : 1
  simp only [NamingDb.directories, h]
  rcases eq_or_ne k' k with rfl | hne
  · simp
  · rw [AList.lookup_erase_ne hne, Function.update_of_ne hne]
    rfl

theorem directories_of_getByName {parentOid : Oid} {name : Name} {e : DbEntry}
    (h : namingDbGetByName parentOid name db = .ok e) :
    db.directories (db1Keygen parentOid name) = some e.dirent.binding :=
  directories_eq_some.mpr ⟨_, (namingDbGetByName_eq_ok.mp h).1, rfl⟩

end Database

/-! ### Creations -/

section Handlers

variable {env : Env Mac} {db t : NamingDb} {r : Request Mac} {entry : DbEntry}

/-- A request puts its entry under the name that it creates. -/
theorem creates_of_puts (h : puts env db r = some entry) :
    r.creates = some entry.dirent.key := by
  cases r <;> simp only [puts, reduceCtorEq] at h
  case createNamespace name cid =>
    obtain rfl := Option.some.inj h
    simp only [Request.creates, key_newEntry]
  case createDir parent name cid cap =>
    obtain ⟨-, heq⟩ := Option.ite_none_right_eq_some.mp h
    obtain rfl := Option.some.inj heq
    simp only [Request.creates, key_newEntry]
  case createFile parent name obj cap =>
    obtain ⟨-, heq⟩ := Option.ite_none_right_eq_some.mp h
    obtain rfl := Option.some.inj heq
    simp only [Request.creates, key_newEntry]
  case createLink parent name cap targetParent targetName targetCap =>
    obtain ⟨-, h⟩ := Option.ite_none_right_eq_some.mp h
    cases hget : namingDbGetByName targetParent.direntOid targetName db with
    | error f => simp only [hget, reduceCtorEq] at h
    | ok target =>
        simp only [hget, Option.some.injEq] at h
        subst h
        exact congrArg some (congrArg (Db1Key.mk _) (clip_clip name).symm)

/-- What the sanity check of `naming_create_file` looks for is there. -/
theorem getByOid_of_puts (hwf : WellFormed db) (hfresh : Fresh env db)
    (hput : puts env db r = some entry)
    (hok : namingDbPut entry true db = .ok () t)
    (hlink : entry.dirent.link = Oid.zero) :
    namingDbGetByOid entry.dirent.oid t = .ok entry := by
  have hkey : entry.dirent.key ∉ db.dirents := by
    intro hmem
    rw [namingDbPut_of_mem hmem] at hok
    cases hok
  obtain ⟨_, _, _, _, _, rfl⟩ | ⟨_, _, _, target, hd, hi, rfl⟩ := puts_cases hput
  · rw [namingDbPut_newEntry hfresh hkey] at hok
    obtain ⟨-, rfl⟩ := EStateM.Result.ok.inj hok
    exact getByOid_newEntry hwf hfresh hkey
  · rw [namingDbPut_linkTo_zero hwf hlink hi hkey] at hok
    cases hok

/-- The checks of a creation come before its entry is put, and what comes
after that does not fail. -/
theorem handle_of_puts (hwf : WellFormed db) (hfresh : Fresh env db)
    (hdb : NoLinkObj db) (h : puts env db r = some entry) :
    (∀ f t, namingDbPut entry true db = .error f t →
      handle env r db = .error f t) ∧
    ∀ t, namingDbPut entry true db = .ok () t →
      ∃ result, handle env r db = .ok result t ∧
        result.binding = some entry.dirent.binding := by
  -- only `naming_create_file` reads the entry back
  have hstored : ∀ t, namingDbPut entry true db = .ok () t →
      entry.dirent.link = Oid.zero →
        namingDbGetByOid entry.dirent.oid t = .ok entry :=
    fun t => getByOid_of_puts hwf hfresh h
  have htype := type_of_puts hdb h
  cases r <;> simp only [puts, reduceCtorEq] at h
  case createNamespace name cid =>
    obtain rfl := Option.some.inj h
    constructor
    · intro f t hput
      exact map_of_error (bind_of_error hput)
    · intro t hput
      exact ⟨_, map_of_ok ((bind_of_ok hput).trans
        (reader_of_ok (copyDbToNamespace_of_type htype))), rfl⟩
  case createDir parent name cid cap =>
    obtain ⟨hpermits, heq⟩ := Option.ite_none_right_eq_some.mp h
    obtain rfl := Option.some.inj heq
    obtain ⟨hparent, hperm⟩ := permits_iff.mp hpermits
    constructor
    · intro f t hput
      exact map_of_error ((reader_bind_ok (s := db) hparent).trans
        ((reader_bind_ok hperm).trans (bind_of_error hput)))
    · intro t hput
      exact ⟨_, map_of_ok ((reader_bind_ok (s := db) hparent).trans
        ((reader_bind_ok hperm).trans ((bind_of_ok hput).trans
          (reader_of_ok (copyDbToNsEntry_of_type htype))))), rfl⟩
  case createFile parent name obj cap =>
    obtain ⟨hpermits, heq⟩ := Option.ite_none_right_eq_some.mp h
    obtain rfl := Option.some.inj heq
    obtain ⟨hparent, hperm⟩ := permits_iff.mp hpermits
    constructor
    · intro f t hput
      exact map_of_error ((reader_bind_ok (s := db) hparent).trans
        ((reader_bind_ok hperm).trans (bind_of_error hput)))
    · intro t hput
      exact ⟨_, map_of_ok ((reader_bind_ok (s := db) hparent).trans
        ((reader_bind_ok hperm).trans ((bind_of_ok hput).trans
          ((reader_bind_ok (hstored t hput rfl)).trans
            (reader_of_ok (copyDbToNsEntry_of_type htype)))))), rfl⟩
  case createLink parent name cap targetParent targetName targetCap =>
    obtain ⟨hchecks, h⟩ := Option.ite_none_right_eq_some.mp h
    obtain ⟨hpermits, htarget⟩ := Bool.and_eq_true_iff.mp hchecks
    obtain ⟨hparent, hperm⟩ := permits_iff.mp hpermits
    cases hget : namingDbGetByName targetParent.direntOid targetName db with
    | error f => simp only [hget, reduceCtorEq] at h
    | ok target =>
        simp only [hget, Option.some.injEq] at h
        subst h
        constructor
        · intro f t hput
          exact map_of_error ((reader_bind_ok (s := db) hparent).trans
            ((reader_bind_ok hperm).trans
              ((reader_bind_ok (isOk_iff.mp htarget)).trans
                ((reader_bind_ok hget).trans (bind_of_error hput)))))
        · intro t hput
          exact ⟨_, map_of_ok ((reader_bind_ok (s := db) hparent).trans
            ((reader_bind_ok hperm).trans
              ((reader_bind_ok (isOk_iff.mp htarget)).trans
                ((reader_bind_ok hget).trans ((bind_of_ok hput).trans
                  (reader_of_ok (copyDbToNsEntry_of_type htype))))))), rfl⟩

/-- An entry without an inode of its own is a link. -/
theorem createLink_of_puts (h : puts env db r = some entry)
    (hinode : entry.dirent.inodeOid ≠ env.inodeOid) :
    ∃ parent name cap targetParent targetName targetCap target,
      r = .createLink parent name cap targetParent targetName targetCap ∧
        namingDbGetByName targetParent.direntOid targetName db = .ok target ∧
        entry = linkTo env parent.direntOid name target := by
  cases r <;> simp only [puts, reduceCtorEq] at h
  case createNamespace name cid =>
    obtain rfl := Option.some.inj h
    exact absurd rfl hinode
  case createDir parent name cid cap =>
    obtain ⟨-, heq⟩ := Option.ite_none_right_eq_some.mp h
    obtain rfl := Option.some.inj heq
    exact absurd rfl hinode
  case createFile parent name obj cap =>
    obtain ⟨-, heq⟩ := Option.ite_none_right_eq_some.mp h
    obtain rfl := Option.some.inj heq
    exact absurd rfl hinode
  case createLink parent name cap targetParent targetName targetCap =>
    obtain ⟨-, h⟩ := Option.ite_none_right_eq_some.mp h
    cases hget : namingDbGetByName targetParent.direntOid targetName db with
    | error f => simp only [hget, reduceCtorEq] at h
    | ok target =>
        simp only [hget, Option.some.injEq] at h
        exact ⟨_, _, _, _, _, _, _, rfl, hget, h.symm⟩

/-- What a creation does to the map. -/
theorem follows_of_puts (hwf : WellFormed db) (hfresh : Fresh env db)
    (hdb : NoLinkObj db) (h : puts env db r = some entry) :
    Follows db.directories r ((handle env r).outcome db)
      ((handle env r).final db).directories := by
  obtain ⟨herror, hok⟩ := handle_of_puts hwf hfresh hdb h
  have hcreates := creates_of_puts h
  by_cases hkey : entry.dirent.key ∈ db.dirents
  · have hhandle := herror _ _ (namingDbPut_of_mem hkey)
    rw [outcome_of_error hhandle, final_of_error hhandle]
    exact .refused
  have hfree := directories_eq_none.mpr hkey
  obtain ⟨_, _, _, _, _, rfl⟩ | ⟨_, _, k, target, hd, hi, rfl⟩ := puts_cases h
  · obtain ⟨result, hhandle, hb⟩ := hok _ (namingDbPut_newEntry hfresh hkey)
    rw [outcome_of_ok hhandle, final_of_ok hhandle, directories_putInode,
      directories_addDirent]
    exact .created hcreates hfree hb
  · rcases eq_or_ne target.dirent.oid Oid.zero with hzero | hne
    · have hhandle := herror _ _ (namingDbPut_linkTo_zero hwf hzero hi hkey)
      have hinode : target.dirent.inodeOid ≠ env.inodeOid := hfresh.links k _ hd
      obtain ⟨parent, name, cap, targetParent, targetName, targetCap, target',
        rfl, hget, heq⟩ := createLink_of_puts h hinode
      have hoid : target'.dirent.binding = ⟨Oid.zero, Oid.zero⟩ := by
        have hlink := congrArg (fun e => e.dirent.link) heq
        have hzero' : target'.dirent.oid = Oid.zero := hlink.symm.trans hzero
        have hd' := (namingDbGetByName_eq_ok.mp hget).1
        rw [Dirent.binding, hzero', hwf.zero _ _ hd' hzero']
      rw [outcome_of_error hhandle, final_of_error hhandle,
        directories_addDirent]
      refine .leftBehind ?_ (Option.some.inj hcreates).symm hfree
      rw [directories_of_getByName hget, hoid]
    · obtain ⟨result, hhandle, hb⟩ := hok _ (namingDbPut_linkTo hwf hne hi hkey)
      rw [outcome_of_ok hhandle, final_of_ok hhandle, directories_putInode,
        directories_addDirent]
      exact .created hcreates hfree hb

/-! ### Removals -/

/-- A request deletes the entry under the name that it removes. -/
theorem removes_of_deletes (hwf : WellFormed db) {parentOid : Oid} {name : Name}
    (h : deletes env db r = some (parentOid, name)) :
    r.removes = some (db1Keygen parentOid name) := by
  cases r <;> simp only [deletes, reduceCtorEq] at h
  case removeNamespace name' cap =>
    cases hns : namespaceLookup name' db with
    | error f => simp only [hns, reduceCtorEq] at h
    | ok ns =>
        simp only [hns] at h
        obtain ⟨-, heq⟩ := Option.ite_none_right_eq_some.mp h
        obtain ⟨rfl, rfl⟩ := Prod.mk.inj (Option.some.inj heq)
        obtain ⟨e, hget, -, hparent⟩ := namespaceLookup_eq_ok hns
        have hkey := hwf.key_eq _ _ (namingDbGetByName_eq_ok.mp hget).1
        have hzero : e.dirent.parentOid = Oid.zero :=
          (congrArg Db1Key.parentOid hkey).symm
        rw [hparent, hzero]
        rfl
  case removeDir parent name' cap =>
    obtain ⟨-, heq⟩ := Option.ite_none_right_eq_some.mp h
    obtain ⟨rfl, rfl⟩ := Prod.mk.inj (Option.some.inj heq)
    rfl
  case unlink parent name' cap =>
    obtain ⟨-, heq⟩ := Option.ite_none_right_eq_some.mp h
    obtain ⟨rfl, rfl⟩ := Prod.mk.inj (Option.some.inj heq)
    rfl

/-- The body of a removal after its checks. -/
theorem removeFrom_of_permits {parent : NsEntry} {name : Name} {cap : Cap Mac}
    (h : permits env parent cap db = true) :
    removeFrom env parent name cap db =
      (removeEntry parent.direntOid name >>= fun entry =>
        Routine.reader (copyDbToNsEntry entry)) db := by
  obtain ⟨hparent, hperm⟩ := permits_iff.mp h
  exact (reader_bind_ok (s := db) hparent).trans (reader_bind_ok hperm)

/-- A removal replies as `removeEntry` does, and what comes after that does
not fail. -/
theorem handle_of_deletes {parentOid : Oid} {name : Name}
    (h : deletes env db r = some (parentOid, name)) :
    (∀ f t, removeEntry parentOid name db = .error f t →
      handle env r db = .error f t) ∧
    ∀ e t, removeEntry parentOid name db = .ok e t →
      e.inode.entryObj.type ≠ linkEntry →
        ∃ result, handle env r db = .ok result t ∧
          result.binding = some e.dirent.binding := by
  cases r <;> simp only [deletes, reduceCtorEq] at h
  case removeNamespace name' cap =>
    cases hns : namespaceLookup name' db with
    | error f => simp only [hns, reduceCtorEq] at h
    | ok ns =>
        simp only [hns] at h
        obtain ⟨hperm, heq⟩ := Option.ite_none_right_eq_some.mp h
        obtain ⟨rfl, rfl⟩ := Prod.mk.inj (Option.some.inj heq)
        have hbody := namingRemoveNamespace_of_checks hns (isOk_iff.mp hperm)
        constructor
        · intro f t hremove
          exact map_of_error (hbody.trans (bind_of_error hremove))
        · intro e t hremove htype
          exact ⟨_, map_of_ok (hbody.trans ((bind_of_ok hremove).trans
            (reader_of_ok (copyDbToNamespace_of_type htype)))), rfl⟩
  case removeDir parent name' cap =>
    obtain ⟨hpermits, heq⟩ := Option.ite_none_right_eq_some.mp h
    obtain ⟨rfl, rfl⟩ := Prod.mk.inj (Option.some.inj heq)
    constructor
    · intro f t hremove
      exact map_of_error
        ((removeFrom_of_permits hpermits).trans (bind_of_error hremove))
    · intro e t hremove htype
      exact ⟨_, map_of_ok ((removeFrom_of_permits hpermits).trans
        ((bind_of_ok hremove).trans
          (reader_of_ok (copyDbToNsEntry_of_type htype)))), rfl⟩
  case unlink parent name' cap =>
    obtain ⟨hpermits, heq⟩ := Option.ite_none_right_eq_some.mp h
    obtain ⟨rfl, rfl⟩ := Prod.mk.inj (Option.some.inj heq)
    constructor
    · intro f t hremove
      exact map_of_error
        ((removeFrom_of_permits hpermits).trans (bind_of_error hremove))
    · intro e t hremove htype
      exact ⟨_, map_of_ok ((removeFrom_of_permits hpermits).trans
        ((bind_of_ok hremove).trans
          (reader_of_ok (copyDbToNsEntry_of_type htype)))), rfl⟩

/-- What a removal does to the map. -/
theorem follows_of_deletes (hwf : WellFormed db) (hdb : NoLinkObj db)
    {parentOid : Oid} {name : Name}
    (h : deletes env db r = some (parentOid, name)) :
    Follows db.directories r ((handle env r).outcome db)
      ((handle env r).final db).directories := by
  obtain ⟨herror, hok⟩ := handle_of_deletes h
  have hremoves := removes_of_deletes hwf h
  cases hget : namingDbGetByName parentOid name db with
  | error f =>
      have hremove : ∃ f', removeEntry parentOid name db = .error f' db := by
        simp only [removeEntry, mapOutcome, outcome, final,
          namingDbDel_of_error hget]
        cases f <;> exact ⟨_, rfl⟩
      obtain ⟨f', hf'⟩ := hremove
      rw [outcome_of_error (herror _ _ hf'), final_of_error (herror _ _ hf')]
      exact .refused
  | ok e =>
      obtain ⟨hd, hi⟩ := namingDbGetByName_eq_ok.mp hget
      have hkey := hwf.key_eq _ _ hd
      have hbound := directories_of_getByName hget
      obtain ⟨t, habort⟩ | ⟨t, hremove, -, hdirents, -⟩ := removeEntry_cases hwf hget
      · have hdirents : t.dirents = db.dirents.erase e.dirent.key := by
          rw [← final_of_error habort, (removeEntry_acts parentOid name).final_eq,
            dirents_namingDbDel hwf hget]
          rfl
        rw [outcome_of_error (herror _ _ habort),
          final_of_error (herror _ _ habort), directories_of_erase hdirents, ← hkey]
        refine .aborted hremoves ?_
        rw [hbound]
        exact Option.some_ne_none _
      · have hstored := hdb _ _ hi
        have htype : e.decremented.inode.entryObj.type ≠ linkEntry := hstored
        obtain ⟨result, hhandle, hb⟩ := hok _ _ hremove htype
        rw [outcome_of_ok hhandle, final_of_ok hhandle,
          directories_of_erase hdirents, ← hkey]
        exact .removed hremoves hbound hb

/-! ### Requests that only read -/

theorem map_of_mapM_ok {α β γ ε : Type} {f : α → Except ε β} {g : β → γ}
    {h : α → γ} (hfg : ∀ a b, f a = .ok b → g b = h a) {l : List α}
    {l' : List β} (hl : l.mapM f = .ok l') : l'.map g = l.map h := by
  induction l generalizing l' with
  | nil =>
      cases hl
      rfl
  | cons a l ih =>
      rw [List.mapM_cons] at hl
      cases ha : f a with
      | error e =>
          rw [ha] at hl
          cases hl
      | ok b =>
          rw [ha] at hl
          cases hrest : l.mapM f with
          | error e =>
              rw [hrest] at hl
              cases hl
          | ok bs =>
              rw [hrest] at hl
              cases hl
              simp [hfg a b ha, ih hrest]

theorem told_of_copy {e : DbEntry} {nsEntry : NsEntry}
    (h : copyDbToNsEntry e db = .ok nsEntry) :
    (nsEntry.key, nsEntry.binding) = (e.dirent.key, e.dirent.binding) := by
  unfold copyDbToNsEntry at h
  cases hobj : getFileObj db (db.dirents.entries.length + 2) e with
  | error f =>
      rw [hobj] at h
      cases h
  | ok fileObj =>
      rw [hobj] at h
      cases h
      rfl

/-- A listing tells of the stored entries, one after the other. -/
theorem told_of_listDir {parent : NsEntry} {cap : Cap Mac}
    {entries : List NsEntry} (h : namingListDir env parent cap db = .ok entries t) :
    entries.map (fun e => (e.key, e.binding)) =
      (db.dirents.filter Dirent.parentOid parent.direntOid).map
        fun d => (d.key, d.binding) := by
  simp only [namingListDir, bind_eq_ok, reader_eq_ok] at h
  obtain ⟨-, _, ⟨-, rfl⟩, -, _, ⟨-, rfl⟩, hlist, rfl⟩ := h
  split_ifs at hlist with hsize
  · cases hlist
    rw [namingDbGetSize_eq, List.length_eq_zero_iff] at hsize
    rw [hsize]
    rfl
  · cases hall : namingDbGetAllByParent parent.direntOid
        (namingDbGetSize parent.direntOid db) env.malloc db with
    | error f =>
        rw [hall] at hlist
        cases hlist
    | ok dbEnts =>
        rw [hall] at hlist
        rw [map_of_mapM_ok (fun e nsEntry he => told_of_copy he) hlist]
        unfold namingDbGetAllByParent at hall
        cases hget : db3Get parent.direntOid (namingDbGetSize parent.direntOid db)
            db with
        | error f =>
            rw [hget] at hall
            cases hall
        | ok dirents =>
            rw [hget] at hall
            obtain ⟨-, -, hdirents⟩ := db3Get_eq_ok.mp hget
            rw [namingDbGetSize_eq, List.take_length] at hdirents
            have hsame := map_of_mapM_ok (g := fun e : DbEntry =>
              (e.dirent.key, e.dirent.binding))
              (h := fun i => ((dirents.getD i (env.malloc i)).key,
                (dirents.getD i (env.malloc i)).binding))
              (fun i e he => by rw [(entryOf_eq_ok.mp he).1]) hall
            have hlen : namingDbGetSize parent.direntOid db = dirents.length := by
              rw [namingDbGetSize_eq, hdirents]
            rw [hsame, hlen, ← hdirents]
            conv_rhs => rw [← map_getD_range dirents env.malloc]
            rw [List.map_map]
            rfl

theorem follows_of_listDir (hwf : WellFormed db) {parent : NsEntry} {cap : Cap Mac}
    {entries : List NsEntry} (h : namingListDir env parent cap db = .ok entries t) :
    Follows db.directories (.listDir parent cap) (.ok (.nsEntries entries))
      db.directories := by
  have htold := told_of_listDir h
  refine .listed ?_ fun k b => ?_
  · have hkeys : entries.map NsEntry.key =
        (db.dirents.filter Dirent.parentOid parent.direntOid).map Dirent.key := by
      have hfst := congrArg (List.map Prod.fst) htold
      rwa [List.map_map, List.map_map] at hfst
    rw [hkeys]
    exact Table.nodup_map_filter hwf.key_eq
  · have hmem : (∃ e ∈ entries, e.key = k ∧ e.binding = b) ↔
        ∃ d ∈ db.dirents.filter Dirent.parentOid parent.direntOid,
          d.key = k ∧ d.binding = b := by
      have := congrArg (fun l => (k, b) ∈ l) htold
      simpa using this
    rw [hmem, directories_eq_some]
    simp only [Table.mem_filter]
    constructor
    · rintro ⟨hparent, d, hd, rfl⟩
      have hkey := hwf.key_eq k d hd
      exact ⟨d, ⟨k, hd, (congrArg Db1Key.parentOid hkey).symm.trans hparent⟩,
        hkey.symm, rfl⟩
    · rintro ⟨d, ⟨k', hd, hparent⟩, rfl, rfl⟩
      rw [hwf.key_eq k' d hd] at hd
      exact ⟨hparent, d, hd, rfl⟩

/-- A reply to a lookup has the binding of the name. -/
theorem follows_of_lookup {parent : NsEntry} {name : Name} {cap : Cap Mac}
    {e : NsEntry} (h : namingLookup env parent name cap db = .ok e t) :
    Follows db.directories (.lookup parent name cap) (.ok (.nsEntry e))
      db.directories := by
  simp only [namingLookup, bind_eq_ok, reader_eq_ok] at h
  obtain ⟨-, _, ⟨-, rfl⟩, -, _, ⟨-, rfl⟩, entry, _, ⟨hget, rfl⟩, hcopy, rfl⟩ := h
  have hb := congrArg Prod.snd (told_of_copy hcopy)
  exact .found rfl (directories_of_getByName hget) (congrArg some hb)

theorem follows_of_getNamespace (hdb : NoLinkObj db) {name : Name}
    {ns : Namespace} (h : namingGetNamespace name db = .ok ns t) :
    Follows db.directories (.getNamespace name : Request Mac) (.ok (.namespace ns))
      db.directories := by
  simp only [namingGetNamespace, bind_eq_ok, reader_eq_ok, orFail_eq_ok,
    Routine.pure_eq_ok] at h
  obtain ⟨found, _, ⟨hlookup, rfl⟩, rfl, rfl⟩ := h
  obtain ⟨e, hget, rfl⟩ := (namespaceLookup_eq_ok_iff hdb).mp hlookup
  exact .found rfl (directories_of_getByName hget) rfl

/-- A creation that replies well has put its entry. -/
theorem puts_ne_none_of_ok {k : Db1Key} (hk : r.creates = some k)
    {result : Result} (h : handle env r db = .ok result t) :
    puts env db r ≠ none := by
  cases r <;> simp only [Request.creates, reduceCtorEq] at hk <;>
    obtain ⟨a, ha, -⟩ := map_eq_ok.mp h
  case createNamespace name cid => exact Option.some_ne_none _
  case createDir parent name cid cap =>
    simp only [namingCreateDir, bind_eq_ok, reader_eq_ok] at ha
    obtain ⟨_, _, ⟨hparent, rfl⟩, _, _, ⟨hperm, rfl⟩, -⟩ := ha
    simp [puts, permits_iff.mpr ⟨hparent, hperm⟩]
  case createFile parent name obj cap =>
    simp only [namingCreateFile, bind_eq_ok, reader_eq_ok] at ha
    obtain ⟨_, _, ⟨hparent, rfl⟩, _, _, ⟨hperm, rfl⟩, -⟩ := ha
    simp [puts, permits_iff.mpr ⟨hparent, hperm⟩]
  case createLink parent name cap targetParent targetName targetCap =>
    simp only [namingCreateLink, bind_eq_ok, reader_eq_ok] at ha
    obtain ⟨_, _, ⟨hparent, rfl⟩, _, _, ⟨hperm, rfl⟩, _, _, ⟨htarget, rfl⟩,
      target, _, ⟨hget, rfl⟩, -⟩ := ha
    simp [puts, permits_iff.mpr ⟨hparent, hperm⟩, isOk_iff.mpr htarget, hget]

/-- A removal that replies well has deleted its entry. -/
theorem deletes_ne_none_of_ok {k : Db1Key} (hk : r.removes = some k)
    {result : Result} (h : handle env r db = .ok result t) :
    deletes env db r ≠ none := by
  cases r <;> simp only [Request.removes, reduceCtorEq] at hk <;>
    obtain ⟨a, ha, -⟩ := map_eq_ok.mp h
  case removeNamespace name cap =>
    simp only [namingRemoveNamespace, bind_eq_ok, reader_eq_ok, orFail_eq_ok] at ha
    obtain ⟨ns, _, ⟨hns, rfl⟩, _, _, ⟨hperm, rfl⟩, -⟩ := ha
    simp [deletes, hns, isOk_iff.mpr hperm]
  case removeDir parent name cap =>
    simp only [namingRemoveDir, removeFrom, bind_eq_ok, reader_eq_ok] at ha
    obtain ⟨_, _, ⟨hparent, rfl⟩, _, _, ⟨hperm, rfl⟩, -⟩ := ha
    simp [deletes, permits_iff.mpr ⟨hparent, hperm⟩]
  case unlink parent name cap =>
    simp only [namingUnlink, removeFrom, bind_eq_ok, reader_eq_ok] at ha
    obtain ⟨_, _, ⟨hparent, rfl⟩, _, _, ⟨hperm, rfl⟩, -⟩ := ha
    simp [deletes, permits_iff.mpr ⟨hparent, hperm⟩]

/-- A request that puts and deletes nothing only reads. -/
theorem follows_of_none (hwf : WellFormed db) (hdb : NoLinkObj db)
    (hput : puts env db r = none) (hdel : deletes env db r = none) :
    Follows db.directories r ((handle env r).outcome db)
      ((handle env r).final db).directories := by
  rw [(handle_acts_none env hput hdel).final_eq]
  show Follows db.directories r ((handle env r).outcome db) db.directories
  cases hout : (handle env r).outcome db with
  | error f => exact .refused
  | ok result =>
      have hok := outcome_eq_ok.mp hout
      cases r
      case getNamespace name =>
        obtain ⟨ns, hns, rfl⟩ := map_eq_ok.mp hok
        exact follows_of_getNamespace hdb hns
      case listNamespaces =>
        obtain ⟨nss, -, rfl⟩ := map_eq_ok.mp hok
        exact .listedNamespaces
      case lookup parent name cap =>
        obtain ⟨e, he, rfl⟩ := map_eq_ok.mp hok
        exact follows_of_lookup he
      case listDir parent cap =>
        obtain ⟨entries, hentries, rfl⟩ := map_eq_ok.mp hok
        exact follows_of_listDir hwf hentries
      case stat obj cap =>
        obtain ⟨data, -, rfl⟩ := map_eq_ok.mp hok
        exact .told
      case removeNamespace name cap => exact absurd hdel (deletes_ne_none_of_ok rfl hok)
      case removeDir parent name cap => exact absurd hdel (deletes_ne_none_of_ok rfl hok)
      case unlink parent name cap => exact absurd hdel (deletes_ne_none_of_ok rfl hok)
      all_goals exact absurd hput (puts_ne_none_of_ok rfl hok)

theorem follows_of_handle (hwf : WellFormed db) (hfresh : Fresh env db)
    (hdb : NoLinkObj db) (r : Request Mac) :
    Follows db.directories r ((handle env r).outcome db)
      ((handle env r).final db).directories := by
  cases hput : puts env db r with
  | some entry => exact follows_of_puts hwf hfresh hdb hput
  | none =>
      cases hdel : deletes env db r with
      | some place => exact follows_of_deletes hwf hdb hdel
      | none => exact follows_of_none hwf hdb hput hdel

end Handlers

/-! ### Runs -/

section Runs

variable {oids : InitOids}

/-- The reply of a server that runs. -/
def reply (s : Server) (r : Env Mac × Request Mac) : Except Fault Result :=
  (handle r.1 r.2).outcome s.db

/-- A step of the server is one of the map, with the reply that the client
gets. -/
def FollowsStep (s : Server) (r : Env Mac × Request Mac) : Prop :=
  if s.up then
    Follows s.db.directories r.2 (reply s r) (step s r).db.directories
  else (step s r).db.directories = s.db.directories

theorem FollowsStep.eq_of_not_addresses {s : Server} {r : Env Mac × Request Mac}
    (h : FollowsStep s r) {k : Db1Key} (hk : ¬ r.2.Addresses k) :
    (step s r).db.directories k = s.db.directories k := by
  unfold FollowsStep at h
  split at h
  · exact h.eq_of_not_addresses hk
  · rw [h]

/-- From a database in order, every step of a run follows the map. -/
theorem along_followsStep {s : Server} (hs : WellFormed s.db ∧ NoLinkObj s.db)
    {run : List (Env Mac × Request Mac)} (hrun : Run.Along step FreshStep s run) :
    Run.Along step FollowsStep s run := by
  have hstep : ∀ (s : Server) (r : Env Mac × Request Mac),
      WellFormed s.db ∧ NoLinkObj s.db → FreshStep s r →
        WellFormed (step s r).db ∧ NoLinkObj (step s r).db :=
    fun s r hs hfresh =>
      ⟨wellFormed_step hs.1 hfresh, noLinkObj_step hs.1 hfresh hs.2⟩
  have hfollows : ∀ (s : Server) (r : Env Mac × Request Mac),
      WellFormed s.db ∧ NoLinkObj s.db → FreshStep s r → FollowsStep s r := by
    intro s r hs hfresh
    unfold FollowsStep step reply
    split
    · exact follows_of_handle hs.1 hfresh hs.2 r.2
    · rfl
  exact Run.along_of_invariant hstep hfollows hs hrun

theorem linkless_init (hoids : oids.Fresh) :
    WellFormed (Server.init oids).db ∧ NoLinkObj (Server.init oids).db := by
  rw [init_db hoids]
  exact ⟨wellFormed_initialDb hoids, noLinkObj_initialDb⟩

/-- In every run from a cleared database, with fresh ids and whatever requests
clients send, the server follows the map. -/
theorem step_follows (hoids : oids.Fresh) (run : List (Env Mac × Request Mac))
    (hrun : Run.Along step FreshStep (Server.init oids) run) :
    Run.Along step FollowsStep (Server.init oids) run :=
  along_followsStep (linkless_init hoids) hrun

/-- What a name is bound to after a reply to a request that creates or
removes it. -/
def Request.leaves (r : Request Mac) (result : Result) : Option Binding :=
  if r.creates.isSome then result.binding else none

/-- A reply tells what a name is bound to, as far as it was asked for. -/
structure Tells (k : Db1Key) (bound : Option Binding) (r : Request Mac)
    (result : Result) : Prop where
  found : r.finds = some k → ∃ b, bound = some b ∧ result.binding = some b
  listed : ∀ parent cap entries, r = .listDir parent cap →
    result = .nsEntries entries → k.parentOid = parent.direntOid →
      ∀ b, (∃ e ∈ entries, e.key = k ∧ e.binding = b) ↔ bound = some b

theorem Follows.leaves {dirs dirs' : Directories} {r : Request Mac}
    {result : Result} {k : Db1Key} (h : Follows dirs r (.ok result) dirs')
    (hk : r.Addresses k) : dirs' k = r.leaves result := by
  cases h with
  | created hcreates hfree hb =>
      have hkey : r.creates = some k := by
        refine hk.resolve_right fun hremoves => ?_
        cases r <;> simp_all [Request.creates, Request.removes]
      obtain rfl := Option.some.inj (hcreates.symm.trans hkey)
      simp [Request.leaves, hcreates, hb]
  | removed hremoves hbound hb =>
      have hnone : r.creates = none := by
        cases r <;> simp_all [Request.creates, Request.removes]
      have hkey : r.removes = some k :=
        hk.resolve_left fun hcreates => by simp [hnone] at hcreates
      obtain rfl := Option.some.inj (hremoves.symm.trans hkey)
      simp [Request.leaves, hnone]
  | found hfinds =>
      exfalso
      cases r <;> simp_all [Request.Addresses, Request.creates,
        Request.removes, Request.finds]
  | listed | listedNamespaces | told =>
      simp [Request.Addresses, Request.creates, Request.removes] at hk

theorem Follows.tells {dirs dirs' : Directories} {r : Request Mac}
    {result : Result} (h : Follows dirs r (.ok result) dirs') (k : Db1Key) :
    Tells k (dirs k) r result := by
  cases h with
  | created hcreates =>
      constructor
      · intro hfinds
        cases r <;> simp_all [Request.creates, Request.finds]
      · rintro parent cap entries rfl
        cases hcreates
  | removed hremoves =>
      constructor
      · intro hfinds
        cases r <;> simp_all [Request.removes, Request.finds]
      · rintro parent cap entries rfl
        cases hremoves
  | found hfinds hbound hb =>
      constructor
      · intro hfinds'
        obtain rfl := Option.some.inj (hfinds.symm.trans hfinds')
        exact ⟨_, hbound, hb⟩
      · rintro parent cap entries rfl
        cases hfinds
  | listed honce hall =>
      constructor
      · intro hfinds
        cases hfinds
      · rintro parent cap entries ⟨⟩ ⟨⟩ hparent b
        rw [← hall]
        exact and_iff_right hparent
  | listedNamespaces =>
      constructor
      · intro hfinds
        cases hfinds
      · rintro parent cap entries ⟨⟩
  | told =>
      constructor
      · intro hfinds
        cases hfinds
      · rintro parent cap entries ⟨⟩

/-- What the reply to a creation or a removal has told of a name stays true,
and every later reply tells the same of it, until a request comes that creates
or removes the name. -/
theorem told_until_addressed (hoids : oids.Fresh)
    (before : List (Env Mac × Request Mac)) (r : Env Mac × Request Mac)
    (after : List (Env Mac × Request Mac))
    (hrun : Run.Along step FreshStep (Server.init oids) (before ++ r :: after))
    {k : Db1Key} (hk : r.2.Addresses k) {result : Result}
    (hup : (Run.exec step (Server.init oids) before).up = true)
    (hreply : reply (Run.exec step (Server.init oids) before) r = .ok result)
    (hafter : ∀ r' ∈ after, ¬ r'.2.Addresses k) :
    Run.Along step
      (fun s r' => s.up = true → ∀ result', reply s r' = .ok result' →
        Tells k (r.2.leaves result) r'.2 result')
      (Run.exec step (Server.init oids) (before ++ [r])) after := by
  have hfollows := along_followsStep (linkless_init hoids) hrun
  rw [Run.along_append, Run.along_cons] at hfollows
  obtain ⟨-, hmade, hlater⟩ := hfollows
  rw [Run.exec_append, Run.exec_cons, Run.exec_nil]
  rw [FollowsStep, if_pos hup, hreply] at hmade
  -- the name keeps its binding along the rest of the run
  have hkeeps : ∀ (s : Server) (r' : Env Mac × Request Mac),
      s.db.directories k = r.2.leaves result →
        FollowsStep s r' ∧ ¬ r'.2.Addresses k →
          (step s r').db.directories k = r.2.leaves result :=
    fun s r' hbound h => (h.1.eq_of_not_addresses h.2).trans hbound
  have htells : ∀ (s : Server) (r' : Env Mac × Request Mac),
      s.db.directories k = r.2.leaves result →
        FollowsStep s r' ∧ ¬ r'.2.Addresses k → s.up = true →
          ∀ result', reply s r' = .ok result' →
            Tells k (r.2.leaves result) r'.2 result' := by
    intro s r' hbound h hup' result' hreply'
    have hstep := h.1
    rw [FollowsStep, if_pos hup', hreply'] at hstep
    exact hbound ▸ hstep.tells k
  exact Run.along_of_invariant hkeeps htells (hmade.leaves hk)
    ((Run.along_and _ _ _ _ _).mpr ⟨hlater, Run.along_of_forall _ _ hafter⟩)

/-- The file that was created, as a client asks for it. -/
def lookupFileStep (n : ℕ) : Env Unit × Request Unit :=
  (countingEnv n, .lookup rootDir fileName readWriteCap)

theorem step_follows_lookup :
    Run.Along step FollowsStep (Server.init countingOids)
      [createFileStep, lookupFileStep 1, unlinkStep 2 fileName,
        lookupFileStep 3] :=
  step_follows countingOids_fresh _ (by decide)

/-- A lookup between the creation and the removal tells of the file that was
created. -/
theorem told_until_addressed_lookup :
    ∃ result, reply (Server.init countingOids) createFileStep = .ok result ∧
      ∀ result', reply oneFileServer (lookupFileStep 1) = .ok result' →
        result'.binding = result.binding := by
  obtain ⟨result, hreply⟩ : ∃ result,
      reply (Server.init countingOids) createFileStep = .ok result := ⟨_, rfl⟩
  have hrun : Run.Along step FreshStep (Server.init countingOids)
      ([] ++ createFileStep :: [lookupFileStep 1]) := by decide
  have htells := told_until_addressed countingOids_fresh [] createFileStep
    [lookupFileStep 1] hrun (k := db1Keygen countingOids.root fileName)
    (.inl rfl) rfl hreply (by decide)
  refine ⟨result, hreply, fun result' hreply' => ?_⟩
  obtain ⟨b, hb, hb'⟩ := (htells.1 rfl result' hreply').found rfl
  rw [hb', ← hb]
  rfl

end Runs

end Lwfs.Naming
