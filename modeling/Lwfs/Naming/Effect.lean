import Lwfs.Naming.Server

/-!
What a request does to the database.

A handler checks, then it puts an entry or deletes one, then it copies. So a
request acts like `namingDbPut`, like `namingDbDel`, or like nothing at all
(`handle_acts`). In a well-formed database and with fresh ids, each of these
is one of the changes that `Change` lists, and whatever the requests keep is
proved over that list.
-/

namespace Lwfs.Naming

open SysLib Routine

variable {Mac : Type} (env : Env Mac) {db : NamingDb}

/-! ### The checks and the copying never abort -/

theorem entryOf_ne_abort (dirent : Dirent) :
    entryOf dirent db ≠ .error .abort := by
  unfold entryOf inodeGet
  cases db.inodes.lookup dirent.inodeOid <;> nofun

theorem namingDbGetByName_ne_abort (parentOid : Oid) (name : Name) :
    namingDbGetByName parentOid name db ≠ .error .abort := by
  refine except_bind_ne_error ?_ fun dirent => entryOf_ne_abort dirent
  unfold db1Get
  cases db.dirents.lookup (db1Keygen parentOid name) <;> nofun

theorem namingDbGetByOid_ne_abort (oid : Oid) :
    namingDbGetByOid oid db ≠ .error .abort := by
  refine except_bind_ne_error ?_ fun dirent => entryOf_ne_abort dirent
  unfold db2Get
  cases db.dirents.find Dirent.oid oid <;> nofun

theorem namingDbGetAllByParent_ne_abort (parentOid : Oid) (maxlen : ℕ)
    (malloc : ℕ → Dirent) :
    namingDbGetAllByParent parentOid maxlen malloc db ≠ .error .abort := by
  refine except_bind_ne_error ?_ fun dirents =>
    except_mapM_ne_error (fun i => entryOf_ne_abort _) _
  unfold db3Get
  simp only
  split_ifs <;> nofun

theorem checkPerm_ne_abort (oid : Oid) (cap : Cap Mac) (containerOp : Opcode) :
    checkPerm env oid cap containerOp db ≠ .error .abort := by
  refine except_bind_ne_error (namingDbGetByOid_ne_abort oid) fun dbEnt => ?_
  split_ifs
  · nofun
  · nofun
  · cases env.verifyCaps cap <;> nofun

theorem checkParent_ne_abort (parent : NsEntry) :
    checkParent parent ≠ .error .abort := by
  unfold checkParent
  split_ifs <;> nofun

theorem getFileObj_ne_abort (fuel : ℕ) (entry : DbEntry) :
    getFileObj db fuel entry ≠ .error .abort := by
  induction fuel generalizing entry with
  | zero => nofun
  | succ fuel ih =>
      unfold getFileObj
      split_ifs
      · nofun
      · cases namingDbGetByOid entry.dirent.link db with
        | error e => nofun
        | ok target => exact ih target
      · nofun

theorem copyDbToNsEntry_ne_abort (entry : DbEntry) :
    copyDbToNsEntry entry db ≠ .error .abort :=
  except_bind_ne_error (getFileObj_ne_abort _ entry) nofun

theorem copyDbToNamespace_ne_abort (entry : DbEntry) :
    copyDbToNamespace entry db ≠ .error .abort :=
  except_bind_ne_error (copyDbToNsEntry_ne_abort entry) nofun

theorem orFail_ne_abort {α : Type} {rc : ReturnCode} {result : Except Fault α}
    (h : result ≠ .error .abort) : orFail rc result ≠ .error .abort := by
  unfold orFail
  split
  · nofun
  · exact h

theorem namespaceLookup_ne_abort (name : Name) :
    namespaceLookup name db ≠ .error .abort :=
  except_bind_ne_error (namingDbGetByName_ne_abort _ name) fun entry =>
    copyDbToNamespace_ne_abort entry

/-! ### Requests that pass their checks -/

/-- The checks of a handler that changes the directory `parent`. -/
def permits (parent : NsEntry) (cap : Cap Mac) (db : NamingDb) : Bool :=
  (checkParent parent).isOk &&
    (checkPerm env parent.direntOid cap containerWrite db).isOk

/-- The entry that a request puts, if its checks succeed. -/
def puts (db : NamingDb) : Request Mac → Option DbEntry
  | .createNamespace name cid => some (newEntry env Oid.zero name nsObj cid none)
  | .createDir parent name cid cap =>
      if permits env parent cap db then
        some (newEntry env parent.direntOid name dirEntry cid none)
      else none
  | .createFile parent name obj cap =>
      if permits env parent cap db then
        some (newEntry env parent.direntOid name fileEntry obj.cid (some obj))
      else none
  | .createLink parent name cap targetParent targetName targetCap =>
      if permits env parent cap db &&
          (checkPerm env targetParent.direntOid targetCap
            containerRead db).isOk then
        match namingDbGetByName targetParent.direntOid targetName db with
        | .error _ => none
        | .ok target => some (linkTo env parent.direntOid name target)
      else none
  | _ => none

/-- The place of the entry that a request deletes, if its checks succeed. -/
def deletes (db : NamingDb) : Request Mac → Option (Oid × Name)
  | .removeNamespace name cap =>
      match namespaceLookup name db with
      | .error _ => none
      | .ok ns =>
          if (checkPerm env ns.nsEntry.direntOid cap containerWrite db).isOk then
            some (ns.nsEntry.parentOid, name)
          else none
  | .removeDir parent name cap =>
      if permits env parent cap db then some (parent.direntOid, name) else none
  | .unlink parent name cap =>
      if permits env parent cap db then some (parent.direntOid, name) else none
  | _ => none

theorem isOk_iff {x : Except Fault Unit} : x.isOk = true ↔ x = .ok () := by
  cases x <;> simp [Except.isOk, Except.toBool]

section Checks

variable {env} {parent : NsEntry} {cap : Cap Mac}

theorem permits_iff : permits env parent cap db = true ↔
    checkParent parent = .ok () ∧
      checkPerm env parent.direntOid cap containerWrite db = .ok () := by
  simp only [permits, Bool.and_eq_true, isOk_iff]

theorem acts_of_permits {α : Type} {x : DbRoutine α}
    (h : permits env parent cap db = true) :
    Acts .abort
      (do Routine.reader fun _ => checkParent parent
          Routine.reader (checkPerm env parent.direntOid cap containerWrite)
          x) x db := by
  obtain ⟨hparent, hperm⟩ := permits_iff.mp h
  exact (acts_reader_ok (s := db) hparent).trans (acts_reader_ok hperm)

theorem acts_of_not_permits {α : Type} {x : DbRoutine α}
    (h : permits env parent cap db = false) :
    Acts .abort
      (do Routine.reader fun _ => checkParent parent
          Routine.reader (checkPerm env parent.direntOid cap containerWrite)
          x) (pure () : DbRoutine Unit) db := by
  by_cases hparent : checkParent parent = .ok ()
  · refine (acts_reader_ok (s := db) hparent).trans
      (acts_reader_error ?_ (checkPerm_ne_abort env _ _ _))
    intro u hperm
    rw [permits_iff.mpr ⟨hparent, hperm⟩] at h
    cases h
  · exact acts_reader_error (s := db) (fun _ => hparent)
      (checkParent_ne_abort parent)

end Checks

theorem removeEntry_acts (parentOid : Oid) (name : Name) :
    Acts .abort (removeEntry parentOid name) (namingDbDel parentOid name) db := by
  refine acts_mapOutcome fun r => ?_
  unfold orFail
  cases r with
  | ok entry => exact Iff.rfl
  | error e => cases e <;> simp

theorem copyDbToNsEntry_quiet (entry : DbEntry) :
    Quiet .abort (Routine.reader (copyDbToNsEntry entry)) :=
  quiet_reader fun _ => copyDbToNsEntry_ne_abort entry

theorem copyDbToNamespace_quiet (entry : DbEntry) :
    Quiet .abort (Routine.reader (copyDbToNamespace entry)) :=
  quiet_reader fun _ => copyDbToNamespace_ne_abort entry

theorem removeFrom_acts {parent : NsEntry} {name : Name} {cap : Cap Mac}
    (h : permits env parent cap db = true) :
    Acts .abort (removeFrom env parent name cap)
      (namingDbDel parent.direntOid name) db :=
  (acts_of_permits h).trans
    ((acts_bind_quiet copyDbToNsEntry_quiet).trans (removeEntry_acts _ _))

/-- A request whose checks succeed and that puts an entry acts like
`naming_db_put`. -/
theorem handle_acts_put {r : Request Mac} {entry : DbEntry}
    (h : puts env db r = some entry) :
    Acts .abort (handle env r) (namingDbPut entry true) db := by
  cases r <;> simp only [puts, reduceCtorEq] at h
  case createNamespace name cid =>
    obtain rfl := Option.some.inj h
    exact acts_map.trans
      (acts_bind_quiet fun _ => copyDbToNamespace_quiet _)
  case createDir parent name cid cap =>
    obtain ⟨hpermits, heq⟩ := Option.ite_none_right_eq_some.mp h
    cases heq
    exact acts_map.trans ((acts_of_permits hpermits).trans
      (acts_bind_quiet fun _ => copyDbToNsEntry_quiet _))
  case createFile parent name obj cap =>
    obtain ⟨hpermits, heq⟩ := Option.ite_none_right_eq_some.mp h
    cases heq
    refine acts_map.trans ((acts_of_permits hpermits).trans
      (acts_bind_quiet fun _ => Quiet.bind ?_ fun _ => copyDbToNsEntry_quiet _))
    exact quiet_reader fun _ => namingDbGetByOid_ne_abort _
  case createLink parent name cap targetParent targetName targetCap =>
    obtain ⟨hchecks, h⟩ := Option.ite_none_right_eq_some.mp h
    obtain ⟨hpermits, htarget⟩ := Bool.and_eq_true_iff.mp hchecks
    have htarget := isOk_iff.mp htarget
    refine acts_map.trans ((acts_of_permits hpermits).trans
      ((acts_reader_ok htarget).trans ?_))
    cases hget : namingDbGetByName targetParent.direntOid targetName db with
    | error e => simp only [hget, reduceCtorEq] at h
    | ok target =>
        simp only [hget, Option.some.injEq] at h
        subst h
        exact (acts_reader_ok hget).trans
          (acts_bind_quiet fun _ => copyDbToNsEntry_quiet _)

/-- A request whose checks succeed and that deletes an entry acts like
`naming_db_del`. -/
theorem handle_acts_del {r : Request Mac} {parentOid : Oid} {name : Name}
    (h : deletes env db r = some (parentOid, name)) :
    Acts .abort (handle env r) (namingDbDel parentOid name) db := by
  cases r <;> simp only [deletes, reduceCtorEq] at h
  case removeNamespace name' cap =>
    cases hns : namespaceLookup name' db with
    | error e => simp only [hns, reduceCtorEq] at h
    | ok ns =>
        simp only [hns] at h
        obtain ⟨hperm, heq⟩ := Option.ite_none_right_eq_some.mp h
        cases heq
        have hperm := isOk_iff.mp hperm
        refine acts_map.trans ((acts_reader_ok (a := ns) ?_).trans
          ((acts_reader_ok hperm).trans
            ((acts_bind_quiet copyDbToNamespace_quiet).trans
              (removeEntry_acts _ _))))
        rw [hns]
        rfl
  case removeDir parent name' cap =>
    obtain ⟨hpermits, heq⟩ := Option.ite_none_right_eq_some.mp h
    cases heq
    exact acts_map.trans (removeFrom_acts env hpermits)
  case unlink parent name' cap =>
    obtain ⟨hpermits, heq⟩ := Option.ite_none_right_eq_some.mp h
    cases heq
    exact acts_map.trans (removeFrom_acts env hpermits)

/-! ### Requests that change nothing -/

theorem checkParent_quiet (parent : NsEntry) :
    Quiet (σ := NamingDb) .abort (Routine.reader fun _ => checkParent parent) :=
  quiet_reader fun _ => checkParent_ne_abort parent

theorem checkPerm_quiet (oid : Oid) (cap : Cap Mac) (containerOp : Opcode) :
    Quiet .abort (Routine.reader (checkPerm env oid cap containerOp)) :=
  quiet_reader fun _ => checkPerm_ne_abort env oid cap containerOp

theorem namingGetNamespace_quiet (name : Name) :
    Quiet .abort (namingGetNamespace name) :=
  Quiet.bind (quiet_reader fun _ => orFail_ne_abort (namespaceLookup_ne_abort _))
    fun _ => quiet_pure _

theorem namingListNamespaces_quiet : Quiet .abort (namingListNamespaces env) := by
  refine quiet_reader fun db => ?_
  simp only
  split_ifs
  · nofun
  · refine except_bind_ne_error (namingDbGetAllByParent_ne_abort _ _ _)
      fun dbEnts => ?_
    split_ifs
    · nofun
    · exact except_mapM_ne_error (fun entry => copyDbToNamespace_ne_abort entry) _

theorem namingLookup_quiet (parent : NsEntry) (name : Name) (cap : Cap Mac) :
    Quiet .abort (namingLookup env parent name cap) :=
  Quiet.bind (checkParent_quiet parent) fun _ =>
    Quiet.bind (checkPerm_quiet env _ _ _) fun _ =>
      Quiet.bind (quiet_reader fun _ => namingDbGetByName_ne_abort _ _)
        fun _ => copyDbToNsEntry_quiet _

theorem namingListDir_quiet (parent : NsEntry) (cap : Cap Mac) :
    Quiet .abort (namingListDir env parent cap) := by
  refine Quiet.bind (checkParent_quiet parent) fun _ =>
    Quiet.bind (checkPerm_quiet env _ _ _) fun _ => quiet_reader fun db => ?_
  simp only
  split_ifs
  · nofun
  · exact except_bind_ne_error (namingDbGetAllByParent_ne_abort _ _ _)
      fun dbEnts =>
        except_mapM_ne_error (fun entry => copyDbToNsEntry_ne_abort entry) _

theorem namingStat_quiet (obj : Obj) (cap : Cap Mac) :
    Quiet .abort (namingStat env obj cap) :=
  Quiet.bind (checkPerm_quiet env _ _ _) fun _ =>
    Quiet.bind (quiet_reader fun _ => namingDbGetByOid_ne_abort _)
      fun _ => quiet_pure _

theorem acts_map_of_quiet {α β : Type} {x : DbRoutine α} {f : α → β}
    (h : Quiet .abort x) :
    Acts .abort (f <$> x) (pure () : DbRoutine Unit) db :=
  acts_map.trans (h.acts db)

/-- A request that only reads, or whose checks fail, does nothing. -/
theorem handle_acts_none {r : Request Mac} (hput : puts env db r = none)
    (hdel : deletes env db r = none) :
    Acts .abort (handle env r) (pure () : DbRoutine Unit) db := by
  cases r <;> simp only [puts, deletes, reduceCtorEq] at hput hdel
  case removeNamespace name cap =>
    cases hns : namespaceLookup name db with
    | error e =>
        refine acts_map.trans (acts_reader_error ?_
          (orFail_ne_abort (namespaceLookup_ne_abort name)))
        intro ns
        rw [hns]
        cases e <;> nofun
    | ok ns =>
        have hread : orFail .errNoent (namespaceLookup name db) = .ok ns := by
          rw [hns]
          rfl
        refine acts_map.trans ((acts_reader_ok (s := db) hread).trans
          (acts_reader_error ?_ (checkPerm_ne_abort env _ _ _)))
        intro u hperm
        simp only [hns, isOk_iff.mpr hperm, if_true, reduceCtorEq] at hdel
  case getNamespace name => exact acts_map_of_quiet (namingGetNamespace_quiet name)
  case listNamespaces => exact acts_map_of_quiet (namingListNamespaces_quiet env)
  case createDir parent name cid cap =>
    exact acts_map.trans (acts_of_not_permits (by simpa using hput))
  case removeDir parent name cap =>
    exact acts_map.trans (acts_of_not_permits (by simpa using hdel))
  case createFile parent name obj cap =>
    exact acts_map.trans (acts_of_not_permits (by simpa using hput))
  case createLink parent name cap targetParent targetName targetCap =>
    cases hpermits : permits env parent cap db with
    | false => exact acts_map.trans (acts_of_not_permits hpermits)
    | true =>
        refine acts_map.trans ((acts_of_permits hpermits).trans ?_)
        by_cases htarget : checkPerm env targetParent.direntOid targetCap
            containerRead db = .ok ()
        · refine (acts_reader_ok htarget).trans
            (acts_reader_error ?_ (namingDbGetByName_ne_abort _ _))
          intro target hget
          simp only [hpermits, isOk_iff.mpr htarget, Bool.and_self, if_true,
            hget, reduceCtorEq] at hput
        · exact acts_reader_error (fun _ => htarget)
            (checkPerm_ne_abort env _ _ _)
  case unlink parent name cap =>
    exact acts_map.trans (acts_of_not_permits (by simpa using hdel))
  case lookup parent name cap =>
    exact acts_map_of_quiet (namingLookup_quiet env parent name cap)
  case listDir parent cap =>
    exact acts_map_of_quiet (namingListDir_quiet env parent cap)
  case stat obj cap => exact acts_map_of_quiet (namingStat_quiet env obj cap)

end Lwfs.Naming
