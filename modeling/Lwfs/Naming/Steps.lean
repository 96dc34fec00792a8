import Lwfs.Lib.Prog
import Lwfs.Naming.Listing

/-!
The database steps of the requests.

The naming server can run its requests in threads, and each of them calls the
databases one by one, without a transaction. Here a request is a program that
makes these calls. Each call can fail. A program that runs alone, and none of
whose calls fails, does what the request does in one go.
-/

namespace Lwfs.Naming

open SysLib Routine

/-! ### The calls -/

/-- A call of the dirent or the inode database. -/
inductive DbCall
  | getDirent (key : Db1Key)
  | getDirentByOid (oid : Oid)
  | countDirents (parentOid : Oid)
  | getDirents (parentOid : Oid) (maxlen : ℕ)
  | putDirent (key : Db1Key) (dirent : Dirent) (noOverwrite : Bool)
  | delDirent (oid : Oid)
  | getInode (inodeOid : Oid)
  | putInode (inodeOid : Oid) (inode : Inode) (noOverwrite : Bool)
  | delInode (inode : Inode)

namespace DbCall

/-- What a call returns when it succeeds. -/
@[reducible] def Value : DbCall → Type
  | getDirent _ => Dirent
  | getDirentByOid _ => Dirent
  | countDirents _ => ℕ
  | getDirents _ _ => List Dirent
  | putDirent _ _ _ => Unit
  | delDirent _ => Unit
  | getInode _ => Inode
  | putInode _ _ _ => Unit
  | delInode _ => Unit

@[reducible] def Reply (c : DbCall) : Type := Except Fault c.Value

/-- What a call does when the database serves it. -/
def routine : (c : DbCall) → DbRoutine c.Value
  | getDirent key => Routine.reader (db1Get key)
  | getDirentByOid oid => Routine.reader (db2Get oid)
  | countDirents parentOid =>
      Routine.reader fun db => .ok (namingDbGetSize parentOid db)
  | getDirents parentOid maxlen => Routine.reader (db3Get parentOid maxlen)
  | putDirent key dirent noOverwrite => db1Put key dirent noOverwrite
  | delDirent oid => db2Del oid
  | getInode inodeOid => Routine.reader (inodeGet inodeOid)
  | putInode inodeOid inode noOverwrite => inodePut inodeOid inode noOverwrite
  | delInode inode => inodeDel inode

/-- One call, which the database can fail to serve. -/
def exec (fails : Bool) (c : DbCall) (db : NamingDb) : c.Reply × NamingDb :=
  if fails then (.error (.code .errNaming), db)
  else (c.routine.outcome db, c.routine.final db)

end DbCall

abbrev DbProg := Prog DbCall DbCall.Reply Fault

namespace Steps

/-- A call whose failure is the program's. -/
def ask (c : DbCall) : DbProg c.Value :=
  .call c fun
    | .ok a => pure a
    | .error e => throw e

/-! ### The routines of the database -/

def entryOf (dirent : Dirent) : DbProg DbEntry := do
  let inode ← ask (.getInode dirent.inodeOid)
  pure ⟨dirent, inode⟩

def namingDbGetByName (parentOid : Oid) (name : Name) : DbProg DbEntry := do
  let dirent ← ask (.getDirent (db1Keygen parentOid name))
  entryOf dirent

def namingDbGetByOid (oid : Oid) : DbProg DbEntry := do
  let dirent ← ask (.getDirentByOid oid)
  entryOf dirent

def namingDbGetAllByParent (parentOid : Oid) (maxlen : ℕ)
    (malloc : ℕ → Dirent) : DbProg (List DbEntry) := do
  let dirents ← ask (.getDirents parentOid maxlen)
  (List.range maxlen).mapM fun i => entryOf (dirents.getD i (malloc i))

def inodeIncrementRefcnt (inodeOid : Oid) : DbProg Unit :=
  .call (.getInode inodeOid) fun
    | .error _ => throw (.code .errNaming)
    | .ok inode =>
        .call (.putInode inodeOid { inode with refCnt := inode.refCnt + 1 }
            false) fun
          | .error _ => throw (.code .errNaming)
          | .ok _ => pure ()

def inodeRelease (inode : Inode) : DbProg Unit :=
  if inode.refCnt = 0 then
    -- the return codes of both calls are not looked at
    .call (.delInode inode) fun _ => pure ()
  else if 0 < inode.refCnt then
    .call (.putInode inode.entryObj.oid inode false) fun _ => pure ()
  else throw .abort

def dbDel (entry : DbEntry) : DbProg DbEntry := do
  ask (.delDirent entry.dirent.oid)
  let inode := { entry.inode with refCnt := entry.inode.refCnt - 1 }
  inodeRelease inode
  pure { entry with inode := inode }

def inodeAttach (entry : DbEntry) (noOverwrite : Bool) : DbProg Unit :=
  if entry.dirent.link ≠ Oid.zero then
    inodeIncrementRefcnt entry.inode.entryObj.oid
  else ask (.putInode entry.inode.entryObj.oid entry.inode noOverwrite)

def namingDbPut (entry : DbEntry) (noOverwrite : Bool) : DbProg Unit := do
  ask (.putDirent entry.dirent.key entry.dirent noOverwrite)
  inodeAttach entry noOverwrite

def namingDbDel (parentOid : Oid) (name : Name) : DbProg DbEntry := do
  let entry ← namingDbGetByName parentOid name
  dbDel entry

/-! ### Checks and results -/

section Handlers

variable {Mac : Type} (env : Env Mac)

def checkParent (parent : NsEntry) : DbProg Unit :=
  Prog.fromExcept (Naming.checkParent parent)

/-- `check_perm` after it has found the entry. -/
def permit (cap : Cap Mac) (containerOp : Opcode) (dbEnt : DbEntry) :
    Except Fault Unit :=
  if dbEnt.inode.entryObj.cid ≠ cidAny ∧
      dbEnt.inode.entryObj.cid ≠ cap.data.cid then
    throw (.code .errAccess)
  else if containerOp &&& cap.data.containerOp ≠ containerOp then
    throw (.code .errAccess)
  else
    match env.verifyCaps cap with
    | none => pure ()
    | some rc => throw (.code rc)

def checkPerm (oid : Oid) (cap : Cap Mac) (containerOp : Opcode) :
    DbProg Unit := do
  let dbEnt ← namingDbGetByOid oid
  Prog.fromExcept (permit env cap containerOp dbEnt)

/-- `get_file_obj`, as far as `fuel` links. -/
def getFileObj : ℕ → DbEntry → DbProg (Option Obj)
  | 0, _ => throw .hang
  | fuel + 1, entry =>
      if entry.inode.fileObjValid then pure (some entry.inode.fileObj)
      else if entry.inode.entryObj.type = linkEntry then
        .call (.getDirentByOid entry.dirent.link) fun
          | .error _ => pure none
          | .ok dirent => .call (.getInode dirent.inodeOid) fun
              | .error _ => pure none
              | .ok inode => getFileObj fuel ⟨dirent, inode⟩
      else pure none

def copyDbToNsEntry (fuel : ℕ) (entry : DbEntry) : DbProg NsEntry := do
  let fileObj ← getFileObj fuel entry
  pure { entry.nsEntry with fileObj }

def copyDbToNamespace (fuel : ℕ) (entry : DbEntry) : DbProg Namespace := do
  let nsEntry ← copyDbToNsEntry fuel entry
  pure ⟨clip entry.dirent.name, nsEntry⟩

/-- A code other than `LWFS_OK` becomes the given one. -/
def orFail {α : Type} (rc : ReturnCode) (x : DbProg α) : DbProg α :=
  tryCatch x fun
    | .code _ => throw (.code rc)
    | e => throw e

def namespaceLookup (fuel : ℕ) (name : Name) : DbProg Namespace := do
  let entry ← namingDbGetByName Oid.zero name
  copyDbToNamespace fuel entry

def removeEntry (parentOid : Oid) (name : Name) : DbProg DbEntry :=
  orFail .errNaming (namingDbDel parentOid name)

/-! ### The handlers -/

def namingCreateNamespace (fuel : ℕ) (name : Name) (cid : Cid) :
    DbProg Namespace := do
  let entry := newEntry env Oid.zero name nsObj cid none
  namingDbPut entry true
  copyDbToNamespace fuel entry

def namingRemoveNamespace (fuel : ℕ) (name : Name) (cap : Cap Mac) :
    DbProg Namespace := do
  let ns ← orFail .errNoent (namespaceLookup fuel name)
  checkPerm env ns.nsEntry.direntOid cap containerWrite
  let entry ← removeEntry ns.nsEntry.parentOid name
  copyDbToNamespace fuel entry

def namingGetNamespace (fuel : ℕ) (name : Name) : DbProg Namespace := do
  let ns ← orFail .errNoent (namespaceLookup fuel name)
  pure { ns with name := clip name }

def namingListNamespaces (fuel : ℕ) : DbProg (List Namespace) := do
  let count ← ask (.countDirents Oid.zero)
  if count = 0 then pure []
  else do
    let dbEnts ← namingDbGetAllByParent Oid.zero (count + 1) env.malloc
    if count < dbEnts.length then throw .overrun
    else dbEnts.mapM (copyDbToNamespace fuel)

def namingCreateDir (fuel : ℕ) (parent : NsEntry) (name : Name) (cid : Cid)
    (cap : Cap Mac) : DbProg NsEntry := do
  checkParent parent
  checkPerm env parent.direntOid cap containerWrite
  let entry := newEntry env parent.direntOid name dirEntry cid none
  namingDbPut entry true
  copyDbToNsEntry fuel entry

def removeFrom (fuel : ℕ) (parent : NsEntry) (name : Name) (cap : Cap Mac) :
    DbProg NsEntry := do
  checkParent parent
  checkPerm env parent.direntOid cap containerWrite
  let entry ← removeEntry parent.direntOid name
  copyDbToNsEntry fuel entry

def namingCreateFile (fuel : ℕ) (parent : NsEntry) (name : Name) (obj : Obj)
    (cap : Cap Mac) : DbProg NsEntry := do
  checkParent parent
  checkPerm env parent.direntOid cap containerWrite
  let entry := newEntry env parent.direntOid name fileEntry obj.cid (some obj)
  namingDbPut entry true
  -- sanity check
  let _ ← namingDbGetByOid entry.dirent.oid
  copyDbToNsEntry fuel entry

def namingCreateLink (fuel : ℕ) (parent : NsEntry) (name : Name)
    (cap : Cap Mac) (targetParent : NsEntry) (targetName : Name)
    (targetCap : Cap Mac) : DbProg NsEntry := do
  checkParent parent
  checkPerm env parent.direntOid cap containerWrite
  checkPerm env targetParent.direntOid targetCap containerRead
  let target ← namingDbGetByName targetParent.direntOid targetName
  let entry := linkTo env parent.direntOid name target
  namingDbPut entry true
  copyDbToNsEntry fuel entry

def namingLookup (fuel : ℕ) (parent : NsEntry) (name : Name) (cap : Cap Mac) :
    DbProg NsEntry := do
  checkParent parent
  checkPerm env parent.direntOid cap containerRead
  let entry ← namingDbGetByName parent.direntOid name
  copyDbToNsEntry fuel entry

def namingListDir (fuel : ℕ) (parent : NsEntry) (cap : Cap Mac) :
    DbProg (List NsEntry) := do
  checkParent parent
  checkPerm env parent.direntOid cap containerRead
  let count ← ask (.countDirents parent.direntOid)
  if count = 0 then pure []
  else do
    let dbEnts ← namingDbGetAllByParent parent.direntOid count env.malloc
    dbEnts.mapM (copyDbToNsEntry fuel)

def namingStat (obj : Obj) (cap : Cap Mac) : DbProg StatData := do
  checkPerm env obj.oid cap containerRead
  let entry ← namingDbGetByOid obj.oid
  pure entry.inode.statData

def handle (fuel : ℕ) : Request Mac → DbProg Result
  | .createNamespace name cid =>
      .namespace <$> namingCreateNamespace env fuel name cid
  | .removeNamespace name cap =>
      .namespace <$> namingRemoveNamespace env fuel name cap
  | .getNamespace name => .namespace <$> namingGetNamespace fuel name
  | .listNamespaces => .namespaces <$> namingListNamespaces env fuel
  | .createDir parent name cid cap =>
      .nsEntry <$> namingCreateDir env fuel parent name cid cap
  | .removeDir parent name cap =>
      .nsEntry <$> removeFrom env fuel parent name cap
  | .createFile parent name obj cap =>
      .nsEntry <$> namingCreateFile env fuel parent name obj cap
  | .createLink parent name cap targetParent targetName targetCap =>
      .nsEntry <$> namingCreateLink env fuel parent name cap targetParent
        targetName targetCap
  | .unlink parent name cap => .nsEntry <$> removeFrom env fuel parent name cap
  | .lookup parent name cap =>
      .nsEntry <$> namingLookup env fuel parent name cap
  | .listDir parent cap => .nsEntries <$> namingListDir env fuel parent cap
  | .stat obj cap => .statData <$> namingStat env obj cap

end Handlers

/-! ### Alone, and without failures -/

/-- The program alone, on databases that serve every call. -/
def alone {α : Type} (p : DbProg α) : DbRoutine α := p.run (DbCall.exec false)

theorem run_orFail {α σ : Type} (exec : (c : DbCall) → σ → c.Reply × σ)
    (rc : ReturnCode) (x : DbProg α) :
    (orFail rc x).run exec = (x.run exec).mapOutcome (Naming.orFail rc) := by
  funext db
  rw [orFail, Prog.run_tryCatch]
  cases h : x.run exec db with
  | ok a t =>
      rw [tryCatch_of_ok h]
      have hok : Naming.orFail rc (.ok a) = .ok a := rfl
      exact (mapOutcome_of_ok h hok).symm
  | error e t =>
      rw [tryCatch_of_error h]
      cases e <;> simp only [mapOutcome, outcome, final, h, Naming.orFail] <;> rfl

section Alone

variable {α β : Type}

theorem alone_bind (x : DbProg α) (f : α → DbProg β) :
    alone (x >>= f) = alone x >>= fun a => alone (f a) :=
  Prog.run_bind _ x f

theorem alone_map (x : DbProg α) (f : α → β) : alone (f <$> x) = f <$> alone x :=
  alone_bind x fun a => pure (f a)

theorem alone_ite (p : Prop) [Decidable p] (x y : DbProg α) :
    alone (if p then x else y) = if p then alone x else alone y :=
  Prog.run_ite _ p x y

theorem alone_pure (a : α) : alone (pure a : DbProg α) = pure a := rfl

theorem alone_throw (e : Fault) : alone (throw e : DbProg α) = throw e := rfl

theorem alone_call (c : DbCall) (k : c.Reply → DbProg α) (db : NamingDb) :
    alone (.call c k) db =
      alone (k (c.routine.outcome db)) (c.routine.final db) := rfl

theorem alone_call_of_ok {c : DbCall} {k : c.Reply → DbProg α}
    {db t : NamingDb} {a : c.Value} (h : c.routine db = .ok a t) :
    alone (.call c k) db = alone (k (.ok a)) t := by
  rw [alone_call, outcome_of_ok h, final_of_ok h]

theorem alone_call_of_error {c : DbCall} {k : c.Reply → DbProg α}
    {db t : NamingDb} {e : Fault} (h : c.routine db = .error e t) :
    alone (.call c k) db = alone (k (.error e)) t := by
  rw [alone_call, outcome_of_error h, final_of_error h]

theorem alone_ask (c : DbCall) : alone (ask c) = c.routine := by
  funext db
  cases h : c.routine db with
  | ok a t => exact alone_call_of_ok h
  | error e t => exact alone_call_of_error h

theorem alone_mapM {f : α → DbProg β} (l : List α) :
    alone (l.mapM f) = l.mapM fun a => alone (f a) := by
  induction l with
  | nil => rfl
  | cons a l ih =>
      rw [List.mapM_cons, List.mapM_cons, alone_bind]
      congr 1
      funext b
      rw [alone_bind, ih]
      rfl

theorem alone_orFail (rc : ReturnCode) (x : DbProg α) :
    alone (orFail rc x) = (alone x).mapOutcome (Naming.orFail rc) :=
  run_orFail _ rc x

end Alone

section Routines

theorem alone_entryOf (dirent : Dirent) :
    alone (entryOf dirent) = Routine.reader (Naming.entryOf dirent) := by
  rw [entryOf, alone_bind, alone_ask]
  exact reader_bind_reader (inodeGet dirent.inodeOid) fun inode _ =>
    .ok (DbEntry.mk dirent inode)

theorem alone_namingDbGetByName (parentOid : Oid) (name : Name) :
    alone (namingDbGetByName parentOid name) =
      Routine.reader (Naming.namingDbGetByName parentOid name) := by
  rw [namingDbGetByName, alone_bind, alone_ask]
  simp only [alone_entryOf]
  exact reader_bind_reader (db1Get (db1Keygen parentOid name)) Naming.entryOf

theorem alone_namingDbGetByOid (oid : Oid) :
    alone (namingDbGetByOid oid) =
      Routine.reader (Naming.namingDbGetByOid oid) := by
  rw [namingDbGetByOid, alone_bind, alone_ask]
  simp only [alone_entryOf]
  exact reader_bind_reader (db2Get oid) Naming.entryOf

theorem alone_inodeIncrementRefcnt (inodeOid : Oid) :
    alone (inodeIncrementRefcnt inodeOid) =
      Naming.inodeIncrementRefcnt inodeOid := by
  funext db
  rw [Naming.inodeIncrementRefcnt, get_bind]
  cases h : db.inodes.lookup inodeOid with
  | none =>
      have hget : (DbCall.getInode inodeOid).routine db =
          .error (.code .errNoent) db := by
        refine reader_of_error ?_
        rw [inodeGet, h]
      exact alone_call_of_error hget
  | some inode =>
      have hget : (DbCall.getInode inodeOid).routine db = .ok inode db := by
        refine reader_of_ok ?_
        rw [inodeGet, h]
      have hput : (DbCall.putInode inodeOid
          { inode with refCnt := inode.refCnt + 1 } false).routine db = .ok () _ :=
        inodePut_of_notMem fun h => Bool.false_ne_true h.1
      rw [inodeIncrementRefcnt, alone_call_of_ok hget]
      exact (alone_call_of_ok hput).trans hput.symm

theorem alone_inodeAttach (entry : DbEntry) (noOverwrite : Bool) :
    alone (inodeAttach entry noOverwrite) =
      Naming.inodeAttach entry noOverwrite := by
  rw [inodeAttach, alone_ite, alone_inodeIncrementRefcnt, alone_ask]
  rfl

theorem alone_namingDbPut (entry : DbEntry) (noOverwrite : Bool) :
    alone (namingDbPut entry noOverwrite) =
      Naming.namingDbPut entry noOverwrite := by
  rw [namingDbPut, alone_bind, alone_ask]
  simp only [alone_inodeAttach]
  rfl

theorem alone_inodeRelease (inode : Inode) :
    alone (inodeRelease inode) = Naming.inodeRelease inode := by
  rw [inodeRelease, alone_ite, alone_ite]
  rfl

theorem alone_dbDel (entry : DbEntry) :
    alone (dbDel entry) = Naming.dbDel entry := by
  rw [dbDel, alone_bind, alone_ask]
  simp only [alone_bind, alone_inodeRelease]
  rfl

theorem alone_namingDbDel (parentOid : Oid) (name : Name) :
    alone (namingDbDel parentOid name) = Naming.namingDbDel parentOid name := by
  rw [namingDbDel, alone_bind, alone_namingDbGetByName]
  simp only [alone_dbDel]
  rfl

theorem alone_removeEntry (parentOid : Oid) (name : Name) :
    alone (removeEntry parentOid name) = Naming.removeEntry parentOid name := by
  rw [removeEntry, alone_orFail, alone_namingDbDel]
  rfl

theorem alone_namingDbGetAllByParent (parentOid : Oid) (maxlen : ℕ)
    (malloc : ℕ → Dirent) :
    alone (namingDbGetAllByParent parentOid maxlen malloc) =
      Routine.reader (Naming.namingDbGetAllByParent parentOid maxlen malloc) := by
  rw [namingDbGetAllByParent, alone_bind, alone_ask]
  simp only [alone_mapM, alone_entryOf, reader_mapM]
  exact reader_bind_reader (db3Get parentOid maxlen) fun dirents db =>
    (List.range maxlen).mapM fun i =>
      Naming.entryOf (dirents.getD i (malloc i)) db

end Routines

section Requests

variable {Mac : Type} (env : Env Mac) (fuel : ℕ)

theorem alone_fromExcept {α : Type} (x : Except Fault α) :
    alone (Prog.fromExcept x) = Routine.reader fun _ => x :=
  Prog.run_fromExcept _ x

theorem alone_checkPerm (oid : Oid) (cap : Cap Mac) (containerOp : Opcode) :
    alone (checkPerm env oid cap containerOp) =
      Routine.reader (Naming.checkPerm env oid cap containerOp) := by
  rw [checkPerm, alone_bind, alone_namingDbGetByOid]
  simp only [alone_fromExcept]
  exact reader_bind_reader (Naming.namingDbGetByOid oid) fun dbEnt _ =>
    permit env cap containerOp dbEnt

/-- No call is made for an inode that is no link. -/
theorem getFileObj_eq_pure {e : DbEntry}
    (h : e.inode.entryObj.type ≠ linkEntry) :
    getFileObj (fuel + 1) e =
      pure (if e.inode.fileObjValid then some e.inode.fileObj else none) := by
  rw [getFileObj, if_neg h]
  split_ifs <;> rfl

theorem copyDbToNsEntry_eq_pure {e : DbEntry}
    (h : e.inode.entryObj.type ≠ linkEntry) :
    copyDbToNsEntry (fuel + 1) e = pure e.nsEntry := by
  rw [copyDbToNsEntry, getFileObj_eq_pure fuel h]
  rfl

theorem copyDbToNamespace_eq_pure {e : DbEntry}
    (h : e.inode.entryObj.type ≠ linkEntry) :
    copyDbToNamespace (fuel + 1) e = pure ⟨clip e.dirent.name, e.nsEntry⟩ := by
  rw [copyDbToNamespace, copyDbToNsEntry_eq_pure fuel h]
  rfl

theorem alone_copyDbToNsEntry {e : DbEntry}
    (h : e.inode.entryObj.type ≠ linkEntry) :
    alone (copyDbToNsEntry (fuel + 1) e) =
      Routine.reader (Naming.copyDbToNsEntry e) := by
  funext db
  rw [copyDbToNsEntry_eq_pure fuel h,
    reader_of_ok (Naming.copyDbToNsEntry_of_type h)]
  rfl

theorem alone_copyDbToNamespace {e : DbEntry}
    (h : e.inode.entryObj.type ≠ linkEntry) :
    alone (copyDbToNamespace (fuel + 1) e) =
      Routine.reader (Naming.copyDbToNamespace e) := by
  rw [copyDbToNamespace, alone_bind, alone_copyDbToNsEntry fuel h]
  exact reader_bind_reader (Naming.copyDbToNsEntry e) fun nsEntry _ =>
    .ok (Namespace.mk (clip e.dirent.name) nsEntry)

/-! ### The handlers alone -/

theorem alone_namingCreateNamespace (name : Name) (cid : Cid) :
    alone (namingCreateNamespace env (fuel + 1) name cid) =
      Naming.namingCreateNamespace env name cid := by
  have htype : nsObj ≠ linkEntry := by decide
  simp only [namingCreateNamespace, alone_bind, alone_namingDbPut]
  rw [alone_copyDbToNamespace fuel htype]
  rfl

theorem alone_namingCreateDir (parent : NsEntry) (name : Name) (cid : Cid)
    (cap : Cap Mac) :
    alone (namingCreateDir env (fuel + 1) parent name cid cap) =
      Naming.namingCreateDir env parent name cid cap := by
  have htype : dirEntry ≠ linkEntry := by decide
  simp only [namingCreateDir, checkParent, alone_bind, alone_fromExcept,
    alone_checkPerm, alone_namingDbPut]
  rw [alone_copyDbToNsEntry fuel htype]
  rfl

theorem alone_namingCreateFile (parent : NsEntry) (name : Name) (obj : Obj)
    (cap : Cap Mac) :
    alone (namingCreateFile env (fuel + 1) parent name obj cap) =
      Naming.namingCreateFile env parent name obj cap := by
  have htype : fileEntry ≠ linkEntry := by decide
  simp only [namingCreateFile, checkParent, alone_bind, alone_fromExcept,
    alone_checkPerm, alone_namingDbPut, alone_namingDbGetByOid]
  rw [alone_copyDbToNsEntry fuel htype]
  rfl

variable {db : NamingDb}

theorem type_of_getByName (hdb : NoLinkObj db) {parentOid : Oid} {name : Name}
    {e : DbEntry} (h : Naming.namingDbGetByName parentOid name db = .ok e) :
    e.inode.entryObj.type ≠ linkEntry := by
  obtain ⟨-, hi⟩ := namingDbGetByName_eq_ok.mp h
  exact hdb _ _ hi

/-- What was removed is no link, either. -/
theorem type_of_removeEntry (hdb : NoLinkObj db) {parentOid : Oid} {name : Name}
    {e : DbEntry} {t : NamingDb}
    (h : Naming.removeEntry parentOid name db = .ok e t) :
    e.inode.entryObj.type ≠ linkEntry := by
  obtain ⟨houtcome, -⟩ := mapOutcome_eq_ok.mp h
  have hdel : (Naming.namingDbDel parentOid name).outcome db = .ok e := by
    cases hcase : (Naming.namingDbDel parentOid name).outcome db with
    | ok e' =>
        rw [hcase] at houtcome
        exact houtcome
    | error f =>
        rw [hcase] at houtcome
        cases f <;> cases houtcome
  obtain ⟨entry, s, hread, hrest⟩ := bind_eq_ok.mp (outcome_eq_ok.mp hdel)
  obtain ⟨hget, -⟩ := reader_eq_ok.mp hread
  obtain ⟨_, _, -, hrest⟩ := bind_eq_ok.mp hrest
  obtain ⟨_, _, -, hrest⟩ := bind_eq_ok.mp hrest
  obtain ⟨rfl, -⟩ := pure_eq_ok.mp hrest
  have htype := type_of_getByName hdb hget
  exact htype

theorem alone_removeFrom (hdb : NoLinkObj db) (parent : NsEntry) (name : Name)
    (cap : Cap Mac) :
    alone (removeFrom env (fuel + 1) parent name cap) db =
      Naming.removeFrom env parent name cap db := by
  simp only [removeFrom, checkParent, alone_bind, alone_fromExcept,
    alone_checkPerm, alone_removeEntry]
  refine bind_congr_of_ok fun _ s hcheck => ?_
  obtain ⟨-, rfl⟩ := reader_eq_ok.mp hcheck
  refine bind_congr_of_ok fun _ s hperm => ?_
  obtain ⟨-, rfl⟩ := reader_eq_ok.mp hperm
  refine bind_congr_of_ok fun e s hremove => ?_
  rw [alone_copyDbToNsEntry fuel (type_of_removeEntry hdb hremove)]

theorem alone_namespaceLookup (hdb : NoLinkObj db) (name : Name) :
    alone (namespaceLookup (fuel + 1) name) db =
      Routine.reader (Naming.namespaceLookup name) db := by
  have hread := reader_bind_reader (Naming.namingDbGetByName Oid.zero name)
    Naming.copyDbToNamespace
  rw [namespaceLookup, alone_bind, alone_namingDbGetByName]
  refine Eq.trans ?_ (congrFun hread db)
  refine bind_congr_of_ok fun e s hget => ?_
  obtain ⟨hget, -⟩ := reader_eq_ok.mp hget
  rw [alone_copyDbToNamespace fuel (type_of_getByName hdb hget)]

theorem alone_orFail_namespaceLookup (hdb : NoLinkObj db) (rc : ReturnCode)
    (name : Name) :
    alone (orFail rc (namespaceLookup (fuel + 1) name)) db =
      Routine.reader (fun db => Naming.orFail rc (Naming.namespaceLookup name db))
        db := by
  rw [alone_orFail]
  simp only [mapOutcome, outcome, final, alone_namespaceLookup fuel hdb]
  cases h : Naming.namespaceLookup name db with
  | ok ns => simp only [Routine.reader, h, Naming.orFail]
  | error e => cases e <;> simp only [Routine.reader, h, Naming.orFail]

theorem alone_namingRemoveNamespace (hdb : NoLinkObj db) (name : Name)
    (cap : Cap Mac) :
    alone (namingRemoveNamespace env (fuel + 1) name cap) db =
      Naming.namingRemoveNamespace env name cap db := by
  rw [namingRemoveNamespace, alone_bind]
  refine (bind_congr_left (alone_orFail_namespaceLookup fuel hdb _ name)).trans ?_
  refine bind_congr_of_ok fun ns s hns => ?_
  obtain ⟨-, rfl⟩ := reader_eq_ok.mp hns
  simp only [alone_bind, alone_checkPerm, alone_removeEntry]
  refine bind_congr_of_ok fun _ s hperm => ?_
  obtain ⟨-, rfl⟩ := reader_eq_ok.mp hperm
  refine bind_congr_of_ok fun e s hremove => ?_
  rw [alone_copyDbToNamespace fuel (type_of_removeEntry hdb hremove)]

theorem alone_namingGetNamespace (hdb : NoLinkObj db) (name : Name) :
    alone (namingGetNamespace (fuel + 1) name) db =
      Naming.namingGetNamespace name db := by
  rw [namingGetNamespace, alone_bind]
  exact bind_congr_left (alone_orFail_namespaceLookup fuel hdb _ name)

theorem alone_namingCreateLink (hdb : NoLinkObj db) (parent : NsEntry)
    (name : Name) (cap : Cap Mac) (targetParent : NsEntry) (targetName : Name)
    (targetCap : Cap Mac) :
    alone (namingCreateLink env (fuel + 1) parent name cap targetParent
        targetName targetCap) db =
      Naming.namingCreateLink env parent name cap targetParent targetName
        targetCap db := by
  simp only [namingCreateLink, checkParent, alone_bind, alone_fromExcept,
    alone_checkPerm, alone_namingDbGetByName, alone_namingDbPut]
  refine bind_congr_of_ok fun _ s hcheck => ?_
  obtain ⟨-, rfl⟩ := reader_eq_ok.mp hcheck
  refine bind_congr_of_ok fun _ s hperm => ?_
  obtain ⟨-, rfl⟩ := reader_eq_ok.mp hperm
  refine bind_congr_of_ok fun _ s hperm => ?_
  obtain ⟨-, rfl⟩ := reader_eq_ok.mp hperm
  refine bind_congr_of_ok fun target s htarget => ?_
  obtain ⟨hget, rfl⟩ := reader_eq_ok.mp htarget
  have htarget' := type_of_getByName hdb hget
  have htype : (linkTo env parent.direntOid name target).inode.entryObj.type ≠
      linkEntry := htarget'
  rw [alone_copyDbToNsEntry fuel htype]

theorem alone_namingLookup (hdb : NoLinkObj db) (parent : NsEntry) (name : Name)
    (cap : Cap Mac) :
    alone (namingLookup env (fuel + 1) parent name cap) db =
      Naming.namingLookup env parent name cap db := by
  simp only [namingLookup, checkParent, alone_bind, alone_fromExcept,
    alone_checkPerm, alone_namingDbGetByName]
  refine bind_congr_of_ok fun _ s hcheck => ?_
  obtain ⟨-, rfl⟩ := reader_eq_ok.mp hcheck
  refine bind_congr_of_ok fun _ s hperm => ?_
  obtain ⟨-, rfl⟩ := reader_eq_ok.mp hperm
  refine bind_congr_of_ok fun e s hread => ?_
  obtain ⟨hget, -⟩ := reader_eq_ok.mp hread
  rw [alone_copyDbToNsEntry fuel (type_of_getByName hdb hget)]

/-- Whatever the record, an entry that was made has its inode from the
database. -/
theorem type_of_getAllByParent (hdb : NoLinkObj db) {parentOid : Oid}
    {maxlen : ℕ} {malloc : ℕ → Dirent} {dbEnts : List DbEntry}
    (h : Naming.namingDbGetAllByParent parentOid maxlen malloc db = .ok dbEnts) :
    ∀ e ∈ dbEnts, e.inode.entryObj.type ≠ linkEntry := by
  intro e he
  unfold Naming.namingDbGetAllByParent at h
  cases hget : db3Get parentOid maxlen db with
  | error f =>
      rw [hget] at h
      cases h
  | ok dirents =>
      rw [hget] at h
      obtain ⟨i, -, hentry⟩ := except_mem_of_mapM h he
      obtain ⟨-, hi⟩ := entryOf_eq_ok.mp hentry
      exact hdb _ _ hi

theorem alone_mapM_copyDbToNsEntry {es : List DbEntry}
    (h : ∀ e ∈ es, e.inode.entryObj.type ≠ linkEntry) :
    alone (es.mapM (copyDbToNsEntry (fuel + 1))) =
      Routine.reader fun db =>
        es.mapM fun entry => Naming.copyDbToNsEntry entry db := by
  rw [alone_mapM, ← reader_mapM]
  exact mapM_congr_of_mem fun e he => alone_copyDbToNsEntry fuel (h e he)

theorem alone_countDirents (parentOid : Oid) :
    alone (ask (.countDirents parentOid)) db =
      .ok (namingDbGetSize parentOid db) db := rfl

theorem alone_namingListDir (hdb : NoLinkObj db) (parent : NsEntry)
    (cap : Cap Mac) :
    alone (namingListDir env (fuel + 1) parent cap) db =
      Naming.namingListDir env parent cap db := by
  simp only [namingListDir, checkParent, alone_bind, alone_fromExcept,
    alone_checkPerm, alone_ite, alone_namingDbGetAllByParent]
  refine bind_congr_of_ok fun _ s hcheck => ?_
  obtain ⟨-, rfl⟩ := reader_eq_ok.mp hcheck
  refine bind_congr_of_ok fun _ s hperm => ?_
  obtain ⟨-, rfl⟩ := reader_eq_ok.mp hperm
  refine (bind_of_ok (alone_countDirents parent.direntOid)).trans ?_
  by_cases hsize : namingDbGetSize parent.direntOid db = 0
  · rw [if_pos hsize]
    refine (reader_of_ok ?_).symm
    exact if_pos hsize
  · rw [if_neg hsize]
    cases hfetch : Naming.namingDbGetAllByParent parent.direntOid
        (namingDbGetSize parent.direntOid db) env.malloc db with
    | error f =>
        refine (bind_of_error (reader_of_error hfetch)).trans
          (reader_of_error ?_).symm
        refine (if_neg hsize).trans ?_
        rw [hfetch]
        rfl
    | ok dbEnts =>
        refine (reader_bind_ok hfetch).trans ?_
        rw [alone_mapM_copyDbToNsEntry fuel (type_of_getAllByParent hdb hfetch)]
        simp only [Routine.reader, if_neg hsize, hfetch]
        rfl

/-- One element more was fetched than there is room for, if it was fetched. -/
theorem alone_namingListNamespaces :
    alone (namingListNamespaces env (fuel + 1)) db =
      Naming.namingListNamespaces env db := by
  simp only [namingListNamespaces, alone_bind, alone_ite,
    alone_namingDbGetAllByParent]
  refine (bind_of_ok (alone_countDirents Oid.zero)).trans ?_
  by_cases hsize : namingDbGetSize Oid.zero db = 0
  · rw [if_pos hsize]
    refine (reader_of_ok ?_).symm
    exact if_pos hsize
  · rw [if_neg hsize]
    cases hfetch : Naming.namingDbGetAllByParent Oid.zero
        (namingDbGetSize Oid.zero db + 1) env.malloc db with
    | error f =>
        refine (bind_of_error (reader_of_error hfetch)).trans
          (reader_of_error ?_).symm
        refine (if_neg hsize).trans ?_
        rw [hfetch]
        rfl
    | ok dbEnts =>
        have hover : namingDbGetSize Oid.zero db < dbEnts.length := by
          rw [length_namingDbGetAllByParent hfetch]
          omega
        refine (reader_bind_ok hfetch).trans ?_
        rw [if_pos hover]
        refine (reader_of_error ?_).symm
        refine (if_neg hsize).trans ?_
        rw [hfetch]
        exact if_pos hover

theorem alone_namingStat (obj : Obj) (cap : Cap Mac) :
    alone (namingStat env obj cap) = Naming.namingStat env obj cap := by
  simp only [namingStat, alone_bind, alone_checkPerm, alone_namingDbGetByOid]
  rfl

/-- A request alone, whose calls are all served, does what it does in one
go. -/
theorem alone_handle (hdb : NoLinkObj db) (r : Request Mac) :
    alone (handle env (fuel + 1) r) db = Naming.handle env r db := by
  cases r with
  | createNamespace name cid =>
      rw [handle, alone_map, alone_namingCreateNamespace]
      rfl
  | removeNamespace name cap =>
      rw [handle, alone_map]
      exact bind_congr_left (alone_namingRemoveNamespace env fuel hdb name cap)
  | getNamespace name =>
      rw [handle, alone_map]
      exact bind_congr_left (alone_namingGetNamespace fuel hdb name)
  | listNamespaces =>
      rw [handle, alone_map]
      exact bind_congr_left (alone_namingListNamespaces env fuel)
  | createDir parent name cid cap =>
      rw [handle, alone_map, alone_namingCreateDir]
      rfl
  | removeDir parent name cap =>
      rw [handle, alone_map]
      exact bind_congr_left (alone_removeFrom env fuel hdb parent name cap)
  | createFile parent name obj cap =>
      rw [handle, alone_map, alone_namingCreateFile]
      rfl
  | createLink parent name cap targetParent targetName targetCap =>
      rw [handle, alone_map]
      exact bind_congr_left (alone_namingCreateLink env fuel hdb parent name cap
        targetParent targetName targetCap)
  | unlink parent name cap =>
      rw [handle, alone_map]
      exact bind_congr_left (alone_removeFrom env fuel hdb parent name cap)
  | lookup parent name cap =>
      rw [handle, alone_map]
      exact bind_congr_left (alone_namingLookup env fuel hdb parent name cap)
  | listDir parent cap =>
      rw [handle, alone_map]
      exact bind_congr_left (alone_namingListDir env fuel hdb parent cap)
  | stat obj cap =>
      rw [handle, alone_map, alone_namingStat]
      rfl

end Requests

end Steps

end Lwfs.Naming
