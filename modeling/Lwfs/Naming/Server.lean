import Lwfs.Lib.Run
import Lwfs.Naming.Db

/-!
The naming server: the check its handlers share, the handlers, and the
system that takes one request after the other.

What a request finds outside the server is an `Env`: the ids that
`naming_db_gen_oid` returns, the clock, the answer of the authorization
service, and the contents of memory that was allocated and not written.
-/

namespace Lwfs.Naming

open SysLib

/-- What the environment hands to the server during one request. -/
structure Env (Mac : Type) where
  /-- The service descriptor of this server. -/
  namingSvc : Service
  /-- The id generated for a new entry. -/
  direntOid : Oid
  /-- The id generated for a new inode. -/
  inodeOid : Oid
  time : UInt32
  /-- `lwfs_verify_caps_sync`; no code is `LWFS_OK`. -/
  verifyCaps : Cap Mac → Option ReturnCode
  malloc : ℕ → Dirent

/-- `lwfs_ns_entry`. No handler reads or sets `d_obj`. -/
structure NsEntry where
  name : Name
  direntOid : Oid
  inodeOid : Oid
  parentOid : Oid
  linkCnt : Int32
  entryObj : Obj
  fileObj : Option Obj
  deriving DecidableEq

/-- `lwfs_namespace`. -/
structure Namespace where
  name : Name
  nsEntry : NsEntry
  deriving DecidableEq

variable {Mac : Type} (env : Env Mac)

/-- `update_time`. -/
def updateTime : Time := ⟨env.time, 0⟩

/-- The attributes of a new entry. -/
def newStatData : StatData :=
  ⟨updateTime env, updateTime env, updateTime env, 0⟩

/-! ### Checks and results -/

def checkPerm (oid : Oid) (cap : Cap Mac) (containerOp : Opcode)
    (db : NamingDb) : Except Fault Unit := do
  let dbEnt ← namingDbGetByOid oid db
  if dbEnt.inode.entryObj.cid ≠ cidAny ∧
      dbEnt.inode.entryObj.cid ≠ cap.data.cid then
    throw (.code .errAccess)
  else if containerOp &&& cap.data.containerOp ≠ containerOp then
    throw (.code .errAccess)
  else
    match env.verifyCaps cap with
    | none => pure ()
    | some rc => throw (.code rc)

/-- The check of the parent that a client supplies. It looks at the type in
the client's structure, not at the one that is stored. -/
def checkParent (parent : NsEntry) : Except Fault Unit :=
  if parent.entryObj.type ≠ dirEntry ∧ parent.entryObj.type ≠ nsObj then
    throw (.code .errNotdir)
  else pure ()

/-- `get_file_obj`, which follows links. A chain longer than the table goes
round in a circle. -/
def getFileObj (db : NamingDb) : ℕ → DbEntry → Except Fault (Option Obj)
  | 0, _ => .error .hang
  | fuel + 1, entry =>
      if entry.inode.fileObjValid then .ok (some entry.inode.fileObj)
      else if entry.inode.entryObj.type = linkEntry then
        match namingDbGetByOid entry.dirent.link db with
        | .error _ => .ok none
        | .ok target => getFileObj db fuel target
      else .ok none

def copyDbToNsEntry (entry : DbEntry) (db : NamingDb) :
    Except Fault NsEntry := do
  let fileObj ← getFileObj db (db.dirents.entries.length + 2) entry
  pure
    { name := clip entry.dirent.name
      direntOid := entry.dirent.oid
      inodeOid := entry.dirent.inodeOid
      parentOid := entry.dirent.parentOid
      linkCnt := entry.inode.refCnt
      entryObj := entry.inode.entryObj
      fileObj }

def copyDbToNamespace (entry : DbEntry) (db : NamingDb) :
    Except Fault Namespace := do
  let nsEntry ← copyDbToNsEntry entry db
  pure ⟨clip entry.dirent.name, nsEntry⟩

/-- `namespace_lookup`: a namespace is an entry under `ROOT_OID`. -/
def namespaceLookup (name : Name) (db : NamingDb) : Except Fault Namespace := do
  let entry ← namingDbGetByName Oid.zero name db
  copyDbToNamespace entry db

/-! ### New entries -/

/-- The entry that `naming_create_namespace`, `naming_create_dir` and
`naming_create_file` put: it names an inode of its own. -/
def newEntry (parentOid : Oid) (name : Name) (type : Int32) (cid : Cid)
    (fileObj : Option Obj) : DbEntry where
  dirent :=
    { oid := env.direntOid
      inodeOid := env.inodeOid
      hide := false
      name := clip name
      parentOid
      link := Oid.zero
      deleted := false }
  inode :=
    { entryObj := ⟨env.namingSvc, type, cid, env.inodeOid, 0⟩
      refCnt := 1
      statData := newStatData env
      fileObjValid := fileObj.isSome
      fileObj := fileObj.getD Obj.zero }

/-- The entry that `naming_create_link` puts: it names the inode of its
target, and carries a copy of that. -/
def linkTo (parentOid : Oid) (name : Name) (target : DbEntry) : DbEntry where
  dirent :=
    { oid := env.direntOid
      inodeOid := target.dirent.inodeOid
      hide := false
      name := clip name
      parentOid
      link := target.dirent.oid
      deleted := false }
  inode :=
    { target.inode with
      entryObj := { target.inode.entryObj with svc := env.namingSvc } }

/-! ### The handlers -/

def namingCreateNamespace (name : Name) (cid : Cid) : DbRoutine Namespace := do
  let entry := newEntry env Oid.zero name nsObj cid none
  namingDbPut entry true
  Routine.reader (copyDbToNamespace entry)

/-- A code other than `LWFS_OK` becomes the given one. -/
def orFail {α : Type} (rc : ReturnCode) : Except Fault α → Except Fault α
  | .error (.code _) => .error (.code rc)
  | result => result

/-- `naming_db_del` as the handlers call it. -/
def removeEntry (parentOid : Oid) (name : Name) : DbRoutine DbEntry :=
  (namingDbDel parentOid name).mapOutcome (orFail .errNaming)

def namingRemoveNamespace (name : Name) (cap : Cap Mac) :
    DbRoutine Namespace := do
  let ns ← Routine.reader fun db => orFail .errNoent (namespaceLookup name db)
  Routine.reader (checkPerm env ns.nsEntry.direntOid cap containerWrite)
  let entry ← removeEntry ns.nsEntry.parentOid name
  Routine.reader (copyDbToNamespace entry)

def namingGetNamespace (name : Name) : DbRoutine Namespace := do
  let ns ← Routine.reader fun db => orFail .errNoent (namespaceLookup name db)
  pure { ns with name := clip name }

/-- `naming_list_namespaces` has room for the entries it has counted and asks
for one more; if it gets that, it has written behind its buffer. -/
def namingListNamespaces : DbRoutine (List Namespace) :=
  Routine.reader fun db => do
    let count := namingDbGetSize Oid.zero db
    if count = 0 then pure []
    else do
      let dbEnts ← namingDbGetAllByParent Oid.zero (count + 1) env.malloc db
      if count < dbEnts.length then throw .overrun
      else dbEnts.mapM fun entry => copyDbToNamespace entry db

def namingCreateDir (parent : NsEntry) (name : Name) (cid : Cid)
    (cap : Cap Mac) : DbRoutine NsEntry := do
  Routine.reader fun _ => checkParent parent
  Routine.reader (checkPerm env parent.direntOid cap containerWrite)
  let entry := newEntry env parent.direntOid name dirEntry cid none
  namingDbPut entry true
  Routine.reader (copyDbToNsEntry entry)

/-- The body that `naming_remove_dir` and `naming_unlink` share. Neither looks
at what it removes. -/
def removeFrom (parent : NsEntry) (name : Name) (cap : Cap Mac) :
    DbRoutine NsEntry := do
  Routine.reader fun _ => checkParent parent
  Routine.reader (checkPerm env parent.direntOid cap containerWrite)
  let entry ← removeEntry parent.direntOid name
  Routine.reader (copyDbToNsEntry entry)

def namingRemoveDir (parent : NsEntry) (name : Name) (cap : Cap Mac) :
    DbRoutine NsEntry :=
  removeFrom env parent name cap

def namingCreateFile (parent : NsEntry) (name : Name) (obj : Obj)
    (cap : Cap Mac) : DbRoutine NsEntry := do
  Routine.reader fun _ => checkParent parent
  Routine.reader (checkPerm env parent.direntOid cap containerWrite)
  let entry := newEntry env parent.direntOid name fileEntry obj.cid (some obj)
  namingDbPut entry true
  -- sanity check
  let _ ← Routine.reader (namingDbGetByOid entry.dirent.oid)
  Routine.reader (copyDbToNsEntry entry)

def namingCreateLink (parent : NsEntry) (name : Name) (cap : Cap Mac)
    (targetParent : NsEntry) (targetName : Name) (targetCap : Cap Mac) :
    DbRoutine NsEntry := do
  Routine.reader fun _ => checkParent parent
  Routine.reader (checkPerm env parent.direntOid cap containerWrite)
  Routine.reader
    (checkPerm env targetParent.direntOid targetCap containerRead)
  let target ← Routine.reader
    (namingDbGetByName targetParent.direntOid targetName)
  let entry := linkTo env parent.direntOid name target
  namingDbPut entry true
  Routine.reader (copyDbToNsEntry entry)

def namingUnlink (parent : NsEntry) (name : Name) (cap : Cap Mac) :
    DbRoutine NsEntry :=
  removeFrom env parent name cap

def namingLookup (parent : NsEntry) (name : Name) (cap : Cap Mac) :
    DbRoutine NsEntry := do
  Routine.reader fun _ => checkParent parent
  Routine.reader (checkPerm env parent.direntOid cap containerRead)
  let entry ← Routine.reader (namingDbGetByName parent.direntOid name)
  Routine.reader (copyDbToNsEntry entry)

def namingListDir (parent : NsEntry) (cap : Cap Mac) :
    DbRoutine (List NsEntry) := do
  Routine.reader fun _ => checkParent parent
  Routine.reader (checkPerm env parent.direntOid cap containerRead)
  Routine.reader fun db => do
    let count := namingDbGetSize parent.direntOid db
    if count = 0 then pure []
    else do
      let dbEnts ←
        namingDbGetAllByParent parent.direntOid count env.malloc db
      dbEnts.mapM fun entry => copyDbToNsEntry entry db

def namingStat (obj : Obj) (cap : Cap Mac) : DbRoutine StatData := do
  Routine.reader (checkPerm env obj.oid cap containerRead)
  let entry ← Routine.reader (namingDbGetByOid obj.oid)
  pure entry.inode.statData

/-! ### The server -/

/-- The operations of the naming service with their arguments. -/
inductive Request (Mac : Type)
  | createNamespace (name : Name) (cid : Cid)
  | removeNamespace (name : Name) (cap : Cap Mac)
  | getNamespace (name : Name)
  | listNamespaces
  | createDir (parent : NsEntry) (name : Name) (cid : Cid) (cap : Cap Mac)
  | removeDir (parent : NsEntry) (name : Name) (cap : Cap Mac)
  | createFile (parent : NsEntry) (name : Name) (obj : Obj) (cap : Cap Mac)
  | createLink (parent : NsEntry) (name : Name) (cap : Cap Mac)
      (targetParent : NsEntry) (targetName : Name) (targetCap : Cap Mac)
  | unlink (parent : NsEntry) (name : Name) (cap : Cap Mac)
  | lookup (parent : NsEntry) (name : Name) (cap : Cap Mac)
  | listDir (parent : NsEntry) (cap : Cap Mac)
  | stat (obj : Obj) (cap : Cap Mac)

/-- The result of an operation. -/
inductive Result
  | namespace (ns : Namespace)
  | namespaces (nss : List Namespace)
  | nsEntry (entry : NsEntry)
  | nsEntries (entries : List NsEntry)
  | statData (data : StatData)

def handle : Request Mac → DbRoutine Result
  | .createNamespace name cid =>
      .namespace <$> namingCreateNamespace env name cid
  | .removeNamespace name cap =>
      .namespace <$> namingRemoveNamespace env name cap
  | .getNamespace name => .namespace <$> namingGetNamespace name
  | .listNamespaces => .namespaces <$> namingListNamespaces env
  | .createDir parent name cid cap =>
      .nsEntry <$> namingCreateDir env parent name cid cap
  | .removeDir parent name cap =>
      .nsEntry <$> namingRemoveDir env parent name cap
  | .createFile parent name obj cap =>
      .nsEntry <$> namingCreateFile env parent name obj cap
  | .createLink parent name cap targetParent targetName targetCap =>
      .nsEntry <$>
        namingCreateLink env parent name cap targetParent targetName targetCap
  | .unlink parent name cap => .nsEntry <$> namingUnlink env parent name cap
  | .lookup parent name cap => .nsEntry <$> namingLookup env parent name cap
  | .listDir parent cap => .nsEntries <$> namingListDir env parent cap
  | .stat obj cap => .statData <$> namingStat env obj cap

/-- The server: its database, and whether it still runs. -/
structure Server where
  db : NamingDb
  up : Bool

/-- The server after `naming_db_init` on a cleared file. -/
def Server.init (oids : InitOids) : Server :=
  ⟨(namingDbInit oids).final NamingDb.empty, true⟩

/-- Whether the server goes on after a request that ends so. -/
def survives {α : Type} : Except Fault α → Bool
  | .ok _ => true
  | .error (.code _) => true
  | .error _ => false

/-- One request, with what the environment hands to the server during it. -/
def step (s : Server) (r : Env Mac × Request Mac) : Server :=
  if s.up then
    ⟨(handle r.1 r.2).final s.db, survives ((handle r.1 r.2).outcome s.db)⟩
  else s

/-- The request makes the server call `abort()`. -/
def Aborts (s : Server) (r : Env Mac × Request Mac) : Prop :=
  s.up = true ∧ ∃ db, handle r.1 r.2 s.db = .error .abort db

end Lwfs.Naming
