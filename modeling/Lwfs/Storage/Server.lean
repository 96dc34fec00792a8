import Lwfs.Lib.Run
import Lwfs.Storage.SysioObj

/-!
The storage server: the check of capabilities, the handlers, and the system
that takes one request after the other.

A request names the object it is about. The bytes of a write are those that
the client holds at the address it passes, and the result of a read includes
the bytes that were put there.
-/

namespace Lwfs.Storage

open SysLib

/-- The operations of the storage service with their arguments. -/
inductive Request (Mac : Type)
  | createObj (obj : Obj) (cap : Cap Mac)
  | removeObj (obj : Obj) (cap : Cap Mac)
  | read (srcObj : Obj) (srcOffset len : ℕ) (cap : Cap Mac)
  | write (destObj : Obj) (destOffset : ℕ) (data : List UInt8) (cap : Cap Mac)
  | fsync (obj : Obj) (cap : Cap Mac)
  | listattrs (obj : Obj) (cap : Cap Mac)
  | getattrs (obj : Obj) (names : List Name) (cap : Cap Mac)
  | setattrs (obj : Obj) (attrs : List Attr) (cap : Cap Mac)
  | rmattrs (obj : Obj) (names : List Name) (cap : Cap Mac)
  | getattr (obj : Obj) (name : Name) (cap : Cap Mac)
  | setattr (obj : Obj) (attr : Attr) (cap : Cap Mac)
  | rmattr (obj : Obj) (name : Name) (cap : Cap Mac)
  | stat (obj : Obj) (cap : Cap Mac)
  | truncate (obj : Obj) (size : ℕ) (cap : Cap Mac)

/-- The result of an operation. -/
inductive Result
  | done
  | read (count : ℕ) (data : List UInt8)
  | names (names : List Name)
  | attrs (attrs : List Attr)
  | attr (attr : Attr)
  | statData (data : StatData)
  deriving DecidableEq

variable {Mac : Type} (env : Env Mac) (root : Path)

/-- `ss_verify_cap`. The comparison of the container of the object with that
of the capability is commented out in the source, so the object is not an
argument here. -/
def ssVerifyCap (cap : Cap Mac) (containerOp : Opcode) : Except Fault Unit :=
  if containerOp = 0 then throw (.code .err)
  else if containerOp &&& cap.data.containerOp ≠ containerOp then
    throw (.code .errAccess)
  else
    match env.verifyCaps cap with
    | none => pure ()
    | some rc => throw (.code rc)

/-- The two checks that come before an operation on an object. -/
def checkAccess (obj : Obj) (cap : Cap Mac) (containerOp : Opcode) :
    StoreRoutine Unit := do
  let found ← sysioObjExists obj.oid
  if found = false then throw (.code .errNoObj)
  else Routine.reader fun _ => ssVerifyCap env cap containerOp

/-- An operation whose error codes the server replaces by
`LWFS_ERR_STORAGE`. -/
def asStorageError {α : Type} (x : StoreRoutine α) : StoreRoutine α :=
  x.mapOutcome fun r =>
    match r with
    | .error (.code _) => .error (.code .errStorage)
    | r => r

/-- The name `"_lwfs_cid"`. -/
def lwfsCidName : Name := [95, 108, 119, 102, 115, 95, 99, 105, 100]

/-- A container id as an attribute has it. -/
def cidValue (cid : Cid) : List UInt8 := Bytes.ofNat 8 cid.toNat

/-! ### The operations, after the checks -/

def createOp (obj : Obj) (cap : Cap Mac) : StoreRoutine Unit := do
  sysioObjCreate env root obj.oid
  asStorageError
    (sysioObjSetattr env obj.oid lwfsCidName (cidValue cap.data.cid))

/-- The bytes put at the address of the client, if there are any. -/
def sendData (count : ℕ) (buf : List UInt8) : StoreRoutine Result :=
  if count = 0 then return .read count []
  else match env.putData with
  | some rc => throw (.code rc)
  | none => return .read count (buf.take count)

/-- The count of a read is kept as an unsigned integer of 32 bits. -/
def readOp (srcObj : Obj) (srcOffset len : ℕ) : StoreRoutine Result := do
  let buf := (List.range len).map env.malloc
  let res ← sysioObjRead env root srcObj.oid srcOffset buf
  let count := res.1 % 4294967296
  if count = 4294967295 then throw (.code .errStorage)
  else sendData env count res.2

/-- Where not everything was written, the buffer is freed after the write, and
that is a second time if the write has freed it. -/
def writeOp (destObj : Obj) (destOffset : ℕ) (data : List UInt8) :
    StoreRoutine Unit :=
  match env.getData with
  | some rc => throw (.code rc)
  | none => do
      let res ← sysioObjWrite env root destObj.oid destOffset data
      if res.1 = data.length then return ()
      else if res.2 then throw .badPointer
      else throw (.code .errStorage)

/-- The return code of `sysio_obj_trunc` is taken for one of the service, so
that one is an error and zero is `LWFS_OK`. -/
def truncateOp (obj : Obj) (size : ℕ) : StoreRoutine Unit := do
  let rc ← sysioObjTrunc env root obj.oid size
  if rc ≠ 0 then throw (.code .errStorage) else return ()

/-! ### The handlers -/

def ssCreateObj (obj : Obj) (cap : Cap Mac) : StoreRoutine Unit := do
  Routine.reader fun _ => ssVerifyCap env cap containerWrite
  createOp env root obj cap

def ssRemoveObj (obj : Obj) (cap : Cap Mac) : StoreRoutine Unit := do
  checkAccess env obj cap containerWrite
  sysioObjRemove env root obj.oid

def ssRead (srcObj : Obj) (srcOffset len : ℕ) (cap : Cap Mac) :
    StoreRoutine Result := do
  checkAccess env srcObj cap containerRead
  readOp env root srcObj srcOffset len

def ssWrite (destObj : Obj) (destOffset : ℕ) (data : List UInt8)
    (cap : Cap Mac) : StoreRoutine Unit := do
  checkAccess env destObj cap containerWrite
  writeOp env root destObj destOffset data

def ssFsync (obj : Obj) (cap : Cap Mac) : StoreRoutine Unit := do
  checkAccess env obj cap containerWrite
  sysioObjFsync env root obj.oid

def ssListattrs (obj : Obj) (cap : Cap Mac) : StoreRoutine (List Name) := do
  checkAccess env obj cap containerRead
  asStorageError (sysioObjListattrs env obj.oid)

def ssGetattrs (obj : Obj) (names : List Name) (cap : Cap Mac) :
    StoreRoutine (List Attr) := do
  checkAccess env obj cap containerRead
  asStorageError (sysioObjGetattrs env obj.oid names)

def ssSetattrs (obj : Obj) (attrs : List Attr) (cap : Cap Mac) :
    StoreRoutine Unit := do
  checkAccess env obj cap containerWrite
  asStorageError (sysioObjSetattrs env obj.oid attrs)

def ssRmattrs (obj : Obj) (names : List Name) (cap : Cap Mac) :
    StoreRoutine Unit := do
  checkAccess env obj cap containerRead
  asStorageError (sysioObjRmattrs env obj.oid names)

def ssGetattr (obj : Obj) (name : Name) (cap : Cap Mac) :
    StoreRoutine Attr := do
  checkAccess env obj cap containerRead
  asStorageError (sysioObjGetattr env obj.oid name)

def ssSetattr (obj : Obj) (attr : Attr) (cap : Cap Mac) :
    StoreRoutine Unit := do
  checkAccess env obj cap containerWrite
  asStorageError (sysioObjSetattr env obj.oid attr.name attr.value)

def ssRmattr (obj : Obj) (name : Name) (cap : Cap Mac) :
    StoreRoutine Unit := do
  checkAccess env obj cap containerRead
  asStorageError (sysioObjRmattr env obj.oid name)

def ssStat (obj : Obj) (cap : Cap Mac) : StoreRoutine StatData := do
  checkAccess env obj cap containerRead
  asStorageError (sysioObjStat env root obj.oid)

def ssTruncate (obj : Obj) (size : ℕ) (cap : Cap Mac) :
    StoreRoutine Unit := do
  checkAccess env obj cap containerWrite
  truncateOp env root obj size

def handle : Request Mac → StoreRoutine Result
  | .createObj obj cap => (fun _ => .done) <$> ssCreateObj env root obj cap
  | .removeObj obj cap => (fun _ => .done) <$> ssRemoveObj env root obj cap
  | .read obj offset len cap => ssRead env root obj offset len cap
  | .write obj offset data cap =>
      (fun _ => .done) <$> ssWrite env root obj offset data cap
  | .fsync obj cap => (fun _ => .done) <$> ssFsync env root obj cap
  | .listattrs obj cap => .names <$> ssListattrs env obj cap
  | .getattrs obj names cap => .attrs <$> ssGetattrs env obj names cap
  | .setattrs obj attrs cap => (fun _ => .done) <$> ssSetattrs env obj attrs cap
  | .rmattrs obj names cap => (fun _ => .done) <$> ssRmattrs env obj names cap
  | .getattr obj name cap => .attr <$> ssGetattr env obj name cap
  | .setattr obj attr cap => (fun _ => .done) <$> ssSetattr env obj attr cap
  | .rmattr obj name cap => (fun _ => .done) <$> ssRmattr env obj name cap
  | .stat obj cap => .statData <$> ssStat env root obj cap
  | .truncate obj size cap =>
      (fun _ => .done) <$> ssTruncate env root obj size cap

/-! ### The server -/

/-- The server: its state, and whether it still runs. -/
structure Server where
  store : Store
  up : Bool

/-- The server after `sysio_obj_init` and `ss_db_init` with an empty root
directory and a new database. -/
def Server.init : Server := ⟨Store.empty, true⟩

/-- Whether the server goes on after a request that ends so. -/
def survives {α : Type} : Except Fault α → Bool
  | .ok _ => true
  | .error (.code _) => true
  | .error _ => false

/-- One request, with what the environment hands to the server during it. -/
def step (s : Server) (r : Env Mac × Request Mac) : Server :=
  if s.up then
    ⟨(handle r.1 root r.2).final s.store,
      survives ((handle r.1 root r.2).outcome s.store)⟩
  else s

end Lwfs.Storage
