import Lwfs.Naming.Listing
import Lwfs.Naming.Tree

/-!
The directory operations of the file system that a client mounts over a
namespace.

The library that calls them hands over path nodes. A node has a name, and its
parent has an entry that an earlier operation got from the naming server or
that came with the namespace. An operation asks for a capability for the
container of the parent and sends its requests to the naming server. None of
them looks at what stands under the entry that it removes, and a renaming is
a new link with an id of its own, after which the old entry is removed.

Containers and storage objects are the environment's part here, and so is
`check_cap_cache`.
-/

namespace Lwfs.FsLwfs

open SysLib Routine Naming

variable {Mac : Type}

/-- What an operation that fails returns. -/
inductive FsError
  | code (rc : ReturnCode)
  | eio
  | enoent
  /-- A name has been copied over the end of its buffer. -/
  | overrun
  deriving DecidableEq

/-- The part of `lwfs_filesystem` that the operations use: the entry of the
namespace, and the capability that `lwfs_inop_link` presents. -/
structure FileSystem (Mac : Type) where
  root : NsEntry
  cap : Cap Mac

/-- The part of `struct pnode` that the operations use. -/
structure Pnode where
  /-- `PNODE_NS_ENTRY(PNODE_PARENT(pno))`. -/
  parent : NsEntry
  name : Name
  deriving DecidableEq

/-- What an operation finds outside itself. -/
structure FsEnv (Mac : Type) where
  /-- `check_cap_cache`. -/
  checkCapCache : Cid → Opcode → Except ReturnCode (Cap Mac)
  /-- `check_cid_cache`, with the capability for new containers. -/
  checkCidCache : Except ReturnCode Cid
  /-- `sso_init_objs` and `sso_create_objs`. -/
  ssoCreateObjs : NsEntry → Cap Mac → Except ReturnCode Obj
  /-- What `lwfs_inop_unlink` does to the objects of a file. -/
  removeObjs : NsEntry → Obj → Cap Mac → Except FsError Unit
  /-- What the naming server finds when it takes a request of this
  operation. -/
  naming : ℕ → Env Mac

abbrev FsRoutine := Routine FsError Server

/-! ### Calls to the naming server -/

/-- What a client gets for a fault of the server: its code, or nothing in
time. -/
def callError : Fault → FsError
  | .code rc => .code rc
  | _ => .code .errTimedout

/-- A request is sent, and the client waits for the result. -/
def serve {α : Type} (x : DbRoutine α) : FsRoutine α := fun s =>
  if s.up then
    match x s.db with
    | .ok a db => .ok a ⟨db, true⟩
    | .error e db =>
        .error (callError e) ⟨db, survives (.error e : Except Fault α)⟩
  else .error (.code .errTimedout) s

/-- A capability, or a code that the operation returns. -/
def checkCap (env : FsEnv Mac) (cid : Cid) (containerOp : Opcode) :
    FsRoutine (Cap Mac) :=
  Routine.reader fun _ => (env.checkCapCache cid containerOp).mapError .code

/-- `COPY_PNODE_NAME`. The array holds the zero behind the name as well. -/
def copyPnodeName (pno : Pnode) : FsRoutine Name :=
  if pno.name.length < nameLen then pure pno.name else throw .overrun

/-- The codes that an operation returns as `-EIO`. -/
def orEio {α : Type} : Except FsError α → Except FsError α
  | .error (.code _) => .error .eio
  | result => result

/-- The codes that an operation returns as `-ENOENT`. -/
def orEnoent {α : Type} : Except FsError α → Except FsError α
  | .error (.code _) => .error .enoent
  | result => result

/-! ### The operations -/

section Operations

variable (fs : FileSystem Mac) (env : FsEnv Mac)

/-- `traverse_path`, with the last component of the path in front. -/
def traversePath : List Name → FsRoutine NsEntry
  | [] => pure fs.root
  | name :: parentPath => do
      let parent ← traversePath parentPath
      let cap ← checkCap env parent.entryObj.cid containerRead
      (serve (namingLookup (env.naming parentPath.length) parent (clip name)
        cap)).mapOutcome orEnoent

def lwfsInopMkdir (pno : Pnode) : FsRoutine NsEntry := do
  let name ← copyPnodeName pno
  let cap ← checkCap env pno.parent.entryObj.cid containerWrite
  serve (namingCreateDir (env.naming 0) pno.parent name
    pno.parent.entryObj.cid cap)

def lwfsInopRmdir (pno : Pnode) : FsRoutine NsEntry := do
  let name ← copyPnodeName pno
  let cap ← checkCap env pno.parent.entryObj.cid containerWrite
  (serve (namingRemoveDir (env.naming 0) pno.parent name cap)).mapOutcome orEio

/-- The loop of `create_file`: while the entry exists, three times at most. -/
def createEntry (parent : NsEntry) (name : Name) (obj : Obj) (cap : Cap Mac)
    (missCount : ℕ) : ℕ → FsRoutine NsEntry
  | 0 => throw (.code .errExist)
  | attempts + 1 =>
      tryCatch
        (serve (namingCreateFile (env.naming missCount) parent name obj cap))
        fun e =>
          if e = .code .errExist then
            createEntry parent name obj cap (missCount + 1) attempts
          else throw e

def createFile (pno : Pnode) : FsRoutine NsEntry := do
  let name ← copyPnodeName pno
  let fileCid ← Routine.reader fun _ => env.checkCidCache.mapError .code
  let createObjsCap ← checkCap env fileCid (containerWrite ||| containerRead)
  let cap ← checkCap env pno.parent.entryObj.cid
    (containerWrite ||| containerRead)
  let obj ← Routine.reader fun _ =>
    (env.ssoCreateObjs pno.parent createObjsCap).mapError .code
  createEntry env pno.parent name obj cap 0 3

def lwfsInopLink (target link : Pnode) : FsRoutine NsEntry := do
  let linkName ← copyPnodeName link
  let targetName ← copyPnodeName target
  (serve (namingCreateLink (env.naming 0) link.parent linkName fs.cap
    target.parent targetName fs.cap)).mapOutcome orEio

/-- The objects of a file go with its last entry. -/
def removeFileObjs (entry : NsEntry) : FsRoutine Unit :=
  match entry.fileObj with
  | none => pure ()
  | some obj =>
      if entry.linkCnt = 0 then do
        let cap ← checkCap env obj.cid containerWrite
        Routine.reader fun _ => env.removeObjs entry obj cap
      else pure ()

/-- `lwfs_inop_unlink`, whose request is the one with the given number. -/
def lwfsInopUnlink (call : ℕ) (pno : Pnode) : FsRoutine Unit := do
  let name ← copyPnodeName pno
  let cap ← checkCap env pno.parent.entryObj.cid containerWrite
  let entry ←
    (serve (namingUnlink (env.naming call) pno.parent name cap)).mapOutcome orEio
  removeFileObjs env entry

def lwfsInopRename (old new : Pnode) : FsRoutine Unit := do
  let _ ← lwfsInopLink fs env old new
  lwfsInopUnlink env 1 old

end Operations

/-! ### The mounted file system -/

inductive FsOp
  | lookup (path : List Name)
  | mkdir (pno : Pnode)
  | rmdir (pno : Pnode)
  | createFile (pno : Pnode)
  | link (target pno : Pnode)
  | unlink (pno : Pnode)
  | rename (old new : Pnode)
  deriving DecidableEq

/-- The nodes that an operation gets. -/
def FsOp.pnodes : FsOp → List Pnode
  | .lookup _ => []
  | .mkdir pno => [pno]
  | .rmdir pno => [pno]
  | .createFile pno => [pno]
  | .link target pno => [target, pno]
  | .unlink pno => [pno]
  | .rename old new => [old, new]

/-- The naming server, and the entries that path nodes can have. -/
structure Mount where
  server : Server
  known : List NsEntry

/-- One operation, with the entries that are put into path nodes. -/
def perform (fs : FileSystem Mac) (env : FsEnv Mac) :
    FsOp → FsRoutine (List NsEntry)
  | .lookup path => (fun entry => [entry]) <$> traversePath fs env path
  | .mkdir pno => (fun _ => []) <$> lwfsInopMkdir env pno
  | .rmdir pno => (fun _ => []) <$> lwfsInopRmdir env pno
  | .createFile pno => (fun entry => [entry]) <$> FsLwfs.createFile env pno
  | .link target pno => (fun _ => []) <$> lwfsInopLink fs env target pno
  | .unlink pno => (fun _ => []) <$> lwfsInopUnlink env 0 pno
  | .rename old new => (fun _ => []) <$> lwfsInopRename fs env old new

/-- The file system right after it was mounted. -/
def Mount.init (fs : FileSystem Mac) (server : Server) : Mount :=
  ⟨server, [fs.root]⟩

def fsStep (fs : FileSystem Mac) (s : Mount) (r : FsEnv Mac × FsOp) : Mount :=
  match perform fs r.1 r.2 s.server with
  | .ok entries server => ⟨server, entries ++ s.known⟩
  | .error _ server => ⟨server, s.known⟩

/-- The nodes come from this file system, and the ids that the server
generates are new. -/
structure Proper (s : Mount) (r : FsEnv Mac × FsOp) : Prop where
  known : ∀ pno ∈ r.2.pnodes, pno.parent ∈ s.known
  newIds : ∀ call, NewIds (r.1.naming call) s.server.db

end Lwfs.FsLwfs
