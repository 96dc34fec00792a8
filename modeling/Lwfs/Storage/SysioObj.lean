import Lwfs.Lib.Bytes
import Lwfs.Lib.Format
import Lwfs.Storage.Store

/-!
The objects of the storage server as files of the host.

An object is a file in the root directory, named after the id of the object.
An element for each object holds the descriptor of the file while it is open.
At most `MAX_OPEN_FILES` elements are on the list of open files, and to put
one more on it the file of the last element is closed.
-/

namespace Lwfs.Storage

open SysLib

/-- `MAX_OPEN_FILES`, ten less than `FD_SETSIZE`. -/
def maxOpenFiles : ℕ := 1014

/-! ### Names of files -/

/-- One of the words that `lwfs_oid_to_string` prints. -/
def oidWord (oid : Oid) (i : ℕ) : List Char :=
  formatHex 8 (Bytes.toNat ((oid.bytes.drop (4 * i)).take 4))

/-- `lwfs_oid_to_string`. -/
def lwfsOidToString (oid : Oid) : List Char :=
  oidWord oid 0 ++ oidWord oid 1 ++ oidWord oid 2 ++ oidWord oid 3

/-- The path of an object under `PATH_STR`, in a buffer of `size`. -/
def fileName (size : ℕ) (root : Path) (oid : Oid) : Path :=
  (root ++ ['/', '0', 'x'] ++ lwfsOidToString oid).take (size - 1)

/-- The buffer of `open_oid`, and that of the other functions. -/
def longPath : ℕ := 256

def shortPath : ℕ := 64

/-! ### Elements -/

/-- Reads an element. -/
def oidEl (a : ℕ) : StoreRoutine OidEl := do
  let s ← get
  match s.heap.lookup a with
  | none => throw .badPointer
  | some el => return el

/-- Writes an element that has been read. -/
def setOidEl (a : ℕ) (el : OidEl) : StoreRoutine Unit :=
  modify fun s => { s with heap := s.heap.insert a el }

/-- `add_oid`, which returns the new element. -/
def addOid (oid : Oid) : StoreRoutine ℕ := do
  let s ← get
  set { s with
    heap := s.heap.insert s.nextEl ⟨0, oid, Mode.zero⟩
    nextEl := s.nextEl + 1
    oidHash := (oid, s.nextEl) :: s.oidHash }
  return s.nextEl

/-- `mt_hashtable_search`. -/
def oidHashSearch (oidHash : List (Oid × ℕ)) (oid : Oid) : Option ℕ :=
  (oidHash.find? fun e => e.1 = oid).map Prod.snd

/-- `find_oid`. -/
def findOid (oid : Oid) : StoreRoutine (Option ℕ) := do
  let s ← get
  return oidHashSearch s.oidHash oid

variable {Mac : Type} (env : Env Mac)

/-! ### The list of open files -/

/-- `close_the_open_file`. -/
def closeTheOpenFile (a : ℕ) : StoreRoutine Unit := do
  let el ← oidEl a
  if el.fd = 0 then return ()
  else
    let closed ← sys env (fun o fs => fs.sysClose o el.fd)
    if closed then
      setOidEl a { el with fd := 0, mode := { el.mode with c0 := '\x00' } }
    else return ()

/-- `tclist_delete` with `compare_oid_els`: the first element of the list
whose contents are those of `el` is taken off. -/
def tclistDelete (heap : Table ℕ OidEl) (el : OidEl) :
    List ℕ → Except Fault (List ℕ)
  | [] => .ok []
  | b :: bs =>
      match heap.lookup b with
      | none => .error .badPointer
      | some el' =>
          if el' = el then .ok bs
          else (tclistDelete heap el bs).map (b :: ·)

/-- `remove_from_open_files`. -/
def removeFromOpenFiles (a : ℕ) : StoreRoutine Unit := do
  let el ← oidEl a
  let l ← Routine.reader fun s => tclistDelete s.heap el s.openFilesList
  modify fun s => { s with openFilesList := l }
  closeTheOpenFile env a

/-- `tclist_unshift`. -/
def tclistUnshift (a : ℕ) : StoreRoutine Unit :=
  modify fun s => { s with openFilesList := a :: s.openFilesList }

/-- `add_to_open_files`. -/
def addToOpenFiles (a : ℕ) : StoreRoutine Unit := do
  let s ← get
  if s.openFilesList.length < maxOpenFiles then tclistUnshift a
  else if s.openFilesList.length = maxOpenFiles then
    -- close the one at the end
    removeFromOpenFiles env (s.openFilesList.getLastD 0)
    tclistUnshift a
  else return ()

/-! ### Opening the file of an object -/

variable (root : Path)

/-- Opens a file for an element. Where `open` fails, the element keeps the
descriptor `-1`. -/
def openElement (a : ℕ) (path : Path) : StoreRoutine Bool := do
  let fd ← sys env (fun o fs => fs.sysOpen env.toFdRule o path)
  let el ← oidEl a
  if fd < 0 then
    setOidEl a { el with fd := fd }
    return false
  else
    setOidEl a { el with fd := fd, mode := Mode.rPlus }
    addToOpenFiles env a
    return true

/-- `open_oid`. -/
def openOid (oid : Oid) : StoreRoutine (Option ℕ) := do
  match ← findOid oid with
  | none => return none
  | some a =>
      let el ← oidEl a
      if el.fd = 0 then
        let opened ← openElement env a (fileName longPath root oid)
        return if opened then some a else none
      else return some a

/-- `can_read_file`. -/
def canReadFile (mode : Mode) : Bool :=
  mode.c0 = 'r' ∨ (mode.c0 = 'w' ∨ mode.c0 = 'a') ∧ mode.c1 = '+'

/-- `can_write_file`. -/
def canWriteFile (mode : Mode) : Bool :=
  mode.c0 = 'r' ∧ mode.c1 = '+' ∨ mode.c0 = 'w'

/-- The mode check of `sysio_obj_read` and `sysio_obj_write`. -/
def dropUnusable (canUse : Mode → Bool) (a : ℕ) : StoreRoutine Unit := do
  let el ← oidEl a
  if el.fd ≠ 0 ∧ canUse el.mode = false then removeFromOpenFiles env a
  else return ()

/-- The steps of `sysio_obj_read` and `sysio_obj_write` that follow
`open_oid`: the file is opened again if its mode does not do, or if it has
been closed since. -/
def reopen (canUse : Mode → Bool) (oid : Oid) (a : ℕ) : StoreRoutine Bool := do
  dropUnusable env canUse a
  let el ← oidEl a
  if el.fd = 0 then openElement env a (fileName shortPath root oid)
  else return true

/-! ### The object interface -/

/-- `sysio_obj_exists`. -/
def sysioObjExists (oid : Oid) : StoreRoutine Bool := do
  return (← findOid oid).isSome

/-- `sysio_obj_create`. -/
def sysioObjCreate (oid : Oid) : StoreRoutine Unit := do
  let path := fileName shortPath root oid
  let found ← sys env (fun o fs => fs.sysAccess o path)
  if found then throw (.code .errExist)
  else
    let fd ← sys env (fun o fs => fs.sysCreat env.toFdRule o path)
    if fd = -1 then throw (.code .errStorage)
    else
      let closed ← sys env (fun o fs => fs.sysClose o fd)
      if closed = false then throw (.code .errStorage)
      else
        let a ← addOid oid
        addToOpenFiles env a

/-- `sysio_obj_read`: the count it returns, and the buffer after it. Where
`lseek` fails, the count is the value of `LWFS_ERR`. -/
def sysioObjRead (oid : Oid) (srcOffset : ℕ) (dest : List UInt8) :
    StoreRoutine (ℕ × List UInt8) := do
  match ← openOid env root oid with
  | none => return (0, dest)
  | some a =>
      let opened ← reopen env root canReadFile oid a
      if opened = false then return (0, dest)
      else
        let el ← oidEl a
        let sought ← sys env (fun o fs => fs.sysLseek o el.fd srcOffset)
        if sought = false then return (1, dest)
        else if dest = [] then return (0, dest)
        else
          let data ← sys env (fun o fs => fs.sysRead o el.fd dest.length)
          match data with
          | none => return (0, dest)
          | some data => return (data.length, Image.write 0 dest 0 data)

/-- `sysio_obj_write`: the count it returns, as an integer, and whether it has
freed the buffer. The message that the object was not found follows a null
pointer. -/
def sysioObjWrite (oid : Oid) (destOffset : ℕ) (src : List UInt8) :
    StoreRoutine (ℤ × Bool) := do
  match ← openOid env root oid with
  | none => throw .badPointer
  | some a =>
      let opened ← reopen env root canWriteFile oid a
      -- returns before the buffer is freed
      if opened = false then return (0, false)
      else
        let el ← oidEl a
        let sought ← sys env (fun o fs => fs.sysLseek o el.fd destOffset)
        if sought = false ∨ src = [] then return (0, true)
        else
          let count ← sys env (fun o fs => fs.sysWrite o el.fd src)
          match count with
          | none => return (-1, true)
          | some count => return (count, true)

/-- `sysio_obj_fsync`. -/
def sysioObjFsync (oid : Oid) : StoreRoutine Unit := do
  match ← openOid env root oid with
  | none => throw (.code .errStorage)
  | some a =>
      let el ← oidEl a
      let synced ← sys env (fun o fs => fs.sysFsync o el.fd)
      if synced then return () else throw (.code .errStorage)

/-- `sysio_obj_stat`. Where the object cannot be opened, the result is not
set, and the return code is `LWFS_OK`. -/
def sysioObjStat (oid : Oid) : StoreRoutine StatData := do
  match ← openOid env root oid with
  | none => return StatData.zero
  | some a =>
      let el ← oidEl a
      match ← sys env (fun o fs => fs.sysFstat o el.fd) with
      | none => throw (.code .err)
      | some size =>
          return ⟨⟨env.atime, 0⟩, ⟨env.mtime, 0⟩, ⟨env.ctime, 0⟩,
            UInt64.ofNat size⟩

/-- `sysio_obj_trunc`, which returns one if the file was truncated, and zero
if it was not. -/
def sysioObjTrunc (oid : Oid) (size : ℕ) : StoreRoutine ℕ := do
  match ← openOid env root oid with
  | none => return 0
  | some a =>
      let el ← oidEl a
      let truncated ← sys env (fun o fs => fs.sysFtruncate o el.fd size)
      return if truncated then 1 else 0

/-! ### Attributes of objects -/

/-- The entry that `strcpy` and `memcpy` put together. Where the name fills its
array, the zero behind it is written to the value before the value is. -/
def attrEntry (oid : Oid) (name : Name) (value : List UInt8) :
    StoreRoutine AttrEntry :=
  if nameLen < name.length ∨ attrSize < value.length then throw .overrun
  else return {
    oid
    nameField := name
    value
    rest := if value = [] then [0]
      else (List.range (attrSize - value.length)).map env.malloc }

/-- `sysio_obj_listattrs`. A count that cannot be read is taken for zero. -/
def sysioObjListattrs (oid : Oid) : StoreRoutine (List Name) := do
  let count ← (db2Size env oid).mapOutcome fun r =>
    match r with
    | .ok count => .ok count
    | .error (.code _) => .ok 0
    | .error e => .error e
  db2Get env oid count

/-- `sysio_obj_getattr`. -/
def sysioObjGetattr (oid : Oid) (name : Name) : StoreRoutine Attr := do
  let attr ← ssDbGetAttrByName env oid name
  return ⟨attr.name, attr.value⟩

/-- `sysio_obj_getattrs`. -/
def sysioObjGetattrs (oid : Oid) (names : List Name) :
    StoreRoutine (List Attr) :=
  names.mapM (sysioObjGetattr env oid)

/-- `sysio_obj_setattr`. -/
def sysioObjSetattr (oid : Oid) (name : Name) (value : List UInt8) :
    StoreRoutine Unit := do
  let attr ← attrEntry env oid name value
  ssDbAttrPut env attr

/-- `sysio_obj_setattrs`. -/
def sysioObjSetattrs (oid : Oid) (attrs : List Attr) : StoreRoutine Unit :=
  attrs.forM fun attr => sysioObjSetattr env oid attr.name attr.value

/-- `sysio_obj_rmattr`. -/
def sysioObjRmattr (oid : Oid) (name : Name) : StoreRoutine Unit := do
  let _ ← ssDbAttrDel env oid name
  return ()

/-- `sysio_obj_rmattrs`. -/
def sysioObjRmattrs (oid : Oid) (names : List Name) : StoreRoutine Unit :=
  names.forM fun name => sysioObjRmattr env oid name

/-! ### Removing an object -/

/-- Takes an element off the list before it is freed, if its file is open. -/
def dropOpen (a : ℕ) : StoreRoutine Unit := do
  let el ← oidEl a
  if el.fd ≠ 0 then removeFromOpenFiles env a else return ()

/-- `remove_oid`: whether the object was in the hash table. -/
def removeOid (oid : Oid) : StoreRoutine Bool := do
  match ← findOid oid with
  | none => return false
  | some a =>
      modify fun s => { s with oidHash := s.oidHash.eraseP fun e => e.1 = oid }
      dropOpen env a
      modify fun s => { s with heap := s.heap.erase a }
      return true

/-- `remove_obj_by_oid`. An object that is not in the hash table gives the
return code zero, which is `LWFS_OK`. -/
def removeObjByOid (oid : Oid) : StoreRoutine Unit := do
  let removed ← removeOid env oid
  if removed = false then return ()
  else
    let gone ← sys env (fun o fs => fs.sysRemove o (fileName shortPath root oid))
    if gone then return () else throw (.code .errStorage)

/-- The attributes that `sysio_obj_remove` removes: that there are none is no
error. -/
def rmAllAttrs (oid : Oid) : StoreRoutine Unit := do
  let names ← (sysioObjListattrs env oid).mapOutcome fun r =>
    match r with
    | .error (.code .errNoent) => .ok []
    | r => r
  sysioObjRmattrs env oid names

/-- `sysio_obj_remove`. -/
def sysioObjRemove (oid : Oid) : StoreRoutine Unit := do
  removeObjByOid env root oid
  rmAllAttrs env oid

end Lwfs.Storage
