import Lwfs.Storage.Files
import Lwfs.Lib.Routine
import Lwfs.Types

/-!
The state of the storage server, and its database of attributes.

The state holds the files of the host, the database, the elements that keep
track of the objects, the hash table that finds the element of an object, and
the list of the elements whose files are supposed to be open. The table and
the list hold pointers to elements.

The calls that the server makes of the host and of the database are numbered,
and the environment says of each how it ends.
-/

namespace Lwfs.Storage

open SysLib

/-- `LWFS_NAME_LEN`. -/
def nameLen : ℕ := 64

/-- `LWFS_ATTR_SIZE`. -/
def attrSize : ℕ := 8192

/-- The name of an attribute, without the zero behind it. -/
abbrev Name := List UInt8

/-- The part of a piece of memory that is read as a string. -/
def cString (mem : List UInt8) : List UInt8 := mem.takeWhile (· ≠ 0)

/-- `lwfs_attr`. -/
structure Attr where
  name : Name
  value : List UInt8
  deriving DecidableEq

/-- `ss_db_attr_entry`. The field `rest` is the memory behind the value, which
nothing has written. -/
structure AttrEntry where
  oid : Oid
  nameField : List UInt8
  value : List UInt8
  rest : List UInt8
  deriving DecidableEq

/-- The field `name` as a string. A name that fills its array has no zero
behind it there, so the string goes on with the value. -/
def AttrEntry.name (e : AttrEntry) : Name :=
  if e.nameField.length < nameLen then e.nameField
  else cString (e.nameField ++ e.value ++ e.rest)

/-- `db1_key`. -/
structure Db1Key where
  oid : Oid
  name : Name
  deriving DecidableEq

def db1Keygen (oid : Oid) (name : Name) : Db1Key := ⟨oid, name.take nameLen⟩

/-- The field `mode` of an element, an array of three characters. -/
structure Mode where
  c0 : Char
  c1 : Char
  c2 : Char
  deriving DecidableEq

/-- The mode that `memset` leaves, and the string `"r+"`. -/
def Mode.zero : Mode := ⟨'\x00', '\x00', '\x00'⟩

def Mode.rPlus : Mode := ⟨'r', '+', '\x00'⟩

/-- `oid_el`. A descriptor of zero stands for a file that is not open. -/
structure OidEl where
  fd : ℤ
  id : Oid
  mode : Mode
  deriving DecidableEq

/-- The state of the storage server. Elements that have been freed are no
longer in the heap. The hash table finds the element put last. -/
structure Store where
  files : Files
  attrs : Table Db1Key AttrEntry
  heap : Table ℕ OidEl
  nextEl : ℕ
  oidHash : List (Oid × ℕ)
  openFilesList : List ℕ
  calls : ℕ

/-- The state before any object has been created. -/
def Store.empty : Store := ⟨Files.empty, ∅, ∅, 0, [], [], 0⟩

abbrev StoreRoutine := Routine Fault Store

/-- What the environment hands to the server during one request. -/
structure Env (Mac : Type) extends FdRule where
  /-- `lwfs_verify_caps_sync`; no code is `LWFS_OK`. -/
  verifyCaps : Cap Mac → Option ReturnCode
  /-- `lwfs_get_data` and `lwfs_put_data`. -/
  getData : Option ReturnCode
  putData : Option ReturnCode
  /-- How the calls of the host and of the database end, by their number. -/
  outcome : ℕ → Outcome
  /-- The times that `fstat` reports. -/
  atime : UInt32
  mtime : UInt32
  ctime : UInt32
  /-- What memory holds that was allocated and not written. -/
  malloc : ℕ → UInt8
  /-- What memory holds behind the row into which a name is copied. -/
  rowBehind : Name → List UInt8

/-- An environment where no call fails. -/
def Env.quiet {Mac : Type} (verifyCaps : Cap Mac → Option ReturnCode) :
    Env Mac where
  toFdRule := FdRule.above
  verifyCaps := verifyCaps
  getData := none
  putData := none
  outcome := fun _ => .ok
  atime := 0
  mtime := 0
  ctime := 0
  malloc := fun _ => 0
  rowBehind := fun _ => []

variable {Mac : Type} (env : Env Mac)

/-- One call of the host. -/
def sys {α : Type} (call : Outcome → Files → α × Files) : StoreRoutine α :=
  fun s =>
    let r := call (env.outcome s.calls) s.files
    .ok r.1 { s with files := r.2, calls := s.calls + 1 }

/-! ### The database of attributes -/

/-- The outcome of a call of the database. -/
def dbCall : StoreRoutine Unit := fun s =>
  let t := { s with calls := s.calls + 1 }
  if env.outcome s.calls = .fail then .error (.code .errStorage) t
  else .ok () t

def db1Get (key : Db1Key) : StoreRoutine AttrEntry := do
  dbCall env
  let s ← get
  match s.attrs.lookup key with
  | none => throw (.code .errNoent)
  | some attr => return attr

def db1Put (key : Db1Key) (attr : AttrEntry) : StoreRoutine Unit := do
  dbCall env
  modify fun s => { s with attrs := s.attrs.insert key attr }

/-- A row of `LWFS_NAME_LEN` characters as a string, after `strncpy` has copied
the name of an entry. A name that fills its row has no zero behind it there. -/
def AttrEntry.row (e : AttrEntry) (behind : Name → List UInt8) : Name :=
  let copied := e.name.take nameLen
  if copied.length < nameLen then copied else copied ++ cString (behind copied)

/-- `db2_get`. The first name is written without a look at `maxlen`. -/
def db2Get (oid : Oid) (maxlen : ℕ) : StoreRoutine (List Name) := do
  dbCall env
  let s ← get
  match Table.filter AttrEntry.oid s.attrs oid with
  | [] => throw (.code .errNoent)
  | attrs =>
      if maxlen = 0 then throw .overrun
      else return (attrs.take maxlen).map fun attr => attr.row env.rowBehind

def db2Size (oid : Oid) : StoreRoutine ℕ := do
  dbCall env
  let s ← get
  return Table.count AttrEntry.oid s.attrs oid

def dbDel (attr : AttrEntry) : StoreRoutine Unit := do
  dbCall env
  let s ← get
  let key := db1Keygen attr.oid attr.name
  if key ∈ s.attrs then set { s with attrs := s.attrs.erase key }
  else throw (.code .errStorage)

/-- `ss_db_get_attr_by_name`. -/
def ssDbGetAttrByName (oid : Oid) (name : Name) : StoreRoutine AttrEntry :=
  db1Get env (db1Keygen oid name)

/-- `ss_db_attr_put`. -/
def ssDbAttrPut (attr : AttrEntry) : StoreRoutine Unit :=
  db1Put env (db1Keygen attr.oid attr.name) attr

/-- `ss_db_attr_del`. -/
def ssDbAttrDel (oid : Oid) (name : Name) : StoreRoutine AttrEntry := do
  let attr ← ssDbGetAttrByName env oid name
  dbDel env attr
  return attr

end Lwfs.Storage
