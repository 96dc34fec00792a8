import Lwfs.Types
import Lwfs.Lib.Index
import Lwfs.Lib.Routine

/-!
The database of the naming server.

Directory entries stand in a primary table under the id of their parent and
their name. Two secondary tables, which Berkeley DB derives from it, find an
entry by its own id and the entries by their parent. Inodes stand in a table
of their own under their ids. Several entries can name one inode, and the
inode counts them in `ref_cnt`, a 32-bit integer.

An entry and its inode are put and deleted by separate calls, and nothing is
taken back when the second call fails.
-/

namespace Lwfs.Naming

open SysLib

/-- `LWFS_NAME_LEN`. -/
def nameLen : ℕ := 64

/-- A name, without the zeros behind it. -/
abbrev Name := List Char

/-- The name as `strncpy` leaves it in an array of `LWFS_NAME_LEN`. -/
def clip (name : Name) : Name := name.take nameLen

/-! The object types of the namespace. -/

def fileEntry : Int32 := 1
def dirEntry : Int32 := 2
def linkEntry : Int32 := 3
def nsObj : Int32 := 6

/-- `naming_db_inode`. -/
structure Inode where
  entryObj : Obj
  refCnt : Int32
  statData : StatData
  fileObjValid : Bool
  fileObj : Obj
  deriving DecidableEq

/-- `naming_db_dirent`. -/
structure Dirent where
  oid : Oid
  /-- The id of the inode that the entry names. -/
  inodeOid : Oid
  hide : Bool
  name : Name
  parentOid : Oid
  /-- The id of the entry that a link was made to, zero otherwise. -/
  link : Oid
  deleted : Bool
  deriving DecidableEq

/-- `naming_db_entry`. -/
structure DbEntry where
  dirent : Dirent
  inode : Inode
  deriving DecidableEq

/-- The key of the primary table. -/
structure Db1Key where
  parentOid : Oid
  name : Name
  deriving DecidableEq

def db1Keygen (parentOid : Oid) (name : Name) : Db1Key := ⟨parentOid, clip name⟩

/-- The key an entry is put under. -/
def Dirent.key (d : Dirent) : Db1Key := db1Keygen d.parentOid d.name

structure NamingDb where
  dirents : Table Db1Key Dirent
  inodes : Table Oid Inode

def NamingDb.empty : NamingDb := ⟨∅, ∅⟩

abbrev DbRoutine := Routine Fault NamingDb

/-! ### Lookups -/

def db1Get (key : Db1Key) (db : NamingDb) : Except Fault Dirent :=
  match db.dirents.lookup key with
  | none => .error (.code .errNoent)
  | some dirent => .ok dirent

def db2Get (oid : Oid) (db : NamingDb) : Except Fault Dirent :=
  match db.dirents.find Dirent.oid oid with
  | none => .error (.code .errNaming)
  | some (_, dirent) => .ok dirent

def inodeGet (inodeOid : Oid) (db : NamingDb) : Except Fault Inode :=
  match db.inodes.lookup inodeOid with
  | none => .error (.code .errNoent)
  | some inode => .ok inode

/-- `inode_get_by_dirent` and `create_entry`. -/
def entryOf (dirent : Dirent) (db : NamingDb) : Except Fault DbEntry := do
  let inode ← inodeGet dirent.inodeOid db
  pure ⟨dirent, inode⟩

def namingDbGetByName (parentOid : Oid) (name : Name) (db : NamingDb) :
    Except Fault DbEntry := do
  let dirent ← db1Get (db1Keygen parentOid name) db
  entryOf dirent db

def namingDbGetByOid (oid : Oid) (db : NamingDb) : Except Fault DbEntry := do
  let dirent ← db2Get oid db
  entryOf dirent db

def namingDbGetSize (parentOid : Oid) (db : NamingDb) : ℕ :=
  db.dirents.count Dirent.parentOid parentOid

/-- `db3_get`. The result has room for `maxlen` entries, and the loop compares
its index with `maxlen` only from the second entry on, after it has written
that. -/
def db3Get (parentOid : Oid) (maxlen : ℕ) (db : NamingDb) :
    Except Fault (List Dirent) :=
  let dirents := db.dirents.filter Dirent.parentOid parentOid
  if dirents = [] then .error (.code .errNaming)
  else if maxlen < dirents.length ∧ maxlen < 2 then .error .overrun
  else .ok (dirents.take maxlen)

/-- `naming_db_get_all_by_parent`. It makes `maxlen` entries whatever number
`db3_get` has fetched, the rest from the memory `malloc` returned. -/
def namingDbGetAllByParent (parentOid : Oid) (maxlen : ℕ)
    (malloc : ℕ → Dirent) (db : NamingDb) : Except Fault (List DbEntry) := do
  let dirents ← db3Get parentOid maxlen db
  (List.range maxlen).mapM fun i => entryOf (dirents.getD i (malloc i)) db

/-! ### Updates -/

def db1Put (key : Db1Key) (dirent : Dirent) (noOverwrite : Bool) :
    DbRoutine Unit := do
  let db ← get
  if noOverwrite ∧ key ∈ db.dirents then throw (.code .errExist)
  else set { db with dirents := db.dirents.insert key dirent }

def inodePut (inodeOid : Oid) (inode : Inode) (noOverwrite : Bool) :
    DbRoutine Unit := do
  let db ← get
  if noOverwrite ∧ inodeOid ∈ db.inodes then throw (.code .errExist)
  else set { db with inodes := db.inodes.insert inodeOid inode }

def inodeDel (inode : Inode) : DbRoutine Unit := do
  let db ← get
  if inode.entryObj.oid ∈ db.inodes then
    set { db with inodes := db.inodes.erase inode.entryObj.oid }
  else throw (.code .errNaming)

def inodeIncrementRefcnt (inodeOid : Oid) : DbRoutine Unit := do
  let db ← get
  match db.inodes.lookup inodeOid with
  | none => throw (.code .errNaming)
  | some inode =>
      inodePut inodeOid { inode with refCnt := inode.refCnt + 1 } false

/-- The primary entry that a secondary key leads to is deleted. -/
def db2Del (oid : Oid) : DbRoutine Unit := do
  let db ← get
  match db.dirents.find Dirent.oid oid with
  | none => throw (.code .errNaming)
  | some (key, _) => set { db with dirents := db.dirents.erase key }

/-- The second half of `db_del`: the inode of an entry that is gone. -/
def inodeRelease (inode : Inode) : DbRoutine Unit :=
  if inode.refCnt = 0 then
    -- the return codes of both calls are not looked at
    (inodeDel inode).ignore
  else if 0 < inode.refCnt then
    (inodePut inode.entryObj.oid inode false).ignore
  else throw .abort

/-- `db_del`, which leaves the decremented count in its argument. -/
def dbDel (entry : DbEntry) : DbRoutine DbEntry := do
  db2Del entry.dirent.oid
  let inode := { entry.inode with refCnt := entry.inode.refCnt - 1 }
  inodeRelease inode
  pure { entry with inode := inode }

/-- The second half of `naming_db_put`: the inode of a new entry. -/
def inodeAttach (entry : DbEntry) (noOverwrite : Bool) : DbRoutine Unit :=
  if entry.dirent.link ≠ Oid.zero then
    inodeIncrementRefcnt entry.inode.entryObj.oid
  else inodePut entry.inode.entryObj.oid entry.inode noOverwrite

def namingDbPut (entry : DbEntry) (noOverwrite : Bool) : DbRoutine Unit := do
  db1Put entry.dirent.key entry.dirent noOverwrite
  inodeAttach entry noOverwrite

def namingDbDel (parentOid : Oid) (name : Name) : DbRoutine DbEntry := do
  let entry ← Routine.reader (namingDbGetByName parentOid name)
  dbDel entry

/-! ### The initial records -/

/-- The ids that `naming_db_init` generates. -/
structure InitOids where
  rootInode : Oid
  root : Oid
  orphanInode : Oid
  orphan : Oid
  deriving DecidableEq

/-- `GLOBAL_DB_KEY`. -/
def globalDbKey : Name :=
  ['T', 'h', 'e', ' ', 'l', 'a', 't', 'e', 's', 't', ' ', 'g', 'e', 'n', 'e',
   'r', 'a', 't', 'e', 'd', ' ', 'I', 'D']

def rootName : Name := ['/']

def orphanName : Name := ['o', 'r', 'p', 'h', 'a', 'n', 's']

/-- The entry that is named after the latest generated id. -/
def idEntry : DbEntry where
  dirent := ⟨Oid.zero, Oid.zero, true, globalDbKey, Oid.zero, Oid.zero, false⟩
  inode := ⟨Obj.zero, 0, StatData.zero, false, Obj.zero⟩

/-- A directory that the initialisation makes. No count is set in its inode,
so it is zero. -/
def initialDir (name : Name) (inodeOid oid : Oid) : DbEntry where
  dirent := ⟨oid, inodeOid, false, name, Oid.zero, Oid.zero, false⟩
  inode :=
    ⟨{ Obj.zero with type := dirEntry, cid := cidAny, oid := inodeOid }, 0,
      StatData.zero, false, Obj.zero⟩

def rootEntry (oids : InitOids) : DbEntry :=
  initialDir rootName oids.rootInode oids.root

def orphanEntry (oids : InitOids) : DbEntry :=
  initialDir orphanName oids.orphanInode oids.orphan

/-- The lookups of `naming_db_init` that check what it has put. -/
def sanityCheck (entry : DbEntry) : DbRoutine Unit := do
  let _ ← Routine.reader
    (namingDbGetByName entry.dirent.parentOid entry.dirent.name)
  let _ ← Routine.reader (namingDbGetByOid entry.dirent.oid)
  pure ()

/-- `naming_db_init` on a cleared file. -/
def namingDbInit (oids : InitOids) : DbRoutine Unit := do
  namingDbPut idEntry true
  sanityCheck idEntry
  namingDbPut (rootEntry oids) true
  sanityCheck (rootEntry oids)
  namingDbPut (orphanEntry oids) true

end Lwfs.Naming
