import Mathlib.Algebra.Group.Int.Defs
import Mathlib.Algebra.Group.Nat.Defs
import Mathlib.Tactic.Common
import Mathlib.Data.List.GetD

/-!
The data types the servers share: identifiers, container operations,
credentials, capabilities and object references, and the ways in which a
server routine can fail to return `LWFS_OK`.
-/

namespace Lwfs

/-- The return codes other than `LWFS_OK`. -/
inductive ReturnCode
  | err
  | errTimedout
  | errNotsupp
  | errNospace
  | errStorage
  | errNoObj
  | errNaming
  | errPerm
  | errNoent
  | errAccess
  | errExist
  | errNotdir
  | errNotfile
  | errNotns
  | errIsdir
  | errRpc
  | errEncode
  | errDecode
  | errSec
  | errGenkey
  | errVerifycred
  | errVerifycap
  | errLockExists
  | errNoLock
  | errTxn
  deriving DecidableEq, Repr

/-- The value of a return code as a C integer. `LWFS_OK` is zero. -/
def ReturnCode.toInt : ReturnCode → ℤ
  | .err => 1
  | .errTimedout => 2
  | .errNotsupp => 3
  | .errNospace => 4
  | .errStorage => 5
  | .errNoObj => 6
  | .errNaming => 7
  | .errPerm => 8
  | .errNoent => 9
  | .errAccess => 10
  | .errExist => 11
  | .errNotdir => 12
  | .errNotfile => 13
  | .errNotns => 14
  | .errIsdir => 15
  | .errRpc => 16
  | .errEncode => 17
  | .errDecode => 18
  | .errSec => 19
  | .errGenkey => 20
  | .errVerifycred => 21
  | .errVerifycap => 22
  | .errLockExists => 23
  | .errNoLock => 24
  | .errTxn => 25

/-- How a routine of a server ends when it does not end with `LWFS_OK`. -/
inductive Fault
  /-- It returns a code other than `LWFS_OK`. -/
  | code (rc : ReturnCode)
  /-- It calls `abort()`, which ends the server. -/
  | abort
  /-- It loops for ever. -/
  | hang
  /-- It writes beyond the end of a buffer. -/
  | overrun
  /-- It follows a pointer that is null, or that leads to freed memory. -/
  | badPointer
  deriving DecidableEq, Repr

/-- A byte array of fixed length. -/
structure Octets (n : ℕ) where
  bytes : List UInt8
  length_eq : bytes.length = n
  deriving DecidableEq

namespace Octets

variable {n : ℕ}

theorem ext {a b : Octets n} (h : a.bytes = b.bytes) : a = b := by
  cases a
  cases b
  simp only at h
  subst h
  rfl

/-- The array that `memset` fills with one byte. -/
def fill (n : ℕ) (b : UInt8) : Octets n :=
  ⟨List.replicate n b, List.length_replicate⟩

/-- The byte at position `i`. -/
def byte (a : Octets n) (i : ℕ) : UInt8 := a.bytes.getD i 0

theorem ext_byte {a b : Octets n} (h : ∀ i < n, a.byte i = b.byte i) :
    a = b := by
  apply ext
  apply List.ext_getElem (by rw [a.length_eq, b.length_eq])
  intro i ha hb
  have hi := h i (by rwa [a.length_eq] at ha)
  simpa only [byte, List.getD_eq_getElem _ _ ha,
    List.getD_eq_getElem _ _ hb] using hi

end Octets

/-- The length of `lwfs_uuid`. -/
def uuidSize : ℕ := 16

/-- `lwfs_uuid`. -/
abbrev Uuid := Octets uuidSize

/-- A user id. -/
abbrev Uid := Uuid

/-- An object id. -/
abbrev Oid := Uuid

/-- A container id. -/
abbrev Cid := UInt64

/-- `LWFS_CID_ANY`, the constant `-1` as a container id. -/
def cidAny : Cid := 0xffffffffffffffff

/-- An operation code, and a mask of container operations. -/
abbrev Opcode := UInt32

def containerCreate : Opcode := 1
def containerModacl : Opcode := 2
def containerRemove : Opcode := 4
def containerRead : Opcode := 8
def containerWrite : Opcode := 16
def containerExec : Opcode := 32

/-- The values that `testop` takes in the loops of `NUM_CONTAINER_OPS`
turns, each the one before shifted to the left. -/
def containerOps : List Opcode := [1, 2, 4, 8, 16, 32]

/-- `container_op & testop` as a C condition. -/
def requests (containerOp testop : Opcode) : Bool :=
  containerOp &&& testop != 0

/-- `lwfs_mac` as it stands in a credential. -/
abbrev CredMac := Octets 20

/-- A credential: the user it names and the MAC over the name. -/
structure Cred where
  uid : Uid
  mac : CredMac
  deriving DecidableEq

/-- The part of a capability that its MAC protects. -/
structure CapData where
  cid : Cid
  containerOp : Opcode
  cred : Cred
  deriving DecidableEq

/-- A capability. The MAC is symbolic, so its type is a parameter. -/
structure Cap (Mac : Type) where
  data : CapData
  mac : Mac
  deriving DecidableEq

/-- `lwfs_remote_pid`. -/
structure RemotePid where
  nid : UInt32
  pid : UInt32
  deriving DecidableEq

/-- `lwfs_rma`, the address of a buffer in the memory of a process. -/
structure Rma where
  matchId : RemotePid
  bufferId : UInt32
  offset : UInt64
  matchBits : UInt64
  len : UInt64
  deriving DecidableEq

/-- `lwfs_service`, without the threads that only its own host knows. -/
structure Service where
  reqAddr : Rma
  maxReqs : Int32
  deriving DecidableEq

/-- `lwfs_obj`, a reference to an object of a server. -/
structure Obj where
  svc : Service
  type : Int32
  cid : Cid
  oid : Oid
  lockId : UInt32
  deriving DecidableEq

/-- `lwfs_time`. -/
structure Time where
  seconds : UInt32
  nseconds : UInt32
  deriving DecidableEq

/-- `lwfs_stat_data`. -/
structure StatData where
  atime : Time
  mtime : Time
  ctime : Time
  size : UInt64
  deriving DecidableEq

/-- The objects that `memset` leaves behind. -/
def Oid.zero : Oid := Octets.fill uuidSize 0

def Service.zero : Service := ⟨⟨⟨0, 0⟩, 0, 0, 0, 0⟩, 0⟩

def Obj.zero : Obj := ⟨Service.zero, 0, 0, Oid.zero, 0⟩

def Time.zero : Time := ⟨0, 0⟩

def StatData.zero : StatData := ⟨Time.zero, Time.zero, Time.zero, 0⟩

end Lwfs
