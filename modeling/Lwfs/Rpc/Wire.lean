import Lwfs.Lib.Xdr
import Lwfs.Rpc.Call

/-!
The types that travel, as the protocol descriptions declare them:
`xdr_types.x`, and the arguments of `service_args.x`, `authr_args.x`,
`naming_args.x` and `ss_args.x`. The procedures of the remote operations are
those that are generated for these types.
-/

namespace Lwfs.Wire

open SysLib

/-! ### `xdr_types.x` -/

/-- The bound of an array that names none. -/
def unbounded : UInt32 := 0xffffffff

/-- An enumeration stands as an `int`. -/
def enumeration : XdrType := .int

def size : XdrType := .uhyper
def ssize : XdrType := .uhyper
def thread : XdrType := .uhyper
def cid : XdrType := .uhyper
def matchBits : XdrType := .uhyper

def time : XdrType := .struct [.uint, .uint]

def uuid : XdrType := .octets uuidSize

def uid : XdrType := uuid

def oid : XdrType := uuid

def uidArray : XdrType := .array unbounded uid

/-- `LWFS_NAME_LEN`. -/
def nameLen : UInt32 := 64

def name : XdrType := .string nameLen

def nameArray : XdrType := .array unbounded name

def statData : XdrType := .struct [time, time, time, size]

def remotePid : XdrType := .struct [.uint, .uint]

def rma : XdrType :=
  .struct [remotePid, .uint, size, matchBits, size, .uhyper]

/-- `MAX_SVC_THREADS`. -/
def maxSvcThreads : ℕ := 1

def service : XdrType :=
  .struct [enumeration, rma, .int, thread, .vector maxSvcThreads thread]

def obj : XdrType := .struct [service, .int, cid, oid, .uint]

def txn : XdrType := .struct [obj]

/-- What `ss_obj` leads to is one object. -/
def distributedObj : XdrType := .struct [.int, .int, .pointer obj]

def charName : XdrType := .vector nameLen.toNat .char

def nsEntry : XdrType :=
  .struct [charName, oid, oid, oid, .int, obj, .pointer obj,
    .pointer distributedObj]

def nsEntryArray : XdrType := .array unbounded nsEntry

def nameSpace : XdrType := .struct [charName, nsEntry]

def namespaceArray : XdrType := .array unbounded nameSpace

def mac : XdrType := .octets 20

def credData : XdrType := .struct [uid]

def cred : XdrType := .struct [credData, mac]

def capData : XdrType := .struct [cid, enumeration, cred]

def cap : XdrType := .struct [capData, mac]

def capArray : XdrType := .array unbounded cap

/-- `LWFS_ATTR_SIZE`. -/
def attrSize : UInt32 := 8192

def attrData : XdrType := .bytes attrSize

def attr : XdrType := .struct [name, attrData]

def attrArray : XdrType := .array unbounded attr

/-! ### `service_args.x` -/

def traceResetArgs : XdrType := .struct [.int, .string 256, .int]

/-! ### `authr_args.x` -/

def createContainerArgs : XdrType := .struct [.pointer txn, cid, .pointer cap]

def removeContainerArgs : XdrType := .struct [.pointer txn, cid, .pointer cap]

def createAclArgs : XdrType :=
  .struct [.pointer txn, cid, enumeration, .pointer uidArray, .pointer cap]

def getAclArgs : XdrType := .struct [cid, enumeration, .pointer cap]

def modAclArgs : XdrType :=
  .struct [.pointer txn, cid, enumeration, .pointer uidArray, .pointer uidArray,
    .pointer cap]

def getCapArgs : XdrType := .struct [cid, enumeration, .pointer cred]

def verifyCapsArgs : XdrType := .struct [.pointer capArray]

/-! ### `naming_args.x` -/

def createNamespaceArgs : XdrType := .struct [.pointer txn, name, cid]

def removeNamespaceArgs : XdrType := .struct [.pointer txn, name, .pointer cap]

def getNamespaceArgs : XdrType := .struct [name]

def createDirArgs : XdrType :=
  .struct [.pointer txn, .pointer nsEntry, name, cid, .pointer cap]

def removeDirArgs : XdrType :=
  .struct [.pointer txn, .pointer nsEntry, name, .pointer cap]

def createFileArgs : XdrType :=
  .struct [.pointer txn, .pointer nsEntry, name, .pointer obj, .pointer cap]

def createLinkArgs : XdrType :=
  .struct [.pointer txn, .pointer nsEntry, name, .pointer cap, .pointer nsEntry,
    name, .pointer cap]

def unlinkArgs : XdrType :=
  .struct [.pointer txn, .pointer nsEntry, name, .pointer cap]

def listDirArgs : XdrType := .struct [.pointer nsEntry, .pointer cap]

def lookupArgs : XdrType :=
  .struct [.pointer txn, .pointer nsEntry, name, enumeration, .pointer cap]

def nameStatArgs : XdrType := .struct [.pointer txn, .pointer obj, .pointer cap]

/-! ### `ss_args.x` -/

/-- The arguments of the operations that need to know the object alone. -/
def ssObjArgs : XdrType := .struct [.pointer txn, .pointer obj, .pointer cap]

def ssCreateObjArgs : XdrType := ssObjArgs
def ssRemoveObjArgs : XdrType := ssObjArgs
def ssFsyncArgs : XdrType := ssObjArgs
def ssStatArgs : XdrType := ssObjArgs
def ssListattrsArgs : XdrType := ssObjArgs

/-- The arguments of a transfer: the offset and the number of bytes. -/
def ssTransferArgs : XdrType :=
  .struct [.pointer txn, .pointer obj, size, size, .pointer cap]

def ssReadArgs : XdrType := ssTransferArgs
def ssWriteArgs : XdrType := ssTransferArgs

def ssTruncateArgs : XdrType :=
  .struct [.pointer txn, .pointer obj, ssize, .pointer cap]

def ssNamesArgs : XdrType :=
  .struct [.pointer txn, .pointer obj, .pointer nameArray, .pointer cap]

def ssGetattrsArgs : XdrType := ssNamesArgs
def ssRmattrsArgs : XdrType := ssNamesArgs

def ssSetattrsArgs : XdrType :=
  .struct [.pointer txn, .pointer obj, .pointer attrArray, .pointer cap]

def ssNameArgs : XdrType :=
  .struct [.pointer txn, .pointer obj, name, .pointer cap]

def ssGetattrArgs : XdrType := ssNameArgs
def ssRmattrArgs : XdrType := ssNameArgs

def ssSetattrArgs : XdrType :=
  .struct [.pointer txn, .pointer obj, .pointer attr, .pointer cap]

end Lwfs.Wire

namespace Lwfs.Rpc

open SysLib

/-- The type that a procedure is generated for. -/
def XdrProc.type : XdrProc → XdrType
  | .void => .struct []
  | .traceResetArgs => Wire.traceResetArgs
  | .createContainerArgs => Wire.createContainerArgs
  | .removeContainerArgs => Wire.removeContainerArgs
  | .createAclArgs => Wire.createAclArgs
  | .getAclArgs => Wire.getAclArgs
  | .modAclArgs => Wire.modAclArgs
  | .getCapArgs => Wire.getCapArgs
  | .verifyCapsArgs => Wire.verifyCapsArgs
  | .createDirArgs => Wire.createDirArgs
  | .removeDirArgs => Wire.removeDirArgs
  | .createFileArgs => Wire.createFileArgs
  | .createLinkArgs => Wire.createLinkArgs
  | .unlinkArgs => Wire.unlinkArgs
  | .lookupArgs => Wire.lookupArgs
  | .listDirArgs => Wire.listDirArgs
  | .nameStatArgs => Wire.nameStatArgs
  | .createNamespaceArgs => Wire.createNamespaceArgs
  | .removeNamespaceArgs => Wire.removeNamespaceArgs
  | .getNamespaceArgs => Wire.getNamespaceArgs
  | .ssCreateObjArgs => Wire.ssCreateObjArgs
  | .ssRemoveObjArgs => Wire.ssRemoveObjArgs
  | .ssReadArgs => Wire.ssReadArgs
  | .ssWriteArgs => Wire.ssWriteArgs
  | .ssFsyncArgs => Wire.ssFsyncArgs
  | .ssStatArgs => Wire.ssStatArgs
  | .ssListattrsArgs => Wire.ssListattrsArgs
  | .ssGetattrsArgs => Wire.ssGetattrsArgs
  | .ssSetattrsArgs => Wire.ssSetattrsArgs
  | .ssRmattrsArgs => Wire.ssRmattrsArgs
  | .ssGetattrArgs => Wire.ssGetattrArgs
  | .ssSetattrArgs => Wire.ssSetattrArgs
  | .ssRmattrArgs => Wire.ssRmattrArgs
  | .ssTruncateArgs => Wire.ssTruncateArgs
  | .lwfsService => Wire.service
  | .lwfsCap => Wire.cap
  | .lwfsUidArray => Wire.uidArray
  | .lwfsNsEntry => Wire.nsEntry
  | .lwfsNsEntryArray => Wire.nsEntryArray
  | .lwfsStatData => Wire.statData
  | .lwfsNamespace => Wire.nameSpace
  | .lwfsNamespaceArray => Wire.namespaceArray
  | .lwfsObj => Wire.obj
  | .lwfsSize => Wire.size
  | .lwfsNameArray => Wire.nameArray
  | .lwfsAttrArray => Wire.attrArray
  | .lwfsAttr => Wire.attr

/-- The XDR procedures of the protocol. The null pointer of a string that
`memset` leaves stands as the empty string. -/
def lwfsXdr : Xdr where
  Val p := p.type.Val
  codec p := p.type.codec
  width p := p.type.sizeof
  zero p := p.type.zero
  size_void := rfl
  width_void := rfl

end Lwfs.Rpc
