import Lwfs.Rpc.Types

/-!
The remote operations: the XDR procedures that the clients register for an
opcode, and the operations that each server offers.

A client and a server write their tables apart from each other. For every
operation of a server the client's procedure for the arguments is the server's
own, and so is the one for the result unless the server sends none. One
operation has no procedure for the arguments in the server's table, and the
server calls it all the same.
-/

namespace Lwfs.Rpc

/-- The XDR procedures that the tables name. -/
inductive XdrProc
  | void
  | traceResetArgs
  | createContainerArgs
  | removeContainerArgs
  | createAclArgs
  | getAclArgs
  | modAclArgs
  | getCapArgs
  | verifyCapsArgs
  | createDirArgs
  | removeDirArgs
  | createFileArgs
  | createLinkArgs
  | unlinkArgs
  | lookupArgs
  | listDirArgs
  | nameStatArgs
  | createNamespaceArgs
  | removeNamespaceArgs
  | getNamespaceArgs
  | ssCreateObjArgs
  | ssRemoveObjArgs
  | ssReadArgs
  | ssWriteArgs
  | ssFsyncArgs
  | ssStatArgs
  | ssListattrsArgs
  | ssGetattrsArgs
  | ssSetattrsArgs
  | ssRmattrsArgs
  | ssGetattrArgs
  | ssSetattrArgs
  | ssRmattrArgs
  | ssTruncateArgs
  | lwfsService
  | lwfsCap
  | lwfsUidArray
  | lwfsNsEntry
  | lwfsNsEntryArray
  | lwfsStatData
  | lwfsNamespace
  | lwfsNamespaceArray
  | lwfsObj
  | lwfsSize
  | lwfsNameArray
  | lwfsAttrArray
  | lwfsAttr
  deriving DecidableEq

/-! ### The opcodes -/

def opNull : Opcode := 0

def opGetService : Opcode := 1
def opKillService : Opcode := 2
def opTraceReset : Opcode := 3

def opCreateContainer : Opcode := 101
def opRemoveContainer : Opcode := 102
def opCreateAcl : Opcode := 103
def opGetAcl : Opcode := 104
def opModAcl : Opcode := 105
def opGetCap : Opcode := 106
def opVerifyCaps : Opcode := 107

def opCreateDir : Opcode := 201
def opRemoveDir : Opcode := 202
def opCreateFile : Opcode := 203
def opCreateLink : Opcode := 204
def opUnlink : Opcode := 205
def opLookup : Opcode := 207
def opListDir : Opcode := 208
def opNameStat : Opcode := 209
def opCreateNamespace : Opcode := 210
def opRemoveNamespace : Opcode := 211
def opGetNamespace : Opcode := 212
def opListNamespaces : Opcode := 213

def opCreate : Opcode := 301
def opRemove : Opcode := 302
def opRead : Opcode := 303
def opWrite : Opcode := 304
def opTruncate : Opcode := 305
def opFsync : Opcode := 306
def opStat : Opcode := 307
def opListattrs : Opcode := 308
def opGetattrs : Opcode := 309
def opSetattrs : Opcode := 310
def opRmattrs : Opcode := 311
def opGetattr : Opcode := 312
def opSetattr : Opcode := 313
def opRmattr : Opcode := 314

/-! ### The tables of the clients -/

/-- `xdr_encodings`. No operation registers a procedure for its data. -/
structure XdrEncodings where
  opcode : Opcode
  /-- `none` is `NULL`: the operation is called without arguments. -/
  encodeArgs : Option XdrProc
  encodeResult : XdrProc
  deriving DecidableEq

/-- `register_service_encodings`. -/
def serviceEncodings : List XdrEncodings :=
  [⟨opGetService, none, .lwfsService⟩,
   ⟨opKillService, none, .void⟩,
   ⟨opTraceReset, some .traceResetArgs, .void⟩]

/-- `register_authr_encodings`. -/
def authrEncodings : List XdrEncodings :=
  [⟨opCreateContainer, some .createContainerArgs, .lwfsCap⟩,
   ⟨opRemoveContainer, some .removeContainerArgs, .void⟩,
   ⟨opCreateAcl, some .createAclArgs, .void⟩,
   ⟨opGetAcl, some .getAclArgs, .lwfsUidArray⟩,
   ⟨opModAcl, some .modAclArgs, .lwfsUidArray⟩,
   ⟨opGetCap, some .getCapArgs, .lwfsCap⟩,
   ⟨opVerifyCaps, some .verifyCapsArgs, .void⟩]

/-- `register_naming_encodings`. -/
def namingEncodings : List XdrEncodings :=
  [⟨opCreateDir, some .createDirArgs, .lwfsNsEntry⟩,
   ⟨opRemoveDir, some .removeDirArgs, .lwfsNsEntry⟩,
   ⟨opCreateFile, some .createFileArgs, .lwfsNsEntry⟩,
   ⟨opCreateLink, some .createLinkArgs, .lwfsNsEntry⟩,
   ⟨opUnlink, some .unlinkArgs, .lwfsNsEntry⟩,
   ⟨opLookup, some .lookupArgs, .lwfsNsEntry⟩,
   ⟨opListDir, some .listDirArgs, .lwfsNsEntryArray⟩,
   ⟨opNameStat, some .nameStatArgs, .lwfsStatData⟩,
   ⟨opCreateNamespace, some .createNamespaceArgs, .lwfsNamespace⟩,
   ⟨opRemoveNamespace, some .removeNamespaceArgs, .lwfsNamespace⟩,
   ⟨opGetNamespace, some .getNamespaceArgs, .lwfsNamespace⟩,
   ⟨opListNamespaces, none, .lwfsNamespaceArray⟩]

/-- `register_ss_encodings`. -/
def ssEncodings : List XdrEncodings :=
  [⟨opCreate, some .ssCreateObjArgs, .lwfsObj⟩,
   ⟨opRemove, some .ssRemoveObjArgs, .void⟩,
   ⟨opRead, some .ssReadArgs, .lwfsSize⟩,
   ⟨opWrite, some .ssWriteArgs, .void⟩,
   ⟨opFsync, some .ssFsyncArgs, .void⟩,
   ⟨opStat, some .ssStatArgs, .lwfsStatData⟩,
   ⟨opListattrs, some .ssListattrsArgs, .lwfsNameArray⟩,
   ⟨opGetattrs, some .ssGetattrsArgs, .lwfsAttrArray⟩,
   ⟨opSetattrs, some .ssSetattrsArgs, .void⟩,
   ⟨opRmattrs, some .ssRmattrsArgs, .void⟩,
   ⟨opGetattr, some .ssGetattrArgs, .lwfsAttr⟩,
   ⟨opSetattr, some .ssSetattrArgs, .void⟩,
   ⟨opRmattr, some .ssRmattrArgs, .void⟩,
   ⟨opTruncate, some .ssTruncateArgs, .lwfsStatData⟩]

/-- `lwfs_lookup_xdr_encoding`. -/
def lookupXdrEncoding (opcode : Opcode) : Except Fault XdrEncodings :=
  match (serviceEncodings ++ authrEncodings ++ namingEncodings ++
      ssEncodings).find? fun e => e.opcode = opcode with
  | none => .error (.code .errNoent)
  | some e => .ok e

/-! ### The tables of the servers -/

/-- `lwfs_svc_op`, without its function, which only `nullOp` lacks. -/
structure SvcOp where
  opcode : Opcode
  /-- `none` is `NULL`. -/
  decodeArgs : Option XdrProc
  encodeRes : XdrProc
  deriving DecidableEq

/-- What each array ends with. All its pointers are null. -/
def nullOp : SvcOp := ⟨opNull, none, .void⟩

def svcOpArray : List SvcOp :=
  [⟨opGetService, some .void, .lwfsService⟩,
   ⟨opKillService, some .void, .void⟩,
   ⟨opTraceReset, some .traceResetArgs, .void⟩,
   nullOp]

def authrOpArray : List SvcOp :=
  [⟨opCreateContainer, some .createContainerArgs, .lwfsCap⟩,
   ⟨opRemoveContainer, some .removeContainerArgs, .void⟩,
   ⟨opGetAcl, some .getAclArgs, .lwfsUidArray⟩,
   ⟨opModAcl, some .modAclArgs, .void⟩,
   ⟨opGetCap, some .getCapArgs, .lwfsCap⟩,
   ⟨opVerifyCaps, some .verifyCapsArgs, .void⟩,
   nullOp]

/-- The operation whose arguments the naming server has no procedure for. -/
def listNamespacesOp : SvcOp := ⟨opListNamespaces, none, .lwfsNamespaceArray⟩

def namingOpArray : List SvcOp :=
  [⟨opCreateDir, some .createDirArgs, .lwfsNsEntry⟩,
   ⟨opRemoveDir, some .removeDirArgs, .lwfsNsEntry⟩,
   ⟨opCreateFile, some .createFileArgs, .lwfsNsEntry⟩,
   ⟨opCreateLink, some .createLinkArgs, .lwfsNsEntry⟩,
   ⟨opUnlink, some .unlinkArgs, .lwfsNsEntry⟩,
   ⟨opListDir, some .listDirArgs, .lwfsNsEntryArray⟩,
   ⟨opLookup, some .lookupArgs, .lwfsNsEntry⟩,
   ⟨opNameStat, some .nameStatArgs, .lwfsStatData⟩,
   ⟨opCreateNamespace, some .createNamespaceArgs, .lwfsNamespace⟩,
   ⟨opRemoveNamespace, some .removeNamespaceArgs, .lwfsNamespace⟩,
   ⟨opGetNamespace, some .getNamespaceArgs, .lwfsNamespace⟩,
   listNamespacesOp,
   nullOp]

def ssOpArray : List SvcOp :=
  [⟨opCreate, some .ssCreateObjArgs, .void⟩,
   ⟨opRemove, some .ssRemoveObjArgs, .void⟩,
   ⟨opRead, some .ssReadArgs, .lwfsSize⟩,
   ⟨opWrite, some .ssWriteArgs, .void⟩,
   ⟨opFsync, some .ssFsyncArgs, .void⟩,
   ⟨opListattrs, some .ssListattrsArgs, .lwfsNameArray⟩,
   ⟨opGetattrs, some .ssGetattrsArgs, .lwfsAttrArray⟩,
   ⟨opSetattrs, some .ssSetattrsArgs, .void⟩,
   ⟨opRmattrs, some .ssRmattrsArgs, .void⟩,
   ⟨opGetattr, some .ssGetattrArgs, .lwfsAttr⟩,
   ⟨opSetattr, some .ssSetattrArgs, .void⟩,
   ⟨opRmattr, some .ssRmattrArgs, .void⟩,
   ⟨opStat, some .ssStatArgs, .lwfsStatData⟩,
   ⟨opTruncate, some .ssTruncateArgs, .void⟩,
   nullOp]

/-- The three servers. -/
inductive Host
  | authr
  | naming
  | storage
  deriving DecidableEq

/-- What `lwfs_service_init` and the server's own `lwfs_service_add_ops` have
put together. Each says how many entries of its array it adds, and the
authorization and storage servers add the one at the end with the others. -/
def Host.supportedOps : Host → List SvcOp
  | .authr => svcOpArray.take 3 ++ authrOpArray.take 7
  | .naming => svcOpArray.take 3 ++ namingOpArray.take 12
  | .storage => svcOpArray.take 3 ++ ssOpArray.take 15

/-! ### The two sides agree -/

/-- The client's entry fits the server's: they name the same procedures, but
for `NULL` arguments that the server reads with `xdr_void`, and for a result
that the server does not send. -/
def XdrEncodings.Fits (e : XdrEncodings) (op : SvcOp) : Prop :=
  (op.decodeArgs = e.encodeArgs ∨
      e.encodeArgs = none ∧ op.decodeArgs = some .void) ∧
    (op.encodeRes = e.encodeResult ∨ op.encodeRes = .void)

instance (e : XdrEncodings) (op : SvcOp) : Decidable (e.Fits op) :=
  inferInstanceAs (Decidable (_ ∧ _))

/-- The clients have an entry for each operation but the null one. -/
theorem isOk_lookup_iff {host : Host} {op : SvcOp} (h : op ∈ host.supportedOps) :
    (lookupXdrEncoding op.opcode).isOk ↔ op ≠ nullOp := by
  have hall : ∀ host : Host, ∀ op ∈ host.supportedOps,
      (lookupXdrEncoding op.opcode).isOk ↔ op ≠ nullOp := by
    intro host
    cases host <;> decide
  exact hall host op h

/-- The entry of the clients for an operation of a server fits. -/
theorem fits_of_lookup {host : Host} {op : SvcOp} (h : op ∈ host.supportedOps)
    {e : XdrEncodings} (he : lookupXdrEncoding op.opcode = .ok e) : e.Fits op := by
  have hall : ∀ host : Host, ∀ op ∈ host.supportedOps,
      ∀ e ∈ (lookupXdrEncoding op.opcode).toOption, e.Fits op := by
    intro host
    cases host <;> decide
  apply hall host op h
  rw [he]
  rfl

/-- The linear search of the server finds the operation itself. -/
theorem find_supportedOps {host : Host} {op : SvcOp}
    (h : op ∈ host.supportedOps) :
    host.supportedOps.find? (fun op' => op'.opcode = op.opcode) = some op := by
  have hall : ∀ host : Host, ∀ op ∈ host.supportedOps,
      host.supportedOps.find? (fun op' => op'.opcode = op.opcode) = some op := by
    intro host
    cases host <;> decide
  exact hall host op h

/-- Two entries lack a procedure for their arguments on the server: the one
that lists the namespaces, and the null one. -/
theorem decodeArgs_eq_none_iff {host : Host} {op : SvcOp}
    (h : op ∈ host.supportedOps) :
    op.decodeArgs = none ↔ op = listNamespacesOp ∨ op = nullOp := by
  have hall : ∀ host : Host, ∀ op ∈ host.supportedOps,
      op.decodeArgs = none ↔ op = listNamespacesOp ∨ op = nullOp := by
    intro host
    cases host <;> decide
  exact hall host op h

theorem eq_listNamespacesOp_iff {host : Host} {op : SvcOp}
    (h : op ∈ host.supportedOps) :
    op = listNamespacesOp ↔ op.opcode = opListNamespaces := by
  have hall : ∀ host : Host, ∀ op ∈ host.supportedOps,
      op = listNamespacesOp ↔ op.opcode = opListNamespaces := by
    intro host
    cases host <;> decide
  exact hall host op h

end Lwfs.Rpc
