import Lwfs.Rpc.Transparency
import Lwfs.Rpc.Wire

/-!
The blocks that `process_request` allocates for the arguments and the result
of an operation.

It takes their lengths from the header of the request. The client has reserved
512 bytes for a result, and no result of an operation takes more. The length
for the arguments is that of their encoding, where a null pointer takes half
of what it takes in memory and a short string less than a pointer to it. So the
block has room for the arguments only if enough stands behind their pointers.
-/

namespace Lwfs.Rpc

open SysLib

/-! ### The sizes in the tables of the servers -/

/-- `sizeof` of the type that a procedure is for, as the tables of the servers
have it. The compiler takes one byte for `void`. -/
def XdrProc.sizeof : XdrProc → ℕ
  | .void => 1
  | p => p.type.sizeof

/-- `sizeof_args`. -/
def SvcOp.sizeofArgs (op : SvcOp) : ℕ :=
  match op.decodeArgs with
  | none => 0
  | some p => p.sizeof

/-- `sizeof_res`. -/
def SvcOp.sizeofRes (op : SvcOp) : ℕ := op.encodeRes.sizeof

/-- The blocks of a request have room for the structures of its operation. -/
def RequestHeader.HasRoom (header : RequestHeader) (op : SvcOp) : Prop :=
  op.sizeofArgs ≤ header.argsAddr.len.toNat ∧
    op.sizeofRes ≤ header.resAddr.len.toNat

/-- The client's memory for a short result has room for every result. -/
theorem sizeofRes_le {host : Host} {op : SvcOp} (h : op ∈ host.supportedOps) :
    op.sizeofRes ≤ shortResultSize := by
  have hall : ∀ host : Host, ∀ op ∈ host.supportedOps,
      op.sizeofRes ≤ shortResultSize := by
    intro host
    cases host <;> decide
  exact hall host op h

/-! ### What has to stand behind the pointers -/

/-- The bytes of a string or of an array of bytes, up to a full word. -/
def words (n : ℕ) : ℕ := n + Codec.pad n

def nameWords (name : Wire.name.Val) : ℕ := words (CString.bytes name).length

/-- What an attribute takes in the stream. -/
def attrWords (a : Wire.attr.Val) : ℕ :=
  8 + nameWords a.1 + words a.2.1.1.length

/-- The arguments lead to as many bytes as their pointers lack: to some
structure, or to strings that are long enough. -/
def XdrProc.Roomy : (p : XdrProc) → p.type.Val → Prop
  | .traceResetArgs => fun (_, fname, _, _) => 9 ≤ (CString.bytes fname).length
  | .createContainerArgs | .removeContainerArgs =>
      fun (txnId, _, cap, _) => txnId ≠ none ∨ cap ≠ none
  | .getAclArgs => fun (_, _, cap, _) => cap ≠ none
  | .modAclArgs => fun (txnId, _, _, set, unset, cap, _) =>
      txnId ≠ none ∨ cap ≠ none ∨ (∃ uids, set = some uids ∧ uids.1 ≠ []) ∨
        ∃ uids, unset = some uids ∧ uids.1 ≠ []
  | .getCapArgs => fun (_, _, cred, _) => cred ≠ none
  | .verifyCapsArgs => fun (capArray, _) => capArray ≠ none
  | .createDirArgs => fun (txnId, parent, name, _, cap, _) =>
      txnId ≠ none ∨ parent ≠ none ∨ cap ≠ none ∨
        13 ≤ (CString.bytes name).length
  | .removeDirArgs | .unlinkArgs => fun (txnId, parent, name, cap, _) =>
      txnId ≠ none ∨ parent ≠ none ∨ cap ≠ none ∨
        13 ≤ (CString.bytes name).length
  | .createFileArgs => fun (txnId, parent, name, obj, cap, _) =>
      txnId ≠ none ∨ parent ≠ none ∨ obj ≠ none ∨ cap ≠ none ∨
        17 ≤ (CString.bytes name).length
  | .createLinkArgs =>
      fun (txnId, parent, name, cap, targetParent, targetName, targetCap, _) =>
        txnId ≠ none ∨ parent ≠ none ∨ cap ≠ none ∨ targetParent ≠ none ∨
          targetCap ≠ none ∨ 28 ≤ nameWords name + nameWords targetName
  | .lookupArgs => fun (txnId, parent, name, _, cap, _) =>
      txnId ≠ none ∨ parent ≠ none ∨ cap ≠ none ∨
        17 ≤ (CString.bytes name).length
  | .listDirArgs => fun (parent, cap, _) => parent ≠ none ∨ cap ≠ none
  | .nameStatArgs | .ssCreateObjArgs | .ssRemoveObjArgs | .ssFsyncArgs
  | .ssStatArgs | .ssListattrsArgs => fun (txnId, obj, cap, _) =>
      txnId ≠ none ∨ obj ≠ none ∨ cap ≠ none
  | .createNamespaceArgs => fun (txnId, name, _, _) =>
      txnId ≠ none ∨ 5 ≤ (CString.bytes name).length
  | .removeNamespaceArgs => fun (txnId, name, cap, _) =>
      txnId ≠ none ∨ cap ≠ none ∨ 9 ≤ (CString.bytes name).length
  | .getNamespaceArgs => fun (name, _) => 1 ≤ (CString.bytes name).length
  | .ssReadArgs | .ssWriteArgs => fun (txnId, obj, _, _, cap, _) =>
      txnId ≠ none ∨ obj ≠ none ∨ cap ≠ none
  | .ssTruncateArgs => fun (txnId, obj, _, cap, _) =>
      txnId ≠ none ∨ obj ≠ none ∨ cap ≠ none
  | .ssGetattrsArgs | .ssRmattrsArgs => fun (txnId, obj, names, cap, _) =>
      txnId ≠ none ∨ obj ≠ none ∨ cap ≠ none ∨
        ∃ ns, names = some ns ∧ 12 ≤ Codec.total (fun n => 4 + nameWords n) ns.1
  | .ssSetattrsArgs => fun (txnId, obj, attrs, cap, _) =>
      txnId ≠ none ∨ obj ≠ none ∨ cap ≠ none ∨
        ∃ as, attrs = some as ∧ 12 ≤ Codec.total attrWords as.1
  | .ssGetattrArgs | .ssRmattrArgs => fun (txnId, obj, name, cap, _) =>
      txnId ≠ none ∨ obj ≠ none ∨ cap ≠ none ∨
        13 ≤ (CString.bytes name).length
  | .ssSetattrArgs => fun (txnId, obj, attr, cap, _) =>
      txnId ≠ none ∨ obj ≠ none ∨ cap ≠ none ∨
        ∃ a, attr = some a ∧ 16 ≤ attrWords a
  | _ => fun _ => False

/-! ### One kind of arguments after the other -/

/-- The bytes that a pointer leads to. -/
def behind {type : XdrType} (o : type.pointer.Val) : ℕ :=
  Option.elim o 0 type.size

section Pointers

variable {type : XdrType}

/-- No arguments lack more than 28 bytes, and a structure takes more. -/
theorem behind_spec (h : 28 ≤ type.minSize) (o : type.pointer.Val) :
    (o ≠ none ↔ 0 < behind o) ∧ (behind o = 0 ∨ 28 ≤ behind o) := by
  unfold behind
  rcases XdrType.size_pointer o with ⟨rfl, hsize⟩ | ⟨hne, hsize⟩
  · rw [hsize]
    exact ⟨iff_of_false (fun h => h rfl) (Nat.lt_irrefl 0), .inl rfl⟩
  · exact ⟨iff_of_true hne (by omega), .inr (by omega)⟩

theorem behind_txn (o : (XdrType.pointer Wire.txn).Val) :
    (o ≠ none ↔ 0 < behind o) ∧ (behind o = 0 ∨ 28 ≤ behind o) :=
  behind_spec (by decide) o

theorem behind_cap (o : (XdrType.pointer Wire.cap).Val) :
    (o ≠ none ↔ 0 < behind o) ∧ (behind o = 0 ∨ 28 ≤ behind o) :=
  behind_spec (by decide) o

theorem behind_cred (o : (XdrType.pointer Wire.cred).Val) :
    (o ≠ none ↔ 0 < behind o) ∧ (behind o = 0 ∨ 28 ≤ behind o) :=
  behind_spec (by decide) o

theorem behind_obj (o : (XdrType.pointer Wire.obj).Val) :
    (o ≠ none ↔ 0 < behind o) ∧ (behind o = 0 ∨ 28 ≤ behind o) :=
  behind_spec (by decide) o

theorem behind_nsEntry (o : (XdrType.pointer Wire.nsEntry).Val) :
    (o ≠ none ↔ 0 < behind o) ∧ (behind o = 0 ∨ 28 ≤ behind o) :=
  behind_spec (by decide) o

end Pointers

theorem words_spec (n : ℕ) : n ≤ words n ∧ words n < n + 4 ∧ words n % 4 = 0 := by
  unfold words Codec.pad
  omega

theorem roomy_traceReset (v : Wire.traceResetArgs.Val) :
    24 ≤ Wire.traceResetArgs.size v ↔ XdrProc.traceResetArgs.Roomy v := by
  obtain ⟨ftype, fname, enableFlag, _⟩ := v
  have hfname := words_spec (CString.bytes fname).length
  show 24 ≤ 4 + (4 + words (CString.bytes fname).length + (4 + 0)) ↔
    9 ≤ (CString.bytes fname).length
  omega

theorem roomy_container (v : Wire.createContainerArgs.Val) :
    24 ≤ Wire.createContainerArgs.size v ↔
      XdrProc.createContainerArgs.Roomy v := by
  obtain ⟨txnId, cid, cap, _⟩ := v
  obtain ⟨htxn, htxn'⟩ := behind_txn txnId
  obtain ⟨hcap, hcap'⟩ := behind_cap cap
  show 24 ≤ 4 + behind txnId + (8 + (4 + behind cap + 0)) ↔
    txnId ≠ none ∨ cap ≠ none
  rw [htxn, hcap]
  omega

theorem roomy_getAcl (v : Wire.getAclArgs.Val) :
    24 ≤ Wire.getAclArgs.size v ↔ XdrProc.getAclArgs.Roomy v := by
  obtain ⟨cid, containerOp, cap, _⟩ := v
  obtain ⟨hcap, hcap'⟩ := behind_cap cap
  show 24 ≤ 8 + (4 + (4 + behind cap + 0)) ↔ cap ≠ none
  rw [hcap]
  omega

theorem roomy_getCap (v : Wire.getCapArgs.Val) :
    24 ≤ Wire.getCapArgs.size v ↔ XdrProc.getCapArgs.Roomy v := by
  obtain ⟨cid, containerOp, cred, _⟩ := v
  obtain ⟨hcred, hcred'⟩ := behind_cred cred
  show 24 ≤ 8 + (4 + (4 + behind cred + 0)) ↔ cred ≠ none
  rw [hcred]
  omega

/-- An array of user ids takes four bytes if it is empty, and twenty or more
if it is not. -/
theorem behind_uids (o : (XdrType.pointer Wire.uidArray).Val) :
    ((∃ uids, o = some uids ∧ uids.1 ≠ []) ↔ 20 ≤ behind o) ∧
      (behind o ≤ 4 ∨ 20 ≤ behind o) := by
  rcases o with _ | ⟨uids, hlen⟩
  · exact ⟨iff_of_false nofun (by decide), .inl (Nat.zero_le 4)⟩
  have hsize : behind (some ⟨uids, hlen⟩ : (XdrType.pointer Wire.uidArray).Val) =
      4 + Codec.total Wire.uid.size uids := rfl
  rw [hsize]
  cases uids with
  | nil => exact ⟨iff_of_false (by rintro ⟨_, ⟨⟩, h⟩; exact h rfl) (by decide),
      .inl (by decide)⟩
  | cons uid uids =>
      have huid : Wire.uid.size uid = 16 := rfl
      rw [Codec.total, huid]
      exact ⟨iff_of_true ⟨_, rfl, List.cons_ne_nil _ _⟩ (by omega),
        .inr (by omega)⟩

theorem roomy_modAcl (v : Wire.modAclArgs.Val) :
    48 ≤ Wire.modAclArgs.size v ↔ XdrProc.modAclArgs.Roomy v := by
  obtain ⟨txnId, cid, containerOp, set, unset, cap, _⟩ := v
  obtain ⟨htxn, htxn'⟩ := behind_txn txnId
  obtain ⟨hcap, hcap'⟩ := behind_cap cap
  obtain ⟨hset, hset'⟩ := behind_uids set
  obtain ⟨hunset, hunset'⟩ := behind_uids unset
  show 48 ≤ 4 + behind txnId + (8 + (4 + (4 + behind set + (4 + behind unset +
      (4 + behind cap + 0))))) ↔
    txnId ≠ none ∨ cap ≠ none ∨ (∃ uids, set = some uids ∧ uids.1 ≠ []) ∨
      ∃ uids, unset = some uids ∧ uids.1 ≠ []
  rw [htxn, hcap, hset, hunset]
  omega

theorem roomy_verifyCaps (v : Wire.verifyCapsArgs.Val) :
    8 ≤ Wire.verifyCapsArgs.size v ↔ XdrProc.verifyCapsArgs.Roomy v := by
  obtain ⟨capArray, _⟩ := v
  show 8 ≤ 4 + behind capArray + 0 ↔ capArray ≠ none
  rcases XdrType.size_pointer capArray with ⟨hnull, hsize⟩ | ⟨hnull, hsize⟩
  · exact iff_of_false (by unfold behind; omega) fun h => h hnull
  · have hmin : 4 ≤ Wire.capArray.minSize := le_refl 4
    exact iff_of_true (by unfold behind; omega) hnull

theorem roomy_createDir (v : Wire.createDirArgs.Val) :
    40 ≤ Wire.createDirArgs.size v ↔ XdrProc.createDirArgs.Roomy v := by
  obtain ⟨txnId, parent, name, cid, cap, _⟩ := v
  obtain ⟨htxn, htxn'⟩ := behind_txn txnId
  obtain ⟨hparent, hparent'⟩ := behind_nsEntry parent
  obtain ⟨hcap, hcap'⟩ := behind_cap cap
  have hname := words_spec (CString.bytes name).length
  show 40 ≤ 4 + behind txnId + (4 + behind parent +
      (4 + words (CString.bytes name).length + (8 + (4 + behind cap + 0)))) ↔
    txnId ≠ none ∨ parent ≠ none ∨ cap ≠ none ∨ 13 ≤ (CString.bytes name).length
  rw [htxn, hparent, hcap]
  omega

/-- The arguments that name an entry of a directory. -/
theorem roomy_removeDir (v : Wire.removeDirArgs.Val) :
    32 ≤ Wire.removeDirArgs.size v ↔ XdrProc.removeDirArgs.Roomy v := by
  obtain ⟨txnId, parent, name, cap, _⟩ := v
  obtain ⟨htxn, htxn'⟩ := behind_txn txnId
  obtain ⟨hparent, hparent'⟩ := behind_nsEntry parent
  obtain ⟨hcap, hcap'⟩ := behind_cap cap
  have hname := words_spec (CString.bytes name).length
  show 32 ≤ 4 + behind txnId + (4 + behind parent +
      (4 + words (CString.bytes name).length + (4 + behind cap + 0))) ↔
    txnId ≠ none ∨ parent ≠ none ∨ cap ≠ none ∨ 13 ≤ (CString.bytes name).length
  rw [htxn, hparent, hcap]
  omega

theorem roomy_createFile (v : Wire.createFileArgs.Val) :
    40 ≤ Wire.createFileArgs.size v ↔ XdrProc.createFileArgs.Roomy v := by
  obtain ⟨txnId, parent, name, obj, cap, _⟩ := v
  obtain ⟨htxn, htxn'⟩ := behind_txn txnId
  obtain ⟨hparent, hparent'⟩ := behind_nsEntry parent
  obtain ⟨hobj, hobj'⟩ := behind_obj obj
  obtain ⟨hcap, hcap'⟩ := behind_cap cap
  have hname := words_spec (CString.bytes name).length
  show 40 ≤ 4 + behind txnId + (4 + behind parent +
      (4 + words (CString.bytes name).length +
        (4 + behind obj + (4 + behind cap + 0)))) ↔
    txnId ≠ none ∨ parent ≠ none ∨ obj ≠ none ∨ cap ≠ none ∨
      17 ≤ (CString.bytes name).length
  rw [htxn, hparent, hobj, hcap]
  omega

theorem roomy_createLink (v : Wire.createLinkArgs.Val) :
    56 ≤ Wire.createLinkArgs.size v ↔ XdrProc.createLinkArgs.Roomy v := by
  obtain ⟨txnId, parent, name, cap, targetParent, targetName, targetCap, _⟩ := v
  obtain ⟨htxn, htxn'⟩ := behind_txn txnId
  obtain ⟨hparent, hparent'⟩ := behind_nsEntry parent
  obtain ⟨hcap, hcap'⟩ := behind_cap cap
  obtain ⟨htarget, htarget'⟩ := behind_nsEntry targetParent
  obtain ⟨htcap, htcap'⟩ := behind_cap targetCap
  show 56 ≤ 4 + behind txnId + (4 + behind parent + (4 + nameWords name +
      (4 + behind cap + (4 + behind targetParent +
        (4 + nameWords targetName + (4 + behind targetCap + 0)))))) ↔
    txnId ≠ none ∨ parent ≠ none ∨ cap ≠ none ∨ targetParent ≠ none ∨
      targetCap ≠ none ∨ 28 ≤ nameWords name + nameWords targetName
  rw [htxn, hparent, hcap, htarget, htcap]
  omega

theorem roomy_lookup (v : Wire.lookupArgs.Val) :
    40 ≤ Wire.lookupArgs.size v ↔ XdrProc.lookupArgs.Roomy v := by
  obtain ⟨txnId, parent, name, lockType, cap, _⟩ := v
  obtain ⟨htxn, htxn'⟩ := behind_txn txnId
  obtain ⟨hparent, hparent'⟩ := behind_nsEntry parent
  obtain ⟨hcap, hcap'⟩ := behind_cap cap
  have hname := words_spec (CString.bytes name).length
  show 40 ≤ 4 + behind txnId + (4 + behind parent +
      (4 + words (CString.bytes name).length + (4 + (4 + behind cap + 0)))) ↔
    txnId ≠ none ∨ parent ≠ none ∨ cap ≠ none ∨ 17 ≤ (CString.bytes name).length
  rw [htxn, hparent, hcap]
  omega

theorem roomy_listDir (v : Wire.listDirArgs.Val) :
    16 ≤ Wire.listDirArgs.size v ↔ XdrProc.listDirArgs.Roomy v := by
  obtain ⟨parent, cap, _⟩ := v
  obtain ⟨hparent, hparent'⟩ := behind_nsEntry parent
  obtain ⟨hcap, hcap'⟩ := behind_cap cap
  show 16 ≤ 4 + behind parent + (4 + behind cap + 0) ↔
    parent ≠ none ∨ cap ≠ none
  rw [hparent, hcap]
  omega

theorem roomy_createNamespace (v : Wire.createNamespaceArgs.Val) :
    24 ≤ Wire.createNamespaceArgs.size v ↔
      XdrProc.createNamespaceArgs.Roomy v := by
  obtain ⟨txnId, name, cid, _⟩ := v
  obtain ⟨htxn, htxn'⟩ := behind_txn txnId
  have hname := words_spec (CString.bytes name).length
  show 24 ≤ 4 + behind txnId + (4 + words (CString.bytes name).length + (8 + 0)) ↔
    txnId ≠ none ∨ 5 ≤ (CString.bytes name).length
  rw [htxn]
  omega

theorem roomy_removeNamespace (v : Wire.removeNamespaceArgs.Val) :
    24 ≤ Wire.removeNamespaceArgs.size v ↔
      XdrProc.removeNamespaceArgs.Roomy v := by
  obtain ⟨txnId, name, cap, _⟩ := v
  obtain ⟨htxn, htxn'⟩ := behind_txn txnId
  obtain ⟨hcap, hcap'⟩ := behind_cap cap
  have hname := words_spec (CString.bytes name).length
  show 24 ≤ 4 + behind txnId +
      (4 + words (CString.bytes name).length + (4 + behind cap + 0)) ↔
    txnId ≠ none ∨ cap ≠ none ∨ 9 ≤ (CString.bytes name).length
  rw [htxn, hcap]
  omega

theorem roomy_getNamespace (v : Wire.getNamespaceArgs.Val) :
    8 ≤ Wire.getNamespaceArgs.size v ↔ XdrProc.getNamespaceArgs.Roomy v := by
  obtain ⟨name, _⟩ := v
  have hname := words_spec (CString.bytes name).length
  show 8 ≤ 4 + words (CString.bytes name).length + 0 ↔
    1 ≤ (CString.bytes name).length
  omega

theorem roomy_ssObj (v : Wire.ssObjArgs.Val) :
    24 ≤ Wire.ssObjArgs.size v ↔ XdrProc.ssCreateObjArgs.Roomy v := by
  obtain ⟨txnId, obj, cap, _⟩ := v
  obtain ⟨htxn, htxn'⟩ := behind_txn txnId
  obtain ⟨hobj, hobj'⟩ := behind_obj obj
  obtain ⟨hcap, hcap'⟩ := behind_cap cap
  show 24 ≤ 4 + behind txnId + (4 + behind obj + (4 + behind cap + 0)) ↔
    txnId ≠ none ∨ obj ≠ none ∨ cap ≠ none
  rw [htxn, hobj, hcap]
  omega

theorem roomy_ssTransfer (v : Wire.ssTransferArgs.Val) :
    40 ≤ Wire.ssTransferArgs.size v ↔ XdrProc.ssReadArgs.Roomy v := by
  obtain ⟨txnId, obj, offset, len, cap, _⟩ := v
  obtain ⟨htxn, htxn'⟩ := behind_txn txnId
  obtain ⟨hobj, hobj'⟩ := behind_obj obj
  obtain ⟨hcap, hcap'⟩ := behind_cap cap
  show 40 ≤ 4 + behind txnId + (4 + behind obj +
      (8 + (8 + (4 + behind cap + 0)))) ↔
    txnId ≠ none ∨ obj ≠ none ∨ cap ≠ none
  rw [htxn, hobj, hcap]
  omega

theorem roomy_ssTruncate (v : Wire.ssTruncateArgs.Val) :
    32 ≤ Wire.ssTruncateArgs.size v ↔ XdrProc.ssTruncateArgs.Roomy v := by
  obtain ⟨txnId, obj, size, cap, _⟩ := v
  obtain ⟨htxn, htxn'⟩ := behind_txn txnId
  obtain ⟨hobj, hobj'⟩ := behind_obj obj
  obtain ⟨hcap, hcap'⟩ := behind_cap cap
  show 32 ≤ 4 + behind txnId + (4 + behind obj + (8 + (4 + behind cap + 0))) ↔
    txnId ≠ none ∨ obj ≠ none ∨ cap ≠ none
  rw [htxn, hobj, hcap]
  omega

theorem roomy_ssName (v : Wire.ssNameArgs.Val) :
    32 ≤ Wire.ssNameArgs.size v ↔ XdrProc.ssGetattrArgs.Roomy v := by
  obtain ⟨txnId, obj, name, cap, _⟩ := v
  obtain ⟨htxn, htxn'⟩ := behind_txn txnId
  obtain ⟨hobj, hobj'⟩ := behind_obj obj
  obtain ⟨hcap, hcap'⟩ := behind_cap cap
  have hname := words_spec (CString.bytes name).length
  show 32 ≤ 4 + behind txnId + (4 + behind obj +
      (4 + words (CString.bytes name).length + (4 + behind cap + 0))) ↔
    txnId ≠ none ∨ obj ≠ none ∨ cap ≠ none ∨ 13 ≤ (CString.bytes name).length
  rw [htxn, hobj, hcap]
  omega

/-- What a pointer that may be null leads to is large enough. -/
theorem behind_iff_exists (type : XdrType) {n k : ℕ} {f : type.Val → ℕ}
    (hf : ∀ v, type.size v = k + f v) (hn : 0 < n) (o : type.pointer.Val) :
    (∃ v, o = some v ∧ n ≤ f v) ↔ k + n ≤ behind o := by
  cases o with
  | none => exact iff_of_false nofun (by show ¬ k + n ≤ 0; omega)
  | some v =>
      have hsize : behind (some v : type.pointer.Val) = k + f v := hf v
      rw [hsize]
      constructor
      · rintro ⟨_, ⟨⟩, h⟩
        omega
      · intro h
        exact ⟨v, rfl, by omega⟩

theorem roomy_ssNames (v : Wire.ssNamesArgs.Val) :
    32 ≤ Wire.ssNamesArgs.size v ↔ XdrProc.ssGetattrsArgs.Roomy v := by
  obtain ⟨txnId, obj, names, cap, _⟩ := v
  obtain ⟨htxn, htxn'⟩ := behind_txn txnId
  obtain ⟨hobj, hobj'⟩ := behind_obj obj
  obtain ⟨hcap, hcap'⟩ := behind_cap cap
  have hnames : (∃ ns, names = some ns ∧
      12 ≤ Codec.total (fun n => 4 + nameWords n) ns.1) ↔ 4 + 12 ≤ behind names :=
    behind_iff_exists Wire.nameArray (fun _ => rfl) (by decide) names
  show 32 ≤ 4 + behind txnId + (4 + behind obj +
      (4 + behind names + (4 + behind cap + 0))) ↔
    txnId ≠ none ∨ obj ≠ none ∨ cap ≠ none ∨ ∃ ns, names = some ns ∧
      12 ≤ Codec.total (fun n => 4 + nameWords n) ns.1
  rw [htxn, hobj, hcap, hnames]
  clear hnames
  omega

theorem size_attr (a : Wire.attr.Val) : Wire.attr.size a = attrWords a := by
  show 4 + nameWords a.1 + (4 + words a.2.1.1.length + 0) =
    8 + nameWords a.1 + words a.2.1.1.length
  omega

theorem size_attrArray (as : Wire.attrArray.Val) :
    Wire.attrArray.size as = 4 + Codec.total attrWords as.1 := by
  have hattr : Wire.attr.size = attrWords := funext size_attr
  rw [← hattr]
  rfl

theorem roomy_ssSetattrs (v : Wire.ssSetattrsArgs.Val) :
    32 ≤ Wire.ssSetattrsArgs.size v ↔ XdrProc.ssSetattrsArgs.Roomy v := by
  obtain ⟨txnId, obj, attrs, cap, _⟩ := v
  obtain ⟨htxn, htxn'⟩ := behind_txn txnId
  obtain ⟨hobj, hobj'⟩ := behind_obj obj
  obtain ⟨hcap, hcap'⟩ := behind_cap cap
  have hattrs : (∃ as, attrs = some as ∧ 12 ≤ Codec.total attrWords as.1) ↔
      4 + 12 ≤ behind attrs :=
    behind_iff_exists Wire.attrArray size_attrArray (by decide) attrs
  show 32 ≤ 4 + behind txnId + (4 + behind obj +
      (4 + behind attrs + (4 + behind cap + 0))) ↔
    txnId ≠ none ∨ obj ≠ none ∨ cap ≠ none ∨ ∃ as, attrs = some as ∧
      12 ≤ Codec.total attrWords as.1
  rw [htxn, hobj, hcap, hattrs]
  clear hattrs
  omega

theorem roomy_ssSetattr (v : Wire.ssSetattrArgs.Val) :
    32 ≤ Wire.ssSetattrArgs.size v ↔ XdrProc.ssSetattrArgs.Roomy v := by
  obtain ⟨txnId, obj, attr, cap, _⟩ := v
  obtain ⟨htxn, htxn'⟩ := behind_txn txnId
  obtain ⟨hobj, hobj'⟩ := behind_obj obj
  obtain ⟨hcap, hcap'⟩ := behind_cap cap
  have hattr : (∃ a, attr = some a ∧ 16 ≤ attrWords a) ↔ 0 + 16 ≤ behind attr :=
    behind_iff_exists Wire.attr
      (fun a => (size_attr a).trans (Nat.zero_add _).symm) (by decide) attr
  show 32 ≤ 4 + behind txnId + (4 + behind obj +
      (4 + behind attr + (4 + behind cap + 0))) ↔
    txnId ≠ none ∨ obj ≠ none ∨ cap ≠ none ∨ ∃ a, attr = some a ∧
      16 ≤ attrWords a
  rw [htxn, hobj, hcap, hattr]
  clear hattr
  omega

/-! ### All operations -/

/-- The procedures that a server reads arguments with. -/
def argsProcs : List XdrProc :=
  (svcOpArray ++ authrOpArray ++ namingOpArray ++ ssOpArray).filterMap
    SvcOp.decodeArgs

theorem mem_argsProcs {host : Host} {op : SvcOp} {p : XdrProc}
    (h : op ∈ host.supportedOps) (hp : op.decodeArgs = some p) :
    p ∈ argsProcs := by
  have hall : ∀ host : Host, ∀ op ∈ host.supportedOps,
      op ∈ svcOpArray ++ authrOpArray ++ namingOpArray ++ ssOpArray := by
    intro host
    cases host <;> decide
  exact List.mem_filterMap.mpr ⟨op, hall host op h, hp⟩

/-- The arguments of an operation take as much room in the stream as in memory
if and only if they lead to enough. -/
theorem sizeof_le_iff_roomy {p : XdrProc} (hp : p ∈ argsProcs)
    (v : p.type.Val) : p.sizeof ≤ p.type.size v ↔ p.Roomy v := by
  cases p with
  | void => exact iff_of_false (Nat.not_succ_le_zero 0) not_false
  | traceResetArgs => exact roomy_traceReset v
  | createContainerArgs => exact roomy_container v
  | removeContainerArgs => exact roomy_container v
  | getAclArgs => exact roomy_getAcl v
  | modAclArgs => exact roomy_modAcl v
  | getCapArgs => exact roomy_getCap v
  | verifyCapsArgs => exact roomy_verifyCaps v
  | createDirArgs => exact roomy_createDir v
  | removeDirArgs => exact roomy_removeDir v
  | createFileArgs => exact roomy_createFile v
  | createLinkArgs => exact roomy_createLink v
  | unlinkArgs => exact roomy_removeDir v
  | lookupArgs => exact roomy_lookup v
  | listDirArgs => exact roomy_listDir v
  | nameStatArgs => exact roomy_ssObj v
  | createNamespaceArgs => exact roomy_createNamespace v
  | removeNamespaceArgs => exact roomy_removeNamespace v
  | getNamespaceArgs => exact roomy_getNamespace v
  | ssCreateObjArgs => exact roomy_ssObj v
  | ssRemoveObjArgs => exact roomy_ssObj v
  | ssReadArgs => exact roomy_ssTransfer v
  | ssWriteArgs => exact roomy_ssTransfer v
  | ssFsyncArgs => exact roomy_ssObj v
  | ssStatArgs => exact roomy_ssObj v
  | ssListattrsArgs => exact roomy_ssObj v
  | ssGetattrsArgs => exact roomy_ssNames v
  | ssSetattrsArgs => exact roomy_ssSetattrs v
  | ssRmattrsArgs => exact roomy_ssNames v
  | ssGetattrArgs => exact roomy_ssName v
  | ssSetattrArgs => exact roomy_ssSetattr v
  | ssRmattrArgs => exact roomy_ssName v
  | ssTruncateArgs => exact roomy_ssTruncate v
  -- No server reads these.
  | _ => exact absurd hp (by decide)

/-! ### The header of a request -/

/-- The length in the header is that of the encoding. -/
theorem encodeArgs_header {X : Xdr} {client : Client} {args : Option (Value X)}
    {shortReqSize : UInt64} {header : RequestHeader} {encoded : Encoded}
    (hreq : 144 ≤ shortReqSize.toNat) (hlt : shortReqSize.toNat < 2 ^ 32)
    (h : encodeArgs client args shortReqSize header = .ok encoded) :
    encoded.header.argsAddr.len.toNat = args.elim 0 Value.size ∧
      encoded.header.resAddr = header.resAddr := by
  have hcap : 144 ≤ xdrmem shortReqSize := by rwa [xdrmem_eq hlt]
  rcases args with _ | v
  · rw [encodeArgs_null hcap] at h
    cases h
    exact ⟨rfl, rfl⟩
  rcases Nat.lt_or_ge v.size (2 ^ 32) with hv | hv
  · have hsize : v.xdrSizeof.toNat = v.size := Value.toNat_xdrSizeof hv
    rcases Nat.lt_or_ge v.size (shortReqSize.toNat - 144) with hfit | hfit
    · rw [encodeArgs_inline hreq hlt hv hfit] at h
      cases h
      exact ⟨hsize, rfl⟩
    · rw [encodeArgs_long hreq hlt hv hfit] at h
      cases h
      exact ⟨hsize, rfl⟩
  · rw [encodeArgs_large hcap hv] at h
    cases h

/-- Which arguments of an operation have room: none, if it needs none. -/
def SvcOp.Roomy (op : SvcOp) : Option (Value lwfsXdr) → Prop
  | none => op.opcode = opListNamespaces
  | some v => v.1.Roomy v.2

/-- The header of a request that a client makes leaves room for the arguments
and the result of its operation if and only if the arguments lead to enough. -/
theorem hasRoom_iff_roomy {server : Server lwfsXdr} {op : SvcOp}
    (hop : op ∈ server.host.supportedOps) (client : Client)
    (call : Call lwfsXdr op) {encoded : Encoded}
    (h : encodeArgs client call.args (server.reqAddr op.opcode).len
      ⟨0, op.opcode, false, Addr.zero, client.dataAddr, client.resAddr⟩ =
        .ok encoded) :
    encoded.header.HasRoom op ↔ op.Roomy call.args := by
  obtain ⟨hreq, hlt⟩ := reqAddr_len server op.opcode
  obtain ⟨hlen, hres⟩ := encodeArgs_header hreq hlt h
  have hresLen : encoded.header.resAddr.len.toNat = shortResultSize := by
    rw [hres]
    rfl
  unfold RequestHeader.HasRoom
  rw [hlen, hresLen, and_iff_left (sizeofRes_le hop)]
  cases hargs : call.args with
  | none =>
      obtain ⟨hfits, -⟩ := fits_of_lookup hop call.lookup
      have htype := call.args_type
      rw [hargs] at htype
      show op.sizeofArgs ≤ 0 ↔ op.opcode = opListNamespaces
      rw [← call.decodeArgs_eq_none_iff hop]
      unfold SvcOp.sizeofArgs
      rcases hfits with hnull | ⟨-, hvoid⟩
      · rw [hnull, ← htype]
        exact iff_of_true (le_refl 0) rfl
      · rw [hvoid]
        exact iff_of_false (by decide) nofun
  | some v =>
      have hnone : op.decodeArgs ≠ none := by
        obtain ⟨hfits, -⟩ := fits_of_lookup hop call.lookup
        have htype := call.args_type
        rw [hargs, Option.map_some] at htype
        rcases hfits with heq | ⟨-, heq⟩
        · rw [heq, ← htype]
          exact Option.some_ne_none _
        · rw [heq]
          exact Option.some_ne_none _
      have hp := call.decodeArgs_eq hop hnone
      unfold Call.passed at hp
      rw [hargs, Option.getD_some] at hp
      have hsize : v.size = v.1.type.size v.2 := XdrType.size_codec v.1.type v.2
      show op.sizeofArgs ≤ v.size ↔ v.1.Roomy v.2
      unfold SvcOp.sizeofArgs
      rw [hp, hsize]
      exact sizeof_le_iff_roomy (mem_argsProcs hop hp) v.2

/-! ### A namespace is looked up -/

/-- A naming server whose functions return structures of zeros. -/
def zeroServer : Server lwfsXdr where
  host := .naming
  self := ⟨2, 2⟩
  func op _ _ _ := (lwfsOk, lwfsXdr.zero op.encodeRes)
  maxMemAllowed := 0
  mainMemoryInUse := 0
  resCounter := 1

def getNamespaceOp : SvcOp :=
  ⟨opGetNamespace, some .getNamespaceArgs, .lwfsNamespace⟩

def getNamespaceArgs (name : CString Wire.nameLen) : Value lwfsXdr :=
  ⟨.getNamespaceArgs, (name, ())⟩

def getNamespaceCall (name : CString Wire.nameLen) :
    Call lwfsXdr getNamespaceOp where
  encodings := ⟨opGetNamespace, some .getNamespaceArgs, .lwfsNamespace⟩
  lookup := rfl
  args := some (getNamespaceArgs name)
  args_type := rfl
  memory := ⟨.lwfsNamespace, lwfsXdr.zero .lwfsNamespace⟩
  memory_type := rfl

/-- The request for the namespace of a name. -/
def getNamespaceRequest (name : CString Wire.nameLen) : Except Fault Encoded :=
  encodeArgs wordClient (getNamespaceCall name).args
    (zeroServer.reqAddr getNamespaceOp.opcode).len
    ⟨0, getNamespaceOp.opcode, false, Addr.zero, wordClient.dataAddr,
      wordClient.resAddr⟩

/-- The name of one character. -/
def slash : CString Wire.nameLen :=
  ⟨[47], by decide, List.forall_mem_singleton.mpr rfl⟩

theorem size_getNamespaceArgs (name : CString Wire.nameLen) :
    (getNamespaceArgs name).size = 4 + words name.bytes.length :=
  XdrType.size_codec Wire.getNamespaceArgs (name, ())

theorem getNamespaceRequest_ok (name : CString Wire.nameLen) :
    ∃ encoded, getNamespaceRequest name = .ok encoded ∧
      encoded.header.argsAddr.len.toNat = 4 + words name.bytes.length := by
  have hle : name.bytes.length ≤ 64 := name.length_le
  have hwords := words_spec name.bytes.length
  have hsize := size_getNamespaceArgs name
  have hv : (getNamespaceArgs name).size < 2 ^ 32 := by omega
  have hfit : (getNamespaceArgs name).size <
      (zeroServer.reqAddr getNamespaceOp.opcode).len.toNat - 144 := by
    have hlen : (zeroServer.reqAddr getNamespaceOp.opcode).len.toNat = 512 := rfl
    omega
  obtain ⟨hreq, hlt⟩ := reqAddr_len zeroServer getNamespaceOp.opcode
  refine ⟨_, encodeArgs_inline hreq hlt hv hfit _, ?_⟩
  rw [← hsize]
  exact Value.toNat_xdrSizeof hv

theorem hasRoom_slash :
    ∃ encoded, getNamespaceRequest slash = .ok encoded ∧
      encoded.header.HasRoom getNamespaceOp := by
  obtain ⟨encoded, h, -⟩ := getNamespaceRequest_ok slash
  have hop : getNamespaceOp ∈ zeroServer.host.supportedOps := by decide
  exact ⟨encoded, h, (hasRoom_iff_roomy hop wordClient (getNamespaceCall slash)
    h).mpr (by show 1 ≤ 1; decide)⟩

theorem not_hasRoom_empty :
    ∃ encoded, getNamespaceRequest (CString.empty Wire.nameLen) = .ok encoded ∧
      ¬ encoded.header.HasRoom getNamespaceOp := by
  obtain ⟨encoded, h, hlen⟩ := getNamespaceRequest_ok (CString.empty Wire.nameLen)
  refine ⟨encoded, h, fun ⟨hargs, _⟩ => ?_⟩
  have hargs' : 8 ≤ encoded.header.argsAddr.len.toNat := hargs
  have hlen' : encoded.header.argsAddr.len.toNat = 4 + 0 := hlen
  omega

end Lwfs.Rpc
