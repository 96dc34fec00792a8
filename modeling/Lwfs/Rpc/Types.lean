import Lwfs.Types

/-!
What the two ends of a remote call share: return codes as the headers carry
them, the headers, and the request that the client waits on.
-/

namespace Lwfs.Rpc

/-- A return code as an `int`. -/
abbrev Rc := Int32

def lwfsOk : Rc := 0

/-- The `int` of a code other than `LWFS_OK`. -/
def rcOf (code : ReturnCode) : Rc := Int32.ofInt code.toInt

theorem rcOf_ne_ok (code : ReturnCode) : rcOf code ≠ lwfsOk := by
  cases code <;> decide

/-- `lwfs_rma` as it travels, with the pointer that only its sender uses. -/
structure Addr extends Rma where
  localBuf : UInt64
  deriving DecidableEq

/-- The address that `memset` leaves. -/
def Addr.zero : Addr := ⟨⟨⟨0, 0⟩, 0, 0, 0, 0⟩, 0⟩

/-- `lwfs_request_header`. Ids stay below the range of an XDR `u_long`. -/
structure RequestHeader where
  id : UInt32
  opcode : Opcode
  fetchArgs : Bool
  argsAddr : Addr
  dataAddr : Addr
  resAddr : Addr
  deriving DecidableEq

/-- `lwfs_result_header`. -/
structure ResultHeader where
  id : UInt32
  fetchResult : Bool
  resultAddr : Addr
  rc : Rc
  deriving DecidableEq

/-- `lwfs_request_status`. -/
inductive RequestStatus
  | requestError
  | sendingRequest
  | processingRequest
  | processingResult
  | requestComplete
  deriving DecidableEq

/-- `lwfs_request`: how far the call has come, the code of the remote
operation, and the memory reserved for its result. -/
structure Request (R : Type) where
  status : RequestStatus
  errorCode : Rc
  result : R

end Lwfs.Rpc
