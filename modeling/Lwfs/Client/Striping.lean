import Lwfs.Types
import Lwfs.Lib.Image
import Lwfs.Lib.Routine
import Lwfs.Lib.Stripe

/-!
Striped input and output of the file system client: how a request for a range
of a file becomes one request after the other to the objects that the file is
distributed over.

The segments handed to the storage servers are recorded in the order in which
they are submitted. Memory allocation always succeeds here, and the file
positions are natural numbers; the conversions between `size_t` and `int`,
which lengths go through, are written out.
-/

namespace Lwfs.Client

open SysLib SysLib.Image

/-- A value converted to `int`. -/
def toInt32 (n : ℕ) : ℤ := Int.bmod n 4294967296

/-- A value converted to `size_t`. -/
def toSize (z : ℤ) : ℕ := (z % 18446744073709551616).toNat

/-- `lwfs_distributed_obj`. The field `ss_obj_count` is the length of the
array. -/
structure DistributedObj where
  chunkSize : ℕ
  ssObj : List Obj
  deriving DecidableEq

def DistributedObj.ssObjCount (d : DistributedObj) : ℕ := d.ssObj.length

/-- The part of `lwfs_ns_entry` that input and output use: the container of
the entry, and the distributed object of the file. -/
structure NsEntry where
  cid : Cid
  dObj : DistributedObj
  deriving DecidableEq

/-- `lio_op`. -/
inductive LioOp
  | r
  | w
  deriving DecidableEq, Repr

/-- A run of bytes that one call of `sso_doio` asks for. The field `store` is
the index of the object in `ss_obj`, `off` is the position in that object, and
`buf` is the position in the caller's buffer. -/
abbrev Segment := Move ℕ

/-- `lwfs_io`, with the fields of its inode that input and output use, and
with the number of calls of `sso_doio` made so far. The list of outstanding
requests leaves out the entries without a request, which `iodone` skips. -/
structure LwfsIo where
  lioOp : LioOp
  useFakeIo : Bool
  fpos : ℕ
  stSize : ℕ
  outstanding : List Segment
  doioCalls : ℕ
  deriving DecidableEq

/-- How the calls that one `sso_doio` makes end: `check_cap_cache`, and
`lwfs_read` or `lwfs_write`, which submits the request. -/
structure DoioCalls where
  checkCapCache : Option ReturnCode
  submit : Option ReturnCode
  deriving DecidableEq

/-- `EIO`. -/
def eio : ℤ := 5

/-- `sso_calc_obj_index_offset`: the index of the object and the position in
it that belong to a position of the file. -/
def ssoCalcObjIndexOffset (d : DistributedObj) (fileOffset : ℕ) : ℕ × ℕ :=
  let chunkNumber := fileOffset / d.chunkSize
  let stripeNumber := chunkNumber / d.ssObjCount
  (chunkNumber % d.ssObjCount,
    stripeNumber * d.chunkSize + fileOffset % d.chunkSize)

/-- `sso_calc_first_bytes_to_io`. The result is an `int`. -/
def ssoCalcFirstBytesToIo (d : DistributedObj)
    (bytesLeft firstObjOffset firstObjBytesAvail : ℕ) : ℤ :=
  if 0 < firstObjOffset then
    -- the request starts in the middle of the first object
    if bytesLeft > firstObjBytesAvail then toInt32 firstObjBytesAvail
    else toInt32 bytesLeft
  else
    if bytesLeft > d.chunkSize then toInt32 d.chunkSize
    else toInt32 bytesLeft

/-- What faked input and output leaves in the inode. -/
def LwfsIo.fake (io : LwfsIo) (seg : Segment) : LwfsIo :=
  match io.lioOp with
  | .r => { io with fpos := seg.off + seg.count }
  | .w => { io with
      fpos := seg.off + seg.count
      stSize := max io.stSize (seg.off + seg.count) }

/-- `sso_doio`: the return code and the new value of `*nbytes`, which was
`nbytes` before. -/
def ssoDoio (calls : ℕ → DoioCalls) (seg : Segment) (nbytes : ℕ) :
    Routine Fault LwfsIo (ℤ × ℕ) := do
  let io ← get
  set { io with doioCalls := io.doioCalls + 1 }
  match (calls io.doioCalls).checkCapCache with
  | some rc => return (rc.toInt, nbytes)
  | none =>
    if io.useFakeIo then
      modify fun io => io.fake seg
      return (0, seg.count)
    else match (calls io.doioCalls).submit with
      | some _ => return (-eio, nbytes)
      | none =>
        modify fun io => { io with outstanding := io.outstanding ++ [seg] }
        return (0, seg.count)

/-- The loop of `sso_io`, with the values of `bytes_left`, `buf_offset`,
`file_offset` and `nbytes` at its head. One turn of fuel is enough for each
byte that is left. -/
def ssoIoLoop (d : DistributedObj) (calls : ℕ → DoioCalls) :
    ℕ → ℕ → ℕ → ℕ → ℕ → Routine Fault LwfsIo ℤ
  | 0, bytesLeft, bufOffset, _, _ =>
      if bytesLeft = 0 then pure (toInt32 bufOffset) else throw .hang
  | fuel + 1, bytesLeft, bufOffset, fileOffset, nbytes =>
      if bytesLeft = 0 then pure (toInt32 bufOffset) else do
        let obj := ssoCalcObjIndexOffset d fileOffset
        let bytesThisIo :=
          if bytesLeft > d.chunkSize then d.chunkSize else bytesLeft
        let res ← ssoDoio calls ⟨obj.1, obj.2, bufOffset, bytesThisIo⟩ nbytes
        if res.1 ≠ 0 then
          return res.1
        -- a short transfer ends the request
        if res.2 < bytesThisIo then
          return toInt32 (bufOffset + res.2)
        ssoIoLoop d calls fuel (bytesLeft - res.2) (bufOffset + res.2)
          (fileOffset + res.2) res.2

/-- The number of bytes that `sso_io` sets out to move. A read that reaches
beyond the size of the file is cut back to it. The sum and the difference are
both a `size_t`. -/
def LwfsIo.bytesLeft (io : LwfsIo) (count : ℕ) : ℕ :=
  if io.lioOp = .r ∧ toSize (io.fpos + count) > io.stSize then
    toSize (io.stSize - io.fpos)
  else count

/-- The first segment of a request, which may begin and end within a chunk. -/
def firstSegment (d : DistributedObj) (bytesLeft off : ℕ) : Segment :=
  let firstObj := ssoCalcObjIndexOffset d off
  let firstObjBytesAvail := d.chunkSize - firstObj.2 % d.chunkSize
  ⟨firstObj.1, firstObj.2, 0,
    toSize (ssoCalcFirstBytesToIo d bytesLeft firstObj.2 firstObjBytesAvail)⟩

/-- `sso_io`. Its result is an `int`: the number of bytes moved, or an error
code. That the first call of `sso_doio` has failed is only logged. -/
def ssoIo (entry : NsEntry) (calls : ℕ → DoioCalls) (count off : ℕ) :
    Routine Fault LwfsIo ℤ := do
  let io ← get
  let bytesLeft := io.bytesLeft count
  let seg := firstSegment entry.dObj bytesLeft off
  if io.lioOp = .r ∧ io.fpos = io.stSize then
    return 0
  else if entry.dObj.ssObj[seg.store]?.map Obj.cid ≠ some entry.cid then
    throw .abort
  else
    let first ← ssoDoio calls seg 0
    let bytesLeft := toSize (bytesLeft - first.2)
    ssoIoLoop entry.dObj calls bytesLeft bytesLeft first.2 (off + first.2)
      first.2

end Lwfs.Client
