import Lwfs.Lib.Codec
import Lwfs.Rpc.Operations
import Lwfs.Rpc.Wait

/-!
One remote call from end to end: `lwfs_call_rpc` with `encode_args` on the
client, `process_request` with `fetch_args` and `send_result` on the server,
and the decoding that `process_result` is given.

The headers are written as the source writes them. The XDR procedures of
arguments and results, and what structures they fill, are a parameter; so is
the function that the server calls. A network is what buffers the processes
have posted for others to get.
-/

namespace Lwfs.Rpc

open SysLib

/-! ### Headers as they travel -/

def xdrRemotePid : Codec RemotePid :=
  (Codec.uint32.prod Codec.uint32).ofInverse (fun x => ⟨x.1, x.2⟩)
    (fun r => (r.nid, r.pid)) fun _ => rfl

def xdrRma : Codec Addr :=
  (xdrRemotePid.prod (Codec.uint32.prod (Codec.uint64.prod
      (Codec.uint64.prod (Codec.uint64.prod Codec.uint64))))).ofInverse
    (fun (matchId, bufferId, offset, matchBits, len, localBuf) =>
      ⟨⟨matchId, bufferId, offset, matchBits, len⟩, localBuf⟩)
    (fun a => (a.matchId, a.bufferId, a.offset, a.matchBits, a.len, a.localBuf))
    fun _ => rfl

def xdrRequestHeader : Codec RequestHeader :=
  (Codec.uint32.prod (Codec.uint32.prod (Codec.bool.prod
      (xdrRma.prod (xdrRma.prod xdrRma))))).ofInverse
    (fun (id, opcode, fetchArgs, argsAddr, dataAddr, resAddr) =>
      ⟨id, opcode, fetchArgs, argsAddr, dataAddr, resAddr⟩)
    (fun h =>
      (h.id, h.opcode, h.fetchArgs, h.argsAddr, h.dataAddr, h.resAddr))
    fun _ => rfl

def xdrResultHeader : Codec ResultHeader :=
  (Codec.uint32.prod (Codec.bool.prod (xdrRma.prod Codec.int32))).ofInverse
    (fun (id, fetchResult, resultAddr, rc) => ⟨id, fetchResult, resultAddr, rc⟩)
    (fun h => (h.id, h.fetchResult, h.resultAddr, h.rc)) fun _ => rfl

theorem fixed_xdrRma : xdrRma.Fixed 44 :=
  ((Codec.fixed_uint32.prod Codec.fixed_uint32).ofInverse.prod
    (Codec.fixed_uint32.prod (Codec.fixed_uint64.prod (Codec.fixed_uint64.prod
      (Codec.fixed_uint64.prod Codec.fixed_uint64))))).ofInverse

theorem fixed_xdrRequestHeader : xdrRequestHeader.Fixed 144 :=
  (Codec.fixed_uint32.prod (Codec.fixed_uint32.prod (Codec.fixed_bool.prod
    (fixed_xdrRma.prod (fixed_xdrRma.prod fixed_xdrRma))))).ofInverse

theorem fixed_xdrResultHeader : xdrResultHeader.Fixed 56 :=
  (Codec.fixed_uint32.prod (Codec.fixed_bool.prod
    (fixed_xdrRma.prod Codec.fixed_int32))).ofInverse

/-! ### Arguments and results -/

/-- What the XDR procedures do. -/
structure Xdr where
  Val : XdrProc → Type
  codec : (p : XdrProc) → Codec (Val p)
  /-- The bytes of the structure in memory. -/
  width : XdrProc → ℕ
  /-- The structure that `memset` leaves. -/
  zero : (p : XdrProc) → Val p
  /-- `xdr_void` writes and reads nothing. -/
  size_void : (codec .void).size (zero .void) = 0
  width_void : width .void = 0

variable {X : Xdr}

/-- A structure together with the procedure for it. -/
abbrev Value (X : Xdr) := (p : XdrProc) × X.Val p

namespace Value

def size (v : Value X) : ℕ := (X.codec v.1).size v.2

def encode (v : Value X) : List UInt8 := (X.codec v.1).encode v.2

def write (v : Value X) (capacity : ℕ) (buf : List UInt8) :
    Option (List UInt8) :=
  (X.codec v.1).write capacity buf v.2

/-- `xdr_sizeof`. -/
def xdrSizeof (v : Value X) : UInt64 := UInt64.ofNat v.size

def void (X : Xdr) : Value X := ⟨.void, X.zero .void⟩

end Value

/-- `xdrmem_create` takes the size of its buffer as a `u_int`. -/
def xdrmem (size : UInt64) : ℕ := size.toUInt32.toNat

/-- A failure with the given code. -/
def orCode {α : Type} (rc : ReturnCode) : Option α → Except Fault α
  | none => .error (.code rc)
  | some a => .ok a

/-! ### The network -/

/-- The buffers that can be fetched from a process, by portal index and match
bits. -/
abbrev Network := RemotePid → UInt32 → UInt64 → Option (List UInt8)

/-- A process posts a memory descriptor. -/
def Network.post (net : Network) (owner : RemotePid) (ptlIndex : UInt32)
    (matchBits : UInt64) (bytes : List UInt8) : Network :=
  fun pid index bits =>
    if pid = owner ∧ index = ptlIndex ∧ bits = matchBits then some bytes
    else net pid index bits

/-- `lwfs_ptl_get`. -/
def ptlGet (net : Network) (len : ℕ) (src : Addr) : Option (List UInt8) :=
  (net src.matchId src.bufferId src.matchBits).map fun bytes =>
    (bytes.drop src.offset.toNat).take len

/-- A message on its way to an address. -/
structure Message where
  dest : Addr
  bytes : List UInt8

/-- `lwfs_ptl_put`. -/
def ptlPut (buf : List UInt8) (len : ℕ) (dest : Addr) : Option Message :=
  if dest.len.toNat < len then none else some ⟨dest, buf.take len⟩

/-! `enum lwfs_pt_indices`. -/

def reqPtIndex : UInt32 := 1
def resPtIndex : UInt32 := 2
def longArgsPtIndex : UInt32 := 4
def longResPtIndex : UInt32 := 5

/-- `LWFS_SHORT_REQUEST_SIZE`. -/
def shortRequestSize : UInt64 := 512

/-- `LWFS_SHORT_RESULT_SIZE`. -/
def shortResultSize : ℕ := 512

/-! ### The two ends -/

/-- A client in the course of one call. -/
structure Client where
  /-- `lwfs_get_id`. -/
  self : RemotePid
  /-- The number of the call. -/
  id : UInt32
  /-- `args_counter`, the match bits of long arguments. -/
  argsCounter : UInt64
  /-- The `local_count` of `post_result_md`. -/
  resultCount : UInt64
  /-- What `post_data_md` leaves in the header. -/
  dataAddr : Addr
  /-- The memory that was allocated for the short result. -/
  shortResultBuf : Octets shortResultSize

/-- The address of the short result. -/
def Client.resAddr (client : Client) : Addr :=
  ⟨⟨client.self, resPtIndex, 0, client.resultCount,
    UInt64.ofNat shortResultSize⟩, 0⟩

/-- A server when a request comes in. -/
structure Server (X : Xdr) where
  host : Host
  self : RemotePid
  /-- The function of each operation. -/
  func : (op : SvcOp) → RemotePid → Value X → Addr → Rc × X.Val op.encodeRes
  maxMemAllowed : UInt64
  mainMemoryInUse : UInt64
  /-- `res_counter`, the match bits of long results. -/
  resCounter : UInt32

/-- The server uses more memory than it may, and drops the request. -/
def Server.MemoryExceeded (server : Server X) : Prop :=
  0 < server.maxMemAllowed ∧ server.maxMemAllowed < server.mainMemoryInUse

instance (server : Server X) : Decidable server.MemoryExceeded :=
  inferInstanceAs (Decidable (_ ∧ _))

/-- The address of the server in a service descriptor. `lwfs_get_service`
makes up one of its own, with the `sizeof` of the header as its length. -/
def Server.reqAddr (server : Server X) (opcode : Opcode) : Addr :=
  ⟨⟨server.self, reqPtIndex, 0, 0,
    if opcode = opGetService then 160 else shortRequestSize⟩, 0⟩

/-! ### `lwfs_call_rpc` -/

/-- What `encode_args` leaves: the header, the short request, and the buffer
of long arguments. -/
structure Encoded where
  header : RequestHeader
  shortReq : List UInt8
  longArgs : Option (List UInt8)

/-- `encode_args` after it has looked up the procedures. The pointer to the
arguments may be null. -/
def encodeArgs (client : Client) (args : Option (Value X))
    (shortReqSize : UInt64) (header : RequestHeader) : Except Fault Encoded :=
  match args with
  | none => do
      let header :=
        { header with id := client.id, fetchArgs := false, argsAddr := Addr.zero }
      let buf ← orCode .errEncode
        (xdrRequestHeader.write (xdrmem shortReqSize) [] header)
      pure ⟨header, buf, none⟩
  | some args => do
      let argsSize := args.xdrSizeof
      let hdrSize := UInt64.ofNat (xdrRequestHeader.size header)
      let remaining := shortReqSize - hdrSize
      if argsSize < remaining then
        let header :=
          { header with
            id := client.id, fetchArgs := false
            argsAddr := ⟨{ Addr.zero.toRma with len := argsSize }, 0⟩ }
        let buf ← orCode .errEncode
          (xdrRequestHeader.write (xdrmem shortReqSize) [] header)
        let buf ← orCode .errEncode (args.write (xdrmem shortReqSize) buf)
        pure ⟨header, buf, none⟩
      else
        let header :=
          { header with
            id := client.id, fetchArgs := true
            argsAddr :=
              ⟨⟨client.self, longArgsPtIndex, 0, client.argsCounter, argsSize⟩,
                0⟩ }
        let buf ← orCode .errEncode
          (xdrRequestHeader.write (xdrmem shortReqSize) [] header)
        let longArgs ← orCode .errEncode (args.write (xdrmem argsSize) [])
        pure ⟨header, buf, some longArgs⟩

/-- What `lwfs_call_rpc` leaves when it has sent the request. -/
structure Sent where
  fetchArgs : Bool
  message : Message
  net : Network

/-- The long arguments are posted. -/
def Encoded.post (encoded : Encoded) (client : Client) (net : Network) :
    Network :=
  match encoded.longArgs with
  | none => net
  | some bytes => net.post client.self longArgsPtIndex client.argsCounter bytes

def callRpc (client : Client) (opcode : Opcode) (args : Option (Value X))
    (reqAddr : Addr) (net : Network) : Except Fault Sent := do
  let header : RequestHeader :=
    ⟨0, opcode, false, Addr.zero, client.dataAddr, client.resAddr⟩
  let encoded ← encodeArgs client args reqAddr.len header
  let hdrSize := xdrRequestHeader.size encoded.header
  let len :=
    if encoded.header.fetchArgs then hdrSize
    else hdrSize + encoded.header.argsAddr.len.toNat
  let message ← orCode .errRpc (ptlPut encoded.shortReq len reqAddr)
  pure ⟨encoded.header.fetchArgs, message, encoded.post client net⟩

/-! ### `process_request` -/

/-- What `send_result` leaves. No message goes out when the result cannot be
encoded. -/
structure Replied where
  message : Option Message
  net : Network

/-- The bytes of a message that did go out. -/
def replyWith (net : Network) (buf : Option (List UInt8)) (len : ℕ)
    (dest : Addr) : Replied :=
  ⟨buf.bind fun buf => ptlPut buf len dest, net⟩

/-- `send_result`. A function that fails has no result to return. -/
def sendResult (server : Server X) (net : Network) (id : UInt32) (dest : Addr)
    (result : Value X) (returnCode : Rc) : Except Fault Replied :=
  let result := if returnCode ≠ lwfsOk then Value.void X else result
  let header : ResultHeader := ⟨id, false, Addr.zero, returnCode⟩
  let hdrSize : UInt32 := UInt32.ofNat (xdrResultHeader.size header)
  let resSize : UInt32 := result.xdrSizeof.toUInt32
  let remaining : UInt32 := (dest.len - hdrSize.toUInt64).toUInt32
  if dest.len = 0 then .error .abort
  else if resSize < remaining then
    let header :=
      { header with
        resultAddr := ⟨{ Addr.zero.toRma with len := resSize.toUInt64 }, 0⟩ }
    let buf := (xdrResultHeader.write (xdrmem dest.len) [] header).bind
      fun buf => result.write (xdrmem dest.len) buf
    .ok (replyWith net buf (hdrSize + resSize).toNat dest)
  else
    let matchBits := server.resCounter.toUInt64
    let header :=
      { header with
        fetchResult := true
        resultAddr :=
          ⟨⟨server.self, longResPtIndex, 0, matchBits, resSize.toUInt64⟩, 0⟩ }
    match xdrResultHeader.write (xdrmem dest.len) [] header,
      result.write resSize.toNat [] with
    | some buf, some longRes =>
        .ok (replyWith (net.post server.self longResPtIndex matchBits longRes)
          (some buf) hdrSize.toNat dest)
    | _, _ => .ok (replyWith net none 0 dest)

/-- The arguments of a request, as `process_request` and `fetch_args` get
them. A `get` that fails is not reported, and leaves the memory zeroed. -/
def receiveArgs (net : Network) (header : RequestHeader) (p : XdrProc)
    (rest : List UInt8) : Option (X.Val p) :=
  if header.fetchArgs then
    match ptlGet net header.argsAddr.len.toNat header.argsAddr with
    | none => some (X.zero p)
    | some bytes => ((X.codec p).decode bytes).map Prod.fst
  else ((X.codec p).decode rest).map Prod.fst

/-- What a request leaves: the arguments its function was called with, if it
was, and the reply. -/
structure Served (X : Xdr) where
  args : Option (Value X)
  replied : Replied

/-- The request goes without a reply. -/
def dropped (X : Xdr) (net : Network) : Served X := ⟨none, ⟨none, net⟩⟩

/-- `process_request`. The arguments and the result are given blocks of the
lengths in the header, whatever their structures take. -/
def processRequest (server : Server X) (net : Network) (caller : RemotePid)
    (request : List UInt8) : Except Fault (Served X) :=
  if server.MemoryExceeded then .ok (dropped X net)
  else
    match xdrRequestHeader.decode request with
    | none => .error .abort
    | some (header, rest) =>
        match server.host.supportedOps.find? fun op =>
            op.opcode = header.opcode with
        | none => .ok (dropped X net)
        | some op =>
            match op.decodeArgs with
            | none => .error .badPointer
            | some p =>
                match receiveArgs net header p rest with
                | none => .ok (dropped X net)
                | some a =>
                    if header.argsAddr.len.toNat < X.width p then
                      .error .overrun
                    else if header.resAddr.len.toNat < X.width op.encodeRes then
                      .error .overrun
                    else do
                      let (rc, res) := server.func op caller ⟨p, a⟩ header.dataAddr
                      let replied ← sendResult server net header.id
                        header.resAddr ⟨op.encodeRes, res⟩ rc
                      pure ⟨some ⟨p, a⟩, replied⟩

/-! ### The result -/

/-- The short result buffer after a message, or none if no message came for
it. -/
def Client.shortResult (client : Client) : Option Message → Option (List UInt8)
  | none => none
  | some message =>
      if message.dest = client.resAddr then
        some (message.bytes ++
          client.shortResultBuf.bytes.drop message.bytes.length)
      else none

/-- Reading a result out of a stream. -/
def decodeResult (p : XdrProc) (bytes : List UInt8) :
    Except ReturnCode (Value X) :=
  match (X.codec p).decode bytes with
  | none => .error .errDecode
  | some (a, _) => .ok ⟨p, a⟩

/-- The decoding that `process_result` does after the header. -/
def receiveResult (net : Network) (p : XdrProc) (rest : List UInt8)
    (header : ResultHeader) : Except ReturnCode (Value X) :=
  if header.fetchResult then
    match ptlGet net header.resultSize.toNat header.resultAddr with
    | none => .error .errRpc
    | some bytes => decodeResult p bytes
  else decodeResult p rest

/-- What the client finds when it waits: the events of a message, if one has
come, and the events of the `get` for its long arguments. -/
def trip (client : Client) (e : XdrEncodings) (fetchArgs : Bool)
    (replied : Replied) : Trip (Value X) :=
  let buf := client.shortResult replied.message
  let decoded := buf.bind xdrResultHeader.decode
  { callRpc := lwfsOk
    polls :=
      if buf.isSome then [.event .putStart, .event .putEnd, .event .unlink]
      else []
    header := decoded.map Prod.fst
    decodeResult :=
      receiveResult replied.net e.encodeResult
        ((decoded.map Prod.snd).getD [])
    argsPolls :=
      if fetchArgs then
        some [.event .getStart, .event .getEnd, .event .unlink]
      else none
    freeArgsEq := true
    freeShortResEq := true
    releaseData := true }

/-! ### The whole call -/

/-- How a call ends: the arguments that the server's function was called with,
and what the client's wait leaves. -/
structure Outcome (X : Xdr) where
  args : Option (Value X)
  waited : Waited (Value X)

/-- A call and the wait for its result. `memory` is what the memory for the
result holds before. -/
def roundTrip (client : Client) (server : Server X) (net : Network)
    (opcode : Opcode) (args : Option (Value X)) (memory : Value X) :
    Except Fault (Outcome X) := do
  let e ← lookupXdrEncoding opcode
  let sent ← callRpc client opcode args (server.reqAddr opcode) net
  let served ← processRequest server sent.net client.self sent.message.bytes
  let trip := trip client e sent.fetchArgs served.replied
  let waited ← wait trip (Rpc.sent trip memory) lwfsOk
  pure ⟨served.args, waited⟩

end Lwfs.Rpc
