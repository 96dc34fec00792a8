import Lwfs.Rpc.Transparency

/-!
One request at a server, with everything that can go wrong on the way:
`process_request`, `fetch_args` and `send_result`.

The calls of the network may fail, and the procedure for a result may refuse
it; memory is always found. A transfer that fails on the way in is not noticed:
the function of the operation is called with the zeros that were there. Of the
other failures only that of the function itself is told to the client. Where
nothing fails, this is the server of a remote call (`processRequest_of_fair`).
-/

namespace Lwfs.Rpc.Service

open SysLib

variable {X : Xdr}

/-- What is decided outside of the server in the course of a request. -/
structure Conditions (X : Xdr) where
  /-- `lwfs_ptl_get` gets what is there. -/
  get : Bool
  eqAlloc : Bool
  meAttach : Bool
  mdAttach : Bool
  /-- `lwfs_ptl_put` reaches an address with room. -/
  put : Bool
  /-- The procedure for a result takes the value. -/
  encodes : Value X → Bool
  encodes_void : encodes (Value.void X) = true
  /-- How waiting for the client to fetch a long result ends. -/
  fetched : Rc

/-- The client can be given a long result to fetch. -/
def Conditions.Posts (c : Conditions X) : Prop :=
  c.eqAlloc = true ∧ c.meAttach = true ∧ c.mdAttach = true

instance (c : Conditions X) : Decidable c.Posts := inferInstanceAs (Decidable (_ ∧ _))

/-- Nothing fails. -/
structure Conditions.Fair (c : Conditions X) : Prop where
  get : c.get = true
  posts : c.Posts
  put : c.put = true
  encodes : ∀ v, c.encodes v = true

/-! ### `fetch_args` -/

/-- `lwfs_ptl_get` for the arguments. -/
def fetched (c : Conditions X) (net : Network) (header : RequestHeader) :
    Option (List UInt8) :=
  if c.get then ptlGet net header.argsAddr.len.toNat header.argsAddr else none

/-- `decode_args`, which is a null pointer for `listNamespacesOp` and for
`nullOp`. -/
def decodeArgs (op : SvcOp) (bytes : List UInt8) :
    Except Fault (Option (Value X)) :=
  match op.decodeArgs with
  | none => .error .badPointer
  | some p => .ok (((X.codec p).decode bytes).map fun x => ⟨p, x.1⟩)

/-- The type of the arguments as the function of the operation knows them. -/
def argsProc (op : SvcOp) : XdrProc := op.decodeArgs.getD .void

/-- The block for the arguments as `memset` leaves it. -/
def zeroedArgs (X : Xdr) (op : SvcOp) : Value X :=
  ⟨argsProc op, X.zero (argsProc op)⟩

/-- The arguments of a request, if they can be decoded. A `get` that fails ends
`fetch_args` with `LWFS_OK`, before anything has been decoded. -/
def receiveArgs (c : Conditions X) (net : Network) (header : RequestHeader)
    (op : SvcOp) (rest : List UInt8) : Except Fault (Option (Value X)) :=
  if header.fetchArgs then
    match fetched c net header with
    | none => .ok (some (zeroedArgs X op))
    | some bytes => decodeArgs op bytes
  else decodeArgs op rest

/-! ### `send_result` -/

/-- What `send_result` has sent, and what it returns. -/
structure Reply where
  replied : Replied
  rc : Rc

/-- `xdr_sizeof` of a result, which is zero if the procedure refuses it. -/
def resultSize (c : Conditions X) (result : Value X) : UInt32 :=
  if c.encodes result then result.xdrSizeof.toUInt32 else 0

/-- The procedure for a result writes it into a stream. -/
def writeResult (c : Conditions X) (result : Value X) (capacity : ℕ)
    (buf : List UInt8) : Option (List UInt8) :=
  if c.encodes result then result.write capacity buf else none

/-- `lwfs_ptl_put` of the short result, and the code it leads to. -/
def putResult (c : Conditions X) (net : Network) (buf : List UInt8) (len : ℕ)
    (dest : Addr) (rc : Rc) : Reply :=
  match if c.put then ptlPut buf len dest else none with
  | none => ⟨⟨none, net⟩, rcOf .errRpc⟩
  | some message => ⟨⟨some message, net⟩, rc⟩

/-- `xdr_sizeof` of the result header. -/
def hdrSize : UInt32 :=
  UInt32.ofNat (xdrResultHeader.size ⟨0, false, Addr.zero, lwfsOk⟩)

/-- What is left in the short result behind the header. -/
def remaining (dest : Addr) : UInt32 := (dest.len - hdrSize.toUInt64).toUInt32

/-- The result fits in the short result, and goes with the header. -/
def sendShort (c : Conditions X) (net : Network) (dest : Addr)
    (header : ResultHeader) (result : Value X) : Reply :=
  let resSize := resultSize c result
  let header :=
    { header with
      resultAddr := ⟨{ Addr.zero.toRma with len := resSize.toUInt64 }, 0⟩ }
  match (xdrResultHeader.write (xdrmem dest.len) [] header).bind
      fun buf => writeResult c result (xdrmem dest.len) buf with
  | none => ⟨⟨none, net⟩, rcOf .errEncode⟩
  | some buf => putResult c net buf (hdrSize + resSize).toNat dest lwfsOk

/-- The result does not fit, and the client has to fetch it. -/
def sendLong (c : Conditions X) (server : Server X) (net : Network)
    (dest : Addr) (header : ResultHeader) (result : Value X) : Reply :=
  let resSize := resultSize c result
  let matchBits := server.resCounter.toUInt64
  let header :=
    { header with
      fetchResult := true
      resultAddr :=
        ⟨⟨server.self, longResPtIndex, 0, matchBits, resSize.toUInt64⟩, 0⟩ }
  if ¬ c.Posts then ⟨⟨none, net⟩, rcOf .errRpc⟩
  else
    match xdrResultHeader.write (xdrmem dest.len) [] header,
      writeResult c result resSize.toNat [] with
    | some buf, some longRes =>
        putResult c (net.post server.self longResPtIndex matchBits longRes) buf
          hdrSize.toNat dest c.fetched
    | _, _ => ⟨⟨none, net⟩, rcOf .errEncode⟩

/-- `send_result`. A function that fails has no result to return. -/
def sendResult (c : Conditions X) (server : Server X) (net : Network)
    (id : UInt32) (dest : Addr) (result : Value X) (returnCode : Rc) :
    Except Fault Reply :=
  let result := replyValue result returnCode
  let header : ResultHeader := ⟨id, false, Addr.zero, returnCode⟩
  if dest.len = 0 then .error .abort
  else if resultSize c result < remaining dest then
    .ok (sendShort c net dest header result)
  else .ok (sendLong c server net dest header result)

/-! ### `process_request` -/

/-- What a request leaves: the arguments that its function was called with, if
it was called, what was sent, and what `process_request` returns. -/
structure Handled (X : Xdr) where
  args : Option (Value X)
  replied : Replied
  ends : Except Fault Rc

/-- The request ends before its function is called. -/
def unhandled (X : Xdr) (net : Network) (ends : Except Fault Rc) : Handled X :=
  ⟨none, ⟨none, net⟩, ends⟩

/-- What is left to do behind `send_result`. The arguments are freed with the
procedure that decoded them, which may be the null pointer. -/
def afterSend (net : Network) (op : SvcOp) (args : Value X) :
    Except Fault Reply → Handled X
  | .error fault => ⟨some args, ⟨none, net⟩, .error fault⟩
  | .ok reply =>
      ⟨some args, reply.replied,
        if reply.rc ≠ lwfsOk then .ok reply.rc
        else if op.decodeArgs = none then .error .badPointer
        else .ok lwfsOk⟩

/-- The function is called, and its result is sent. -/
def call (c : Conditions X) (server : Server X) (net : Network)
    (caller : RemotePid) (header : RequestHeader) (op : SvcOp)
    (args : Value X) : Handled X :=
  let result := server.func op caller args header.dataAddr
  if header.resAddr.len.toNat < X.width op.encodeRes then
    ⟨some args, ⟨none, net⟩, .error .overrun⟩
  else
    afterSend net op args (sendResult c server net header.id header.resAddr
      ⟨op.encodeRes, result.2⟩ result.1)

/-- `process_request`. There is memory for the blocks of the arguments and of
the result, whatever lengths the header gives. -/
def processRequest (c : Conditions X) (server : Server X) (net : Network)
    (caller : RemotePid) (request : List UInt8) : Handled X :=
  if server.MemoryExceeded then unhandled X net (.ok lwfsOk)
  else
    match xdrRequestHeader.decode request with
    | none => unhandled X net (.error .abort)
    | some (header, rest) =>
        match server.host.supportedOps.find? fun op =>
            op.opcode = header.opcode with
        | none => unhandled X net (.ok (rcOf .errRpc))
        | some op =>
            match receiveArgs c net header op rest with
            | .error fault => unhandled X net (.error fault)
            | .ok none => unhandled X net (.ok (rcOf .errDecode))
            | .ok (some args) =>
                if header.argsAddr.len.toNat < X.width (argsProc op) then
                  unhandled X net (.error .overrun)
                else if op = nullOp then unhandled X net (.error .badPointer)
                else call c server net caller header op args

/-! ### The server of a remote call -/

section Fair

variable {c : Conditions X} {server : Server X} {net : Network}

theorem putResult_replied (h : c.Fair) (net : Network) (buf : List UInt8)
    (len : ℕ) (dest : Addr) (rc : Rc) :
    (putResult c net buf len dest rc).replied = ⟨ptlPut buf len dest, net⟩ := by
  unfold putResult
  rw [if_pos h.put]
  cases ptlPut buf len dest <;> rfl

theorem writeResult_of_fair (h : c.Fair) (result : Value X) (capacity : ℕ)
    (buf : List UInt8) :
    writeResult c result capacity buf = result.write capacity buf :=
  if_pos (h.encodes result)

theorem resultSize_of_fair (h : c.Fair) (result : Value X) :
    resultSize c result = result.xdrSizeof.toUInt32 := if_pos (h.encodes result)

theorem hdrSize_eq : hdrSize = 56 := toNat_hdrSize _

theorem sendShort_of_fair (h : c.Fair) (dest : Addr) (id : UInt32) (v : Value X)
    (rc : Rc) :
    (sendShort c net dest ⟨id, false, Addr.zero, rc⟩ v).replied =
      replyWith net ((xdrResultHeader.write (xdrmem dest.len) []
          ⟨id, false, ⟨{ Addr.zero.toRma with
            len := v.xdrSizeof.toUInt32.toUInt64 }, 0⟩, rc⟩).bind
        fun buf => v.write (xdrmem dest.len) buf)
        (hdrSize + v.xdrSizeof.toUInt32).toNat dest := by
  unfold sendShort
  simp only [writeResult_of_fair h, resultSize_of_fair h]
  cases (xdrResultHeader.write (xdrmem dest.len) [] _).bind
      fun buf => v.write (xdrmem dest.len) buf with
  | none => rfl
  | some buf => exact putResult_replied h net buf _ dest _

/-- The messages of `send_result` are those of a remote call. -/
theorem sendResult_of_fair (h : c.Fair) (id : UInt32) (dest : Addr)
    (result : Value X) (rc : Rc) :
    (sendResult c server net id dest result rc).map Reply.replied =
      Rpc.sendResult server net id dest result rc := by
  have hhdr : UInt32.ofNat (xdrResultHeader.size ⟨id, false, Addr.zero, rc⟩) =
      hdrSize := (toNat_hdrSize _).trans hdrSize_eq.symm
  unfold sendResult Rpc.sendResult replyValue
  generalize (if rc ≠ lwfsOk then Value.void X else result) = v
  have hremaining : (dest.len - hdrSize.toUInt64).toUInt32 = remaining dest := rfl
  simp only [resultSize_of_fair h, hhdr, hremaining]
  split_ifs with hzero hfit
  · rfl
  · exact congrArg Except.ok (sendShort_of_fair h dest id v rc)
  · unfold sendLong
    simp only [writeResult_of_fair h, resultSize_of_fair h, h.posts, not_true,
      if_false]
    cases xdrResultHeader.write (xdrmem dest.len) [] _ with
    | none => rfl
    | some buf =>
        cases v.write v.xdrSizeof.toUInt32.toNat [] with
        | none => rfl
        | some longRes =>
            exact congrArg Except.ok (putResult_replied h _ buf _ dest _)

theorem receiveArgs_of_fair (h : c.Fair) (header : RequestHeader) (op : SvcOp)
    (rest : List UInt8) {p : XdrProc} (hp : op.decodeArgs = some p) :
    receiveArgs c net header op rest =
      .ok ((Rpc.receiveArgs net header p rest).map fun a => ⟨p, a⟩) := by
  have hdecode : ∀ bytes, decodeArgs op bytes =
      .ok ((((X.codec p).decode bytes).map Prod.fst).map fun a => ⟨p, a⟩) := by
    intro bytes
    unfold decodeArgs
    rw [hp, Option.map_map]
    rfl
  have hfetched : fetched c net header =
      ptlGet net header.argsAddr.len.toNat header.argsAddr := if_pos h.get
  unfold receiveArgs Rpc.receiveArgs
  rw [hfetched]
  split_ifs with hfetch
  · cases ptlGet net header.argsAddr.len.toNat header.argsAddr with
    | none =>
        unfold zeroedArgs argsProc
        rw [hp]
        rfl
    | some bytes => exact hdecode bytes
  · exact hdecode rest

/-- A request has been handled as in a remote call. -/
def Handled.Agrees (handled : Handled X) : Except Fault (Served X) → Prop
  | .ok served => handled.args = served.args ∧ handled.replied = served.replied
  | .error fault => handled.ends = .error fault

theorem call_of_fair (h : c.Fair) (caller : RemotePid) (header : RequestHeader)
    (op : SvcOp) (v : Value X) :
    (call c server net caller header op v).Agrees
      (if header.resAddr.len.toNat < X.width op.encodeRes then .error .overrun
      else do
        let replied ← Rpc.sendResult server net header.id header.resAddr
          ⟨op.encodeRes, (server.func op caller v header.dataAddr).2⟩
          (server.func op caller v header.dataAddr).1
        pure ⟨some v, replied⟩) := by
  unfold call
  simp only
  split_ifs with hwidth
  · rfl
  · rw [← sendResult_of_fair h]
    cases sendResult c server net header.id header.resAddr
        ⟨op.encodeRes, (server.func op caller v header.dataAddr).2⟩
        (server.func op caller v header.dataAddr).1 with
    | error fault => rfl
    | ok reply => exact ⟨rfl, rfl⟩

/-- Where nothing fails, and the operation has a procedure for its arguments,
this is what the server does in a remote call. -/
theorem processRequest_of_fair (h : c.Fair) (caller : RemotePid)
    {request : List UInt8}
    (hop : ∀ header rest op, xdrRequestHeader.decode request =
      some (header, rest) →
      server.host.supportedOps.find? (fun op => op.opcode = header.opcode) =
        some op → op.decodeArgs ≠ none) :
    (processRequest c server net caller request).Agrees
      (Rpc.processRequest server net caller request) := by
  unfold processRequest Rpc.processRequest
  split_ifs with hmemory
  · exact ⟨rfl, rfl⟩
  cases hdecode : xdrRequestHeader.decode request with
  | none => rfl
  | some decoded =>
      obtain ⟨header, rest⟩ := decoded
      simp only
      cases hfound : server.host.supportedOps.find?
          fun op => op.opcode = header.opcode with
      | none => exact ⟨rfl, rfl⟩
      | some op =>
          simp only
          cases hp : op.decodeArgs with
          | none => exact absurd hp (hop header rest op hdecode hfound)
          | some p =>
              have hnull : op ≠ nullOp := by
                rintro rfl
                cases hp
              have hproc : argsProc op = p := by
                unfold argsProc
                rw [hp, Option.getD_some]
              simp only [receiveArgs_of_fair h header op rest hp, hproc]
              cases Rpc.receiveArgs net header p rest with
              | none => exact ⟨rfl, rfl⟩
              | some a =>
                  simp only [Option.map_some]
                  rcases Nat.lt_or_ge header.argsAddr.len.toNat (X.width p) with
                    hwidth | hwidth
                  · simp only [if_pos hwidth]
                    rfl
                  · simp only [if_neg (Nat.not_lt.mpr hwidth), if_neg hnull]
                    exact call_of_fair h caller header op ⟨p, a⟩

end Fair

end Lwfs.Rpc.Service
