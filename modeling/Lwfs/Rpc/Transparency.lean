import Lwfs.Rpc.Call

/-!
What a remote call means to its two ends.

On each leg a header goes first, and the payload stands behind it or is
fetched. `Carries` says that the receiver gets the payload whichever way the
sender chose, and both legs are shown to carry theirs as long as its size can
be counted in 32 bits. A call is transparent if the server's function is
called with the arguments of the client, and the client is handed the code of
the function and, with `LWFS_OK`, its result.
-/

namespace Lwfs.Rpc

open SysLib

variable {X : Xdr}

/-! ### The network -/

theorem Network.post_self (net : Network) (owner : RemotePid) (index : UInt32)
    (bits : UInt64) (bytes : List UInt8) :
    net.post owner index bits bytes owner index bits = some bytes :=
  if_pos ⟨rfl, rfl, rfl⟩

/-- What was posted can be fetched. -/
theorem ptlGet_post (net : Network) (owner : RemotePid) (index : UInt32)
    (bits len : UInt64) (bytes : List UInt8) :
    ptlGet (net.post owner index bits bytes) bytes.length
      ⟨⟨owner, index, 0, bits, len⟩, 0⟩ = some bytes := by
  unfold ptlGet
  rw [Network.post_self, Option.map_some]
  show some (bytes.take bytes.length) = some bytes
  rw [List.take_length]

/-- The payload of a header: it stands behind the header, or it can be
fetched from the address in it. -/
structure Carries (net : Network) (fetch : Bool) (addr : Addr)
    (rest bytes : List UInt8) : Prop where
  len : addr.len.toNat = bytes.length
  inline : fetch = false → rest = bytes
  posted : fetch = true → ptlGet net bytes.length addr = some bytes

/-! ### Sizes -/

theorem xdrmem_eq {size : UInt64} (h : size.toNat < 2 ^ 32) :
    xdrmem size = size.toNat := Nat.mod_eq_of_lt h

theorem xdrmem_lt (size : UInt64) : xdrmem size < 2 ^ 32 :=
  size.toUInt32.toNat_lt

namespace Value

variable {v : Value X}

theorem toNat_xdrSizeof (h : v.size < 2 ^ 32) : v.xdrSizeof.toNat = v.size := by
  have hlt : v.size < 2 ^ 64 := by omega
  exact UInt64.toNat_ofNat_of_lt' hlt

theorem write_of_le {capacity : ℕ} {buf : List UInt8}
    (h : buf.length + v.size ≤ capacity) :
    v.write capacity buf = some (buf ++ v.encode) := Codec.write_of_le h

theorem write_of_lt {capacity : ℕ} {buf : List UInt8}
    (h : capacity < buf.length + v.size) : v.write capacity buf = none :=
  Codec.write_of_lt h

theorem size_void : (Value.void X).size = 0 := X.size_void

theorem encode_void : (Value.void X).encode = [] :=
  List.length_eq_zero_iff.mp X.size_void

end Value

theorem length_encode_requestHeader (h : RequestHeader) :
    (xdrRequestHeader.encode h).length = 144 := fixed_xdrRequestHeader h

theorem length_encode_resultHeader (h : ResultHeader) :
    (xdrResultHeader.encode h).length = 56 := fixed_xdrResultHeader h

theorem write_requestHeader {capacity : ℕ} (h : 144 ≤ capacity)
    (header : RequestHeader) :
    xdrRequestHeader.write capacity [] header =
      some (xdrRequestHeader.encode header) := by
  refine Codec.write_of_le ?_
  rw [fixed_xdrRequestHeader header]
  exact (Nat.zero_add 144).symm ▸ h

theorem write_resultHeader {capacity : ℕ} (h : 56 ≤ capacity)
    (header : ResultHeader) :
    xdrResultHeader.write capacity [] header =
      some (xdrResultHeader.encode header) := by
  refine Codec.write_of_le ?_
  rw [fixed_xdrResultHeader header]
  exact (Nat.zero_add 56).symm ▸ h

/-! ### The request -/

section Request

variable {client : Client} {v : Value X} {shortReqSize : UInt64}

/-- The header of a request. -/
def requestHeader (client : Client) (header : RequestHeader) (fetchArgs : Bool)
    (argsAddr : Addr) : RequestHeader :=
  { header with id := client.id, fetchArgs, argsAddr }

theorem toNat_remaining (h : 144 ≤ shortReqSize.toNat) (header : RequestHeader) :
    (shortReqSize - UInt64.ofNat (xdrRequestHeader.size header)).toNat =
      shortReqSize.toNat - 144 := by
  rw [fixed_xdrRequestHeader header]
  exact UInt64.toNat_sub_of_le _ _ (UInt64.le_iff_toNat_le.mpr h)

theorem encodeArgs_null (h : 144 ≤ xdrmem shortReqSize) (header : RequestHeader) :
    encodeArgs client (none : Option (Value X)) shortReqSize header =
      .ok ⟨requestHeader client header false Addr.zero,
        xdrRequestHeader.encode (requestHeader client header false Addr.zero),
        none⟩ := by
  unfold encodeArgs
  simp only [write_requestHeader h]
  rfl

/-- The arguments fit into the short request. -/
theorem encodeArgs_inline (hreq : 144 ≤ shortReqSize.toNat)
    (hlt : shortReqSize.toNat < 2 ^ 32) (hv : v.size < 2 ^ 32)
    (hfit : v.size < shortReqSize.toNat - 144) (header : RequestHeader) :
    encodeArgs client (some v) shortReqSize header =
      .ok ⟨requestHeader client header false
          ⟨{ Addr.zero.toRma with len := v.xdrSizeof }, 0⟩,
        xdrRequestHeader.encode (requestHeader client header false
          ⟨{ Addr.zero.toRma with len := v.xdrSizeof }, 0⟩) ++ v.encode,
        none⟩ := by
  have hcond : v.xdrSizeof <
      shortReqSize - UInt64.ofNat (xdrRequestHeader.size header) := by
    rw [UInt64.lt_iff_toNat_lt, toNat_remaining hreq, Value.toNat_xdrSizeof hv]
    exact hfit
  have hcap : 144 ≤ xdrmem shortReqSize := by rwa [xdrmem_eq hlt]
  have hargs : ∀ h : RequestHeader,
      v.write (xdrmem shortReqSize) (xdrRequestHeader.encode h) =
        some (xdrRequestHeader.encode h ++ v.encode) := by
    intro h
    refine Value.write_of_le ?_
    rw [length_encode_requestHeader, xdrmem_eq hlt]
    omega
  unfold encodeArgs
  simp only [if_pos hcond, write_requestHeader hcap]
  show (do
    let buf ← orCode .errEncode (v.write (xdrmem shortReqSize) _)
    pure _) = _
  rw [hargs]
  rfl

/-- The arguments do not fit, and are to be fetched. -/
theorem encodeArgs_long (hreq : 144 ≤ shortReqSize.toNat)
    (hlt : shortReqSize.toNat < 2 ^ 32) (hv : v.size < 2 ^ 32)
    (hfit : shortReqSize.toNat - 144 ≤ v.size) (header : RequestHeader) :
    encodeArgs client (some v) shortReqSize header =
      .ok ⟨requestHeader client header true
          ⟨⟨client.self, longArgsPtIndex, 0, client.argsCounter, v.xdrSizeof⟩, 0⟩,
        xdrRequestHeader.encode (requestHeader client header true
          ⟨⟨client.self, longArgsPtIndex, 0, client.argsCounter, v.xdrSizeof⟩, 0⟩),
        some v.encode⟩ := by
  have hcond : ¬ v.xdrSizeof <
      shortReqSize - UInt64.ofNat (xdrRequestHeader.size header) := by
    rw [UInt64.lt_iff_toNat_lt, toNat_remaining hreq, Value.toNat_xdrSizeof hv]
    exact Nat.not_lt.mpr hfit
  have hcap : 144 ≤ xdrmem shortReqSize := by
    rw [xdrmem_eq hlt]
    exact hreq
  have hsize := Value.toNat_xdrSizeof hv
  have hargs : v.write (xdrmem v.xdrSizeof) [] = some v.encode := by
    have hlen : v.xdrSizeof.toNat < 2 ^ 32 := by
      rw [hsize]
      exact hv
    refine Value.write_of_le ?_
    rw [xdrmem_eq hlen, hsize]
    exact Nat.le_of_eq (Nat.zero_add _)
  unfold encodeArgs
  simp only [if_neg hcond, write_requestHeader hcap, hargs]
  rfl

/-- No stream is large enough for the arguments. -/
theorem encodeArgs_large (hreq : 144 ≤ xdrmem shortReqSize)
    (hv : 2 ^ 32 ≤ v.size) (header : RequestHeader) :
    encodeArgs client (some v) shortReqSize header =
      .error (.code .errEncode) := by
  have hargs : ∀ (size : UInt64) (buf : List UInt8),
      v.write (xdrmem size) buf = none := by
    intro size buf
    have hcap := xdrmem_lt size
    exact Value.write_of_lt (by omega)
  unfold encodeArgs
  simp only [write_requestHeader hreq]
  show (if _ then (do let buf ← orCode .errEncode (v.write _ _); pure _)
    else (do let longArgs ← orCode .errEncode (v.write _ _); pure _)) = _
  rw [hargs, hargs]
  exact ite_self _

theorem ptlPut_all {buf : List UInt8} {len : ℕ} {dest : Addr}
    (hlen : buf.length = len) (h : len ≤ dest.len.toNat) :
    ptlPut buf len dest = some ⟨dest, buf⟩ := by
  unfold ptlPut
  rw [if_neg (Nat.not_lt.mpr h), ← hlen, List.take_length]

variable {opcode : Opcode} {reqAddr : Addr} {net : Network}

/-- What `encode_args` has left is sent as it is. -/
theorem callRpc_of_encoded {args : Option (Value X)} {encoded : Encoded}
    (henc : encodeArgs client args reqAddr.len
      ⟨0, opcode, false, Addr.zero, client.dataAddr, client.resAddr⟩ =
      .ok encoded)
    (hlen : encoded.shortReq.length =
      if encoded.header.fetchArgs then 144
      else 144 + encoded.header.argsAddr.len.toNat)
    (hfit : encoded.shortReq.length ≤ reqAddr.len.toNat) :
    callRpc client opcode args reqAddr net =
      .ok ⟨encoded.header.fetchArgs, ⟨reqAddr, encoded.shortReq⟩,
        encoded.post client net⟩ := by
  have hput := ptlPut_all hlen (hlen ▸ hfit)
  unfold callRpc
  simp only [henc]
  show (do
    let message ← orCode .errRpc (ptlPut encoded.shortReq
      (if encoded.header.fetchArgs then xdrRequestHeader.size encoded.header
      else xdrRequestHeader.size encoded.header +
        encoded.header.argsAddr.len.toNat) reqAddr)
    pure _) = _
  rw [fixed_xdrRequestHeader encoded.header, hput]
  rfl

/-- The request goes out, and carries the arguments. -/
theorem callRpc_ok {args : Option (Value X)} (hreq : 144 ≤ reqAddr.len.toNat)
    (hlt : reqAddr.len.toNat < 2 ^ 32) (hargs : ∀ v ∈ args, v.size < 2 ^ 32) :
    ∃ sent addr rest, callRpc client opcode args reqAddr net = .ok sent ∧
      sent.message.bytes = xdrRequestHeader.encode ⟨client.id, opcode,
        sent.fetchArgs, addr, client.dataAddr, client.resAddr⟩ ++ rest ∧
      Carries sent.net sent.fetchArgs addr rest
        (args.getD (Value.void X)).encode := by
  have hcap : 144 ≤ xdrmem reqAddr.len := by rwa [xdrmem_eq hlt]
  cases args with
  | none =>
      have hlen := length_encode_requestHeader (requestHeader client
        ⟨0, opcode, false, Addr.zero, client.dataAddr, client.resAddr⟩ false
        Addr.zero)
      refine ⟨_, Addr.zero, [], callRpc_of_encoded (encodeArgs_null hcap _) hlen
        (hlen ▸ hreq), (List.append_nil _).symm, ?_⟩
      refine ⟨?_, fun _ => Value.encode_void.symm, nofun⟩
      rw [Option.getD_none, Value.encode_void]
      rfl
  | some v =>
      have hv := hargs v rfl
      have hsize := Value.toNat_xdrSizeof hv
      by_cases hfit : v.size < reqAddr.len.toNat - 144
      · have hlen : (xdrRequestHeader.encode (requestHeader client
            ⟨0, opcode, false, Addr.zero, client.dataAddr, client.resAddr⟩ false
            ⟨{ Addr.zero.toRma with len := v.xdrSizeof }, 0⟩) ++
            v.encode).length = 144 + v.xdrSizeof.toNat := by
          rw [List.length_append, length_encode_requestHeader, hsize]
          rfl
        refine ⟨_, ⟨{ Addr.zero.toRma with len := v.xdrSizeof }, 0⟩, v.encode,
          callRpc_of_encoded (encodeArgs_inline hreq hlt hv hfit _) hlen ?_,
          rfl, hsize, fun _ => rfl, nofun⟩
        rw [hlen, hsize]
        omega
      · have hlen := length_encode_requestHeader (requestHeader client
          ⟨0, opcode, false, Addr.zero, client.dataAddr, client.resAddr⟩ true
          ⟨⟨client.self, longArgsPtIndex, 0, client.argsCounter, v.xdrSizeof⟩,
            0⟩)
        exact ⟨_, ⟨⟨client.self, longArgsPtIndex, 0, client.argsCounter,
            v.xdrSizeof⟩, 0⟩, [],
          callRpc_of_encoded
            (encodeArgs_long hreq hlt hv (Nat.not_lt.mp hfit) _) hlen
            (hlen ▸ hreq),
          (List.append_nil _).symm, hsize, nofun,
          fun _ => ptlGet_post _ _ _ _ _ _⟩

theorem callRpc_large {v : Value X} (hreq : 144 ≤ xdrmem reqAddr.len)
    (hv : 2 ^ 32 ≤ v.size) :
    callRpc client opcode (some v) reqAddr net = .error (.code .errEncode) := by
  unfold callRpc
  simp only [encodeArgs_large hreq hv]
  rfl

end Request

/-! ### The arguments on the server -/

/-- The server decodes what the request carries. -/
theorem receiveArgs_of_carries {net : Network} {header : RequestHeader}
    {rest : List UInt8} {v : Value X}
    (h : Carries net header.fetchArgs header.argsAddr rest v.encode) :
    receiveArgs net header v.1 rest = some v.2 := by
  have hdecode : (X.codec v.1).decode v.encode = some (v.2, []) :=
    Codec.decode_encode v.2
  unfold receiveArgs
  cases hfetch : header.fetchArgs with
  | false =>
      rw [if_neg Bool.false_ne_true, h.inline hfetch, hdecode]
      rfl
  | true =>
      rw [if_pos rfl, h.len, h.posted hfetch]
      show ((X.codec v.1).decode v.encode).map Prod.fst = _
      rw [hdecode]
      rfl

/-! ### The reply -/

section Reply

variable {server : Server X} {net : Network} {id : UInt32} {dest : Addr}
  {result : Value X} {rc : Rc}

/-- What the reply carries: a function that fails returns no result. -/
def replyValue (result : Value X) (rc : Rc) : Value X :=
  if rc ≠ lwfsOk then Value.void X else result

theorem toNat_resSize {v : Value X} (h : v.size < 2 ^ 32) :
    v.xdrSizeof.toUInt32.toNat = v.size := by
  rw [UInt64.toNat_toUInt32, Value.toNat_xdrSizeof h, Nat.mod_eq_of_lt h]

/-- The length of the header as `send_result` counts it. -/
theorem toNat_hdrSize (header : ResultHeader) :
    UInt32.ofNat (xdrResultHeader.size header) = 56 := by
  rw [fixed_xdrResultHeader header]
  rfl

/-- What is left of the short result behind the header. -/
theorem remaining_eq (hdest : dest.len = 512) :
    (dest.len - UInt32.toUInt64 56).toUInt32 = 456 := by
  rw [hdest]
  rfl

theorem resSize_lt_iff {v : Value X} (h : v.size < 2 ^ 32) :
    v.xdrSizeof.toUInt32 < 456 ↔ v.size < 456 := by
  rw [UInt32.lt_iff_toNat_lt, toNat_resSize h]
  rfl

/-- The short result buffer takes the header. -/
theorem write_shortResult (hdest : dest.len = 512) (header : ResultHeader) :
    xdrResultHeader.write (xdrmem dest.len) [] header =
      some (xdrResultHeader.encode header) := by
  refine write_resultHeader ?_ header
  rw [hdest]
  decide

/-- The result fits behind the header. -/
theorem sendResult_inline (hdest : dest.len = 512)
    (hv : (replyValue result rc).size < 456) :
    sendResult server net id dest result rc =
      .ok ⟨some ⟨dest, xdrResultHeader.encode
          ⟨id, false, ⟨{ Addr.zero.toRma with
            len := (replyValue result rc).xdrSizeof.toUInt32.toUInt64 }, 0⟩,
            rc⟩ ++ (replyValue result rc).encode⟩, net⟩ := by
  have hsize : (replyValue result rc).size < 2 ^ 32 := by omega
  have hne : ¬ dest.len = 0 := by
    rw [hdest]
    decide
  have hfit := (resSize_lt_iff hsize).mpr hv
  have hres : ∀ h : ResultHeader, (replyValue result rc).write
      (xdrmem dest.len) (xdrResultHeader.encode h) =
      some (xdrResultHeader.encode h ++ (replyValue result rc).encode) := by
    intro h
    have hcap : xdrmem dest.len = 512 := by
      rw [hdest]
      rfl
    refine Value.write_of_le ?_
    rw [length_encode_resultHeader, hcap]
    omega
  have hput : ∀ h : ResultHeader,
      ptlPut (xdrResultHeader.encode h ++ (replyValue result rc).encode)
        (56 + (replyValue result rc).xdrSizeof.toUInt32).toNat dest =
      some ⟨dest, xdrResultHeader.encode h ++ (replyValue result rc).encode⟩ := by
    intro h
    have hlen : (56 + (replyValue result rc).xdrSizeof.toUInt32).toNat =
        56 + (replyValue result rc).size := by
      have hhdr : (56 : UInt32).toNat = 56 := rfl
      rw [UInt32.toNat_add, toNat_resSize hsize, hhdr]
      exact Nat.mod_eq_of_lt (by omega)
    refine ptlPut_all ?_ ?_
    · rw [List.length_append, length_encode_resultHeader, hlen]
      rfl
    · rw [hlen, hdest]
      show _ ≤ 512
      omega
  unfold sendResult
  simp only [toNat_hdrSize, remaining_eq hdest, if_neg hne]
  show (if (replyValue result rc).xdrSizeof.toUInt32 < 456 then _ else _) = _
  rw [if_pos hfit, write_shortResult hdest]
  show Except.ok (replyWith net ((replyValue result rc).write _ _) _ dest) = _
  rw [hres]
  exact congrArg (fun message => Except.ok (⟨message, net⟩ : Replied)) (hput _)

/-- The result does not fit, and is to be fetched. -/
theorem sendResult_long (hdest : dest.len = 512)
    (hv : 456 ≤ (replyValue result rc).size)
    (hsize : (replyValue result rc).size < 2 ^ 32) :
    sendResult server net id dest result rc =
      .ok ⟨some ⟨dest, xdrResultHeader.encode
          ⟨id, true, ⟨⟨server.self, longResPtIndex, 0,
            server.resCounter.toUInt64,
            (replyValue result rc).xdrSizeof.toUInt32.toUInt64⟩, 0⟩, rc⟩⟩,
        net.post server.self longResPtIndex server.resCounter.toUInt64
          (replyValue result rc).encode⟩ := by
  have hne : ¬ dest.len = 0 := by
    rw [hdest]
    decide
  have hfit : ¬ (replyValue result rc).xdrSizeof.toUInt32 < 456 := by
    rw [resSize_lt_iff hsize]
    exact Nat.not_lt.mpr hv
  have hres : (replyValue result rc).write
      (replyValue result rc).xdrSizeof.toUInt32.toNat [] =
      some (replyValue result rc).encode := by
    refine Value.write_of_le ?_
    rw [toNat_resSize hsize]
    exact Nat.le_of_eq (Nat.zero_add _)
  have hput : ∀ h : ResultHeader, ptlPut (xdrResultHeader.encode h)
      (56 : UInt32).toNat dest = some ⟨dest, xdrResultHeader.encode h⟩ := by
    intro h
    refine ptlPut_all (length_encode_resultHeader h) ?_
    rw [hdest]
    decide
  unfold sendResult
  simp only [toNat_hdrSize, remaining_eq hdest, if_neg hne]
  unfold replyValue at hfit hres
  refine (if_neg hfit).trans ?_
  rw [write_shortResult hdest, hres]
  exact congrArg (fun message => Except.ok (⟨message, _⟩ : Replied)) (hput _)

/-- No buffer is large enough for the result, and the client hears nothing. -/
theorem sendResult_large (hdest : dest.len = 512)
    (hv : 2 ^ 32 ≤ (replyValue result rc).size) :
    ∃ replied, sendResult server net id dest result rc = .ok replied ∧
      replied.message = none := by
  have hne : ¬ dest.len = 0 := by
    rw [hdest]
    decide
  have hlong : (replyValue result rc).write
      (replyValue result rc).xdrSizeof.toUInt32.toNat [] = none := by
    have hlt := (replyValue result rc).xdrSizeof.toUInt32.toNat_lt
    exact Value.write_of_lt (by omega)
  have hshort : ∀ buf : List UInt8,
      (replyValue result rc).write (xdrmem dest.len) buf = none := by
    intro buf
    have hcap := xdrmem_lt dest.len
    exact Value.write_of_lt (by omega)
  unfold sendResult
  simp only [toNat_hdrSize, remaining_eq hdest, if_neg hne]
  by_cases hfit : (replyValue result rc).xdrSizeof.toUInt32 < 456
  · refine ⟨_, if_pos hfit, ?_⟩
    rw [write_shortResult hdest]
    show (((replyValue result rc).write _ _).bind _) = none
    rw [hshort]
    rfl
  · refine ⟨replyWith net none 0 dest, (if_neg hfit).trans ?_, rfl⟩
    unfold replyValue at hlong
    rw [write_shortResult hdest, hlong]

/-- The reply goes out, and carries the result. -/
theorem sendResult_ok (hdest : dest.len = 512)
    (hsize : (replyValue result rc).size < 2 ^ 32) :
    ∃ replied fetch addr rest,
      sendResult server net id dest result rc = .ok replied ∧
      replied.message =
        some ⟨dest, xdrResultHeader.encode ⟨id, fetch, addr, rc⟩ ++ rest⟩ ∧
      Carries replied.net fetch addr rest (replyValue result rc).encode := by
  have hlen : (replyValue result rc).xdrSizeof.toUInt32.toUInt64.toNat =
      (replyValue result rc).encode.length := toNat_resSize hsize
  by_cases hv : (replyValue result rc).size < 456
  · exact ⟨_, _, _, _, sendResult_inline hdest hv, rfl, hlen, fun _ => rfl, nofun⟩
  · refine ⟨_, true, _, [], sendResult_long hdest (Nat.not_lt.mp hv) hsize, ?_,
      hlen, nofun, fun _ => ptlGet_post _ _ _ _ _ _⟩
    rw [List.append_nil]
    rfl

end Reply

/-! ### The result on the client -/

section Result

variable {client : Client} {e : XdrEncodings} {fetchArgs : Bool}
  {replied : Replied} {memory v : Value X} {rc : Rc}

/-- `xdr_void` writes nothing. -/
theorem Value.size_of_void (h : v.1 = .void) : v.size = 0 := by
  obtain ⟨p, a⟩ := v
  cases h
  have ha : a = X.zero .void := Codec.eq_of_size_eq_zero X.size_void a
  rw [ha]
  exact X.size_void

/-- Structures that a procedure writes nothing for are all alike. -/
theorem Value.eq_of_size_eq_zero (htype : memory.1 = v.1) (h : v.size = 0) :
    memory = v := by
  obtain ⟨p, a⟩ := v
  obtain ⟨q, b⟩ := memory
  cases htype
  rw [Codec.eq_of_size_eq_zero h b]

/-- The client decodes what the reply carries. -/
theorem receiveResult_of_carries {net : Network} {header : ResultHeader}
    {rest : List UInt8}
    (h : Carries net header.fetchResult header.resultAddr rest v.encode)
    (hsize : v.size < 2 ^ 32) (tail : List UInt8) :
    receiveResult net v.1 (rest ++ tail) header = .ok v := by
  have hdecode : ∀ tail, (X.codec v.1).decode (v.encode ++ tail) =
      some (v.2, tail) := (X.codec v.1).decode_append v.2
  unfold receiveResult decodeResult
  cases hfetch : header.fetchResult with
  | false =>
      rw [if_neg Bool.false_ne_true, h.inline hfetch, hdecode]
  | true =>
      have hlen : header.resultSize.toNat = v.encode.length := by
        show header.resultAddr.len.toUInt32.toNat = _
        rw [UInt64.toNat_toUInt32, h.len]
        exact Nat.mod_eq_of_lt hsize
      have hall := hdecode []
      rw [List.append_nil] at hall
      rw [if_pos rfl, hlen, h.posted hfetch]
      simp only [hall]

/-- What the memory for the result holds after a call that returns `v`: a
result that is `void` is none. -/
def received (memory v : Value X) : Value X :=
  if v.1 = .void then memory else v

/-- The result that the client's procedure reads is the one it was sent. -/
structure Readable (e : XdrEncodings) (memory v : Value X) : Prop where
  memory : memory.1 = e.encodeResult
  value : v.1 = e.encodeResult ∨ v.1 = .void

theorem processResult_of_carries {header : ResultHeader}
    {rest : List UInt8}
    (h : Carries replied.net header.fetchResult header.resultAddr rest v.encode)
    (hsize : v.size < 2 ^ 32) (hread : Readable e memory v)
    (tail : List UInt8) {request : Request (Value X)}
    (hresult : request.result = memory) :
    (processResult (some header)
        (receiveResult replied.net e.encodeResult (rest ++ tail)) request).2 =
      lwfsOk ∧
    (header.rc = lwfsOk →
      (processResult (some header)
        (receiveResult replied.net e.encodeResult (rest ++ tail))
          request).1.result = received memory v) := by
  have hlen : header.resultSize.toNat = v.size := by
    show header.resultAddr.len.toUInt32.toNat = _
    rw [UInt64.toNat_toUInt32, h.len]
    exact Nat.mod_eq_of_lt hsize
  unfold processResult
  by_cases hrc : header.rc = lwfsOk
  · simp only [hrc, ne_eq, not_true_eq_false, if_false]
    by_cases hpos : 0 < header.resultSize
    · have hne : v.1 ≠ .void := by
        intro hvoid
        rw [UInt32.lt_iff_toNat_lt, hlen, Value.size_of_void hvoid] at hpos
        exact Nat.lt_irrefl _ hpos
      have hdecode := receiveResult_of_carries h hsize tail
      rw [hread.value.resolve_right hne] at hdecode
      simp only [if_pos hpos, hdecode]
      exact ⟨trivial, fun _ => (if_neg hne).symm⟩
    · have hzero : v.size = 0 := by
        rw [UInt32.lt_iff_toNat_lt, hlen] at hpos
        exact Nat.eq_zero_of_not_pos hpos
      simp only [if_neg hpos]
      refine ⟨trivial, fun _ => hresult.trans ?_⟩
      unfold received
      split_ifs with hvoid
      · rfl
      · have htype := hread.memory.trans (hread.value.resolve_right hvoid).symm
        exact Value.eq_of_size_eq_zero htype hzero
  · simp only [hrc, ne_eq, not_false_eq_true, if_true]
    exact ⟨trivial, fun h => absurd h (by simp)⟩

theorem Client.shortResult_self (client : Client) (bytes : List UInt8) :
    client.shortResult (some ⟨client.resAddr, bytes⟩) =
      some (bytes ++ client.shortResultBuf.bytes.drop bytes.length) :=
  if_pos rfl

/-- The wait for a reply hands back its code and leaves its result. -/
theorem wait_trip {id : UInt32} {fetch : Bool} {addr : Addr} {rest : List UInt8}
    (hmessage : replied.message = some ⟨client.resAddr,
      xdrResultHeader.encode ⟨id, fetch, addr, rc⟩ ++ rest⟩)
    (h : Carries replied.net fetch addr rest v.encode)
    (hsize : v.size < 2 ^ 32) (hread : Readable e memory v) :
    ∃ waited, wait (trip client e fetchArgs replied)
        (sent (trip client e fetchArgs replied) memory) lwfsOk = .ok waited ∧
      waited.rc = lwfsOk ∧ waited.remoteRc = rc ∧
      (rc = lwfsOk → waited.request.result = received memory v) := by
  obtain ⟨tail, hbuf⟩ : ∃ tail, client.shortResult replied.message =
      some (xdrResultHeader.encode ⟨id, fetch, addr, rc⟩ ++ (rest ++ tail)) := by
    rw [hmessage, Client.shortResult_self, List.append_assoc]
    exact ⟨_, rfl⟩
  have hdecoded : (client.shortResult replied.message).bind
      xdrResultHeader.decode = some (⟨id, fetch, addr, rc⟩, rest ++ tail) := by
    rw [hbuf]
    exact xdrResultHeader.decode_append _ _
  have hheader : (trip client e fetchArgs replied : Trip (Value X)).header =
      some ⟨id, fetch, addr, rc⟩ := congrArg (Option.map Prod.fst) hdecoded
  have hdecode : (trip client e fetchArgs replied : Trip (Value X)).decodeResult =
      receiveResult replied.net e.encodeResult (rest ++ tail) :=
    congrArg (fun x => receiveResult replied.net e.encodeResult
      ((Option.map Prod.snd x).getD [])) hdecoded
  have hundisturbed : (trip client e fetchArgs replied : Trip (Value X)).Undisturbed := by
    refine ⟨?_, ?_, rfl, rfl, rfl⟩
    · exact if_pos (by rw [hbuf]; rfl)
    · intro polls hpolls
      have hsome := Option.mem_def.mp hpolls
      exact (Option.some.inj (Option.ite_none_right_eq_some.mp hsome).2).symm
  have hcall : (trip client e fetchArgs replied : Trip (Value X)).callRpc =
      lwfsOk := rfl
  have hcarries : Carries replied.net
      (ResultHeader.mk id fetch addr rc).fetchResult
      (ResultHeader.mk id fetch addr rc).resultAddr rest v.encode := h
  have hmemory : (sent (trip client e fetchArgs replied) memory).result = memory :=
    rfl
  obtain ⟨hprocess, hresult⟩ :=
    processResult_of_carries hcarries hsize hread tail hmemory
  rw [← hheader, ← hdecode] at hprocess hresult
  obtain ⟨_, hsome, hcomplete⟩ := complete_processResult hprocess lwfsOk
  rw [hheader, Option.some.injEq] at hsome
  subst hsome
  exact ⟨_, (wait_of_undisturbed hundisturbed (status_sent hcall memory) hprocess
    lwfsOk).trans (congrArg Except.ok hcomplete), rfl, rfl, hresult⟩

theorem wait_silent (hmessage : replied.message = none) :
    wait (trip client e fetchArgs replied)
      (sent (trip client e fetchArgs replied) memory) lwfsOk = .error .hang := by
  have hcall : (trip client e fetchArgs replied : Trip (Value X)).callRpc =
      lwfsOk := rfl
  unfold wait
  rw [if_neg (not_not.mpr (status_sent hcall memory))]
  unfold trip
  rw [hmessage]
  rfl

end Result

/-! ### The server -/

section Serve

variable {server : Server X} {net : Network} {caller : RemotePid}
  {header : RequestHeader} {rest : List UInt8} {op : SvcOp}

theorem processRequest_exceeded (h : server.MemoryExceeded)
    (request : List UInt8) :
    processRequest server net caller request = .ok (dropped X net) :=
  if_pos h

/-- The server follows the null pointer in its table. -/
theorem processRequest_null (hmem : ¬ server.MemoryExceeded)
    (hop : op ∈ server.host.supportedOps) (hopcode : header.opcode = op.opcode)
    (hnull : op.decodeArgs = none) :
    processRequest server net caller (xdrRequestHeader.encode header ++ rest) =
      .error .badPointer := by
  unfold processRequest
  rw [if_neg hmem, xdrRequestHeader.decode_append]
  simp only [hopcode, find_supportedOps hop, hnull]

/-- The function is called with what the request carries, if the structures
fit into their blocks. -/
theorem processRequest_of_carries {v : Value X}
    (hmem : ¬ server.MemoryExceeded) (hop : op ∈ server.host.supportedOps)
    (hopcode : header.opcode = op.opcode) (hargs : op.decodeArgs = some v.1)
    (h : Carries net header.fetchArgs header.argsAddr rest v.encode) :
    processRequest server net caller (xdrRequestHeader.encode header ++ rest) =
      if v.size < X.width v.1 then .error .overrun
      else if header.resAddr.len.toNat < X.width op.encodeRes then
        .error .overrun
      else
        (sendResult server net header.id header.resAddr
          ⟨op.encodeRes, (server.func op caller v header.dataAddr).2⟩
          (server.func op caller v header.dataAddr).1).map
            fun replied => ⟨some v, replied⟩ := by
  unfold processRequest
  rw [if_neg hmem, xdrRequestHeader.decode_append]
  simp only [hopcode, find_supportedOps hop, hargs, receiveArgs_of_carries h,
    h.len]
  rfl

end Serve

/-! ### The whole call -/

/-- A call as a client makes it: its arguments and the memory for its result
have the types that the procedures of the operation are for. -/
structure Call (X : Xdr) (op : SvcOp) where
  encodings : XdrEncodings
  lookup : lookupXdrEncoding op.opcode = .ok encodings
  args : Option (Value X)
  args_type : args.map Sigma.fst = encodings.encodeArgs
  memory : Value X
  memory_type : memory.1 = encodings.encodeResult

variable {op : SvcOp}

/-- The arguments as the server's function knows them: for `NULL` there are
none to decode. -/
def Call.passed (call : Call X op) : Value X :=
  call.args.getD (Value.void X)

/-- What the server's function returns for a call. -/
def Call.returned (call : Call X op) (client : Client) (server : Server X) :
    Rc × X.Val op.encodeRes :=
  server.func op client.self call.passed client.dataAddr

/-- The server's function is called with the arguments of the client, and the
client ends with the code that the function returns and, when that is
`LWFS_OK`, with its result. -/
def Transparent (client : Client) (server : Server X) (net : Network)
    (call : Call X op) : Prop :=
  ∃ outcome, roundTrip client server net op.opcode call.args call.memory =
      .ok outcome ∧
    outcome.args = some call.passed ∧
    outcome.waited.rc = lwfsOk ∧
    outcome.waited.remoteRc = (call.returned client server).1 ∧
    ((call.returned client server).1 = lwfsOk →
      outcome.waited.request.result =
        received call.memory ⟨op.encodeRes, (call.returned client server).2⟩)

/-- What a call needs: the operation is not the one without a procedure for
its arguments, the server has memory left, sizes fit into 32 bits, and the
structures fit into the blocks that the server allocates for them. -/
structure Deliverable (client : Client) (server : Server X)
    (call : Call X op) : Prop where
  opcode : op.opcode ≠ opListNamespaces
  memory : ¬ server.MemoryExceeded
  argsSize : call.passed.size < 2 ^ 32
  argsWidth : X.width call.passed.1 ≤ call.passed.size
  resWidth : X.width op.encodeRes ≤ shortResultSize
  resSize : (call.returned client server).1 = lwfsOk →
    Value.size (X := X) ⟨op.encodeRes, (call.returned client server).2⟩ < 2 ^ 32

section Whole

variable {client : Client} {server : Server X} {net : Network}
  {call : Call X op}

theorem not_transparent_of_error {fault : Fault}
    (h : roundTrip client server net op.opcode call.args call.memory =
      .error fault) : ¬ Transparent client server net call := by
  rintro ⟨outcome, hok, -⟩
  rw [h] at hok
  cases hok

/-- An operation that clients call lacks a procedure for its arguments only if
it lists the namespaces. -/
theorem Call.decodeArgs_eq_none_iff (hop : op ∈ server.host.supportedOps)
    (call : Call X op) : op.decodeArgs = none ↔ op.opcode = opListNamespaces := by
  have hnull : op ≠ nullOp := by
    apply (isOk_lookup_iff hop).mp
    rw [call.lookup]
    rfl
  rw [Rpc.decodeArgs_eq_none_iff hop, or_iff_left hnull,
    eq_listNamespacesOp_iff hop]

/-- The procedure of the server for the arguments is that of the client. -/
theorem Call.decodeArgs_eq (hop : op ∈ server.host.supportedOps)
    (call : Call X op) (h : op.decodeArgs ≠ none) :
    op.decodeArgs = some call.passed.1 := by
  obtain ⟨hfits, -⟩ := fits_of_lookup hop call.lookup
  have htype := call.args_type
  unfold Call.passed
  cases hargs : call.args with
  | none =>
      rw [hargs, Option.map_none] at htype
      rcases hfits with heq | ⟨-, heq⟩
      · exact absurd (heq.trans htype.symm) h
      · exact heq
  | some v =>
      rw [hargs, Option.map_some] at htype
      rcases hfits with heq | ⟨hnone, -⟩
      · exact heq.trans htype.symm
      · exact absurd (htype.trans hnone) nofun

/-- The result is of the type that the client reads, or there is none. -/
theorem Call.readable (hop : op ∈ server.host.supportedOps) (call : Call X op)
    (res : X.Val op.encodeRes) (rc : Rc) :
    Readable call.encodings call.memory (replyValue ⟨op.encodeRes, res⟩ rc) := by
  obtain ⟨-, hfits⟩ := fits_of_lookup hop call.lookup
  refine ⟨call.memory_type, ?_⟩
  unfold replyValue
  split_ifs
  · exact .inr rfl
  · exact hfits

theorem reqAddr_len (server : Server X) (opcode : Opcode) :
    144 ≤ (server.reqAddr opcode).len.toNat ∧
      (server.reqAddr opcode).len.toNat < 2 ^ 32 := by
  have hget : 144 ≤ (160 : UInt64).toNat ∧ (160 : UInt64).toNat < 2 ^ 32 := by
    decide
  have hshort : 144 ≤ shortRequestSize.toNat ∧
      shortRequestSize.toNat < 2 ^ 32 := by
    decide
  unfold Server.reqAddr
  split_ifs
  · exact hget
  · exact hshort

/-- The call after the request has been sent. -/
theorem roundTrip_of_sent {sent : Sent}
    (h : callRpc client op.opcode call.args (server.reqAddr op.opcode) net =
      .ok sent) :
    roundTrip client server net op.opcode call.args call.memory = (do
      let served ← processRequest server sent.net client.self sent.message.bytes
      let waited ← wait (trip client call.encodings sent.fetchArgs served.replied)
        (Rpc.sent (trip client call.encodings sent.fetchArgs served.replied)
          call.memory) lwfsOk
      pure ⟨served.args, waited⟩) := by
  unfold roundTrip
  rw [call.lookup]
  show (callRpc _ _ _ _ _ >>= _) = _
  rw [h]
  rfl

/-- The server's part of a call decides the rest. -/
theorem roundTrip_error_of_served {sent : Sent} {fault : Fault}
    (h : callRpc client op.opcode call.args (server.reqAddr op.opcode) net =
      .ok sent)
    (hserved : processRequest server sent.net client.self sent.message.bytes =
      .error fault) :
    roundTrip client server net op.opcode call.args call.memory =
      .error fault := by
  rw [roundTrip_of_sent h, hserved]
  rfl

/-- A client that gets no reply waits for ever. -/
theorem roundTrip_error_of_silent {sent : Sent} {served : Served X}
    (h : callRpc client op.opcode call.args (server.reqAddr op.opcode) net =
      .ok sent)
    (hserved : processRequest server sent.net client.self sent.message.bytes =
      .ok served)
    (hmessage : served.replied.message = none) :
    roundTrip client server net op.opcode call.args call.memory =
      .error .hang := by
  rw [roundTrip_of_sent h, hserved]
  show (wait _ _ _ >>= _) = _
  rw [wait_silent hmessage]
  rfl

/-- The reply to a request that its function was called for. -/
theorem transparent_of_served {sent : Sent} {replied : Replied} {fetch : Bool}
    {addr : Addr} {rest : List UInt8} {id : UInt32}
    (hop : op ∈ server.host.supportedOps)
    (h : callRpc client op.opcode call.args (server.reqAddr op.opcode) net =
      .ok sent)
    (hserved : processRequest server sent.net client.self sent.message.bytes =
      .ok ⟨some call.passed, replied⟩)
    (hmessage : replied.message = some ⟨client.resAddr, xdrResultHeader.encode
      ⟨id, fetch, addr, (call.returned client server).1⟩ ++ rest⟩)
    (hcarries : Carries replied.net fetch addr rest
      (replyValue ⟨op.encodeRes, (call.returned client server).2⟩
        (call.returned client server).1).encode)
    (hsize : (replyValue (X := X) ⟨op.encodeRes, (call.returned client server).2⟩
      (call.returned client server).1).size < 2 ^ 32) :
    Transparent client server net call := by
  obtain ⟨waited, hwait, hrc, hremote, hresult⟩ := wait_trip hmessage hcarries
    hsize (call.readable hop _ _)
  refine ⟨⟨some call.passed, waited⟩, ?_, rfl, hrc, hremote, fun hok => ?_⟩
  · rw [roundTrip_of_sent h, hserved]
    show (wait _ _ _ >>= _) = _
    rw [hwait]
    rfl
  · have hvalue := hresult hok
    unfold replyValue at hvalue
    rwa [if_neg (not_not.mpr hok)] at hvalue

/-- Arguments that fit into no stream are not sent. -/
theorem roundTrip_error_of_large (h : ¬ call.passed.size < 2 ^ 32) :
    roundTrip client server net op.opcode call.args call.memory =
      .error (.code .errEncode) := by
  obtain ⟨hreq, hlt⟩ := reqAddr_len server op.opcode
  have hcap : 144 ≤ xdrmem (server.reqAddr op.opcode).len := by
    rw [xdrmem_eq hlt]
    exact hreq
  unfold roundTrip
  rw [call.lookup]
  show (callRpc _ _ _ _ _ >>= _) = _
  unfold Call.passed at h
  cases hargs : call.args with
  | none =>
      rw [hargs, Option.getD_none, Value.size_void] at h
      exact absurd (by decide) h
  | some v =>
      rw [hargs, Option.getD_some] at h
      rw [callRpc_large hcap (Nat.not_lt.mp h)]
      rfl

/-- What the server does with the request of a call. -/
theorem served_of_call (hop : op ∈ server.host.supportedOps)
    (hsize : call.passed.size < 2 ^ 32) :
    ∃ sent, callRpc client op.opcode call.args (server.reqAddr op.opcode) net =
        .ok sent ∧
      processRequest server sent.net client.self sent.message.bytes =
        if server.MemoryExceeded then .ok (dropped X sent.net)
        else if op.opcode = opListNamespaces then .error .badPointer
        else if call.passed.size < X.width call.passed.1 then .error .overrun
        else if shortResultSize < X.width op.encodeRes then .error .overrun
        else
          (sendResult server sent.net client.id client.resAddr
            ⟨op.encodeRes, (call.returned client server).2⟩
            (call.returned client server).1).map
              fun replied => ⟨some call.passed, replied⟩ := by
  obtain ⟨hreq, hlt⟩ := reqAddr_len server op.opcode
  have hargs : ∀ v ∈ call.args, v.size < 2 ^ 32 := by
    intro v hv
    unfold Call.passed at hsize
    rwa [Option.mem_def.mp hv, Option.getD_some] at hsize
  obtain ⟨sent, addr, rest, hsent, hbytes, hcarries⟩ :
      ∃ sent addr rest, callRpc client op.opcode call.args
        (server.reqAddr op.opcode) net = .ok sent ∧ _ ∧ _ :=
    callRpc_ok hreq hlt hargs
  refine ⟨sent, hsent, ?_⟩
  rw [hbytes]
  by_cases hmem : server.MemoryExceeded
  · rw [if_pos hmem]
    exact processRequest_exceeded hmem _
  rw [if_neg hmem]
  by_cases hnull : op.decodeArgs = none
  · rw [if_pos ((call.decodeArgs_eq_none_iff hop).mp hnull)]
    exact processRequest_null hmem hop rfl hnull
  · rw [if_neg fun h => hnull ((call.decodeArgs_eq_none_iff hop).mpr h)]
    exact processRequest_of_carries hmem hop rfl (call.decodeArgs_eq hop hnull)
      hcarries

end Whole

/-! ### A naming server that returns zeroed results -/

/-- Every structure is a word, and `void` is none. -/
def wordCodec (p : XdrProc) : Codec { n : UInt32 // p = .void → n = 0 } :=
  if h : p = .void then
    { encode := fun _ => []
      decode := fun bs => some (⟨0, fun _ => rfl⟩, bs)
      decode_append := by
        rintro ⟨n, hn⟩ rest
        cases hn h
        rfl }
  else
    Codec.uint32.ofInverse (fun n => ⟨n, fun hvoid => absurd hvoid h⟩)
      Subtype.val fun _ => rfl

def wordXdr : Xdr where
  Val p := { n : UInt32 // p = .void → n = 0 }
  codec := wordCodec
  width p := if p = .void then 0 else 4
  zero _ := ⟨0, fun _ => rfl⟩
  size_void := rfl
  width_void := rfl

def wordClient : Client where
  self := ⟨1, 1⟩
  id := 1
  argsCounter := 1
  resultCount := 1
  dataAddr := Addr.zero
  shortResultBuf := Octets.fill shortResultSize 0

def wordServer : Server wordXdr where
  host := .naming
  self := ⟨2, 2⟩
  func op _ _ _ := (lwfsOk, wordXdr.zero op.encodeRes)
  maxMemAllowed := 0
  mainMemoryInUse := 0
  resCounter := 1

def noNetwork : Network := fun _ _ _ => none

def lookupOp : SvcOp := ⟨opLookup, some .lookupArgs, .lwfsNsEntry⟩

def lookupCall : Call wordXdr lookupOp where
  encodings := ⟨opLookup, some .lookupArgs, .lwfsNsEntry⟩
  lookup := rfl
  args := some ⟨.lookupArgs, 7, nofun⟩
  args_type := rfl
  memory := ⟨.lwfsNsEntry, 9, nofun⟩
  memory_type := rfl

def listNamespacesCall : Call wordXdr listNamespacesOp where
  encodings := ⟨opListNamespaces, none, .lwfsNamespaceArray⟩
  lookup := rfl
  args := none
  args_type := rfl
  memory := ⟨.lwfsNamespaceArray, 9, nofun⟩
  memory_type := rfl

end Lwfs.Rpc
