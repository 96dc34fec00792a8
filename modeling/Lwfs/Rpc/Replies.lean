import Lwfs.Rpc.Service

/-!
What comes back for a request, and what its function was called with.

`send_result` sends a message if it can write the header and the result, post
the result where it is too long, and put the message; then the header carries
the id of the request and the code of the function. It is reached only from
the one path of `process_request` on which a function has been called. The
function is called with what the caller has sent unless a transfer has failed,
or the header names the memory of another process.
-/

namespace Lwfs.Rpc.Service

open SysLib

variable {X : Xdr} {c : Conditions X} {server : Server X} {net : Network}

/-! ### What `send_result` sends -/

/-- What it takes to send a result to an address. -/
structure Sendable (c : Conditions X) (dest : Addr) (result : Value X) :
    Prop where
  header : 56 ≤ xdrmem dest.len
  size : result.size < 2 ^ 32
  encodes : c.encodes result = true
  put : c.put = true
  /-- The result fits behind the header, or the client can fetch it. -/
  posts : result.size < xdrmem dest.len - 56 ∨ c.Posts

section Send

variable {id : UInt32} {dest : Addr} {result : Value X} {rc : Rc}

theorem xdrmem_le (size : UInt64) : xdrmem size ≤ size.toNat :=
  Nat.mod_le _ _

theorem toNat_remaining_result (h : 56 ≤ xdrmem dest.len) :
    (remaining dest).toNat = xdrmem dest.len - 56 := by
  have hle := xdrmem_le dest.len
  have hsub : (dest.len - hdrSize.toUInt64).toNat = dest.len.toNat - 56 := by
    rw [hdrSize_eq]
    exact UInt64.toNat_sub_of_le _ _
      (UInt64.le_iff_toNat_le.mpr (Nat.le_trans h hle))
  have hmod : xdrmem dest.len = dest.len.toNat % 2 ^ 32 := rfl
  unfold remaining
  rw [UInt64.toNat_toUInt32, hsub]
  omega

theorem write_resultHeader_eq_some {capacity : ℕ} {header : ResultHeader}
    {buf : List UInt8} (h : xdrResultHeader.write capacity [] header = some buf) :
    56 ≤ capacity ∧ buf = xdrResultHeader.encode header := by
  have hsize : xdrResultHeader.size header = 56 := fixed_xdrResultHeader header
  unfold Codec.write at h
  rw [List.length_nil, Nat.zero_add, hsize, List.nil_append] at h
  split_ifs at h with hle
  exact ⟨hle, (Option.some.inj h).symm⟩

theorem writeResult_eq_some {capacity : ℕ} {buf buf' : List UInt8}
    (h : writeResult c result capacity buf = some buf') :
    c.encodes result = true ∧ buf.length + result.size ≤ capacity ∧
      buf' = buf ++ result.encode := by
  unfold writeResult at h
  split_ifs at h with hencodes
  have hwrite : (X.codec result.1).write capacity buf result.2 = some buf' := h
  unfold Codec.write at hwrite
  split_ifs at hwrite with hle
  exact ⟨hencodes, hle, (Option.some.inj hwrite).symm⟩

theorem writeResult_of_le {capacity : ℕ} {buf : List UInt8}
    (hencodes : c.encodes result = true)
    (hle : buf.length + result.size ≤ capacity) :
    writeResult c result capacity buf = some (buf ++ result.encode) :=
  (if_pos hencodes).trans (Value.write_of_le hle)

theorem toNat_resultSize (hencodes : c.encodes result = true)
    (hsize : result.size < 2 ^ 32) : (resultSize c result).toNat = result.size := by
  unfold resultSize
  rw [if_pos hencodes]
  exact toNat_resSize hsize

/-- A message that was put is the one in the buffer. -/
theorem putResult_message {buf : List UInt8} {len : ℕ} {m : Message}
    (h : (putResult c net buf len dest rc).replied.message = some m) :
    c.put = true ∧ m = ⟨dest, buf.take len⟩ := by
  unfold putResult at h
  cases hput : c.put with
  | false =>
      rw [hput, if_neg Bool.false_ne_true] at h
      cases h
  | true =>
      rw [hput, if_pos rfl] at h
      unfold ptlPut at h
      split_ifs at h with hlen
      exact ⟨rfl, (Option.some.inj h).symm⟩

theorem putResult_of_le {buf : List UInt8} {len : ℕ} (hput : c.put = true)
    (hlen : buf.length = len) (hle : len ≤ dest.len.toNat) :
    putResult c net buf len dest rc = ⟨⟨some ⟨dest, buf⟩, net⟩, rc⟩ := by
  unfold putResult
  rw [if_pos hput, ptlPut_all hlen hle]

/-- The header that comes back for a request. -/
def Headed (m : Message) (dest : Addr) (id : UInt32) (rc : Rc) : Prop :=
  ∃ fetch addr rest, m.dest = dest ∧
    xdrResultHeader.decode m.bytes = some (⟨id, fetch, addr, rc⟩, rest)

theorem Headed.rc_eq {m : Message} {rc' : Rc} (h : Headed m dest id rc)
    (h' : Headed m dest id rc') : rc = rc' := by
  obtain ⟨fetch, addr, rest, -, hdecode⟩ := h
  obtain ⟨fetch', addr', rest', -, hdecode'⟩ := h'
  cases hdecode.symm.trans hdecode'
  rfl

theorem headed_of_decode {bytes rest : List UInt8} {h : ResultHeader}
    (hdecode : xdrResultHeader.decode bytes = some (h, rest)) (hid : h.id = id)
    (hrc : h.rc = rc) : Headed ⟨dest, bytes⟩ dest id rc := by
  subst hid hrc
  exact ⟨h.fetchResult, h.resultAddr, rest, rfl, hdecode⟩

theorem sendShort_of_fits (net : Network) (header : ResultHeader)
    (hencodes : c.encodes result = true) (hput : c.put = true)
    (hfit : 56 + result.size ≤ xdrmem dest.len) :
    ∃ m, (sendShort c net dest header result).replied.message = some m ∧
      Headed m dest header.id header.rc := by
  have hle := xdrmem_le dest.len
  have hlt := xdrmem_lt dest.len
  have hres := toNat_resultSize hencodes (by omega)
  have hlen : (hdrSize + resultSize c result).toNat = 56 + result.size := by
    rw [hdrSize_eq, UInt32.toNat_add, hres]
    exact Nat.mod_eq_of_lt (by show 56 + _ < _; omega)
  have hwrite : ∀ h : ResultHeader,
      (xdrResultHeader.write (xdrmem dest.len) [] h).bind
        (fun buf => writeResult c result (xdrmem dest.len) buf) =
      some (xdrResultHeader.encode h ++ result.encode) := by
    intro h
    rw [write_resultHeader (by omega), Option.bind_some]
    exact writeResult_of_le hencodes (by rwa [length_encode_resultHeader])
  have hsend : ∀ h : ResultHeader,
      putResult c net (xdrResultHeader.encode h ++ result.encode)
        (hdrSize + resultSize c result).toNat dest lwfsOk =
      ⟨⟨some ⟨dest, xdrResultHeader.encode h ++ result.encode⟩, net⟩, lwfsOk⟩ := by
    intro h
    refine putResult_of_le hput ?_ (by omega)
    rw [List.length_append, length_encode_resultHeader, hlen]
    rfl
  unfold sendShort
  simp only [hwrite, hsend]
  exact ⟨_, rfl, headed_of_decode (xdrResultHeader.decode_append _ _) rfl rfl⟩

theorem sendLong_of_posts (server : Server X) (net : Network)
    (header : ResultHeader) (hencodes : c.encodes result = true) (hput : c.put = true)
    (hposts : c.Posts) (hcap : 56 ≤ xdrmem dest.len)
    (hsize : result.size < 2 ^ 32) :
    ∃ m, (sendLong c server net dest header result).replied.message = some m ∧
      Headed m dest header.id header.rc := by
  have hle := xdrmem_le dest.len
  have hres := toNat_resultSize hencodes hsize
  have hwrite : writeResult c result (resultSize c result).toNat [] =
      some result.encode := by
    refine writeResult_of_le hencodes ?_
    rw [hres]
    exact Nat.le_of_eq (Nat.zero_add _)
  have hsend : ∀ (net : Network) (h : ResultHeader),
      putResult c net (xdrResultHeader.encode h) hdrSize.toNat dest c.fetched =
        ⟨⟨some ⟨dest, xdrResultHeader.encode h⟩, net⟩, c.fetched⟩ := by
    intro net h
    rw [hdrSize_eq]
    exact putResult_of_le hput (length_encode_resultHeader h)
      (Nat.le_trans hcap hle)
  unfold sendLong
  rw [if_neg (not_not.mpr hposts)]
  simp only [write_resultHeader hcap, hwrite, hsend]
  exact ⟨_, rfl, headed_of_decode (xdrResultHeader.decode_encode _) rfl rfl⟩

/-- A result that can be sent is sent. -/
theorem sendResult_of_sendable (h : Sendable c dest (replyValue result rc)) :
    ∃ reply m, sendResult c server net id dest result rc = .ok reply ∧
      reply.replied.message = some m ∧ Headed m dest id rc := by
  have hne : ¬ dest.len = 0 := by
    intro hzero
    have hcap := h.header
    rw [hzero] at hcap
    exact absurd hcap (by decide)
  have hres := toNat_resultSize h.encodes h.size
  have hremaining := toNat_remaining_result h.header
  unfold sendResult
  simp only [if_neg hne, UInt32.lt_iff_toNat_lt, hres, hremaining]
  split_ifs with hfit
  · have hle : 56 + (replyValue result rc).size ≤ xdrmem dest.len := by omega
    obtain ⟨m, hm, hheaded⟩ := sendShort_of_fits net
      ⟨id, false, Addr.zero, rc⟩ h.encodes h.put hle
    exact ⟨_, m, rfl, hm, hheaded⟩
  · obtain ⟨m, hm, hheaded⟩ := sendLong_of_posts server net
      ⟨id, false, Addr.zero, rc⟩ h.encodes h.put (h.posts.resolve_left hfit)
      h.header h.size
    exact ⟨_, m, rfl, hm, hheaded⟩

theorem sendable_of_sendShort {header : ResultHeader} {m : Message}
    (hlt : resultSize c result < remaining dest)
    (h : (sendShort c net dest header result).replied.message = some m) :
    Sendable c dest result := by
  unfold sendShort at h
  simp only at h
  split at h
  · cases h
  · rename_i buf hbuf
    obtain ⟨hput, -⟩ := putResult_message h
    obtain ⟨hdr, hhdr, hwrite⟩ := Option.bind_eq_some_iff.mp hbuf
    obtain ⟨hcap, rfl⟩ := write_resultHeader_eq_some hhdr
    obtain ⟨hencodes, hle, -⟩ := writeResult_eq_some hwrite
    rw [length_encode_resultHeader] at hle
    have hmem := xdrmem_lt dest.len
    have hsize : result.size < 2 ^ 32 := by omega
    rw [UInt32.lt_iff_toNat_lt, toNat_resultSize hencodes hsize,
      toNat_remaining_result hcap] at hlt
    exact ⟨hcap, hsize, hencodes, hput, .inl hlt⟩

theorem sendable_of_sendLong {header : ResultHeader} {m : Message}
    (h : (sendLong c server net dest header result).replied.message = some m) :
    Sendable c dest result := by
  unfold sendLong at h
  simp only at h
  split_ifs at h with hposts
  · split at h
    · rename_i buf longRes hbuf hlong
      obtain ⟨hput, -⟩ := putResult_message h
      obtain ⟨hcap, -⟩ := write_resultHeader_eq_some hbuf
      obtain ⟨hencodes, hle, -⟩ := writeResult_eq_some hlong
      have hlt := (resultSize c result).toNat_lt
      rw [List.length_nil, Nat.zero_add] at hle
      exact ⟨hcap, Nat.lt_of_le_of_lt hle hlt, hencodes, hput, .inr hposts⟩
    · cases h

/-- Only what can be sent is sent. -/
theorem sendable_of_message {reply : Reply} {m : Message}
    (h : sendResult c server net id dest result rc = .ok reply)
    (hm : reply.replied.message = some m) :
    Sendable c dest (replyValue result rc) := by
  unfold sendResult at h
  simp only at h
  split_ifs at h with hzero hlt
  · cases h
    exact sendable_of_sendShort hlt hm
  · cases h
    exact sendable_of_sendLong hm

end Send

/-! ### What a function is called with -/

section Request

variable {caller : RemotePid} {request rest : List UInt8}
  {header : RequestHeader} {op : SvcOp} {v : Value X}

/-- The linear search for the operation ends at an entry with a function. -/
structure Server.Finds (server : Server X) (header : RequestHeader) (op : SvcOp) :
    Prop where
  find : server.host.supportedOps.find? (fun op => op.opcode = header.opcode) =
    some op
  func : op ≠ nullOp

/-- The bytes of the arguments: behind the header, or fetched. -/
def Carried (c : Conditions X) (net : Network) (header : RequestHeader)
    (rest bytes : List UInt8) : Prop :=
  header.fetchArgs = false ∧ bytes = rest ∨
    header.fetchArgs = true ∧ fetched c net header = some bytes

/-- A transfer has failed, and the arguments are zeros. -/
def Zeroed (c : Conditions X) (net : Network) (header : RequestHeader)
    (op : SvcOp) (v : Value X) : Prop :=
  header.fetchArgs = true ∧ fetched c net header = none ∧ v = zeroedArgs X op

theorem receiveArgs_eq_some_iff :
    receiveArgs c net header op rest = .ok (some v) ↔
      (∃ bytes, Carried c net header rest bytes ∧
        decodeArgs op bytes = .ok (some v)) ∨ Zeroed c net header op v := by
  unfold receiveArgs Carried Zeroed
  cases header.fetchArgs with
  | false => simp
  | true =>
      cases fetched c net header with
      | none => simp [eq_comm]
      | some bytes => simp

theorem Carried.not_zeroed {bytes : List UInt8}
    (h : Carried c net header rest bytes) : ¬ Zeroed c net header op v := by
  rintro ⟨hfetch, hnone, -⟩
  rcases h with ⟨hinline, -⟩ | ⟨-, hsome⟩
  · rw [hfetch] at hinline
    cases hinline
  · rw [hnone] at hsome
    cases hsome

/-- The one way to the function of an operation. -/
structure Calls (c : Conditions X) (server : Server X) (net : Network)
    (header : RequestHeader) (rest : List UInt8) (op : SvcOp) (v : Value X) :
    Prop where
  memory : ¬ server.MemoryExceeded
  found : Server.Finds server header op
  args : (∃ bytes, Carried c net header rest bytes ∧
    decodeArgs op bytes = .ok (some v)) ∨ Zeroed c net header op v
  width : X.width (argsProc op) ≤ header.argsAddr.len.toNat

theorem processRequest_of_calls
    (hdecode : xdrRequestHeader.decode request = some (header, rest))
    (h : Calls c server net header rest op v) :
    processRequest c server net caller request =
      call c server net caller header op v := by
  obtain ⟨hfound, hfunc⟩ := h.found
  have hargs := receiveArgs_eq_some_iff.mpr h.args
  unfold processRequest
  simp only [if_neg h.memory, hdecode, hfound, hargs,
    if_neg (Nat.not_lt.mpr h.width), if_neg hfunc]

/-- On every other way nothing is called, and nothing is sent. -/
theorem processRequest_of_not_calls (caller : RemotePid)
    (hdecode : xdrRequestHeader.decode request = some (header, rest))
    (h : ∀ op v, ¬ Calls c server net header rest op v) :
    ∃ ends, processRequest c server net caller request =
      unhandled X net ends := by
  unfold processRequest
  rw [hdecode]
  split_ifs with hmemory
  · exact ⟨_, rfl⟩
  simp only
  cases hfound : server.host.supportedOps.find?
      fun op => op.opcode = header.opcode with
  | none => exact ⟨_, rfl⟩
  | some op =>
      simp only
      cases hargs : receiveArgs c net header op rest with
      | error fault => exact ⟨_, rfl⟩
      | ok o =>
          rcases o with _ | v
          · exact ⟨_, rfl⟩
          · simp only
            split_ifs with hwidth hnull
            · exact ⟨_, rfl⟩
            · exact ⟨_, rfl⟩
            · exact absurd ⟨hmemory, ⟨hfound, hnull⟩,
                receiveArgs_eq_some_iff.mp hargs, Nat.not_lt.mp hwidth⟩ (h op v)

theorem afterSend_args (sent : Except Fault Reply) :
    (afterSend net op v sent).args = some v := by
  cases sent <;> rfl

theorem call_args : (call c server net caller header op v).args = some v := by
  unfold call
  simp only
  split_ifs
  · rfl
  · exact afterSend_args _

/-- What the function of an operation returns for a request. -/
def outcome (server : Server X) (caller : RemotePid) (header : RequestHeader)
    (op : SvcOp) (v : Value X) : Rc × X.Val op.encodeRes :=
  server.func op caller v header.dataAddr

/-- The result has room, and can be sent. -/
structure Replies (c : Conditions X) (server : Server X) (caller : RemotePid)
    (header : RequestHeader) (op : SvcOp) (v : Value X) : Prop where
  width : X.width op.encodeRes ≤ header.resAddr.len.toNat
  sendable : Sendable c header.resAddr
    (replyValue ⟨op.encodeRes, (outcome server caller header op v).2⟩
      (outcome server caller header op v).1)

theorem call_of_replies (net : Network)
    (h : Replies c server caller header op v) :
    ∃ m, (call c server net caller header op v).replied.message = some m ∧
      Headed m header.resAddr header.id
        (outcome server caller header op v).1 := by
  obtain ⟨reply, m, hsend, hm, hheaded⟩ :
      ∃ reply m, sendResult c server net header.id header.resAddr _ _ =
        .ok reply ∧ _ ∧ _ := sendResult_of_sendable h.sendable
  refine ⟨m, ?_, hheaded⟩
  unfold call
  simp only [if_neg (Nat.not_lt.mpr h.width)]
  unfold outcome at hsend
  rw [hsend]
  exact hm

theorem replies_of_message {m : Message}
    (h : (call c server net caller header op v).replied.message = some m) :
    Replies c server caller header op v := by
  unfold call at h
  simp only at h
  split_ifs at h with hwidth
  cases hsend : sendResult c server net header.id header.resAddr
      ⟨op.encodeRes, (server.func op caller v header.dataAddr).2⟩
      (server.func op caller v header.dataAddr).1 with
  | error fault =>
      rw [hsend] at h
      cases h
  | ok reply =>
      rw [hsend] at h
      exact ⟨Nat.not_lt.mp hwidth, sendable_of_message hsend h⟩

/-! ### One reply for a request -/

/-- The operation of a request has been executed: its function was called with
the arguments that the request carries, and returned `LWFS_OK`. -/
def Executed (c : Conditions X) (server : Server X) (net : Network)
    (caller : RemotePid) (header : RequestHeader) (rest : List UInt8)
    (handled : Handled X) : Prop :=
  ∃ op v bytes, Server.Finds server header op ∧ handled.args = some v ∧
    Carried c net header rest bytes ∧ decodeArgs op bytes = .ok (some v) ∧
    (outcome server caller header op v).1 = lwfsOk

/-- One result header has been sent for the request. It has the request's id,
and an error code unless the operation has been executed. -/
def Answered (c : Conditions X) (server : Server X) (net : Network)
    (caller : RemotePid) (header : RequestHeader) (rest : List UInt8)
    (handled : Handled X) : Prop :=
  ∃ m rc, handled.replied.message = some m ∧
    Headed m header.resAddr header.id rc ∧
    (rc = lwfsOk → Executed c server net caller header rest handled)

/-- The server gets as far as to send the result of a function. The function
was called with what the request carries, or it has failed. -/
structure Answerable (c : Conditions X) (server : Server X) (net : Network)
    (caller : RemotePid) (header : RequestHeader) (rest : List UInt8)
    (op : SvcOp) (v : Value X) : Prop where
  memory : ¬ server.MemoryExceeded
  found : Server.Finds server header op
  args : (∃ bytes, Carried c net header rest bytes ∧
      decodeArgs op bytes = .ok (some v)) ∨
    Zeroed c net header op v ∧ (outcome server caller header op v).1 ≠ lwfsOk
  argsWidth : X.width (argsProc op) ≤ header.argsAddr.len.toNat
  replies : Replies c server caller header op v

theorem Answerable.calls (h : Answerable c server net caller header rest op v) :
    Calls c server net header rest op v :=
  ⟨h.memory, h.found, h.args.imp_right And.left, h.argsWidth⟩

theorem answered_of_answerable
    (hdecode : xdrRequestHeader.decode request = some (header, rest))
    (h : Answerable c server net caller header rest op v) :
    Answered c server net caller header rest
      (processRequest c server net caller request) := by
  rw [processRequest_of_calls hdecode h.calls]
  obtain ⟨m, hm, hheaded⟩ := call_of_replies net h.replies
  refine ⟨m, _, hm, hheaded, fun hok => ?_⟩
  rcases h.args with ⟨bytes, hcarried, hargs⟩ | ⟨-, hfailed⟩
  · exact ⟨op, v, bytes, h.found, call_args, hcarried, hargs, hok⟩
  · exact absurd hok hfailed

theorem exists_answerable
    (hdecode : xdrRequestHeader.decode request = some (header, rest))
    (h : Answered c server net caller header rest
      (processRequest c server net caller request)) :
    ∃ op v, Answerable c server net caller header rest op v := by
  obtain ⟨m, rc, hm, hheaded, hexecuted⟩ := h
  by_cases hcalls : ∃ op v, Calls c server net header rest op v
  case neg =>
    obtain ⟨ends, hends⟩ := processRequest_of_not_calls caller hdecode
      fun op v hcall => hcalls ⟨op, v, hcall⟩
    rw [hends] at hm
    cases hm
  obtain ⟨op, v, hcall⟩ := hcalls
  rw [processRequest_of_calls hdecode hcall] at hm hexecuted
  have hreplies := replies_of_message hm
  refine ⟨op, v, hcall.memory, hcall.found, ?_, hcall.width, hreplies⟩
  refine hcall.args.imp_right fun hzeroed => ⟨hzeroed, fun hok => ?_⟩
  -- The message says `LWFS_OK`, though the arguments are zeros.
  obtain ⟨m', hm', hheaded'⟩ := call_of_replies net hreplies
  cases hm.symm.trans hm'
  rw [hok] at hheaded'
  obtain ⟨op', v', bytes, -, hargs, hcarried, -, -⟩ :=
    hexecuted (hheaded.rc_eq hheaded')
  exact hcarried.not_zeroed hzeroed

/-- A request is answered if and only if the server gets as far as to send a
result, and the function has been called with what the request carries or has
failed. -/
theorem answered_iff_answerable
    (hdecode : xdrRequestHeader.decode request = some (header, rest)) :
    Answered c server net caller header rest
        (processRequest c server net caller request) ↔
      ∃ op v, Answerable c server net caller header rest op v :=
  ⟨exists_answerable hdecode, fun ⟨_, _, h⟩ => answered_of_answerable hdecode h⟩

/-! ### Arguments from the caller -/

/-- Bytes that the caller has supplied for the request: those behind the
header, or what was fetched from the caller's own memory. -/
def Supplied (c : Conditions X) (net : Network) (caller : RemotePid)
    (header : RequestHeader) (rest bytes : List UInt8) : Prop :=
  header.fetchArgs = false ∧ bytes = rest ∨
    header.fetchArgs = true ∧ header.argsAddr.matchId = caller ∧
      fetched c net header = some bytes

/-- A function is called with arguments that were decoded from bytes of the
caller, or none is called. -/
def RunsOnSupplied (c : Conditions X) (server : Server X) (net : Network)
    (caller : RemotePid) (request : List UInt8) : Prop :=
  ∀ v, (processRequest c server net caller request).args = some v →
    ∃ header rest op bytes,
      xdrRequestHeader.decode request = some (header, rest) ∧
      Server.Finds server header op ∧
      Supplied c net caller header rest bytes ∧
      decodeArgs op bytes = .ok (some v)

/-- The arguments are behind the header, or they could be fetched, from the
caller if they are any. Where the server turns the request away before, it
does not matter. -/
def Fetchable (c : Conditions X) (server : Server X) (net : Network)
    (caller : RemotePid) (header : RequestHeader) : Prop :=
  header.fetchArgs = true → ¬ server.MemoryExceeded → ∀ op,
    Server.Finds server header op →
    X.width (argsProc op) ≤ header.argsAddr.len.toNat →
    ∃ bytes, fetched c net header = some bytes ∧
      (header.argsAddr.matchId = caller ∨
        ∀ v : Value X, decodeArgs op bytes ≠ .ok (some v))

theorem Calls.supplied (h : Calls c server net header rest op v)
    (hfetchable : Fetchable c server net caller header) :
    ∃ bytes, Supplied c net caller header rest bytes ∧
      decodeArgs op bytes = .ok (some v) := by
  cases hfetch : header.fetchArgs with
  | false =>
      rcases h.args with ⟨bytes, ⟨-, rfl⟩ | ⟨hlong, -⟩, hargs⟩ | ⟨hlong, -⟩
      · exact ⟨bytes, .inl ⟨hfetch, rfl⟩, hargs⟩
      · exact absurd (hfetch.symm.trans hlong) Bool.false_ne_true
      · exact absurd (hfetch.symm.trans hlong) Bool.false_ne_true
  | true =>
      obtain ⟨bytes, hbytes, howner⟩ :=
        hfetchable hfetch h.memory op h.found h.width
      rcases h.args with ⟨bytes', hcarried, hargs⟩ | hzeroed
      · rcases hcarried with ⟨hshort, -⟩ | ⟨-, hbytes'⟩
        · exact absurd (hshort.symm.trans hfetch) Bool.false_ne_true
        · cases hbytes.symm.trans hbytes'
          exact ⟨bytes, .inr ⟨hfetch, howner.resolve_right fun h => h v hargs,
            hbytes⟩, hargs⟩
      · have hcarried : Carried c net header rest bytes := .inr ⟨hfetch, hbytes⟩
        exact absurd hzeroed hcarried.not_zeroed

theorem runsOnSupplied_of_fetchable
    (h : ∀ header rest, xdrRequestHeader.decode request = some (header, rest) →
      Fetchable c server net caller header) :
    RunsOnSupplied c server net caller request := by
  intro v hargs
  cases hdecode : xdrRequestHeader.decode request with
  | none =>
      unfold processRequest at hargs
      rw [hdecode] at hargs
      split_ifs at hargs <;> cases hargs
  | some decoded =>
      obtain ⟨header, rest⟩ := decoded
      by_cases hcalls : ∃ op v, Calls c server net header rest op v
      · obtain ⟨op, v', hcall⟩ := hcalls
        rw [processRequest_of_calls hdecode hcall, call_args] at hargs
        cases hargs
        obtain ⟨bytes, hsupplied, hbytes⟩ := hcall.supplied (h _ _ hdecode)
        exact ⟨header, rest, op, bytes, rfl, hcall.found, hsupplied, hbytes⟩
      · obtain ⟨ends, hends⟩ := processRequest_of_not_calls caller hdecode
          fun op v hcall => hcalls ⟨op, v, hcall⟩
        rw [hends] at hargs
        cases hargs

theorem fetchable_of_runsOnSupplied
    (hdecode : xdrRequestHeader.decode request = some (header, rest))
    (h : RunsOnSupplied c server net caller request) :
    Fetchable c server net caller header := by
  intro hfetch hmemory op hfound hwidth
  -- What is called with is supplied, and so it was fetched from the caller.
  have hcall : ∀ v, Calls c server net header rest op v →
      header.argsAddr.matchId = caller ∧
        ∃ bytes, fetched c net header = some bytes := by
    intro v hcall
    have hargs : (processRequest c server net caller request).args = some v := by
      rw [processRequest_of_calls hdecode hcall]
      exact call_args
    obtain ⟨header', rest', _, bytes, hdecode', -, hsupplied, -⟩ := h v hargs
    cases hdecode.symm.trans hdecode'
    rcases hsupplied with ⟨hshort, -⟩ | ⟨-, howner, hbytes⟩
    · exact absurd (hshort.symm.trans hfetch) Bool.false_ne_true
    · exact ⟨howner, bytes, hbytes⟩
  cases hbytes : fetched c net header with
  | none =>
      obtain ⟨-, bytes, hsome⟩ := hcall (zeroedArgs X op)
        ⟨hmemory, hfound, .inr ⟨hfetch, hbytes, rfl⟩, hwidth⟩
      rw [hbytes] at hsome
      cases hsome
  | some bytes =>
      refine ⟨bytes, rfl, or_iff_not_imp_left.mpr fun hother v hargs => hother ?_⟩
      exact (hcall v ⟨hmemory, hfound,
        .inl ⟨bytes, .inr ⟨hfetch, hbytes⟩, hargs⟩, hwidth⟩).1

/-- Functions are called with what the caller has supplied if and only if the
arguments of a request are behind its header, or could be fetched from the
caller. -/
theorem runsOnSupplied_iff_fetchable :
    RunsOnSupplied c server net caller request ↔
      ∀ header rest, xdrRequestHeader.decode request = some (header, rest) →
        Fetchable c server net caller header :=
  ⟨fun h _ _ hdecode => fetchable_of_runsOnSupplied hdecode h,
    runsOnSupplied_of_fetchable⟩

end Request

/-! ### Requests to a naming server -/

/-- Nothing fails. -/
def fairConditions (X : Xdr) : Conditions X where
  get := true
  eqAlloc := true
  meAttach := true
  mdAttach := true
  put := true
  encodes _ := true
  encodes_void := rfl
  fetched := lwfsOk

/-- The header of a request of the client, with arguments of four bytes. -/
def wordHeader (opcode : Opcode) (fetchArgs : Bool) : RequestHeader where
  id := 1
  opcode := opcode
  fetchArgs := fetchArgs
  argsAddr := ⟨⟨wordClient.self, longArgsPtIndex, 0, 1, 4⟩, 0⟩
  dataAddr := Addr.zero
  resAddr := wordClient.resAddr

/-- The arguments of a lookup. -/
def wordArgs : Value wordXdr :=
  ⟨.lookupArgs, 7, XdrProc.noConfusion⟩

def wordRequest (opcode : Opcode) (fetchArgs : Bool) : List UInt8 :=
  xdrRequestHeader.encode (wordHeader opcode fetchArgs) ++ wordArgs.encode

theorem decode_wordRequest (opcode : Opcode) (fetchArgs : Bool) :
    xdrRequestHeader.decode (wordRequest opcode fetchArgs) =
      some (wordHeader opcode fetchArgs, wordArgs.encode) := by
  unfold wordRequest
  exact xdrRequestHeader.decode_append (wordHeader opcode fetchArgs)
    wordArgs.encode

theorem finds_lookup (fetchArgs : Bool) :
    Server.Finds wordServer (wordHeader opLookup fetchArgs) lookupOp :=
  ⟨find_supportedOps (by decide : lookupOp ∈ Host.naming.supportedOps), by decide⟩

theorem decodeArgs_wordArgs :
    decodeArgs lookupOp wordArgs.encode = .ok (some wordArgs) := by
  have hdecode : (wordXdr.codec .lookupArgs).decode wordArgs.encode =
      some (wordArgs.2, []) := Codec.decode_encode wordArgs.2
  show Except.ok (((wordXdr.codec .lookupArgs).decode wordArgs.encode).map _) = _
  rw [hdecode]
  rfl

theorem answered_lookup :
    Answered (fairConditions wordXdr) wordServer noNetwork wordClient.self
      (wordHeader opLookup false) wordArgs.encode
      (processRequest (fairConditions wordXdr) wordServer noNetwork
        wordClient.self (wordRequest opLookup false)) := by
  have hsendable : Sendable (fairConditions wordXdr) wordClient.resAddr
      (replyValue (X := wordXdr) ⟨.lwfsNsEntry, 0, fun _ => rfl⟩ lwfsOk) :=
    ⟨by decide, by decide, rfl, rfl, .inr ⟨rfl, rfl, rfl⟩⟩
  exact (answered_iff_answerable (decode_wordRequest opLookup false)).mpr
    ⟨lookupOp, wordArgs, by decide, finds_lookup false,
      .inl ⟨_, .inl ⟨rfl, rfl⟩, decodeArgs_wordArgs⟩, by decide, by decide,
      hsendable⟩

/-- `LWFS_OP_CREATE_ACL` is an operation of the clients that no server offers. -/
theorem not_answered_createAcl :
    xdrRequestHeader.decode (wordRequest opCreateAcl false) =
        some (wordHeader opCreateAcl false, wordArgs.encode) ∧
      ¬ Answered (fairConditions wordXdr) wordServer noNetwork wordClient.self
        (wordHeader opCreateAcl false) wordArgs.encode
        (processRequest (fairConditions wordXdr) wordServer noNetwork
          wordClient.self (wordRequest opCreateAcl false)) := by
  have hdecode := decode_wordRequest opCreateAcl false
  have hunknown : wordServer.host.supportedOps.find?
      (fun op => op.opcode = opCreateAcl) = none := by decide
  refine ⟨hdecode, fun h => ?_⟩
  obtain ⟨op, v, hop⟩ := exists_answerable hdecode h
  have hfound : wordServer.host.supportedOps.find?
      (fun op => op.opcode = opCreateAcl) = some op := hop.found.find
  rw [hunknown] at hfound
  cases hfound

/-- The client's long arguments cannot be fetched, and the lookup is made with
zeros. -/
theorem not_runsOnSupplied_lookup :
    ¬ RunsOnSupplied (fairConditions wordXdr) wordServer noNetwork
      wordClient.self (wordRequest opLookup true) := by
  intro h
  have hfetchable := fetchable_of_runsOnSupplied
    (decode_wordRequest opLookup true) h
  obtain ⟨bytes, hbytes, -⟩ := hfetchable rfl (by decide) lookupOp
    (finds_lookup true) (by decide)
  cases hbytes

end Lwfs.Rpc.Service
