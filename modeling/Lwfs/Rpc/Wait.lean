import Lwfs.Rpc.Types

/-!
Waiting for the short result of a remote call: `process_result`,
`cleanup_long_args` and `lwfs_waitany` for one request with no time limit,
which is what `lwfs_wait` calls.

What the network does is a parameter. `timedwait_ok` says what a successful
wait means: the request was already over, or a result header arrived, and the
code that the wait hands back is the code in that header.
-/

namespace Lwfs.Rpc

/-- The types of a Portals event that the two loops tell apart. -/
inductive PtlEvent
  | putStart
  | putEnd
  | getStart
  | getEnd
  | unlink
  | other
  deriving DecidableEq

/-- What one call of `lwfs_ptl_eq_poll` comes back with. A failing call may
or may not have stored the index of a queue. -/
inductive Poll
  | event (type : PtlEvent)
  | failed (code : ReturnCode) (which : Bool)
  deriving DecidableEq

/-- What happens around one call. A list of polls that runs out stands for a
queue on which nothing more arrives. -/
structure Trip (R : Type) where
  /-- The return code of `lwfs_call_rpc`. -/
  callRpc : Rc
  /-- The queue of the short result. -/
  polls : List Poll
  /-- The header in the short result, if the bytes decode. -/
  header : Option ResultHeader
  /-- Decoding the result, in the short result or after fetching it. -/
  decodeResult : ResultHeader → Except ReturnCode R
  /-- The queue of the long arguments, if the call has them. -/
  argsPolls : Option (List Poll)
  /-- Whether each of the queues and descriptors can be released. -/
  freeArgsEq : Bool
  freeShortResEq : Bool
  releaseData : Bool

variable {R : Type}

/-! ### The result -/

/-- The length in a result header, as a `uint32_t`. -/
def ResultHeader.resultSize (header : ResultHeader) : UInt32 :=
  header.resultAddr.len.toUInt32

/-- `process_result`: the request it leaves and the code it returns. -/
def processResult (header : Option ResultHeader)
    (decodeResult : ResultHeader → Except ReturnCode R) (request : Request R) :
    Request R × Rc :=
  let request := { request with status := .processingResult }
  match header with
  | none => (request, rcOf .errDecode)
  | some header =>
      if header.rc ≠ lwfsOk then
        ({ request with status := .requestError, errorCode := header.rc },
          lwfsOk)
      else if 0 < header.resultSize then
        match decodeResult header with
        | .error code => (request, rcOf code)
        | .ok result =>
            ({ request with status := .requestComplete, result }, lwfsOk)
      else ({ request with status := .requestComplete }, lwfsOk)

/-! ### Waiting for three events -/

/-- The flags `got_..._start`, `got_..._end` and `got_unlink`. -/
structure Got where
  gotStart : Bool
  gotEnd : Bool
  gotUnlink : Bool

def Got.none : Got := ⟨false, false, false⟩

def Got.done (got : Got) : Bool := got.gotStart && got.gotEnd && got.gotUnlink

/-- The `switch` of `lwfs_waitany`. -/
def Got.notePut (got : Got) : PtlEvent → Option Got
  | .putStart => some { got with gotStart := true }
  | .putEnd => some { got with gotEnd := true }
  | .unlink => some { got with gotUnlink := true }
  | _ => Option.none

/-- The `switch` of `cleanup_long_args`. -/
def Got.noteGet (got : Got) : PtlEvent → Option Got
  | .getStart => some { got with gotStart := true }
  | .getEnd => some { got with gotEnd := true }
  | .unlink => some { got with gotUnlink := true }
  | _ => Option.none

/-- How a loop over the events of a queue ends. -/
inductive Awaited
  | received
  | unexpected
  | failed (code : ReturnCode) (which : Bool)
  | silent

/-- The loop: `which` says whether the index of the queue is known. -/
def await (note : Got → PtlEvent → Option Got) (which : Bool) (got : Got) :
    List Poll → Awaited
  | [] => .silent
  | .failed code stored :: _ => .failed code (which || stored)
  | .event type :: polls =>
      match note got type with
      | none => .unexpected
      | some got => if got.done then .received else await note true got polls

/-- `cleanup_long_args`. -/
def cleanupLongArgs (trip : Trip R) : Except Fault Rc :=
  match trip.argsPolls with
  | none => .ok lwfsOk
  | some polls =>
      let freed (rc : Rc) := if trip.freeArgsEq then rc else rcOf .errRpc
      match await Got.noteGet true Got.none polls with
      | .received => .ok (freed lwfsOk)
      | .unexpected => .ok (freed (rcOf .errRpc))
      | .failed code _ => .ok (rcOf code)
      | .silent => .error .hang

/-! ### `lwfs_waitany` -/

/-- What `lwfs_wait` leaves: the request, `*remote_rc`, and the code it
returns. -/
structure Waited (R : Type) where
  request : Request R
  remoteRc : Rc
  rc : Rc

/-- From the label `complete`. Any status but the two final ones is an
error. -/
def complete (request : Request R) (remoteRc : Rc) : Waited R :=
  match request.status with
  | .requestError => ⟨request, request.errorCode, lwfsOk⟩
  | .requestComplete => ⟨request, lwfsOk, lwfsOk⟩
  | _ => ⟨request, remoteRc, rcOf .errRpc⟩

/-- From the label `free_req_eq`. It forgets the code of a failed poll. -/
def freeReqEq (trip : Trip R) (request : Request R) (remoteRc : Rc) :
    Waited R :=
  if ¬ trip.freeShortResEq then ⟨request, remoteRc, rcOf .errRpc⟩
  else if ¬ trip.releaseData then ⟨request, remoteRc, rcOf .errRpc⟩
  else complete request remoteRc

/-- `lwfs_wait`, that is `lwfs_waitany` with one request. A poll that fails
before the index is known leaves the index at `-1`, and the array is read
there. -/
def wait (trip : Trip R) (request : Request R) (remoteRc : Rc) :
    Except Fault (Waited R) :=
  if request.status ≠ .processingRequest then .ok (complete request remoteRc)
  else
    match await Got.notePut false Got.none trip.polls with
    | .silent => .error .hang
    | .unexpected => .ok ⟨request, remoteRc, rcOf .errRpc⟩
    | .failed _ false => .error .badPointer
    | .failed _ true => .ok (freeReqEq trip request remoteRc)
    | .received =>
        let (request, rc) :=
          processResult trip.header trip.decodeResult request
        if rc ≠ lwfsOk then .ok ⟨request, remoteRc, rc⟩
        else
          match cleanupLongArgs trip with
          | .error fault => .error fault
          | .ok rc =>
              if rc ≠ lwfsOk then .ok ⟨request, remoteRc, rcOf .errRpc⟩
              else .ok (freeReqEq trip request remoteRc)

/-- The request that `lwfs_call_rpc` leaves. -/
def sent (trip : Trip R) (result : R) : Request R where
  status :=
    if trip.callRpc = lwfsOk then .processingRequest else .sendingRequest
  errorCode := lwfsOk
  result := result

theorem status_sent {trip : Trip R} (h : trip.callRpc = lwfsOk) (result : R) :
    (sent trip result).status = .processingRequest := if_pos h

/-! ### What a successful wait means -/

/-- `process_result` gives up on the result, or it leaves one of the two final
statuses and `complete` hands back the code that the header carries. -/
theorem complete_processResult {header : Option ResultHeader}
    {decodeResult : ResultHeader → Except ReturnCode R} {request : Request R}
    (hrc : (processResult header decodeResult request).2 = lwfsOk)
    (remoteRc : Rc) :
    ∃ h, header = some h ∧
      complete (processResult header decodeResult request).1 remoteRc =
        ⟨(processResult header decodeResult request).1, h.rc, lwfsOk⟩ := by
  cases header with
  | none => exact absurd hrc (rcOf_ne_ok .errDecode)
  | some h =>
      refine ⟨h, rfl, ?_⟩
      unfold processResult at hrc ⊢
      by_cases hcode : h.rc = lwfsOk
      · simp only [hcode, ne_eq, not_true_eq_false, if_false] at hrc ⊢
        by_cases hsize : 0 < h.resultSize
        · simp only [hsize, if_true] at hrc ⊢
          cases hdecode : decodeResult h with
          | error code =>
              rw [hdecode] at hrc
              exact absurd hrc (rcOf_ne_ok code)
          | ok result => rfl
        · simp only [hsize, if_false, complete]
      · simp only [hcode, ne_eq, not_false_eq_true, if_true, complete]

/-- A request that is over stays over: waiting for it once more gives the
same. -/
theorem wait_of_complete {trip : Trip R} {request : Request R}
    {remoteRc : Rc} (h : (complete request remoteRc).rc = lwfsOk)
    (remoteRc' : Rc) :
    wait trip request remoteRc' = .ok (complete request remoteRc) := by
  unfold complete at h
  unfold wait complete
  cases hstatus : request.status <;> rw [hstatus] at h
  case requestError => rfl
  case requestComplete => rfl
  all_goals exact absurd h (rcOf_ne_ok .errRpc)

theorem freeReqEq_of_ok {trip : Trip R} {request : Request R} {remoteRc : Rc}
    (h : (freeReqEq trip request remoteRc).rc = lwfsOk) :
    freeReqEq trip request remoteRc = complete request remoteRc := by
  unfold freeReqEq at h ⊢
  split at h
  · exact absurd h (rcOf_ne_ok .errRpc)
  · split at h
    · exact absurd h (rcOf_ne_ok .errRpc)
    · simp_all

/-- The call went out, and the wait for it hands back a code: a result header
came in, and it carries that code. -/
theorem wait_sent {trip : Trip R} {result : R} {remoteRc : Rc}
    {waited : Waited R} (h : wait trip (sent trip result) remoteRc = .ok waited)
    (hrc : waited.rc = lwfsOk) :
    trip.callRpc = lwfsOk ∧
      ∃ header, trip.header = some header ∧ waited.remoteRc = header.rc := by
  by_cases hcall : trip.callRpc = lwfsOk
  · refine ⟨hcall, ?_⟩
    have hstatus := status_sent hcall result
    simp only [wait, hstatus, ne_eq, not_true_eq_false, if_false] at h
    split at h
    · cases h
    · cases h
      exact absurd hrc (rcOf_ne_ok .errRpc)
    · cases h
    · -- The poll failed: the request is still in progress, which `complete`
      -- takes for an error.
      cases h
      rw [freeReqEq_of_ok hrc] at hrc
      simp only [complete, hstatus] at hrc
      exact absurd hrc (rcOf_ne_ok .errRpc)
    · split at h
      · rename_i hprocess
        cases h
        exact absurd hrc hprocess
      · rename_i hprocess
        split at h
        · cases h
        · split at h
          · cases h
            exact absurd hrc (rcOf_ne_ok .errRpc)
          · cases h
            obtain ⟨header, hheader, hcomplete⟩ :=
              complete_processResult (not_not.mp hprocess) remoteRc
            rw [freeReqEq_of_ok hrc, hcomplete]
            exact ⟨header, hheader, rfl⟩
  · have hstatus : (sent trip result).status = .sendingRequest :=
      if_neg hcall
    simp only [wait, hstatus, ne_eq, reduceCtorEq, not_false_eq_true,
      if_true] at h
    cases h
    simp only [complete, hstatus] at hrc
    exact absurd hrc (rcOf_ne_ok .errRpc)

/-! ### A call that nothing disturbs -/

/-- The events of the short result arrive, those of the long arguments too if
there are any, and everything can be released. -/
structure Trip.Undisturbed (trip : Trip R) : Prop where
  polls : trip.polls = [.event .putStart, .event .putEnd, .event .unlink]
  argsPolls : ∀ polls ∈ trip.argsPolls,
    polls = [.event .getStart, .event .getEnd, .event .unlink]
  freeArgsEq : trip.freeArgsEq = true
  freeShortResEq : trip.freeShortResEq = true
  releaseData : trip.releaseData = true

theorem cleanupLongArgs_of_undisturbed {trip : Trip R} (h : trip.Undisturbed) :
    cleanupLongArgs trip = .ok lwfsOk := by
  unfold cleanupLongArgs
  cases hargs : trip.argsPolls with
  | none => rfl
  | some polls =>
      rw [h.argsPolls polls hargs, h.freeArgsEq]
      rfl

/-- The wait then does what `process_result` and `complete` do. -/
theorem wait_of_undisturbed {trip : Trip R} (h : trip.Undisturbed)
    {request : Request R} (hstatus : request.status = .processingRequest)
    (hprocess :
      (processResult trip.header trip.decodeResult request).2 = lwfsOk)
    (remoteRc : Rc) :
    wait trip request remoteRc =
      .ok (complete (processResult trip.header trip.decodeResult request).1
        remoteRc) := by
  have hawait : await Got.notePut false Got.none trip.polls = .received := by
    rw [h.polls]
    rfl
  have hfree : ∀ request, freeReqEq trip request remoteRc =
      complete request remoteRc := by
    intro request
    unfold freeReqEq
    rw [h.freeShortResEq, h.releaseData]
    rfl
  unfold wait
  rw [if_neg (not_not.mpr hstatus), hawait]
  show (if (processResult trip.header trip.decodeResult request).2 ≠ lwfsOk
    then _ else _) = _
  rw [if_neg (not_not.mpr hprocess), cleanupLongArgs_of_undisturbed h]
  exact congrArg Except.ok (hfree _)

/-- The request goes out, the short result comes in with this header, and
everything can be released. -/
def Trip.prompt (header : ResultHeader) : Trip Unit where
  callRpc := lwfsOk
  polls := [.event .putStart, .event .putEnd, .event .unlink]
  header := some header
  decodeResult := fun _ => .ok ()
  argsPolls := none
  freeArgsEq := true
  freeShortResEq := true
  releaseData := true

/-- Waiting for such a call hands back the code in the header. -/
theorem wait_prompt (header : ResultHeader) (remoteRc : Rc) :
    ∃ request, complete request remoteRc = ⟨request, header.rc, lwfsOk⟩ ∧
      wait (Trip.prompt header) (sent (Trip.prompt header) ()) remoteRc =
        .ok ⟨request, header.rc, lwfsOk⟩ := by
  have hprocess : (processResult (some header) (fun _ => .ok ())
      (sent (Trip.prompt header) ())).2 = lwfsOk := by
    unfold processResult
    by_cases hcode : header.rc = lwfsOk
    · by_cases hsize : 0 < header.resultSize
      · simp only [hcode, hsize, ne_eq, not_true_eq_false, if_false, if_true]
      · simp only [hcode, hsize, ne_eq, not_true_eq_false, if_false]
    · simp only [hcode, ne_eq, not_false_eq_true, if_true]
  have hundisturbed : (Trip.prompt header).Undisturbed :=
    ⟨rfl, nofun, rfl, rfl, rfl⟩
  have hcall : (Trip.prompt header).callRpc = lwfsOk := rfl
  have hstatus := status_sent hcall ()
  have hwait := wait_of_undisturbed hundisturbed hstatus hprocess remoteRc
  obtain ⟨_, hheader, hcomplete⟩ := complete_processResult hprocess remoteRc
  cases hheader
  exact ⟨_, hcomplete, hwait.trans (congrArg Except.ok hcomplete)⟩

end Lwfs.Rpc
