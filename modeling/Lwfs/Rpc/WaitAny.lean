import Lwfs.Rpc.EqPoll
import Lwfs.Rpc.Wait

/-!
`lwfs_waitany` with a time limit, over an array of requests and what they hold:
the event queue and the buffer of the short result, the descriptor and the
event queue of the data.

A wait that comes to nothing leaves through the code that releases the queue of
a request that is complete. So it never hands back `LWFS_ERR_TIMEDOUT`, and it
takes the queue of a pending request away or reads the array where it has no
entry (`not_unharmed_of_noResult`).
-/

namespace Lwfs.Rpc

variable {R : Type}

/-- A request of the array, and what of its resources is still there. -/
structure Slot (R : Type) where
  request : Request R
  hasData : Bool
  shortResEq : Bool
  shortResBuf : Bool
  dataMd : Bool
  dataEq : Bool

/-- What happens to one request: the header and the result in its short result,
the long arguments, and whether each resource can be released. -/
structure Completion (R : Type) where
  header : Option ResultHeader
  decodeResult : ResultHeader → Except ReturnCode R
  argsPolls : Option (List Poll)
  freeArgsEq : Bool
  freeShortResEq : Bool
  unlinkData : Bool
  freeDataEq : Bool

/-- The parts of a wait that are the same for one request and for many. -/
def Completion.trip (completion : Completion R) : Trip R where
  callRpc := lwfsOk
  polls := []
  header := completion.header
  decodeResult := completion.decodeResult
  argsPolls := completion.argsPolls
  freeArgsEq := completion.freeArgsEq
  freeShortResEq := completion.freeShortResEq
  releaseData := completion.unlinkData && completion.freeDataEq

/-- What `lwfs_waitany` leaves: the array, `*which`, `*remote_rc`, and the code it
returns. `readOutside` is a read of the array where it has no entry. -/
inductive WaitEnd (R : Type)
  | returned (slots : List (Slot R)) (which : ℤ) (remoteRc rc : Rc)
  | readOutside
  | hang

/-! ### The events -/

/-- The type of an event, and the index of the queue it came from. -/
structure QueueEvent where
  type : PtlEvent
  queue : ℕ
  deriving DecidableEq

/-- How the wait for the three events of a short result ends. -/
inductive Short
  | received (queue : ℕ)
  | unexpected (which : ℤ)
  | failed (which : ℤ)

section Code

variable (rounds : Rounds QueueEvent) (ptlEqEmpty : Rc) (timeout : Int32)

/-- The loop. The first event says which queue the later calls wait on, and
`left` is what a call that fails before that leaves in `*which`. -/
def awaitShort (left : ℤ) :
    ℕ → ℕ → Option ℕ → Got → Event QueueEvent → Option Short
  | 0, _, _, _, _ => none
  | fuel + 1, n, which, got, event =>
      (lwfsPtlEqPoll (rounds.drop n) ptlEqEmpty timeout event (fuel + 1)).bind
        fun polled =>
          if polled.rc ≠ lwfsOk then
            some (.failed (which.elim left fun i => (i : ℤ)))
          else
            let queue := which.getD polled.event.type.queue
            (got.notePut polled.event.type.type).elim
              (some (.unexpected queue)) fun got =>
                if got.done then some (.received queue)
                else
                  awaitShort left fuel (n + polled.polls) (some queue) got
                    polled.event

end Code

/-! ### The requests -/

section Slots

variable (completion : ℕ → Completion R) (slots : List (Slot R))

/-- From the label `complete`, for the request at `i`. -/
def completeAt (i : ℕ) (slot : Slot R) (remoteRc : Rc) : WaitEnd R :=
  let waited := complete slot.request remoteRc
  .returned (slots.set i slot) i waited.remoteRc waited.rc

/-- From the label `free_req_eq`, for the request at `i`. -/
def freeReqEqAt (i : ℕ) (slot : Slot R) (remoteRc : Rc) : WaitEnd R :=
  if ¬ (completion i).freeShortResEq then
    .returned (slots.set i slot) i remoteRc (rcOf .errRpc)
  else
    let slot := { slot with shortResEq := false }
    if ¬ slot.hasData then completeAt slots i slot remoteRc
    else if ¬ (completion i).unlinkData then
      .returned (slots.set i slot) i remoteRc (rcOf .errRpc)
    else
      let slot := { slot with dataMd := false }
      if ¬ (completion i).freeDataEq then
        .returned (slots.set i slot) i remoteRc (rcOf .errRpc)
      else completeAt slots i { slot with dataEq := false } remoteRc

/-- The short result of the request at `i` is there. -/
def resultAt (i : ℕ) (slot : Slot R) (remoteRc : Rc) : WaitEnd R :=
  let processed := processResult (completion i).header (completion i).decodeResult
    slot.request
  let slot := { slot with request := processed.1 }
  if processed.2 ≠ lwfsOk then
    .returned (slots.set i slot) i remoteRc processed.2
  else
    let slot := { slot with shortResBuf := false }
    match cleanupLongArgs (completion i).trip with
    | .error _ => .hang
    | .ok rc =>
        if rc ≠ lwfsOk then
          .returned (slots.set i slot) i remoteRc (rcOf .errRpc)
        else freeReqEqAt completion slots i slot remoteRc

/-- A use of `req_array[*which]`. -/
def atIndex (which : ℤ) (use : ℕ → Slot R → WaitEnd R) : WaitEnd R :=
  if which < 0 then .readOutside
  else (slots[which.toNat]?).elim .readOutside (use which.toNat)

/-- `lwfs_waitany`. A request that is over is not waited for. -/
def lwfsWaitany (rounds : Rounds QueueEvent) (ptlEqEmpty : Rc) (timeout : Int32)
    (event : Event QueueEvent) (left : ℤ) (remoteRc : Rc) (fuel : ℕ) :
    Option (WaitEnd R) :=
  match slots.findIdx? fun slot => slot.request.status ≠ .processingRequest with
  | some i => some (atIndex slots i fun i slot => completeAt slots i slot remoteRc)
  | none =>
      (awaitShort rounds ptlEqEmpty timeout left fuel 0 none Got.none event).map
        fun
        | .received i => atIndex slots i fun i slot =>
            resultAt completion slots i slot remoteRc
        | .unexpected which => .returned slots which remoteRc (rcOf .errRpc)
        | .failed which => atIndex slots which fun i slot =>
            freeReqEqAt completion slots i slot remoteRc

/-- `lwfs_timedwait`. -/
def lwfsTimedwait (completion : Completion R) (slot : Slot R)
    (rounds : Rounds QueueEvent) (ptlEqEmpty : Rc) (timeout : Int32)
    (event : Event QueueEvent) (left : ℤ) (remoteRc : Rc) (fuel : ℕ) :
    Option (WaitEnd R) :=
  lwfsWaitany (fun _ => completion) [slot] rounds ptlEqEmpty timeout event left
    remoteRc fuel

end Slots

/-! ### A wait that comes to nothing -/

/-- The wait says that time is up, and the array is as it was. -/
def Unharmed (slots : List (Slot R)) (ended : WaitEnd R) : Prop :=
  ∃ which remoteRc, ended = .returned slots which remoteRc (rcOf .errTimedout)

/-- The three events of a result do not all arrive within the time limits of the
calls that wait for them. -/
def NoResult (rounds : Rounds QueueEvent) (ptlEqEmpty : Rc) (timeout : Int32)
    (event : Event QueueEvent) (left : ℤ) : Prop :=
  ∀ fuel queue,
    awaitShort rounds ptlEqEmpty timeout left fuel 0 none Got.none event ≠
      some (.received queue)

section Proofs

variable {completion : ℕ → Completion R} {slots : List (Slot R)} {i : ℕ}
  {slot : Slot R} {remoteRc : Rc}

/-- A return with `LWFS_ERR_RPC` hides what happened. -/
theorem not_unharmed_of_errRpc {slots' : List (Slot R)} {which : ℤ} :
    ¬ Unharmed slots (.returned slots' which remoteRc (rcOf .errRpc)) := by
  rintro ⟨which', remoteRc', h⟩
  injection h with _ _ _ hrc
  exact absurd hrc.symm (by decide)

theorem completeAt_of_pending {slots' : List (Slot R)}
    (h : slot.request.status = .processingRequest) :
    ¬ Unharmed slots (completeAt slots' i slot remoteRc) := by
  simp only [completeAt, complete, h]
  exact not_unharmed_of_errRpc

theorem freeReqEqAt_of_pending (h : slot.request.status = .processingRequest) :
    ¬ Unharmed slots (freeReqEqAt completion slots i slot remoteRc) := by
  simp only [freeReqEqAt]
  split_ifs
  · exact completeAt_of_pending h
  · exact not_unharmed_of_errRpc
  · exact not_unharmed_of_errRpc
  · exact completeAt_of_pending h
  · exact not_unharmed_of_errRpc

theorem atIndex_cases (slots : List (Slot R)) (which : ℤ)
    (use : ℕ → Slot R → WaitEnd R) :
    atIndex slots which use = .readOutside ∨
      ∃ i slot, slot ∈ slots ∧ atIndex slots which use = use i slot := by
  unfold atIndex
  split_ifs with hneg
  · exact .inl rfl
  · cases hget : slots[which.toNat]? with
    | none => exact .inl rfl
    | some slot => exact .inr ⟨_, slot, List.mem_of_getElem? hget, rfl⟩

end Proofs

/-- The loop was left with no result: the array is read outside, or the code says
that the transport failed. -/
theorem not_unharmed_waitany (completion : ℕ → Completion R)
    {slots : List (Slot R)}
    (hpending : ∀ slot ∈ slots, slot.request.status = .processingRequest)
    {rounds : Rounds QueueEvent} {ptlEqEmpty : Rc} {timeout : Int32}
    {event : Event QueueEvent} {left : ℤ}
    (hnone : NoResult rounds ptlEqEmpty timeout event left) (remoteRc : Rc) :
    ¬ ∃ fuel ended, lwfsWaitany completion slots rounds ptlEqEmpty timeout event
      left remoteRc fuel = some ended ∧ Unharmed slots ended := by
  rintro ⟨fuel, ended, hcall, hunharmed⟩
  have hall : slots.findIdx?
      (fun slot => slot.request.status ≠ .processingRequest) = none := by
    rw [List.findIdx?_eq_none_iff]
    intro slot hslot
    simp [hpending slot hslot]
  unfold lwfsWaitany at hcall
  rw [hall] at hcall
  obtain ⟨short, hawait, rfl⟩ := Option.map_eq_some_iff.mp hcall
  cases short with
  | received queue => exact hnone fuel queue hawait
  | unexpected which => exact not_unharmed_of_errRpc hunharmed
  | failed which =>
      have hunharmed : Unharmed slots (atIndex slots which fun i slot =>
        freeReqEqAt completion slots i slot remoteRc) := hunharmed
      rcases atIndex_cases slots which fun i slot =>
        freeReqEqAt completion slots i slot remoteRc with
        hout | ⟨i, slot, hslot, huse⟩
      · obtain ⟨which', remoteRc', h⟩ := hunharmed
        cases hout.symm.trans h
      · rw [huse] at hunharmed
        exact freeReqEqAt_of_pending (hpending slot hslot) hunharmed

/-- A wait for pending requests that comes to nothing, for all of them or for one,
never says that time is up and leaves them alone. -/
theorem not_unharmed_of_noResult (completion : ℕ → Completion R)
    {slots : List (Slot R)}
    (hpending : ∀ slot ∈ slots, slot.request.status = .processingRequest)
    {rounds : Rounds QueueEvent} {ptlEqEmpty : Rc} {timeout : Int32}
    {event : Event QueueEvent} {left : ℤ}
    (hnone : NoResult rounds ptlEqEmpty timeout event left) (remoteRc : Rc) :
    (¬ ∃ fuel ended, lwfsWaitany completion slots rounds ptlEqEmpty timeout event
        left remoteRc fuel = some ended ∧ Unharmed slots ended) ∧
      ∀ slot ∈ slots, ∀ i, ¬ ∃ fuel ended,
        lwfsTimedwait (completion i) slot rounds ptlEqEmpty timeout event left
          remoteRc fuel = some ended ∧ Unharmed [slot] ended := by
  refine ⟨not_unharmed_waitany completion hpending hnone remoteRc,
    fun slot hslot i => ?_⟩
  refine not_unharmed_waitany (fun _ => completion i) ?_ hnone remoteRc
  exact List.forall_mem_singleton.mpr (hpending slot hslot)

section Example

/-- A request on its way, with no data. -/
def pendingSlot : Slot Unit where
  request := ⟨.processingRequest, 0, ()⟩
  hasData := false
  shortResEq := true
  shortResBuf := true
  dataMd := false
  dataEq := false

/-- Everything can be released. -/
def completion : Completion Unit where
  header := none
  decodeResult := fun _ => .ok ()
  argsPolls := none
  freeArgsEq := true
  freeShortResEq := true
  unlinkData := true
  freeDataEq := true

/-- Nothing, or the first event of a result and then nothing. -/
def startRounds (started : Bool) : Rounds QueueEvent where
  exitBefore := fun _ => false
  poll := fun n =>
    if started ∧ n = 0 then .event ⟨⟨.putStart, 0⟩, false⟩ else .empty
  exitAfter := fun _ => false

theorem noResult_silent :
    NoResult (startRounds false) 16 100 ⟨⟨.other, 0⟩, false⟩ (-1) := by
  rintro (_ | fuel) queue h
  · cases h
  · have hfailed : awaitShort (startRounds false) 16 100 (-1) (fuel + 1) 0 none
        Got.none ⟨⟨.other, 0⟩, false⟩ = some (.failed (-1)) := rfl
    cases hfailed.symm.trans h

theorem not_unharmed_of_noResult_silent :
    ¬ ∃ fuel ended, lwfsWaitany (fun _ => completion) [pendingSlot]
      (startRounds false) 16 100 ⟨⟨.other, 0⟩, false⟩ (-1) lwfsOk fuel =
        some ended ∧ Unharmed [pendingSlot] ended :=
  (not_unharmed_of_noResult (fun _ => completion)
    (List.forall_mem_singleton.mpr rfl) noResult_silent lwfsOk).1

/-- With no event at all the array is read at `-1`. With the first one the queue
of the pending request is released. -/
theorem not_unharmed_one :
    NoResult (startRounds false) 16 100 ⟨⟨.other, 0⟩, false⟩ (-1) ∧
      lwfsWaitany (fun _ => completion) [pendingSlot] (startRounds false) 16 100
          ⟨⟨.other, 0⟩, false⟩ (-1) lwfsOk 1 =
        some .readOutside ∧
      lwfsWaitany (fun _ => completion) [pendingSlot] (startRounds true) 16 100
          ⟨⟨.other, 0⟩, false⟩ (-1) lwfsOk 2 =
        some (.returned [{ pendingSlot with shortResEq := false }] 0 lwfsOk
          (rcOf .errRpc)) :=
  ⟨noResult_silent, rfl, rfl⟩

end Example

end Lwfs.Rpc
