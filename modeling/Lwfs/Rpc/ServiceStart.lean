import Lwfs.Lib.Image
import Lwfs.Lib.Run
import Mathlib.Data.List.Range
import Mathlib.Data.Int.Order.Basic

/-!
`lwfs_service_start`: how requests come from the network to `process_request`.

The network writes each message behind the one before in one of two buffers,
and posts an event when it begins and one when it is done. The server takes
the events one by one and hands each message on, either to `process_request`
or to the thread pool. When a buffer has taken as many messages as it may, and
the server has seen all of them, the network begins again at its front.

The queue of events has room for the messages of one buffer at one event each,
and an event that finds it full is dropped. Nothing keeps the network from
writing over a message that a worker has still to read, and the buffers are
freed before the workers are waited for. `served_exec` says that nothing else
can go wrong.
-/

namespace Lwfs.Rpc.ServiceStart

open SysLib

/-- `NUM_QUEUES`. -/
abbrev Queue := Fin 2

/-- `reqs_per_queue`. -/
def reqsPerQueue : ℕ := 10000

/-- What a service is started with. -/
structure Args where
  maxReqs : Int32
  useThreads : Bool
  /-- `svc->req_addr.len`, which the servers set to 512. -/
  reqSize : ℕ

/-- A message in a buffer. The serial number and the bytes that the client has
sent are not in the source. -/
structure Deposit where
  serial : ℕ
  queue : Queue
  offset : ℕ
  bytes : List UInt8
  deriving DecidableEq

/-- `PTL_EVENT_PUT_START` and `PTL_EVENT_PUT_END`. -/
inductive Event
  | putStart (q : Queue)
  | putEnd (d : Deposit)
  deriving DecidableEq

/-- What the network has of a memory descriptor: the number of messages it has
taken, and where the next one goes. -/
structure Md where
  taken : ℕ
  localOffset : ℕ

/-- Where the server is. -/
inductive Phase
  /-- At the head of the loop, or in `lwfs_ptl_eq_wait`. -/
  | waiting
  /-- In `process_request`, which the server has called itself. -/
  | processing (d : Deposit)
  /-- Where it looks whether the queue has to be reset. -/
  | counted (q : Queue)
  /-- Behind the loop, and the buffers are freed. -/
  | left
  deriving DecidableEq

structure State where
  md : Queue → Md
  reqQueue : Queue → List UInt8
  /-- Messages between their two events. -/
  inFlight : List Deposit
  events : List Event
  queueCount : Queue → ℕ
  reqCount : ℕ
  phase : Phase
  /-- The requests in the pool, and those that a worker has got. -/
  pool : List Deposit
  busy : List Deposit
  /-- The messages that have arrived, and those that `process_request` was
  called with. -/
  arrived : ℕ
  handed : List ℕ

def State.start (args : Args) : State where
  md _ := ⟨0, 0⟩
  reqQueue _ := List.replicate (reqsPerQueue * args.reqSize) 0
  inFlight := []
  events := []
  queueCount _ := 0
  reqCount := 0
  phase := .waiting
  pool := []
  busy := []
  arrived := 0
  handed := []

/-! ### The network -/

/-- The descriptor takes the message. -/
def Accepts (args : Args) (s : State) (q : Queue) (bytes : List UInt8) : Prop :=
  s.phase ≠ .left ∧ (s.md q).taken < reqsPerQueue ∧ bytes.length ≤ args.reqSize ∧
    (s.md q).localOffset + args.reqSize ≤ reqsPerQueue * args.reqSize

instance (args : Args) (s : State) (q : Queue) (bytes : List UInt8) :
    Decidable (Accepts args s q bytes) :=
  inferInstanceAs (Decidable (_ ∧ _))

/-- An event that finds the queue full is dropped. The next poll says so, and
`lwfs_ptl_eq_poll` takes that for a success. -/
def State.post (s : State) (e : Event) : List Event :=
  if s.events.length < reqsPerQueue then s.events ++ [e] else s.events

/-- The message that comes next to a queue. -/
def State.deposit (s : State) (q : Queue) (bytes : List UInt8) : Deposit :=
  ⟨s.arrived, q, (s.md q).localOffset, bytes⟩

/-- The descriptor with the message. -/
def State.take (s : State) (q : Queue) (bytes : List UInt8) : State :=
  { s with
    md := Function.update s.md q
      ⟨(s.md q).taken + 1, (s.md q).localOffset + bytes.length⟩
    reqQueue := Function.update s.reqQueue q
      (Image.write 0 (s.reqQueue q) (s.md q).localOffset bytes)
    inFlight := s.deposit q bytes :: s.inFlight
    events := s.post (.putStart q)
    arrived := s.arrived + 1 }

def putStart (args : Args) (s : State) (q : Queue) (bytes : List UInt8) : State :=
  if Accepts args s q bytes then s.take q bytes else s

def putEnd (s : State) (d : Deposit) : State :=
  if s.phase ≠ .left ∧ d ∈ s.inFlight then
    { s with inFlight := s.inFlight.erase d, events := s.post (.putEnd d) }
  else s

/-! ### The server -/

/-- `svc->max_reqs` requests have been received. -/
def MaxReached (args : Args) (s : State) : Prop :=
  0 ≤ args.maxReqs ∧ args.maxReqs.toInt ≤ s.reqCount

instance (args : Args) (s : State) : Decidable (MaxReached args s) :=
  inferInstanceAs (Decidable (_ ∧ _))

/-- A request is received. -/
def receive (args : Args) (s : State) (d : Deposit) (events : List Event) :
    State :=
  let t :=
    { s with
      events
      reqCount := s.reqCount + 1
      queueCount :=
        Function.update s.queueCount d.queue (s.queueCount d.queue + 1) }
  if args.useThreads then
    -- `lwfs_thread_pool_add_request`
    { t with pool := s.pool ++ [d], phase := .counted d.queue }
  else { t with handed := s.handed ++ [d.serial], phase := .processing d }

/-- `lwfs_ptl_eq_wait` returns an event. Only the end of a message counts. -/
def eqWait (args : Args) (s : State) : State :=
  if s.phase = .waiting ∧ ¬ MaxReached args s then
    match s.events with
    | [] => s
    | .putStart _ :: events => { s with events }
    | .putEnd d :: events => receive args s d events
  else s

/-- `process_request` returns to the server. -/
def processed (s : State) : State :=
  match s.phase with
  | .processing d => { s with phase := .counted d.queue }
  | _ => s

/-- The end of the loop, with the descriptor attached anew. -/
def resetQueue (s : State) : State :=
  match s.phase with
  | .counted q =>
      if reqsPerQueue ≤ s.queueCount q then
        { s with
          md := Function.update s.md q ⟨0, 0⟩
          queueCount := Function.update s.queueCount q 0
          phase := .waiting }
      else { s with phase := .waiting }
  | _ => s

/-- The server leaves the loop. -/
def Leaves (args : Args) (s : State) (exitNow : Bool) : Prop :=
  s.phase = .waiting ∧ (exitNow = true ∨ MaxReached args s)

instance (args : Args) (s : State) (exitNow : Bool) :
    Decidable (Leaves args s exitNow) :=
  inferInstanceAs (Decidable (_ ∧ _))

/-- The buffers are freed, and hold what they then happen to hold. -/
def cleanup (args : Args) (s : State) (exitNow : Bool)
    (freed : Queue → List UInt8) : State :=
  if Leaves args s exitNow then { s with reqQueue := freed, phase := .left }
  else s

/-! ### The workers -/

/-- `get_request`, after which the worker calls `process_request`. Once
`lwfs_exit_now` holds the workers stop, and here they may go on. -/
def getRequest (s : State) : State :=
  match s.pool with
  | [] => s
  | d :: pool =>
      { s with pool, busy := d :: s.busy, handed := s.handed ++ [d.serial] }

/-- A worker has decoded a request. -/
def decoded (s : State) (d : Deposit) : State :=
  { s with busy := s.busy.erase d }

/-! ### The system -/

inductive Action
  | putStart (q : Queue) (bytes : List UInt8)
  | putEnd (d : Deposit)
  | eqWait
  | processed
  | resetQueue
  | cleanup (exitNow : Bool) (freed : Queue → List UInt8)
  | getRequest
  | decoded (d : Deposit)

def step (args : Args) (s : State) : Action → State
  | .putStart q bytes => ServiceStart.putStart args s q bytes
  | .putEnd d => ServiceStart.putEnd s d
  | .eqWait => ServiceStart.eqWait args s
  | .processed => ServiceStart.processed s
  | .resetQueue => ServiceStart.resetQueue s
  | .cleanup exitNow freed => ServiceStart.cleanup args s exitNow freed
  | .getRequest => ServiceStart.getRequest s
  | .decoded d => ServiceStart.decoded s d

def Event.ended : Event → Option Deposit
  | .putStart _ => none
  | .putEnd d => some d

/-- The messages whose end has been posted and not been seen. -/
def State.ended (s : State) : List Deposit := s.events.filterMap Event.ended

/-- The messages that the server has not seen. -/
def State.unseen (s : State) : List Deposit := s.inFlight ++ s.ended

/-- The request that the server itself is at. -/
def State.direct (s : State) : List Deposit :=
  match s.phase with
  | .processing d => [d]
  | _ => []

/-- The requests that the workers have still to decode. -/
def State.pooled (s : State) : List Deposit := s.pool ++ s.busy

/-- What stands where a message has been put. -/
def State.read (s : State) (d : Deposit) : List UInt8 :=
  Image.read (s.reqQueue d.queue) d.offset d.bytes.length

/-- Two messages have no byte of a buffer in common. -/
def Apart (d e : Deposit) : Prop :=
  d.queue ≠ e.queue ∨ d.offset + d.bytes.length ≤ e.offset ∨
    e.offset + e.bytes.length ≤ d.offset

instance (d e : Deposit) : Decidable (Apart d e) :=
  inferInstanceAs (Decidable (_ ∨ _))

/-- No end of a message is dropped, no message is put where a worker has still
to read one, and the server leaves nothing behind when it leaves the loop. -/
def Undisturbed (args : Args) (s : State) : Action → Prop
  | .putStart q bytes => Accepts args s q bytes →
      ∀ d ∈ s.pooled, Apart d (s.deposit q bytes)
  | .putEnd d => d ∈ s.inFlight → s.events.length < reqsPerQueue
  | .cleanup exitNow _ => Leaves args s exitNow →
      s.unseen = [] ∧ ∀ d ∈ s.pooled, d.bytes = []
  | _ => True

instance (args : Args) (s : State) :
    (action : Action) → Decidable (Undisturbed args s action)
  | .putStart _ _ => inferInstanceAs (Decidable (_ → ∀ d ∈ s.pooled, _))
  | .putEnd _ => inferInstanceAs (Decidable (_ → _))
  | .cleanup _ _ => inferInstanceAs (Decidable (_ → _ ∧ ∀ d ∈ s.pooled, _))
  | .eqWait | .processed | .resetQueue | .getRequest | .decoded _ =>
      inferInstanceAs (Decidable True)

/-- A step that brings no new message and does not leave the loop. -/
def Action.Serves : Action → Prop
  | .putStart _ _ | .cleanup _ _ => False
  | _ => True

/-- Every message that has been put in a buffer has been handed on once, or
will be, and what is still to be read stands in its buffer. -/
structure Served (args : Args) (s : State) : Prop where
  once : ((s.unseen ++ s.pool).map Deposit.serial ++ s.handed).Perm
    (List.range s.arrived)
  finished : s.phase = .left → s.unseen = []
  intact : ∀ d ∈ s.pooled ++ s.direct, s.read d = d.bytes
  /-- With no further message, and none beyond `svc->max_reqs`, the server and
  the workers can come to the end of their work. -/
  completes : s.phase = .left ∨ args.maxReqs < 0 ∨
      (s.arrived : ℤ) ≤ args.maxReqs.toInt →
    ∃ rest,
      Run.Along (step args) (fun t a => a.Serves ∧ Undisturbed args t a) s rest ∧
        (Run.exec (step args) s rest).handed.Perm (List.range s.arrived)

/-! ### The invariant -/

/-- What stands in the buffers and in the queues at every step. -/
structure Sound (s : State) : Prop where
  once : ((s.unseen ++ s.pool).map Deposit.serial ++ s.handed).Perm
    (List.range s.arrived)
  finished : s.phase = .left → s.unseen = []
  intact : ∀ d ∈ s.unseen ++ s.pooled ++ s.direct, s.read d = d.bytes
  /-- The next message goes behind those that the server is still to see. -/
  below : s.phase ≠ .left → ∀ d ∈ s.unseen ++ s.direct,
    d.offset + d.bytes.length ≤ (s.md d.queue).localOffset
  /-- A descriptor has taken the messages that the server has counted, and
  those that it has not seen. -/
  counted : s.phase ≠ .left → ∀ q,
    (s.md q).taken = s.queueCount q + s.unseen.countP (·.queue = q)
  taken_le : ∀ q, (s.md q).taken ≤ reqsPerQueue
  received : s.phase ≠ .left → s.reqCount + s.unseen.length = s.arrived

theorem sound_start (args : Args) : Sound (State.start args) where
  once := List.Perm.refl _
  finished h := by simp [State.start] at h
  intact d hd := by simp [State.start, State.unseen, State.ended, State.pooled,
    State.direct] at hd
  below _ d hd := by simp [State.start, State.unseen, State.ended,
    State.direct] at hd
  counted _ q := rfl
  taken_le q := Nat.zero_le _
  received _ := rfl

variable {args : Args} {s : State}

/-! #### The network -/

@[simp] theorem unseen_take (s : State) (q : Queue) (bytes : List UInt8) :
    (s.take q bytes).unseen = s.deposit q bytes :: s.unseen := by
  rw [State.unseen, State.unseen, State.ended, State.ended]
  simp only [State.take, State.post]
  split
  · simp [Event.ended]
  · rfl

@[simp] theorem pooled_take (s : State) (q : Queue) (bytes : List UInt8) :
    (s.take q bytes).pooled = s.pooled := rfl

@[simp] theorem direct_take (s : State) (q : Queue) (bytes : List UInt8) :
    (s.take q bytes).direct = s.direct := rfl

/-- What a message is apart from is left standing. -/
theorem read_take_of_apart {d : Deposit} {q : Queue} {bytes : List UInt8}
    (hapart : Apart d (s.deposit q bytes)) (hd : s.read d = d.bytes) :
    (s.take q bytes).read d = d.bytes := by
  simp only [State.read, State.take] at hd ⊢
  by_cases hq : d.queue = q
  · subst hq
    rw [Function.update_self]
    apply Image.read_write_of_apart 0 _ hd
    simpa [Apart, State.deposit] using hapart
  · rw [Function.update_of_ne hq]
    exact hd

namespace Sound

theorem apart (h : Sound s) (hphase : s.phase ≠ .left) {d : Deposit}
    (hd : d ∈ s.unseen ++ s.direct) (q : Queue) (bytes : List UInt8) :
    Apart d (s.deposit q bytes) := by
  by_cases hq : d.queue = q
  · subst hq
    exact .inr (.inl (h.below hphase d hd))
  · exact .inl hq

theorem read_take (h : Sound s) (hphase : s.phase ≠ .left) {q : Queue}
    {bytes : List UInt8}
    (hpool : ∀ d ∈ s.pooled, Apart d (s.deposit q bytes)) {d : Deposit}
    (hd : d ∈ s.deposit q bytes :: s.unseen ++ s.pooled ++ s.direct) :
    (s.take q bytes).read d = d.bytes := by
  simp only [List.cons_append, List.mem_cons] at hd
  obtain rfl | hd := hd
  · simp only [State.read, State.take, State.deposit, Function.update_self]
    exact Image.read_write_self 0 _ _ _
  · have hapart : Apart d (s.deposit q bytes) := by
      simp only [List.mem_append] at hd
      -- only what a worker has to read may be where the message goes
      obtain (hd | hd) | hd := hd
      · exact h.apart hphase (List.mem_append_left _ hd) q bytes
      · exact hpool d hd
      · exact h.apart hphase (List.mem_append_right _ hd) q bytes
    exact read_take_of_apart hapart (h.intact d hd)

theorem take (h : Sound s) (hphase : s.phase ≠ .left) {q : Queue}
    {bytes : List UInt8} (hroom : (s.md q).taken < reqsPerQueue)
    (hpool : ∀ d ∈ s.pooled, Apart d (s.deposit q bytes)) :
    Sound (s.take q bytes) where
  once := by
    rw [unseen_take]
    show (_ :: _).Perm (List.range (s.arrived + 1))
    rw [List.range_succ]
    exact (h.once.cons s.arrived).trans (List.perm_append_singleton _ _).symm
  finished hleft := absurd hleft hphase
  intact d hd := by
    rw [unseen_take] at hd
    exact h.read_take hphase hpool hd
  below _ d hd := by
    show _ ≤ (Function.update s.md q _ d.queue).localOffset
    simp only [unseen_take, direct_take, List.cons_append, List.mem_cons] at hd
    obtain rfl | hd := hd
    · simp [State.deposit]
    · have hle := h.below hphase d hd
      by_cases hq : d.queue = q
      · subst hq
        simp only [Function.update_self]
        omega
      · rw [Function.update_of_ne hq]
        exact hle
  counted _ q' := by
    show (Function.update s.md q _ q').taken = s.queueCount q' + _
    rw [unseen_take, List.countP_cons]
    have hcounted := h.counted hphase q'
    by_cases hq : q' = q
    · subst hq
      simp [State.deposit]
      omega
    · rw [Function.update_of_ne hq]
      simp [State.deposit, Ne.symm hq]
      omega
  taken_le q' := by
    show (Function.update s.md q _ q').taken ≤ _
    by_cases hq : q' = q
    · subst hq
      simp only [Function.update_self]
      omega
    · rw [Function.update_of_ne hq]
      exact h.taken_le q'
  received _ := by
    show s.reqCount + _ = s.arrived + 1
    have hreceived := h.received hphase
    simp only [unseen_take, List.length_cons]
    omega

/-- Messages and events may move as long as the server is still to see the same
messages. -/
theorem relist (h : Sound s) {inFlight : List Deposit} {events : List Event}
    (hperm : (inFlight ++ events.filterMap Event.ended).Perm s.unseen) :
    Sound { s with inFlight, events } where
  once := (((hperm.append_right s.pool).map _).append_right s.handed).trans h.once
  finished hleft := (h.finished hleft ▸ hperm).eq_nil
  intact d hd := h.intact d
    (((hperm.append_right s.pooled).append_right s.direct).mem_iff.mp hd)
  below hphase d hd := h.below hphase d ((hperm.append_right s.direct).mem_iff.mp hd)
  counted hphase q :=
    (h.counted hphase q).trans (congrArg _ (hperm.countP_eq _).symm)
  taken_le := h.taken_le
  received hphase :=
    (congrArg (s.reqCount + ·) hperm.length_eq).trans (h.received hphase)

theorem putEnd (h : Sound s) {d : Deposit}
    (hroom : d ∈ s.inFlight → s.events.length < reqsPerQueue) :
    Sound (putEnd s d) := by
  rw [ServiceStart.putEnd]
  split
  case isFalse => exact h
  case isTrue hd =>
    apply h.relist
    rw [State.post, if_pos (hroom hd.2), List.filterMap_append]
    show (s.inFlight.erase d ++ (s.ended ++ [d])).Perm (s.inFlight ++ s.ended)
    rw [← List.append_assoc]
    refine (List.perm_append_singleton d _).trans ?_
    exact (List.perm_cons_erase hd.2).symm.append_right s.ended

/-- A message that the server has seen goes to the pool or to the server. -/
theorem hand (h : Sound s) (hphase : s.phase = .waiting) {d : Deposit}
    {events : List Event} (hevents : s.events = .putEnd d :: events) {t : State}
    (ht : t = { s with
      events
      reqCount := s.reqCount + 1
      queueCount := Function.update s.queueCount d.queue (s.queueCount d.queue + 1)
      pool := t.pool
      handed := t.handed
      phase := t.phase })
    (hleft : t.phase ≠ .left)
    (hmoved : (t.pool.map Deposit.serial ++ t.handed).Perm
      (d.serial :: (s.pool.map Deposit.serial ++ s.handed)))
    (hkept : ∀ e ∈ t.pooled ++ t.direct, e = d ∨ e ∈ s.pooled)
    (hdirect : ∀ e ∈ t.direct, e = d) : Sound t := by
  have hnot : s.phase ≠ .left := by simp [hphase]
  have hseen : s.unseen.Perm (d :: t.unseen) := by
    rw [State.unseen, State.ended, hevents, ht]
    exact List.perm_middle
  have hmd : t.md = s.md := by
    rw [ht]
  have hreq : t.reqCount = s.reqCount + 1 := by
    rw [ht]
  have hcount : t.queueCount =
      Function.update s.queueCount d.queue (s.queueCount d.queue + 1) := by
    rw [ht]
  have harrived : t.arrived = s.arrived := by
    rw [ht]
  have hread : t.read = s.read := by
    ext e
    rw [ht]
    rfl
  refine ⟨?_, fun hl => absurd hl hleft, ?_, fun _ => ?_, fun _ => ?_, ?_,
    fun _ => ?_⟩
  -- each message once: it leaves the unseen and joins the pool or the handled
  · rw [harrived]
    refine List.Perm.trans ?_ h.once
    have hfrom := ((hseen.append_right s.pool).map Deposit.serial).append_right
      s.handed
    refine List.Perm.trans ?_ hfrom.symm
    simp only [List.map_append, List.map_cons, List.cons_append, List.append_assoc]
    exact (hmoved.append_left _).trans List.perm_middle
  · intro e he
    rw [hread]
    apply h.intact
    have hd : d ∈ s.unseen := hseen.mem_iff.mpr List.mem_cons_self
    rw [List.append_assoc, List.mem_append] at he
    simp only [List.append_assoc, List.mem_append]
    obtain he | he := he
    · exact .inl (hseen.mem_iff.mpr (List.mem_cons_of_mem d he))
    · obtain rfl | he := hkept e he
      · exact .inl hd
      · exact .inr (.inl he)
  · intro e he
    rw [hmd]
    apply h.below hnot
    apply List.mem_append_left
    apply hseen.mem_iff.mpr
    obtain he | he := List.mem_append.mp he
    · exact List.mem_cons_of_mem d he
    · rw [hdirect e he]
      exact List.mem_cons_self
  · intro q
    -- only the queue of the message counts one more
    have hcounted := h.counted hnot q
    rw [hseen.countP_eq, List.countP_cons] at hcounted
    rw [hmd, hcounted, hcount]
    by_cases hq : q = d.queue
    · subst hq
      simp
      omega
    · simp [Function.update_of_ne hq, Ne.symm hq]
  · rw [hmd]
    exact h.taken_le
  · have hreceived := h.received hnot
    rw [hseen.length_eq, List.length_cons] at hreceived
    rw [hreq, harrived]
    omega

theorem receive (h : Sound s) (hphase : s.phase = .waiting) {d : Deposit}
    {events : List Event} (hevents : s.events = .putEnd d :: events) :
    Sound (receive args s d events) := by
  rw [ServiceStart.receive]
  split
  case isTrue =>
    refine h.hand hphase hevents rfl (by simp) ?_ ?_ ?_
    · rw [List.map_append, List.append_assoc]
      exact List.perm_middle
    · intro e he
      simp only [State.pooled, State.direct, List.append_nil, List.mem_append,
        List.mem_singleton] at he ⊢
      obtain (he | he) | he := he
      · exact .inr (.inl he)
      · exact .inl he
      · exact .inr (.inr he)
    · intro e he
      simp [State.direct] at he
  case isFalse =>
    refine h.hand hphase hevents rfl (by simp) ?_ ?_ ?_
    · show (s.pool.map _ ++ (s.handed ++ [d.serial])).Perm _
      rw [← List.append_assoc]
      exact List.perm_append_singleton _ _
    · intro e he
      obtain he | he := List.mem_append.mp he
      · exact .inr he
      · exact .inl (List.mem_singleton.mp he)
    · intro e he
      exact List.mem_singleton.mp he

theorem eqWait (h : Sound s) : Sound (eqWait args s) := by
  rw [ServiceStart.eqWait]
  split
  case isFalse => exact h
  case isTrue hphase =>
    split
    case h_1 => exact h
    case h_2 q events hevents =>
      have hsame : s.inFlight ++ events.filterMap Event.ended = s.unseen := by
        rw [State.unseen, State.ended, hevents]
        rfl
      exact h.relist (.of_eq hsame)
    case h_3 d events hevents => exact h.receive hphase.1 hevents

/-- The server goes on, with nothing in its own hands. -/
theorem move (h : Sound s) {phase : Phase} (hleft : s.phase ≠ .left)
    (hphase : phase ≠ .left)
    (hdirect : State.direct { s with phase } = []) : Sound { s with phase } where
  once := h.once
  finished hl := absurd hl hphase
  intact d hd := by
    rw [hdirect, List.append_nil] at hd
    exact h.intact d (List.mem_append_left _ hd)
  below _ d hd := by
    rw [hdirect, List.append_nil] at hd
    exact h.below hleft d (List.mem_append_left _ hd)
  counted _ := h.counted hleft
  taken_le := h.taken_le
  received _ := h.received hleft

theorem processed (h : Sound s) : Sound (processed s) := by
  rw [ServiceStart.processed]
  split
  case h_1 d hphase => exact h.move (by simp [hphase]) (by simp) rfl
  case h_2 => exact h

/-- When the server has counted all that a descriptor may take, there is
nothing of it that it is still to see. -/
theorem ne_of_full (h : Sound s) (hleft : s.phase ≠ .left) {q : Queue}
    (hfull : reqsPerQueue ≤ s.queueCount q) {d : Deposit} (hd : d ∈ s.unseen) :
    d.queue ≠ q := by
  have hcounted := h.counted hleft q
  have htaken := h.taken_le q
  have hzero : s.unseen.countP (·.queue = q) = 0 := by omega
  simpa using List.countP_eq_zero.mp hzero d hd

theorem reattach (h : Sound s) {q : Queue} (hphase : s.phase = .counted q)
    (hfull : reqsPerQueue ≤ s.queueCount q) :
    Sound { s with
      md := Function.update s.md q ⟨0, 0⟩
      queueCount := Function.update s.queueCount q 0
      phase := .waiting } := by
  have hleft : s.phase ≠ .left := by simp [hphase]
  refine ⟨h.once, fun hl => absurd hl (by simp), ?_, fun _ => ?_, fun _ => ?_,
    ?_, fun _ => h.received hleft⟩
  · intro d hd
    change d ∈ s.unseen ++ s.pooled ++ [] at hd
    rw [List.append_nil] at hd
    exact h.intact d (List.mem_append_left _ hd)
  · intro d hd
    change d ∈ s.unseen ++ [] at hd
    rw [List.append_nil] at hd
    show _ ≤ (Function.update s.md q _ d.queue).localOffset
    rw [Function.update_of_ne (h.ne_of_full hleft hfull hd)]
    exact h.below hleft d (List.mem_append_left _ hd)
  · intro q'
    show (Function.update s.md q _ q').taken =
      Function.update s.queueCount q 0 q' + s.unseen.countP _
    by_cases hq : q' = q
    · subst hq
      simp only [Function.update_self]
      symm
      rw [Nat.zero_add, List.countP_eq_zero]
      intro d hd
      simpa using h.ne_of_full hleft hfull hd
    · rw [Function.update_of_ne hq, Function.update_of_ne hq]
      exact h.counted hleft q'
  · intro q'
    show (Function.update s.md q _ q').taken ≤ _
    by_cases hq : q' = q
    · subst hq
      simp only [Function.update_self]
      omega
    · rw [Function.update_of_ne hq]
      exact h.taken_le q'

theorem resetQueue (h : Sound s) : Sound (resetQueue s) := by
  rw [ServiceStart.resetQueue]
  split
  case h_1 q hphase =>
    split
    case isTrue hfull => exact h.reattach hphase hfull
    case isFalse => exact h.move (by simp [hphase]) (by simp) rfl
  case h_2 => exact h

theorem cleanup (h : Sound s) {exitNow : Bool} {freed : Queue → List UInt8}
    (hleaves : Leaves args s exitNow →
      s.unseen = [] ∧ ∀ d ∈ s.pooled, d.bytes = []) :
    Sound (cleanup args s exitNow freed) := by
  rw [ServiceStart.cleanup]
  split
  case isFalse => exact h
  case isTrue hl =>
    obtain ⟨hunseen, hpooled⟩ := hleaves hl
    refine ⟨h.once, fun _ => hunseen, ?_, fun hn => absurd rfl hn,
      fun hn => absurd rfl hn, h.taken_le, fun hn => absurd rfl hn⟩
    intro d hd
    change d ∈ s.unseen ++ s.pooled ++ [] at hd
    rw [List.append_nil, hunseen, List.nil_append] at hd
    rw [State.read, hpooled d hd]
    rfl

/-! #### The workers -/

theorem getRequest (h : Sound s) : Sound (getRequest s) := by
  rw [ServiceStart.getRequest]
  split
  case h_1 => exact h
  case h_2 d pool hpool =>
    refine ⟨?_, h.finished, ?_, h.below, h.counted, h.taken_le, h.received⟩
    · show ((s.unseen ++ pool).map Deposit.serial ++
        (s.handed ++ [d.serial])).Perm (List.range s.arrived)
      refine List.Perm.trans ?_ h.once
      rw [hpool, List.map_append, List.map_append, List.map_cons,
        List.append_assoc, List.append_assoc, ← List.append_assoc _ s.handed]
      exact (List.perm_append_singleton _ _).append_left _
    · intro e he
      apply h.intact
      simp only [State.pooled, hpool] at he ⊢
      refine (((List.Perm.append_left _ ?_).append_right _).mem_iff).mp he
      exact List.perm_middle

theorem decoded (h : Sound s) (d : Deposit) : Sound (decoded s d) where
  once := h.once
  finished := h.finished
  intact e he := by
    apply h.intact
    simp only [State.pooled, ServiceStart.decoded, List.mem_append] at he ⊢
    obtain (he | he | he) | he := he
    · exact .inl (.inl he)
    · exact .inl (.inr (.inl he))
    · exact .inl (.inr (.inr (List.mem_of_mem_erase he)))
    · exact .inr he
  below := h.below
  counted := h.counted
  taken_le := h.taken_le
  received := h.received

/-- What nothing disturbs keeps the invariant. -/
theorem step (h : Sound s) {action : Action} (hu : Undisturbed args s action) :
    Sound (step args s action) := by
  cases action with
  | putStart q bytes =>
      show Sound (ServiceStart.putStart args s q bytes)
      rw [ServiceStart.putStart]
      split
      case isTrue haccepts =>
        exact h.take haccepts.1 haccepts.2.1 (hu haccepts)
      case isFalse => exact h
  | putEnd d => exact h.putEnd hu
  | eqWait => exact h.eqWait
  | processed => exact h.processed
  | resetQueue => exact h.resetQueue
  | cleanup exitNow freed => exact h.cleanup hu
  | getRequest => exact h.getRequest
  | decoded d => exact h.decoded d

end Sound

/-! ### The end of the work -/

/-- How many steps the server and the workers are from it. -/
def State.work (s : State) : ℕ :=
  4 * s.inFlight.length + 3 * s.events.length + s.pool.length +
    match s.phase with
    | .processing _ => 2
    | .counted _ => 1
    | _ => 0

/-- No more than `svc->max_reqs` messages have arrived. -/
def Expected (args : Args) (s : State) : Prop :=
  args.maxReqs < 0 ∨ (s.arrived : ℤ) ≤ args.maxReqs.toInt

theorem Sound.not_maxReached (h : Sound s) (hleft : s.phase ≠ .left)
    (hexpected : Expected args s) (hunseen : s.unseen ≠ []) :
    ¬ MaxReached args s := by
  rintro ⟨hpos, hmax⟩
  have hreceived := h.received hleft
  have hsome := List.length_pos_iff.mpr hunseen
  obtain hneg | hle := hexpected
  · exact Int32.not_lt.mpr hpos hneg
  · omega

theorem work_getRequest (hpool : s.pool ≠ []) :
    (getRequest s).work < s.work := by
  rw [getRequest]
  split
  case h_1 hnil => exact absurd hnil hpool
  case h_2 d pool hcons =>
    simp only [State.work, hcons, List.length_cons]
    omega

theorem work_putEnd (hleft : s.phase ≠ .left) (hnil : s.events = [])
    {d : Deposit} (hd : d ∈ s.inFlight) : (putEnd s d).work < s.work := by
  have hpos := List.length_pos_of_mem hd
  rw [putEnd, if_pos ⟨hleft, hd⟩]
  simp only [State.work, State.post, hnil, List.length_nil, List.length_erase,
    if_pos hd]
  simp [reqsPerQueue]
  omega

theorem work_eqWait (hphase : s.phase = .waiting) (hmax : ¬ MaxReached args s)
    (hevents : s.events ≠ []) : (eqWait args s).work < s.work := by
  rw [eqWait, if_pos ⟨hphase, hmax⟩]
  split
  case h_1 hnil => exact absurd hnil hevents
  case h_2 q events hcons =>
    simp only [State.work, hcons, List.length_cons]
    omega
  case h_3 d events hcons =>
    simp only [receive, State.work, hcons, hphase]
    split <;> simp <;> omega

/-- A step that serves brings no message, and the server stays outside the loop
if it has left it. -/
theorem step_of_serves {action : Action} (hserves : action.Serves) :
    (step args s action).arrived = s.arrived ∧
      (s.phase = .left → (step args s action).phase = .left) := by
  cases action with
  | putStart q bytes => exact hserves.elim
  | putEnd d =>
      simp only [step, putEnd]
      split <;> exact ⟨rfl, id⟩
  | eqWait =>
      simp only [step, eqWait]
      split
      case isTrue hphase =>
        split
        · exact ⟨rfl, id⟩
        · exact ⟨rfl, id⟩
        · refine ⟨?_, fun hleft => by simp [hphase.1] at hleft⟩
          simp only [receive]
          split <;> rfl
      case isFalse => exact ⟨rfl, id⟩
  | processed =>
      simp only [step, processed]
      split
      case h_1 d hphase => exact ⟨rfl, fun hleft => by simp [hphase] at hleft⟩
      case h_2 => exact ⟨rfl, id⟩
  | resetQueue =>
      simp only [step, resetQueue]
      split
      case h_1 q hphase =>
        refine ⟨?_, fun hleft => by simp [hphase] at hleft⟩
        split <;> rfl
      case h_2 => exact ⟨rfl, id⟩
  | cleanup exitNow freed => exact hserves.elim
  | getRequest =>
      simp only [step, getRequest]
      split <;> exact ⟨rfl, id⟩
  | decoded d => exact ⟨rfl, id⟩

/-- As long as there is work, somebody can do some of it. -/
theorem Sound.exists_serving (h : Sound s)
    (hexpected : s.phase ≠ .left → Expected args s)
    (hwork : ¬ (s.unseen = [] ∧ s.pool = [])) :
    ∃ action : Action, (action.Serves ∧ Undisturbed args s action) ∧
      (ServiceStart.step args s action).work < s.work := by
  have hpool (hunseen : s.unseen = []) : ∃ action : Action,
      (action.Serves ∧ Undisturbed args s action) ∧
        (ServiceStart.step args s action).work < s.work := by
    refine ⟨.getRequest, ⟨trivial, trivial⟩, work_getRequest ?_⟩
    intro hnil
    exact hwork ⟨hunseen, hnil⟩
  cases hphase : s.phase with
  | left => exact hpool (h.finished hphase)
  | processing d =>
      refine ⟨.processed, ⟨trivial, trivial⟩, ?_⟩
      simp only [ServiceStart.step, ServiceStart.processed, hphase, State.work]
      omega
  | counted q =>
      refine ⟨.resetQueue, ⟨trivial, trivial⟩, ?_⟩
      simp only [ServiceStart.step, ServiceStart.resetQueue, hphase, State.work]
      split <;> simp
  | waiting =>
      have hleft : s.phase ≠ .left := by simp [hphase]
      by_cases hunseen : s.unseen = []
      · exact hpool hunseen
      · by_cases hevents : s.events = []
        · -- some message is between its two events
          have hflight : s.inFlight ≠ [] := by
            rw [State.unseen, State.ended, hevents] at hunseen
            simpa using hunseen
          obtain ⟨d, hd⟩ := List.exists_mem_of_ne_nil _ hflight
          refine ⟨.putEnd d, ⟨trivial, fun _ => ?_⟩, work_putEnd hleft hevents hd⟩
          simp [hevents, reqsPerQueue]
        · refine ⟨.eqWait, ⟨trivial, trivial⟩, work_eqWait hphase ?_ hevents⟩
          exact h.not_maxReached hleft (hexpected hleft) hunseen

theorem Sound.completes (h : Sound s)
    (hexpected : s.phase ≠ .left → Expected args s) :
    ∃ rest,
      Run.Along (ServiceStart.step args)
        (fun t a => a.Serves ∧ Undisturbed args t a) s rest ∧
      (Run.exec (ServiceStart.step args) s rest).handed.Perm
        (List.range s.arrived) := by
  have hstep : ∀ t : State, Sound t ∧ t.arrived = s.arrived ∧
      (t.phase ≠ .left → Expected args t) → ¬ (t.unseen = [] ∧ t.pool = []) →
      ∃ action : Action, (action.Serves ∧ Undisturbed args t action) ∧
        (Sound (ServiceStart.step args t action) ∧
          (ServiceStart.step args t action).arrived = s.arrived ∧
          ((ServiceStart.step args t action).phase ≠ .left →
            Expected args (ServiceStart.step args t action))) ∧
        (ServiceStart.step args t action).work < t.work := by
    rintro t ⟨ht, harrived, hexpected⟩ hwork
    obtain ⟨action, haction, hless⟩ := ht.exists_serving hexpected hwork
    obtain ⟨hsame, hstays⟩ := @step_of_serves args t action haction.1
    refine ⟨action, haction, ⟨ht.step haction.2, hsame.trans harrived, ?_⟩, hless⟩
    intro hleft
    rw [Expected, hsame]
    exact hexpected fun hl => hleft (hstays hl)
  obtain ⟨rest, hrest, ⟨hsound, harrived, -⟩, hunseen, hpool⟩ :=
    Run.exists_exec_of_measure State.work hstep ⟨h, rfl, hexpected⟩
  refine ⟨rest, hrest, ?_⟩
  have honce := hsound.once
  rw [hunseen, hpool, harrived] at honce
  exact honce

/-- In every run that nothing disturbs, with the pool or without, over any
number of resets and up to the exit, no request is lost or handed on twice, and
each is read as it was sent. -/
theorem served_exec (args : Args) (run : List Action)
    (hrun : Run.Along (step args) (Undisturbed args) (State.start args) run) :
    Served args (Run.exec (step args) (State.start args) run) := by
  have hsound : Sound (Run.exec (step args) (State.start args) run) :=
    Run.exec_invariant (fun _ _ h hu => h.step hu) (sound_start args) hrun
  refine ⟨hsound.once, hsound.finished, ?_, ?_⟩
  · intro d hd
    apply hsound.intact
    rw [List.append_assoc]
    exact List.mem_append_right _ hd
  · intro hend
    exact hsound.completes hend.resolve_left

/-- A service with a pool that ends after one request. -/
def soleArgs : Args := ⟨1, true, 512⟩

def soleRequest : Deposit := ⟨0, 0, 0, [7]⟩

/-- The request comes, and the server adds it to the pool. -/
def soleArrival : List Action :=
  [.putStart 0 [7], .putEnd soleRequest, .eqWait, .eqWait, .resetQueue]

/-- A worker is done with it before the buffers are freed. -/
def inTime : List Action :=
  soleArrival ++ [.getRequest, .decoded soleRequest, .cleanup false fun _ => [0]]

theorem served_exec_inTime : Served soleArgs
    (Run.exec (step soleArgs) (State.start soleArgs) inTime) :=
  served_exec soleArgs inTime (by decide +kernel)

/-- A worker gets it after that. -/
def tooLate : List Action :=
  soleArrival ++ [.cleanup false fun _ => [0], .getRequest]

/-- The server frees the buffers before it waits for the workers, and one of
them reads what is left of its request. -/
theorem not_served_tooLate : ¬ Served soleArgs
    (Run.exec (step soleArgs) (State.start soleArgs) tooLate) := by
  intro h
  have hread := h.intact soleRequest (by decide +kernel)
  revert hread
  decide +kernel

end Lwfs.Rpc.ServiceStart
