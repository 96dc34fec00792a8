import Lwfs.Lib.LinkedList
import Lwfs.Lib.Run
import Mathlib.Algebra.Group.Int.Defs
import Mathlib.Algebra.Group.Nat.Defs

/-!
The thread pool: a queue of requests, workers that take them off and call
their handlers, callers of `lwfs_thread_pool_add_request`, and
`lwfs_thread_pool_fini`.

The pool is a system that takes one small step after the other. What runs
under the mutex of the pool is one step, and the mutex is recursive, so a
worker's look at the queue is one step from `pthread_mutex_lock` to the
unlock or to the wait. The list of handler threads has no lock: there every
read and write of the list is a step. A worker that waits on the condition variable may wake up
at any time, which allows for every order of signals, lost and spurious ones.

A null pointer that is followed, and an assertion that fails, end the program.
A step that would do this is not taken.
-/

namespace Lwfs.Support.ThreadPool

open SysLib LinkedList

/-! ### Sizes -/

/-- `lwfs_thread_pool_args`. -/
structure Args where
  initialThreadCount : Int32
  minThreadCount : Int32
  maxThreadCount : Int32
  lowWatermark : Int32
  highWatermark : Int32

def minHandlerThreads : Int32 := 3
def maxHandlerThreads : Int32 := 14
def lowWatermarkDefault : Int32 := 3
def highWatermarkDefault : Int32 := 15

/-- What `lwfs_thread_pool_init` makes of the sizes it is given. -/
def Args.checked (args : Args) : Args :=
  let minThreadCount :=
    if args.minThreadCount < 1 then minHandlerThreads else args.minThreadCount
  let maxThreadCount :=
    if args.maxThreadCount < minThreadCount then
      minThreadCount + (maxHandlerThreads - minHandlerThreads)
    else args.maxThreadCount
  let initialThreadCount :=
    if args.initialThreadCount < minThreadCount then minThreadCount
    else if maxThreadCount < args.initialThreadCount then maxThreadCount
    else args.initialThreadCount
  let lowWatermark :=
    if args.lowWatermark < 1 then lowWatermarkDefault else args.lowWatermark
  let highWatermark :=
    if args.highWatermark < lowWatermark then
      lowWatermark + (highWatermarkDefault - lowWatermarkDefault)
    else args.highWatermark
  { initialThreadCount, minThreadCount, maxThreadCount, lowWatermark,
    highWatermark }

/-! ### The queue of requests -/

/-- `struct lwfs_thread_pool_request`: the handler with the client's data. The
serial number is not in the source, it tells one request from another. -/
structure Request (J : Type) where
  serial : ℕ
  job : J
  deriving DecidableEq

/-- `struct requests_queue`, with the requests that are allocated. -/
structure RequestsQueue (J : Type) where
  heap : Store ℕ (Request J)
  requests : Option ℕ
  lastRequest : Option ℕ
  numRequests : Int32

variable {J : Type}

def initRequestsQueue : RequestsQueue J where
  heap := fun _ => none
  requests := none
  lastRequest := none
  numRequests := 0

/-- `add_request`, for a request that `calloc` has put at `a`. -/
def addRequest (queue : RequestsQueue J) (a : ℕ) (request : Request J) :
    Option (RequestsQueue J) :=
  let heap := Function.update queue.heap a (some ⟨request, none⟩)
  (hang (queue.numRequests = 0) heap queue.requests queue.lastRequest a).map
    fun p =>
      { heap := p.1
        requests := p.2
        lastRequest := some a
        numRequests := queue.numRequests + 1 }

/-- `get_request`. There is no request in a queue that counts none. -/
def getRequest (queue : RequestsQueue J) :
    Option (Option (ℕ × Request J) × RequestsQueue J) :=
  if 0 < queue.numRequests then
    queue.requests.bind fun a => (queue.heap a).map fun node =>
      (some (a, node.value),
        { queue with
          requests := node.next
          lastRequest := if node.next.isNone then none else queue.lastRequest
          numRequests := queue.numRequests - 1 })
  else some (none, queue)

/-! ### What the queue does

`Holds` relates the queue to the requests it holds in order. The count is a
signed integer, so a queue can hold fewer than `2 ^ 31` of them. -/

theorem toInt_add_one {n : Int32} (h : n.toInt + 1 < 2 ^ 31) :
    (n + 1).toInt = n.toInt + 1 := by
  have hle := n.le_toInt
  rw [Int32.toInt_add, Int32.toInt_one]
  exact Int.bmod_eq_of_le (by omega) (by omega)

theorem toInt_sub_one {n : Int32} (h : 0 < n.toInt) :
    (n - 1).toInt = n.toInt - 1 := by
  have hlt := n.toInt_lt
  rw [Int32.toInt_sub, Int32.toInt_one]
  exact Int.bmod_eq_of_le (by omega) (by omega)

theorem pos_iff {n : Int32} : 0 < n ↔ 0 < n.toInt := by
  rw [Int32.lt_iff_toInt_lt, Int32.toInt_zero]

theorem eq_zero_iff {n : Int32} : n = 0 ↔ n.toInt = 0 := by
  rw [← Int32.toInt_inj, Int32.toInt_zero]

/-- An integer that counts the entries of a list tells whether there is one. -/
theorem decide_eq_isEmpty {α : Type} {n : Int32} {l : List α}
    (h : n.toInt = l.length) : decide (n = 0) = l.isEmpty := by
  rw [Bool.eq_iff_iff, decide_eq_true_iff, eq_zero_iff, h,
    List.isEmpty_iff_length_eq_zero]
  omega

namespace RequestsQueue

structure Holds (queue : RequestsQueue J) (l : List (ℕ × Request J)) : Prop where
  linked : Linked queue.heap queue.requests l
  last : LastIs queue.lastRequest l
  count : queue.numRequests.toInt = l.length

variable {queue : RequestsQueue J} {l : List (ℕ × Request J)}

theorem holds_init : (initRequestsQueue (J := J)).Holds [] where
  linked := .nil
  last := by simp [LastIs]
  count := rfl

theorem Holds.pos_iff (h : queue.Holds l) : 0 < queue.numRequests ↔ l ≠ [] := by
  rw [ThreadPool.pos_iff, h.count, ← List.length_pos_iff]
  omega

/-- A request goes behind the others, and what else is allocated stays. -/
theorem Holds.exists_addRequest (h : queue.Holds l) {a : ℕ}
    (ha : queue.heap a = none) (request : Request J) :
    ∃ queue', ThreadPool.addRequest queue a request = some queue' ∧
      Linked queue'.heap queue'.requests (l ++ [(a, request)]) ∧
      LastIs queue'.lastRequest (l ++ [(a, request)]) ∧
      queue'.numRequests = queue.numRequests + 1 ∧
      ∀ b ∉ l.map Prod.fst, b ≠ a → queue'.heap b = queue.heap b := by
  have hfresh : a ∉ l.map Prod.fst := by
    intro hmem
    obtain ⟨p, hp, rfl⟩ := List.mem_map.mp hmem
    obtain ⟨next, hread⟩ := h.linked.read hp
    cases ha.symm.trans hread
  obtain ⟨heap, requests, hhang, hlinked, hframe⟩ :=
    (h.linked.update hfresh (some ⟨request, none⟩)).hang h.last
      (Function.update_self _ _ _) hfresh (decide_eq_isEmpty h.count)
  exact ⟨_, congrArg (Option.map _) hhang, hlinked, lastIs_append _ _ _, rfl,
    fun b hb hne => (hframe b hb).trans (Function.update_of_ne hne _ _)⟩

/-- The queue counts it as long as the count has room. -/
theorem Holds.addRequest (h : queue.Holds l) {a : ℕ} (ha : queue.heap a = none)
    (request : Request J) (hroom : l.length + 1 < 2 ^ 31) :
    ∃ queue', ThreadPool.addRequest queue a request = some queue' ∧
      queue'.Holds (l ++ [(a, request)]) ∧
      ∀ b ∉ l.map Prod.fst, b ≠ a → queue'.heap b = queue.heap b := by
  obtain ⟨queue', hadd, hlinked, hlast, hnum, hframe⟩ :=
    h.exists_addRequest ha request
  refine ⟨queue', hadd, ⟨hlinked, hlast, ?_⟩, hframe⟩
  have hcount := h.count
  rw [hnum, toInt_add_one (by omega), hcount, List.length_append,
    List.length_singleton]
  rfl

/-- The request that is taken is the one that was added first. -/
theorem Holds.getRequest {a : ℕ} {request : Request J}
    (h : queue.Holds ((a, request) :: l)) :
    ∃ queue', ThreadPool.getRequest queue = some (some (a, request), queue') ∧
      queue'.Holds l ∧ queue'.heap = queue.heap := by
  have hpos := h.pos_iff.mpr (List.cons_ne_nil _ _)
  obtain ⟨hfirst, next, hread, hrest⟩ := linked_cons_iff.mp h.linked
  refine ⟨{ queue with
      requests := next
      lastRequest := if next.isNone then none else queue.lastRequest
      numRequests := queue.numRequests - 1 },
    by simp [ThreadPool.getRequest, hpos, hfirst, hread], ⟨hrest, ?_, ?_⟩, rfl⟩
  · intro p hp
    cases next with
    | none =>
        cases hrest
        cases hp
    | some b =>
        have hlast := h.last p
        cases hrest
        exact hlast hp
  · have hcount := h.count
    rw [List.length_cons] at hcount
    rw [toInt_sub_one (by omega), hcount]
    omega

end RequestsQueue

/-! ### The pool -/

/-- A thread in `handle_requests_loop`: about to lock the mutex or waiting on
the condition variable, between `get_request` and the call of the handler,
between the call and `free`, or over. -/
inductive Worker
  | unborn
  | ready
  | holding (a : ℕ)
  | served (a : ℕ)
  | finished
  deriving DecidableEq

/-- Where a call of `lwfs_thread_pool_add_request` is. From `adding` on it is
in `add_handler_thread`, with the record and the thread that it has made. -/
inductive Caller
  | idle
  | enqueued
  | counted (numRequests : Int32)
  | adding
  | created (a w : ℕ)
  | linked (a w : ℕ)
  | placed (a w : ℕ)
  | loaded (a w : ℕ) (numThreads : Int32)
  deriving DecidableEq

/-- Where `lwfs_thread_pool_fini` is. -/
inductive Closing
  | running
  | joining
  | waiting (a : ℕ)
  | deleting
  | returned
  deriving DecidableEq

/-- `lwfs_thread_pool`, with the threads, and with what has happened so far:
the requests added, those taken off the queue and by whom (`none` is
`delete_requests_queue`), and those whose handler has been called. -/
structure Pool (J : Type) where
  args : Args
  shutdownNow : Bool
  queue : RequestsQueue J
  records : Store ℕ ℕ
  threads : Option ℕ
  lastThread : Option ℕ
  numThreads : Int32
  worker : ℕ → Worker
  caller : ℕ → Caller
  closing : Closing
  exitNow : Bool
  added : List (Request J)
  taken : List (Option ℕ × Request J)
  called : List (ℕ × Request J)

/-- The number of threads that `lwfs_thread_pool_init` starts. -/
def Args.initialThreads (args : Args) : ℕ :=
  args.checked.initialThreadCount.toInt.toNat

/-- `lwfs_thread_pool_init`. -/
def init (args : Args) : Pool J where
  args := args.checked
  shutdownNow := false
  queue := initRequestsQueue
  records := fun a =>
    if a < args.initialThreads then
      some ⟨a, if a + 1 < args.initialThreads then some (a + 1) else none⟩
    else none
  threads := if 0 < args.initialThreads then some 0 else none
  lastThread :=
    if 0 < args.initialThreads then some (args.initialThreads - 1) else none
  numThreads := Int32.ofNat args.initialThreads
  worker := fun w => if w < args.initialThreads then .ready else .unborn
  caller := fun _ => .idle
  closing := .running
  exitNow := false
  added := []
  taken := []
  called := []

inductive Action (J : Type)
  | enqueue (c a : ℕ) (job : J)
  | count (c : ℕ)
  | choose (c : ℕ)
  | create (c a w : ℕ)
  | link (c : ℕ)
  | setLast (c : ℕ)
  | loadThreads (c : ℕ)
  | storeThreads (c : ℕ)
  | turn (w : ℕ)
  | call (w : ℕ)
  | free (w : ℕ)
  | setExit
  | shutdown
  | removeFirst
  | join
  | deleteQueue
  | discard
  | finish

namespace Pool

def setCaller (s : Pool J) (c : ℕ) (stage : Caller) : Pool J :=
  { s with caller := Function.update s.caller c stage }

def setWorker (s : Pool J) (w : ℕ) (stage : Worker) : Pool J :=
  { s with worker := Function.update s.worker w stage }

/-! `lwfs_thread_pool_add_request` -/

def enqueue (s : Pool J) (c a : ℕ) (job : J) : Option (Pool J) :=
  if s.caller c = .idle ∧ (s.queue.heap a).isNone then
    let request : Request J := ⟨s.added.length, job⟩
    (addRequest s.queue a request).map fun queue =>
      { s with queue, added := s.added ++ [request] }.setCaller c .enqueued
  else none

/-- `get_requests_number`. -/
def count (s : Pool J) (c : ℕ) : Option (Pool J) :=
  if s.caller c = .enqueued then
    some (s.setCaller c (.counted s.queue.numRequests))
  else none

/-- Whether a call that has counted the requests adds a thread. -/
def Crowded (s : Pool J) (numRequests : Int32) : Prop :=
  s.args.highWatermark < numRequests ∧ s.numThreads < s.args.maxThreadCount

instance (s : Pool J) (numRequests : Int32) :
    Decidable (s.Crowded numRequests) :=
  inferInstanceAs (Decidable (_ ∧ _))

def choose (s : Pool J) (c : ℕ) : Option (Pool J) :=
  match s.caller c with
  | .counted n => some (s.setCaller c (if s.Crowded n then .adding else .idle))
  | _ => none

/-- `add_handler_thread` up to `pthread_create`. -/
def create (s : Pool J) (c a w : ℕ) : Option (Pool J) :=
  if s.caller c = .adding ∧ (s.records a).isNone ∧ s.worker w = .unborn then
    some (({ s with
      records := Function.update s.records a (some ⟨w, none⟩) }.setWorker w
        .ready).setCaller c (.created a w))
  else none

def link (s : Pool J) (c : ℕ) : Option (Pool J) :=
  match s.caller c with
  | .created a w =>
      (hang (s.numThreads = 0) s.records s.threads s.lastThread a).map fun p =>
        { s with records := p.1, threads := p.2 }.setCaller c (.linked a w)
  | _ => none

def setLast (s : Pool J) (c : ℕ) : Option (Pool J) :=
  match s.caller c with
  | .linked a w => some ({ s with lastThread := some a }.setCaller c (.placed a w))
  | _ => none

/-- `num_threads++` reads the count first. -/
def loadThreads (s : Pool J) (c : ℕ) : Option (Pool J) :=
  match s.caller c with
  | .placed a w => some (s.setCaller c (.loaded a w s.numThreads))
  | _ => none

def storeThreads (s : Pool J) (c : ℕ) : Option (Pool J) :=
  match s.caller c with
  | .loaded _ _ n => some ({ s with numThreads := n + 1 }.setCaller c .idle)
  | _ => none

/-! `handle_requests_loop` -/

/-- One look at the queue. -/
def turn (s : Pool J) (w : ℕ) : Option (Pool J) :=
  if s.worker w = .ready then
    if s.exitNow then some (s.setWorker w .finished)
    else if 0 < s.queue.numRequests then
      (getRequest s.queue).map fun got =>
        match got.1 with
        | some p =>
            { s with queue := got.2, taken := s.taken ++ [(some w, p.2)] }.setWorker
              w (.holding p.1)
        | none => { s with queue := got.2 }
    else if s.shutdownNow then some (s.setWorker w .finished)
    else some s
  else none

def call (s : Pool J) (w : ℕ) : Option (Pool J) :=
  match s.worker w with
  | .holding a =>
      (s.queue.heap a).map fun node =>
        { s with called := s.called ++ [(w, node.value)] }.setWorker w (.served a)
  | _ => none

def freed (s : Pool J) (a : ℕ) : Pool J :=
  { s with queue.heap := Function.update s.queue.heap a none }

def free (s : Pool J) (w : ℕ) : Option (Pool J) :=
  match s.worker w with
  | .served a => some ((s.freed a).setWorker w .ready)
  | _ => none

/-! `lwfs_thread_pool_fini` -/

def shutdown (s : Pool J) : Option (Pool J) :=
  if s.closing = .running then
    some { s with shutdownNow := true, closing := .joining }
  else none

/-- `remove_first_handler_thread`, and the assertion after it. -/
def removeFirst (s : Pool J) : Option (Pool J) :=
  if s.closing = .joining ∧ 0 < s.numThreads then
    s.threads.bind fun a => (s.records a).map fun node =>
      { s with
        records := Function.update s.records a (some { node with next := none })
        threads := node.next
        numThreads := s.numThreads - 1
        closing := .waiting a }
  else none

/-- `pthread_join` and `free`. -/
def join (s : Pool J) : Option (Pool J) :=
  match s.closing with
  | .waiting a =>
      (s.records a).bind fun node =>
        if s.worker node.value = .finished then
          some { s with
            records := Function.update s.records a none
            closing := .joining }
        else none
  | _ => none

def deleteQueue (s : Pool J) : Option (Pool J) :=
  if s.closing = .joining ∧ ¬ 0 < s.numThreads then
    some { s with closing := .deleting }
  else none

/-- One round of `delete_requests_queue`. -/
def discard (s : Pool J) : Option (Pool J) :=
  if s.closing = .deleting ∧ 0 < s.queue.numRequests then
    (getRequest s.queue).map fun got =>
      match got.1 with
      | some p =>
          { s with
            queue := got.2
            taken := s.taken ++ [(none, p.2)] }.freed p.1
      | none => { s with queue := got.2 }
  else none

def finish (s : Pool J) : Option (Pool J) :=
  if s.closing = .deleting ∧ ¬ 0 < s.queue.numRequests then
    some { s with closing := .returned }
  else none

def next (s : Pool J) : Action J → Option (Pool J)
  | .enqueue c a job => s.enqueue c a job
  | .count c => s.count c
  | .choose c => s.choose c
  | .create c a w => s.create c a w
  | .link c => s.link c
  | .setLast c => s.setLast c
  | .loadThreads c => s.loadThreads c
  | .storeThreads c => s.storeThreads c
  | .turn w => s.turn w
  | .call w => s.call w
  | .free w => s.free w
  | .setExit => some { s with exitNow := true }
  | .shutdown => s.shutdown
  | .removeFirst => s.removeFirst
  | .join => s.join
  | .deleteQueue => s.deleteQueue
  | .discard => s.discard
  | .finish => s.finish

/-- An action that is not possible is not taken. -/
def step (s : Pool J) (action : Action J) : Pool J := (s.next action).getD s

end Pool

end Lwfs.Support.ThreadPool
