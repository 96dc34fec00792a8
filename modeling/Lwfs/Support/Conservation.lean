import Lwfs.Support.ThreadPool
import Mathlib.Data.List.Range

/-!
No request is lost on its way through the pool. `Working` is the invariant: the
queue holds what was added and not yet taken, a worker owns the request it took
off until it frees it, and a request that was taken and whose handler has not
been called is in the hands of the worker that took it.

It rests on the count of the queue, a signed integer that wraps around at
`2 ^ 31` requests.
-/

namespace Lwfs.Support.ThreadPool

open SysLib LinkedList

variable {J : Type}

/-- The requests added are those already taken, in order, and then those still
in the queue, which counts them. None is taken twice. -/
structure Conserved (s : Pool J) : Prop where
  queued : ∃ l, Linked s.queue.heap s.queue.requests l ∧
    s.added = s.taken.map Prod.snd ++ l.map Prod.snd ∧
    s.queue.numRequests.toInt = l.length
  once : (s.taken.map fun e => e.2.serial).Nodup

/-- The number of requests in the queue. -/
def Pool.backlog (s : Pool J) : ℕ := s.added.length - s.taken.length

/-- After the step the queue still counts what it holds. -/
def Roomy (s : Pool J) (action : Action J) : Prop :=
  (s.step action).backlog < 2 ^ 31

/-! ### The invariant -/

/-- What a pool has of the requests. -/
structure Work (J : Type) where
  queue : RequestsQueue J
  worker : ℕ → Worker
  added : List (Request J)
  taken : List (Option ℕ × Request J)
  called : List (ℕ × Request J)

def Pool.work (s : Pool J) : Work J :=
  ⟨s.queue, s.worker, s.added, s.taken, s.called⟩

/-- The request that a worker has to free. -/
def Worker.held : Worker → Option ℕ
  | .holding a => some a
  | .served a => some a
  | _ => none

structure Working (k : Work J) (l : List (ℕ × Request J)) : Prop where
  holds : k.queue.Holds l
  split : k.added = k.taken.map Prod.snd ++ l.map Prod.snd
  serials : k.added.map Request.serial = List.range k.added.length
  held : ∀ w a, (k.worker w).held = some a →
    a ∉ l.map Prod.fst ∧ k.queue.heap a ≠ none
  apart : ∀ w w' a, (k.worker w).held = some a → (k.worker w').held = some a →
    w = w'
  holding : ∀ w a, k.worker w = .holding a → ∃ r next,
    k.queue.heap a = some ⟨r, next⟩ ∧ (some w, r) ∈ k.taken ∧
      r ∉ k.called.map Prod.snd
  calledTaken : ∀ e ∈ k.called, (some e.1, e.2) ∈ k.taken
  calledNodup : (k.called.map Prod.snd).Nodup
  pending : ∀ w r, (some w, r) ∈ k.taken → r ∈ k.called.map Prod.snd ∨
    ∃ a next, k.worker w = .holding a ∧ k.queue.heap a = some ⟨r, next⟩

namespace Working

variable {k : Work J} {l : List (ℕ × Request J)} {w a : ℕ} {r : Request J}

theorem addedNodup (h : Working k l) : k.added.Nodup :=
  List.Nodup.of_map Request.serial (h.serials ▸ List.nodup_range)

theorem length_added (h : Working k l) :
    k.added.length = k.taken.length + l.length := by
  simpa using congrArg List.length h.split

theorem takenNodup (h : Working k l) : (k.taken.map Prod.snd).Nodup :=
  (List.nodup_append.mp (h.split ▸ h.addedNodup)).1

/-- A request is taken by one thread. -/
theorem taker_unique (h : Working k l) {o o' : Option ℕ}
    (ho : (o, r) ∈ k.taken) (ho' : (o', r) ∈ k.taken) : o = o' :=
  congrArg Prod.fst (List.inj_on_of_nodup_map h.takenNodup ho ho' rfl)

theorem not_called_of_queued (h : Working k l) (hr : r ∈ l.map Prod.snd) :
    r ∉ k.called.map Prod.snd := by
  intro hcalled
  obtain ⟨e, he, rfl⟩ := List.mem_map.mp hcalled
  have hdisjoint := (List.nodup_append.mp (h.split ▸ h.addedNodup)).2.2
  exact hdisjoint _ (List.mem_map_of_mem (h.calledTaken e he)) _ hr rfl

theorem ne_of_queued (h : Working k ((a, r) :: l)) {b : ℕ}
    (hb : (k.worker w).held = some b) : b ≠ a := by
  rintro rfl
  exact (h.held w b hb).1 List.mem_cons_self

/-! Each step that requests take part in keeps it. -/

theorem enqueue (h : Working k l) (ha : k.queue.heap a = none) {job : J}
    {request : Request J} (hrequest : request = ⟨k.added.length, job⟩)
    (hroom : l.length + 1 < 2 ^ 31) :
    ∃ queue, addRequest k.queue a request = some queue ∧
      Working { k with queue, added := k.added ++ [request] }
        (l ++ [(a, request)]) := by
  obtain ⟨queue, hadd, hholds, hframe⟩ := h.holds.addRequest ha request hroom
  have hkept : ∀ w b, (k.worker w).held = some b →
      queue.heap b = k.queue.heap b := by
    intro w b hb
    obtain ⟨hout, hsome⟩ := h.held w b hb
    refine hframe b hout ?_
    rintro rfl
    exact hsome ha
  refine ⟨queue, hadd, hholds, ?_, ?_, ?_, h.apart, ?_, h.calledTaken,
    h.calledNodup, ?_⟩
  · simp [h.split]
  · simp [h.serials, hrequest, List.range_succ]
  · intro w b hb
    obtain ⟨hout, hsome⟩ := h.held w b hb
    refine ⟨?_, (hkept w b hb).trans_ne hsome⟩
    simp only [List.map_append, List.mem_append, not_or]
    refine ⟨hout, ?_⟩
    rintro (_ | ⟨_, ⟨⟩⟩)
    exact hsome ha
  · intro w b hb
    rw [hkept w b (congrArg Worker.held hb)]
    exact h.holding w b hb
  · intro w r hr
    refine (h.pending w r hr).imp_right ?_
    rintro ⟨b, next, hb, hread⟩
    exact ⟨b, next, hb, (hkept w b (congrArg Worker.held hb)).trans hread⟩

/-- A worker with no request in its hands changes to such a stage. -/
theorem relabel (h : Working k l) (hw : (k.worker w).held = none)
    {stage : Worker} (hstage : stage.held = none) :
    Working { k with worker := Function.update k.worker w stage } l := by
  have hheld : ∀ v b, (Function.update k.worker w stage v).held = some b →
      (k.worker v).held = some b := by
    intro v b hb
    rcases eq_or_ne v w with rfl | hv
    · simp [hstage] at hb
    · rwa [Function.update_of_ne hv] at hb
  have hholding : ∀ v b, Function.update k.worker w stage v = .holding b →
      k.worker v = .holding b := by
    intro v b hb
    rcases eq_or_ne v w with rfl | hv
    · have := hheld v b (congrArg Worker.held hb)
      rw [hw] at this
      cases this
    · rwa [Function.update_of_ne hv] at hb
  refine ⟨h.holds, h.split, h.serials, fun v b hb => h.held v b (hheld v b hb),
    fun v v' b hb hb' => h.apart v v' b (hheld v b hb) (hheld v' b hb'),
    fun v b hb => h.holding v b (hholding v b hb), h.calledTaken, h.calledNodup,
    fun v r hr => (h.pending v r hr).imp_right ?_⟩
  rintro ⟨b, next, hb, hread⟩
  have hv : v ≠ w := by
    rintro rfl
    simp [hb, Worker.held] at hw
  exact ⟨b, next, (Function.update_of_ne hv _ _).trans hb, hread⟩

/-- A worker takes the first request off the queue. -/
theorem take (h : Working k ((a, r) :: l)) (hw : k.worker w = .ready) :
    ∃ queue, getRequest k.queue = some (some (a, r), queue) ∧
      Working { k with
        queue
        worker := Function.update k.worker w (.holding a)
        taken := k.taken ++ [(some w, r)] } l := by
  obtain ⟨queue, hget, hholds, hheap⟩ := h.holds.getRequest
  obtain ⟨next, hread⟩ := h.holds.linked.read List.mem_cons_self
  have hnodup := h.holds.linked.nodup
  have hheld : ∀ v b,
      (Function.update k.worker w (.holding a) v).held = some b →
        (v = w ∧ b = a) ∨ (v ≠ w ∧ (k.worker v).held = some b) := by
    intro v b hb
    rcases eq_or_ne v w with rfl | hv
    · rw [Function.update_self] at hb
      cases hb
      exact .inl ⟨rfl, rfl⟩
    · rw [Function.update_of_ne hv] at hb
      exact .inr ⟨hv, hb⟩
  refine ⟨queue, hget, hholds, ?_, h.serials, ?_, ?_, ?_, ?_, h.calledNodup, ?_⟩
  · simp [h.split]
  · intro v b hb
    show _ ∧ queue.heap b ≠ none
    rw [hheap]
    rcases hheld v b hb with ⟨rfl, rfl⟩ | ⟨-, hb⟩
    · exact ⟨(List.nodup_cons.mp hnodup).1, by simp [hread]⟩
    · obtain ⟨hout, hsome⟩ := h.held v b hb
      exact ⟨fun hmem => hout (List.mem_cons_of_mem _ hmem), hsome⟩
  · intro v v' b hb hb'
    rcases hheld v b hb with ⟨rfl, rfl⟩ | ⟨-, hold⟩ <;>
      rcases hheld v' _ hb' with ⟨rfl, hba⟩ | ⟨-, hold'⟩
    · rfl
    · exact absurd rfl (h.ne_of_queued hold')
    · exact absurd hba (h.ne_of_queued hold)
    · exact h.apart v v' b hold hold'
  · intro v b hb
    rcases hheld v b (congrArg Worker.held hb) with ⟨rfl, rfl⟩ | ⟨hv, -⟩
    · refine ⟨r, next, (congrFun hheap b).trans hread, by simp, ?_⟩
      exact h.not_called_of_queued List.mem_cons_self
    · have hb : k.worker v = .holding b :=
        (Function.update_of_ne hv _ _).symm.trans hb
      obtain ⟨r', next', hread', htaken, hcalled⟩ := h.holding v b hb
      exact ⟨r', next', (congrFun hheap b).trans hread',
        List.mem_append_left _ htaken, hcalled⟩
  · exact fun e he => List.mem_append_left _ (h.calledTaken e he)
  · intro v r' hr'
    rcases List.mem_append.mp hr' with hold | hnew
    · refine (h.pending v r' hold).imp_right ?_
      rintro ⟨b, next', hb, hread'⟩
      have hv : v ≠ w := by
        rintro rfl
        cases hw.symm.trans hb
      exact ⟨b, next', (Function.update_of_ne hv _ _).trans hb,
        (congrFun hheap b).trans hread'⟩
    · obtain ⟨rfl, rfl⟩ : v = w ∧ r' = r := by simpa using hnew
      exact .inr ⟨a, next, Function.update_self _ _ _,
        (congrFun hheap a).trans hread⟩

/-- A worker calls the handler of the request it holds. -/
theorem call (h : Working k l) (hw : k.worker w = .holding a)
    {node : Node ℕ (Request J)} (hnode : k.queue.heap a = some node) :
    Working { k with
      worker := Function.update k.worker w (.served a)
      called := k.called ++ [(w, node.value)] } l := by
  obtain ⟨r, next, hread, htaken, hcalled⟩ := h.holding w a hw
  cases hnode.symm.trans hread
  have hheld : ∀ v b, (Function.update k.worker w (.served a) v).held = some b →
      (k.worker v).held = some b := by
    intro v b hb
    rcases eq_or_ne v w with rfl | hv
    · rw [Function.update_self] at hb
      rw [hw]
      exact hb
    · rwa [Function.update_of_ne hv] at hb
  refine ⟨h.holds, h.split, h.serials, fun v b hb => h.held v b (hheld v b hb),
    fun v v' b hb hb' => h.apart v v' b (hheld v b hb) (hheld v' b hb'), ?_, ?_,
    ?_, ?_⟩
  · intro v b hb
    have hv : v ≠ w := by
      rintro rfl
      simp at hb
    have hb : k.worker v = .holding b :=
      (Function.update_of_ne hv _ _).symm.trans hb
    obtain ⟨r', next', hread', htaken', hcalled'⟩ := h.holding v b hb
    refine ⟨r', next', hread', htaken', ?_⟩
    simp only [List.map_append, List.mem_append, not_or]
    refine ⟨hcalled', ?_⟩
    rintro (_ | ⟨_, ⟨⟩⟩)
    exact hv (Option.some.inj (h.taker_unique htaken' htaken))
  · intro e he
    rcases List.mem_append.mp he with hold | hnew
    · exact h.calledTaken e hold
    · rw [List.mem_singleton.mp hnew]
      exact htaken
  · rw [List.map_append, List.nodup_append]
    refine ⟨h.calledNodup, by simp, ?_⟩
    rintro r' hr' _ (_ | ⟨_, ⟨⟩⟩) rfl
    exact hcalled hr'
  · intro v r' hr'
    rcases h.pending v r' hr' with hold | ⟨b, next', hb, hread'⟩
    · exact .inl (by simp only [List.map_append]; exact List.mem_append_left _ hold)
    · rcases eq_or_ne v w with rfl | hv
      · cases hw.symm.trans hb
        cases hread.symm.trans hread'
        exact .inl (by simp)
      · exact .inr ⟨b, next', (Function.update_of_ne hv _ _).trans hb, hread'⟩

/-- A worker frees the request it has served. -/
theorem free (h : Working k l) (hw : k.worker w = .served a) :
    Working { k with
      queue := { k.queue with heap := Function.update k.queue.heap a none }
      worker := Function.update k.worker w .ready } l := by
  have hout := (h.held w a (congrArg Worker.held hw)).1
  have hheld : ∀ v b, (Function.update k.worker w .ready v).held = some b →
      v ≠ w ∧ b ≠ a ∧ (k.worker v).held = some b := by
    intro v b hb
    have hv : v ≠ w := by
      rintro rfl
      simp [Worker.held] at hb
    rw [Function.update_of_ne hv] at hb
    refine ⟨hv, ?_, hb⟩
    rintro rfl
    exact hv (h.apart v w b hb (congrArg Worker.held hw))
  refine ⟨⟨h.holds.linked.update hout none, h.holds.last, h.holds.count⟩,
    h.split, h.serials, ?_, ?_, ?_, h.calledTaken, h.calledNodup, ?_⟩
  · intro v b hb
    obtain ⟨-, hne, hb⟩ := hheld v b hb
    refine ⟨(h.held v b hb).1, ?_⟩
    exact (Function.update_of_ne hne _ _).trans_ne (h.held v b hb).2
  · intro v v' b hb hb'
    exact h.apart v v' b (hheld v b hb).2.2 (hheld v' b hb').2.2
  · intro v b hb
    obtain ⟨hv, hne, -⟩ := hheld v b (congrArg Worker.held hb)
    have hb : k.worker v = .holding b := (Function.update_of_ne hv _ _).symm.trans hb
    obtain ⟨r, next, hread, hrest⟩ := h.holding v b hb
    exact ⟨r, next, (Function.update_of_ne hne _ _).trans hread, hrest⟩
  · intro v r hr
    refine (h.pending v r hr).imp_right ?_
    rintro ⟨b, next, hb, hread⟩
    have hv : v ≠ w := by
      rintro rfl
      cases hw.symm.trans hb
    have hne : b ≠ a := by
      rintro rfl
      exact hv (h.apart v w b (congrArg Worker.held hb) (congrArg Worker.held hw))
    exact ⟨b, next, (Function.update_of_ne hv _ _).trans hb,
      (Function.update_of_ne hne _ _).trans hread⟩

/-- `delete_requests_queue` frees the first request. -/
theorem discard (h : Working k ((a, r) :: l)) :
    ∃ queue, getRequest k.queue = some (some (a, r), queue) ∧
      Working { k with
        queue := { queue with heap := Function.update queue.heap a none }
        taken := k.taken ++ [(none, r)] } l := by
  obtain ⟨queue, hget, hholds, hheap⟩ := h.holds.getRequest
  have hout := (List.nodup_cons.mp h.holds.linked.nodup).1
  have hkept : ∀ v b, (k.worker v).held = some b →
      Function.update queue.heap a none b = k.queue.heap b := by
    intro v b hb
    rw [Function.update_of_ne (h.ne_of_queued hb), hheap]
  refine ⟨queue, hget, ⟨hholds.linked.update hout none, hholds.last,
    hholds.count⟩, ?_, h.serials, ?_, h.apart, ?_, ?_, h.calledNodup, ?_⟩
  · simp [h.split]
  · intro v b hb
    obtain ⟨hnot, hsome⟩ := h.held v b hb
    exact ⟨fun hmem => hnot (List.mem_cons_of_mem _ hmem),
      (hkept v b hb).trans_ne hsome⟩
  · intro v b hb
    obtain ⟨r', next, hread, htaken, hcalled⟩ := h.holding v b hb
    exact ⟨r', next, (hkept v b (congrArg Worker.held hb)).trans hread,
      List.mem_append_left _ htaken, hcalled⟩
  · exact fun e he => List.mem_append_left _ (h.calledTaken e he)
  · intro v r' hr'
    have hold : (some v, r') ∈ k.taken := by simpa using hr'
    refine (h.pending v r' hold).imp_right ?_
    rintro ⟨b, next, hb, hread⟩
    exact ⟨b, next, hb, (hkept v b (congrArg Worker.held hb)).trans hread⟩

end Working

/-! ### Runs -/

namespace Pool

variable {s s' : Pool J} {o : Option (Pool J)} {l : List (ℕ × Request J)}

theorem step_of_some {action : Action J} (h : s.next action = some s') :
    s.step action = s' := by
  simp [step, h]

theorem step_of_none {action : Action J} (h : s.next action = none) :
    s.step action = s := by
  simp [step, h]

/-- The other steps leave the requests alone. -/
theorem exists_working_of_same (h : Working s.work l)
    (hsame : ∀ s', o = some s' → s'.work = s.work) :
    ∃ l', Working (o.getD s).work l' := by
  refine ⟨l, ?_⟩
  cases o with
  | none => exact h
  | some s' => exact hsame s' rfl ▸ h

/-- The actions that no request takes part in. -/
def Quiet : Action J → Prop
  | .enqueue _ _ _ | .create _ _ _ | .turn _ | .call _ | .free _ | .discard =>
      False
  | _ => True

theorem work_of_quiet {action : Action J} (h : Quiet action)
    (hnext : s.next action = some s') : s'.work = s.work := by
  cases action with
  | enqueue | create | turn | call | free | discard => exact h.elim
  | setExit =>
      cases hnext
      rfl
  | count =>
      simp only [next, count] at hnext
      split at hnext <;> cases hnext
      rfl
  | choose =>
      simp only [next, choose] at hnext
      split at hnext <;> cases hnext
      rfl
  | link =>
      simp only [next, link] at hnext
      split at hnext
      · obtain ⟨p, -, rfl⟩ := Option.map_eq_some_iff.mp hnext
        rfl
      · cases hnext
  | setLast =>
      simp only [next, setLast] at hnext
      split at hnext <;> cases hnext
      rfl
  | loadThreads =>
      simp only [next, loadThreads] at hnext
      split at hnext <;> cases hnext
      rfl
  | storeThreads =>
      simp only [next, storeThreads] at hnext
      split at hnext <;> cases hnext
      rfl
  | shutdown =>
      simp only [next, shutdown] at hnext
      split at hnext <;> cases hnext
      rfl
  | removeFirst =>
      simp only [next, removeFirst] at hnext
      split at hnext
      · obtain ⟨a, -, hnext⟩ := Option.bind_eq_some_iff.mp hnext
        obtain ⟨node, -, rfl⟩ := Option.map_eq_some_iff.mp hnext
        rfl
      · cases hnext
  | join =>
      simp only [next, join] at hnext
      split at hnext
      · obtain ⟨node, -, hnext⟩ := Option.bind_eq_some_iff.mp hnext
        split at hnext <;> cases hnext
        rfl
      · cases hnext
  | deleteQueue =>
      simp only [next, deleteQueue] at hnext
      split at hnext <;> cases hnext
      rfl
  | finish =>
      simp only [next, finish] at hnext
      split at hnext <;> cases hnext
      rfl

/-- The requests that are queued after a look at the queue, and what the worker
did: it took the first one, or it had nothing to take. -/
theorem working_turn (h : Working s.work l) (w : ℕ) :
    ∃ l', Working ((s.turn w).getD s).work l' := by
  unfold turn
  by_cases hw : s.worker w = .ready
  · have hheld : (s.work.worker w).held = none := by
      simp [work, hw, Worker.held]
    rw [if_pos hw]
    split_ifs with hexit hpos hshut
    · exact ⟨l, h.relabel hheld rfl⟩
    · obtain ⟨⟨a, r⟩, l', rfl⟩ :=
        List.exists_cons_of_ne_nil (h.holds.pos_iff.mp hpos)
      obtain ⟨queue, hget, hworking⟩ := h.take hw
      have hget : getRequest s.queue = some (some (a, r), queue) := hget
      rw [hget]
      exact ⟨l', hworking⟩
    · exact ⟨l, h.relabel hheld rfl⟩
    · exact ⟨l, h⟩
  · rw [if_neg hw]
    exact ⟨l, h⟩

theorem working_step (h : Working s.work l) {action : Action J}
    (hroom : Roomy s action) : ∃ l', Working (s.step action).work l' := by
  cases action with
  | enqueue c a job =>
      unfold Roomy backlog step at *
      simp only [next, Pool.enqueue] at hroom ⊢
      split_ifs at hroom ⊢ with hguard
      · cases hadd : addRequest s.queue a (Request.mk s.added.length job) with
        | none => exact ⟨l, h⟩
        | some queue =>
            have hlength : s.added.length = s.taken.length + l.length :=
              h.length_added
            have hbacklog : (s.added ++ [Request.mk s.added.length job]).length -
                s.taken.length < 2 ^ 31 := by
              rw [hadd] at hroom
              exact hroom
            rw [List.length_append, List.length_singleton] at hbacklog
            obtain ⟨queue', hadd', hworking⟩ :=
              h.enqueue (Option.isNone_iff_eq_none.mp hguard.2) rfl (by omega)
            cases hadd.symm.trans hadd'
            exact ⟨_, hworking⟩
      · exact ⟨l, h⟩
  | turn w => exact working_turn h w
  | create c a w =>
      unfold step
      simp only [next, create]
      split_ifs with hguard
      · refine ⟨l, h.relabel (w := w) ?_ rfl⟩
        simp [work, hguard.2.2, Worker.held]
      · exact ⟨l, h⟩
  | call w =>
      unfold step
      simp only [next, Pool.call]
      split
      next a hw =>
        cases hnode : s.queue.heap a with
        | none => exact ⟨l, h⟩
        | some node => exact ⟨l, h.call hw hnode⟩
      next => exact ⟨l, h⟩
  | free w =>
      unfold step
      simp only [next, Pool.free]
      split
      next a hw => exact ⟨l, h.free hw⟩
      next => exact ⟨l, h⟩
  | discard =>
      unfold step
      simp only [next, Pool.discard]
      split_ifs with hguard
      · obtain ⟨⟨a, r⟩, l', rfl⟩ :=
          List.exists_cons_of_ne_nil (h.holds.pos_iff.mp hguard.2)
        obtain ⟨queue, hget, hworking⟩ := h.discard
        have hget : getRequest s.queue = some (some (a, r), queue) := hget
        rw [hget]
        exact ⟨l', hworking⟩
      · exact ⟨l, h⟩
  | _ =>
      exact exists_working_of_same h fun s' => work_of_quiet trivial

theorem working_init (args : Args) : Working (init (J := J) args).work [] where
  holds := RequestsQueue.holds_init
  split := rfl
  serials := rfl
  held := by
    intro w a ha
    simp only [work, init] at ha
    split at ha <;> cases ha
  apart := by
    intro w w' a ha
    simp only [work, init] at ha
    split at ha <;> cases ha
  holding := by
    intro w a ha
    simp only [work, init] at ha
    split at ha <;> cases ha
  calledTaken := nofun
  calledNodup := List.nodup_nil
  pending := nofun

theorem exists_working (args : Args) {run : List (Action J)}
    (h : Run.Along step Roomy (init args) run) :
    ∃ l, Working (Run.exec step (init args) run).work l := by
  have hstep : ∀ (s : Pool J) action, (∃ l, Working s.work l) →
      Roomy s action → ∃ l, Working (s.step action).work l := by
    rintro s action ⟨l, hs⟩ hroom
    exact working_step hs hroom
  exact Run.exec_invariant hstep ⟨[], working_init args⟩ h

end Pool

theorem Working.conserved {s : Pool J} {l : List (ℕ × Request J)}
    (h : Working s.work l) : Conserved s where
  queued := ⟨l, h.holds.linked, h.split, h.holds.count⟩
  once := by
    have hserials : (s.added.map Request.serial).Nodup :=
      h.serials ▸ List.nodup_range
    have hsplit : s.added = s.taken.map Prod.snd ++ l.map Prod.snd := h.split
    rw [hsplit, List.map_append] at hserials
    rw [show (fun e : Option ℕ × Request J => e.2.serial) =
      Request.serial ∘ Prod.snd from rfl, ← List.map_map]
    exact (List.nodup_append.mp hserials).1

end Lwfs.Support.ThreadPool
