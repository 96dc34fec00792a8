import Lwfs.Support.Conservation

/-!
What a shutdown leaves behind. `lwfs_thread_pool_fini` joins the threads on the
list of handler threads, and a thread ends when it finds the queue empty after
the flag went up. So every request is served if every thread is on the list
and somebody is there to serve.

The list is kept without a lock. `Orderly` is what it rests on: the calls of
`lwfs_thread_pool_add_request` that add a thread do so one after the other, and
they are over before the shutdown begins.
-/

namespace Lwfs.Support.ThreadPool

open SysLib LinkedList

variable {J : Type}

/-- In `add_handler_thread`, or about to be. -/
def Caller.adds : Caller → Prop
  | .adding | .created _ _ | .linked _ _ | .placed _ _ | .loaded _ _ _ => True
  | _ => False

/-- One call at a time adds a thread, and the shutdown begins when no call is
under way and none follows. -/
def Orderly (s : Pool J) : Action J → Prop
  | .enqueue _ _ _ => s.closing = .running
  | .choose c => ∀ n, s.caller c = .counted n → s.Crowded n →
      ∀ c', ¬ (s.caller c').adds
  | .shutdown => ∀ c, s.caller c = .idle
  | _ => True

instance (s : Pool J) (action : Action J) : Decidable (Roomy s action) :=
  inferInstanceAs (Decidable (_ < _))

/-- When `lwfs_thread_pool_fini` has returned, and `lwfs_exit_now` has stayed
false, the handler of every request has been called exactly once. -/
def Drained (s : Pool J) : Prop :=
  s.closing = .returned → s.exitNow = false →
    (s.called.map Prod.snd).Perm s.added

/-! ### The list of threads -/

/-- What a pool has of the threads. -/
structure Crew where
  records : Store ℕ ℕ
  threads : Option ℕ
  lastThread : Option ℕ
  numThreads : Int32
  worker : ℕ → Worker
  closing : Closing

def Pool.crew (s : Pool J) : Crew :=
  ⟨s.records, s.threads, s.lastThread, s.numThreads, s.worker, s.closing⟩

/-- The record that a call has hung on the list and not counted. -/
def Caller.hung : Caller → List (ℕ × ℕ)
  | .linked a w | .placed a w | .loaded a w _ => [(a, w)]
  | _ => []

/-- The record that a call has made the last one and not counted. -/
def Caller.trailing : Caller → List (ℕ × ℕ)
  | .placed a w | .loaded a w _ => [(a, w)]
  | _ => []

/-- The thread that a call has started and not counted. -/
def Caller.made : Caller → List ℕ
  | .created _ w | .linked _ w | .placed _ w | .loaded _ w _ => [w]
  | _ => []

def Worker.Living (stage : Worker) : Prop :=
  stage ≠ .unborn ∧ stage ≠ .finished

/-- The list of threads while one call is at `now` and no other adds a thread.
Every thread that runs is on it, or the call or the join has it. -/
structure Staffed (k : Crew) (now : Caller) (l : List (ℕ × ℕ)) : Prop where
  linked : Linked k.records k.threads (l ++ now.hung)
  last : LastIs k.lastThread (l ++ now.trailing)
  count : k.numThreads.toInt = l.length
  room : now.adds → l.length + 1 < 2 ^ 31
  created : ∀ a w, now = .created a w →
    k.records a = some ⟨w, none⟩ ∧ a ∉ l.map Prod.fst
  loaded : ∀ a w n, now = .loaded a w n → n = k.numThreads
  removed : ∀ a, k.closing = .waiting a → a ∉ l.map Prod.fst
  alive : ∀ w, (k.worker w).Living → w ∈ l.map Prod.snd ∨ w ∈ now.made ∨
    ∃ a next, k.closing = .waiting a ∧ k.records a = some ⟨w, next⟩
  joined : k.closing = .deleting ∨ k.closing = .returned → l = []

namespace Staffed

variable {k : Crew} {now : Caller} {l : List (ℕ × ℕ)} {a w : ℕ}

/-- The stage of a call that adds no thread does not matter. -/
theorem of_not_adds (h : Staffed k now l) (hnow : ¬ now.adds) {now' : Caller}
    (hnow' : ¬ now'.adds) : Staffed k now' l := by
  obtain ⟨hhung, htrailing, hmade⟩ :
      now.hung = now'.hung ∧ now.trailing = now'.trailing ∧
        now.made = now'.made := by
    cases now <;> cases now' <;>
      first | exact ⟨rfl, rfl, rfl⟩ | exact absurd trivial hnow |
        exact absurd trivial hnow'
  refine ⟨hhung ▸ h.linked, htrailing ▸ h.last, h.count,
    fun hadds => absurd hadds hnow', ?_, ?_, h.removed, ?_, h.joined⟩
  · rintro a w rfl
    exact absurd trivial hnow'
  · rintro a w n rfl
    exact absurd trivial hnow'
  · rw [← hmade]
    exact h.alive

/-- A thread that was not running does not start to. -/
theorem of_worker (h : Staffed k now l) {worker : ℕ → Worker}
    (hworker : ∀ v, (worker v).Living → (k.worker v).Living) :
    Staffed { k with worker } now l :=
  { h with alive := fun v hv => h.alive v (hworker v hv) }

/-- A call finds that there are few threads and many requests. -/
theorem choose (h : Staffed k now l) (hnow : ¬ now.adds) {max : Int32}
    (hmax : k.numThreads < max) : Staffed k .adding l := by
  have hidle : Staffed k .idle l := h.of_not_adds hnow id
  refine { hidle with
    linked := hidle.linked
    last := hidle.last
    room := fun _ => ?_
    created := nofun
    loaded := nofun
    alive := hidle.alive }
  have hlt := Int32.lt_iff_toInt_lt.mp hmax
  have hle := max.toInt_lt
  have hcount := h.count
  omega

theorem create (h : Staffed k .adding l) (ha : k.records a = none) :
    Staffed { k with
      records := Function.update k.records a (some ⟨w, none⟩)
      worker := Function.update k.worker w .ready } (.created a w) l := by
  have hlinked : Linked k.records k.threads l := by
    simpa [Caller.hung] using h.linked
  have hfresh : a ∉ l.map Prod.fst := by
    intro hmem
    obtain ⟨p, hp, rfl⟩ := List.mem_map.mp hmem
    obtain ⟨next, hread⟩ := hlinked.read hp
    cases ha.symm.trans hread
  refine ⟨?_, h.last, h.count, fun _ => h.room trivial, ?_, nofun, h.removed, ?_,
    h.joined⟩
  · simpa [Caller.hung] using hlinked.update hfresh _
  · rintro _ _ ⟨⟩
    exact ⟨Function.update_self _ _ _, hfresh⟩
  · intro v hv
    rcases eq_or_ne v w with rfl | hne
    · exact .inr (.inl List.mem_cons_self)
    · have hv : (k.worker v).Living := by
        simpa [Function.update_of_ne hne] using hv
      rcases h.alive v hv with hmem | hmade | ⟨b, next, hwait, hread⟩
      · exact .inl hmem
      · cases hmade
      · refine .inr (.inr ⟨b, next, hwait, ?_⟩)
        refine (Function.update_of_ne ?_ _ _).trans hread
        rintro rfl
        cases ha.symm.trans hread

theorem link (h : Staffed k (.created a w) l) (hclosing : k.closing = .running) :
    ∃ records threads, hang (k.numThreads = 0) k.records k.threads k.lastThread a =
        some (records, threads) ∧
      Staffed { k with records, threads } (.linked a w) l := by
  obtain ⟨hread, hfresh⟩ := h.created a w rfl
  have hlinked : Linked k.records k.threads l := by
    simpa [Caller.hung] using h.linked
  have hlast : LastIs k.lastThread l := by
    simpa [Caller.trailing] using h.last
  obtain ⟨records, threads, hhang, hlinked', -⟩ :=
    hlinked.hang hlast hread hfresh (decide_eq_isEmpty h.count)
  refine ⟨records, threads, hhang, hlinked', h.last, h.count,
    fun _ => h.room trivial, nofun, nofun, h.removed, ?_, h.joined⟩
  intro v hv
  rcases h.alive v hv with hmem | hmade | ⟨b, next, hwait, -⟩
  · exact .inl hmem
  · exact .inr (.inl hmade)
  · cases hclosing.symm.trans hwait

theorem setLast (h : Staffed k (.linked a w) l) :
    Staffed { k with lastThread := some a } (.placed a w) l :=
  ⟨h.linked, lastIs_append a w l, h.count, fun _ => h.room trivial, nofun, nofun,
    h.removed, h.alive, h.joined⟩

theorem loadThreads (h : Staffed k (.placed a w) l) :
    Staffed k (.loaded a w k.numThreads) l := by
  refine ⟨h.linked, h.last, h.count, fun _ => h.room trivial, nofun, ?_,
    h.removed, h.alive, h.joined⟩
  rintro _ _ _ ⟨⟩
  rfl

theorem storeThreads {n : Int32} (h : Staffed k (.loaded a w n) l)
    (hclosing : k.closing = .running) :
    Staffed { k with numThreads := n + 1 } .idle (l ++ [(a, w)]) := by
  have hroom := h.room trivial
  have hcount := h.count
  obtain rfl := h.loaded a w n rfl
  refine ⟨?_, ?_, ?_, nofun, nofun, nofun, ?_, ?_, ?_⟩
  · simpa [Caller.hung] using h.linked
  · simpa [Caller.trailing] using h.last
  · show (k.numThreads + 1).toInt = _
    rw [toInt_add_one (by omega), hcount, List.length_append,
      List.length_singleton]
    rfl
  · intro b hwait
    cases hclosing.symm.trans hwait
  · intro v hv
    rcases h.alive v hv with hmem | hmade | ⟨b, next, hwait, -⟩
    · exact .inl (by simp only [List.map_append]; exact List.mem_append_left _ hmem)
    · obtain rfl : v = w := by simpa [Caller.made] using hmade
      exact .inl (by simp)
    · cases hclosing.symm.trans hwait
  · rintro (hdone | hdone) <;> cases hclosing.symm.trans hdone

theorem pos_iff (h : Staffed k now l) : 0 < k.numThreads ↔ l ≠ [] := by
  rw [ThreadPool.pos_iff, h.count, ← List.length_pos_iff]
  omega

theorem removeFirst (h : Staffed k .idle ((a, w) :: l))
    (hclosing : k.closing = .joining) :
    ∃ next, k.threads = some a ∧ k.records a = some ⟨w, next⟩ ∧
      Staffed { k with
        records := Function.update k.records a (some ⟨w, none⟩)
        threads := next
        numThreads := k.numThreads - 1
        closing := .waiting a } .idle l := by
  have hlinked : Linked k.records k.threads ((a, w) :: l) := by
    simpa [Caller.hung] using h.linked
  obtain ⟨hfirst, next, hread, hrest⟩ := linked_cons_iff.mp hlinked
  have hout := (List.nodup_cons.mp hlinked.nodup).1
  refine ⟨next, hfirst, hread, ?_, ?_, ?_, nofun, nofun, nofun, ?_, ?_, nofun⟩
  · simpa [Caller.hung] using hrest.update hout _
  · have hlast : LastIs k.lastThread ((a, w) :: l) := by
      simpa [Caller.trailing] using h.last
    intro p hp
    have hp : p ∈ l.getLast? := by simpa [Caller.trailing] using hp
    refine hlast p ?_
    rw [List.getLast?_cons]
    simp [Option.mem_def.mp hp]
  · have hcount := h.count
    rw [List.length_cons] at hcount
    show (k.numThreads - 1).toInt = _
    rw [toInt_sub_one (by omega), hcount]
    omega
  · rintro _ ⟨⟩
    exact hout
  · intro v hv
    rcases h.alive v hv with hmem | hmade | ⟨b, next', hwait, -⟩
    · rcases List.mem_cons.mp hmem with rfl | hmem
      · exact .inr (.inr ⟨a, none, rfl, Function.update_self _ _ _⟩)
      · exact .inl hmem
    · cases hmade
    · cases hclosing.symm.trans hwait

theorem join (h : Staffed k .idle l) (hclosing : k.closing = .waiting a)
    {node : Node ℕ ℕ} (hnode : k.records a = some node)
    (hfinished : k.worker node.value = .finished) :
    Staffed { k with
      records := Function.update k.records a none
      closing := .joining } .idle l := by
  have hlinked : Linked k.records k.threads l := by
    simpa [Caller.hung] using h.linked
  refine ⟨?_, h.last, h.count, nofun, nofun, nofun, nofun, ?_, nofun⟩
  · simpa [Caller.hung] using hlinked.update (h.removed a hclosing) none
  · intro v hv
    rcases h.alive v hv with hmem | hmade | ⟨b, next, hwait, hread⟩
    · exact .inl hmem
    · cases hmade
    · cases hclosing.symm.trans hwait
      cases hnode.symm.trans hread
      exact absurd hfinished hv.2

/-- `lwfs_thread_pool_fini` goes on, with no thread that it waits for. -/
theorem close (h : Staffed k .idle l) (hold : ∀ b, k.closing ≠ .waiting b)
    {closing : Closing} (hnew : ∀ b, closing ≠ .waiting b)
    (hjoined : closing = .deleting ∨ closing = .returned → l = []) :
    Staffed { k with closing } .idle l := by
  refine { h with
    linked := h.linked
    last := h.last
    removed := fun b hb => absurd hb (hnew b)
    alive := fun v hv => ?_
    joined := hjoined }
  rcases h.alive v hv with hmem | hmade | ⟨b, next, hwait, -⟩
  · exact .inl hmem
  · exact .inr (.inl hmade)
  · exact absurd hwait (hold b)

end Staffed

/-! ### Runs of an orderly pool -/

/-- Some call may be adding a thread, and the others are not. -/
def Pool.Manned (s : Pool J) : Prop :=
  ∃ c l, (∀ c' ≠ c, ¬ (s.caller c').adds) ∧ Staffed s.crew (s.caller c) l

structure Ordered (s : Pool J) : Prop where
  manned : s.Manned
  quiet : s.closing ≠ .running → ∀ c, s.caller c = .idle
  flag : s.shutdownNow = true ↔ s.closing ≠ .running
  someone : ∃ w, s.worker w ≠ .unborn
  early : s.exitNow = false → ∀ w, s.worker w = .finished →
    s.shutdownNow = true ∧ s.added.length = s.taken.length
  kept : s.exitNow = false → ∀ e ∈ s.taken, e.1 ≠ none

namespace Ordered

variable {s s' : Pool J} {c : ℕ} {stage : Caller}

theorem running (h : Ordered s) (hc : s.caller c ≠ .idle) :
    s.closing = .running :=
  not_not.mp fun hclosing => hc (h.quiet hclosing c)

/-- The call that adds a thread is the one that the list waits for. -/
theorem manned_at (h : Ordered s) (hc : (s.caller c).adds) :
    ∃ l, (∀ c' ≠ c, ¬ (s.caller c').adds) ∧ Staffed s.crew (s.caller c) l := by
  obtain ⟨c', l, hothers, hstaffed⟩ := h.manned
  rcases eq_or_ne c c' with rfl | hne
  · exact ⟨l, hothers, hstaffed⟩
  · exact absurd hc (hothers c hne)

theorem manned_idle (h : Ordered s) (hclosing : s.closing ≠ .running) :
    ∃ l, Staffed s.crew .idle l := by
  obtain ⟨c, l, -, hstaffed⟩ := h.manned
  exact ⟨l, h.quiet hclosing c ▸ hstaffed⟩

theorem manned_of_idle {l : List (ℕ × ℕ)} (hidle : ∀ c, s.caller c = .idle)
    (h : Staffed s.crew .idle l) : s.Manned := by
  refine ⟨0, l, fun c _ => ?_, (hidle 0).symm ▸ h⟩
  rw [hidle c]
  exact id

theorem manned_of_update {l : List (ℕ × ℕ)}
    (hcaller : s'.caller = Function.update s.caller c stage)
    (hothers : ∀ c' ≠ c, ¬ (s.caller c').adds)
    (h : Staffed s'.crew stage l) : s'.Manned := by
  refine ⟨c, l, fun c' hne => ?_, ?_⟩
  · rw [hcaller, Function.update_of_ne hne]
    exact hothers c' hne
  · rwa [hcaller, Function.update_self]

/-- A call that adds no thread goes on to a stage where it adds none. -/
theorem manned_call (h : Ordered s) (hcrew : s'.crew = s.crew)
    (hcaller : s'.caller = Function.update s.caller c stage)
    (hold : ¬ (s.caller c).adds) (hnew : ¬ stage.adds) : s'.Manned := by
  obtain ⟨c', l, hothers, hstaffed⟩ := h.manned
  refine ⟨c', l, fun b hb => ?_, ?_⟩
  · rw [hcaller]
    rcases eq_or_ne b c with rfl | hne
    · rwa [Function.update_self]
    · rw [Function.update_of_ne hne]
      exact hothers b hb
  · rw [hcrew, hcaller]
    rcases eq_or_ne c' c with rfl | hne
    · rw [Function.update_self]
      exact hstaffed.of_not_adds hold hnew
    · rwa [Function.update_of_ne hne]

/-! The steps of a call. -/

theorem enqueue (h : Ordered s) {a : ℕ} {job : J} (hclosing : s.closing = .running)
    (hnext : s.enqueue c a job = some s') : Ordered s' := by
  simp only [Pool.enqueue] at hnext
  split at hnext
  next hguard =>
    obtain ⟨queue, -, rfl⟩ := Option.map_eq_some_iff.mp hnext
    refine { h with
      manned := h.manned_call rfl rfl (hguard.1 ▸ id) id
      quiet := fun hne => absurd hclosing hne
      early := fun hexit w hw => ?_ }
    exact absurd hclosing (h.flag.mp (h.early hexit w hw).1)
  next => cases hnext

theorem count (h : Ordered s) (hnext : s.count c = some s') : Ordered s' := by
  simp only [Pool.count] at hnext
  split at hnext
  next hc =>
    cases hnext
    have hrun := h.running (c := c) (by simp [hc])
    exact { h with
      manned := h.manned_call rfl rfl (hc ▸ id) id
      quiet := fun hne => absurd hrun hne }
  next => cases hnext

theorem choose (h : Ordered s) (horderly : Orderly s (.choose c))
    (hnext : s.choose c = some s') : Ordered s' := by
  simp only [Pool.choose] at hnext
  split at hnext
  next n hc =>
    cases hnext
    have hrun := h.running (c := c) (by simp [hc])
    refine { h with manned := ?_, quiet := fun hne => absurd hrun hne }
    by_cases hcrowded : s.Crowded n
    · -- No other call adds a thread, so this one may.
      have hnone := horderly n hc hcrowded
      obtain ⟨c', l, -, hstaffed⟩ := h.manned
      rw [if_pos hcrowded]
      exact manned_of_update rfl (fun b _ => hnone b)
        (hstaffed.choose (hnone c') hcrowded.2)
    · rw [if_neg hcrowded]
      exact h.manned_call rfl rfl (hc ▸ id) id
  next => cases hnext

theorem create (h : Ordered s) {a w : ℕ} (hnext : s.create c a w = some s') :
    Ordered s' := by
  simp only [Pool.create] at hnext
  split at hnext
  next hguard =>
    cases hnext
    obtain ⟨hc, hrecord, hw⟩ := hguard
    have hrun := h.running (c := c) (by simp [hc])
    obtain ⟨l, hothers, hstaffed⟩ := h.manned_at (c := c) (by rw [hc]; trivial)
    rw [hc] at hstaffed
    refine { h with
      manned := manned_of_update rfl hothers
        (hstaffed.create (Option.isNone_iff_eq_none.mp hrecord))
      quiet := fun hne => absurd hrun hne
      someone := ⟨w, by simp [Pool.setCaller, Pool.setWorker]⟩
      early := fun hexit v hv => h.early hexit v ?_ }
    rcases eq_or_ne v w with rfl | hne
    · simp [Pool.setCaller, Pool.setWorker] at hv
    · exact (Function.update_of_ne hne _ _).symm.trans hv
  next => cases hnext

theorem link (h : Ordered s) (hnext : s.link c = some s') : Ordered s' := by
  simp only [Pool.link] at hnext
  split at hnext
  next a w hc =>
    have hrun := h.running (c := c) (by simp [hc])
    obtain ⟨l, hothers, hstaffed⟩ := h.manned_at (c := c) (by rw [hc]; trivial)
    rw [hc] at hstaffed
    obtain ⟨records, threads, hhang, hlinked⟩ := hstaffed.link hrun
    obtain ⟨p, hp, rfl⟩ := Option.map_eq_some_iff.mp hnext
    cases hhang.symm.trans hp
    exact { h with
      manned := manned_of_update rfl hothers hlinked
      quiet := fun hne => absurd hrun hne }
  next => cases hnext

theorem setLast (h : Ordered s) (hnext : s.setLast c = some s') : Ordered s' := by
  simp only [Pool.setLast] at hnext
  split at hnext
  next a w hc =>
    cases hnext
    have hrun := h.running (c := c) (by simp [hc])
    obtain ⟨l, hothers, hstaffed⟩ := h.manned_at (c := c) (by rw [hc]; trivial)
    rw [hc] at hstaffed
    exact { h with
      manned := manned_of_update rfl hothers hstaffed.setLast
      quiet := fun hne => absurd hrun hne }
  next => cases hnext

theorem loadThreads (h : Ordered s) (hnext : s.loadThreads c = some s') :
    Ordered s' := by
  simp only [Pool.loadThreads] at hnext
  split at hnext
  next a w hc =>
    cases hnext
    have hrun := h.running (c := c) (by simp [hc])
    obtain ⟨l, hothers, hstaffed⟩ := h.manned_at (c := c) (by rw [hc]; trivial)
    rw [hc] at hstaffed
    exact { h with
      manned := manned_of_update rfl hothers hstaffed.loadThreads
      quiet := fun hne => absurd hrun hne }
  next => cases hnext

theorem storeThreads (h : Ordered s) (hnext : s.storeThreads c = some s') :
    Ordered s' := by
  simp only [Pool.storeThreads] at hnext
  split at hnext
  next a w n hc =>
    cases hnext
    have hrun := h.running (c := c) (by simp [hc])
    obtain ⟨l, hothers, hstaffed⟩ := h.manned_at (c := c) (by rw [hc]; trivial)
    rw [hc] at hstaffed
    exact { h with
      manned := manned_of_update rfl hothers (hstaffed.storeThreads hrun)
      quiet := fun hne => absurd hrun hne }
  next => cases hnext

/-! The steps of a worker. -/

variable {l : List (ℕ × Request J)} {w : ℕ}

theorem manned_worker (h : Ordered s) {worker : ℕ → Worker}
    (hworker : ∀ v, (worker v).Living → (s.worker v).Living) :
    Pool.Manned { s with worker } := by
  obtain ⟨c, l, hothers, hstaffed⟩ := h.manned
  exact ⟨c, l, hothers, hstaffed.of_worker hworker⟩

theorem living_update (hw : (s.worker w).Living) {stage : Worker} {v : ℕ}
    (hv : (Function.update s.worker w stage v).Living) : (s.worker v).Living := by
  rcases eq_or_ne v w with rfl | hne
  · exact hw
  · rwa [Function.update_of_ne hne] at hv

/-- A worker that finds no request leaves an empty queue behind. -/
theorem length_of_empty (hk : Working s.work l)
    (hnone : ¬ 0 < s.queue.numRequests) : s.added.length = s.taken.length := by
  obtain rfl : l = [] := not_not.mp fun hne => hnone (hk.holds.pos_iff.mpr hne)
  exact hk.length_added

theorem pos_of_length (hk : Working s.work l) (hpos : 0 < s.queue.numRequests) :
    s.added.length ≠ s.taken.length := by
  have hlength : s.added.length = s.taken.length + l.length := hk.length_added
  have hl := List.length_pos_iff.mpr (hk.holds.pos_iff.mp hpos)
  omega

theorem finish_worker (h : Ordered s) (hw : (s.worker w).Living)
    (hempty : s.exitNow = false →
      s.shutdownNow = true ∧ s.added.length = s.taken.length) :
    Ordered (s.setWorker w .finished) :=
  { h with
    manned := h.manned_worker fun _ => living_update hw
    someone := ⟨w, by simp [Pool.setWorker]⟩
    early := fun hexit _ _ => hempty hexit }

theorem turn (h : Ordered s) (hk : Working s.work l)
    (hnext : s.turn w = some s') : Ordered s' := by
  simp only [Pool.turn] at hnext
  split at hnext
  next hw =>
    have hliving : (s.worker w).Living := by
      rw [hw]
      simp [Worker.Living]
    split at hnext
    next hexit =>
      cases hnext
      refine h.finish_worker hliving fun hfalse => ?_
      cases hexit.symm.trans hfalse
    next hexit =>
      split at hnext
      next hpos =>
        obtain ⟨⟨o, queue⟩, -, rfl⟩ := Option.map_eq_some_iff.mp hnext
        cases o with
        | none => exact { h with manned := h.manned }
        | some p =>
            have hlength := pos_of_length hk hpos
            refine { h with
              manned := h.manned_worker fun _ => living_update hliving
              someone := ⟨w, by simp [Pool.setWorker]⟩
              early := fun hfalse v hv => ?_
              kept := fun hfalse e he => ?_ }
            · have hv : s.worker v = .finished := by
                rcases eq_or_ne v w with rfl | hne
                · simp [Pool.setWorker] at hv
                · exact (Function.update_of_ne hne _ _).symm.trans hv
              exact absurd (h.early hfalse v hv).2 hlength
            · rcases List.mem_append.mp he with hold | hnew
              · exact h.kept hfalse e hold
              · rw [List.mem_singleton.mp hnew]
                simp
      next hpos =>
        split at hnext
        next hshut =>
          cases hnext
          exact h.finish_worker hliving fun _ => ⟨hshut, length_of_empty hk hpos⟩
        next =>
          cases hnext
          exact h
  next => cases hnext

/-- A worker in the middle of its work goes on. -/
theorem work_on (h : Ordered s) (hw : (s.worker w).Living) {stage : Worker}
    (hstage : stage.Living) : Ordered (s.setWorker w stage) :=
  { h with
    manned := h.manned_worker fun _ => living_update hw
    someone := ⟨w, by simpa [Pool.setWorker] using hstage.1⟩
    early := fun hexit v hv => by
      refine h.early hexit v ?_
      rcases eq_or_ne v w with rfl | hne
      · exact absurd (by simpa [Pool.setWorker] using hv) hstage.2
      · exact (Function.update_of_ne hne _ _).symm.trans hv }

theorem call (h : Ordered s) (hnext : s.call w = some s') : Ordered s' := by
  simp only [Pool.call] at hnext
  split at hnext
  next a hw =>
    obtain ⟨node, -, rfl⟩ := Option.map_eq_some_iff.mp hnext
    have hon : Ordered (s.setWorker w (.served a)) :=
      h.work_on (by simp [Worker.Living, hw]) (by simp [Worker.Living])
    exact { hon with manned := hon.manned }
  next => cases hnext

theorem free (h : Ordered s) (hnext : s.free w = some s') : Ordered s' := by
  simp only [Pool.free] at hnext
  split at hnext
  next a hw =>
    cases hnext
    have hon : Ordered (s.setWorker w .ready) :=
      h.work_on (by simp [Worker.Living, hw]) (by simp [Worker.Living])
    exact { hon with manned := hon.manned }
  next => cases hnext

/-! The steps of the shutdown. -/

theorem shutdown (h : Ordered s) (hidle : ∀ c, s.caller c = .idle)
    (hnext : s.shutdown = some s') : Ordered s' := by
  simp only [Pool.shutdown] at hnext
  split at hnext
  next hclosing =>
    cases hnext
    obtain ⟨c, l, -, hstaffed⟩ := h.manned
    rw [hidle c] at hstaffed
    have hclose : Staffed { s.crew with closing := .joining } .idle l := hstaffed.close
      (fun b hb => by cases hclosing.symm.trans hb) (by simp) (by rintro (h | h) <;> cases h)
    refine { h with
      manned := manned_of_idle hidle hclose
      quiet := fun _ => hidle
      flag := iff_of_true rfl (by simp)
      early := fun hexit w hw => ?_ }
    exact absurd hclosing (h.flag.mp (h.early hexit w hw).1)
  next => cases hnext

theorem removeFirst (h : Ordered s) (hnext : s.removeFirst = some s') :
    Ordered s' := by
  simp only [Pool.removeFirst] at hnext
  split at hnext
  next hguard =>
    obtain ⟨hclosing, hpos⟩ := hguard
    have hne : s.closing ≠ .running := by
      rw [hclosing]
      simp
    obtain ⟨l, hstaffed⟩ := h.manned_idle hne
    obtain ⟨⟨a, w⟩, l', rfl⟩ :=
      List.exists_cons_of_ne_nil (hstaffed.pos_iff.mp hpos)
    obtain ⟨next, hthreads, hread, hstaffed'⟩ := hstaffed.removeFirst hclosing
    have hthreads : s.threads = some a := hthreads
    have hread : s.records a = some ⟨w, next⟩ := hread
    rw [hthreads, Option.bind_some, hread] at hnext
    cases hnext
    exact { h with
      manned := manned_of_idle (h.quiet hne) hstaffed'
      quiet := fun _ => h.quiet hne
      flag := iff_of_true (h.flag.mpr hne) (by simp) }
  next => cases hnext

theorem join (h : Ordered s) (hnext : s.join = some s') : Ordered s' := by
  simp only [Pool.join] at hnext
  split at hnext
  next a hclosing =>
    have hne : s.closing ≠ .running := by
      rw [hclosing]
      simp
    obtain ⟨l, hstaffed⟩ := h.manned_idle hne
    obtain ⟨node, hnode, hnext⟩ := Option.bind_eq_some_iff.mp hnext
    split at hnext
    next hfinished =>
      cases hnext
      exact { h with
        manned := manned_of_idle (h.quiet hne)
          (hstaffed.join hclosing hnode hfinished)
        quiet := fun _ => h.quiet hne
        flag := iff_of_true (h.flag.mpr hne) (by simp) }
    next => cases hnext
  next => cases hnext

theorem deleteQueue (h : Ordered s) (hnext : s.deleteQueue = some s') :
    Ordered s' := by
  simp only [Pool.deleteQueue] at hnext
  split at hnext
  next hguard =>
    cases hnext
    obtain ⟨hclosing, hnone⟩ := hguard
    have hne : s.closing ≠ .running := by
      rw [hclosing]
      simp
    obtain ⟨l, hstaffed⟩ := h.manned_idle hne
    have hclose : Staffed { s.crew with closing := .deleting } .idle l := hstaffed.close
      (fun b hb => by cases hclosing.symm.trans hb) (by simp)
      fun _ => not_not.mp fun hl => hnone (hstaffed.pos_iff.mpr hl)
    exact { h with
      manned := manned_of_idle (h.quiet hne) hclose
      quiet := fun _ => h.quiet hne
      flag := iff_of_true (h.flag.mpr hne) (by simp) }
  next => cases hnext

/-- Once every thread is joined none of them runs. -/
theorem finished_of_joined (h : Ordered s)
    (hclosing : s.closing = .deleting ∨ s.closing = .returned) (w : ℕ) :
    s.worker w = .unborn ∨ s.worker w = .finished := by
  have hne : s.closing ≠ .running := by
    rcases hclosing with h | h <;> rw [h] <;> simp
  obtain ⟨l, hstaffed⟩ := h.manned_idle hne
  obtain rfl := hstaffed.joined hclosing
  by_contra! hliving
  rcases hstaffed.alive w hliving with hmem | hmade | ⟨a, next, hwait, -⟩
  · cases hmem
  · cases hmade
  · have hwait : s.closing = .waiting a := hwait
    rcases hclosing with h | h <;> cases h.symm.trans hwait

/-- The queue is then empty, unless the process was told to exit. -/
theorem length_of_joined (h : Ordered s)
    (hclosing : s.closing = .deleting ∨ s.closing = .returned)
    (hexit : s.exitNow = false) : s.added.length = s.taken.length := by
  obtain ⟨w, hw⟩ := h.someone
  exact (h.early hexit w ((h.finished_of_joined hclosing w).resolve_left hw)).2

theorem discard (h : Ordered s) (hk : Working s.work l)
    (hnext : s.discard = some s') : Ordered s' := by
  simp only [Pool.discard] at hnext
  split at hnext
  next hguard =>
    obtain ⟨hclosing, hpos⟩ := hguard
    have hexit : s.exitNow = false → False := fun hfalse =>
      pos_of_length hk hpos (h.length_of_joined (.inl hclosing) hfalse)
    obtain ⟨⟨o, queue⟩, -, rfl⟩ := Option.map_eq_some_iff.mp hnext
    cases o with
    | none => exact { h with manned := h.manned }
    | some p =>
        exact { h with
          manned := h.manned
          early := fun hfalse => (hexit hfalse).elim
          kept := fun hfalse => (hexit hfalse).elim }
  next => cases hnext

theorem finish (h : Ordered s) (hnext : s.finish = some s') : Ordered s' := by
  simp only [Pool.finish] at hnext
  split at hnext
  next hguard =>
    cases hnext
    have hne : s.closing ≠ .running := by
      rw [hguard.1]
      simp
    obtain ⟨l, hstaffed⟩ := h.manned_idle hne
    have hclose : Staffed { s.crew with closing := .returned } .idle l := hstaffed.close
      (fun b hb => by cases hguard.1.symm.trans hb) (by simp)
      fun _ => hstaffed.joined (.inl hguard.1)
    exact { h with
      manned := manned_of_idle (h.quiet hne) hclose
      quiet := fun _ => h.quiet hne
      flag := iff_of_true (h.flag.mpr hne) (by simp) }
  next => cases hnext

theorem setExit (h : Ordered s) : Ordered { s with exitNow := true } :=
  { h with
    manned := h.manned
    early := fun h => by cases h
    kept := fun h => by cases h }

theorem step (h : Ordered s) (hk : Working s.work l) {action : Action J}
    (horderly : Orderly s action) : Ordered (s.step action) := by
  cases hnext : s.next action with
  | none =>
      rw [Pool.step_of_none hnext]
      exact h
  | some s' =>
      rw [Pool.step_of_some hnext]
      cases action with
      | enqueue => exact h.enqueue horderly hnext
      | count => exact h.count hnext
      | choose => exact h.choose horderly hnext
      | create => exact h.create hnext
      | link => exact h.link hnext
      | setLast => exact h.setLast hnext
      | loadThreads => exact h.loadThreads hnext
      | storeThreads => exact h.storeThreads hnext
      | turn => exact h.turn hk hnext
      | call => exact h.call hnext
      | free => exact h.free hnext
      | setExit =>
          cases hnext
          exact h.setExit
      | shutdown => exact h.shutdown horderly hnext
      | removeFirst => exact h.removeFirst hnext
      | join => exact h.join hnext
      | deleteQueue => exact h.deleteQueue hnext
      | discard => exact h.discard hk hnext
      | finish => exact h.finish hnext

end Ordered

theorem Args.initialThreads_lt (args : Args) : args.initialThreads < 2 ^ 31 := by
  have h := args.checked.initialThreadCount.toInt_lt
  unfold initialThreads
  omega

/-- The list that `lwfs_thread_pool_init` makes for `n` threads. -/
theorem staffed_range {n : ℕ} (hn : n < 2 ^ 31) :
    Staffed
      { records := fun a =>
          if a < n then some ⟨a, if a + 1 < n then some (a + 1) else none⟩ else none
        threads := if 0 < n then some 0 else none
        lastThread := if 0 < n then some (n - 1) else none
        numThreads := Int32.ofNat n
        worker := fun w => if w < n then .ready else .unborn
        closing := .running }
      .idle ((List.range' 0 n).map fun a => (a, a)) where
  linked := by
    have h := linked_range n id 0
    simp only [Nat.zero_add] at h
    exact (List.append_nil _).symm ▸ h
  last := by
    rintro ⟨a, w⟩ hp
    simp only [Caller.trailing, List.append_nil, List.getLast?_map,
      List.getLast?_range', Option.mem_def, Option.map_eq_some_iff] at hp
    obtain ⟨b, hb, ⟨⟩⟩ := hp
    split at hb
    · cases hb
    · cases hb
      simp only [Nat.zero_add]
      exact if_pos (by omega)
  count := by
    simp [Int32.toInt_ofNat_of_lt hn]
  room := nofun
  created := nofun
  loaded := nofun
  removed := nofun
  alive := by
    intro w hw
    left
    have hw : w < n := by
      by_contra hge
      exact hw.1 (if_neg hge)
    simpa using hw
  joined := by
    rintro (h | h) <;> cases h

theorem Args.staffed_init (args : Args) :
    Staffed (init (J := J) args).crew .idle
      ((List.range' 0 args.initialThreads).map fun a => (a, a)) := by
  have h := staffed_range args.initialThreads_lt
  generalize hn : args.initialThreads = n at h
  unfold init Pool.crew
  simp only [hn]
  exact h

theorem ordered_init (args : Args) (hsome : 0 < args.initialThreads) :
    Ordered (init (J := J) args) where
  manned := Ordered.manned_of_idle (fun _ => rfl) args.staffed_init
  quiet := fun _ _ => rfl
  flag := iff_of_false nofun fun h => h rfl
  someone := ⟨0, by simp [init, hsome]⟩
  early := by
    intro _ w hw
    simp only [init] at hw
    split at hw <;> cases hw
  kept := nofun

/-- When every thread has been joined, nothing is left in anyone's hands. -/
theorem Ordered.drained {s : Pool J} {l : List (ℕ × Request J)} (h : Ordered s)
    (hk : Working s.work l) : Drained s := by
  intro hreturned hexit
  have hlength := h.length_of_joined (.inr hreturned) hexit
  have hadded : s.added = s.taken.map Prod.snd := by
    have hsplit : s.added = s.taken.map Prod.snd ++ l.map Prod.snd := hk.split
    have hall : s.added.length = s.taken.length + l.length := hk.length_added
    obtain rfl : l = [] := List.eq_nil_of_length_eq_zero (by omega)
    simpa using hsplit
  refine (List.perm_ext_iff_of_nodup hk.calledNodup hk.addedNodup).mpr fun r => ?_
  constructor
  · intro hr
    obtain ⟨e, he, rfl⟩ := List.mem_map.mp hr
    have : e.2 ∈ s.added := hadded ▸ List.mem_map_of_mem (hk.calledTaken e he)
    exact this
  · intro hr
    have hr : r ∈ s.taken.map Prod.snd := hadded ▸ hr
    obtain ⟨⟨o, r⟩, he, rfl⟩ := List.mem_map.mp hr
    cases o with
    | none => exact absurd rfl (h.kept hexit _ he)
    | some w =>
        refine (hk.pending w r he).resolve_right ?_
        rintro ⟨a, next, hw, -⟩
        have hw : s.worker w = .holding a := hw
        rcases h.finished_of_joined (.inr hreturned) w with hdone | hdone <;>
          cases hw.symm.trans hdone

theorem conserved_and_drained (args : Args) (run : List (Action J))
    (hroom : Run.Along Pool.step Roomy (init args) run) :
    Conserved (Run.exec Pool.step (init args) run) ∧
      (0 < args.initialThreads →
        Run.Along Pool.step Orderly (init args) run →
          Drained (Run.exec Pool.step (init args) run)) := by
  obtain ⟨l, hk⟩ := Pool.exists_working args hroom
  refine ⟨hk.conserved, fun hsome horderly => ?_⟩
  have hstep : ∀ (s : Pool J) action,
      (∃ l, Working s.work l) ∧ Ordered s → Roomy s action ∧ Orderly s action →
        (∃ l, Working (s.step action).work l) ∧ Ordered (s.step action) := by
    rintro s action ⟨⟨l, hs⟩, hordered⟩ ⟨hroom, horderly⟩
    exact ⟨Pool.working_step hs hroom, hordered.step hs horderly⟩
  have hinit : (∃ l, Working (init (J := J) args).work l) ∧
      Ordered (init (J := J) args) :=
    ⟨⟨[], Pool.working_init args⟩, ordered_init args hsome⟩
  have hend := Run.exec_invariant hstep hinit
    ((Run.along_and _ _ _ _ _).mpr ⟨hroom, horderly⟩)
  exact hend.2.drained hk

/-- One thread to begin with, and more as soon as two requests wait. -/
def soloArgs : Args where
  initialThreadCount := 1
  minThreadCount := 1
  maxThreadCount := 3
  lowWatermark := 1
  highWatermark := 1

/-- The caller whose call takes the step. -/
def Action.caller : Action J → Option ℕ
  | .enqueue c _ _ | .count c | .choose c | .create c _ _ | .link c | .setLast c
  | .loadThreads c | .storeThreads c => some c
  | _ => none

theorem Pool.caller_next {s t : Pool J} {action : Action J} {c : ℕ}
    (hc : action.caller ≠ some c) (h : s.next action = some t) :
    t.caller c = s.caller c := by
  have hne : ∀ c', action.caller = some c' → c ≠ c' := by
    rintro c' hcaller rfl
    exact hc hcaller
  -- the actions of the callers first, those of the workers and of the thread that
  -- ends the pool touch no caller at all
  cases action
  case enqueue c' a job =>
    simp only [next, Pool.enqueue, Option.ite_none_right_eq_some,
      Option.map_eq_some_iff] at h
    obtain ⟨-, queue, -, rfl⟩ := h
    exact Function.update_of_ne (hne c' rfl) _ _
  case count c' =>
    obtain ⟨-, h⟩ := Option.ite_none_right_eq_some.mp h
    cases h
    exact Function.update_of_ne (hne c' rfl) _ _
  case create c' a w =>
    obtain ⟨-, h⟩ := Option.ite_none_right_eq_some.mp h
    cases h
    exact Function.update_of_ne (hne c' rfl) _ _
  case link c' =>
    simp only [next, Pool.link] at h
    split at h
    · obtain ⟨p, -, rfl⟩ := Option.map_eq_some_iff.mp h
      exact Function.update_of_ne (hne c' rfl) _ _
    · cases h
  case choose c' | setLast c' | loadThreads c' | storeThreads c' =>
    simp only [next, Pool.choose, Pool.setLast, Pool.loadThreads,
      Pool.storeThreads] at h
    split at h <;> cases h
    exact Function.update_of_ne (hne c' rfl) _ _
  case setExit =>
    cases h
    rfl
  case turn w =>
    simp only [next, Pool.turn] at h
    split_ifs at h <;> try cases h; rfl
    obtain ⟨⟨o, queue⟩, -, rfl⟩ := Option.map_eq_some_iff.mp h
    cases o <;> rfl
  case call w =>
    simp only [next, Pool.call] at h
    split at h
    · obtain ⟨node, -, rfl⟩ := Option.map_eq_some_iff.mp h
      rfl
    · cases h
  case free w =>
    simp only [next, Pool.free] at h
    split at h <;> cases h
    rfl
  case removeFirst =>
    obtain ⟨-, h⟩ := Option.ite_none_right_eq_some.mp h
    obtain ⟨a, -, h⟩ := Option.bind_eq_some_iff.mp h
    obtain ⟨node, -, rfl⟩ := Option.map_eq_some_iff.mp h
    rfl
  case join =>
    simp only [next, Pool.join] at h
    split at h
    · obtain ⟨node, -, h⟩ := Option.bind_eq_some_iff.mp h
      obtain ⟨-, h⟩ := Option.ite_none_right_eq_some.mp h
      cases h
      rfl
    · cases h
  case discard =>
    obtain ⟨-, h⟩ := Option.ite_none_right_eq_some.mp h
    obtain ⟨⟨o, queue⟩, -, rfl⟩ := Option.map_eq_some_iff.mp h
    cases o <;> rfl
  case shutdown | deleteQueue | finish =>
    obtain ⟨-, h⟩ := Option.ite_none_right_eq_some.mp h
    cases h
    rfl

/-- The calls of others leave a caller where it is. -/
theorem Pool.caller_exec {s : Pool J} {run : List (Action J)} {c : ℕ}
    (hc : ∀ action ∈ run, action.caller ≠ some c) :
    (Run.exec Pool.step s run).caller c = s.caller c := by
  induction run generalizing s with
  | nil => rfl
  | cons action run ih =>
      rw [List.forall_mem_cons] at hc
      rw [Run.exec_cons, ih hc.2, step]
      cases hnext : s.next action with
      | none => rfl
      | some t => exact caller_next hc.1 hnext

/-- Three requests come in from two callers. The first caller finds two waiting
and adds a thread, and the two threads serve what there is in turns. -/
def served : List (Action Unit) :=
  [.enqueue 1 1 (), .enqueue 2 2 (), .count 1, .choose 1, .turn 0, .create 1 3 1,
    .link 1, .setLast 1, .count 2, .choose 2, .loadThreads 1, .storeThreads 1,
    .turn 1, .call 1, .enqueue 2 3 (), .free 1, .call 0, .free 0, .turn 1,
    .count 2, .choose 2, .call 1, .shutdown, .turn 0, .removeFirst, .join,
    .free 1, .turn 1, .removeFirst, .join, .deleteQueue, .finish]

theorem orderly_served : Run.Along Pool.step Orderly (init soloArgs) served := by
  -- only the callers 1 and 2 make calls
  have hothers : ∀ n c : ℕ, c ≠ 1 → c ≠ 2 →
      (Run.exec Pool.step (init soloArgs) (served.take n)).caller c = .idle := by
    intro n c h1 h2
    have hall : ∀ action ∈ served, action.caller = none ∨
        action.caller = some 1 ∨ action.caller = some 2 := by decide
    refine Pool.caller_exec fun action haction hc => ?_
    have hcases := hall action (List.mem_of_mem_take haction)
    simp [hc, h1, h2] at hcases
  refine ⟨rfl, rfl, trivial, ?_, trivial, trivial, trivial, trivial, trivial, ?_,
    trivial, trivial, trivial, trivial, rfl, trivial, trivial, trivial, trivial,
    trivial, ?_, trivial, ?_, trivial, trivial, trivial, trivial, trivial, trivial,
    trivial, trivial, trivial, trivial⟩
  · intro n _ _ c
    show ¬ ((Run.exec Pool.step (init soloArgs) (served.take 3)).caller c).adds
    rcases eq_or_ne c 1 with rfl | h1
    · exact id
    rcases eq_or_ne c 2 with rfl | h2
    · exact id
    rw [hothers 3 c h1 h2]
    exact id
  · intro n hn hcrowded
    have hcount : Caller.counted 1 = Caller.counted n := hn
    cases hcount
    exact absurd hcrowded (by decide +kernel)
  · intro n hn hcrowded
    have hcount : Caller.counted 0 = Caller.counted n := hn
    cases hcount
    exact absurd hcrowded (by decide +kernel)
  · intro c
    show (Run.exec Pool.step (init soloArgs) (served.take 22)).caller c = .idle
    rcases eq_or_ne c 1 with rfl | h1
    · decide +kernel
    rcases eq_or_ne c 2 with rfl | h2
    · decide +kernel
    exact hothers 22 c h1 h2

theorem conserved_and_drained_served :
    Conserved (Run.exec Pool.step (init soloArgs) served) ∧
      Drained (Run.exec Pool.step (init soloArgs) served) := by
  obtain ⟨hconserved, hdrained⟩ :=
    conserved_and_drained soloArgs served (by decide +kernel)
  exact ⟨hconserved, hdrained (by decide) orderly_served⟩

/-! ### Where it goes wrong -/

section Failures

/-- Callers that add one request each and get no further. -/
def flood (n : ℕ) : List (Action Unit) :=
  (List.range n).map fun i => .enqueue i i ()

theorem flood_succ (n : ℕ) : flood (n + 1) = flood n ++ [.enqueue n n ()] := by
  simp [flood, List.range_succ]

theorem Pool.step_enqueue {s : Pool J} {l : List (ℕ × Request J)}
    (h : Working s.work l) {c a : ℕ} (hc : s.caller c = .idle)
    (ha : s.queue.heap a = none) (job : J) :
    ∃ queue, addRequest s.queue a (Request.mk s.added.length job) = some queue ∧
      s.step (.enqueue c a job) =
        { s with
          queue
          added := s.added ++ [Request.mk s.added.length job] }.setCaller c
            .enqueued ∧
      queue.numRequests = s.queue.numRequests + 1 ∧
      ∀ b ∉ l.map Prod.fst, b ≠ a → queue.heap b = s.queue.heap b := by
  obtain ⟨queue, hadd, -, -, hnum, hframe⟩ :=
    h.holds.exists_addRequest ha (Request.mk s.added.length job)
  have hadd : addRequest s.queue a (Request.mk s.added.length job) = some queue :=
    hadd
  refine ⟨queue, hadd, Pool.step_of_some ?_, hnum, hframe⟩
  simp only [next, Pool.enqueue]
  rw [if_pos ⟨hc, Option.isNone_iff_eq_none.mpr ha⟩, hadd]
  rfl

/-- As long as the count has room the callers do no harm. -/
theorem flooded (args : Args) {n : ℕ} (hn : n < 2 ^ 31) :
    ∃ l, Working (Run.exec Pool.step (init args) (flood n)).work l ∧
      l.length = n ∧
      ∀ i, n ≤ i →
        (Run.exec Pool.step (init args) (flood n)).caller i = .idle ∧
        (Run.exec Pool.step (init args) (flood n)).queue.heap i = none := by
  induction n with
  | zero => exact ⟨[], Pool.working_init args, rfl, fun _ _ => ⟨rfl, rfl⟩⟩
  | succ n ih =>
      obtain ⟨l, hk, hl, hfree⟩ := ih (by omega)
      rw [flood_succ, Run.exec_append, Run.exec_cons, Run.exec_nil]
      generalize Run.exec Pool.step (init args) (flood n) = s at hk hfree
      obtain ⟨hidle, hnone⟩ := hfree n le_rfl
      obtain ⟨queue, hadd, hstep, -, hframe⟩ :=
        Pool.step_enqueue hk hidle hnone ()
      have hrequest : Request.mk s.added.length () =
        ⟨s.work.added.length, ()⟩ := rfl
      obtain ⟨queue', hadd', hk'⟩ := hk.enqueue hnone hrequest (by omega)
      cases hadd.symm.trans hadd'
      rw [hstep]
      refine ⟨_, hk', by simp [hl], fun i hi => ⟨?_, ?_⟩⟩
      · exact (Function.update_of_ne (by omega) _ _).trans (hfree i (by omega)).1
      · refine (hframe i ?_ (by omega)).trans (hfree i (by omega)).2
        intro hmem
        obtain ⟨p, hp, rfl⟩ := List.mem_map.mp hmem
        obtain ⟨next, hread⟩ := hk.holds.linked.read hp
        cases hread.symm.trans (hfree p.1 (by omega)).2

/-- One request more and the count is negative. -/
theorem not_conserved_flood (args : Args) {n : ℕ} (hn : n + 1 = 2 ^ 31) :
    ¬ Conserved (Run.exec Pool.step (init args) (flood (n + 1))) := by
  obtain ⟨l, hk, hl, hfree⟩ := flooded args (n := n) (by omega)
  rw [flood_succ, Run.exec_append, Run.exec_cons, Run.exec_nil]
  generalize Run.exec Pool.step (init args) (flood n) = s at hk hfree
  obtain ⟨hidle, hnone⟩ := hfree n le_rfl
  obtain ⟨queue, -, hstep, hnum, -⟩ := Pool.step_enqueue hk hidle hnone ()
  rw [hstep]
  rintro ⟨⟨l', -, -, hcount⟩, -⟩
  have hcount : queue.numRequests.toInt = l'.length := hcount
  have hfull : s.queue.numRequests.toInt = l.length := hk.holds.count
  have hmax : (2147483647 : Int32).toInt = 2147483647 := by decide
  have hlast : s.queue.numRequests = 2147483647 := by
    rw [← Int32.toInt_inj, hfull, hmax]
    omega
  rw [hnum, hlast] at hcount
  have hwrapped : ((2147483647 : Int32) + 1).toInt = -2147483648 := by decide
  omega

/-- The first thread serves a request, finds no other and is joined. -/
def closeDown : List (Action Unit) :=
  [.turn 0, .call 0, .free 0, .shutdown, .turn 0, .removeFirst, .join]

/-- Two calls add a thread each at the same time. Both hang it on the same
record and both count to two, so the first of the new threads is on no list,
and it has a request in its hands. -/
def overlapping : List (Action Unit) :=
  [.enqueue 1 1 (), .enqueue 2 2 (), .count 1, .count 2, .choose 1, .choose 2,
    .create 1 1 1, .create 2 2 2, .link 1, .link 2, .setLast 1, .setLast 2,
    .loadThreads 1, .loadThreads 2, .storeThreads 1, .storeThreads 2, .turn 1] ++
  closeDown ++ [.turn 2, .removeFirst, .join, .deleteQueue, .finish]

/-- A call has started a thread and not put it on the list. -/
def underWay : List (Action Unit) :=
  [.enqueue 1 1 (), .enqueue 2 2 (), .count 1, .choose 1, .create 1 1 1, .turn 1] ++
  closeDown ++ [.deleteQueue, .finish]

/-- Sizes so large that the number of threads wraps around. -/
def hugeArgs : Args where
  initialThreadCount := 2147483647
  minThreadCount := 2147483647
  maxThreadCount := 0
  lowWatermark := 1
  highWatermark := 1

/-- A pool with no thread at all. -/
def unattended : List (Action Unit) :=
  [.enqueue 0 0 (), .shutdown, .deleteQueue, .discard, .finish]

theorem not_drained {s : Pool J} (hreturned : s.closing = .returned)
    (hexit : s.exitNow = false) (hlength : s.called.length ≠ s.added.length) :
    ¬ Drained s := fun h =>
  hlength (by simpa using (h hreturned hexit).length_eq)

theorem not_conserved_and_drained :
    ¬ Conserved (Run.exec Pool.step (init soloArgs) (flood (2147483647 + 1))) ∧
      ¬ Drained (Run.exec Pool.step (init soloArgs) overlapping) ∧
      ¬ Drained (Run.exec Pool.step (init soloArgs) underWay) ∧
      ¬ Drained (Run.exec Pool.step (init hugeArgs) unattended) :=
  ⟨not_conserved_flood soloArgs (by decide),
    not_drained (by decide +kernel) (by decide +kernel) (by decide +kernel),
    not_drained (by decide +kernel) (by decide +kernel) (by decide +kernel),
    not_drained (by decide +kernel) (by decide +kernel) (by decide +kernel)⟩

end Failures

end Lwfs.Support.ThreadPool
