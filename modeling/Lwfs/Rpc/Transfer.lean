import Lwfs.Rpc.EqPoll

/-!
`lwfs_ptl_put` and `lwfs_ptl_get`: a transfer is started, and then a loop waits
for the events that say it is complete. A poll that times out is meant to be
tried again, up to `max_iters` times. The test for it is the wrong way round,
so the first such poll ends the transfer (`tolerant_iff`).

The library is a parameter: whether each call succeeds, the events, and the
polls that they come with.
-/

namespace Lwfs.Rpc

/-- The events of a transfer. -/
inductive TransferEvent
  | sendStart
  | sendEnd
  | replyStart
  | replyEnd
  | ack
  | unlink
  | other
  deriving DecidableEq

inductive TransferKind
  | put
  | get
  deriving DecidableEq

/-- The implementations of Portals that the source is written for. -/
inductive Platform
  | schutt
  | crayXt3

namespace TransferKind

/-- The cases of the `switch`. -/
def handles : TransferKind → TransferEvent → Bool
  | put, .sendStart | put, .sendEnd | put, .ack | put, .unlink => true
  | get, .sendStart | get, .sendEnd | get, .replyStart | get, .replyEnd
  | get, .unlink => true
  | _, _ => false

/-- The condition for `done`, from the flags `got_...`. -/
def done (kind : TransferKind) (got : TransferEvent → Bool) : Bool :=
  match kind with
  | put => got .sendStart && got .sendEnd && got .ack && got .unlink
  | get =>
      (got .replyStart && got .replyEnd && got .unlink) ||
        (got .sendStart && got .sendEnd && got .replyStart && got .replyEnd &&
          got .unlink)

/-- The events that a transfer without failure causes. -/
def expected : TransferKind → Platform → List TransferEvent
  | put, _ => [.sendStart, .sendEnd, .ack, .unlink]
  | get, .schutt => [.replyStart, .replyEnd, .unlink]
  | get, .crayXt3 => [.sendStart, .sendEnd, .replyStart, .replyEnd, .unlink]

end TransferKind

/-- Whether the calls before and after the loop succeed, the length of the
buffer, and the remote address. -/
structure Setup where
  eqAlloc : Bool
  mdBind : Bool
  started : Bool
  eqFree : Bool
  len : Int32
  remote : Rma

def maxIters : ℕ := 3

variable {T : Type}

section Code

variable (rounds : Rounds TransferEvent) (ptlEqEmpty : Rc)

/-- The loop. `lwfs_ptl_put` clears the event before each call, and
`lwfs_ptl_get` leaves it as it is. -/
def transferLoop (kind : TransferKind) (cleared : Event TransferEvent) :
    ℕ → ℕ → ℕ → (TransferEvent → Bool) → Event TransferEvent → Option Rc
  | 0, _, _, _, _ => none
  | fuel + 1, n, iter, got, event =>
      let event := if kind = .put then cleared else event
      (lwfsPtlEqPoll (rounds.drop n) ptlEqEmpty minTimeout event (fuel + 1)).bind
        fun polled =>
          if polled.rc = rcOf .errTimedout then
            if maxIters ≤ iter then
              transferLoop kind cleared fuel (n + polled.polls) iter got polled.event
            else some polled.rc
          else if polled.rc ≠ lwfsOk then some (rcOf .errRpc)
          else if kind.handles polled.event.type then
            let got := Function.update got polled.event.type true
            if polled.event.failed then some (rcOf .errRpc)
            else if kind.done got then some lwfsOk
            else
              transferLoop kind cleared fuel (n + polled.polls) iter got polled.event
          else some (rcOf .errRpc)

/-- From the label `cleanup`. -/
def Setup.cleanup (setup : Setup) (rc : Rc) : Rc :=
  if setup.eqFree then rc else rcOf .errRpc

/-- `lwfs_ptl_put`. A length that does not fit is an error. -/
def lwfsPtlPut (setup : Setup) (cleared event : Event TransferEvent) (fuel : ℕ) :
    Option Rc :=
  if ¬ setup.eqAlloc then some (rcOf .errRpc)
  else if setup.remote.len < setup.len.toInt64.toUInt64 then
    some (setup.cleanup (rcOf .errRpc))
  else if ¬ setup.mdBind then some (setup.cleanup (rcOf .errRpc))
  else if ¬ setup.started then some (setup.cleanup (rcOf .errRpc))
  else
    (transferLoop rounds ptlEqEmpty .put cleared fuel 0 0 (fun _ => false)
      event).map setup.cleanup

/-- `lwfs_ptl_get`. -/
def lwfsPtlGet (setup : Setup) (cleared event : Event TransferEvent) (fuel : ℕ) :
    Option Rc :=
  if ¬ setup.eqAlloc then some (rcOf .errRpc)
  else if ¬ setup.mdBind then some (setup.cleanup (rcOf .errRpc))
  else if ¬ setup.started then some (setup.cleanup (rcOf .errRpc))
  else
    (transferLoop rounds ptlEqEmpty .get cleared fuel 0 0 (fun _ => false)
      event).map setup.cleanup

def transfer (kind : TransferKind) (setup : Setup)
    (cleared event : Event TransferEvent) (fuel : ℕ) : Option Rc :=
  match kind with
  | .put => lwfsPtlPut rounds ptlEqEmpty setup cleared event fuel
  | .get => lwfsPtlGet rounds ptlEqEmpty setup cleared event fuel

end Code

/-! ### What the queue delivers -/

def PollOutcome.event? : PollOutcome T → Option (Event T)
  | .event e => some e
  | .dropped e => some e
  | _ => none

/-- The types of the events in the first rounds. -/
def Rounds.events (rounds : Rounds T) (k : ℕ) : List T :=
  (List.range k).filterMap fun i => (rounds.poll i).event?.map Event.type

/-- The flags after the first rounds. -/
def Rounds.flags (rounds : Rounds TransferEvent) (k : ℕ) (type : TransferEvent) :
    Bool :=
  type ∈ rounds.events k

/-- The expected events are all there with round `k`, the last of them in that
round, and none of them failed. The other polls were empty. -/
structure Arrives (kind : TransferKind) (platform : Platform)
    (rounds : Rounds TransferEvent) (k : ℕ) : Prop where
  events : (rounds.events (k + 1)).Perm (kind.expected platform)
  sound : ∀ i ≤ k, rounds.poll i = .empty ∨
    ∃ e, (rounds.poll i).event? = some e ∧ e.failed = false
  last : rounds.poll k ≠ .empty

/-- The calls around the loop succeed, and the buffer fits. -/
def Setup.Sound (kind : TransferKind) (setup : Setup) : Prop :=
  setup.eqAlloc = true ∧ setup.mdBind = true ∧ setup.started = true ∧
    setup.eqFree = true ∧
    (kind = .put → setup.len.toInt64.toUInt64 ≤ setup.remote.len)

/-- Up to the last of the events that the loop waits for no poll is empty, and
the exit flag is down. -/
def Swift (kind : TransferKind) (rounds : Rounds TransferEvent) (k : ℕ) : Prop :=
  ∃ m ≤ k, kind.done (rounds.flags (m + 1)) ∧
    ∀ i ≤ m, rounds.exitBefore i = false ∧ rounds.poll i ≠ .empty

/-! ### One turn of the loop -/

section Loop

variable {rounds : Rounds TransferEvent} {ptlEqEmpty : Rc} {kind : TransferKind}
  {cleared event : Event TransferEvent} {fuel n k : ℕ} {got : TransferEvent → Bool}

/-- The poll of this round delivers an event that the loop handles. -/
def Handled (kind : TransferKind) (rounds : Rounds TransferEvent) (n : ℕ)
    (e : Event TransferEvent) : Prop :=
  rounds.exitBefore n = false ∧ (rounds.poll n).event? = some e ∧
    e.failed = false ∧ kind.handles e.type = true

theorem minTimeout_expires :
    0 < minTimeout ∧ minTimeout ≤ 0 + timeoutPerCall minTimeout := by decide

/-- A call with the shortest time limit is one poll. -/
theorem pollLoop_minTimeout (rounds : Rounds T) (ptlEqEmpty : Rc)
    (event : Event T) (fuel : ℕ) :
    ∃ result, pollRound rounds ptlEqEmpty minTimeout 0 0 event = .error result ∧
      pollLoop rounds ptlEqEmpty minTimeout (fuel + 1) 0 0 event = some result := by
  have hround : ∃ result,
      pollRound rounds ptlEqEmpty minTimeout 0 0 event = .error result := by
    unfold pollRound
    split
    · exact ⟨_, rfl⟩
    · cases rounds.poll 0 with
      | empty => exact ⟨_, if_pos (.inl minTimeout_expires)⟩
      | event | dropped | failed => exact ⟨_, rfl⟩
  obtain ⟨result, hround⟩ := hround
  exact ⟨result, hround, by rw [pollLoop, hround]⟩

theorem eqPoll_minTimeout (rounds : Rounds T) (ptlEqEmpty : Rc) (event : Event T)
    (fuel : ℕ) {result : PollResult T}
    (h : pollRound rounds ptlEqEmpty minTimeout 0 0 event = .error result) :
    lwfsPtlEqPoll rounds ptlEqEmpty minTimeout event (fuel + 1) =
      some result.checked := by
  obtain ⟨result', hround, hloop⟩ :=
    pollLoop_minTimeout rounds ptlEqEmpty event fuel
  cases h.symm.trans hround
  exact congrArg (Option.map _) hloop

theorem transferLoop_handled {e : Event TransferEvent}
    (h : Handled kind rounds n e) :
    transferLoop rounds ptlEqEmpty kind cleared (fuel + 1) n 0 got event =
      if kind.done (Function.update got e.type true) then some lwfsOk
      else transferLoop rounds ptlEqEmpty kind cleared fuel (n + 1) 0
        (Function.update got e.type true) e := by
  obtain ⟨hbefore, hevent, hgood, hhandles⟩ := h
  have hround : ∀ event, pollRound (rounds.drop n) ptlEqEmpty minTimeout 0 0 event =
      .error ⟨lwfsOk, e, 1⟩ := by
    intro event
    cases hpoll : rounds.poll n <;> rw [hpoll] at hevent <;> cases hevent <;>
      simp [pollRound, Rounds.drop, hbefore, hpoll]
  have hchecked : (⟨lwfsOk, e, 1⟩ : PollResult TransferEvent).checked =
      ⟨lwfsOk, e, 1⟩ := by
    simp [PollResult.checked, hgood]
  have hok : lwfsOk ≠ rcOf .errTimedout := by decide
  rw [transferLoop]
  simp only [eqPoll_minTimeout _ _ _ _ (hround _), hchecked, Option.bind_some, hok,
    if_false, ne_eq, not_true_eq_false, hhandles, hgood, Bool.false_eq_true, if_true]

theorem handled_of_ok (hempty : ptlEqEmpty ≠ lwfsOk) {result : PollResult TransferEvent}
    (hround : pollRound (rounds.drop n) ptlEqEmpty minTimeout 0 0 event =
      .error result) (hrc : result.checked.rc = lwfsOk)
    (hhandles : kind.handles result.checked.event.type = true) :
    ∃ e, Handled kind rounds n e := by
  have hgood : result.event.failed = false := by
    by_contra hfailed
    have hfailed : result.event.failed = true := by simpa using hfailed
    simp only [PollResult.checked, hfailed, if_true] at hrc
    exact rcOf_ne_ok _ hrc
  simp only [PollResult.checked, hgood, Bool.false_eq_true, if_false] at hrc hhandles
  unfold pollRound at hround
  cases hbefore : (rounds.drop n).exitBefore 0 with
  | true =>
      simp only [hbefore, if_true, Except.error.injEq] at hround
      subst hround
      exact absurd hrc hempty
  | false =>
      simp only [hbefore, Bool.false_eq_true, if_false] at hround
      cases hpoll : (rounds.drop n).poll 0 with
      | event e | dropped e =>
          simp only [hpoll, Except.error.injEq] at hround
          subst hround
          exact ⟨e, hbefore, congrArg PollOutcome.event? hpoll, hgood, hhandles⟩
      | empty =>
          simp only [hpoll] at hround
          rw [if_pos (.inl minTimeout_expires)] at hround
          cases hround
          exact absurd hrc (rcOf_ne_ok _)
      | failed =>
          simp only [hpoll, Except.error.injEq] at hround
          subst hround
          exact absurd hrc (rcOf_ne_ok _)

variable (cleared event fuel n got) in
/-- The other polls end the transfer: the number of iterations stays zero, so
no poll that times out is tried again. -/
theorem transferLoop_failed (hempty : ptlEqEmpty ≠ lwfsOk)
    (h : ∀ e, ¬ Handled kind rounds n e) :
    ∃ rc, transferLoop rounds ptlEqEmpty kind cleared (fuel + 1) n 0 got event =
      some rc ∧ rc ≠ lwfsOk := by
  have hzero : ¬ maxIters ≤ 0 := by decide
  obtain ⟨result, hround, -⟩ := pollLoop_minTimeout (rounds.drop n) ptlEqEmpty
    (if kind = .put then cleared else event) fuel
  rw [transferLoop]
  simp only [eqPoll_minTimeout _ _ _ _ hround, Option.bind_some, hzero, if_false]
  split_ifs with htimedOut hrc hhandles hfailed hdone
  · exact ⟨_, rfl, htimedOut ▸ rcOf_ne_ok _⟩
  · exact ⟨_, rfl, rcOf_ne_ok _⟩
  · exact ⟨_, rfl, rcOf_ne_ok _⟩
  · obtain ⟨e, he⟩ := handled_of_ok hempty hround (not_not.mp hrc) hhandles
    exact absurd he (h e)
  · obtain ⟨e, he⟩ := handled_of_ok hempty hround (not_not.mp hrc) hhandles
    exact absurd he (h e)
  · exact ⟨_, rfl, rcOf_ne_ok _⟩

/-! ### The whole loop -/

theorem events_succ (rounds : Rounds T) (n : ℕ) : rounds.events (n + 1) =
    rounds.events n ++ ((rounds.poll n).event?.map Event.type).toList := by
  simp only [Rounds.events, List.range_succ, List.filterMap_append,
    List.filterMap_cons, List.filterMap_nil]
  cases (rounds.poll n).event? <;> rfl

theorem flags_zero (rounds : Rounds TransferEvent) :
    rounds.flags 0 = fun _ => false := rfl

theorem flags_succ {e : Event TransferEvent} (h : (rounds.poll n).event? = some e) :
    rounds.flags (n + 1) = Function.update (rounds.flags n) e.type true := by
  funext type
  rcases eq_or_ne type e.type with rfl | hne
  · simp [Rounds.flags, events_succ, h]
  · simp [Rounds.flags, events_succ, h, hne]

theorem flags_mono {m : ℕ} (h : n ≤ m) {type : TransferEvent}
    (hflag : rounds.flags n type = true) : rounds.flags m type = true := by
  induction h with
  | refl => exact hflag
  | step _ ih =>
      simp only [Rounds.flags, decide_eq_true_eq] at ih ⊢
      rw [events_succ]
      exact List.mem_append_left _ ih

/-- More events do no harm. -/
theorem done_mono {got got' : TransferEvent → Bool}
    (h : ∀ type, got type = true → got' type = true) (hdone : kind.done got = true) :
    kind.done got' = true := by
  cases kind <;> simp only [TransferKind.done, Bool.and_eq_true, Bool.or_eq_true]
    at hdone ⊢
  · obtain ⟨⟨⟨h1, h2⟩, h3⟩, h4⟩ := hdone
    exact ⟨⟨⟨h _ h1, h _ h2⟩, h _ h3⟩, h _ h4⟩
  · rcases hdone with ⟨⟨h1, h2⟩, h3⟩ | ⟨⟨⟨⟨-, -⟩, h1⟩, h2⟩, h3⟩ <;>
      exact .inl ⟨⟨h _ h1, h _ h2⟩, h _ h3⟩

/-- The loop handles the events of the first rounds, and they complete the
transfer. -/
def Carried (kind : TransferKind) (rounds : Rounds TransferEvent) (m : ℕ) : Prop :=
  (∀ i ≤ m, ∃ e, Handled kind rounds i e) ∧ kind.done (rounds.flags (m + 1)) = true

variable (ptlEqEmpty cleared event) in
theorem exists_ok_of_carried {m : ℕ} (h : Carried kind rounds m) (hn : n ≤ m) :
    ∃ fuel, transferLoop rounds ptlEqEmpty kind cleared fuel n 0 (rounds.flags n)
      event = some lwfsOk := by
  obtain ⟨hhandled, hdone⟩ := h
  obtain ⟨d, rfl⟩ := Nat.exists_eq_add_of_le hn
  induction d generalizing n event with
  | zero =>
      obtain ⟨e, he⟩ := hhandled n le_rfl
      refine ⟨1, ?_⟩
      rw [transferLoop_handled he, ← flags_succ he.2.1]
      exact if_pos hdone
  | succ d ih =>
      obtain ⟨e, he⟩ := hhandled n (Nat.le_add_right _ _)
      have hadd : n + (d + 1) = n + 1 + d := by omega
      rw [hadd] at hhandled hdone
      obtain ⟨fuel, hfuel⟩ := ih e (Nat.le_add_right _ _) hhandled hdone
      refine ⟨fuel + 1, ?_⟩
      rw [transferLoop_handled he, ← flags_succ he.2.1, hfuel, ite_self]

theorem carried_of_ok (hempty : ptlEqEmpty ≠ lwfsOk)
    (h : transferLoop rounds ptlEqEmpty kind cleared fuel n 0 (rounds.flags n)
      event = some lwfsOk) :
    ∃ m, n ≤ m ∧ (∀ i, n ≤ i → i ≤ m → ∃ e, Handled kind rounds i e) ∧
      kind.done (rounds.flags (m + 1)) = true := by
  induction fuel generalizing n event with
  | zero => cases h
  | succ fuel ih =>
      by_cases hhandled : ∃ e, Handled kind rounds n e
      · obtain ⟨e, he⟩ := hhandled
        rw [transferLoop_handled he, ← flags_succ he.2.1] at h
        split_ifs at h with hdone
        · refine ⟨n, le_rfl, fun i hi hin => ?_, hdone⟩
          obtain rfl : i = n := by omega
          exact ⟨e, he⟩
        · obtain ⟨m, hm, hrest, hdone⟩ := ih h
          refine ⟨m, by omega, fun i hi him => ?_, hdone⟩
          rcases Nat.eq_or_lt_of_le hi with rfl | hlt
          · exact ⟨e, he⟩
          · exact hrest i hlt him
      · obtain ⟨rc, hrc, hne⟩ := transferLoop_failed cleared event fuel n
          (rounds.flags n) hempty (not_exists.mp hhandled)
        rw [h] at hrc
        cases hrc
        exact absurd rfl hne

variable (ptlEqEmpty cleared event) in
/-- A round with no event to handle, before the transfer is complete. -/
theorem exists_error (hempty : ptlEqEmpty ≠ lwfsOk) {m : ℕ} (hn : n ≤ m)
    (hround : ∀ e, ¬ Handled kind rounds m e)
    (hdone : kind.done (rounds.flags m) = false) :
    ∃ fuel rc, transferLoop rounds ptlEqEmpty kind cleared fuel n 0
      (rounds.flags n) event = some rc ∧ rc ≠ lwfsOk := by
  obtain ⟨d, rfl⟩ := Nat.exists_eq_add_of_le hn
  induction d generalizing n event with
  | zero =>
      obtain ⟨rc, hrc⟩ := transferLoop_failed cleared event 0 n (rounds.flags n)
        hempty hround
      exact ⟨1, rc, hrc⟩
  | succ d ih =>
      by_cases hhandled : ∃ e, Handled kind rounds n e
      · obtain ⟨e, he⟩ := hhandled
        have hadd : n + (d + 1) = n + 1 + d := by omega
        rw [hadd] at hround hdone
        obtain ⟨fuel, rc, hrc⟩ := ih e (Nat.le_add_right _ _) hround hdone
        refine ⟨fuel + 1, rc, ?_⟩
        have hnot : ¬ kind.done (rounds.flags (n + 1)) = true := by
          intro hearly
          have hlater := done_mono (fun type => flags_mono (Nat.le_add_right (n + 1) d))
            hearly
          rw [hdone] at hlater
          cases hlater
        rw [transferLoop_handled he, ← flags_succ he.2.1, if_neg hnot]
        exact hrc
      · obtain ⟨rc, hrc⟩ := transferLoop_failed cleared event 0 n (rounds.flags n)
          hempty (not_exists.mp hhandled)
        exact ⟨1, rc, hrc⟩

/-! ### The transfer -/

variable {setup : Setup} {platform : Platform}

theorem handles_of_expected {type : TransferEvent}
    (h : type ∈ kind.expected platform) : kind.handles type = true := by
  cases kind <;> cases platform <;> revert type <;> decide

theorem Arrives.done (h : Arrives kind platform rounds k) :
    kind.done (rounds.flags (k + 1)) = true := by
  have hflags : ∀ type ∈ kind.expected platform, rounds.flags (k + 1) type = true :=
    fun type htype => decide_eq_true (h.events.mem_iff.mpr htype)
  have hexpected : kind.done
      (fun type => decide (type ∈ kind.expected platform)) = true := by
    cases kind <;> cases platform <;> rfl
  exact done_mono (fun type htype => hflags type (of_decide_eq_true htype)) hexpected

theorem type_mem_events {e : Event TransferEvent} (hn : n ≤ k)
    (h : (rounds.poll n).event? = some e) : e.type ∈ rounds.events (k + 1) := by
  refine List.mem_filterMap.mpr ⟨n, List.mem_range.mpr (by omega), ?_⟩
  rw [h]
  rfl

/-- Once all events have arrived, the loop has had what it waits for. -/
theorem exists_carried_iff (h : Arrives kind platform rounds k) :
    (∃ m, Carried kind rounds m) ↔ Swift kind rounds k := by
  constructor
  · rintro ⟨m, hhandled, hdone⟩
    have hround : ∀ i ≤ m, rounds.exitBefore i = false ∧ rounds.poll i ≠ .empty := by
      intro i hi
      obtain ⟨e, hbefore, hevent, -⟩ := hhandled i hi
      refine ⟨hbefore, fun hpoll => ?_⟩
      rw [hpoll] at hevent
      cases hevent
    rcases Nat.le_total m k with hle | hle
    · exact ⟨m, hle, hdone, hround⟩
    · exact ⟨k, le_rfl, h.done, fun i hi => hround i (by omega)⟩
  · rintro ⟨m, hm, hdone, hround⟩
    refine ⟨m, fun i hi => ?_, hdone⟩
    obtain ⟨hbefore, hpoll⟩ := hround i hi
    obtain ⟨e, hevent, hgood⟩ := (h.sound i (by omega)).resolve_left hpoll
    have hmem : e.type ∈ kind.expected platform :=
      h.events.mem_iff.mp (type_mem_events (by omega) hevent)
    exact ⟨e, hbefore, hevent, hgood, handles_of_expected hmem⟩

theorem transfer_of_sound (h : setup.Sound kind) :
    transfer rounds ptlEqEmpty kind setup cleared event fuel =
      transferLoop rounds ptlEqEmpty kind cleared fuel 0 0 (fun _ => false)
        event := by
  obtain ⟨halloc, hbind, hstarted, hfree, hlen⟩ := h
  have hcleanup : setup.cleanup = id := by
    funext rc
    simp [Setup.cleanup, hfree]
  cases kind with
  | put =>
      have hfits := UInt64.not_lt.mpr (hlen rfl)
      simp [transfer, lwfsPtlPut, halloc, hbind, hstarted, hfits, hcleanup]
  | get => simp [transfer, lwfsPtlGet, halloc, hbind, hstarted, hcleanup]

/-- If one of the other calls fails, then so does the transfer. -/
theorem ne_ok_of_not_sound (h : ¬ setup.Sound kind) {rc : Rc}
    (hrc : transfer rounds ptlEqEmpty kind setup cleared event fuel = some rc) :
    rc ≠ lwfsOk := by
  have hne := rcOf_ne_ok .errRpc
  have hcleanup : setup.cleanup (rcOf .errRpc) = rcOf .errRpc := ite_self _
  have hfree : setup.eqFree = false → ∀ rc, setup.cleanup rc = rcOf .errRpc := by
    intro hfree rc
    simp [Setup.cleanup, hfree]
  have hloop : ∀ o : Option Rc, setup.eqFree = false →
      o.map setup.cleanup = some rc → rc ≠ lwfsOk := by
    intro o hfalse ho
    obtain ⟨rc', -, rfl⟩ := Option.map_eq_some_iff.mp ho
    rwa [hfree hfalse]
  cases kind with
  | put =>
      simp only [transfer, lwfsPtlPut, hcleanup] at hrc
      split_ifs at hrc with halloc hlen hbind hstarted
      · exact Option.some.inj hrc ▸ hne
      · refine hloop _ ?_ hrc
        by_contra hfree
        exact h ⟨halloc, hbind, hstarted, by simpa using hfree,
          fun _ => UInt64.not_lt.mp hlen⟩
      · exact Option.some.inj hrc ▸ hne
      · exact Option.some.inj hrc ▸ hne
      · exact Option.some.inj hrc ▸ hne
  | get =>
      simp only [transfer, lwfsPtlGet, hcleanup] at hrc
      split_ifs at hrc with halloc hbind hstarted
      · refine hloop _ ?_ hrc
        by_contra hfree
        exact h ⟨halloc, hbind, hstarted, by simpa using hfree, nofun⟩
      · exact Option.some.inj hrc ▸ hne
      · exact Option.some.inj hrc ▸ hne
      · exact Option.some.inj hrc ▸ hne

theorem transfer_ok_iff (hempty : ptlEqEmpty ≠ lwfsOk) :
    (∃ fuel, transfer rounds ptlEqEmpty kind setup cleared event fuel =
        some lwfsOk) ↔ setup.Sound kind ∧ ∃ m, Carried kind rounds m := by
  constructor
  · rintro ⟨fuel, hok⟩
    have hsound : setup.Sound kind := by
      by_contra hsound
      exact ne_ok_of_not_sound hsound hok rfl
    rw [transfer_of_sound hsound, ← flags_zero rounds] at hok
    obtain ⟨m, -, hhandled, hdone⟩ := carried_of_ok hempty hok
    exact ⟨hsound, m, fun i => hhandled i (Nat.zero_le i), hdone⟩
  · rintro ⟨hsound, m, hcarried⟩
    obtain ⟨fuel, hfuel⟩ := exists_ok_of_carried ptlEqEmpty cleared event hcarried
      (Nat.zero_le m)
    exact ⟨fuel, (transfer_of_sound hsound).trans hfuel⟩

variable (setup) in
/-- The call comes back if the loop does. -/
theorem exists_transfer {rc : Rc}
    (h : transferLoop rounds ptlEqEmpty kind cleared fuel 0 0 (fun _ => false)
      event = some rc) :
    ∃ rc', transfer rounds ptlEqEmpty kind setup cleared event fuel = some rc' := by
  cases kind with
  | put =>
      simp only [transfer, lwfsPtlPut, h]
      split_ifs <;> exact ⟨_, rfl⟩
  | get =>
      simp only [transfer, lwfsPtlGet, h]
      split_ifs <;> exact ⟨_, rfl⟩

theorem exists_error_of_late (hempty : ptlEqEmpty ≠ lwfsOk)
    (hlate : 0 < rounds.empties k) (hdone : kind.done (rounds.flags k) = false) :
    ∃ fuel rc, transfer rounds ptlEqEmpty kind setup cleared event fuel = some rc ∧
      rc ≠ lwfsOk := by
  obtain ⟨m, hm, hpoll⟩ := List.countP_pos_iff.mp hlate
  have hm : m < k := List.mem_range.mp hm
  have hpoll : rounds.poll m = .empty := of_decide_eq_true hpoll
  have hround : ∀ e, ¬ Handled kind rounds m e := by
    rintro e ⟨-, hevent, -⟩
    rw [hpoll] at hevent
    cases hevent
  have hnot : kind.done (rounds.flags m) = false := by
    by_contra hearly
    have hlater := done_mono (fun type => flags_mono (Nat.le_of_lt hm))
      ((Bool.not_eq_false _).mp hearly)
    rw [hdone] at hlater
    cases hlater
  obtain ⟨fuel, rc, hloop, hne⟩ := exists_error ptlEqEmpty cleared event hempty
    (Nat.zero_le m) hround hnot
  rw [flags_zero] at hloop
  by_cases hsound : setup.Sound kind
  · exact ⟨fuel, rc, (transfer_of_sound hsound).trans hloop, hne⟩
  · obtain ⟨rc', hrc'⟩ := exists_transfer setup hloop
    exact ⟨fuel, rc', hrc', ne_ok_of_not_sound hsound hrc'⟩

end Loop

/-- Where all expected events arrive and at most `maxIters` polls time out before
the last, the transfer succeeds exactly if none of the polls that the loop needs
times out. Where more of them time out it ends with an error. -/
theorem tolerated_iff_swift (kind : TransferKind) (platform : Platform)
    (setup : Setup) (rounds : Rounds TransferEvent) {ptlEqEmpty : Rc}
    (hempty : ptlEqEmpty ≠ lwfsOk) (cleared event : Event TransferEvent) :
    (∀ k, Arrives kind platform rounds k → rounds.empties k ≤ maxIters →
      ((∃ fuel, transfer rounds ptlEqEmpty kind setup cleared event fuel =
          some lwfsOk) ↔
        setup.Sound kind ∧ Swift kind rounds k)) ∧
    ∀ k, maxIters < rounds.empties k → kind.done (rounds.flags k) = false →
      ∃ fuel rc, transfer rounds ptlEqEmpty kind setup cleared event fuel =
        some rc ∧ rc ≠ lwfsOk := by
  constructor
  · intro k harrives _
    rw [transfer_ok_iff hempty, exists_carried_iff harrives]
  · intro k hlate hdone
    exact exists_error_of_late hempty (by omega) hdone

/-- Everything succeeds. -/
def Setup.good : Setup where
  eqAlloc := true
  mdBind := true
  started := true
  eqFree := true
  len := 8
  remote := ⟨⟨1, 1⟩, 1, 0, 1, 8⟩

/-- The four events of a put in order, after some polls that time out. -/
def putRounds (late : ℕ) : Rounds TransferEvent where
  exitBefore := fun _ => false
  poll := fun n =>
    if n < late then .empty
    else match n - late with
      | 0 => .event ⟨.sendStart, false⟩
      | 1 => .event ⟨.sendEnd, false⟩
      | 2 => .event ⟨.ack, false⟩
      | 3 => .event ⟨.unlink, false⟩
      | _ => .empty
  exitAfter := fun _ => false

theorem arrives_putRounds {late : ℕ} (h : late ≤ 1) :
    Arrives .put .schutt (putRounds late) (late + 3) := by
  obtain rfl | rfl : late = 0 ∨ late = 1 := by omega
  · refine ⟨by decide, fun i hi => ?_, by decide⟩
    obtain rfl | rfl | rfl | rfl : i = 0 ∨ i = 1 ∨ i = 2 ∨ i = 3 := by omega
    all_goals exact .inr ⟨_, rfl, rfl⟩
  · refine ⟨by decide, fun i hi => ?_, by decide⟩
    obtain rfl | rfl | rfl | rfl | rfl :
      i = 0 ∨ i = 1 ∨ i = 2 ∨ i = 3 ∨ i = 4 := by omega
    · exact .inl rfl
    all_goals exact .inr ⟨_, rfl, rfl⟩

theorem tolerated_iff_swift_put :
    (∃ fuel, transfer (putRounds 0) 16 .put .good ⟨.other, false⟩ ⟨.other, false⟩
      fuel = some lwfsOk) := by
  have hempty : (16 : Rc) ≠ lwfsOk := by decide
  have htolerated := (tolerated_iff_swift .put .schutt .good (putRounds 0) hempty
    ⟨.other, false⟩ ⟨.other, false⟩).1 3 (arrives_putRounds (Nat.zero_le 1))
    (by decide)
  refine htolerated.mpr ⟨⟨rfl, rfl, rfl, rfl, fun _ => by decide⟩, 3, le_rfl,
    by decide, fun i hi => ⟨rfl, ?_⟩⟩
  obtain rfl | rfl | rfl | rfl : i = 0 ∨ i = 1 ∨ i = 2 ∨ i = 3 := by omega
  all_goals decide

/-- One poll that times out is enough for the transfer to fail. -/
theorem not_tolerated_put :
    Arrives .put .schutt (putRounds 1) 4 ∧ (putRounds 1).empties 4 ≤ maxIters ∧
      ¬ ∃ fuel, transfer (putRounds 1) 16 .put .good ⟨.other, false⟩
        ⟨.other, false⟩ fuel = some lwfsOk := by
  refine ⟨arrives_putRounds le_rfl, by decide, fun hok => ?_⟩
  obtain ⟨-, m, hhandled, -⟩ := (transfer_ok_iff (by decide)).mp hok
  obtain ⟨e, -, hevent, -⟩ := hhandled 0 (Nat.zero_le m)
  cases hevent

end Lwfs.Rpc
