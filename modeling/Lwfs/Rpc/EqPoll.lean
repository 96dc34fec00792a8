import Lwfs.Rpc.Types
import Mathlib.Algebra.Order.Ring.Int
import Mathlib.Data.List.Count
import Mathlib.Tactic.Ring

/-!
`lwfs_ptl_eq_poll`: the loop around `PtlEQPoll` that every wait of the remote
calls goes through.

What the library and the exit flag do is a parameter, round by round. The loop
has no bound of its own, so it runs on fuel, and a call that never returns has
no result for any fuel. `pollLoop_of_quiet` follows it through the rounds in
which nothing happens, and `settled_iff` says from the rounds alone when the
call comes back in time with the right code.
-/

namespace Lwfs.Rpc

/-- A Portals event: its type, and whether `ni_fail_type` is anything but
`PTL_NI_OK`. -/
structure Event (T : Type) where
  type : T
  failed : Bool
  deriving DecidableEq

/-- What `PtlEQPoll` comes back with: `PTL_EQ_EMPTY`, `PTL_OK`,
`PTL_EQ_DROPPED`, or another code. -/
inductive PollOutcome (T : Type)
  | empty
  | event (e : Event T)
  | dropped (e : Event T)
  | failed
  deriving DecidableEq

/-- What happens in each round of the loop: the exit flag when the round
begins, the outcome of `PtlEQPoll`, and the exit flag after an outcome that is
empty. -/
structure Rounds (T : Type) where
  exitBefore : ℕ → Bool
  poll : ℕ → PollOutcome T
  exitAfter : ℕ → Bool

/-- The rounds of the later calls. -/
def Rounds.drop {T : Type} (rounds : Rounds T) (n : ℕ) : Rounds T where
  exitBefore := fun i => rounds.exitBefore (n + i)
  poll := fun i => rounds.poll (n + i)
  exitAfter := fun i => rounds.exitAfter (n + i)

/-- The code of the call, what it leaves in `*event`, and the number of
polls. -/
structure PollResult (T : Type) where
  rc : Rc
  event : Event T
  polls : ℕ

def minTimeout : Int32 := 100

def timeoutPerCall (timeout : Int32) : Int32 :=
  if timeout < 0 then minTimeout
  else if timeout < minTimeout then timeout
  else minTimeout

variable {T : Type}

section Poll

/-! `ptlEqEmpty` is the value of `PTL_EQ_EMPTY`, which the header of the library
defines. -/

variable (rounds : Rounds T) (ptlEqEmpty : Rc) (timeout : Int32)

/-- One round: the loop is left with a result, or the time that has passed. -/
def pollRound (n : ℕ) (elapsed : Int32) (event : Event T) :
    Except (PollResult T) Int32 :=
  if rounds.exitBefore n then .error ⟨ptlEqEmpty, event, n⟩
  else
    match rounds.poll n with
    | .event e => .error ⟨lwfsOk, e, n + 1⟩
    | .dropped e => .error ⟨lwfsOk, e, n + 1⟩
    | .empty =>
        let elapsed := elapsed + timeoutPerCall timeout
        if (0 < timeout ∧ timeout ≤ elapsed) ∨ rounds.exitAfter n then
          .error ⟨rcOf .errTimedout, event, n + 1⟩
        else .ok elapsed
    | .failed => .error ⟨rcOf .errRpc, event, n + 1⟩

def pollLoop : ℕ → ℕ → Int32 → Event T → Option (PollResult T)
  | 0, _, _, _ => none
  | fuel + 1, n, elapsed, event =>
      match pollRound rounds ptlEqEmpty timeout n elapsed event with
      | .error result => some result
      | .ok elapsed => pollLoop fuel (n + 1) elapsed event

/-- After the loop the event is looked at, whether one came in or not. -/
def PollResult.checked (result : PollResult T) : PollResult T :=
  if result.event.failed then { result with rc := rcOf .errRpc } else result

/-- `lwfs_ptl_eq_poll`, with `event` what is in `*event` before the call. -/
def lwfsPtlEqPoll (event : Event T) (fuel : ℕ) : Option (PollResult T) :=
  (pollLoop rounds ptlEqEmpty timeout fuel 0 0 event).map PollResult.checked

end Poll

/-! ### What is expected of it -/

/-- The time limit in calls, and at least one. -/
def pollBound (timeout : Int32) : ℕ :=
  let perCall := (timeoutPerCall timeout).toInt.toNat
  max 1 ((timeout.toInt.toNat + perCall - 1) / perCall)

/-- The number of empty polls among the first ones. -/
def Rounds.empties [DecidableEq T] (rounds : Rounds T) (polls : ℕ) : ℕ :=
  (List.range polls).countP fun i => rounds.poll i = .empty

/-- The last poll delivered an event with no failure type. -/
def Rounds.Delivered (rounds : Rounds T) (polls : ℕ) : Prop :=
  ∃ n e, polls = n + 1 ∧
    (rounds.poll n = .event e ∨ rounds.poll n = .dropped e) ∧ e.failed = false

/-- No poll delivered an event, and none failed. -/
def Rounds.GaveUp (rounds : Rounds T) (polls : ℕ) : Prop :=
  ∀ n, polls = n + 1 → rounds.poll n = .empty

/-- The call returns in time, and its code says how the last poll went. -/
structure Settled [DecidableEq T] (rounds : Rounds T) (timeout : Int32)
    (result : PollResult T) : Prop where
  bounded : rounds.empties result.polls ≤ pollBound timeout
  ok : result.rc = lwfsOk ↔ rounds.Delivered result.polls
  timedOut : result.rc = rcOf .errTimedout ↔ rounds.GaveUp result.polls
  otherwise : ¬ rounds.Delivered result.polls →
    ¬ rounds.GaveUp result.polls → result.rc = rcOf .errRpc

/-! ### Rounds in which nothing happens -/

/-- The exit flag is down and the queue is empty in the first rounds. -/
def Rounds.Quiet (rounds : Rounds T) (k : ℕ) : Prop :=
  ∀ i < k, rounds.exitBefore i = false ∧ rounds.poll i = .empty ∧
    rounds.exitAfter i = false

/-- The time limit that the loop can keep. Beyond it the time that has passed
wraps around before the limit is reached, and a limit of zero is none. -/
def Expires (timeout : Int32) : Prop := 0 < timeout ∧ timeout ≤ 2147483600

/-- The time that has passed after some empty polls. -/
def elapsedAfter (timeout : Int32) : ℕ → Int32
  | 0 => 0
  | k + 1 => elapsedAfter timeout k + timeoutPerCall timeout

section Elapsed

variable {timeout : Int32}

theorem toInt_timeoutPerCall (h : 0 ≤ timeout) :
    (timeoutPerCall timeout).toInt = min timeout.toInt 100 := by
  have hmin : minTimeout.toInt = 100 := by decide
  have h := Int32.le_iff_toInt_le.mp h
  rw [Int32.toInt_zero] at h
  unfold timeoutPerCall
  simp only [Int32.lt_iff_toInt_lt, Int32.toInt_zero, hmin]
  split_ifs <;> omega

theorem toInt_elapsedAfter (timeout : Int32) (k : ℕ) :
    (elapsedAfter timeout k).toInt =
      Int.bmod (k * (timeoutPerCall timeout).toInt) 4294967296 := by
  induction k with
  | zero => simp [elapsedAfter]
  | succ k ih =>
      rw [elapsedAfter, Int32.toInt_add, ih, Int.bmod_add_bmod]
      congr 1
      push_cast
      ring

theorem expires_iff : Expires timeout ↔
    0 < timeout.toInt ∧ timeout.toInt ≤ 2147483600 := by
  have hmax : (2147483600 : Int32).toInt = 2147483600 := by decide
  unfold Expires
  rw [Int32.lt_iff_toInt_lt, Int32.le_iff_toInt_le, Int32.toInt_zero, hmax]

/-- Within the bound the loop gives up exactly with the last call that the
limit allows, if it can keep the limit. -/
theorem expired_iff (h : 0 ≤ timeout) {k : ℕ} (hk : k < pollBound timeout) :
    (0 < timeout ∧ timeout ≤ elapsedAfter timeout (k + 1)) ↔
      Expires timeout ∧ k + 1 = pollBound timeout := by
  have hcall := toInt_timeoutPerCall h
  have hlt := timeout.toInt_lt
  have hnonneg : 0 ≤ timeout.toInt := by
    have h := Int32.le_iff_toInt_le.mp h
    rwa [Int32.toInt_zero] at h
  have hbound : pollBound timeout = max 1 ((timeout.toInt.toNat +
      (min timeout.toInt 100).toNat - 1) / (min timeout.toInt 100).toNat) := by
    unfold pollBound
    rw [hcall]
  rw [expires_iff, Int32.lt_iff_toInt_lt, Int32.le_iff_toInt_le,
    Int32.toInt_zero, toInt_elapsedAfter, hcall]
  generalize timeout.toInt = t at *
  generalize pollBound timeout = bound at *
  push_cast
  rcases Int.le_total t 100 with hshort | hlong
  · -- One call covers the whole limit.
    rw [min_eq_left hshort] at hbound ⊢
    have hone : (t.toNat + t.toNat - 1) / t.toNat ≤ 1 := by
      rcases Nat.eq_zero_or_pos t.toNat with hzero | hpos
      · simp [hzero]
      · exact Nat.le_of_lt_succ (Nat.div_lt_of_lt_mul (by omega))
    obtain rfl : bound = 1 := by omega
    obtain rfl : k = 0 := by omega
    rw [Int.bmod_eq_of_le (by omega) (by omega)]
    omega
  · rw [min_eq_right hlong] at hbound ⊢
    have hhundred : (100 : ℤ).toNat = 100 := rfl
    rw [hhundred] at hbound
    rcases lt_or_ge (((k : ℤ) + 1) * 100) (2 ^ 31) with hfits | hover
    · rw [Int.bmod_eq_of_le (by omega) (by omega)]
      omega
    · -- The last call of a limit this long wraps the time around.
      have hwrap : Int.bmod (((k : ℤ) + 1) * 100) 4294967296 =
          ((k : ℤ) + 1) * 100 - 4294967296 := by
        rw [← Int.sub_bmod_right]
        exact Int.bmod_eq_of_le (by omega) (by omega)
      rw [hwrap]
      omega

end Elapsed

section Loop

variable {rounds : Rounds T} {ptlEqEmpty : Rc} {timeout : Int32} {event : Event T}
  {fuel n k : ℕ} {elapsed : Int32} {result : PollResult T}

theorem pollLoop_add (d : ℕ)
    (h : pollLoop rounds ptlEqEmpty timeout fuel n elapsed event = some result) :
    pollLoop rounds ptlEqEmpty timeout (fuel + d) n elapsed event =
      some result := by
  induction fuel generalizing n elapsed with
  | zero => cases h
  | succ fuel ih =>
      rw [Nat.add_right_comm, pollLoop]
      rw [pollLoop] at h
      cases hround : pollRound rounds ptlEqEmpty timeout n elapsed event with
      | error r =>
          rw [hround] at h
          exact h
      | ok elapsed' =>
          rw [hround] at h
          exact ih h

/-- What the loop comes back with does not depend on the fuel. -/
theorem pollLoop_unique {fuel' : ℕ} {result' : PollResult T}
    (h : pollLoop rounds ptlEqEmpty timeout fuel n elapsed event = some result)
    (h' : pollLoop rounds ptlEqEmpty timeout fuel' n elapsed event =
      some result') : result = result' := by
  have hsum := pollLoop_add fuel' h
  rw [Nat.add_comm, pollLoop_add fuel h'] at hsum
  exact (Option.some.inj hsum).symm

theorem le_polls
    (h : pollLoop rounds ptlEqEmpty timeout fuel n elapsed event = some result) :
    n ≤ result.polls ∧ (rounds.exitBefore n = false → n + 1 ≤ result.polls) := by
  induction fuel generalizing n elapsed with
  | zero => cases h
  | succ fuel ih =>
      rw [pollLoop] at h
      unfold pollRound at h
      cases hexit : rounds.exitBefore n with
      | true =>
          simp only [hexit, if_true, Option.some.injEq] at h
          subst h
          exact ⟨le_rfl, nofun⟩
      | false =>
          simp only [hexit, Bool.false_eq_true, if_false] at h
          suffices hlt : n + 1 ≤ result.polls from ⟨by omega, fun _ => hlt⟩
          cases hpoll : rounds.poll n with
          | empty =>
              simp only [hpoll] at h
              split_ifs at h
              · cases h
                exact le_rfl
              · exact (ih h).1
          | event | dropped | failed =>
              simp only [hpoll, Option.some.injEq] at h
              subst h
              exact le_rfl

variable (ptlEqEmpty event) in
/-- The loop goes on through rounds in which nothing happens, as long as it
does not give up. -/
theorem pollLoop_of_quiet (h : 0 ≤ timeout) (hquiet : rounds.Quiet k)
    (hk : k < pollBound timeout ∨ k = pollBound timeout ∧ ¬ Expires timeout)
    (fuel : ℕ) :
    pollLoop rounds ptlEqEmpty timeout (fuel + k) 0 0 event =
      pollLoop rounds ptlEqEmpty timeout fuel k (elapsedAfter timeout k)
        event := by
  induction k generalizing fuel with
  | zero => rfl
  | succ k ih =>
      obtain ⟨hbefore, hpoll, hafter⟩ := hquiet k (Nat.lt_succ_self k)
      have hprefix := ih (fun i hi => hquiet i (by omega)) (.inl (by omega))
        (fuel + 1)
      have hon : ¬ (0 < timeout ∧ timeout ≤ elapsedAfter timeout (k + 1)) := by
        rw [expired_iff h (by omega)]
        rintro ⟨hexpires, hlast⟩
        rcases hk with hk | ⟨-, hnot⟩
        · omega
        · exact hnot hexpires
      rw [Nat.add_right_comm] at hprefix
      rw [← Nat.add_assoc, hprefix, pollLoop]
      rw [elapsedAfter] at hon
      simp [pollRound, hbefore, hpoll, hafter, hon, elapsedAfter]

end Loop

/-! ### Empty polls -/

section Empties

variable [DecidableEq T] {rounds : Rounds T} {k polls : ℕ}

theorem empties_succ (rounds : Rounds T) (polls : ℕ) :
    rounds.empties (polls + 1) =
      rounds.empties polls + if rounds.poll polls = .empty then 1 else 0 := by
  simp [Rounds.empties, List.range_succ, List.countP_append,
    List.countP_singleton]

theorem empties_of_quiet (h : rounds.Quiet k) : rounds.empties k = k := by
  induction k with
  | zero => rfl
  | succ k ih =>
      rw [empties_succ, ih fun i hi => h i (by omega),
        if_pos (h k (Nat.lt_succ_self k)).2.1]

theorem empties_mono (h : k ≤ polls) : rounds.empties k ≤ rounds.empties polls := by
  induction h with
  | refl => exact le_rfl
  | step _ ih =>
      rw [empties_succ]
      omega

end Empties

/-! ### When the call keeps its promise -/

/-- The loop is still waiting after so many empty polls. -/
def Waiting (rounds : Rounds T) (timeout : Int32) (k : ℕ) : Prop :=
  rounds.Quiet k ∧
    (k < pollBound timeout ∨ k = pollBound timeout ∧ ¬ Expires timeout)

/-- The library answers while the loop waits, or the loop gives up with an
event at hand that looks like a good one. To find the exit flag up before a
poll is no way to give up, unless `PTL_EQ_EMPTY` is `LWFS_ERR_TIMEDOUT`. -/
def Timely (rounds : Rounds T) (ptlEqEmpty : Rc) (timeout : Int32)
    (event : Event T) : Prop :=
  ∃ k, Waiting rounds timeout k ∧
    ((rounds.exitBefore k = true ∧ ptlEqEmpty = rcOf .errTimedout ∧
        event.failed = false) ∨
      (rounds.exitBefore k = false ∧ rounds.poll k ≠ .empty) ∨
      (rounds.exitBefore k = false ∧ rounds.poll k = .empty ∧
        k < pollBound timeout ∧
        (rounds.exitAfter k = true ∨ Expires timeout ∧ k + 1 = pollBound timeout) ∧
        event.failed = false))

section Settled

variable {rounds : Rounds T} {ptlEqEmpty : Rc} {timeout : Int32}
  {event : Event T} {fuel k : ℕ} {result : PollResult T}

theorem errTimedout_ne_errRpc : rcOf .errTimedout ≠ rcOf .errRpc := by decide

theorem Waiting.le (h : Waiting rounds timeout k) : k ≤ pollBound timeout := by
  rcases h.2 with hlt | ⟨rfl, -⟩ <;> omega

theorem pollLoop_of_waiting (h : 0 ≤ timeout) (hk : Waiting rounds timeout k)
    {result : PollResult T}
    (hround : pollRound rounds ptlEqEmpty timeout k (elapsedAfter timeout k)
      event = .error result) :
    pollLoop rounds ptlEqEmpty timeout (1 + k) 0 0 event = some result := by
  rw [pollLoop_of_quiet ptlEqEmpty event h hk.1 hk.2, pollLoop, hround]

variable [DecidableEq T]

/-- The exit flag is up when a poll is due. -/
theorem settled_exit (hk : Waiting rounds timeout k) :
    Settled rounds timeout (PollResult.checked ⟨ptlEqEmpty, event, k⟩) ↔
      ptlEqEmpty = rcOf .errTimedout ∧ event.failed = false := by
  have hgaveUp : rounds.GaveUp k := by
    rintro n rfl
    exact (hk.1 n (Nat.lt_succ_self n)).2.1
  have hdelivered : ¬ rounds.Delivered k := by
    rintro ⟨n, e, rfl, he, -⟩
    rw [hgaveUp n rfl] at he
    rcases he with he | he <;> cases he
  cases hfailed : event.failed with
  | true =>
      simp only [PollResult.checked, hfailed, if_true, Bool.true_eq_false, and_false,
        iff_false]
      exact fun h => errTimedout_ne_errRpc (h.timedOut.mpr hgaveUp).symm
  | false =>
      simp only [PollResult.checked, hfailed, Bool.false_eq_true, if_false, and_true]
      constructor
      · exact fun h => h.timedOut.mpr hgaveUp
      · rintro rfl
        refine ⟨?_, iff_of_false (rcOf_ne_ok _) hdelivered,
          iff_of_true rfl hgaveUp, fun _ h => absurd hgaveUp h⟩
        exact (empties_of_quiet hk.1).trans_le hk.le

/-- The loop gives up after an empty poll. -/
theorem settled_gaveUp (hk : rounds.Quiet k) (hpoll : rounds.poll k = .empty) :
    Settled rounds timeout
        (PollResult.checked ⟨rcOf .errTimedout, event, k + 1⟩) ↔
      k < pollBound timeout ∧ event.failed = false := by
  have hgaveUp : rounds.GaveUp (k + 1) := by
    rintro n hn
    cases hn
    exact hpoll
  have hdelivered : ¬ rounds.Delivered (k + 1) := by
    rintro ⟨n, e, hn, he, -⟩
    cases hn
    rw [hpoll] at he
    rcases he with he | he <;> cases he
  have hempties : rounds.empties (k + 1) = k + 1 := by
    rw [empties_succ, empties_of_quiet hk, if_pos hpoll]
  cases hfailed : event.failed with
  | true =>
      simp only [PollResult.checked, hfailed, if_true, Bool.true_eq_false, and_false,
        iff_false]
      exact fun h => errTimedout_ne_errRpc (h.timedOut.mpr hgaveUp).symm
  | false =>
      simp only [PollResult.checked, hfailed, Bool.false_eq_true, if_false, and_true]
      constructor
      · intro h
        have hbounded : rounds.empties (k + 1) ≤ pollBound timeout := h.bounded
        omega
      · intro hlt
        exact ⟨hempties.trans_le hlt, iff_of_false (rcOf_ne_ok _) hdelivered,
          iff_of_true rfl hgaveUp, fun _ h => absurd hgaveUp h⟩

/-- The library answers. -/
theorem exists_settled_answer (hk : Waiting rounds timeout k)
    (hbefore : rounds.exitBefore k = false) (hpoll : rounds.poll k ≠ .empty)
    (elapsed : Int32) :
    ∃ result, pollRound rounds ptlEqEmpty timeout k elapsed event =
        .error result ∧ Settled rounds timeout result.checked := by
  have hempties : rounds.empties (k + 1) ≤ pollBound timeout := by
    rw [empties_succ, empties_of_quiet hk.1, if_neg hpoll]
    exact hk.le
  have hgaveUp : ¬ rounds.GaveUp (k + 1) := fun h => hpoll (h k rfl)
  have hevent : ∀ e, (rounds.poll k = .event e ∨ rounds.poll k = .dropped e) →
      Settled rounds timeout (PollResult.checked ⟨lwfsOk, e, k + 1⟩) := by
    intro e he
    have hdelivered : rounds.Delivered (k + 1) ↔ e.failed = false := by
      constructor
      · rintro ⟨n, e', hn, he', hgood⟩
        cases hn
        rcases he with he | he <;> rw [he] at he' <;>
          rcases he' with he' | he' <;> cases he' <;> exact hgood
      · exact fun hgood => ⟨k, e, rfl, he, hgood⟩
    cases hfailed : e.failed with
    | true =>
        simp only [PollResult.checked, hfailed, if_true]
        refine ⟨hempties, iff_of_false (rcOf_ne_ok _) ?_,
          iff_of_false errTimedout_ne_errRpc.symm hgaveUp, fun _ _ => rfl⟩
        simp [hdelivered, hfailed]
    | false =>
        have hgood := hdelivered.mpr hfailed
        simp only [PollResult.checked, hfailed, Bool.false_eq_true, if_false]
        exact ⟨hempties, iff_of_true rfl hgood,
          iff_of_false (rcOf_ne_ok _).symm hgaveUp, fun h => absurd hgood h⟩
  unfold pollRound
  simp only [hbefore, Bool.false_eq_true, if_false]
  cases hout : rounds.poll k with
  | empty => exact absurd hout hpoll
  | event e => exact ⟨_, rfl, hevent e (.inl hout)⟩
  | dropped e => exact ⟨_, rfl, hevent e (.inr hout)⟩
  | failed =>
      have hdelivered : ¬ rounds.Delivered (k + 1) := by
        rintro ⟨n, e, hn, he, -⟩
        cases hn
        rw [hout] at he
        rcases he with he | he <;> cases he
      refine ⟨_, rfl, ?_⟩
      have hchecked : PollResult.checked ⟨rcOf .errRpc, event, k + 1⟩ =
          ⟨rcOf .errRpc, event, k + 1⟩ := by
        unfold PollResult.checked
        exact ite_self _
      rw [hchecked]
      exact ⟨hempties, iff_of_false (rcOf_ne_ok _) hdelivered,
        iff_of_false errTimedout_ne_errRpc.symm hgaveUp, fun _ _ => rfl⟩

/-- More empty polls than the limit allows. -/
theorem not_settled_of_quiet (hk : rounds.Quiet (pollBound timeout))
    (hpoll : rounds.poll (pollBound timeout) = .empty)
    (hpolls : pollBound timeout + 1 ≤ result.polls) :
    ¬ Settled rounds timeout result := by
  intro h
  have hmono : rounds.empties (pollBound timeout + 1) ≤
      rounds.empties result.polls := empties_mono hpolls
  rw [empties_succ, empties_of_quiet hk, if_pos hpoll] at hmono
  have hbounded := h.bounded
  omega

/-- Either nothing happens in the first rounds, or there is a first one in
which something does. -/
theorem quiet_or_first (rounds : Rounds T) (m : ℕ) : rounds.Quiet m ∨
    ∃ k < m, rounds.Quiet k ∧ ¬ (rounds.exitBefore k = false ∧
      rounds.poll k = .empty ∧ rounds.exitAfter k = false) := by
  induction m with
  | zero => exact .inl nofun
  | succ m ih =>
      rcases ih with hquiet | ⟨k, hk, hrest⟩
      · by_cases hround : rounds.exitBefore m = false ∧ rounds.poll m = .empty ∧
          rounds.exitAfter m = false
        · refine .inl fun i hi => ?_
          rcases Nat.lt_succ_iff_lt_or_eq.mp hi with hlt | rfl
          · exact hquiet i hlt
          · exact hround
        · exact .inr ⟨m, Nat.lt_succ_self m, hquiet, hround⟩
      · exact .inr ⟨k, Nat.lt_succ_of_lt hk, hrest⟩

omit [DecidableEq T] in
variable (ptlEqEmpty event) in
/-- A limit that the loop can keep runs out. -/
theorem pollLoop_of_expires (h : 0 ≤ timeout) (hexpires : Expires timeout)
    (hquiet : rounds.Quiet (pollBound timeout)) :
    ∃ k, Waiting rounds timeout k ∧ k + 1 = pollBound timeout ∧
      rounds.exitBefore k = false ∧ rounds.poll k = .empty ∧
      pollLoop rounds ptlEqEmpty timeout (1 + k) 0 0 event =
        some ⟨rcOf .errTimedout, event, k + 1⟩ := by
  have hone : 1 ≤ pollBound timeout := le_max_left _ _
  obtain ⟨k, hlast⟩ := Nat.exists_eq_add_of_le' hone
  have hwaiting : Waiting rounds timeout k :=
    ⟨fun i hi => hquiet i (by omega), .inl (by omega)⟩
  obtain ⟨hbefore, hpoll, -⟩ := hquiet k (by omega)
  refine ⟨k, hwaiting, hlast.symm, hbefore, hpoll, pollLoop_of_waiting h hwaiting ?_⟩
  have hexpired := (expired_iff h (k := k) (by omega)).mpr ⟨hexpires, hlast.symm⟩
  rw [elapsedAfter] at hexpired
  simp [pollRound, hbefore, hpoll, hexpired]

theorem settled_of_timely (h : 0 ≤ timeout)
    (htimely : Timely rounds ptlEqEmpty timeout event) :
    ∃ fuel result, lwfsPtlEqPoll rounds ptlEqEmpty timeout event fuel =
      some result ∧ Settled rounds timeout result := by
  obtain ⟨k, hk, ⟨hbefore, hcode, hgood⟩ | ⟨hbefore, hpoll⟩ |
    ⟨hbefore, hpoll, hlt, hstop, hgood⟩⟩ := htimely
  · have hround : pollRound rounds ptlEqEmpty timeout k (elapsedAfter timeout k)
        event = .error ⟨ptlEqEmpty, event, k⟩ := by
      simp [pollRound, hbefore]
    exact ⟨1 + k, _, congrArg (Option.map _) (pollLoop_of_waiting h hk hround),
      (settled_exit hk).mpr ⟨hcode, hgood⟩⟩
  · obtain ⟨result, hround, hsettled⟩ :=
      exists_settled_answer hk hbefore hpoll (elapsedAfter timeout k)
    exact ⟨1 + k, _, congrArg (Option.map _) (pollLoop_of_waiting h hk hround),
      hsettled⟩
  · have hstop : (0 < timeout ∧ timeout ≤ elapsedAfter timeout (k + 1)) ∨
        rounds.exitAfter k = true := by
      rw [expired_iff h hlt]
      exact hstop.symm
    have hround : pollRound rounds ptlEqEmpty timeout k (elapsedAfter timeout k)
        event = .error ⟨rcOf .errTimedout, event, k + 1⟩ := by
      rw [elapsedAfter] at hstop
      simp [pollRound, hbefore, hpoll, hstop]
    exact ⟨1 + k, _, congrArg (Option.map _) (pollLoop_of_waiting h hk hround),
      (settled_gaveUp hk.1 hpoll).mpr ⟨hlt, hgood⟩⟩

theorem timely_of_settled (h : 0 ≤ timeout)
    (hloop : pollLoop rounds ptlEqEmpty timeout fuel 0 0 event = some result)
    (hsettled : Settled rounds timeout result.checked) :
    Timely rounds ptlEqEmpty timeout event := by
  have hexpired : Expires timeout → rounds.Quiet (pollBound timeout) →
      Timely rounds ptlEqEmpty timeout event := by
    intro hexpires hquiet
    obtain ⟨k, hk, hlast, hbefore, hpoll, hloop'⟩ :=
      pollLoop_of_expires ptlEqEmpty event h hexpires hquiet
    obtain rfl := pollLoop_unique hloop hloop'
    obtain ⟨hlt, hgood⟩ := (settled_gaveUp hk.1 hpoll).mp hsettled
    exact ⟨k, hk, .inr (.inr ⟨hbefore, hpoll, hlt, .inr ⟨hexpires, hlast⟩, hgood⟩)⟩
  rcases quiet_or_first rounds (pollBound timeout + 1) with
    hquiet | ⟨k, hk, hquiet, hround⟩
  · by_cases hexpires : Expires timeout
    · exact hexpired hexpires fun i hi => hquiet i (by omega)
    · -- The loop has no limit, and polls once more than it may.
      have hsofar : rounds.Quiet (pollBound timeout) :=
        fun i hi => hquiet i (by omega)
      obtain ⟨hbefore, hpoll, -⟩ := hquiet _ (Nat.lt_succ_self _)
      have hlater := pollLoop_of_quiet ptlEqEmpty event h hsofar
        (.inr ⟨rfl, hexpires⟩) fuel
      rw [pollLoop_add _ hloop] at hlater
      have hpolls := (le_polls hlater.symm).2 hbefore
      refine absurd hsettled (not_settled_of_quiet hsofar hpoll ?_)
      unfold PollResult.checked
      split_ifs <;> exact hpolls
  · by_cases hlimit : k = pollBound timeout ∧ Expires timeout
    · obtain ⟨rfl, hexpires⟩ := hlimit
      exact hexpired hexpires hquiet
    · have hwaiting : Waiting rounds timeout k := by
        refine ⟨hquiet, ?_⟩
        rcases Nat.lt_succ_iff_lt_or_eq.mp hk with hlt | heq
        · exact .inl hlt
        · exact .inr ⟨heq, fun hexpires => hlimit ⟨heq, hexpires⟩⟩
      refine ⟨k, hwaiting, ?_⟩
      cases hbefore : rounds.exitBefore k with
      | true =>
          have hround : pollRound rounds ptlEqEmpty timeout k
              (elapsedAfter timeout k) event = .error ⟨ptlEqEmpty, event, k⟩ := by
            simp [pollRound, hbefore]
          obtain rfl :=
            pollLoop_unique hloop (pollLoop_of_waiting h hwaiting hround)
          exact .inl ⟨rfl, (settled_exit hwaiting).mp hsettled⟩
      | false =>
          by_cases hpoll : rounds.poll k = .empty
          · have hafter : rounds.exitAfter k = true := by
              simpa [hbefore, hpoll] using hround
            have hround : pollRound rounds ptlEqEmpty timeout k
                (elapsedAfter timeout k) event =
                  .error ⟨rcOf .errTimedout, event, k + 1⟩ := by
              simp [pollRound, hbefore, hpoll, hafter]
            obtain rfl :=
              pollLoop_unique hloop (pollLoop_of_waiting h hwaiting hround)
            obtain ⟨hlt, hgood⟩ := (settled_gaveUp hquiet hpoll).mp hsettled
            exact .inr (.inr ⟨rfl, hpoll, hlt, .inl hafter, hgood⟩)
          · exact .inr (.inl ⟨rfl, hpoll⟩)

end Settled

/-- When `lwfs_ptl_eq_poll` returns in time with the code that the last poll
calls for. -/
theorem settled_iff_timely [DecidableEq T] (rounds : Rounds T) (ptlEqEmpty : Rc)
    (timeout : Int32) (event : Event T) (h : 0 ≤ timeout) :
    (∃ fuel result, lwfsPtlEqPoll rounds ptlEqEmpty timeout event fuel =
        some result ∧ Settled rounds timeout result) ↔
      Timely rounds ptlEqEmpty timeout event := by
  constructor
  · rintro ⟨fuel, result, hcall, hsettled⟩
    obtain ⟨before, hloop, rfl⟩ := Option.map_eq_some_iff.mp hcall
    exact timely_of_settled h hloop hsettled
  · exact settled_of_timely h

/-- Nothing happens in the first two rounds, and then an event comes in. -/
def lateRounds : Rounds Unit where
  exitBefore := fun _ => false
  poll := fun n => if n < 2 then .empty else .event ⟨(), false⟩
  exitAfter := fun _ => false

/-- A limit of two calls waits for two of them. -/
theorem settled_iff_timely_late :
    (∃ fuel result, lwfsPtlEqPoll lateRounds 3 200 ⟨(), false⟩ fuel =
        some result ∧ Settled lateRounds 200 result) ↔
      Timely lateRounds 3 200 ⟨(), false⟩ :=
  settled_iff_timely lateRounds 3 200 ⟨(), false⟩ (by decide)

/-- No event, and the exit flag as given. -/
def silentRounds (exit : Bool) : Rounds Unit where
  exitBefore := fun _ => exit
  poll := fun _ => .empty
  exitAfter := fun _ => exit

/-- A limit of zero is no limit, the exit flag hands out the code of the
library, and an event from before the call makes a failure of a limit that has
run out. -/
theorem not_settled_eqPoll :
    (¬ ∃ fuel result, lwfsPtlEqPoll lateRounds 3 0 ⟨(), false⟩ fuel =
        some result ∧ Settled lateRounds 0 result) ∧
      (¬ ∃ fuel result, lwfsPtlEqPoll (silentRounds true) 3 100 ⟨(), false⟩ fuel =
        some result ∧ Settled (silentRounds true) 100 result) ∧
      (¬ ∃ fuel result, lwfsPtlEqPoll (silentRounds false) 3 100 ⟨(), true⟩ fuel =
        some result ∧ Settled (silentRounds false) 100 result) := by
  refine ⟨?_, ?_, ?_⟩ <;> rintro ⟨fuel, result, hcall, hsettled⟩ <;>
    obtain ⟨before, hloop, rfl⟩ := Option.map_eq_some_iff.mp hcall <;>
    obtain ⟨k, hk, hend⟩ := timely_of_settled (by decide) hloop hsettled
  · have hbound : pollBound 0 = 1 := by decide
    have hle := hk.le
    rw [hbound] at hle hend
    rcases hend with ⟨hbefore, -⟩ | ⟨-, hpoll⟩ | ⟨-, -, -, hstop | hstop, -⟩
    · cases hbefore
    · exact hpoll (if_pos (by omega))
    · cases hstop
    · exact absurd hstop.1 (by unfold Expires; decide)
  · rcases hend with ⟨-, hcode, -⟩ | ⟨hbefore, -⟩ | ⟨hbefore, -⟩
    · exact absurd hcode (by decide)
    · cases hbefore
    · cases hbefore
  · rcases hend with ⟨hbefore, -⟩ | ⟨-, hpoll⟩ | ⟨-, -, -, -, hgood⟩
    · cases hbefore
    · exact hpoll rfl
    · cases hgood

end Lwfs.Rpc
