import Lwfs.Support.Uuid
import Mathlib.Tactic.IntervalCases

/-!
Many UUIDs from one object.

`UUIDS_PER_TICK` is the number of units of time in a microsecond, and the
counter of the UUIDs in a microsecond goes up to it, not to one below.
-/

namespace Lwfs.Support

/-- A UUID is made, and the clock has not stepped back. -/
structure Makes (mc : Bool) (uuid uuid' : UuidSt) : Prop where
  made : ∃ calls, uuidMakeV1 mc calls uuid = some (.ok (), uuid')
  forward : ¬ uuid'.timeLast.Before uuid.timeLast

/-- The time of the last UUID is before that of another, or it is the same and
fewer UUIDs had been made at it. -/
def Earlier (u v : UuidSt) : Prop :=
  u.timeLast.micros < v.timeLast.micros ∨
    u.timeLast.micros = v.timeLast.micros ∧ u.timeSeq < v.timeSeq

section Runs

variable {mc : Bool} {u v w : UuidSt}

theorem Earlier.trans (h : Earlier u v) (h' : Earlier v w) : Earlier u w := by
  simp only [Earlier] at *
  omega

theorem Makes.time (h : Makes mc u v) :
    (u.timeLast.micros < v.timeLast.micros ∧ v.timeSeq = 0) ∨
      (v.timeLast.micros = u.timeLast.micros ∧ v.timeSeq = u.timeSeq + 1 ∧
        v.timeSeq ≤ uuidsPerTick) := by
  obtain ⟨calls, hmake⟩ := h.made
  obtain ⟨clck, addr, hmade⟩ := uuidMakeV1_ok hmake
  have hforward := h.forward
  rw [Timeval.before_iff] at hforward
  rcases systemTime_ok hmade.time with ⟨hne, hseq⟩ | ⟨heq, hseq, hle⟩
  · have hne' := mt Timeval.micros_inj.mp hne
    exact .inl ⟨by omega, hseq⟩
  · exact .inr ⟨by rw [heq], hseq, hle⟩

theorem Makes.earlier (h : Makes mc u v) : Earlier u v := by
  have htime := h.time
  rw [Earlier]
  omega

theorem Makes.timeSeq_le (h : Makes mc u v) : v.timeSeq ≤ uuidsPerTick := by
  have htime := h.time
  omega

/-- The UUID that has been made has the time that is kept, and its clock
sequence is the next one. -/
theorem Makes.obj (h : Makes mc u v) :
    v.obj = .stamp (stampTime v.timeLast v.timeSeq) v.obj.clock v.obj.node ∧
      v.obj.clock < 2 ^ 14 ∧
        (u.obj.clock ≠ 0 → v.obj.clock = (u.obj.clock + 1) % 2 ^ 14) := by
  obtain ⟨calls, hmake⟩ := h.made
  obtain ⟨clck, addr, hmade⟩ := uuidMakeV1_ok hmake
  have hlt := nextClock_lt hmade.clock
  have hclock : v.obj.clock = clck := by
    rw [hmade.obj, UuidObj.clock_stamp _ _ hlt]
  have hnode : v.obj.node = addr := by
    rw [hmade.obj]
    rfl
  refine ⟨by rw [hclock, hnode]; exact hmade.obj, by rw [hclock]; exact hlt, fun hne => ?_⟩
  have hnext := hmade.clock
  rw [nextClock, if_neg (by simp only [hne, h.forward, or_self, not_false_iff])] at hnext
  rw [hclock]
  exact (Option.some.inj hnext).symm

/-- Two UUIDs are the same where their times, clock sequences and nodes are. -/
theorem Makes.obj_eq_iff {u' v' : UuidSt} (hu : Makes mc u' u) (hv : Makes mc v' v)
    (hut : stampTime u.timeLast u.timeSeq < 2 ^ 60)
    (hvt : stampTime v.timeLast v.timeSeq < 2 ^ 60) :
    uuidExportBin u.obj = uuidExportBin v.obj ↔
      stampTime u.timeLast u.timeSeq = stampTime v.timeLast v.timeSeq ∧
        u.obj.clock = v.obj.clock ∧ u.obj.node = v.obj.node := by
  obtain ⟨hobj, hclock, -⟩ := hu.obj
  obtain ⟨hobj', hclock', -⟩ := hv.obj
  have hstamp := UuidObj.stamp_inj (s := stampTime u.timeLast u.timeSeq)
    (t := stampTime v.timeLast v.timeSeq) (m := u.obj.node) (n := v.obj.node) hclock hclock'
  rw [← hobj, ← hobj', Nat.mod_eq_of_lt hut, Nat.mod_eq_of_lt hvt] at hstamp
  rw [uuidExportBin_inj]
  exact hstamp

theorem earlier_of_lt {u : ℕ → UuidSt} {N : ℕ} (hmakes : ∀ n < N, Makes mc (u n) (u (n + 1)))
    {i j : ℕ} (hij : i < j) (hj : j ≤ N) : Earlier (u i) (u j) := by
  induction j, hij using Nat.le_induction with
  | base => exact (hmakes i (by omega)).earlier
  | succ j hij ih => exact (ih (by omega)).trans (hmakes j (by omega)).earlier

/-- Only the last of the eleven UUIDs of a microsecond can have the time of
another, the first one of the next microsecond. -/
theorem stampTime_eq_iff {u : ℕ → UuidSt} {N : ℕ}
    (hmakes : ∀ n < N, Makes mc (u n) (u (n + 1))) {i j : ℕ}
    (hle : (u i).timeSeq ≤ uuidsPerTick) (hij : i < j) (hj : j ≤ N) :
    stampTime (u i).timeLast (u i).timeSeq = stampTime (u j).timeLast (u j).timeSeq ↔
      j = i + 1 ∧ (u i).timeSeq = uuidsPerTick ∧
        (u j).timeLast.micros = (u i).timeLast.micros + 1 := by
  have hnext := (hmakes i (by omega)).time
  simp only [stampTime, uuidsPerTick] at *
  -- The next UUID has no earlier time, and the one after that has a later time.
  rcases Nat.eq_or_lt_of_le (Nat.succ_le_of_lt hij) with rfl | hlt
  · simp only [Nat.succ_eq_add_one, true_and]
    omega
  · have hlater := earlier_of_lt hmakes hlt hj
    simp only [Earlier, Nat.succ_eq_add_one] at hlater
    omega

/-- An object makes no UUID twice while the clock does not step back, with one
exception: the eleventh UUID of a microsecond has the time of the first one of
the next microsecond. These two are the same if the clock sequence is 0 both
times. -/
theorem uuids_eq_iff {u : ℕ → UuidSt} {N : ℕ}
    (hmakes : ∀ n < N, Makes mc (u n) (u (n + 1)))
    (htime : ∀ n ≤ N, stampTime (u n).timeLast uuidsPerTick < 2 ^ 60)
    {i j : ℕ} (hi : 0 < i) (hij : i < j) (hj : j ≤ N) :
    uuidExportBin (u i).obj = uuidExportBin (u j).obj ↔
      j = i + 1 ∧ (u i).timeSeq = uuidsPerTick ∧
        (u j).timeLast.micros = (u i).timeLast.micros + 1 ∧
        (u i).obj.clock = 0 ∧ (u j).obj.clock = 0 ∧ (u i).obj.node = (u j).obj.node := by
  have hmade : ∀ n, 0 < n → n ≤ N → ∃ v, Makes mc v (u n) := by
    intro n hpos hn
    have hstep := hmakes (n - 1) (by omega)
    rw [Nat.sub_add_cancel hpos] at hstep
    exact ⟨_, hstep⟩
  have hbound : ∀ n ≤ N, (u n).timeSeq ≤ uuidsPerTick →
      stampTime (u n).timeLast (u n).timeSeq < 2 ^ 60 := by
    intro n hn hseq
    have h := htime n hn
    rw [stampTime] at *
    omega
  obtain ⟨v, hv⟩ := hmade i hi (by omega)
  obtain ⟨w, hw⟩ := hmade j (by omega) hj
  rw [hv.obj_eq_iff hw (hbound i (by omega) hv.timeSeq_le) (hbound j hj hw.timeSeq_le),
    stampTime_eq_iff hmakes hv.timeSeq_le hij hj]
  constructor
  · rintro ⟨⟨rfl, hseq, hmicros⟩, hclock, hnode⟩
    obtain ⟨-, hlt, -⟩ := hv.obj
    obtain ⟨-, -, hnext⟩ := (hmakes i (by omega)).obj
    -- A clock sequence other than 0 is followed by another one.
    have hzero : (u i).obj.clock = 0 := by
      by_contra hne
      have heq := hnext hne
      omega
    exact ⟨rfl, hseq, hmicros, hzero, hclock ▸ hzero, hnode⟩
  · rintro ⟨hnext, hseq, hmicros, hzero, hzero', hnode⟩
    exact ⟨⟨hnext, hseq, hmicros⟩, by rw [hzero, hzero'], hnode⟩

end Runs

/-- Twelve calls: eleven in one microsecond, and one in the next. -/
def twelveCalls (n : ℕ) : MakeCalls where
  gettimeofday := [some ⟨1, if n < 11 then 0 else 1, by split <;> decide⟩]
  prngClock := some (if n = 0 then 16374 else 0)
  prngNode := none

/-- The object after the first `n` of the calls. -/
def afterCalls : ℕ → UuidSt
  | 0 => uuidCreate (some (Octets.fill macOctets 2))
  | n + 1 => ((uuidMakeV1 false (twelveCalls n) (afterCalls n)).map Prod.snd).getD (afterCalls n)

theorem uuids_eq_iff_twelve :
    uuidExportBin (afterCalls 11).obj = uuidExportBin (afterCalls 12).obj := by
  have hmakes : ∀ n < 12, Makes false (afterCalls n) (afterCalls (n + 1)) := by
    intro n hn
    refine ⟨⟨twelveCalls n, ?_⟩, ?_⟩
    · interval_cases n <;> rfl
    · interval_cases n <;> decide
  refine (uuids_eq_iff hmakes ?_ (by decide) (by decide) (by decide)).mpr ?_
  · decide
  · decide

end Lwfs.Support
