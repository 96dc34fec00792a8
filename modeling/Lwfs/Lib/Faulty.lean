import Lwfs.Lib.Prog

/-!
Stores that fail to serve some calls.

The calls are counted, and which of them fail is given in advance. A program
that only reads gets through exactly if none of its calls fails and the read
succeeds. So where a program consists of reads and then of an update, the
calls that the update depends on are known by their numbers.
-/

namespace SysLib

open Prog

variable {σ Call : Type} {Reply : Call → Type} {ε α β : Type}

/-- A store, and how often it has been called. -/
structure Metered (σ : Type) where
  store : σ
  calls : ℕ

/-- One call of a store that fails to serve some calls. -/
def faulty (exec : Bool → (c : Call) → σ → Reply c × σ) (fails : ℕ → Bool)
    (c : Call) (s : Metered σ) : Reply c × Metered σ :=
  let r := exec (fails s.calls) c s.store
  (r.1, ⟨r.2, s.calls + 1⟩)

/-- Of `k` calls from number `n` on, none fails. -/
def Served (fails : ℕ → Bool) (n k : ℕ) : Prop :=
  ∀ i < k, fails (n + i) = false

instance (fails : ℕ → Bool) (n k : ℕ) : Decidable (Served fails n k) :=
  inferInstanceAs (Decidable (∀ i < k, _))

section Served

variable {fails : ℕ → Bool} {n k m : ℕ}

@[simp] theorem served_zero : Served fails n 0 :=
  fun i hi => absurd hi (Nat.not_lt_zero i)

theorem served_one : Served fails n 1 ↔ fails n = false := by
  simp [Served]

theorem served_two :
    Served fails n 2 ↔ fails n = false ∧ fails (n + 1) = false := by
  constructor
  · intro h
    exact ⟨h 0 (by omega), h 1 (by omega)⟩
  · rintro ⟨hfirst, hsecond⟩ i hi
    obtain rfl | rfl : i = 0 ∨ i = 1 := by omega
    · exact hfirst
    · exact hsecond

theorem served_add :
    Served fails n (k + m) ↔ Served fails n k ∧ Served fails (n + k) m := by
  constructor
  · intro h
    refine ⟨fun i hi => h i (by omega), fun i hi => ?_⟩
    rw [Nat.add_assoc]
    exact h (k + i) (by omega)
  · rintro ⟨hk, hm⟩ i hi
    by_cases hik : i < k
    · exact hk i hik
    · have hrest := hm (i - k) (by omega)
      rwa [show n + k + (i - k) = n + i by omega] at hrest

end Served

variable (exec : Bool → (c : Call) → σ → Reply c × σ) (fails : ℕ → Bool)

/-- The program makes `k` calls to read `f`, and leaves the store alone. -/
structure Reads (k : ℕ) (p : Prog Call Reply ε α) (f : σ → Except ε α) :
    Prop where
  ok_iff : ∀ s n a t, p.run (faulty exec fails) ⟨s, n⟩ = .ok a t ↔
    Served fails n k ∧ f s = .ok a ∧ t = ⟨s, n + k⟩
  store_eq : ∀ s n e t, p.run (faulty exec fails) ⟨s, n⟩ = .error e t →
    t.store = s

variable {exec fails}

theorem reads_fromExcept (x : Except ε α) :
    Reads exec fails 0 (fromExcept x) fun _ => x where
  ok_iff s n a t := by
    rw [run_fromExcept, Routine.reader_eq_ok]
    simp [eq_comm]
  store_eq s n e t h := by
    rw [run_fromExcept, Routine.reader_eq_error] at h
    rw [← h.2]

theorem reads_pure (a : α) :
    Reads exec fails 0 (pure a : Prog Call Reply ε α) fun _ => .ok a :=
  reads_fromExcept (.ok a)

theorem Reads.bind {k m : ℕ} {p : Prog Call Reply ε α} {f : σ → Except ε α}
    {q : α → Prog Call Reply ε β} {g : α → σ → Except ε β}
    (hp : Reads exec fails k p f) (hq : ∀ a, Reads exec fails m (q a) (g a)) :
    Reads exec fails (k + m) (p >>= q) fun s => f s >>= fun a => g a s where
  ok_iff s n b t := by
    rw [run_bind, Routine.bind_eq_ok, served_add]
    constructor
    · rintro ⟨a, u, hfirst, hsecond⟩
      obtain ⟨hk, hf, rfl⟩ := (hp.ok_iff s n a u).mp hfirst
      obtain ⟨hm, hg, rfl⟩ := ((hq a).ok_iff s (n + k) b t).mp hsecond
      refine ⟨⟨hk, hm⟩, ?_, by rw [Nat.add_assoc]⟩
      rw [hf]
      exact hg
    · rintro ⟨⟨hk, hm⟩, hfg, rfl⟩
      cases hf : f s with
      | error e =>
          rw [hf] at hfg
          cases hfg
      | ok a =>
          rw [hf] at hfg
          refine ⟨a, _, (hp.ok_iff s n a _).mpr ⟨hk, hf, rfl⟩, ?_⟩
          rw [← Nat.add_assoc]
          exact ((hq a).ok_iff s (n + k) b _).mpr ⟨hm, hfg, rfl⟩
  store_eq s n e t h := by
    rw [run_bind, Routine.bind_eq_error] at h
    rcases h with hfirst | ⟨a, u, hfirst, hsecond⟩
    · exact hp.store_eq s n e t hfirst
    · obtain ⟨-, -, rfl⟩ := (hp.ok_iff s n a u).mp hfirst
      exact (hq a).store_eq s (n + k) e t hsecond

/-- What follows a read that gets through. -/
theorem Reads.run_bind_of_ok {k : ℕ} {p : Prog Call Reply ε α}
    {f : σ → Except ε α} (hp : Reads exec fails k p f)
    {q : α → Prog Call Reply ε β} {s : σ} {n : ℕ} {a : α}
    (hserved : Served fails n k) (hf : f s = .ok a) :
    (p >>= q).run (faulty exec fails) ⟨s, n⟩ =
      (q a).run (faulty exec fails) ⟨s, n + k⟩ := by
  rw [run_bind]
  exact Routine.bind_of_ok ((hp.ok_iff s n a _).mpr ⟨hserved, hf, rfl⟩)

/-- A read that does not get through ends the program. -/
theorem Reads.run_bind_of_not {k : ℕ} {p : Prog Call Reply ε α}
    {f : σ → Except ε α} (hp : Reads exec fails k p f)
    {q : α → Prog Call Reply ε β} {s : σ} {n : ℕ}
    (h : ∀ a, Served fails n k → f s ≠ .ok a) :
    ∃ e t, (p >>= q).run (faulty exec fails) ⟨s, n⟩ = .error e t ∧
      t.store = s := by
  rw [run_bind]
  cases hrun : p.run (faulty exec fails) ⟨s, n⟩ with
  | ok a t =>
      obtain ⟨hserved, hf, -⟩ := (hp.ok_iff s n a t).mp hrun
      exact absurd hf (h a hserved)
  | error e t =>
      exact ⟨e, t, Routine.bind_of_error hrun, hp.store_eq s n e t hrun⟩

end SysLib
