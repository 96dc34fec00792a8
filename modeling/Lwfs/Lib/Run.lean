import Mathlib.Tactic.Common

/-!
Runs of a system that takes one request after the other.

A system is a step function from a state and a request to the next state. A
run is a list of requests. `Along` says that a property of a state and the
request met there holds at every step of a run, and the rules below carry an
invariant along a run and trade one such property for another under it.
-/

namespace SysLib

namespace Run

variable {σ ι : Type*} (step : σ → ι → σ)

/-- The state a run ends in. -/
def exec (s : σ) (run : List ι) : σ := run.foldl step s

/-- `P` holds of every request of the run in the state it is met in. -/
def Along (P : σ → ι → Prop) : σ → List ι → Prop
  | _, [] => True
  | s, i :: run => P s i ∧ Along P (step s i) run

@[simp] theorem exec_nil (s : σ) : exec step s [] = s := rfl

@[simp] theorem exec_cons (s : σ) (i : ι) (run : List ι) :
    exec step s (i :: run) = exec step (step s i) run := rfl

@[simp] theorem exec_append (s : σ) (run run' : List ι) :
    exec step s (run ++ run') = exec step (exec step s run) run' :=
  List.foldl_append

@[simp] theorem along_nil (P : σ → ι → Prop) (s : σ) : Along step P s [] :=
  trivial

@[simp] theorem along_cons (P : σ → ι → Prop) (s : σ) (i : ι)
    (run : List ι) :
    Along step P s (i :: run) ↔ P s i ∧ Along step P (step s i) run :=
  Iff.rfl

instance along_decidable (P : σ → ι → Prop) [∀ s i, Decidable (P s i)] :
    (s : σ) → (run : List ι) → Decidable (Along step P s run)
  | _, [] => inferInstanceAs (Decidable True)
  | s, i :: run =>
      have := along_decidable P (step s i) run
      inferInstanceAs (Decidable (P s i ∧ Along step P (step s i) run))

theorem along_append (P : σ → ι → Prop) (s : σ) (run run' : List ι) :
    Along step P s (run ++ run') ↔
      Along step P s run ∧ Along step P (exec step s run) run' := by
  induction run generalizing s with
  | nil => simp
  | cons i run ih => simp [ih, and_assoc]

theorem along_and (P Q : σ → ι → Prop) (s : σ) (run : List ι) :
    Along step (fun s i => P s i ∧ Q s i) s run ↔
      Along step P s run ∧ Along step Q s run := by
  induction run generalizing s with
  | nil => simp
  | cons i run ih =>
      rw [along_cons, along_cons, along_cons, ih]
      exact and_and_and_comm

variable {step} in
theorem along_congr {P Q : σ → ι → Prop} {s : σ} {run : List ι}
    (h : Along step (fun s i => P s i ↔ Q s i) s run) :
    Along step P s run ↔ Along step Q s run := by
  induction run generalizing s with
  | nil => exact Iff.rfl
  | cons i run ih => exact and_congr h.1 (ih h.2)

/-- A property of the requests alone holds along a run if it holds of each. -/
theorem along_of_forall {P : ι → Prop} (s : σ) {run : List ι}
    (h : ∀ i ∈ run, P i) : Along step (fun _ i => P i) s run := by
  induction run generalizing s with
  | nil => trivial
  | cons i run ih =>
      rw [List.forall_mem_cons] at h
      exact ⟨h.1, ih (step s i) h.2⟩

variable {step} {P Q : σ → ι → Prop} {Inv : σ → Prop}

theorem along_mono (hPQ : ∀ s i, P s i → Q s i) {s : σ} {run : List ι}
    (hrun : Along step P s run) : Along step Q s run := by
  induction run generalizing s with
  | nil => trivial
  | cons i run ih => exact ⟨hPQ s i hrun.1, ih hrun.2⟩

/-- An invariant that every step meeting `P` keeps holds wherever a run whose
steps all meet `P` ends. -/
theorem exec_invariant (hstep : ∀ s i, Inv s → P s i → Inv (step s i))
    {s : σ} {run : List ι} (hs : Inv s) (hrun : Along step P s run) :
    Inv (exec step s run) := by
  induction run generalizing s with
  | nil => exact hs
  | cons i run ih =>
      obtain ⟨hi, hrest⟩ := hrun
      exact ih (hstep s i hs hi) hrest

/-- Along a run that keeps an invariant, what each step shows under the
invariant holds at every step. -/
theorem along_of_invariant (hstep : ∀ s i, Inv s → P s i → Inv (step s i))
    (hPQ : ∀ s i, Inv s → P s i → Q s i) {s : σ} {run : List ι} (hs : Inv s)
    (hrun : Along step P s run) : Along step Q s run := by
  induction run generalizing s with
  | nil => trivial
  | cons i run ih =>
      obtain ⟨hi, hrest⟩ := hrun
      exact ⟨hPQ s i hs hi, ih (hstep s i hs hi) hrest⟩

/-- An invariant that every step keeps holds wherever a run ends. -/
theorem exec_invariant_of_step (hstep : ∀ s i, Inv s → Inv (step s i))
    {s : σ} (hs : Inv s) (run : List ι) : Inv (exec step s run) := by
  induction run generalizing s with
  | nil => exact hs
  | cons i run ih => exact ih (hstep s i hs)

/-- Where every state that is not yet good has a step that makes a measure
smaller, some run leads to a good one. -/
theorem exists_exec_of_measure {good : σ → Prop} (μ : σ → ℕ)
    (hstep : ∀ s, Inv s → ¬ good s →
      ∃ i, P s i ∧ Inv (step s i) ∧ μ (step s i) < μ s)
    {s : σ} (hs : Inv s) :
    ∃ run, Along step P s run ∧ Inv (exec step s run) ∧
      good (exec step s run) := by
  induction hn : μ s using Nat.strongRecOn generalizing s with
  | ind n ih =>
      by_cases hgood : good s
      · exact ⟨[], trivial, hs, hgood⟩
      · obtain ⟨i, hi, hinv, hlt⟩ := hstep s hs hgood
        obtain ⟨run, hrun, hend⟩ := ih _ (hn ▸ hlt) hinv rfl
        exact ⟨i :: run, ⟨hi, hrun⟩, hend⟩

/-- A property holds in every state a run reaches if it holds at the start and
after every step. -/
theorem forall_prefix_iff {p : σ → Prop} {s : σ} {run : List ι} :
    (∀ pre, pre <+: run → p (exec step s pre)) ↔
      p s ∧ Along step (fun s i => p (step s i)) s run := by
  induction run generalizing s with
  | nil => simp
  | cons i run ih =>
      rw [along_cons, ← ih]
      constructor
      · intro h
        exact ⟨h [] List.nil_prefix, fun pre hpre =>
          h (i :: pre) (List.cons_prefix_cons.mpr ⟨rfl, hpre⟩)⟩
      · rintro ⟨hs, hrest⟩ pre hpre
        cases pre with
        | nil => exact hs
        | cons i' pre =>
            obtain ⟨rfl, hpre'⟩ := List.cons_prefix_cons.mp hpre
            exact hrest pre hpre'

/-- Two properties of a step hold along the same runs if they agree wherever
an invariant holds, and the steps that meet them keep it. -/
theorem along_iff_of_invariant (hstep : ∀ s i, Inv s → P s i → Inv (step s i))
    (hPQ : ∀ s i, Inv s → (P s i ↔ Q s i)) {s : σ} {run : List ι} (hs : Inv s) :
    Along step P s run ↔ Along step Q s run :=
  ⟨along_of_invariant hstep (fun s i hi => (hPQ s i hi).mp) hs,
    along_of_invariant (fun s i hi hq => hstep s i hi ((hPQ s i hi).mpr hq))
      (fun s i hi => (hPQ s i hi).mpr) hs⟩

end Run

end SysLib
