import Mathlib.Tactic.Common

/-!
Components that do what an abstract one allows.

A component answers a request and goes to another state, or it crashes. What
it is for is said by an abstract component, a relation between a state, a
request, the answer and the next state, which may leave the answer open. A
simulation that each step keeps is enough for all runs: none of them crashes,
and the answers of each are those of a run of the abstract component.
-/

namespace SysLib

namespace Refinement

variable {σ β ι ρ : Type*}

/-- The answers to the requests of a run and the state it ends in. -/
def run (step : σ → ι → Option (ρ × σ)) : σ → List ι → Option (List ρ × σ)
  | s, [] => some ([], s)
  | s, i :: rest => (step s i).bind fun r =>
      (run step r.2 rest).map fun rs => (r.1 :: rs.1, rs.2)

/-- A run of the abstract component. -/
inductive Trace (does : β → ι → ρ → β → Prop) :
    β → List ι → List ρ → β → Prop
  | nil {b : β} : Trace does b [] [] b
  | cons {b b' b'' : β} {i : ι} {r : ρ} {rest : List ι} {rs : List ρ}
      (first : does b i r b') (then' : Trace does b' rest rs b'') :
      Trace does b (i :: rest) (r :: rs) b''

variable {step : σ → ι → Option (ρ × σ)} {does : β → ι → ρ → β → Prop}
  {sim : σ → β → Prop}

/-- A simulation of the steps is one of the runs. -/
theorem run_trace
    (hstep : ∀ s b i, sim s b →
      ∃ r s' b', step s i = some (r, s') ∧ does b i r b' ∧ sim s' b')
    {s : σ} {b : β} (h : sim s b) (run' : List ι) :
    ∃ rs s' b', run step s run' = some (rs, s') ∧ Trace does b run' rs b' ∧
      sim s' b' := by
  induction run' generalizing s b with
  | nil => exact ⟨[], s, b, rfl, .nil, h⟩
  | cons i rest ih =>
      obtain ⟨r, s', b', hs, hdoes, hsim⟩ := hstep s b i h
      obtain ⟨rs, s'', b'', hrun, htrace, hsim'⟩ := ih hsim
      refine ⟨r :: rs, s'', b'', ?_, .cons hdoes htrace, hsim'⟩
      simp [run, hs, hrun]

/-- The component answers all requests of a run, as the abstract one allows. -/
def Answers (step : σ → ι → Option (ρ × σ)) (does : β → ι → ρ → β → Prop)
    (s : σ) (b : β) (run' : List ι) (s' : σ) (b' : β) : Prop :=
  ∃ rs, run step s run' = some (rs, s') ∧ Trace does b run' rs b'

/-- It answers them up to a step that is bad, and crashes there. -/
def Breaks (step : σ → ι → Option (ρ × σ)) (does : β → ι → ρ → β → Prop)
    (bad : σ → ι → Prop) (s : σ) (b : β) (run' : List ι) : Prop :=
  ∃ pre i post s' b', run' = pre ++ i :: post ∧
    Answers step does s b pre s' b' ∧ bad s' i ∧ step s' i = none

/-- Where a step either does what the abstract component allows, or is bad and
crashes, a run is answered up to the first bad step. -/
theorem run_until {bad : σ → ι → Prop}
    (hstep : ∀ s b i, sim s b → bad s i ∧ step s i = none ∨
      ∃ r s' b', step s i = some (r, s') ∧ does b i r b' ∧ sim s' b')
    {s : σ} {b : β} (h : sim s b) (run' : List ι) :
    (∃ s' b', Answers step does s b run' s' b' ∧ sim s' b') ∨
      Breaks step does bad s b run' := by
  induction run' generalizing s b with
  | nil => exact .inl ⟨s, b, ⟨[], rfl, .nil⟩, h⟩
  | cons i rest ih =>
      obtain ⟨hbad, hnone⟩ | ⟨r, s', b', hs, hdoes, hsim⟩ := hstep s b i h
      · exact .inr ⟨[], i, rest, s, b, rfl, ⟨[], rfl, .nil⟩, hbad, hnone⟩
      have hcons : ∀ l s'' b'', Answers step does s' b' l s'' b'' →
          Answers step does s b (i :: l) s'' b'' := by
        rintro l s'' b'' ⟨rs, hrun, htrace⟩
        refine ⟨r :: rs, ?_, .cons hdoes htrace⟩
        simp [run, hs, hrun]
      obtain ⟨s'', b'', hrest, hsim'⟩ |
        ⟨pre, j, post, s'', b'', rfl, hpre, hbad, hnone⟩ := ih hsim
      · exact .inl ⟨s'', b'', hcons _ _ _ hrest, hsim'⟩
      · exact .inr ⟨i :: pre, j, post, s'', b'', rfl, hcons _ _ _ hpre, hbad, hnone⟩

end Refinement

end SysLib
