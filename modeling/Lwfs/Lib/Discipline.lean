import Lwfs.Lib.Interleave

/-!
Disciplines that programs obey among others.

What a program has called and the replies it has got leave a trail. A
discipline says which calls the program may make on a trail, which replies it
counts on, and on which trails it may end. A program is checked against it
alone. In a world where every reply is one that the program counts on, each of
the programs obeys its discipline all the time, on the trail that its own part
of the history leaves.
-/

namespace SysLib

open Prog

/-- What is asked of a program that leaves a trail in `τ`. -/
structure Discipline (Call : Type) (Reply : Call → Type) (τ : Type) where
  after : τ → Answered Call Reply → τ
  Allows : τ → Call → Prop
  Expects : τ → (c : Call) → Reply c → Prop
  Ends : τ → Prop

variable {Call : Type} {Reply : Call → Type} {ε σ α β τ : Type}
  {D : Discipline Call Reply τ}

namespace Prog

/-- On the trail `t`, the program does what is asked of it. -/
def Obeys (D : Discipline Call Reply τ) : Prog Call Reply ε α → τ → Prop
  | ret _, t => D.Ends t
  | fail _, t => D.Ends t
  | call c k, t =>
      D.Allows t c ∧ ∀ r, D.Expects t c r → (k r).Obeys D (D.after t ⟨c, r⟩)

theorem obeys_bind {x : Prog Call Reply ε α} {f : α → Prog Call Reply ε β}
    {t : τ} (hx : x.Obeys D t) (hf : ∀ a t, D.Ends t → (f a).Obeys D t) :
    (x >>= f).Obeys D t := by
  induction x generalizing t with
  | ret a => exact hf a t hx
  | fail e => exact hx
  | call c k ih => exact ⟨hx.1, fun r hr => ih r (hx.2 r hr)⟩

theorem obeys_tryCatch {x : Prog Call Reply ε α}
    {f : ε → Prog Call Reply ε α} {t : τ} (hx : x.Obeys D t)
    (hf : ∀ e t, D.Ends t → (f e).Obeys D t) : (tryCatch x f).Obeys D t := by
  induction x generalizing t with
  | ret a => exact hx
  | fail e => exact hf e t hx
  | call c k ih => exact ⟨hx.1, fun r hr => ih r (hx.2 r hr)⟩

/-- Calls that are allowed on all trails of a kind, and leave the trail of
that kind, can come first. -/
theorem obeys_only_bind {P : Call → Prop} {K : τ → Prop}
    (hallow : ∀ c t, P c → K t → D.Allows t c)
    (hkind : ∀ c t r, P c → K t → K (D.after t ⟨c, r⟩))
    (hend : ∀ t, K t → D.Ends t) {x : Prog Call Reply ε α}
    {f : α → Prog Call Reply ε β} {t : τ} (hx : x.Only P) (ht : K t)
    (hf : ∀ a t, K t → (f a).Obeys D t) : (x >>= f).Obeys D t := by
  induction x generalizing t with
  | ret a => exact hf a t ht
  | fail e => exact hend t ht
  | call c k ih =>
      exact ⟨hallow c t hx.1 ht, fun r _ => ih r (hx.2 r) (hkind c t r hx.1 ht)⟩

/-- Such calls are all right by themselves. -/
theorem obeys_of_only {P : Call → Prop} {K : τ → Prop}
    (hallow : ∀ c t, P c → K t → D.Allows t c)
    (hkind : ∀ c t r, P c → K t → K (D.after t ⟨c, r⟩))
    (hend : ∀ t, K t → D.Ends t) {x : Prog Call Reply ε α} {t : τ}
    (hx : x.Only P) (ht : K t) : x.Obeys D t := by
  have hbind := obeys_only_bind hallow hkind hend (f := pure) hx ht
    fun _ t ht => hend t ht
  rwa [bind_pure] at hbind

end Prog

namespace World

variable {ι : Type} [DecidableEq ι] {exec : (c : Call) → σ → Reply c × σ}
  {w : World ι σ Call Reply ε α} {i : ι} {c : Call}
  {k : Reply c → Prog Call Reply ε α} {after : τ → Answered Call Reply → τ}
  {t₀ : τ}

/-- The trail that program `i` has left. -/
def trail (after : τ → Answered Call Reply → τ) (t₀ : τ)
    (w : World ι σ Call Reply ε α) (i : ι) : τ :=
  (own i w.history).foldl after t₀

@[simp] theorem trail_start (s : σ) (progs : ι → Prog Call Reply ε α) (i : ι) :
    trail after t₀ (World.start s progs) i = t₀ := rfl

theorem trail_step_self (h : w.procs i = .call c k) :
    trail after t₀ (w.step exec i) i =
      after (trail after t₀ w i) ⟨c, (exec c w.store).1⟩ := by
  have hown : own i [(⟨i, c, (exec c w.store).1⟩ : Event ι Call Reply)] =
      [⟨c, (exec c w.store).1⟩] := by
    simp [own]
  rw [trail, step_history exec h, own_append, hown, List.foldl_append]
  rfl

theorem trail_step_of_ne (h : w.procs i = .call c k) {j : ι} (hj : j ≠ i) :
    trail after t₀ (w.step exec i) j = trail after t₀ w j := by
  have hown : own j [(⟨i, c, (exec c w.store).1⟩ : Event ι Call Reply)] = [] := by
    simp [own, Ne.symm hj]
  rw [trail, step_history exec h, own_append, hown, List.append_nil]
  rfl

/-- Each program goes on obeying its discipline after a reply that the program
that has called counts on. -/
theorem obeys_step {D : ι → Discipline Call Reply τ}
    (hafter : ∀ i, (D i).after = after)
    (hw : ∀ i, (w.procs i).Obeys (D i) (trail after t₀ w i))
    (h : w.procs i = .call c k)
    (hreply : (D i).Expects (trail after t₀ w i) c (exec c w.store).1) (j : ι) :
    ((w.step exec i).procs j).Obeys (D j)
      (trail after t₀ (w.step exec i) j) := by
  by_cases hj : j = i
  · subst hj
    have hobeys := hw j
    rw [h] at hobeys
    have hrest := hobeys.2 _ hreply
    rw [hafter] at hrest
    rw [trail_step_self h, step_procs_self exec h]
    exact hrest
  · rw [trail_step_of_ne h hj, step_procs_of_ne exec h hj]
    exact hw j

end World

end SysLib
