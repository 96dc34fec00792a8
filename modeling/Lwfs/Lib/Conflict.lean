import Lwfs.Lib.Interleave

/-!
Calls that can change places.

Each call looks at one place of the store, and changes no other. Two calls
conflict if they look at the same place and one of them may change it. Calls
that do not conflict can be taken in either order: so where no call of one
program comes before a call of another that it conflicts with, the store ends
as if the programs had run one after the other.
-/

namespace SysLib

open Prog

variable {ι σ Call : Type} {Reply : Call → Type} {ε α : Type}

section Swap

variable (exec : (c : Call) → σ → Reply c × σ) (R : σ → σ → Prop)

/-- Stores that are related give the same replies, and stay related. -/
def Respects : Prop :=
  ∀ c s s', R s s' → (exec c s).1 = (exec c s').1 ∧
    R (exec c s).2 (exec c s').2

/-- Each of the two calls gets the same reply whether it is taken first or
last, and leaves related stores. -/
def Independent (c c' : Call) : Prop :=
  ∀ s, (exec c' (exec c s).2).1 = (exec c' s).1 ∧
    (exec c (exec c' s).2).1 = (exec c s).1 ∧
      R (exec c' (exec c s).2).2 (exec c (exec c' s).2).2

variable {exec R} {s s' t : σ} {e : Event ι Call Reply}
  {h : List (Event ι Call Reply)}

theorem Explains.respects (hR : Respects exec R) (hs : R s s')
    (hst : Explains exec s h t) : ∃ t', Explains exec s' h t' ∧ R t t' := by
  induction h generalizing s s' with
  | nil =>
      obtain rfl := hst
      exact ⟨s', rfl, hs⟩
  | cons e h ih =>
      obtain ⟨hr, hst⟩ := hst
      obtain ⟨hreply, hnext⟩ := hR e.call s s' hs
      obtain ⟨t', hst', ht⟩ := ih hnext hst
      exact ⟨t', ⟨hreply.symm.trans hr, hst'⟩, ht⟩

variable [Std.Refl R] [IsTrans σ R]

/-- A call can be put off until after those that it is independent of. -/
theorem Explains.postpone (hR : Respects exec R)
    (hind : ∀ e' ∈ h, Independent exec R e.call e'.call)
    (hst : Explains exec s (e :: h) t) :
    ∃ t', Explains exec s (h ++ [e]) t' ∧ R t t' := by
  induction h generalizing s t with
  | nil => exact ⟨t, hst, Std.Refl.refl t⟩
  | cons e' h ih =>
      obtain ⟨hind', hind⟩ := List.forall_mem_cons.mp hind
      obtain ⟨hr, hr', hst⟩ := hst
      obtain ⟨hreply', hreply, hnext⟩ := hind' s
      obtain ⟨u, hsu, htu⟩ := hst.respects hR hnext
      have hswap : Explains exec (exec e'.call s).2 (e :: h) u :=
        ⟨hreply.trans hr, hsu⟩
      obtain ⟨v, hsv, huv⟩ := ih hind hswap
      exact ⟨v, ⟨hreply'.symm.trans hr', hsv⟩, IsTrans.trans _ _ _ htu huv⟩

/-- The events of one kind can be taken first, if none of them is preceded by
another that it depends on. -/
theorem Explains.partition (hR : Respects exec R)
    (p : Event ι Call Reply → Bool)
    (hind : h.Pairwise fun e e' => p e = false → p e' = true →
      Independent exec R e.call e'.call)
    (hst : Explains exec s h t) :
    ∃ t', Explains exec s (h.filter p ++ h.filter fun e => !p e) t' ∧
      R t t' := by
  induction h generalizing s t with
  | nil => exact ⟨t, hst, Std.Refl.refl t⟩
  | cons e h ih =>
      obtain ⟨he, hind⟩ := List.pairwise_cons.mp hind
      obtain ⟨hr, hst⟩ := hst
      obtain ⟨u, hsu, htu⟩ := ih hind hst
      cases hp : p e with
      | true =>
          refine ⟨u, ?_, htu⟩
          rw [List.filter_cons_of_pos hp, List.filter_cons_of_neg (by simp [hp])]
          exact ⟨hr, hsu⟩
      | false =>
          rw [List.filter_cons_of_neg (by simp [hp]),
            List.filter_cons_of_pos (by simp [hp])]
          obtain ⟨m, hsm, hmu⟩ := explains_append.mp hsu
          have hput : ∀ e' ∈ h.filter p, Independent exec R e.call e'.call := by
            intro e' he'
            obtain ⟨hmem, hp'⟩ := List.mem_filter.mp he'
            exact he e' hmem hp hp'
          have hfirst : Explains exec s (e :: h.filter p) m := ⟨hr, hsm⟩
          obtain ⟨m', hsm', hmm'⟩ := hfirst.postpone hR hput
          obtain ⟨v, hmv, huv⟩ := hmu.respects hR hmm'
          refine ⟨v, ?_, IsTrans.trans _ _ _ htu huv⟩
          rw [List.append_cons]
          exact explains_append.mpr ⟨m', hsm', hmv⟩

end Swap

/-- Calls that leave the store as it is can be left out. -/
theorem Explains.filter {exec : (c : Call) → σ → Reply c × σ} {s t : σ}
    {h : List (Event ι Call Reply)} (p : Event ι Call Reply → Bool)
    (hreads : ∀ e ∈ h, p e = false → ∀ s, (exec e.call s).2 = s)
    (hst : Explains exec s h t) : Explains exec s (h.filter p) t := by
  induction h generalizing s with
  | nil => exact hst
  | cons e h ih =>
      obtain ⟨he, hreads⟩ := List.forall_mem_cons.mp hreads
      obtain ⟨hr, hst⟩ := hst
      cases hp : p e with
      | true =>
          rw [List.filter_cons_of_pos hp]
          exact ⟨hr, ih hreads hst⟩
      | false =>
          rw [List.filter_cons_of_neg (by simp [hp])]
          rw [he hp] at hst
          exact ih hreads hst

/-- A program whose calls are all there is does in them what it does alone. -/
theorem run_of_explains {exec : (c : Call) → σ → Reply c × σ} {s t : σ}
    {h : List (Event ι Call Reply)} {p q : Prog Call Reply ε α}
    (hfollows : Follows (h.map fun e => ⟨e.call, e.reply⟩) p q)
    (hst : Explains exec s h t) : p.run exec s = q.run exec t := by
  induction h generalizing s p with
  | nil =>
      obtain rfl := follows_nil.mp hfollows
      obtain rfl := hst
      rfl
  | cons e h ih =>
      obtain ⟨hr, hst⟩ := hst
      cases p with
      | ret a => exact hfollows.elim
      | fail e => exact hfollows.elim
      | call c k =>
          obtain ⟨r, heq, hfollows⟩ := hfollows
          obtain ⟨who, c', r'⟩ := e
          obtain ⟨rfl, hreply⟩ := Sigma.mk.inj heq
          obtain rfl := eq_of_heq hreply
          rw [run_call, hr]
          exact ih hfollows hst

/-! ### Places -/

/-- Each call looks at one place of the store, and changes no other. -/
structure Local {Place Value : Type} (exec : (c : Call) → σ → Reply c × σ)
    (cell : σ → Place → Value) (place : Call → Place) : Prop where
  reply : ∀ c s s', cell s (place c) = cell s' (place c) →
    (exec c s).1 = (exec c s').1
  self : ∀ c s s', cell s (place c) = cell s' (place c) →
    cell (exec c s).2 (place c) = cell (exec c s').2 (place c)
  other : ∀ c s x, x ≠ place c → cell (exec c s).2 x = cell s x

/-- Two stores with the same in every place. -/
def SameCells {Place Value : Type} (cell : σ → Place → Value) (s s' : σ) :
    Prop := ∀ x, cell s x = cell s' x

section Cells

variable {Place Value : Type} {exec : (c : Call) → σ → Reply c × σ}
  {cell : σ → Place → Value} {place : Call → Place}

instance : Std.Refl (SameCells cell) := ⟨fun _ _ => rfl⟩

instance : IsTrans σ (SameCells cell) :=
  ⟨fun _ _ _ hst htu x => (hst x).trans (htu x)⟩

theorem Local.respects (hlocal : Local exec cell place) :
    Respects exec (SameCells cell) := by
  intro c s s' hs
  refine ⟨hlocal.reply c s s' (hs _), fun x => ?_⟩
  by_cases hx : x = place c
  · rw [hx]
    exact hlocal.self c s s' (hs _)
  · rw [hlocal.other c s x hx, hlocal.other c s' x hx]
    exact hs x

theorem Local.independent (hlocal : Local exec cell place) {c c' : Call}
    (hne : place c ≠ place c') : Independent exec (SameCells cell) c c' := by
  intro s
  have hc' := hlocal.other c s (place c') hne.symm
  have hc := hlocal.other c' s (place c) hne
  refine ⟨hlocal.reply c' _ _ hc', hlocal.reply c _ _ hc, fun x => ?_⟩
  by_cases hx' : x = place c'
  · rw [hx', hlocal.self c' _ _ hc', hlocal.other c _ _ hne.symm]
  · by_cases hx : x = place c
    · rw [hlocal.other c' _ _ hx', hx, hlocal.self c _ _ hc]
    · rw [hlocal.other c' _ _ hx', hlocal.other c _ _ hx,
        hlocal.other c _ _ hx, hlocal.other c' _ _ hx']

/-- Calls that only read are independent of one another. -/
theorem independent_of_reads {R : σ → σ → Prop} [Std.Refl R] {c c' : Call}
    (hc : ∀ s, (exec c s).2 = s) (hc' : ∀ s, (exec c' s).2 = s) :
    Independent exec R c c' := by
  intro s
  rw [hc s, hc' s, hc s]
  exact ⟨rfl, rfl, Std.Refl.refl s⟩

/-- The calls look at the same place, and one of them may change it. -/
def Conflict (place : Call → Place) (reads : Call → Prop) (c c' : Call) :
    Prop := place c = place c' ∧ ¬ (reads c ∧ reads c')

/-- No call of `j` comes before a call of `i` that it conflicts with. -/
def InOrder (place : Call → Place) (reads : Call → Prop) (i j : ι)
    (h : List (Event ι Call Reply)) : Prop :=
  h.Pairwise fun e e' => e.who = j → e'.who = i →
    ¬ Conflict place reads e.call e'.call

theorem pairwise_independent [DecidableEq ι] (hlocal : Local exec cell place)
    {reads : Call → Prop} (hreads : ∀ c, reads c → ∀ s, (exec c s).2 = s)
    {h : List (Event ι Call Reply)} {i j : ι}
    (horder : InOrder place reads i j h) :
    (h.filter fun e => e.who = i ∨ e.who = j).Pairwise fun e e' =>
      decide (e.who = i) = false → decide (e'.who = i) = true →
        Independent exec (SameCells cell) e.call e'.call := by
  refine List.Pairwise.imp_of_mem ?_ (horder.filter _)
  intro e e' he _ hconflict hi hi'
  have hj : e.who = j :=
    (of_decide_eq_true (List.mem_filter.mp he).2).resolve_left
      (of_decide_eq_false hi)
  have hnot := hconflict hj (of_decide_eq_true hi')
  by_cases hplace : place e.call = place e'.call
  · obtain ⟨hr, hr'⟩ := not_not.mp fun hboth => hnot ⟨hplace, hboth⟩
    exact independent_of_reads (hreads _ hr) (hreads _ hr')
  · exact hlocal.independent hplace

section Filter

variable [DecidableEq ι] {h : List (Event ι Call Reply)} {i j : ι}

theorem filter_left :
    (h.filter fun e => e.who = i ∨ e.who = j).filter (fun e => e.who = i) =
      h.filter fun e => e.who = i := by
  rw [List.filter_filter]
  congr 1
  funext e
  by_cases hi : e.who = i <;> simp [hi]

theorem filter_right (hij : i ≠ j) :
    (h.filter fun e => e.who = i ∨ e.who = j).filter
        (fun e => !decide (e.who = i)) =
      h.filter fun e => e.who = j := by
  rw [List.filter_filter]
  congr 1
  funext e
  by_cases hi : e.who = i
  · simp [hi, hij]
  · simp [hi]

end Filter

/-- Of programs among which only two do more than read, and these without
conflict out of order, the second has done what it does alone after the
first. -/
theorem Consistent.serial [DecidableEq ι] (hlocal : Local exec cell place)
    {reads : Call → Prop} (hreads : ∀ c, reads c → ∀ s, (exec c s).2 = s)
    {s : σ} {progs : ι → Prog Call Reply ε α} {w : World ι σ Call Reply ε α}
    (hw : Consistent exec s progs w) {i j : ι} (hij : i ≠ j)
    (hothers : ∀ e ∈ w.history, e.who ≠ i → e.who ≠ j → reads e.call)
    (horder : InOrder place reads i j w.history) :
    ∃ m t, (progs i).run exec s = (w.procs i).run exec m ∧
      (progs j).run exec m = (w.procs j).run exec t ∧
        SameCells cell w.store t := by
  have hst := hw.explains.filter (fun e => e.who = i ∨ e.who = j) <| by
    intro e he hne
    obtain ⟨hi, hj⟩ := not_or.mp (of_decide_eq_false hne)
    exact hreads _ (hothers e he hi hj)
  obtain ⟨t, hst, hsame⟩ := hst.partition hlocal.respects (fun e => e.who = i)
    (pairwise_independent hlocal hreads horder)
  obtain ⟨m, hsm, hmt⟩ := explains_append.mp hst
  rw [filter_left] at hsm
  rw [filter_right hij] at hmt
  exact ⟨m, t, run_of_explains (hw.follows i) hsm,
    run_of_explains (hw.follows j) hmt, hsame⟩

end Cells

end SysLib
