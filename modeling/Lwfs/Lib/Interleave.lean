import Lwfs.Lib.Prog
import Lwfs.Lib.Run

/-!
Programs whose calls of one store interleave.

A world holds the store, the programs, and the history: every call with its
reply, in the order in which the store took them. The history explains the
store, and the part of it that is a program's own leads that program from its
beginning to where it is. So what a program has done can be read off its own
part, and what the store made of it off the whole.
-/

namespace SysLib

open Prog

/-- A call of one of several programs, with the reply to it. -/
structure Event (ι Call : Type) (Reply : Call → Type) where
  who : ι
  call : Call
  reply : Reply call

/-- The store, the programs, and what has happened. -/
structure World (ι σ Call : Type) (Reply : Call → Type) (ε α : Type) where
  store : σ
  procs : ι → Prog Call Reply ε α
  history : List (Event ι Call Reply)

namespace World

variable {ι σ Call : Type} {Reply : Call → Type} {ε α : Type}

def start (s : σ) (progs : ι → Prog Call Reply ε α) :
    World ι σ Call Reply ε α := ⟨s, progs, []⟩

variable [DecidableEq ι] (exec : (c : Call) → σ → Reply c × σ)

/-- The next call of program `i`, if it has not ended. -/
def step (w : World ι σ Call Reply ε α) (i : ι) : World ι σ Call Reply ε α :=
  match w.procs i with
  | .ret _ => w
  | .fail _ => w
  | .call c k =>
      { store := (exec c w.store).2
        procs := Function.update w.procs i (k (exec c w.store).1)
        history := w.history ++ [⟨i, c, (exec c w.store).1⟩] }

section Step

variable {w : World ι σ Call Reply ε α} {i : ι} {c : Call}
  {k : Reply c → Prog Call Reply ε α} (h : w.procs i = .call c k)

include h

theorem step_store : (w.step exec i).store = (exec c w.store).2 := by
  rw [step, h]

theorem step_procs_self :
    (w.step exec i).procs i = k (exec c w.store).1 := by
  rw [step, h]
  exact Function.update_self _ _ _

theorem step_procs_of_ne {j : ι} (hj : j ≠ i) :
    (w.step exec i).procs j = w.procs j := by
  rw [step, h]
  exact Function.update_of_ne hj _ _

theorem step_history :
    (w.step exec i).history = w.history ++ [⟨i, c, (exec c w.store).1⟩] := by
  rw [step, h]

end Step

/-- Nothing happens where the program has ended. -/
theorem step_of_ended {w : World ι σ Call Reply ε α} {i : ι}
    (h : (w.procs i).next = none) : w.step exec i = w := by
  rw [step]
  cases hi : w.procs i with
  | ret a => rfl
  | fail e => rfl
  | call c k =>
      rw [hi] at h
      cases h

end World

section History

variable {ι σ Call : Type} {Reply : Call → Type} {ε α : Type}

/-- The calls and replies of one program. -/
def own [DecidableEq ι] (i : ι) (h : List (Event ι Call Reply)) :
    List (Answered Call Reply) :=
  (h.filter fun e => e.who = i).map fun e => ⟨e.call, e.reply⟩

variable (exec : (c : Call) → σ → Reply c × σ)

/-- The store takes the calls from `s` to `t`, and gives these replies. -/
def Explains : σ → List (Event ι Call Reply) → σ → Prop
  | s, [], t => s = t
  | s, e :: h, t => (exec e.call s).1 = e.reply ∧
      Explains (exec e.call s).2 h t

variable {exec} {s t u : σ} {h h' : List (Event ι Call Reply)}

theorem explains_append :
    Explains exec s (h ++ h') u ↔
      ∃ t, Explains exec s h t ∧ Explains exec t h' u := by
  induction h generalizing s with
  | nil =>
      constructor
      · intro hu
        exact ⟨s, rfl, hu⟩
      · rintro ⟨t, rfl, hu⟩
        exact hu
  | cons e h ih =>
      show _ ∧ Explains exec _ (h ++ h') u ↔ _
      rw [ih]
      constructor
      · rintro ⟨hr, t, ht, hu⟩
        exact ⟨t, ⟨hr, ht⟩, hu⟩
      · rintro ⟨t, ⟨hr, ht⟩, hu⟩
        exact ⟨hr, t, ht, hu⟩

/-- A property of the store that each call of the history keeps. -/
theorem Explains.invariant {Inv : σ → Prop} (hst : Explains exec s h t)
    (hkeep : ∀ e ∈ h, ∀ s, Inv s → (exec e.call s).1 = e.reply →
      Inv (exec e.call s).2) (hs : Inv s) : Inv t := by
  induction h generalizing s with
  | nil =>
      obtain rfl := hst
      exact hs
  | cons e h ih =>
      obtain ⟨hr, hst⟩ := hst
      obtain ⟨he, hkeep⟩ := List.forall_mem_cons.mp hkeep
      exact ih hst hkeep (he s hs hr)

section Own

variable [DecidableEq ι]

theorem own_append (i : ι) (h h' : List (Event ι Call Reply)) :
    own i (h ++ h') = own i h ++ own i h' := by
  rw [own, List.filter_append, List.map_append]
  rfl

theorem mem_own {i : ι} {x : Answered Call Reply} :
    x ∈ own i h ↔ (⟨i, x.1, x.2⟩ : Event ι Call Reply) ∈ h := by
  simp only [own, List.mem_map, List.mem_filter, decide_eq_true_eq]
  constructor
  · rintro ⟨⟨who, c, r⟩, ⟨he, rfl⟩, rfl⟩
    exact he
  · intro he
    exact ⟨_, ⟨he, rfl⟩, rfl⟩

/-- What a world keeps: its history explains the store, and leads each program
to where it is. -/
structure Consistent (exec : (c : Call) → σ → Reply c × σ) (s : σ)
    (progs : ι → Prog Call Reply ε α) (w : World ι σ Call Reply ε α) :
    Prop where
  explains : Explains exec s w.history w.store
  follows : ∀ i, Follows (own i w.history) (progs i) (w.procs i)

variable {progs : ι → Prog Call Reply ε α}

theorem consistent_start (s : σ) (progs : ι → Prog Call Reply ε α) :
    Consistent exec s progs (World.start s progs) :=
  ⟨rfl, fun _ => follows_nil.mpr rfl⟩

theorem consistent_step {w : World ι σ Call Reply ε α}
    (hw : Consistent exec s progs w) (i : ι) :
    Consistent exec s progs (w.step exec i) := by
  cases hi : w.procs i with
  | ret a =>
      rw [World.step_of_ended _ (by rw [hi]; rfl)]
      exact hw
  | fail e =>
      rw [World.step_of_ended _ (by rw [hi]; rfl)]
      exact hw
  | call c k =>
      refine ⟨?_, fun j => ?_⟩
      · rw [World.step_history exec hi, World.step_store exec hi]
        exact explains_append.mpr ⟨w.store, hw.explains, rfl, rfl⟩
      · have hj := hw.follows j
        rw [World.step_history exec hi, own_append]
        by_cases hji : j = i
        · subst hji
          have hown : own j [(⟨j, c, (exec c w.store).1⟩ : Event ι Call Reply)] =
              [⟨c, (exec c w.store).1⟩] := by
            simp [own]
          rw [hi] at hj
          rw [World.step_procs_self exec hi, hown]
          exact hj.snoc _
        · have hown : own j [(⟨i, c, (exec c w.store).1⟩ : Event ι Call Reply)] =
              [] := by
            simp [own, Ne.symm hji]
          rw [World.step_procs_of_ne exec hi hji, hown, List.append_nil]
          exact hj

/-- However the calls interleave. -/
theorem consistent_run (exec : (c : Call) → σ → Reply c × σ) (s : σ)
    (progs : ι → Prog Call Reply ε α) (schedule : List ι) :
    Consistent exec s progs
      (Run.exec (World.step exec) (World.start s progs) schedule) := by
  apply Run.exec_invariant_of_step
  · intro w i hw
    exact consistent_step hw i
  · exact consistent_start s progs

/-- A program that is given enough turns in a row does what it does alone. -/
theorem exists_turns (exec : (c : Call) → σ → Reply c × σ) {i : ι} {a : α}
    {w : World ι σ Call Reply ε α} {t : σ}
    (h : (w.procs i).run exec w.store = .ok a t) :
    ∃ n, let w' := Run.exec (World.step exec) w (List.replicate n i)
      w'.procs i = .ret a ∧ w'.store = t ∧
        ∀ j ≠ i, w'.procs j = w.procs j := by
  generalize hp : w.procs i = p at h
  induction p generalizing w with
  | ret b =>
      obtain ⟨rfl, rfl⟩ := Routine.pure_eq_ok.mp h
      exact ⟨0, hp, rfl, fun _ _ => rfl⟩
  | fail e => exact absurd h Routine.throw_ne_ok
  | call c k ih =>
      have hstore := World.step_store exec hp
      have hproc := World.step_procs_self exec hp
      obtain ⟨n, hret, ht, hothers⟩ := ih _ hproc (hstore ▸ h)
      refine ⟨n + 1, hret, ht, ?_⟩
      intro j hj
      exact (hothers j hj).trans (World.step_procs_of_ne exec hp hj)

/-- The programs run one after the other, and each returns its result. -/
def Return (exec : (c : Call) → σ → Reply c × σ)
    (progs : ι → Prog Call Reply ε α) (result : ι → α) : σ → List ι → Prop
  | _, [] => True
  | s, i :: order =>
      ((progs i).run exec).outcome s = .ok (result i) ∧
        Return exec progs result (((progs i).run exec).final s) order

omit [DecidableEq ι] in
theorem return_congr {progs progs' : ι → Prog Call Reply ε α}
    {result : ι → α} {s : σ} {order : List ι}
    (heq : ∀ i ∈ order, progs' i = progs i)
    (h : Return exec progs result s order) :
    Return exec progs' result s order := by
  induction order generalizing s with
  | nil => trivial
  | cons i order ih =>
      obtain ⟨hi, heq⟩ := List.forall_mem_cons.mp heq
      obtain ⟨hrun, hrest⟩ := h
      rw [Return, hi]
      exact ⟨hrun, ih heq hrest⟩

/-- Some schedule runs the programs one after the other. -/
theorem exists_schedule {result : ι → α} {order : List ι}
    (hnodup : order.Nodup) {w : World ι σ Call Reply ε α}
    (h : Return exec w.procs result w.store order) :
    ∃ schedule, let w' := Run.exec (World.step exec) w schedule
      (∀ i ∈ order, w'.procs i = .ret (result i)) ∧
        ∀ i ∉ order, w'.procs i = w.procs i := by
  induction order generalizing w with
  | nil => exact ⟨[], fun i hi => absurd hi List.not_mem_nil, fun _ _ => rfl⟩
  | cons i order ih =>
      obtain ⟨hi, hnodup⟩ := List.nodup_cons.mp hnodup
      obtain ⟨hrun, hrest⟩ := h
      obtain ⟨n, hret, hstore, hothers⟩ :=
        exists_turns exec (Routine.outcome_eq_ok.mp hrun)
      have hrest' : Return exec
          (Run.exec (World.step exec) w (List.replicate n i)).procs result
          (Run.exec (World.step exec) w (List.replicate n i)).store order := by
        rw [hstore]
        apply return_congr _ hrest
        intro j hj
        apply hothers
        rintro rfl
        exact hi hj
      obtain ⟨schedule, hall, hothers'⟩ := ih hnodup hrest'
      refine ⟨List.replicate n i ++ schedule, ?_, ?_⟩
      · intro j hj
        rw [Run.exec_append]
        rcases List.mem_cons.mp hj with rfl | hj
        · exact (hothers' j hi).trans hret
        · exact hall j hj
      · intro j hj
        obtain ⟨hji, hj⟩ := List.ne_and_not_mem_of_not_mem_cons hj
        rw [Run.exec_append]
        exact (hothers' j hj).trans (hothers j hji)

/-- Of two events, one comes first. -/
theorem exists_between {β : Type} {l : List β} {x y : β} (hx : x ∈ l)
    (hy : y ∈ l) (hne : x ≠ y) :
    ∃ l₁ l₂ l₃, l = l₁ ++ x :: l₂ ++ y :: l₃ ∨
      l = l₁ ++ y :: l₂ ++ x :: l₃ := by
  obtain ⟨l₁, l₂, rfl⟩ := List.append_of_mem hx
  rcases List.mem_append.mp hy with hy | hy
  · obtain ⟨l₃, l₄, rfl⟩ := List.append_of_mem hy
    exact ⟨l₃, l₄, l₂, .inr (by simp)⟩
  · rcases List.mem_cons.mp hy with rfl | hy
    · exact absurd rfl hne
    · obtain ⟨l₃, l₄, rfl⟩ := List.append_of_mem hy
      exact ⟨l₁, l₃, l₄, .inl (by simp)⟩

end Own

end History

end SysLib
