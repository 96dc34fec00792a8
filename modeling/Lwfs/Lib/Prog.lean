import Lwfs.Lib.Routine

/-!
Programs that call a store step by step.

A program has returned, or it has failed, or it makes a call and goes on with
the reply. Run alone, it is a routine over the store (`run`). Where others
call the store as well, all that a program knows of it are the replies it has
got: `Follows` says where a list of calls and replies leads a program.
-/

namespace SysLib

/-- A program in whose calls `c` of type `Call` are answered by replies in
`Reply c`. -/
inductive Prog (Call : Type) (Reply : Call → Type) (ε α : Type) : Type
  | ret (a : α)
  | fail (e : ε)
  | call (c : Call) (k : Reply c → Prog Call Reply ε α)

namespace Prog

variable {Call : Type} {Reply : Call → Type} {ε σ α β : Type}

def bind : Prog Call Reply ε α → (α → Prog Call Reply ε β) →
    Prog Call Reply ε β
  | ret a, f => f a
  | fail e, _ => fail e
  | call c k, f => call c fun r => (k r).bind f

/-- A program whose failure is handled. -/
def tryWith : Prog Call Reply ε α → (ε → Prog Call Reply ε α) →
    Prog Call Reply ε α
  | ret a, _ => ret a
  | fail e, f => f e
  | call c k, f => call c fun r => (k r).tryWith f

/-- A program that makes no call. -/
def fromExcept : Except ε α → Prog Call Reply ε α
  | .ok a => ret a
  | .error e => fail e

instance : Monad (Prog Call Reply ε) where
  pure := ret
  bind := bind

instance : MonadExcept ε (Prog Call Reply ε) where
  throw := fail
  tryCatch := tryWith

@[simp] theorem ret_bind (a : α) (f : α → Prog Call Reply ε β) :
    (ret a : Prog Call Reply ε α) >>= f = f a := rfl

@[simp] theorem fail_bind (e : ε) (f : α → Prog Call Reply ε β) :
    (fail e : Prog Call Reply ε α) >>= f = fail e := rfl

@[simp] theorem call_bind (c : Call) (k : Reply c → Prog Call Reply ε α)
    (f : α → Prog Call Reply ε β) :
    call c k >>= f = call c fun r => k r >>= f := rfl

instance : LawfulMonad (Prog Call Reply ε) := by
  refine LawfulMonad.mk' (Prog Call Reply ε) ?_ (fun _ _ => rfl) ?_
  · intro α x
    induction x with
    | ret a => rfl
    | fail e => rfl
    | call c k ih => exact congrArg (call c) (funext ih)
  · intro α β γ x f g
    induction x with
    | ret a => rfl
    | fail e => rfl
    | call c k ih => exact congrArg (call c) (funext ih)

/-! ### Alone -/

section Run

variable (exec : (c : Call) → σ → Reply c × σ)

/-- The program alone on the store. -/
def run : Prog Call Reply ε α → Routine ε σ α
  | ret a => pure a
  | fail e => throw e
  | call c k => fun s => (k (exec c s).1).run (exec c s).2

@[simp] theorem run_pure (a : α) :
    run exec (pure a : Prog Call Reply ε α) = pure a := rfl

@[simp] theorem run_throw (e : ε) :
    run exec (throw e : Prog Call Reply ε α) = throw e := rfl

theorem run_fromExcept (x : Except ε α) :
    run exec (fromExcept x : Prog Call Reply ε α) = Routine.reader fun _ => x := by
  cases x <;> rfl

theorem run_call (c : Call) (k : Reply c → Prog Call Reply ε α) (s : σ) :
    run exec (call c k) s = run exec (k (exec c s).1) (exec c s).2 := rfl

@[simp] theorem run_bind (x : Prog Call Reply ε α)
    (f : α → Prog Call Reply ε β) :
    run exec (x >>= f) = run exec x >>= fun a => run exec (f a) := by
  induction x with
  | ret a => rfl
  | fail e => rfl
  | call c k ih =>
      funext s
      show run exec (k (exec c s).1 >>= f) (exec c s).2 = _
      rw [ih]
      rfl

@[simp] theorem run_tryCatch (x : Prog Call Reply ε α)
    (f : ε → Prog Call Reply ε α) :
    run exec (tryCatch x f) = tryCatch (run exec x) fun e => run exec (f e) := by
  induction x with
  | ret a => rfl
  | fail e => rfl
  | call c k ih =>
      funext s
      show run exec (tryCatch (k (exec c s).1) f) (exec c s).2 = _
      rw [ih]
      rfl

theorem run_ite (p : Prop) [Decidable p] (x y : Prog Call Reply ε α) :
    run exec (if p then x else y) = if p then run exec x else run exec y := by
  split <;> rfl

theorem run_forM (f : α → Prog Call Reply ε PUnit) (l : List α) :
    run exec (l.forM f) = l.forM fun a => run exec (f a) := by
  induction l with
  | nil => rfl
  | cons a l ih =>
      show run exec (f a >>= fun _ => l.forM f) = _
      rw [run_bind, ih]
      rfl

theorem run_foldlM (f : β → α → Prog Call Reply ε β) (l : List α) (b : β) :
    run exec (l.foldlM f b) = l.foldlM (fun b a => run exec (f b a)) b := by
  induction l generalizing b with
  | nil => rfl
  | cons a l ih =>
      rw [List.foldlM_cons, List.foldlM_cons, run_bind]
      congr 1
      funext b'
      exact ih b'

end Run

/-! ### Among others -/

/-- A call and the reply to it. -/
abbrev Answered (Call : Type) (Reply : Call → Type) := Σ c, Reply c

/-- The calls and replies of the list lead from the one program to the
other. -/
def Follows : List (Answered Call Reply) → Prog Call Reply ε α →
    Prog Call Reply ε α → Prop
  | [], p, q => p = q
  | x :: l, call c k, q => ∃ r, x = ⟨c, r⟩ ∧ Follows l (k r) q
  | _ :: _, ret _, _ => False
  | _ :: _, fail _, _ => False

@[simp] theorem follows_nil {p q : Prog Call Reply ε α} :
    Follows [] p q ↔ p = q := by
  cases p <;> exact Iff.rfl

@[simp] theorem follows_cons_call {x : Answered Call Reply}
    {l : List (Answered Call Reply)} {c : Call}
    {k : Reply c → Prog Call Reply ε α} {q : Prog Call Reply ε α} :
    Follows (x :: l) (call c k) q ↔ ∃ r, x = ⟨c, r⟩ ∧ Follows l (k r) q :=
  Iff.rfl

/-- A program that has ended makes no more calls. -/
@[simp] theorem follows_ret {l : List (Answered Call Reply)} {a : α}
    {q : Prog Call Reply ε α} : Follows l (ret a) q ↔ l = [] ∧ ret a = q := by
  cases l with
  | nil => simp
  | cons x l => exact iff_of_false id fun h => List.cons_ne_nil _ _ h.1

@[simp] theorem follows_fail {l : List (Answered Call Reply)} {e : ε}
    {q : Prog Call Reply ε α} : Follows l (fail e) q ↔ l = [] ∧ fail e = q := by
  cases l with
  | nil => simp
  | cons x l => exact iff_of_false id fun h => List.cons_ne_nil _ _ h.1

theorem Follows.append {l l' : List (Answered Call Reply)}
    {p m q : Prog Call Reply ε α} (h : Follows l p m) (h' : Follows l' m q) :
    Follows (l ++ l') p q := by
  induction l generalizing p with
  | nil =>
      obtain rfl := follows_nil.mp h
      exact h'
  | cons x l ih =>
      cases p with
      | ret a => exact h.elim
      | fail e => exact h.elim
      | call c k =>
          obtain ⟨r, hx, hl⟩ := h
          exact ⟨r, hx, ih hl⟩

/-- One call more. -/
theorem Follows.snoc {l : List (Answered Call Reply)}
    {p : Prog Call Reply ε α} {c : Call} {k : Reply c → Prog Call Reply ε α}
    (h : Follows l p (call c k)) (r : Reply c) :
    Follows (l ++ [⟨c, r⟩]) p (k r) :=
  h.append ⟨r, rfl, follows_nil.mpr rfl⟩

/-- A sequence has returned: its parts have, one after the other. -/
theorem follows_bind_ret {l : List (Answered Call Reply)}
    {x : Prog Call Reply ε α} {f : α → Prog Call Reply ε β} {b : β} :
    Follows l (x >>= f) (ret b) ↔
      ∃ a l₁ l₂, l = l₁ ++ l₂ ∧ Follows l₁ x (ret a) ∧
        Follows l₂ (f a) (ret b) := by
  constructor
  · intro h
    induction x generalizing l with
    | ret a => exact ⟨a, [], l, rfl, follows_nil.mpr rfl, h⟩
    | fail e =>
        obtain ⟨-, heq⟩ := follows_fail.mp h
        cases heq
    | call c k ih =>
        cases l with
        | nil => cases follows_nil.mp h
        | cons y l =>
            obtain ⟨r, rfl, hl⟩ := h
            obtain ⟨a, l₁, l₂, rfl, h₁, h₂⟩ := ih r hl
            exact ⟨a, ⟨c, r⟩ :: l₁, l₂, rfl, ⟨r, rfl, h₁⟩, h₂⟩
  · rintro ⟨a, l₁, l₂, rfl, h₁, h₂⟩
    induction x generalizing l₁ with
    | ret a' =>
        obtain ⟨rfl, heq⟩ := follows_ret.mp h₁
        cases heq
        exact h₂
    | fail e =>
        obtain ⟨-, heq⟩ := follows_fail.mp h₁
        cases heq
    | call c k ih =>
        cases l₁ with
        | nil => cases follows_nil.mp h₁
        | cons y l₁ =>
            obtain ⟨r, rfl, hl⟩ := h₁
            exact ⟨r, rfl, ih r l₁ hl⟩

/-- A sequence has failed: its first part has, or it has returned and the rest
has failed. -/
theorem follows_bind_fail {l : List (Answered Call Reply)}
    {x : Prog Call Reply ε α} {f : α → Prog Call Reply ε β} {e : ε} :
    Follows l (x >>= f) (fail e) ↔ Follows l x (fail e) ∨
      ∃ a l₁ l₂, l = l₁ ++ l₂ ∧ Follows l₁ x (ret a) ∧
        Follows l₂ (f a) (fail e) := by
  constructor
  · intro h
    induction x generalizing l with
    | ret a => exact .inr ⟨a, [], l, rfl, follows_nil.mpr rfl, h⟩
    | fail e' =>
        obtain ⟨rfl, heq⟩ := follows_fail.mp h
        cases heq
        exact .inl (follows_nil.mpr rfl)
    | call c k ih =>
        cases l with
        | nil => cases follows_nil.mp h
        | cons y l =>
            obtain ⟨r, rfl, hl⟩ := h
            obtain hx | ⟨a, l₁, l₂, rfl, h₁, h₂⟩ := ih r hl
            · exact .inl ⟨r, rfl, hx⟩
            · exact .inr ⟨a, ⟨c, r⟩ :: l₁, l₂, rfl, ⟨r, rfl, h₁⟩, h₂⟩
  · intro h
    induction x generalizing l with
    | ret a' =>
        obtain h | ⟨a, l₁, l₂, rfl, h₁, h₂⟩ := h
        · cases (follows_ret.mp h).2
        · obtain ⟨rfl, heq⟩ := follows_ret.mp h₁
          cases heq
          exact h₂
    | fail e' =>
        obtain h | ⟨a, l₁, l₂, rfl, h₁, h₂⟩ := h
        · obtain ⟨rfl, heq⟩ := follows_fail.mp h
          cases heq
          exact follows_nil.mpr rfl
        · cases (follows_fail.mp h₁).2
    | call c k ih =>
        obtain h | ⟨a, l₁, l₂, rfl, h₁, h₂⟩ := h
        · cases l with
          | nil => cases follows_nil.mp h
          | cons y l =>
              obtain ⟨r, rfl, hl⟩ := h
              exact ⟨r, rfl, ih r (.inl hl)⟩
        · cases l₁ with
          | nil => cases follows_nil.mp h₁
          | cons y l₁ =>
              obtain ⟨r, rfl, hl⟩ := h₁
              exact ⟨r, rfl, ih r (.inr ⟨a, l₁, l₂, rfl, hl, h₂⟩)⟩

/-- A loop has failed in one of its turns. -/
theorem follows_forM_fail {f : α → Prog Call Reply ε PUnit} {as : List α}
    {l : List (Answered Call Reply)} {e : ε}
    (h : Follows l (as.forM f) (fail e)) :
    ∃ a ∈ as, ∃ l', l' ⊆ l ∧ Follows l' (f a) (fail e) := by
  induction as generalizing l with
  | nil => cases (follows_ret.mp h).2
  | cons a as ih =>
      have hcons : (a :: as).forM f = f a >>= fun _ => as.forM f := rfl
      rw [hcons, follows_bind_fail] at h
      obtain hfirst | ⟨_, l₁, l₂, rfl, -, hrest⟩ := h
      · exact ⟨a, List.mem_cons_self, l, List.Subset.refl l, hfirst⟩
      · obtain ⟨b, hb, l', hsub, hfail⟩ := ih hrest
        exact ⟨b, List.mem_cons_of_mem a hb, l',
          fun x hx => List.mem_append_right l₁ (hsub hx), hfail⟩

/-- The call that the program is about to make, if it has not ended. -/
def next : Prog Call Reply ε α → Option Call
  | ret _ => none
  | fail _ => none
  | call c _ => some c

/-- The program has returned. -/
def returned : Prog Call Reply ε α → Bool
  | ret _ => true
  | fail _ => false
  | call _ _ => false

/-- Whatever call the program makes and whatever reply it gets, the call that
comes then is one that is asked for. -/
def Then (P : Answered Call Reply → Option Call → Prop) :
    Prog Call Reply ε α → Prop
  | ret _ => True
  | fail _ => True
  | call c k => ∀ r, P ⟨c, r⟩ (k r).next ∧ (k r).Then P

section Then

variable {P : Answered Call Reply → Option Call → Prop}

theorem then_bind (hP : ∀ x n, P x none → P x n) {x : Prog Call Reply ε α}
    {f : α → Prog Call Reply ε β} (hx : x.Then P) (hf : ∀ a, (f a).Then P) :
    (x >>= f).Then P := by
  induction x with
  | ret a => exact hf a
  | fail e => trivial
  | call c k ih =>
      intro r
      obtain ⟨hnext, hrest⟩ := hx r
      refine ⟨?_, ih r hrest⟩
      show P ⟨c, r⟩ (k r >>= f).next
      cases hk : k r with
      | ret a =>
          rw [hk] at hnext
          exact hP _ _ hnext
      | fail e =>
          rw [hk] at hnext
          exact hnext
      | call c' k' =>
          rw [hk] at hnext
          exact hnext

theorem then_ite {p : Prop} [Decidable p] {x y : Prog Call Reply ε α}
    (hx : x.Then P) (hy : y.Then P) : (if p then x else y).Then P := by
  split
  · exact hx
  · exact hy

theorem then_foldlM (hP : ∀ x n, P x none → P x n)
    {f : β → α → Prog Call Reply ε β} {l : List α}
    (hf : ∀ b, ∀ a ∈ l, (f b a).Then P) (b : β) : (l.foldlM f b).Then P := by
  induction l generalizing b with
  | nil => trivial
  | cons a l ih =>
      rw [List.foldlM_cons]
      exact then_bind hP (hf b a List.mem_cons_self) fun b' =>
        ih (fun b a ha => hf b a (List.mem_cons_of_mem _ ha)) b'

end Then

/-- All calls that the program can make have the property. -/
def Only (P : Call → Prop) : Prog Call Reply ε α → Prop
  | ret _ => True
  | fail _ => True
  | call c k => P c ∧ ∀ r, (k r).Only P

variable {P : Call → Prop}

theorem Only.of_follows {p q : Prog Call Reply ε α} (hp : p.Only P)
    {l : List (Answered Call Reply)} (h : Follows l p q) :
    ∀ x ∈ l, P x.1 := by
  induction l generalizing p with
  | nil => exact fun x hx => absurd hx List.not_mem_nil
  | cons y l ih =>
      cases p with
      | ret a => exact h.elim
      | fail e => exact h.elim
      | call c k =>
          obtain ⟨r, rfl, hl⟩ := h
          exact List.forall_mem_cons.mpr ⟨hp.1, ih (hp.2 r) hl⟩

/-- Nothing need be asked of what follows the calls that do not ask for
anything. -/
theorem Only.then {Q : Answered Call Reply → Option Call → Prop}
    (hQ : ∀ x n, P x.1 → Q x n) {p : Prog Call Reply ε α} (hp : p.Only P) :
    p.Then Q := by
  induction p with
  | ret a => trivial
  | fail e => trivial
  | call c k ih => exact fun r => ⟨hQ _ _ hp.1, ih r (hp.2 r)⟩

/-- What each of its calls does to the store holds of all that the program
does. -/
theorem within_run {exec : (c : Call) → σ → Reply c × σ} {R : σ → σ → Prop}
    [Std.Refl R] [IsTrans σ R] (hR : ∀ c, P c → ∀ s, R s (exec c s).2)
    {p : Prog Call Reply ε α} (hp : p.Only P) :
    Routine.Within R (p.run exec) := by
  induction p with
  | ret a => exact Routine.within_pure a
  | fail e => exact Routine.within_throw e
  | call c k ih =>
      intro s
      exact IsTrans.trans _ _ _ (hR c hp.1 s) (ih _ (hp.2 _) _)

theorem only_pure (a : α) : (pure a : Prog Call Reply ε α).Only P := trivial

theorem only_bind {x : Prog Call Reply ε α} {f : α → Prog Call Reply ε β}
    (hx : x.Only P) (hf : ∀ a, (f a).Only P) : (x >>= f).Only P := by
  induction x with
  | ret a => exact hf a
  | fail e => trivial
  | call c k ih => exact ⟨hx.1, fun r => ih r (hx.2 r)⟩

theorem only_tryCatch {x : Prog Call Reply ε α} {f : ε → Prog Call Reply ε α}
    (hx : x.Only P) (hf : ∀ e, (f e).Only P) : (tryCatch x f).Only P := by
  induction x with
  | ret a => trivial
  | fail e => exact hf e
  | call c k ih => exact ⟨hx.1, fun r => ih r (hx.2 r)⟩

theorem only_ite {p : Prop} [Decidable p] {x y : Prog Call Reply ε α}
    (hx : x.Only P) (hy : y.Only P) : (if p then x else y).Only P := by
  split
  · exact hx
  · exact hy

theorem only_forM {f : α → Prog Call Reply ε PUnit} {l : List α}
    (hf : ∀ a ∈ l, (f a).Only P) : (l.forM f).Only P := by
  induction l with
  | nil => trivial
  | cons a l ih =>
      obtain ⟨ha, hl⟩ := List.forall_mem_cons.mp hf
      exact only_bind ha fun _ => ih hl

theorem only_foldlM {f : β → α → Prog Call Reply ε β} {l : List α}
    (hf : ∀ b, ∀ a ∈ l, (f b a).Only P) (b : β) : (l.foldlM f b).Only P := by
  induction l generalizing b with
  | nil => trivial
  | cons a l ih =>
      rw [List.foldlM_cons]
      exact only_bind (hf b a List.mem_cons_self) fun b' =>
        ih (fun b a ha => hf b a (List.mem_cons_of_mem _ ha)) b'

theorem only_mapM {f : α → Prog Call Reply ε β} {l : List α}
    (hf : ∀ a, (f a).Only P) : (l.mapM f).Only P := by
  induction l with
  | nil => trivial
  | cons a l ih =>
      rw [List.mapM_cons]
      exact only_bind (hf a) fun b => only_bind ih fun bs => trivial

theorem only_fromExcept (x : Except ε α) :
    (fromExcept x : Prog Call Reply ε α).Only P := by
  cases x <;> trivial

/-- All failures that the program can end in have the property. -/
def FailsOnly (Q : ε → Prop) : Prog Call Reply ε α → Prop
  | ret _ => True
  | fail e => Q e
  | call _ k => ∀ r, (k r).FailsOnly Q

variable {Q : ε → Prop}

theorem failsOnly_bind {x : Prog Call Reply ε α} {f : α → Prog Call Reply ε β}
    (hx : x.FailsOnly Q) (hf : ∀ a, (f a).FailsOnly Q) :
    (x >>= f).FailsOnly Q := by
  induction x with
  | ret a => exact hf a
  | fail e => exact hx
  | call c k ih => exact fun r => ih r (hx r)

theorem failsOnly_ite {p : Prop} [Decidable p] {x y : Prog Call Reply ε α}
    (hx : x.FailsOnly Q) (hy : y.FailsOnly Q) :
    (if p then x else y).FailsOnly Q := by
  split
  · exact hx
  · exact hy

theorem FailsOnly.of_run {exec : (c : Call) → σ → Reply c × σ}
    {p : Prog Call Reply ε α} (hp : p.FailsOnly Q) {s t : σ} {e : ε}
    (h : p.run exec s = .error e t) : Q e := by
  induction p generalizing s with
  | ret a => exact absurd h Routine.pure_ne_error
  | fail e' =>
      obtain ⟨rfl, -⟩ := Routine.throw_eq_error.mp h
      exact hp
  | call c k ih => exact ih _ (hp _) h

end Prog

end SysLib
