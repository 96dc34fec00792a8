import Mathlib.Tactic.Common

/-!
Routines with a state and an error exit.

A routine reads and writes a state, and it ends in one of two ways: it
returns a value, or it leaves with an error. Nothing is rolled back on an
error, so the state that a failing routine has reached is part of its
outcome. `EStateM` with a state that is not backtracked is exactly this.

A proof about a routine takes one of two forms. What a routine returned is
taken apart by the inversion lemmas `bind_eq_ok` and `bind_eq_error`. What a
routine can have done to the state, however it ended, is a relation between
the state before and the state after, and `Within` composes those.
-/

namespace SysLib

/-- A routine over the state `σ` that returns a value in `α` or leaves with
an error in `ε`, and keeps the state it has reached either way. -/
abbrev Routine (ε σ α : Type) := EStateM ε σ α

namespace Routine

variable {ε σ α β : Type}

/-- The state a routine leaves, whichever way it ends. -/
def final (x : Routine ε σ α) (s : σ) : σ :=
  match x s with
  | .ok _ t => t
  | .error _ t => t

/-- What a routine hands to its caller: a value or an error. -/
def outcome (x : Routine ε σ α) (s : σ) : Except ε α :=
  match x s with
  | .ok a _ => .ok a
  | .error e _ => .error e

/-- A computation that reads the state and never writes it. -/
def reader (f : σ → Except ε α) : Routine ε σ α := fun s =>
  match f s with
  | .ok a => .ok a s
  | .error e => .error e s

/-- A routine whose outcome its caller does not look at. -/
def ignore (x : Routine ε σ α) : Routine ε σ Unit := fun s =>
  .ok () (x.final s)

/-- A routine whose outcome its caller replaces. -/
def mapOutcome (x : Routine ε σ α) (f : Except ε α → Except ε β) :
    Routine ε σ β := fun s =>
  match f (x.outcome s) with
  | .ok b => .ok b (x.final s)
  | .error e => .error e (x.final s)

/-- A routine on a part of a larger state, with its errors renamed. -/
def onPart {τ ε' : Type} (part : τ → σ) (put : τ → σ → τ) (rename : ε → ε')
    (x : Routine ε σ α) : Routine ε' τ α := fun t =>
  match x (part t) with
  | .ok a s => .ok a (put t s)
  | .error e s => .error (rename e) (put t s)

theorem final_of_ok {x : Routine ε σ α} {s t : σ} {a : α}
    (h : x s = .ok a t) : x.final s = t := by
  simp only [final, h]

theorem final_of_error {x : Routine ε σ α} {s t : σ} {e : ε}
    (h : x s = .error e t) : x.final s = t := by
  simp only [final, h]

theorem final_congr {x y : Routine ε σ α} {s t : σ} (h : x s = y t) :
    x.final s = y.final t := by
  simp only [final, h]

theorem outcome_congr {x y : Routine ε σ α} {s t : σ} (h : x s = y t) :
    x.outcome s = y.outcome t := by
  simp only [outcome, h]

theorem outcome_eq_ok {x : Routine ε σ α} {s : σ} {a : α} :
    x.outcome s = .ok a ↔ x s = .ok a (x.final s) := by
  unfold outcome final
  cases x s <;> simp

theorem outcome_eq_error {x : Routine ε σ α} {s : σ} {e : ε} :
    x.outcome s = .error e ↔ x s = .error e (x.final s) := by
  unfold outcome final
  cases x s <;> simp

/-! ### Inversion -/

@[simp] theorem pure_eq_ok {a b : α} {s t : σ} :
    (pure a : Routine ε σ α) s = .ok b t ↔ a = b ∧ s = t := by
  simp only [pure, EStateM.pure, EStateM.Result.ok.injEq]

@[simp] theorem pure_ne_error {a : α} {e : ε} {s t : σ} :
    ¬ (pure a : Routine ε σ α) s = .error e t := by
  simp [pure, EStateM.pure]

@[simp] theorem throw_ne_ok {e : ε} {a : α} {s t : σ} :
    ¬ (throw e : Routine ε σ α) s = .ok a t := by
  show ¬ EStateM.Result.error e s = .ok a t
  nofun

@[simp] theorem throw_eq_error {e e' : ε} {s t : σ} :
    (throw e : Routine ε σ α) s = .error e' t ↔ e = e' ∧ s = t := by
  show EStateM.Result.error e s = .error e' t ↔ _
  rw [EStateM.Result.error.injEq]

@[simp] theorem get_eq_ok {s t u : σ} :
    (get : Routine ε σ σ) s = .ok u t ↔ s = u ∧ s = t := by
  show EStateM.Result.ok s s = .ok u t ↔ _
  rw [EStateM.Result.ok.injEq]

@[simp] theorem set_eq_ok {s t u : σ} {a : PUnit} :
    (set u : Routine ε σ PUnit) s = .ok a t ↔ u = t := by
  show EStateM.Result.ok PUnit.unit u = .ok a t ↔ _
  rw [EStateM.Result.ok.injEq]
  exact and_iff_right rfl

@[simp] theorem modify_eq_ok {f : σ → σ} {s t : σ} {a : PUnit} :
    (modify f : Routine ε σ PUnit) s = .ok a t ↔ f s = t := by
  show EStateM.Result.ok PUnit.unit (f s) = .ok a t ↔ _
  rw [EStateM.Result.ok.injEq]
  exact and_iff_right rfl

@[simp] theorem reader_eq_ok {f : σ → Except ε α} {s t : σ} {a : α} :
    reader f s = .ok a t ↔ f s = .ok a ∧ s = t := by
  unfold reader
  cases f s <;> simp

@[simp] theorem reader_eq_error {f : σ → Except ε α} {s t : σ} {e : ε} :
    reader f s = .error e t ↔ f s = .error e ∧ s = t := by
  unfold reader
  cases f s <;> simp

theorem onPart_eq_ok {τ ε' : Type} {part : τ → σ} {put : τ → σ → τ}
    {rename : ε → ε'} {x : Routine ε σ α} {t u : τ} {a : α} :
    onPart part put rename x t = .ok a u ↔
      ∃ s, x (part t) = .ok a s ∧ put t s = u := by
  unfold onPart
  cases x (part t) <;> simp

theorem onPart_of_ok {τ ε' : Type} {part : τ → σ} {put : τ → σ → τ}
    {rename : ε → ε'} {x : Routine ε σ α} {t : τ} {s : σ} {a : α}
    (h : x (part t) = .ok a s) :
    onPart part put rename x t = .ok a (put t s) :=
  onPart_eq_ok.mpr ⟨s, h, rfl⟩

/-- A sequence returned: both parts did, one after the other. -/
@[simp] theorem bind_eq_ok {x : Routine ε σ α} {f : α → Routine ε σ β}
    {s t : σ} {b : β} :
    (x >>= f) s = .ok b t ↔ ∃ a u, x s = .ok a u ∧ f a u = .ok b t := by
  simp only [bind, EStateM.bind]
  cases x s <;> simp

/-- A sequence left with an error: its first part did, or the first part
returned and the second did. -/
theorem bind_eq_error {x : Routine ε σ α} {f : α → Routine ε σ β}
    {s t : σ} {e : ε} :
    (x >>= f) s = .error e t ↔
      x s = .error e t ∨ ∃ a u, x s = .ok a u ∧ f a u = .error e t := by
  simp only [bind, EStateM.bind]
  cases x s <;> simp

theorem bind_of_ok {x : Routine ε σ α} {f : α → Routine ε σ β}
    {s t : σ} {a : α} (h : x s = .ok a t) : (x >>= f) s = f a t := by
  simp only [bind, EStateM.bind, h]

theorem bind_of_error {x : Routine ε σ α} {f : α → Routine ε σ β}
    {s t : σ} {e : ε} (h : x s = .error e t) : (x >>= f) s = .error e t := by
  simp only [bind, EStateM.bind, h]

theorem get_bind {f : σ → Routine ε σ β} {s : σ} :
    ((get : Routine ε σ σ) >>= f) s = f s s := rfl

theorem set_apply {s t : σ} : (set t : Routine ε σ PUnit) s = .ok ⟨⟩ t := rfl

theorem throw_apply {s : σ} {e : ε} :
    (throw e : Routine ε σ α) s = .error e s := rfl

theorem ignore_apply {x : Routine ε σ α} {s : σ} :
    x.ignore s = .ok () (x.final s) := rfl

theorem map_of_ok {x : Routine ε σ α} {f : α → β} {s t : σ} {a : α}
    (h : x s = .ok a t) : (f <$> x) s = .ok (f a) t := by
  simp only [Functor.map, EStateM.map, h]

theorem map_of_error {x : Routine ε σ α} {f : α → β} {s t : σ} {e : ε}
    (h : x s = .error e t) : (f <$> x) s = .error e t := by
  simp only [Functor.map, EStateM.map, h]

theorem tryCatch_of_ok {x : Routine ε σ α} {handle : ε → Routine ε σ α}
    {s t : σ} {a : α} (h : x s = .ok a t) :
    (tryCatch x handle) s = .ok a t := by
  simp only [tryCatch, tryCatchThe, MonadExceptOf.tryCatch, EStateM.tryCatch, h]

/-- The state is not rolled back before the handler runs. -/
theorem tryCatch_of_error {x : Routine ε σ α} {handle : ε → Routine ε σ α}
    {s t : σ} {e : ε} (h : x s = .error e t) :
    (tryCatch x handle) s = handle e t := by
  simp only [tryCatch, tryCatchThe, MonadExceptOf.tryCatch, EStateM.tryCatch, h]
  rfl

theorem mapOutcome_of_ok {x : Routine ε σ α} {f : Except ε α → Except ε β}
    {s t : σ} {a : α} {b : β} (h : x s = .ok a t) (hf : f (.ok a) = .ok b) :
    x.mapOutcome f s = .ok b t := by
  simp only [mapOutcome, outcome, final, h, hf]

theorem mapOutcome_of_error {x : Routine ε σ α} {f : Except ε α → Except ε β}
    {s t : σ} {e e' : ε} (h : x s = .error e t) (hf : f (.error e) = .error e') :
    x.mapOutcome f s = .error e' t := by
  simp only [mapOutcome, outcome, final, h, hf]

/-- The caller goes on after an error. -/
theorem mapOutcome_of_caught {x : Routine ε σ α} {f : Except ε α → Except ε β}
    {s t : σ} {e : ε} {b : β} (h : x s = .error e t) (hf : f (.error e) = .ok b) :
    x.mapOutcome f s = .ok b t := by
  simp only [mapOutcome, outcome, final, h, hf]

theorem outcome_of_ok {x : Routine ε σ α} {s t : σ} {a : α}
    (h : x s = .ok a t) : x.outcome s = .ok a := by
  simp only [outcome, h]

theorem outcome_of_error {x : Routine ε σ α} {s t : σ} {e : ε}
    (h : x s = .error e t) : x.outcome s = .error e := by
  simp only [outcome, h]

theorem reader_of_error {f : σ → Except ε α} {s : σ} {e : ε}
    (h : f s = .error e) : reader f s = .error e s := by
  simp only [reader, h]

theorem reader_of_ok {f : σ → Except ε α} {s : σ} {a : α} (h : f s = .ok a) :
    reader f s = .ok a s := by
  simp only [reader, h]

theorem reader_bind_ok {f : σ → Except ε α} {g : α → Routine ε σ β} {s : σ}
    {a : α} (h : f s = .ok a) : (reader f >>= g) s = g a s :=
  bind_of_ok (reader_of_ok h)

theorem outcome_reader (f : σ → Except ε α) (s : σ) :
    (reader f).outcome s = f s := by
  cases h : f s with
  | error e => exact outcome_of_error (reader_of_error h)
  | ok a => exact outcome_of_ok (reader_of_ok h)

theorem outcome_reader_bind_ok {f : σ → Except ε α} {g : α → Routine ε σ β}
    {s : σ} {a : α} (h : f s = .ok a) :
    (reader f >>= g).outcome s = (g a).outcome s := by
  unfold outcome
  rw [reader_bind_ok h]

theorem outcome_reader_bind_error {f : σ → Except ε α}
    {g : α → Routine ε σ β} {s : σ} {e : ε} (h : f s = .error e) :
    (reader f >>= g).outcome s = .error e :=
  outcome_of_error (bind_of_error (reader_of_error h))

/-- One read after another is a read. -/
theorem reader_bind_reader (f : σ → Except ε α) (g : α → σ → Except ε β) :
    (reader f >>= fun a => reader (g a)) =
      reader fun s => f s >>= fun a => g a s := by
  funext s
  cases h : f s with
  | error e =>
      rw [bind_of_error (reader_of_error h)]
      simp only [reader, h]
      rfl
  | ok a =>
      rw [reader_bind_ok h]
      simp only [reader, h]
      rfl

theorem reader_mapM (f : α → σ → Except ε β) (l : List α) :
    (l.mapM fun a => reader (f a)) = reader fun s => l.mapM fun a => f a s := by
  induction l with
  | nil => rfl
  | cons a l ih =>
      simp only [List.mapM_cons, ih]
      rw [← reader_bind_reader (f a) fun b s => (l.mapM fun a => f a s) >>=
        fun bs => pure (b :: bs)]
      congr 1
      funext b
      exact reader_bind_reader (fun s => l.mapM fun a => f a s)
        fun bs _ => .ok (b :: bs)

/-- The second parts need only agree where the first part leads. -/
theorem bind_congr_of_ok {x : Routine ε σ α} {f g : α → Routine ε σ β} {s : σ}
    (h : ∀ a t, x s = .ok a t → f a t = g a t) : (x >>= f) s = (x >>= g) s := by
  cases hx : x s with
  | error e t => rw [bind_of_error hx, bind_of_error hx]
  | ok a t =>
      rw [bind_of_ok hx, bind_of_ok hx]
      exact h a t hx

theorem bind_congr_left {x y : Routine ε σ α} {f : α → Routine ε σ β} {s : σ}
    (h : x s = y s) : (x >>= f) s = (y >>= f) s := by
  cases hy : y s with
  | ok a t => rw [bind_of_ok (h.trans hy), bind_of_ok hy]
  | error e t => rw [bind_of_error (h.trans hy), bind_of_error hy]

@[simp] theorem map_eq_ok {x : Routine ε σ α} {f : α → β} {s t : σ} {b : β} :
    (f <$> x) s = .ok b t ↔ ∃ a, x s = .ok a t ∧ f a = b := by
  simp only [Functor.map, EStateM.map]
  cases x s with
  | error e u => simp
  | ok a u =>
      simp only [EStateM.Result.ok.injEq]
      constructor
      · rintro ⟨rfl, rfl⟩
        exact ⟨a, ⟨rfl, rfl⟩, rfl⟩
      · rintro ⟨_, ⟨rfl, rfl⟩, rfl⟩
        exact ⟨rfl, rfl⟩

theorem mapOutcome_eq_ok {x : Routine ε σ α} {f : Except ε α → Except ε β}
    {s t : σ} {b : β} :
    x.mapOutcome f s = .ok b t ↔ f (x.outcome s) = .ok b ∧ x.final s = t := by
  simp only [mapOutcome]
  cases f (x.outcome s) <;> simp

theorem mapOutcome_eq_error {x : Routine ε σ α} {f : Except ε α → Except ε β}
    {s t : σ} {e : ε} :
    x.mapOutcome f s = .error e t ↔
      f (x.outcome s) = .error e ∧ x.final s = t := by
  simp only [mapOutcome]
  cases f (x.outcome s) <;> simp

/-- A loop of checks, none of which writes the state, passes exactly if every
check does. -/
theorem forM_eq_ok_of_readonly {step : α → Routine ε σ PUnit}
    (hstep : ∀ a s u t, step a s = .ok u t → s = t) {l : List α} {s t : σ}
    {u : PUnit} :
    l.forM step s = .ok u t ↔ s = t ∧ ∀ a ∈ l, step a s = .ok ⟨⟩ s := by
  induction l with
  | nil =>
      have hnil : ([] : List α).forM step s = .ok ⟨⟩ s := rfl
      simp [hnil]
  | cons a l ih =>
      have hcons : (a :: l).forM step s =
          (step a >>= fun _ => l.forM step) s := rfl
      rw [hcons, bind_eq_ok, List.forall_mem_cons]
      constructor
      · rintro ⟨v, w, ha, hl⟩
        obtain rfl := hstep a s v w ha
        obtain ⟨rfl, hall⟩ := ih.mp hl
        exact ⟨rfl, ha, hall⟩
      · rintro ⟨rfl, ha, hall⟩
        exact ⟨⟨⟩, s, ha, ih.mpr ⟨rfl, hall⟩⟩

/-! ### What a routine does to the state -/

/-- However `x` ends, it takes a state to one that `R` relates it to. -/
def Within (R : σ → σ → Prop) (x : Routine ε σ α) : Prop :=
  ∀ s, R s (x.final s)

/-- The relation of a state to those it may become when `Inv` is kept. -/
def Keeps (Inv : σ → Prop) (s t : σ) : Prop := Inv s → Inv t

instance (Inv : σ → Prop) : Std.Refl (Keeps Inv) := ⟨fun _ => id⟩

instance (Inv : σ → Prop) : IsTrans σ (Keeps Inv) :=
  ⟨fun _ _ _ hst htu hs => htu (hst hs)⟩

section Within

variable {R : σ → σ → Prop}

theorem within_of_ok {x : Routine ε σ α} (hx : Within R x) {s t : σ} {a : α}
    (h : x s = .ok a t) : R s t := by
  have hs := hx s
  rwa [final_of_ok h] at hs

theorem within_of_error {x : Routine ε σ α} (hx : Within R x) {s t : σ} {e : ε}
    (h : x s = .error e t) : R s t := by
  have hs := hx s
  rwa [final_of_error h] at hs

theorem within_pure [Std.Refl R] (a : α) :
    Within R (pure a : Routine ε σ α) :=
  fun s => Std.Refl.refl s

theorem within_throw [Std.Refl R] (e : ε) :
    Within R (throw e : Routine ε σ α) :=
  fun s => Std.Refl.refl s

theorem within_get [Std.Refl R] : Within R (get : Routine ε σ σ) :=
  fun s => Std.Refl.refl s

theorem within_modify {f : σ → σ} (hf : ∀ s, R s (f s)) :
    Within R (modify f : Routine ε σ PUnit) :=
  hf

theorem final_reader (f : σ → Except ε α) (s : σ) : (reader f).final s = s := by
  unfold reader final
  cases h : f s <;> simp only [h]

theorem within_reader [Std.Refl R] (f : σ → Except ε α) :
    Within R (reader f) := by
  intro s
  rw [final_reader]
  exact Std.Refl.refl s

/-- Sequencing composes the two parts' effects. -/
theorem within_bind [IsTrans σ R] {x : Routine ε σ α}
    {f : α → Routine ε σ β} (hx : Within R x) (hf : ∀ a, Within R (f a)) :
    Within R (x >>= f) := by
  intro s
  cases h : x s with
  | error e t =>
      rw [final_of_error (bind_of_error h)]
      exact within_of_error hx h
  | ok a t =>
      have hst : R s t := within_of_ok hx h
      have hfin : (x >>= f).final s = (f a).final t := by
        simp only [final, bind_of_ok h]
      rw [hfin]
      exact IsTrans.trans s t _ hst (hf a t)

/-- The state that `x` has reached is the one its handler starts from. -/
theorem within_tryCatch [IsTrans σ R] {x : Routine ε σ α}
    {handle : ε → Routine ε σ α} (hx : Within R x)
    (hhandle : ∀ e, Within R (handle e)) : Within R (tryCatch x handle) := by
  intro s
  have hcatch : (tryCatch x handle) s =
      match x s with
      | .ok a t => .ok a t
      | .error e t => handle e t := by
    simp only [tryCatch, tryCatchThe, MonadExceptOf.tryCatch,
      EStateM.tryCatch]
    cases x s <;> rfl
  cases h : x s with
  | ok a t =>
      rw [h] at hcatch
      rw [final_of_ok hcatch]
      exact within_of_ok hx h
  | error e t =>
      have hst : R s t := within_of_error hx h
      have hfin : (tryCatch x handle).final s = (handle e).final t := by
        simp only [final, hcatch, h]
      rw [hfin]
      exact IsTrans.trans s t _ hst (hhandle e t)

theorem within_ite {x y : Routine ε σ α} {c : Prop} [Decidable c]
    (hx : c → Within R x) (hy : ¬ c → Within R y) :
    Within R (if c then x else y) := by
  split
  · exact hx ‹_›
  · exact hy ‹_›

/-- A loop over a list stays within what every turn of it stays within. -/
theorem within_foldlM [Std.Refl R] [IsTrans σ R] {step : β → α → Routine ε σ β}
    (hstep : ∀ b a, Within R (step b a)) (l : List α) (b : β) :
    Within R (l.foldlM step b) := by
  induction l generalizing b with
  | nil => exact within_pure b
  | cons a l ih =>
      rw [List.foldlM_cons]
      exact within_bind (hstep b a) ih

theorem within_forM_of_mem [Std.Refl R] [IsTrans σ R]
    {step : α → Routine ε σ PUnit} {l : List α}
    (hstep : ∀ a ∈ l, Within R (step a)) : Within R (l.forM step) := by
  induction l with
  | nil => exact within_pure _
  | cons a l ih =>
      obtain ⟨ha, hl⟩ := List.forall_mem_cons.mp hstep
      exact within_bind ha fun _ => ih hl

theorem within_forM [Std.Refl R] [IsTrans σ R] {step : α → Routine ε σ PUnit}
    (hstep : ∀ a, Within R (step a)) (l : List α) : Within R (l.forM step) :=
  within_forM_of_mem fun a _ => hstep a

theorem within_mapM [Std.Refl R] [IsTrans σ R] {f : α → Routine ε σ β}
    (hf : ∀ a, Within R (f a)) (l : List α) : Within R (l.mapM f) := by
  induction l with
  | nil => exact within_pure _
  | cons a l ih =>
      rw [List.mapM_cons]
      exact within_bind (hf a) fun _ =>
        within_bind ih fun _ => within_pure _

theorem final_map {x : Routine ε σ α} {f : α → β} {s : σ} :
    (f <$> x).final s = x.final s := by
  cases h : x s with
  | ok a t => rw [final_of_ok (map_of_ok h), final_of_ok h]
  | error e t => rw [final_of_error (map_of_error h), final_of_error h]

theorem within_map {x : Routine ε σ α} (hx : Within R x) (f : α → β) :
    Within R (f <$> x) := by
  intro s
  rw [final_map]
  exact hx s

theorem final_bind_pure (x : Routine ε σ α) (b : β) {s : σ} :
    (x >>= fun _ => pure b).final s = x.final s := by
  cases h : x s with
  | ok a t => simp only [final, bind_of_ok h, h, pure, EStateM.pure]
  | error e t => rw [final_of_error (bind_of_error h), final_of_error h]

theorem final_mapOutcome {x : Routine ε σ α} {f : Except ε α → Except ε β}
    {s : σ} : (x.mapOutcome f).final s = x.final s := by
  simp only [mapOutcome, final]
  cases f (x.outcome s) <;> rfl

theorem within_mapOutcome {x : Routine ε σ α} (hx : Within R x)
    (f : Except ε α → Except ε β) : Within R (x.mapOutcome f) := by
  intro s
  rw [final_mapOutcome]
  exact hx s

end Within

/-! ### What a routine leaves when it fails -/

section OnError

/-- If the routine fails, the state that it leaves has the property. -/
def OnError (P : σ → Prop) (x : Routine ε σ α) (s : σ) : Prop :=
  ∀ e t, x s = .error e t → P t

variable {P : σ → Prop} {x : Routine ε σ α} {f : α → Routine ε σ β} {s t : σ}
  {a : α} {e : ε}

theorem onError_of_ok (h : x s = .ok a t) : OnError P x s := by
  intro e u herror
  rw [h] at herror
  cases herror

theorem onError_of_error (h : x s = .error e t) : OnError P x s ↔ P t := by
  constructor
  · intro hP
    exact hP e t h
  · intro hP e' t' herror
    rw [h] at herror
    cases herror
    exact hP

theorem onError_bind_of_ok (h : x s = .ok a t) :
    OnError P (x >>= f) s ↔ OnError P (f a) t := by
  rw [OnError, OnError, bind_of_ok h]

theorem onError_bind_of_error (h : x s = .error e t) :
    OnError P (x >>= f) s ↔ P t :=
  onError_of_error (bind_of_error h)

theorem onError_bind_pure {g : α → β} :
    OnError P (x >>= fun a => pure (g a)) s ↔ OnError P x s := by
  cases h : x s with
  | ok a t =>
      exact iff_of_true ((onError_bind_of_ok h).mpr (onError_of_ok rfl))
        (onError_of_ok h)
  | error e t =>
      rw [onError_bind_of_error h, onError_of_error h]

end OnError

/-! ### Errors that do not occur -/

theorem except_bind_ne_error {x : Except ε α} {f : α → Except ε β} {e : ε}
    (hx : x ≠ .error e) (hf : ∀ a, f a ≠ .error e) : x >>= f ≠ .error e := by
  cases x with
  | error e' => exact fun h => hx (by cases h; rfl)
  | ok a => exact hf a

theorem except_mapM_ne_error {f : α → Except ε β} {e : ε}
    (hf : ∀ a, f a ≠ .error e) (l : List α) : l.mapM f ≠ .error e := by
  induction l with
  | nil => nofun
  | cons a l ih =>
      rw [List.mapM_cons]
      exact except_bind_ne_error (hf a) fun b =>
        except_bind_ne_error ih fun bs => nofun

theorem mapM_congr_of_mem {m : Type → Type} [Monad m] [LawfulMonad m]
    {f g : α → m β} {l : List α} (h : ∀ a ∈ l, f a = g a) :
    l.mapM f = l.mapM g := by
  induction l with
  | nil => rfl
  | cons a l ih =>
      obtain ⟨ha, hl⟩ := List.forall_mem_cons.mp h
      rw [List.mapM_cons, List.mapM_cons, ha, ih hl]

/-- Where no element fails, the results are those of the elements. -/
theorem except_mapM_of_forall_ok {f : α → Except ε β} {l : List α}
    (h : ∀ a ∈ l, ∃ b, f a = .ok b) :
    l.mapM f = .ok (l.filterMap fun a => (f a).toOption) := by
  induction l with
  | nil => rfl
  | cons a l ih =>
      obtain ⟨b, hb⟩ := h a List.mem_cons_self
      have htail := ih fun a' ha' => h a' (List.mem_cons_of_mem _ ha')
      have hcons : (a :: l).filterMap (fun a => (f a).toOption) =
          b :: l.filterMap fun a => (f a).toOption :=
        List.filterMap_cons_some (by rw [hb]; rfl)
      rw [List.mapM_cons, hb, htail, hcons]
      rfl

/-- Where there is a result for the list, there is one for each element. -/
theorem except_forall_of_mapM {f : α → Except ε β} {l : List α} {bs : List β}
    (h : l.mapM f = .ok bs) : ∀ a ∈ l, ∃ b, f a = .ok b := by
  induction l generalizing bs with
  | nil => exact fun a ha => absurd ha List.not_mem_nil
  | cons a l ih =>
      rw [List.mapM_cons] at h
      cases hhead : f a with
      | error e =>
          rw [hhead] at h
          cases h
      | ok b =>
          cases htail : l.mapM f with
          | error e =>
              rw [hhead, htail] at h
              cases h
          | ok bs' => exact List.forall_mem_cons.mpr ⟨⟨b, hhead⟩, ih htail⟩

theorem except_mapM_eq_ok {f : α → Except ε β} {l : List α} {bs : List β}
    (h : l.mapM f = .ok bs) : bs = l.filterMap fun a => (f a).toOption :=
  Except.ok.inj (h.symm.trans (except_mapM_of_forall_ok (except_forall_of_mapM h)))

/-- There are as many results as elements. -/
theorem except_length_of_mapM {f : α → Except ε β} {l : List α} {bs : List β}
    (h : l.mapM f = .ok bs) : bs.length = l.length := by
  rw [except_mapM_eq_ok h, List.length_filterMap_eq_countP,
    List.countP_eq_length]
  intro a ha
  obtain ⟨b, hb⟩ := except_forall_of_mapM h a ha
  rw [hb]
  rfl

/-- Each result is that of an element. -/
theorem except_mem_of_mapM {f : α → Except ε β} {l : List α} {bs : List β}
    (h : l.mapM f = .ok bs) {b : β} (hb : b ∈ bs) : ∃ a ∈ l, f a = .ok b := by
  rw [except_mapM_eq_ok h, List.mem_filterMap] at hb
  obtain ⟨a, ha, hfa⟩ := hb
  refine ⟨a, ha, ?_⟩
  cases hcase : f a with
  | error e =>
      rw [hcase] at hfa
      cases hfa
  | ok b' =>
      rw [hcase] at hfa
      rw [Option.some.inj hfa]

/-! ### Routines that act alike

The checks before an update and the copying after it leave the state alone.
Up to one error that matters, a routine that consists of such checks, an
update and such copying acts like the update. -/

section Acts

variable {γ : Type} {bad : ε} {s t : σ}

/-- `x` leaves the state alone and does not end with the error `bad`. -/
def Quiet (bad : ε) (x : Routine ε σ α) : Prop :=
  ∀ s, x.final s = s ∧ x s ≠ .error bad s

/-- In the state `s`, `x` does to the state what `y` does, and it ends with
the error `bad` exactly if `y` does. -/
structure Acts (bad : ε) (x : Routine ε σ α) (y : Routine ε σ β) (s : σ) :
    Prop where
  final_eq : x.final s = y.final s
  bad_iff : x s = .error bad (x.final s) ↔ y s = .error bad (y.final s)

theorem Acts.rfl {x : Routine ε σ α} : Acts bad x x s := ⟨Eq.refl _, Iff.rfl⟩

theorem Acts.trans {x : Routine ε σ α} {y : Routine ε σ β}
    {z : Routine ε σ γ} (hxy : Acts bad x y s) (hyz : Acts bad y z s) :
    Acts bad x z s :=
  ⟨hxy.final_eq.trans hyz.final_eq, hxy.bad_iff.trans hyz.bad_iff⟩

theorem quiet_reader {f : σ → Except ε α} (hf : ∀ s, f s ≠ .error bad) :
    Quiet bad (reader f) := by
  intro s
  have hstate : s = (reader f).final s := within_reader f s
  exact ⟨hstate.symm, fun h => hf s (reader_eq_error.mp h).1⟩

theorem quiet_pure (a : α) : Quiet bad (pure a : Routine ε σ α) :=
  fun _ => ⟨Eq.refl _, pure_ne_error⟩

theorem Quiet.error_ne {x : Routine ε σ α} (hx : Quiet bad x) :
    x s ≠ .error bad t := by
  intro h
  obtain ⟨hfin, hne⟩ := hx s
  rw [final_of_error h] at hfin
  exact hne (hfin ▸ h)

theorem Quiet.state_eq {x : Routine ε σ α} {a : α} (hx : Quiet bad x)
    (h : x s = .ok a t) : t = s := by
  rw [← final_of_ok h]
  exact (hx s).1

theorem Quiet.bind {x : Routine ε σ α} {f : α → Routine ε σ β}
    (hx : Quiet bad x) (hf : ∀ a, Quiet bad (f a)) : Quiet bad (x >>= f) := by
  intro s
  cases h : x s with
  | error e t =>
      have hts : t = s := by
        rw [← final_of_error h]
        exact (hx s).1
      refine ⟨(final_of_error (bind_of_error h)).trans hts, ?_⟩
      rw [bind_of_error h]
      intro heq
      rw [EStateM.Result.error.injEq] at heq
      exact hx.error_ne (h.trans (by rw [heq.1]))
  | ok a t =>
      obtain rfl := hx.state_eq h
      have heq : (x >>= f) t = f a t := bind_of_ok h
      refine ⟨?_, ?_⟩
      · show final (x >>= f) t = t
        simp only [final, heq]
        exact (hf a t).1
      · rw [heq]
        exact (hf a t).2

/-- A quiet routine acts like one that does nothing. -/
theorem Quiet.acts {x : Routine ε σ α} (hx : Quiet bad x) (s : σ) :
    Acts bad x (pure () : Routine ε σ Unit) s :=
  ⟨(hx s).1, iff_of_false hx.error_ne pure_ne_error⟩

theorem acts_of_apply_eq {x y : Routine ε σ α} (h : x s = y s) :
    Acts bad x y s := by
  have hfin : x.final s = y.final s := by simp only [final, h]
  exact ⟨hfin, by rw [h, hfin]⟩

/-- After a first part that returned and left the state alone. -/
theorem acts_bind_of_ok {x : Routine ε σ α} {f : α → Routine ε σ β} {a : α}
    (h : x s = .ok a s) : Acts bad (x >>= f) (f a) s :=
  acts_of_apply_eq (bind_of_ok h)

/-- After a first part that failed with another error and left the state
alone. -/
theorem acts_bind_of_error {x : Routine ε σ α} {f : α → Routine ε σ β} {e : ε}
    (h : x s = .error e s) (he : e ≠ bad) :
    Acts bad (x >>= f) (pure () : Routine ε σ Unit) s := by
  have heq : (x >>= f) s = .error e s := bind_of_error h
  refine ⟨final_of_error heq, iff_of_false ?_ pure_ne_error⟩
  rw [heq]
  intro h'
  rw [EStateM.Result.error.injEq] at h'
  exact he h'.1

/-- Before a second part that is quiet. -/
theorem acts_bind_quiet {x : Routine ε σ α} {f : α → Routine ε σ β}
    (hf : ∀ a, Quiet bad (f a)) : Acts bad (x >>= f) x s := by
  cases h : x s with
  | error e t =>
      have heq : (x >>= f) s = .error e t := bind_of_error h
      exact ⟨(final_of_error heq).trans (final_of_error h).symm, by
        rw [heq, h, final_of_error heq, final_of_error h]
        simp only [EStateM.Result.error.injEq]⟩
  | ok a t =>
      have heq : (x >>= f) s = f a t := bind_of_ok h
      have hfin : (x >>= f).final s = t := by
        have := (hf a t).1
        simpa only [final, heq] using this
      refine ⟨hfin.trans (final_of_ok h).symm, iff_of_false ?_ ?_⟩
      · rw [heq]
        exact (hf a).error_ne
      · rw [h]
        intro h'
        cases h'

/-- A read that succeeds is followed by the rest. -/
theorem acts_reader_ok {f : σ → Except ε α} {g : α → Routine ε σ β} {a : α}
    (h : f s = .ok a) : Acts bad (reader f >>= g) (g a) s :=
  acts_bind_of_ok (reader_eq_ok.mpr ⟨h, Eq.refl _⟩)

/-- A read that fails is the end. -/
theorem acts_reader_error {f : σ → Except ε α} {g : α → Routine ε σ β}
    (h : ∀ a, f s ≠ .ok a) (hbad : f s ≠ .error bad) :
    Acts bad (reader f >>= g) (pure () : Routine ε σ Unit) s := by
  cases hf : f s with
  | ok a => exact absurd hf (h a)
  | error e =>
      refine acts_bind_of_error (reader_eq_error.mpr ⟨hf, Eq.refl _⟩) ?_
      rintro rfl
      exact hbad hf

theorem outcome_mapOutcome {x : Routine ε σ α}
    {f : Except ε α → Except ε β} :
    (x.mapOutcome f).outcome s = f (x.outcome s) := by
  generalize hr : f (x.outcome s) = r
  simp only [mapOutcome, outcome] at hr ⊢
  rw [hr]
  cases r <;> rfl

/-- Replacing an outcome keeps the error that matters apart. -/
theorem acts_mapOutcome {x : Routine ε σ α} {f : Except ε α → Except ε β}
    (hf : ∀ r, f r = .error bad ↔ r = .error bad) :
    Acts bad (x.mapOutcome f) x s := by
  refine ⟨final_mapOutcome, ?_⟩
  rw [← outcome_eq_error, ← outcome_eq_error, ← hf, outcome_mapOutcome]

theorem acts_map {x : Routine ε σ α} {f : α → β} : Acts bad (f <$> x) x s :=
  acts_bind_quiet fun a => quiet_pure (f a)

end Acts

end Routine

end SysLib
