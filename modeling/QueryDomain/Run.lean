import QueryDomain.Event

/-! Computations that report events and may fail. Events reported before a failure are kept, and no
result depends on them. -/
namespace QueryDomain

theorem Except.bind_eq_ok {ε α β : Type} {x : Except ε α} {f : α → Except ε β} {b : β} :
    (x >>= f) = .ok b ↔ ∃ a, x = .ok a ∧ f a = .ok b := by
  cases x with
  | error e => simp [Bind.bind, Except.bind]
  | ok a => simp [Bind.bind, Except.bind]

theorem Except.toOption_eq_some {ε α : Type} {x : Except ε α} {a : α} :
    x.toOption = some a ↔ x = .ok a := by
  cases x <;> simp [Except.toOption]

structure Run (ε α : Type) where
  events : List Event
  result : Except ε α

namespace Run

variable {ε ε' α β : Type}

def pure (a : α) : Run ε α := ⟨[], .ok a⟩

def bind (run : Run ε α) (next : α → Run ε β) : Run ε β :=
  match run.result with
  | .error e => ⟨run.events, .error e⟩
  | .ok a =>
    let after := next a
    ⟨run.events ++ after.events, after.result⟩

instance : Monad (Run ε) where
  pure := Run.pure
  bind := Run.bind

instance : MonadExceptOf ε (Run ε) where
  throw e := ⟨[], .error e⟩
  tryCatch run handle :=
    match run.result with
    | .ok _ => run
    | .error e =>
      let after := handle e
      ⟨run.events ++ after.events, after.result⟩

instance : MonadLift (Except ε) (Run ε) where
  monadLift result := ⟨[], result⟩

def report (event : Event) : Run ε Unit := ⟨[event], .ok ()⟩

def mapError (f : ε → ε') (run : Run ε α) : Run ε' α := ⟨run.events, run.result.mapError f⟩

@[simp] theorem result_pure (a : α) : (Pure.pure a : Run ε α).result = .ok a := rfl

@[simp] theorem result_bind (run : Run ε α) (next : α → Run ε β) :
    (run >>= next).result = run.result.bind fun a => (next a).result := by
  cases h : run.result <;> simp [Bind.bind, Run.bind, Except.bind, h]

@[simp] theorem result_throw (e : ε) : (throw e : Run ε α).result = .error e := rfl

@[simp] theorem result_liftM (r : Except ε α) : (liftM r : Run ε α).result = r := rfl

@[simp] theorem result_report (event : Event) : (report event : Run ε Unit).result = .ok () := rfl

@[simp] theorem result_mapError (f : ε → ε') (run : Run ε α) :
    (run.mapError f).result = run.result.mapError f := rfl

theorem result_bind_eq_ok {run : Run ε α} {next : α → Run ε β} {b : β} :
    (run >>= next).result = .ok b ↔ ∃ a, run.result = .ok a ∧ (next a).result = .ok b := by
  rw [result_bind]
  cases run.result with
  | error e => simp [Except.bind]
  | ok a => simp [Except.bind]

instance : LawfulMonad (Run ε) := LawfulMonad.mk' _
  (by
    rintro α ⟨events, result⟩
    cases result <;> simp [Functor.map, Run.bind, Run.pure])
  (by intros; simp [Pure.pure, Bind.bind, Run.bind, Run.pure])
  (by
    rintro α β γ ⟨events, result⟩ f g
    cases result with
    | error e => rfl
    | ok a => cases h : (f a).result <;> simp [Bind.bind, Run.bind, h])

end Run

end QueryDomain
