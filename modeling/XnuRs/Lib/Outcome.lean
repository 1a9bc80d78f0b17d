/-
  XnuRs.Lib.Outcome

  How a run of a fallible function ends.

  A function that returns a result type can return a value, return an error
  value, or stop with a panic (an index out of range, an arithmetic overflow
  with the checks on).  A function whose recursion is bounded by an explicit
  counter can also exhaust it.  `Outcome ε α` keeps the four cases apart, and
  is `Except` underneath, so `do` blocks sequence it with early exit.

  The rules below take a sequence apart (`bind_eq_ok`) or walk through it
  (`ok_bind`, `error_bind`); no later proof unfolds the monad.  `FailsOnlyWith`
  and `Clean` say of a run that it ends without a panic.
-/

namespace XnuRs

universe u v

/-- A run that ended without a value: the error of the function's own result
    type, a panic, or an exhausted recursion counter. -/
inductive Fault (ε : Type u) where
  | err (e : ε)
  | panic
  | fuel
deriving DecidableEq, Repr

/-- The result of a run: a value or a fault. -/
abbrev Outcome (ε : Type u) (α : Type v) := Except (Fault ε) α

namespace Outcome

variable {ε : Type u} {α : Type v} {β : Type v}

/-- An early return of the error `e`. -/
def err (e : ε) : Outcome ε α := .error (.err e)

/-- A panic. -/
def panic : Outcome ε α := .error .panic

/-- An exhausted recursion counter. -/
def fuel : Outcome ε α := .error .fuel

/-- `ok_or` followed by `?`: a missing value is the error `e`. -/
def okOr (o : Option α) (e : ε) : Outcome ε α :=
  match o with
  | some a => .ok a
  | none => err e

/-- A value that is missing only when the operation panics. -/
def orPanic (o : Option α) : Outcome ε α :=
  match o with
  | some a => .ok a
  | none => panic

/-- `ok_or` on a run whose own error only says that there is no value: it becomes
    the error `e`, and a panic stays one. -/
def mapErr {δ : Type u} (x : Outcome δ α) (e : ε) : Outcome ε α :=
  match x with
  | .ok a => .ok a
  | .error (.err _) => err e
  | .error .panic => panic
  | .error .fuel => fuel

/-! ## Walking through a sequence -/

@[simp] theorem ok_bind (a : α) (f : α → Outcome ε β) :
    ((Except.ok a : Outcome ε α) >>= f) = f a := rfl

@[simp] theorem error_bind (e : Fault ε) (f : α → Outcome ε β) :
    ((Except.error e : Outcome ε α) >>= f) = Except.error e := rfl

@[simp] theorem err_bind (e : ε) (f : α → Outcome ε β) :
    ((err e : Outcome ε α) >>= f) = err e := rfl

@[simp] theorem pure_eq_ok (a : α) : (pure a : Outcome ε α) = Except.ok a := rfl

@[simp] theorem okOr_some (a : α) (e : ε) : okOr (some a) e = Except.ok a := rfl

@[simp] theorem okOr_none (e : ε) : (okOr none e : Outcome ε α) = err e := rfl

@[simp] theorem orPanic_some (a : α) : (orPanic (some a) : Outcome ε α) = Except.ok a := rfl

@[simp] theorem orPanic_none : (orPanic none : Outcome ε α) = panic := rfl

/-! ## Taking a sequence apart -/

/-- A sequence returns a value exactly when each part does. -/
theorem bind_eq_ok {x : Outcome ε α} {f : α → Outcome ε β} {b : β} :
    (x >>= f) = Except.ok b ↔ ∃ a, x = Except.ok a ∧ f a = Except.ok b := by
  cases x with
  | ok a => simp
  | error e => simp

/-- A sequence that faults does so in its first part or after it. -/
theorem bind_eq_error {x : Outcome ε α} {f : α → Outcome ε β} {e : Fault ε} :
    (x >>= f) = Except.error e ↔
      x = Except.error e ∨ ∃ a, x = Except.ok a ∧ f a = Except.error e := by
  cases x with
  | ok a => simp
  | error e' => simp

@[simp] theorem okOr_eq_ok {o : Option α} {e : ε} {a : α} :
    okOr o e = Except.ok a ↔ o = some a := by
  cases o with
  | none => simp [okOr, err]
  | some b => simp [okOr]

@[simp] theorem orPanic_eq_ok {o : Option α} {a : α} :
    (orPanic o : Outcome ε α) = Except.ok a ↔ o = some a := by
  cases o with
  | none => simp [orPanic, panic]
  | some b => simp [orPanic]

@[simp] theorem mapErr_eq_ok {δ : Type u} {x : Outcome δ α} {e : ε} {a : α} :
    mapErr x e = Except.ok a ↔ x = Except.ok a := by
  unfold mapErr err panic fuel
  split <;> simp

@[simp] theorem err_ne_ok {e : ε} {a : α} : (err e : Outcome ε α) ≠ Except.ok a := by
  simp [err]

@[simp] theorem panic_ne_ok {a : α} : (panic : Outcome ε α) ≠ Except.ok a := by
  simp [panic]

@[simp] theorem fuel_ne_ok {a : α} : (fuel : Outcome ε α) ≠ Except.ok a := by
  simp [fuel]

/-! ## Sequences that agree -/

/-- Two sequences agree when their first parts do and their second parts agree
    on every value the first part can return. -/
theorem bind_congr_ok {x y : Outcome ε α} {f g : α → Outcome ε β} (hxy : x = y)
    (hfg : ∀ a, x = Except.ok a → f a = g a) : (x >>= f) = (y >>= g) := by
  subst hxy
  cases x with
  | ok a => exact hfg a rfl
  | error e => rfl

/-! ## Runs that only fail with their own error -/

/-- The run returns a value or the error `e`: it neither panics nor exhausts a counter. -/
def FailsOnlyWith (e : ε) (x : Outcome ε α) : Prop := ∀ f, x = .error f → f = .err e

namespace FailsOnlyWith

variable {e : ε}

theorem ok (a : α) : FailsOnlyWith e (.ok a : Outcome ε α) := fun _ h => nomatch h

theorem err : FailsOnlyWith e (Outcome.err e : Outcome ε α) := fun _ h =>
  (Except.error.inj h).symm

theorem okOr (o : Option α) : FailsOnlyWith e (okOr o e) := by
  cases o with
  | none => exact err
  | some a => exact ok a

theorem mapErr {δ : Type u} {e' : δ} {x : Outcome δ α} (hx : FailsOnlyWith e' x) :
    FailsOnlyWith e (mapErr x e) := by
  cases x with
  | ok a => exact ok a
  | error f =>
      obtain rfl := hx f rfl
      exact err

/-- A sequence fails only with `e` when its first part does, and its second part does on
    every value the first part can return. -/
theorem bind {x : Outcome ε α} {f : α → Outcome ε β} (hx : FailsOnlyWith e x)
    (hf : ∀ a, x = .ok a → FailsOnlyWith e (f a)) : FailsOnlyWith e (x >>= f) := by
  intro fault h
  rcases bind_eq_error.mp h with hfault | ⟨a, ha, hfault⟩
  · exact hx fault hfault
  · exact hf a ha fault hfault

/-- A branch fails only with `e` when both of its sides do. -/
theorem ite {c : Prop} [Decidable c] {x y : Outcome ε α} (hx : c → FailsOnlyWith e x)
    (hy : ¬ c → FailsOnlyWith e y) : FailsOnlyWith e (if c then x else y) := by
  split
  · exact hx ‹_›
  · exact hy ‹_›

/-- The run ends in one of two ways. -/
theorem cases {x : Outcome ε α} (h : FailsOnlyWith e x) :
    (∃ a, x = .ok a) ∨ x = Outcome.err e := by
  cases x with
  | ok a => exact .inl ⟨a, rfl⟩
  | error f =>
      obtain rfl := h f rfl
      exact .inr rfl

end FailsOnlyWith

/-! ## Runs that only fail with an error of their own -/

/-- The run returns a value or an error value: it neither panics nor exhausts a counter. -/
def Clean (x : Outcome ε α) : Prop := (∃ a, x = .ok a) ∨ ∃ e, x = err e

namespace Clean

theorem ok (a : α) : Clean (.ok a : Outcome ε α) := .inl ⟨a, rfl⟩

theorem err (e : ε) : Clean (Outcome.err e : Outcome ε α) := .inr ⟨e, rfl⟩

theorem okOr (o : Option α) (e : ε) : Clean (okOr o e) := by
  cases o with
  | none => exact err e
  | some a => exact ok a

/-- A sequence is clean when its first part is, and its second part is on every value the
    first part can return. -/
theorem bind {x : Outcome ε α} {f : α → Outcome ε β} (hx : Clean x)
    (hf : ∀ a, x = .ok a → Clean (f a)) : Clean (x >>= f) := by
  rcases hx with ⟨a, rfl⟩ | ⟨e, rfl⟩
  · exact hf a rfl
  · exact err e

theorem not_panic : ¬ Clean (panic : Outcome ε α) := by
  rintro (⟨a, h⟩ | ⟨e, h⟩)
  · cases h
  · cases h

end Clean

/-! ## Runs that can only panic -/

/-- The run returns a value or panics. -/
def OnlyPanics (x : Outcome ε α) : Prop := ∀ f, x = .error f → f = .panic

namespace OnlyPanics

theorem ok (a : α) : OnlyPanics (.ok a : Outcome ε α) := fun _ h => nomatch h

theorem panic : OnlyPanics (Outcome.panic : Outcome ε α) := fun _ h => (Except.error.inj h).symm

theorem orPanic (o : Option α) : OnlyPanics (orPanic o : Outcome ε α) := by
  cases o with
  | none => exact panic
  | some a => exact ok a

theorem bind {x : Outcome ε α} {f : α → Outcome ε β} (hx : OnlyPanics x)
    (hf : ∀ a, OnlyPanics (f a)) : OnlyPanics (x >>= f) := by
  intro fault h
  rcases bind_eq_error.mp h with hfault | ⟨a, -, hfault⟩
  · exact hx fault hfault
  · exact hf a fault hfault

/-- A run that returns no value panics. -/
theorem eq_panic {x : Outcome ε α} (hx : OnlyPanics x) (hno : ∀ a, x ≠ .ok a) :
    x = Outcome.panic := by
  cases x with
  | ok a => exact absurd rfl (hno a)
  | error f => rw [hx f rfl, Outcome.panic]

end OnlyPanics

end Outcome
end XnuRs
