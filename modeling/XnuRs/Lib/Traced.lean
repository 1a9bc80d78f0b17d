/-
  XnuRs.Lib.Traced

  Runs that have effects before they end.

  `Traced τ ε α` is the list of effects a run had, oldest first, together with
  how it ended.  A run that faults keeps the effects it had up to the fault, so
  the state a half-finished run leaves behind can be spoken about.  What an
  effect does to a state is not fixed here: a client folds the log over it.
-/

import XnuRs.Lib.Outcome

namespace XnuRs

/-- The effects of a run, and how it ended. -/
@[ext] structure Traced (τ : Type) (ε : Type) (α : Type) where
  log : List τ
  result : Outcome ε α

namespace Traced

variable {τ ε α β : Type}

/-- Run `f` after `x` if `x` returned a value. -/
def bind (x : Traced τ ε α) (f : α → Traced τ ε β) : Traced τ ε β :=
  match x.result with
  | .ok a => ⟨x.log ++ (f a).log, (f a).result⟩
  | .error e => ⟨x.log, .error e⟩

instance : Monad (Traced τ ε) where
  pure a := ⟨[], .ok a⟩
  bind := bind

/-- A run with the single effect `t`. -/
def emit (t : τ) : Traced τ ε Unit := ⟨[t], .ok ()⟩

/-- A run without effects. -/
def lift (x : Outcome ε α) : Traced τ ε α := ⟨[], x⟩

/-- Hand the error value of a run to the code after it (`is_err`, `match`) instead
    of returning it; a panic still ends the run. -/
def attempt (x : Traced τ ε α) : Traced τ ε (Except ε α) where
  log := x.log
  result :=
    match x.result with
    | .ok a => .ok (.ok a)
    | .error (.err e) => .ok (.error e)
    | .error .panic => .error .panic
    | .error .fuel => .error .fuel

/-- Run `f` on every element of a list, in order, up to the first fault. -/
def forEach (f : α → Traced τ ε Unit) : List α → Traced τ ε Unit
  | [] => pure ()
  | a :: rest => do
    f a
    forEach f rest

/-! ## Walking through a run -/

@[simp] theorem pure_log (a : α) : (pure a : Traced τ ε α).log = [] := rfl

@[simp] theorem pure_result (a : α) : (pure a : Traced τ ε α).result = .ok a := rfl

@[simp] theorem emit_log (t : τ) : (emit t : Traced τ ε Unit).log = [t] := rfl

@[simp] theorem emit_result (t : τ) : (emit t : Traced τ ε Unit).result = .ok () := rfl

@[simp] theorem lift_log (x : Outcome ε α) : (lift x : Traced τ ε α).log = [] := rfl

@[simp] theorem lift_result (x : Outcome ε α) : (lift x : Traced τ ε α).result = x := rfl

/-- The result of a sequence does not depend on the effects. -/
@[simp] theorem bind_result (x : Traced τ ε α) (f : α → Traced τ ε β) :
    (x >>= f).result = x.result >>= fun a => (f a).result := by
  show (bind x f).result = _
  unfold bind
  cases x.result <;> rfl

theorem bind_log_ok {x : Traced τ ε α} {a : α} (f : α → Traced τ ε β)
    (h : x.result = .ok a) : (x >>= f).log = x.log ++ (f a).log := by
  show (bind x f).log = _
  unfold bind
  rw [h]

theorem bind_log_error {x : Traced τ ε α} {e : Fault ε} (f : α → Traced τ ε β)
    (h : x.result = .error e) : (x >>= f).log = x.log := by
  show (bind x f).log = _
  unfold bind
  rw [h]

@[simp] theorem emit_bind_log (t : τ) (f : Unit → Traced τ ε β) :
    (emit t >>= f).log = t :: (f ()).log := rfl

/-- A run whose effects and value are known, and what comes after it. -/
@[simp] theorem mk_ok_bind (log : List τ) (a : α) (f : α → Traced τ ε β) :
    ((⟨log, .ok a⟩ : Traced τ ε α) >>= f) = ⟨log ++ (f a).log, (f a).result⟩ := rfl

@[simp] theorem lift_ok_bind (a : α) (f : α → Traced τ ε β) :
    (lift (.ok a) >>= f) = f a := rfl

@[simp] theorem lift_error_bind (e : Fault ε) (f : α → Traced τ ε β) :
    (lift (.error e) >>= f) = lift (.error e) := rfl

/-- An effect of a sequence is one of its first part, or one of its second part. -/
theorem mem_bind_log {x : Traced τ ε α} {f : α → Traced τ ε β} {t : τ}
    (h : t ∈ (x >>= f).log) : t ∈ x.log ∨ ∃ a, t ∈ (f a).log := by
  cases hr : x.result with
  | error e =>
      rw [bind_log_error f hr] at h
      exact .inl h
  | ok a =>
      rw [bind_log_ok f hr, List.mem_append] at h
      exact h.imp_right fun h => ⟨a, h⟩

/-- An effect of a sequence is one of its first part or, when that returned, one of what
    came after it. -/
theorem mem_bind_log_iff {x : Traced τ ε α} {f : α → Traced τ ε β} {t : τ} :
    t ∈ (x >>= f).log ↔ t ∈ x.log ∨ ∃ a, x.result = .ok a ∧ t ∈ (f a).log := by
  cases hr : x.result with
  | error e => simp [bind_log_error f hr]
  | ok a => simp [bind_log_ok f hr]

/-- Behind a part that returned come the effects of the rest. -/
theorem mem_bind_log_of_ok {x : Traced τ ε α} {f : α → Traced τ ε β} {t : τ} {a : α}
    (hx : x.result = .ok a) (h : t ∈ (f a).log) : t ∈ (x >>= f).log :=
  mem_bind_log_iff.mpr (.inr ⟨a, hx, h⟩)

/-- The effects of the rest are the last ones. -/
theorem suffix_bind_log {x : Traced τ ε α} {f : α → Traced τ ε β} {a : α} {log : List τ}
    (hx : x.result = .ok a) (h : log <:+ (f a).log) : log <:+ (x >>= f).log := by
  rw [bind_log_ok f hx]
  exact h.trans (List.suffix_append ..)

theorem suffix_emit_bind_log {t : τ} {f : Unit → Traced τ ε β} {log : List τ}
    (h : log <:+ (f ()).log) : log <:+ (emit t >>= f).log :=
  suffix_bind_log rfl h

/-- The effects of the first part are the first ones. -/
theorem prefix_bind_log (x : Traced τ ε α) (f : α → Traced τ ε β) : x.log <+: (x >>= f).log := by
  cases hr : x.result with
  | error e => exact ⟨[], by rw [List.append_nil, bind_log_error f hr]⟩
  | ok a =>
      rw [bind_log_ok f hr]
      exact List.prefix_append ..

theorem prefix_emit_bind_log {t : τ} {f : Unit → Traced τ ε β} {log : List τ}
    (h : log <+: (f ()).log) : t :: log <+: (emit t >>= f).log :=
  List.cons_prefix_cons.mpr ⟨rfl, h⟩

/-- A second part without effects adds none. -/
theorem bind_log_of_silent {x : Traced τ ε α} {f : α → Traced τ ε β} (h : ∀ a, (f a).log = []) :
    (x >>= f).log = x.log := by
  cases hr : x.result with
  | error e => exact bind_log_error f hr
  | ok a => rw [bind_log_ok f hr, h a, List.append_nil]

/-! ## Runs with effects of one kind -/

/-- Every effect of the run satisfies `P`, however it ended. -/
def Only (P : τ → Prop) (x : Traced τ ε α) : Prop := ∀ t ∈ x.log, P t

variable {P : τ → Prop}

theorem only_pure (a : α) : Only P (pure a : Traced τ ε α) := by
  intro t ht
  cases ht

theorem only_lift (x : Outcome ε α) : Only P (lift x) := by
  intro t ht
  cases ht

theorem only_emit {t : τ} (h : P t) : Only P (emit t : Traced τ ε Unit) := by
  intro t' ht
  rw [List.mem_singleton.mp ht]
  exact h

theorem only_bind {x : Traced τ ε α} {f : α → Traced τ ε β} (hx : Only P x)
    (hf : ∀ a, Only P (f a)) : Only P (x >>= f) := by
  intro t ht
  rcases mem_bind_log ht with h | ⟨a, h⟩
  · exact hx t h
  · exact hf a t h

theorem only_emit_bind {t : τ} {f : Unit → Traced τ ε β} :
    Only P (emit t >>= f) ↔ P t ∧ Only P (f ()) := by
  unfold Only
  rw [emit_bind_log, List.forall_mem_cons]

/-! ## Loops over a list -/

@[simp] theorem forEach_nil (f : α → Traced τ ε Unit) : forEach f [] = pure () := rfl

theorem forEach_cons (f : α → Traced τ ε Unit) (a : α) (rest : List α) :
    forEach f (a :: rest) = f a >>= fun _ => forEach f rest := rfl

/-- A loop completes exactly when every round does. -/
theorem forEach_ok {f : α → Traced τ ε Unit} {l : List α} :
    (forEach f l).result = .ok () ↔ ∀ a ∈ l, (f a).result = .ok () := by
  induction l with
  | nil => simp
  | cons a rest ih =>
      rw [forEach_cons, bind_result, Outcome.bind_eq_ok, List.forall_mem_cons]
      constructor
      · rintro ⟨_, ha, hrest⟩
        exact ⟨ha, ih.mp hrest⟩
      · rintro ⟨ha, hrest⟩
        exact ⟨(), ha, ih.mpr hrest⟩

/-- A loop that completes has had the effects of all its rounds. -/
theorem forEach_log {f : α → Traced τ ε Unit} {l : List α}
    (h : ∀ a ∈ l, (f a).result = .ok ()) :
    (forEach f l).log = l.flatMap fun a => (f a).log := by
  induction l with
  | nil => rfl
  | cons a rest ih =>
      have ha := h a (List.mem_cons_self ..)
      rw [forEach_cons, bind_log_ok _ ha, ih fun b hb => h b (List.mem_cons_of_mem _ hb)]
      rfl

/-- Every effect of a loop is an effect of one of its rounds. -/
theorem mem_forEach_log {f : α → Traced τ ε Unit} {l : List α} {t : τ}
    (h : t ∈ (forEach f l).log) : ∃ a ∈ l, t ∈ (f a).log := by
  induction l with
  | nil => cases h
  | cons a rest ih =>
      rw [forEach_cons] at h
      -- a round that fails is the last one
      cases hr : (f a).result with
      | error e =>
          rw [bind_log_error _ hr] at h
          exact ⟨a, List.mem_cons_self .., h⟩
      | ok u =>
          rw [bind_log_ok _ hr, List.mem_append] at h
          rcases h with h | h
          · exact ⟨a, List.mem_cons_self .., h⟩
          · obtain ⟨b, hb, ht⟩ := ih h
            exact ⟨b, List.mem_cons_of_mem _ hb, ht⟩

/-- A loop over rounds with effects of one kind. -/
theorem only_forEach {f : α → Traced τ ε Unit} {l : List α} (h : ∀ a ∈ l, Only P (f a)) :
    Only P (forEach f l) := by
  intro t ht
  obtain ⟨a, ha, hmem⟩ := mem_forEach_log ht
  exact h a ha t hmem

/-! ## Runs that can only panic -/

theorem onlyPanics_bind {x : Traced τ ε α} {f : α → Traced τ ε β} (hx : x.result.OnlyPanics)
    (hf : ∀ a, (f a).result.OnlyPanics) : (x >>= f).result.OnlyPanics := by
  rw [bind_result]
  exact hx.bind fun a => hf a

theorem onlyPanics_emit_bind {t : τ} {f : Unit → Traced τ ε β} (hf : (f ()).result.OnlyPanics) :
    (emit t >>= f).result.OnlyPanics := hf

theorem onlyPanics_forEach {f : α → Traced τ ε Unit} (hf : ∀ a, (f a).result.OnlyPanics)
    (l : List α) : (forEach f l).result.OnlyPanics := by
  induction l with
  | nil => exact .ok ()
  | cons a rest ih => exact onlyPanics_bind (hf a) fun _ => ih

end Traced
end XnuRs
