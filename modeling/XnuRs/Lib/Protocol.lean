/-
  XnuRs.Lib.Protocol

  Protocols of effects.

  A protocol says which effect is allowed behind which others.  A run follows it
  when each of its effects is allowed behind the history and the effects before
  it, also if the run ends in a fault.  A sequence follows a protocol exactly
  when its first part does, and the rest does behind what the first part left
  (`followsFrom_bind`).
-/

import XnuRs.Lib.Traced

namespace XnuRs

variable {τ ε α β : Type} {allowed : List τ → τ → Prop} {history : List τ}

/-- Every effect of the list is allowed behind the history and those before it. -/
def FollowsFrom (allowed : List τ → τ → Prop) (history : List τ) : List τ → Prop
  | [] => True
  | op :: rest => allowed history op ∧ FollowsFrom allowed (history ++ [op]) rest

theorem followsFrom_append {ops ops' : List τ} :
    FollowsFrom allowed history (ops ++ ops') ↔
      FollowsFrom allowed history ops ∧ FollowsFrom allowed (history ++ ops) ops' := by
  induction ops generalizing history with
  | nil => simp [FollowsFrom]
  | cons op rest ih =>
      rw [List.cons_append, FollowsFrom, FollowsFrom, ih, and_assoc, List.append_assoc,
        List.singleton_append]

/-- Each effect, with those before it. -/
theorem followsFrom_iff {ops : List τ} :
    FollowsFrom allowed history ops ↔
      ∀ before op after, ops = before ++ op :: after → allowed (history ++ before) op := by
  constructor
  · rintro h before op after rfl
    rw [followsFrom_append] at h
    exact h.2.1
  · intro h
    induction ops generalizing history with
    | nil => trivial
    | cons op rest ih =>
        refine ⟨?_, ih fun before op' after hrest => ?_⟩
        · have hfirst := h [] op rest rfl
          rwa [List.append_nil] at hfirst
        · have hnext := h (op :: before) op' after (by rw [hrest, List.cons_append])
          rwa [List.append_assoc, List.singleton_append]

/-- Effects that are allowed behind every history there can be. -/
theorem followsFrom_of_forall {ops : List τ} {I : List τ → Prop} (hI : I history)
    (h : ∀ history, I history → ∀ op ∈ ops, allowed history op ∧ I (history ++ [op])) :
    FollowsFrom allowed history ops ∧ I (history ++ ops) := by
  induction ops generalizing history with
  | nil => exact ⟨trivial, (List.append_nil history).symm ▸ hI⟩
  | cons op rest ih =>
      obtain ⟨hop, hI'⟩ := h history hI op (List.mem_cons_self ..)
      obtain ⟨hrest, hend⟩ := ih hI' fun history hI op hop => h history hI op (.tail _ hop)
      rw [List.append_assoc, List.singleton_append] at hend
      exact ⟨⟨hop, hrest⟩, hend⟩

namespace Traced

/-- The run follows the protocol behind the history. -/
def Follows (allowed : List τ → τ → Prop) (history : List τ) (x : Traced τ ε α) : Prop :=
  FollowsFrom allowed history x.log

theorem follows_pure (a : α) : (pure a : Traced τ ε α).Follows allowed history := trivial

theorem follows_lift (x : Outcome ε α) : (lift x : Traced τ ε α).Follows allowed history := trivial

theorem follows_bind {x : Traced τ ε α} {f : α → Traced τ ε β} :
    (x >>= f).Follows allowed history ↔ x.Follows allowed history ∧
      ∀ a, x.result = .ok a → (f a).Follows allowed (history ++ x.log) := by
  rw [Follows, Follows]
  cases hx : x.result with
  | error e =>
      rw [bind_log_error f hx]
      simp
  | ok a =>
      rw [bind_log_ok f hx, followsFrom_append]
      simp [Follows]

theorem follows_lift_bind {x : Outcome ε α} {f : α → Traced τ ε β} :
    ((lift x : Traced τ ε α) >>= f).Follows allowed history ↔
      ∀ a, x = .ok a → (f a).Follows allowed history := by
  rw [follows_bind, lift_result, lift_log, List.append_nil]
  exact and_iff_right (follows_lift x)

theorem follows_emit_bind {op : τ} {f : Unit → Traced τ ε β} :
    (emit op >>= f).Follows allowed history ↔
      allowed history op ∧ (f ()).Follows allowed (history ++ [op]) := Iff.rfl

/-- A loop whose rounds follow the protocol and keep what they rely on. -/
theorem follows_forEach {f : α → Traced τ ε Unit} {xs : List α} {I : List τ → Prop}
    (h : ∀ x ∈ xs, ∀ history, I history →
      (f x).Follows allowed history ∧ I (history ++ (f x).log)) (hI : I history) :
    (forEach f xs).Follows allowed history ∧ I (history ++ (forEach f xs).log) := by
  induction xs generalizing history with
  | nil => exact ⟨trivial, (List.append_nil history).symm ▸ hI⟩
  | cons x rest ih =>
      obtain ⟨hx, hI'⟩ := h x (List.mem_cons_self ..) history hI
      obtain ⟨hrest, hend⟩ := ih (fun x hx => h x (.tail _ hx)) hI'
      refine ⟨follows_bind.mpr ⟨hx, fun _ _ => hrest⟩, ?_⟩
      rw [forEach]
      cases hr : (f x).result with
      | error e =>
          rw [bind_log_error _ hr]
          exact hI'
      | ok u =>
          rw [bind_log_ok _ hr, ← List.append_assoc]
          exact hend

end Traced
end XnuRs
