/-
  XnuRs.Lib.Simulation

  Forward simulations between two labelled step relations.

  Each step of the lower system is matched by a run of the upper one, of no
  steps or of many.  The labels of that run are given by the label of the lower
  step (`Simulates`), or only what is seen of them is (`SimulatesSeen`).
  `Simulates.run` and `SimulatesSeen.run` lift this to runs.
-/

import XnuRs.Lib.Steps

namespace XnuRs

variable {σ ℓ σ' ℓ' : Type} {step : σ → ℓ → σ → Prop} {step' : σ' → ℓ' → σ' → Prop}
  {f : ℓ → List ℓ'} {R : σ → σ' → Prop}

/-- The upper system matches each step of the lower one: `f` gives the labels it takes, and
    `R` relates the states. -/
def Simulates (step : σ → ℓ → σ → Prop) (step' : σ' → ℓ' → σ' → Prop) (f : ℓ → List ℓ')
    (R : σ → σ' → Prop) : Prop :=
  ∀ s l s₁ a, step s l s₁ → R s a → ∃ a₁, Runs step' a (f l) a₁ ∧ R s₁ a₁

namespace Simulates

/-- A simulation lifts to runs. -/
theorem run (h : Simulates step step' f R) {s s' : σ} {a : σ'} {ls : List ℓ}
    (hrun : Runs step s ls s') (hR : R s a) :
    ∃ a', Runs step' a (ls.flatMap f) a' ∧ R s' a' := by
  induction hrun with
  | start => exact ⟨a, .start, hR⟩
  | snoc _ hlast ih =>
      obtain ⟨a₁, hbefore, hR₁⟩ := ih
      obtain ⟨a₂, hafter, hR₂⟩ := h _ _ _ _ hlast hR₁
      refine ⟨a₂, ?_, hR₂⟩
      rw [List.flatMap_append, List.flatMap_singleton]
      exact hbefore.append hafter

end Simulates

/-- The upper system matches each step of the lower one by steps of which the same is seen. -/
def SimulatesSeen {ο : Type} (step : σ → ℓ → σ → Prop) (step' : σ' → ℓ' → σ' → Prop)
    (seen : ℓ → Option ο) (seen' : ℓ' → Option ο) (R : σ → σ' → Prop) : Prop :=
  ∀ s l s₁ a, step s l s₁ → R s a →
    ∃ ls a₁, Runs step' a ls a₁ ∧ ls.filterMap seen' = (seen l).toList ∧ R s₁ a₁

/-- Of a run of the upper system the same is seen as of the one it matches. -/
theorem SimulatesSeen.run {ο : Type} {seen : ℓ → Option ο} {seen' : ℓ' → Option ο}
    (h : SimulatesSeen step step' seen seen' R) {s s' : σ} {a : σ'} {ls : List ℓ}
    (hrun : Runs step s ls s') (hR : R s a) :
    ∃ ls' a', Runs step' a ls' a' ∧ ls'.filterMap seen' = ls.filterMap seen ∧ R s' a' := by
  induction hrun with
  | start => exact ⟨[], a, .start, rfl, hR⟩
  | @snoc ls _ _ l _ hlast ih =>
      obtain ⟨before, a₁, hbefore, hseen, hR₁⟩ := ih
      obtain ⟨after, a₂, hafter, hlastSeen, hR₂⟩ := h _ _ _ _ hlast hR₁
      refine ⟨before ++ after, a₂, hbefore.append hafter, ?_, hR₂⟩
      rw [List.filterMap_append, List.filterMap_append, hseen, hlastSeen]
      cases hl : seen l with
      | none => rw [List.filterMap_cons_none hl]; rfl
      | some o => rw [List.filterMap_cons_some hl]; rfl

end XnuRs
