/-
  XnuRs.Lib.Steps

  Runs of a labelled step relation.

  A run carries the list of its labels, oldest first, so that a property can
  speak of everything that has happened and not only of the state reached
  (`Runs.history`).  Which steps are taken, and in which order,
  is left open: a statement about every run is one about every interleaving.
-/

import Mathlib.Data.List.Induction

namespace XnuRs

variable {σ ℓ : Type} {step : σ → ℓ → σ → Prop}

/-- A run from one state to another, with the labels of its steps. -/
inductive Runs (step : σ → ℓ → σ → Prop) (s : σ) : List ℓ → σ → Prop where
  | start : Runs step s [] s
  | snoc {ls : List ℓ} {s' s'' : σ} {l : ℓ} : Runs step s ls s' → step s' l s'' →
      Runs step s (ls ++ [l]) s''

namespace Runs

variable {s s' s'' : σ} {ls ms : List ℓ}

/-- A property of the history and the state that every step keeps, holds of every run. -/
theorem history {I : List ℓ → σ → Prop} (hstart : I [] s)
    (hstep : ∀ {ls s' l s''}, I ls s' → step s' l s'' → I (ls ++ [l]) s'')
    (h : Runs step s ls s') : I ls s' := by
  induction h with
  | start => exact hstart
  | snoc _ hlast ih => exact hstep ih hlast

/-- A preorder that every step from a good state respects, relates the two ends of a run. -/
theorem related {I : σ → Prop} {r : σ → σ → Prop} (hrefl : ∀ s, r s s)
    (htrans : ∀ {a b c}, r a b → r b c → r a c)
    (hstep : ∀ {s l s'}, I s → step s l s' → I s' ∧ r s s')
    (h : Runs step s ls s') (hstart : I s) : I s' ∧ r s s' := by
  induction h with
  | start => exact ⟨hstart, hrefl s⟩
  | snoc _ hlast ih =>
      obtain ⟨hgood, hrel⟩ := hstep ih.1 hlast
      exact ⟨hgood, htrans ih.2 hrel⟩

theorem append (h : Runs step s ls s') (h' : Runs step s' ms s'') :
    Runs step s (ls ++ ms) s'' := by
  induction h' with
  | start =>
      rw [List.append_nil]
      exact h
  | snoc _ hlast ih =>
      rw [← List.append_assoc]
      exact .snoc ih hlast

/-- A run without steps goes nowhere. -/
theorem of_nil (h : Runs step s [] s') : s' = s := by
  generalize hls : ([] : List ℓ) = all at h
  cases h with
  | start => rfl
  | snoc => simp at hls

/-- A step in front of a run. -/
theorem cons {l : ℓ} (hstep : step s l s') (h : Runs step s' ls s'') : Runs step s (l :: ls) s'' :=
  (Runs.start.snoc hstep).append h

/-- The last step of a run. -/
theorem of_snoc {l : ℓ} (h : Runs step s (ls ++ [l]) s'') :
    ∃ s', Runs step s ls s' ∧ step s' l s'' := by
  generalize hls : ls ++ [l] = all at h
  cases h with
  | start => simp at hls
  | snoc hrun hlast =>
      obtain ⟨rfl, hl⟩ := List.append_inj' hls rfl
      obtain rfl := List.singleton_inj.mp hl
      exact ⟨_, hrun, hlast⟩

/-- The two parts of a run. -/
theorem of_append (h : Runs step s (ls ++ ms) s'') :
    ∃ s', Runs step s ls s' ∧ Runs step s' ms s'' := by
  induction ms using List.reverseRecOn generalizing s'' with
  | nil => exact ⟨s'', List.append_nil ls ▸ h, .start⟩
  | append_singleton ms l ih =>
      rw [← List.append_assoc] at h
      obtain ⟨s₁, hrun, hlast⟩ := h.of_snoc
      obtain ⟨s₂, hfirst, hsecond⟩ := ih hrun
      exact ⟨s₂, hfirst, hsecond.snoc hlast⟩

/-- The first step of a run. -/
theorem of_cons {l : ℓ} (h : Runs step s (l :: ls) s'') :
    ∃ s', step s l s' ∧ Runs step s' ls s'' := by
  have hsplit : Runs step s ([l] ++ ls) s'' := h
  obtain ⟨s₁, hfirst, hrest⟩ := hsplit.of_append
  have hlast : Runs step s ([] ++ [l]) s₁ := hfirst
  obtain ⟨s₀, hnone, hstep⟩ := hlast.of_snoc
  obtain rfl := of_nil hnone
  exact ⟨s₁, hstep, hrest⟩

end Runs
end XnuRs
