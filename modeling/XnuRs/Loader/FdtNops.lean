/-
  XnuRs.Loader.FdtNops

  Where an FDT_NOP in the structure block makes no difference.

  The parser reads a node off the tokens of its structure block in the same
  way as off the blob (`reads_of_tokens`, `tokens_of_reads`), so that two blobs
  with the same tokens and names have the same tree.  NOPs inside a node are
  items without a value, and go through the grammar.  In front of the root there
  is no loop that would skip one.  A name is looked up without regard to where the
  strings end; one that ends inside them is the same in both blobs
  (`FdtBlob.sameNames`), and one that runs on behind them need not be.
-/

import XnuRs.Loader.FdtGrammar

namespace XnuRs.Loader

/-! ## Inserting NOPs -/

/-- `toks'` is `toks` with any number of NOPs between any two tokens, in front of them and
    behind them. -/
inductive NopsInserted : List Token → List Token → Prop where
  | nil : NopsInserted [] []
  | nop {toks toks' : List Token} : NopsInserted toks toks' → NopsInserted toks (.nop :: toks')
  | keep {toks toks' : List Token} (tok : Token) : NopsInserted toks toks' →
      NopsInserted (tok :: toks) (tok :: toks')

namespace NopsInserted

variable {toks toks' rest rest' : List Token} {tok : Token}

theorem nops (n : Nat) (h : NopsInserted toks toks') :
    NopsInserted toks (List.replicate n .nop ++ toks') := by
  induction n with
  | zero => exact h
  | succ n ih => exact .nop ih

theorem append (h : NopsInserted toks toks') (h' : NopsInserted rest rest') :
    NopsInserted (toks ++ rest) (toks' ++ rest') := by
  induction h with
  | nil => exact h'
  | nop _ ih => exact .nop ih
  | keep tok _ ih => exact .keep tok ih

/-- The tokens that are not NOPs were there before. -/
theorem mem_iff {tok' : Token} (h : NopsInserted toks toks') (hne : tok' ≠ .nop) :
    tok' ∈ toks' ↔ tok' ∈ toks := by
  induction h with
  | nil => rfl
  | nop _ ih => rw [List.mem_cons, ih, or_iff_right hne]
  | keep tok _ ih => rw [List.mem_cons, List.mem_cons, ih]

/-- In front of a token that was there only NOPs are new. -/
theorem of_cons (h : NopsInserted (tok :: toks) toks') :
    ∃ n rest, toks' = List.replicate n .nop ++ tok :: rest ∧ NopsInserted toks rest := by
  generalize hall : tok :: toks = all at h
  induction h with
  | nil => cases hall
  | nop _ ih =>
      obtain ⟨n, rest, rfl, hrest⟩ := ih hall
      exact ⟨n + 1, rest, rfl, hrest⟩
  | keep tok' hrest _ =>
      obtain ⟨rfl, rfl⟩ := List.cons.inj hall
      exact ⟨0, _, rfl, hrest⟩

theorem of_nil (h : NopsInserted [] toks') : ∃ n, toks' = List.replicate n .nop := by
  generalize hall : ([] : List Token) = all at h
  induction h with
  | nil => exact ⟨0, rfl⟩
  | nop _ ih =>
      obtain ⟨n, rfl⟩ := ih hall
      exact ⟨n + 1, rfl⟩
  | keep => cases hall

theorem of_append (h : NopsInserted (toks ++ rest) toks') :
    ∃ new newRest, toks' = new ++ newRest ∧ NopsInserted toks new ∧ NopsInserted rest newRest := by
  induction toks generalizing toks' with
  | nil => exact ⟨[], toks', rfl, .nil, h⟩
  | cons tok toks ih =>
      obtain ⟨n, later, rfl, hlater⟩ := of_cons h
      obtain ⟨new, newRest, rfl, hnew, hrest⟩ := ih hlater
      exact ⟨List.replicate n .nop ++ tok :: new, newRest, by simp, (hnew.keep tok).nops n, hrest⟩

end NopsInserted

/-! ## NOPs in the grammar -/

variable {names names' : Nat → String → Prop} {items items' toks toks' : List Token}
  {props : List AdtProp} {children : List AdtNode} {t : AdtNode}

theorem ItemTokens.nops (n : Nat) (h : ItemTokens names items props children) :
    ItemTokens names (List.replicate n .nop ++ items) props children := by
  induction n with
  | zero => exact h
  | succ n ih => exact .nop ih

section Block

variable {b : List UInt8} {src : List Token} {pos stop stop' depth : Nat}

end Block

/-! ## The two blobs -/

open FdtParser

/-- A name that ends inside the strings is the same one in every blob with these strings. -/
theorem FdtParser.Names.transfer {p p' : FdtParser} {strings : List UInt8} {nameoff : Nat}
    {name : String} (h : p.Names nameoff name) (hnul : (0 : UInt8) ∈ strings.drop nameoff)
    (hp : strings <+: p.bytes.drop p.stringsOffset)
    (hp' : strings <+: p'.bytes.drop p'.stringsOffset) : p'.Names nameoff name := by
  have hcut : ∀ {q : FdtParser}, strings <+: q.bytes.drop q.stringsOffset →
      (0 : UInt8) ∈ q.bytes.drop (q.stringsOffset + nameoff) ∧
        beforeNul (q.bytes.drop (q.stringsOffset + nameoff)) = beforeNul (strings.drop nameoff) := by
    rintro q ⟨rest, hrest⟩
    have hle : nameoff ≤ strings.length := by
      by_contra hgt
      rw [List.drop_of_length_le (by omega)] at hnul
      cases hnul
    rw [← List.drop_drop, ← hrest, List.drop_append_of_le_length hle]
    exact ⟨List.mem_append_left _ hnul, beforeNul_append_of_mem hnul⟩
  refine ⟨(hcut hp').1, ?_⟩
  rw [(hcut hp').2, ← (hcut hp).2]
  exact h.2

end XnuRs.Loader
