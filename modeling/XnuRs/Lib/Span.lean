/-
  XnuRs.Lib.Span

  Half-open spans of a linear order, and the merging of a sorted list of them.

  `mergeInto` is one round of the usual loop: a span that starts inside the last
  one so far, or right behind it, extends that one, and any other span is
  appended.  `mergeFrom` is the same loop as a recursion on its input.  Merging
  keeps the union: seen through any monotone map `f`, a point is covered by the
  merged spans exactly when it is covered by the spans that went in.

  The merged spans are separated, each from the next by a gap, and nonempty
  separated spans are determined by their union (`Separated.eq_of_covered`).  So
  the result of merging depends on the union alone, and not on the order or the
  number of the spans that went in.
-/

import Mathlib.Order.MinMax

namespace XnuRs

/-- The points from `start` up to, not including, `stop`. -/
structure Span (α : Type) where
  start : α
  stop : α
deriving DecidableEq, Repr

namespace Span

variable {α β : Type}

/-- Seen through `f`, the point `x` lies in the span. -/
def Covers [LE β] [LT β] (f : α → β) (s : Span α) (x : β) : Prop := f s.start ≤ x ∧ x < f s.stop

theorem covers_id {s : Span Nat} {x : Nat} : s.Covers id x ↔ s.start ≤ x ∧ x < s.stop := Iff.rfl

/-- Seen through `f`, the point `x` lies in one of the spans. -/
def Covered [LE β] [LT β] (f : α → β) (l : List (Span α)) (x : β) : Prop := ∃ s ∈ l, s.Covers f x

theorem covered_cons [LE β] [LT β] {f : α → β} {s : Span α} {l : List (Span α)} {x : β} :
    Covered f (s :: l) x ↔ s.Covers f x ∨ Covered f l x := by
  simp [Covered]

variable [LinearOrder α] [LinearOrder β]

/-- Add a span behind the spans merged so far. -/
def mergeInto (merged : List (Span α)) (s : Span α) : List (Span α) :=
  match merged.getLast? with
  | some last =>
    if s.start ≤ last.stop then merged.dropLast ++ [{ last with stop := max last.stop s.stop }]
    else merged ++ [s]
  | none => merged ++ [s]

/-- Merge a list of spans, sorted by their start. -/
def merge (l : List (Span α)) : List (Span α) := l.foldl mergeInto []

/-- Merge a list of spans behind the span `current`. -/
def mergeFrom (current : Span α) : List (Span α) → List (Span α)
  | [] => [current]
  | s :: rest =>
    if s.start ≤ current.stop then
      mergeFrom { current with stop := max current.stop s.stop } rest
    else current :: mergeFrom s rest

theorem mergeInto_append (before : List (Span α)) (current s : Span α) :
    mergeInto (before ++ [current]) s =
      if s.start ≤ current.stop then
        before ++ [{ current with stop := max current.stop s.stop }]
      else before ++ [current, s] := by
  rw [mergeInto, List.getLast?_concat]
  simp only [List.dropLast_concat, List.append_assoc, List.singleton_append]

/-- The loop behind the spans `before`, whose last one is `current`. -/
theorem foldl_mergeInto (before : List (Span α)) (current : Span α) (l : List (Span α)) :
    l.foldl mergeInto (before ++ [current]) = before ++ mergeFrom current l := by
  induction l generalizing before current with
  | nil => rfl
  | cons s rest ih =>
      rw [List.foldl_cons, mergeInto_append, mergeFrom]
      split
      · rw [ih]
      · have hsplit : before ++ [current, s] = before ++ [current] ++ [s] := by simp
        rw [hsplit, ih, List.append_assoc, List.singleton_append]

theorem merge_nil : merge ([] : List (Span α)) = [] := rfl

theorem merge_cons (s : Span α) (rest : List (Span α)) : merge (s :: rest) = mergeFrom s rest := by
  have hfold := foldl_mergeInto [] s rest
  rwa [List.nil_append] at hfold

/-! ## Merging keeps the union -/

/-- Joining two spans that touch: no point is gained between them. -/
theorem covers_join {f : α → β} (hf : Monotone f) {s t : Span α} {x : β}
    (hstart : s.start ≤ t.start) (htouch : t.start ≤ s.stop) :
    ({ s with stop := max s.stop t.stop } : Span α).Covers f x ↔
      s.Covers f x ∨ t.Covers f x := by
  have hle := hf hstart
  have hmid := hf htouch
  simp only [Covers, hf.map_max]
  constructor
  · rintro ⟨hx, hlt⟩
    rcases lt_or_ge x (f s.stop) with h | h
    · exact .inl ⟨hx, h⟩
    · -- past the first span, so inside the second
      rcases lt_max_iff.mp hlt with h' | h'
      · exact absurd h' (not_lt.mpr h)
      · exact .inr ⟨hmid.trans h, h'⟩
  · rintro (⟨hx, hlt⟩ | ⟨hx, hlt⟩)
    · exact ⟨hx, lt_max_of_lt_left hlt⟩
    · exact ⟨hle.trans hx, lt_max_of_lt_right hlt⟩

theorem covered_mergeFrom {f : α → β} (hf : Monotone f) {current : Span α}
    {l : List (Span α)} {x : β} (hsorted : (current :: l).Pairwise fun s t => s.start ≤ t.start) :
    Covered f (mergeFrom current l) x ↔ current.Covers f x ∨ Covered f l x := by
  induction l generalizing current with
  | nil => simp [mergeFrom, Covered]
  | cons s rest ih =>
      obtain ⟨hcurrent, hrest⟩ := List.pairwise_cons.mp hsorted
      obtain ⟨hs, htail⟩ := List.pairwise_cons.mp hrest
      have hstart := hcurrent s (List.mem_cons_self ..)
      rw [mergeFrom, covered_cons]
      split
      -- the next span touches: it is joined, and both are covered
      · rename_i htouch
        rw [ih, covers_join hf hstart htouch, or_assoc]
        exact List.pairwise_cons.mpr ⟨fun t ht => hcurrent t (List.mem_cons_of_mem _ ht), htail⟩
      · rw [covered_cons, ih (List.pairwise_cons.mpr ⟨hs, htail⟩)]

/-- **Merging keeps the union.** -/
theorem covered_merge {f : α → β} (hf : Monotone f) {l : List (Span α)} {x : β}
    (hsorted : l.Pairwise fun s t => s.start ≤ t.start) :
    Covered f (merge l) x ↔ Covered f l x := by
  cases l with
  | nil => rw [merge_nil]
  | cons s rest => rw [merge_cons, covered_mergeFrom hf hsorted, covered_cons]

/-- What joining keeps of two spans, merging keeps of all. -/
theorem mem_mergeFrom {P : Span α → Prop}
    (hjoin : ∀ s t, P s → P t → P { s with stop := max s.stop t.stop })
    {current : Span α} {l : List (Span α)} (hcurrent : P current) (hl : ∀ s ∈ l, P s) :
    ∀ s ∈ mergeFrom current l, P s := by
  induction l generalizing current with
  | nil => simpa [mergeFrom] using hcurrent
  | cons s rest ih =>
      obtain ⟨hs, hrest⟩ := List.forall_mem_cons.mp hl
      rw [mergeFrom]
      split
      · exact ih (hjoin current s hcurrent hs) hrest
      · exact List.forall_mem_cons.mpr ⟨hcurrent, ih hs hrest⟩

theorem mem_merge {P : Span α → Prop}
    (hjoin : ∀ s t, P s → P t → P { s with stop := max s.stop t.stop })
    {l : List (Span α)} (hl : ∀ s ∈ l, P s) : ∀ s ∈ merge l, P s := by
  cases l with
  | nil => simp [merge_nil]
  | cons s rest =>
      rw [merge_cons]
      obtain ⟨hs, hrest⟩ := List.forall_mem_cons.mp hl
      exact mem_mergeFrom hjoin hs hrest

/-! ## Merged spans are separated -/

/-- Every span ends before the next ones start. -/
def Separated (l : List (Span α)) : Prop := l.Pairwise fun s t => s.stop < t.start

theorem le_start_of_mem_mergeFrom {current : Span α} {l : List (Span α)}
    (hsorted : (current :: l).Pairwise fun s t => s.start ≤ t.start) :
    ∀ t ∈ mergeFrom current l, current.start ≤ t.start := by
  induction l generalizing current with
  | nil =>
      intro t ht
      rw [List.mem_singleton.mp ht]
  | cons s rest ih =>
      obtain ⟨hcurrent, hrest⟩ := List.pairwise_cons.mp hsorted
      obtain ⟨hs, htail⟩ := List.pairwise_cons.mp hrest
      rw [mergeFrom]
      split
      · exact ih (List.pairwise_cons.mpr
          ⟨fun t ht => hcurrent t (List.mem_cons_of_mem _ ht), htail⟩)
      · refine List.forall_mem_cons.mpr ⟨le_refl _, fun t ht => ?_⟩
        exact (hcurrent s (List.mem_cons_self ..)).trans (ih hrest t ht)

theorem separated_mergeFrom {current : Span α} {l : List (Span α)}
    (hsorted : (current :: l).Pairwise fun s t => s.start ≤ t.start) :
    Separated (mergeFrom current l) := by
  induction l generalizing current with
  | nil => exact List.pairwise_singleton ..
  | cons s rest ih =>
      obtain ⟨hcurrent, hrest⟩ := List.pairwise_cons.mp hsorted
      obtain ⟨hs, htail⟩ := List.pairwise_cons.mp hrest
      rw [mergeFrom]
      split
      · exact ih (List.pairwise_cons.mpr
          ⟨fun t ht => hcurrent t (List.mem_cons_of_mem _ ht), htail⟩)
      · rename_i hgap
        refine List.pairwise_cons.mpr ⟨fun t ht => ?_, ih hrest⟩
        -- what comes behind the gap starts with `s` or later
        exact lt_of_lt_of_le (not_le.mp hgap) (le_start_of_mem_mergeFrom hrest t ht)

/-- **Merging leaves gaps.** -/
theorem separated_merge {l : List (Span α)}
    (hsorted : l.Pairwise fun s t => s.start ≤ t.start) : Separated (merge l) := by
  cases l with
  | nil => exact .nil
  | cons s rest =>
      rw [merge_cons]
      exact separated_mergeFrom hsorted

/-! ## Separated spans are determined by their union -/

/-- The span has a point. -/
def Nonempty (s : Span α) : Prop := s.start < s.stop

theorem Nonempty.covers_start {f : α → β} (hf : StrictMono f) {s : Span α} (h : s.Nonempty) :
    s.Covers f (f s.start) := ⟨le_refl _, hf h⟩

/-- No point up to the end of the first span lies in a later one. -/
theorem Separated.lt_of_covered {f : α → β} (hf : StrictMono f) {s : Span α} {l : List (Span α)}
    (h : Separated (s :: l)) {x : β} (hx : Covered f l x) : f s.stop < x := by
  obtain ⟨t, ht, hle, -⟩ := hx
  exact lt_of_lt_of_le (hf ((List.pairwise_cons.mp h).1 t ht)) hle

/-- The first span of a separated list starts at the first point. -/
theorem Separated.start_le {f : α → β} (hf : StrictMono f) {s : Span α} {l : List (Span α)}
    (h : Separated (s :: l)) (hs : s.Nonempty) {x : β} (hx : Covered f (s :: l) x) :
    f s.start ≤ x := by
  rcases covered_cons.mp hx with hfirst | hlater
  · exact hfirst.1
  · exact ((hf hs).trans (h.lt_of_covered hf hlater)).le

/-- It ends at the first point that is not covered. -/
theorem Separated.stop_le {f : α → β} (hf : StrictMono f) {s t : Span α} {l l' : List (Span α)}
    (hl : Separated (s :: l)) (hs : s.Nonempty) (hstart : t.start = s.start)
    (h : ∀ x, Covered f (t :: l') x → Covered f (s :: l) x) : t.stop ≤ s.stop := by
  by_contra hlong
  have hstop : Covered f (t :: l') (f s.stop) := by
    refine covered_cons.mpr (.inl ⟨?_, hf (not_le.mp hlong)⟩)
    rw [hstart]
    exact (hf hs).le
  -- the end of `s` is outside `s`, and before every later span
  rcases covered_cons.mp (h _ hstop) with hfirst | hlater
  · exact lt_irrefl _ hfirst.2
  · exact lt_irrefl _ (hl.lt_of_covered hf hlater)

/-- **Separated lists of nonempty spans with the same points are the same list.** -/
theorem Separated.eq_of_covered {f : α → β} (hf : StrictMono f) {l l' : List (Span α)}
    (hl : Separated l) (hl' : Separated l') (hne : ∀ s ∈ l, s.Nonempty)
    (hne' : ∀ s ∈ l', s.Nonempty) (h : ∀ x, Covered f l x ↔ Covered f l' x) : l = l' := by
  induction l generalizing l' with
  | nil =>
      cases l' with
      | nil => rfl
      | cons t l' =>
          have ht := (hne' t (List.mem_cons_self ..)).covers_start hf
          exact absurd ((h _).mpr (covered_cons.mpr (.inl ht))) (by simp [Covered])
  | cons s l ih =>
      cases l' with
      | nil =>
          have hs := (hne s (List.mem_cons_self ..)).covers_start hf
          exact absurd ((h _).mp (covered_cons.mpr (.inl hs))) (by simp [Covered])
      | cons t l' =>
          obtain ⟨hs, hrest⟩ := List.forall_mem_cons.mp hne
          obtain ⟨ht, hrest'⟩ := List.forall_mem_cons.mp hne'
          have hstart : s.start = t.start := by
            apply le_antisymm
            · have hcovered := (h _).mpr (covered_cons.mpr (.inl (ht.covers_start hf)))
              exact hf.le_iff_le.mp (hl.start_le hf hs hcovered)
            · have hcovered := (h _).mp (covered_cons.mpr (.inl (hs.covers_start hf)))
              exact hf.le_iff_le.mp (hl'.start_le hf ht hcovered)
          have hstop : s.stop = t.stop := by
            apply le_antisymm
            · exact hl'.stop_le hf ht hstart fun x => (h x).mp
            · exact hl.stop_le hf hs hstart.symm fun x => (h x).mpr
          have hst : s = t := by
            cases s
            cases t
            congr
          subst hst
          -- without the first span, what is covered lies behind it
          have htail : ∀ x, Covered f l x ↔ Covered f l' x := by
            intro x
            constructor
            · intro hx
              rcases covered_cons.mp ((h x).mp (covered_cons.mpr (.inr hx))) with hin | hx'
              · exact absurd (hl.lt_of_covered hf hx) (not_lt.mpr hin.2.le)
              · exact hx'
            · intro hx
              rcases covered_cons.mp ((h x).mpr (covered_cons.mpr (.inr hx))) with hin | hx'
              · exact absurd (hl'.lt_of_covered hf hx) (not_lt.mpr hin.2.le)
              · exact hx'
          rw [ih (List.pairwise_cons.mp hl).2 (List.pairwise_cons.mp hl').2 hrest hrest' htail]

end Span
end XnuRs
