/-
  XnuRs.Lib.ReprC

  How a `repr(C)` struct lies in memory: each field at the first multiple of its
  alignment behind the field before it.

  A struct is the list of its fields, their names with their shapes.  What stands
  in the gaps between them is arbitrary.  Whatever it is, each field is read back
  from the bytes of the struct (`window_encode`).
-/

import XnuRs.Lib.ByteFile
import XnuRs.Lib.Memory
import XnuRs.Lib.Span
import XnuRs.Lib.Word

namespace XnuRs.ReprC

variable {φ : Type}

/-- The size and the alignment of a type. -/
structure Shape where
  size : Nat
  align : Nat
  align_pos : 0 < align

/-- The fields of a struct, as they are declared. -/
abbrev Struct (φ : Type) := List (φ × Shape)

/-! ## The layout -/

/-- Where the fields lie, when the ones before them end at `pos`. -/
def layoutFrom (pos : Nat) : Struct φ → List (φ × Span Nat)
  | [] => []
  | field :: rest =>
    let start := roundUp pos field.2.align
    (field.1, ⟨start, start + field.2.size⟩) :: layoutFrom (start + field.2.size) rest

/-- Where the last field ends. -/
def endFrom (pos : Nat) : Struct φ → Nat
  | [] => pos
  | field :: rest => endFrom (roundUp pos field.2.align + field.2.size) rest

/-- The alignment of a struct is the largest one of its fields. -/
def structAlign : Struct φ → Nat
  | [] => 1
  | field :: rest => max field.2.align (structAlign rest)

/-- The size of a struct, a multiple of its alignment. -/
def structSize (s : Struct φ) : Nat := roundUp (endFrom 0 s) (structAlign s)

theorem structAlign_pos (s : Struct φ) : 0 < structAlign s := by
  cases s with
  | nil => exact Nat.zero_lt_one
  | cons field rest => exact lt_max_of_lt_left field.2.align_pos

/-- A struct as the field of another one. -/
def shapeOf (s : Struct φ) : Shape := ⟨structSize s, structAlign s, structAlign_pos s⟩

theorem le_endFrom (pos : Nat) (s : Struct φ) : pos ≤ endFrom pos s := by
  induction s generalizing pos with
  | nil => exact Nat.le_refl pos
  | cons field rest ih =>
      have hround := le_roundUp (n := pos) field.2.align_pos
      have hrest := ih (roundUp pos field.2.align + field.2.size)
      rw [endFrom]
      omega

theorem endFrom_le_structSize (s : Struct φ) : endFrom 0 s ≤ structSize s := le_roundUp (structAlign_pos s)

/-- A field has its shape, and ends before the end of the struct. -/
theorem mem_layoutFrom {pos : Nat} {s : Struct φ} {field : φ × Span Nat}
    (h : field ∈ layoutFrom pos s) :
    ∃ shape, (field.1, shape) ∈ s ∧ field.2.start % shape.align = 0 ∧
      field.2.stop = field.2.start + shape.size ∧ field.2.stop ≤ endFrom pos s := by
  induction s generalizing pos with
  | nil => cases h
  | cons head rest ih =>
      rw [layoutFrom] at h
      rcases List.mem_cons.mp h with rfl | h
      · exact ⟨head.2, List.mem_cons_self .., roundUp_mod .., rfl, le_endFrom ..⟩
      · obtain ⟨shape, hmem, hrest⟩ := ih h
        exact ⟨shape, List.mem_cons_of_mem _ hmem, hrest⟩

/-! ## The bytes of a struct -/

/-- What stands between two positions of a struct that no field takes. -/
def gap (pad : Nat → UInt8) (start stop : Nat) : List UInt8 :=
  (List.range (stop - start)).map fun i => pad (start + i)

/-- The bytes of the fields, each of them behind the gap that its alignment leaves. -/
def encodeFrom (pad : Nat → UInt8) (value : φ → List UInt8) (pos : Nat) : Struct φ → List UInt8
  | [] => []
  | field :: rest =>
    let start := roundUp pos field.2.align
    gap pad pos start ++ (value field.1 ++ encodeFrom pad value (start + field.2.size) rest)

/-- The bytes of a struct. -/
def encode (pad : Nat → UInt8) (value : φ → List UInt8) (s : Struct φ) : List UInt8 :=
  encodeFrom pad value 0 s ++ gap pad (endFrom 0 s) (structSize s)

/-- The values have the sizes of their fields. -/
def Fits (value : φ → List UInt8) (s : Struct φ) : Prop :=
  ∀ field ∈ s, (value field.1).length = field.2.size

variable {pad : Nat → UInt8} {value : φ → List UInt8} {s : Struct φ} {field : φ × Span Nat}

@[simp] theorem gap_length (pad : Nat → UInt8) (start stop : Nat) :
    (gap pad start stop).length = stop - start := by
  simp [gap]

theorem encodeFrom_length (pad : Nat → UInt8) (h : Fits value s) (pos : Nat) :
    pos + (encodeFrom pad value pos s).length = endFrom pos s := by
  induction s generalizing pos with
  | nil => rfl
  | cons field rest ih =>
      obtain ⟨hfield, hrest⟩ := List.forall_mem_cons.mp h
      have hround := le_roundUp (n := pos) field.2.align_pos
      have hlen := ih hrest (roundUp pos field.2.align + field.2.size)
      rw [encodeFrom, endFrom, ← hlen, List.length_append, List.length_append, gap_length, hfield]
      omega

theorem encode_length (h : Fits value s) : (encode pad value s).length = structSize s := by
  have hlen := encodeFrom_length pad h 0
  have hle := endFrom_le_structSize s
  rw [encode, List.length_append, gap_length]
  omega

/-- The fields behind `pre`, whatever stands behind them. -/
theorem window_encodeFrom (h : Fits value s) {pos : Nat} (hfield : field ∈ layoutFrom pos s)
    (pre post : List UInt8) (hpre : pre.length = pos) :
    window (pre ++ (encodeFrom pad value pos s ++ post)) field.2.start
      (field.2.stop - field.2.start) = value field.1 := by
  induction s generalizing pos pre with
  | nil => cases hfield
  | cons head rest ih =>
      obtain ⟨hhead, hrest⟩ := List.forall_mem_cons.mp h
      have hround := le_roundUp (n := pos) head.2.align_pos
      have hgap : (pre ++ gap pad pos (roundUp pos head.2.align)).length =
          roundUp pos head.2.align := by
        rw [List.length_append, gap_length]
        omega
      rw [layoutFrom] at hfield
      rw [encodeFrom]
      rcases List.mem_cons.mp hfield with rfl | hfield
      · refine slice_of_eq (pre ++ gap pad pos (roundUp pos head.2.align)) _
          (encodeFrom pad value (roundUp pos head.2.align + head.2.size) rest ++ post) ?_
          hgap.symm ?_
        · simp only [List.append_assoc]
        · rw [hhead]
          exact Nat.add_sub_cancel_left ..
      · -- the field before and its gap join what stands in front
        have hnext := ih hrest hfield (pre ++ gap pad pos (roundUp pos head.2.align) ++
          value head.1) (by rw [List.length_append, hgap, hhead])
        rw [← hnext]
        simp only [List.append_assoc]

/-- **A field is read back from the bytes of the struct**, whatever stands in the gaps. -/
theorem window_encode (pad : Nat → UInt8) (h : Fits value s) (hfield : field ∈ layoutFrom 0 s) :
    window (encode pad value s) field.2.start (field.2.stop - field.2.start) = value field.1 :=
  window_encodeFrom h hfield [] _ rfl

/-! ## Structs in memory -/

/-- The bytes of the field `name` of the struct at `ptr`. -/
def readField [DecidableEq φ] (s : Struct φ) (m : Memory) (ptr : Nat) (name : φ) : List UInt8 :=
  match (layoutFrom 0 s).find? (·.1 = name) with
  | some field => m.slice (ptr + field.2.start) (field.2.stop - field.2.start)
  | none => []

/-- A declared field has a place in the layout. -/
theorem exists_mem_layoutFrom {name : φ} {shape : Shape} (h : (name, shape) ∈ s) (pos : Nat) :
    ∃ field ∈ layoutFrom pos s, field.1 = name := by
  induction s generalizing pos with
  | nil => cases h
  | cons head rest ih =>
      rw [layoutFrom]
      rcases List.mem_cons.mp h with rfl | h
      · exact ⟨_, List.mem_cons_self .., rfl⟩
      · obtain ⟨field, hmem, hname⟩ := ih h _
        exact ⟨field, List.mem_cons_of_mem _ hmem, hname⟩

/-- A field of a struct that was stored at `ptr` is read back. -/
theorem readField_of_stored [DecidableEq φ] (h : Fits value s) {m : Memory} {ptr : Nat}
    (hstored : m.slice ptr (structSize s) = encode pad value s) {name : φ} {shape : Shape}
    (hname : (name, shape) ∈ s) : readField s m ptr name = value name := by
  obtain ⟨field, hmem, hfield⟩ := exists_mem_layoutFrom hname 0
  rw [readField]
  cases hfind : (layoutFrom 0 s).find? (·.1 = name) with
  | none => exact absurd hfield (by simpa using List.find?_eq_none.mp hfind field hmem)
  | some found =>
      have hfound := List.mem_of_find?_eq_some hfind
      have hsame : found.1 = name := by simpa using List.find?_some hfind
      obtain ⟨shape', -, -, hstop, hend⟩ := mem_layoutFrom hfound
      have hle := endFrom_le_structSize s
      have hwindow := window_encode pad h hfound
      rw [← hstored, window, Memory.window_slice (by omega), hsame] at hwindow
      exact hwindow

end XnuRs.ReprC
