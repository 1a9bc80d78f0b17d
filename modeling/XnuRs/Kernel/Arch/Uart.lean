/-
  XnuRs.Kernel.Arch.Uart

  The serial console (kernel/src/arch/aarch64/uart.rs): the bytes that a print
  sends to the data register of the UART, in order.

  Numbers are printed in a fixed width, so whoever reads the console finds the
  number again, and the text behind it (`readHexU64_hexBytes`).
-/

import XnuRs.Kernel.DeviceTree
import Mathlib.Tactic.Ring

namespace XnuRs.Kernel

/-! ## The bytes of a print -/

/-- The digit of a nibble. -/
def hexDigit (nibble : UInt8) : UInt8 := if nibble < 10 then 48 + nibble else 97 + (nibble - 10)

/-- `(0..64).step_by(4).rev()`. -/
def hexShifts : List Nat := ((List.range 16).map (4 * ·)).reverse

/-- The bytes of `write_hex_u64`. -/
def hexBytes (value : Nat) : List UInt8 :=
  asBytes "0x" ++ hexShifts.map fun shift => hexDigit (.ofNat (value >>> shift &&& 0xf))

/-- The bytes a print writes, each of them by `write_byte`. -/
def UartOp.bytes : UartOp → List UInt8
  | .str message => asBytes message
  | .hexU64 value => hexBytes value
  | .byte value => [value]

/-- The bytes that a list of prints writes. -/
def consoleBytes (ops : List UartOp) : List UInt8 := ops.flatMap UartOp.bytes

@[simp] theorem consoleBytes_nil : consoleBytes [] = [] := rfl

@[simp] theorem consoleBytes_cons (op : UartOp) (ops : List UartOp) :
    consoleBytes (op :: ops) = op.bytes ++ consoleBytes ops := rfl

theorem consoleBytes_append (ops ops' : List UartOp) :
    consoleBytes (ops ++ ops') = consoleBytes ops ++ consoleBytes ops' := List.flatMap_append

/-- Bytes printed one by one. -/
theorem consoleBytes_map_byte (bytes : List UInt8) :
    consoleBytes (bytes.map .byte) = bytes := by
  induction bytes with
  | nil => rfl
  | cons b rest ih => rw [List.map_cons, consoleBytes_cons, ih, UartOp.bytes, List.singleton_append]

/-! ## Reading the console -/

/-- The value of a digit. -/
def hexValue (digit : UInt8) : Option Nat :=
  if 48 ≤ digit ∧ digit < 58 then some (digit.toNat - 48)
  else if 97 ≤ digit ∧ digit < 103 then some (digit.toNat - 87)
  else none

/-- The number that a list of digits spells, behind the number read so far. -/
def readDigits (value : Nat) : List UInt8 → Option Nat
  | [] => some value
  | digit :: rest => do
    let d ← hexValue digit
    readDigits (16 * value + d) rest

/-- A number at the start of a text, and what follows it. -/
def readHexU64 (text : List UInt8) : Option (Nat × List UInt8) :=
  match text with
  | 48 :: 120 :: digits => do
    let value ← readDigits 0 (digits.take 16)
    if digits.length < 16 then none else some (value, digits.drop 16)
  | _ => none

theorem hexValue_hexDigit {d : Nat} (h : d < 16) : hexValue (hexDigit (.ofNat d)) = some d := by
  revert d
  decide

/-- The digits of a number, the highest first, spell what is left of it modulo their count. -/
theorem readDigits_shifts (value acc w : Nat) :
    readDigits acc (((List.range w).map (4 * ·)).reverse.map fun shift =>
      hexDigit (.ofNat (value >>> shift &&& 0xf))) = some (16 ^ w * acc + value % 16 ^ w) := by
  induction w generalizing acc with
  | zero => simp [readDigits, Nat.mod_one]
  | succ w ih =>
      have hdigit : value >>> (4 * w) &&& 0xf = value / 16 ^ w % 16 := by
        rw [show (0xf : Nat) = 2 ^ 4 - 1 from rfl, Nat.and_two_pow_sub_one_eq_mod,
          Nat.shiftRight_eq_div_pow, Nat.pow_mul]
      have hlt : value / 16 ^ w % 16 < 16 := Nat.mod_lt _ (by decide)
      -- the first digit is the highest one
      rw [List.range_succ, List.map_append, List.reverse_append, List.map_append, List.map_cons,
        List.map_nil, List.reverse_singleton, List.map_singleton, List.singleton_append, readDigits,
        hdigit, hexValue_hexDigit hlt]
      show readDigits (16 * acc + value / 16 ^ w % 16) _ = _
      rw [ih, Nat.pow_succ, Nat.mod_mul]
      congr 1
      ring

/-- **A printed number can be read back**, whatever is printed behind it. -/
theorem readHexU64_hexBytes (value : UInt64) (rest : List UInt8) :
    readHexU64 (hexBytes value.toNat ++ rest) = some (value.toNat, rest) := by
  have hvalue := value.toNat_lt
  generalize value.toNat = value at hvalue
  have hprefix : asBytes "0x" = [48, 120] := by decide +kernel
  have hlen : (hexShifts.map fun shift =>
      hexDigit (.ofNat (value >>> shift &&& 0xf))).length = 16 := by
    simp [hexShifts]
  have hdigits := readDigits_shifts value 0 16
  rw [hexBytes, hprefix, List.append_assoc]
  generalize hds : hexShifts.map (fun shift => hexDigit (.ofNat (value >>> shift &&& 0xf))) = ds
    at hlen
  rw [← hexShifts, hds] at hdigits
  show (readDigits 0 ((ds ++ rest).take 16) >>= fun value =>
    if (ds ++ rest).length < 16 then none else some (value, (ds ++ rest).drop 16)) = _
  rw [List.take_left' hlen, hdigits, List.drop_left' hlen, List.length_append]
  simp only [Option.bind_eq_bind, Option.bind_some]
  rw [if_neg (by omega), Nat.mod_eq_of_lt (by simpa using hvalue)]
  simp

end XnuRs.Kernel
