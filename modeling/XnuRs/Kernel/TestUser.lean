/-
  XnuRs.Kernel.TestUser

  The user program that is built into the kernel (kernel/src/main.rs:
  `make_test_macho`).
-/

import XnuRs.Kernel.Exec.LoaderFacts
import XnuRs.Lib.A64

namespace XnuRs.Kernel

/-- Assignments to the bytes of a buffer from `offset` on. -/
def assign (buf : List UInt8) (offset : Nat) (bytes : List UInt8) : List UInt8 :=
  buf.take offset ++ bytes ++ buf.drop (offset + bytes.length)

/-- `make_test_macho`. -/
def makeTestMacho : List UInt8 :=
  let buf := List.replicate 0x1030 0
  -- the header: `MH_MAGIC_64`, `CPU_TYPE_ARM64`, `MH_EXECUTE`, `ncmds` and `sizeofcmds`
  let buf := assign buf 0 [0xCF, 0xFA, 0xED, 0xFE]
  let buf := assign buf 4 [0x0C, 0x00, 0x00, 0x01]
  let buf := assign buf 12 [0x02]
  let buf := assign buf 16 [0x02]
  let buf := assign buf 20 [0x60]
  -- `LC_SEGMENT_64` of `__TEXT`
  let buf := assign buf 32 [0x19]
  let buf := assign buf 36 [0x48]
  let buf := assign buf 40 [0x5F, 0x5F, 0x54, 0x45, 0x58, 0x54]
  let buf := assign buf 56 [0x00, 0x00, 0x00, 0x00, 0x01, 0x00, 0x00, 0x00]
  let buf := assign buf 64 [0x00, 0x10]
  let buf := assign buf 72 [0x00, 0x10]
  let buf := assign buf 80 [0x30]
  let buf := assign buf 88 [0x05]
  let buf := assign buf 92 [0x05]
  -- `LC_MAIN`
  let buf := assign buf 104 [0x28, 0x00, 0x00, 0x80]
  let buf := assign buf 108 [0x18]
  let buf := assign buf 112 [0x00, 0x10]
  -- the code
  let buf := assign buf 0x1000 [0x01, 0x01, 0x00, 0x10]
  let buf := assign buf 0x1004 [0x20, 0x00, 0x80, 0xD2]
  let buf := assign buf 0x1008 [0x02, 0x02, 0x80, 0xD2]
  let buf := assign buf 0x100C [0x90, 0x00, 0x80, 0xD2]
  let buf := assign buf 0x1010 [0x01, 0x10, 0x00, 0xD4]
  let buf := assign buf 0x1014 [0x40, 0x05, 0x80, 0xD2]
  let buf := assign buf 0x1018 [0x30, 0x00, 0x80, 0xD2]
  let buf := assign buf 0x101C [0x01, 0x10, 0x00, 0xD4]
  -- the message
  assign buf 0x1020 [0x48, 0x65, 0x6C, 0x6C, 0x6F, 0x20, 0x66, 0x72, 0x6F, 0x6D, 0x20, 0x45, 0x4C,
    0x30, 0x21, 0x0A]

/-- `TEST_USER_MACHO`. -/
def testUserMacho : List UInt8 := makeTestMacho

/-- The program, as its comments have it. -/
def testProgram : List A64.Instr := [
  .adr 1 32,
  .movz 0 1 0,
  .movz 2 16 0,
  .movz 16 4 0,
  .svc 0x80,
  .movz 0 42 0,
  .movz 16 1 0,
  .svc 0x80]

/-- What the program writes. -/
def testMessage : List UInt8 := asBytes "Hello from EL0!\n"

end XnuRs.Kernel
