/-
  XnuRs.Boot.CacheMaintenance

  The two routines that make freshly written code visible to the instruction
  fetch: the loader's `clean_dcache_invalidate_icache` and the kernel's
  `flush_dcache_invalidate_icache`.

  Both walk over the 64-byte lines of a range twice.  The loader steps with a
  saturating addition and returns on every range.  The kernel's plain `addr +=
  64` has no successor of the last line of the address space, so it returns, and
  issues what the loader issues, exactly on the ranges that end below that line
  (`flushesAlike_iff`).
-/

import XnuRs.Kernel.Exec.Loader
import XnuRs.Loader.ImageFacts

namespace XnuRs.Boot

open XnuRs.Loader (LoadOp cacheLines cleanDcacheInvalidateIcache cleanDcacheInvalidateIcache_eq
  maskDown_line mem_cacheLines)
open XnuRs.Kernel (KernelOp)
open XnuRs.Kernel.Exec (cacheLoop flushDcacheInvalidateIcache)

/-! ## What the routines are for -/

/-- An operation of cache maintenance, whoever issues it. -/
inductive CacheOp where
  | dcCvau (addr : UInt64)
  | icIvau (addr : UInt64)
  | dsbIsh
  | isb
deriving DecidableEq, Repr

/-- The operation as an effect of the loader. -/
def CacheOp.loaderOp : CacheOp → LoadOp
  | .dcCvau addr => .dcCvau addr
  | .icIvau addr => .icIvau addr
  | .dsbIsh => .dsbIsh
  | .isb => .isb

/-- The operation as an effect of the kernel. -/
def CacheOp.kernelOp : CacheOp → KernelOp
  | .dcCvau addr => .dcCvau addr
  | .icIvau addr => .icIvau addr
  | .dsbIsh => .dsbIsh
  | .isb => .isb

/-- Every line is cleaned, then every line is invalidated. -/
def maintenance (lines : List UInt64) : List CacheOp :=
  lines.map .dcCvau ++ (.dsbIsh :: (lines.map .icIvau ++ [.dsbIsh, .isb]))

/-- `lines` are the 64-byte lines that meet `[base, base + len)`, each once and in
    increasing order. -/
structure LinesOf (base len : UInt64) (lines : List UInt64) : Prop where
  increasing : lines.Pairwise (· < ·)
  mem_iff : ∀ line, line ∈ lines ↔ line.toNat % 64 = 0 ∧
    ∃ a, line.toNat ≤ a ∧ a < line.toNat + 64 ∧ base.toNat ≤ a ∧ a < base.toNat + len.toNat

/-- Both routines return, having issued the same sequence: the maintenance of some lines,
    which are those of the range when there is a byte in it. -/
def FlushesAlike (base len : UInt64) : Prop :=
  ∃ lines, (0 < len → LinesOf base len lines) ∧
    cleanDcacheInvalidateIcache base len = ⟨(maintenance lines).map CacheOp.loaderOp, .ok ()⟩ ∧
    flushDcacheInvalidateIcache base len = ⟨(maintenance lines).map CacheOp.kernelOp, .ok ()⟩

/-! ## The lines a loop visits -/

variable {base len addr stop : UInt64}

theorem le_of_mem_cacheLines {line : UInt64} (h : line ∈ cacheLines addr stop) : addr ≤ line := by
  fun_induction cacheLines addr stop with
  | case1 addr hlt ih =>
      rcases List.mem_cons.mp h with rfl | hrest
      · exact le_refl _
      · have hnext := UInt64.le_iff_toNat_le.mp (ih hrest)
        have haddr := addr.toNat_lt
        rw [saturatingAdd_toNat] at hnext
        rw [UInt64.le_iff_toNat_le]
        omega
  | case2 addr hlt => cases h

theorem cacheLines_increasing (addr stop : UInt64) : (cacheLines addr stop).Pairwise (· < ·) := by
  fun_induction cacheLines addr stop with
  | case1 addr hlt ih =>
      refine List.pairwise_cons.mpr ⟨?_, ih⟩
      intro line hline
      -- below the end of the loop the saturating step is a proper one
      have hnext := UInt64.le_iff_toNat_le.mp (le_of_mem_cacheLines hline)
      have hlt := UInt64.lt_iff_toNat_lt.mp hlt
      have hstop := stop.toNat_lt
      rw [saturatingAdd_toNat, show (64 : UInt64).toNat = 64 from rfl] at hnext
      rw [UInt64.lt_iff_toNat_lt]
      omega
  | case2 addr hlt => exact .nil

/-- The first line of a range. -/
theorem firstLine_mod (base : UInt64) : (maskDown base 64).toNat % 64 = 0 := by
  rw [maskDown_line, roundDown_mod]

/-- The lines of a range that holds a byte. -/
theorem linesOf_cacheLines (hlen : 0 < len) (hstop : stop.toNat = base.toNat + len.toNat) :
    LinesOf base len (cacheLines (maskDown base 64) stop) where
  increasing := cacheLines_increasing _ _
  mem_iff line := by
    have hlen := UInt64.lt_iff_toNat_lt.mp hlen
    rw [mem_cacheLines (.inl (firstLine_mod base)), UInt64.le_iff_toNat_le,
      UInt64.lt_iff_toNat_lt, maskDown_line, hstop, roundDown]
    rw [show (0 : UInt64).toNat = 0 from rfl] at hlen
    constructor
    · rintro ⟨hle, hlt, hline⟩
      refine ⟨hline, max base.toNat line.toNat, ?_⟩
      omega
    · rintro ⟨hline, a, hle, hlt, hbase, hend⟩
      omega

/-! ## The kernel's loop -/

theorem cacheLoop_step (op : UInt64 → KernelOp) {next : UInt64} (hlt : addr < stop)
    (hnext : checkedAdd addr 64 = some next) :
    cacheLoop op addr stop = .emit (op addr) >>= fun _ => cacheLoop op next stop := by
  rw [cacheLoop, if_pos hlt]
  congr 1
  funext _
  split
  · rename_i next' hnext'
    rw [hnext'] at hnext
    rw [Option.some.inj hnext]
  · rename_i hnone
    rw [hnone] at hnext
    cases hnext

/-- With an end below the last line, no step overflows. -/
theorem cacheLoop_eq (op : UInt64 → KernelOp) (haddr : addr.toNat % 64 = 0)
    (hstop : stop.toNat ≤ 2 ^ 64 - 64) :
    cacheLoop op addr stop = ⟨(cacheLines addr stop).map op, .ok ()⟩ := by
  fun_induction cacheLines addr stop with
  | case1 addr hlt ih =>
      have hlt' := UInt64.lt_iff_toNat_lt.mp hlt
      have hnext := saturatingAdd_toNat addr 64
      rw [show (64 : UInt64).toNat = 64 from rfl] at hnext
      have hsum : checkedAdd addr 64 = some (saturatingAdd addr 64) := by
        rw [checkedAdd_eq_some, show (64 : UInt64).toNat = 64 from rfl]
        omega
      rw [cacheLoop_step op hlt hsum, ih (by omega)]
      rfl
  | case2 addr hlt =>
      rw [cacheLoop, if_neg hlt]
      rfl

/-- With an end past it, the step from the last line panics. -/
theorem cacheLoop_panics (op : UInt64 → KernelOp) (haddr : addr.toNat % 64 = 0)
    (hlt : addr < stop) (hstop : 2 ^ 64 - 64 < stop.toNat) :
    (cacheLoop op addr stop).result = .panic := by
  fun_induction cacheLoop op addr stop with
  | case1 addr _ ih =>
      rw [Traced.bind_result, Traced.emit_result, Outcome.ok_bind]
      split
      · rename_i next hnext
        have hsum := checkedAdd_eq_some.mp hnext
        have hbound := next.toNat_lt
        rw [show (64 : UInt64).toNat = 64 from rfl] at hsum
        -- the next line starts in the words, so at or below the last line
        refine ih next hnext (by omega) ?_
        rw [UInt64.lt_iff_toNat_lt]
        omega
      · rfl
  | case2 addr hge => exact absurd hlt hge

/-! ## The two routines -/

/-- The loader's routine returns on every range that ends in the words. -/
theorem loader_maintenance (hstop : stop.toNat = base.toNat + len.toNat) :
    cleanDcacheInvalidateIcache base len =
      ⟨(maintenance (cacheLines (maskDown base 64) stop)).map CacheOp.loaderOp, .ok ()⟩ := by
  have hbound := stop.toNat_lt
  have hend : saturatingAdd base len = stop := by
    rw [← UInt64.toNat_inj, saturatingAdd_toNat, hstop]
    omega
  rw [cleanDcacheInvalidateIcache_eq, hend, maintenance]
  simp only [List.map_append, List.map_cons, List.map_nil, List.map_map]
  rfl

/-- The kernel's routine does the same, when the range ends below the last line. -/
theorem kernel_maintenance (hstop : stop.toNat = base.toNat + len.toNat)
    (hbelow : stop.toNat ≤ 2 ^ 64 - 64) :
    flushDcacheInvalidateIcache base len =
      ⟨(maintenance (cacheLines (maskDown base 64) stop)).map CacheOp.kernelOp, .ok ()⟩ := by
  rw [flushDcacheInvalidateIcache, checkedAdd_eq_some.mpr hstop, Outcome.orPanic_some,
    Traced.lift_ok_bind, cacheLoop_eq _ (firstLine_mod base) hbelow,
    cacheLoop_eq _ (firstLine_mod base) hbelow, maintenance]
  simp only [List.map_append, List.map_cons, List.map_nil, List.map_map]
  rfl

/-- It panics when the range ends past the start of the last line. -/
theorem kernel_panics (hstop : stop.toNat = base.toNat + len.toNat)
    (hpast : 2 ^ 64 - 64 < stop.toNat) :
    (flushDcacheInvalidateIcache base len).result = .panic := by
  have hfirst : maskDown base 64 < stop := by
    have hbase := base.toNat_lt
    rw [UInt64.lt_iff_toNat_lt, maskDown_line, roundDown]
    omega
  rw [flushDcacheInvalidateIcache, checkedAdd_eq_some.mpr hstop, Outcome.orPanic_some,
    Traced.lift_ok_bind, Traced.bind_result,
    cacheLoop_panics _ (firstLine_mod base) hfirst hpast]
  rfl

/-- **The two routines agree on the ranges that end below the last line of the address
    space**, and on no other range. -/
theorem flushesAlike_iff (base len : UInt64) (hend : base.toNat + len.toNat ≤ 2 ^ 64 - 1) :
    FlushesAlike base len ↔ base.toNat + len.toNat ≤ 2 ^ 64 - 64 := by
  have hstop : (UInt64.ofNat (base.toNat + len.toNat)).toNat = base.toNat + len.toNat :=
    UInt64.toNat_ofNat_of_lt' (show _ < 2 ^ 64 by omega)
  constructor
  · rintro ⟨lines, -, -, hkernel⟩
    by_contra hpast
    have hpanic := kernel_panics hstop (by omega)
    rw [hkernel] at hpanic
    cases hpanic
  · intro hbelow
    exact ⟨_, fun hlen => linesOf_cacheLines hlen hstop, loader_maintenance hstop,
      kernel_maintenance hstop (by omega)⟩

theorem flushesAlike_iff_page : FlushesAlike 0x40000010 0x1000 ↔
    (0x40000010 : UInt64).toNat + (0x1000 : UInt64).toNat ≤ 2 ^ 64 - 64 :=
  flushesAlike_iff 0x40000010 0x1000 (by decide)

/-- One byte in the last line: the loader cleans and invalidates it, the kernel panics. -/
theorem not_flushesAlike_lastLine :
    (0xFFFFFFFFFFFFFFC0 : UInt64).toNat + (1 : UInt64).toNat ≤ 2 ^ 64 - 1 ∧
      ¬ FlushesAlike 0xFFFFFFFFFFFFFFC0 1 := by
  refine ⟨by decide, ?_⟩
  rintro ⟨lines, -, -, hkernel⟩
  have hpanic := @kernel_panics 0xFFFFFFFFFFFFFFC0 1 0xFFFFFFFFFFFFFFC1 (by decide) (by decide)
  rw [hkernel] at hpanic
  cases hpanic

end XnuRs.Boot
