/-
  XnuRs.Boot.Console

  From the firmware's device tree to the console of the kernel.

  The loader reads the flattened tree of the firmware, or makes one up, and
  leaves its own form of it in memory; the kernel finds it there and prints it
  line by line (`kernel_prints_tree`).
-/

import XnuRs.Boot.JumpMemory
import XnuRs.DeviceTree.Dump

namespace XnuRs.Boot

open XnuRs.Loader XnuRs.Macho XnuRs.DeviceTree
open XnuRs.Kernel hiding AppleDeviceTree

/-! ## The device tree of the firmware -/

theorem wordAt_take {b : List UInt8} {pos n : Nat} (h : pos + 4 ≤ n) :
    FdtParser.wordAt (b.take n) pos = FdtParser.wordAt b pos := by
  rw [FdtParser.wordAt, FdtParser.wordAt, List.drop_take, List.take_take, Nat.min_eq_left (by omega)]

/-- A table that points at a flattened tree gives the loader its blob. -/
theorem fdtAt_of_flattens {memory : Memory} {table : ConfigTable} {t : DtNode}
    {totalsize offStruct offStrings : Nat} (hguid : table.guid = efiDtbTableGuid)
    (haddress : table.address ≠ 0) (hlong : 40 ≤ totalsize)
    (h : Flattens t (memory.slice table.address totalsize) totalsize offStruct offStrings) :
    fdtAt memory table = .ok (memory.slice table.address totalsize) := by
  obtain ⟨rest, hheader⟩ := h.header
  have hdrop : (memory.slice table.address totalsize).drop 0 = beBytes 4 fdtMagic ++ _ := hheader
  obtain ⟨_, hmagic⟩ := wordAt_of_drop hdrop (by decide)
  obtain ⟨_, htotal⟩ := wordAt_of_drop (drop_word hdrop) h.totalsize_lt
  -- the loader looks at the first 40 bytes before it knows how many there are
  have hhead : memory.slice table.address 40 = (memory.slice table.address totalsize).take 40 :=
    (Memory.window_slice (k := 0) (by omega)).symm
  have hlen : (memory.slice table.address 40).length = 40 := by
    rw [Memory.slice, List.length_map, List.length_range]
  have hread : ∀ {offset v : Nat}, offset + 4 ≤ 40 →
      FdtParser.wordAt (memory.slice table.address totalsize) offset = v →
      readBeU32 (memory.slice table.address 40) offset = .ok v := by
    intro offset v hle hword
    refine FdtParser.readBeU32_eq_ok.mpr ⟨by omega, by rw [usizeMax]; omega, ?_⟩
    rw [hhead, wordAt_take hle, hword]
  rw [fdtAt, if_neg (by simp [hguid, haddress])]
  simp only [hread (by omega) hmagic, hread (by omega) htotal, Outcome.ok_bind]
  rw [if_neg (by simp; omega)]

/-- The first table of a device tree is the one that counts. -/
theorem findFdt_of_flattens {memory : Memory} {before after : List ConfigTable}
    {table : ConfigTable} {t : DtNode} {totalsize offStruct offStrings : Nat}
    (hbefore : ∀ other ∈ before, other.guid ≠ efiDtbTableGuid ∨ other.address = 0)
    (hguid : table.guid = efiDtbTableGuid) (haddress : table.address ≠ 0) (hlong : 40 ≤ totalsize)
    (h : Flattens t (memory.slice table.address totalsize) totalsize offStruct offStrings) :
    findFdt memory (before ++ table :: after) =
      .ok (some (memory.slice table.address totalsize)) := by
  induction before with
  | nil => rw [List.nil_append, findFdt, fdtAt_of_flattens hguid haddress hlong h]
  | cons other rest ih =>
      obtain ⟨hother, hrest⟩ := List.forall_mem_cons.mp hbefore
      have hnone : fdtAt memory other = .err () := if_pos hother
      rw [List.cons_append, findFdt, hnone]
      exact ih hrest

/-! ## Trees that the kernel can read -/

/-- Whatever the loader writes out, the kernel can read. -/
theorem appleDeviceTree_readable {fdt : Option (List UInt8)} {root : AdtNode}
    (h : appleDeviceTree fdt = .ok root) :
    root.Everywhere Readable ∧ root.encode.length ≤ isizeMax := by
  cases fdt with
  | none =>
      obtain rfl : machineTree = root := Except.ok.inj h
      have hfits : machineTree.Everywhere AdtNode.Fits := by decide +kernel
      exact ⟨hfits.and (by decide +kernel), by decide +kernel⟩
  | some fdt =>
      obtain ⟨parser, hnew, hparse⟩ := Outcome.bind_eq_ok.mp h
      obtain ⟨haccepted, hlen⟩ := FdtParser.parse_accepted hnew hparse
      have hfits := haccepted.fits (by omega)
      refine ⟨hfits.and (haccepted.mono fun t ht prop hprop => (ht.1 prop hprop).1), ?_⟩
      rw [isizeMax]
      omega

/-- A readable tree is dumped as its text. -/
theorem dump_encode {root : AdtNode} (h : root.Everywhere Readable)
    (hmax : root.encode.length ≤ isizeMax) :
    dump root.encode = ⟨.str "xnu-rs: Apple device tree\n" :: nodeLog 0 root, .ok ()⟩ := by
  have hback : ReadsBack ⟨root.encode⟩ root := by
    have hall := readsBack_encode h hmax []
    rwa [List.append_nil] at hall
  have hlong := eight_le_encode_length root
  have hnew : Kernel.AppleDeviceTree.new root.encode = .ok ⟨root.encode⟩ := if_neg (by omega)
  have hdump : dumpNode ⟨root.encode⟩ 0 = ⟨nodeLog 0 root, .ok ()⟩ := by
    refine dumpNode_of_readsBack hback ?_
    have hlevels := levels_le_of_readsBack hback
    rw [isizeMax] at hmax
    rw [usizeMax]
    dsimp only at hlevels
    omega
  rw [dump, hnew]
  simp [AppleDeviceTree.root, hdump, writeStr, Traced.emit, Traced.attempt]

/-! ## The first prints -/

/-- The line of the boot arguments. -/
def argsLog (args : BootArgs) : List UartOp := [
  .str "xnu-rs: revision=", .hexU64 args.revision.toNat,
  .str " version=", .hexU64 args.version.toNat,
  .str " phys_base=0x", .hexU64 args.physBase.toNat,
  .str " mem_size=0x", .hexU64 args.memSize.toNat,
  .str " top_of_kernel_data=0x", .hexU64 args.topOfKernelData.toNat,
  .str "\n"]

/-- What the kernel prints of the boot arguments and the tree. -/
def bootLog (args : BootArgs) (root : AdtNode) : List UartOp :=
  .str "xnu-rs: entered kernel _start\n" :: (argsLog args ++
    .str "xnu-rs: Apple device tree\n" :: nodeLog 0 root)

theorem validateBootArgs_eq {memory : Memory} {args : BootArgs} {root : AdtNode}
    (hrevision : args.revision = bootArgsRevision2) (hversion : args.version = bootArgsVersion2)
    (hptr : args.deviceTreeP ≠ 0) (h : root.Everywhere Readable)
    (hmax : root.encode.length ≤ isizeMax)
    (htree : memory.slice args.deviceTreeP.toNat args.deviceTreeLength = root.encode) :
    validateBootArgs memory (some args) =
      ⟨(argsLog args ++ .str "xnu-rs: Apple device tree\n" :: nodeLog 0 root).map .uart,
        .ok (some args)⟩ := by
  have hlen : args.deviceTreeLength = root.encode.length := by
    rw [← htree, Memory.slice, List.length_map, List.length_range]
  have hlong := eight_le_encode_length root
  have hdump : dumpAppleDeviceTree memory args =
      ⟨(.str "xnu-rs: Apple device tree\n" :: nodeLog 0 root).map .uart, .ok ()⟩ := by
    rw [dumpAppleDeviceTree, if_neg (by simp [hptr]; omega), htree, dump_encode h hmax]
    rfl
  rw [validateBootArgs, if_neg (by simp [hrevision, hversion]), hdump]
  simp [printStr, printHexU64, Traced.emit, argsLog]

/-- What `_start` prints first. -/
theorem start_prefix {memory : Memory} {args : BootArgs} {log : List UartOp}
    (hvalid : validateBootArgs memory (some args) = ⟨log.map .uart, .ok (some args)⟩)
    (machoParse : List UInt8 → Option MachO) (bytes : List UInt8) :
    (UartOp.str "xnu-rs: entered kernel _start\n" :: log).map .uart <+:
      (start machoParse bytes memory (some args)).log := by
  have hlog : (validateBootArgs memory (some args)).log = log.map .uart := by rw [hvalid]
  refine Traced.prefix_emit_bind_log ?_
  refine List.IsPrefix.trans ?_ (Traced.prefix_bind_log (validateBootArgs memory (some args)) _)
  exact ⟨[], by rw [List.append_nil, hlog]⟩

/-- **The kernel prints the tree that the loader read.**  Whatever user program follows, the
    kernel accepts the boot arguments of the loader, and its first prints are their line and
    the text of the tree.  Where the firmware has a flattened device tree, that is the tree. -/
theorem kernel_prints_tree {env : Environment} {macho : MachO} {handOff : KernelHandOff}
    {args : BootArgs} (hloaded : (loadAndJumpToKernel env).result = .ok (handOff, args))
    (hkernel : kernelOf env = some macho)
    (hplaced : PlacedApart env macho (liveRegions handOff args)) (hptr : args.deviceTreeP ≠ 0)
    (pad : Nat → UInt8) (m : Memory) (machoParse : List UInt8 → Option MachO)
    (bytes : List UInt8) :
    (validateBootArgs (jumpMemory pad env m)
        (some (readArgs (jumpMemory pad env m) handOff.bootArgs.toNat))).result = .ok (some args) ∧
    ∃ fdt root, findFdt env.memory env.configTables = .ok fdt ∧ appleDeviceTree fdt = .ok root ∧
      (bootLog args root).map .uart <+: (start machoParse bytes (jumpMemory pad env m)
        (some (readArgs (jumpMemory pad env m) handOff.bootArgs.toNat))).log ∧
      ∀ before table after t totalsize offStruct offStrings,
        env.configTables = before ++ table :: after →
        (∀ other ∈ before, other.guid ≠ efiDtbTableGuid ∨ other.address = 0) →
        table.guid = efiDtbTableGuid → table.address ≠ 0 → 40 ≤ totalsize →
        Flattens t (env.memory.slice table.address totalsize) totalsize offStruct offStrings →
          root = t.toAdt := by
  obtain ⟨macho', h⟩ := loadAndJumpToKernel_ok.mp hloaded
  obtain rfl : macho' = macho := Option.some.inj (h.kernel.symm.trans hkernel)
  obtain ⟨-, -, -, hrevision, hversion⟩ := fillBootArgs_ok h.filled
  obtain ⟨fdt, root, hfdt, hroot, htree⟩ := jumpMemory_tree h hplaced pad m
  obtain ⟨hreadable, hmax⟩ := appleDeviceTree_readable hroot
  have hvalid := validateBootArgs_eq hrevision hversion hptr hreadable hmax htree
  rw [readArgs_jumpMemory h pad m]
  refine ⟨by rw [hvalid], fdt, root, hfdt, hroot, start_prefix hvalid machoParse bytes, ?_⟩
  intro before table after t totalsize offStruct offStrings htables hbefore hguid haddress hlong hflat
  rw [htables, findFdt_of_flattens hbefore hguid haddress hlong hflat] at hfdt
  obtain rfl := Except.ok.inj hfdt
  rw [appleDeviceTree, new_of_flattens hflat, Outcome.ok_bind, parse_of_flattens hflat] at hroot
  exact (Except.ok.inj hroot).symm

/-- A machine without a flattened device tree, and no user program. -/
theorem kernel_prints_tree_machine :
    ∃ root, appleDeviceTree none = .ok root ∧
      (bootLog machineArgs root).map .uart <+:
        (start Macho.parse [] (jumpMemory (fun _ => 0) (machine 0x47000000) fun _ => 0)
          (some (readArgs (jumpMemory (fun _ => 0) (machine 0x47000000) fun _ => 0)
            (0x47fff000 : UInt64).toNat))).log := by
  have hlow : LowStack 0x47000000 0x47010000 := ⟨by decide, by decide, by decide, by decide⟩
  obtain ⟨-, fdt, root, hfdt, hroot, hprefix, -⟩ := kernel_prints_tree
    (loadAndJumpToKernel_ok.mpr ⟨_, hlow.handedOver⟩) hlow.handedOver.kernel hlow.placedApart
    (by decide) (fun _ => 0) (fun _ => 0) Macho.parse []
  have hnone : findFdt (machine 0x47000000).memory (machine 0x47000000).configTables = .ok none := rfl
  obtain rfl : none = fdt := Except.ok.inj (hnone.symm.trans hfdt)
  exact ⟨root, hroot, hprefix⟩

end XnuRs.Boot
