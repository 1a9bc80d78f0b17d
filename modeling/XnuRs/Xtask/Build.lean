/-
  XnuRs.Xtask.Build

  The commands of xtask that build the image and run it (xtask/src/main.rs:
  `main`, `cargo_many`, `build_image`, `discover_efi_artifact`,
  `qemu_firmware_path`, `run_qemu`).

  Everything that xtask starts or changes is an effect, and is in the log when it
  has been done; what comes back of it is given by the `Host`.  Paths are text.
-/

import XnuRs.Lib.Traced
import Mathlib.Data.List.Infix

namespace XnuRs.Xtask

/-- An error of the host, or `io::ErrorKind::NotFound` with a message. -/
inductive BuildError (ε : Type) where
  | host (e : ε)
  | notFound (message : String)
deriving DecidableEq, Repr

/-- An entry of a directory; a name that is not Unicode is none. -/
structure DirEntry (ε : Type) where
  path : String
  name : Option String
  /-- The time of the last change, if the metadata has one, from the epoch on. -/
  metadata : Except ε (Option Int)

inductive BuildOp where
  /-- `cargo` came to an end, and says whether it succeeded. -/
  | cargo (args : List String) (success : Bool)
  | createDirAll (path : String)
  | copy (src dst : String)
  | convertElfToMacho (src dst : String)
  | write (path contents : String)
  | buildUefiDiskImage (image loaderEfi kernelMacho : String)
  | println (line : String)
  | eprintln (line : String)
  /-- `qemu-system-aarch64` came to an end. -/
  | qemu (args : List String) (success : Bool)
deriving DecidableEq, Repr

/-- What xtask is run on. -/
structure Host (ε : Type) where
  cargo : List String → Except ε Bool
  qemu : List String → Except ε Bool
  /-- The answer to an effect on the file system. -/
  file : BuildOp → Except ε Unit
  /-- `read_dir`: the directory can be refused, and each of its entries. -/
  readDir : String → Except ε (List (Except ε (DirEntry ε)))
  envVar : String → Option String
  pathExists : String → Bool

variable {ε : Type}

/-- A run of xtask. -/
abbrev Building (ε : Type) := Traced BuildOp (BuildError ε)

/-- An answer of the host. -/
def hostAnswer {α : Type} (x : Except ε α) : Outcome (BuildError ε) α :=
  match x with
  | .ok a => .ok a
  | .error e => .err (.host e)

/-- An effect on the file system, if the host does not refuse it. -/
def perform (host : Host ε) (op : BuildOp) : Building ε Unit := do
  .lift (hostAnswer (host.file op))
  .emit op

/-! ## Cargo -/

/-- `cargo`. -/
def cargo (host : Host ε) (args : List String) : Building ε Bool := do
  let success ← .lift (hostAnswer (host.cargo args))
  .emit (.cargo args success)
  pure success

/-- `cargo_many`. -/
def cargoMany (host : Host ε) : List (List String) → Building ε Bool
  | [] => pure true
  | args :: rest => do
    if !(← cargo host args) then pure false
    else cargoMany host rest

def target : String := "aarch64-unknown-none"
def uefiTarget : String := "aarch64-unknown-uefi"
def kernelName : String := "kernel"
def loaderName : String := "loader"

/-- `check`. -/
def check (host : Host ε) : Building ε Bool := cargoMany host [
  ["check", "-p", kernelName, "--target", target],
  ["check", "-p", loaderName, "--target", uefiTarget],
  ["check", "-p", "xtask"]]

/-- `clippy`. -/
def clippy (host : Host ε) : Building ε Bool := cargoMany host [
  ["clippy", "-p", kernelName, "--target", target, "--", "-D", "warnings"],
  ["clippy", "-p", loaderName, "--target", uefiTarget, "--", "-D", "warnings"],
  ["clippy", "-p", "xtask", "--", "-D", "warnings"]]

/-! ## The loader's file -/

/-- `Path::extension`: what follows the last dot, unless the name starts with it. -/
def extension (name : String) : Option String :=
  let tail := (name.toList.reverse.takeWhile (· ≠ '.')).reverse
  if tail.length + 1 < name.toList.length then some (.ofList tail) else none

/-- The names that `discover_efi_artifact` looks for. -/
def MatchesArtifact (name file : String) : Prop :=
  extension file = some "efi" ∧
    (name.toList <+: file.toList ∨ (name ++ "-").toList <:+: file.toList)

instance (name file : String) : Decidable (MatchesArtifact name file) :=
  inferInstanceAs (Decidable (_ ∧ _))

/-- The entry is one of them. -/
def DirEntry.Matches (name : String) (entry : DirEntry ε) : Prop :=
  ∃ file ∈ entry.name, MatchesArtifact name file

instance (name : String) (entry : DirEntry ε) : Decidable (entry.Matches name) :=
  match h : entry.name with
  | none => isFalse (by simp [DirEntry.Matches, h])
  | some file => decidable_of_iff (MatchesArtifact name file) (by simp [DirEntry.Matches, h])

/-- `modified().unwrap_or(UNIX_EPOCH)`. -/
def modifiedTime (metadata : Option Int) : Int := metadata.getD 0

/-- `replace`: a file that is as new as the best one does not take its place. -/
def replaces (best : Option (Int × String)) (modified : Int) : Bool :=
  match best with
  | none => true
  | some (bestTime, _) => modified > bestTime

/-- The loop of `discover_efi_artifact`, with the best file so far. -/
def discoverLoop (name : String) : List (Except ε (DirEntry ε)) → Option (Int × String) →
    Outcome (BuildError ε) (Option (Int × String))
  | [], best => .ok best
  | entry :: rest, best => do
    let entry ← hostAnswer entry
    if entry.Matches name then do
      let metadata ← hostAnswer entry.metadata
      let modified := modifiedTime metadata
      discoverLoop name rest (if replaces best modified then some (modified, entry.path) else best)
    else discoverLoop name rest best

def depsDir : String := "target/" ++ uefiTarget ++ "/debug/deps"

/-- `discover_efi_artifact`. -/
def discoverEfiArtifact (host : Host ε) (name : String) : Outcome (BuildError ε) String := do
  let entries ← hostAnswer (host.readDir depsDir)
  let best ← discoverLoop name entries none
  .okOr (best.map Prod.snd) (.notFound ("could not locate " ++ name ++ ".efi in " ++ depsDir))

/-! ## The image -/

def bundleDir : String := "target/qemu/bundle"
def imagesDir : String := "target/qemu/images"
def espImg : String := imagesDir ++ "/esp.img"
def kernelElf : String := "target/" ++ target ++ "/debug/" ++ kernelName
def kernelMacho : String := bundleDir ++ "/kernel.macho"

def manifest : String :=
  "kernel = \"kernel.macho\"\n" ++ "loader = \"EFI/BOOT/BOOTAA64.EFI\"\n" ++
    "target = \"" ++ target ++ "\"\n" ++ "boot = \"UEFI\"\n" ++
    "debugging = [\"radare2\", \"r2ghidra\"]\n"

def loaderBuild : List String := ["build", "-p", loaderName, "--target", uefiTarget]
def kernelBuild : List String := ["build", "-p", kernelName, "--target", target]

/-- `build_image`, behind the two builds. -/
def bundleImage (host : Host ε) : Building ε Bool := do
  perform host (.createDirAll (bundleDir ++ "/EFI/BOOT"))
  perform host (.createDirAll "target/qemu/esp")
  perform host (.createDirAll imagesDir)
  let loaderEfi ← .lift (discoverEfiArtifact host loaderName)
  perform host (.copy kernelElf (bundleDir ++ "/kernel.elf"))
  perform host (.convertElfToMacho kernelElf kernelMacho)
  perform host (.copy loaderEfi (bundleDir ++ "/EFI/BOOT/BOOTAA64.EFI"))
  perform host (.write (bundleDir ++ "/MANIFEST.toml") manifest)
  perform host (.buildUefiDiskImage espImg loaderEfi kernelMacho)
  .emit (.println ("image bundle: " ++ bundleDir))
  .emit (.println ("ESP image: " ++ espImg))
  pure true

/-- `build_image`. -/
def buildImage (host : Host ε) : Building ε Bool := do
  if !(← cargo host loaderBuild) then pure false
  else if !(← cargo host kernelBuild) then pure false
  else bundleImage host

/-! ## The machine -/

/-- `QEMU_FIRMWARE_ENV`. -/
def qemuFirmwareEnv : String := "QEMU_EFI_FD"

/-- `qemu_firmware_path`. -/
def qemuFirmwarePath (host : Host ε) : Outcome (BuildError ε) String :=
  match host.envVar qemuFirmwareEnv with
  | some path => .ok path
  | none =>
    .okOr (["/usr/share/edk2/aarch64/QEMU_EFI.fd", "/usr/share/qemu-efi-aarch64/QEMU_EFI.fd",
        "/usr/share/OVMF/OVMF_CODE.fd",
        "/opt/homebrew/opt/qemu/share/qemu/edk2-aarch64-code.fd"].find? (host.pathExists ·))
      (.notFound "UEFI firmware not found; set QEMU_EFI_FD")

def qemuArgs (firmware : String) : List String :=
  ["-M", "virt,virtualization=on", "-accel", "tcg,thread=multi", "-cpu", "cortex-a53", "-m",
    "1024M", "-nographic", "-serial", "mon:stdio", "-bios", firmware, "-drive",
    "if=virtio,format=raw,file=target/qemu/images/esp.img"]

/-- `run_qemu`. -/
def runQemu (host : Host ε) : Building ε Bool := do
  -- whether the image was built is dropped
  let _ ← buildImage host
  let firmware ← .lift (qemuFirmwarePath host)
  let success ← .lift (hostAnswer (host.qemu (qemuArgs firmware)))
  .emit (.qemu (qemuArgs firmware) success)
  pure success

/-- The command that `main` is given, if it is one. -/
def command (host : Host ε) : String → Option (Building ε Bool)
  | "check" => some (check host)
  | "clippy" => some (clippy host)
  | "fmt" => some (cargo host ["fmt", "--all", "--", "--check"])
  | "build-image" => some (buildImage host)
  | "run" | "qemu" => some (runQemu host)
  | _ => none

/-- The code `main` exits with, for the argument behind the program's name; `none` is none. -/
def exitCode (host : Host ε) (argument : Option String) : Nat :=
  match argument.bind (command host) with
  | none => 2
  | some run =>
    match run.result with
    | .ok true => 0
    | _ => 1

end XnuRs.Xtask
