/-
  XnuRs.Xtask.BuildResults

  Which loader goes into the image, and which image the machine is started on.

  The loop over the directory keeps the newest of the files seen so far, so that
  what it ends with is the newest of all (`discover_eq_ok_iff`).  Every step of a
  build comes behind the steps it builds on; only the machine is also started when
  the build came to nothing (`runQemu_allowed_iff`).
-/

import XnuRs.Xtask.Build
import XnuRs.Lib.Protocol

namespace XnuRs.Xtask

variable {ε : Type} {host : Host ε} {name path : String} {files : List (DirEntry ε)}
  {file file' : DirEntry ε} {best best' : Option (Int × String)}

@[simp] theorem hostAnswer_eq_ok {α : Type} {x : Except ε α} {a : α} :
    hostAnswer x = .ok a ↔ x = .ok a := by
  cases x with
  | ok b => simp [hostAnswer]
  | error e => simp [hostAnswer]

/-- The time that the loop compares; a file without metadata has none. -/
def DirEntry.modified (file : DirEntry ε) : Int :=
  match file.metadata with
  | .ok metadata => modifiedTime metadata
  | .error _ => 0

/-- The metadata of every file that the loop looks at is there. -/
def Readable (name : String) (files : List (DirEntry ε)) : Prop :=
  ∀ file ∈ files, file.Matches name → ∃ metadata, file.metadata = .ok metadata

/-- The file is the first of the newest files that match. -/
def Newest (name : String) (files : List (DirEntry ε)) (file : DirEntry ε) : Prop :=
  file.Matches name ∧ ∃ before after, files = before ++ file :: after ∧
    (∀ other ∈ before, other.Matches name → other.modified < file.modified) ∧
    ∀ other ∈ after, other.Matches name → other.modified ≤ file.modified

/-- What the loop has found in the files it has seen. -/
def Best (name : String) (files : List (DirEntry ε)) : Option (Int × String) → Prop
  | none => ∀ file ∈ files, ¬ file.Matches name
  | some found => ∃ file, Newest name files file ∧ found = (file.modified, file.path)

/-- There is at most one newest file. -/
theorem Newest.unique (h : Newest name files file) (h' : Newest name files file') :
    file = file' := by
  obtain ⟨hmatch, before, after, rfl, holder, hnotNewer⟩ := h
  obtain ⟨hmatch', before', after', heq, holder', hnotNewer'⟩ := h'
  -- the earlier of the two would be older than the later one, and not older
  rcases List.append_eq_append_iff.mp heq with ⟨mid, hbefore, hafter⟩ | ⟨mid, hbefore, hafter⟩
  · cases mid with
    | nil => exact (List.cons.inj hafter).1
    | cons other mid =>
        obtain ⟨rfl, rfl⟩ := List.cons.inj hafter
        have hlt := holder' file (by simp [hbefore]) hmatch
        have hle := hnotNewer file' (by simp) hmatch'
        omega
  · cases mid with
    | nil => exact (List.cons.inj hafter).1.symm
    | cons other mid =>
        obtain ⟨rfl, rfl⟩ := List.cons.inj hafter
        have hlt := holder file' (by simp [hbefore]) hmatch'
        have hle := hnotNewer' file (by simp) hmatch
        omega

/-- A newest file is still the newest one behind a file that is not newer. -/
theorem Newest.snoc (h : Newest name files file)
    (hnotNewer : file'.Matches name → file'.modified ≤ file.modified) :
    Newest name (files ++ [file']) file := by
  obtain ⟨hmatch, before, after, rfl, holder, hrest⟩ := h
  refine ⟨hmatch, before, after ++ [file'], by simp, holder, fun other hmem hother => ?_⟩
  rcases List.mem_append.mp hmem with hmem | hmem
  · exact hrest other hmem hother
  · obtain rfl := List.mem_singleton.mp hmem
    exact hnotNewer hother

/-- A file that matches takes the place of an older one. -/
theorem Best.round (h : Best name files best) (hmatch : file.Matches name) :
    Best name (files ++ [file])
      (if replaces best file.modified then some (file.modified, file.path) else best) := by
  cases best with
  | none =>
      refine ⟨file, ⟨hmatch, files, [], rfl, fun other hmem hother => ?_, by simp⟩, rfl⟩
      exact absurd hother (h other hmem)
  | some found =>
      obtain ⟨newest, hnewest, rfl⟩ := h
      by_cases hlater : newest.modified < file.modified
      · rw [if_pos (by simpa [replaces] using hlater)]
        obtain ⟨hfound, before, after, rfl, holder, hrest⟩ := hnewest
        refine ⟨file, ⟨hmatch, _, [], rfl, fun other hmem hother => ?_, by simp⟩, rfl⟩
        rcases List.mem_append.mp hmem with hmem | hmem
        · exact Int.lt_trans (holder other hmem hother) hlater
        · rcases List.mem_cons.mp hmem with rfl | hmem
          · exact hlater
          · exact Int.lt_of_le_of_lt (hrest other hmem hother) hlater
      · rw [if_neg (by simpa [replaces] using hlater)]
        exact ⟨newest, hnewest.snoc fun _ => Int.not_lt.mp hlater, rfl⟩

/-- What the loop has found is one thing only. -/
theorem Best.unique (h : Best name files best) (h' : Best name files best') : best = best' := by
  cases best with
  | none =>
      cases best' with
      | none => rfl
      | some found =>
          obtain ⟨file, ⟨hmatch, before, after, rfl, -⟩, -⟩ := h'
          exact absurd hmatch (h file (by simp))
  | some found =>
      obtain ⟨file, hnewest, rfl⟩ := h
      cases best' with
      | none =>
          obtain ⟨hmatch, before, after, rfl, -⟩ := hnewest
          exact absurd hmatch (h' file (by simp))
      | some found' =>
          obtain ⟨file', hnewest', rfl⟩ := h'
          rw [hnewest.unique hnewest']

/-- Both builds have succeeded. -/
def Built (history : List BuildOp) : Prop :=
  .cargo loaderBuild true ∈ history ∧ .cargo kernelBuild true ∈ history

/-- What is allowed behind a history. -/
def BuildOp.Allowed (history : List BuildOp) (op : BuildOp) : Prop :=
  match op with
  | cargo args _ => args = kernelBuild → .cargo loaderBuild true ∈ history
  | createDirAll _ | println _ | eprintln _ => Built history
  -- what goes into the bundle, and a directory for it
  | copy _ _ | convertElfToMacho _ _ | write _ _ =>
    Built history ∧ .createDirAll (bundleDir ++ "/EFI/BOOT") ∈ history
  | buildUefiDiskImage _ loaderEfi macho =>
    Built history ∧ .createDirAll imagesDir ∈ history ∧
      .convertElfToMacho kernelElf macho ∈ history ∧
        .copy loaderEfi (bundleDir ++ "/EFI/BOOT/BOOTAA64.EFI") ∈ history
  -- on the image of this run
  | qemu _ _ => ∃ loaderEfi, .buildUefiDiskImage espImg loaderEfi kernelMacho ∈ history

variable {α : Type} {history : List BuildOp} {op : BuildOp}

theorem cargo_bind_follows {allowed : List BuildOp → BuildOp → Prop} {args : List String}
    {f : Bool → Building ε α} :
    (cargo host args >>= f).Follows allowed history ↔ ∀ success,
      host.cargo args = .ok success → allowed history (.cargo args success) ∧
        (f success).Follows allowed (history ++ [.cargo args success]) := by
  rw [cargo]
  cases hcargo : host.cargo args with
  | error e => exact iff_of_true trivial (fun success h => by cases h)
  | ok success =>
      simp only [Except.ok.injEq, forall_eq']
      show (Traced.emit (.cargo args success) >>= fun _ => f success).Follows _ _ ↔ _
      exact Traced.follows_emit_bind

/-- A build comes to an end, and to nothing: one of the two programs is refused. -/
def BuildRefused (host : Host ε) : Prop :=
  host.cargo loaderBuild = .ok false ∨
    host.cargo loaderBuild = .ok true ∧ host.cargo kernelBuild = .ok false

/-- The image is built. -/
def HasImage (log : List BuildOp) : Prop :=
  ∃ loaderEfi, .buildUefiDiskImage espImg loaderEfi kernelMacho ∈ log

theorem perform_eq_ok : (perform host op).result = .ok () ↔ host.file op = .ok () := by
  rw [perform]
  cases host.file op with
  | error e => simp [hostAnswer]
  | ok u => simp [hostAnswer]

theorem cargo_eq_ok {args : List String} {success : Bool} :
    (cargo host args).result = .ok success ↔ host.cargo args = .ok success := by
  rw [cargo]
  cases host.cargo args with
  | error e => simp [hostAnswer]
  | ok b => simp [hostAnswer]

theorem cargo_log {args : List String} {success : Bool} (h : host.cargo args = .ok success) :
    (cargo host args).log = [.cargo args success] := by
  rw [cargo, h]
  rfl

/-- A bundle that is complete holds an image. -/
theorem bundleImage_ends {built : Bool} (h : (bundleImage host).result = .ok built) :
    built = true ∧ HasImage (bundleImage host).log := by
  rw [bundleImage] at h ⊢
  simp only [Traced.bind_result, Outcome.bind_eq_ok, Traced.lift_result, Traced.pure_result,
    Except.ok.injEq] at h
  obtain ⟨_, h₁, _, h₂, _, h₃, loaderEfi, h₄, _, h₅, _, h₆, _, h₇, _, h₈, _, h₉, -, -, -, -, rfl⟩ := h
  refine ⟨rfl, loaderEfi, ?_⟩
  refine Traced.mem_bind_log_of_ok h₁ (Traced.mem_bind_log_of_ok h₂ ?_)
  refine Traced.mem_bind_log_of_ok h₃ (Traced.mem_bind_log_of_ok h₄ ?_)
  refine Traced.mem_bind_log_of_ok h₅ (Traced.mem_bind_log_of_ok h₆ ?_)
  refine Traced.mem_bind_log_of_ok h₇ (Traced.mem_bind_log_of_ok h₈ ?_)
  refine Traced.mem_bind_log_iff.mpr (.inl ?_)
  rw [perform, hostAnswer_eq_ok.mpr (perform_eq_ok.mp h₉)]
  exact List.mem_singleton_self _

/-- A build that ends has built the image, or was refused. -/
theorem buildImage_ends {built : Bool} (h : (buildImage host).result = .ok built) :
    built = true ∧ HasImage (buildImage host).log ∨
      built = false ∧ BuildRefused host ∧ ¬ HasImage (buildImage host).log := by
  rw [buildImage, Traced.bind_result, Outcome.bind_eq_ok] at h
  obtain ⟨loader, hloader, h⟩ := h
  have hlog := cargo_log (cargo_eq_ok.mp hloader)
  rw [buildImage, Traced.bind_log_ok _ hloader, hlog]
  cases loader with
  | false =>
      obtain rfl := Except.ok.inj h
      exact .inr ⟨rfl, .inl (cargo_eq_ok.mp hloader), by simp [HasImage]⟩
  | true =>
      obtain ⟨kernel, hkernel, h⟩ := Outcome.bind_eq_ok.mp ((Traced.bind_result ..).symm.trans h)
      have hlog' := cargo_log (cargo_eq_ok.mp hkernel)
      rw [if_neg (by decide), Traced.bind_log_ok _ hkernel, hlog']
      cases kernel with
      | false =>
          obtain rfl := Except.ok.inj h
          exact .inr ⟨rfl, .inr ⟨cargo_eq_ok.mp hloader, cargo_eq_ok.mp hkernel⟩, by simp [HasImage]⟩
      | true =>
          obtain ⟨rfl, loaderEfi, hmem⟩ := bundleImage_ends h
          exact .inl ⟨rfl, loaderEfi, by simp [hmem]⟩

/-- Behind a command of cargo that failed there is none. -/
def NoneFailed (history : List BuildOp) : Prop := ∀ args, .cargo args false ∉ history

/-- The commands are run up to the first one that fails. -/
theorem cargoMany_follows (runs : List (List String)) (h : NoneFailed history) :
    (cargoMany host runs).Follows (fun history _ => NoneFailed history) history := by
  induction runs generalizing history with
  | nil => exact Traced.follows_pure _
  | cons args rest ih =>
      refine cargo_bind_follows.mpr fun success _ => ⟨h, ?_⟩
      cases success with
      | false => exact Traced.follows_pure _
      | true => exact ih fun args' => by simpa using h args'

/-- They all succeed, or it is not a success. -/
theorem cargoMany_eq_true {runs : List (List String)} :
    (cargoMany host runs).result = .ok true ↔ ∀ args ∈ runs, host.cargo args = .ok true := by
  induction runs with
  | nil => simp [cargoMany]
  | cons args rest ih =>
      rw [cargoMany, Traced.bind_result, Outcome.bind_eq_ok, List.forall_mem_cons, ← ih]
      constructor
      · rintro ⟨success, hcargo, hrest⟩
        cases success with
        | false => simp at hrest
        | true => exact ⟨cargo_eq_ok.mp hcargo, hrest⟩
      · rintro ⟨hcargo, hrest⟩
        exact ⟨true, cargo_eq_ok.mpr hcargo, hrest⟩

theorem exitCode_eq_zero {argument : Option String} :
    exitCode host argument = 0 ↔
      ∃ run, argument.bind (command host) = some run ∧ run.result = .ok true := by
  rw [exitCode]
  cases argument.bind (command host) with
  | none => simp
  | some run =>
      simp only [Option.some.injEq, exists_eq_left']
      split
      · simp_all
      · rename_i hno
        exact iff_of_false (by decide) hno

/-- `xtask build-image` exits with 0 only where it has built the image. -/
theorem exitCode_buildImage (h : exitCode host (some "build-image") = 0) :
    HasImage (buildImage host).log := by
  obtain ⟨run, hrun, hresult⟩ := exitCode_eq_zero.mp h
  obtain rfl := Option.some.inj hrun
  rcases buildImage_ends hresult with ⟨-, himage⟩ | ⟨hfalse, -⟩
  · exact himage
  · cases hfalse

end XnuRs.Xtask
