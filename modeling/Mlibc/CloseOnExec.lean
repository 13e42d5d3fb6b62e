import Mlibc.TransitionSystem

/-!
# The close-on-exec flag of a descriptor

The table `open_files` of the pmOS sysdeps.  Its bit `O_CLOEXEC` stands for the flag `FD_CLOEXEC`,
which is another bit.
-/

namespace Mlibc.Pmos

open Function

def openMax : Int := 256

def fdCloexec : BitVec 32 := 1

def oCloexec : BitVec 32 := 0x80000

def oAccmode : BitVec 32 := 0x200003

/-- `O_APPEND | O_DSYNC | O_NONBLOCK | O_RSYNC | O_SYNC | O_ACCMODE` -/
def statusFlags : BitVec 32 := 0x101C00 ||| oAccmode

def ebadf : Int := 9

def emfile : Int := 24

/-- The flags of the descriptors whose `io_right` is valid. -/
abbrev OpenFiles := Int → Option (BitVec 32)

variable (files : OpenFiles)

/-- `get_open_file`. -/
def OpenFiles.flags (fd : Int) : Option (BitVec 32) :=
  if openMax ≤ fd ∨ fd < 0 then none else files fd

def OpenFiles.set (fd : Int) (flags : BitVec 32) : OpenFiles := update files fd (some flags)

def OpenFiles.free : Option Int :=
  ((List.range openMax.toNat).map Int.ofNat).find? fun fd => (files fd).isNone

/-- `Sysdeps<Open>` with the reply of the server. -/
def openFile (flags fsFlags : BitVec 32) : Except Int Int × OpenFiles :=
  match files.free with
  | none => (.error emfile, files)
  | some fd => (.ok fd, files.set fd (flags ||| fsFlags))

/-- What `Sysdeps<Dup>` and `Sysdeps<Dup2>` do with both descriptors, where duplicating the rights
may fail. -/
def copyFile (fileFlags flags : BitVec 32) (newfd : Int) : Option Int → Except Int Int × OpenFiles
  | some code => (.error code, files)
  | none =>
    let flagsNorm := if flags &&& fdCloexec ≠ 0 then oCloexec else 0
    (.ok newfd, files.set newfd (fileFlags &&& ~~~oCloexec ||| flagsNorm))

def dup (fd : Int) (flags : BitVec 32) (failure : Option Int) : Except Int Int × OpenFiles :=
  match files.flags fd, files.free with
  | none, _ => (.error ebadf, files)
  | _, none => (.error emfile, files)
  | some fileFlags, some newfd => copyFile files fileFlags flags newfd failure

def dup2 (fd : Int) (flags : BitVec 32) (newfd : Int) (failure : Option Int) :
    Except Int Int × OpenFiles :=
  match files.flags fd with
  | none => (.error ebadf, files)
  | some fileFlags =>
    if openMax ≤ newfd ∨ newfd < 0 then (.error ebadf, files)
    else copyFile files fileFlags flags newfd failure

/-- The commands of `fcntl`. -/
inductive Command where
  | getfd
  | setfd (arg : BitVec 32)
  | getfl
  | setfl (arg : BitVec 32)

def fcntl (fd : Int) (command : Command) : Except Int (BitVec 32) × OpenFiles :=
  match files.flags fd with
  | none => (.error ebadf, files)
  | some flags =>
    match command with
    | .getfd => (.ok (flags &&& oCloexec), files)
    | .setfd arg => (.ok 0, files.set fd (flags &&& ~~~oCloexec ||| arg &&& oCloexec))
    | .getfl => (.ok (flags &&& statusFlags), files)
    | .setfl arg =>
      let mask := statusFlags &&& ~~~oAccmode
      (.ok 0, files.set fd (flags &&& ~~~mask ||| arg &&& mask))

/-- The table, whether the latest operation on a descriptor was to set the flag, and whether it
stored `O_CLOEXEC`. -/
structure Process where
  files : OpenFiles
  sets : Int → Bool
  stores : Int → Bool

def Process.after (process : Process) (sets stores : Bool) : Except Int Int × OpenFiles → Process
  | (.ok fd, files) => ⟨files, update process.sets fd sets, update process.stores fd stores⟩
  | (.error _, files) => { process with files }

/-- The calls with the flags that `open`, `dup`, `dup2`, `dup3` and `fcntl` pass on. -/
inductive Call where
  | open (flags fsFlags : BitVec 32)
  | dup (fd : Int) (failure : Option Int)
  | dup2 (fd : Int) (cloexec : Bool) (newfd : Int) (failure : Option Int)
  | setfd (fd : Int) (arg : BitVec 32)
  | setfl (fd : Int) (arg : BitVec 32)

def hasBit (word bit : BitVec 32) : Bool := word &&& bit ≠ 0

def Process.step (process : Process) : Call → Process
  | .open flags fsFlags => process.after (hasBit flags oCloexec)
      (hasBit (flags ||| fsFlags) oCloexec) (openFile process.files flags fsFlags)
  | .dup fd failure => process.after false false (Pmos.dup process.files fd 0 failure)
  | .dup2 fd cloexec newfd failure => process.after cloexec false
      (Pmos.dup2 process.files fd (if cloexec then oCloexec else 0) newfd failure)
  | .setfd fd arg =>
    let (result, files) := fcntl process.files fd (.setfd arg)
    process.after (hasBit arg fdCloexec) (hasBit arg oCloexec) (result.map fun _ => fd, files)
  | .setfl fd arg => { process with files := (fcntl process.files fd (.setfl arg)).2 }

def descriptorSystem : TransitionSystem Process Call where
  initial process := ∀ fd, process.files fd = none
  step process call := some (process.step call)

/-- `F_GETFD` reports whether the latest operation on the descriptor was to set the flag. -/
def ReportsFlag (process : Process) (fd : Int) : Prop :=
  (fcntl process.files fd .getfd).1 = .ok (if process.sets fd then fdCloexec else 0)

def Tracks (process : Process) : Prop :=
  ∀ fd flags, process.files fd = some flags → process.stores fd = hasBit flags oCloexec

variable {process : Process}

theorem merge_and (flags arg changed kept : BitVec 32) :
    (flags &&& ~~~changed ||| arg &&& changed) &&& kept =
      flags &&& (~~~changed &&& kept) ||| arg &&& (changed &&& kept) := by
  rw [BitVec.and_or_distrib_right, BitVec.and_assoc, BitVec.and_assoc]

theorem setfl_and (flags arg : BitVec 32) :
    (flags &&& ~~~(statusFlags &&& ~~~oAccmode) ||| arg &&& (statusFlags &&& ~~~oAccmode)) &&&
      oCloexec = flags &&& oCloexec := by
  have kept : ~~~(statusFlags &&& ~~~oAccmode) &&& oCloexec = oCloexec := by decide
  have apart : statusFlags &&& ~~~oAccmode &&& oCloexec = 0 := by decide
  simp [merge_and, kept, apart]

theorem OpenFiles.of_flags {files : OpenFiles} {fd : Int} {flags : BitVec 32}
    (isOpen : files.flags fd = some flags) :
    files fd = some flags ∧ ∀ word, (files.set fd word).flags fd = some word := by
  unfold OpenFiles.flags at isOpen ⊢
  split_ifs at isOpen ⊢
  exact ⟨isOpen, fun _ => update_self ..⟩

section Steps

variable (tracks : Tracks process)
include tracks

theorem Tracks.after (fd : Int) (sets : Bool) {flags : BitVec 32} {stores : Bool}
    (same : stores = hasBit flags oCloexec) :
    Tracks (process.after sets stores (.ok fd, process.files.set fd flags)) := by
  intro other word isOpen
  simp only [Process.after, OpenFiles.set] at isOpen ⊢
  by_cases isOther : other = fd
  · subst isOther
    rw [update_self] at isOpen ⊢
    cases isOpen
    exact same
  · rw [update_of_ne isOther] at isOpen ⊢
    exact tracks other word isOpen

theorem Tracks.copyFile (fileFlags : BitVec 32) (newfd : Int) (failure : Option Int)
    (cloexec : Bool) : Tracks (process.after cloexec false
      (copyFile process.files fileFlags (if cloexec then oCloexec else 0) newfd failure)) := by
  cases failure with
  | some code => exact tracks
  | none =>
    apply tracks.after
    have plain : (if cloexec then oCloexec else 0) &&& fdCloexec = 0 := by cases cloexec <;> rfl
    rw [plain, if_neg (not_not.mpr rfl)]
    simp [hasBit, BitVec.and_assoc]

theorem Tracks.step (call : Call) : Tracks (process.step call) := by
  cases call with
  | «open» flags fsFlags =>
    simp only [Process.step, openFile]
    cases process.files.free with
    | none => exact tracks
    | some fd => exact tracks.after fd _ rfl
  | dup fd failure =>
    simp only [Process.step, Pmos.dup]
    split
    · exact tracks
    · exact tracks
    · exact tracks.copyFile _ _ failure false
  | dup2 fd cloexec newfd failure =>
    simp only [Process.step, Pmos.dup2]
    cases process.files.flags fd with
    | none => exact tracks
    | some fileFlags =>
      dsimp only
      by_cases outside : openMax ≤ newfd ∨ newfd < 0
      · rw [if_pos outside]
        exact tracks
      · rw [if_neg outside]
        exact tracks.copyFile fileFlags newfd failure cloexec
  | setfd fd arg =>
    simp only [Process.step, fcntl]
    cases process.files.flags fd with
    | none => exact tracks
    | some flags => exact tracks.after fd _ (by simp [hasBit, merge_and])
  | setfl fd arg =>
    simp only [Process.step, fcntl]
    cases isOpen : process.files.flags fd with
    | none => exact tracks
    | some flags =>
      intro other word isWord
      simp only [OpenFiles.set] at isWord
      by_cases isOther : other = fd
      · subst isOther
        rw [update_self] at isWord
        cases isWord
        rw [hasBit, setfl_and]
        exact tracks other flags (OpenFiles.of_flags isOpen).1
      · rw [update_of_ne isOther] at isWord
        exact tracks other word isWord

end Steps

/-- `F_GETFD` is right exactly if the latest operation did not set the flag and did not store
`O_CLOEXEC`; `F_SETFD` and `F_SETFL` do not change each other's flags. -/
theorem getfd_reports_iff (reach : descriptorSystem.Reachable process) (fd : Int) :
    ((process.files.flags fd).isSome → (ReportsFlag process fd ↔
      process.sets fd = false ∧ process.stores fd = false)) ∧
    ∀ arg, (fcntl (fcntl process.files fd (.setfd arg)).2 fd .getfl).1 =
        (fcntl process.files fd .getfl).1 ∧
      (fcntl (fcntl process.files fd (.setfl arg)).2 fd .getfd).1 =
        (fcntl process.files fd .getfd).1 := by
  have tracks : Tracks process := by
    apply reach.invariant
    · intro process starts fd flags isOpen
      cases (starts fd).symm.trans isOpen
    · intro process call next tracks _ steps
      cases steps
      exact tracks.step call
  cases isOpen : process.files.flags fd with
  | none => simp [fcntl, isOpen]
  | some flags =>
    obtain ⟨isFlags, reads⟩ := OpenFiles.of_flags isOpen
    constructor
    · intro _
      have notFlag : flags &&& oCloexec ≠ fdCloexec := by
        intro isFlag
        have bit := congrArg (· &&& oCloexec) isFlag
        rw [BitVec.and_assoc, BitVec.and_self, isFlag] at bit
        exact absurd bit (by decide)
      rw [ReportsFlag, fcntl, isOpen, tracks fd flags isFlags, hasBit]
      cases process.sets fd with
      | true => simpa using notFlag
      | false => simp
    · have kept : ~~~oCloexec &&& statusFlags = statusFlags := by decide
      have apart : oCloexec &&& statusFlags = 0 := by decide
      simp only [fcntl, isOpen, reads, setfl_and]
      simp [merge_and, kept, apart]

/-- A descriptor is copied by `dup3` with `O_CLOEXEC`, and the flag of the copy is cleared. -/
theorem getfd_reports_plain :
    ∃ process, descriptorSystem.Reachable process ∧ ReportsFlag process 1 := by
  have runs : ∃ process ∈ descriptorSystem.run (fun _ _ => True)
      ⟨fun _ => none, fun _ => true, fun _ => true⟩
      [.open 2 0, .dup2 0 true 1 none, .setfd 1 0],
      (process.files.flags 1).isSome ∧ process.sets 1 = false ∧ process.stores 1 = false :=
    ⟨_, rfl, by decide⟩
  obtain ⟨process, reach, isOpen, plain⟩ :=
    TransitionSystem.exists_reachable runs fun _ => rfl
  exact ⟨process, reach, ((getfd_reports_iff reach 1).1 isOpen).mpr plain⟩

/-- `open` with `O_CLOEXEC` is reported with the wrong bit, and `dup3` with `O_CLOEXEC` is not
reported. -/
theorem getfd_misreports : ∃ process, descriptorSystem.Reachable process ∧
      (fcntl process.files 0 .getfd).1 = .ok 0x80000 ∧ ¬ReportsFlag process 0 ∧
      (fcntl process.files 1 .getfd).1 = .ok 0 ∧ ¬ReportsFlag process 1 := by
  refine ⟨Process.step (Process.step ⟨fun _ => none, fun _ => true, fun _ => true⟩
    (.open oCloexec 0)) (.dup2 0 true 1 none),
    .step (.step (.initial fun _ => rfl) trivial rfl) trivial rfl, ?_⟩
  unfold ReportsFlag
  decide

end Mlibc.Pmos
