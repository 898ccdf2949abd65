import MockMessageBoard.Lib.Text
import Mathlib.Logic.Function.Basic

/-!
# Output file streams

`std::ofstream` over an abstract file system. A stream collects what is put
into it and hands it to its file when it is flushed or closed, so the file's
contents are only observed once the stream is closed. Opening the empty path
fails; a stream whose open failed discards everything.

`writeText_eq` is the one fact users need: opening a file, putting a text and
closing it again is `writeText`.
-/

namespace TextFile

/-- A path is a `std::string` like any other. -/
abbrev Path := Text

/-- The contents of every existing file. -/
abbrev FileSystem := Path → Option Text

/-- `ofstream::trunc` discards the old contents, `ofstream::app` keeps them. -/
inductive OpenMode where
  | trunc
  | app
  deriving DecidableEq, Repr

/-- An output stream: its file (`none` when the open failed) and the text it
has not yet handed to the file. -/
structure OfStream where
  target : Option Path
  pending : Text
  deriving DecidableEq, Repr

/-- The file `p` with `t` after its present contents. -/
def FileSystem.append (fs : FileSystem) (p : Path) (t : Text) : FileSystem :=
  Function.update fs p (some ((fs p).getD [] ++ t))

/-- The file `p` with the contents `t` only. -/
def FileSystem.replace (fs : FileSystem) (p : Path) (t : Text) : FileSystem :=
  Function.update fs p (some t)

/-- `file.open(p, mode)`. -/
def OfStream.open (p : Path) (mode : OpenMode) (fs : FileSystem) : OfStream × FileSystem :=
  if p = [] then (⟨none, []⟩, fs)
  else match mode with
    | .trunc => (⟨some p, []⟩, fs.replace p [])
    | .app => (⟨some p, []⟩, fs.append p [])

/-- `file << t`. -/
def OfStream.put (s : OfStream) (t : Text) : OfStream :=
  { s with pending := s.pending ++ t }

/-- `file.flush()`. -/
def OfStream.flush (s : OfStream) (fs : FileSystem) : OfStream × FileSystem :=
  match s.target with
  | none => (⟨none, []⟩, fs)
  | some p => (⟨some p, []⟩, fs.append p s.pending)

/-- `file.close()`. -/
def OfStream.close (s : OfStream) (fs : FileSystem) : FileSystem := (s.flush fs).2

/-- What writing the whole text `t` to the file `p` leaves behind. -/
def FileSystem.writeText (fs : FileSystem) (p : Path) (mode : OpenMode) (t : Text) :
    FileSystem :=
  if p = [] then fs
  else match mode with
    | .trunc => fs.replace p t
    | .app => fs.append p t

-- ---------------------------------------------------------------------------
-- Contents after a write
-- ---------------------------------------------------------------------------

@[simp] theorem OfStream.put_put (s : OfStream) (t t' : Text) :
    (s.put t).put t' = s.put (t ++ t') := by
  simp [OfStream.put]

@[simp] theorem OfStream.put_nil (s : OfStream) : s.put [] = s := by
  simp [OfStream.put]

@[simp] theorem FileSystem.append_same (fs : FileSystem) (p : Path) (t : Text) :
    fs.append p t p = some ((fs p).getD [] ++ t) := by
  simp [FileSystem.append]

@[simp] theorem FileSystem.replace_same (fs : FileSystem) (p : Path) (t : Text) :
    fs.replace p t p = some t := by
  simp [FileSystem.replace]

@[simp] theorem FileSystem.append_append (fs : FileSystem) (p : Path) (t t' : Text) :
    (fs.append p t).append p t' = fs.append p (t ++ t') := by
  simp [FileSystem.append]

@[simp] theorem FileSystem.append_replace (fs : FileSystem) (p : Path) (t t' : Text) :
    (fs.replace p t).append p t' = fs.replace p (t ++ t') := by
  simp [FileSystem.append, FileSystem.replace]

/-- **A whole write.** Open, put `t`, close. -/
theorem writeText_eq (fs : FileSystem) (p : Path) (mode : OpenMode) (t : Text) :
    ((OfStream.open p mode fs).1.put t).close (OfStream.open p mode fs).2 =
      fs.writeText p mode t := by
  by_cases hp : p = []
  · simp [OfStream.open, OfStream.put, OfStream.close, OfStream.flush,
      FileSystem.writeText, hp]
  · cases mode <;>
      simp [OfStream.open, OfStream.put, OfStream.close, OfStream.flush,
        FileSystem.writeText, hp]

theorem writeText_trunc_same (fs : FileSystem) {p : Path} (hp : p ≠ []) (t : Text) :
    fs.writeText p .trunc t p = some t := by
  unfold FileSystem.writeText
  rw [if_neg hp]
  exact fs.replace_same p t

theorem writeText_app_same (fs : FileSystem) {p : Path} (hp : p ≠ []) (t : Text) :
    fs.writeText p .app t p = some ((fs p).getD [] ++ t) := by
  unfold FileSystem.writeText
  rw [if_neg hp]
  exact fs.append_same p t

/-- When a write leaves the whole file system as it was. -/
theorem writeText_eq_self_iff (fs : FileSystem) {p : Path} (hp : p ≠ []) (mode : OpenMode)
    (t : Text) : fs.writeText p mode t = fs ↔
      match mode with
      | .trunc => fs p = some t
      | .app => t = [] ∧ (fs p).isSome := by
  unfold FileSystem.writeText
  rw [if_neg hp]
  cases mode with
  | trunc =>
    show Function.update fs p (some t) = fs ↔ fs p = some t
    rw [Function.update_eq_self_iff, eq_comm]
  | app =>
    show Function.update fs p (some ((fs p).getD [] ++ t)) = fs ↔ t = [] ∧ (fs p).isSome
    rw [Function.update_eq_self_iff]
    cases fs p with
    | none => simp
    | some old => simp

end TextFile
