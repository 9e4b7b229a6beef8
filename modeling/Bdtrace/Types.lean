import Mathlib.Algebra.Order.Ring.Int
import Mathlib.Data.Finset.Insert
import Mathlib.Logic.Function.Basic

/-! Records shared by the tracer, the trace database and the viewers. -/
namespace Bdtrace

/-- A `std::string`, one character per byte. -/
abbrev Str := List Char

/-- Reduction of an integer to a 32-bit signed `int`. -/
def int32 (x : Int) : Int := Int.bmod x (2 ^ 32)

theorem int32_of_range {x : Int} (h0 : -2147483648 ≤ x) (h1 : x < 2147483648) : int32 x = x :=
  Int.bmod_eq_of_le (by omega) (by omega)

/-- Reduction of an integer to a 64-bit signed `int64_t`. -/
def int64 (x : Int) : Int := Int.bmod x (2 ^ 64)

theorem int64_of_range {x : Int} (h0 : -2 ^ 63 ≤ x) (h1 : x < 2 ^ 63) : int64 x = x :=
  Int.bmod_eq_of_le (by omega) (by omega)

theorem int32_of_small {x : Int} (h0 : 0 ≤ x) (h1 : x < 2147483648) : int32 x = x :=
  Int.bmod_eq_of_le (by omega) (by omega)

/-- The modes of `FileAccessMode`, in the order of their codes. -/
inductive FileAccessMode where
  | read | write | rdwr | stat | access | exec | unlink | renameSrc | renameDst | readlink | mkdir
  | linkSrc | linkDst | symlinkTarget | symlinkLink | chmod | chown | truncate | mknod | utimens | chdir
  deriving DecidableEq, Repr

namespace FileAccessMode

/-- The integer stored in the `mode` columns. -/
def code : FileAccessMode → Int
  | read => 0 | write => 1 | rdwr => 2 | stat => 3 | access => 4 | exec => 5 | unlink => 6
  | renameSrc => 7 | renameDst => 8 | readlink => 9 | mkdir => 10 | linkSrc => 11 | linkDst => 12
  | symlinkTarget => 13 | symlinkLink => 14 | chmod => 15 | chown => 16 | truncate => 17
  | mknod => 18 | utimens => 19 | chdir => 20

theorem code_injective : Function.Injective code := by
  intro a b h
  cases a <;> cases b <;> first | rfl | exact absurd h (by decide)

end FileAccessMode

/-- A row of `processes`, which is also what the tracer hands to the session. -/
structure ProcessRecord where
  pid : Int := 0
  ppid : Int := 0
  cmdline : Str := []
  cwd : Str := []
  startTimeUs : Int := 0
  endTimeUs : Int := 0
  exitCode : Int := -1
  userTimeUs : Int := 0
  sysTimeUs : Int := 0
  peakRssKb : Int := 0
  ioReadBytes : Int := 0
  ioWriteBytes : Int := 0
  fileCount : Int := 0
  failCount : Int := 0
  deriving DecidableEq, Repr

/-- What an exit report adds to a process row. -/
structure ProcessExit where
  endTimeUs : Int
  exitCode : Int
  userTimeUs : Int := 0
  sysTimeUs : Int := 0
  peakRssKb : Int := 0
  ioReadBytes : Int := 0
  ioWriteBytes : Int := 0
  deriving DecidableEq, Repr

structure FileAccessRecord where
  pid : Int := 0
  filename : Str := []
  mode : FileAccessMode := .read
  fd : Int := -1
  timestampUs : Int := 0
  deriving DecidableEq, Repr

structure FailedAccessRecord where
  pid : Int := 0
  filename : Str := []
  mode : FileAccessMode := .read
  errnoVal : Int := 0
  timestampUs : Int := 0
  deriving DecidableEq, Repr

end Bdtrace
