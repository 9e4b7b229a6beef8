import Bdtrace.Types

/-! System call numbers of x86_64, as `ptrace_defs.h` lists them. -/
namespace Bdtrace

def sysOpen : BitVec 64 := 2
def sysStat : BitVec 64 := 4
def sysLstat : BitVec 64 := 6
def sysAccess : BitVec 64 := 21
def sysExecve : BitVec 64 := 59
def sysTruncate : BitVec 64 := 76
def sysChdir : BitVec 64 := 80
def sysFchdir : BitVec 64 := 81
def sysRename : BitVec 64 := 82
def sysMkdir : BitVec 64 := 83
def sysCreat : BitVec 64 := 85
def sysLink : BitVec 64 := 86
def sysUnlink : BitVec 64 := 87
def sysSymlink : BitVec 64 := 88
def sysReadlink : BitVec 64 := 89
def sysChmod : BitVec 64 := 90
def sysChown : BitVec 64 := 92
def sysMknod : BitVec 64 := 133
def sysOpenat : BitVec 64 := 257
def sysMkdirat : BitVec 64 := 258
def sysMknodat : BitVec 64 := 259
def sysFchownat : BitVec 64 := 260
def sysNewfstatat : BitVec 64 := 262
def sysUnlinkat : BitVec 64 := 263
def sysRenameat : BitVec 64 := 264
def sysLinkat : BitVec 64 := 265
def sysSymlinkat : BitVec 64 := 266
def sysReadlinkat : BitVec 64 := 267
def sysFchmodat : BitVec 64 := 268
def sysFaccessat : BitVec 64 := 269
def sysUtimensat : BitVec 64 := 280
def sysRenameat2 : BitVec 64 := 316
def sysExecveat : BitVec 64 := 322
def sysStatx : BitVec 64 := 332
def sysOpenat2 : BitVec 64 := 437
def sysFaccessat2 : BitVec 64 := 439

/-- `BD_TRACED_SYSCALLS`. -/
def tracedSyscalls : List (BitVec 64) :=
  [sysOpen, sysCreat, sysOpenat, sysOpenat2, sysStat, sysLstat, sysNewfstatat, sysStatx, sysAccess,
    sysFaccessat, sysFaccessat2, sysChdir, sysFchdir, sysRename, sysRenameat, sysRenameat2, sysMkdir,
    sysMkdirat, sysLink, sysLinkat, sysUnlink, sysUnlinkat, sysSymlink, sysSymlinkat, sysReadlink,
    sysReadlinkat, sysChmod, sysFchmodat, sysChown, sysFchownat, sysMknod, sysMknodat, sysTruncate,
    sysUtimensat, sysExecve, sysExecveat]

def enosys : Int := 38

end Bdtrace
