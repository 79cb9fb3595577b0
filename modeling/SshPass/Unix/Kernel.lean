import SshPass.Lib.Stateful
import Mathlib.Data.Int.Notation

/-! # The calls to the operating system

`Sys` lists the system calls the program makes, `Ans` what the kernel may answer: any error or any
result the call can have. What the kernel guarantees of a result is part of its type: a read returns
at most as many bytes as asked for and, from a signalfd, whole `signalfd_siginfo` records (`Chunk`);
a write accepts a prefix of what it is given. -/

namespace SshPass.Unix.Kernel

open SshPass.Lib.CallTree SshPass.Lib.Stateful

/-- `RawFd`, an `i32`. -/
abbrev RawFd := ℤ

/-- `nix::unistd::Pid`, an `i32`. -/
abbrev Pid := ℤ

/-- `std::time::Instant`. -/
abbrev Instant := ℕ

/-- `nix::errno::Errno`: the number and what `Display` prints. -/
structure Errno where
  code : ℤ
  text : String
  deriving DecidableEq, Repr

/-- `std::io::Error`: what `Display` prints. -/
structure IoError where
  text : String
  deriving DecidableEq, Repr

def EAGAIN : Errno := ⟨11, "EAGAIN: Try again"⟩

def EINVAL : Errno := ⟨22, "EINVAL: Invalid argument"⟩

/-! ### Signals -/

/-- `nix::sys::signal::Signal` on Linux. -/
inductive Signal
  | SIGHUP | SIGINT | SIGQUIT | SIGILL | SIGTRAP | SIGABRT | SIGBUS | SIGFPE | SIGKILL | SIGUSR1
  | SIGSEGV | SIGUSR2 | SIGPIPE | SIGALRM | SIGTERM | SIGSTKFLT | SIGCHLD | SIGCONT | SIGSTOP
  | SIGTSTP | SIGTTIN | SIGTTOU | SIGURG | SIGXCPU | SIGXFSZ | SIGVTALRM | SIGPROF | SIGWINCH
  | SIGIO | SIGPWR | SIGSYS
  deriving DecidableEq, Repr

namespace Signal

/-- `Signal::iterator`: the signals of `Signal`, by number from `1`. -/
def iterator : List Signal :=
  [SIGHUP, SIGINT, SIGQUIT, SIGILL, SIGTRAP, SIGABRT, SIGBUS, SIGFPE, SIGKILL, SIGUSR1, SIGSEGV,
    SIGUSR2, SIGPIPE, SIGALRM, SIGTERM, SIGSTKFLT, SIGCHLD, SIGCONT, SIGSTOP, SIGTSTP, SIGTTIN,
    SIGTTOU, SIGURG, SIGXCPU, SIGXFSZ, SIGVTALRM, SIGPROF, SIGWINCH, SIGIO, SIGPWR, SIGSYS]

/-- The number of a signal, from `1` to `31`. -/
def number (s : Signal) : ℕ := iterator.idxOf s + 1

/-- `Signal::try_from` on an `i32`. -/
def tryFrom (n : ℤ) : Except Errno Signal :=
  if 1 ≤ n then
    match iterator[(n - 1).toNat]? with
    | some s => .ok s
    | none => .error EINVAL
  else .error EINVAL

end Signal

/-- `SigSet`, by the numbers of the signals: `Signal` has none for the real-time signals, which the
kernel masks like any other. -/
abbrev SigSet := ℕ → Bool

namespace SigSet

def empty : SigSet := fun _ => false

def add (m : SigSet) (s : Signal) : SigSet := fun n => n = s.number || m n

/-- `SigSet::iter`: the signals of the set that `Signal` has, in the order of their numbers. -/
def toList (m : SigSet) : List Signal := Signal.iterator.filter fun s => m s.number

end SigSet

/-- The little-endian `u32` at offset `off`. -/
def u32At (bs : List UInt8) (off : ℕ) : ℕ :=
  (bs.getD off 0).toNat + 256 * (bs.getD (off + 1) 0).toNat +
    65536 * (bs.getD (off + 2) 0).toNat + 16777216 * (bs.getD (off + 3) 0).toNat

/-- The cast `u32 as i32`. -/
def asI32 (n : ℕ) : ℤ := if n < 2147483648 then n else (n : ℤ) - 4294967296

/-- `size_of::<siginfo>()`. -/
def sizeOfSiginfo : ℕ := 128

/-- `siginfo`, the `signalfd_siginfo` of the kernel. -/
structure Siginfo where
  bytes : List UInt8
  len : bytes.length = sizeOfSiginfo
  deriving DecidableEq

namespace Siginfo

/-- `ssi_signo`, a `u32`. -/
def ssiSigno (x : Siginfo) : ℕ := u32At x.bytes 0

/-- `ssi_pid`, a `u32`. -/
def ssiPid (x : Siginfo) : ℕ := u32At x.bytes 12

end Siginfo

/-! ### Terminal attributes -/

/-- `termios::Termios` on Linux. -/
structure Termios where
  cIflag : UInt32
  cOflag : UInt32
  cCflag : UInt32
  cLflag : UInt32
  cLine : UInt8
  cCc : Vector UInt8 32
  cIspeed : UInt32
  cOspeed : UInt32
  deriving DecidableEq

def IGNBRK : UInt32 := 0o000001
def BRKINT : UInt32 := 0o000002
def PARMRK : UInt32 := 0o000010
def ISTRIP : UInt32 := 0o000040
def INLCR : UInt32 := 0o000100
def IGNCR : UInt32 := 0o000200
def ICRNL : UInt32 := 0o000400
def IXON : UInt32 := 0o002000
def OPOST : UInt32 := 0o000001
def CSIZE : UInt32 := 0o000060
def CS8 : UInt32 := 0o000060
def PARENB : UInt32 := 0o000400
def ISIG : UInt32 := 0o000001
def ICANON : UInt32 := 0o000002
def ECHO : UInt32 := 0o000010
def ECHONL : UInt32 := 0o000100
def IEXTEN : UInt32 := 0o100000

/-! ### Descriptors and bytes -/

/-- The kinds of descriptors, the constructors of `Fd`. -/
inductive Kind
  | Signal | Stdin | Stdout | PtyMaster | PtySlave
  deriving DecidableEq, Repr

/-- A descriptor: its number, and the kind of the registry entry it was taken from. -/
structure Desc where
  kind : Kind
  raw : RawFd
  deriving DecidableEq, Repr

/-- A byte of the read buffer. `src` is a ghost: the kind of descriptor it was read from, `none` for
the zeros of a fresh buffer. The program never looks at it. -/
structure Cell where
  byte : UInt8
  src : Option Kind
  deriving DecidableEq, Repr

/-- The bytes `bs` as read from a descriptor of kind `k`. -/
def tag (k : Kind) (bs : List UInt8) : List Cell := bs.map fun b => ⟨b, some k⟩

/-- What a read of `len` bytes from a descriptor of kind `k` returns. -/
structure Chunk (k : Kind) (len : ℕ) where
  bytes : List UInt8
  le : bytes.length ≤ len
  records : k = .Signal → sizeOfSiginfo ∣ bytes.length

/-- What a successful `poll` returns: its count, and the `revents` it stored, by position. -/
structure Polled where
  n : ℕ
  revents : ℕ → Int16

def POLLIN : Int16 := 1

/-! ### The calls -/

/-- The system calls. `poll` is given the descriptor and `events` of each entry of the array, and
the count. -/
inductive Sys
  | poll (fds : List (RawFd × Int16)) (nfds : ℕ) (timeout : ℤ)
  | read (fd : Desc) (len : ℕ)
  | write (fd : Desc) (buf : List Cell)
  | waitpid (pid : Pid)
  | now
  | tcgetattr (fd : RawFd)
  | tcsetattr (fd : RawFd) (termios : Termios)
  | threadGetMask
  | threadBlock (mask : SigSet)
  | signalfd (mask : SigSet) (nonblock cloexec : Bool)
  | openpty
  | fork

/-- The answers. Nothing but a log line depends on what `waitpid` returns; `fork` returns in the
parent. -/
@[reducible] def Ans : Sys → Type
  | .poll _ _ _ => Except Errno Polled
  | .read fd len => Except Errno (Chunk fd.kind len)
  | .write _ buf => Except Errno (Fin (buf.length + 1))
  | .waitpid _ => Unit
  | .now => Instant
  | .tcgetattr _ => Except IoError Termios
  | .tcsetattr _ _ => Except IoError Unit
  | .threadGetMask => Except Errno SigSet
  | .threadBlock _ => Except Errno Unit
  | .signalfd _ _ _ => Except Errno RawFd
  | .openpty => Except Errno (RawFd × RawFd)
  | .fork => Except Errno Pid

instance : ∀ o, Nonempty (Ans o)
  | .poll _ _ _ => ⟨.error EINVAL⟩
  | .read _ _ => ⟨.error EINVAL⟩
  | .write _ _ => ⟨.error EINVAL⟩
  | .waitpid _ => ⟨()⟩
  | .now => ⟨(0 : ℕ)⟩
  | .tcgetattr _ => ⟨.error ⟨""⟩⟩
  | .tcsetattr _ _ => ⟨.error ⟨""⟩⟩
  | .threadGetMask => ⟨.error EINVAL⟩
  | .threadBlock _ => ⟨.error EINVAL⟩
  | .signalfd _ _ _ => ⟨.error EINVAL⟩
  | .openpty => ⟨.error EINVAL⟩
  | .fork => ⟨.error EINVAL⟩

/-- A system call with its answer. -/
abbrev SysEvent := Event Sys Ans

/-- The ways a run panics. -/
inductive Panic
  | alreadyBorrowed
  | alreadyMutablyBorrowed
  | unwrapNone
  | unwrapErr
  | sliceIndex
  | assertion (text : String)
  | expect (text : String)
  deriving DecidableEq, Repr

/-- The methods of a Rust value of type `σ`. -/
abbrev Code (σ α : Type) := Prog Sys Ans Panic σ α

theorem tag_length (k : Kind) (bs : List UInt8) : (tag k bs).length = bs.length := by simp [tag]

theorem mem_tag {k : Kind} {bs : List UInt8} {c : Cell} (h : c ∈ tag k bs) : c.src = some k := by
  obtain ⟨b, -, rfl⟩ := List.mem_map.mp h
  rfl

theorem tag_eq_nil {k : Kind} {bs : List UInt8} : tag k bs = [] ↔ bs = [] := by simp [tag]

end SshPass.Unix.Kernel
