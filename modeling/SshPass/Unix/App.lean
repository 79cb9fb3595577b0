import SshPass.Unix.Registry

/-! # The application (`unix/unix_app.rs`, `unix/unix_event.rs`, `unix/unix_error.rs`)

`UnixApp` owns the poller and the one read buffer. A `Ref<[u8]>` into the buffer is a `Slice`: the
length of the view. Its bytes are looked up when it is used, so a slice shows whatever the buffer
holds then; its guard is in the borrow flag of the buffer until `dropSlice`. -/

namespace SshPass.Unix.App

open SshPass.Lib.CallTree SshPass.Lib.Borrow SshPass.Lib.Stateful SshPass.Lib.Stateful.Prog
open SshPass.Unix.Kernel SshPass.Unix.Registry

/-! ### Errors and events -/

inductive UnixError
  | StdIoError (e : IoError)
  | NixErrorno (e : Errno)
  | PollEventNotHandle
  deriving DecidableEq, Repr

/-- `Ref<[u8]>`: a view of the first `len` bytes of the buffer. -/
structure Slice where
  len : ℕ
  deriving DecidableEq, Repr

/-- `UnixEvent`. The reference to `siginfo` is its value: its guard keeps the buffer unchanged. -/
inductive UnixEvent
  | Stdin (index : ℕ) (buf : Slice)
  | PtyMaster (index : ℕ) (buf : Slice)
  | PtySlave (index : ℕ) (buf : Slice)
  | Signal (index : ℕ) (signal : Signal) (siginfo : Siginfo)
  | ReadZeroBytes
  | PollTimeout
  deriving DecidableEq

/-! ### Terminal attributes -/

def VTIME : Fin 32 := 5
def VMIN : Fin 32 := 6

def setKeypressMode (termios : Termios) : Termios :=
  { termios with
    cIflag := termios.cIflag &&&
      ~~~(IGNBRK ||| BRKINT ||| PARMRK ||| ISTRIP ||| INLCR ||| IGNCR ||| ICRNL ||| IXON)
    cOflag := termios.cOflag &&& ~~~OPOST
    cLflag := termios.cLflag &&& ~~~(ECHO ||| ECHONL ||| ICANON ||| ISIG ||| IEXTEN)
    cCflag := (termios.cCflag &&& ~~~(CSIZE ||| PARENB)) ||| CS8
    cCc := (termios.cCc.set VMIN 0).set VTIME 0 }

section

variable {σ : Type}

def setTermios (fd : RawFd) (termios : Termios) : Code σ (Except IoError Unit) :=
  ask (Sys.tcsetattr fd termios)

def getTermios (fd : RawFd) : Code σ (Except IoError Termios) := ask (Sys.tcgetattr fd)

/-- The number of `std::io::stdin()`. -/
def stdinFd : RawFd := 0

/-- The number of `std::io::stdout()`. -/
def stdoutFd : RawFd := 1

/-- `read_event`: the count, and the slice after the read. -/
def readEvent (fd : Desc) (buf : List Cell) : Code σ (Except Errno ℕ × List Cell) := do
  let res : Except Errno (Chunk fd.kind buf.length) ← ask (Sys.read fd buf.length)
  match res with
  | .error e =>
    if e.code = EAGAIN.code then return (.ok 0, buf) else return (.error e, buf)
  | .ok chunk =>
    return (.ok chunk.bytes.length, tag fd.kind chunk.bytes ++ buf.drop chunk.bytes.length)

end

/-! ### The read buffer -/

structure Buffer where
  buf : RefCell (List Cell)

namespace Buffer

def new (size : ℕ) : Buffer := ⟨RefCell.new (List.replicate size ⟨0, none⟩)⟩

/-- `get_slice_len`: a view of the first `len` bytes. -/
def getSliceLen (len : ℕ) : Code Buffer Slice := do
  let s ← state
  let vec ← takeGuard s.buf.borrow (fun c s => { s with buf := c }) .alreadyMutablyBorrowed
  if len ≤ vec.length then return ⟨len⟩ else abort .sliceIndex

/-- `get_mut_slice`: the whole buffer, to be written back with `setMutSlice`. -/
def getMutSlice : Code Buffer (List Cell) := do
  let s ← state
  takeGuard s.buf.borrowMut (fun c s => { s with buf := c }) .alreadyBorrowed

def setMutSlice (vec : List Cell) : Code Buffer Unit :=
  update fun s => { s with buf := s.buf.write vec }

def dropMutSlice : Code Buffer Unit := update fun s => { s with buf := s.buf.dropMut }

def dropSlice : Code Buffer Unit := update fun s => { s with buf := s.buf.dropRef }

/-- The bytes a view shows. -/
def deref (s : Buffer) (buf : Slice) : List Cell := s.buf.value.take buf.len

end Buffer

/-! ### The application -/

structure UnixApp where
  poller : Poller
  buf : Buffer

namespace UnixApp

def pollerField : Field UnixApp Poller := ⟨UnixApp.poller, fun p a => { a with poller := p }⟩

def bufField : Field UnixApp Buffer := ⟨UnixApp.buf, fun b a => { a with buf := b }⟩

def fdsField : Field UnixApp Fds :=
  ⟨fun a => a.poller.fds, fun f a => { a with poller := { a.poller with fds := f } }⟩

/-! ### Registration and restoration -/

def regPtyChild : Code UnixApp (Except UnixError Unit) := do
  let pty : Except Errno (RawFd × RawFd) ← ask Sys.openpty
  match pty with
  | .error _ => abort (.expect "Failed to open PTY")
  | .ok (master, slave) =>
    let status : Except Errno Pid ← ask Sys.fork
    match status with
    | .ok child =>
      zoom fdsField (update fun f => f.pushPtyFd ⟨master, slave⟩ child POLLIN)
      return .ok ()
    | .error e => return .error (.NixErrorno e)

def setNonCanonicalStdin : Code UnixApp (Except UnixError Unit) := do
  match ← getTermios stdinFd with
  | .error e => return .error (.StdIoError e)
  | .ok termiosModify =>
    match ← setTermios stdinFd (setKeypressMode termiosModify) with
    | .error e => return .error (.StdIoError e)
    | .ok _ => return .ok ()

def regNonCanonicalStdin : Code UnixApp (Except UnixError Unit) := do
  match ← getTermios stdinFd with
  | .error e => return .error (.StdIoError e)
  | .ok termios =>
    match ← setNonCanonicalStdin with
    | .error e => return .error e
    | .ok _ =>
      zoom fdsField (update fun f => f.pushStdinFd stdinFd termios POLLIN)
      return .ok ()

def regStdout : Code UnixApp (Except UnixError Unit) := do
  zoom fdsField (update fun f => f.pushStdoutFd stdoutFd POLLIN)
  return .ok ()

def regSignals : Code UnixApp (Except UnixError Unit) := do
  let mask := Signal.iterator.foldl SigSet.add SigSet.empty
  let oldMask : Except Errno SigSet ← ask Sys.threadGetMask
  match oldMask with
  | .error e => return .error (.NixErrorno e)
  | .ok oldMask =>
    let newMask := mask.toList.foldl SigSet.add oldMask
    let blocked : Except Errno Unit ← ask (Sys.threadBlock newMask)
    match blocked with
    | .error e => return .error (.NixErrorno e)
    | .ok _ =>
      let signalFd : Except Errno RawFd ← ask (Sys.signalfd newMask true true)
      match signalFd with
      | .error e => return .error (.NixErrorno e)
      | .ok signalFd =>
        zoom fdsField (update fun f => f.pushSignalFd signalFd POLLIN)
        return .ok ()

/-- `FdsIterator`, over the registry of the state. -/
structure FdsIterator where
  index : ℕ

/-- `FdsIterator::next`. The item carries the guard of its entry. -/
def FdsIterator.next (it : FdsIterator) : Code Fds (Option Fd × FdsIterator) := do
  let s ← state
  if it.index < s.len then
    let res ← Fds.borrowFd it.index
    return (some res, ⟨it.index + 1⟩)
  else return (none, it)

/-- The loop of `deinit`; `fuel` is more than the number of entries left. The guard of an entry is
dropped at the end of its iteration. -/
def deinitLoop : ℕ → FdsIterator → Code UnixApp Unit
  | 0, _ => return ()
  | fuel + 1, it => do
    match ← zoom fdsField it.next with
    | (none, _) => return ()
    | (some fd, it') =>
      match fd with
      | .Stdin fd _ termios =>
        let _ ← setTermios fd termios
      | _ => pure ()
      zoom fdsField (Fds.dropFd it.index)
      deinitLoop fuel it'

/-- `deinit`, the body of `drop`. -/
def deinit : Code UnixApp Unit := do
  let s ← state
  deinitLoop (s.poller.fds.len + 1) ⟨0⟩

/-- The value `new` starts from. -/
def fresh : UnixApp := ⟨Poller.new 200, Buffer.new 4096⟩

/-- The registrations of `new`. -/
def register : Code UnixApp (Except UnixError Unit) := do
  match ← regSignals with
  | .error e => return .error e
  | .ok _ =>
    match ← regPtyChild with
    | .error e => return .error e
    | .ok _ =>
      match ← regNonCanonicalStdin with
      | .error e => return .error e
      | .ok _ => regStdout

/-- `new`. On an error and on a panic the value built so far is dropped. -/
def new : Tree Sys Ans (Except Panic (Except UnixError UnixApp)) :=
  (register.run fresh).bind fun
    | (.ok (.ok _), app) => .ret (.ok (.ok app))
    | (.ok (.error e), app) => (deinit.run app).bind fun _ => .ret (.ok (.error e))
    | (.error p, app) => (deinit.run app).bind fun _ => .ret (.error p)

/-! ### Events -/

/-- `Self::read_event(fd.as_raw_fd(), &mut self.buf.get_mut_slice())`. -/
def readBuf (fd : Desc) : Code UnixApp (Except Errno ℕ) := do
  let vec ← zoom bufField Buffer.getMutSlice
  let (res, vec) ← readEvent fd vec
  zoom bufField (Buffer.setMutSlice vec)
  zoom bufField Buffer.dropMutSlice
  return res

/-- `map_ref_to_siginfo`. -/
def mapRefToSiginfo (bytes : Slice) : Code UnixApp Siginfo := do
  let s ← state
  let slice := (s.buf.deref bytes).map Cell.byte
  if h : sizeOfSiginfo ≤ slice.length then
    return ⟨slice.take sizeOfSiginfo, by rw [List.length_take]; exact Nat.min_eq_left h⟩
  else abort (.assertion "Slice too small")

def matchSignalEvent (index : ℕ) (fd : Desc) : Code UnixApp (Except UnixError UnixEvent) := do
  match ← readBuf fd with
  | .error e => return .error (.NixErrorno e)
  | .ok 0 => return .ok .ReadZeroBytes
  | .ok n =>
    let buf ← zoom bufField (Buffer.getSliceLen n)
    let res ← mapRefToSiginfo buf
    match Signal.tryFrom (asI32 res.ssiSigno) with
    | .error e =>
      zoom bufField Buffer.dropSlice
      return .error (.NixErrorno e)
    | .ok signal => return .ok (.Signal index signal res)

/-- The three functions below differ in the event they return. -/
def matchDataEvent (event : ℕ → Slice → UnixEvent) (index : ℕ) (fd : Desc) :
    Code UnixApp (Except UnixError UnixEvent) := do
  match ← readBuf fd with
  | .error e => return .error (.NixErrorno e)
  | .ok 0 => return .ok .ReadZeroBytes
  | .ok n =>
    let buf ← zoom bufField (Buffer.getSliceLen n)
    return .ok (event index buf)

def matchPtyMasterEvent (index : ℕ) (fd : Desc) : Code UnixApp (Except UnixError UnixEvent) :=
  matchDataEvent .PtyMaster index fd

def matchPtySlaveEvent (index : ℕ) (fd : Desc) : Code UnixApp (Except UnixError UnixEvent) :=
  matchDataEvent .PtySlave index fd

def matchStdinEvent (index : ℕ) (fd : Desc) : Code UnixApp (Except UnixError UnixEvent) :=
  matchDataEvent .Stdin index fd

/-- The match of `system_event` on the ready entry. -/
def dispatch (fd : Fd) (index : ℕ) : Code UnixApp (Except UnixError UnixEvent) :=
  match fd with
  | .Signal _ _ => matchSignalEvent index fd.desc
  | .PtyMaster _ _ _ => matchPtyMasterEvent index fd.desc
  | .PtySlave _ _ => matchPtySlaveEvent index fd.desc
  | .Stdin _ _ _ => matchStdinEvent index fd.desc
  | .Stdout _ _ => return .error .PollEventNotHandle

def systemEvent : Code UnixApp (Except UnixError UnixEvent) := do
  match ← zoom pollerField Poller.poll with
  | .error e => return .error (.NixErrorno e)
  | .ok 0 => return .ok .PollTimeout
  | .ok _ =>
    match ← zoom fdsField Poller.reventIter.next with
    | (some (fd, index), _) =>
      let res ← dispatch fd index
      -- the guard of the entry lives to the end of the match
      zoom fdsField (Fds.dropFd index)
      return res
    | (none, _) => return .error .PollEventNotHandle

/-! ### Writing -/

def sendTo (index : ℕ) (buf : Slice) : Code UnixApp Unit := do
  let s ← state
  zoom fdsField (Fds.sendTo index (s.buf.deref buf))

def writeToStdout (buf : Slice) : Code UnixApp Unit := do
  let s ← state
  zoom fdsField (Fds.writeToStdout (s.buf.deref buf))

def writeToStdin (buf : Slice) : Code UnixApp Unit := do
  let s ← state
  zoom fdsField (Fds.writeToStdin (s.buf.deref buf))

def writeToPtyMaster (buf : Slice) : Code UnixApp Unit := do
  let s ← state
  zoom fdsField (Fds.writeToPtyMaster (s.buf.deref buf))

end UnixApp

/-! ### The shutdown state -/

structure UnixAppStop where
  isStoped : Bool
  isStop : Bool
  stopTime : Option Instant
  stopCode? : Option ℤ
  stopError : Option String
  deriving DecidableEq, Repr

namespace UnixAppStop

def new : UnixAppStop where
  isStoped := false
  isStop := false
  stopTime := none
  stopCode? := none
  stopError := none

/-- `shutdown_starting`, at the instant `now`. -/
def shutdownStarting (s : UnixAppStop) (now : Instant) (stopCode : ℤ) (error : Option String) :
    UnixAppStop :=
  { s with
    stopTime := some now
    isStop := true
    isStoped := false
    stopCode? := some stopCode
    stopError := error }

def shutdownComplited (s : UnixAppStop) : UnixAppStop :=
  { s with isStop := false, isStoped := true }

def shutdownCancel (s : UnixAppStop) : UnixAppStop :=
  { s with
    isStop := false
    isStoped := false
    stopTime := none
    stopCode? := none
    stopError := none }

/-- `stop_code()`. -/
def stopCode (s : UnixAppStop) : ℤ := s.stopCode?.getD 255

end UnixAppStop

end SshPass.Unix.App
