import SshPass.Unix.Kernel

/-! # The registry of descriptors (`unix/fds.rs`)

`Fds` holds the descriptors that are polled, each behind a `RefCell`, a cache of the `pollfd` array
behind another one, and one index per kind. A guard that a function returns is left in the borrow
flag of its cell; whoever holds the guard drops it with `dropFd` or `dropPollfds`. -/

namespace SshPass.Unix.Registry

open SshPass.Lib.CallTree SshPass.Lib.Borrow SshPass.Lib.Stateful SshPass.Lib.Stateful.Prog
open SshPass.Unix.Kernel

/-! ### Descriptors -/

inductive Fd
  | Signal (fd : RawFd) (events : Int16)
  | Stdin (fd : RawFd) (events : Int16) (termios : Termios)
  | Stdout (fd : RawFd) (events : Int16)
  | PtyMaster (fd : RawFd) (events : Int16) (child : Pid)
  | PtySlave (fd : RawFd) (events : Int16)
  deriving DecidableEq

namespace Fd

def asRawFd : Fd → RawFd
  | Signal fd _ => fd
  | Stdin fd _ _ => fd
  | Stdout fd _ => fd
  | PtyMaster fd _ _ => fd
  | PtySlave fd _ => fd

def events : Fd → Int16
  | Signal _ events => events
  | Stdin _ events _ => events
  | Stdout _ events => events
  | PtyMaster _ events _ => events
  | PtySlave _ events => events

def kind : Fd → Kind
  | Signal _ _ => .Signal
  | Stdin _ _ _ => .Stdin
  | Stdout _ _ => .Stdout
  | PtyMaster _ _ _ => .PtyMaster
  | PtySlave _ _ => .PtySlave

/-- The descriptor as a target of system calls. -/
def desc (f : Fd) : Desc := ⟨f.kind, f.asRawFd⟩

end Fd

/-- `libc::pollfd`. -/
structure Pollfd where
  fd : RawFd
  events : Int16
  revents : Int16
  deriving DecidableEq

/-- `nix::pty::OpenptyResult`. -/
structure OpenptyResult where
  master : RawFd
  slave : RawFd

structure Fds where
  inner : List (RefCell Fd)
  pollfds : RefCell (Option (List Pollfd))
  signalfdIndex : Option ℕ
  stdinIndex : Option ℕ
  stdoutIndex : Option ℕ
  ptyMasterIndex : Option ℕ
  ptySlaveIndex : Option ℕ

namespace Fds

def new : Fds where
  inner := []
  pollfds := RefCell.new none
  signalfdIndex := none
  stdinIndex := none
  stdoutIndex := none
  ptyMasterIndex := none
  ptySlaveIndex := none

def len (s : Fds) : ℕ := s.inner.length

/-! ### Registration -/

/-- `_push_fd`: the cache is dropped with every new entry. -/
def pushFdRaw (s : Fds) (newFd : Fd) : Fds :=
  { s with inner := s.inner ++ [RefCell.new newFd], pollfds := RefCell.new none }

/-- `push_fd`: the arms of the match are all the same. -/
def pushFd (s : Fds) (newFd : Fd) : Fds := s.pushFdRaw newFd

/-- `push_pty_fd`. Both assignments go to `pty_master_index`. -/
def pushPtyFd (s : Fds) (ptyFd : OpenptyResult) (child : Pid) (events : Int16) : Fds :=
  let s := s.pushFdRaw (.PtyMaster ptyFd.master events child)
  let s := { s with ptyMasterIndex := some (s.inner.length - 1) }
  let s := s.pushFdRaw (.PtySlave ptyFd.slave events)
  { s with ptyMasterIndex := some (s.inner.length - 1) }

def pushSignalFd (s : Fds) (signalFd : RawFd) (events : Int16) : Fds :=
  let s := s.pushFdRaw (.Signal signalFd events)
  { s with signalfdIndex := some (s.inner.length - 1) }

def pushStdoutFd (s : Fds) (stdout : RawFd) (events : Int16) : Fds :=
  let s := s.pushFdRaw (.Stdout stdout events)
  { s with stdoutIndex := some (s.inner.length - 1) }

def pushStdinFd (s : Fds) (stdin : RawFd) (termios : Termios) (events : Int16) : Fds :=
  let s := s.pushFdRaw (.Stdin stdin events termios)
  { s with stdinIndex := some (s.inner.length - 1) }

/-- Forget the index of a kind. -/
def clearIndex (s : Fds) : Kind → Fds
  | .Signal => { s with signalfdIndex := none }
  | .Stdin => { s with stdinIndex := none }
  | .Stdout => { s with stdoutIndex := none }
  | .PtyMaster => { s with ptyMasterIndex := none }
  | .PtySlave => { s with ptySlaveIndex := none }

/-- `pop_fd`. The receiver is `&mut self`, so no guard of the popped cell is live. -/
def popFd (s : Fds) : Fds :=
  match s.inner.getLast? with
  | none => s
  | some fd =>
    let s := { s with inner := s.inner.dropLast }
    { s.clearIndex fd.value.kind with pollfds := RefCell.new none }

/-! ### Guards -/

def borrowMutPollfds : Code Fds (Option (List Pollfd)) := do
  let s ← state
  takeGuard s.pollfds.borrowMut (fun c s => { s with pollfds := c }) .alreadyBorrowed

def dropPollfds : Code Fds Unit := update fun s => { s with pollfds := s.pollfds.dropMut }

/-- Write through the guard of the cache. -/
def writePollfds (l : List Pollfd) : Code Fds Unit :=
  update fun s => { s with pollfds := s.pollfds.write (some l) }

/-- `get_fd_by_index(index).unwrap().borrow()`. -/
def borrowFd (index : ℕ) : Code Fds Fd := do
  let s ← state
  match s.inner[index]? with
  | none => abort .unwrapNone
  | some c =>
    takeGuard c.borrow (fun c s => { s with inner := s.inner.set index c }) .alreadyMutablyBorrowed

def dropFd (index : ℕ) : Code Fds Unit :=
  update fun s => { s with inner := s.inner.modify index RefCell.dropRef }

/-! ### The `pollfd` array -/

/-- The closure of `as_pollfds`: both of its guards live to its end. -/
def toPollfd (c : RefCell Fd) : Except Panic Pollfd :=
  match c.borrow.bind RefCell.borrow with
  | some c => .ok { fd := c.value.asRawFd, events := c.value.events, revents := 0 }
  | none => .error .alreadyMutablyBorrowed

/-- `as_pollfds`. The guard it returns is left on `pollfds`. -/
def asPollfds : Code Fds (List Pollfd) := do
  let res ← borrowMutPollfds
  dropPollfds
  if res.isNone then
    let s ← state
    match s.inner.mapM toPollfd with
    | .error e => abort e
    | .ok fds =>
      let _ ← borrowMutPollfds
      writePollfds fds
      dropPollfds
  match ← borrowMutPollfds with
  | some l => return l
  | none => abort .unwrapNone

/-- `get_pollfd_by_raw_id`: the first entry with that number, with its position. -/
def getPollfdByRawId (pollfds : List Pollfd) (rawFd : RawFd) : Option (ℕ × Pollfd) :=
  (pollfds.findIdx? fun x => x.fd = rawFd).bind fun k => pollfds[k]?.map fun x => (k, x)

/-! ### The iterators -/

/-- The loop of `PollReventIterator::next`, which gets the array from `getPollfds`; `fuel` is
`len - index`. An item carries the guard of its entry. -/
def nextLoop (getPollfds : Code Fds (List Pollfd)) : ℕ → ℕ → Code Fds (Option (Fd × ℕ) × ℕ)
  | 0, index => return (none, index)
  | fuel + 1, index => do
    let fd ← borrowFd index
    let pollfds ← getPollfds
    match getPollfdByRawId pollfds fd.asRawFd with
    | some (k, res) =>
      if res.revents ≠ 0 then
        writePollfds (pollfds.set k { res with revents := 0 })
        dropPollfds
        return (some (fd, index), index + 1)
      else
        dropPollfds
        dropFd index
        nextLoop getPollfds fuel (index + 1)
    | none =>
      dropPollfds
      dropFd index
      nextLoop getPollfds fuel (index + 1)

/-! ### Writing -/

/-- `send_to`. Every arm of the match writes the buffer once; the result is only logged. -/
def sendTo (index : ℕ) (buf : List Cell) : Code Fds Unit := do
  let s ← state
  match s.inner[index]? with
  | none => return ()
  | some c =>
    let fd ← takeGuard c.borrowMut (fun c s => { s with inner := s.inner.set index c })
      .alreadyBorrowed
    let _ ← ask (.write fd.desc buf)
    update fun s => { s with inner := s.inner.modify index RefCell.dropMut }

def writeToStdout (buf : List Cell) : Code Fds Unit := do
  match (← state).stdoutIndex with
  | some index => sendTo index buf
  | none => return ()

def writeToStdin (buf : List Cell) : Code Fds Unit := do
  match (← state).stdinIndex with
  | some index => sendTo index buf
  | none => return ()

def writeToPtyMaster (buf : List Cell) : Code Fds Unit := do
  match (← state).ptyMasterIndex with
  | some index => sendTo index buf
  | none => return ()

end Fds

/-! ### The poller -/

/-- `PollReventIterator`, over the registry of the state. -/
structure PollReventIterator where
  index : ℕ

/-- `next`, which gets the array from `getPollfds`. -/
def PollReventIterator.nextWith (getPollfds : Code Fds (List Pollfd)) (it : PollReventIterator) :
    Code Fds (Option (Fd × ℕ) × PollReventIterator) := do
  let s ← state
  let (item, index) ← Fds.nextLoop getPollfds (s.len - it.index) it.index
  return (item, ⟨index⟩)

/-- `PollReventIterator::next`. -/
def PollReventIterator.next (it : PollReventIterator) :
    Code Fds (Option (Fd × ℕ) × PollReventIterator) := it.nextWith Fds.asPollfds

structure Poller where
  fds : Fds
  pollTimeout : ℤ

namespace Poller

def new (pollTimeout : ℤ) : Poller := ⟨Fds.new, pollTimeout⟩

def fdsField : Field Poller Fds := ⟨Poller.fds, fun f p => { p with fds := f }⟩

/-- What the kernel stores in the array: `revents` of the first `nfds` entries. -/
def storeRevents (l : List Pollfd) (nfds : ℕ) (revents : ℕ → Int16) : List Pollfd :=
  l.mapIdx fun k x => if k < nfds then { x with revents := revents k } else x

/-- `poll`, which gets the array from `getPollfds`. The guard of the array lives to the end of the
call. -/
def pollWith (getPollfds : Code Fds (List Pollfd)) : Code Poller (Except Errno ℕ) := do
  let l ← zoom fdsField getPollfds
  let p ← state
  let res : Except Errno Polled ←
    ask (Sys.poll (l.map fun x => (x.fd, x.events)) p.fds.len p.pollTimeout)
  match res with
  | .error e =>
    zoom fdsField Fds.dropPollfds
    return .error e
  | .ok polled =>
    zoom fdsField (Fds.writePollfds (storeRevents l p.fds.len polled.revents))
    zoom fdsField Fds.dropPollfds
    return .ok polled.n

def poll : Code Poller (Except Errno ℕ) := pollWith Fds.asPollfds

def reventIter : PollReventIterator := ⟨0⟩

end Poller

end SshPass.Unix.Registry
