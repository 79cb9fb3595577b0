import SshPass.Unix.App

/-! # The event loop (`main.rs`)

One iteration gets an event, handles it (`matchEvent`), and unless that broke the loop sends out the
responses queued on the channel (`tryIter`). `Runs app ts s` says that the loop over `app` reaches
the start of an iteration in the state `s` after iterations with the traces `ts`. -/

namespace SshPass.EventLoop.Program

open SshPass.Lib.CallTree SshPass.Lib.Borrow SshPass.Lib.Stateful SshPass.Lib.Stateful.Prog
open SshPass.Unix.Kernel SshPass.Unix.Registry SshPass.Unix.App

inductive UnixEventResponse
  | SendTo (index : ℕ) (buf : Slice)
  | WriteToStdOut (buf : Slice)
  | WriteToStdIn (buf : Slice)
  | WriteToPtyMaster (buf : Slice)
  deriving DecidableEq, Repr

/-- `mpsc::channel()`: what was sent and not received, and whether the receiver is alive. -/
structure Channel where
  queue : List UnixEventResponse
  rxAlive : Bool

/-- The variables of the loop. -/
structure Loop where
  app : UnixApp
  stop : UnixAppStop
  chan : Channel

namespace Loop

/-- The state before the first iteration. -/
def start (app : UnixApp) : Loop := ⟨app, UnixAppStop.new, ⟨[], true⟩⟩

def appField : Field Loop UnixApp := ⟨Loop.app, fun a s => { s with app := a }⟩

/-- `tx.send(res).unwrap()`. -/
def send (res : UnixEventResponse) : Code Loop Unit := do
  let s ← state
  if s.chan.rxAlive then
    update fun s => { s with chan := { s.chan with queue := s.chan.queue ++ [res] } }
  else abort .unwrapErr

/-- The guard of an event or a response goes out of scope. -/
def dropGuard : Code Loop Unit := zoom appField (zoom UnixApp.bufField Buffer.dropSlice)

/-- `stop.shutdown_starting(code, error)`. -/
def shutdownStarting (stopCode : ℤ) (error : Option String) : Code Loop Unit := do
  let now : Instant ← ask Sys.now
  update fun s => { s with stop := s.stop.shutdownStarting now stopCode error }

/-- The match on the result of `system_event`; `some code` is `break code`. -/
def matchEvent : Except UnixError UnixEvent → Code Loop (Option ℤ)
  | .ok .PollTimeout => do
    let s ← state
    if s.stop.isStoped then return some s.stop.stopCode else return none
  | .ok (.PtyMaster _ buf) => do
    send (.WriteToStdOut buf)
    return none
  | .ok (.PtySlave _ _) => do
    dropGuard
    return none
  | .ok (.Stdin _ buf) => do
    send (.WriteToPtyMaster buf)
    return none
  | .ok (.Signal _ sig siginfo) => do
    if sig = .SIGINT ∨ sig = .SIGTERM then
      shutdownStarting 0 none
    if sig = .SIGCHLD then
      let _ ← ask (Sys.waitpid (asI32 siginfo.ssiPid))
    dropGuard
    return none
  | .ok .ReadZeroBytes => return none
  | .error (.StdIoError e) => do
    shutdownStarting 1 (some ("IO Error: " ++ e.text))
    return none
  | .error (.NixErrorno e) => do
    shutdownStarting 2 (some ("Nix Error: " ++ e.text))
    return none
  | .error .PollEventNotHandle => do
    shutdownStarting 3 (some "the poll event not handle")
    return none

/-- The match on a response. -/
def respond : UnixEventResponse → Code UnixApp Unit
  | .SendTo index buf => UnixApp.sendTo index buf
  | .WriteToStdOut buf => UnixApp.writeToStdout buf
  | .WriteToStdIn buf => UnixApp.writeToStdin buf
  | .WriteToPtyMaster buf => UnixApp.writeToPtyMaster buf

/-- The loop over `rx.try_iter()`; no arm sends, so `fuel` is the length of the queue. -/
def tryIterLoop : ℕ → Code Loop Unit
  | 0 => return ()
  | fuel + 1 => do
    let s ← state
    match s.chan.queue with
    | [] => return ()
    | res :: queue =>
      update fun s => { s with chan := { s.chan with queue := queue } }
      zoom appField (respond res)
      dropGuard
      tryIterLoop fuel

def tryIter : Code Loop Unit := do
  let s ← state
  tryIterLoop s.chan.queue.length

/-- What the loop does with the result of `system_event`. -/
def handle (res : Except UnixError UnixEvent) : Code Loop (Option ℤ) := do
  match ← matchEvent res with
  | some code => return some code
  | none =>
    tryIter
    return none

/-- The body of the loop; `some code` is `break code`. -/
def body : Code Loop (Option ℤ) := do
  let res ← zoom appField UnixApp.systemEvent
  handle res

end Loop

/-! ### Runs -/

/-- `app` is what `UnixApp::new` returns, for some answers of the kernel. -/
def Built (app : UnixApp) : Prop := ∃ t, UnixApp.new.Exec t (.ok (.ok app))

/-- The loop over `app` reaches the start of an iteration in the state `s`, after iterations with
the traces `ts`. -/
inductive Runs (app : UnixApp) : List (List SysEvent) → Loop → Prop
  | start : Runs app [] (Loop.start app)
  | iterate {ts : List (List SysEvent)} {s s' : Loop} {t : List SysEvent} (h : Runs app ts s)
      (hb : (Loop.body.run s).Exec t (.ok none, s')) : Runs app (ts ++ [t]) s'

/-- **An invariant of the loop**: it holds at the start and every iteration keeps it. -/
theorem Runs.invariant {app : UnixApp} {P : List (List SysEvent) → Loop → Prop}
    (h0 : P [] (Loop.start app))
    (hstep : ∀ ts s t s', P ts s → (Loop.body.run s).Exec t (.ok none, s') → P (ts ++ [t]) s')
    {ts : List (List SysEvent)} {s : Loop} (h : Runs app ts s) : P ts s := by
  induction h with
  | start => exact h0
  | iterate _ hb ih => exact hstep _ _ _ _ ih hb

end SshPass.EventLoop.Program
