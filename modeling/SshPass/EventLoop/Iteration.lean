import SshPass.EventLoop.Construction
import SshPass.EventLoop.Footprint

/-! # The loop over a built application

A built application is the application over what `new` registers (`app_eq`), so the loop over it is
the loop over that registry: what it reads from the master goes to stdout, and what it reads from
stdin to the slave (`route`). No run over it panics (`no_panic`). -/

namespace SshPass.EventLoop.Iteration

open SshPass.Lib.CallTree SshPass.Lib.Stateful
open SshPass.Unix.Kernel SshPass.Unix.Registry SshPass.Unix.RegistrySpec SshPass.Unix.Indices
open SshPass.Unix.Cache SshPass.Unix.App SshPass.Unix.AppSpec
open SshPass.EventLoop.Program SshPass.EventLoop.Construction SshPass.EventLoop.Wiring
open SshPass.EventLoop.Footprint

/-- The registrations of `new`. -/
def startOps (r : Startup) : List Op :=
  [.pushSignalFd r.signal POLLIN, .pushPtyFd ⟨r.master, r.slave⟩ r.child POLLIN,
    .pushStdinFd stdinFd r.termios POLLIN, .pushStdoutFd stdoutFd POLLIN]

theorem app_eq (r : Startup) : r.app none zeros = appOf (startOps r) 200 4096 := rfl

/-- The loop between two iterations. -/
abbrev between (r : Startup) (cache : Option (List Pollfd)) (vec : List Cell)
    (stop : UnixAppStop) : Loop := resting (r.registry cache) 200 vec stop

/-- The loop at a result. -/
abbrev handled (r : Startup) (cache : Option (List Pollfd)) (vec : List Cell) (stop : UnixAppStop)
    (res : Except UnixError UnixEvent) : Tree Sys Ans (Except Panic (Option ℤ) × Loop) :=
  react (r.registry cache) 200 vec stop res

theorem start_eq (r : Startup) :
    Loop.start (r.app none zeros) = between r none zeros UnixAppStop.new := rfl

/-- Between two iterations over the application of `r`. -/
abbrev BetweenCoherent (r : Startup) (s : Loop) : Prop :=
  Rested (Unix.Indices.run (startOps r)) 200 4096 s

theorem betweenCoherent_iff {r : Startup} {s : Loop} : BetweenCoherent r s ↔
    ∃ cache vec stop, s = between r cache vec stop ∧ vec.length = 4096 ∧
      stop.isStoped = false ∧ Coherent (r.registry cache) := Iff.rfl

variable {app : UnixApp} {ts : List (List SysEvent)} {s : Loop}

/-- **Every run is between two iterations.** -/
theorem runs_between {r : Startup} (hr : Runs (r.app none zeros) ts s) : BetweenCoherent r s :=
  appOf_rested hr

theorem runs_moves {r : Startup} (hr : Runs (r.app none zeros) ts s) :
    ∀ t ∈ ts, Moves (Unix.Indices.run (startOps r)) 200 4096 t := by
  rw [app_eq] at hr
  exact forall_iterations hr fun _ _ _ hs hx => rested_moves (idle_run (startOps r)) hs hx

/-! ### Wires -/

/-- The descriptor stdout of a built application. -/
def stdout : Desc := ⟨.Stdout, stdoutFd⟩

/-- The descriptor of the slave. -/
def slave (r : Startup) : Desc := ⟨.PtySlave, r.slave⟩

/-- Where the loop sends what it reads from a descriptor of each kind. -/
def route (r : Startup) : Kind → Option Desc
  | .PtyMaster => some stdout
  | .Stdin => some (slave r)
  | _ => none

/-- `pty_master_index` names the slave. -/
@[simp] theorem wire_registry (r : Startup) (cache : Option (List Pollfd)) (k : Kind) :
    wire (r.registry cache) k = route r k := by
  cases k <;> rfl

@[simp] theorem wire_startOps (r : Startup) (k : Kind) :
    wire (Unix.Indices.run (startOps r)) k = route r k := wire_registry r none k

/-! ### A sample application -/

/-- A sample start. -/
def sample : Startup where
  signal := 3
  master := 4
  slave := 5
  child := 100
  termios := ⟨0, 0, 0, 0, 0, Vector.replicate 32 0, 0, 0⟩

/-- A poll that finds one descriptor ready, at position `i`. -/
def readyAt (i : ℕ) : Polled := ⟨1, fun k => if k = i then POLLIN else 0⟩

/-- The first poll over the sample application. -/
def samplePoll (p : Polled) : SysEvent :=
  ⟨.poll (sample.entries.map fun fd => (fd.asRawFd, fd.events)) 5 200, .ok p⟩

/-- A chunk of one byte. -/
def oneByte (k : Kind) (h : k ≠ .Signal) (b : UInt8) : Chunk k 4096 :=
  ⟨[b], by simp, fun hk => absurd hk h⟩

theorem sample_built : Built (sample.app none zeros) := built_iff.mpr ⟨sample, rfl⟩

/-- A first iteration over the sample that relays a chunk. -/
theorem sample_relays (p : Polled) (hp : p.n ≠ 0) (fd : Fd) {i : ℕ}
    (hf : firstReady sample.entries (arrayAfter (sample.registry none) p) 5 0 = some (fd, i))
    (c : Chunk fd.kind 4096) (hc : c.bytes ≠ []) {d : Desc} (hd : route sample fd.kind = some d)
    (w : Ans (.write d (tag fd.kind c.bytes))) :
    ∃ s, (Loop.body.run (Loop.start (sample.app none zeros))).Exec
      [samplePoll p, ⟨.read fd.desc 4096, .ok c⟩, ⟨.write d (tag fd.kind c.bytes), w⟩]
      (.ok none, s) := by
  have hstop : UnixAppStop.new.isStoped = false := rfl
  exact relays_exec (sample.idle none) 200 List.length_replicate hstop p hp fd hf c
    hc (by rwa [wire_registry]) w

/-- A first iteration over the sample whose read asks for nothing. -/
theorem sample_reads (p : Polled) (hp : p.n ≠ 0) (fd : Fd) {i : ℕ}
    (hf : firstReady sample.entries (arrayAfter (sample.registry none) p) 5 0 = some (fd, i))
    (hk : fd.kind ≠ .Stdout) (ans : Except Errno (Chunk fd.kind 4096))
    (hnone : ∀ f vec, reaction f vec (result fd i ans) = none) :
    ∃ s, (Loop.body.run (Loop.start (sample.app none zeros))).Exec
      [samplePoll p, ⟨.read fd.desc 4096, ans⟩] (.ok none, s) := by
  have hstop : UnixAppStop.new.isStoped = false := rfl
  refine reads_exec (sample.idle none) 200 List.length_replicate p hp fd hf hk ans
    fun l vec' _ => ?_
  exact ⟨_, (react_iff hstop).mpr ⟨_, .silent (hnone _ vec'), hstop, rfl⟩⟩

/-- A first iteration: a key is read from stdin. -/
def keyCalls : List SysEvent :=
  [samplePoll (readyAt 3), ⟨.read ⟨.Stdin, stdinFd⟩ 4096, .ok (oneByte .Stdin (by decide) 0x6c)⟩,
    ⟨.write (slave sample) [⟨0x6c, some .Stdin⟩], .ok (Fin.last _)⟩]

theorem keyCalls_exec :
    ∃ s, (Loop.body.run (Loop.start (sample.app none zeros))).Exec keyCalls (.ok none, s) :=
  sample_relays (readyAt 3) (by decide) (.Stdin stdinFd POLLIN sample.termios) (i := 3) (by decide)
    (oneByte .Stdin (by decide) 0x6c) (by decide) rfl (.ok (Fin.last _))

/-! ### No panic -/

/-- **No run panics**: from the start of every iteration, whatever the kernel answers, the iteration
returns. -/
theorem no_panic (hb : Built app) (hr : Runs app ts s) {t : List SysEvent}
    {x : Except Panic (Option ℤ) × Loop} (hx : (Loop.body.run s).Exec t x) :
    ∃ o, x.1 = .ok o := by
  obtain ⟨r, rfl⟩ := built_iff.mp hb
  obtain ⟨_, _, _, _, _, _, _, _, _, -, -, -, -, -, -, rfl, -⟩ :=
    body_exec (idle_run (startOps r)) (runs_between hr) hx
  exact ⟨none, rfl⟩

theorem key_no_panic : ∃ s o, (Loop.body.run (Loop.start (sample.app none zeros))).Exec keyCalls
    (.ok o, s) := by
  obtain ⟨s, h⟩ := keyCalls_exec
  have hr : Runs (sample.app none zeros) [] (Loop.start (sample.app none zeros)) := .start
  obtain ⟨o, ho⟩ := no_panic sample_built hr h
  exact ⟨s, o, by rw [← ho]; exact h⟩

end SshPass.EventLoop.Iteration
