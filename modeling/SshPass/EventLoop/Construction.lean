import SshPass.EventLoop.Program
import SshPass.Unix.AppSpec
import SshPass.Unix.RegistrationSpec

/-! # The application `UnixApp::new` builds

The registry of a built application has five entries: the signalfd, the two ends of the pty, stdin
and stdout (`Startup.fds`). `pty_master_index` names the third, the slave (`Startup.registry`).
`built_iff`: these are exactly the applications `UnixApp::new` returns. -/

namespace SshPass.EventLoop.Construction

open SshPass.Lib.CallTree SshPass.Lib.Borrow SshPass.Lib.Stateful SshPass.Lib.Stateful.Prog
open SshPass.Unix.Kernel SshPass.Unix.Registry SshPass.Unix.RegistrySpec SshPass.Unix.App
open SshPass.Unix.RegistrationSpec
open SshPass.EventLoop.Program

/-- What the kernel answered while the application was built. -/
structure Startup where
  signal : RawFd
  master : RawFd
  slave : RawFd
  child : Pid
  termios : Termios

/-- The buffer of a fresh application. -/
def zeros : List Cell := List.replicate 4096 ⟨0, none⟩

namespace Startup

variable (r : Startup)

/-- The descriptors, in the order of their registration. -/
def entries : List Fd :=
  [.Signal r.signal POLLIN, .PtyMaster r.master POLLIN r.child, .PtySlave r.slave POLLIN,
    .Stdin stdinFd POLLIN r.termios, .Stdout stdoutFd POLLIN]

/-- The registry, with `cache` for its array. -/
def registry (cache : Option (List Pollfd)) : Fds where
  inner := r.entries.map RefCell.new
  pollfds := RefCell.new cache
  signalfdIndex := some 0
  stdinIndex := some 3
  stdoutIndex := some 4
  ptyMasterIndex := some 2
  ptySlaveIndex := none

/-- The application, with `vec` in its buffer. -/
def app (cache : Option (List Pollfd)) (vec : List Cell) : UnixApp :=
  ⟨⟨r.registry cache, 200⟩, ⟨RefCell.new vec⟩⟩

theorem idle (cache : Option (List Pollfd)) : Idle (r.registry cache) := by
  refine ⟨rfl, fun c hc => ?_⟩
  obtain ⟨fd, -, rfl⟩ := List.mem_map.mp hc
  rfl

@[simp] theorem fds_registry (cache : Option (List Pollfd)) :
    fds (r.registry cache) = r.entries := rfl

end Startup

theorem new_exec {t : List SysEvent} {a : UnixApp} :
    UnixApp.new.Exec t (.ok (.ok a)) ↔
      (UnixApp.register.run UnixApp.fresh).Exec t (.ok (.ok ()), a) := by
  rw [UnixApp.new, Tree.exec_bind]
  constructor
  · rintro ⟨t₁, t₂, ⟨p | e | ⟨⟨⟩⟩, a'⟩, rfl, h₁, h₂⟩
    · obtain ⟨_, _, _, -, -, h⟩ := Tree.exec_bind.mp h₂
      exact absurd h.2 (by simp)
    · obtain ⟨_, _, _, -, -, h⟩ := Tree.exec_bind.mp h₂
      exact absurd h.2 (by simp)
    · obtain ⟨rfl, h⟩ := h₂
      obtain rfl : a = a' := by simpa using h
      rwa [List.append_nil]
  · intro h
    have hnil : t = t ++ [] := (List.append_nil t).symm
    exact ⟨t, [], _, hnil, h, rfl, rfl⟩

/-- The calls of a successful start. -/
def startCalls (r : Startup) (old : SigSet) (u : Termios) : List SysEvent :=
  [⟨.threadGetMask, .ok old⟩, ⟨.threadBlock (newMask old), .ok ()⟩,
    ⟨.signalfd (newMask old) true true, .ok r.signal⟩, ⟨.openpty, .ok (r.master, r.slave)⟩,
    ⟨.fork, .ok r.child⟩, ⟨.tcgetattr stdinFd, .ok r.termios⟩, ⟨.tcgetattr stdinFd, .ok u⟩,
    ⟨.tcsetattr stdinFd (setKeypressMode u), .ok ()⟩]

theorem register_exec {t : List SysEvent} {a : UnixApp} :
    (UnixApp.register.run UnixApp.fresh).Exec t (.ok (.ok ()), a) ↔
      ∃ r old u, t = startCalls r old u ∧ a = r.app none zeros := by
  constructor
  · intro h
    rw [UnixApp.register] at h
    obtain ⟨t₁, t', ⟨⟩, a₁, rfl, h₁, h⟩ := (exec_bind_ok (by exact fun e => ⟨e, rfl⟩)).mp h
    obtain ⟨t₂, t', ⟨⟩, a₂, rfl, h₂, h⟩ := (exec_bind_ok (by exact fun e => ⟨e, rfl⟩)).mp h
    obtain ⟨t₃, t₄, ⟨⟩, a₃, rfl, h₃, h₄⟩ := (exec_bind_ok (by exact fun e => ⟨e, rfl⟩)).mp h
    rw [UnixApp.fresh, Poller.new, regSignals_run] at h₁
    obtain ⟨_ | old, _, rfl, h₁⟩ := h₁
    · simp at h₁
    obtain ⟨_ | _, _, rfl, h₁⟩ := h₁
    · simp at h₁
    obtain ⟨_ | signal, _, rfl, rfl, h₁⟩ := h₁
    · simp at h₁
    simp only [Prod.mk.injEq, true_and] at h₁
    subst h₁
    rw [regPtyChild_run] at h₂
    obtain ⟨_ | ⟨master, slave⟩, _, rfl, h₂⟩ := h₂
    · simp at h₂
    obtain ⟨_ | child, _, rfl, rfl, h₂⟩ := h₂
    · simp at h₂
    simp only [Prod.mk.injEq, true_and] at h₂
    subst h₂
    rw [regNonCanonicalStdin_run] at h₃
    obtain ⟨_ | saved, _, rfl, h₃⟩ := h₃
    · simp at h₃
    obtain ⟨_ | cur, _, rfl, h₃⟩ := h₃
    · simp at h₃
    obtain ⟨_ | _, _, rfl, rfl, h₃⟩ := h₃
    · simp at h₃
    simp only [Prod.mk.injEq, true_and] at h₃
    subst h₃
    rw [regStdout_run] at h₄
    obtain ⟨rfl, h₄⟩ := h₄
    simp only [Prod.mk.injEq, true_and] at h₄
    exact ⟨⟨signal, master, slave, child, saved⟩, old, cur, rfl, h₄⟩
  · rintro ⟨r, old, u, rfl, rfl⟩
    refine ⟨.ok old, _, rfl, .ok (), _, rfl, .ok r.signal, _, rfl, ?_⟩
    refine ⟨.ok (r.master, r.slave), _, rfl, .ok r.child, _, rfl, ?_⟩
    exact ⟨.ok r.termios, _, rfl, .ok u, _, rfl, .ok (), _, rfl, rfl, rfl⟩

/-- **The built applications.** -/
theorem built_iff {a : UnixApp} : Built a ↔ ∃ r : Startup, a = r.app none zeros := by
  constructor
  · rintro ⟨t, h⟩
    obtain ⟨r, -, -, -, ha⟩ := register_exec.mp (new_exec.mp h)
    exact ⟨r, ha⟩
  · rintro ⟨r, rfl⟩
    exact ⟨_, new_exec.mpr (register_exec.mpr ⟨r, SigSet.empty, r.termios, rfl, rfl⟩)⟩

end SshPass.EventLoop.Construction
