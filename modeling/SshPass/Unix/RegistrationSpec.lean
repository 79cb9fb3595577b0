import SshPass.Unix.App

/-! # The registrations: their calls and what they add to the registry

Each registration makes its calls in order, stops at the first one that fails, and adds its entries
to the registry only if all succeed. -/

namespace SshPass.Unix.RegistrationSpec

open SshPass.Lib.CallTree SshPass.Lib.Borrow SshPass.Lib.Stateful SshPass.Lib.Stateful.Prog
open SshPass.Unix.Kernel SshPass.Unix.Registry SshPass.Unix.App SshPass.Unix.App.UnixApp

/-- The mask `reg_signals` blocks. -/
def newMask (old : SigSet) : SigSet :=
  (Signal.iterator.foldl SigSet.add SigSet.empty).toList.foldl SigSet.add old

variable (f : Fds) (timeout : ℤ) (b : Buffer)

theorem regSignals_run : regSignals.run ⟨⟨f, timeout⟩, b⟩ = .call .threadGetMask fun
    | .error e => .ret (.ok (.error (.NixErrorno e)), ⟨⟨f, timeout⟩, b⟩)
    | .ok old => .call (.threadBlock (newMask old)) fun
      | .error e => .ret (.ok (.error (.NixErrorno e)), ⟨⟨f, timeout⟩, b⟩)
      | .ok _ => .call (.signalfd (newMask old) true true) fun
        | .error e => .ret (.ok (.error (.NixErrorno e)), ⟨⟨f, timeout⟩, b⟩)
        | .ok fd => .ret (.ok (.ok ()), ⟨⟨f.pushSignalFd fd POLLIN, timeout⟩, b⟩) := by
  simp only [regSignals, run_bind, run_ask, Tree.call_bind, Tree.ret_bind, cont_ok]
  refine Tree.call_congr fun old => ?_
  rcases old with e | old
  · rfl
  · simp only [run_bind, run_ask, Tree.call_bind, Tree.ret_bind, cont_ok]
    refine Tree.call_congr fun blocked => ?_
    rcases blocked with e | _
    · rfl
    · simp only [run_bind, run_ask, Tree.call_bind, Tree.ret_bind, cont_ok]
      refine Tree.call_congr fun fd => ?_
      rcases fd with e | fd <;> rfl

theorem regPtyChild_run : regPtyChild.run ⟨⟨f, timeout⟩, b⟩ = .call .openpty fun
    | .error _ => .ret (.error (.expect "Failed to open PTY"), ⟨⟨f, timeout⟩, b⟩)
    | .ok (master, slave) => .call .fork fun
      | .error e => .ret (.ok (.error (.NixErrorno e)), ⟨⟨f, timeout⟩, b⟩)
      | .ok child =>
        .ret (.ok (.ok ()), ⟨⟨f.pushPtyFd ⟨master, slave⟩ child POLLIN, timeout⟩, b⟩) := by
  simp only [regPtyChild, run_bind, run_ask, Tree.call_bind, Tree.ret_bind, cont_ok]
  refine Tree.call_congr fun pty => ?_
  rcases pty with e | ⟨master, slave⟩
  · rfl
  · simp only [run_bind, run_ask, Tree.call_bind, Tree.ret_bind, cont_ok]
    refine Tree.call_congr fun status => ?_
    rcases status with e | child <;> rfl

theorem regNonCanonicalStdin_run :
    regNonCanonicalStdin.run ⟨⟨f, timeout⟩, b⟩ = .call (.tcgetattr stdinFd) fun
      | .error e => .ret (.ok (.error (.StdIoError e)), ⟨⟨f, timeout⟩, b⟩)
      | .ok saved => .call (.tcgetattr stdinFd) fun
        | .error e => .ret (.ok (.error (.StdIoError e)), ⟨⟨f, timeout⟩, b⟩)
        | .ok cur => .call (.tcsetattr stdinFd (setKeypressMode cur)) fun
          | .error e => .ret (.ok (.error (.StdIoError e)), ⟨⟨f, timeout⟩, b⟩)
          | .ok _ =>
            .ret (.ok (.ok ()), ⟨⟨f.pushStdinFd stdinFd saved POLLIN, timeout⟩, b⟩) := by
  simp only [regNonCanonicalStdin, getTermios, run_bind, run_ask, Tree.call_bind, Tree.ret_bind,
    cont_ok]
  refine Tree.call_congr fun saved => ?_
  rcases saved with e | saved
  · rfl
  · simp only [setNonCanonicalStdin, getTermios, run_bind, run_ask, Tree.call_bind, Tree.ret_bind,
      cont_ok]
    refine Tree.call_congr fun cur => ?_
    rcases cur with e | cur
    · rfl
    · simp only [setTermios, run_bind, run_ask, Tree.call_bind, Tree.ret_bind, cont_ok]
      refine Tree.call_congr fun set => ?_
      rcases set with e | _ <;> rfl

theorem regStdout_run : regStdout.run ⟨⟨f, timeout⟩, b⟩ =
    .ret (.ok (.ok ()), ⟨⟨f.pushStdoutFd stdoutFd POLLIN, timeout⟩, b⟩) := rfl

end SshPass.Unix.RegistrationSpec
