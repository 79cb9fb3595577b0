import SshPass.EventLoop.Iteration
import SshPass.Unix.Terminal

/-! # The program (`main.rs`)

`main n` is the program up to its `n`-th iteration: `UnixApp::new`, the loop, and the drop of the
application when the loop ends. Its calls are those of a start that fails and panics, or those of a
successful start followed by `n` iterations (`main_iff`). So `main` never exits by itself, and it
leaves the terminal as it was if the start fails and in the keypress mode otherwise
(`main_terminal`). -/

namespace SshPass.EventLoop.Main

open SshPass.Lib.CallTree SshPass.Lib.Stateful SshPass.Lib.Stateful.Prog
open SshPass.Unix.Kernel SshPass.Unix.Registry SshPass.Unix.RegistrySpec SshPass.Unix.Indices
open SshPass.Unix.App SshPass.Unix.App.UnixApp SshPass.Unix.RegistrationSpec SshPass.Unix.Terminal
open SshPass.EventLoop.Program SshPass.EventLoop.Construction SshPass.EventLoop.Wiring
open SshPass.EventLoop.Footprint SshPass.EventLoop.Iteration

/-! ### The program -/

/-- At most `n` iterations; `some code` is `break code`. -/
def iterations : ℕ → Code Loop (Option ℤ)
  | 0 => return none
  | n + 1 => do
    match ← Loop.body with
    | some code => return some code
    | none => iterations n

/-- How the program stands. -/
inductive Outcome
  | running
  | exited (status : ℤ)
  | panicked (p : Panic)
  deriving DecidableEq, Repr

/-- `main`, up to its `n`-th iteration. The application is dropped when the loop breaks, and when it
panics. -/
def main (n : ℕ) : Tree Sys Ans Outcome :=
  UnixApp.new.bind fun
    | .error p => .ret (.panicked p)
    | .ok (.error _) => .ret (.panicked .unwrapErr)
    | .ok (.ok app) => ((iterations n).run (Loop.start app)).bind fun
      | (.ok none, _) => .ret .running
      | (.ok (some code), s) => (deinit.run s.app).bind fun _ => .ret (.exited code)
      | (.error p, s) => (deinit.run s.app).bind fun _ => .ret (.panicked p)

/-! ### The start -/

/-- The application after the registration of the signals. -/
def withSignals (signal : RawFd) : UnixApp :=
  ⟨⟨Fds.new.pushSignalFd signal POLLIN, 200⟩, Buffer.new 4096⟩

/-- The application after the registration of the pty. -/
def withPty (signal master slave : RawFd) (child : Pid) : UnixApp :=
  ⟨⟨(Fds.new.pushSignalFd signal POLLIN).pushPtyFd ⟨master, slave⟩ child POLLIN, 200⟩,
    Buffer.new 4096⟩

/-- **The registrations of `new`**, call by call. -/
theorem register_run : register.run fresh = .call .threadGetMask fun
    | .error e => .ret (.ok (.error (.NixErrorno e)), fresh)
    | .ok old => .call (.threadBlock (newMask old)) fun
      | .error e => .ret (.ok (.error (.NixErrorno e)), fresh)
      | .ok _ => .call (.signalfd (newMask old) true true) fun
        | .error e => .ret (.ok (.error (.NixErrorno e)), fresh)
        | .ok signal => .call .openpty fun
          | .error _ => .ret (.error (.expect "Failed to open PTY"), withSignals signal)
          | .ok (master, slave) => .call .fork fun
            | .error e => .ret (.ok (.error (.NixErrorno e)), withSignals signal)
            | .ok child => .call (.tcgetattr stdinFd) fun
              | .error e =>
                .ret (.ok (.error (.StdIoError e)), withPty signal master slave child)
              | .ok saved => .call (.tcgetattr stdinFd) fun
                | .error e =>
                  .ret (.ok (.error (.StdIoError e)), withPty signal master slave child)
                | .ok cur => .call (.tcsetattr stdinFd (setKeypressMode cur)) fun
                  | .error e =>
                    .ret (.ok (.error (.StdIoError e)), withPty signal master slave child)
                  | .ok _ => .ret (.ok (.ok ()),
                    Startup.app ⟨signal, master, slave, child, saved⟩ none zeros) := by
  rw [register, fresh, Poller.new, run_bind, regSignals_run, Tree.call_bind]
  refine Tree.call_congr fun old => ?_
  rcases old with e | old
  · rfl
  refine Tree.call_congr fun blocked => ?_
  rcases blocked with e | _
  · rfl
  refine Tree.call_congr fun fd => ?_
  rcases fd with e | signal
  · rfl
  rw [Tree.ret_bind, cont_ok]
  simp only [run_bind, regPtyChild_run, Tree.call_bind]
  refine Tree.call_congr fun pty => ?_
  rcases pty with e | ⟨master, slave⟩
  · rfl
  refine Tree.call_congr fun status => ?_
  rcases status with e | child
  · rfl
  simp only [Tree.ret_bind, cont_ok, run_bind, regNonCanonicalStdin_run, Tree.call_bind]
  refine Tree.call_congr fun saved => ?_
  rcases saved with e | saved
  · rfl
  refine Tree.call_congr fun cur => ?_
  rcases cur with e | cur
  · rfl
  refine Tree.call_congr fun set => ?_
  rcases set with e | _ <;> rfl

/-- A call of the start that fails. -/
def Failed : SysEvent → Prop
  | ⟨.threadGetMask, ans⟩ => ∃ e, ans = .error e
  | ⟨.threadBlock _, ans⟩ => ∃ e, ans = .error e
  | ⟨.signalfd _ _ _, ans⟩ => ∃ e, ans = .error e
  | ⟨.openpty, ans⟩ => ∃ e, ans = .error e
  | ⟨.fork, ans⟩ => ∃ e, ans = .error e
  | ⟨.tcgetattr _, ans⟩ => ∃ e, ans = .error e
  | ⟨.tcsetattr _ _, ans⟩ => ∃ e, ans = .error e
  | _ => False

/-- The panic of `main` when the call `o` of the start fails. -/
def panicOf : Sys → Panic
  | .openpty => .expect "Failed to open PTY"
  | _ => .unwrapErr

/-- The start makes the calls `pre` of a successful one, the next call `o` fails, and `main`
panics. -/
def StartFails (t : List SysEvent) (p : Panic) : Prop :=
  ∃ r old u pre o rest, ∃ good bad : Ans o, startCalls r old u = pre ++ ⟨o, good⟩ :: rest ∧
    t = pre ++ [⟨o, bad⟩] ∧ Failed ⟨o, bad⟩ ∧ p = panicOf o

/-- `deinit` makes no call: stdin is not registered. -/
def Silent (a : UnixApp) : Prop := deinit.run a = .ret (.ok (), a)

theorem silent_fresh : Silent fresh := rfl

theorem silent_withSignals (signal : RawFd) : Silent (withSignals signal) := rfl

theorem silent_withPty (signal master slave : RawFd) (child : Pid) :
    Silent (withPty signal master slave child) := rfl

variable {t : List SysEvent}

/-- **A start** succeeds, or fails at one of its calls before stdin is registered. -/
theorem register_cases {x : Except Panic (Except UnixError Unit) × UnixApp}
    (h : (register.run fresh).Exec t x) :
    (∃ r old u, t = startCalls r old u ∧ x = (.ok (.ok ()), r.app none zeros)) ∨
      ∃ p, StartFails t p ∧ Silent x.2 ∧
        (x.1 = .error p ∨ p = .unwrapErr ∧ ∃ e, x.1 = .ok (.error e)) := by
  rw [register_run] at h
  obtain ⟨e | old, _, rfl, h⟩ := h
  · obtain ⟨rfl, rfl⟩ := h
    exact .inr ⟨_, ⟨sample, SigSet.empty, sample.termios, [], .threadGetMask, _, _, _, rfl, rfl,
      ⟨e, rfl⟩, rfl⟩, silent_fresh, .inr ⟨rfl, _, rfl⟩⟩
  obtain ⟨e | _, _, rfl, h⟩ := h
  · obtain ⟨rfl, rfl⟩ := h
    exact .inr ⟨_, ⟨sample, old, sample.termios, [_], .threadBlock (newMask old), _, _, _, rfl, rfl,
      ⟨e, rfl⟩, rfl⟩, silent_fresh, .inr ⟨rfl, _, rfl⟩⟩
  obtain ⟨e | signal, _, rfl, h⟩ := h
  · obtain ⟨rfl, rfl⟩ := h
    exact .inr ⟨_, ⟨sample, old, sample.termios, [_, _], .signalfd (newMask old) true true, _, _, _,
      rfl, rfl, ⟨e, rfl⟩, rfl⟩, silent_fresh, .inr ⟨rfl, _, rfl⟩⟩
  obtain ⟨e | ⟨master, slave⟩, _, rfl, h⟩ := h
  · obtain ⟨rfl, rfl⟩ := h
    exact .inr ⟨_, ⟨{ sample with signal := signal }, old, sample.termios, [_, _, _], .openpty, _,
      _, _, rfl, rfl, ⟨e, rfl⟩, rfl⟩, silent_withSignals signal, .inl rfl⟩
  obtain ⟨e | child, _, rfl, h⟩ := h
  · obtain ⟨rfl, rfl⟩ := h
    exact .inr ⟨_, ⟨⟨signal, master, slave, 0, sample.termios⟩, old, sample.termios, [_, _, _, _],
      .fork, _, _, _, rfl, rfl, ⟨e, rfl⟩, rfl⟩, silent_withSignals signal, .inr ⟨rfl, _, rfl⟩⟩
  have hsilent := silent_withPty signal master slave child
  obtain ⟨e | saved, _, rfl, h⟩ := h
  · obtain ⟨rfl, rfl⟩ := h
    exact .inr ⟨_, ⟨⟨signal, master, slave, child, sample.termios⟩, old, sample.termios,
      [_, _, _, _, _], .tcgetattr stdinFd, _, _, _, rfl, rfl, ⟨e, rfl⟩, rfl⟩, hsilent,
      .inr ⟨rfl, _, rfl⟩⟩
  obtain ⟨e | cur, _, rfl, h⟩ := h
  · obtain ⟨rfl, rfl⟩ := h
    exact .inr ⟨_, ⟨⟨signal, master, slave, child, saved⟩, old, sample.termios, [_, _, _, _, _, _],
      .tcgetattr stdinFd, _, _, _, rfl, rfl, ⟨e, rfl⟩, rfl⟩, hsilent, .inr ⟨rfl, _, rfl⟩⟩
  obtain ⟨e | _, _, rfl, h⟩ := h
  · obtain ⟨rfl, rfl⟩ := h
    exact .inr ⟨_, ⟨⟨signal, master, slave, child, saved⟩, old, cur, [_, _, _, _, _, _, _],
      .tcsetattr stdinFd (setKeypressMode cur), _, _, _, rfl, rfl, ⟨e, rfl⟩, rfl⟩, hsilent,
      .inr ⟨rfl, _, rfl⟩⟩
  · obtain ⟨rfl, rfl⟩ := h
    exact .inl ⟨_, old, cur, rfl, rfl⟩

theorem register_fails {p : Panic} (h : StartFails t p) :
    ∃ x, (register.run fresh).Exec t x ∧ Silent x.2 ∧
      (x.1 = .error p ∨ p = .unwrapErr ∧ ∃ e, x.1 = .ok (.error e)) := by
  obtain ⟨r, old, u, pre, o, rest, good, bad, hstart, rfl, hbad, rfl⟩ := h
  have hsilent := silent_withPty r.signal r.master r.slave r.child
  rw [register_run]
  rw [startCalls] at hstart
  rcases pre with _ | ⟨_, pre⟩
  · cases hstart
    obtain ⟨e, rfl⟩ := hbad
    exact ⟨_, ⟨.error e, [], rfl, rfl, rfl⟩, silent_fresh, .inr ⟨rfl, _, rfl⟩⟩
  rcases pre with _ | ⟨_, pre⟩
  · cases hstart
    obtain ⟨e, rfl⟩ := hbad
    exact ⟨_, ⟨.ok old, _, rfl, .error e, [], rfl, rfl, rfl⟩, silent_fresh, .inr ⟨rfl, _, rfl⟩⟩
  rcases pre with _ | ⟨_, pre⟩
  · cases hstart
    obtain ⟨e, rfl⟩ := hbad
    exact ⟨_, ⟨.ok old, _, rfl, .ok (), _, rfl, .error e, [], rfl, rfl, rfl⟩, silent_fresh,
      .inr ⟨rfl, _, rfl⟩⟩
  rcases pre with _ | ⟨_, pre⟩
  · cases hstart
    obtain ⟨e, rfl⟩ := hbad
    exact ⟨_, ⟨.ok old, _, rfl, .ok (), _, rfl, .ok r.signal, _, rfl, .error e, [], rfl, rfl, rfl⟩,
      silent_withSignals r.signal, .inl rfl⟩
  rcases pre with _ | ⟨_, pre⟩
  · cases hstart
    obtain ⟨e, rfl⟩ := hbad
    exact ⟨_, ⟨.ok old, _, rfl, .ok (), _, rfl, .ok r.signal, _, rfl, .ok (r.master, r.slave), _,
      rfl, .error e, [], rfl, rfl, rfl⟩, silent_withSignals r.signal, .inr ⟨rfl, _, rfl⟩⟩
  rcases pre with _ | ⟨_, pre⟩
  · cases hstart
    obtain ⟨e, rfl⟩ := hbad
    exact ⟨_, ⟨.ok old, _, rfl, .ok (), _, rfl, .ok r.signal, _, rfl, .ok (r.master, r.slave), _,
      rfl, .ok r.child, _, rfl, .error e, [], rfl, rfl, rfl⟩, hsilent, .inr ⟨rfl, _, rfl⟩⟩
  rcases pre with _ | ⟨_, pre⟩
  · cases hstart
    obtain ⟨e, rfl⟩ := hbad
    exact ⟨_, ⟨.ok old, _, rfl, .ok (), _, rfl, .ok r.signal, _, rfl, .ok (r.master, r.slave), _,
      rfl, .ok r.child, _, rfl, .ok r.termios, _, rfl, .error e, [], rfl, rfl, rfl⟩, hsilent,
      .inr ⟨rfl, _, rfl⟩⟩
  rcases pre with _ | ⟨_, pre⟩
  · cases hstart
    obtain ⟨e, rfl⟩ := hbad
    exact ⟨_, ⟨.ok old, _, rfl, .ok (), _, rfl, .ok r.signal, _, rfl, .ok (r.master, r.slave), _,
      rfl, .ok r.child, _, rfl, .ok r.termios, _, rfl, .ok u, _, rfl, .error e, [], rfl, rfl, rfl⟩,
      hsilent, .inr ⟨rfl, _, rfl⟩⟩
  · simp at hstart

/-! ### The loop -/

theorem iterations_exec {r : Startup} : ∀ {n : ℕ} {ts : List (List SysEvent)} {s : Loop}
    {t : List SysEvent} {x : Except Panic (Option ℤ) × Loop}, Runs (r.app none zeros) ts s →
      ((iterations n).run s).Exec t x → ∃ us s', us.length = n ∧ t = us.flatten ∧
        Runs (r.app none zeros) (ts ++ us) s' ∧ x = (.ok none, s')
  | 0, ts, s, t, x, hr, h => by
    obtain ⟨rfl, rfl⟩ := h
    exact ⟨[], s, rfl, rfl, by rwa [List.append_nil], rfl⟩
  | n + 1, ts, s, t, x, hr, h => by
    have hreturns : ∀ {t y}, (Loop.body.run s).Exec t y → y.1 = .ok none := by
      intro t y hy
      obtain ⟨_, _, _, _, _, _, _, _, _, -, -, -, -, -, -, rfl, -⟩ :=
        body_exec (idle_run (startOps r)) (runs_between hr) hy
      rfl
    rw [iterations, exec_bind] at h
    obtain ⟨e, s', h, rfl⟩ | ⟨t₁, t₂, o, s', rfl, h₁, h₂⟩ := h
    · exact absurd (hreturns h) (by simp)
    · obtain rfl := Except.ok.inj (hreturns h₁)
      obtain ⟨us, s₂, hlen, rfl, hrun, rfl⟩ := iterations_exec (hr.iterate h₁) h₂
      refine ⟨t₁ :: us, s₂, by simp [hlen], rfl, ?_, rfl⟩
      rwa [List.append_assoc, List.singleton_append] at hrun

theorem iterations_snoc : ∀ {n : ℕ} {s s₁ s₂ : Loop} {t₁ t₂ : List SysEvent},
    ((iterations n).run s).Exec t₁ (.ok none, s₁) → (Loop.body.run s₁).Exec t₂ (.ok none, s₂) →
      ((iterations (n + 1)).run s).Exec (t₁ ++ t₂) (.ok none, s₂)
  | 0, s, s₁, s₂, t₁, t₂, h₁, h₂ => by
    obtain ⟨rfl, hs⟩ : t₁ = [] ∧ _ := h₁
    obtain ⟨-, rfl⟩ := Prod.mk.inj hs
    rw [iterations, exec_bind]
    exact .inr ⟨t₂, [], none, s₂, by simp, h₂, rfl, rfl⟩
  | n + 1, s, s₁, s₂, t₁, t₂, h₁, h₂ => by
    rw [iterations, exec_bind] at h₁ ⊢
    obtain ⟨e, s', -, hx⟩ | ⟨u₁, u₂, o, s', rfl, hb, hi⟩ := h₁
    · simp at hx
    rcases o with _ | code
    · exact .inr ⟨u₁, u₂ ++ t₂, none, s', by simp, hb, iterations_snoc hi h₂⟩
    · simp at hi

theorem runs_iterations {app : UnixApp} {ts : List (List SysEvent)} {s : Loop}
    (h : Runs app ts s) :
    ((iterations ts.length).run (Loop.start app)).Exec ts.flatten (.ok none, s) := by
  induction h with
  | start => exact ⟨List.flatten_nil, rfl⟩
  | iterate _ hb ih =>
    rw [List.length_append, List.flatten_append, List.flatten_singleton]
    exact iterations_snoc ih hb

/-- An execution is a start that fails, or a successful start and `n` iterations. -/
theorem main_cases {n : ℕ} {x : Outcome} (h : (main n).Exec t x) :
    (x = .running ∧ ∃ r old u ts s, ts.length = n ∧ Runs (r.app none zeros) ts s ∧
      t = startCalls r old u ++ ts.flatten) ∨ ∃ p, x = .panicked p ∧ StartFails t p := by
  rw [main, UnixApp.new, Tree.exec_bind] at h
  obtain ⟨t₁, t₂, y, rfl, h₁, h₂⟩ := h
  obtain ⟨t₃, t₄, z, rfl, h₃, h₄⟩ := Tree.exec_bind.mp h₁
  obtain ⟨r, old, u, rfl, rfl⟩ | ⟨p, hfails, hsilent, hz⟩ := register_cases h₃
  · obtain ⟨rfl, rfl⟩ := h₄
    obtain ⟨t₅, t₆, w, rfl, h₅, h₆⟩ := Tree.exec_bind.mp h₂
    obtain ⟨us, s, hlen, rfl, hrun, rfl⟩ := iterations_exec .start h₅
    obtain ⟨rfl, rfl⟩ := h₆
    refine .inl ⟨rfl, r, old, u, us, s, hlen, hrun, ?_⟩
    rw [List.append_nil, List.append_nil]
  · right
    obtain ⟨res, app⟩ := z
    simp only [Silent] at hz hsilent
    obtain rfl | ⟨rfl, e, rfl⟩ := hz
    · simp only [hsilent, Tree.ret_bind] at h₄
      obtain ⟨rfl, rfl⟩ := h₄
      obtain ⟨rfl, rfl⟩ := h₂
      exact ⟨p, rfl, by simpa using hfails⟩
    · simp only [hsilent, Tree.ret_bind] at h₄
      obtain ⟨rfl, rfl⟩ := h₄
      obtain ⟨rfl, rfl⟩ := h₂
      exact ⟨_, rfl, by simpa using hfails⟩

theorem main_runs {r : Startup} {ts : List (List SysEvent)} {s : Loop}
    (h : Runs (r.app none zeros) ts s) (old : SigSet) (u : Termios) :
    (main ts.length).Exec (startCalls r old u ++ ts.flatten) .running := by
  have hnew : UnixApp.new.Exec (startCalls r old u) (.ok (.ok (r.app none zeros))) :=
    new_exec.mpr (register_exec.mpr ⟨r, old, u, rfl, rfl⟩)
  refine Tree.exec_bind.mpr ⟨_, ts.flatten, _, rfl, hnew, Tree.exec_bind.mpr ?_⟩
  exact ⟨ts.flatten, [], _, (List.append_nil _).symm, runs_iterations h, rfl, rfl⟩

theorem main_fails {p : Panic} (n : ℕ) (h : StartFails t p) : (main n).Exec t (.panicked p) := by
  obtain ⟨⟨res, app⟩, hx, hsilent, hres⟩ := register_fails h
  have hnil : t = t ++ [] := (List.append_nil t).symm
  simp only [Silent] at hsilent hres
  rw [main, UnixApp.new, Tree.exec_bind]
  obtain rfl | ⟨rfl, e, rfl⟩ := hres
  · refine ⟨t, [], .error p, hnil, Tree.exec_bind.mpr ⟨t, [], _, hnil, hx, ?_⟩, rfl, rfl⟩
    simp only [hsilent, Tree.ret_bind]
    exact ⟨rfl, rfl⟩
  · refine ⟨t, [], .ok (.error e), hnil, Tree.exec_bind.mpr ⟨t, [], _, hnil, hx, ?_⟩, rfl, rfl⟩
    simp only [hsilent, Tree.ret_bind]
    exact ⟨rfl, rfl⟩

/-- **The program**: its executions are those in which the start fails at one of its calls and
`main` panics, and those of a successful start and a run of the loop, which never ends. -/
theorem main_iff (n : ℕ) (t : List SysEvent) (x : Outcome) : (main n).Exec t x ↔
    (x = .running ∧ ∃ r old u ts s, ts.length = n ∧ Runs (r.app none zeros) ts s ∧
      t = startCalls r old u ++ ts.flatten) ∨ ∃ p, x = .panicked p ∧ StartFails t p := by
  refine ⟨main_cases, ?_⟩
  rintro (⟨rfl, r, old, u, ts, s, rfl, h, rfl⟩ | ⟨p, rfl, h⟩)
  · exact main_runs h old u
  · exact main_fails n h

/-- A sample execution: a start, and an iteration that relays a key. -/
def sampleCalls : List SysEvent := startCalls sample SigSet.empty sample.termios ++ keyCalls

theorem sampleCalls_exec : (main 1).Exec sampleCalls .running := by
  obtain ⟨s, hs⟩ := keyCalls_exec
  have hrun := main_runs (Runs.start.iterate hs) SigSet.empty sample.termios
  simpa [sampleCalls] using hrun

/-! ### The terminal -/

variable {T T' : Termios}

theorem terminal_quiet {e : SysEvent} (he : Installs e = false) (h : terminal T e T') :
    T' = T := by
  obtain ⟨o, ans⟩ := e
  cases o with
  | tcgetattr fd => exact h.1
  | tcsetattr fd v =>
    rcases ans with e | _
    · simpa [terminal] using h
    · have hfd : fd ≠ stdinFd := by simpa [Installs] using he
      simpa [terminal, hfd] using h
  | _ => exact h

/-- Only an installation changes the attributes. -/
theorem unchanged (ht : ∀ e ∈ t, Installs e = false) (hT : terminal.Run T t T') : T' = T :=
  hT.invariant (P := fun T₁ => T₁ = T)
    (fun e he _ _ h hstep => (terminal_quiet (ht e he) hstep).trans h) rfl

theorem installs_failed {e : SysEvent} (he : Failed e) : Installs e = false := by
  obtain ⟨o, ans⟩ := e
  cases o with
  | tcsetattr fd v =>
    obtain ⟨e, rfl⟩ := he
    rfl
  | _ => rfl

theorem startFails_quiet {p : Panic} (h : StartFails t p) : ∀ e ∈ t, Installs e = false := by
  obtain ⟨r, old, u, pre, o, rest, good, bad, hstart, rfl, hbad, -⟩ := h
  intro e he
  rcases List.mem_append.mp he with he | he
  · have hmem : e ∈ (startCalls r old u).dropLast := by
      rw [hstart, List.dropLast_append_of_ne_nil (List.cons_ne_nil _ _)]
      exact List.mem_append_left _ he
    simp only [startCalls, List.dropLast_cons_cons, List.dropLast_singleton, List.mem_cons,
      List.not_mem_nil, or_false] at hmem
    rcases hmem with rfl | rfl | rfl | rfl | rfl | rfl | rfl <;> rfl
  · obtain rfl := List.mem_singleton.mp he
    exact installs_failed hbad

theorem runs_loopCall {r : Startup} {ts : List (List SysEvent)} {s : Loop}
    (hr : Runs (r.app none zeros) ts s) : ∀ e ∈ ts.flatten, LoopCall e.op := by
  intro e he
  obtain ⟨t, ht, he⟩ := List.mem_flatten.mp he
  exact (runs_moves hr t ht).loopCall e he

theorem loopCall_quiet {e : SysEvent} (h : LoopCall e.op) : Installs e = false := by
  obtain ⟨o, ans⟩ := e
  cases o with
  | tcsetattr fd v => exact h.elim
  | _ => rfl

theorem start_terminal {r : Startup} {old : SigSet} {u : Termios}
    (hT : terminal.Run T (startCalls r old u) T') : T' = setKeypressMode T := by
  obtain ⟨_, rfl, _, rfl, _, rfl, _, rfl, _, rfl, _, ⟨rfl, -⟩, _, ⟨rfl, hu⟩, _, hset, rfl⟩ := hT
  obtain rfl := hu rfl u rfl
  simpa [terminal] using hset

/-- **What `main` does to the terminal**: it never exits; if its start fails it panics and leaves
the attributes as they were, and otherwise it is in its loop and the terminal in the keypress
mode. -/
theorem main_terminal {n : ℕ} {x : Outcome} (h : (main n).Exec t x) (hT : terminal.Run T t T') :
    (x = .running ∧ T' = setKeypressMode T) ∨
      ∃ p, x = .panicked p ∧ StartFails t p ∧ T' = T := by
  obtain ⟨rfl, r, old, u, ts, s, -, hr, rfl⟩ | ⟨p, rfl, hfails⟩ := main_cases h
  · obtain ⟨T₁, hstart, hloop⟩ := Env.run_append.mp hT
    have hquiet : ∀ e ∈ ts.flatten, Installs e = false :=
      fun e he => loopCall_quiet (runs_loopCall hr e he)
    rw [unchanged hquiet hloop, start_terminal hstart]
    exact .inl ⟨rfl, rfl⟩
  · exact .inr ⟨p, rfl, hfails, unchanged (startFails_quiet hfails) hT⟩

theorem sampleCalls_installed :
    terminal.Run sample.termios sampleCalls (setKeypressMode sample.termios) := by
  have hget : ∀ v, (Except.ok sample.termios : Except IoError Termios) = .ok v →
      v = sample.termios := fun v hv => (Except.ok.inj hv).symm
  exact ⟨_, rfl, _, rfl, _, rfl, _, rfl, _, rfl, _, ⟨rfl, fun _ => hget⟩, _, ⟨rfl, fun _ => hget⟩,
    _, rfl, _, rfl, _, rfl, _, rfl, rfl⟩

theorem sampleCalls_terminal :
    ∃ T', terminal.Run sample.termios sampleCalls T' ∧ T' = setKeypressMode sample.termios := by
  refine ⟨_, sampleCalls_installed, ?_⟩
  obtain ⟨-, h⟩ | ⟨p, hp, -⟩ := main_terminal sampleCalls_exec sampleCalls_installed
  · exact h
  · simp at hp

end SshPass.EventLoop.Main
