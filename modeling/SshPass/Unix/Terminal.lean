import SshPass.Unix.RegistrySpec
import SshPass.Unix.RegistrationSpec

/-! # The terminal

`session regs` is any sequence of registrations on a fresh application, and `deinit` ends its life.
Every successful registration of stdin saves the attributes it finds and sets the keypress mode, so
the second saves the keypress mode itself (`Kept`). `deinit` restores what was saved in the order of
the registrations, the last one last: `restored_iff`. -/

namespace SshPass.Unix.Terminal

open SshPass.Lib.CallTree SshPass.Lib.Borrow SshPass.Lib.Stateful SshPass.Lib.Stateful.Prog
open SshPass.Unix.Kernel SshPass.Unix.Registry SshPass.Unix.RegistrySpec SshPass.Unix.App
open SshPass.Unix.App.UnixApp SshPass.Unix.RegistrationSpec

/-! ### The keypress mode -/

theorem mask_idem (a m : UInt32) : a &&& m &&& m = a &&& m := by
  rw [UInt32.and_assoc, UInt32.and_self]

theorem mask_or_idem {a m c : UInt32} (h : c &&& m = 0) :
    (a &&& m ||| c) &&& m ||| c = a &&& m ||| c := by
  have hb : c.toBitVec &&& m.toBitVec = 0 := by rw [← UInt32.toBitVec_and, h]; rfl
  refine UInt32.toBitVec_inj.mp ?_
  simp only [UInt32.toBitVec_or, UInt32.toBitVec_and]
  rw [BitVec.and_or_distrib_right, hb, BitVec.and_assoc, BitVec.and_self]
  simp

/-- Setting the keypress mode twice is setting it once. -/
theorem setKeypressMode_idem (T : Termios) :
    setKeypressMode (setKeypressMode T) = setKeypressMode T := by
  have hcc : ∀ v : Vector UInt8 32, (((v.set VMIN 0).set VTIME 0).set VMIN 0).set VTIME 0 =
      (v.set VMIN 0).set VTIME 0 := by
    intro v
    refine Vector.ext fun i hi => ?_
    simp only [Vector.getElem_set]
    split_ifs <;> rfl
  simp only [setKeypressMode, Termios.mk.injEq, mask_idem, hcc, true_and, and_true]
  exact mask_or_idem (by decide)

/-! ### The attributes of the terminal -/

/-- The terminal of stdin: `tcgetattr` returns its attributes, and a successful `tcsetattr` installs
what it is given. -/
def terminal : Env Sys Ans Termios := fun T e T' =>
  match e with
  | ⟨.tcgetattr fd, ans⟩ => T' = T ∧ (fd = stdinFd → ∀ v, ans = .ok v → v = T)
  | ⟨.tcsetattr fd v, ans⟩ => T' = if fd = stdinFd ∧ ans = .ok () then v else T
  | _ => T' = T

/-- A successful `tcsetattr` on stdin. -/
def Installs : SysEvent → Bool
  | ⟨.tcsetattr fd _, .ok _⟩ => fd = stdinFd
  | _ => false

/-- A `tcsetattr`, if the call is one, succeeds. -/
def Succeeds : SysEvent → Prop
  | ⟨.tcsetattr _ _, ans⟩ => ans = .ok ()
  | _ => True

/-- Every `tcsetattr` of a trace succeeds. -/
def Restores (t : List SysEvent) : Prop := ∀ e ∈ t, Succeeds e

/-! ### `deinit` -/

/-- The calls of `deinit` over the entries `l`. -/
def restoring {α : Type} (x : α) : List Fd → Tree Sys Ans α
  | [] => .ret x
  | .Stdin fd _ termios :: l => .call (.tcsetattr fd termios) fun _ => restoring x l
  | _ :: l => restoring x l

variable {f : Fds} (timeout : ℤ) (b : Buffer)

theorem next_some (h : Idle f) {i : ℕ} {fd : Fd} (hi : (fds f)[i]? = some fd) :
    (FdsIterator.next ⟨i⟩).run f = .ret (.ok (some fd, ⟨i + 1⟩), held f i) := by
  have hlt : i < f.len := by
    have := (List.getElem?_eq_some_iff.mp hi).1
    rwa [length_fds] at this
  simp [FdsIterator.next, hlt, borrowFd_run h hi]

theorem next_none {i : ℕ} (hi : f.len ≤ i) :
    (FdsIterator.next ⟨i⟩).run f = .ret (.ok (none, ⟨i⟩), f) := by
  simp [FdsIterator.next, Nat.not_lt.mpr hi]

theorem deinitLoop_run (h : Idle f) : ∀ fuel i, i + fuel = f.inner.length + 1 →
    (deinitLoop fuel ⟨i⟩).run ⟨⟨f, timeout⟩, b⟩ =
      restoring (.ok (), ⟨⟨f, timeout⟩, b⟩) ((fds f).drop i)
  | 0, i, hi => by
    have hlen : (fds f).length ≤ i := by
      rw [length_fds]
      omega
    rw [List.drop_of_length_le hlen]
    rfl
  | fuel + 1, i, hi => by
    rcases Nat.lt_or_ge i (fds f).length with hlt | hge
    · have hnext := next_some h (List.getElem?_eq_getElem hlt)
      have hdrop : (Fds.dropFd i).run (held f i) = .ret (.ok (), f) := dropFd_held h i f.pollfds
      have hrec := deinitLoop_run h fuel (i + 1) (by omega)
      rw [List.drop_eq_getElem_cons hlt]
      cases hfd : (fds f)[i] <;> rw [hfd] at hnext <;>
        simp [deinitLoop, hnext, hdrop, hrec, restoring, fdsField, setTermios]
    · have hlen : f.len ≤ i := by rwa [length_fds] at hge
      have hnext := next_none hlen
      rw [List.drop_of_length_le hge]
      simp [deinitLoop, hnext, restoring, fdsField]

theorem deinit_run (h : Idle f) : deinit.run ⟨⟨f, timeout⟩, b⟩ =
    restoring (.ok (), ⟨⟨f, timeout⟩, b⟩) (fds f) := by
  have hfuel : 0 + (f.len + 1) = f.inner.length + 1 := Nat.zero_add _
  rw [deinit, run_bind, run_state, Tree.ret_bind, cont_ok]
  exact deinitLoop_run timeout b h _ 0 hfuel

/-! ### Registrations -/

/-- A registration. -/
inductive Reg
  | signals
  | ptyChild
  | nonCanonicalStdin
  | stdout

/-- The function of a registration. -/
def Reg.code : Reg → Code UnixApp (Except UnixError Unit)
  | signals => regSignals
  | ptyChild => regPtyChild
  | nonCanonicalStdin => regNonCanonicalStdin
  | stdout => regStdout

/-- Registrations in a row, whatever they return; a panic ends the row. -/
def session : List Reg → Code UnixApp Unit
  | [] => return ()
  | reg :: regs => do
    let _ ← reg.code
    session regs

/-- The attributes an entry has saved. -/
def savedBy : Fd → Option Termios
  | .Stdin _ _ termios => some termios
  | _ => none

/-- The attributes that the entries have saved. -/
def saved (f : Fds) : List Termios := (fds f).filterMap savedBy

/-- What a session keeps true of the registry and of the terminal, which had the attributes `T₀`,
after `n` successful registrations of stdin. -/
structure Kept (T₀ T : Termios) (f : Fds) (n : ℕ) : Prop where
  idle : Idle f
  stdin : ∀ fd ∈ fds f, fd.kind = .Stdin → fd.asRawFd = stdinFd
  cur : T = if n = 0 then T₀ else setKeypressMode T₀
  saved : saved f = if n = 0 then [] else T₀ :: List.replicate (n - 1) (setKeypressMode T₀)

variable {T₀ T T' : Termios} {n : ℕ} {t : List SysEvent}

theorem saved_concat {f' : Fds} {fd : Fd} (hfds : fds f' = fds f ++ [fd]) :
    saved f' = saved f ++ [fd].filterMap savedBy := by
  rw [saved, hfds, List.filterMap_append, saved]

theorem Kept.stdin_concat (h : Kept T₀ T f n) {f' : Fds} {fd : Fd}
    (hfds : fds f' = fds f ++ [fd]) (hfd : fd.kind = .Stdin → fd.asRawFd = stdinFd) :
    ∀ x ∈ fds f', x.kind = .Stdin → x.asRawFd = stdinFd := by
  intro x hx hkind
  rw [hfds] at hx
  rcases List.mem_append.mp hx with hx | hx
  · exact h.stdin x hx hkind
  · obtain rfl := List.mem_singleton.mp hx
    exact hfd hkind

theorem Kept.push (h : Kept T₀ T f n) {f' : Fds} (fd : Fd) (hk : fd.kind ≠ .Stdin)
    (hidle : Idle f') (hfds : fds f' = fds f ++ [fd]) : Kept T₀ T f' n where
  idle := hidle
  stdin := h.stdin_concat hfds fun hkind => absurd hkind hk
  cur := h.cur
  saved := by
    have hnone : savedBy fd = none := by
      cases fd with
      | Stdin _ _ _ => exact absurd rfl hk
      | _ => rfl
    rw [saved_concat hfds, h.saved, List.filterMap_cons_none hnone, List.filterMap_nil,
      List.append_nil]

theorem Kept.pushStdin (h : Kept T₀ T f n) {f' : Fds} {events : Int16} (hidle : Idle f')
    (hfds : fds f' = fds f ++ [.Stdin stdinFd events T]) :
    Kept T₀ (setKeypressMode T) f' (n + 1) where
  idle := hidle
  stdin := h.stdin_concat hfds fun _ => rfl
  cur := by
    rw [if_neg (Nat.succ_ne_zero n), h.cur]
    split_ifs
    · rfl
    · exact setKeypressMode_idem T₀
  saved := by
    rw [saved_concat hfds, h.saved, h.cur]
    rcases n with _ | n
    · rfl
    · simp [savedBy, List.replicate_succ']

/-- A call that neither reads nor sets the attributes. -/
def Other (e : SysEvent) : Prop :=
  (∀ fd, e.op ≠ .tcgetattr fd) ∧ ∀ fd v, e.op ≠ .tcsetattr fd v

theorem terminal_other {e : SysEvent} (he : Other e) : terminal T e T' ↔ T' = T := by
  obtain ⟨o, ans⟩ := e
  cases o with
  | tcgetattr fd => exact absurd rfl (he.1 fd)
  | tcsetattr fd v => exact absurd rfl (he.2 fd v)
  | _ => exact Iff.rfl

theorem installs_other {e : SysEvent} (he : Other e) : Installs e = false := by
  obtain ⟨o, ans⟩ := e
  cases o with
  | tcsetattr fd v => exact absurd rfl (he.2 fd v)
  | _ => rfl

theorem others (ht : ∀ e ∈ t, Other e) (hT : terminal.Run T t T') :
    T' = T ∧ t.countP Installs = 0 := by
  refine ⟨?_, ?_⟩
  · exact hT.invariant (P := fun T₁ => T₁ = T)
      (fun e he _ _ h hstep => ((terminal_other (ht e he)).mp hstep).trans h) rfl
  · exact List.countP_eq_zero.mpr fun e he => by simp [installs_other (ht e he)]

theorem kept_signals (h : Kept T₀ T f n) {x : Except Panic (Except UnixError Unit) × UnixApp}
    (hx : (regSignals.run ⟨⟨f, timeout⟩, b⟩).Exec t x) :
    (∀ e ∈ t, Other e) ∧ ∃ f', x.2 = ⟨⟨f', timeout⟩, b⟩ ∧ Kept T₀ T f' n := by
  rw [regSignals_run] at hx
  obtain ⟨_ | old, _, rfl, hx⟩ := hx
  · obtain ⟨rfl, rfl⟩ := hx
    exact ⟨by simp [Other], f, rfl, h⟩
  obtain ⟨_ | _, _, rfl, hx⟩ := hx
  · obtain ⟨rfl, rfl⟩ := hx
    exact ⟨by simp [Other], f, rfl, h⟩
  obtain ⟨_ | fd, _, rfl, rfl, rfl⟩ := hx
  · exact ⟨by simp [Other], f, rfl, h⟩
  · refine ⟨by simp [Other], _, rfl, ?_⟩
    have hidle : Idle (f.pushSignalFd fd POLLIN) := ⟨rfl, (idle_pushFdRaw h.idle _).inner⟩
    exact h.push (.Signal fd POLLIN) (by simp [Fd.kind]) hidle (fds_pushFdRaw f _)

theorem kept_ptyChild (h : Kept T₀ T f n) {x : Except Panic (Except UnixError Unit) × UnixApp}
    (hx : (regPtyChild.run ⟨⟨f, timeout⟩, b⟩).Exec t x) :
    (∀ e ∈ t, Other e) ∧ ∃ f', x.2 = ⟨⟨f', timeout⟩, b⟩ ∧ Kept T₀ T f' n := by
  rw [regPtyChild_run] at hx
  obtain ⟨_ | ⟨master, slave⟩, _, rfl, hx⟩ := hx
  · obtain ⟨rfl, rfl⟩ := hx
    exact ⟨by simp [Other], f, rfl, h⟩
  obtain ⟨_ | child, _, rfl, rfl, rfl⟩ := hx
  · exact ⟨by simp [Other], f, rfl, h⟩
  · refine ⟨by simp [Other], _, rfl, ?_⟩
    have h₁ := h.push (.PtyMaster master POLLIN child) (by simp [Fd.kind])
      (idle_pushFdRaw h.idle _) (fds_pushFdRaw f _)
    have hidle : Idle (f.pushPtyFd ⟨master, slave⟩ child POLLIN) :=
      ⟨rfl, (idle_pushFdRaw h₁.idle _).inner⟩
    exact h₁.push (.PtySlave slave POLLIN) (by simp [Fd.kind]) hidle (fds_pushFdRaw _ _)

theorem kept_stdout (h : Kept T₀ T f n) {x : Except Panic (Except UnixError Unit) × UnixApp}
    (hx : (regStdout.run ⟨⟨f, timeout⟩, b⟩).Exec t x) :
    (∀ e ∈ t, Other e) ∧ ∃ f', x.2 = ⟨⟨f', timeout⟩, b⟩ ∧ Kept T₀ T f' n := by
  obtain ⟨rfl, rfl⟩ := hx
  refine ⟨by simp, _, rfl, ?_⟩
  have hidle : Idle (f.pushStdoutFd stdoutFd POLLIN) := ⟨rfl, (idle_pushFdRaw h.idle _).inner⟩
  exact h.push (.Stdout stdoutFd POLLIN) (by simp [Fd.kind]) hidle (fds_pushFdRaw f _)

theorem kept_stdin (h : Kept T₀ T f n) {x : Except Panic (Except UnixError Unit) × UnixApp}
    (hx : (regNonCanonicalStdin.run ⟨⟨f, timeout⟩, b⟩).Exec t x) (hT : terminal.Run T t T') :
    ∃ f', x.2 = ⟨⟨f', timeout⟩, b⟩ ∧ Kept T₀ T' f' (n + t.countP Installs) := by
  rw [regNonCanonicalStdin_run] at hx
  obtain ⟨_ | v, _, rfl, hx⟩ := hx
  · obtain ⟨rfl, rfl⟩ := hx
    obtain ⟨_, ⟨rfl, -⟩, rfl⟩ := hT
    exact ⟨f, rfl, h⟩
  obtain ⟨_ | cur, _, rfl, hx⟩ := hx
  · obtain ⟨rfl, rfl⟩ := hx
    obtain ⟨_, ⟨rfl, -⟩, _, ⟨rfl, -⟩, rfl⟩ := hT
    exact ⟨f, rfl, h⟩
  obtain ⟨_ | _, _, rfl, rfl, rfl⟩ := hx
  · obtain ⟨_, ⟨rfl, -⟩, _, ⟨rfl, -⟩, _, hset, rfl⟩ := hT
    obtain rfl : T' = _ := by simpa [terminal] using hset
    exact ⟨f, rfl, h⟩
  · obtain ⟨_, ⟨rfl, hv⟩, _, ⟨rfl, hcur⟩, _, hset, rfl⟩ := hT
    obtain rfl := hv rfl v rfl
    obtain rfl := hcur rfl cur rfl
    obtain rfl : T' = setKeypressMode _ := by simpa [terminal] using hset
    exact ⟨_, rfl, h.pushStdin ⟨rfl, (idle_pushFdRaw h.idle _).inner⟩ (fds_pushFdRaw f _)⟩

/-- **A registration** keeps the invariant, and counts if it installs the keypress mode. -/
theorem kept_code (h : Kept T₀ T f n) (reg : Reg)
    {x : Except Panic (Except UnixError Unit) × UnixApp}
    (hx : (reg.code.run ⟨⟨f, timeout⟩, b⟩).Exec t x) (hT : terminal.Run T t T') :
    ∃ f', x.2 = ⟨⟨f', timeout⟩, b⟩ ∧ Kept T₀ T' f' (n + t.countP Installs) := by
  have hother : ∀ {y : UnixApp}, (∀ e ∈ t, Other e) ∧
      (∃ f', y = ⟨⟨f', timeout⟩, b⟩ ∧ Kept T₀ T f' n) →
        ∃ f', y = ⟨⟨f', timeout⟩, b⟩ ∧ Kept T₀ T' f' (n + t.countP Installs) := by
    rintro y ⟨ht, f', hy, hf'⟩
    obtain ⟨rfl, hcount⟩ := others ht hT
    rw [hcount]
    exact ⟨f', hy, hf'⟩
  cases reg with
  | signals => exact hother (kept_signals timeout b h hx)
  | ptyChild => exact hother (kept_ptyChild timeout b h hx)
  | nonCanonicalStdin => exact kept_stdin timeout b h hx hT
  | stdout => exact hother (kept_stdout timeout b h hx)

/-- **A session** keeps the invariant. -/
theorem kept_session : ∀ {regs : List Reg} {f : Fds} {T : Termios} {n : ℕ} {t : List SysEvent}
    {x : Except Panic Unit × UnixApp}, Kept T₀ T f n →
      ((session regs).run ⟨⟨f, timeout⟩, b⟩).Exec t x → terminal.Run T t T' →
        ∃ f', x.2 = ⟨⟨f', timeout⟩, b⟩ ∧ Kept T₀ T' f' (n + t.countP Installs)
  | [], f, T, n, t, x, h, hx, hT => by
    obtain ⟨rfl, rfl⟩ := hx
    obtain rfl := hT
    exact ⟨f, rfl, h⟩
  | reg :: regs, f, T, n, t, x, h, hx, hT => by
    rw [session, exec_bind] at hx
    obtain ⟨e, s', hx, rfl⟩ | ⟨t₁, t₂, res, s', rfl, h₁, h₂⟩ := hx
    · obtain ⟨f', hf', hkept⟩ := kept_code timeout b h reg hx hT
      exact ⟨f', hf', hkept⟩
    · obtain ⟨T₁, hT₁, hT₂⟩ := Env.run_append.mp hT
      obtain ⟨f₁, rfl, hkept⟩ := kept_code timeout b h reg h₁ hT₁
      obtain ⟨f', hf', hkept'⟩ := kept_session hkept h₂ hT₂
      rw [List.countP_append, ← Nat.add_assoc]
      exact ⟨f', hf', hkept'⟩

/-! ### The end -/

/-- `deinit` leaves the attributes saved last. -/
theorem restoring_exec {α : Type} {x y : α} : ∀ {l : List Fd} {T : Termios} {t : List SysEvent},
    (∀ fd ∈ l, fd.kind = .Stdin → fd.asRawFd = stdinFd) → (restoring x l).Exec t y →
      terminal.Run T t T' → Restores t → T' = (l.filterMap savedBy).getLastD T
  | [], T, t, _, h, hT, _ => by
    obtain ⟨rfl, -⟩ := h
    exact hT
  | fd :: l, T, t, hl, h, hT, hr => by
    have hl' : ∀ fd ∈ l, fd.kind = .Stdin → fd.asRawFd = stdinFd :=
      fun fd hfd => hl fd (List.mem_cons_of_mem _ hfd)
    cases fd with
    | Stdin raw events termios =>
      obtain rfl : raw = stdinFd := hl _ List.mem_cons_self rfl
      obtain ⟨ans, t', rfl, h⟩ := h
      obtain rfl : ans = .ok () := hr _ List.mem_cons_self
      obtain ⟨T₁, hset, hT⟩ := hT
      obtain rfl : T₁ = termios := by simpa [terminal] using hset
      have hsaved : (Fd.Stdin stdinFd events T₁ :: l).filterMap savedBy =
          T₁ :: l.filterMap savedBy := rfl
      rw [hsaved, List.getLastD_cons]
      exact restoring_exec hl' h hT fun e he => hr e (List.mem_cons_of_mem _ he)
    | _ => exact restoring_exec (l := l) hl' h hT hr

theorem kept_fresh (T₀ : Termios) : Kept T₀ T₀ Fds.new 0 where
  idle := ⟨rfl, fun c hc => by simp [Fds.new] at hc⟩
  stdin := fun fd hfd => by simp [fds, Fds.new] at hfd
  cur := rfl
  saved := rfl

/-- **The terminal is given back** by the drop of the application exactly if at most one
registration of stdin succeeded, or the terminal was in the keypress mode from the start. -/
theorem restored_iff {T₀ T : Termios} {regs : List Reg} {t₁ t₂ : List SysEvent}
    {x y : Except Panic Unit × UnixApp} (h₁ : ((session regs).run UnixApp.fresh).Exec t₁ x)
    (h₂ : (deinit.run x.2).Exec t₂ y) (hT : terminal.Run T₀ (t₁ ++ t₂) T) (hr : Restores t₂) :
    T = T₀ ↔ t₁.countP Installs ≤ 1 ∨ setKeypressMode T₀ = T₀ := by
  obtain ⟨T₁, hT₁, hT₂⟩ := Env.run_append.mp hT
  obtain ⟨f, hf, hkept⟩ := kept_session 200 (Buffer.new 4096) (kept_fresh T₀) h₁ hT₁
  rw [hf, deinit_run 200 _ hkept.idle] at h₂
  have hlast : T = (saved f).getLastD T₁ := restoring_exec hkept.stdin h₂ hT₂ hr
  rw [Nat.zero_add] at hkept
  rw [hlast, hkept.saved, hkept.cur]
  rcases t₁.countP Installs with _ | _ | n
  · simp
  · simp
  · have hmany : ¬ n + 1 + 1 ≤ 1 := by omega
    rw [if_neg (Nat.succ_ne_zero _), if_neg (Nat.succ_ne_zero _), Nat.add_sub_cancel,
      List.getLastD_cons, List.replicate_succ', List.getLastD_concat]
    simp [hmany]

/-- A terminal that echoes and edits lines. -/
def cooked : Termios :=
  ⟨ICRNL, OPOST, CS8, ECHO ||| ICANON ||| ISIG, 0, Vector.replicate 32 0, 0, 0⟩

/-- The calls of a registration of stdin at the attributes `T`. -/
def stdinCalls (T : Termios) : List SysEvent :=
  [⟨.tcgetattr stdinFd, .ok T⟩, ⟨.tcgetattr stdinFd, .ok T⟩,
    ⟨.tcsetattr stdinFd (setKeypressMode T), .ok ()⟩]

/-- The application after two registrations of stdin. -/
def twice : UnixApp :=
  ⟨⟨(Fds.new.pushStdinFd stdinFd cooked POLLIN).pushStdinFd stdinFd (setKeypressMode cooked) POLLIN,
    200⟩, Buffer.new 4096⟩

/-- The calls of the two registrations. -/
def twiceCalls : List SysEvent := stdinCalls cooked ++ stdinCalls (setKeypressMode cooked)

/-- The calls of `deinit` after them. -/
def twiceDeinit : List SysEvent :=
  [⟨.tcsetattr stdinFd cooked, .ok ()⟩, ⟨.tcsetattr stdinFd (setKeypressMode cooked), .ok ()⟩]

theorem twice_session : ((session [.nonCanonicalStdin, .nonCanonicalStdin]).run UnixApp.fresh).Exec
    twiceCalls (.ok (), twice) := by
  refine ⟨.ok cooked, _, rfl, .ok cooked, _, rfl, .ok (), _, rfl, ?_⟩
  exact ⟨.ok (setKeypressMode cooked), _, rfl, .ok (setKeypressMode cooked), _, rfl, .ok (),
    _, rfl, rfl, rfl⟩

theorem twice_deinit : (deinit.run twice).Exec twiceDeinit (.ok (), twice) :=
  ⟨.ok (), _, rfl, .ok (), _, rfl, rfl, rfl⟩

theorem terminal_get (T : Termios) : terminal T ⟨.tcgetattr stdinFd, .ok T⟩ T :=
  ⟨rfl, fun _ _ h => (Except.ok.inj h).symm⟩

theorem terminal_set (T v : Termios) : terminal T ⟨.tcsetattr stdinFd v, .ok ()⟩ v := by
  simp [terminal]

theorem stdinCalls_run (T : Termios) : terminal.Run T (stdinCalls T) (setKeypressMode T) :=
  ⟨T, terminal_get T, T, terminal_get T, _, terminal_set T _, rfl⟩

theorem twice_run : terminal.Run cooked (twiceCalls ++ twiceDeinit) (setKeypressMode cooked) := by
  have h := stdinCalls_run (setKeypressMode cooked)
  rw [setKeypressMode_idem] at h
  refine Env.run_append.mpr ⟨_, Env.run_append.mpr ⟨_, stdinCalls_run cooked, h⟩, ?_⟩
  exact ⟨_, terminal_set _ _, _, terminal_set _ _, rfl⟩

theorem twice_restores : Restores twiceDeinit := by
  simp [Restores, twiceDeinit, Succeeds]

theorem restored_iff_twice : setKeypressMode cooked = cooked ↔
    twiceCalls.countP Installs ≤ 1 ∨ setKeypressMode cooked = cooked :=
  restored_iff twice_session twice_deinit twice_run twice_restores

/-- The keypress mode stays after two registrations. -/
theorem twice_not_restored : ((session [.nonCanonicalStdin, .nonCanonicalStdin]).run
      UnixApp.fresh).Exec twiceCalls (.ok (), twice) ∧
    (deinit.run twice).Exec twiceDeinit (.ok (), twice) ∧
    terminal.Run cooked (twiceCalls ++ twiceDeinit) (setKeypressMode cooked) ∧
    Restores twiceDeinit ∧ setKeypressMode cooked ≠ cooked :=
  ⟨twice_session, twice_deinit, twice_run, twice_restores, by decide⟩

end SshPass.Unix.Terminal
