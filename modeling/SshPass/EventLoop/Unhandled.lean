import SshPass.EventLoop.Iteration
import SshPass.Unix.Dispatch

/-! # The unhandled event

`reg_stdout` registers stdout for `POLLIN`, and `system_event` has no handler for it. So the event
that main's loop takes for an inconsistency is what comes of a poll that finds stdout ready and
nothing before it (`unhandled_iff`), and then the loop starts a shutdown with code 3. -/

namespace SshPass.EventLoop.Unhandled

open SshPass.Lib.CallTree SshPass.Lib.Borrow SshPass.Lib.Stateful SshPass.Lib.Stateful.Prog
open SshPass.Unix.Kernel SshPass.Unix.Registry SshPass.Unix.RegistrySpec SshPass.Unix.Indices
open SshPass.Unix.App SshPass.Unix.AppSpec SshPass.Unix.Cache SshPass.Unix.ReadyIter
open SshPass.Unix.Dispatch
open SshPass.EventLoop.Program SshPass.EventLoop.Construction SshPass.EventLoop.Wiring
open SshPass.EventLoop.Iteration

/-! ### What is asked of the event -/

/-- The first call of the trace is a poll that returned `p`. -/
def Polls (p : Polled) (t : List SysEvent) : Prop :=
  ∃ fds nfds timeout rest, t = ⟨.poll fds nfds timeout, .ok p⟩ :: rest

/-- No registered entry has `revents`. -/
def NoneReady (s : Loop) (p : Polled) : Prop := ∀ i < (entries s.app).length, p.revents i = 0

/-- An entry other than stdout has `revents`, where the lookup by number finds it. -/
def OtherReady (s : Loop) (p : Polled) : Prop :=
  ∃ fd ∈ entries s.app, fd.kind ≠ .Stdout ∧ p.revents (position (entries s.app) fd) ≠ 0

/-- An iteration with the calls `t` has started a shutdown with code 3. -/
def Starts3 (t : List SysEvent) (s' : Loop) : Prop :=
  (∃ now, ⟨.now, now⟩ ∈ t) ∧ s'.stop.stopCode? = some 3

/-- After the poll `p` neither `system_event` returns `PollEventNotHandle` nor the iteration starts
a shutdown with code 3, unless no entry is ready. -/
structure Internal (s : Loop) (p : Polled) : Prop where
  event : ∀ t a, Polls p t →
    (UnixApp.systemEvent.run s.app).Exec t (.ok (.error .PollEventNotHandle), a) → NoneReady s p
  shutdown : ∀ t o s', Polls p t → (Loop.body.run s).Exec t (o, s') → Starts3 t s' → NoneReady s p

variable {r : Startup} {cache : Option (List Pollfd)} {vec : List Cell} {stop : UnixAppStop}
  {p : Polled} {fd : Fd} {i : ℕ}

/-! ### Which entry is found -/

theorem stdout_iff (hi : r.entries[i]? = some fd) : fd.kind = .Stdout ↔ i = 4 := by
  rcases i with _ | _ | _ | _ | _ | i <;> simp [Startup.entries] at hi <;> subst hi <;>
    simp [Fd.kind]

theorem settled_between (hc : Coherent (r.registry cache)) :
    Settled (between r cache vec stop).app := ⟨r.idle cache, hc, rfl⟩

theorem seen_polled (hc : Coherent (r.registry cache)) (hi : r.entries[i]? = some fd) :
    seen r.entries (polled (between r cache vec stop).app p) i =
      p.revents (position r.entries fd) := by
  have hc' : Coherent (between r cache vec stop).app.poller.fds := hc
  have hlt : position r.entries fd < 5 := position_lt (List.mem_of_getElem? hi)
  rw [seen, hi, Option.map_some, Option.getD_some, revents_polled hc' p hlt]

theorem otherReady_iff (hc : Coherent (r.registry cache)) :
    OtherReady (between r cache vec stop) p ↔ ∃ fd i, firstReady r.entries
      (polled (between r cache vec stop).app p) 5 0 = some (fd, i) ∧ fd.kind ≠ .Stdout := by
  have hdesc : Describes r.entries (polled (between r cache vec stop).app p) :=
    describes_polled (settled_between hc).coherent p
  have hspec := firstReady_seen hdesc 5 0 rfl
  constructor
  · rintro ⟨fd, hfd, hk, hr⟩
    obtain ⟨k, hk'⟩ := List.mem_iff_getElem?.mp hfd
    have hkey : r.entries[k]? = some fd := hk'
    have hne : seen r.entries (polled (between r cache vec stop).app p) k ≠ 0 := by
      rw [seen_polled hc hkey]
      exact hr
    have hlt : k < 5 := (List.getElem?_eq_some_iff.mp hkey).1
    have hk4 : k ≠ 4 := fun h => hk ((stdout_iff hkey).mpr h)
    rcases hf : firstReady r.entries (polled (between r cache vec stop).app p) 5 0 with
      _ | ⟨fd', i⟩ <;> simp only [hf] at hspec
    · exact absurd (hspec k (Nat.zero_le k)) hne
    · obtain ⟨-, hfd', -, hlow⟩ := hspec
      refine ⟨fd', i, rfl, fun hstdout => ?_⟩
      have hi := (stdout_iff hfd').mp hstdout
      exact hne (hlow k (Nat.zero_le k) (by omega))
  · rintro ⟨fd, i, hf, hk⟩
    simp only [hf] at hspec
    obtain ⟨-, hfd, hr, -⟩ := hspec
    rw [seen_polled hc hfd] at hr
    exact ⟨fd, List.mem_of_getElem? hfd, hk, hr⟩

/-! ### When the event is unhandled -/

theorem result_ne_unhandled (hk : fd.kind ≠ .Stdout) {n : ℕ}
    (ans : Except Errno (Chunk fd.kind n)) : result fd i ans ≠ .error .PollEventNotHandle := by
  obtain ⟨e, he⟩ | ⟨e, he, -⟩ := result_cases (i := i) hk ans <;> simp [he]

theorem afterPoll_unhandled {l : List Pollfd} :
    (∃ t a, (afterPoll (r.registry cache) 200 vec l).Exec t
      (.ok (.error .PollEventNotHandle), a)) ↔
      ¬ ∃ fd i, firstReady r.entries l 5 0 = some (fd, i) ∧ fd.kind ≠ .Stdout := by
  have hlen : (r.registry cache).len = 5 := rfl
  rw [afterPoll, Startup.fds_registry, hlen]
  constructor
  · rintro ⟨t, a, h⟩ ⟨fd, i, hf, hk⟩
    simp only [hf, if_neg hk] at h
    obtain ⟨ans, _, -, -, hx⟩ := h
    have hres := Except.ok.inj (Prod.mk.inj hx).1
    exact result_ne_unhandled hk ans hres.symm
  · intro hother
    rcases hf : firstReady r.entries l 5 0 with _ | ⟨fd, i⟩
    · exact ⟨[], _, rfl, rfl⟩
    · have hk : fd.kind = .Stdout := by
        by_contra hk
        exact hother ⟨fd, i, hf, hk⟩
      simp only [if_pos hk]
      exact ⟨[], _, rfl, rfl⟩

/-- **The unhandled event** is returned exactly after a poll that counted a ready entry and found no
other than stdout. -/
theorem unhandled_iff (hc : Coherent (r.registry cache)) :
    (∃ t a, Polls p t ∧ (UnixApp.systemEvent.run (between r cache vec stop).app).Exec t
      (.ok (.error .PollEventNotHandle), a)) ↔
      p.n ≠ 0 ∧ ¬ OtherReady (between r cache vec stop) p := by
  rw [otherReady_iff hc, ← @afterPoll_unhandled r cache vec,
    systemEvent_settled (settled_between hc)]
  constructor
  · rintro ⟨_, a, ⟨fds, nfds, timeout, rest, rfl⟩, ans, _, heq, h⟩
    obtain ⟨he, rfl⟩ := List.cons.inj heq
    cases he
    simp only at h
    split_ifs at h with hn
    · simp at h
    · exact ⟨hn, _, a, h⟩
  · rintro ⟨hn, t, a, h⟩
    refine ⟨_, a, ⟨_, _, _, t, rfl⟩, .ok p, t, rfl, ?_⟩
    simp only [hn, if_false]
    exact h

theorem asked_three {res : Except UnixError UnixEvent} {text : Option String}
    (h : asked res = some (3, text)) : res = .error .PollEventNotHandle := by
  match res with
  | .error .PollEventNotHandle => rfl
  | .error (.StdIoError _) | .error (.NixErrorno _) => simp [asked, request] at h
  | .ok (.Signal _ _ _) => simp [asked] at h
  | .ok (.PtyMaster _ _) | .ok (.PtySlave _ _) | .ok (.Stdin _ _) | .ok .ReadZeroBytes
  | .ok .PollTimeout => simp [asked] at h

theorem reacts_starts {f : Fds} {res : Except UnixError UnixEvent} {t : List SysEvent}
    {stop' : UnixAppStop} (h : Reacts f vec stop res t stop') {now : Instant}
    (hnow : ⟨.now, now⟩ ∈ t) (h3 : stop'.stopCode? = some 3) :
    res = .error .PollEventNotHandle := by
  cases h with
  | silent => simp at hnow
  | @calls o a ho =>
    obtain rfl : o = .now := by
      have heq := congrArg Event.op (List.mem_singleton.mp hnow)
      exact heq.symm
    obtain ⟨⟨code, text⟩, hx⟩ := Option.ne_none_iff_exists'.mp (reaction_now.mp ho)
    simp only [restop, hx, UnixAppStop.shutdownStarting, Option.some.injEq] at h3
    subst h3
    exact asked_three hx

/-- **An iteration starts a shutdown with code 3** only after a poll that counted a ready entry and
found no other than stdout. -/
theorem body_starts {s : Loop} (hs : BetweenCoherent r s) {t : List SysEvent}
    {o : Except Panic (Option ℤ)} {s' : Loop} (hp : Polls p t)
    (h : (Loop.body.run s).Exec t (o, s')) (h3 : Starts3 t s') :
    p.n ≠ 0 ∧ ¬ OtherReady s p := by
  obtain ⟨cache, vec, t₁, t₂, res, l, vec', stop, stop', rfl, -, hc, rfl, hg, hreacts, hx, -⟩ :=
    body_exec (idle_run (startOps r)) hs h
  obtain ⟨-, rfl⟩ := Prod.mk.inj hx
  obtain ⟨ans, rest, rfl, hrest⟩ := hg.exists_poll
  obtain ⟨fds, nfds, timeout, post, ht⟩ := hp
  obtain ⟨heq, -⟩ := List.cons.inj ht
  cases heq
  -- the clock is read after the poll and the read
  obtain ⟨⟨now, hnow⟩, hcode⟩ := h3
  have hreaction : (⟨.now, now⟩ : SysEvent) ∈ t₂ := by
    rcases List.mem_append.mp hnow with hnow | hnow
    · rcases List.mem_cons.mp hnow with heq | hnow
      · exact absurd (congrArg Event.op heq) (by simp [polls])
      · obtain ⟨fd, -, -, hread⟩ := hrest _ hnow
        simp at hread
    · exact hnow
  obtain rfl := reacts_starts hreacts hreaction hcode
  have hidle := idle_withCache (idle_run (startOps r)) cache
  have hevent := (systemEvent_iff hidle).mpr ⟨_, _, _, hg, rfl⟩
  exact (@unhandled_iff r cache vec stop p hc).mp ⟨_, _, ⟨_, _, _, _, rfl⟩, hevent⟩

/-! ### Runs -/

/-- If the numbers are distinct, the lookup is by position. -/
theorem otherReady_distinct {s : Loop} (hd : Distinct (entries s.app)) : OtherReady s p ↔
    ∃ i fd, (entries s.app)[i]? = some fd ∧ fd.kind ≠ .Stdout ∧ p.revents i ≠ 0 := by
  constructor
  · rintro ⟨fd, hfd, hk, hr⟩
    obtain ⟨i, hi⟩ := List.mem_iff_getElem?.mp hfd
    rw [position_eq hd hi] at hr
    exact ⟨i, fd, hi, hk, hr⟩
  · rintro ⟨i, fd, hi, hk, hr⟩
    rw [← position_eq hd hi] at hr
    exact ⟨fd, List.mem_of_getElem? hi, hk, hr⟩

/-- **The unhandled event is internal only** after the polls that count no entry, find none ready,
or find an entry other than stdout ready. -/
theorem internal_iff {app : UnixApp} {ts : List (List SysEvent)} {s : Loop} (hb : Built app)
    (hr : Runs app ts s) (p : Polled) :
    Internal s p ↔ p.n = 0 ∨ NoneReady s p ∨ OtherReady s p := by
  obtain ⟨r, rfl⟩ := built_iff.mp hb
  have hs := runs_between hr
  obtain ⟨cache, vec, stop, rfl, -, -, hc⟩ := betweenCoherent_iff.mp hs
  have hevent := @unhandled_iff r cache vec stop p hc
  constructor
  · intro h
    by_contra hcond
    rw [not_or, not_or] at hcond
    obtain ⟨hn, hready, hother⟩ := hcond
    obtain ⟨t, a, hp, hx⟩ := hevent.mpr ⟨hn, hother⟩
    exact hready (h.event t a hp hx)
  · intro hcond
    have hnone (h : p.n ≠ 0 ∧ ¬ OtherReady (between r cache vec stop) p) :
        NoneReady (between r cache vec stop) p := by
      obtain hn | hready | hother := hcond
      · exact absurd hn h.1
      · exact hready
      · exact absurd hother h.2
    exact ⟨fun t a hp hx => hnone (hevent.mp ⟨t, a, hp, hx⟩),
      fun t o s' hp hx h3 => hnone (body_starts hs hp hx h3)⟩

/-- A key pressed. -/
theorem stdin_internal : Internal (Loop.start (sample.app none zeros)) (readyAt 3) := by
  have hother : OtherReady (Loop.start (sample.app none zeros)) (readyAt 3) :=
    ⟨.Stdin stdinFd POLLIN sample.termios, by decide, by decide, by decide⟩
  exact (internal_iff sample_built .start (readyAt 3)).mpr (.inr (.inr hother))

theorem stdout_not_internal : ¬ Internal (Loop.start (sample.app none zeros)) (readyAt 4) := by
  intro h
  have hc : Coherent (sample.registry none) := fun l hl => by cases hl
  have hnone : ∀ fd ∈ sample.entries, fd.kind ≠ .Stdout →
      (readyAt 4).revents (position sample.entries fd) = 0 := by decide
  have hother : ¬ OtherReady (between sample none zeros UnixAppStop.new) (readyAt 4) :=
    fun ⟨fd, hfd, hk, hr⟩ => hr (hnone fd hfd hk)
  obtain ⟨t, a, hp, hx⟩ := (unhandled_iff hc).mpr ⟨(by decide : (readyAt 4).n ≠ 0), hother⟩
  have hready := h.event t a hp hx
  exact absurd (hready 4 (by decide)) (by decide)

end SshPass.EventLoop.Unhandled
