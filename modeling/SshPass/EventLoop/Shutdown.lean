import SshPass.EventLoop.Iteration

/-! # The shutdown

`feed rs` runs the loop on the results `rs` of `system_event`, `exit` says when and with which code
it should break. It never breaks (`feed_exec`): the exit tests `is_stoped`, which only
`shutdown_complited` sets, and nothing calls that. So the shutdown takes effect exactly on the
sequences that never call for an exit (`takesEffect_iff`). -/

namespace SshPass.EventLoop.Shutdown

open SshPass.Lib.CallTree SshPass.Lib.Borrow SshPass.Lib.Stateful SshPass.Lib.Stateful.Prog
open SshPass.Unix.Kernel SshPass.Unix.Registry SshPass.Unix.RegistrySpec SshPass.Unix.App
open SshPass.Unix.AppSpec
open SshPass.EventLoop.Program SshPass.EventLoop.Construction SshPass.EventLoop.Wiring
open SshPass.EventLoop.Iteration

/-! ### The loop, fed with results -/

/-- `system_event` returned `res`: the guard that `res` holds is live. -/
def hand (res : Except UnixError UnixEvent) : Code Loop Unit :=
  zoom Loop.appField (zoom UnixApp.bufField
    (update fun b => ⟨⟨b.buf.value, .reading (guards res)⟩⟩))

/-- The loop on the results `rs`: the position of the one it breaks at, and the value. -/
def feed : List (Except UnixError UnixEvent) → Code Loop (Option (ℕ × ℤ))
  | [] => return none
  | res :: rs => do
    hand res
    match ← Loop.handle res with
    | some code => return some (0, code)
    | none =>
      let out ← feed rs
      return out.map fun x => (x.1 + 1, x.2)

/-- The code of the shutdown a result requests. -/
def requested : Except UnixError UnixEvent → Option ℤ
  | .ok (.Signal _ sig _) => if sig = .SIGINT ∨ sig = .SIGTERM then some 0 else none
  | .ok _ => none
  | .error e => some (request e).1

/-- Where the loop has to break, and with which value, if `pending` is the code last requested: at
the first `PollTimeout` after a request. -/
def exit : Option ℤ → List (Except UnixError UnixEvent) → Option (ℕ × ℤ)
  | _, [] => none
  | some code, .ok .PollTimeout :: _ => some (0, code)
  | pending, res :: rs => (exit ((requested res).or pending) rs).map fun x => (x.1 + 1, x.2)

/-- The loop over `app` breaks where it has to on the results `rs`, and nowhere else. -/
def TakesEffect (app : UnixApp) (rs : List (Except UnixError UnixEvent)) : Prop :=
  ∀ t out s, ((feed rs).run (Loop.start app)).Exec t (out, s) → out = .ok (exit none rs)

/-! ### It never breaks -/

variable {f : Fds} {timeout : ℤ} {vec : List Cell}

theorem hand_run (stop : UnixAppStop) (res : Except UnixError UnixEvent) :
    (hand res).run (resting f timeout vec stop) =
      .ret (.ok (), holding f timeout vec stop res) := rfl

/-- **The loop never breaks.** -/
theorem feed_exec (h : Idle f) {stop : UnixAppStop} (hstop : stop.isStoped = false) :
    ∀ {rs : List (Except UnixError UnixEvent)} {t : List SysEvent}
      {x : Except Panic (Option (ℕ × ℤ)) × Loop},
      ((feed rs).run (resting f timeout vec stop)).Exec t x → x.1 = .ok none
  | [], t, x, hx => by
    obtain ⟨-, rfl⟩ := hx
    rfl
  | res :: rs, t, x, hx => by
    rw [feed, run_bind, hand_run, Tree.ret_bind, cont_ok, run_bind, handle_run timeout vec stop h,
      Tree.exec_bind] at hx
    obtain ⟨t₁, t₂, a, rfl, h₁, h₂⟩ := hx
    obtain ⟨stop', -, hstop', rfl⟩ := (react_iff hstop).mp h₁
    rw [cont_ok, run_bind, Tree.exec_bind] at h₂
    obtain ⟨t₃, t₄, ⟨out, s⟩, rfl, h₃, h₄⟩ := h₂
    obtain rfl : out = .ok none := feed_exec h hstop' h₃
    obtain ⟨-, rfl⟩ := h₄
    rfl

/-! ### When it has to -/

theorem exit_cons {pending : Option ℤ} {res : Except UnixError UnixEvent}
    {rs : List (Except UnixError UnixEvent)} (h : pending = none ∨ res ≠ .ok .PollTimeout) :
    exit pending (res :: rs) = none ↔ exit ((requested res).or pending) rs = none := by
  rw [exit, Option.map_eq_none_iff]
  rintro code rfl rfl
  simp at h

theorem exit_some_eq_none {code : ℤ} {rs : List (Except UnixError UnixEvent)} :
    exit (some code) rs = none ↔ .ok .PollTimeout ∉ rs := by
  induction rs generalizing code with
  | nil => simp [exit]
  | cons res rs ih =>
    by_cases hp : res = .ok .PollTimeout
    · simp [hp, exit]
    · obtain ⟨code', hc⟩ : ∃ code', (requested res).or (some code) = some code' := by
        cases requested res <;> simp
      rw [exit_cons (.inr hp), hc, ih]
      simp [Ne.symm hp]

/-- No exit is called for as long as no `PollTimeout` comes after a request. -/
theorem exit_eq_none {rs : List (Except UnixError UnixEvent)} : exit none rs = none ↔
    ∀ pre post, rs = pre ++ .ok .PollTimeout :: post → ∀ res ∈ pre, requested res = none := by
  induction rs with
  | nil => simp [exit]
  | cons res rs ih =>
    rw [exit_cons (.inl rfl)]
    rcases hq : requested res with _ | code
    · rw [Option.or_none, ih]
      constructor
      · rintro h (_ | ⟨a, pre⟩) post heq b hb
        · simp at hb
        · obtain ⟨rfl, rfl⟩ := List.cons.inj heq
          rcases List.mem_cons.mp hb with rfl | hb
          · exact hq
          · exact h pre post rfl b hb
      · rintro h pre post rfl b hb
        exact h (res :: pre) post rfl b (List.mem_cons_of_mem _ hb)
    · rw [Option.some_or, exit_some_eq_none]
      constructor
      · rintro h (_ | ⟨a, pre⟩) post heq b hb
        · simp at hb
        · obtain ⟨-, rfl⟩ := List.cons.inj heq
          simp at h
      · intro h hmem
        obtain ⟨pre, post, rfl⟩ := List.append_of_mem hmem
        have := h (res :: pre) post rfl res (by simp)
        simp [hq] at this

theorem takesEffect_iff_exit (r : Startup) (rs : List (Except UnixError UnixEvent)) :
    TakesEffect (r.app none zeros) rs ↔ exit none rs = none := by
  have hstop : UnixAppStop.new.isStoped = false := rfl
  have hnever : ∀ t out s, ((feed rs).run (Loop.start (r.app none zeros))).Exec t (out, s) →
      out = .ok none := fun t out s he => feed_exec (r.idle none) hstop he
  constructor
  · intro h
    obtain ⟨t, ⟨out, s⟩, he⟩ := Tree.exists_exec ((feed rs).run (Loop.start (r.app none zeros)))
    have hexit := h t out s he
    rw [hnever t out s he] at hexit
    exact (Except.ok.inj hexit).symm
  · intro h t out s he
    rw [h]
    exact hnever t out s he

/-- **The shutdown takes effect** exactly on the sequences in which no `PollTimeout` comes after a
shutdown request. -/
theorem takesEffect_iff {app : UnixApp} (hb : Built app)
    (rs : List (Except UnixError UnixEvent)) : TakesEffect app rs ↔
      ∀ pre post, rs = pre ++ .ok .PollTimeout :: post → ∀ res ∈ pre, requested res = none := by
  obtain ⟨r, rfl⟩ := built_iff.mp hb
  rw [takesEffect_iff_exit, exit_eq_none]

/-- The record of a `SIGTERM`. -/
def sigterm : Siginfo := ⟨15 :: List.replicate 127 0, by simp [sizeOfSiginfo]⟩

/-- A request, but no `PollTimeout` after it. -/
theorem takesEffect_sample : TakesEffect (sample.app none zeros)
    [.ok .PollTimeout, .ok (.Signal 0 .SIGTERM sigterm), .ok .ReadZeroBytes] := by
  refine (takesEffect_iff sample_built _).mpr ?_
  rintro (_ | ⟨a, _ | ⟨b, _ | ⟨c, pre⟩⟩⟩) post heq res hres
  all_goals simp at heq hres

/-- After a `SIGTERM` the loop does not break at the next `PollTimeout`. -/
theorem sigterm_ignored : ¬ TakesEffect (sample.app none zeros)
    [.ok (.Signal 0 .SIGTERM sigterm), .ok .PollTimeout] := by
  rw [takesEffect_iff_exit]
  simp [exit, requested]

end SshPass.EventLoop.Shutdown
