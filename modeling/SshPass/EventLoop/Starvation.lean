import SshPass.EventLoop.Iteration

/-! # Starvation

Each iteration reads the first entry that is ready. So the first entry is read whenever it is ready,
and any other may wait for ever: `starvable_iff`. Stdout is the exception, as it is never read. -/

namespace SshPass.EventLoop.Starvation

open SshPass.Lib.CallTree
open SshPass.Unix.Kernel SshPass.Unix.Registry SshPass.Unix.RegistrySpec SshPass.Unix.Indices
open SshPass.Unix.Cache SshPass.Unix.ReadyIter SshPass.Unix.Dispatch SshPass.Unix.App
open SshPass.Unix.AppSpec
open SshPass.EventLoop.Program SshPass.EventLoop.Wiring SshPass.EventLoop.Footprint
open SshPass.EventLoop.Iteration (sample startOps)

variable {ops : List Op} {timeout : ℤ} {n i : ℕ} {fd : Fd} {ts : List (List SysEvent)} {s : Loop}
variable {t : List SysEvent} {p : Polled} {f : Fds} {c : Option (List Pollfd)} {vec : List Cell}

/-- The iteration polls, finds the entry `fd` at `i` ready and does not read it. -/
structure Passes (f : Fds) (timeout : ℤ) (i : ℕ) (fd : Fd) (t : List SysEvent) : Prop where
  ready : ∃ p rest, t = pollOf f timeout (.ok p) :: rest ∧ Counts (fds f) p ∧ p.revents i ≠ 0
  unread : ∀ e ∈ t, ∀ k, e.op ≠ .read fd.desc k

/-! ### The first entry -/

theorem firstReady_arrayAfter (hc : Coherent (withCache f c)) (hd : Distinct (fds f)) (hn : p.n ≠ 0)
    (hcount : Counts (fds f) p) : ∃ fd i, Lowest (fds f) p fd i ∧
      firstReady (fds f) (arrayAfter (withCache f c) p) (withCache f c).len 0 = some (fd, i) := by
  obtain ⟨fd, i, hlow, hf⟩ :=
    firstReady_lowest (a := appOver (withCache f c) 0 []) hc hd hn hcount
  have hlen : (withCache f c).len = (fds f).length := (length_fds f).symm
  rw [arrayAfter, hlen]
  exact ⟨fd, i, hlow, hf⟩

theorem counts_ne_zero (hcount : Counts (fds f) p) (hi : i < (fds f).length)
    (hr : p.revents i ≠ 0) : p.n ≠ 0 := by
  have hmem : i ∈ (List.range (fds f).length).filter fun k => p.revents k ≠ 0 :=
    List.mem_filter.mpr ⟨List.mem_range.mpr hi, by simpa using hr⟩
  rw [hcount]
  exact Nat.pos_iff_ne_zero.mp (List.length_pos_of_mem hmem)

/-- **The first entry is read** in every iteration that finds it ready. -/
theorem not_passes_first (hd : Distinct (fds f)) (hi : (fds f)[0]? = some fd)
    (hk : fd.kind ≠ .Stdout) {t₁ t₂ : List SysEvent} {res : Except UnixError UnixEvent}
    {l : List Pollfd} {vec' : List Cell} (hc : Coherent (withCache f c))
    (hg : Gets (withCache f c) timeout vec t₁ res l vec') : ¬ Passes f timeout 0 fd (t₁ ++ t₂) := by
  rintro ⟨⟨p, rest, ht, hcount, hr⟩, hunread⟩
  have hlt := (List.getElem?_eq_some_iff.mp hi).1
  have hn := counts_ne_zero hcount hlt hr
  obtain ⟨fd', i, ⟨hi', hr', hlow⟩, hf⟩ := firstReady_arrayAfter hc hd hn hcount
  obtain rfl : i = 0 := by
    by_contra hne
    exact hr (hlow 0 (Nat.pos_of_ne_zero hne))
  obtain rfl : fd' = fd := Option.some.inj (hi'.symm.trans hi)
  rw [← polls_eq hc] at ht
  have hpoll : ∀ {ans : Except Errno Polled} {u : List SysEvent},
      polls (withCache f c) timeout ans :: u = polls (withCache f c) timeout (.ok p) :: rest →
        ans = .ok p := by
    intro ans u hu
    have hfirst := (List.cons.inj hu).1
    simpa [polls] using hfirst
  cases hg with
  | fails e => exact absurd (hpoll ht) (by simp)
  | times p' hp =>
    obtain rfl := Except.ok.inj (hpoll ht)
    exact hn hp
  | nothing p' hp hf' =>
    obtain rfl := Except.ok.inj (hpoll ht)
    exact absurd (hf.symm.trans hf') (by simp)
  | stdout p' hp fd₁ i hf' hk' =>
    obtain rfl := Except.ok.inj (hpoll ht)
    obtain ⟨rfl, -⟩ := Prod.mk.inj (Option.some.inj (hf.symm.trans hf'))
    exact hk hk'
  | reads p' hp fd₁ i hf' hk' ans =>
    obtain rfl := Except.ok.inj (hpoll ht)
    obtain ⟨rfl, -⟩ := Prod.mk.inj (Option.some.inj (hf.symm.trans hf'))
    exact hunread ⟨.read fd'.desc vec.length, ans⟩ (by simp) _ rfl

/-! ### The other entries -/

/-- The first entry and the one at `i` are ready. -/
def crowded (f : Fds) (i : ℕ) : Polled where
  n := ((List.range (fds f).length).filter fun k => k = 0 ∨ k = i).length
  revents k := if k = 0 ∨ k = i then POLLIN else 0

theorem counts_crowded (f : Fds) (i : ℕ) : Counts (fds f) (crowded f i) := by
  refine congrArg List.length (List.filter_congr fun k _ => ?_)
  by_cases hk : k = 0 ∨ k = i <;> simp [crowded, hk, POLLIN]

/-- The entry at `i` may be passed over. -/
theorem exists_passes (hd : Distinct (fds f)) (hf : Idle f) (hi : (fds f)[i]? = some fd)
    (hpass : i ≠ 0 ∨ fd.kind = .Stdout) (hs : Rested f timeout n s) :
    ∃ t s', (Loop.body.run s).Exec t (.ok none, s') ∧ Passes f timeout i fd t := by
  obtain ⟨c, vec, stop, rfl, hlen, hstop, hc⟩ := hs
  have hlt := (List.getElem?_eq_some_iff.mp hi).1
  have hcount := counts_crowded f i
  have hr : (crowded f i).revents i ≠ 0 := by simp [crowded, POLLIN]
  have hn := counts_ne_zero hcount hlt hr
  obtain ⟨fd₀, j, ⟨hj, -, hlow⟩, hfirst⟩ := firstReady_arrayAfter hc hd hn hcount
  obtain rfl : j = 0 := by
    by_contra hne
    have hzero := hlow 0 (Nat.pos_of_ne_zero hne)
    simp [crowded, POLLIN] at hzero
  have hready : ∀ rest, ∃ p rest', polls (withCache f c) timeout (.ok (crowded f i)) :: rest =
      pollOf f timeout (.ok p) :: rest' ∧ Counts (fds f) p ∧ p.revents i ≠ 0 :=
    fun rest => ⟨_, rest, by rw [polls_eq hc], hcount, hr⟩
  have hidle := idle_withCache hf c
  by_cases hk : fd₀.kind = .Stdout
  · refine ⟨_, _, (body_iff hidle).mpr ⟨[_], [_], _, _, _, rfl, .stdout _ hn fd₀ 0 hfirst hk,
      (react_iff hstop).mpr ⟨_, .calls (o := .now) (0 : ℕ) rfl, isStoped_restop hstop _ _, rfl⟩⟩,
      hready _, ?_⟩
    intro e he k
    rcases List.mem_cons.mp he with rfl | he
    · simp [polls]
    · obtain rfl := List.mem_singleton.mp he
      simp
  · have hzero : result fd₀ 0 (.error EAGAIN : Except Errno (Chunk fd₀.kind vec.length)) =
        .ok .ReadZeroBytes := rfl
    have hother : fd₀.desc ≠ fd.desc := by
      intro hdesc
      have hraw : fd₀.asRawFd = fd.asRawFd := congrArg Desc.raw hdesc
      have hposition : position (fds f) fd₀ = position (fds f) fd :=
        congrArg (List.idxOf · ((fds f).map Fd.asRawFd)) hraw
      rw [position_eq hd hj, position_eq hd hi] at hposition
      exact hpass.elim (fun hne => hne hposition.symm)
        fun hstdout => hk ((congrArg Desc.kind hdesc).trans hstdout)
    refine ⟨_, _, (body_iff hidle).mpr ⟨[_, _], [], _, _, _, rfl,
      .reads _ hn fd₀ 0 hfirst hk (.error EAGAIN),
      (react_iff hstop).mpr ⟨_, .silent (by rw [hzero]; rfl), hstop, rfl⟩⟩, hready _, ?_⟩
    intro e he k
    rcases List.mem_cons.mp he with rfl | he
    · simp [polls]
    · obtain rfl := List.mem_singleton.mp he
      exact fun hop => hother (Sys.read.inj hop).1

/-- **An entry can be starved** exactly if it is not the first, or is stdout: for every number of
iterations there is a run of so many that all find the entry ready, and none reads it. -/
theorem starvable_iff (hd : Distinct (fds (Unix.Indices.run ops)))
    (hi : (fds (Unix.Indices.run ops))[i]? = some fd) :
    (∀ m, ∃ ts s, Runs (appOf ops timeout n) ts s ∧ ts.length = m ∧
      ∀ t ∈ ts, Passes (Unix.Indices.run ops) timeout i fd t) ↔ i ≠ 0 ∨ fd.kind = .Stdout := by
  have hidle := idle_run ops
  constructor
  · intro h
    by_contra hfirst
    push Not at hfirst
    obtain ⟨rfl, hk⟩ := hfirst
    obtain ⟨ts, s, hr, hlen, hpass⟩ := h 1
    obtain ⟨t, rfl⟩ := List.length_eq_one_iff.mp hlen
    refine forall_iterations (Q := fun t => ¬ Passes (Unix.Indices.run ops) timeout 0 fd t) hr ?_ t
      List.mem_cons_self (hpass t List.mem_cons_self)
    intro s t x hs hx
    obtain ⟨c, vec, t₁, t₂, res, l, vec', stop, stop', -, -, hc, rfl, hg, -, -, -⟩ :=
      body_exec hidle hs hx
    exact not_passes_first hd hi hk hc hg
  · intro hpass m
    induction m with
    | zero => exact ⟨[], _, .start, rfl, by simp⟩
    | succ m ih =>
      obtain ⟨ts, s, hr, hlen, hall⟩ := ih
      obtain ⟨t, s', hx, ht⟩ := exists_passes hd hidle hi hpass (appOf_rested hr)
      refine ⟨_, s', hr.iterate hx, by simp [hlen], fun u hu => ?_⟩
      rcases List.mem_append.mp hu with hu | hu
      · exact hall u hu
      · obtain rfl := List.mem_singleton.mp hu
        exact ht

/-- In the application of a sample start stdin may wait for a thousand iterations. -/
theorem stdin_starves : ∃ ts s, Runs (appOf (startOps sample) 200 4096) ts s ∧ ts.length = 1000 ∧
    ∀ t ∈ ts, Passes (Unix.Indices.run (startOps sample)) 200 3
      (.Stdin stdinFd POLLIN sample.termios) t :=
  (starvable_iff (by decide) (by decide)).mpr (.inl (by decide)) 1000

end SshPass.EventLoop.Starvation
