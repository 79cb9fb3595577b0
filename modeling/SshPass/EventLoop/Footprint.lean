import SshPass.EventLoop.Wiring
import Mathlib.Data.List.Induction

/-! # What the loop does over any registry

`appOf ops` is the application over the registry after the operations `ops`. Over any of them, and
with any buffer, the loop goes on for ever (`iteration_returns`), and the calls of each iteration
are of one of the shapes of `Moves` (`run_permitted`). -/

namespace SshPass.EventLoop.Footprint

open SshPass.Lib.CallTree SshPass.Lib.Borrow SshPass.Lib.Stateful
open SshPass.Unix.Kernel SshPass.Unix.Registry SshPass.Unix.RegistrySpec SshPass.Unix.Indices
open SshPass.Unix.Cache SshPass.Unix.Dispatch SshPass.Unix.App SshPass.Unix.AppSpec
open SshPass.EventLoop.Program SshPass.EventLoop.Wiring

variable {f : Fds} {timeout : ℤ} {vec vec' : List Cell} {stop : UnixAppStop} {n : ℕ}
variable {t t₁ t₂ : List SysEvent} {res : Except UnixError UnixEvent} {l : List Pollfd}
  {c : Option (List Pollfd)}

/-! ### Registries -/

/-- The poll of the entries of `f`. -/
def pollOf (f : Fds) (timeout : ℤ) (ans : Except Errno Polled) : SysEvent :=
  ⟨.poll ((fds f).map fun fd => (fd.asRawFd, fd.events)) (fds f).length timeout, ans⟩

/-- Whatever is in the cache, the loop polls the entries. -/
theorem polls_eq (hc : Coherent (withCache f c)) (ans : Except Errno Polled) :
    polls (withCache f c) timeout ans = pollOf f timeout ans := by
  have hdesc : Describes (fds f) (array (withCache f c)) := hc.describes_array
  have hlen : (withCache f c).len = (fds f).length := (length_fds f).symm
  exact congrArg₂ (fun l n => (⟨.poll l n timeout, ans⟩ : SysEvent)) hdesc hlen

/-- The application over the registry after the operations `ops`, with a fresh buffer of `n`
bytes. -/
def appOf (ops : List Op) (timeout : ℤ) (n : ℕ) : UnixApp :=
  ⟨⟨Unix.Indices.run ops, timeout⟩, Buffer.new n⟩

variable {ops : List Op} {ts : List (List SysEvent)} {s : Loop}

theorem coherent_run (ops : List Op) : Coherent (Unix.Indices.run ops) := by
  induction ops using List.reverseRecOn with
  | nil =>
    intro l hl
    simp [Unix.Indices.run, Fds.new, RefCell.new] at hl
  | append_singleton ops op ih =>
    rw [run_concat]
    exact ih.apply op

theorem appOf_rested (hr : Runs (appOf ops timeout n) ts s) :
    Rested (Unix.Indices.run ops) timeout n s := by
  have hrested := runs_rested (idle_run ops) (coherent_run ops) (hr : Runs (appOver _ _ _) ts s)
  rwa [List.length_replicate] at hrested

/-- What holds of every iteration from a rest holds of every iteration of a run. -/
theorem forall_iterations {Q : List SysEvent → Prop} (hr : Runs (appOf ops timeout n) ts s)
    (h : ∀ s t x, Rested (Unix.Indices.run ops) timeout n s → (Loop.body.run s).Exec t x → Q t) :
    ∀ t ∈ ts, Q t := by
  induction hr with
  | start => simp
  | iterate hr hb ih =>
    intro t ht
    rcases List.mem_append.mp ht with ht | ht
    · exact ih t ht
    · obtain rfl := List.mem_singleton.mp ht
      exact h _ _ _ (appOf_rested hr) hb

/-! ### A sample run -/

/-- A pty and stdout. -/
def ptyOps : List Op := [.pushPtyFd ⟨4, 5⟩ 100 POLLIN, .pushStdoutFd 1 POLLIN]

/-- Two bytes of the master. -/
def ptyChunk : Chunk .PtyMaster 2 := ⟨[0x6f, 0x6b], by simp, by simp⟩

/-- The master is ready. -/
def masterReady : Polled := ⟨1, fun k => if k = 0 then POLLIN else 0⟩

/-- An iteration that relays the two bytes, of which stdout accepts `k`. -/
def ptyCalls (k : Fin 3) : List SysEvent :=
  [pollOf (Unix.Indices.run ptyOps) 200 (.ok masterReady), ⟨.read ⟨.PtyMaster, 4⟩ 2, .ok ptyChunk⟩,
    ⟨.write ⟨.Stdout, 1⟩ (tag .PtyMaster ptyChunk.bytes), .ok k⟩]

theorem ptyCalls_run (k : Fin 3) : ∃ s, Runs (appOf ptyOps 200 2) [ptyCalls k] s := by
  have hstop : UnixAppStop.new.isStoped = false := rfl
  obtain ⟨s, h⟩ := relays_exec (idle_run ptyOps) 200 List.length_replicate hstop masterReady
    (by decide) (.PtyMaster 4 POLLIN 100) (i := 0) (by decide) ptyChunk (by decide)
    (d := ⟨.Stdout, 1⟩) (by decide) (.ok k)
  exact ⟨s, Runs.start.iterate h⟩

/-! ### What a run keeps -/

/-- The loop is at rest: no guard is live, no response is queued and the receiver is alive. -/
structure AtRest (s : Loop) : Prop where
  idle : Idle s.app.poller.fds
  buffer : s.app.buf.buf.Free
  channel : s.chan = ⟨[], true⟩

/-- **The loop over any registry goes on**: whatever was registered, with any timeout and any size
of the buffer, and whatever the kernel answers, an iteration neither panics nor breaks, and leaves
the loop at rest with the same entries and a buffer of the same size. -/
theorem iteration_returns (hr : Runs (appOf ops timeout n) ts s)
    {x : Except Panic (Option ℤ) × Loop} (hx : (Loop.body.run s).Exec t x) :
    x.1 = .ok none ∧ AtRest x.2 ∧ fds x.2.app.poller.fds = fds (Unix.Indices.run ops) ∧
      x.2.app.buf.buf.value.length = n := by
  have hidle := idle_run ops
  obtain ⟨c, vec, t₁, t₂, res, l, vec', stop, stop', -, hlen, -, -, hg, -, hx', -⟩ :=
    body_exec hidle (appOf_rested hr) hx
  subst hx'
  exact ⟨rfl, ⟨idle_withCache hidle _, rfl, rfl⟩, rfl, hg.length_eq.trans hlen⟩

theorem ptyCalls_returns : ∃ s x, Runs (appOf ptyOps 200 2) [ptyCalls 1] s ∧
    (∃ t, (Loop.body.run s).Exec t x) ∧ x.1 = .ok none ∧ AtRest x.2 := by
  obtain ⟨s, hr⟩ := ptyCalls_run 1
  obtain ⟨t, x, hx⟩ := (Loop.body.run s).exists_exec
  obtain ⟨hx₁, hx₂, -, -⟩ := iteration_returns hr hx
  exact ⟨s, x, hr, ⟨t, hx⟩, hx₁, hx₂⟩

/-! ### The calls of a run -/

/-- The calls of an iteration: a poll of the entries, and then one call aside at most; or a poll
that counts an entry, a read of the whole buffer from an entry other than stdout, and then one call
aside at most, or the write of exactly the chunk to the end of its wire. -/
inductive Moves (f : Fds) (timeout : ℤ) (n : ℕ) : List SysEvent → Prop
  | quiet (ans : Except Errno Polled) {x : Option SysEvent} (hx : ∀ e ∈ x, IsAside e.op) :
      Moves f timeout n (pollOf f timeout ans :: x.toList)
  | drops (p : Polled) (hp : p.n ≠ 0) {fd : Fd} (hfd : fd ∈ fds f) (hk : fd.kind ≠ .Stdout)
      (ans : Except Errno (Chunk fd.kind n))
      (hd : ∀ c, ans = .ok c → c.bytes ≠ [] → wire f fd.kind = none) {x : Option SysEvent}
      (hx : ∀ e ∈ x, IsAside e.op) :
      Moves f timeout n (pollOf f timeout (.ok p) :: ⟨.read fd.desc n, ans⟩ :: x.toList)
  | relays (p : Polled) (hp : p.n ≠ 0) {fd : Fd} (hfd : fd ∈ fds f) (c : Chunk fd.kind n)
      (hc : c.bytes ≠ []) {d : Desc} (hd : wire f fd.kind = some d)
      (w : Ans (.write d (tag fd.kind c.bytes))) :
      Moves f timeout n [pollOf f timeout (.ok p), ⟨.read fd.desc n, .ok c⟩,
        ⟨.write d (tag fd.kind c.bytes), w⟩]

theorem reacts_aside {stop' : UnixAppStop} (hr : Reacts f vec stop res t stop')
    (h : ∀ o, reaction f vec res = some o → IsAside o) :
    ∃ x : Option SysEvent, (∀ e ∈ x, IsAside e.op) ∧ t = x.toList := by
  cases hr with
  | silent => exact ⟨none, by simp, rfl⟩
  | @calls o a ho => exact ⟨some ⟨o, a⟩, by simpa using h o ho, rfl⟩

/-- **The calls of one iteration** have one of the shapes. -/
theorem gets_moves (hg : Gets (withCache f c) timeout vec t₁ res l vec')
    (hc : Coherent (withCache f c)) {stop' : UnixAppStop}
    (hr : Reacts (withCache f c) vec' stop res t₂ stop') :
    Moves f timeout vec.length (t₁ ++ t₂) := by
  have hquiet : ∀ {ans : Except Errno Polled}, Quiet res →
      Moves f timeout vec.length ([polls (withCache f c) timeout ans] ++ t₂) := by
    intro ans hq
    obtain ⟨x, hx, rfl⟩ := reacts_aside hr fun o => reaction_quiet hq
    rw [polls_eq hc]
    exact .quiet ans hx
  cases hg with
  | fails e => exact hquiet (.inr (.inr ⟨e, rfl⟩))
  | times p hp => exact hquiet (.inl rfl)
  | nothing p hp hf => exact hquiet (.inr (.inl rfl))
  | stdout p hp fd i hf hk => exact hquiet (.inr (.inl rfl))
  | reads p hp fd i hf hk ans =>
    have hfd : fd ∈ fds f := List.mem_of_getElem? (firstReady_some hf)
    rw [polls_eq hc]
    by_cases hdata : ∃ c' d, ans = .ok c' ∧ c'.bytes ≠ [] ∧ wire f fd.kind = some d
    · obtain ⟨c', d, rfl, hne, hd⟩ := hdata
      have hout : outlet fd.kind ≠ none := by
        intro hout
        simp [wire, hout] at hd
      have hwrite := reaction_data (f := withCache f c) (i := i) hne hout
      rw [wire_withCache, hd] at hwrite
      cases hr with
      | silent hnone => exact absurd (hnone.symm.trans hwrite) (by simp)
      | @calls o w ho =>
        obtain rfl := Option.some.inj (hwrite.symm.trans ho)
        exact .relays p hp hfd c' hne hd w
    · obtain ⟨x, hx, rfl⟩ := reacts_aside hr fun o ho => (reaction_read ho).resolve_right (by
        rintro ⟨c', d, rfl, hne, hd, -⟩
        exact hdata ⟨c', d, rfl, hne, by rwa [wire_withCache] at hd⟩)
      refine .drops p hp hfd hk ans (fun c' hans hne => ?_) hx
      by_contra hd
      obtain ⟨d, hd⟩ := Option.ne_none_iff_exists'.mp hd
      exact hdata ⟨c', d, hans, hne, hd⟩

theorem rested_moves (h : Idle f) (hs : Rested f timeout n s) {x : Except Panic (Option ℤ) × Loop}
    (hx : (Loop.body.run s).Exec t x) : Moves f timeout n t := by
  obtain ⟨c, vec, t₁, t₂, res, l, vec', stop, stop', -, rfl, hc, rfl, hg, hreacts, -, -⟩ :=
    body_exec h hs hx
  exact gets_moves hg hc hreacts

/-- **What a run does**, iteration by iteration. -/
theorem run_permitted (hr : Runs (appOf ops timeout n) ts s) :
    ∀ t ∈ ts, Moves (Unix.Indices.run ops) timeout n t :=
  forall_iterations hr fun _ _ _ hs hx => rested_moves (idle_run ops) hs hx

theorem ptyCalls_permitted : ∃ s, Runs (appOf ptyOps 200 2) [ptyCalls 1] s ∧
    Moves (Unix.Indices.run ptyOps) 200 2 (ptyCalls 1) := by
  obtain ⟨s, hr⟩ := ptyCalls_run 1
  exact ⟨s, hr, run_permitted hr _ List.mem_cons_self⟩

/-- The calls the loop makes. -/
def LoopCall : Sys → Prop
  | .poll _ _ _ | .read _ _ | .write _ _ | .now | .waitpid _ => True
  | _ => False

theorem Moves.loopCall (h : Moves f timeout n t) : ∀ e ∈ t, LoopCall e.op := by
  have haside : ∀ {o : Sys}, IsAside o → LoopCall o := by
    rintro o (rfl | ⟨_, rfl⟩) <;> trivial
  intro e he
  cases h with
  | quiet ans hx =>
    rcases List.mem_cons.mp he with rfl | he
    · trivial
    · exact haside (hx e (Option.mem_toList.mp he))
  | drops p hp hfd hk ans hd hx =>
    rcases List.mem_cons.mp he with rfl | he
    · trivial
    rcases List.mem_cons.mp he with rfl | he
    · trivial
    · exact haside (hx e (Option.mem_toList.mp he))
  | relays p hp hfd c hc hd w =>
    rcases List.mem_cons.mp he with rfl | he
    · trivial
    rcases List.mem_cons.mp he with rfl | he
    · trivial
    · obtain rfl := List.mem_singleton.mp he
      trivial

/-! ### The read and the write of an iteration -/

theorem isPoll_pollOf (f : Fds) (timeout : ℤ) (ans : Except Errno Polled) :
    IsPoll (pollOf f timeout ans) := ⟨_, _, _, rfl⟩

theorem not_write {e : SysEvent} (he : IsPoll e ∨ IsAside e.op) (fd : Desc) (buf : List Cell) :
    e.op ≠ .write fd buf := by
  intro h
  obtain ⟨_, _, _, he⟩ | he | ⟨_, he⟩ := he <;> simp [he] at h

theorem not_read {e : SysEvent} (he : IsPoll e ∨ IsAside e.op) (fd : Desc) (n : ℕ) :
    e.op ≠ .read fd n := by
  intro h
  obtain ⟨_, _, _, he⟩ | he | ⟨_, he⟩ := he <;> simp [he] at h

/-- The writes of an iteration: one at most, its last call, of the chunk just read. -/
theorem Moves.write {pre post : List SysEvent} {dst : Desc} {buf : List Cell}
    {w : Ans (.write dst buf)} (h : Moves f timeout n t)
    (ht : t = pre ++ ⟨.write dst buf, w⟩ :: post) :
    ∃ p fd c, pre = [p, ⟨.read fd n, .ok c⟩] ∧ post = [] ∧ wire f fd.kind = some dst ∧
      c.bytes ≠ [] ∧ buf = tag fd.kind c.bytes := by
  have hmem : (⟨.write dst buf, w⟩ : SysEvent) ∈ t := by simp [ht]
  have hno : ¬ (IsPoll ⟨.write dst buf, w⟩ ∨ IsAside (.write dst buf)) :=
    fun he => not_write (e := ⟨.write dst buf, w⟩) he dst buf rfl
  cases h with
  | quiet ans hx =>
    rcases List.mem_cons.mp hmem with heq | hmem
    · exact absurd (.inl (heq ▸ isPoll_pollOf f timeout ans)) hno
    · exact absurd (.inr (hx _ (Option.mem_toList.mp hmem))) hno
  | drops p hp hfd hk ans hd hx =>
    rcases List.mem_cons.mp hmem with heq | hmem
    · exact absurd (.inl (heq ▸ isPoll_pollOf f timeout _)) hno
    rcases List.mem_cons.mp hmem with heq | hmem
    · exact absurd (congrArg Event.op heq) (by simp)
    · exact absurd (.inr (hx _ (Option.mem_toList.mp hmem))) hno
  | @relays p hp fd hfd c hc d hd w' =>
    -- the write is the third call: nothing else in the trace writes
    rcases pre with _ | ⟨a, _ | ⟨b, _ | ⟨e, pre⟩⟩⟩
    · have heq := (List.cons.inj ht).1
      exact absurd (.inl (heq ▸ isPoll_pollOf f timeout _)) hno
    · simp at ht
    · simp only [List.cons_append, List.nil_append, List.cons.injEq, Event.mk.injEq,
        Sys.write.injEq] at ht
      obtain ⟨rfl, rfl, ⟨⟨rfl, rfl⟩, -⟩, rfl⟩ := ht
      exact ⟨_, fd.desc, c, rfl, rfl, hd, hc, rfl⟩
    · simp at ht

/-- The reads of an iteration: one at most, its second call. What is read is dropped or written on
by the next call. -/
theorem Moves.read {m : ℕ} {pre post : List SysEvent} {fd : Desc}
    {ans : Except Errno (Chunk fd.kind m)} (h : Moves f timeout n t)
    (ht : t = pre ++ ⟨.read fd m, ans⟩ :: post) :
    (∃ p, pre = [p] ∧ IsPoll p) ∧ (((∀ e ∈ post, IsAside e.op) ∧
        ∀ c, ans = .ok c → c.bytes ≠ [] → wire f fd.kind = none) ∨
      ∃ c dst w, ans = .ok c ∧ c.bytes ≠ [] ∧ wire f fd.kind = some dst ∧
        post = [⟨.write dst (tag fd.kind c.bytes), w⟩]) := by
  have hmem : (⟨.read fd m, ans⟩ : SysEvent) ∈ t := by simp [ht]
  have hno : ¬ (IsPoll ⟨.read fd m, ans⟩ ∨ IsAside (.read fd m)) :=
    fun he => not_read (e := ⟨.read fd m, ans⟩) he fd m rfl
  cases h with
  | quiet ans' hx =>
    rcases List.mem_cons.mp hmem with heq | hmem
    · exact absurd (.inl (heq ▸ isPoll_pollOf f timeout ans')) hno
    · exact absurd (.inr (hx _ (Option.mem_toList.mp hmem))) hno
  | @drops p hp fd' hfd hk ans' hd x hx =>
    rcases pre with _ | ⟨a, _ | ⟨b, pre⟩⟩
    · have heq := (List.cons.inj ht).1
      exact absurd (.inl (heq ▸ isPoll_pollOf f timeout _)) hno
    · simp only [List.cons_append, List.nil_append, List.cons.injEq] at ht
      obtain ⟨rfl, hread, rfl⟩ := ht
      cases hread
      exact ⟨⟨_, rfl, isPoll_pollOf f timeout _⟩,
        .inl ⟨fun e he => hx e (Option.mem_toList.mp he), hd⟩⟩
    · simp only [List.cons_append, List.cons.injEq] at ht
      obtain ⟨-, -, hpost⟩ := ht
      have haside : IsAside (.read fd m) :=
        hx ⟨.read fd m, ans⟩ (Option.mem_toList.mp (by simp [hpost]))
      exact absurd (.inr haside) hno
  | @relays p hp fd' hfd c hc d hd w =>
    rcases pre with _ | ⟨a, _ | ⟨b, _ | ⟨e, pre⟩⟩⟩
    · have heq := (List.cons.inj ht).1
      exact absurd (.inl (heq ▸ isPoll_pollOf f timeout _)) hno
    · simp only [List.cons_append, List.nil_append, List.cons.injEq, Event.mk.injEq,
        Sys.read.injEq] at ht
      obtain ⟨rfl, ⟨⟨rfl, rfl⟩, hans⟩, rfl⟩ := ht
      obtain rfl := eq_of_heq hans
      exact ⟨⟨_, rfl, isPoll_pollOf f timeout _⟩, .inr ⟨c, d, w, rfl, hc, hd, rfl⟩⟩
    · simp at ht
    · simp at ht

end SshPass.EventLoop.Footprint
