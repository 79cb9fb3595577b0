import SshPass.EventLoop.Iteration

/-! # The signals

The kernel queues signals and a read of the signalfd removes as many as fit into the buffer
(`signalfd`). `system_event` decodes the first one only, so `Hands`, a run with the signals it hands
to the loop, loses the others: `noSignalLost_iff`. -/

namespace SshPass.EventLoop.Signals

open SshPass.Lib.CallTree SshPass.Lib.Borrow SshPass.Lib.Stateful SshPass.Lib.Stateful.Prog
open SshPass.Unix.Kernel SshPass.Unix.Registry SshPass.Unix.RegistrySpec SshPass.Unix.Indices
open SshPass.Unix.App SshPass.Unix.AppSpec
open SshPass.EventLoop.Program SshPass.EventLoop.Construction SshPass.EventLoop.Wiring
open SshPass.EventLoop.Iteration

/-! ### The queue of the kernel -/

/-- A record of a signal. -/
def Valid (x : Siginfo) : Prop := ∃ sig, Signal.tryFrom (asI32 x.ssiSigno) = .ok sig

/-- A read of the signalfd: the signals that were pending, and how many fit into the buffer. -/
structure Batch where
  pending : List Siginfo
  room : ℕ

/-- The signals the read removed. -/
def Batch.removed (b : Batch) : List Siginfo := b.pending.take b.room

/-- The answer of a read of the signalfd. -/
def Batch.Answers {k : Kind} {n : ℕ} (b : Batch) (ans : Except Errno (Chunk k n)) : Prop :=
  if b.pending = [] then ans = .error EAGAIN
  else ∃ c, ans = .ok c ∧ c.bytes = b.removed.flatMap Siginfo.bytes

/-- The queue of the signalfd, and the reads so far. -/
structure SigQueue where
  pending : List Siginfo
  reads : List Batch

/-- The kernel: a read of the signalfd finds also the signals that arrived meanwhile. -/
def signalfd : Env Sys Ans SigQueue := fun k e k' =>
  match e with
  | ⟨.read fd n, ans⟩ =>
    if fd.kind = .Signal then
      ∃ b : Batch, k.pending <+: b.pending ∧ (∀ x ∈ b.pending, x ∈ k.pending ∨ Valid x) ∧
        b.room = n / sizeOfSiginfo ∧ b.Answers ans ∧
        k' = ⟨b.pending.drop b.room, k.reads ++ [b]⟩
    else k' = k
  | _ => k' = k

variable {q : List Siginfo} {k k' : SigQueue} {t : List SysEvent}

theorem signalfd_other {e : SysEvent} (he : ∀ fd n, e.op ≠ .read fd n) :
    signalfd k e k' ↔ k' = k := by
  obtain ⟨o, ans⟩ := e
  cases o with
  | read fd n => exact absurd rfl (he fd n)
  | _ => exact Iff.rfl

theorem signalfd_others (h : signalfd.Run k t k') (ht : ∀ e ∈ t, ∀ fd n, e.op ≠ .read fd n) :
    k' = k :=
  h.invariant (P := fun j => j = k)
    (fun e he _ _ hs hstep => ((signalfd_other (ht e he)).mp hstep).trans hs) rfl

/-- Everything in the queue, now and at the reads, is the record of a signal. -/
def SigQueue.Valid (k : SigQueue) : Prop :=
  (∀ x ∈ k.pending, Signals.Valid x) ∧ ∀ b ∈ k.reads, ∀ x ∈ b.pending, Signals.Valid x

theorem valid_step {e : SysEvent} (hk : k.Valid) (h : signalfd k e k') : k'.Valid := by
  obtain ⟨o, ans⟩ := e
  cases o with
  | read fd n =>
    simp only [signalfd] at h
    split_ifs at h with hkind
    · obtain ⟨b, -, hb, -, -, rfl⟩ := h
      have hall : ∀ x ∈ b.pending, Signals.Valid x := fun x hx => (hb x hx).elim (hk.1 x) id
      refine ⟨fun x hx => hall x (List.mem_of_mem_drop hx), fun c hc => ?_⟩
      rcases List.mem_append.mp hc with hc | hc
      · exact hk.2 c hc
      · obtain rfl := List.mem_singleton.mp hc
        exact hall
    · rwa [h]
  | _ =>
    obtain rfl : k' = k := h
    exact hk

theorem valid_run (hk : k.Valid) (h : signalfd.Run k t k') : k'.Valid :=
  h.invariant (fun _ _ _ _ => valid_step) hk

/-! ### The signals of a run -/

/-- The signal a result hands to the loop. -/
def handed : Except UnixError UnixEvent → List (Signal × Siginfo)
  | .ok (.Signal _ sig siginfo) => [(sig, siginfo)]
  | _ => []

/-- A run of the loop over `app`, with the signals that `system_event` handed to it. -/
inductive Hands (app : UnixApp) : List (List SysEvent) → List (Signal × Siginfo) → Loop → Prop
  | start : Hands app [] [] (Loop.start app)
  | iterate {ts : List (List SysEvent)} {evs : List (Signal × Siginfo)} {s s₁ s' : Loop}
      {t₁ t₂ : List SysEvent} {res : Except UnixError UnixEvent} (h : Hands app ts evs s)
      (he : ((zoom Loop.appField UnixApp.systemEvent).run s).Exec t₁ (.ok res, s₁))
      (hh : ((Loop.handle res).run s₁).Exec t₂ (.ok none, s')) :
      Hands app (ts ++ [t₁ ++ t₂]) (evs ++ handed res) s'

theorem runs_iff_hands {app : UnixApp} {ts : List (List SysEvent)} {s : Loop} :
    Runs app ts s ↔ ∃ evs, Hands app ts evs s := by
  constructor
  · intro h
    induction h with
    | start => exact ⟨[], .start⟩
    | iterate _ hb ih =>
      obtain ⟨evs, ih⟩ := ih
      rw [Loop.body, exec_bind] at hb
      obtain ⟨_, _, -, h⟩ | ⟨t₁, t₂, res, s₁, rfl, he, hh⟩ := hb
      · simp at h
      · exact ⟨_, .iterate ih he hh⟩
  · rintro ⟨evs, h⟩
    induction h with
    | start => exact .start
    | iterate _ he hh ih =>
      refine .iterate ih ?_
      rw [Loop.body, exec_bind]
      exact .inr ⟨_, _, _, _, rfl, he, hh⟩

/-- What is handed is what was removed, in order and without omission. -/
def NoSignalLost (evs : List (Signal × Siginfo)) (bs : List Batch) : Prop :=
  evs.map Prod.snd = bs.flatMap Batch.removed ∧
    ∀ x ∈ evs, Signal.tryFrom (asI32 x.2.ssiSigno) = .ok x.1

/-! ### What a read hands over -/

theorem length_records : ∀ q : List Siginfo,
    (q.flatMap Siginfo.bytes).length = q.length * sizeOfSiginfo
  | [] => by simp
  | x :: q => by
    rw [List.flatMap_cons, List.length_append, x.len, length_records q, List.length_cons,
      Nat.succ_mul, Nat.add_comm]

theorem head?_flatMap (x : Siginfo) (q : List Siginfo) :
    head? ((x :: q).flatMap Siginfo.bytes) = some x := by
  have hlen : sizeOfSiginfo ≤ ((x :: q).flatMap Siginfo.bytes).length := by
    rw [length_records, List.length_cons, Nat.succ_mul]
    omega
  have htake : ((x :: q).flatMap Siginfo.bytes).take sizeOfSiginfo = x.bytes := by
    rw [List.flatMap_cons, ← x.len, List.take_left]
  rw [head?, dif_pos hlen]
  simp only [htake]

theorem result_signal {raw : RawFd} {events : Int16} {i n : ℕ} {b : Batch} {x : Siginfo}
    {ans : Except Errno (Chunk (Fd.Signal raw events).kind n)} (hans : b.Answers ans)
    (hroom : b.room ≠ 0) (hp : b.pending = x :: q) {sig : Signal}
    (hsig : Signal.tryFrom (asI32 x.ssiSigno) = .ok sig) :
    result (.Signal raw events) i ans = .ok (.Signal i sig x) := by
  simp only [Batch.Answers, hp, reduceCtorEq, if_false] at hans
  obtain ⟨c, rfl, hc⟩ := hans
  obtain ⟨m, hm⟩ := Nat.exists_eq_succ_of_ne_zero hroom
  rw [Batch.removed, hp, hm, List.take_succ_cons] at hc
  have hne : (x :: q.take m).flatMap Siginfo.bytes ≠ [] := by
    intro h
    have hlen := congrArg List.length h
    rw [length_records, List.length_cons] at hlen
    simp [sizeOfSiginfo] at hlen
  simp only [result, hc, hne, if_false, eventOf, head?_flatMap, hsig]

/-- **A read of the signalfd** hands over the first signal pending. -/
theorem handed_signal {raw : RawFd} {events : Int16} {i n : ℕ} {b : Batch}
    {ans : Except Errno (Chunk (Fd.Signal raw events).kind n)} (hans : b.Answers ans)
    (hroom : b.room ≠ 0) (hvalid : ∀ x ∈ b.pending, Valid x) :
    (handed (result (.Signal raw events) i ans)).map Prod.snd = b.pending.take 1 ∧
      ∀ x ∈ handed (result (.Signal raw events) i ans),
        Signal.tryFrom (asI32 x.2.ssiSigno) = .ok x.1 := by
  rcases hp : b.pending with _ | ⟨x, q⟩
  · simp only [Batch.Answers, hp, if_true] at hans
    subst hans
    simp [result, readError, handed]
  · obtain ⟨sig, hsig⟩ := hvalid x (by simp [hp])
    rw [result_signal hans hroom hp hsig]
    simp [handed, hsig]

theorem handed_other {fd : Fd} (hk : fd.kind ≠ .Signal) {i n : ℕ}
    (ans : Except Errno (Chunk fd.kind n)) : handed (result fd i ans) = [] := by
  rcases ans with e | c
  · simp only [result, readError]
    split_ifs <;> rfl
  · simp only [result]
    split_ifs
    · rfl
    · cases fd with
      | Signal raw events => exact absurd rfl hk
      | _ => rfl

theorem quiet_handed {res : Except UnixError UnixEvent} (h : Quiet res) : handed res = [] := by
  obtain rfl | rfl | ⟨e, rfl⟩ := h <;> rfl

/-! ### Runs -/

/-- What a run hands to the loop is the first signal of every read. -/
def FirstOfEach (evs : List (Signal × Siginfo)) (bs : List Batch) : Prop :=
  evs.map Prod.snd = bs.flatMap (fun b => b.pending.take 1) ∧
    (∀ x ∈ evs, Signal.tryFrom (asI32 x.2.ssiSigno) = .ok x.1) ∧ ∀ b ∈ bs, b.room = 32

theorem read_signals {fd : Fd} {i n : ℕ} {ans : Except Errno (Chunk fd.kind n)} (hn : n = 4096)
    (hk : k.Valid) (h : signalfd k ⟨.read fd.desc n, ans⟩ k') :
    ∃ bs, k'.reads = k.reads ++ bs ∧ FirstOfEach (handed (result fd i ans)) bs := by
  have hvalid := (valid_step hk h).2
  simp only [signalfd] at h
  split_ifs at h with hkind
  · obtain ⟨b, -, -, hroom, hans, rfl⟩ := h
    refine ⟨[b], rfl, ?_⟩
    cases fd with
    | Signal raw events =>
      have h32 : b.room = 32 := by
        rw [hroom, hn]
        rfl
      have hpending : ∀ x ∈ b.pending, Valid x := hvalid b (by simp)
      have hfirst := handed_signal (i := i) hans (by omega) hpending
      exact ⟨by simpa using hfirst.1, hfirst.2, by simpa using h32⟩
    | _ => simp [Fd.desc, Fd.kind] at hkind
  · refine ⟨[], by simp [h], ?_⟩
    rw [handed_other hkind]
    simp [FirstOfEach]

/-- **An iteration** hands over the first signal of its read, if it reads the signalfd. -/
theorem iteration_signals {f : Fds} {timeout : ℤ} (hf : Idle f) {s s₁ s' : Loop}
    (hs : Rested f timeout 4096 s) {t₁ t₂ : List SysEvent} {res : Except UnixError UnixEvent}
    (he : ((zoom Loop.appField UnixApp.systemEvent).run s).Exec t₁ (.ok res, s₁))
    (hh : ((Loop.handle res).run s₁).Exec t₂ (.ok none, s')) (hk : k.Valid)
    (hd : signalfd.Run k (t₁ ++ t₂) k') :
    Rested f timeout 4096 s' ∧ ∃ bs, k'.reads = k.reads ++ bs ∧ FirstOfEach (handed res) bs := by
  obtain ⟨c, vec, vec', l, hlen, hg, hreacts, hs'⟩ := turn_exec hf hs he hh
  refine ⟨hs', ?_⟩
  obtain ⟨k₁, hevent, hreaction⟩ := Env.run_append.mp hd
  obtain rfl := signalfd_others hreaction hreacts.not_read
  have hpoll : ∀ ans d n, (polls (withCache f c) timeout ans).op ≠ .read d n := by simp [polls]
  have hquiet : ∀ ans, Quiet res → signalfd.Run k [polls (withCache f c) timeout ans] k' →
      ∃ bs, k'.reads = k.reads ++ bs ∧ FirstOfEach (handed res) bs := by
    intro ans hq hrun
    obtain rfl := signalfd_others hrun (by simpa using hpoll ans)
    exact ⟨[], by simp, by simp [FirstOfEach, quiet_handed hq]⟩
  cases hg with
  | fails e => exact hquiet _ (.inr (.inr ⟨e, rfl⟩)) hevent
  | times p hp => exact hquiet _ (.inl rfl) hevent
  | nothing p hp hf => exact hquiet _ (.inr (.inl rfl)) hevent
  | stdout p hp fd i hf hk => exact hquiet _ (.inr (.inl rfl)) hevent
  | reads p hp fd i hf hfk ans =>
    obtain ⟨k₁, hstep, k₂, hread, rfl⟩ := hevent
    obtain rfl := (signalfd_other (hpoll _)).mp hstep
    exact read_signals hlen hk hread

theorem hands_signals {r : Startup} {ts : List (List SysEvent)} {evs : List (Signal × Siginfo)}
    {s : Loop} (h : Hands (r.app none zeros) ts evs s) (hd : signalfd.Run ⟨[], []⟩ ts.flatten k) :
    BetweenCoherent r s ∧ FirstOfEach evs k.reads := by
  induction h generalizing k with
  | start =>
    obtain rfl := hd
    exact ⟨runs_between .start, by simp [FirstOfEach]⟩
  | iterate _ he hh ih =>
    rw [List.flatten_append, List.flatten_singleton, Env.run_append] at hd
    obtain ⟨k₁, hd₁, hd₂⟩ := hd
    obtain ⟨hs, hevs, hsig, hroom⟩ := ih hd₁
    have hempty : SigQueue.Valid ⟨[], []⟩ := ⟨by simp, by simp⟩
    have hk₁ : k₁.Valid := valid_run hempty hd₁
    obtain ⟨hs', bs, hreads, hevs', hsig', hroom'⟩ :=
      iteration_signals (idle_run (startOps r)) hs he hh hk₁ hd₂
    rw [hreads]
    refine ⟨hs', ?_, fun x hx => ?_, fun b hb => ?_⟩
    · rw [List.map_append, List.flatMap_append, hevs, hevs']
    · exact (List.mem_append.mp hx).elim (hsig x) (hsig' x)
    · exact (List.mem_append.mp hb).elim (hroom b) (hroom' b)

section

variable {α β : Type} {f g : α → List β}

theorem length_flatMap_le (h : ∀ a, (f a).length ≤ (g a).length) :
    ∀ l : List α, (l.flatMap f).length ≤ (l.flatMap g).length
  | [] => by simp
  | a :: l => by
    have ha := h a
    have hl := length_flatMap_le h l
    simp only [List.flatMap_cons, List.length_append]
    omega

/-- If `f` is nowhere longer than `g` and gives as much in total, it is nowhere shorter. -/
theorem length_eq_of_flatMap (h : ∀ a, (f a).length ≤ (g a).length) : ∀ {l : List α},
    (l.flatMap f).length = (l.flatMap g).length → ∀ a ∈ l, (f a).length = (g a).length
  | [], _ => by simp
  | a :: l, heq => by
    have ha := h a
    have hl := length_flatMap_le h l
    simp only [List.flatMap_cons, List.length_append] at heq
    intro b hb
    rcases List.mem_cons.mp hb with rfl | hb
    · omega
    · exact length_eq_of_flatMap h (by omega) b hb

end

/-- **No signal is lost** exactly if every read of the signalfd finds at most one pending. -/
theorem noSignalLost_iff {app : UnixApp} {ts : List (List SysEvent)}
    {evs : List (Signal × Siginfo)} {s : Loop} (hb : Built app) (h : Hands app ts evs s)
    (hd : signalfd.Run ⟨[], []⟩ ts.flatten k) :
    NoSignalLost evs k.reads ↔ ∀ b ∈ k.reads, b.pending.length ≤ 1 := by
  obtain ⟨r, rfl⟩ := built_iff.mp hb
  obtain ⟨-, hevs, hsig, hroom⟩ := hands_signals h hd
  have hremoved : k.reads.flatMap Batch.removed = k.reads.flatMap fun b => b.pending.take 32 :=
    List.flatMap_congr fun b hb => by rw [Batch.removed, hroom b hb]
  rw [NoSignalLost, hevs, hremoved]
  constructor
  · rintro ⟨heq, -⟩ b hb
    have hle : ∀ b : Batch, (b.pending.take 1).length ≤ (b.pending.take 32).length := by
      intro b
      rw [List.length_take, List.length_take]
      omega
    have hlen := length_eq_of_flatMap hle (congrArg List.length heq) b hb
    rw [List.length_take, List.length_take] at hlen
    omega
  · intro hone
    refine ⟨List.flatMap_congr fun b hb => ?_, hsig⟩
    have h1 : b.pending.length ≤ 1 := hone b hb
    have h32 : b.pending.length ≤ 32 := by omega
    rw [List.take_of_length_le h1, List.take_of_length_le h32]

/-- The record of a signal by its number. -/
def record (n : UInt8) : Siginfo := ⟨n :: List.replicate 127 0, by simp [sizeOfSiginfo]⟩

/-- The signals `SIGWINCH` and `SIGTERM`, in one read. -/
def windowAndTerm : Batch := ⟨[record 28, record 15], 32⟩

/-- What a read that removes the signals of `b` returns. -/
def Batch.chunk (b : Batch) (h : b.removed.length ≤ 32) : Chunk .Signal 4096 where
  bytes := b.removed.flatMap Siginfo.bytes
  le := by
    rw [length_records, sizeOfSiginfo]
    omega
  records _ := by
    rw [length_records]
    exact Nat.dvd_mul_left _ _

theorem Batch.answers_chunk {b : Batch} (h : b.removed.length ≤ 32) (hne : b.pending ≠ []) :
    b.Answers (.ok (b.chunk h) : Except Errno (Chunk .Signal 4096)) := by
  rw [Batch.Answers, if_neg hne]
  exact ⟨b.chunk h, rfl, rfl⟩

/-- What a read of the two returns. -/
def windowAndTermChunk : Chunk .Signal 4096 := windowAndTerm.chunk (by decide)

/-- A first iteration: two signals are read. -/
def signalCalls : List SysEvent :=
  [samplePoll (readyAt 0), ⟨.read ⟨.Signal, 3⟩ 4096, .ok windowAndTermChunk⟩]

theorem windowAndTerm_answers :
    windowAndTerm.Answers (.ok windowAndTermChunk : Except Errno (Chunk .Signal 4096)) :=
  Batch.answers_chunk _ (by simp [windowAndTerm])

theorem signalCalls_hands : ∃ evs s, Hands (sample.app none zeros) [signalCalls] evs s := by
  have hres : result (.Signal 3 POLLIN) 0 (.ok windowAndTermChunk) =
      .ok (.Signal 0 .SIGWINCH (record 28)) :=
    result_signal windowAndTerm_answers (by decide) rfl rfl
  obtain ⟨s, h⟩ := sample_reads (readyAt 0) (by decide) (.Signal 3 POLLIN) (i := 0) (by decide)
    (by decide) (.ok windowAndTermChunk) fun _ _ => by rw [hres]; rfl
  obtain ⟨evs, h⟩ := runs_iff_hands.mp (Runs.start.iterate h)
  exact ⟨evs, s, h⟩

theorem signalCalls_served :
    signalfd.Run ⟨[], []⟩ [signalCalls].flatten ⟨[], [windowAndTerm]⟩ := by
  refine ⟨⟨[], []⟩, rfl, ⟨[], [windowAndTerm]⟩, ?_, rfl⟩
  refine ⟨windowAndTerm, List.nil_prefix, ?_, by decide, windowAndTerm_answers, rfl⟩
  simp only [windowAndTerm, List.mem_cons, List.not_mem_nil, or_false]
  rintro x (rfl | rfl)
  · exact .inr ⟨.SIGWINCH, rfl⟩
  · exact .inr ⟨.SIGTERM, rfl⟩

theorem noSignalLost_two : ∃ evs s, Hands (sample.app none zeros) [signalCalls] evs s ∧
    (NoSignalLost evs [windowAndTerm] ↔ ∀ b ∈ [windowAndTerm], b.pending.length ≤ 1) := by
  obtain ⟨evs, s, h⟩ := signalCalls_hands
  exact ⟨evs, s, h, noSignalLost_iff sample_built h signalCalls_served⟩

/-- The `SIGTERM` is lost. -/
theorem sigterm_lost : Built (sample.app none zeros) ∧
    signalfd.Run ⟨[], []⟩ [signalCalls].flatten ⟨[], [windowAndTerm]⟩ ∧
      ∃ evs s, Hands (sample.app none zeros) [signalCalls] evs s ∧
        ¬ NoSignalLost evs [windowAndTerm] := by
  obtain ⟨evs, s, h⟩ := signalCalls_hands
  refine ⟨sample_built, signalCalls_served, evs, s, h, ?_⟩
  rintro ⟨hlost, -⟩
  rw [(hands_signals h signalCalls_served).2.1] at hlost
  simp [windowAndTerm, Batch.removed] at hlost

end SshPass.EventLoop.Signals
