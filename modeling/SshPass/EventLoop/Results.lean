import SshPass.EventLoop.Signals

/-! # A run by its results

`Turns` is a run of the loop with the results of `system_event`. The shutdown state at its end is
that of the last result that asks for a shutdown (`stop_lastRequest`). The loop makes one `waitpid`
for each `SIGCHLD` it is handed (`waited_handed`), so one for each that the kernel reports exactly
if no read of the signalfd returns a `SIGCHLD` behind another record (`reaped_iff`). -/

namespace SshPass.EventLoop.Results

open SshPass.Lib.CallTree SshPass.Lib.Stateful SshPass.Lib.Stateful.Prog
open SshPass.Unix.Kernel SshPass.Unix.Registry SshPass.Unix.RegistrySpec SshPass.Unix.Indices
open SshPass.Unix.Cache SshPass.Unix.App SshPass.Unix.AppSpec
open SshPass.EventLoop.Program SshPass.EventLoop.Construction SshPass.EventLoop.Wiring
open SshPass.EventLoop.Footprint SshPass.EventLoop.Iteration SshPass.EventLoop.Signals

/-! ### Turns -/

/-- An iteration: the calls of `system_event`, its result, and the calls of the reaction to it. -/
structure Turn where
  event : List SysEvent
  res : Except UnixError UnixEvent
  reaction : List SysEvent

def Turn.calls (u : Turn) : List SysEvent := u.event ++ u.reaction

/-- A run of the loop over `app`, by its turns. -/
inductive Turns (app : UnixApp) : List Turn → Loop → Prop
  | start : Turns app [] (Loop.start app)
  | iterate {us : List Turn} {s s₁ s' : Loop} {u : Turn} (h : Turns app us s)
      (he : ((zoom Loop.appField UnixApp.systemEvent).run s).Exec u.event (.ok u.res, s₁))
      (hh : ((Loop.handle u.res).run s₁).Exec u.reaction (.ok none, s')) : Turns app (us ++ [u]) s'

variable {app : UnixApp} {us : List Turn} {u : Turn} {ts : List (List SysEvent)} {s s' : Loop}

theorem hands_iff_turns {evs : List (Signal × Siginfo)} : Hands app ts evs s ↔
    ∃ us, Turns app us s ∧ ts = us.map Turn.calls ∧ evs = us.flatMap fun u => handed u.res := by
  constructor
  · intro h
    induction h with
    | start => exact ⟨[], .start, rfl, rfl⟩
    | @iterate _ _ _ _ _ t₁ t₂ res _ he hh ih =>
      obtain ⟨us, hus, rfl, rfl⟩ := ih
      exact ⟨us ++ [⟨t₁, res, t₂⟩], hus.iterate he hh, by simp [Turn.calls], by simp⟩
  · rintro ⟨us, h, rfl, rfl⟩
    induction h with
    | start => exact .start
    | iterate _ he hh ih =>
      rw [List.map_append, List.flatMap_append, List.flatMap_singleton]
      exact ih.iterate he hh

theorem runs_iff_turns : Runs app ts s ↔ ∃ us, Turns app us s ∧ ts = us.map Turn.calls := by
  rw [runs_iff_hands]
  constructor
  · rintro ⟨evs, h⟩
    obtain ⟨us, hus, rfl, -⟩ := hands_iff_turns.mp h
    exact ⟨us, hus, rfl⟩
  · rintro ⟨us, hus, rfl⟩
    exact ⟨_, hands_iff_turns.mpr ⟨us, hus, rfl, rfl⟩⟩

variable {f : Fds} {timeout : ℤ} {n : ℕ} {ops : List Op}

theorem turns_first {vec vec' : List Cell} {l : List Pollfd} {stop' : UnixAppStop} (h : Idle f)
    (hg : Gets f timeout vec u.event u.res l vec')
    (hr : Reacts (cached f l) vec' UnixAppStop.new u.res u.reaction stop')
    (hstop' : stop'.isStoped = false) :
    Turns (appOver f timeout vec) [u] (resting (cached f l) timeout vec' stop') := by
  have hstop : UnixAppStop.new.isStoped = false := rfl
  refine Turns.start.iterate ((event_iff h).mpr ⟨u.res, l, vec', hg, rfl⟩) ?_
  rw [handle_run timeout vec' _ (h.cached l)]
  exact (react_iff hstop).mpr ⟨stop', hr, hstop', rfl⟩

theorem turns_rested (h : Turns (appOf ops timeout n) us s) :
    Rested (Unix.Indices.run ops) timeout n s := by
  exact appOf_rested (runs_iff_turns.mpr ⟨us, h, rfl⟩)

/-! ### Requests -/

/-- The answer of the clock. -/
def clock : SysEvent → Option Instant
  | ⟨.now, now⟩ => some now
  | _ => none

/-- What the clock told during some turns. -/
def times (us : List Turn) : List Instant := (us.flatMap Turn.calls).filterMap clock

/-- The shutdowns that the results of some turns ask for: their codes and their texts. -/
def requests (us : List Turn) : List (ℤ × Option String) := us.filterMap fun u => asked u.res

/-- The shutdown state after a request. -/
def pendingStop (x : Instant × ℤ × Option String) : UnixAppStop where
  isStoped := false
  isStop := true
  stopTime := some x.1
  stopCode? := some x.2.1
  stopError := x.2.2

theorem reacts_stop {vec : List Cell} {stop stop' : UnixAppStop} {res : Except UnixError UnixEvent}
    {t : List SysEvent} (h : Reacts f vec stop res t stop') :
    (asked res = none ∧ t.filterMap clock = [] ∧ stop' = stop) ∨
      ∃ now x, asked res = some x ∧ t.filterMap clock = [now] ∧ stop' = pendingStop (now, x) := by
  cases h with
  | silent hnone =>
    refine .inl ⟨?_, rfl, rfl⟩
    by_contra hne
    rw [reaction_now.mpr hne] at hnone
    simp at hnone
  | @calls o a ho =>
    by_cases hnow : o = .now
    · subst hnow
      obtain ⟨⟨code, text⟩, hx⟩ := Option.ne_none_iff_exists'.mp (reaction_now.mp ho)
      refine .inr ⟨a, (code, text), hx, rfl, ?_⟩
      simp [hx, restop, pendingStop, UnixAppStop.shutdownStarting]
    · refine .inl ⟨?_, ?_, ?_⟩
      · by_contra hne
        exact hnow (Option.some.inj (ho.symm.trans (reaction_now.mpr hne)))
      · cases o with
        | now => exact absurd rfl hnow
        | _ => rfl
      · cases o with
        | now => exact absurd rfl hnow
        | _ => rfl

theorem event_clock {vec vec' : List Cell} {l : List Pollfd} {res : Except UnixError UnixEvent}
    {t : List SysEvent} (h : Gets f timeout vec t res l vec') : t.filterMap clock = [] := by
  cases h <;> rfl

theorem length_times
    (h : ∀ u ∈ us, (u.calls.filterMap clock).length = (asked u.res).toList.length) :
    (times us).length = (requests us).length := by
  induction us with
  | nil => rfl
  | cons u us ih =>
    have hu := h u (by simp)
    have hus := ih fun v hv => h v (by simp [hv])
    simp only [times, requests] at hus
    rcases ha : asked u.res with _ | x <;> simp [times, requests, ha, hus] at hu ⊢ <;> omega

/-- **The shutdown state of a run** is that of the last result that asks for a shutdown, with the
time that the clock then told, or untouched: a result that asks looks at the clock once, and any
other never. -/
theorem stop_lastRequest (h : Turns (appOf ops timeout n) us s) :
    (∀ u ∈ us, (u.calls.filterMap clock).length = (asked u.res).toList.length) ∧
      s.stop = ((times us).zip (requests us)).getLast?.elim UnixAppStop.new pendingStop := by
  induction h with
  | start => exact ⟨by simp, rfl⟩
  | @iterate us s s₁ s' u h he hh ih =>
    obtain ⟨c, vec, vec', l, -, hg, hreacts, -⟩ :=
      turn_exec (idle_run ops) (turns_rested h) he hh
    obtain ⟨hlen, hstop⟩ := ih
    have hcalls : u.calls.filterMap clock = u.reaction.filterMap clock := by
      rw [Turn.calls, List.filterMap_append, event_clock hg, List.nil_append]
    have htimes : times (us ++ [u]) = times us ++ u.reaction.filterMap clock := by
      simp [times, hcalls]
    have hrequests : requests (us ++ [u]) = requests us ++ (asked u.res).toList := by
      simp [requests]
      rfl
    rw [htimes, hrequests, List.zip_append (length_times hlen)]
    obtain ⟨hnone, hclock, hsame⟩ | ⟨now, x, hsome, hclock, hnew⟩ := reacts_stop hreacts
    · refine ⟨fun v hv => ?_, by simp [hnone, hsame, hstop]⟩
      rcases List.mem_append.mp hv with hv | hv
      · exact hlen v hv
      · obtain rfl := List.mem_singleton.mp hv
        simp [hcalls, hclock, hnone]
    · refine ⟨fun v hv => ?_, by simp [hsome, hclock, hnew]⟩
      rcases List.mem_append.mp hv with hv | hv
      · exact hlen v hv
      · obtain rfl := List.mem_singleton.mp hv
        simp [hcalls, hclock, hsome]

/-- A turn whose poll fails. -/
def failedPoll : Turn :=
  ⟨[pollOf (Unix.Indices.run ptyOps) 200 (.error EINVAL)], .error (.NixErrorno EINVAL),
    [⟨.now, (7 : ℕ)⟩]⟩

theorem failedPoll_turns : ∃ s, Turns (appOf ptyOps 200 2) [failedPoll] s := by
  have hg : Gets (Unix.Indices.run ptyOps) 200 (List.replicate 2 ⟨0, none⟩) failedPoll.event
    failedPoll.res _ _ := .fails EINVAL
  exact ⟨_, turns_first (idle_run ptyOps) hg (.calls (o := .now) (7 : ℕ) rfl) rfl⟩

theorem failedPoll_stop : ∃ s, Turns (appOf ptyOps 200 2) [failedPoll] s ∧
    s.stop = pendingStop (7, 2, some "Nix Error: EINVAL: Invalid argument") := by
  obtain ⟨s, h⟩ := failedPoll_turns
  exact ⟨s, h, (stop_lastRequest h).2⟩

/-! ### Children -/

/-- The child a call waits for. -/
def waitsFor : Sys → Option Pid
  | .waitpid pid => some pid
  | _ => none

/-- The children the calls of a trace wait for. -/
def waited (t : List SysEvent) : List Pid := t.filterMap fun e => waitsFor e.op

/-- The child whose end a signal reports. -/
def childOf (x : Signal × Siginfo) : Option Pid :=
  if x.1 = .SIGCHLD then some (asI32 x.2.ssiPid) else none

theorem waited_append (t t' : List SysEvent) : waited (t ++ t') = waited t ++ waited t' :=
  List.filterMap_append

theorem event_waited {vec vec' : List Cell} {l : List Pollfd} {res : Except UnixError UnixEvent}
    {t : List SysEvent} (h : Gets f timeout vec t res l vec') : waited t = [] := by
  cases h <;> rfl

theorem reaction_waits {vec : List Cell} : ∀ {res : Except UnixError UnixEvent},
    ((reaction f vec res).bind waitsFor).toList = (handed res).filterMap childOf
  | .ok (.PtyMaster _ buf) => by
    simp only [reaction]
    rcases wire f .PtyMaster <;> rfl
  | .ok (.Stdin _ buf) => by
    simp only [reaction]
    rcases wire f .Stdin <;> rfl
  | .ok (.PtySlave _ _) | .ok .ReadZeroBytes | .ok .PollTimeout | .error _ => rfl
  | .ok (.Signal _ sig siginfo) => by
    simp only [reaction, handed]
    split_ifs with hs hc
    · have hne : sig ≠ .SIGCHLD := by rintro rfl; simp at hs
      simp [childOf, hne, waitsFor]
    · simp [childOf, hc, waitsFor]
    · simp [childOf, hc]

theorem reacts_waited {vec : List Cell} {stop stop' : UnixAppStop} {t : List SysEvent}
    {res : Except UnixError UnixEvent} (h : Reacts f vec stop res t stop') :
    waited t = (handed res).filterMap childOf := by
  have hwaits : ((reaction f vec res).bind waitsFor).toList = (handed res).filterMap childOf :=
    reaction_waits
  rw [← hwaits]
  cases h with
  | silent hnone => simp [hnone, waited]
  | @calls o a ho =>
    rw [ho, Option.bind_some, waited]
    rcases hw : waitsFor o with _ | pid <;> simp [hw]

/-- **The loop waits** for the children of the signals it is handed, and for no others. -/
theorem waited_handed (h : Turns (appOf ops timeout n) us s) :
    waited (us.flatMap Turn.calls) = (us.flatMap fun u => handed u.res).filterMap childOf := by
  induction h with
  | start => rfl
  | @iterate us s s₁ s' u h he hh ih =>
    obtain ⟨c, vec, vec', l, -, hg, hreacts, -⟩ :=
      turn_exec (idle_run ops) (turns_rested h) he hh
    simp only [List.flatMap_append, List.flatMap_singleton, waited_append, ih, Turn.calls,
      List.filterMap_append, event_waited hg, reacts_waited hreacts, List.nil_append]

/-- The child whose end a record reports. -/
def reported (x : Siginfo) : Option Pid :=
  match Signal.tryFrom (asI32 x.ssiSigno) with
  | .ok sig => childOf (sig, x)
  | .error _ => none

variable {k : SigQueue}

/-- The loop waits for the children that the first record of every read reports. -/
theorem waited_first (hb : Built app) (h : Runs app ts s)
    (hd : signalfd.Run ⟨[], []⟩ ts.flatten k) :
    waited ts.flatten = (k.reads.flatMap fun b => b.removed.take 1).filterMap reported := by
  obtain ⟨r, rfl⟩ := built_iff.mp hb
  obtain ⟨us, hus, rfl⟩ := runs_iff_turns.mp h
  obtain ⟨-, hevs, hsig, hroom⟩ := hands_signals (hands_iff_turns.mpr ⟨us, hus, rfl, rfl⟩) hd
  have hfirst : (k.reads.flatMap fun b => b.removed.take 1) =
      k.reads.flatMap fun b => b.pending.take 1 :=
    List.flatMap_congr fun b hb => by rw [Batch.removed, hroom b hb, List.take_take]; rfl
  rw [app_eq] at hus
  rw [← List.flatMap_def, waited_handed hus, hfirst, ← hevs, List.filterMap_map]
  refine List.filterMap_congr fun x hx => ?_
  simp [reported, hsig x hx]

/-- **Every report is answered**: the loop makes one `waitpid` for each `SIGCHLD` record, in their
order, exactly if no read of the signalfd returns one behind another record. -/
theorem reaped_iff (hb : Built app) (h : Runs app ts s)
    (hd : signalfd.Run ⟨[], []⟩ ts.flatten k) :
    waited ts.flatten = (k.reads.flatMap Batch.removed).filterMap reported ↔
      ∀ b ∈ k.reads, (b.removed.drop 1).filterMap reported = [] := by
  rw [waited_first hb h hd, List.filterMap_flatMap, List.filterMap_flatMap]
  have hsplit : ∀ b : Batch, b.removed.filterMap reported =
      (b.removed.take 1).filterMap reported ++ (b.removed.drop 1).filterMap reported := by
    intro b
    rw [← List.filterMap_append, List.take_append_drop]
  constructor
  · intro heq b hb
    have hle : ∀ b : Batch, ((b.removed.take 1).filterMap reported).length ≤
        (b.removed.filterMap reported).length := by
      intro b
      rw [hsplit, List.length_append]
      exact Nat.le_add_right _ _
    have hlen := length_eq_of_flatMap hle (congrArg List.length heq) b hb
    rw [hsplit, List.length_append] at hlen
    exact List.length_eq_zero_iff.mp (by omega)
  · intro hnone
    refine List.flatMap_congr fun b hb => ?_
    rw [hsplit, hnone b hb, List.append_nil]

/-- The record of the end of the child 77. -/
def childRecord : Siginfo :=
  ⟨17 :: List.replicate 11 0 ++ 77 :: List.replicate 115 0, by simp [sizeOfSiginfo]⟩

/-- The end of a child, and a `SIGWINCH` behind it. -/
def childAndWindow : Batch := ⟨[childRecord, record 28], 32⟩

/-- A first iteration: the two are read. -/
def childCalls : List SysEvent :=
  [samplePoll (readyAt 0), ⟨.read ⟨.Signal, 3⟩ 4096, .ok (childAndWindow.chunk (by decide))⟩,
    ⟨.waitpid 77, ()⟩]

theorem childAndWindow_answers : childAndWindow.Answers
    (.ok (childAndWindow.chunk (by decide)) : Except Errno (Chunk .Signal 4096)) :=
  Batch.answers_chunk _ (by simp [childAndWindow])

theorem childCalls_run : ∃ s, Runs (sample.app none zeros) [childCalls] s := by
  have hstop : UnixAppStop.new.isStoped = false := rfl
  have hres : result (.Signal 3 POLLIN) 0 (.ok (childAndWindow.chunk (by decide))) =
      .ok (.Signal 0 .SIGCHLD childRecord) :=
    result_signal childAndWindow_answers (by decide) rfl rfl
  have hreaction : ∀ f vec, reaction f vec (.ok (.Signal 0 .SIGCHLD childRecord)) =
      some (.waitpid 77) := fun _ _ => rfl
  obtain ⟨s, h⟩ := reads_exec (sample.idle none) 200 List.length_replicate (readyAt 0) (by decide)
    (.Signal 3 POLLIN) (i := 0) (by decide) (by decide)
    (.ok (childAndWindow.chunk (by decide))) fun l vec' _ => by
      rw [hres]
      exact ⟨_, (react_iff hstop).mpr ⟨_, .calls () (hreaction _ vec'), hstop, rfl⟩⟩
  exact ⟨s, Runs.start.iterate h⟩

theorem childCalls_served :
    signalfd.Run ⟨[], []⟩ [childCalls].flatten ⟨[], [childAndWindow]⟩ := by
  refine ⟨⟨[], []⟩, rfl, ⟨[], [childAndWindow]⟩, ?_, ⟨[], [childAndWindow]⟩, rfl, rfl⟩
  refine ⟨childAndWindow, List.nil_prefix, ?_, by decide, childAndWindow_answers, rfl⟩
  simp only [childAndWindow, List.mem_cons, List.not_mem_nil, or_false]
  rintro x (rfl | rfl)
  · exact .inr ⟨.SIGCHLD, rfl⟩
  · exact .inr ⟨.SIGWINCH, rfl⟩

theorem childCalls_reaped : ∃ s, Runs (sample.app none zeros) [childCalls] s ∧
    ([childAndWindow].flatMap Batch.removed).filterMap reported = [77] ∧
      waited [childCalls].flatten =
        ([childAndWindow].flatMap Batch.removed).filterMap reported := by
  obtain ⟨s, hr⟩ := childCalls_run
  exact ⟨s, hr, by decide, (reaped_iff sample_built hr childCalls_served).mpr (by decide)⟩

end SshPass.EventLoop.Results
