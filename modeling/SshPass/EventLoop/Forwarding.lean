import SshPass.EventLoop.Flows
import SshPass.EventLoop.Iteration

/-! # What the loop relays

`output_relay`: stdout accepts what is read from the master, in order. `inputRelay_iff`: the input
does not reach the master: `push_pty_fd` stores the index of the slave in `pty_master_index`, so
what is read from stdin is written to the slave. `forwardsAll_iff`: what is read from the slave is
dropped. -/

namespace SshPass.EventLoop.Forwarding

open SshPass.Lib.CallTree
open SshPass.Unix.Kernel SshPass.Unix.Registry SshPass.Unix.Indices SshPass.Unix.App
open SshPass.Unix.AppSpec SshPass.Unix.Traffic
open SshPass.EventLoop.Program SshPass.EventLoop.Construction SshPass.EventLoop.Wiring
open SshPass.EventLoop.Footprint SshPass.EventLoop.Flows SshPass.EventLoop.Iteration

variable {app : UnixApp} {ts : List (List SysEvent)} {s : Loop}

/-! ### The output -/

/-- Every write to stdout offers what the call before it read from the master. -/
def WritesLastRead (t : List SysEvent) : Prop :=
  ∀ pre post dst buf w, t = pre ++ ⟨.write dst buf, w⟩ :: post → dst.kind = .Stdout →
    ∃ pre' fd n c, pre = pre' ++ [⟨.read fd n, .ok c⟩] ∧ fd.kind = .PtyMaster ∧
      buf = tag fd.kind c.bytes

/-- What is read from the master is written to stdout by the next call. -/
def ReadIsWritten (t : List SysEvent) : Prop :=
  ∀ pre post fd n c, t = pre ++ ⟨.read fd n, .ok c⟩ :: post → fd.kind = .PtyMaster →
    c.bytes ≠ [] → ∃ dst w, dst.kind = .Stdout ∧ post = [⟨.write dst (tag fd.kind c.bytes), w⟩]

variable {r : Startup} {t : List SysEvent}

theorem writesLastRead (h : Moves (Unix.Indices.run (startOps r)) 200 4096 t) :
    WritesLastRead t := by
  intro pre post dst buf w ht hdst
  obtain ⟨p, fd, c, rfl, -, hwire, -, rfl⟩ := h.write ht
  refine ⟨[p], fd, 4096, c, rfl, ?_, rfl⟩
  rw [wire_startOps] at hwire
  obtain ⟨k, raw⟩ := fd
  cases k <;> simp only [route, reduceCtorEq, Option.some.injEq] at hwire
  · subst hwire
    simp [slave] at hdst
  · rfl

theorem readIsWritten (h : Moves (Unix.Indices.run (startOps r)) 200 4096 t) :
    ReadIsWritten t := by
  intro pre post fd m c ht hfd hc
  obtain ⟨-, ⟨-, hnone⟩ | ⟨c', dst, w, hc', -, hdst, rfl⟩⟩ := h.read ht
  · have hwire := hnone c rfl hc
    simp [route, hfd] at hwire
  · obtain rfl := Except.ok.inj hc'
    refine ⟨dst, w, ?_, rfl⟩
    simp only [wire_startOps, route, hfd, Option.some.injEq] at hdst
    rw [← hdst]
    rfl

theorem routed_stdout (r : Startup) (e : SysEvent) :
    routed (Unix.Indices.run (startOps r)) (fun d => .Stdout = d.kind) e = taken .PtyMaster e := by
  obtain ⟨o, ans⟩ := e
  cases o with
  | read fd m =>
    rcases ans with e | c
    · rfl
    rw [taken_read_ok]
    obtain ⟨k, raw⟩ := fd
    cases k <;> simp [routed, route, stdout, slave]
  | _ => rfl

/-- **The output relay.** At the start of every iteration stdout has accepted exactly what was read
from the master, in order; every write to stdout follows the read of its bytes at once, and the
channel is empty. -/
theorem output_relay (hb : Built app) (hr : Runs app ts s) (hw : ∀ t ∈ ts, FullWrites t) :
    ts.flatten.flatMap (accepted .Stdout) = ts.flatten.flatMap (taken .PtyMaster) ∧
      (∀ c ∈ ts.flatten.flatMap (accepted .Stdout), c.src = some .PtyMaster) ∧
      (∀ t ∈ ts, WritesLastRead t ∧ ReadIsWritten t) ∧ s.chan.queue = [] := by
  obtain ⟨r, rfl⟩ := built_iff.mp hb
  have hmoves := runs_moves hr
  have heq : ts.flatten.flatMap (accepted .Stdout) = ts.flatten.flatMap (taken .PtyMaster) := by
    rw [app_eq] at hr
    rw [accepted_eq hr hw]
    exact List.flatMap_congr fun e _ => routed_stdout r e
  obtain ⟨cache, vec, stop, rfl, -⟩ := runs_between hr
  refine ⟨heq, fun c hc => ?_, fun t ht => ?_, rfl⟩
  · rw [heq] at hc
    exact mem_taken hc
  · exact ⟨writesLastRead (hmoves t ht), readIsWritten (hmoves t ht)⟩

/-- A first iteration: a byte is read from the master. -/
def outputCalls : List SysEvent :=
  [samplePoll (readyAt 1),
    ⟨.read ⟨.PtyMaster, 4⟩ 4096, .ok (oneByte .PtyMaster (by decide) 0x6c)⟩,
    ⟨.write stdout [⟨0x6c, some .PtyMaster⟩], .ok (Fin.last _)⟩]

theorem outputCalls_run : ∃ s, Runs (sample.app none zeros) [outputCalls] s := by
  obtain ⟨s, h⟩ := sample_relays (readyAt 1) (by decide) (.PtyMaster 4 POLLIN 100) (i := 1)
    (by decide) (oneByte .PtyMaster (by decide) 0x6c) (by decide) (d := stdout) rfl
    (.ok (Fin.last _))
  exact ⟨s, Runs.start.iterate h⟩

theorem output_relay_byte : ∃ s, Runs (sample.app none zeros) [outputCalls] s ∧
    [outputCalls].flatten.flatMap (accepted .Stdout) =
      [outputCalls].flatten.flatMap (taken .PtyMaster) := by
  obtain ⟨s, hr⟩ := outputCalls_run
  exact ⟨s, hr, (output_relay sample_built hr
    (by simp [FullWrites, outputCalls, samplePoll, Full])).1⟩

/-! ### The input -/

/-- **The input relay** works exactly as long as nothing is read from stdin. -/
theorem inputRelay_iff (hb : Built app) (hr : Runs app ts s) (hw : ∀ t ∈ ts, FullWrites t) :
    InputRelay ts.flatten ↔ ts.flatten.flatMap (taken .Stdin) = [] := by
  obtain ⟨r, rfl⟩ := built_iff.mp hb
  rw [app_eq] at hr
  refine ⟨stdin_eq_nil hr hw fun d hd => ?_, relay_of_nil hr hw⟩
  -- the target of a write to the master is the slave
  obtain rfl : slave r = d := Option.some.inj hd
  simp [slave]

theorem keyCalls_run : ∃ s, Runs (sample.app none zeros) [keyCalls] s := by
  obtain ⟨s, h⟩ := keyCalls_exec
  exact ⟨s, Runs.start.iterate h⟩

theorem keyCalls_full : ∀ t ∈ [keyCalls], FullWrites t := by
  simp [FullWrites, keyCalls, samplePoll, Full]

theorem inputRelay_key : ∃ s, Runs (sample.app none zeros) [keyCalls] s ∧
    (InputRelay [keyCalls].flatten ↔ [keyCalls].flatten.flatMap (taken .Stdin) = []) := by
  obtain ⟨s, hr⟩ := keyCalls_run
  exact ⟨s, hr, inputRelay_iff sample_built hr keyCalls_full⟩

theorem key_not_relayed : Built (sample.app none zeros) ∧
    (∃ s, Runs (sample.app none zeros) [keyCalls] s) ∧ (∀ t ∈ [keyCalls], FullWrites t) ∧
      ¬ InputRelay [keyCalls].flatten := by
  refine ⟨sample_built, keyCalls_run, keyCalls_full, ?_⟩
  rintro ⟨h, -⟩
  exact absurd h (by decide)

/-! ### What is dropped -/

/-- The buffer a call offers to a descriptor. -/
def offered : SysEvent → Option (List Cell)
  | ⟨.write _ buf, _⟩ => some buf
  | _ => none

/-- A kind whose bytes are data, to be passed on. -/
def IsData (k : Kind) : Prop := k = .Stdin ∨ k = .PtyMaster ∨ k = .PtySlave

/-- Every chunk of data that is read is offered, whole, by exactly one call. -/
def ForwardsAll (t : List SysEvent) : Prop :=
  ∀ fd n c, (⟨.read fd n, .ok c⟩ : SysEvent) ∈ t → IsData fd.kind → c.bytes ≠ [] →
    (t.filterMap offered).count (tag fd.kind c.bytes) = 1

theorem offered_eq_none {e : SysEvent} (he : IsPoll e ∨ IsAside e.op) : offered e = none := by
  obtain ⟨_, _⟩ := e
  obtain ⟨_, _, _, rfl⟩ | rfl | ⟨_, rfl⟩ := he <;> rfl

/-- **An iteration** forwards what it reads unless that comes from the slave. -/
theorem forwardsAll_moves (h : Moves (Unix.Indices.run (startOps r)) 200 4096 t) :
    ForwardsAll t ↔ t.flatMap (taken .PtySlave) = [] := by
  constructor
  · intro hf
    refine List.eq_nil_iff_forall_not_mem.mpr fun x hx => ?_
    obtain ⟨fd, m, c, hmem, hk, hx⟩ := exists_read hx
    have hc : c.bytes ≠ [] := by
      rintro hc
      simp [tag, hc] at hx
    have hone := hf fd m c hmem (.inr (.inr hk)) hc
    obtain ⟨pre, post, rfl⟩ := List.append_of_mem hmem
    obtain ⟨⟨p, rfl, hp⟩, ⟨hpost, -⟩ | ⟨_, _, _, -, -, hwire, -⟩⟩ := h.read rfl
    · have hnone : post.filterMap offered = [] :=
        List.filterMap_eq_nil_iff.mpr fun e he => offered_eq_none (.inr (hpost e he))
      rw [List.singleton_append, List.filterMap_cons_none (offered_eq_none (.inl hp)),
        List.filterMap_cons_none rfl, hnone] at hone
      simp at hone
    · simp [route, hk] at hwire
  · intro hnil fd m c hmem hdata hc
    obtain ⟨pre, post, rfl⟩ := List.append_of_mem hmem
    obtain ⟨⟨p, rfl, hp⟩, ⟨-, hnone⟩ | ⟨c', dst, w, hc', -, -, rfl⟩⟩ := h.read rfl
    · have hwire := hnone c rfl hc
      obtain hk | hk | hk := hdata
      · simp [route, hk] at hwire
      · simp [route, hk] at hwire
      · exact absurd hnil (hk ▸ taken_ne_nil hmem hc)
    · obtain rfl := Except.ok.inj hc'
      rw [List.singleton_append, List.filterMap_cons_none (offered_eq_none (.inl hp)),
        List.filterMap_cons_none rfl]
      exact List.count_singleton_self

/-- **Nothing is thrown away** exactly as long as nothing is read from the slave. -/
theorem forwardsAll_iff (hb : Built app) (hr : Runs app ts s) :
    (∀ t ∈ ts, ForwardsAll t) ↔ ts.flatten.flatMap (taken .PtySlave) = [] := by
  obtain ⟨r, rfl⟩ := built_iff.mp hb
  have hmoves := runs_moves hr
  have hiff : (∀ t ∈ ts, ForwardsAll t) ↔ ∀ t ∈ ts, t.flatMap (taken .PtySlave) = [] :=
    forall₂_congr fun t ht => forwardsAll_moves (hmoves t ht)
  rw [hiff]
  simp only [List.flatMap_eq_nil_iff, List.mem_flatten]
  exact ⟨fun h e ⟨t, ht, he⟩ => h t ht e he, fun h t ht e he => h e ⟨t, ht, he⟩⟩

/-- A first iteration: a key is read from the slave. -/
def slaveCalls : List SysEvent :=
  [samplePoll (readyAt 2),
    ⟨.read ⟨.PtySlave, 5⟩ 4096, .ok (oneByte .PtySlave (by decide) 0x6c)⟩]

theorem slaveCalls_run : ∃ s, Runs (sample.app none zeros) [slaveCalls] s := by
  obtain ⟨s, h⟩ := sample_reads (readyAt 2) (by decide) (.PtySlave 5 POLLIN) (i := 2) (by decide)
    (by decide) (.ok (oneByte .PtySlave (by decide) 0x6c)) fun _ _ => rfl
  exact ⟨s, Runs.start.iterate h⟩

theorem forwardsAll_slave : ∃ s, Runs (sample.app none zeros) [slaveCalls] s ∧
    ((∀ t ∈ [slaveCalls], ForwardsAll t) ↔
      [slaveCalls].flatten.flatMap (taken .PtySlave) = []) := by
  obtain ⟨s, hr⟩ := slaveCalls_run
  exact ⟨s, hr, forwardsAll_iff sample_built hr⟩

/-- The key is gone. -/
theorem slave_key_dropped : Built (sample.app none zeros) ∧
    (∃ s, Runs (sample.app none zeros) [slaveCalls] s) ∧ ¬ ∀ t ∈ [slaveCalls], ForwardsAll t := by
  refine ⟨sample_built, slaveCalls_run, fun h => ?_⟩
  have hone := h slaveCalls (by simp) ⟨.PtySlave, 5⟩ 4096 (oneByte .PtySlave (by decide) 0x6c)
    (by simp [slaveCalls]) (.inr (.inr rfl)) (by decide)
  exact absurd hone (by decide)

end SshPass.EventLoop.Forwarding
