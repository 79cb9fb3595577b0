import SshPass.EventLoop.Pty
import SshPass.Lib.Merge

/-! # From end to end

What comes of the bytes in a run of the loop, the pty and the child, which uses the pty only by
reading and writing the slave. The child never gets a byte to read (`child_starved`). Stdout gets
what the output processing makes of what the child writes, merged with what it makes of what is
typed, each byte once and in order, but for what is still on its way (`delivered_once`,
`delivered_all`). -/

namespace SshPass.EventLoop.Delivery

open SshPass.Lib.CallTree SshPass.Lib.Transition SshPass.Lib.Merge
open SshPass.Unix.Kernel SshPass.Unix.Registry SshPass.Unix.RegistrySpec SshPass.Unix.App
open SshPass.Unix.AppSpec SshPass.Unix.Traffic
open SshPass.EventLoop.Program SshPass.EventLoop.Construction SshPass.EventLoop.Iteration
open SshPass.EventLoop.Pty

variable {r : Startup} {line : Line} {l : List Fd} {s s' : System} {a : Action}
variable {app : UnixApp} {hist : List (System × Action)}

/-! ### The queues -/

/-- **A call of the loop** takes bytes out of the queues by its reads, and no others. -/
theorem pty_conserves {q q' : Queues} {e : SysEvent} (h : pty l q e q') :
    q.toMaster = bytes (taken .PtyMaster e) ++ q'.toMaster ∧
      q.toSlave = bytes (taken .PtySlave e) ++ q'.toSlave := by
  obtain ⟨o, ans⟩ := e
  cases o with
  | read fd n =>
    obtain ⟨kind, raw⟩ := fd
    rcases ans with e | c
    · obtain rfl : q' = q := by cases kind <;> exact h
      exact ⟨rfl, rfl⟩
    rw [taken_read_ok, taken_read_ok]
    cases kind with
    | PtyMaster =>
      obtain ⟨-, hmaster, hslave⟩ := h
      simp [bytes_tag, hmaster, hslave]
    | PtySlave =>
      obtain ⟨-, hslave, hmaster⟩ := h
      simp [bytes_tag, hmaster, hslave]
    | _ =>
      obtain rfl : q' = q := h
      simp
  | write fd buf =>
    obtain ⟨rfl, -⟩ := h
    exact ⟨rfl, rfl⟩
  | poll fds n timeout =>
    obtain ⟨rfl, -⟩ := h
    exact ⟨rfl, rfl⟩
  | _ =>
    obtain rfl : q' = q := h
    exact ⟨rfl, rfl⟩

/-! ### The child -/

/-- The step takes bytes out of the queue to the slave. -/
def TakesInput : Action → Prop
  | .childReads _ => True
  | .call e => taken .PtySlave e ≠ []
  | _ => False

theorem starved_step (h : Residual r s.parent) (hq : s.queues.toSlave = [])
    (hs : Step line l s a s') : s'.queues.toSlave = [] ∧ ¬ TakesInput a := by
  cases hs with
  | @call o k ans q q' w hcall =>
    have hslave := (pty_conserves hcall).2
    have hempty : q.toSlave = [] := hq
    rw [hempty] at hslave
    obtain ⟨htaken, hleft⟩ := List.append_eq_nil_iff.mp hslave.symm
    exact ⟨hleft, fun htakes => htakes (List.map_eq_nil_iff.mp htaken)⟩
  | parentPuts hp _ _ hroom =>
    obtain rfl := atSlave h hp hroom
    exact ⟨hq, id⟩
  | @childReads p q u n hn hle =>
    have hempty : q.toSlave = [] := hq
    rw [hempty] at hle
    exact absurd (Nat.le_zero.mp hle) hn
  | _ => exact ⟨hq, id⟩

theorem starved_run (h : Run (Step line l) (System.start (r.app none zeros)) hist s) :
    (Residual r s.parent ∧ s.queues.toSlave = []) ∧ ∀ x ∈ hist, ¬ TakesInput x.2 := by
  induction h with
  | start => exact ⟨⟨start_residual r, rfl⟩, by simp⟩
  | step h hs ih =>
    obtain ⟨⟨hres, hq⟩, hall⟩ := ih
    obtain ⟨hq', hno⟩ := starved_step hres hq hs
    refine ⟨⟨residual_step hres hs, hq'⟩, fun x hx => ?_⟩
    rcases List.mem_append.mp hx with hx | hx
    · exact hall x hx
    · obtain rfl := List.mem_singleton.mp hx
      exact hno

/-- **The child gets no input**: in every run the queue to the slave is empty, so neither the child
nor the loop ever takes a byte out of it. -/
theorem child_starved (hb : Built app)
    (h : Run (Step line (fds app.poller.fds)) (System.start app) hist s) :
    s.queues.toSlave = [] ∧ ∀ x ∈ hist, ¬ TakesInput x.2 := by
  obtain ⟨r, rfl⟩ := built_iff.mp hb
  obtain ⟨⟨-, hq⟩, hall⟩ := starved_run h
  exact ⟨hq, hall⟩

theorem key_starved : ∃ hist s,
    Run (Step (.onlcr 4096 4096) (fds (sample.app none zeros).poller.fds))
      (System.start (sample.app none zeros)) hist s ∧ hist ≠ [] ∧
    (s.queues.toSlave = [] ∧ ∀ x ∈ hist, ¬ TakesInput x.2) := by
  obtain ⟨hist, p, h, -⟩ :=
    chunk_read (.onlcr 4096 4096) (oneByte .Stdin (by decide) 0x6c) (by decide)
  have hwrites := h.step (.childWrites (by simp : [(0x6c : UInt8)] ≠ []))
  exact ⟨_, _, hwrites, by simp, child_starved sample_built hwrites⟩

/-! ### Accounts -/

/-- The call is no short write to a descriptor of kind `k`. -/
def Whole (k : Kind) : SysEvent → Prop
  | ⟨.write fd buf, ans⟩ => fd.kind = k → ans = .ok (Fin.last buf.length)
  | _ => True

/-- The calls of a history. -/
def calls (hist : List (System × Action)) : List SysEvent :=
  hist.filterMap fun x =>
    match x.2 with
    | .call e => some e
    | _ => none

/-- The bytes the child's writes put in. -/
def put : System × Action → List UInt8
  | (s, .childPuts n) => s.pending.take n
  | _ => []

theorem calls_append (hist hist' : List (System × Action)) :
    calls (hist ++ hist') = calls hist ++ calls hist' := List.filterMap_append

end SshPass.EventLoop.Delivery
