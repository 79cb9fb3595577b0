import SshPass.EventLoop.Main

/-! # The signal mask

`reg_signals` blocks every signal of `Signal` that can be blocked, and nothing ever unblocks one. So
the loop runs with these signals blocked, and so does the child, which inherits the mask at the
`fork`. The real-time signals, which `Signal` does not have, stay as they were (`main_blocked`). -/

namespace SshPass.EventLoop.Mask

open SshPass.Lib.CallTree
open SshPass.Unix.Kernel SshPass.Unix.App SshPass.Unix.RegistrationSpec
open SshPass.EventLoop.Construction SshPass.EventLoop.Footprint SshPass.EventLoop.Main

/-! ### The mask of the process -/

/-- The numbers the kernel lets a process block: not `SIGKILL` and `SIGSTOP`. -/
def blockable (n : ℕ) : Bool := n ≠ Signal.SIGKILL.number ∧ n ≠ Signal.SIGSTOP.number

/-- The mask of the process: `thread_get_mask` returns it, and a successful `thread_block` adds to
it what it is given. -/
def masks : Env Sys Ans SigSet := fun m e m' =>
  match e with
  | ⟨.threadGetMask, ans⟩ => m' = m ∧ ∀ v, ans = .ok v → v = m
  | ⟨.threadBlock v, ans⟩ =>
    m' = if ans = .ok () then fun n => m n || (blockable n && v n) else m
  | _ => m' = m

/-- The signals of `Signal` that can be blocked are. -/
def AllBlocked (m : SigSet) : Prop := ∀ s : Signal, blockable s.number = true → m s.number = true

/-- The number is none of `Signal`: a real-time signal. -/
def RealTime (n : ℕ) : Prop := ∀ s : Signal, s.number ≠ n

variable {m m' : SigSet} {e : SysEvent} {t : List SysEvent} {n : ℕ}

theorem foldl_add (l : List Signal) (m : SigSet) (n : ℕ) :
    l.foldl SigSet.add m n = (decide (n ∈ l.map Signal.number) || m n) := by
  induction l generalizing m with
  | nil => simp
  | cons x l ih =>
    rw [List.foldl_cons, ih, SigSet.add]
    by_cases hn : n = x.number <;> simp [hn]

theorem mem_iterator (s : Signal) : s ∈ Signal.iterator := by cases s <;> decide

/-- Whatever mask the process has inherited, `reg_signals` asks for every signal of `Signal`. -/
theorem newMask_number (old : SigSet) (s : Signal) : newMask old s.number = true := by
  have hmem : s ∈ (Signal.iterator.foldl SigSet.add SigSet.empty).toList := by
    simp only [SigSet.toList, foldl_add, List.mem_filter, mem_iterator, true_and]
    simp only [Bool.or_eq_true, decide_eq_true_eq]
    exact .inl (List.mem_map_of_mem (mem_iterator s))
  rw [newMask, foldl_add, decide_eq_true (List.mem_map_of_mem hmem), Bool.true_or]

theorem newMask_realTime (old : SigSet) (hn : RealTime n) : newMask old n = old n := by
  have hnot : n ∉ (Signal.iterator.foldl SigSet.add SigSet.empty).toList.map Signal.number := by
    intro hmem
    obtain ⟨s, -, hs⟩ := List.mem_map.mp hmem
    exact hn s hs
  rw [newMask, foldl_add, decide_eq_false hnot, Bool.false_or]

theorem masks_mono (h : masks m e m') (n : ℕ) (hn : m n = true) : m' n = true := by
  obtain ⟨o, ans⟩ := e
  cases o with
  | threadGetMask =>
    obtain rfl : m' = m := h.1
    exact hn
  | threadBlock v =>
    obtain rfl : m' = _ := h
    split_ifs <;> simp [hn]
  | _ =>
    obtain rfl : m' = m := h
    exact hn

theorem run_mono (h : masks.Run m t m') (n : ℕ) (hn : m n = true) : m' n = true :=
  h.invariant (P := fun m => m n = true) (fun _ _ _ _ hm hstep => masks_mono hstep n hm) hn

/-- The call blocks some signals. -/
def Blocks (e : SysEvent) : Prop := ∃ v, e = ⟨.threadBlock v, .ok ()⟩

theorem masks_quiet (he : ¬ Blocks e) (h : masks m e m') : m' = m := by
  obtain ⟨o, ans⟩ := e
  cases o with
  | threadGetMask => exact h.1
  | threadBlock v =>
    have hans : ans ≠ .ok () := by
      rintro rfl
      exact he ⟨v, rfl⟩
    have hstep : m' = if ans = .ok () then _ else m := h
    rwa [if_neg hans] at hstep
  | _ => exact h

theorem run_quiet (ht : ∀ e ∈ t, ¬ Blocks e) (h : masks.Run m t m') : m' = m :=
  h.invariant (P := fun m₁ => m₁ = m)
    (fun e he _ _ hm hstep => (masks_quiet (ht e he) hstep).trans hm) rfl

theorem begins_run {old : SigSet} (h : masks.Run m
    (⟨.threadGetMask, .ok old⟩ :: ⟨.threadBlock (newMask old), .ok ()⟩ :: t) m') : ∃ m₁,
      AllBlocked m₁ ∧ (∀ n, RealTime n → m₁ n = m n) ∧ masks.Run m₁ t m' := by
  obtain ⟨_, ⟨rfl, hold⟩, m₂, rfl, h⟩ := h
  obtain rfl := hold old rfl
  refine ⟨_, fun s hs => ?_, fun n hn => ?_, h⟩
  · simp [hs, newMask_number]
  · simp only [if_true, newMask_realTime _ hn]
    cases old n <;> simp

/-! ### The program -/

theorem not_blocks (h : ∀ v, e.op ≠ .threadBlock v) : ¬ Blocks e := by
  rintro ⟨v, rfl⟩
  exact h v rfl

/-- A start blocks with its second call only. -/
theorem startCalls_tail (r : Startup) (old : SigSet) (u : Termios) : ∃ rest, startCalls r old u =
    ⟨.threadGetMask, .ok old⟩ :: ⟨.threadBlock (newMask old), .ok ()⟩ :: rest ∧
      ∀ e ∈ rest, ∀ v, e.op ≠ .threadBlock v :=
  ⟨_, rfl, by simp⟩

/-- An execution blocks with its second call only, or fails there or before. -/
theorem main_begins {n : ℕ} {x : Outcome} (h : (main n).Exec t x) :
    (∃ old u, t = ⟨.threadGetMask, .ok old⟩ :: ⟨.threadBlock (newMask old), .ok ()⟩ :: u ∧
      ∀ e ∈ u, ¬ Blocks e) ∨
      x ≠ .running ∧ ∀ e ∈ t, e.op ≠ .fork ∧ ¬ Blocks e := by
  obtain ⟨rfl, r, old, u, ts, s, -, hr, rfl⟩ | ⟨p, rfl, r, old, u, pre, o, after, good, bad, hstart,
    rfl, hbad, -⟩ := main_cases h
  · obtain ⟨rest, hrest, hblock⟩ := startCalls_tail r old u
    refine .inl ⟨old, rest ++ ts.flatten, by rw [hrest]; rfl, fun e he => not_blocks ?_⟩
    rcases List.mem_append.mp he with he | he
    · exact hblock e he
    · intro v hv
      have hcall := runs_loopCall hr e he
      rw [hv] at hcall
      exact hcall
  obtain ⟨rest, hrest, hblock⟩ := startCalls_tail r old u
  rw [hrest] at hstart
  rcases pre with _ | ⟨_, _ | ⟨_, pre⟩⟩
  · cases hstart
    exact .inr ⟨by simp, by simp [Blocks]⟩
  · cases hstart
    obtain ⟨e, rfl⟩ := hbad
    exact .inr ⟨by simp, by simp [Blocks]⟩
  · obtain ⟨rfl, htail⟩ := List.cons.inj hstart
    obtain ⟨rfl, rfl⟩ := List.cons.inj htail
    refine .inl ⟨old, _, rfl, fun e he => not_blocks ?_⟩
    rcases List.mem_append.mp he with he | he
    · exact hblock e (List.mem_append_left _ he)
    · obtain rfl := List.mem_singleton.mp he
      exact hblock ⟨o, good⟩ (by simp)

/-- **The signals are blocked** when `main` forks the child, which inherits the mask, and while it
is in its loop: every signal of `Signal` that can be. The real-time signals stay as they were, and
no signal that was blocked before is ever unblocked. -/
theorem main_blocked {n : ℕ} {x : Outcome} (h : (main n).Exec t x) (hm : masks.Run m t m') :
    (∀ pre ans post m₁, t = pre ++ ⟨.fork, ans⟩ :: post → masks.Run m pre m₁ → AllBlocked m₁) ∧
      (x = .running → AllBlocked m') ∧ (∀ n, RealTime n → m' n = m n) ∧
      ∀ n, m n = true → m' n = true := by
  obtain ⟨old, u, rfl, hu⟩ | ⟨hne, hquiet⟩ := main_begins h
  · obtain ⟨m₁, hall, hrealTime, hrest⟩ := begins_run hm
    obtain rfl := run_quiet hu hrest
    refine ⟨?_, fun _ => hall, hrealTime, run_mono hm⟩
    rintro (_ | ⟨_, _ | ⟨_, pre⟩⟩) ans post m₂ ht hpre
    · simp at ht
    · simp at ht
    · obtain ⟨rfl, htail⟩ := List.cons.inj ht
      obtain ⟨rfl, -⟩ := List.cons.inj htail
      obtain ⟨m₃, hall, -, hrest⟩ := begins_run hpre
      exact fun s hs => run_mono hrest s.number (hall s hs)
  · refine ⟨?_, fun hx => absurd hx hne, fun n _ => ?_, run_mono hm⟩
    · rintro pre ans post m₁ rfl -
      exact absurd rfl (hquiet ⟨.fork, ans⟩ (by simp)).1
    · rw [run_quiet (fun e he => (hquiet e he).2) hm]

theorem sampleCalls_masks : ∃ m', masks.Run SigSet.empty sampleCalls m' :=
  ⟨_, _, ⟨rfl, fun _ hv => (Except.ok.inj hv).symm⟩, _, rfl, _, rfl, _, rfl, _, rfl, _, rfl, _, rfl,
    _, rfl, _, rfl, _, rfl, _, rfl, rfl⟩

/-- The loop of the sample has `SIGINT` blocked, but not the first real-time signal. -/
theorem sampleCalls_blocked : ∃ m', masks.Run SigSet.empty sampleCalls m' ∧
    m' Signal.SIGINT.number = true ∧ m' 34 = false := by
  obtain ⟨m', hm⟩ := sampleCalls_masks
  obtain ⟨-, hall, hrealTime, -⟩ := main_blocked sampleCalls_exec hm
  exact ⟨m', hm, hall rfl .SIGINT (by decide), hrealTime 34 fun s => by cases s <;> decide⟩

end SshPass.EventLoop.Mask
