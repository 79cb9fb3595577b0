import SshPass.EventLoop.Footprint
import SshPass.Unix.Traffic
import Mathlib.Data.List.Flatten

/-! # Where the bytes go

`routed f P` is what a run reads and should send to the descriptors of `P`, as the registry `f` is
wired. What these accept is a subsequence of it, and all of it if the kernel accepts whole buffers
(`flows`): nothing is reordered, repeated or sent astray, over any registry. So the input relay
works exactly if `pty_master_index` names a master (`inputRelay_wired`). -/

namespace SshPass.EventLoop.Flows

open SshPass.Lib.CallTree SshPass.Lib.Stateful
open SshPass.Unix.Kernel SshPass.Unix.Registry SshPass.Unix.RegistrySpec SshPass.Unix.Indices
open SshPass.Unix.App SshPass.Unix.AppSpec SshPass.Unix.Traffic
open SshPass.EventLoop.Program SshPass.EventLoop.Wiring SshPass.EventLoop.Footprint

variable {f : Fds} {timeout : ℤ} {n : ℕ} {t : List SysEvent}

/-! ### Flows -/

/-- The bytes a call takes for the descriptors of `P`. -/
def routed (f : Fds) (P : Desc → Bool) : SysEvent → List Cell
  | ⟨.read fd _, ans⟩ =>
    match ans with
    | .ok c => if (wire f fd.kind).any P then tag fd.kind c.bytes else []
    | .error _ => []
  | _ => []

variable {P : Desc → Bool} {e : SysEvent}

theorem routed_aside (h : IsAside e.op) : routed f P e = [] := by
  obtain ⟨_, _⟩ := e
  obtain rfl | ⟨_, rfl⟩ := h <;> rfl

theorem written_aside (h : IsAside e.op) : written P e = [] := by
  obtain ⟨_, _⟩ := e
  obtain rfl | ⟨_, rfl⟩ := h <;> rfl

theorem flatMap_routed_asides (h : ∀ e ∈ t, IsAside e.op) : t.flatMap (routed f P) = [] :=
  List.flatMap_eq_nil_iff.mpr fun e he => routed_aside (h e he)

theorem flatMap_written_asides (h : ∀ e ∈ t, IsAside e.op) : t.flatMap (written P) = [] :=
  List.flatMap_eq_nil_iff.mpr fun e he => written_aside (h e he)

theorem routed_dropped {fd : Desc} {n : ℕ} {ans : Except Errno (Chunk fd.kind n)}
    (hd : ∀ c, ans = .ok c → c.bytes ≠ [] → wire f fd.kind = none) :
    routed f P ⟨.read fd n, ans⟩ = [] := by
  rcases ans with e | c
  · rfl
  by_cases hc : c.bytes = []
  · simp [routed, hc, tag]
  · simp [routed, hd c rfl hc]

/-- **An iteration** gives the descriptors of `P` a part of what it takes for them, and all of it if
its write is accepted whole. -/
theorem iteration_flows (h : Moves f timeout n t) (P : Desc → Bool) :
    (t.flatMap (written P)).Sublist (t.flatMap (routed f P)) ∧
      (FullWrites t → t.flatMap (written P) = t.flatMap (routed f P)) := by
  have hpoll : ∀ ans, routed f P (pollOf f timeout ans) = [] ∧
      written P (pollOf f timeout ans) = [] := fun ans => ⟨rfl, rfl⟩
  cases h with
  | quiet ans hx =>
    simp [hpoll, flatMap_routed_asides fun e he => hx e (Option.mem_toList.mp he),
      flatMap_written_asides fun e he => hx e (Option.mem_toList.mp he)]
  | @drops p hp fd hfd hk ans hd x hx =>
    have hread : written P ⟨.read fd.desc n, ans⟩ = [] := rfl
    have hdrop : routed f P ⟨.read fd.desc n, ans⟩ = [] := routed_dropped hd
    simp [hpoll, flatMap_routed_asides fun e he => hx e (Option.mem_toList.mp he),
      flatMap_written_asides fun e he => hx e (Option.mem_toList.mp he), hdrop, hread]
  | @relays p hp fd hfd c hc d hd w =>
    have hroute : routed f P ⟨.read fd.desc n, .ok c⟩ =
        if P d then tag fd.kind c.bytes else [] := by
      have hwire : wire f fd.desc.kind = some d := hd
      simp only [routed, hwire, Option.any_some]
      rfl
    have hread : written P ⟨.read fd.desc n, .ok c⟩ = [] := rfl
    have hwrite : routed f P ⟨.write d (tag fd.kind c.bytes), w⟩ = [] := rfl
    simp only [List.flatMap_cons, List.flatMap_nil, hpoll, hroute, hread, hwrite,
      List.nil_append, List.append_nil]
    constructor
    · rcases w with e | w
      · exact List.nil_sublist _
      · simp only [written]
        split_ifs
        · exact List.take_sublist _ _
        · exact List.Sublist.refl []
    · intro hfull
      obtain rfl : w = .ok (Fin.last _) := hfull ⟨.write d _, w⟩ (by simp)
      simp [written]

theorem run_flows {ops : List Op} {ts : List (List SysEvent)} {s : Loop}
    (hr : Runs (appOf ops timeout n) ts s) (P : Desc → Bool) : ∀ t ∈ ts,
      (t.flatMap (written P)).Sublist (t.flatMap (routed (Unix.Indices.run ops) P)) ∧
        (FullWrites t → t.flatMap (written P) = t.flatMap (routed (Unix.Indices.run ops) P)) :=
  forall_iterations hr fun _ _ _ hs hx => iteration_flows (rested_moves (idle_run ops) hs hx) P

theorem full_flows {ops : List Op} {ts : List (List SysEvent)} {s : Loop}
    (hr : Runs (appOf ops timeout n) ts s) (hw : ∀ t ∈ ts, FullWrites t) (P : Desc → Bool) :
    ts.flatten.flatMap (written P) =
      ts.flatten.flatMap (routed (Unix.Indices.run ops) P) := by
  simp only [List.flatten_eq_flatMap, List.flatMap_assoc, id]
  exact List.flatMap_congr fun t ht => (run_flows hr P t ht).2 (hw t ht)

/-- **The flows of a run**: over any registry, what the descriptors of `P` accept is a part, in
order, of what is read from the descriptors wired to them, and all of it if the kernel accepts whole
buffers. -/
theorem flows {ops : List Op} {ts : List (List SysEvent)} {s : Loop}
    (hr : Runs (appOf ops timeout n) ts s) (P : Desc → Bool) :
    (ts.flatten.flatMap (written P)).Sublist
        (ts.flatten.flatMap (routed (Unix.Indices.run ops) P)) ∧
      ((∀ t ∈ ts, FullWrites t) → ts.flatten.flatMap (written P) =
        ts.flatten.flatMap (routed (Unix.Indices.run ops) P)) := by
  refine ⟨?_, fun hw => full_flows hr hw P⟩
  simp only [List.flatten_eq_flatMap, List.flatMap_assoc, id]
  exact .flatMap_right ts fun t ht => (run_flows hr P t ht).1

/-- A short write: stdout accepts one byte of the two. -/
theorem ptyCalls_flows : ∃ s, Runs (appOf ptyOps 200 2) [ptyCalls 1] s ∧
    ([ptyCalls 1].flatten.flatMap (written fun d => d.kind = .Stdout)).Sublist
      ([ptyCalls 1].flatten.flatMap
        (routed (Unix.Indices.run ptyOps) fun d => d.kind = .Stdout)) := by
  obtain ⟨s, hr⟩ := ptyCalls_run 1
  exact ⟨s, hr, (flows hr _).1⟩

/-! ### Ends of wires -/

variable {k : Kind}

theorem target_kind (h : SoundAt k f) {d : Desc} (hd : target f k = some d) : d.kind = k := by
  obtain ⟨i, hi, hd⟩ := Option.bind_eq_some_iff.mp hd
  obtain ⟨fd, hfd, hk⟩ := h i hi
  rw [hfd] at hd
  obtain rfl := Option.some.inj hd
  exact hk

/-! ### The input relay -/

theorem mem_routed {x : Cell} (h : x ∈ t.flatMap (routed f P)) : ∃ k d, wire f k = some d ∧
    P d = true ∧ x.src = some k ∧ x ∈ t.flatMap (taken k) := by
  obtain ⟨⟨o, ans⟩, he, hx⟩ := List.mem_flatMap.mp h
  cases o with
  | read fd m =>
    rcases ans with e | c
    · simp [routed] at hx
    simp only [routed] at hx
    split_ifs at hx with hany
    · obtain ⟨d, hd, hP⟩ := (Option.any_eq_true _ _).mp hany
      refine ⟨fd.kind, d, hd, hP, mem_tag hx, List.mem_flatMap.mpr ⟨_, he, ?_⟩⟩
      simpa using hx
    · simp at hx
  | _ => simp [routed] at hx

theorem routed_master (h : SoundAt .Stdout f) {d : Desc} (hd : target f .PtyMaster = some d)
    (hk : d.kind = .PtyMaster) (e : SysEvent) :
    routed f (fun d => .PtyMaster = d.kind) e = taken .Stdin e := by
  obtain ⟨o, ans⟩ := e
  cases o with
  | read fd m =>
    rcases ans with e | c
    · rfl
    rw [taken_read_ok]
    obtain ⟨kind, raw⟩ := fd
    have hstdout : (target f .Stdout).any (fun d => decide (.PtyMaster = d.kind)) = false := by
      refine (Option.any_eq_false _ _).mpr fun d' hd' => ?_
      simp [target_kind h hd']
    cases kind <;> simp [routed, wire, outlet, hd, hk, hstdout]
  | _ => rfl

/-- What is for the masters is read from stdin, which is wired to one of them. -/
theorem mem_routed_master (h : SoundAt .Stdout f) {x : Cell}
    (hx : x ∈ t.flatMap (routed f fun d => .PtyMaster = d.kind)) :
    (∃ d, target f .PtyMaster = some d ∧ d.kind = .PtyMaster) ∧ x ∈ t.flatMap (taken .Stdin) := by
  obtain ⟨k, d, hd, hk, -, hmem⟩ := mem_routed hx
  have hkind : d.kind = .PtyMaster := by simpa [eq_comm] using hk
  cases k with
  | Stdin => exact ⟨⟨d, hd, hkind⟩, hmem⟩
  | PtyMaster =>
    have hstdout := target_kind h hd
    simp [hkind] at hstdout
  | _ => simp [wire, outlet] at hd

section

variable {ops : List Op} {ts : List (List SysEvent)} {s : Loop}

/-- What the master accepts is what is read from stdin, and no other descriptor accepts a byte of
it. -/
def InputRelay (t : List SysEvent) : Prop :=
  (t.flatMap (accepted .PtyMaster)).map Cell.byte = (t.flatMap (taken .Stdin)).map Cell.byte ∧
    ∀ k, k ≠ .PtyMaster → ∀ c ∈ t.flatMap (accepted k), c.src ≠ some .Stdin

theorem accepted_eq (hr : Runs (appOf ops timeout n) ts s) (hw : ∀ t ∈ ts, FullWrites t)
    (k : Kind) : ts.flatten.flatMap (accepted k) =
      ts.flatten.flatMap (routed (Unix.Indices.run ops) fun d => k = d.kind) :=
  full_flows hr hw _

/-- A master accepts something only if stdin is wired to it. -/
theorem mem_master (hr : Runs (appOf ops timeout n) ts s) (hw : ∀ t ∈ ts, FullWrites t) {x : Cell}
    (hx : x ∈ ts.flatten.flatMap (accepted .PtyMaster)) :
    (∃ d, target (Unix.Indices.run ops) .PtyMaster = some d ∧ d.kind = .PtyMaster) ∧
      x ∈ ts.flatten.flatMap (taken .Stdin) := by
  rw [accepted_eq hr hw] at hx
  exact mem_routed_master (soundAt_run (.inl (by simp))) hx

theorem stdin_eq_nil (hr : Runs (appOf ops timeout n) ts s) (hw : ∀ t ∈ ts, FullWrites t)
    (hno : ∀ d, target (Unix.Indices.run ops) .PtyMaster = some d → d.kind ≠ .PtyMaster)
    (h : InputRelay ts.flatten) : ts.flatten.flatMap (taken .Stdin) = [] := by
  have hnil : ts.flatten.flatMap (accepted .PtyMaster) = [] := by
    refine List.eq_nil_iff_forall_not_mem.mpr fun x hx => ?_
    obtain ⟨⟨d, hd, hkind⟩, -⟩ := mem_master hr hw hx
    exact hno d hd hkind
  have hbytes := h.1
  rw [hnil, List.map_nil] at hbytes
  exact List.map_eq_nil_iff.mp hbytes.symm

theorem relay_of_nil (hr : Runs (appOf ops timeout n) ts s) (hw : ∀ t ∈ ts, FullWrites t)
    (hstdin : ts.flatten.flatMap (taken .Stdin) = []) : InputRelay ts.flatten := by
  have hnil : ts.flatten.flatMap (accepted .PtyMaster) = [] := by
    refine List.eq_nil_iff_forall_not_mem.mpr fun x hx => ?_
    have hmem := (mem_master hr hw hx).2
    simp [hstdin] at hmem
  refine ⟨by rw [hnil, hstdin], fun k hk x hx hsrc => ?_⟩
  rw [accepted_eq hr hw] at hx
  obtain ⟨j, d, -, -, hj, hmem⟩ := mem_routed hx
  obtain rfl : j = .Stdin := Option.some.inj (hj.symm.trans hsrc)
  simp [hstdin] at hmem

theorem relay_of_wire (hr : Runs (appOf ops timeout n) ts s) (hw : ∀ t ∈ ts, FullWrites t)
    {d : Desc} (hd : target (Unix.Indices.run ops) .PtyMaster = some d)
    (hkind : d.kind = .PtyMaster) : InputRelay ts.flatten := by
  have hsound : SoundAt .Stdout (Unix.Indices.run ops) := soundAt_run (.inl (by simp))
  refine ⟨?_, fun k hk x hx hsrc => ?_⟩
  · rw [accepted_eq hr hw, List.flatMap_congr fun e _ => routed_master hsound hd hkind e]
  · rw [accepted_eq hr hw] at hx
    obtain ⟨j, d', hd', hkd, hj, -⟩ := mem_routed hx
    obtain rfl : j = .Stdin := Option.some.inj (hj.symm.trans hsrc)
    obtain rfl := Option.some.inj (hd.symm.trans hd')
    exact hk (by simpa [hkind] using hkd)

/-- **The input relay** over any registry works exactly if nothing is read from stdin or
`pty_master_index` names a master. -/
theorem inputRelay_wired (hr : Runs (appOf ops timeout n) ts s) (hw : ∀ t ∈ ts, FullWrites t) :
    InputRelay ts.flatten ↔ ts.flatten.flatMap (taken .Stdin) = [] ∨
      ∃ d, target (Unix.Indices.run ops) .PtyMaster = some d ∧ d.kind = .PtyMaster := by
  constructor
  · intro h
    by_contra! hno
    exact hno.1 (stdin_eq_nil hr hw hno.2 h)
  · rintro (hstdin | ⟨d, hd, hkind⟩)
    · exact relay_of_nil hr hw hstdin
    · exact relay_of_wire hr hw hd hkind

end

/-- The terminal attributes of the sample. -/
def noTermios : Termios := ⟨0, 0, 0, 0, 0, Vector.replicate 32 0, 0, 0⟩

/-- The slave is popped, and a master takes its place, which `pty_master_index` still names. -/
def masterOps : List Op :=
  [.pushPtyFd ⟨4, 5⟩ 100 POLLIN, .popFd, .pushFd (.PtyMaster 4 POLLIN 100),
    .pushStdinFd 0 noTermios POLLIN]

/-- A key. -/
def keyChunk : Chunk .Stdin 2 := ⟨[0x6c], by simp, by simp⟩

/-- Stdin is ready. -/
def stdinReady : Polled := ⟨1, fun k => if k = 2 then POLLIN else 0⟩

/-- The key is written to the master. -/
def masterCalls : List SysEvent :=
  [pollOf (Unix.Indices.run masterOps) 200 (.ok stdinReady), ⟨.read ⟨.Stdin, 0⟩ 2, .ok keyChunk⟩,
    ⟨.write ⟨.PtyMaster, 4⟩ (tag .Stdin keyChunk.bytes), .ok (Fin.last _)⟩]

theorem masterCalls_run : ∃ s, Runs (appOf masterOps 200 2) [masterCalls] s := by
  have hstop : UnixAppStop.new.isStoped = false := rfl
  obtain ⟨s, h⟩ := relays_exec (idle_run masterOps) 200 List.length_replicate hstop stdinReady
    (by decide) (.Stdin 0 POLLIN noTermios) (i := 2) (by decide) keyChunk (by decide)
    (d := ⟨.PtyMaster, 4⟩) (by decide) (.ok (Fin.last _))
  exact ⟨s, Runs.start.iterate h⟩

theorem masterCalls_relayed : ∃ s, Runs (appOf masterOps 200 2) [masterCalls] s ∧
    InputRelay [masterCalls].flatten := by
  obtain ⟨s, hr⟩ := masterCalls_run
  have hfull : ∀ t ∈ [masterCalls], FullWrites t := by
    simp [FullWrites, masterCalls, pollOf, Full]
  exact ⟨s, hr, (inputRelay_wired hr hfull).mpr (.inr ⟨⟨.PtyMaster, 4⟩, by decide, rfl⟩)⟩

end SshPass.EventLoop.Flows
