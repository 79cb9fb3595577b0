import SshPass.Unix.RegistrySpec
import Mathlib.Data.List.Induction

/-! # The indices of the registry

`run ops` is the registry after a sequence of pushes and pops. It is `Sound` if every index names an
entry of its kind; then a write by kind goes to a descriptor of that kind (`Addressed`). Pushes of
one entry and pops keep the registry sound; `push_pty_fd` does not, as it stores the position of the
slave in `pty_master_index` (`not_sound_pushPtyFd`), but it keeps every other index so
(`SoundAt.apply`). -/

namespace SshPass.Unix.Indices

open SshPass.Lib.CallTree SshPass.Lib.Borrow SshPass.Lib.Stateful SshPass.Lib.Stateful.Prog
open SshPass.Unix.Kernel SshPass.Unix.Registry SshPass.Unix.RegistrySpec

/-! ### Operations -/

/-- The operations that change the entries. -/
inductive Op
  | pushFd (fd : Fd)
  | pushSignalFd (signalFd : RawFd) (events : Int16)
  | pushStdinFd (stdin : RawFd) (termios : Termios) (events : Int16)
  | pushStdoutFd (stdout : RawFd) (events : Int16)
  | pushPtyFd (ptyFd : OpenptyResult) (child : Pid) (events : Int16)
  | popFd

/-- The registry after an operation. -/
def Op.apply (s : Fds) : Op → Fds
  | pushFd fd => s.pushFd fd
  | pushSignalFd signalFd events => s.pushSignalFd signalFd events
  | pushStdinFd stdin termios events => s.pushStdinFd stdin termios events
  | pushStdoutFd stdout events => s.pushStdoutFd stdout events
  | pushPtyFd ptyFd child events => s.pushPtyFd ptyFd child events
  | popFd => s.popFd

/-- The operation is `push_pty_fd`. -/
def Op.PushesPty : Op → Prop
  | pushPtyFd _ _ _ => True
  | _ => False

/-- The entry that a push that stores an index adds. -/
def pushed : Op → Option Fd
  | .pushSignalFd signalFd events => some (.Signal signalFd events)
  | .pushStdinFd stdin termios events => some (.Stdin stdin events termios)
  | .pushStdoutFd stdout events => some (.Stdout stdout events)
  | _ => none

/-- The registry after a sequence of operations. -/
def run (ops : List Op) : Fds := ops.foldl Op.apply Fds.new

theorem run_concat (ops : List Op) (op : Op) : run (ops ++ [op]) = op.apply (run ops) := by
  simp [run]

/-! ### Indices -/

/-- The index of a kind. -/
def index (s : Fds) : Kind → Option ℕ
  | .Signal => s.signalfdIndex
  | .Stdin => s.stdinIndex
  | .Stdout => s.stdoutIndex
  | .PtyMaster => s.ptyMasterIndex
  | .PtySlave => s.ptySlaveIndex

/-- The index of the kind `k`, if any, names an entry of the kind. -/
def SoundAt (k : Kind) (s : Fds) : Prop :=
  ∀ i, index s k = some i → ∃ fd, (fds s)[i]? = some fd ∧ fd.kind = k

/-- Every index names an entry of its kind. -/
def Sound (s : Fds) : Prop := ∀ k, SoundAt k s

variable {s s' : Fds} {op : Op} {fd : Fd} {k : Kind}

theorem fds_pushed (h : pushed op = some fd) (s : Fds) : fds (op.apply s) = fds s ++ [fd] := by
  cases op <;> simp only [pushed, Option.some.injEq, reduceCtorEq] at h <;> subst h <;>
    exact fds_pushFdRaw s _

/-- A push stores the position of its entry in the index of its kind, and no other. -/
theorem index_pushed (h : pushed op = some fd) (s : Fds) (k : Kind) :
    index (op.apply s) k = if fd.kind = k then some (fds s).length else index s k := by
  cases op <;> simp only [pushed, Option.some.injEq, reduceCtorEq] at h <;> subst h <;>
    cases k <;>
      simp [Op.apply, Fds.pushSignalFd, Fds.pushStdinFd, Fds.pushStdoutFd, Fds.pushFdRaw, index,
        Fd.kind]

theorem SoundAt.extend (h : SoundAt k s) (hfds : fds s <+: fds s')
    (hidx : index s' k = index s k) : SoundAt k s' := by
  intro i hi
  rw [hidx] at hi
  obtain ⟨fd, hfd, hk⟩ := h i hi
  obtain ⟨rest, hrest⟩ := hfds
  have hlt : i < (fds s).length := (List.getElem?_eq_some_iff.mp hfd).1
  refine ⟨fd, ?_, hk⟩
  rw [← hrest, List.getElem?_append_left hlt, hfd]

theorem fds_popFd (s : Fds) : fds s.popFd = (fds s).dropLast := by
  rcases hl : s.inner.getLast? with _ | c
  · simp [Fds.popFd, fds, List.getLast?_eq_none_iff.mp hl]
  · simp only [Fds.popFd, hl, fds]
    rcases hk : c.value.kind <;> simp [Fds.clearIndex]

theorem index_popFd {c : RefCell Fd} (h : s.inner.getLast? = some c) (k : Kind) :
    index s.popFd k = if k = c.value.kind then none else index s k := by
  simp only [Fds.popFd, h]
  rcases hk : c.value.kind <;> cases k <;> simp [Fds.clearIndex, index]

theorem SoundAt.pop (h : SoundAt k s) : SoundAt k s.popFd := by
  rcases hl : s.inner.getLast? with _ | c
  · rwa [Fds.popFd, hl]
  · intro i hi
    rw [index_popFd hl] at hi
    split_ifs at hi with hk
    obtain ⟨fd, hfd, rfl⟩ := h i hi
    refine ⟨fd, ?_, rfl⟩
    have hlast : (fds s).getLast? = some c.value := by
      rw [fds, List.getLast?_map, hl]
      rfl
    have hlt := (List.getElem?_eq_some_iff.mp hfd).1
    have hne : i ≠ (fds s).length - 1 := by
      rintro rfl
      rw [← List.getLast?_eq_getElem?, hlast] at hfd
      exact hk (congrArg Fd.kind (Option.some.inj hfd).symm)
    rw [fds_popFd, List.getElem?_dropLast, if_pos (by omega), hfd]

/-- **Every operation but `push_pty_fd` keeps every index sound**, and that one every index but that
of the master. -/
theorem SoundAt.apply (h : SoundAt k s) (op : Op) (hp : k ≠ .PtyMaster ∨ ¬ op.PushesPty) :
    SoundAt k (op.apply s) := by
  rcases hop : pushed op with _ | fd
  · cases op with
    | pushFd fd =>
      refine h.extend ⟨[fd], (fds_pushFdRaw s fd).symm⟩ ?_
      cases k <;> rfl
    | pushPtyFd ptyFd child events =>
      have hk : k ≠ .PtyMaster := hp.resolve_right fun hno => hno trivial
      refine h.extend ⟨[.PtyMaster ptyFd.master events child, .PtySlave ptyFd.slave events], ?_⟩ ?_
      · simp [Op.apply, Fds.pushPtyFd, Fds.pushFdRaw, fds]
      · cases k <;> first | rfl | exact absurd rfl hk
    | popFd => exact h.pop
    | _ => simp [pushed] at hop
  · by_cases hfd : fd.kind = k
    · intro i hi
      rw [index_pushed hop, if_pos hfd] at hi
      obtain rfl := Option.some.inj hi
      exact ⟨fd, by simp [fds_pushed hop], hfd⟩
    · exact h.extend ⟨[fd], (fds_pushed hop s).symm⟩ (by rw [index_pushed hop, if_neg hfd])

/-- After `push_pty_fd`, `pty_master_index` names the slave. -/
theorem not_sound_pushPtyFd (s : Fds) (ptyFd : OpenptyResult) (child : Pid) (events : Int16) :
    ¬ Sound (s.pushPtyFd ptyFd child events) := by
  intro h
  have hi : index (s.pushPtyFd ptyFd child events) .PtyMaster = some ((fds s).length + 1) := by
    simp [Fds.pushPtyFd, Fds.pushFdRaw, index]
  obtain ⟨fd, hfd, hk⟩ := h .PtyMaster _ hi
  have hslave : fds (s.pushPtyFd ptyFd child events) =
      fds s ++ [.PtyMaster ptyFd.master events child] ++ [.PtySlave ptyFd.slave events] := by
    simp [Fds.pushPtyFd, Fds.pushFdRaw, fds]
  rw [hslave, List.getElem?_append_right (by simp)] at hfd
  obtain rfl : Fd.PtySlave ptyFd.slave events = fd := by simpa using hfd
  simp [Fd.kind] at hk

/-! ### Runs -/

theorem idle_popFd (h : Idle s) : Idle s.popFd := by
  rcases hl : s.inner.getLast? with _ | c
  · rwa [Fds.popFd, hl]
  · simp only [Fds.popFd, hl]
    refine ⟨rfl, fun d hd => h.inner d (List.dropLast_subset _ ?_)⟩
    rcases hk : c.value.kind <;> simpa [hk, Fds.clearIndex] using hd

theorem idle_apply (h : Idle s) : ∀ op : Op, Idle (op.apply s)
  | .pushFd fd => idle_pushFdRaw h fd
  | .pushSignalFd signalFd events =>
    ⟨rfl, (idle_pushFdRaw h (.Signal signalFd events)).inner⟩
  | .pushStdinFd stdin termios events =>
    ⟨rfl, (idle_pushFdRaw h (.Stdin stdin events termios)).inner⟩
  | .pushStdoutFd stdout events => ⟨rfl, (idle_pushFdRaw h (.Stdout stdout events)).inner⟩
  | .pushPtyFd ptyFd child events =>
    have h' := idle_pushFdRaw h (.PtyMaster ptyFd.master events child)
    ⟨rfl, (idle_pushFdRaw h' (.PtySlave ptyFd.slave events)).inner⟩
  | .popFd => idle_popFd h

theorem idle_run (ops : List Op) : Idle (run ops) := by
  induction ops using List.reverseRecOn with
  | nil => exact ⟨rfl, fun c hc => by simp [run, Fds.new] at hc⟩
  | append_singleton ops op ih =>
    rw [run_concat]
    exact idle_apply ih op

theorem soundAt_run {ops : List Op} (h : k ≠ .PtyMaster ∨ ∀ op ∈ ops, ¬ op.PushesPty) :
    SoundAt k (run ops) := by
  induction ops using List.reverseRecOn with
  | nil =>
    intro i hi
    cases k <;> simp [run, Fds.new, index] at hi
  | append_singleton ops op ih =>
    rw [run_concat]
    exact (ih (h.imp_right fun h o ho => h o (List.mem_append_left _ ho))).apply op
      (h.imp_right fun h => h op (by simp))

theorem sound_run {ops : List Op} (h : ∀ op ∈ ops, ¬ op.PushesPty) : Sound (run ops) :=
  fun _ => soundAt_run (.inr h)

/-! ### Writing by kind -/

/-- The functions that write to the descriptor of a kind. -/
def writer : Kind → Option (List Cell → Code Fds Unit)
  | .Stdout => some Fds.writeToStdout
  | .Stdin => some Fds.writeToStdin
  | .PtyMaster => some Fds.writeToPtyMaster
  | _ => none

/-- A write to a kind that has an index makes one call, to a descriptor of that kind; one to a kind
without an index makes none. -/
def Addressed (s : Fds) : Prop :=
  ∀ k w, writer k = some w → ∀ buf t x, ((w buf).run s).Exec t x →
    match index s k with
    | none => t = []
    | some _ => ∃ fd ans, fd.kind = k ∧ t = [⟨.write fd buf, ans⟩]

theorem writer_run {k : Kind} {w : List Cell → Code Fds Unit} (h : writer k = some w)
    (buf : List Cell) (s : Fds) : (w buf).run s =
      match index s k with
      | none => .ret (.ok (), s)
      | some i => (Fds.sendTo i buf).run s := by
  cases k <;> simp only [writer, Option.some.injEq, reduceCtorEq] at h <;> subst h
  · simp only [Fds.writeToStdin, run_bind, run_state, Tree.ret_bind, cont_ok, index]
    rcases s.stdinIndex with _ | i <;> rfl
  · simp only [Fds.writeToStdout, run_bind, run_state, Tree.ret_bind, cont_ok, index]
    rcases s.stdoutIndex with _ | i <;> rfl
  · simp only [Fds.writeToPtyMaster, run_bind, run_state, Tree.ret_bind, cont_ok, index]
    rcases s.ptyMasterIndex with _ | i <;> rfl

theorem Sound.addressed (h : Sound s) (hidle : Idle s) : Addressed s := by
  intro k w hw buf t x hx
  rw [writer_run hw] at hx
  rcases hi : index s k with _ | i <;> simp only [hi] at hx ⊢
  · exact hx.1
  · obtain ⟨fd, hfd, hk⟩ := h k i hi
    rw [sendTo_run (hidle.cell hfd)] at hx
    obtain ⟨ans, _, rfl, rfl, -⟩ := hx
    exact ⟨fd.desc, ans, hk, rfl⟩

/-- **The indices are sound** in every state of a run exactly if the run has no `push_pty_fd`. -/
theorem sound_iff (ops : List Op) :
    (∀ pre, pre <+: ops → Sound (run pre) ∧ Addressed (run pre)) ↔
      ∀ op ∈ ops, ¬ op.PushesPty := by
  constructor
  · intro h op hop hpty
    obtain ⟨pre, post, rfl⟩ := List.append_of_mem hop
    have hs := (h (pre ++ [op]) ⟨post, by simp⟩).1
    rw [run_concat] at hs
    cases op with
    | pushPtyFd ptyFd child events => exact not_sound_pushPtyFd _ _ _ _ hs
    | _ => exact hpty
  · intro h pre hpre
    have hs := sound_run fun op hop => h op (hpre.subset hop)
    exact ⟨hs, hs.addressed (idle_run pre)⟩

/-- One pty is enough. -/
theorem pty_index_unsound : ¬ ∀ pre, pre <+: [Op.pushPtyFd ⟨4, 5⟩ 100 POLLIN] →
    Sound (run pre) ∧ Addressed (run pre) := by
  intro h
  exact not_sound_pushPtyFd _ _ _ _ (h _ (List.prefix_refl _)).1

end SshPass.Unix.Indices
