import SshPass.Unix.App
import SshPass.Unix.RegistrySpec

/-! # The application: what an event is made of

On an idle registry and a free buffer, `systemEvent` polls, picks a ready entry, reads once from it
(`result`) and stores what was read at the front of the buffer (`stored`). The only guard left is
the one the event holds (`guards`). -/

namespace SshPass.Unix.AppSpec

open SshPass.Lib.CallTree SshPass.Lib.Borrow SshPass.Lib.Stateful SshPass.Lib.Stateful.Prog
open SshPass.Unix.Kernel SshPass.Unix.Registry SshPass.Unix.RegistrySpec
open SshPass.Unix.App SshPass.Unix.App.UnixApp

/-! ### The buffer after a read -/

/-- The buffer after the answer of a read. -/
def stored (fd : Desc) (vec : List Cell) : Except Errno (Chunk fd.kind vec.length) → List Cell
  | .error _ => vec
  | .ok c => tag fd.kind c.bytes ++ vec.drop c.bytes.length

theorem length_stored (fd : Desc) (vec : List Cell)
    (ans : Except Errno (Chunk fd.kind vec.length)) : (stored fd vec ans).length = vec.length := by
  rcases ans with e | c
  · rfl
  · have := c.le
    simp only [stored, List.length_append, tag_length, List.length_drop]
    omega

theorem take_stored (fd : Desc) (vec : List Cell) (c : Chunk fd.kind vec.length) :
    (stored fd vec (.ok c)).take c.bytes.length = tag fd.kind c.bytes := by
  rw [stored, ← tag_length fd.kind c.bytes, List.take_left]

/-! ### The event of a read -/

/-- An error of a read, which `EAGAIN` is not. -/
def readError (e : Errno) : Except UnixError UnixEvent :=
  if e.code = EAGAIN.code then .ok .ReadZeroBytes else .error (.NixErrorno e)

/-- The first `siginfo` record of some bytes. -/
def head? (bs : List UInt8) : Option Siginfo :=
  if h : sizeOfSiginfo ≤ bs.length then
    some ⟨bs.take sizeOfSiginfo, by rw [List.length_take]; exact Nat.min_eq_left h⟩
  else none

/-- The event of the bytes `bs` read from the entry `i`, a descriptor `fd`. -/
def eventOf (fd : Fd) (i : ℕ) (bs : List UInt8) : Except UnixError UnixEvent :=
  match fd with
  | .PtyMaster _ _ _ => .ok (.PtyMaster i ⟨bs.length⟩)
  | .PtySlave _ _ => .ok (.PtySlave i ⟨bs.length⟩)
  | .Stdin _ _ _ => .ok (.Stdin i ⟨bs.length⟩)
  | .Stdout _ _ => .error .PollEventNotHandle
  | .Signal _ _ =>
    match head? bs with
    | none => .ok .ReadZeroBytes
    | some info =>
      match Signal.tryFrom (asI32 info.ssiSigno) with
      | .error e => .error (.NixErrorno e)
      | .ok s => .ok (.Signal i s info)

/-- The result of `system_event` after the answer of the read. -/
def result (fd : Fd) (i : ℕ) {len : ℕ} :
    Except Errno (Chunk fd.kind len) → Except UnixError UnixEvent
  | .error e => readError e
  | .ok c => if c.bytes = [] then .ok .ReadZeroBytes else eventOf fd i c.bytes

/-- The guards of the buffer a result holds. -/
def guards : Except UnixError UnixEvent → ℕ
  | .ok (.PtyMaster _ _) | .ok (.PtySlave _ _) | .ok (.Stdin _ _) | .ok (.Signal _ _ _) => 1
  | _ => 0

@[simp] theorem guards_readError (e : Errno) : guards (readError e) = 0 := by
  unfold readError
  split <;> rfl

section

variable (f : Fds) (timeout : ℤ) (vec : List Cell)

theorem readBuf_run (fd : Desc) :
    (readBuf fd).run ⟨⟨f, timeout⟩, ⟨RefCell.new vec⟩⟩ = .call (.read fd vec.length) fun ans =>
      .ret (.ok (match ans with
        | .error e => if e.code = EAGAIN.code then .ok 0 else .error e
        | .ok c => .ok c.bytes.length), ⟨⟨f, timeout⟩, ⟨RefCell.new (stored fd vec ans)⟩⟩) := by
  simp only [readBuf, bufField, Buffer.getMutSlice, Buffer.setMutSlice, Buffer.dropMutSlice,
    readEvent, run_bind, run_zoom, run_state, Tree.ret_bind, cont_ok, RefCell.borrowMut_new,
    run_takeGuard_some, run_ask, Tree.call_bind]
  refine Tree.call_congr fun ans => ?_
  rcases ans with e | c
  · by_cases he : e.code = EAGAIN.code <;> simp [he, stored]
  · simp [stored]

/-- A view of what was just read. -/
theorem getSliceLen_run (n : ℕ) (h : n ≤ vec.length) :
    (Buffer.getSliceLen n).run ⟨RefCell.new vec⟩ =
      .ret (.ok ⟨n⟩, ⟨⟨vec, .reading 1⟩⟩) := by
  simp [Buffer.getSliceLen, h]

theorem matchDataEvent_run (event : ℕ → Slice → UnixEvent) (i : ℕ) (fd : Desc) :
    (matchDataEvent event i fd).run ⟨⟨f, timeout⟩, ⟨RefCell.new vec⟩⟩ =
      .call (.read fd vec.length) fun
        | .error e => .ret (.ok (readError e), ⟨⟨f, timeout⟩, ⟨RefCell.new vec⟩⟩)
        | .ok c =>
          if c.bytes = [] then
            .ret (.ok (.ok .ReadZeroBytes), ⟨⟨f, timeout⟩, ⟨RefCell.new (stored fd vec (.ok c))⟩⟩)
          else .ret (.ok (.ok (event i ⟨c.bytes.length⟩)),
            ⟨⟨f, timeout⟩, ⟨⟨stored fd vec (.ok c), .reading 1⟩⟩⟩) := by
  rw [matchDataEvent, run_bind, readBuf_run, Tree.call_bind]
  refine Tree.call_congr fun ans => ?_
  rcases ans with e | c
  · by_cases he : e.code = EAGAIN.code <;> simp [he, readError, stored]
  · rcases hb : c.bytes with _ | ⟨b, bs⟩
    · simp [hb]
    · have hle : bs.length + 1 ≤ (stored fd vec (.ok c)).length := by
        rw [length_stored]
        have := c.le
        rwa [hb, List.length_cons] at this
      simp [hb, bufField, getSliceLen_run _ _ hle]

theorem mapRefToSiginfo_run {bs : List UInt8} {info : Siginfo} (hi : head? bs = some info)
    {k : Kind} {n : ℕ} (hv : vec.take n = tag k bs) (fl : Flag) :
    (mapRefToSiginfo ⟨n⟩).run ⟨⟨f, timeout⟩, ⟨⟨vec, fl⟩⟩⟩ =
      .ret (.ok info, ⟨⟨f, timeout⟩, ⟨⟨vec, fl⟩⟩⟩) := by
  have hmap : (vec.take n).map Cell.byte = bs := by
    rw [hv, tag, List.map_map]
    exact List.map_id bs
  unfold head? at hi
  split_ifs at hi with h
  obtain rfl := Option.some.inj hi
  simp only [mapRefToSiginfo, run_bind, run_state, Tree.ret_bind, cont_ok, Buffer.deref, hmap]
  rw [dif_pos h]
  rfl

theorem head?_chunk {raw : RawFd} {len : ℕ} {c : Chunk (⟨.Signal, raw⟩ : Desc).kind len}
    (h : c.bytes ≠ []) : ∃ info, head? c.bytes = some info := by
  have hd := Nat.le_of_dvd (List.length_pos_iff.mpr h) (c.records rfl)
  exact ⟨_, dif_pos hd⟩

theorem matchSignalEvent_run (i : ℕ) (raw : RawFd) (events : Int16) :
    (matchSignalEvent i ⟨.Signal, raw⟩).run ⟨⟨f, timeout⟩, ⟨RefCell.new vec⟩⟩ =
      .call (.read ⟨.Signal, raw⟩ vec.length) fun ans =>
        .ret (.ok (result (.Signal raw events) i ans), ⟨⟨f, timeout⟩,
          ⟨⟨stored ⟨.Signal, raw⟩ vec ans,
            .reading (guards (result (.Signal raw events) i ans))⟩⟩⟩) := by
  rw [matchSignalEvent, run_bind, readBuf_run, Tree.call_bind]
  refine Tree.call_congr fun ans => ?_
  rcases ans with e | c
  · by_cases he : e.code = EAGAIN.code <;> simp [he, result, readError, stored, guards, RefCell.new]
  · by_cases hb : c.bytes = []
    · simp [hb, result, guards, RefCell.new]
    · obtain ⟨info, hi⟩ := head?_chunk hb
      have hlen : c.bytes.length ≠ 0 := by simpa using hb
      have hle : c.bytes.length ≤ (stored ⟨.Signal, raw⟩ vec (.ok c)).length := by
        rw [length_stored]
        exact c.le
      have hm := mapRefToSiginfo_run f timeout _ hi (take_stored ⟨.Signal, raw⟩ vec c) (.reading 1)
      obtain ⟨n, hn⟩ := Nat.exists_eq_succ_of_ne_zero hlen
      rw [hn] at hle hm
      rcases hs : Signal.tryFrom (asI32 info.ssiSigno) with e | s
      · simp only [hn, run_bind, run_zoom, bufField, getSliceLen_run _ _ hle, hm, hs,
          Tree.ret_bind, cont_ok, Buffer.dropSlice, run_update, RefCell.dropRef_one, run_pure,
          result, hb, if_false, eventOf, hi, guards]
        rfl
      · simp [hn, hb, hi, hs, bufField, getSliceLen_run _ _ hle, hm, result, eventOf, guards]

/-- **The read of a ready entry**: one call, and a result that says what came of it. -/
theorem dispatch_run (i : ℕ) {fd : Fd} (hk : fd.kind ≠ .Stdout) :
    (dispatch fd i).run ⟨⟨f, timeout⟩, ⟨RefCell.new vec⟩⟩ =
      .call (.read fd.desc vec.length) fun ans =>
        .ret (.ok (result fd i ans), ⟨⟨f, timeout⟩,
          ⟨⟨stored fd.desc vec ans, .reading (guards (result fd i ans))⟩⟩⟩) := by
  have hdata : ∀ (event : ℕ → Slice → UnixEvent),
      (∀ bs, bs ≠ [] → eventOf fd i bs = .ok (event i ⟨bs.length⟩)) →
      (∀ s, guards (.ok (event i s)) = 1) →
      (matchDataEvent event i fd.desc).run ⟨⟨f, timeout⟩, ⟨RefCell.new vec⟩⟩ =
        .call (.read fd.desc vec.length) fun ans =>
          .ret (.ok (result fd i ans), ⟨⟨f, timeout⟩,
            ⟨⟨stored fd.desc vec ans, .reading (guards (result fd i ans))⟩⟩⟩) := by
    intro event he hg
    rw [matchDataEvent_run]
    refine Tree.call_congr fun ans => ?_
    rcases ans with e | c
    · simp [result, stored, RefCell.new]
    · by_cases hb : c.bytes = []
      · simp [result, hb, guards, RefCell.new]
      · simp [result, hb, he _ hb, hg]
  cases fd with
  | Signal raw events => exact matchSignalEvent_run f timeout vec i raw events
  | Stdin _ _ _ => exact hdata .Stdin (fun _ _ => rfl) fun _ => rfl
  | Stdout _ _ => exact absurd rfl hk
  | PtyMaster _ _ _ => exact hdata .PtyMaster (fun _ _ => rfl) fun _ => rfl
  | PtySlave _ _ => exact hdata .PtySlave (fun _ _ => rfl) fun _ => rfl

/-! ### `system_event` -/

/-- `system_event` after a poll that left the array `l`: one read from the first ready entry, unless
that is stdout. -/
def afterPoll (l : List Pollfd) :
    Tree Sys Ans (Except Panic (Except UnixError UnixEvent) × UnixApp) :=
  match firstReady (fds f) l f.len 0 with
  | none => .ret (.ok (.error .PollEventNotHandle), ⟨⟨cached f l, timeout⟩, ⟨RefCell.new vec⟩⟩)
  | some (fd, i) =>
    if fd.kind = .Stdout then
      .ret (.ok (.error .PollEventNotHandle),
        ⟨⟨cached f (consume l fd), timeout⟩, ⟨RefCell.new vec⟩⟩)
    else .call (.read fd.desc vec.length) fun ans => .ret (.ok (result fd i ans),
      ⟨⟨cached f (consume l fd), timeout⟩,
        ⟨⟨stored fd.desc vec ans, .reading (guards (result fd i ans))⟩⟩⟩)

variable {f}

theorem next_run (h : Idle f) (l : List Pollfd) : ∃ it,
    Poller.reventIter.next.run (cached f l) = .ret (.ok (firstReady (fds f) l f.len 0, it),
      afterNext f l (firstReady (fds f) l f.len 0)) := by
  obtain ⟨j, hj⟩ := nextLoop_run h l f.len 0 (by rw [Nat.zero_add]; rfl)
  have hlen : (cached f l).len = f.len := rfl
  refine ⟨⟨j⟩, ?_⟩
  simp only [PollReventIterator.next, PollReventIterator.nextWith, Poller.reventIter, run_bind,
    run_state, Tree.ret_bind, cont_ok, hlen, Nat.sub_zero, hj, run_pure]

theorem pick_run (h : Idle f) (l : List Pollfd) {fd : Fd} {i : ℕ} :
    ((dispatch fd i >>= fun res => zoom fdsField (Fds.dropFd i) >>= fun _ => pure res) :
        Code UnixApp _).run ⟨⟨held (cached f l) i, timeout⟩, ⟨RefCell.new vec⟩⟩ =
      if fd.kind = .Stdout then
        .ret (.ok (.error .PollEventNotHandle), ⟨⟨cached f l, timeout⟩, ⟨RefCell.new vec⟩⟩)
      else .call (.read fd.desc vec.length) fun ans => .ret (.ok (result fd i ans),
        ⟨⟨cached f l, timeout⟩,
          ⟨⟨stored fd.desc vec ans, .reading (guards (result fd i ans))⟩⟩⟩) := by
  have hd : (Fds.dropFd i).run (held (cached f l) i) = .ret (.ok (), cached f l) :=
    dropFd_held (h.cached l) i (RefCell.new (some l))
  by_cases hk : fd.kind = .Stdout
  · cases fd <;> simp only [Fd.kind, reduceCtorEq] at hk
    simp [dispatch, Fd.kind, fdsField, hd]
  · rw [run_bind, dispatch_run _ _ _ i hk, if_neg hk, Tree.call_bind]
    simp [fdsField, hd]

/-- **`system_event`**: one poll, then at most one read. -/
theorem systemEvent_run (h : Idle f) :
    systemEvent.run ⟨⟨f, timeout⟩, ⟨RefCell.new vec⟩⟩ =
      .call (.poll ((array f).map fun x => (x.fd, x.events)) f.len timeout) fun
        | .error e => .ret (.ok (.error (.NixErrorno e)),
            ⟨⟨cached f (array f), timeout⟩, ⟨RefCell.new vec⟩⟩)
        | .ok p =>
          let l := Poller.storeRevents (array f) f.len p.revents
          if p.n = 0 then
            .ret (.ok (.ok .PollTimeout), ⟨⟨cached f l, timeout⟩, ⟨RefCell.new vec⟩⟩)
          else afterPoll f timeout vec l := by
  rw [systemEvent, run_bind, run_zoom, pollerField, poll_run h, Tree.call_bind, Tree.call_bind]
  refine Tree.call_congr fun res => ?_
  rcases res with e | p
  · simp
  · obtain ⟨it, hit⟩ := next_run h (Poller.storeRevents (array f) f.len p.revents)
    rcases hn : p.n with _ | n
    · simp [hn]
    · simp only [hn, Tree.ret_bind, cont_ok, run_bind, run_zoom, fdsField, hit, afterPoll,
        Nat.add_one_ne_zero, if_false]
      rcases hfr : firstReady (fds f) (Poller.storeRevents (array f) f.len p.revents) f.len 0 with
        _ | ⟨fd, i⟩
      · simp [afterNext]
      · exact pick_run timeout vec h _

/-- The call of `system_event` to `poll`. -/
def IsPoll (e : SysEvent) : Prop := ∃ fds nfds timeout, e.op = .poll fds nfds timeout

/-- The results of a `system_event` that reads nothing. -/
def Quiet (res : Except UnixError UnixEvent) : Prop :=
  res = .ok .PollTimeout ∨ res = .error .PollEventNotHandle ∨ ∃ e, res = .error (.NixErrorno e)

end

end SshPass.Unix.AppSpec
