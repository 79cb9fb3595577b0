import SshPass.EventLoop.Program
import SshPass.Unix.Dispatch

/-! # The loop over any registry

The loop depends on its registry through two wires: what is read from a master goes to the entry
that `stdout_index` names, and what is read from stdin to the entry that `pty_master_index` names
(`wire`). A result of `system_event` makes the loop do at most one call, its `reaction`. So over any
registry without guards an iteration is what `system_event` does (`Gets`) and the reaction to its
result (`Reacts`), and ends in a state like the one it began in (`body_exec`). -/

namespace SshPass.EventLoop.Wiring

open SshPass.Lib.CallTree SshPass.Lib.Borrow SshPass.Lib.Stateful SshPass.Lib.Stateful.Prog
open SshPass.Unix.Kernel SshPass.Unix.Registry SshPass.Unix.RegistrySpec SshPass.Unix.Indices
open SshPass.Unix.Cache SshPass.Unix.Dispatch SshPass.Unix.App SshPass.Unix.AppSpec
open SshPass.EventLoop.Program

/-! ### States -/

/-- The application over the registry `f`, with `vec` in its buffer. -/
def appOver (f : Fds) (timeout : ℤ) (vec : List Cell) : UnixApp :=
  ⟨⟨f, timeout⟩, ⟨RefCell.new vec⟩⟩

/-- The loop between two iterations. -/
def resting (f : Fds) (timeout : ℤ) (vec : List Cell) (stop : UnixAppStop) : Loop :=
  ⟨appOver f timeout vec, stop, ⟨[], true⟩⟩

/-- The loop when `system_event` has returned `res`, whose guard is live. -/
def holding (f : Fds) (timeout : ℤ) (vec : List Cell) (stop : UnixAppStop)
    (res : Except UnixError UnixEvent) : Loop :=
  ⟨⟨⟨f, timeout⟩, ⟨⟨vec, .reading (guards res)⟩⟩⟩, stop, ⟨[], true⟩⟩

/-! ### Wires -/

/-- The descriptor a write by kind goes to. -/
def target (f : Fds) (k : Kind) : Option Desc :=
  (index f k).bind fun i => (fds f)[i]?.map Fd.desc

/-- The kind main writes to when it has read from a descriptor of a kind. -/
def outlet : Kind → Option Kind
  | .PtyMaster => some .Stdout
  | .Stdin => some .PtyMaster
  | _ => none

/-- Where the loop sends what it reads from the descriptors of a kind. -/
def wire (f : Fds) (k : Kind) : Option Desc := (outlet k).bind (target f)

/-- One write to `d`, if there is such a descriptor. -/
def offer {α : Type} (d : Option Desc) (buf : List Cell) (x : α) : Tree Sys Ans α :=
  match d with
  | none => .ret x
  | some d => .call (.write d buf) fun _ => .ret x

variable {f : Fds} (timeout : ℤ) (vec : List Cell) (stop : UnixAppStop)

theorem sendTo_offer (h : Idle f) (i : ℕ) (buf : List Cell) :
    (Fds.sendTo i buf).run f = offer ((fds f)[i]?.map Fd.desc) buf (.ok (), f) := by
  rcases hi : (fds f)[i]? with _ | fd
  · have hnone : f.inner[i]? = none := by
      rw [List.getElem?_eq_none_iff] at hi ⊢
      rwa [length_fds] at hi
    simp [Fds.sendTo, hnone, offer]
  · rw [sendTo_run (h.cell hi)]
    rfl

/-- **A write by kind** is one write to the target, or none. -/
theorem write_run (h : Idle f) {k : Kind} {w : List Cell → Code Fds Unit} (hw : writer k = some w)
    (buf : List Cell) : (w buf).run f = offer (target f k) buf (.ok (), f) := by
  rw [writer_run hw, target]
  rcases index f k with _ | i
  · rfl
  · exact sendTo_offer h i buf

/-! ### The reaction to a result -/

/-- The code and the text of the shutdown an error starts. -/
def request : UnixError → ℤ × String
  | .StdIoError e => (1, "IO Error: " ++ e.text)
  | .NixErrorno e => (2, "Nix Error: " ++ e.text)
  | .PollEventNotHandle => (3, "the poll event not handle")

/-- The call with which the loop handles a result. -/
def reaction (f : Fds) (vec : List Cell) : Except UnixError UnixEvent → Option Sys
  | .ok (.PtyMaster _ buf) => (wire f .PtyMaster).map fun d => .write d (vec.take buf.len)
  | .ok (.Stdin _ buf) => (wire f .Stdin).map fun d => .write d (vec.take buf.len)
  | .ok (.Signal _ sig siginfo) =>
    if sig = .SIGINT ∨ sig = .SIGTERM then some .now
    else if sig = .SIGCHLD then some (.waitpid (asI32 siginfo.ssiPid)) else none
  | .error _ => some .now
  | _ => none

/-- The shutdown a result asks for: its code and its text. -/
def asked : Except UnixError UnixEvent → Option (ℤ × Option String)
  | .ok (.Signal _ sig _) => if sig = .SIGINT ∨ sig = .SIGTERM then some (0, none) else none
  | .ok _ => none
  | .error e => some ((request e).1, some (request e).2)

/-- The shutdown state after the reaction to a result. -/
def restop (stop : UnixAppStop) (res : Except UnixError UnixEvent) : (o : Sys) → Ans o → UnixAppStop
  | .now, now =>
    match asked res with
    | some (code, text) => stop.shutdownStarting now code text
    | none => stop
  | _, _ => stop

/-- The code a result breaks the loop with. -/
def breaks (stop : UnixAppStop) : Except UnixError UnixEvent → Option ℤ
  | .ok .PollTimeout => if stop.isStoped then some stop.stopCode else none
  | _ => none

/-- The reaction to a result, and the loop after it. -/
def react (f : Fds) (timeout : ℤ) (vec : List Cell) (stop : UnixAppStop)
    (res : Except UnixError UnixEvent) : Tree Sys Ans (Except Panic (Option ℤ) × Loop) :=
  match reaction f vec res with
  | none => .ret (.ok (breaks stop res), resting f timeout vec stop)
  | some o => .call o fun a => .ret (.ok none, resting f timeout vec (restop stop res o a))

theorem respond_run (h : Idle f) {k : Kind} {w : List Cell → Code Fds Unit} (hw : writer k = some w)
    {out : UnixEventResponse} {buf : Slice}
    (hout : Loop.respond out = do
      let s ← state
      zoom UnixApp.fdsField (w (s.buf.deref buf))) (c : RefCell (List Cell)) :
    (Loop.respond out).run ⟨⟨f, timeout⟩, ⟨c⟩⟩ =
      offer (target f k) (c.value.take buf.len) (.ok (), ⟨⟨f, timeout⟩, ⟨c⟩⟩) := by
  have hwrite := write_run h hw (c.value.take buf.len)
  rw [hout]
  simp only [run_bind, run_state, Tree.ret_bind, cont_ok, run_zoom, UnixApp.fdsField,
    Buffer.deref, hwrite]
  rcases target f k with _ | d <;> rfl

theorem handle_send {res : Except UnixError UnixEvent} {out : UnixEventResponse} {d : Option Desc}
    {buf : List Cell} (hm : Loop.matchEvent res = (do Loop.send out; return none))
    (h : (Loop.respond out).run ⟨⟨f, timeout⟩, ⟨⟨vec, .reading 1⟩⟩⟩ =
      offer d buf (.ok (), ⟨⟨f, timeout⟩, ⟨⟨vec, .reading 1⟩⟩⟩)) :
    (Loop.handle res).run ⟨⟨⟨f, timeout⟩, ⟨⟨vec, .reading 1⟩⟩⟩, stop, ⟨[], true⟩⟩ =
      offer d buf (.ok none, resting f timeout vec stop) := by
  rcases d with _ | d <;>
    simp [Loop.handle, hm, Loop.send, Loop.tryIter, Loop.tryIterLoop, Loop.appField,
      Loop.dropGuard, UnixApp.bufField, Buffer.dropSlice, h, offer] <;> rfl

theorem react_offer {k : Kind} {buf : Slice} {res : Except UnixError UnixEvent}
    (hr : reaction f vec res = (wire f k).map fun d => .write d (vec.take buf.len))
    (hb : breaks stop res = none) : react f timeout vec stop res =
      offer (wire f k) (vec.take buf.len) (.ok none, resting f timeout vec stop) := by
  rw [react, hr]
  rcases wire f k with _ | d
  · simp only [Option.map_none, hb, offer]
  · rfl

/-- **The loop handles a result** by its reaction, drains the channel and drops every guard. -/
theorem handle_run (h : Idle f) : ∀ res, (Loop.handle res).run (holding f timeout vec stop res) =
    react f timeout vec stop res
  | .ok (.PtyMaster i buf) => by
    rw [react_offer timeout vec stop (k := .PtyMaster) rfl rfl]
    exact handle_send timeout vec stop rfl (respond_run timeout h (k := .Stdout) rfl rfl _)
  | .ok (.Stdin i buf) => by
    rw [react_offer timeout vec stop (k := .Stdin) rfl rfl]
    exact handle_send timeout vec stop rfl (respond_run timeout h (k := .PtyMaster) rfl rfl _)
  | .ok (.PtySlave i buf) => rfl
  | .ok .ReadZeroBytes => rfl
  | .ok .PollTimeout => by
    rcases hs : stop.isStoped <;>
      simp [Loop.handle, Loop.matchEvent, holding, hs, react, reaction, breaks, Loop.tryIter,
        Loop.tryIterLoop] <;> rfl
  | .ok (.Signal i sig siginfo) => by
    by_cases hs : sig = .SIGINT ∨ sig = .SIGTERM
    · have hc : sig ≠ .SIGCHLD := by rintro rfl; simp at hs
      simp [Loop.handle, Loop.matchEvent, Loop.shutdownStarting, Loop.dropGuard, Loop.appField,
        UnixApp.bufField, Buffer.dropSlice, holding, guards, react, reaction, hs, hc, restop, asked]
      rfl
    · by_cases hc : sig = .SIGCHLD
      · simp [Loop.handle, Loop.matchEvent, Loop.dropGuard, Loop.appField, UnixApp.bufField,
          Buffer.dropSlice, holding, guards, react, reaction, hc]
        rfl
      · simp [Loop.handle, Loop.matchEvent, Loop.dropGuard, Loop.appField, UnixApp.bufField,
          Buffer.dropSlice, holding, guards, react, reaction, hs, hc]
        rfl
  | .error (.StdIoError e) => by
    simp [Loop.handle, Loop.matchEvent, Loop.shutdownStarting, holding, react, reaction]
    rfl
  | .error (.NixErrorno e) => by
    simp [Loop.handle, Loop.matchEvent, Loop.shutdownStarting, holding, react, reaction]
    rfl
  | .error .PollEventNotHandle => by
    simp [Loop.handle, Loop.matchEvent, Loop.shutdownStarting, holding, react, reaction]
    rfl

/-! ### What `system_event` does -/

/-- The poll of the loop. -/
def polls (f : Fds) (timeout : ℤ) (ans : Except Errno Polled) : SysEvent :=
  ⟨.poll ((array f).map fun x => (x.fd, x.events)) f.len timeout, ans⟩

/-- The array after a poll that returned `p`. -/
def arrayAfter (f : Fds) (p : Polled) : List Pollfd :=
  Poller.storeRevents (array f) f.len p.revents

/-- What `system_event` may do: its calls, its result, and the array and the buffer it leaves. -/
inductive Gets (f : Fds) (timeout : ℤ) (vec : List Cell) :
    List SysEvent → Except UnixError UnixEvent → List Pollfd → List Cell → Prop
  | fails (e : Errno) :
      Gets f timeout vec [polls f timeout (.error e)] (.error (.NixErrorno e)) (array f) vec
  | times (p : Polled) (hp : p.n = 0) :
      Gets f timeout vec [polls f timeout (.ok p)] (.ok .PollTimeout) (arrayAfter f p) vec
  | nothing (p : Polled) (hp : p.n ≠ 0) (hf : firstReady (fds f) (arrayAfter f p) f.len 0 = none) :
      Gets f timeout vec [polls f timeout (.ok p)] (.error .PollEventNotHandle) (arrayAfter f p) vec
  | stdout (p : Polled) (hp : p.n ≠ 0) (fd : Fd) (i : ℕ)
      (hf : firstReady (fds f) (arrayAfter f p) f.len 0 = some (fd, i)) (hk : fd.kind = .Stdout) :
      Gets f timeout vec [polls f timeout (.ok p)] (.error .PollEventNotHandle)
        (consume (arrayAfter f p) fd) vec
  | reads (p : Polled) (hp : p.n ≠ 0) (fd : Fd) (i : ℕ)
      (hf : firstReady (fds f) (arrayAfter f p) f.len 0 = some (fd, i)) (hk : fd.kind ≠ .Stdout)
      (ans : Except Errno (Chunk fd.kind vec.length)) :
      Gets f timeout vec [polls f timeout (.ok p), ⟨.read fd.desc vec.length, ans⟩]
        (result fd i ans) (consume (arrayAfter f p) fd) (stored fd.desc vec ans)

variable {timeout vec stop}
variable {t t₁ t₂ : List SysEvent} {res : Except UnixError UnixEvent} {l : List Pollfd}
  {vec' : List Cell}

theorem Gets.length_eq (h : Gets f timeout vec t res l vec') : vec'.length = vec.length := by
  cases h with
  | reads p hp fd i hf hk ans => exact length_stored fd.desc vec ans
  | _ => rfl

theorem Gets.exists_poll (h : Gets f timeout vec t res l vec') :
    ∃ ans rest, t = polls f timeout ans :: rest ∧ ∀ e ∈ rest, ∃ fd ∈ fds f,
      fd.kind ≠ .Stdout ∧ e.op = .read fd.desc vec.length := by
  cases h with
  | reads p hp fd i hf hk ans =>
    refine ⟨.ok p, [_], rfl, fun e he => ?_⟩
    obtain rfl := List.mem_singleton.mp he
    exact ⟨fd, List.mem_of_getElem? (firstReady_some hf), hk, rfl⟩
  | _ => exact ⟨_, [], rfl, by simp⟩

/-- **`system_event`** over an idle registry. -/
theorem systemEvent_iff (h : Idle f) {x : Except Panic (Except UnixError UnixEvent) × UnixApp} :
    (UnixApp.systemEvent.run (appOver f timeout vec)).Exec t x ↔
      ∃ res l vec', Gets f timeout vec t res l vec' ∧
        x = (.ok res, ⟨⟨cached f l, timeout⟩, ⟨⟨vec', .reading (guards res)⟩⟩⟩) := by
  rw [appOver, systemEvent_run timeout vec h]
  constructor
  · rintro ⟨e | p, t', rfl, he⟩
    · obtain ⟨rfl, rfl⟩ := he
      exact ⟨_, _, _, .fails e, rfl⟩
    · simp only at he
      split_ifs at he with hn
      · obtain ⟨rfl, rfl⟩ := he
        exact ⟨_, _, _, .times p hn, rfl⟩
      unfold afterPoll at he
      rcases hf : firstReady (fds f) (Poller.storeRevents (array f) f.len p.revents) f.len 0 with
        _ | ⟨fd, i⟩ <;> simp only [hf] at he
      · obtain ⟨rfl, rfl⟩ := he
        exact ⟨_, _, _, .nothing p hn hf, rfl⟩
      split_ifs at he with hk
      · obtain ⟨rfl, rfl⟩ := he
        exact ⟨_, _, _, .stdout p hn fd i hf hk, rfl⟩
      · obtain ⟨ans, _, rfl, rfl, rfl⟩ := he
        exact ⟨_, _, _, .reads p hn fd i hf hk ans, rfl⟩
  · rintro ⟨res, l, vec', hg, rfl⟩
    cases hg with
    | fails e => exact ⟨.error e, [], rfl, rfl, rfl⟩
    | times p hn => exact ⟨.ok p, [], rfl, by simp only [hn, if_true]; exact ⟨rfl, rfl⟩⟩
    | nothing p hn hf =>
      refine ⟨.ok p, [], rfl, ?_⟩
      rw [arrayAfter] at hf
      simp only [hn, if_false, afterPoll, hf]
      exact ⟨rfl, rfl⟩
    | stdout p hn fd i hf hk =>
      refine ⟨.ok p, [], rfl, ?_⟩
      rw [arrayAfter] at hf
      simp only [hn, if_false, afterPoll, hf, hk, if_true]
      exact ⟨rfl, rfl⟩
    | reads p hn fd i hf hk ans =>
      refine ⟨.ok p, _, rfl, ?_⟩
      rw [arrayAfter] at hf
      simp only [hn, if_false, afterPoll, hf, hk]
      exact ⟨ans, [], rfl, rfl, rfl⟩

/-! ### One iteration -/

theorem event_iff (h : Idle f) {x : Except Panic (Except UnixError UnixEvent) × Loop} :
    ((zoom Loop.appField UnixApp.systemEvent).run (resting f timeout vec stop)).Exec t x ↔
      ∃ res l vec', Gets f timeout vec t res l vec' ∧
        x = (.ok res, holding (cached f l) timeout vec' stop res) := by
  rw [run_zoom, Tree.exec_bind]
  constructor
  · rintro ⟨t₁, _, x', rfl, he, rfl, rfl⟩
    obtain ⟨res, l, vec', hg, rfl⟩ := (systemEvent_iff h).mp he
    rw [List.append_nil]
    exact ⟨res, l, vec', hg, rfl⟩
  · rintro ⟨res, l, vec', hg, rfl⟩
    have hnil : t = t ++ [] := (List.append_nil t).symm
    exact ⟨t, [], _, hnil, (systemEvent_iff h).mpr ⟨res, l, vec', hg, rfl⟩, rfl, rfl⟩

/-- **One iteration** of the loop: `system_event`, and the reaction to its result. -/
theorem body_iff (h : Idle f) {x : Except Panic (Option ℤ) × Loop} :
    (Loop.body.run (resting f timeout vec stop)).Exec t x ↔
      ∃ t₁ t₂ res l vec', t = t₁ ++ t₂ ∧ Gets f timeout vec t₁ res l vec' ∧
        (react (cached f l) timeout vec' stop res).Exec t₂ x := by
  rw [Loop.body, exec_bind]
  constructor
  · rintro (⟨e, s', he, -⟩ | ⟨t₁, t₂, res, s', rfl, he, hh⟩)
    · obtain ⟨_, _, _, -, hx⟩ := (event_iff h).mp he
      simp at hx
    · obtain ⟨res', l, vec', hg, hx⟩ := (event_iff h).mp he
      simp only [Prod.mk.injEq, Except.ok.injEq] at hx
      obtain ⟨rfl, rfl⟩ := hx
      rw [handle_run timeout vec' stop (h.cached l)] at hh
      exact ⟨t₁, t₂, res, l, vec', rfl, hg, hh⟩
  · rintro ⟨t₁, t₂, res, l, vec', rfl, hg, hh⟩
    refine .inr ⟨t₁, t₂, res, _, rfl, (event_iff h).mpr ⟨res, l, vec', hg, rfl⟩, ?_⟩
    rwa [handle_run timeout vec' stop (h.cached l)]

/-- The body of the loop after a poll that left the array `l`. -/
def serve (f : Fds) (timeout : ℤ) (vec : List Cell) (stop : UnixAppStop) (l : List Pollfd) :
    Tree Sys Ans (Except Panic (Option ℤ) × Loop) :=
  match firstReady (fds f) l f.len 0 with
  | none => react (cached f l) timeout vec stop (.error .PollEventNotHandle)
  | some (fd, i) =>
    if fd.kind = .Stdout then
      react (cached f (consume l fd)) timeout vec stop (.error .PollEventNotHandle)
    else .call (.read fd.desc vec.length) fun ans =>
      react (cached f (consume l fd)) timeout (stored fd.desc vec ans) stop (result fd i ans)

/-- **The body of the loop**: a poll, at most one read, and the reaction to the result. -/
theorem body_run (h : Idle f) (timeout : ℤ) (vec : List Cell) (stop : UnixAppStop) :
    Loop.body.run (resting f timeout vec stop) =
      .call (.poll ((array f).map fun x => (x.fd, x.events)) f.len timeout) fun
        | .error e => react (cached f (array f)) timeout vec stop (.error (.NixErrorno e))
        | .ok p =>
          if p.n = 0 then react (cached f (arrayAfter f p)) timeout vec stop (.ok .PollTimeout)
          else serve f timeout vec stop (arrayAfter f p) := by
  have hs := systemEvent_run timeout vec h
  have hhandle : ∀ l res vec', (Loop.handle res).run (holding (cached f l) timeout vec' stop res) =
      react (cached f l) timeout vec' stop res := fun l res vec' =>
    handle_run timeout vec' stop (h.cached l) res
  rw [Loop.body, run_bind, run_zoom]
  have happ : Loop.appField.get (resting f timeout vec stop) =
      ⟨⟨f, timeout⟩, ⟨RefCell.new vec⟩⟩ := rfl
  rw [happ, hs, Tree.call_bind, Tree.call_bind]
  refine Tree.call_congr fun ans => ?_
  rcases ans with e | p
  · exact hhandle _ _ _
  · simp only [arrayAfter]
    split_ifs with hn
    · exact hhandle _ _ _
    · unfold afterPoll serve
      rcases firstReady (fds f) _ f.len 0 with _ | ⟨fd, i⟩
      · exact hhandle _ _ _
      · simp only
        split_ifs with hk
        · exact hhandle _ _ _
        · rw [Tree.call_bind, Tree.call_bind]
          refine Tree.call_congr fun ans => ?_
          exact hhandle _ _ _

/-- The calls of a reaction, and the shutdown state after it. -/
inductive Reacts (f : Fds) (vec : List Cell) (stop : UnixAppStop)
    (res : Except UnixError UnixEvent) : List SysEvent → UnixAppStop → Prop
  | silent (h : reaction f vec res = none) : Reacts f vec stop res [] stop
  | calls {o : Sys} (a : Ans o) (h : reaction f vec res = some o) :
      Reacts f vec stop res [⟨o, a⟩] (restop stop res o a)

theorem isStoped_restop (hstop : stop.isStoped = false) (o : Sys) (a : Ans o) :
    (restop stop res o a).isStoped = false := by
  cases o with
  | now =>
    simp only [restop]
    rcases asked res with _ | ⟨code, text⟩
    · exact hstop
    · rfl
  | _ => exact hstop

theorem breaks_eq_none (hstop : stop.isStoped = false) : breaks stop res = none := by
  unfold breaks
  split
  · rw [if_neg (by simp [hstop])]
  · rfl

theorem react_iff (hstop : stop.isStoped = false) {x : Except Panic (Option ℤ) × Loop} :
    (react f timeout vec stop res).Exec t x ↔ ∃ stop', Reacts f vec stop res t stop' ∧
      stop'.isStoped = false ∧ x = (.ok none, resting f timeout vec stop') := by
  rw [react, breaks_eq_none hstop]
  rcases hr : reaction f vec res with _ | o
  · constructor
    · rintro ⟨rfl, rfl⟩
      exact ⟨stop, .silent hr, hstop, rfl⟩
    · rintro ⟨stop', hreacts, -, rfl⟩
      cases hreacts with
      | silent => exact ⟨rfl, rfl⟩
      | calls a h => simp [hr] at h
  · constructor
    · rintro ⟨a, _, rfl, rfl, rfl⟩
      exact ⟨_, .calls a hr, isStoped_restop hstop o a, rfl⟩
    · rintro ⟨stop', hreacts, -, rfl⟩
      cases hreacts with
      | silent h => simp [hr] at h
      | @calls o' a h =>
        obtain rfl : o = o' := Option.some.inj (hr.symm.trans h)
        exact ⟨a, [], rfl, rfl, rfl⟩

/-! ### What is done with what is read -/

/-- The call moves no data: the clock or `waitpid`. -/
def IsAside (o : Sys) : Prop := o = .now ∨ ∃ pid, o = .waitpid pid

theorem outlet_eq_none {k : Kind} : outlet k = none ↔ k ≠ .PtyMaster ∧ k ≠ .Stdin := by
  cases k <;> simp [outlet]

/-- A chunk of data at the front of the buffer is written to the end of its wire. -/
theorem reaction_taken {fd : Fd} {i m : ℕ} {c : Chunk fd.kind m} (hc : c.bytes ≠ [])
    (htake : vec.take c.bytes.length = tag fd.kind c.bytes) (hk : outlet fd.kind ≠ none) :
    reaction f vec (result fd i (.ok c)) =
      (wire f fd.kind).map fun d => .write d (tag fd.kind c.bytes) := by
  rw [result, if_neg hc]
  cases fd with
  | Stdin raw events termios => simp only [eventOf, reaction]; rw [htake]; rfl
  | PtyMaster raw events child => simp only [eventOf, reaction]; rw [htake]; rfl
  | _ => exact absurd rfl hk

theorem reaction_data {fd : Fd} {i : ℕ} {c : Chunk fd.kind vec.length} (hc : c.bytes ≠ [])
    (hk : outlet fd.kind ≠ none) :
    reaction f (stored fd.desc vec (.ok c)) (result fd i (.ok c)) =
      (wire f fd.kind).map fun d => .write d (tag fd.kind c.bytes) :=
  reaction_taken hc (take_stored fd.desc vec c) hk

/-- Anything else that a read returns moves nothing. -/
theorem reaction_aside {fd : Fd} {i : ℕ} {ans : Except Errno (Chunk fd.kind vec.length)}
    (h : ∀ c, ans = .ok c → c.bytes ≠ [] → outlet fd.kind = none) {o : Sys}
    (ho : reaction f vec' (result fd i ans) = some o) : IsAside o := by
  have herror : ∀ {e : UnixError}, reaction f vec' (.error e) = some o → IsAside o := by
    rintro e ho
    exact .inl (Option.some.inj ho).symm
  rcases ans with e | c
  · rw [result, readError] at ho
    split_ifs at ho with he
    · simp [reaction] at ho
    · exact herror ho
  · by_cases hb : c.bytes = []
    · rw [result, if_pos hb] at ho
      simp [reaction] at ho
    rw [result, if_neg hb] at ho
    have hk := outlet_eq_none.mp (h c rfl hb)
    cases fd with
    | Signal raw events =>
      simp only [eventOf] at ho
      split at ho
      · simp [reaction] at ho
      split at ho
      · exact herror ho
      · simp only [reaction] at ho
        split_ifs at ho with hs hchld
        · exact .inl (Option.some.inj ho).symm
        · exact .inr ⟨_, (Option.some.inj ho).symm⟩
    | PtySlave raw events => simp [eventOf, reaction] at ho
    | Stdout raw events => exact herror ho
    | PtyMaster raw events child => exact absurd rfl hk.1
    | Stdin raw events termios => exact absurd rfl hk.2

/-- **The reaction to a read** moves nothing, or writes the chunk to the end of its wire. -/
theorem reaction_read {fd : Fd} {i : ℕ} {ans : Except Errno (Chunk fd.kind vec.length)} {o : Sys}
    (ho : reaction f (stored fd.desc vec ans) (result fd i ans) = some o) : IsAside o ∨
      ∃ c d, ans = .ok c ∧ c.bytes ≠ [] ∧ wire f fd.kind = some d ∧
        o = .write d (tag fd.kind c.bytes) := by
  by_cases hdata : ∀ c, ans = .ok c → c.bytes ≠ [] → outlet fd.kind = none
  · exact .inl (reaction_aside hdata ho)
  · push Not at hdata
    obtain ⟨c, rfl, hc, hout⟩ := hdata
    have hdata := reaction_data (f := f) (i := i) hc hout
    obtain ⟨d, hd, rfl⟩ := Option.map_eq_some_iff.mp (hdata.symm.trans ho)
    exact .inr ⟨c, d, rfl, hc, hd, rfl⟩

theorem reaction_quiet {res : Except UnixError UnixEvent} (h : Quiet res) {o : Sys}
    (ho : reaction f vec res = some o) : IsAside o := by
  obtain rfl | rfl | ⟨e, rfl⟩ := h
  · simp [reaction] at ho
  · exact .inl (Option.some.inj ho).symm
  · exact .inl (Option.some.inj ho).symm

theorem reaction_ne_read {o : Sys} : ∀ {res : Except UnixError UnixEvent},
    reaction f vec res = some o → ∀ d n, o ≠ .read d n
  | .ok (.PtyMaster _ _), ho, d, n | .ok (.Stdin _ _), ho, d, n => by
    obtain ⟨_, -, rfl⟩ := Option.map_eq_some_iff.mp ho
    simp
  | .ok (.Signal _ sig siginfo), ho, d, n => by
    simp only [reaction] at ho
    split_ifs at ho <;> obtain rfl := Option.some.inj ho <;> simp
  | .error _, ho, d, n => by
    obtain rfl := Option.some.inj ho
    simp

theorem reaction_write {d : Desc} {buf : List Cell} : ∀ {res : Except UnixError UnixEvent},
    reaction f vec res = some (.write d buf) → ∃ k, wire f k = some d
  | .ok (.PtyMaster _ _), ho | .ok (.Stdin _ _), ho => by
    obtain ⟨d', hd', heq⟩ := Option.map_eq_some_iff.mp ho
    obtain ⟨rfl, -⟩ := Sys.write.inj heq
    exact ⟨_, hd'⟩
  | .ok (.Signal _ sig siginfo), ho => by
    simp only [reaction] at ho
    split_ifs at ho <;> simp at ho
  | .error _, ho => by simp [reaction] at ho

/-- The clock is asked exactly by the results that request a shutdown. -/
theorem reaction_now : ∀ {res : Except UnixError UnixEvent},
    reaction f vec res = some .now ↔ asked res ≠ none
  | .ok (.PtyMaster _ buf) => by
    simp only [reaction, asked]
    rcases wire f .PtyMaster <;> simp
  | .ok (.Stdin _ buf) => by
    simp only [reaction, asked]
    rcases wire f .Stdin <;> simp
  | .ok (.PtySlave _ _) | .ok .ReadZeroBytes | .ok .PollTimeout => by simp [reaction, asked]
  | .ok (.Signal _ sig siginfo) => by
    simp only [reaction, asked]
    split_ifs <;> simp
  | .error e => by simp [reaction, asked]

theorem Reacts.not_read {stop' : UnixAppStop} (h : Reacts f vec stop res t stop') :
    ∀ e ∈ t, ∀ d n, e.op ≠ .read d n := by
  cases h with
  | silent => simp
  | calls a ho => simpa using reaction_ne_read ho

/-! ### Runs -/

/-- The registry with another array in its cache. -/
def withCache (f : Fds) (c : Option (List Pollfd)) : Fds := { f with pollfds := RefCell.new c }

/-- Between two iterations over the registry `f`, with a buffer of `n` bytes. -/
def Rested (f : Fds) (timeout : ℤ) (n : ℕ) (s : Loop) : Prop := ∃ c vec stop,
  s = resting (withCache f c) timeout vec stop ∧ vec.length = n ∧ stop.isStoped = false ∧
    Coherent (withCache f c)

variable {c : Option (List Pollfd)} {n : ℕ} {s s' : Loop} {ts : List (List SysEvent)}

theorem idle_withCache (h : Idle f) (c : Option (List Pollfd)) : Idle (withCache f c) :=
  ⟨rfl, h.inner⟩

theorem withCache_value (h : Idle f) : withCache f f.pollfds.value = f := by
  rw [withCache, ← h.pollfds.eq_new]

theorem target_withCache (f : Fds) (c : Option (List Pollfd)) (k : Kind) :
    target (withCache f c) k = target f k := by
  have hindex : index (withCache f c) k = index f k := by cases k <;> rfl
  rw [target, hindex]
  rfl

@[simp] theorem wire_withCache (f : Fds) (c : Option (List Pollfd)) (k : Kind) :
    wire (withCache f c) k = wire f k := by
  rw [wire, wire, funext (target_withCache f c)]

theorem Gets.describes (h : Gets f timeout vec t res l vec') (hc : Coherent f) :
    Describes (fds f) l := by
  have hafter : ∀ p, Describes (fds f) (arrayAfter f p) :=
    fun p => hc.describes_array.storeRevents _ _
  cases h with
  | fails e => exact hc.describes_array
  | times p hp => exact hafter p
  | nothing p hp hf => exact hafter p
  | stdout p hp fd i hf hk => exact describes_consume (hafter p) fd
  | reads p hp fd i hf hk ans => exact describes_consume (hafter p) fd

theorem coherent_withCache (h : Describes (fds f) l) : Coherent (withCache f (some l)) := by
  intro l' hl'
  obtain rfl : l = l' := Option.some.inj hl'
  exact h

/-- **One iteration between two rests**: what is got, the reaction to it, and the next rest. -/
theorem body_exec (h : Idle f) (hs : Rested f timeout n s) {x : Except Panic (Option ℤ) × Loop}
    (hx : (Loop.body.run s).Exec t x) : ∃ c vec t₁ t₂ res l vec' stop stop',
      s = resting (withCache f c) timeout vec stop ∧ vec.length = n ∧ Coherent (withCache f c) ∧
      t = t₁ ++ t₂ ∧ Gets (withCache f c) timeout vec t₁ res l vec' ∧
      Reacts (withCache f c) vec' stop res t₂ stop' ∧
      x = (.ok none, resting (withCache f (some l)) timeout vec' stop') ∧
      Rested f timeout n (resting (withCache f (some l)) timeout vec' stop') := by
  obtain ⟨c, vec, stop, rfl, hlen, hstop, hc⟩ := hs
  obtain ⟨t₁, t₂, res, l, vec', rfl, hg, hr⟩ := (body_iff (idle_withCache h c)).mp hx
  obtain ⟨stop', hreacts, hstop', rfl⟩ := (react_iff hstop).mp hr
  have hreacts' : Reacts (withCache f c) vec' stop res t₂ stop' := by
    cases hreacts with
    | silent h => exact .silent h
    | calls a h => exact .calls a h
  have hdesc : Describes (fds f) l := hg.describes hc
  exact ⟨c, vec, t₁, t₂, res, l, vec', stop, stop', rfl, hlen, hc, rfl, hg, hreacts', rfl, l, vec',
    stop', rfl, hg.length_eq.trans hlen, hstop', coherent_withCache hdesc⟩

/-- **Every run** is between two rests. -/
theorem runs_rested (h : Idle f) (hc : Coherent f) {zero : List Cell}
    (hr : Runs (appOver f timeout zero) ts s) : Rested f timeout zero.length s := by
  refine Runs.invariant (P := fun _ s => Rested f timeout zero.length s) ?_ ?_ hr
  · refine ⟨f.pollfds.value, zero, UnixAppStop.new, ?_, rfl, rfl, ?_⟩ <;>
      rw [withCache_value h]
    · rfl
    · exact hc
  · intro ts s t s' hs hb
    obtain ⟨_, _, _, _, _, _, _, _, _, -, -, -, -, -, -, hx, hs'⟩ := body_exec h hs hb
    obtain ⟨-, rfl⟩ := Prod.mk.inj hx
    exact hs'

theorem turn_exec (h : Idle f) (hs : Rested f timeout n s) {s₁ : Loop}
    (he : ((zoom Loop.appField UnixApp.systemEvent).run s).Exec t₁ (.ok res, s₁))
    (hh : ((Loop.handle res).run s₁).Exec t₂ (.ok none, s')) : ∃ c vec vec' l,
      vec.length = n ∧ Gets (withCache f c) timeout vec t₁ res l vec' ∧
      Reacts (withCache f c) vec' s.stop res t₂ s'.stop ∧ Rested f timeout n s' := by
  obtain ⟨c, vec, stop, rfl, hlen, hstop, hc⟩ := hs
  obtain ⟨res', l, vec', hg, hx⟩ := (event_iff (idle_withCache h c)).mp he
  obtain ⟨hres, rfl⟩ := Prod.mk.inj hx
  obtain rfl := Except.ok.inj hres
  rw [handle_run timeout vec' stop ((idle_withCache h c).cached l)] at hh
  obtain ⟨stop', hreacts, hstop', hx⟩ := (react_iff hstop).mp hh
  obtain ⟨-, rfl⟩ := Prod.mk.inj hx
  have hreacts' : Reacts (withCache f c) vec' stop res t₂ stop' := by
    cases hreacts with
    | silent h => exact .silent h
    | calls a h => exact .calls a h
  have hdesc : Describes (fds f) l := hg.describes hc
  exact ⟨c, vec, vec', l, hlen, hg, hreacts', l, vec', stop', rfl, hg.length_eq.trans hlen, hstop',
    coherent_withCache hdesc⟩

/-! ### Iterations that may happen -/

theorem reads_exec {f : Fds} (h : Idle f) (timeout : ℤ) {vec : List Cell} {n : ℕ}
    (hlen : vec.length = n) {stop : UnixAppStop} (p : Polled) (hp : p.n ≠ 0) (fd : Fd) {i : ℕ}
    (hf : firstReady (fds f) (arrayAfter f p) f.len 0 = some (fd, i)) (hk : fd.kind ≠ .Stdout)
    (ans : Except Errno (Chunk fd.kind n)) {t : List SysEvent} (ht : ∀ l vec',
      (∀ c, ans = .ok c → vec'.take c.bytes.length = tag fd.kind c.bytes) →
        ∃ s', (react (cached f l) timeout vec' stop (result fd i ans)).Exec t (.ok none, s')) :
    ∃ s', (Loop.body.run (resting f timeout vec stop)).Exec
      (polls f timeout (.ok p) :: ⟨.read fd.desc n, ans⟩ :: t) (.ok none, s') := by
  subst hlen
  obtain ⟨s', hreact⟩ := ht (consume (arrayAfter f p) fd) (stored fd.desc vec ans) (by
    rintro c rfl
    exact take_stored fd.desc vec c)
  exact ⟨s', (body_iff h).mpr ⟨[_, _], t, _, _, _, rfl, .reads p hp fd i hf hk ans, hreact⟩⟩

theorem relays_exec {f : Fds} (h : Idle f) (timeout : ℤ) {vec : List Cell} {n : ℕ}
    (hlen : vec.length = n) {stop : UnixAppStop} (hstop : stop.isStoped = false) (p : Polled)
    (hp : p.n ≠ 0) (fd : Fd) {i : ℕ}
    (hf : firstReady (fds f) (arrayAfter f p) f.len 0 = some (fd, i)) (c : Chunk fd.kind n)
    (hc : c.bytes ≠ []) {d : Desc} (hd : wire f fd.kind = some d)
    (w : Ans (.write d (tag fd.kind c.bytes))) :
    ∃ s', (Loop.body.run (resting f timeout vec stop)).Exec
      [polls f timeout (.ok p), ⟨.read fd.desc n, .ok c⟩, ⟨.write d (tag fd.kind c.bytes), w⟩]
      (.ok none, s') := by
  have hk : fd.kind ≠ .Stdout := by
    intro hk
    simp [hk, wire, outlet] at hd
  refine reads_exec h timeout hlen p hp fd hf hk (.ok c) fun l vec' hvec => ?_
  have hwire : wire (cached f l) fd.kind = some d := (wire_withCache f _ _).trans hd
  have hreaction : reaction (cached f l) vec' (result fd i (.ok c)) =
      some (.write d (tag fd.kind c.bytes)) := by
    rw [reaction_taken hc (hvec c rfl) fun hout => by simp [wire, hout] at hd, hwire]
    rfl
  exact ⟨_, (react_iff hstop).mpr ⟨_, .calls w hreaction, isStoped_restop hstop _ w, rfl⟩⟩

end SshPass.EventLoop.Wiring
