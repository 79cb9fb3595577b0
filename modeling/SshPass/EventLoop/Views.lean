import SshPass.EventLoop.Footprint
import SshPass.Lib.Transition

/-! # Views of the buffer

An event shows its bytes by a view of the one buffer of the application, and a response keeps the
view until it is written. Main keeps one view at most, within an iteration (`runs_client`). A
`Client` keeps any number of them, and gets events, sends responses, drops views and writes out what
it has sent in any order. In every order a response is written with the bytes its event was read
with (`flush_iff`), as a read panics while a view is kept (`reads_iff_unviewed`). -/

namespace SshPass.EventLoop.Views

open SshPass.Lib.CallTree SshPass.Lib.Borrow SshPass.Lib.Stateful SshPass.Lib.Stateful.Prog
open SshPass.Lib.Transition
open SshPass.Unix.Kernel SshPass.Unix.Registry SshPass.Unix.RegistrySpec SshPass.Unix.Indices
open SshPass.Unix.App SshPass.Unix.App.UnixApp SshPass.Unix.AppSpec
open SshPass.EventLoop.Program SshPass.EventLoop.Wiring SshPass.EventLoop.Footprint

variable {f : Fds} {timeout : ℤ} {vec : List Cell} {stop : UnixAppStop} {rx : Bool} {k : ℕ}
variable {t : List SysEvent}

/-! ### Writing out -/

/-- The view a response keeps. -/
def view : UnixEventResponse → Slice
  | .SendTo _ buf | .WriteToStdOut buf | .WriteToStdIn buf | .WriteToPtyMaster buf => buf

/-- The descriptor a response is written to. -/
def addressee (f : Fds) : UnixEventResponse → Option Desc
  | .SendTo index _ => (fds f)[index]?.map Fd.desc
  | .WriteToStdOut _ => target f .Stdout
  | .WriteToStdIn _ => target f .Stdin
  | .WriteToPtyMaster _ => target f .PtyMaster

/-- **A response** is written to its addressee, if there is one, and shows what the buffer holds. -/
theorem respond_offer (h : Idle f) (c : RefCell (List Cell)) : ∀ out : UnixEventResponse,
    (Loop.respond out).run ⟨⟨f, timeout⟩, ⟨c⟩⟩ =
      offer (addressee f out) (c.value.take (view out).len) (.ok (), ⟨⟨f, timeout⟩, ⟨c⟩⟩)
  | .SendTo i buf => by
    simp only [Loop.respond, UnixApp.sendTo, run_bind, run_state, Tree.ret_bind, cont_ok, run_zoom,
      fdsField, Buffer.deref, sendTo_offer h, addressee, view]
    rcases (fds f)[i]?.map Fd.desc with _ | d <;> rfl
  | .WriteToStdOut buf => respond_run timeout h (k := .Stdout) rfl rfl c
  | .WriteToStdIn buf => respond_run timeout h (k := .Stdin) rfl rfl c
  | .WriteToPtyMaster buf => respond_run timeout h (k := .PtyMaster) rfl rfl c

/-- The write of a response whose view shows `buf`. -/
def posted (f : Fds) (out : UnixEventResponse) (buf : List Cell) : Option Sys :=
  (addressee f out).map fun d => .write d buf

theorem offer_iff {α : Type} {d : Option Desc} {buf : List Cell} {x y : α} :
    (offer d buf x).Exec t y ↔
      t.map Event.op = (d.map fun d => Sys.write d buf).toList ∧ y = x := by
  rcases d with _ | d
  · simp [offer]
  · simp only [offer, Tree.exec_call, Tree.exec_ret, Option.map_some, Option.toList_some,
      List.map_eq_singleton_iff]
    constructor
    · rintro ⟨a, _, rfl, rfl, rfl⟩
      exact ⟨⟨_, rfl, rfl⟩, rfl⟩
    · rintro ⟨⟨⟨o, a⟩, rfl, rfl⟩, rfl⟩
      exact ⟨a, [], rfl, rfl, rfl⟩

/-- The loop with the responses `queue` on the channel, each of which keeps a view, and `k` more
views kept. -/
def sending (f : Fds) (timeout : ℤ) (vec : List Cell) (stop : UnixAppStop) (rx : Bool) (k : ℕ)
    (queue : List UnixEventResponse) : Loop :=
  ⟨⟨⟨f, timeout⟩, ⟨⟨vec, .reading (k + queue.length)⟩⟩⟩, stop, ⟨queue, rx⟩⟩

/-- **The channel is drained** in the order of its responses: each is written to its addressee and
gives up its view. -/
theorem tryIter_iff (h : Idle f) : ∀ {queue : List UnixEventResponse} {t : List SysEvent}
    {x : Except Panic Unit × Loop},
    (Loop.tryIter.run (sending f timeout vec stop rx k queue)).Exec t x ↔
      t.map Event.op = queue.filterMap (fun out => posted f out (vec.take (view out).len)) ∧
        x = (.ok (), sending f timeout vec stop rx k [])
  | [], t, x => by simp [Loop.tryIter, Loop.tryIterLoop, sending]
  | out :: queue, t, x => by
    have hstep : Loop.tryIter.run (sending f timeout vec stop rx k (out :: queue)) =
        (offer (addressee f out) (vec.take (view out).len) ()).bind fun _ =>
          Loop.tryIter.run (sending f timeout vec stop rx k queue) := by
      rcases hd : addressee f out with _ | d <;>
        simp [Loop.tryIter, Loop.tryIterLoop, sending, Loop.appField, respond_offer h, hd, offer,
          Loop.dropGuard, bufField, Buffer.dropSlice, RefCell.dropRef]
    rw [hstep, Tree.exec_bind]
    constructor
    · rintro ⟨t₁, t₂, _, rfl, h₁, h₂⟩
      obtain ⟨hfirst, -⟩ := offer_iff.mp h₁
      obtain ⟨hrest, rfl⟩ := (tryIter_iff h).mp h₂
      refine ⟨?_, rfl⟩
      rw [List.map_append, hfirst, hrest, List.filterMap_cons, posted]
      rcases addressee f out with _ | d <;> rfl
    · rintro ⟨ht, rfl⟩
      obtain ⟨t₁, t₂, rfl, h₁, h₂⟩ : ∃ t₁ t₂, t = t₁ ++ t₂ ∧
          t₁.map Event.op = (posted f out (vec.take (view out).len)).toList ∧
          t₂.map Event.op =
            queue.filterMap fun out => posted f out (vec.take (view out).len) := by
        have hsplit : t.map Event.op = (posted f out (vec.take (view out).len)).toList ++
            queue.filterMap fun out => posted f out (vec.take (view out).len) := by
          rw [ht, List.filterMap_cons]
          rcases posted f out _ with _ | o <;> rfl
        exact List.map_eq_append_iff.mp hsplit
      exact ⟨t₁, t₂, (), rfl, offer_iff.mpr ⟨h₁, rfl⟩, (tryIter_iff h).mpr ⟨h₂, rfl⟩⟩

/-! ### Events while a view is kept -/

/-- The poll `p` finds the entry `fd`, which can be read. -/
def Finds (f : Fds) (p : Polled) (fd : Fd) : Prop :=
  p.n ≠ 0 ∧ (∃ i, firstReady (fds f) (arrayAfter f p) f.len 0 = some (fd, i)) ∧ fd.kind ≠ .Stdout

theorem dispatch_kept (i : ℕ) {fd : Fd} (hk : fd.kind ≠ .Stdout) :
    (dispatch fd i).run ⟨⟨f, timeout⟩, ⟨⟨vec, .reading (k + 1)⟩⟩⟩ =
      .ret (.error .alreadyBorrowed, ⟨⟨f, timeout⟩, ⟨⟨vec, .reading (k + 1)⟩⟩⟩) := by
  have hread : ∀ d, (readBuf d).run ⟨⟨f, timeout⟩, ⟨⟨vec, .reading (k + 1)⟩⟩⟩ =
      .ret (.error .alreadyBorrowed, ⟨⟨f, timeout⟩, ⟨⟨vec, .reading (k + 1)⟩⟩⟩) := fun d => by
    simp [readBuf, bufField, Buffer.getMutSlice, RefCell.borrowMut]
  cases fd with
  | Stdout _ _ => exact absurd rfl hk
  | Signal _ _ => simp only [dispatch, matchSignalEvent, run_bind, hread, Tree.ret_bind, cont_error]
  | Stdin _ _ _ | PtyMaster _ _ _ | PtySlave _ _ =>
    simp only [dispatch, matchStdinEvent, matchPtyMasterEvent, matchPtySlaveEvent, matchDataEvent,
      run_bind, hread, Tree.ret_bind, cont_error]

theorem pick_kept (h : Idle f) (l : List Pollfd) {fd : Fd} {i : ℕ} :
    ((dispatch fd i >>= fun res => zoom fdsField (Fds.dropFd i) >>= fun _ => pure res) :
        Code UnixApp _).run ⟨⟨held (cached f l) i, timeout⟩, ⟨⟨vec, .reading (k + 1)⟩⟩⟩ =
      if fd.kind = .Stdout then .ret (.ok (.error .PollEventNotHandle),
        ⟨⟨cached f l, timeout⟩, ⟨⟨vec, .reading (k + 1)⟩⟩⟩)
      else .ret (.error .alreadyBorrowed,
        ⟨⟨held (cached f l) i, timeout⟩, ⟨⟨vec, .reading (k + 1)⟩⟩⟩) := by
  by_cases hk : fd.kind = .Stdout
  · have hd : (Fds.dropFd i).run (held (cached f l) i) = .ret (.ok (), cached f l) :=
      dropFd_held (h.cached l) i (RefCell.new (some l))
    cases fd <;> simp only [Fd.kind, reduceCtorEq] at hk
    simp [dispatch, Fd.kind, fdsField, hd]
  · rw [run_bind, dispatch_kept i hk, if_neg hk, Tree.ret_bind, cont_error]

/-- **`system_event` while a view is kept** polls, reads nothing and leaves the buffer alone; it
panics if the poll finds an entry to read. -/
theorem event_kept (h : Idle f) {x : Except Panic (Except UnixError UnixEvent) × UnixApp}
    (he : (systemEvent.run ⟨⟨f, timeout⟩, ⟨⟨vec, .reading (k + 1)⟩⟩⟩).Exec t x) :
    ∃ ans, t = [polls f timeout ans] ∧
      ((∃ p fd, ans = .ok p ∧ Finds f p fd) ∧ (∃ g, x = (.error .alreadyBorrowed,
          ⟨⟨g, timeout⟩, ⟨⟨vec, .reading (k + 1)⟩⟩⟩)) ∨
        (¬ ∃ p fd, ans = .ok p ∧ Finds f p fd) ∧ ∃ res l, guards res = 0 ∧
          x = (.ok res, ⟨⟨cached f l, timeout⟩, ⟨⟨vec, .reading (k + 1)⟩⟩⟩)) := by
  rw [systemEvent, run_bind, run_zoom, pollerField, poll_run h, Tree.call_bind,
    Tree.call_bind] at he
  obtain ⟨e | p, t', rfl, he⟩ := he
  · obtain ⟨rfl, rfl⟩ := he
    exact ⟨.error e, rfl, .inr ⟨by simp, _, _, rfl, rfl⟩⟩
  refine ⟨.ok p, ?_⟩
  obtain ⟨it, hit⟩ := next_run h (Poller.storeRevents (array f) f.len p.revents)
  rcases hn : p.n with _ | n
  · simp only [hn] at he
    obtain ⟨rfl, rfl⟩ := he
    refine ⟨rfl, .inr ⟨?_, .ok .PollTimeout, _, rfl, rfl⟩⟩
    rintro ⟨p', fd, hp, hn', -⟩
    obtain rfl := Except.ok.inj hp
    exact hn' hn
  have hn' : p.n ≠ 0 := by simp [hn]
  simp only [hn, Tree.ret_bind, cont_ok, run_bind, run_zoom, fdsField, hit] at he
  rcases hf : firstReady (fds f) (Poller.storeRevents (array f) f.len p.revents) f.len 0 with
    _ | ⟨fd, i⟩
  · simp only [hf, afterNext] at he
    obtain ⟨rfl, rfl⟩ := he
    refine ⟨rfl, .inr ⟨?_, .error .PollEventNotHandle, _, rfl, rfl⟩⟩
    rintro ⟨p', fd, hp, -, ⟨i, hf'⟩, -⟩
    obtain rfl := Except.ok.inj hp
    exact absurd (hf.symm.trans hf') (by simp)
  simp only [hf, afterNext] at he
  replace he := (congrArg (fun p => Tree.Exec p t' x)
    (pick_kept h (consume (Poller.storeRevents (array f) f.len p.revents) fd))).mp he
  by_cases hk : fd.kind = .Stdout
  · rw [if_pos hk] at he
    obtain ⟨rfl, rfl⟩ := he
    refine ⟨rfl, .inr ⟨?_, .error .PollEventNotHandle, _, rfl, rfl⟩⟩
    rintro ⟨p', fd', hp, -, ⟨j, hf'⟩, hk'⟩
    obtain rfl := Except.ok.inj hp
    obtain ⟨rfl, -⟩ := Prod.mk.inj (Option.some.inj (hf.symm.trans hf'))
    exact hk' hk
  · rw [if_neg hk] at he
    obtain ⟨rfl, rfl⟩ := he
    exact ⟨rfl, .inl ⟨⟨p, fd, rfl, hn', ⟨i, hf⟩, hk⟩, _, rfl⟩⟩

/-! ### Clients -/

/-- The view a result keeps. That of a signal shows its record. -/
def viewOf : Except UnixError UnixEvent → Option Slice
  | .ok (.PtyMaster _ buf) | .ok (.PtySlave _ buf) | .ok (.Stdin _ buf) => some buf
  | .ok (.Signal _ _ _) => some ⟨sizeOfSiginfo⟩
  | _ => none

/-- The bytes a call reads. -/
def bytesRead : SysEvent → List Cell
  | ⟨.read fd _, ans⟩ =>
    match ans with
    | .ok c => tag fd.kind c.bytes
    | .error _ => []
  | _ => []

/-- A client of the application: the loop's variables, the views it keeps and has not sent, and for
each response on the channel the bytes it was made of. With every view go the bytes it showed when
its event was read. -/
structure Client where
  loop : Loop
  held : List (Slice × List Cell)
  sent : List (List Cell)

def Client.start (app : UnixApp) : Client := ⟨Loop.start app, [], []⟩

/-- No view is kept. -/
def Client.Unviewed (c : Client) : Prop := c.held = [] ∧ c.sent = []

/-- What a client may do, with the calls it makes. -/
inductive Act
  | event (t : List SysEvent)
  | clone (buf : Slice)
  | send (out : UnixEventResponse)
  | drop (buf : Slice)
  | flush (t : List SysEvent)
  | other (t : List SysEvent)

/-- The calls of an action. -/
def Act.calls : Act → List SysEvent
  | .event t | .flush t | .other t => t
  | _ => []

/-- The steps of a client: it gets an event, clones a view it keeps, sends it in a response, drops
it, writes out the responses on the channel, or looks at the clock or waits for a child, with any
change of the shutdown state. -/
inductive Does : Client → Act → Client → Prop
  | event {c : Client} {t : List SysEvent} {res : Except UnixError UnixEvent} {app : UnixApp}
      (h : (systemEvent.run c.loop.app).Exec t (.ok res, app)) :
      Does c (.event t) ⟨{ c.loop with app := app }, c.held ++
        (viewOf res).toList.map fun v => (v, (t.flatMap bytesRead).take v.len), c.sent⟩
  | clone {c : Client} {x : Slice × List Cell} {buf : RefCell (List Cell)} (hx : x ∈ c.held)
      (h : c.loop.app.buf.buf.borrow = some buf) :
      Does c (.clone x.1) ⟨{ c.loop with app := ⟨c.loop.app.poller, ⟨buf⟩⟩ }, x :: c.held, c.sent⟩
  | send {c : Client} {out : UnixEventResponse} {pre post : List (Slice × List Cell)}
      {b : List Cell} {s : Loop} (hx : c.held = pre ++ (view out, b) :: post)
      (h : ((Loop.send out).run c.loop).Exec [] (.ok (), s)) :
      Does c (.send out) ⟨s, pre ++ post, c.sent ++ [b]⟩
  | drop {c : Client} {x : Slice × List Cell} {pre post : List (Slice × List Cell)} {s : Loop}
      (hx : c.held = pre ++ x :: post) (h : (Loop.dropGuard.run c.loop).Exec [] (.ok (), s)) :
      Does c (.drop x.1) ⟨s, pre ++ post, c.sent⟩
  | flush {c : Client} {t : List SysEvent} {s : Loop}
      (h : (Loop.tryIter.run c.loop).Exec t (.ok (), s)) : Does c (.flush t) ⟨s, c.held, []⟩
  | other {c : Client} {t : List SysEvent} (ht : ∀ e ∈ t, IsAside e.op) (stop : UnixAppStop) :
      Does c (.other t) ⟨{ c.loop with stop := stop }, c.held, c.sent⟩

/-! ### What views show -/

/-- The client that keeps the views `held` and has sent the responses `queue`. -/
def keeping (f : Fds) (timeout : ℤ) (vec : List Cell) (stop : UnixAppStop)
    (queue : List UnixEventResponse) (held : List (Slice × List Cell)) : Client :=
  ⟨sending f timeout vec stop true held.length queue, held,
    queue.map fun out => vec.take (view out).len⟩

/-- Over the registry `f`, every view that is kept has its guard and shows what it showed at
first. -/
def Faithful (f : Fds) (timeout : ℤ) (c : Client) : Prop := ∃ cache vec stop queue held,
  c = keeping (withCache f cache) timeout vec stop queue held ∧ ∀ x ∈ held, vec.take x.1.len = x.2

theorem guards_viewOf (res : Except UnixError UnixEvent) :
    guards res = (viewOf res).toList.length := by
  rcases res with e | ev
  · rfl
  · cases ev <;> rfl

theorem viewOf_le {fd : Fd} {i : ℕ} {bs : List UInt8} {v : Slice}
    (hv : viewOf (eventOf fd i bs) = some v) : v.len ≤ bs.length := by
  cases fd with
  | Signal raw events =>
    rcases hi : head? bs with _ | info
    · simp [eventOf, hi, viewOf] at hv
    have hsize : sizeOfSiginfo ≤ bs.length := by
      by_contra hno
      simp [head?, hno] at hi
    simp only [eventOf, hi] at hv
    split at hv
    · simp [viewOf] at hv
    · obtain rfl := Option.some.inj hv
      exact hsize
  | Stdout raw events => simp [eventOf, viewOf] at hv
  | PtyMaster _ _ _ | PtySlave _ _ | Stdin _ _ _ =>
    obtain rfl := Option.some.inj hv
    exact Nat.le_refl _

theorem gets_shows {vec' : List Cell} {res : Except UnixError UnixEvent} {l : List Pollfd}
    (hg : Gets f timeout vec t res l vec') {v : Slice} (hv : viewOf res = some v) :
    vec'.take v.len = (t.flatMap bytesRead).take v.len := by
  cases hg with
  | reads p hp fd i hf hk ans =>
    rcases ans with e | c
    · rw [result, readError] at hv
      split_ifs at hv
      · simp [viewOf] at hv
      · simp [viewOf] at hv
    · rw [result] at hv
      split_ifs at hv with hb
      · simp [viewOf] at hv
      have hle : v.len ≤ (tag fd.desc.kind c.bytes).length := by
        rw [tag_length]
        exact viewOf_le hv
      have hread : [polls f timeout (.ok p), ⟨.read fd.desc vec.length, .ok c⟩].flatMap bytesRead =
          tag fd.desc.kind c.bytes := by
        simp [bytesRead, polls]
      exact (List.take_append_of_le_length hle).trans (congrArg (List.take v.len) hread.symm)
  | _ => simp [viewOf] at hv

theorem send_run (out : UnixEventResponse) (queue : List UnixEventResponse) :
    (Loop.send out).run (sending f timeout vec stop true (k + 1) queue) =
      .ret (.ok (), sending f timeout vec stop true k (queue ++ [out])) := by
  have hcount : k + 1 + queue.length = k + (queue ++ [out]).length := by
    rw [List.length_append, List.length_singleton, Nat.add_assoc, Nat.add_comm 1]
  simp only [Loop.send, sending, run_bind, run_state, Tree.ret_bind, cont_ok, if_true, run_update,
    hcount]

theorem dropGuard_run (queue : List UnixEventResponse) :
    Loop.dropGuard.run (sending f timeout vec stop rx (k + 1) queue) =
      .ret (.ok (), sending f timeout vec stop rx k queue) := by
  have hcount : k + 1 + queue.length = k + queue.length + 1 := Nat.add_right_comm k 1 queue.length
  simp [Loop.dropGuard, sending, Loop.appField, bufField, Buffer.dropSlice, RefCell.dropRef, hcount]

variable {queue : List UnixEventResponse} {held : List (Slice × List Cell)}

theorem faithful_event (h : Idle f) (hheld : ∀ x ∈ held, vec.take x.1.len = x.2)
    {res : Except UnixError UnixEvent} {app : UnixApp} (he : (systemEvent.run
      (keeping f timeout vec stop queue held).loop.app).Exec t (.ok res, app)) :
    ∃ l vec', app = (keeping (withCache f (some l)) timeout vec' stop queue (held ++
        (viewOf res).toList.map fun v => (v, (t.flatMap bytesRead).take v.len))).loop.app ∧
      (∀ x ∈ held ++ (viewOf res).toList.map fun v => (v, (t.flatMap bytesRead).take v.len),
        vec'.take x.1.len = x.2) ∧
      queue.map (fun out => vec'.take (view out).len) =
        queue.map fun out => vec.take (view out).len := by
  rcases hcount : held.length + queue.length with _ | k
  · obtain ⟨hheld, hqueue⟩ := Nat.add_eq_zero_iff.mp hcount
    obtain rfl := List.length_eq_zero_iff.mp hheld
    obtain rfl := List.length_eq_zero_iff.mp hqueue
    obtain ⟨res', l, vec', hg, hx⟩ := (systemEvent_iff h).mp he
    obtain ⟨hres, rfl⟩ := Prod.mk.inj hx
    obtain rfl := Except.ok.inj hres
    refine ⟨l, vec', ?_, ?_, rfl⟩
    · simp only [keeping, sending, List.nil_append, List.length_map, guards_viewOf]
      rfl
    · intro x hx
      obtain ⟨v, hv, rfl⟩ := List.mem_map.mp hx
      exact gets_shows hg (Option.mem_toList.mp hv)
  · simp only [keeping, sending, hcount] at he
    obtain ⟨ans, rfl, ⟨-, g, hx⟩ | ⟨-, res', l, hg, hx⟩⟩ := event_kept h he
    · simp at hx
    · obtain ⟨hres, rfl⟩ := Prod.mk.inj hx
      obtain rfl := Except.ok.inj hres
      have hnone : (viewOf res).toList = [] := by
        rwa [guards_viewOf, List.length_eq_zero_iff] at hg
      simp only [hnone, List.map_nil, List.append_nil]
      refine ⟨l, vec, ?_, hheld, rfl⟩
      simp only [keeping, sending, hcount]
      rfl

/-- **Every step keeps the views true.** -/
theorem faithful_step (h : Idle f) {c c' : Client} {a : Act} (hc : Faithful f timeout c)
    (hs : Does c a c') : Faithful f timeout c' := by
  obtain ⟨cache, vec, stop, queue, held, rfl, hheld⟩ := hc
  -- a view that is given up takes one guard with it
  have hcount : ∀ (pre post : List (Slice × List Cell)) x,
      (pre ++ x :: post).length = (pre ++ post).length + 1 := by
    intro pre post x
    rw [List.length_append, List.length_cons, List.length_append, Nat.add_assoc]
  have hrest : ∀ {pre post : List (Slice × List Cell)} {x}, held = pre ++ x :: post →
      ∀ y ∈ pre ++ post, vec.take y.1.len = y.2 := by
    rintro pre post x rfl y hy
    refine hheld y ?_
    rcases List.mem_append.mp hy with hy | hy
    · exact List.mem_append_left _ hy
    · exact List.mem_append_right _ (List.mem_cons_of_mem x hy)
  cases hs with
  | @event t res app he =>
    obtain ⟨l, vec', rfl, hheld', hsent⟩ := faithful_event (idle_withCache h cache) hheld he
    refine ⟨some l, vec', stop, queue, _, ?_, hheld'⟩
    simp only [keeping, hsent]
    rfl
  | @clone x buf hx hb =>
    obtain rfl := Option.some.inj hb
    refine ⟨cache, vec, stop, queue, x :: held, ?_, ?_⟩
    · simp only [keeping, sending, List.length_cons, Nat.add_right_comm _ 1]
    · intro y hy
      rcases List.mem_cons.mp hy with rfl | hy
      · exact hheld _ hx
      · exact hheld _ hy
  | @send out pre post b s hx hsend =>
    obtain rfl : held = pre ++ (view out, b) :: post := hx
    have hb : vec.take (view out).len = b := hheld (view out, b) (by simp)
    simp only [keeping, hcount, send_run] at hsend
    obtain ⟨-, hs⟩ := hsend
    obtain ⟨-, rfl⟩ := Prod.mk.inj hs
    refine ⟨cache, vec, stop, queue ++ [out], pre ++ post, ?_, hrest rfl⟩
    simp only [keeping, List.map_append, List.map_singleton, hb]
  | @drop x pre post s hx hdrop =>
    obtain rfl : held = pre ++ x :: post := hx
    simp only [keeping, hcount, dropGuard_run] at hdrop
    obtain ⟨-, hs⟩ := hdrop
    obtain ⟨-, rfl⟩ := Prod.mk.inj hs
    exact ⟨cache, vec, stop, queue, pre ++ post, rfl, hrest rfl⟩
  | @flush t s ht =>
    obtain ⟨-, hs⟩ := (tryIter_iff (idle_withCache h cache)).mp ht
    obtain ⟨-, rfl⟩ := Prod.mk.inj hs
    exact ⟨cache, vec, stop, [], held, rfl, hheld⟩
  | other ht stop' => exact ⟨cache, vec, stop', queue, held, rfl, hheld⟩

variable {ops : List Op} {n : ℕ} {hist : List (Client × Act)} {c : Client}
variable {t₁ t₂ : List SysEvent} {res : Except UnixError UnixEvent} {l : List Pollfd}
  {vec' : List Cell} {stop' : UnixAppStop}

theorem event_client (h : Idle f) (hg : Gets f timeout vec t₁ res l vec') :
    Does ⟨resting f timeout vec stop, [], []⟩ (.event t₁)
      ⟨sending (cached f l) timeout vec' stop true (viewOf res).toList.length [],
        (viewOf res).toList.map fun v => (v, (t₁.flatMap bytesRead).take v.len), []⟩ := by
  have hevent := (systemEvent_iff h).mpr ⟨res, l, vec', hg, rfl⟩
  rw [guards_viewOf] at hevent
  exact .event hevent

/-! ### A sample client -/

/-- A view that is cloned can be sent twice. -/
theorem sent_twice {c₀ : Client} {v : Slice} {b : List Cell}
    (hr : Run Does c₀ hist ⟨sending f timeout vec stop true 1 [], [(v, b)], []⟩) :
    ∃ hist, Run Does c₀ hist
      ⟨sending f timeout vec stop true 0 [.WriteToStdOut v, .SendTo 0 v], [], [b, b]⟩ := by
  have hclone : Run Does c₀ _ ⟨sending f timeout vec stop true 2 [], [(v, b), (v, b)], []⟩ :=
    hr.step (.clone List.mem_cons_self rfl)
  have hsend : ∀ {k : ℕ} {queue : List UnixEventResponse} {held : List (Slice × List Cell)}
      {sent : List (List Cell)} (out : UnixEventResponse),
      Does ⟨sending f timeout vec stop true (k + 1) queue, (view out, b) :: held, sent⟩ (.send out)
        ⟨sending f timeout vec stop true k (queue ++ [out]), held, sent ++ [b]⟩ := by
    intro k queue held sent out
    refine @Does.send _ out [] held b _ rfl ?_
    rw [send_run]
    exact ⟨rfl, rfl⟩
  exact ⟨_, (hclone.step (hsend (.WriteToStdOut v))).step (hsend (.SendTo 0 v))⟩

/-- A client that has read two bytes of the master, and sends them to stdout and back. -/
theorem echo_client : ∃ hist c, Run Does (Client.start (appOf ptyOps 200 2)) hist c ∧
    c.loop.chan.queue = [.WriteToStdOut ⟨2⟩, .SendTo 0 ⟨2⟩] ∧
      c.sent = List.replicate 2 (tag .PtyMaster ptyChunk.bytes) ∧
        c.loop.app.poller = ⟨cached (Unix.Indices.run ptyOps) (consume (arrayAfter
          (Unix.Indices.run ptyOps) masterReady) (.PtyMaster 4 POLLIN 100)), 200⟩ := by
  have hf : firstReady (fds (Unix.Indices.run ptyOps))
      (arrayAfter (Unix.Indices.run ptyOps) masterReady) (Unix.Indices.run ptyOps).len 0 =
        some (.PtyMaster 4 POLLIN 100, 0) := by decide
  have hg := @Gets.reads (Unix.Indices.run ptyOps) 200 (List.replicate 2 ⟨0, none⟩) masterReady
    (by decide) (.PtyMaster 4 POLLIN 100) 0 hf (by decide) (.ok ptyChunk)
  have hevent : Run Does (Client.start (appOf ptyOps 200 2)) _ _ :=
    Run.start.step (event_client (idle_run ptyOps) hg)
  obtain ⟨hist, hr⟩ := sent_twice hevent
  exact ⟨hist, _, hr, rfl, rfl, rfl⟩

/-! ### What a client may rely on -/

theorem faithful_run (hr : Run Does (Client.start (appOf ops timeout n)) hist c) :
    Faithful (Unix.Indices.run ops) timeout c := by
  refine hr.invariant ?_ fun c a c' hc hs => faithful_step (idle_run ops) hc hs
  refine ⟨(Unix.Indices.run ops).pollfds.value, (Buffer.new n).buf.value, UnixAppStop.new, [], [],
    ?_, by simp⟩
  rw [withCache_value (idle_run ops)]
  rfl

/-- The loop after the responses are written out: the views that were not sent are left. -/
def Client.flushed (c : Client) : Loop :=
  ⟨⟨c.loop.app.poller, ⟨⟨c.loop.app.buf.buf.value, .reading c.held.length⟩⟩⟩, c.loop.stop,
    ⟨[], true⟩⟩

theorem posted_withCache (f : Fds) (cache : Option (List Pollfd)) (out : UnixEventResponse)
    (buf : List Cell) : posted (withCache f cache) out buf = posted f out buf := by
  have haddressee : addressee (withCache f cache) out = addressee f out := by
    cases out with
    | SendTo i buf => rfl
    | _ => exact target_withCache f cache _
  rw [posted, haddressee, posted]

theorem zip_posted (f : Fds) (vec : List Cell) (queue : List UnixEventResponse) :
    (queue.zip (queue.map fun out => vec.take (view out).len)).filterMap
        (fun y => posted f y.1 y.2) =
      queue.filterMap fun out => posted f out (vec.take (view out).len) := by
  induction queue with
  | nil => rfl
  | cons out queue ih => rw [List.map_cons, List.zip_cons_cons, List.filterMap_cons, ih,
      List.filterMap_cons]

/-- **What is sent is written as it was read.** Whatever a client has done, the responses on its
channel are written out in order, each to its addressee and with the bytes its event was read with;
and this never panics. -/
theorem flush_iff (hr : Run Does (Client.start (appOf ops timeout n)) hist c)
    {x : Except Panic Unit × Loop} : (Loop.tryIter.run c.loop).Exec t x ↔
      t.map Event.op = (c.loop.chan.queue.zip c.sent).filterMap
        (fun y => posted (Unix.Indices.run ops) y.1 y.2) ∧ x = (.ok (), c.flushed) := by
  obtain ⟨cache, vec, stop, queue, held, rfl, -⟩ := faithful_run hr
  have hflush := (tryIter_iff (idle_withCache (idle_run ops) cache) :
    (Loop.tryIter.run (sending (withCache (Unix.Indices.run ops) cache) timeout vec stop true
      held.length queue)).Exec t x ↔ _)
  simp only [posted_withCache] at hflush
  rw [← zip_posted] at hflush
  exact hflush

theorem echo_flushed : ∃ hist c, Run Does (Client.start (appOf ptyOps 200 2)) hist c ∧
    ∀ t x, (Loop.tryIter.run c.loop).Exec t x ↔
      t.map Event.op = [.write ⟨.Stdout, 1⟩ (tag .PtyMaster ptyChunk.bytes),
        .write ⟨.PtyMaster, 4⟩ (tag .PtyMaster ptyChunk.bytes)] ∧ x = (.ok (), c.flushed) := by
  obtain ⟨hist, c, hr, hqueue, hsent, -⟩ := echo_client
  refine ⟨hist, c, hr, fun t x => (flush_iff hr).trans ?_⟩
  rw [hqueue, hsent]
  rfl

/-- The call is a read. -/
def IsRead (o : Sys) : Prop := ∃ fd n, o = .read fd n

/-- The poll of the calls `t` finds an entry that can be read. -/
def Found (f : Fds) (timeout : ℤ) (t : List SysEvent) : Prop :=
  ∃ p fd rest, t = polls f timeout (.ok p) :: rest ∧ Finds f p fd

theorem polls_inj {ans ans' : Except Errno Polled} {rest rest' : List SysEvent}
    (h : polls f timeout ans :: rest = polls f timeout ans' :: rest') : ans = ans' := by
  simpa [polls] using (List.cons.inj h).1

theorem gets_found {vec' : List Cell} {res : Except UnixError UnixEvent} {l : List Pollfd}
    (hg : Gets f timeout vec t res l vec') : (∃ e ∈ t, IsRead e.op) ↔ Found f timeout t := by
  have hpoll : ∀ ans, ¬ IsRead (polls f timeout ans).op := by
    rintro ans ⟨fd, n, h⟩
    cases h
  have hsingle : ∀ ans, ¬ ∃ e ∈ [polls f timeout ans], IsRead e.op := by
    rintro ans ⟨e, he, hread⟩
    obtain rfl := List.mem_singleton.mp he
    exact hpoll ans hread
  cases hg with
  | fails e =>
    refine iff_of_false (hsingle _) ?_
    rintro ⟨p, fd, rest, ht, -⟩
    cases polls_inj ht
  | times p hp =>
    refine iff_of_false (hsingle _) ?_
    rintro ⟨p', fd, rest, ht, hn, -⟩
    obtain rfl := Except.ok.inj (polls_inj ht)
    exact hn hp
  | nothing p hp hf =>
    refine iff_of_false (hsingle _) ?_
    rintro ⟨p', fd, rest, ht, -, ⟨i, hf'⟩, -⟩
    obtain rfl := Except.ok.inj (polls_inj ht)
    exact absurd (hf.symm.trans hf') (by simp)
  | stdout p hp fd i hf hk =>
    refine iff_of_false (hsingle _) ?_
    rintro ⟨p', fd', rest, ht, -, ⟨j, hf'⟩, hk'⟩
    obtain rfl := Except.ok.inj (polls_inj ht)
    obtain ⟨rfl, -⟩ := Prod.mk.inj (Option.some.inj (hf.symm.trans hf'))
    exact hk' hk
  | reads p hp fd i hf hk ans =>
    exact iff_of_true ⟨_, List.mem_cons_of_mem _ List.mem_cons_self, fd.desc, vec.length, rfl⟩
      ⟨p, fd, _, rfl, hp, ⟨i, hf⟩, hk⟩

/-- **A read needs the buffer.** Whatever a client has done, if the poll finds an entry that can be
read then `system_event` reads it exactly if no view is kept, and panics exactly if one is. -/
theorem reads_iff_unviewed (hr : Run Does (Client.start (appOf ops timeout n)) hist c)
    {x : Except Panic (Except UnixError UnixEvent) × UnixApp}
    (he : (systemEvent.run c.loop.app).Exec t x) :
    ((∃ e ∈ t, IsRead e.op) ↔ Found c.loop.app.poller.fds timeout t ∧ c.Unviewed) ∧
      ((∃ p, x.1 = .error p) ↔ Found c.loop.app.poller.fds timeout t ∧ ¬ c.Unviewed) := by
  obtain ⟨cache, vec, stop, queue, held, rfl, -⟩ := faithful_run hr
  have hidle := idle_withCache (idle_run ops) cache
  have hunviewed : (keeping (withCache (Unix.Indices.run ops) cache) timeout vec stop queue
      held).Unviewed ↔ held.length + queue.length = 0 := by
    simp [Client.Unviewed, keeping]
  rw [hunviewed]
  simp only [keeping, sending] at he ⊢
  rcases hcount : held.length + queue.length with _ | k <;> rw [hcount] at he
  · obtain ⟨res, l, vec', hg, rfl⟩ := (systemEvent_iff hidle).mp he
    simp [gets_found hg]
  · obtain ⟨ans, rfl, hcases⟩ := event_kept hidle he
    have hno : ¬ ∃ e ∈ [polls (withCache (Unix.Indices.run ops) cache) timeout ans],
        IsRead e.op := by
      rintro ⟨e, he, fd, n, hop⟩
      obtain rfl := List.mem_singleton.mp he
      cases hop
    have hfound : Found (withCache (Unix.Indices.run ops) cache) timeout
        [polls (withCache (Unix.Indices.run ops) cache) timeout ans] ↔
          ∃ p fd, ans = .ok p ∧ Finds (withCache (Unix.Indices.run ops) cache) p fd := by
      constructor
      · rintro ⟨p, fd, rest, ht, hf⟩
        exact ⟨p, fd, polls_inj ht, hf⟩
      · rintro ⟨p, fd, rfl, hf⟩
        exact ⟨p, fd, [], rfl, hf⟩
    rw [hfound]
    obtain ⟨hf, g, rfl⟩ | ⟨hf, res, l, -, rfl⟩ := hcases
    · exact ⟨iff_of_false hno fun h => absurd h.2 (Nat.succ_ne_zero k),
        iff_of_true ⟨_, rfl⟩ ⟨hf, Nat.succ_ne_zero k⟩⟩
    · exact ⟨iff_of_false hno fun h => hf h.1, iff_of_false (by simp) fun h => hf h.1⟩

/-- The poll of `system_event` may be answered in any way. -/
theorem exists_polled (h : Idle f) (timeout : ℤ) (buf : Buffer) (ans : Except Errno Polled) :
    ∃ rest x, (systemEvent.run ⟨⟨f, timeout⟩, buf⟩).Exec (polls f timeout ans :: rest) x := by
  obtain ⟨k, hrun⟩ : ∃ k : Except Errno Polled → Tree Sys Ans
      (Except Panic (Except UnixError UnixEvent) × UnixApp),
        systemEvent.run ⟨⟨f, timeout⟩, buf⟩ = .call (polls f timeout ans).op k := by
    rw [systemEvent, run_bind, run_zoom, pollerField, poll_run h, Tree.call_bind, Tree.call_bind]
    exact ⟨_, rfl⟩
  obtain ⟨rest, x, hx⟩ := (k ans).exists_exec
  rw [hrun]
  exact ⟨rest, x, ans, rest, rfl, hx⟩

/-- The master has more to read while both responses are on the channel. -/
theorem echo_refused : ∃ hist c, Run Does (Client.start (appOf ptyOps 200 2)) hist c ∧
    ∃ t x, (systemEvent.run c.loop.app).Exec t x ∧ Found c.loop.app.poller.fds 200 t ∧
      (¬ ∃ e ∈ t, IsRead e.op) ∧ ∃ p, x.1 = .error p := by
  obtain ⟨hist, c, hr, -, hsent, hpoller⟩ := echo_client
  have hf := (idle_run ptyOps).cached
    (consume (arrayAfter (Unix.Indices.run ptyOps) masterReady) (.PtyMaster 4 POLLIN 100))
  obtain ⟨rest, x, he⟩ := exists_polled hf 200 c.loop.app.buf (.ok masterReady)
  have hfound : Found c.loop.app.poller.fds 200 (polls c.loop.app.poller.fds 200
      (.ok masterReady) :: rest) := by
    refine ⟨masterReady, .PtyMaster 4 POLLIN 100, rest, rfl, by decide, ⟨0, ?_⟩, by decide⟩
    rw [hpoller]
    decide
  have hviewed : ¬ c.Unviewed := by
    rintro ⟨-, hnone⟩
    simp [hsent] at hnone
  have hexec : (systemEvent.run c.loop.app).Exec (polls c.loop.app.poller.fds 200
      (.ok masterReady) :: rest) x := by
    rw [← hpoller] at he
    rw [hpoller]
    exact he
  obtain ⟨hreads, hpanics⟩ := reads_iff_unviewed hr hexec
  exact ⟨hist, c, hr, _, x, hexec, hfound, fun h => hviewed (hreads.mp h).2,
    hpanics.mpr ⟨hfound, hviewed⟩⟩

/-! ### Main is a client -/

theorem reacts_posted {out : UnixEventResponse}
    (hout : reaction f vec' res = posted f out (vec'.take (view out).len))
    (hr : Reacts f vec' stop res t₂ stop') :
    t₂.map Event.op = (posted f out (vec'.take (view out).len)).toList ∧ stop' = stop := by
  cases hr with
  | silent hnone =>
    rw [← hout, hnone]
    exact ⟨rfl, rfl⟩
  | calls a ho =>
    obtain ⟨d, -, rfl⟩ := Option.map_eq_some_iff.mp (hout.symm.trans ho)
    rw [← hout, ho]
    exact ⟨rfl, rfl⟩

theorem send_client (h : Idle f) (hg : Gets f timeout vec t₁ res l vec') {o : UnixEventResponse}
    (hv : viewOf res = some (view o))
    (hout : reaction f vec' res = posted f o (vec'.take (view o).len))
    (hr : Reacts f vec' stop res t₂ stop') :
    ∃ hist, Run Does ⟨resting f timeout vec stop, [], []⟩ hist
      ⟨resting (cached f l) timeout vec' stop', [], []⟩ ∧
        hist.flatMap (fun x => x.2.calls) = t₁ ++ t₂ := by
  obtain ⟨hops, rfl⟩ := reacts_posted hout hr
  have hevent : Run Does ⟨resting f timeout vec stop', [], []⟩ _ _ :=
    Run.start.step (event_client h hg)
  rw [hv] at hevent
  have hsend : ((Loop.send o).run (sending (cached f l) timeout vec' stop' true (0 + 1) [])).Exec
      [] (.ok (), sending (cached f l) timeout vec' stop' true 0 [o]) := by
    rw [send_run]
    exact ⟨rfl, rfl⟩
  have hflush : (Loop.tryIter.run (sending (cached f l) timeout vec' stop' true 0 [o])).Exec t₂
      (.ok (), sending (cached f l) timeout vec' stop' true 0 []) := by
    refine (tryIter_iff (h.cached l)).mpr ⟨?_, rfl⟩
    have hposted : posted (cached f l) o (vec'.take (view o).len) =
        posted f o (vec'.take (view o).len) := posted_withCache f (some l) o _
    rw [hops, List.filterMap_cons, List.filterMap_nil, hposted]
    rcases posted f o (vec'.take (view o).len) with _ | x <;> rfl
  have hview : ∀ b : List Cell, [(view o, b)] = [] ++ (view o, b) :: [] := fun b => rfl
  exact ⟨_, (hevent.step (.send (hview _) hsend)).step (.flush hflush), by simp [Act.calls]⟩

theorem drop_client (h : Idle f) (hg : Gets f timeout vec t₁ res l vec')
    (ht : ∀ e ∈ t₂, IsAside e.op) (stop' : UnixAppStop) :
    ∃ hist, Run Does ⟨resting f timeout vec stop, [], []⟩ hist
      ⟨resting (cached f l) timeout vec' stop', [], []⟩ ∧
        hist.flatMap (fun x => x.2.calls) = t₁ ++ t₂ := by
  have hevent : Run Does ⟨resting f timeout vec stop, [], []⟩ _ _ :=
    Run.start.step (event_client h hg)
  have hother := hevent.step (.other ht stop')
  rcases hv : viewOf res with _ | v <;> rw [hv] at hother
  · exact ⟨_, hother, by simp [Act.calls]⟩
  · have hdrop : (Loop.dropGuard.run (sending (cached f l) timeout vec' stop' true (0 + 1) [])).Exec
        [] (.ok (), sending (cached f l) timeout vec' stop' true 0 []) := by
      rw [dropGuard_run]
      exact ⟨rfl, rfl⟩
    have hview : ∀ b : List Cell, [(v, b)] = [] ++ (v, b) :: [] := fun b => rfl
    have hrun := hother.step (.drop (hview _) hdrop)
    exact ⟨_, hrun, by simp [Act.calls]⟩

theorem reacts_aside (hr : Reacts f vec' stop res t₂ stop')
    (ho : ∀ o, reaction f vec' res = some o → IsAside o) : ∀ e ∈ t₂, IsAside e.op := by
  cases hr with
  | silent hnone => simp
  | calls a hsome => simpa using ho _ hsome

/-- An iteration gets an event. It sends it and writes it out, or it asks the clock or waits for a
child and drops the view. -/
theorem iteration_client (h : Idle f) (hg : Gets f timeout vec t₁ res l vec')
    (hr : Reacts f vec' stop res t₂ stop') :
    ∃ hist, Run Does ⟨resting f timeout vec stop, [], []⟩ hist
      ⟨resting (cached f l) timeout vec' stop', [], []⟩ ∧
        hist.flatMap (fun x => x.2.calls) = t₁ ++ t₂ := by
  rcases res with e | ev
  · refine drop_client h hg (reacts_aside hr fun o ho => ?_) stop'
    exact .inl (Option.some.inj ho).symm
  cases ev with
  | PtyMaster i buf => exact send_client (o := .WriteToStdOut buf) h hg rfl rfl hr
  | Stdin i buf => exact send_client (o := .WriteToPtyMaster buf) h hg rfl rfl hr
  | Signal i sig siginfo =>
    refine drop_client h hg (reacts_aside hr fun o ho => ?_) stop'
    simp only [reaction] at ho
    split_ifs at ho
    · exact .inl (Option.some.inj ho).symm
    · exact .inr ⟨_, (Option.some.inj ho).symm⟩
  | PtySlave _ _ | ReadZeroBytes | PollTimeout =>
    refine drop_client h hg (reacts_aside hr fun o ho => ?_) stop'
    simp [reaction] at ho

/-- **Main is a client**: every run of the loop is one of a client that keeps no view between two
iterations. -/
theorem runs_client {ts : List (List SysEvent)} {s : Loop} (hr : Runs (appOf ops timeout n) ts s) :
    ∃ hist, Run Does (Client.start (appOf ops timeout n)) hist ⟨s, [], []⟩ ∧
      hist.flatMap (fun x => x.2.calls) = ts.flatten := by
  induction hr with
  | start => exact ⟨[], .start, rfl⟩
  | iterate hr hb ih =>
    obtain ⟨hist, hrun, hcalls⟩ := ih
    obtain ⟨c, vec, t₁, t₂, res, l, vec', stop, stop', rfl, -, -, rfl, hg, hreacts, hx, -⟩ :=
      body_exec (idle_run ops) (appOf_rested hr) hb
    obtain ⟨-, rfl⟩ := Prod.mk.inj hx
    obtain ⟨hist', hrun', hcalls'⟩ :=
      iteration_client (idle_withCache (idle_run ops) c) hg hreacts
    refine ⟨hist ++ hist', hrun.trans hrun', ?_⟩
    rw [List.flatMap_append, hcalls, hcalls', List.flatten_append, List.flatten_singleton]

end SshPass.EventLoop.Views
