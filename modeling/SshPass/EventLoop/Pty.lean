import SshPass.EventLoop.Iteration
import SshPass.Lib.Transition
import SshPass.Unix.Traffic

/-! # The pty

The pty is two bounded queues (`Queues`), and the program at its slave, the child, reads and writes
in any way; it does not exit, which would hang the slave up. A write of the loop or of the child
goes into its queue as there is room, and is over when all of it is in. `Step` is one step of the
loop, of the child or of such a write. The loop writes what it reads from stdin to the slave, and
only the loop itself takes bytes out of the queue that write needs room in: a state where the next
byte has no room is `Deadlocked`, for ever (`deadlocked_forever`). `deadlock_iff` says which steps
lead there. -/

namespace SshPass.EventLoop.Pty

open SshPass.Lib.CallTree SshPass.Lib.Transition
open SshPass.Unix.Kernel SshPass.Unix.Registry SshPass.Unix.RegistrySpec SshPass.Unix.App
open SshPass.Unix.AppSpec SshPass.Unix.Traffic
open SshPass.EventLoop.Program SshPass.EventLoop.Construction SshPass.EventLoop.Wiring
open SshPass.EventLoop.Iteration

/-! ### The queues -/

/-- The bytes in the pty: written to the master, to be read from the slave, and back. -/
structure Queues where
  toSlave : List UInt8
  toMaster : List UInt8

/-- A pty: the capacities of its queues, and what the output processing of the slave makes of a byte
that is written there. Nothing is written to the master (`child_starved`), so neither the input
processing nor the echo has anything to work on. -/
structure Line where
  toSlave : ℕ
  toMaster : ℕ
  out : UInt8 → List UInt8

namespace Line

/-- Two plain queues: a slave without output processing. -/
def raw (toSlave toMaster : ℕ) : Line := ⟨toSlave, toMaster, fun b => [b]⟩

/-- The slave as `openpty` leaves it: `OPOST` and `ONLCR`. -/
def onlcr (toSlave toMaster : ℕ) : Line :=
  ⟨toSlave, toMaster, fun b => if b = 0x0a then [0x0d, 0x0a] else [b]⟩

variable (line : Line)

/-- What the output processing makes of some bytes. -/
def process (bs : List UInt8) : List UInt8 := bs.flatMap line.out

/-- The queues when `bs` has gone in at the end `k`. -/
def put : Kind → Queues → List UInt8 → Queues
  | .PtyMaster, q, bs => { q with toSlave := q.toSlave ++ bs }
  | .PtySlave, q, bs => { q with toMaster := q.toMaster ++ line.process bs }
  | _, q, _ => q

/-- There is room for `bs` at the end `k`. -/
def Room : Kind → Queues → List UInt8 → Prop
  | .PtyMaster, q, bs => q.toSlave.length + bs.length ≤ line.toSlave
  | .PtySlave, q, bs => q.toMaster.length + (line.process bs).length ≤ line.toMaster
  | _, _, _ => False

/-- A write at the end `k`, of which `bs` is left, waits: there is no room for its next byte. -/
def Waits (k : Kind) (q : Queues) (bs : List UInt8) : Prop := ∃ b ∈ bs.head?, ¬ line.Room k q [b]

@[simp] theorem process_nil : line.process [] = [] := rfl

@[simp] theorem process_append (bs cs : List UInt8) :
    line.process (bs ++ cs) = line.process bs ++ line.process cs := List.flatMap_append

@[simp] theorem process_raw (m n : ℕ) (bs : List UInt8) : (raw m n).process bs = bs :=
  List.flatMap_singleton' bs

example : (onlcr 4096 4096).process [0x61, 0x0a, 0x62] = [0x61, 0x0d, 0x0a, 0x62] := by decide

end Line

/-- What `poll` reports of the entries `l`: their count is zero if nothing is ready, and an end of
the pty has input if its queue has bytes. -/
structure Reports (l : List Fd) (q : Queues) (p : Polled) : Prop where
  count : p.n = 0 ↔ ∀ i < l.length, p.revents i = 0
  master : ∀ i fd, l[i]? = some fd → fd.kind = .PtyMaster →
    (p.revents i &&& POLLIN ≠ 0 ↔ q.toMaster ≠ [])
  slave : ∀ i fd, l[i]? = some fd → fd.kind = .PtySlave →
    (p.revents i &&& POLLIN ≠ 0 ↔ q.toSlave ≠ [])

/-- How the pty answers the calls of a loop that polls the entries `l`. A read takes bytes out of a
queue. A write to an end of the pty returns when all its bytes are in, and never with fewer. -/
def pty (l : List Fd) : Env Sys Ans Queues := fun q e q' =>
  match e with
  | ⟨.poll _ _ _, ans⟩ => q' = q ∧ ∀ p, ans = .ok p → Reports l q p
  | ⟨.read fd _, ans⟩ =>
    match fd.kind, ans with
    | .PtyMaster, .ok c =>
      c.bytes ≠ [] ∧ q.toMaster = c.bytes ++ q'.toMaster ∧ q'.toSlave = q.toSlave
    | .PtySlave, .ok c =>
      c.bytes ≠ [] ∧ q.toSlave = c.bytes ++ q'.toSlave ∧ q'.toMaster = q.toMaster
    | _, _ => q' = q
  | ⟨.write fd buf, ans⟩ =>
    q' = q ∧ (fd.kind = .PtyMaster ∨ fd.kind = .PtySlave → ans = .ok (Fin.last buf.length))
  | _ => q' = q

/-! ### The system -/

/-- What is left of an iteration of the loop. -/
abbrev Rest := Tree Sys Ans (Except Panic (Option ℤ) × Loop)

/-- The loop is at a write to a descriptor of kind `k`. -/
def AtWrite (k : Kind) : Rest → Prop
  | .call (.write fd _) _ => fd.kind = k
  | _ => False

/-- The bytes of some cells. -/
def bytes (buf : List Cell) : List UInt8 := buf.map Cell.byte

/-- The bytes of the write to a descriptor of kind `k` the loop is at. -/
def hand (k : Kind) : Rest → List UInt8
  | .call (.write fd buf) _ => if fd.kind = k then bytes buf else []
  | _ => []

/-- The bytes of the write to the pty the loop is at. -/
def toPty (p : Rest) : List UInt8 := hand .PtyMaster p ++ hand .PtySlave p

/-- The loop, the pty, and what the loop and the child have still to write of the write to the pty
they are in. -/
structure System where
  parent : Rest
  queues : Queues
  left : List UInt8
  pending : List UInt8

inductive Action
  | call (e : SysEvent)
  | iterate
  | parentPuts (n : ℕ)
  | childWrites (bs : List UInt8)
  | childPuts (n : ℕ)
  | childReads (n : ℕ)

/-- One step of the system. The loop goes on when nothing is left of its write, and the child begins
a write or reads when nothing is left of its own. The bytes of both writes go in as there is
room. -/
inductive Step (line : Line) (l : List Fd) : System → Action → System → Prop
  | call {o : Sys} {k : Ans o → Rest} {a : Ans o} {q q' : Queues} {w : List UInt8}
      (h : pty l q ⟨o, a⟩ q') :
      Step line l ⟨.call o k, q, [], w⟩ (.call ⟨o, a⟩) ⟨k a, q', toPty (k a), w⟩
  | iterate {s : Loop} {q : Queues} {w : List UInt8} : Step line l ⟨.ret (.ok none, s), q, [], w⟩
      .iterate ⟨Loop.body.run s, q, toPty (Loop.body.run s), w⟩
  | parentPuts {p : Rest} {k : Kind} {q : Queues} {u w : List UInt8} {n : ℕ} (hp : AtWrite k p)
      (hn : n ≠ 0) (hu : n ≤ u.length) (hroom : line.Room k q (u.take n)) :
      Step line l ⟨p, q, u, w⟩ (.parentPuts n) ⟨p, line.put k q (u.take n), u.drop n, w⟩
  | childWrites {p : Rest} {q : Queues} {u bs : List UInt8} (h : bs ≠ []) :
      Step line l ⟨p, q, u, []⟩ (.childWrites bs) ⟨p, q, u, bs⟩
  | childPuts {p : Rest} {q : Queues} {u w : List UInt8} {n : ℕ} (hn : n ≠ 0) (hw : n ≤ w.length)
      (hroom : line.Room .PtySlave q (w.take n)) : Step line l ⟨p, q, u, w⟩ (.childPuts n)
        ⟨p, line.put .PtySlave q (w.take n), u, w.drop n⟩
  | childReads {p : Rest} {q : Queues} {u : List UInt8} {n : ℕ} (hn : n ≠ 0)
      (hq : n ≤ q.toSlave.length) : Step line l ⟨p, q, u, []⟩ (.childReads n)
        ⟨p, { q with toSlave := q.toSlave.drop n }, u, []⟩

/-- The loop before its first iteration, the pty empty. -/
def System.start (app : UnixApp) : System :=
  ⟨Loop.body.run (Loop.start app), ⟨[], []⟩, toPty (Loop.body.run (Loop.start app)), []⟩

/-- The loop is blocked in a write, and waits for room in a queue that only the loop itself takes
bytes out of, or only a child that in turn waits for room in the other. -/
def Deadlocked (line : Line) (s : System) : Prop :=
  (AtWrite .PtySlave s.parent ∧ line.Waits .PtySlave s.queues s.left) ∨
    (AtWrite .PtyMaster s.parent ∧ line.Waits .PtyMaster s.queues s.left ∧
      line.Waits .PtySlave s.queues s.pending)

/-- The step leaves room for the next byte of the loop's write to the slave: the loop reads nothing
from stdin whose first byte has no room, and what goes into the queue to the master during a write
of the loop to the slave, from the child or from that write itself, does not take the room of the
next byte. -/
def Harmless (line : Line) (s : System) : Action → Prop
  | .call e => ∀ b ∈ (bytes (taken .Stdin e)).head?, line.Room .PtySlave s.queues [b]
  | .parentPuts n => AtWrite .PtySlave s.parent →
    ∀ b ∈ (s.left.drop n).head?, line.Room .PtySlave s.queues (s.left.take n ++ [b])
  | .childPuts n => AtWrite .PtySlave s.parent →
    ∀ b ∈ s.left.head?, line.Room .PtySlave s.queues (s.pending.take n ++ [b])
  | _ => True

/-! ### What is left of an iteration -/

/-- What can be left of an iteration. -/
inductive Residual (r : Startup) : Rest → Prop
  | body (cache : Option (List Pollfd)) (vec : List Cell) (stop : UnixAppStop)
      (hstop : stop.isStoped = false) : Residual r (Loop.body.run (between r cache vec stop))
  | read (cache : Option (List Pollfd)) (vec : List Cell) (stop : UnixAppStop)
      (hstop : stop.isStoped = false) (fd : Fd) (i : ℕ) :
      Residual r (.call (.read fd.desc vec.length) fun ans =>
        handled r cache (stored fd.desc vec ans) stop (result fd i ans))
  | handled (cache : Option (List Pollfd)) (vec : List Cell) (stop : UnixAppStop)
      (hstop : stop.isStoped = false) (res : Except UnixError UnixEvent) :
      Residual r (handled r cache vec stop res)
  | done (cache : Option (List Pollfd)) (vec : List Cell) (stop : UnixAppStop)
      (hstop : stop.isStoped = false) : Residual r (.ret (.ok none, between r cache vec stop))

variable {r : Startup} {line : Line} {l : List Fd}

theorem handled_cases (cache : Option (List Pollfd)) (vec : List Cell) {stop : UnixAppStop}
    (hstop : stop.isStoped = false) (res : Except UnixError UnixEvent) :
    handled r cache vec stop res = .ret (.ok none, between r cache vec stop) ∨
      ∃ o k, handled r cache vec stop res = .call o k ∧ (∀ fd n, o ≠ .read fd n) ∧
        ∀ a, ∃ stop', stop'.isStoped = false ∧
          k a = .ret (.ok none, between r cache vec stop') := by
  rw [handled, react, breaks_eq_none hstop]
  rcases ho : reaction (r.registry cache) vec res with _ | o
  · exact .inl rfl
  · exact .inr ⟨o, _, rfl, reaction_ne_read ho,
      fun a => ⟨_, isStoped_restop hstop o a, rfl⟩⟩

theorem body_call (cache : Option (List Pollfd)) (vec : List Cell) {stop : UnixAppStop}
    (hstop : stop.isStoped = false) : ∃ fds n timeout k,
      Loop.body.run (between r cache vec stop) = .call (.poll fds n timeout) k ∧
        ∀ a, Residual r (k a) := by
  refine ⟨_, _, _, _, body_run (r.idle cache) 200 vec stop, fun a => ?_⟩
  rcases a with e | p
  · exact .handled (some _) vec stop hstop _
  · simp only
    split_ifs with hn
    · exact .handled (some _) vec stop hstop _
    · unfold serve
      split
      · exact .handled (some _) vec stop hstop _
      · split_ifs
        · exact .handled (some _) vec stop hstop _
        · exact .read (some _) vec stop hstop _ _

theorem Residual.call {o : Sys} {k : Ans o → Rest} (h : Residual r (.call o k)) (a : Ans o) :
    Residual r (k a) := by
  generalize hp : Tree.call o k = p at h
  cases h with
  | body cache vec stop hstop =>
    obtain ⟨fds, n, timeout, k', hbody, hk⟩ := body_call cache vec hstop
    obtain ⟨rfl, hkk⟩ := Tree.call.inj (hp.trans hbody)
    obtain rfl := eq_of_heq hkk
    exact hk a
  | read cache vec stop hstop fd i =>
    obtain ⟨rfl, hkk⟩ := Tree.call.inj hp
    obtain rfl := eq_of_heq hkk
    exact .handled cache _ stop hstop _
  | handled cache vec stop hstop res =>
    rcases handled_cases cache vec hstop res with hret | ⟨o', k', hcall, -, hk⟩
    · rw [hret] at hp
      simp at hp
    · obtain ⟨rfl, hkk⟩ := Tree.call.inj (hp.trans hcall)
      obtain rfl := eq_of_heq hkk
      obtain ⟨stop', hstop', ha⟩ := hk a
      rw [ha]
      exact .done cache vec stop' hstop'
  | done cache vec stop hstop => simp at hp

theorem Residual.ret {p : Rest} (h : Residual r p) {x : Except Panic (Option ℤ) × Loop}
    (hp : p = .ret x) : ∃ cache vec stop, stop.isStoped = false ∧
      x = (.ok none, between r cache vec stop) := by
  cases h with
  | body cache vec stop hstop =>
    obtain ⟨_, _, _, _, hbody, -⟩ := body_call cache vec hstop
    rw [hbody] at hp
    simp at hp
  | read cache vec stop hstop fd i => simp at hp
  | handled cache vec stop hstop res =>
    rcases handled_cases cache vec hstop res with hret | ⟨o', k', hcall, -, -⟩
    · exact ⟨cache, vec, stop, hstop, Tree.ret.inj (hp.symm.trans hret)⟩
    · rw [hcall] at hp
      simp at hp
  | done cache vec stop hstop => exact ⟨cache, vec, stop, hstop, (Tree.ret.inj hp).symm⟩

/-! ### What the loop holds -/

variable {cache : Option (List Pollfd)} {vec : List Cell} {stop : UnixAppStop} {j k : Kind}
  {p : Rest}

@[simp] theorem bytes_nil : bytes [] = [] := rfl

theorem bytes_tag (k : Kind) (bs : List UInt8) : bytes (tag k bs) = bs := by
  rw [bytes, tag, List.map_map]
  exact List.map_id bs

theorem hand_eq_nil (h : ¬ AtWrite k p) : hand k p = [] := by
  rcases p with x | ⟨o, f⟩
  · rfl
  · cases o with
    | write fd buf => exact if_neg h
    | _ => rfl

theorem atWrite_react {f : Fds} {timeout : ℤ} {res : Except UnixError UnixEvent}
    (h : AtWrite k (react f timeout vec stop res)) :
    ∃ d buf, reaction f vec res = some (.write d buf) ∧ d.kind = k := by
  rw [react] at h
  rcases ho : reaction f vec res with _ | o <;> simp only [ho] at h
  · exact h.elim
  · cases o with
    | write d buf => exact ⟨d, buf, rfl, h⟩
    | _ => exact h.elim

theorem Residual.not_atMaster (h : Residual r p) : ¬ AtWrite .PtyMaster p := by
  cases h with
  | body cache vec stop hstop =>
    obtain ⟨_, _, _, _, hbody, -⟩ := body_call cache vec hstop
    rw [hbody]
    exact id
  | read cache vec stop hstop fd i => exact id
  | handled cache vec stop hstop res =>
    intro hat
    obtain ⟨d, buf, ho, hd⟩ := atWrite_react hat
    obtain ⟨j, hj⟩ := reaction_write ho
    rw [wire_registry] at hj
    cases j <;> simp only [route, reduceCtorEq, Option.some.injEq] at hj <;> subst hj <;>
      simp [slave, stdout] at hd
  | done cache vec stop hstop => exact id

theorem Residual.toPty_eq (h : Residual r p) : toPty p = hand .PtySlave p := by
  rw [toPty, hand_eq_nil h.not_atMaster, List.nil_append]

/-- Where the loop sends what it reads, by kind. -/
def routing : Kind → Option Kind
  | .PtyMaster => some .Stdout
  | .Stdin => some .PtySlave
  | _ => none

theorem route_kind (r : Startup) (k : Kind) : (route r k).map Desc.kind = routing k := by
  cases k <;> rfl

theorem hand_write {f : Fds} {timeout : ℤ} {res : Except UnixError UnixEvent} {d : Desc}
    {buf : List Cell} (h : reaction f vec res = some (.write d buf)) :
    hand k (react f timeout vec stop res) = if d.kind = k then bytes buf else [] := by
  rw [react, h]
  rfl

/-- Nothing is in hand when the reaction moves nothing. -/
theorem hand_aside {f : Fds} {timeout : ℤ} {res : Except UnixError UnixEvent}
    (h : ∀ o, reaction f vec res = some o → IsAside o) :
    hand k (react f timeout vec stop res) = [] := by
  refine hand_eq_nil fun hat => ?_
  obtain ⟨d, buf, ho, -⟩ := atWrite_react hat
  obtain hnow | ⟨pid, hwait⟩ := h _ ho
  · simp at hnow
  · simp at hwait

theorem routing_inj {j' k' : Kind} (hj : routing j = some k) (hj' : routing j' = some k') :
    j = j' ↔ k' = k := by
  cases j <;> cases j' <;> simp [routing] at hj hj' <;> subst hj <;> subst hj' <;> simp

theorem routing_ne_none (hj : routing j = some k) : outlet j ≠ none := by
  cases j <;> simp [routing, outlet] at hj ⊢

/-- **What is read is in hand**, for the kind it is routed to. -/
theorem hand_read (hj : routing j = some k) (fd : Fd) (i : ℕ)
    (ans : Except Errno (Chunk fd.kind vec.length)) :
    hand k (handled r cache (stored fd.desc vec ans) stop (result fd i ans)) =
      bytes (taken j ⟨.read fd.desc vec.length, ans⟩) := by
  have htaken : ∀ c : Chunk fd.kind vec.length, bytes (taken j ⟨.read fd.desc vec.length, .ok c⟩) =
      if j = fd.kind then c.bytes else [] := by
    intro c
    refine (congrArg bytes (taken_read_ok fd.desc vec.length c)).trans ?_
    rw [apply_ite bytes, bytes_tag]
    rfl
  by_cases hdata : ∃ c, ans = .ok c ∧ c.bytes ≠ [] ∧ outlet fd.kind ≠ none
  · obtain ⟨c, rfl, hc, hout⟩ := hdata
    obtain ⟨d, hd⟩ : ∃ d, route r fd.kind = some d := by
      cases hkind : fd.kind <;> simp [hkind, outlet, route] at hout ⊢
    have hrouting : routing fd.kind = some d.kind := by
      rw [← route_kind r, hd]
      rfl
    have hwrite : reaction (r.registry cache) (stored fd.desc vec (.ok c)) (result fd i (.ok c)) =
        some (.write d (tag fd.kind c.bytes)) :=
      (reaction_data hc hout).trans (by rw [wire_registry, hd]; rfl)
    refine (hand_write hwrite).trans (Eq.trans ?_ (htaken c).symm)
    rw [bytes_tag]
    exact if_congr (routing_inj hj hrouting).symm rfl rfl
  · have haside : ∀ o, reaction (r.registry cache) (stored fd.desc vec ans) (result fd i ans) =
        some o → IsAside o := by
      intro o ho
      refine (reaction_read ho).resolve_right ?_
      rintro ⟨c, d, rfl, hc, hd, -⟩
      exact hdata ⟨c, rfl, hc, fun hout => by simp [wire, hout] at hd⟩
    rw [hand_aside haside]
    rcases ans with e | c
    · rfl
    · refine Eq.trans ?_ (htaken c).symm
      split_ifs with hk
      · by_contra hc
        exact hdata ⟨c, rfl, Ne.symm hc, hk ▸ routing_ne_none hj⟩
      · rfl

/-- **After a call of the loop** it holds what the call took. -/
theorem hand_call {o : Sys} {f : Ans o → Rest} (h : Residual r (.call o f))
    (hj : routing j = some k) (a : Ans o) : hand k (f a) = bytes (taken j ⟨o, a⟩) := by
  generalize hp : Tree.call o f = p at h
  cases h with
  | body cache vec stop hstop =>
    rw [body_run (r.idle cache) 200 vec stop] at hp
    obtain ⟨rfl, hf⟩ := Tree.call.inj hp
    obtain rfl := eq_of_heq hf
    have hquiet : ∀ f {res : Except UnixError UnixEvent}, Quiet res →
        hand k (react f 200 vec stop res) = [] :=
      fun f res hq => hand_aside fun o => reaction_quiet hq
    rcases a with e | p
    · exact hquiet _ (.inr (.inr ⟨e, rfl⟩))
    simp only
    split_ifs with hn
    · exact hquiet _ (.inl rfl)
    unfold serve
    split
    · exact hquiet _ (.inr (.inl rfl))
    split_ifs
    · exact hquiet _ (.inr (.inl rfl))
    · rfl
  | read cache vec stop hstop fd i =>
    obtain ⟨rfl, hf⟩ := Tree.call.inj hp
    obtain rfl := eq_of_heq hf
    exact hand_read hj fd i a
  | handled cache vec stop hstop res =>
    rcases handled_cases cache vec hstop res with hret | ⟨o', f', hcall, ho, hf'⟩
    · rw [hret] at hp
      simp at hp
    · obtain ⟨rfl, hf⟩ := Tree.call.inj (hp.trans hcall)
      obtain rfl := eq_of_heq hf
      obtain ⟨stop', -, ha⟩ := hf' a
      rw [ha]
      cases o with
      | read fd n => exact absurd rfl (ho fd n)
      | _ => rfl
  | done cache vec stop hstop => simp at hp

/-- After a call, the loop has what the call took from stdin to write to the pty. -/
theorem toPty_call {o : Sys} {f : Ans o → Rest} (h : Residual r (.call o f)) (a : Ans o) :
    toPty (f a) = bytes (taken .Stdin ⟨o, a⟩) := by
  rw [(h.call a).toPty_eq, hand_call (j := .Stdin) h rfl a]

theorem hand_body {s : Loop} (h : Residual r (.ret (.ok none, s))) :
    hand k (Loop.body.run s) = [] := by
  obtain ⟨cache, vec, stop, hstop, hx⟩ := h.ret rfl
  obtain ⟨-, rfl⟩ := Prod.mk.inj hx
  rw [body_run (r.idle cache) 200 vec stop]
  rfl

theorem toPty_body {s : Loop} (h : Residual r (.ret (.ok none, s))) :
    toPty (Loop.body.run s) = [] := by
  rw [toPty, hand_body h, hand_body h]
  rfl

/-! ### Room -/

variable {q q' : Queues} {bs cs : List UInt8}

theorem Line.Room.isEnd (h : line.Room k q bs) : k = .PtyMaster ∨ k = .PtySlave := by
  cases k <;> simp [Line.Room] at h ⊢

theorem Line.room_put (h : k = .PtyMaster ∨ k = .PtySlave) :
    line.Room k (line.put k q bs) cs ↔ line.Room k q (bs ++ cs) := by
  obtain rfl | rfl := h <;> simp [Line.Room, Line.put, Nat.add_assoc]

theorem Line.Room.of_append (h : line.Room k q (bs ++ cs)) :
    line.Room k q bs ∧ line.Room k q cs := by
  obtain rfl | rfl := h.isEnd <;>
    simp only [Line.Room, process_append, List.length_append] at h ⊢ <;> omega

@[simp] theorem Line.room_raw (m n : ℕ) :
    (raw m n).Room .PtySlave q bs ↔ q.toMaster.length + bs.length ≤ n := by
  rw [Room, process_raw]
  rfl

theorem Line.Waits.ne_nil (h : line.Waits k q bs) : bs ≠ [] := by
  rintro rfl
  obtain ⟨b, hb, -⟩ := h
  simp at hb

theorem Line.Waits.no_room (h : line.Waits k q bs) {n : ℕ} (hn : n ≠ 0) :
    ¬ line.Room k q (bs.take n) := by
  obtain ⟨b, hb, hno⟩ := h
  obtain ⟨cs, rfl⟩ := List.head?_eq_some_iff.mp hb
  obtain ⟨m, rfl⟩ := Nat.exists_eq_succ_of_ne_zero hn
  intro hroom
  have hsplit : line.Room k q ([b] ++ cs.take m) := hroom
  exact hno hsplit.of_append.1

theorem not_waits : ¬ line.Waits k q bs ↔ ∀ b ∈ bs.head?, line.Room k q [b] := by
  simp [Line.Waits]

/-! ### Steps -/

variable {s s' : System} {a : Action}

theorem deadlocked_iff (h : Residual r s.parent) : Deadlocked line s ↔
    AtWrite .PtySlave s.parent ∧ line.Waits .PtySlave s.queues s.left := by
  simp [Deadlocked, h.not_atMaster]

theorem atSlave (h : Residual r p) (hp : AtWrite k p) (hroom : line.Room k q bs) :
    k = .PtySlave := by
  obtain rfl | rfl := hroom.isEnd
  · exact absurd hp h.not_atMaster
  · rfl

theorem residual_step (h : Residual r s.parent) (hs : Step line l s a s') :
    Residual r s'.parent := by
  cases hs with
  | call _ => exact h.call _
  | iterate =>
    obtain ⟨cache, vec, stop, hstop, hx⟩ := h.ret rfl
    obtain ⟨-, rfl⟩ := Prod.mk.inj hx
    exact .body cache vec stop hstop
  | _ => exact h

/-- A call that takes something from stdin leaves the pty as it is. -/
theorem pty_stdin {e : SysEvent} (h : pty l q e q') (he : bytes (taken .Stdin e) ≠ []) :
    q' = q := by
  obtain ⟨o, ans⟩ := e
  cases o with
  | read fd n =>
    obtain ⟨kind, raw⟩ := fd
    rcases ans with e | c
    · exact absurd rfl he
    · rw [taken_read_ok] at he
      cases kind with
      | Stdin => exact h
      | _ => simp at he
  | _ => exact absurd rfl he

theorem pty_poll {p : Polled} (hp : Reports l q p) (fds : List (RawFd × Int16)) (n : ℕ)
    (timeout : ℤ) : pty l q ⟨.poll fds n timeout, .ok p⟩ q := by
  refine ⟨rfl, fun p' hp' => ?_⟩
  rwa [← Except.ok.inj hp']

/-- **A step** leads into a deadlock exactly if it is not harmless. -/
theorem step_deadlocked (h : Residual r s.parent) (hgood : ¬ Deadlocked line s)
    (hs : Step line l s a s') : ¬ Deadlocked line s' ↔ Harmless line s a := by
  rw [deadlocked_iff (residual_step h hs)]
  rw [deadlocked_iff h] at hgood
  cases hs with
  | @call o f ans q q' w hq =>
    have hleft := toPty_call h ans
    have hhand := hand_call (j := .Stdin) h rfl ans
    constructor
    · intro hno b hb
      by_contra hroom
      have hne : bytes (taken .Stdin ⟨o, ans⟩) ≠ [] := by
        intro hnil
        rw [hnil] at hb
        simp at hb
      have hat : AtWrite .PtySlave (f ans) := by
        by_contra hat
        exact hne (hhand.symm.trans (hand_eq_nil hat))
      rw [pty_stdin hq hne, hleft] at hno
      exact hno ⟨hat, b, hb, hroom⟩
    · rintro hharm ⟨-, hwaits⟩
      rw [hleft] at hwaits
      rw [pty_stdin hq hwaits.ne_nil] at hwaits
      exact not_waits.mpr hharm hwaits
  | iterate =>
    have hleft := toPty_body h
    simp only [hleft, Harmless, iff_true]
    exact fun hdead => hdead.2.ne_nil rfl
  | @parentPuts p k q u w n hp hn hu hroom =>
    obtain rfl := atSlave h hp hroom
    simp only [Harmless, not_and, not_waits, Line.room_put (Or.inr rfl)]
  | childWrites _ => simpa [Harmless] using hgood
  | childPuts hn hw hroom =>
    simp only [Harmless, not_and, not_waits, Line.room_put (Or.inr rfl)]
  | childReads _ _ => exact ⟨fun _ => trivial, fun _ => hgood⟩

/-- **A deadlock is for ever.** -/
theorem deadlocked_forever (h : Residual r s.parent) (hdead : Deadlocked line s)
    (hs : Step line l s a s') : Deadlocked line s' := by
  rw [deadlocked_iff h] at hdead
  rw [deadlocked_iff (residual_step h hs)]
  obtain ⟨hat, hwaits⟩ := hdead
  cases hs with
  | call _ => exact absurd rfl hwaits.ne_nil
  | iterate => exact hat.elim
  | parentPuts hp hn _ hroom =>
    obtain rfl := atSlave h hp hroom
    exact absurd hroom (hwaits.no_room hn)
  | childPuts _ _ _ =>
    obtain ⟨b, hb, hno⟩ := hwaits
    refine ⟨hat, b, hb, fun hroom => hno ?_⟩
    exact ((Line.room_put (Or.inr rfl)).mp hroom).of_append.2
  | childWrites _ => exact ⟨hat, hwaits⟩
  | childReads _ _ => exact ⟨hat, hwaits⟩

/-! ### Runs -/

theorem start_system (r : Startup) : System.start (r.app none zeros) =
    ⟨Loop.body.run (between r none zeros UnixAppStop.new), ⟨[], []⟩, [], []⟩ := by
  have hleft : toPty (Loop.body.run (Loop.start (r.app none zeros))) = [] :=
    toPty_body (.done none zeros UnixAppStop.new rfl)
  rw [System.start, hleft, start_eq]

theorem start_residual (r : Startup) : Residual r (System.start (r.app none zeros)).parent := by
  rw [start_system]
  exact .body none zeros UnixAppStop.new rfl

theorem start_not_deadlocked (r : Startup) :
    ¬ Deadlocked line (System.start (r.app none zeros)) := by
  rw [deadlocked_iff (start_residual r), start_system]
  exact fun hdead => hdead.2.ne_nil rfl

/-- **The relay does not deadlock** in a run exactly if its steps are harmless. -/
theorem deadlock_iff {app : UnixApp} (hb : Built app) {hist : List (System × Action)}
    (h : Run (Step line (fds app.poller.fds)) (System.start app) hist s) :
    Run.Always (fun s => ¬ Deadlocked line s) hist s ↔ ∀ x ∈ hist, Harmless line x.1 x.2 := by
  obtain ⟨r, rfl⟩ := built_iff.mp hb
  exact h.safe_iff (I := fun s => Residual r s.parent) (start_residual r) (start_not_deadlocked r)
    (fun _ _ _ hI hs => residual_step hI hs) fun _ _ _ hI hgood hs => step_deadlocked hI hgood hs

theorem parent_reads {s₀ : System} {hist : List (System × Action)} {cache : Option (List Pollfd)}
    {vec : List Cell} {stop : UnixAppStop} (hstop : stop.isStoped = false) {n : ℕ}
    (hlen : vec.length = n) {q q' : Queues} {w : List UInt8}
    (h : Run (Step line l) s₀ hist ⟨Loop.body.run (between r cache vec stop), q, [], w⟩)
    (p : Polled) (hp : p.n ≠ 0) (hreports : Reports l q p) (fd : Fd) {i : ℕ}
    (hfr : firstReady r.entries (arrayAfter (r.registry cache) p) 5 0 = some (fd, i))
    (hk : fd.kind ≠ .Stdout) (ans : Except Errno (Chunk fd.kind n))
    (hread : pty l q ⟨.read fd.desc n, ans⟩ q') {u : List UInt8}
    (hu : bytes (taken .Stdin ⟨.read fd.desc n, ans⟩) = u) : ∃ hist' cache' vec',
      Run (Step line l) s₀ hist' ⟨handled r cache' vec' stop (result fd i ans), q', u, w⟩ := by
  subst hlen
  rw [body_run (r.idle cache) 200 vec stop] at h
  have hpoll := h.step (.call (pty_poll hreports _ _ _))
  have hlen : (r.registry cache).len = 5 := rfl
  simp only [hp, if_false, serve, Startup.fds_registry, hlen, hfr, hk] at hpoll
  have hdone := hpoll.step (.call (a := ans) hread)
  have hleft := toPty_call (Residual.read (r := r)
    (some (consume (arrayAfter (r.registry cache) p) fd)) vec stop hstop fd i) ans
  rw [← hu, ← hleft]
  exact ⟨_, _, _, hdone⟩

theorem sample_stdin {i : ℕ} {fd : Fd} (hi : sample.entries[i]? = some fd)
    (hk : fd.kind ≠ .Stdin) : i ≠ 3 := by
  rintro rfl
  obtain rfl := Option.some.inj hi
  exact hk rfl

theorem sample_reports : Reports sample.entries ⟨[], []⟩ (readyAt 3) where
  count := by
    constructor
    · intro h
      simp [readyAt] at h
    · intro h
      have hstdin : (readyAt 3).revents 3 = 0 := h 3 (by decide)
      simp [readyAt, POLLIN] at hstdin
  master i fd hi hk := by
    have hne : i ≠ 3 := sample_stdin hi (by simp [hk])
    simp [readyAt, hne]
  slave i fd hi hk := by
    have hne : i ≠ 3 := sample_stdin hi (by simp [hk])
    simp [readyAt, hne]

/-- The loop may have read any chunk from stdin, the pty empty, and be about to write it. -/
theorem chunk_read (line : Line) (c : Chunk .Stdin 4096) (hc : c.bytes ≠ []) : ∃ hist p,
    Run (Step line (fds (sample.app none zeros).poller.fds)) (System.start (sample.app none zeros))
      hist ⟨p, ⟨[], []⟩, c.bytes, []⟩ ∧ AtWrite .PtySlave p := by
  have h0 : Run (Step line sample.entries) (System.start (sample.app none zeros)) []
      ⟨Loop.body.run (between sample none zeros UnixAppStop.new), ⟨[], []⟩, [], []⟩ := by
    rw [← start_system]
    exact .start
  have hleft : bytes (taken .Stdin ⟨.read ⟨.Stdin, stdinFd⟩ 4096, .ok c⟩) = c.bytes := by
    rw [taken_read_ok, if_pos rfl, bytes_tag]
  obtain ⟨hist, cache, vec, h⟩ := parent_reads rfl List.length_replicate h0 (readyAt 3) (by decide)
    sample_reports (.Stdin stdinFd POLLIN sample.termios) (i := 3) (by decide) (by decide) (.ok c)
    rfl hleft
  have hres : result (.Stdin stdinFd POLLIN sample.termios) 3 (.ok c) =
      .ok (.Stdin 3 ⟨c.bytes.length⟩) := if_neg hc
  rw [hres] at h
  have hat : AtWrite .PtySlave
      (handled sample cache vec UnixAppStop.new (.ok (.Stdin 3 ⟨c.bytes.length⟩))) := rfl
  exact ⟨hist, _, h, hat⟩

/-- **A deadlock is reachable** with any capacity: the loop reads a key from stdin, and the child
fills the queue to the master before the loop writes the key to the slave. -/
theorem deadlock_reachable (m : ℕ) {n : ℕ} (hn : n ≠ 0) : ∃ hist s,
    Run (Step (.raw m n) (fds (sample.app none zeros).poller.fds))
      (System.start (sample.app none zeros)) hist s ∧ Deadlocked (.raw m n) s := by
  obtain ⟨hist, p, h, hat⟩ := chunk_read (.raw m n) (oneByte .Stdin (by decide) 0x6c) (by decide)
  have hburst : List.replicate n (0 : UInt8) ≠ [] := by simpa using hn
  have hwrites := h.step (.childWrites hburst)
  have hputs := hwrites.step (.childPuts hn (by simp) (by simp))
  refine ⟨_, _, hputs, .inl ⟨hat, 0x6c, rfl, ?_⟩⟩
  rw [Line.room_put (.inr rfl)]
  simp

/-- **The loop deadlocks by itself** when more is typed at once than the queue holds. -/
theorem paste_deadlocks (m : ℕ) {n : ℕ} (hn : n ≠ 0) (c : Chunk .Stdin 4096)
    (hc : n < c.bytes.length) : ∃ hist s,
    Run (Step (.raw m n) (fds (sample.app none zeros).poller.fds))
      (System.start (sample.app none zeros)) hist s ∧ Deadlocked (.raw m n) s := by
  have hne : c.bytes ≠ [] := List.ne_nil_of_length_pos (Nat.zero_lt_of_lt hc)
  obtain ⟨hist, p, h, hat⟩ := chunk_read (.raw m n) c hne
  have hlen : (c.bytes.take n).length = n := by
    rw [List.length_take, Nat.min_eq_left (Nat.le_of_lt hc)]
  have hroom : (Line.raw m n).Room .PtySlave ⟨[], []⟩ (c.bytes.take n) := by
    rw [Line.room_raw, hlen]
    simp
  have hputs := h.step (.parentPuts hat hn (Nat.le_of_lt hc) hroom)
  refine ⟨_, _, hputs, .inl ⟨hat, c.bytes[n], ?_, ?_⟩⟩
  · rw [List.drop_eq_getElem_cons hc]
    rfl
  · rw [Line.room_put (.inr rfl), Line.room_raw, List.length_append, hlen]
    simp

theorem deadlock_iff_sample : ∃ hist s,
    Run (Step (.raw 4096 4096) (fds (sample.app none zeros).poller.fds))
      (System.start (sample.app none zeros)) hist s ∧
      (Run.Always (fun s => ¬ Deadlocked (.raw 4096 4096) s) hist s ↔
        ∀ x ∈ hist, Harmless (.raw 4096 4096) x.1 x.2) := by
  obtain ⟨hist, s, h, -⟩ := deadlock_reachable 4096 (by decide : 4096 ≠ 0)
  exact ⟨hist, s, h, deadlock_iff sample_built h⟩

/-- The loop and the child wait for each other. -/
theorem relay_deadlocks : ∃ hist s,
    Run (Step (.raw 4096 4096) (fds (sample.app none zeros).poller.fds))
      (System.start (sample.app none zeros)) hist s ∧
      ¬ Run.Always (fun s => ¬ Deadlocked (.raw 4096 4096) s) hist s := by
  obtain ⟨hist, s, h, hdead⟩ := deadlock_reachable 4096 (by decide : 4096 ≠ 0)
  exact ⟨hist, s, h, fun hsafe => hsafe.2 hdead⟩

end SshPass.EventLoop.Pty
