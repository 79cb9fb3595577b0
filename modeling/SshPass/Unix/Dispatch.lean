import SshPass.Lib.Transition
import SshPass.Unix.AppSpec
import SshPass.Unix.ReadyIter

/-! # Consecutive calls of `system_event`

A run of calls, the event of each dropped before the next. The cache keeps the `revents` that a call
did not consume, but the next poll overwrites them: so each call serves the entry at the lowest
position that its own poll found ready (`Serves`), whatever was left by the calls before
(`dispatch_current`). -/

namespace SshPass.Unix.Dispatch

open SshPass.Lib.CallTree SshPass.Lib.Borrow SshPass.Lib.Stateful SshPass.Lib.Stateful.Prog
open SshPass.Lib.Transition SshPass.Unix.Kernel SshPass.Unix.Registry SshPass.Unix.RegistrySpec
open SshPass.Unix.App SshPass.Unix.AppSpec SshPass.Unix.Cache SshPass.Unix.ReadyIter

/-! ### Runs of calls -/

/-- A call of `system_event`: the system calls it made, and how it ended. -/
structure Called where
  trace : List SysEvent
  result : Except Panic (Except UnixError UnixEvent)

/-- The event of a call goes out of scope, and with it the guard of the buffer it may hold. -/
def dropEvent (a : UnixApp) : UnixApp := { a with buf := ⟨a.buf.buf.dropRef⟩ }

/-- One call, and its event dropped. -/
def Step (a : UnixApp) (c : Called) (a' : UnixApp) : Prop :=
  ∃ a₁, (UnixApp.systemEvent.run a).Exec c.trace (c.result, a₁) ∧ a' = dropEvent a₁

/-- The descriptors of an application. -/
def entries (a : UnixApp) : List Fd := fds a.poller.fds

/-- No guard is live and the cache is coherent. -/
structure Settled (a : UnixApp) : Prop where
  idle : Idle a.poller.fds
  coherent : Coherent a.poller.fds
  free : a.buf.buf.Free

/-! ### What a call should do -/

/-- A successful poll returns the number of the entries it found ready. -/
def Counts (F : List Fd) (p : Polled) : Prop :=
  p.n = ((List.range F.length).filter fun i => p.revents i ≠ 0).length

instance (F : List Fd) (p : Polled) : Decidable (Counts F p) := inferInstanceAs (Decidable (_ = _))

/-- The entry `fd` is at the lowest position that the poll found ready. -/
def Lowest (F : List Fd) (p : Polled) (fd : Fd) (i : ℕ) : Prop :=
  F[i]? = some fd ∧ p.revents i ≠ 0 ∧ ∀ j < i, p.revents j = 0

/-- The event carries the position and the kind of an entry. -/
def Carries (fd : Fd) (i : ℕ) : UnixEvent → Prop
  | .Stdin index _ => index = i ∧ fd.kind = .Stdin
  | .PtyMaster index _ => index = i ∧ fd.kind = .PtyMaster
  | .PtySlave index _ => index = i ∧ fd.kind = .PtySlave
  | .Signal index _ _ => index = i ∧ fd.kind = .Signal
  | .ReadZeroBytes => True
  | .PollTimeout => False

/-- A call that selects the entry `fd` at `i` after the poll `p`: it consumes the readiness of that
entry only, and makes no further call but one read of it, from which the result comes; a selected
stdout is not read. -/
structure Selects (a a' : UnixApp) (p : Polled) (fd : Fd) (i : ℕ) (rest : List SysEvent)
    (x : Except Panic (Except UnixError UnixEvent)) : Prop where
  consumed : ∀ j < (entries a).length,
    revents (array a'.poller.fds) j = if j = i then 0 else p.revents j
  reads : if fd.kind = .Stdout then rest = [] ∧ x = .ok (.error .PollEventNotHandle) else
    ∃ ans, rest = [⟨.read fd.desc a.buf.buf.value.length, ans⟩] ∧ x = .ok (result fd i ans)
  carries : ∀ e, x = .ok (.ok e) → Carries fd i e

/-- The call of `poll` and its answer. -/
def pollCall (a : UnixApp) (ans : Except Errno Polled) : SysEvent :=
  ⟨.poll ((entries a).map fun fd => (fd.asRawFd, fd.events)) (entries a).length
    a.poller.pollTimeout, ans⟩

/-- What a call does after the answer of its poll. -/
def Serves (a a' : UnixApp) (rest : List SysEvent)
    (x : Except Panic (Except UnixError UnixEvent)) : Except Errno Polled → Prop
  | .error e => rest = [] ∧ x = .ok (.error (.NixErrorno e))
  | .ok p => (x = .ok (.ok .PollTimeout) ↔ p.n = 0) ∧ (p.n = 0 → rest = []) ∧
      (p.n ≠ 0 → Counts (entries a) p →
        ∃ fd i, Lowest (entries a) p fd i ∧ Selects a a' p fd i rest x)

variable {F : List Fd} {l : List Pollfd} {p : Polled} {fd fd' : Fd} {i i' : ℕ} {a a' : UnixApp}

theorem Lowest.unique (h : Lowest F p fd i) (h' : Lowest F p fd' i') : fd = fd' ∧ i = i' := by
  obtain ⟨hi, hr, hlow⟩ := h
  obtain ⟨hi', hr', hlow'⟩ := h'
  have hle : i' ≤ i := by
    by_contra hlt
    exact hr (hlow' i (by omega))
  have hge : i ≤ i' := by
    by_contra hlt
    exact hr' (hlow i' (by omega))
  obtain rfl := Nat.le_antisymm hge hle
  exact ⟨Option.some.inj (hi.symm.trans hi'), rfl⟩

/-! ### The array after a poll -/

/-- The array after the poll `p`. -/
def polled (a : UnixApp) (p : Polled) : List Pollfd :=
  Poller.storeRevents (array a.poller.fds) (entries a).length p.revents

theorem describes_polled (hc : Coherent a.poller.fds) (p : Polled) :
    Describes (entries a) (polled a p) := hc.describes_array.storeRevents _ p.revents

/-- The poll overwrites the `revents` of every entry. -/
theorem revents_polled (hc : Coherent a.poller.fds) (p : Polled) (hi : i < (entries a).length) :
    revents (polled a p) i = p.revents i := by
  have hlen : (array a.poller.fds).length = (entries a).length := hc.describes_array.length_eq
  have hlt : i < (array a.poller.fds).length := by omega
  have hx : (polled a p)[i]? =
      some { (array a.poller.fds)[i] with revents := p.revents i } := by
    rw [polled, Poller.storeRevents, List.getElem?_mapIdx, List.getElem?_eq_getElem hlt,
      Option.map_some, if_pos hi]
  exact revents_eq hx

/-- After a poll that counted an entry the iterator finds the one at the lowest ready position. -/
theorem firstReady_lowest (hc : Coherent a.poller.fds) (hd : Distinct (entries a)) (hn : p.n ≠ 0)
    (hcount : Counts (entries a) p) : ∃ fd i, Lowest (entries a) p fd i ∧
      firstReady (entries a) (polled a p) (entries a).length 0 = some (fd, i) := by
  have hspec := firstReady_spec (describes_polled hc p) hd (entries a).length 0 rfl
  rcases hf : firstReady (entries a) (polled a p) (entries a).length 0 with _ | ⟨fd, i⟩ <;>
    simp only [hf] at hspec
  · have hnone : ((List.range (entries a).length).filter fun j => p.revents j ≠ 0) = [] := by
      refine List.filter_eq_nil_iff.mpr fun j hj => ?_
      have hzero := hspec j (Nat.zero_le j)
      rw [revents_polled hc p (List.mem_range.mp hj)] at hzero
      simpa using hzero
    rw [Counts, hnone] at hcount
    exact absurd hcount hn
  · obtain ⟨-, hfd, hr, hlow⟩ := hspec
    have hlt := (List.getElem?_eq_some_iff.mp hfd).1
    rw [revents_polled hc p hlt] at hr
    refine ⟨fd, i, ⟨hfd, hr, fun j hj => ?_⟩, rfl⟩
    have hjlt : j < (entries a).length := by omega
    rw [← revents_polled hc p hjlt]
    exact hlow j (Nat.zero_le j) hj

theorem revents_consume (h : Describes F l) (hd : Distinct F) (hi : F[i]? = some fd)
    (hr : revents l i ≠ 0) (j : ℕ) :
    revents (consume l fd) j = if j = i then 0 else revents l j := by
  obtain ⟨x, hx, hcons⟩ := consume_eq h hd hi hr
  have hlt := (List.getElem?_eq_some_iff.mp hx).1
  rw [hcons, revents, List.getElem?_set]
  by_cases hij : i = j
  · subst hij
    simp [hlt]
  · have hji : ¬ j = i := fun h => hij h.symm
    rw [if_neg hij, if_neg hji]
    rfl

theorem describes_consume (h : Describes F l) (fd : Fd) : Describes F (consume l fd) := by
  rw [consume]
  rcases hr : ready? l fd with _ | ⟨k, x⟩
  · exact h
  · exact h.set (getPollfdByRawId_some (Option.mem_filter_iff.mp hr).1)

/-! ### One call -/

theorem result_cases (hk : fd.kind ≠ .Stdout) {len : ℕ}
    (ans : Except Errno (Chunk fd.kind len)) :
    (∃ e, result fd i ans = .error (.NixErrorno e)) ∨
      ∃ e, result fd i ans = .ok e ∧ Carries fd i e := by
  rcases ans with e | c
  · by_cases he : e.code = EAGAIN.code
    · exact .inr ⟨.ReadZeroBytes, by rw [result, readError, if_pos he], trivial⟩
    · exact .inl ⟨e, by rw [result, readError, if_neg he]⟩
  · by_cases hb : c.bytes = []
    · exact .inr ⟨.ReadZeroBytes, by rw [result, if_pos hb], trivial⟩
    · rw [result, if_neg hb]
      cases fd with
      | Stdout raw events => exact absurd rfl hk
      | Signal raw events =>
        simp only [eventOf]
        rcases head? c.bytes with _ | info
        · exact .inr ⟨_, rfl, trivial⟩
        · simp only
          rcases Signal.tryFrom (asI32 info.ssiSigno) with e | sig
          · exact .inl ⟨e, rfl⟩
          · exact .inr ⟨_, rfl, rfl, rfl⟩
      | _ => exact .inr ⟨_, rfl, rfl, rfl⟩

theorem result_carries (hk : fd.kind ≠ .Stdout) {len : ℕ}
    (ans : Except Errno (Chunk fd.kind len)) {e : UnixEvent} (h : result fd i ans = .ok e) :
    Carries fd i e := by
  obtain ⟨e', he'⟩ | ⟨e', he', hcarries⟩ := result_cases (i := i) hk ans
  · simp [he'] at h
  · rw [h] at he'
    obtain rfl := Except.ok.inj he'
    exact hcarries

theorem guards_le (res : Except UnixError UnixEvent) : guards res ≤ 1 := by
  unfold guards
  split <;> simp

/-- The application with the array `l` in its cache. -/
def withArray (a : UnixApp) (l : List Pollfd) : UnixApp :=
  ⟨⟨cached a.poller.fds l, a.poller.pollTimeout⟩, ⟨RefCell.new a.buf.buf.value⟩⟩

/-- **`system_event` on a settled application.** -/
theorem systemEvent_settled (ha : Settled a) : UnixApp.systemEvent.run a =
    .call (.poll ((entries a).map fun fd => (fd.asRawFd, fd.events)) (entries a).length
      a.poller.pollTimeout) fun
      | .error e => .ret (.ok (.error (.NixErrorno e)), withArray a (array a.poller.fds))
      | .ok p =>
        if p.n = 0 then .ret (.ok (.ok .PollTimeout), withArray a (polled a p))
        else afterPoll a.poller.fds a.poller.pollTimeout a.buf.buf.value (polled a p) := by
  obtain ⟨⟨f, timeout⟩, ⟨b⟩⟩ := a
  obtain ⟨hidle, hcoherent, hfree⟩ := ha
  have hb : b = RefCell.new b.value := RefCell.Free.eq_new hfree
  have hdesc : Describes (fds f) (array f) := Coherent.describes_array hcoherent
  have hlen : f.len = (fds f).length := (length_fds f).symm
  have hcall : ∀ {L M : List (RawFd × Int16)} {n m : ℕ} {k : Except Errno Polled →
        Tree Sys Ans (Except Panic (Except UnixError UnixEvent) × UnixApp)}, L = M → n = m →
      @Tree.call Sys Ans _ (.poll L n timeout) k = @Tree.call Sys Ans _ (.poll M m timeout) k := by
    rintro _ _ _ _ _ rfl rfl
    rfl
  rw [hb, systemEvent_run timeout b.value hidle, hcall hdesc hlen]
  refine Tree.call_congr fun ans => ?_
  rcases ans with e | p
  · rfl
  · simp only [hlen]
    rfl

theorem settled_dropEvent (ha : Settled a) (hl : Describes (entries a) l) {vec : List Cell} {n : ℕ}
    (hn : n ≤ 1) : Settled (dropEvent
      ⟨⟨cached a.poller.fds l, a.poller.pollTimeout⟩, ⟨⟨vec, .reading n⟩⟩⟩) := by
  refine ⟨ha.idle.cached l, fun l' hl' => ?_, ?_⟩
  · obtain rfl : l = l' := Option.some.inj hl'
    exact hl
  · obtain rfl | rfl : n = 0 ∨ n = 1 := by omega
    · rfl
    · rfl

theorem selects_found (ha : Settled a) (hd : Distinct (entries a))
    (hlow : Lowest (entries a) p fd i) {rest : List SysEvent}
    {x : Except Panic (Except UnixError UnixEvent)}
    (hx : if fd.kind = .Stdout then rest = [] ∧ x = .ok (.error .PollEventNotHandle) else
      ∃ ans, rest = [⟨.read fd.desc a.buf.buf.value.length, ans⟩] ∧ x = .ok (result fd i ans))
    {a₁ : UnixApp} (ha₁ : a₁.poller.fds = cached a.poller.fds (consume (polled a p) fd)) :
    Selects a a₁ p fd i rest x := by
  have hlt := (List.getElem?_eq_some_iff.mp hlow.1).1
  refine ⟨fun j hj => ?_, hx, fun e he => ?_⟩
  · have hr : revents (polled a p) i ≠ 0 := by
      rw [revents_polled ha.coherent p hlt]
      exact hlow.2.1
    rw [ha₁, ← revents_polled ha.coherent p hj]
    exact revents_consume (describes_polled ha.coherent p) hd hlow.1 hr j
  · split_ifs at hx with hk
    · obtain ⟨-, rfl⟩ := hx
      simp at he
    · obtain ⟨ans, -, rfl⟩ := hx
      exact result_carries hk ans (Except.ok.inj he)

theorem serves_afterPoll (ha : Settled a) (hd : Distinct (entries a)) (hn : p.n ≠ 0)
    {rest : List SysEvent} {x : Except Panic (Except UnixError UnixEvent)} {a₁ : UnixApp}
    (he : (afterPoll a.poller.fds a.poller.pollTimeout a.buf.buf.value (polled a p)).Exec rest
      (x, a₁)) : Settled (dropEvent a₁) ∧ entries (dropEvent a₁) = entries a ∧
        Serves a (dropEvent a₁) rest x (.ok p) := by
  have hlen : a.poller.fds.len = (entries a).length := (length_fds _).symm
  have hpolled := describes_polled ha.coherent p
  rw [afterPoll, hlen] at he
  rcases hfr : firstReady (entries a) (polled a p) (entries a).length 0 with _ | ⟨fd, i⟩
  · have hfr' : firstReady (fds a.poller.fds) (polled a p) (entries a).length 0 = none := hfr
    simp only [hfr'] at he
    obtain ⟨rfl, he⟩ := he
    obtain ⟨rfl, rfl⟩ := Prod.mk.inj he
    refine ⟨settled_dropEvent ha hpolled (Nat.zero_le 1), rfl, by simp [hn], fun _ => rfl,
      fun _ hcount => ?_⟩
    obtain ⟨fd, i, -, hsome⟩ := firstReady_lowest ha.coherent hd hn hcount
    rw [hfr] at hsome
    simp at hsome
  · have hfr' : firstReady (fds a.poller.fds) (polled a p) (entries a).length 0 =
      some (fd, i) := hfr
    simp only [hfr'] at he
    have hlowest (hcount : Counts (entries a) p) : Lowest (entries a) p fd i := by
      obtain ⟨fd', i', hlow, hsome⟩ := firstReady_lowest ha.coherent hd hn hcount
      rw [hfr] at hsome
      obtain ⟨rfl, rfl⟩ := Prod.mk.inj (Option.some.inj hsome)
      exact hlow
    have hconsume := describes_consume hpolled fd
    split_ifs at he with hk
    · obtain ⟨rfl, he⟩ := he
      obtain ⟨rfl, rfl⟩ := Prod.mk.inj he
      refine ⟨settled_dropEvent ha hconsume (Nat.zero_le 1), rfl, by simp [hn], fun _ => rfl,
        fun _ hcount => ⟨fd, i, hlowest hcount, selects_found ha hd (hlowest hcount) ?_ rfl⟩⟩
      rw [if_pos hk]
      exact ⟨rfl, rfl⟩
    · obtain ⟨ans, _, rfl, rfl, he⟩ := he
      obtain ⟨rfl, rfl⟩ := Prod.mk.inj he
      have htimeout : result fd i ans ≠ .ok .PollTimeout := fun h => result_carries hk ans h
      refine ⟨settled_dropEvent ha hconsume (guards_le _), rfl, by simp [hn, htimeout],
        fun h => absurd h hn,
        fun _ hcount => ⟨fd, i, hlowest hcount, selects_found ha hd (hlowest hcount) ?_ rfl⟩⟩
      rw [if_neg hk]
      exact ⟨ans, rfl, rfl⟩

/-- **One call** from a settled application. -/
theorem served (ha : Settled a) (hd : Distinct (entries a)) {c : Called} (hs : Step a c a') :
    Settled a' ∧ entries a' = entries a ∧
      ∃ ans rest, c.trace = pollCall a ans :: rest ∧ Serves a a' rest c.result ans := by
  obtain ⟨a₁, he, rfl⟩ := hs
  rw [systemEvent_settled ha] at he
  obtain ⟨ans, rest, ht, he⟩ := he
  rcases ans with e | p
  · obtain ⟨rfl, he⟩ := he
    obtain ⟨hx, rfl⟩ := Prod.mk.inj he
    have hsettled : Settled (dropEvent (withArray a (array a.poller.fds))) :=
      settled_dropEvent ha ha.coherent.describes_array (Nat.zero_le 1)
    exact ⟨hsettled, rfl, _, _, ht, rfl, hx⟩
  · simp only at he
    split_ifs at he with hn
    · obtain ⟨rfl, he⟩ := he
      obtain ⟨hx, rfl⟩ := Prod.mk.inj he
      have hsettled : Settled (dropEvent (withArray a (polled a p))) :=
        settled_dropEvent ha (describes_polled ha.coherent p) (Nat.zero_le 1)
      exact ⟨hsettled, rfl, _, _, ht, by simp [hx, hn], fun _ => rfl, fun h => absurd hn h⟩
    · obtain ⟨hsettled, hentries, hserves⟩ := serves_afterPoll ha hd hn he
      exact ⟨hsettled, hentries, _, _, ht, hserves⟩

/-- A call may get any answer of the poll. -/
theorem exists_step (ha : Settled a) (ans : Except Errno Polled) :
    ∃ rest x a', Step a ⟨pollCall a ans :: rest, x⟩ a' := by
  obtain ⟨k, hrun⟩ : ∃ k : Except Errno Polled → Tree Sys Ans
      (Except Panic (Except UnixError UnixEvent) × UnixApp), UnixApp.systemEvent.run a =
        .call (.poll ((entries a).map fun fd => (fd.asRawFd, fd.events)) (entries a).length
          a.poller.pollTimeout) k := ⟨_, systemEvent_settled ha⟩
  obtain ⟨rest, ⟨x, a₁⟩, hx⟩ := Tree.exists_exec (k ans)
  refine ⟨rest, x, dropEvent a₁, a₁, ?_, rfl⟩
  rw [hrun]
  exact ⟨ans, rest, rfl, hx⟩

/-! ### Runs -/

variable {a₀ : UnixApp} {hist : List (UnixApp × Called)}

theorem settled_run (hr : Run Step a₀ hist a) (ha : Settled a₀) (hd : Distinct (entries a₀)) :
    Settled a ∧ entries a = entries a₀ := by
  refine hr.invariant (I := fun a => Settled a ∧ entries a = entries a₀) ⟨ha, rfl⟩ ?_
  rintro a c a' ⟨hsettled, hentries⟩ hs
  obtain ⟨hsettled', hentries', -⟩ := served hsettled (by rwa [hentries]) hs
  exact ⟨hsettled', hentries'.trans hentries⟩

/-- **Dispatch follows the current poll only.** After any calls, a call serves its own poll; and in
two runs over the same entries, whatever came before, two calls with the same answer of the poll
select the same entry. -/
theorem dispatch_current {b₀ b b' : UnixApp} {hist' : List (UnixApp × Called)} {c c' : Called}
    (ha : Settled a₀) (hb : Settled b₀) (hd : Distinct (entries a₀))
    (heq : entries b₀ = entries a₀) (hra : Run Step a₀ hist a) (hrb : Run Step b₀ hist' b)
    (hca : Step a c a') (hcb : Step b c' b') :
    (entries a = entries a₀ ∧
      ∃ ans rest, c.trace = pollCall a ans :: rest ∧ Serves a a' rest c.result ans) ∧
    ∀ p rest rest', c.trace = pollCall a (.ok p) :: rest → c'.trace = pollCall b (.ok p) :: rest' →
      p.n ≠ 0 → Counts (entries a₀) p →
        ∃ fd i, Selects a a' p fd i rest c.result ∧ Selects b b' p fd i rest' c'.result := by
  obtain ⟨hsa, hea⟩ := settled_run hra ha hd
  obtain ⟨hsb, heb⟩ := settled_run hrb hb (by rwa [heq])
  rw [heq] at heb
  obtain ⟨-, -, ans, rest₁, ht, hserves⟩ := served hsa (by rwa [hea]) hca
  obtain ⟨-, -, ans', rest₁', ht', hserves'⟩ := served hsb (by rwa [heb]) hcb
  refine ⟨⟨hea, ans, rest₁, ht, hserves⟩, fun p rest rest' htp htp' hn hcount => ?_⟩
  have hsplit : ∀ {a : UnixApp} {u v : Except Errno Polled} {r r' : List SysEvent},
      pollCall a u :: r = pollCall a v :: r' → u = v ∧ r = r' := by
    intro a u v r r' h
    obtain ⟨hu, hr⟩ := List.cons.inj h
    exact ⟨eq_of_heq (Event.mk.inj hu).2, hr⟩
  obtain ⟨rfl, rfl⟩ := hsplit (ht.symm.trans htp)
  obtain ⟨rfl, rfl⟩ := hsplit (ht'.symm.trans htp')
  obtain ⟨fd, i, hlow, hsel⟩ := hserves.2.2 hn (by rwa [hea])
  obtain ⟨fd', i', hlow', hsel'⟩ := hserves'.2.2 hn (by rwa [heb])
  rw [hea] at hlow
  rw [heb] at hlow'
  obtain ⟨rfl, rfl⟩ := hlow.unique hlow'
  exact ⟨fd, i, hsel, hsel'⟩

/-- An application over the slave of a pty and stdin. -/
def slaveAndStdin : UnixApp :=
  ⟨⟨Indices.run [.pushFd (.PtySlave 5 POLLIN),
    .pushFd (.Stdin 0 POLLIN ⟨0, 0, 0, 0, 0, Vector.replicate 32 0, 0, 0⟩)], 200⟩, Buffer.new 16⟩

/-- A poll that finds only the first entry ready. -/
def firstOnly : Polled := ⟨1, fun k => if k = 0 then POLLIN else 0⟩

/-- A poll that finds both entries ready. -/
def bothReady : Polled := ⟨2, fun _ => POLLIN⟩

theorem slaveAndStdin_settled : Settled slaveAndStdin := by
  refine ⟨Indices.idle_run _, fun l hl => ?_, rfl⟩
  simp [slaveAndStdin, Indices.run, Indices.Op.apply, Fds.pushFd, Fds.pushFdRaw] at hl

/-- The flag of stdin that an earlier call has left does not matter. -/
theorem slave_selected : ∃ (c₀ c c' : Called) (a' b b' : UnixApp)
      (rest₀ rest rest' : List SysEvent),
    Step slaveAndStdin c₀ b ∧ c₀.trace = pollCall slaveAndStdin (.ok bothReady) :: rest₀ ∧
    c.trace = pollCall slaveAndStdin (.ok firstOnly) :: rest ∧
    c'.trace = pollCall b (.ok firstOnly) :: rest' ∧
    ∃ fd i, Selects slaveAndStdin a' firstOnly fd i rest c.result ∧
      Selects b b' firstOnly fd i rest' c'.result := by
  have ha := slaveAndStdin_settled
  have hd : Distinct (entries slaveAndStdin) := by decide
  obtain ⟨rest₀, x₀, b, h₀⟩ := exists_step ha (.ok bothReady)
  obtain ⟨rest, x, a', hc⟩ := exists_step ha (.ok firstOnly)
  obtain ⟨rest', x', b', hc'⟩ := exists_step (served ha hd h₀).1 (.ok firstOnly)
  have hrun : Run Step slaveAndStdin [(slaveAndStdin, ⟨_, x₀⟩)] b := .step .start h₀
  have hcount : Counts (entries slaveAndStdin) firstOnly := by decide
  obtain ⟨-, hsel⟩ := dispatch_current ha ha hd rfl .start hrun hc hc'
  exact ⟨_, _, _, a', b, b', rest₀, rest, rest', h₀, rfl, rfl, rfl,
    hsel firstOnly rest rest' rfl rfl (by decide) hcount⟩

end SshPass.Unix.Dispatch
