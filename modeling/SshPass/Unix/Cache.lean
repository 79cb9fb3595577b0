import SshPass.Lib.Hoare
import SshPass.Unix.Indices

/-! # The cache of the `pollfd` array

The cache is `Coherent` if the array in it, if any, lists the numbers and the event bits of the
entries (`Describes`). Every operation keeps it so: pushes and pops drop the array, `poll` and the
iterator change `revents` only. `asserting` is `as_pollfds` with an assertion about the array it
returns, and `Act.checked` an operation with `asserting` in the place of `as_pollfds`;
`session_coherent` says that over any sequence of operations the assertions change nothing. -/

namespace SshPass.Unix.Cache

open SshPass.Lib.CallTree SshPass.Lib.Borrow SshPass.Lib.Stateful SshPass.Lib.Stateful.Prog
open SshPass.Lib.Hoare SshPass.Unix.Kernel SshPass.Unix.Registry SshPass.Unix.Registry.Fds
open SshPass.Unix.RegistrySpec SshPass.Unix.Indices

/-! ### Coherence -/

/-- The array lists the numbers and the event bits of the descriptors, in their order. -/
def Describes (F : List Fd) (l : List Pollfd) : Prop :=
  l.map (fun x => (x.fd, x.events)) = F.map fun fd => (fd.asRawFd, fd.events)

instance (F : List Fd) (l : List Pollfd) : Decidable (Describes F l) :=
  inferInstanceAs (Decidable (_ = _))

/-- The cached array, if any, describes the entries. -/
def Coherent (s : Fds) : Prop := ∀ l, s.pollfds.value = some l → Describes (fds s) l

variable {F : List Fd} {l l' : List Pollfd} {s s' : Fds}

theorem Describes.length_eq (h : Describes F l) : l.length = F.length := by
  have hlen := congrArg List.length h
  rwa [List.length_map, List.length_map] at hlen

theorem describes_iff : Describes F l ↔ l.length = F.length ∧
    ∀ (k : ℕ) (x : Pollfd) (fd : Fd), l[k]? = some x → F[k]? = some fd →
      x.fd = fd.asRawFd ∧ x.events = fd.events := by
  constructor
  · intro h
    refine ⟨h.length_eq, fun k x fd hx hfd => ?_⟩
    have hk := congrArg (fun m => m[k]?) h
    simp only [List.getElem?_map, hx, hfd, Option.map_some, Option.some.injEq,
      Prod.mk.injEq] at hk
    exact hk
  · rintro ⟨hlen, h⟩
    refine List.ext_getElem (by simp [hlen]) fun k hk hk' => ?_
    rw [List.length_map] at hk hk'
    have hfields := h k _ _ (List.getElem?_eq_getElem hk) (List.getElem?_eq_getElem hk')
    simp [hfields]

theorem describes_entry (F : List Fd) : Describes F (F.map entry) := by
  rw [Describes, List.map_map]
  rfl

/-- What the kernel stores keeps the array as it is but for `revents`. -/
theorem Describes.storeRevents (h : Describes F l) (n : ℕ) (revents : ℕ → Int16) :
    Describes F (Poller.storeRevents l n revents) := by
  rw [Describes, ← h]
  refine List.ext_getElem (by simp [Poller.storeRevents]) fun k hk hk' => ?_
  simp only [Poller.storeRevents, List.getElem_map, List.getElem_mapIdx]
  split_ifs <;> rfl

theorem Describes.set (h : Describes F l) {k : ℕ} {x : Pollfd} (hx : l[k]? = some x) :
    Describes F (l.set k { x with revents := 0 }) := by
  obtain ⟨hk, rfl⟩ := List.getElem?_eq_some_iff.mp hx
  rw [Describes, ← h, List.map_set]
  have hmap : k < (l.map fun x => (x.fd, x.events)).length := by simpa using hk
  have hself : (l[k].fd, l[k].events) = (l.map fun x => (x.fd, x.events))[k] := by simp
  rw [hself, List.set_getElem_self]

theorem Coherent.describes_array (h : Coherent s) : Describes (fds s) (array s) := by
  unfold array
  rcases hv : s.pollfds.value with _ | l
  · exact describes_entry _
  · exact h l hv

theorem Coherent.congr (h : Coherent s) (hfds : fds s' = fds s)
    (hval : s'.pollfds.value = s.pollfds.value) : Coherent s' := by
  intro l hl
  rw [hfds]
  exact h l (hval ▸ hl)

/-- A push or a pop drops the array, and a pop of nothing changes nothing. -/
theorem Coherent.apply (h : Coherent s) (op : Op) : Coherent (op.apply s) := by
  have hnone : ∀ s' : Fds, s'.pollfds.value = none → Coherent s' := fun s' hs' l hl => by
    simp [hs'] at hl
  cases op with
  | popFd =>
    rcases hl : s.inner.getLast? with _ | c
    · rwa [Op.apply, Fds.popFd, hl]
    · exact hnone _ (by simp [Op.apply, Fds.popFd, hl])
  | _ => exact hnone _ rfl

theorem getPollfdByRawId_some {raw : RawFd} {k : ℕ} {x : Pollfd}
    (h : getPollfdByRawId l raw = some (k, x)) : l[k]? = some x := by
  rw [getPollfdByRawId, Option.bind_eq_some_iff] at h
  obtain ⟨j, -, h⟩ := h
  rw [Option.map_eq_some_iff] at h
  obtain ⟨y, hy, hyx⟩ := h
  obtain ⟨rfl, rfl⟩ := Prod.mk.inj hyx
  exact hy

/-! ### The assertion -/

/-- The assertion that fails if an array does not describe the entries. -/
def incoherent : Panic := .assertion "the array does not describe the descriptors"

/-- `as_pollfds`, and an assertion about what it returned: the array describes the entries, and a
rebuilt one has no `revents`. -/
def asserting : Code Fds (List Pollfd) := do
  let s ← state
  let l ← asPollfds
  let s' ← state
  if Describes (fds s') l ∧ (s.pollfds.value = none → ∀ x ∈ l, x.revents = 0) then return l
  else abort incoherent

/-! ### Sessions -/

/-- The operations on a poller. The guards that `as_pollfds` and the items of an iterator hold are
dropped by operations of their own; an iterator is advanced from any position. -/
inductive Act
  | edit (op : Op)
  | asPollfds
  | dropPollfds
  | poll
  | next (it : PollReventIterator)
  | dropFd (index : ℕ)
  | kernelStores (revents : ℕ → Int16)

/-- The kernel stores `revents` in the cached array, whatever `poll` returns. -/
def kernelStores (revents : ℕ → Int16) (s : Fds) : Fds :=
  { s with pollfds := { s.pollfds with
      value := s.pollfds.value.map fun l => Poller.storeRevents l s.len revents } }

namespace Act

/-- An operation, with `getPollfds` in the place of `as_pollfds`. -/
def runWith (getPollfds : Code Fds (List Pollfd)) : Act → Code Poller Unit
  | edit op => zoom Poller.fdsField (update op.apply)
  | asPollfds => do
    let _ ← zoom Poller.fdsField getPollfds
  | dropPollfds => zoom Poller.fdsField Fds.dropPollfds
  | poll => do
    let _ ← Poller.pollWith getPollfds
  | next it => do
    let _ ← zoom Poller.fdsField (it.nextWith getPollfds)
  | dropFd index => zoom Poller.fdsField (Fds.dropFd index)
  | kernelStores revents => zoom Poller.fdsField (update (Cache.kernelStores revents))

/-- An operation. -/
def run : Act → Code Poller Unit := runWith Fds.asPollfds

/-- An operation, with the assertion wherever it calls `as_pollfds`. -/
def checked : Act → Code Poller Unit := runWith asserting

end Act

/-- A sequence of operations. -/
def session (f : Act → Code Poller Unit) : List Act → Code Poller Unit
  | [] => return ()
  | a :: acts => do
    f a
    session f acts

/-! ### The assertion holds -/

/-- Everything but a failed assertion. -/
def Holds (e : Panic) : Prop := e ≠ incoherent

/-- A call of `poll` gets an array and the number of its elements. -/
def SameArray (e : SysEvent) : Prop :=
  ∀ fds nfds timeout, e.op = .poll fds nfds timeout → fds.length = nfds

theorem mapM_toPollfd_error : ∀ {cs : List (RefCell Fd)}, (∃ c ∈ cs, c.flag = .writing) →
    cs.mapM toPollfd = .error .alreadyMutablyBorrowed
  | [], h => by simp at h
  | c :: cs, h => by
    rw [List.mapM_cons]
    rcases hc : c.flag with n | _
    · have hcs : ∃ d ∈ cs, d.flag = .writing := by simpa [hc] using h
      rw [toPollfd_ok (by simp [hc]), mapM_toPollfd_error hcs]
      rfl
    · have herr : toPollfd c = .error .alreadyMutablyBorrowed := by
        simp [toPollfd, RefCell.borrow, hc]
      rw [herr]
      rfl

theorem asPollfds_cases (s : Fds) :
    (∃ e, Holds e ∧ asPollfds.run s = .ret (.error e, s)) ∨
      asPollfds.run s = .ret (.ok (array s), { s with pollfds := ⟨some (array s), .writing⟩ }) := by
  by_cases hfree : s.pollfds.Free
  · by_cases hinner : ∀ c ∈ s.inner, c.flag ≠ .writing
    · exact .inr (asPollfds_run ⟨hfree, hinner⟩)
    · have hp := hfree.eq_new
      rcases hv : s.pollfds.value with _ | l
      · left
        have herr : s.inner.mapM toPollfd = .error .alreadyMutablyBorrowed :=
          mapM_toPollfd_error (by simpa using hinner)
        rw [hv] at hp
        refine ⟨.alreadyMutablyBorrowed, by simp [Holds, incoherent], ?_⟩
        simp only [asPollfds, borrowMutPollfds, dropPollfds, run_bind, run_state, Tree.ret_bind,
          cont_ok, hp, RefCell.borrowMut_new, run_takeGuard_some, run_update,
          RefCell.dropMut_writing, Option.isNone_none, if_true, herr]
        simp [abort, ← hp]
      · right
        rw [hv] at hp
        rw [asPollfds_cached hp, array, hv]
        rfl
  · left
    have hnone : s.pollfds.borrowMut = none := by
      rw [← Option.not_isSome_iff_eq_none, RefCell.borrowMut_isSome]
      exact hfree
    refine ⟨.alreadyBorrowed, by simp [Holds, incoherent], ?_⟩
    simp [asPollfds, borrowMutPollfds, hnone]

/-- What `as_pollfds` leaves: the array it returned is cached, and describes the entries. -/
def Returned (l : List Pollfd) (s : Fds) : Prop := s.pollfds.value = some l ∧ Describes (fds s) l

theorem Returned.coherent (h : Returned l s) : Coherent s := by
  intro l' hl'
  obtain rfl := Option.some.inj (h.1.symm.trans hl')
  exact h.2

section

variable {E : Panic → Prop} {C : SysEvent → Prop}

/-- **The assertion changes nothing**, and `as_pollfds` returns an array that describes the
entries. -/
theorem agree_asserting : Agree Holds C Coherent asPollfds asserting Returned := by
  have hdesc : ∀ s, Coherent s →
      Returned (array s) { s with pollfds := ⟨some (array s), .writing⟩ } :=
    fun s hs => ⟨rfl, hs.describes_array⟩
  constructor
  · intro s hs
    rw [asserting, run_bind, run_state, Tree.ret_bind, cont_ok, run_bind]
    obtain ⟨e, -, hrun⟩ | hrun := asPollfds_cases s
    · rw [hrun, Tree.ret_bind, cont_error]
    · have hnew : s.pollfds.value = none → ∀ x ∈ array s, x.revents = 0 := by
        intro hv x hx
        rw [array, hv, Option.getD_none, List.mem_map] at hx
        obtain ⟨fd, -, rfl⟩ := hx
        rfl
      rw [hrun, Tree.ret_bind, cont_ok, run_bind, run_state, Tree.ret_bind, cont_ok,
        if_pos ⟨(hdesc s hs).2, hnew⟩, run_pure]
  · refine Triple.of_cases fun s hs => ?_
    obtain ⟨e, he, hrun⟩ | hrun := asPollfds_cases s
    · exact .inl ⟨e, s, hrun, he⟩
    · exact .inr ⟨_, _, hrun, hdesc s hs⟩

theorem triple_dropPollfds : Triple E C Coherent dropPollfds fun _ => Coherent := by
  refine Triple.update fun s hs => hs.congr rfl ?_
  rcases hp : s.pollfds with ⟨v, _ | _⟩ <;> simp [RefCell.dropMut]

theorem triple_dropFd (i : ℕ) : Triple E C Coherent (dropFd i) fun _ => Coherent := by
  refine Triple.update fun s hs => hs.congr ?_ rfl
  have hval : ∀ c : RefCell Fd, c.dropRef.value = c.value := by
    rintro ⟨v, (_ | n) | _⟩ <;> rfl
  refine List.ext_getElem? fun j => ?_
  simp only [fds, List.getElem?_map, List.getElem?_modify]
  rcases s.inner[j]? with _ | c
  · rfl
  · by_cases hij : i = j <;> simp [hij, hval]

theorem triple_borrowFd (i : ℕ) : Triple Holds C Coherent (borrowFd i) fun _ => Coherent := by
  refine (Triple.state (Q := fun s s' => Coherent s' ∧ s' = s) fun s hs => ⟨hs, rfl⟩).bind
    fun s => ?_
  rcases hi : s.inner[i]? with _ | c
  · exact Triple.abort (by simp [Holds, incoherent])
  · refine Triple.takeGuard (by simp [Holds, incoherent]) fun c' hc' s' hs' => ?_
    obtain ⟨hs, rfl⟩ := hs'
    have hval : c'.value = c.value := by
      rcases c with ⟨v, n | _⟩ <;> simp only [RefCell.borrow, Option.some.injEq,
        reduceCtorEq] at hc'
      rw [← hc']
    refine hs.congr ?_ rfl
    obtain ⟨hlt, hget⟩ := List.getElem?_eq_some_iff.mp hi
    have hmap : i < (s'.inner.map RefCell.value).length := by simpa using hlt
    have hself : (s'.inner.map RefCell.value)[i] = c.value := by simp [hget]
    rw [fds, List.map_set, hval, ← hself, List.set_getElem_self]
    rfl

theorem triple_writePollfds (hl : ∀ F, Describes F l → Describes F l') :
    Triple E C (Returned l) (writePollfds l') fun _ => Coherent := by
  refine Triple.update fun s hs m hm => ?_
  obtain rfl : l' = m := Option.some.inj hm
  exact hl _ hs.2

/-- **The loop of `next`**, step by step. -/
theorem agree_nextLoop : ∀ fuel i,
    Agree Holds C Coherent (nextLoop asPollfds fuel i) (nextLoop asserting fuel i) fun _ => Coherent
  | 0, i => Agree.refl (Triple.pure fun _ hs => hs)
  | fuel + 1, i => by
    rw [nextLoop, nextLoop]
    refine (Agree.refl (triple_borrowFd i)).bind fun fd => agree_asserting.bind fun l => ?_
    -- an entry that is not ready is passed over
    have hskip : Agree Holds C (Returned l)
        (dropPollfds >>= fun _ => dropFd i >>= fun _ => nextLoop asPollfds fuel (i + 1))
        (dropPollfds >>= fun _ => dropFd i >>= fun _ => nextLoop asserting fuel (i + 1))
        fun _ => Coherent := by
      refine (Agree.refl triple_dropPollfds).bind (fun _ => ?_) |>.weaken
        (fun _ hs => hs.coherent) fun _ _ hs => hs
      exact (Agree.refl (triple_dropFd i)).bind fun _ => agree_nextLoop fuel (i + 1)
    rcases hg : getPollfdByRawId l fd.asRawFd with _ | ⟨k, x⟩
    · exact hskip
    · by_cases hx : x.revents = 0
      · simp only [hx, ne_eq, not_true_eq_false, if_false]
        exact hskip
      · simp only [hx, ne_eq, not_false_eq_true, if_true]
        have hset := fun F (h : Describes F l) => h.set (getPollfdByRawId_some hg)
        exact Agree.refl ((triple_writePollfds hset).bind fun _ =>
          triple_dropPollfds.bind fun _ => Triple.pure fun _ hs => hs)

theorem agree_next (it : PollReventIterator) :
    Agree Holds C Coherent it.next (it.nextWith asserting) fun _ => Coherent := by
  refine (Agree.refl (Triple.state (Q := fun _ => Coherent) fun _ hs => hs)).bind fun s => ?_
  exact (agree_nextLoop _ _).bind fun _ => Agree.refl (Triple.pure fun _ hs => hs)

end

/-! ### Operations on a poller -/

/-- The registry of a poller has a coherent cache. -/
def PollerCoherent (p : Poller) : Prop := Coherent p.fds

section

variable {α : Type} {m m' : Code Fds α}

theorem agree_fds {C : SysEvent → Prop} (h : Agree Holds C Coherent m m' fun _ => Coherent) :
    Agree Holds C PollerCoherent (zoom Poller.fdsField m) (zoom Poller.fdsField m')
      fun _ => PollerCoherent :=
  h.zoom (fun _ hs => hs) fun _ _ _ _ hs => hs

end

/-- **`poll`** gets the array of the registry and its length. -/
theorem agree_poll :
    Agree Holds SameArray PollerCoherent Poller.poll (Poller.pollWith asserting)
      fun _ => PollerCoherent := by
  have hget : Agree Holds SameArray PollerCoherent (zoom Poller.fdsField Fds.asPollfds)
      (zoom Poller.fdsField asserting) fun l p => Returned l p.fds :=
    agree_asserting.zoom (fun _ hs => hs) fun _ _ _ _ hs => hs
  refine hget.bind fun l => ?_
  refine (Agree.refl (Triple.state (Q := fun p p' : Poller => Returned l p'.fds ∧ p' = p)
    fun p hp => ⟨hp, rfl⟩)).bind fun p => ?_
  refine (Agree.refl (Triple.ask (Q := fun _ p' => Returned l p'.fds) ?_ ?_)).bind fun res => ?_
  · rintro p' ⟨hp, rfl⟩ res fds nfds timeout hop
    obtain ⟨rfl, rfl, -⟩ := Sys.poll.inj hop
    rw [List.length_map, hp.2.length_eq, length_fds]
    rfl
  · exact fun p' hp _ => hp.1
  · refine Agree.refl ?_
    rcases res with e | polled
    · refine Triple.bind ?_ fun _ => Triple.pure fun _ hp => hp
      exact triple_dropPollfds.zoom (fun _ hp => hp.coherent) fun _ _ _ _ hs => hs
    · have hstore := fun F (h : Describes F l) => h.storeRevents p.fds.len polled.revents
      have hwrite : Triple Holds SameArray (fun p' : Poller => Returned l p'.fds)
          (zoom Poller.fdsField
            (writePollfds (Poller.storeRevents l p.fds.len polled.revents)))
          fun _ => PollerCoherent :=
        (triple_writePollfds hstore).zoom (fun _ hp => hp) fun _ _ _ _ hs => hs
      exact hwrite.bind fun _ => (agree_fds (Agree.refl triple_dropPollfds)).triple.bind
        fun _ => Triple.pure fun _ hp => hp

theorem coherent_kernelStores (h : Coherent s) (revents : ℕ → Int16) :
    Coherent (kernelStores revents s) := by
  intro l hl
  obtain ⟨l₀, hl₀, rfl⟩ := Option.map_eq_some_iff.mp hl
  exact (h l₀ hl₀).storeRevents _ _

/-- **Every operation** keeps the cache coherent, and its assertions change nothing. -/
theorem agree_act (a : Act) :
    Agree Holds SameArray PollerCoherent a.run a.checked fun _ => PollerCoherent := by
  cases a with
  | edit op => exact agree_fds (Agree.refl (Triple.update fun _ hs => hs.apply op))
  | asPollfds =>
    refine Agree.bind (Q := fun _ => PollerCoherent) ?_ fun _ =>
      Agree.refl (Triple.pure fun _ hp => hp)
    exact agree_asserting.zoom (fun _ hs => hs) fun _ _ _ _ hs => hs.coherent
  | dropPollfds => exact agree_fds (Agree.refl triple_dropPollfds)
  | poll => exact agree_poll.bind fun _ => Agree.refl (Triple.pure fun _ hp => hp)
  | next it =>
    exact (agree_fds (agree_next it)).bind fun _ => Agree.refl (Triple.pure fun _ hp => hp)
  | dropFd i => exact agree_fds (Agree.refl (triple_dropFd i))
  | kernelStores revents =>
    exact agree_fds (Agree.refl (Triple.update fun _ hs => coherent_kernelStores hs revents))

theorem agree_session : ∀ acts, Agree Holds SameArray PollerCoherent (session Act.run acts)
    (session Act.checked acts) fun _ => PollerCoherent
  | [] => Agree.refl (Triple.pure fun _ hp => hp)
  | a :: acts => (agree_act a).bind fun _ => agree_session acts

theorem pollerCoherent_new (timeout : ℤ) : PollerCoherent (Poller.new timeout) := by
  intro l hl
  simp [Poller.new, Fds.new] at hl

theorem triple_session (acts : List Act) : Triple Holds SameArray PollerCoherent
    (session Act.run acts >>= fun _ => zoom Poller.fdsField Fds.asPollfds)
    fun l p => Describes (fds p.fds) l := by
  refine (agree_session acts).triple.bind fun _ => ?_
  exact agree_asserting.triple.zoom (fun _ hs => hs) fun _ _ _ _ hs => hs.2

/-- **The cache is coherent** over every session: the assertion about the array that `as_pollfds`
returns never fails and changes nothing, wherever it is called; every call of `poll` gets an array
and its length; and a call of `as_pollfds` after the session, if it returns, returns an array of the
length of `inner` that carries the number and the event bits of every entry at its position. -/
theorem session_coherent (timeout : ℤ) (acts : List Act) :
    (session Act.checked acts).run (Poller.new timeout) =
        (session Act.run acts).run (Poller.new timeout) ∧
      (∀ t x p, ((session Act.checked acts).run (Poller.new timeout)).Exec t (x, p) →
        x ≠ .error incoherent ∧ ∀ e ∈ t, SameArray e) ∧
      ∀ t l p, ((session Act.run acts >>= fun _ => zoom Poller.fdsField Fds.asPollfds).run
          (Poller.new timeout)).Exec t (.ok l, p) → l.length = p.fds.len ∧
        ∀ (k : ℕ) (x : Pollfd) (fd : Fd), l[k]? = some x → (fds p.fds)[k]? = some fd →
          x.fd = fd.asRawFd ∧ x.events = fd.events := by
  have h := agree_session acts
  have h0 := pollerCoherent_new timeout
  have heq := h.run_eq _ h0
  refine ⟨heq.symm, fun t x p hx => ?_, fun t l p hx => ?_⟩
  · rw [← heq] at hx
    obtain ⟨hcalls, -, herr⟩ := h.triple _ h0 t x p hx
    exact ⟨fun he => herr _ he rfl, hcalls⟩
  · have hdesc := (triple_session acts _ h0 t _ p hx).2.1 l rfl
    obtain ⟨hlen, hfields⟩ := describes_iff.mp hdesc
    rw [length_fds] at hlen
    exact ⟨hlen, hfields⟩

end SshPass.Unix.Cache
