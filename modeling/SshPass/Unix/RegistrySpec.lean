import SshPass.Unix.Registry
import Mathlib.Data.List.Basic

/-! # The registry: what its functions do when no guard is live

A registry is `Calm` when the cache is free and no entry is exclusively borrowed, and `Idle` when no
guard is live at all. From such a state every function of the registry returns, and its result is
given by the descriptors (`fds`) and the array (`array`): `asPollfds_run`, `nextLoop_run` and
`sendTo_run`. -/

namespace SshPass.Unix.RegistrySpec

open SshPass.Lib.CallTree SshPass.Lib.Borrow SshPass.Lib.Stateful SshPass.Lib.Stateful.Prog
open SshPass.Unix.Kernel SshPass.Unix.Registry SshPass.Unix.Registry.Fds

/-- The descriptors, without their cells. -/
def fds (s : Fds) : List Fd := s.inner.map RefCell.value

/-- The entry of a descriptor in a rebuilt array. -/
def entry (fd : Fd) : Pollfd := { fd := fd.asRawFd, events := fd.events, revents := 0 }

/-- The array `as_pollfds` returns: the cached one, or a rebuilt one. -/
def array (s : Fds) : List Pollfd := s.pollfds.value.getD ((fds s).map entry)

/-- The cache is free and no entry is exclusively borrowed. -/
structure Calm (s : Fds) : Prop where
  pollfds : s.pollfds.Free
  inner : ∀ c ∈ s.inner, c.flag ≠ .writing

/-- No guard is live. -/
structure Idle (s : Fds) : Prop where
  pollfds : s.pollfds.Free
  inner : ∀ c ∈ s.inner, c.Free

theorem Idle.calm {s : Fds} (h : Idle s) : Calm s :=
  ⟨h.pollfds, fun c hc => by rw [h.inner c hc]; simp⟩

theorem Idle.inner_eq {s : Fds} (h : Idle s) : s.inner = (fds s).map RefCell.new := by
  rw [fds, List.map_map]
  refine (List.map_id s.inner).symm.trans (List.map_congr_left fun c hc => ?_)
  exact (h.inner c hc).eq_new

theorem Idle.cell {s : Fds} (h : Idle s) {i : ℕ} {fd : Fd} (hi : (fds s)[i]? = some fd) :
    s.inner[i]? = some (RefCell.new fd) := by
  rw [h.inner_eq, List.getElem?_map, hi]
  rfl

@[simp] theorem length_fds (s : Fds) : (fds s).length = s.inner.length := by simp [fds]

/-! ### Registration -/

theorem fds_pushFdRaw (s : Fds) (fd : Fd) : fds (s.pushFdRaw fd) = fds s ++ [fd] := by
  simp [pushFdRaw, fds]

theorem idle_pushFdRaw {s : Fds} (h : Idle s) (fd : Fd) : Idle (s.pushFdRaw fd) := by
  refine ⟨rfl, fun c hc => ?_⟩
  rcases List.mem_append.mp hc with hc | hc
  · exact h.inner c hc
  · obtain rfl := List.mem_singleton.mp hc
    rfl

/-! ### `as_pollfds` -/

theorem toPollfd_ok {c : RefCell Fd} (h : c.flag ≠ .writing) :
    toPollfd c = .ok (entry c.value) := by
  rcases c with ⟨fd, n | _⟩
  · rfl
  · exact absurd rfl h

theorem mapM_toPollfd : ∀ {l : List (RefCell Fd)}, (∀ c ∈ l, c.flag ≠ .writing) →
    l.mapM toPollfd = .ok (l.map fun c => entry c.value)
  | [], _ => rfl
  | c :: l, h => by
    rw [List.mapM_cons, toPollfd_ok (h c (by simp)), mapM_toPollfd fun d hd => h d (by simp [hd])]
    rfl

theorem asPollfds_cached {s : Fds} {l : List Pollfd} (h : s.pollfds = RefCell.new (some l)) :
    asPollfds.run s = .ret (.ok l, { s with pollfds := ⟨some l, .writing⟩ }) := by
  simp only [asPollfds, borrowMutPollfds, dropPollfds, run_bind, run_state, Tree.ret_bind,
    cont_ok, h, RefCell.borrowMut_new, run_takeGuard_some, run_update, RefCell.dropMut_writing]
  simp

/-- **`as_pollfds`** returns the array and leaves its guard on the cache. -/
theorem asPollfds_run {s : Fds} (h : Calm s) :
    asPollfds.run s = .ret (.ok (array s), { s with pollfds := ⟨some (array s), .writing⟩ }) := by
  have hp := h.pollfds.eq_new
  rcases hv : s.pollfds.value with _ | l
  · rw [hv] at hp
    simp only [asPollfds, borrowMutPollfds, dropPollfds, writePollfds, run_bind, run_state,
      Tree.ret_bind, cont_ok, hp, RefCell.borrowMut_new, run_takeGuard_some, run_update,
      RefCell.dropMut_writing, Option.isNone_none, if_true, mapM_toPollfd h.inner,
      RefCell.write_mk]
    simp [array, fds, hv]
  · rw [hv] at hp
    rw [asPollfds_cached hp, array, hv]
    rfl

/-! ### Guards of entries -/

/-- The registry with one more shared guard on entry `i`. -/
def held (s : Fds) (i : ℕ) : Fds :=
  { s with inner := s.inner.modify i fun c => ⟨c.value, .reading 1⟩ }

theorem borrowFd_run {s : Fds} (h : Idle s) {i : ℕ} {fd : Fd} (hi : (fds s)[i]? = some fd) :
    (borrowFd i).run s = .ret (.ok fd, held s i) := by
  have hc := h.cell hi
  simp only [borrowFd, run_bind, run_state, Tree.ret_bind, cont_ok, hc, RefCell.borrow_new,
    run_takeGuard_some]
  have hm : s.inner.set i ⟨fd, .reading 1⟩ = s.inner.modify i fun c => ⟨c.value, .reading 1⟩ := by
    rw [List.modify_eq_set_getElem?, hc]
    rfl
  rw [hm, held]

theorem dropFd_held {s : Fds} (h : Idle s) (i : ℕ) (c : RefCell (Option (List Pollfd))) :
    (dropFd i).run { held s i with pollfds := c } = .ret (.ok (), { s with pollfds := c }) := by
  have hm : (s.inner.modify i fun c => ⟨c.value, .reading 1⟩).modify i RefCell.dropRef =
      s.inner := by
    rw [List.modify_modify_eq]
    refine List.ext_getElem? fun j => ?_
    rw [List.getElem?_modify]
    rcases hj : s.inner[j]? with _ | d
    · rfl
    · have hd := (h.inner d (List.mem_of_getElem? hj)).eq_new
      simp only [Option.map_eq_map, Option.map_some, Function.comp]
      split_ifs with hij
      · rw [RefCell.dropRef_one, ← hd]
      · rfl
  simp only [dropFd, run_update, held, hm]

theorem held_calm {s : Fds} (h : Idle s) (i : ℕ) : Calm (held s i) := by
  refine ⟨h.pollfds, fun c hc => ?_⟩
  obtain ⟨j, hj⟩ := List.mem_iff_getElem?.mp hc
  rw [held, List.getElem?_modify] at hj
  rcases hd : s.inner[j]? with _ | d
  · simp [hd] at hj
  · have hf := h.inner d (List.mem_of_getElem? hd)
    simp only [hd, Option.map_eq_map, Option.map_some, Option.some.injEq] at hj
    subst hj
    split_ifs
    · simp
    · rw [hf]; simp

/-! ### `PollReventIterator::next` -/

/-- The registry with the array `l` in its cache. -/
def cached (s : Fds) (l : List Pollfd) : Fds := { s with pollfds := RefCell.new (some l) }

theorem Idle.cached {s : Fds} (h : Idle s) (l : List Pollfd) : Idle (cached s l) :=
  ⟨rfl, h.inner⟩

/-- The `pollfd` of a descriptor, with its position, if it is ready. -/
def ready? (l : List Pollfd) (fd : Fd) : Option (ℕ × Pollfd) :=
  (getPollfdByRawId l fd.asRawFd).filter fun x => x.2.revents ≠ 0

/-- The first ready descriptor among the `fuel` ones from position `i` on. -/
def firstReady (fds : List Fd) (l : List Pollfd) : ℕ → ℕ → Option (Fd × ℕ)
  | 0, _ => none
  | fuel + 1, i =>
    match fds[i]? with
    | none => none
    | some fd => if (ready? l fd).isSome then some (fd, i) else firstReady fds l fuel (i + 1)

/-- The array with the readiness of `fd` consumed. -/
def consume (l : List Pollfd) (fd : Fd) : List Pollfd :=
  match ready? l fd with
  | some (k, x) => l.set k { x with revents := 0 }
  | none => l

/-- What `next` leaves of the registry. -/
def afterNext (s : Fds) (l : List Pollfd) : Option (Fd × ℕ) → Fds
  | some (fd, i) => held (cached s (consume l fd)) i
  | none => cached s l

section

variable {s : Fds} (l : List Pollfd) {i : ℕ} {fd : Fd}

theorem asPollfds_held (h : Idle s) (i : ℕ) : asPollfds.run (held (cached s l) i) =
    .ret (.ok l, { held (cached s l) i with pollfds := ⟨some l, .writing⟩ }) :=
  asPollfds_run (held_calm (h.cached l) i)

theorem nextLoop_skip (h : Idle s) (hi : (fds s)[i]? = some fd) (hr : ready? l fd = none)
    (fuel : ℕ) :
    (nextLoop asPollfds (fuel + 1) i).run (cached s l) =
      (nextLoop asPollfds fuel (i + 1)).run (cached s l) := by
  have hd := dropFd_held (h.cached l) i (RefCell.new (some l))
  have hdrop : ((dropPollfds >>= fun _ => dropFd i >>= fun _ => nextLoop asPollfds fuel (i + 1)) :
        Code Fds _).run { held (cached s l) i with pollfds := ⟨some l, .writing⟩ } =
      (nextLoop asPollfds fuel (i + 1)).run (cached s l) := by
    simp only [dropPollfds, run_bind, run_update, Tree.ret_bind, cont_ok, RefCell.dropMut_writing,
      hd]
    rfl
  have hfd : (fds (cached s l))[i]? = some fd := hi
  rw [nextLoop, run_bind, borrowFd_run (h.cached l) hfd, Tree.ret_bind, cont_ok, run_bind,
    asPollfds_held l h, Tree.ret_bind, cont_ok]
  rcases hg : getPollfdByRawId l fd.asRawFd with _ | ⟨k, x⟩
  · exact hdrop
  · have hx : x.revents = 0 := by
      rw [ready?, hg] at hr
      simpa using hr
    simp only [hx, ne_eq, not_true_eq_false, if_false]
    exact hdrop

/-- A ready entry is returned with its guard, and its readiness is consumed. -/
theorem nextLoop_found (h : Idle s) (hi : (fds s)[i]? = some fd) (hr : (ready? l fd).isSome)
    (fuel : ℕ) : (nextLoop asPollfds (fuel + 1) i).run (cached s l) =
      .ret (.ok (some (fd, i), i + 1), held (cached s (consume l fd)) i) := by
  have hfd : (fds (cached s l))[i]? = some fd := hi
  rw [nextLoop, run_bind, borrowFd_run (h.cached l) hfd, Tree.ret_bind, cont_ok, run_bind,
    asPollfds_held l h, Tree.ret_bind, cont_ok]
  rcases hg : getPollfdByRawId l fd.asRawFd with _ | ⟨k, x⟩
  · rw [ready?, hg] at hr
    simp at hr
  · by_cases hx : x.revents = 0
    · rw [ready?, hg] at hr
      simp [hx] at hr
    · have hsome : ready? l fd = some (k, x) := by
        rw [ready?, hg]
        simp [hx]
      simp only [hx, ne_eq, not_false_eq_true, if_true, writePollfds, dropPollfds, run_bind,
        run_update, Tree.ret_bind, cont_ok, RefCell.write_mk, RefCell.dropMut_writing, run_pure,
        hsome, consume]
      rfl

end

/-- **The loop of `next`** finds the first ready entry, consumes its readiness and keeps its guard;
without a ready entry it changes nothing. -/
theorem nextLoop_run {s : Fds} (h : Idle s) (l : List Pollfd) :
    ∀ fuel i, i + fuel = s.inner.length → ∃ j,
      (nextLoop asPollfds fuel i).run (cached s l) =
        .ret (.ok (firstReady (fds s) l fuel i, j), afterNext s l (firstReady (fds s) l fuel i))
  | 0, i, _ => ⟨i, rfl⟩
  | fuel + 1, i, hlen => by
    have hlt : i < (fds s).length := by
      rw [length_fds]
      omega
    have hi : (fds s)[i]? = some (fds s)[i] := List.getElem?_eq_getElem hlt
    rw [firstReady, hi]
    by_cases hr : (ready? l (fds s)[i]).isSome
    · simp only [hr, if_true]
      exact ⟨i + 1, nextLoop_found l h hi hr fuel⟩
    · simp only [hr]
      rw [nextLoop_skip l h hi (Option.not_isSome_iff_eq_none.mp hr)]
      exact nextLoop_run h l fuel (i + 1) (by omega)

theorem firstReady_some {F : List Fd} {l : List Pollfd} {fd : Fd} {k : ℕ} :
    ∀ {fuel i : ℕ}, firstReady F l fuel i = some (fd, k) → F[k]? = some fd
  | fuel + 1, i, h => by
    rw [firstReady] at h
    rcases hi : F[i]? with _ | fd'
    · simp [hi] at h
    · simp only [hi] at h
      split_ifs at h with hr
      · obtain ⟨rfl, rfl⟩ : fd' = fd ∧ i = k := by simpa using h
        exact hi
      · exact firstReady_some h

/-! ### `poll` -/

/-- **`poll`** asks the kernel about the array and leaves it in the cache, with the `revents` the
kernel stored. -/
theorem poll_run {s : Fds} (h : Idle s) (timeout : ℤ) :
    Poller.poll.run ⟨s, timeout⟩ =
      .call (.poll ((array s).map fun x => (x.fd, x.events)) s.len timeout) fun
        | .error e => .ret (.ok (.error e), ⟨cached s (array s), timeout⟩)
        | .ok p => .ret (.ok (.ok p.n),
            ⟨cached s (Poller.storeRevents (array s) s.len p.revents), timeout⟩) := by
  simp only [Poller.poll, Poller.pollWith, run_bind, run_zoom, Poller.fdsField,
    asPollfds_run h.calm, Tree.ret_bind, cont_ok, run_state, run_ask, Tree.call_bind]
  refine Tree.call_congr fun res => ?_
  rcases res with e | p
  · simp [dropPollfds, cached]
  · simp [dropPollfds, writePollfds, cached, Fds.len]

/-! ### `send_to` -/

/-- **`send_to`** to an entry without a guard writes the whole buffer to it, once, and changes
nothing. -/
theorem sendTo_run {s : Fds} {i : ℕ} {fd : Fd} (hc : s.inner[i]? = some (RefCell.new fd))
    (buf : List Cell) :
    (sendTo i buf).run s = .call (.write fd.desc buf) fun _ => .ret (.ok (), s) := by
  have hm : (s.inner.set i ⟨fd, .writing⟩).modify i RefCell.dropMut = s.inner := by
    obtain ⟨hlt, hget⟩ := List.getElem?_eq_some_iff.mp hc
    rw [List.modify_eq_set_getElem?, List.getElem?_set_self hlt]
    simp only [Option.map_eq_map, Option.map_some, Option.getD_some, List.set_set,
      RefCell.dropMut_writing]
    rw [← hget, List.set_getElem_self]
  simp only [sendTo, run_bind, run_state, Tree.ret_bind, cont_ok, hc, RefCell.borrowMut_new,
    run_takeGuard_some, run_ask, Tree.call_bind, run_update, hm]

theorem sendTo_exec {s s' : Fds} {i : ℕ} {c : RefCell Fd} (hc : s.inner[i]? = some c)
    {buf : List Cell} {t : List SysEvent} (h : ((sendTo i buf).run s).Exec t (.ok (), s')) :
    c.Free := by
  rw [sendTo, run_bind, run_state, Tree.ret_bind, cont_ok] at h
  simp only [hc, run_bind] at h
  rcases hb : c.borrowMut with _ | c'
  · simp [hb] at h
  · exact RefCell.borrowMut_isSome.mp (by simp [hb])

end SshPass.Unix.RegistrySpec
