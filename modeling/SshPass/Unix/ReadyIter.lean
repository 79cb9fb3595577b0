import SshPass.Unix.Cache
import Mathlib.Data.List.Nodup

/-! # The iterator over the ready descriptors

`Pulls s₀ k items it s`: after `k` calls of `next` on a fresh iterator over `s₀` the items returned
are `items`, some of their guards having been dropped. If the numbers of the descriptors are
distinct, looking an entry up by its number finds it at its own position (`position_eq`). So the
items are the first `k` ready positions with their entries, and the array is as before but for the
`revents` of these positions, which are cleared (`pulls_ready`). -/

namespace SshPass.Unix.ReadyIter

open SshPass.Lib.CallTree SshPass.Lib.Borrow SshPass.Lib.Stateful SshPass.Lib.Stateful.Prog
open SshPass.Lib.Hoare SshPass.Unix.Kernel SshPass.Unix.Registry SshPass.Unix.Registry.Fds
open SshPass.Unix.RegistrySpec SshPass.Unix.Cache

/-! ### Positions -/

/-- The `revents` at a position of the array, `0` out of range. -/
def revents (l : List Pollfd) (i : ℕ) : Int16 := (l[i]?.map Pollfd.revents).getD 0

/-- The ready positions in increasing order, each with the entry there. -/
def ready (F : List Fd) (l : List Pollfd) : List (Fd × ℕ) :=
  F.zipIdx.filter fun x => revents l x.2 ≠ 0

/-- The array with the `revents` of the positions of some items cleared. -/
def cleared (l : List Pollfd) (items : List (Fd × ℕ)) : List Pollfd :=
  l.mapIdx fun i x => if i ∈ items.map Prod.snd then { x with revents := 0 } else x

/-- The numbers of the descriptors are pairwise distinct. -/
def Distinct (F : List Fd) : Prop := (F.map Fd.asRawFd).Nodup

instance (F : List Fd) : Decidable (Distinct F) := inferInstanceAs (Decidable (List.Nodup _))

variable {F : List Fd} {l : List Pollfd} {i k : ℕ} {fd : Fd}

theorem revents_eq {x : Pollfd} (hx : l[i]? = some x) : revents l i = x.revents := by
  rw [revents, hx]
  rfl

theorem revents_of_length_le (h : l.length ≤ i) : revents l i = 0 := by
  rw [revents, List.getElem?_eq_none h]
  rfl

theorem revents_cleared (items : List (Fd × ℕ)) (i : ℕ) :
    revents (cleared l items) i = if i ∈ items.map Prod.snd then 0 else revents l i := by
  rw [revents, revents, cleared, List.getElem?_mapIdx]
  rcases l[i]? with _ | x
  · simp
  · by_cases hi : i ∈ items.map Prod.snd <;> simp [hi]

theorem cleared_nil (l : List Pollfd) : cleared l [] = l := by
  refine List.ext_getElem? fun i => ?_
  rw [cleared, List.getElem?_mapIdx]
  simp

/-- Clearing one more position. -/
theorem cleared_concat (items : List (Fd × ℕ)) {x : Pollfd}
    (hx : (cleared l items)[k]? = some x) :
    cleared l (items ++ [(fd, k)]) = (cleared l items).set k { x with revents := 0 } := by
  obtain ⟨hk, rfl⟩ := List.getElem?_eq_some_iff.mp hx
  refine List.ext_getElem (by simp [cleared]) fun i hi hi' => ?_
  rw [List.getElem_set]
  by_cases hik : k = i
  · subst hik
    simp only [cleared, List.getElem_mapIdx, List.map_append, List.map_cons, List.map_nil,
      List.mem_append, List.mem_singleton, or_true, if_true]
    split_ifs <;> rfl
  · have hmem : i ∈ (items ++ [(fd, k)]).map Prod.snd ↔ i ∈ items.map Prod.snd := by
      rw [List.map_append, List.mem_append, List.map_singleton, List.mem_singleton]
      exact or_iff_left fun h => hik h.symm
    simp only [cleared, List.getElem_mapIdx, hmem, hik, if_false]

/-- The position of the first entry with the number of `fd`. -/
def position (F : List Fd) (fd : Fd) : ℕ := (F.map Fd.asRawFd).idxOf fd.asRawFd

/-- The `revents` that the lookup by number finds for the entry at a position. -/
def seen (F : List Fd) (l : List Pollfd) (i : ℕ) : Int16 :=
  (F[i]?.map fun fd => revents l (position F fd)).getD 0

theorem position_lt (hfd : fd ∈ F) : position F fd < F.length := by
  have hmem : fd.asRawFd ∈ F.map Fd.asRawFd := List.mem_map_of_mem hfd
  have hidx := List.idxOf_lt_length_iff.mpr hmem
  rwa [List.length_map] at hidx

/-- **Looking up by number** finds the first entry with that number. -/
theorem lookup_position (h : Describes F l) (hfd : fd ∈ F) : ∃ x, l[position F fd]? = some x ∧
    getPollfdByRawId l fd.asRawFd = some (position F fd, x) := by
  have hfds : l.map Pollfd.fd = F.map Fd.asRawFd := by
    have hfst := congrArg (List.map Prod.fst) h
    rwa [List.map_map, List.map_map] at hfst
  have hmem : fd.asRawFd ∈ F.map Fd.asRawFd := List.mem_map_of_mem hfd
  have hlt : position F fd < l.length := h.length_eq ▸ position_lt hfd
  have hfind : (l.findIdx? fun x => x.fd = fd.asRawFd) = some (position F fd) := by
    have hex : ∃ x ∈ F.map Fd.asRawFd, (x == fd.asRawFd) = true := ⟨_, hmem, by simp⟩
    have hidx := List.findIdx?_eq_some_of_exists hex
    rwa [← hfds, List.findIdx?_map, hfds] at hidx
  refine ⟨l[position F fd], List.getElem?_eq_getElem hlt, ?_⟩
  rw [getPollfdByRawId, hfind, Option.bind_some, List.getElem?_eq_getElem hlt, Option.map_some]

theorem position_eq (hd : Distinct F) (hi : F[i]? = some fd) : position F fd = i := by
  obtain ⟨hlt, rfl⟩ := List.getElem?_eq_some_iff.mp hi
  have hmaplt : i < (F.map Fd.asRawFd).length := by simpa using hlt
  have hmap : F[i].asRawFd = (F.map Fd.asRawFd)[i] := by simp
  rw [position, hmap, List.Nodup.idxOf_getElem hd]

theorem seen_eq (h : Describes F l) (hd : Distinct F) (i : ℕ) : seen F l i = revents l i := by
  rw [seen]
  rcases hi : F[i]? with _ | fd
  · have hlen : l.length ≤ i := h.length_eq ▸ List.getElem?_eq_none_iff.mp hi
    rw [revents_of_length_le hlen]
    rfl
  · rw [Option.map_some, Option.getD_some, position_eq hd hi]

theorem ready?_isSome (h : Describes F l) (hi : F[i]? = some fd) :
    (ready? l fd).isSome ↔ seen F l i ≠ 0 := by
  obtain ⟨x, hx, hlookup⟩ := lookup_position h (List.mem_of_getElem? hi)
  rw [ready?, hlookup, seen, hi, Option.map_some, Option.getD_some, revents_eq hx]
  by_cases hr : x.revents = 0 <;> simp [hr]

theorem consume_eq (h : Describes F l) (hd : Distinct F) (hi : F[i]? = some fd)
    (hr : revents l i ≠ 0) :
    ∃ x, l[i]? = some x ∧ consume l fd = l.set i { x with revents := 0 } := by
  obtain ⟨x, hx, hlookup⟩ := lookup_position h (List.mem_of_getElem? hi)
  rw [position_eq hd hi] at hx hlookup
  refine ⟨x, hx, ?_⟩
  rw [revents_eq hx] at hr
  have hready : ready? l fd = some (i, x) := by simp [ready?, hlookup, hr]
  rw [consume, hready]

/-- **The first ready entry** is the one at the lowest position for which the lookup finds
`revents`. -/
theorem firstReady_seen (h : Describes F l) : ∀ fuel i, fuel = F.length - i →
    match firstReady F l fuel i with
    | some (fd, k) => i ≤ k ∧ F[k]? = some fd ∧ seen F l k ≠ 0 ∧
        ∀ j, i ≤ j → j < k → seen F l j = 0
    | none => ∀ j, i ≤ j → seen F l j = 0
  | 0, i, hfuel => by
    intro j hj
    rw [seen, List.getElem?_eq_none (by omega)]
    rfl
  | fuel + 1, i, hfuel => by
    have hlt : i < F.length := by omega
    have hi : F[i]? = some F[i] := List.getElem?_eq_getElem hlt
    rw [firstReady, hi]
    by_cases hr : seen F l i = 0
    · have hskip : ¬ (ready? l F[i]).isSome := by
        rw [ready?_isSome h hi]
        simpa using hr
      have ih := firstReady_seen h fuel (i + 1) (by omega)
      simp only [hskip]
      have hstep : ∀ j, i ≤ j → j = i ∨ i + 1 ≤ j := fun j hj => by omega
      rcases hf : firstReady F l fuel (i + 1) with _ | ⟨fd, k⟩ <;> simp only [hf] at ih ⊢
      · intro j hj
        rcases hstep j hj with rfl | hj
        · exact hr
        · exact ih j hj
      · obtain ⟨hk, hfd, hne, hlow⟩ := ih
        refine ⟨by omega, hfd, hne, fun j hj hjk => ?_⟩
        rcases hstep j hj with rfl | hj
        · exact hr
        · exact hlow j hj hjk
    · simp only [(ready?_isSome h hi).mpr hr, if_true]
      exact ⟨Nat.le_refl i, hi, hr, fun j hj hji => by omega⟩

theorem firstReady_spec (h : Describes F l) (hd : Distinct F) (fuel i : ℕ)
    (hfuel : fuel = F.length - i) :
    match firstReady F l fuel i with
    | some (fd, k) => i ≤ k ∧ F[k]? = some fd ∧ revents l k ≠ 0 ∧
        ∀ j, i ≤ j → j < k → revents l j = 0
    | none => ∀ j, i ≤ j → revents l j = 0 := by
  have hspec := firstReady_seen h fuel i hfuel
  simp only [seen_eq h hd] at hspec
  exact hspec

/-! ### One call of `next` -/

/-- A registry with the entries `F` and the array `l`, the guard of neither taken exclusively. -/
structure At (F : List Fd) (l : List Pollfd) (s : Fds) : Prop where
  calm : Calm s
  fds_eq : fds s = F
  array_eq : array s = l

/-- The same with the guard of the array taken. -/
structure Taken (F : List Fd) (l : List Pollfd) (s : Fds) : Prop where
  inner : ∀ c ∈ s.inner, c.flag ≠ .writing
  fds_eq : fds s = F
  pollfds : s.pollfds = ⟨some l, .writing⟩

theorem At.taken {s : Fds} (h : At F l s) :
    Taken F l { s with pollfds := ⟨some l, .writing⟩ } := ⟨h.calm.inner, h.fds_eq, rfl⟩

theorem total_asPollfds : Total (At F l) asPollfds fun x s => x = l ∧ Taken F l s := by
  refine Triple.of_ret fun s hs => ⟨_, _, asPollfds_run hs.calm, hs.array_eq, ?_⟩
  rw [hs.array_eq]
  exact hs.taken

theorem total_writePollfds (l' : List Pollfd) :
    Total (Taken F l) (writePollfds l') fun _ => Taken F l' := by
  refine Triple.update fun s hs => ⟨hs.inner, hs.fds_eq, ?_⟩
  rw [hs.pollfds, RefCell.write_mk]

theorem total_dropPollfds : Total (Taken F l) dropPollfds fun _ => At F l := by
  refine Triple.update fun s hs => ?_
  rw [hs.pollfds, RefCell.dropMut_writing]
  exact ⟨⟨rfl, hs.inner⟩, hs.fds_eq, rfl⟩

theorem At.set {s : Fds} (h : At F l s) (hi : F[i]? = some fd) (n : ℕ) :
    At F l { s with inner := s.inner.set i ⟨fd, .reading n⟩ } := by
  have hfds : (s.inner.set i ⟨fd, .reading n⟩).map RefCell.value = F := by
    obtain ⟨hlt, hget⟩ := List.getElem?_eq_some_iff.mp hi
    rw [List.map_set, ← hget]
    have hmap : s.inner.map RefCell.value = F := h.fds_eq
    rw [hmap, List.set_getElem_self]
  have harray : array { s with inner := s.inner.set i ⟨fd, .reading n⟩ } = array s := by
    simp only [array, fds, hfds, ← h.fds_eq]
  refine ⟨⟨h.calm.pollfds, fun c hc => ?_⟩, hfds, by rw [harray, h.array_eq]⟩
  rcases List.mem_or_eq_of_mem_set hc with hc | rfl
  · exact h.calm.inner c hc
  · simp

theorem total_borrowFd (hi : F[i]? = some fd) :
    Total (At F l) (borrowFd i) fun x s => x = fd ∧ At F l s := by
  refine Triple.of_ret fun s hs => ?_
  rw [← hs.fds_eq, fds, List.getElem?_map, Option.map_eq_some_iff] at hi
  obtain ⟨⟨v, n | _⟩, hc, rfl⟩ := hi
  · have hi : F[i]? = some v := by rw [← hs.fds_eq, fds, List.getElem?_map, hc]; rfl
    refine ⟨v, { s with inner := s.inner.set i ⟨v, .reading (n + 1)⟩ }, ?_, rfl, hs.set hi _⟩
    simp [borrowFd, hc, RefCell.borrow]
  · exact absurd rfl (hs.calm.inner _ (List.mem_of_getElem? hc))

theorem total_dropFd (i : ℕ) : Total (At F l) (dropFd i) fun _ => At F l := by
  refine Triple.update fun s hs => ?_
  rcases hc : s.inner[i]? with _ | c
  · have hnone : s.inner.modify i RefCell.dropRef = s.inner := by
      rw [List.modify_eq_set_getElem?, hc]
      rfl
    rwa [hnone]
  · have hflag := hs.calm.inner c (List.mem_of_getElem? hc)
    have hi : F[i]? = some c.value := by rw [← hs.fds_eq, fds, List.getElem?_map, hc]; rfl
    have hset : s.inner.modify i RefCell.dropRef = s.inner.set i c.dropRef := by
      rw [List.modify_eq_set_getElem?, hc]
      rfl
    rw [hset]
    rcases c with ⟨v, (_ | n) | _⟩
    · exact hs.set hi 0
    · exact hs.set hi n
    · exact absurd rfl hflag

/-- What a call of `next` from position `i` returns and leaves. -/
def Next (F : List Fd) (l : List Pollfd) (i : ℕ) (item : Option (Fd × ℕ)) (index : ℕ)
    (s : Fds) : Prop :=
  firstReady F l (F.length - i) i = item ∧
    match item with
    | some (fd, k) => index = k + 1 ∧ At F (consume l fd) s
    | none => F.length ≤ index ∧ At F l s

/-- **The loop of `next`**, whatever shared guards are live. -/
theorem total_nextLoop : ∀ fuel i, fuel = F.length - i →
    Total (At F l) (nextLoop asPollfds fuel i) fun x s => Next F l i x.1 x.2 s
  | 0, i, hfuel => by
    refine Triple.pure fun s hs => ⟨?_, by omega, hs⟩
    rw [← hfuel]
    rfl
  | fuel + 1, i, hfuel => by
    have hlt : i < F.length := by omega
    have hi : F[i]? = some F[i] := List.getElem?_eq_getElem hlt
    have hfirst : firstReady F l (F.length - i) i =
        if (ready? l F[i]).isSome then some (F[i], i)
        else firstReady F l (F.length - (i + 1)) (i + 1) := by
      have hsub : F.length - (i + 1) = fuel := by omega
      rw [← hfuel, hsub, firstReady, hi]
    rw [nextLoop]
    refine (total_borrowFd hi).bind fun fd => Triple.of_and fun hfd => ?_
    refine total_asPollfds.bind fun l' => Triple.of_and fun hl' => ?_
    rw [hfd, hl']
    -- an entry that is not ready is passed over
    have hskip (hr : ready? l F[i] = none) : Total (Taken F l)
        (dropPollfds >>= fun _ => dropFd i >>= fun _ => nextLoop asPollfds fuel (i + 1))
        fun x s => Next F l i x.1 x.2 s := by
      refine total_dropPollfds.bind fun _ => (total_dropFd i).bind fun _ => ?_
      refine (total_nextLoop fuel (i + 1) (by omega)).weaken (fun _ hs => hs) fun x s hx => ?_
      refine ⟨?_, hx.2⟩
      rw [hfirst, hr, if_neg (by simp)]
      exact hx.1
    rcases hg : getPollfdByRawId l F[i].asRawFd with _ | ⟨k, x⟩
    · exact hskip (by rw [ready?, hg]; rfl)
    · by_cases hx : x.revents = 0
      · simp only [hx, ne_eq, not_true_eq_false, if_false]
        exact hskip (by rw [ready?, hg]; simp [hx])
      · have hr : ready? l F[i] = some (k, x) := by rw [ready?, hg]; simp [hx]
        simp only [hx, ne_eq, not_false_eq_true, if_true]
        refine (total_writePollfds _).bind fun _ => total_dropPollfds.bind fun _ => ?_
        refine Triple.pure fun s hs => ⟨by rw [hfirst, hr]; rfl, rfl, ?_⟩
        rwa [consume, hr]

/-- **`next`** returns the first ready entry from its position on, and consumes its readiness. -/
theorem total_next (it : PollReventIterator) :
    Total (At F l) it.next fun x s => Next F l it.index x.1 x.2.index s := by
  refine (Triple.state (Q := fun s s' => s.len = F.length ∧ At F l s') fun s hs => ?_).bind
    fun s => Triple.of_and fun hlen => ?_
  · exact ⟨by rw [Fds.len, ← length_fds, hs.fds_eq], hs⟩
  · exact (total_nextLoop _ _ (by rw [hlen])).bind fun x => Triple.pure fun s hs => hs

/-! ### Iterations -/

/-- `k` calls of `next` on a fresh iterator over `s₀` have returned `items`; the guards of some of
them have been dropped. -/
inductive Pulls (s₀ : Fds) : ℕ → List (Fd × ℕ) → PollReventIterator → Fds → Prop
  | fresh : Pulls s₀ 0 [] Poller.reventIter s₀
  | next {k : ℕ} {items : List (Fd × ℕ)} {it it' : PollReventIterator} {s s' : Fds}
      {t : List SysEvent} {item : Option (Fd × ℕ)} (h : Pulls s₀ k items it s)
      (hn : (it.next.run s).Exec t (.ok (item, it'), s')) :
      Pulls s₀ (k + 1) (items ++ item.toList) it' s'
  | drop {k : ℕ} {items : List (Fd × ℕ)} {it : PollReventIterator} {s s' : Fds}
      {t : List SysEvent} (h : Pulls s₀ k items it s) (i : ℕ)
      (hd : ((Fds.dropFd i).run s).Exec t (.ok (), s')) : Pulls s₀ k items it s'

/-- The ready positions below `i`, each with the entry there. -/
def readyBelow (F : List Fd) (l : List Pollfd) (i : ℕ) : List (Fd × ℕ) :=
  (F.zipIdx.take i).filter fun x => revents l x.2 ≠ 0

theorem readyBelow_of_le (h : F.length ≤ i) : readyBelow F l i = ready F l := by
  rw [readyBelow, ready, List.take_of_length_le (by simpa using h)]

theorem readyBelow_lt {x : Fd × ℕ} (h : x ∈ readyBelow F l i) : x.2 < i := by
  obtain ⟨j, hj⟩ := List.mem_iff_getElem?.mp (List.mem_filter.mp h).1
  rw [List.getElem?_take] at hj
  split_ifs at hj with hji
  rw [List.getElem?_zipIdx, Option.map_eq_some_iff] at hj
  obtain ⟨fd, -, rfl⟩ := hj
  rwa [Nat.zero_add]

theorem readyBelow_succ (hi : F[i]? = some fd) : readyBelow F l (i + 1) =
    readyBelow F l i ++ if revents l i ≠ 0 then [(fd, i)] else [] := by
  have hzip : F.zipIdx[i]? = some (fd, i) := by
    rw [List.getElem?_zipIdx, hi, Option.map_some, Nat.zero_add]
  rw [readyBelow, List.take_add_one, hzip, List.filter_append]
  by_cases hr : revents l i = 0 <;> simp [readyBelow, hr]

theorem readyBelow_skip {n : ℕ} (hin : i ≤ n) (h : ∀ j, i ≤ j → j < n → revents l j = 0) :
    readyBelow F l n = readyBelow F l i := by
  induction hin with
  | refl => rfl
  | @step n hin ih =>
    have hn := ih fun j hj hjn => h j hj (by omega)
    rcases hF : F[n]? with _ | fd
    · have hlen : F.zipIdx.length ≤ n := by simpa using List.getElem?_eq_none_iff.mp hF
      rw [← hn, readyBelow, readyBelow, List.take_of_length_le hlen,
        List.take_of_length_le (by omega)]
    · have hr : revents l n = 0 := h n hin (by omega)
      rw [readyBelow_succ hF, hn, hr]
      simp

/-- The ready positions are in strictly increasing order, each with its entry. -/
theorem ready_pairwise (F : List Fd) (l : List Pollfd) :
    (ready F l).Pairwise fun x y => x.2 < y.2 := by
  refine List.Pairwise.filter _ (List.pairwise_iff_getElem.mpr fun i j hi hj hij => ?_)
  simpa using hij

theorem mem_ready {x : Fd × ℕ} : x ∈ ready F l ↔ F[x.2]? = some x.1 ∧ revents l x.2 ≠ 0 := by
  rw [ready, List.mem_filter, List.mem_zipIdx_iff_getElem?]
  simp

theorem describes_cleared (h : Describes F l) (items : List (Fd × ℕ)) :
    Describes F (cleared l items) := by
  rw [Describes, ← h]
  refine List.ext_getElem (by simp [cleared]) fun k hk hk' => ?_
  simp only [cleared, List.getElem_map, List.getElem_mapIdx]
  split_ifs <;> rfl

/-- The state of an iteration: everything below the position of the iterator is done. -/
structure Scanned (s₀ : Fds) (k : ℕ) (items : List (Fd × ℕ)) (it : PollReventIterator)
    (s : Fds) : Prop where
  isAt : At (fds s₀) (cleared (array s₀) items) s
  items_eq : items = readyBelow (fds s₀) (array s₀) it.index
  count : items.length = k ∨ (fds s₀).length ≤ it.index ∧ items.length ≤ k

section

variable {s₀ s s' : Fds} {items : List (Fd × ℕ)} {it it' : PollReventIterator}

theorem Scanned.revents_ahead (h : Scanned s₀ k items it s) (hi : it.index ≤ i) :
    revents (cleared (array s₀) items) i = revents (array s₀) i := by
  rw [revents_cleared, if_neg]
  intro hmem
  obtain ⟨x, hx, rfl⟩ := List.mem_map.mp hmem
  rw [h.items_eq] at hx
  have hlt := readyBelow_lt hx
  omega

/-- **A call of `next`** takes the iteration one item further, or finds that it is complete. -/
theorem Scanned.next (h : Scanned s₀ k items it s) (hc : Coherent s₀) (hd : Distinct (fds s₀))
    {item : Option (Fd × ℕ)} (hn : Next (fds s₀) (cleared (array s₀) items) it.index item
      it'.index s') : Scanned s₀ (k + 1) (items ++ item.toList) it' s' := by
  have hdesc := describes_cleared hc.describes_array items
  have hspec := firstReady_spec hdesc hd _ it.index rfl
  obtain ⟨hfirst, hleft⟩ := hn
  rw [hfirst] at hspec
  rcases item with _ | ⟨fd, j⟩
  · obtain ⟨hend, hat⟩ := hleft
    rw [Option.toList_none, List.append_nil]
    have hzero : ∀ j, it.index ≤ j → revents (array s₀) j = 0 := fun j hj => by
      rw [← h.revents_ahead hj]
      exact hspec j hj
    refine ⟨hat, ?_, .inr ⟨hend, ?_⟩⟩
    · rw [h.items_eq, readyBelow_of_le hend]
      rcases Nat.le_total it.index (fds s₀).length with hle | hle
      · rw [← readyBelow_skip hle fun j hj _ => hzero j hj, readyBelow_of_le (Nat.le_refl _)]
      · exact readyBelow_of_le hle
    · rcases h.count with hk | ⟨-, hk⟩ <;> omega
  · obtain ⟨hij, hfd, hne, hlow⟩ := hspec
    obtain ⟨hend, hat⟩ := hleft
    obtain ⟨x, hx, hcons⟩ := consume_eq hdesc hd hfd hne
    rw [Option.toList_some]
    refine ⟨?_, ?_, .inl ?_⟩
    · rwa [cleared_concat items hx, ← hcons]
    · have hr : revents (array s₀) j ≠ 0 := by rwa [← h.revents_ahead hij]
      have hskip := readyBelow_skip (F := fds s₀) hij fun m hm hmj => by
        rw [← h.revents_ahead hm]
        exact hlow m hm hmj
      rw [hend, readyBelow_succ hfd, if_pos hr, hskip, ← h.items_eq]
    · have hlt := (List.getElem?_eq_some_iff.mp hfd).1
      rcases h.count with hk | ⟨hk, -⟩
      · rw [List.length_append, hk, List.length_singleton]
      · omega

/-- **Every iteration**, by its steps. -/
theorem Pulls.scanned (h : Pulls s₀ k items it s) (hcalm : Calm s₀) (hc : Coherent s₀)
    (hd : Distinct (fds s₀)) : Scanned s₀ k items it s := by
  induction h with
  | fresh =>
    refine ⟨⟨hcalm, rfl, (cleared_nil _).symm⟩, ?_, .inl rfl⟩
    simp [readyBelow, Poller.reventIter]
  | @next k items it it' s s' t item _ hn ih =>
    exact ih.next hc hd ((total_next it s ih.isAt t _ s' hn).2.1 _ rfl)
  | @drop k items it s s' t _ i hdrop ih =>
    exact ⟨(total_dropFd i s ih.isAt t _ s' hdrop).2.1 () rfl, ih.items_eq, ih.count⟩

/-- What an iteration has done: `k` calls returned the first `k` ready positions with their
entries and cleared their `revents`, and nothing else changed. -/
structure Pulled (s₀ : Fds) (k : ℕ) (items : List (Fd × ℕ)) (s : Fds) : Prop where
  items_eq : items = (ready (fds s₀) (array s₀)).take k
  increasing : items.Pairwise fun x y => x.2 < y.2
  entries : ∀ x ∈ items, (fds s₀)[x.2]? = some x.1 ∧ revents (array s₀) x.2 ≠ 0
  fds_eq : fds s = fds s₀
  array_eq : array s = cleared (array s₀) items
  exhausted : items.length < k →
    items = ready (fds s₀) (array s₀) ∧ ∀ x ∈ array s, x.revents = 0

theorem Scanned.eq_take (h : Scanned s₀ k items it s) :
    items = (ready (fds s₀) (array s₀)).take k := by
  rcases h.count with hk | ⟨hend, hk⟩
  · have hsplit : ready (fds s₀) (array s₀) = items ++ ((fds s₀).zipIdx.drop it.index).filter
        fun x => revents (array s₀) x.2 ≠ 0 := by
      rw [h.items_eq, readyBelow, ready, ← List.filter_append, List.take_append_drop]
    rw [hsplit, ← hk, List.take_left]
  · have hall : items = ready (fds s₀) (array s₀) := by rw [h.items_eq, readyBelow_of_le hend]
    rw [← hall, List.take_of_length_le hk]

theorem Scanned.exhausted (h : Scanned s₀ k items it s) (hc : Coherent s₀)
    (hlt : items.length < k) :
    items = ready (fds s₀) (array s₀) ∧ ∀ x ∈ array s, x.revents = 0 := by
  have hend : (fds s₀).length ≤ it.index := by
    rcases h.count with hk | ⟨hend, -⟩
    · omega
    · exact hend
  have hall : items = ready (fds s₀) (array s₀) := by rw [h.items_eq, readyBelow_of_le hend]
  refine ⟨hall, fun x hx => ?_⟩
  rw [h.isAt.array_eq] at hx
  obtain ⟨i, hi⟩ := List.mem_iff_getElem?.mp hx
  rw [← revents_eq hi, revents_cleared]
  split_ifs with hmem
  · rfl
  · by_contra hr
    have hlen : i < (fds s₀).length := by
      rw [← (describes_cleared hc.describes_array items).length_eq]
      exact (List.getElem?_eq_some_iff.mp hi).1
    have hitem : ((fds s₀)[i], i) ∈ items := by
      rw [hall, mem_ready]
      exact ⟨List.getElem?_eq_getElem hlen, hr⟩
    exact hmem (List.mem_map_of_mem hitem)

/-- **The iterator over the ready descriptors**: from any registry with distinct numbers, any
number of calls of `next` returns the ready positions in order, none skipped and none repeated, and
the next call returns. -/
theorem pulls_ready (hcalm : Calm s₀) (hc : Coherent s₀) (hd : Distinct (fds s₀))
    (h : Pulls s₀ k items it s) :
    Pulled s₀ k items s ∧ ∃ item it' s', it.next.run s = .ret (.ok (item, it'), s') := by
  have hs := h.scanned hcalm hc hd
  have htake := hs.eq_take
  have hready : ∀ x ∈ items, x ∈ ready (fds s₀) (array s₀) := fun x hx => by
    rw [htake] at hx
    exact List.mem_of_mem_take hx
  refine ⟨⟨htake, ?_, fun x hx => mem_ready.mp (hready x hx), hs.isAt.fds_eq, hs.isAt.array_eq,
    hs.exhausted hc⟩, ?_⟩
  · rw [htake]
    exact (ready_pairwise _ _).take
  · obtain ⟨⟨item, it'⟩, s', hrun, -⟩ := (total_next it).run hs.isAt
    exact ⟨item, it', s', hrun⟩

end

/-- A registry of three entries, the last two of them ready. -/
def twoReady : Fds :=
  cached
    (Indices.run [.pushSignalFd 3 POLLIN, .pushStdoutFd 1 POLLIN, .pushFd (.PtySlave 5 POLLIN)])
    [⟨3, POLLIN, 0⟩, ⟨1, POLLIN, POLLIN⟩, ⟨5, POLLIN, 16⟩]

theorem twoReady_pulled : ∃ it s,
    Pulls twoReady 3 [(.Stdout 1 POLLIN, 1), (.PtySlave 5 POLLIN, 2)] it s ∧
      ∀ x ∈ array s, x.revents = 0 := by
  have hcalm : Calm twoReady := ((Indices.idle_run _).cached _).calm
  have hc : Coherent twoReady := fun l hl => by
    rw [← Option.some.inj hl]
    decide
  have hd : Distinct (fds twoReady) := by decide
  have hnext {k : ℕ} {items : List (Fd × ℕ)} {it : PollReventIterator} {s : Fds}
      (h : Pulls twoReady k items it s) :
      ∃ items' it' s', Pulls twoReady (k + 1) items' it' s' := by
    obtain ⟨-, item, it', s', hrun⟩ := pulls_ready hcalm hc hd h
    exact ⟨_, it', s', h.next (t := []) (by rw [hrun]; exact ⟨rfl, rfl⟩)⟩
  obtain ⟨_, _, _, h₁⟩ := hnext .fresh
  obtain ⟨_, _, _, h₂⟩ := hnext h₁
  obtain ⟨items, it, s, h₃⟩ := hnext h₂
  obtain ⟨hp, -⟩ := pulls_ready hcalm hc hd h₃
  have hitems : items = [(.Stdout 1 POLLIN, 1), (.PtySlave 5 POLLIN, 2)] := by
    rw [hp.items_eq]
    decide
  subst hitems
  exact ⟨it, s, h₃, (hp.exhausted (by decide)).2⟩

end SshPass.Unix.ReadyIter
