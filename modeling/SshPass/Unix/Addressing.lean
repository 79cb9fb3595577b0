import SshPass.Unix.Indices

/-! # What a pop leaves addressable

The sequences of pushes that store an index and of pops (`Single`). The entries are a stack, and the
index of a kind should name the last entry of the kind in it (`Exact`). `pop_fd` forgets the index
of the kind it pops, whether or not another entry of the kind is left, so this holds in every state
of a run exactly if no pop of the run leaves one (`addressable_iff`). -/

namespace SshPass.Unix.Addressing

open SshPass.Lib.CallTree SshPass.Lib.Borrow SshPass.Lib.Stateful
open SshPass.Unix.Kernel SshPass.Unix.Registry SshPass.Unix.RegistrySpec SshPass.Unix.Indices

/-! ### The entries as a stack -/

/-- The kinds whose pushes store an index. -/
def Indexed (k : Kind) : Prop := k = .Signal ∨ k = .Stdin ∨ k = .Stdout

/-- A push of an indexed kind, or a pop. -/
def Single (op : Op) : Prop := op = .popFd ∨ ∃ fd, pushed op = some fd

/-- The kinds of the entries after an operation. -/
def stack (ks : List Kind) (op : Op) : List Kind :=
  match pushed op with
  | some fd => ks ++ [fd.kind]
  | none => ks.dropLast

/-- The kinds of the entries after a sequence of operations. -/
def kinds (ops : List Op) : List Kind := ops.foldl stack []

theorem kinds_concat (ops : List Op) (op : Op) : kinds (ops ++ [op]) = stack (kinds ops) op := by
  simp [kinds]

variable {s s' : Fds} {op : Op} {ops : List Op} {fd : Fd} {k : Kind}

theorem indexed_pushed (h : pushed op = some fd) : Indexed fd.kind := by
  cases op <;> simp only [pushed, Option.some.injEq, reduceCtorEq] at h <;> subst h <;>
    simp [Indexed, Fd.kind]

theorem kinds_run (h : ∀ op ∈ ops, Single op) : (fds (run ops)).map Fd.kind = kinds ops := by
  induction ops using List.reverseRecOn with
  | nil => rfl
  | append_singleton ops op ih =>
    have hops := ih fun o ho => h o (by simp [ho])
    rw [run_concat, kinds_concat, stack, ← hops]
    obtain rfl | ⟨fd, hfd⟩ := h op (by simp)
    · rw [Op.apply, fds_popFd, List.map_dropLast]
      rfl
    · rw [fds_pushed hfd, hfd, List.map_append]
      rfl

/-! ### The last entry of a kind -/

/-- The last entry of kind `k` is at position `i`. -/
def LastOf (F : List Fd) (k : Kind) (i : ℕ) : Prop :=
  (∃ fd, F[i]? = some fd ∧ fd.kind = k) ∧ ∀ j fd, F[j]? = some fd → fd.kind = k → j ≤ i

variable {F : List Fd} {i j : ℕ}

theorem LastOf.unique (hi : LastOf F k i) (hj : LastOf F k j) : i = j := by
  obtain ⟨⟨fd, hfd, hk⟩, hmax⟩ := hi
  obtain ⟨⟨fd', hfd', hk'⟩, hmax'⟩ := hj
  exact Nat.le_antisymm (hmax' i fd hfd hk) (hmax j fd' hfd' hk')

theorem lastOf_concat : LastOf (F ++ [fd]) k i ↔
    if fd.kind = k then i = F.length else LastOf F k i := by
  have hlast : (F ++ [fd])[F.length]? = some fd := by simp
  have hlow : ∀ {j : ℕ} {x : Fd}, (F ++ [fd])[j]? = some x → j ≠ F.length → F[j]? = some x := by
    intro j x hx hj
    have hlt := (List.getElem?_eq_some_iff.mp hx).1
    rw [List.length_append, List.length_singleton] at hlt
    rwa [List.getElem?_append_left (by omega)] at hx
  have hup : ∀ {j : ℕ} {x : Fd}, F[j]? = some x → (F ++ [fd])[j]? = some x := by
    intro j x hx
    rwa [List.getElem?_append_left (List.getElem?_eq_some_iff.mp hx).1]
  split_ifs with hk
  · constructor
    · rintro ⟨⟨x, hx, -⟩, hmax⟩
      have hle := hmax _ _ hlast hk
      have hlt := (List.getElem?_eq_some_iff.mp hx).1
      rw [List.length_append, List.length_singleton] at hlt
      omega
    · rintro rfl
      refine ⟨⟨fd, hlast, hk⟩, fun j x hx _ => ?_⟩
      have hlt := (List.getElem?_eq_some_iff.mp hx).1
      rw [List.length_append, List.length_singleton] at hlt
      omega
  · have hne : ∀ {j : ℕ} {x : Fd}, (F ++ [fd])[j]? = some x → x.kind = k → j ≠ F.length := by
      rintro j x hx hxk rfl
      rw [hlast] at hx
      exact hk (Option.some.inj hx ▸ hxk)
    constructor
    · rintro ⟨⟨x, hx, hxk⟩, hmax⟩
      exact ⟨⟨x, hlow hx (hne hx hxk), hxk⟩, fun j y hy hyk => hmax j y (hup hy) hyk⟩
    · rintro ⟨⟨x, hx, hxk⟩, hmax⟩
      exact ⟨⟨x, hup hx, hxk⟩, fun j y hy hyk => hmax j y (hlow hy (hne hy hyk)) hyk⟩

theorem exists_lastOf (h : ∃ fd ∈ F, fd.kind = k) : ∃ i, LastOf F k i := by
  induction F using List.reverseRecOn with
  | nil =>
    obtain ⟨fd, hfd, -⟩ := h
    simp at hfd
  | append_singleton F fd ih =>
    by_cases hk : fd.kind = k
    · exact ⟨F.length, lastOf_concat.mpr (by rw [if_pos hk])⟩
    · obtain ⟨x, hx, hxk⟩ := h
      rcases List.mem_append.mp hx with hx | hx
      · obtain ⟨i, hi⟩ := ih ⟨x, hx, hxk⟩
        exact ⟨i, lastOf_concat.mpr (by rwa [if_neg hk])⟩
      · obtain rfl := List.mem_singleton.mp hx
        exact absurd hxk hk

theorem LastOf.exists_mem (h : LastOf F k i) : ∃ fd ∈ F, fd.kind = k := by
  obtain ⟨⟨fd, hfd, hk⟩, -⟩ := h
  exact ⟨fd, List.mem_of_getElem? hfd, hk⟩

/-! ### Exact indices -/

/-- The index of every indexed kind names the last entry of the kind. -/
def Exact (s : Fds) : Prop := ∀ k, Indexed k → ∀ i, index s k = some i ↔ LastOf (fds s) k i

theorem Exact.push (h : Exact s) (hfd : pushed op = some fd) : Exact (op.apply s) := by
  intro k hk i
  rw [index_pushed hfd, fds_pushed hfd, lastOf_concat]
  split_ifs
  · rw [Option.some.injEq, eq_comm]
  · exact h k hk i

theorem Exact.pop (h : Exact s)
    (hother : ∀ fd, (fds s).getLast? = some fd → ∀ x ∈ (fds s).dropLast, x.kind ≠ fd.kind) :
    Exact s.popFd := by
  rcases hl : s.inner.getLast? with _ | c
  · rwa [Fds.popFd, hl]
  have hlast : (fds s).getLast? = some c.value := by
    rw [fds, List.getLast?_map, hl]
    rfl
  have hsplit : (fds s).dropLast ++ [c.value] = fds s :=
    List.dropLast_append_getLast? _ hlast
  intro k hk i
  rw [index_popFd hl, fds_popFd]
  split_ifs with hc
  · have hnone : ¬ LastOf (fds s).dropLast k i := by
      intro hi
      obtain ⟨x, hx, hxk⟩ := hi.exists_mem
      exact hother _ hlast x hx (hxk.trans hc)
    simp [hnone]
  · rw [h k hk i, ← hsplit, lastOf_concat, if_neg (Ne.symm hc), hsplit]

/-! ### What exact indices are good for -/

/-- Every indexed kind with an entry has its last entry as its index. -/
def Addressable (s : Fds) : Prop :=
  ∀ k, Indexed k → (∃ fd ∈ fds s, fd.kind = k) → ∃ i, index s k = some i ∧ LastOf (fds s) k i

/-- A write to an indexed kind that makes no call finds no entry of the kind. -/
def Writes (s : Fds) : Prop :=
  ∀ k w, Indexed k → writer k = some w → ∀ buf x, ((w buf).run s).Exec [] x →
    ∀ fd ∈ fds s, fd.kind ≠ k

/-- Pushes, each with the pop that takes it back. -/
inductive Nested : List Op → Prop
  | nil : Nested []
  | push {op : Op} {fd : Fd} {mid rest : List Op} (hop : pushed op = some fd) (hmid : Nested mid)
      (hrest : Nested rest) : Nested (op :: (mid ++ .popFd :: rest))

/-- A pop at the end of `p` undoes the push it takes back. -/
def Undone (p : List Op) : Prop :=
  ∀ pre op fd mid, p = pre ++ op :: (mid ++ [.popFd]) → pushed op = some fd → Nested mid →
    (run p).inner = (run pre).inner ∧ ∀ k, Indexed k → index (run p) k = index (run pre) k

theorem Exact.addressable (h : Exact s) : Addressable s := by
  intro k hk hmem
  obtain ⟨i, hi⟩ := exists_lastOf hmem
  exact ⟨i, (h k hk i).mpr hi, hi⟩

theorem Addressable.writes (h : Addressable s) (hidle : Idle s) : Writes s := by
  intro k w hk hw buf x hx fd hfd hkind
  obtain ⟨i, hi, ⟨fd', hfd', -⟩, -⟩ := h k hk ⟨fd, hfd, hkind⟩
  rw [writer_run hw, hi] at hx
  simp only [sendTo_run (hidle.cell hfd')] at hx
  obtain ⟨_, _, ht, -⟩ := hx
  simp at ht

theorem Nested.fds_foldl {mid : List Op} (h : Nested mid) :
    ∀ s, fds (mid.foldl Op.apply s) = fds s := by
  induction h with
  | nil => exact fun _ => rfl
  | @push op fd mid rest hop _ _ ihmid ihrest =>
    intro s
    have hpop : fds (Fds.popFd (mid.foldl Op.apply (op.apply s))) = fds s := by
      rw [fds_popFd, ihmid, fds_pushed hop, List.dropLast_concat]
    rw [List.foldl_cons, List.foldl_append, List.foldl_cons, ihrest]
    exact hpop

theorem Exact.index_eq (h : Exact s) (h' : Exact s') (hfds : fds s = fds s') (hk : Indexed k) :
    index s k = index s' k := by
  refine Option.ext fun i => ?_
  rw [h k hk i, h' k hk i, hfds]

theorem undone {p : List Op} (h : ∀ q, q <+: p → Exact (run q)) : Undone p := by
  rintro pre op fd mid rfl hop hmid
  have hpre : pre <+: pre ++ op :: (mid ++ [.popFd]) := ⟨_, rfl⟩
  have hfds : fds (run (pre ++ op :: (mid ++ [.popFd]))) = fds (run pre) := by
    have hnested : Nested (op :: (mid ++ [.popFd])) := .push hop hmid .nil
    rw [run, List.foldl_append, hnested.fds_foldl, run]
  refine ⟨?_, fun k hk => (h _ (List.prefix_refl _)).index_eq (h _ hpre) hfds hk⟩
  rw [(idle_run _).inner_eq, hfds, ← (idle_run pre).inner_eq]

/-! ### Runs -/

/-- In every state of the run the descriptors are addressable, writes by kind find them, and every
pop has undone its push. -/
def StaysAddressable (ops : List Op) : Prop :=
  ∀ p, p <+: ops → Addressable (run p) ∧ Writes (run p) ∧ Undone p

/-- No pop of the sequence takes an entry of a kind of which it leaves another entry. -/
def KeepsOthers (ops : List Op) : Prop :=
  ∀ pre, pre ++ [.popFd] <+: ops → ∀ k, (kinds pre).getLast? = some k → k ∉ (kinds pre).dropLast

theorem exact_run (h : ∀ op ∈ ops, Single op) (hkeep : KeepsOthers ops) : Exact (run ops) := by
  induction ops using List.reverseRecOn with
  | nil =>
    intro k hk i
    have hnone : ¬ LastOf (fds (run [])) k i := by
      intro hi
      obtain ⟨fd, hfd, -⟩ := hi.exists_mem
      simp [run, Fds.new, fds] at hfd
    cases k <;> simp [hnone] <;> simp [run, Fds.new, index]
  | append_singleton ops op ih =>
    have hops : ∀ op ∈ ops, Single op := fun o ho => h o (by simp [ho])
    have hexact := ih hops fun pre hpre => hkeep pre (hpre.trans (List.prefix_append _ _))
    rw [run_concat]
    obtain rfl | ⟨fd, hfd⟩ := h op (by simp)
    · refine hexact.pop fun fd hlast x hx hk => ?_
      have hkinds := kinds_run hops
      refine hkeep ops (List.prefix_refl _) fd.kind ?_ ?_
      · rw [← hkinds, List.getLast?_map, hlast]
        rfl
      · rw [← hkinds, ← List.map_dropLast, ← hk]
        exact List.mem_map_of_mem hx
    · exact hexact.push hfd

theorem indexed_kinds (h : ∀ op ∈ ops, Single op) : ∀ k ∈ kinds ops, Indexed k := by
  induction ops using List.reverseRecOn with
  | nil => simp [kinds]
  | append_singleton ops op ih =>
    have hops := ih fun o ho => h o (by simp [ho])
    intro k hk
    rw [kinds_concat, stack] at hk
    obtain rfl | ⟨fd, hfd⟩ := h op (by simp)
    · exact hops k (List.dropLast_subset _ hk)
    · rw [hfd] at hk
      rcases List.mem_append.mp hk with hk | hk
      · exact hops k hk
      · rw [List.mem_singleton.mp hk]
        exact indexed_pushed hfd

/-- A pop that leaves another entry of the kind it takes leaves it without an index. -/
theorem not_addressable_pop (h : ∀ op ∈ ops, Single op) (hlast : (kinds ops).getLast? = some k)
    (hmem : k ∈ (kinds ops).dropLast) : ¬ Addressable (run (ops ++ [.popFd])) := by
  intro haddr
  have hk : Indexed k := indexed_kinds h k (List.dropLast_subset _ hmem)
  rw [← kinds_run h] at hlast hmem
  rw [← List.map_dropLast, List.mem_map] at hmem
  obtain ⟨i, hi, -⟩ := haddr k hk (by rwa [run_concat, Op.apply, fds_popFd])
  rw [fds, List.map_map, List.getLast?_map, Option.map_eq_some_iff] at hlast
  obtain ⟨c, hc, rfl⟩ := hlast
  have hnone : index (run ops).popFd c.value.kind = none := by rw [index_popFd hc, if_pos rfl]
  rw [run_concat, Op.apply, Function.comp, hnone] at hi
  simp at hi

/-- **A registered descriptor stays addressable** in every state of a run, and every pop undoes its
push, exactly if no pop of the run leaves another entry of the kind it takes. -/
theorem addressable_iff (h : ∀ op ∈ ops, Single op) :
    StaysAddressable ops ↔ KeepsOthers ops := by
  constructor
  · intro haddr pre hpre k hlast hmem
    have hpre' : ∀ op ∈ pre, Single op := fun op hop =>
      h op (hpre.subset (List.mem_append_left _ hop))
    exact not_addressable_pop hpre' hlast hmem (haddr _ hpre).1
  · intro hkeep p hp
    have hexact : ∀ q, q <+: p → Exact (run q) := fun q hq =>
      exact_run (fun op hop => h op (hp.subset (hq.subset hop)))
        fun pre hpre => hkeep pre (hpre.trans (hq.trans hp))
    have haddr := (hexact p (List.prefix_refl p)).addressable
    exact ⟨haddr, haddr.writes (idle_run p), undone hexact⟩

/-- Two entries of stdout, and a stdin that is pushed and popped. -/
def stdinPopped : List Op :=
  [.pushStdoutFd 1 POLLIN, .pushStdoutFd 1 POLLIN,
    .pushStdinFd 0 ⟨0, 0, 0, 0, 0, Vector.replicate 32 0, 0, 0⟩ POLLIN, .popFd]

theorem stdinPopped_addressable : StaysAddressable stdinPopped := by
  refine (addressable_iff ?_).mpr fun pre hpre k hk => ?_
  · simp [stdinPopped, Single, pushed]
  · obtain ⟨rest, hrest⟩ := hpre
    rcases pre with _ | ⟨a, _ | ⟨b, _ | ⟨c, _ | ⟨d, pre⟩⟩⟩⟩ <;>
      simp only [stdinPopped, List.nil_append, List.cons_append, List.cons.injEq,
        reduceCtorEq, false_and, and_false] at hrest
    · obtain ⟨rfl, rfl, rfl, -⟩ := hrest
      obtain rfl : Kind.Stdin = k := by simpa [kinds, stack, pushed, Fd.kind] using hk
      decide
    · simp at hrest

/-- Two entries of stdout and one pop: the other entry is left without an index. -/
theorem stdout_not_addressable :
    ¬ StaysAddressable [.pushStdoutFd 1 POLLIN, .pushStdoutFd 1 POLLIN, .popFd] := by
  intro h
  have hsingle : ∀ op ∈ [Op.pushStdoutFd 1 POLLIN, .pushStdoutFd 1 POLLIN], Single op := by
    simp [Single, pushed]
  have hpop := (h _ (List.prefix_refl _)).1
  exact not_addressable_pop hsingle (k := .Stdout) rfl (by decide) hpop

end SshPass.Unix.Addressing
