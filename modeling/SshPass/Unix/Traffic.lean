import SshPass.Unix.RegistrySpec
import Mathlib.Data.List.TakeDrop

/-! # The traffic of a trace

What the calls of a trace take from the descriptors of a kind (`taken`), and what the descriptors
accept from them (`accepted`, by kind, and `acceptedBy`, by descriptor). `delivered_iff`: `send_to`
delivers a buffer exactly if the kernel accepts it whole, as its count is ignored. -/

namespace SshPass.Unix.Traffic

open SshPass.Lib.CallTree SshPass.Lib.Borrow SshPass.Lib.Stateful SshPass.Lib.Stateful.Prog
open SshPass.Unix.Kernel SshPass.Unix.Registry SshPass.Unix.RegistrySpec

/-! ### What a call moves -/

/-- The bytes a call takes from the descriptors of kind `k`. -/
def taken (k : Kind) : SysEvent → List Cell
  | ⟨.read fd _, ans⟩ =>
    match ans with
    | .ok c => if k = fd.kind then tag fd.kind c.bytes else []
    | .error _ => []
  | _ => []

/-- The bytes that the descriptors of `P` accept from a call. -/
def written (P : Desc → Bool) : SysEvent → List Cell
  | ⟨.write fd buf, ans⟩ =>
    match ans with
    | .ok n => if P fd then buf.take n else []
    | .error _ => []
  | _ => []

/-- The bytes that the descriptors of kind `k` accept from a call. -/
def accepted (k : Kind) : SysEvent → List Cell := written fun fd => k = fd.kind

/-- The bytes that `d` accepts from a call. -/
def acceptedBy (d : Desc) : SysEvent → List Cell := written fun fd => d = fd

/-- A write is accepted whole. -/
def Full : SysEvent → Prop
  | ⟨.write _ buf, ans⟩ => ans = .ok (Fin.last buf.length)
  | _ => True

/-- The kernel accepts every buffer it is given, whole. -/
def FullWrites (t : List SysEvent) : Prop := ∀ e ∈ t, Full e

variable {k : Kind} {t : List SysEvent}

@[simp] theorem taken_read_ok (fd : Desc) (n : ℕ) (c : Chunk fd.kind n) :
    taken k ⟨.read fd n, .ok c⟩ = if k = fd.kind then tag fd.kind c.bytes else [] := rfl

@[simp] theorem taken_read_error (fd : Desc) (n : ℕ) (e : Errno) :
    taken k ⟨.read fd n, .error e⟩ = [] := rfl

@[simp] theorem taken_write (fd : Desc) (buf : List Cell) (ans : Ans (.write fd buf)) :
    taken k ⟨.write fd buf, ans⟩ = [] := rfl

@[simp] theorem accepted_read (fd : Desc) (n : ℕ) (ans : Ans (.read fd n)) :
    accepted k ⟨.read fd n, ans⟩ = [] := rfl

theorem exists_read {x : Cell} (h : x ∈ t.flatMap (taken k)) : ∃ fd n c,
    (⟨.read fd n, .ok c⟩ : SysEvent) ∈ t ∧ fd.kind = k ∧ x ∈ tag fd.kind c.bytes := by
  obtain ⟨⟨o, ans⟩, hmem, hx⟩ := List.mem_flatMap.mp h
  cases o with
  | read fd n =>
    rcases ans with e | c
    · simp at hx
    · rw [taken_read_ok] at hx
      split_ifs at hx with hk
      · exact ⟨fd, n, c, hmem, hk.symm, hx⟩
      · simp at hx
  | _ => simp [taken] at hx

theorem mem_taken {x : Cell} (h : x ∈ t.flatMap (taken k)) : x.src = some k := by
  obtain ⟨fd, n, c, -, rfl, hx⟩ := exists_read h
  exact mem_tag hx

theorem taken_ne_nil {fd : Desc} {n : ℕ} {c : Chunk fd.kind n}
    (h : (⟨.read fd n, .ok c⟩ : SysEvent) ∈ t) (hc : c.bytes ≠ []) :
    t.flatMap (taken fd.kind) ≠ [] := by
  intro hnil
  have := List.flatMap_eq_nil_iff.mp hnil _ h
  simp [tag_eq_nil, hc] at this

/-! ### `send_to` -/

/-- A write accepts a prefix, which is not empty unless the buffer is. -/
def Prefixes : SysEvent → Prop
  | ⟨.write _ buf, ans⟩ => ∃ n, ans = .ok n ∧ (buf ≠ [] → 0 < n.val)
  | _ => True

/-- `d` accepts exactly `buf`, and no other descriptor accepts anything. -/
def Delivered (d : Desc) (buf : List Cell) (t : List SysEvent) : Prop :=
  t.flatMap (acceptedBy d) = buf ∧ ∀ d', d' ≠ d → t.flatMap (acceptedBy d') = []

/-- **`send_to` delivers the buffer** exactly if its write accepts it whole. -/
theorem delivered_iff {s s' : Fds} {i : ℕ} {f : Fd} (hi : (fds s)[i]? = some f)
    {buf : List Cell} (h : ((Fds.sendTo i buf).run s).Exec t (.ok (), s'))
    (hp : ∀ e ∈ t, Prefixes e) :
    Delivered f.desc buf t ↔ FullWrites t := by
  obtain ⟨c, hc, rfl⟩ : ∃ c, s.inner[i]? = some c ∧ c.value = f := by
    simpa [fds, List.getElem?_map] using hi
  have hfree := sendTo_exec hc h
  rw [hfree.eq_new] at hc
  rw [sendTo_run hc] at h
  obtain ⟨ans, _, rfl, rfl, -⟩ := h
  obtain ⟨n, rfl, -⟩ := hp _ List.mem_cons_self
  have hfull : FullWrites [⟨.write c.value.desc buf, .ok n⟩] ↔ buf.take n = buf := by
    have hn : n.val ≤ buf.length := n.is_le
    simp only [FullWrites, List.forall_mem_singleton, Full, Except.ok.injEq, Fin.ext_iff,
      Fin.val_last, List.take_eq_self_iff]
    omega
  have haccepted : [(⟨.write c.value.desc buf, .ok n⟩ : SysEvent)].flatMap
      (acceptedBy c.value.desc) = buf.take n := by
    simp [acceptedBy, written]
  rw [hfull]
  constructor
  · rintro ⟨h, -⟩
    rwa [haccepted] at h
  · intro h
    refine ⟨haccepted.trans h, fun d' hd' => ?_⟩
    simp [acceptedBy, written, hd']

/-- A registry with stdout alone. -/
def stdoutOnly : Fds := Fds.new.pushStdoutFd 1 POLLIN

/-- Two bytes. -/
def twoBytes : List Cell := [⟨0x6f, some .PtyMaster⟩, ⟨0x6b, some .PtyMaster⟩]

/-- A write of two bytes to stdout, of which the kernel accepts `n`. -/
def acceptsOf (n : Fin 3) : List SysEvent := [⟨.write ⟨.Stdout, 1⟩ twoBytes, .ok n⟩]

theorem acceptsOf_exec (n : Fin 3) :
    ((Fds.sendTo 0 twoBytes).run stdoutOnly).Exec (acceptsOf n) (.ok (), stdoutOnly) := by
  rw [sendTo_run rfl]
  exact ⟨.ok n, [], rfl, rfl, rfl⟩

theorem acceptsOf_prefixes {n : Fin 3} (h : 0 < n.val) : ∀ e ∈ acceptsOf n, Prefixes e := by
  simp only [acceptsOf, List.forall_mem_singleton]
  exact ⟨n, rfl, fun _ => h⟩

theorem delivered_whole :
    Delivered ⟨.Stdout, 1⟩ twoBytes (acceptsOf 2) ↔ FullWrites (acceptsOf 2) :=
  delivered_iff (i := 0) (s := stdoutOnly) (f := .Stdout 1 POLLIN) rfl (acceptsOf_exec 2)
    (acceptsOf_prefixes (by decide))

/-- The second byte is lost. -/
theorem short_write_lost : ((Fds.sendTo 0 twoBytes).run stdoutOnly).Exec (acceptsOf 1)
    (.ok (), stdoutOnly) ∧ (∀ e ∈ acceptsOf 1, Prefixes e) ∧
      ¬ Delivered ⟨.Stdout, 1⟩ twoBytes (acceptsOf 1) := by
  refine ⟨acceptsOf_exec 1, acceptsOf_prefixes (by decide), ?_⟩
  rintro ⟨h, -⟩
  exact absurd h (by decide)

end SshPass.Unix.Traffic
