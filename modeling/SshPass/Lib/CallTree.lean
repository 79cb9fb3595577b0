import Mathlib.Data.Nat.Notation
import Mathlib.Tactic.Common

/-! # Programs that make calls

A program over a signature of calls `Op`, where the call `o` is answered by a value of `Ans o`,
returns a value or makes a call and goes on with the answer. Its executions are the traces of calls
with their answers: `Exec p t x` says that `p`, answered as `t` records, returns `x`; every answer
is allowed. `After p t q` says that `q` is what is left of `p` after the calls of `t`. An
environment `Env` is a party that answers the calls and has a state of its own. -/

namespace SshPass.Lib.CallTree

/-- A program: it returns, or makes the call `o` and goes on with the answer. -/
inductive Tree (Op : Type) (Ans : Op → Type) (α : Type) : Type
  | ret (a : α) : Tree Op Ans α
  | call (o : Op) (k : Ans o → Tree Op Ans α) : Tree Op Ans α

/-- A call with its answer. -/
structure Event (Op : Type) (Ans : Op → Type) where
  op : Op
  ans : Ans op

namespace Tree

variable {Op : Type} {Ans : Op → Type} {α β : Type}

/-- Run `p`, then `f` on what it returns. -/
def bind : Tree Op Ans α → (α → Tree Op Ans β) → Tree Op Ans β
  | ret a, f => f a
  | call o k, f => call o fun x => (k x).bind f

/-- The executions: `p`, answered as `t` records, returns `x`. -/
def Exec : Tree Op Ans α → List (Event Op Ans) → α → Prop
  | ret a, t, x => t = [] ∧ x = a
  | call o k, t, x => ∃ a t', t = ⟨o, a⟩ :: t' ∧ (k a).Exec t' x

@[simp] theorem ret_bind (a : α) (f : α → Tree Op Ans β) : (ret a).bind f = f a := rfl

@[simp] theorem call_bind (o : Op) (k : Ans o → Tree Op Ans α) (f : α → Tree Op Ans β) :
    (call o k).bind f = call o fun x => (k x).bind f := rfl

@[simp] theorem exec_ret {a x : α} {t : List (Event Op Ans)} :
    (ret a : Tree Op Ans α).Exec t x ↔ t = [] ∧ x = a := Iff.rfl

@[simp] theorem exec_call {o : Op} {k : Ans o → Tree Op Ans α} {t : List (Event Op Ans)} {x : α} :
    (call o k).Exec t x ↔ ∃ a t', t = ⟨o, a⟩ :: t' ∧ (k a).Exec t' x := Iff.rfl

theorem call_congr {o : Op} {k k' : Ans o → Tree Op Ans α} (h : ∀ a, k a = k' a) :
    call o k = call o k' := congrArg _ (funext h)

/-- **Executions compose**: a trace of `p.bind f` is a trace of `p` followed by one of `f`. -/
theorem exec_bind {f : α → Tree Op Ans β} {x : β} :
    ∀ {p : Tree Op Ans α} {t : List (Event Op Ans)},
      (p.bind f).Exec t x ↔ ∃ t₁ t₂ a, t = t₁ ++ t₂ ∧ p.Exec t₁ a ∧ (f a).Exec t₂ x
  | ret a, t => by
    constructor
    · intro h
      exact ⟨[], t, a, rfl, ⟨rfl, rfl⟩, h⟩
    · rintro ⟨t₁, t₂, a', rfl, ⟨rfl, rfl⟩, h⟩
      exact h
  | call o k, t => by
    simp only [call_bind, exec_call]
    constructor
    · rintro ⟨b, t', rfl, h⟩
      obtain ⟨t₁, t₂, a, rfl, h₁, h₂⟩ := exec_bind.mp h
      exact ⟨⟨o, b⟩ :: t₁, t₂, a, rfl, ⟨b, t₁, rfl, h₁⟩, h₂⟩
    · rintro ⟨_, t₂, a, rfl, ⟨b, t', rfl, h₁⟩, h₂⟩
      exact ⟨b, t' ++ t₂, rfl, exec_bind.mpr ⟨t', t₂, a, rfl, h₁, h₂⟩⟩

/-- A program always has an execution, if every call can be answered. -/
theorem exists_exec [hn : ∀ o, Nonempty (Ans o)] (p : Tree Op Ans α) : ∃ t x, p.Exec t x := by
  induction p with
  | ret a => exact ⟨[], a, rfl, rfl⟩
  | call o k ih =>
    obtain ⟨a⟩ := hn o
    obtain ⟨t, x, h⟩ := ih a
    exact ⟨⟨o, a⟩ :: t, x, a, t, rfl, h⟩

/-! ### What is left of a program -/

end Tree

/-! ### Environments -/

/-- An environment: how its state may change with a call and its answer. -/
def Env (Op : Type) (Ans : Op → Type) (σ : Type) : Type := σ → Event Op Ans → σ → Prop

namespace Env

variable {Op : Type} {Ans : Op → Type} {σ : Type} {E : Env Op Ans σ}

/-- The environment answers the calls of a trace as it records. -/
def Run (E : Env Op Ans σ) : σ → List (Event Op Ans) → σ → Prop
  | s, [], s' => s' = s
  | s, e :: t, s' => ∃ s₁, E s e s₁ ∧ E.Run s₁ t s'

@[simp] theorem run_nil {s s' : σ} : E.Run s [] s' ↔ s' = s := Iff.rfl

@[simp] theorem run_cons {s s' : σ} {e : Event Op Ans} {t : List (Event Op Ans)} :
    E.Run s (e :: t) s' ↔ ∃ s₁, E s e s₁ ∧ E.Run s₁ t s' := Iff.rfl

theorem run_append {s s' : σ} {u : List (Event Op Ans)} : ∀ {t : List (Event Op Ans)},
    E.Run s (t ++ u) s' ↔ ∃ s₁, E.Run s t s₁ ∧ E.Run s₁ u s'
  | [] => by simp
  | e :: t => by
    simp only [List.cons_append, run_cons, run_append]
    constructor
    · rintro ⟨s₁, he, s₂, ht, hu⟩
      exact ⟨s₂, ⟨s₁, he, ht⟩, hu⟩
    · rintro ⟨s₂, ⟨s₁, he, ht⟩, hu⟩
      exact ⟨s₁, he, s₂, ht, hu⟩

/-- **An invariant of the environment**: every call of the trace keeps it. -/
theorem Run.invariant {P : σ → Prop} : ∀ {s s' : σ} {t : List (Event Op Ans)}, E.Run s t s' →
    (∀ e ∈ t, ∀ s s', P s → E s e s' → P s') → P s → P s'
  | s, s', [], h, _, hs => by
    rw [run_nil] at h
    rwa [h]
  | s, s', e :: t, ⟨s₁, he, h⟩, hstep, hs =>
    h.invariant (fun e' he' => hstep e' (List.mem_cons_of_mem _ he'))
      (hstep e List.mem_cons_self s s₁ hs he)

end Env

end SshPass.Lib.CallTree
