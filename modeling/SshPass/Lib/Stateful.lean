import SshPass.Lib.CallTree
import SshPass.Lib.Borrow

/-! # Programs over a state that may abort

`Prog Op Ans ε σ α` is a program over the calls `Op` that reads and writes a state `σ` and may abort
with an `ε`; an abort keeps the state and the trace up to it. `zoom` runs a program on a component
of the state, `takeGuard` takes a guard of a cell of the state or aborts. The `run_…` lemmas compute
a program on a state down to its call tree. -/

namespace SshPass.Lib.Stateful

open SshPass.Lib.CallTree SshPass.Lib.Borrow

/-- A program over the state `σ` that may abort with an `ε`. -/
structure Prog (Op : Type) (Ans : Op → Type) (ε σ α : Type) where
  run : σ → Tree Op Ans (Except ε α × σ)

/-- A component of a state. -/
structure Field (σ τ : Type) where
  get : σ → τ
  set : τ → σ → σ

namespace Prog

variable {Op : Type} {Ans : Op → Type} {ε σ τ α β : Type}

/-- Go on with `f` after a normal return; an abort stays. -/
def cont (f : α → Prog Op Ans ε σ β) : Except ε α × σ → Tree Op Ans (Except ε β × σ)
  | (.ok a, s) => (f a).run s
  | (.error e, s) => .ret (.error e, s)

instance : Monad (Prog Op Ans ε σ) where
  pure a := ⟨fun s => .ret (.ok a, s)⟩
  bind m f := ⟨fun s => (m.run s).bind (cont f)⟩

/-- The state. -/
def state : Prog Op Ans ε σ σ := ⟨fun s => .ret (.ok s, s)⟩

/-- Change the state. -/
def update (f : σ → σ) : Prog Op Ans ε σ Unit := ⟨fun s => .ret (.ok (), f s)⟩

/-- Stop with `e`. -/
def abort (e : ε) : Prog Op Ans ε σ α := ⟨fun s => .ret (.error e, s)⟩

/-- Make the call `o`. -/
def ask (o : Op) : Prog Op Ans ε σ (Ans o) := ⟨fun s => .call o fun a => .ret (.ok a, s)⟩

/-- Run `m` on the component `c`. -/
def zoom (c : Field σ τ) (m : Prog Op Ans ε τ α) : Prog Op Ans ε σ α :=
  ⟨fun s => (m.run (c.get s)).bind fun r => .ret (r.1, c.set r.2 s)⟩

/-- Keep the cell `g`, with the guard just taken, by `put`; abort if it could not be taken. -/
def takeGuard (g : Option (RefCell τ)) (put : RefCell τ → σ → σ) (e : ε) : Prog Op Ans ε σ τ :=
  match g with
  | some c => do
    update (put c)
    return c.value
  | none => abort e

@[simp] theorem cont_ok (f : α → Prog Op Ans ε σ β) (a : α) (s : σ) :
    cont f (.ok a, s) = (f a).run s := rfl

@[simp] theorem cont_error (f : α → Prog Op Ans ε σ β) (e : ε) (s : σ) :
    cont f (.error e, s) = .ret (.error e, s) := rfl

@[simp] theorem run_pure (a : α) (s : σ) :
    (pure a : Prog Op Ans ε σ α).run s = .ret (.ok a, s) := rfl

@[simp] theorem run_bind (m : Prog Op Ans ε σ α) (f : α → Prog Op Ans ε σ β) (s : σ) :
    (m >>= f).run s = (m.run s).bind (cont f) := rfl

@[simp] theorem run_state (s : σ) : (state : Prog Op Ans ε σ σ).run s = .ret (.ok s, s) := rfl

@[simp] theorem run_update (f : σ → σ) (s : σ) :
    (update f : Prog Op Ans ε σ Unit).run s = .ret (.ok (), f s) := rfl

@[simp] theorem run_ask (o : Op) (s : σ) :
    (ask o : Prog Op Ans ε σ (Ans o)).run s = .call o fun a => .ret (.ok a, s) := rfl

@[simp] theorem run_zoom (c : Field σ τ) (m : Prog Op Ans ε τ α) (s : σ) :
    (zoom c m).run s = (m.run (c.get s)).bind fun r => .ret (r.1, c.set r.2 s) := rfl

@[simp] theorem run_takeGuard_some (c : RefCell τ) (put : RefCell τ → σ → σ) (e : ε) (s : σ) :
    (takeGuard (some c) put e : Prog Op Ans ε σ τ).run s = .ret (.ok c.value, put c s) := rfl

@[simp] theorem run_takeGuard_none (put : RefCell τ → σ → σ) (e : ε) (s : σ) :
    (takeGuard none put e : Prog Op Ans ε σ τ).run s = .ret (.error e, s) := rfl

/-- An execution of `m >>= f` is one of `m` that aborts, or one of `m` followed by one of `f`. -/
theorem exec_bind {m : Prog Op Ans ε σ α} {f : α → Prog Op Ans ε σ β} {s : σ}
    {t : List (Event Op Ans)} {x : Except ε β × σ} :
    ((m >>= f).run s).Exec t x ↔
      (∃ e s', (m.run s).Exec t (.error e, s') ∧ x = (.error e, s')) ∨
        ∃ t₁ t₂ a s', t = t₁ ++ t₂ ∧ (m.run s).Exec t₁ (.ok a, s') ∧ ((f a).run s').Exec t₂ x := by
  rw [run_bind, Tree.exec_bind]
  constructor
  · rintro ⟨t₁, t₂, ⟨e | a, s'⟩, rfl, h₁, h₂⟩
    · obtain ⟨rfl, rfl⟩ := h₂
      left
      rw [List.append_nil]
      exact ⟨e, s', h₁, rfl⟩
    · right
      exact ⟨t₁, t₂, a, s', rfl, h₁, h₂⟩
  · rintro (⟨e, s', h, rfl⟩ | ⟨t₁, t₂, a, s', rfl, h₁, h₂⟩)
    · have hnil : t = t ++ [] := (List.append_nil t).symm
      exact ⟨t, [], (.error e, s'), hnil, h, rfl, rfl⟩
    · exact ⟨t₁, t₂, (.ok a, s'), rfl, h₁, h₂⟩

/-- A step that returns early on an error: `m >>= g` succeeds exactly if `m` and then `g` do. -/
theorem exec_bind_ok {E E' : Type} {m : Prog Op Ans ε σ (Except E α)}
    {g : Except E α → Prog Op Ans ε σ (Except E' β)}
    (hg : ∀ e, ∃ e', g (.error e) = pure (.error e')) {s s' : σ} {t : List (Event Op Ans)} {b : β} :
    ((m >>= g).run s).Exec t (.ok (.ok b), s') ↔
      ∃ t₁ t₂ a s₁, t = t₁ ++ t₂ ∧ (m.run s).Exec t₁ (.ok (.ok a), s₁) ∧
        ((g (.ok a)).run s₁).Exec t₂ (.ok (.ok b), s') := by
  rw [exec_bind]
  constructor
  · rintro (⟨e, s₁, -, h⟩ | ⟨t₁, t₂, e | a, s₁, rfl, h₁, h₂⟩)
    · simp at h
    · obtain ⟨e', he⟩ := hg e
      rw [he] at h₂
      simp at h₂
    · exact ⟨t₁, t₂, a, s₁, rfl, h₁, h₂⟩
  · rintro ⟨t₁, t₂, a, s₁, rfl, h₁, h₂⟩
    exact Or.inr ⟨t₁, t₂, .ok a, s₁, rfl, h₁, h₂⟩

end Prog

end SshPass.Lib.Stateful
