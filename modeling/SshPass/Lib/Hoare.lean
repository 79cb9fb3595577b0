import SshPass.Lib.Stateful

/-! # Triples

`Triple E C P m Q`: every execution of `m` from a state of `P` makes only calls of `C`, and returns
with `Q` or aborts with an error of `E`. One rule for each way to build a program. A program is
`Total` if it makes no call and does not abort. `Agree` is a triple for a pair of programs that do
the same from every state of `P`; so a program is compared with its copy that checks assertions. -/

namespace SshPass.Lib.Hoare

open SshPass.Lib.CallTree SshPass.Lib.Borrow SshPass.Lib.Stateful SshPass.Lib.Stateful.Prog

variable {Op : Type} {Ans : Op → Type} {ε σ τ α β : Type}

/-- What the executions from the states of `P` do and leave. -/
def Triple (E : ε → Prop) (C : Event Op Ans → Prop) (P : σ → Prop) (m : Prog Op Ans ε σ α)
    (Q : α → σ → Prop) : Prop :=
  ∀ s, P s → ∀ t x s', (m.run s).Exec t (x, s') →
    (∀ e ∈ t, C e) ∧ (∀ a, x = .ok a → Q a s') ∧ ∀ e, x = .error e → E e

/-- Two programs that do the same from the states of `P`. -/
structure Agree (E : ε → Prop) (C : Event Op Ans → Prop) (P : σ → Prop) (m m' : Prog Op Ans ε σ α)
    (Q : α → σ → Prop) : Prop where
  run_eq : ∀ s, P s → m.run s = m'.run s
  triple : Triple E C P m Q

variable {E : ε → Prop} {C : Event Op Ans → Prop} {P P' : σ → Prop}
  {m m' : Prog Op Ans ε σ α} {f f' : α → Prog Op Ans ε σ β} {Q Q' : α → σ → Prop}
  {R : β → σ → Prop}

namespace Triple

theorem of_cases (h : ∀ s, P s → (∃ e s', m.run s = .ret (.error e, s') ∧ E e) ∨
    ∃ a s', m.run s = .ret (.ok a, s') ∧ Q a s') : Triple E C P m Q := by
  intro s hs t x s' hx
  obtain ⟨e, s₁, hrun, hE⟩ | ⟨a, s₁, hrun, hQ⟩ := h s hs <;> rw [hrun] at hx <;>
    obtain ⟨rfl, hx⟩ := hx <;> obtain ⟨rfl, rfl⟩ := Prod.mk.inj hx
  · refine ⟨fun e he => by simp at he, fun b hb => by simp at hb, fun e' he => ?_⟩
    rwa [← Except.error.inj he]
  · refine ⟨fun e he => by simp at he, fun b hb => ?_, fun e he => by simp at he⟩
    rwa [← Except.ok.inj hb]

theorem of_ret (h : ∀ s, P s → ∃ a s', m.run s = .ret (.ok a, s') ∧ Q a s') :
    Triple E C P m Q :=
  of_cases fun s hs => .inr (h s hs)

theorem pure {a : α} (h : ∀ s, P s → Q a s) : Triple E C P (Pure.pure a) Q :=
  of_ret fun s hs => ⟨a, s, rfl, h s hs⟩

theorem update {g : σ → σ} {Q : Unit → σ → Prop} (h : ∀ s, P s → Q () (g s)) :
    Triple E C P (update g) Q :=
  of_ret fun s hs => ⟨(), g s, rfl, h s hs⟩

theorem state {Q : σ → σ → Prop} (h : ∀ s, P s → Q s s) : Triple E C P Prog.state Q :=
  of_ret fun s hs => ⟨s, s, rfl, h s hs⟩

theorem abort {e : ε} (h : E e) : Triple E C P (abort e) Q :=
  of_cases fun s _ => .inl ⟨e, s, rfl, h⟩

theorem ask {o : Op} {Q : Ans o → σ → Prop} (hC : ∀ s, P s → ∀ a, C ⟨o, a⟩)
    (h : ∀ s, P s → ∀ a, Q a s) : Triple E C P (ask o) Q := by
  rintro s hs t x s' ⟨a, _, rfl, rfl, hx⟩
  obtain ⟨rfl, rfl⟩ := Prod.mk.inj hx
  refine ⟨fun e he => ?_, fun b hb => ?_, fun e he => by simp at he⟩
  · obtain rfl := List.mem_singleton.mp he
    exact hC s' hs a
  · obtain rfl := Except.ok.inj hb
    exact h s' hs a

/-- **Consequence.** -/
theorem weaken (h : Triple E C P m Q) (hP : ∀ s, P' s → P s) (hQ : ∀ a s, Q a s → Q' a s) :
    Triple E C P' m Q' := by
  intro s hs t x s' hx
  obtain ⟨hC, hok, herr⟩ := h s (hP s hs) t x s' hx
  exact ⟨hC, fun a ha => hQ a s' (hok a ha), herr⟩

/-- A part of the precondition that is not about the state. -/
theorem of_and {φ : Prop} (h : φ → Triple E C P m Q) : Triple E C (fun s => φ ∧ P s) m Q :=
  fun s hs => h hs.1 s hs.2

/-- **Sequencing.** -/
theorem bind (hm : Triple E C P m Q) (hf : ∀ a, Triple E C (Q a) (f a) R) :
    Triple E C P (m >>= f) R := by
  intro s hs t x s' hx
  obtain ⟨e, s₁, hx, heq⟩ | ⟨t₁, t₂, a, s₁, rfl, h₁, h₂⟩ := exec_bind.mp hx
  · obtain ⟨rfl, rfl⟩ := Prod.mk.inj heq
    obtain ⟨hC, -, herr⟩ := hm s hs t _ _ hx
    exact ⟨hC, fun b hb => by simp at hb, fun e' he => herr e' (by rw [← Except.error.inj he])⟩
  · obtain ⟨hC₁, hok, -⟩ := hm s hs t₁ _ _ h₁
    obtain ⟨hC₂, hok₂, herr₂⟩ := hf a s₁ (hok a rfl) t₂ _ _ h₂
    refine ⟨fun e he => ?_, hok₂, herr₂⟩
    rcases List.mem_append.mp he with he | he
    · exact hC₁ e he
    · exact hC₂ e he

/-- **Framing**: a program on a component, the rest of the state being that of `s`. -/
theorem zoom {c : Field σ τ} {P : τ → Prop} {m : Prog Op Ans ε τ α} {Q : α → τ → Prop}
    {P' : σ → Prop} {Q' : α → σ → Prop} (hm : Triple E C P m Q) (hP : ∀ s, P' s → P (c.get s))
    (hQ : ∀ a s x, P' s → Q a x → Q' a (c.set x s)) : Triple E C P' (zoom c m) Q' := by
  intro s hs t x s' hx
  rw [run_zoom, Tree.exec_bind] at hx
  obtain ⟨t₁, _, ⟨x₁, s₁⟩, rfl, h₁, rfl, hx⟩ := hx
  obtain ⟨rfl, rfl⟩ := Prod.mk.inj hx
  obtain ⟨hC, hok, herr⟩ := hm _ (hP s hs) t₁ _ _ h₁
  rw [List.append_nil]
  exact ⟨hC, fun a ha => hQ a s s₁ hs (hok a ha), herr⟩

/-- Taking a guard of a cell keeps the cell's value. -/
theorem takeGuard {g : Option (RefCell τ)} {put : RefCell τ → σ → σ} {e : ε} {Q : τ → σ → Prop}
    (he : E e) (h : ∀ c, g = some c → ∀ s, P s → Q c.value (put c s)) :
    Triple E C P (takeGuard g put e) Q := by
  rcases g with _ | c
  · exact abort he
  · exact of_ret fun s hs => ⟨c.value, put c s, rfl, h c rfl s hs⟩

end Triple

/-! ### Total programs -/

/-- Every execution from a state of `P` makes no call and returns with `Q`. -/
def Total (P : σ → Prop) (m : Prog Op Ans ε σ α) (Q : α → σ → Prop) : Prop :=
  Triple (fun _ => False) (fun _ => False) P m Q

/-- **A total program returns.** -/
theorem Total.run [∀ o, Nonempty (Ans o)] (h : Total P m Q) {s : σ} (hs : P s) :
    ∃ a s', m.run s = .ret (.ok a, s') ∧ Q a s' := by
  rcases hm : m.run s with ⟨x, s'⟩ | ⟨o, k⟩
  · obtain ⟨-, hok, herr⟩ := h s hs [] x s' (by rw [hm]; exact ⟨rfl, rfl⟩)
    rcases x with e | a
    · exact (herr e rfl).elim
    · exact ⟨a, s', rfl, hok a rfl⟩
  · obtain ⟨t, ⟨x, s'⟩, ht⟩ := Tree.exists_exec (m.run s)
    obtain ⟨hcalls, -⟩ := h s hs t x s' ht
    rw [hm] at ht
    obtain ⟨a, t', rfl, -⟩ := ht
    exact (hcalls _ List.mem_cons_self).elim

namespace Agree

theorem refl (h : Triple E C P m Q) : Agree E C P m m Q := ⟨fun _ _ => rfl, h⟩

theorem weaken (h : Agree E C P m m' Q) (hP : ∀ s, P' s → P s) (hQ : ∀ a s, Q a s → Q' a s) :
    Agree E C P' m m' Q' :=
  ⟨fun s hs => h.run_eq s (hP s hs), h.triple.weaken hP hQ⟩

/-- What follows a program may rely on what the program leaves. -/
theorem tree_bind {p : Tree Op Ans α} {g g' : α → Tree Op Ans β}
    (h : ∀ t x, p.Exec t x → g x = g' x) : p.bind g = p.bind g' := by
  induction p with
  | ret a => exact h [] a ⟨rfl, rfl⟩
  | call o k ih => exact Tree.call_congr fun a => ih a fun t x hx => h _ x ⟨a, t, rfl, hx⟩

/-- **Sequencing.** -/
theorem bind (hm : Agree E C P m m' Q) (hf : ∀ a, Agree E C (Q a) (f a) (f' a) R) :
    Agree E C P (m >>= f) (m' >>= f') R := by
  refine ⟨fun s hs => ?_, hm.triple.bind fun a => (hf a).triple⟩
  rw [run_bind, run_bind, ← hm.run_eq s hs]
  refine tree_bind fun t x hx => ?_
  rcases x with ⟨e | a, s'⟩
  · rfl
  · exact (hf a).run_eq s' ((hm.triple s hs t _ s' hx).2.1 a rfl)

/-- **Framing.** -/
theorem zoom {c : Field σ τ} {P : τ → Prop} {m m' : Prog Op Ans ε τ α} {Q : α → τ → Prop}
    {P' : σ → Prop} {Q' : α → σ → Prop} (hm : Agree E C P m m' Q) (hP : ∀ s, P' s → P (c.get s))
    (hQ : ∀ a s x, P' s → Q a x → Q' a (c.set x s)) :
    Agree E C P' (Prog.zoom c m) (Prog.zoom c m') Q' := by
  refine ⟨fun s hs => ?_, hm.triple.zoom hP hQ⟩
  rw [run_zoom, run_zoom, hm.run_eq _ (hP s hs)]

end Agree

end SshPass.Lib.Hoare
