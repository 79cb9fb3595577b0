import Mathlib.Data.Nat.Notation
import Mathlib.Tactic.Common

/-! # Cells with run-time borrow checking

A cell holds a value and its borrow flag: how many shared guards are live, or that the exclusive one
is. `borrow` fails while the exclusive guard is live, `borrowMut` while any guard is. A cell is
*free* when no guard is live; taking a guard of a free cell and dropping it gives the cell back
(`dropRef_one`, `dropMut_writing`). -/

namespace SshPass.Lib.Borrow

/-- The guards that are live: `n` shared ones, or the exclusive one. -/
inductive Flag
  | reading (n : ℕ)
  | writing
  deriving DecidableEq, Repr

/-- A value behind a borrow flag. -/
structure RefCell (α : Type) where
  value : α
  flag : Flag
  deriving DecidableEq, Repr

namespace RefCell

variable {α : Type}

/-- A cell without guards. -/
def new (a : α) : RefCell α := ⟨a, .reading 0⟩

/-- No guard is live. -/
def Free (c : RefCell α) : Prop := c.flag = .reading 0

/-- Take a shared guard. -/
def borrow (c : RefCell α) : Option (RefCell α) :=
  match c.flag with
  | .reading n => some { c with flag := .reading (n + 1) }
  | .writing => none

/-- Take the exclusive guard. -/
def borrowMut (c : RefCell α) : Option (RefCell α) :=
  match c.flag with
  | .reading 0 => some { c with flag := .writing }
  | _ => none

/-- Drop a shared guard. -/
def dropRef (c : RefCell α) : RefCell α :=
  match c.flag with
  | .reading (n + 1) => { c with flag := .reading n }
  | _ => c

/-- Drop the exclusive guard. -/
def dropMut (c : RefCell α) : RefCell α :=
  match c.flag with
  | .writing => { c with flag := .reading 0 }
  | _ => c

/-- Write through the exclusive guard. -/
def write (c : RefCell α) (a : α) : RefCell α := { c with value := a }

@[simp] theorem new_value (a : α) : (new a).value = a := rfl

theorem Free.eq_new {c : RefCell α} (h : c.Free) : c = new c.value := by
  cases c
  simpa [Free, new] using h

@[simp] theorem borrow_new (a : α) : (new a).borrow = some ⟨a, .reading 1⟩ := rfl

@[simp] theorem borrowMut_new (a : α) : (new a).borrowMut = some ⟨a, .writing⟩ := rfl

@[simp] theorem dropRef_one (a : α) : dropRef ⟨a, .reading 1⟩ = new a := rfl

@[simp] theorem dropMut_writing (a : α) : dropMut ⟨a, .writing⟩ = new a := rfl

@[simp] theorem write_mk (a b : α) (f : Flag) : write ⟨a, f⟩ b = ⟨b, f⟩ := rfl

/-- The exclusive guard can be taken exactly from a free cell. -/
theorem borrowMut_isSome {c : RefCell α} : c.borrowMut.isSome ↔ c.Free := by
  rcases c with ⟨a, (_ | n) | _⟩ <;> simp [borrowMut, Free]

end RefCell

end SshPass.Lib.Borrow
