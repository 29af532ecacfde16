import Mathlib.Logic.Function.Basic

/-! # Copies of a value that changes

A value changes, one copy of it is kept for all, and threads hold copies of
their own. How many of the changes a copy has tells whether it is up to date, so
the order of the steps alone decides that. -/
namespace Resumption

/-- The changes of a value so far, and how many of them the copies have. -/
structure Copies where
  changes : Nat
  kept : Option Nat
  held : Nat → Option Nat

namespace Copies
variable {k : Copies} {i j n : Nat} {there : Bool}

/-- Before any change. -/
def first (there : Bool) : Copies := ⟨0, if there then some 0 else none, fun _ => none⟩

/-- No copy is kept, or it is up to date. -/
def Settled (k : Copies) : Prop := k.kept = none ∨ k.kept = some k.changes

/-- The copy that thread `i` holds is up to date. -/
def Fresh (k : Copies) (i : Nat) : Prop := k.held i = some k.changes

instance (k : Copies) (i : Nat) : Decidable (k.Fresh i) := inferInstanceAs (Decidable (_ = _))

/-- Thread `i` changes the value, and holds the new one. -/
def change (k : Copies) (i : Nat) : Copies :=
  ⟨k.changes + 1, k.kept, Function.update k.held i (some (k.changes + 1))⟩

/-- From now on thread `i` holds a copy with `n` changes, and one with `m` is kept. -/
def copy (k : Copies) (i : Nat) (n m : Option Nat) : Copies :=
  ⟨k.changes, m, Function.update k.held i n⟩

/-- What is known once one has looked whether a copy is kept. -/
def look (k : Copies) (there : Bool) : Copies := { k with kept := if there then k.kept else none }

theorem look_kept (h : there = true) : (k.look there).kept = k.kept := if_pos h

theorem Settled.look (h : k.Settled) : (k.look there).Settled := by
  cases there with
  | false => exact .inl rfl
  | true => exact h

/-- What holds of every thread and its copy after one thread has got another copy
and another state. -/
theorem held_update {σ : Type} {g : Nat → Option σ} {held : Nat → Option Nat} {x : Option Nat} {q : σ}
    {P : σ → Option Nat → Prop} (self : P q x)
    (other : ∀ j p, j ≠ i → g j = some p → P p (held j)) :
    ∀ {j p}, Function.update g i (some q) j = some p → P p (Function.update held i x j) := by
  intro j p hg
  by_cases hj : j = i
  · subst hj
    rw [Function.update_self] at hg ⊢
    cases hg
    exact self
  · rw [Function.update_of_ne hj] at hg ⊢
    exact other j p hj hg

/-- No thread holds more changes than there are. -/
theorem bound_update {held : Nat → Option Nat} {x : Option Nat} {m : Nat}
    (self : ∀ n, x = some n → n ≤ m) (other : ∀ j n, held j = some n → n ≤ m) :
    ∀ {j n}, Function.update held i x j = some n → n ≤ m := by
  intro j n h
  by_cases hj : j = i
  · subst hj
    rw [Function.update_self] at h
    exact self n h
  · rw [Function.update_of_ne hj] at h
    exact other j n h

end Copies
end Resumption
