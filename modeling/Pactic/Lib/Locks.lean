import Mathlib.Logic.Relation
import Mathlib.Data.Fintype.Card
import Mathlib.Data.Set.Finite.Basic
import Mathlib.Order.WellFounded

/-! # Locks and who waits for whom

Every thread wants one lock at most and every lock has one holder at most. A
closed walk of waiting threads is a closed walk of locks, each held by a thread
that wants the next one. So a deadlock needs a cycle in the order in which the
threads take their locks. -/
namespace Locking
open Relation

variable {α θ κ : Type} {r r' : α → α → Prop}

def Acyclic (r : α → α → Prop) : Prop := ∀ a, ¬ TransGen r a a

theorem Acyclic.mono (h : Acyclic r) (hr : ∀ a b, r' a b → r a b) : Acyclic r' :=
  fun a hc => h a (TransGen.mono hr a a hc)

/-- A walk with a new arc goes around it or through it. -/
theorem walk_insert {a b x y : α} (hr : ∀ x y, r' x y → r x y ∨ x = a ∧ y = b)
    (h : TransGen r' x y) : TransGen r x y ∨ ReflTransGen r x a ∧ ReflTransGen r b y := by
  induction h with
  | single h =>
    rcases hr _ _ h with h | ⟨rfl, rfl⟩
    · exact .inl (.single h)
    · exact .inr ⟨.refl, .refl⟩
  | tail _ h ih =>
    rcases hr _ _ h with h | ⟨rfl, rfl⟩
    · rcases ih with hw | ⟨hx, hy⟩
      · exact .inl (hw.tail h)
      · exact .inr ⟨hx, hy.tail h⟩
    · rcases ih with hw | ⟨hx, -⟩
      · exact .inr ⟨hw.to_reflTransGen, .refl⟩
      · exact .inr ⟨hx, .refl⟩

/-- A new arc closes no walk if nothing led back from its end to its start. -/
theorem Acyclic.insert {a b : α} (h : Acyclic r) (hn : ¬ ReflTransGen r b a)
    (hr : ∀ x y, r' x y → r x y ∨ x = a ∧ y = b) : Acyclic r' := by
  intro x hc
  rcases walk_insert hr hc with hw | ⟨hx, hy⟩
  · exact h x hw
  · exact hn (hy.trans hx)

/-- Among finitely many, a walk without a cycle comes to an end. -/
theorem Acyclic.exists_end (h : Acyclic r) {S : Set α} (fin : S.Finite)
    (stay : ∀ a ∈ S, ∀ b, r a b → b ∈ S) (ne : S.Nonempty) : ∃ a ∈ S, ∀ b, ¬ r a b := by
  have : Finite S := fin
  let back (x y : S) : Prop := TransGen r y x
  have : IsTrans S back := ⟨fun _ _ _ hxy hyz => hyz.trans hxy⟩
  have : Std.Irrefl back := ⟨fun x => h x⟩
  have : Nonempty S := ne.to_subtype
  obtain ⟨a, -, last⟩ :=
    (Finite.wellFounded_of_trans_of_irrefl back).has_min Set.univ Set.univ_nonempty
  refine ⟨a, a.2, fun b hb => ?_⟩
  exact last ⟨b, stay a a.2 b hb⟩ (Set.mem_univ _) (.single hb)

structure LockTable (θ κ : Type) where
  wants : θ → Option κ
  holder : κ → Option θ

namespace LockTable
variable (L : LockTable θ κ)

/-- The wait-for graph. -/
def Waits (i k : θ) : Prop := i ≠ k ∧ ∃ x, L.wants i = some x ∧ L.holder x = some k

/-- The holder of one lock wants another one that it does not hold. -/
def Leads (x y : κ) : Prop := ∃ i, L.holder x = some i ∧ L.wants i = some y ∧ L.holder y ≠ some i

variable {L}

/-- Who is waited for and waits leads from the one lock to the other. -/
theorem Waits.leads {i k l : θ} (h : L.Waits i k) (h' : L.Waits k l) :
    ∃ x y, L.wants i = some x ∧ L.wants k = some y ∧ L.Leads x y := by
  obtain ⟨-, x, hi, hx⟩ := h
  obtain ⟨hne, y, hk, hy⟩ := h'
  refine ⟨x, y, hi, hk, k, hx, hk, fun he => hne ?_⟩
  rw [hy] at he
  exact (Option.some.inj he).symm

theorem walk_leads {i k l : θ} (h : TransGen L.Waits i k) (hl : L.Waits k l) :
    ∃ x y, L.wants i = some x ∧ L.wants k = some y ∧ TransGen L.Leads x y := by
  induction h generalizing l with
  | single h =>
    obtain ⟨x, y, hi, hk, hlead⟩ := h.leads hl
    exact ⟨x, y, hi, hk, .single hlead⟩
  | tail _ h ih =>
    obtain ⟨x, y, hi, hm, hw⟩ := ih h
    obtain ⟨y', z, hm', hk, hlead⟩ := h.leads hl
    rw [hm] at hm'
    cases hm'
    exact ⟨x, z, hi, hk, hw.tail hlead⟩

theorem acyclic_waits (h : Acyclic L.Leads) : Acyclic L.Waits := by
  intro i hc
  obtain ⟨k, hk, -⟩ := TransGen.head'_iff.mp hc
  obtain ⟨x, y, hx, hy, hw⟩ := walk_leads hc hk
  rw [hx] at hy
  cases hy
  exact h x hw

end LockTable
end Locking
