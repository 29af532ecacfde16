import Pactic.Lib.Machine
import Mathlib.Algebra.BigOperators.Group.Finset.Piecewise

/-! # Machines that come to an end

The potential is what the shared state and the threads can still spend, and the
budget what was ever put in. If every step spends some of the potential, unless
it raises the budget by more, then no run takes more steps than its budget. -/
namespace Resumption.Machine

variable {Op : Type} {Res : Op → Type} {ε ρ Origin Shared Choice Env σ : Type}

section
variable (v : Shared → Nat) (w : Origin → σ → Nat)

/-- What a thread can still spend. -/
def purse : Option (Origin × σ) → Nat
  | some (o, p) => w o p
  | none => 0

def potential (s : Config Op Res ε ρ Origin Shared) (g : Ghost Origin σ) : Nat :=
  v s.shared + ∑ i ∈ Finset.range s.threads.length, purse w (g i)

/-- Every step spends: a thread from its own purse, and for a thread that starts
the shared state pays. Nothing is killed. -/
structure Spends (m : Machine Op Res ε ρ Origin Shared Choice Env)
    (mon : Origin → Monitor Op Res ε σ) (first : Origin → σ) (budget : Shared → Nat)
    (C : Config Op Res ε ρ Origin Shared → Label Origin Choice Env → Prop) : Prop where
  start : ∀ s o sh, C s (.start o) → m.accept o s.shared = some sh →
    budget s.shared + v sh + w o (first o) < budget sh + v s.shared
  run : ∀ s i o op k c sh r p, C s (.run i c) → s.threads[i]? = some ⟨o, .call op k⟩ →
    (mon o).allow p op → m.exec c i o op s.shared = some (sh, r) →
    budget s.shared + v sh + w o ((mon o).next p op r) < budget sh + v s.shared + w o p
  env : ∀ s e sh, C s (.env e) → m.env e s.shared = some sh →
    budget s.shared + v sh < budget sh + v s.shared
  kill : ∀ s i, ¬ C s (.kill i)

end

variable {m : Machine Op Res ε ρ Origin Shared Choice Env} {crash : ε}
  {mon : Origin → Monitor Op Res ε σ} {post : Origin → Except ε ρ → σ → Prop}
  {first : Origin → σ} {budget v : Shared → Nat} {w : Origin → σ → Nat}
  {C : Config Op Res ε ρ Origin Shared → Label Origin Choice Env → Prop}

/-- A thread that starts brings its purse. -/
theorem purses_start {g : Ghost Origin σ} (n : Nat) (x : Origin × σ) :
    ∑ i ∈ Finset.range (n + 1), purse w (Function.update g n (some x) i) =
      ∑ i ∈ Finset.range n, purse w (g i) + w x.1 x.2 := by
  rw [Finset.sum_range_succ, Function.update_self]
  congr 1
  refine Finset.sum_congr rfl fun i hi => ?_
  rw [Function.update_of_ne (Finset.mem_range.mp hi).ne]

/-- A thread that moves changes its own purse only. -/
theorem purses_run {g : Ghost Origin σ} {n i : Nat} (hi : i < n) {o : Origin} {p : σ}
    (hg : g i = some (o, p)) (q : σ) :
    ∑ j ∈ Finset.range n, purse w (Function.update g i (some (o, q)) j) + w o p =
      ∑ j ∈ Finset.range n, purse w (g j) + w o q := by
  have mem : i ∈ Finset.range n := Finset.mem_range.mpr hi
  have moved : (fun j => purse w (Function.update g i (some (o, q)) j)) =
      Function.update (fun j => purse w (g j)) i (w o q) := by
    funext j
    by_cases hj : j = i
    · subst hj
      simp only [Function.update_self, purse]
    · simp only [Function.update_of_ne hj]
  rw [moved, Finset.sum_update_of_mem mem, Finset.sum_eq_add_sum_sdiff_singleton_of_mem mem, hg]
  simp only [purse]
  omega

/-- One step spends a part of the potential, or raises the budget by more. -/
theorem Spends.step (hs : Spends v w m mon first budget C) {s t : Config Op Res ε ρ Origin Shared}
    {l g g'} (hc : C s l) (hf : Follows m crash mon first s g l t g') :
    budget s.shared + potential v w t g' < budget t.shared + potential v w s g := by
  cases hf with
  | start ha _ =>
    have spent := hs.start s _ _ hc ha
    simp only [potential, List.length_append, List.length_singleton, purses_start]
    omega
  | @run i c o op k sh r p hi hg allowed he =>
    have spent := hs.run s i o op k c sh r p hc hi allowed he
    have moved := purses_run (w := w) (List.getElem?_eq_some_iff.mp hi).1 hg ((mon o).next p op r)
    simp only [potential, List.length_set]
    omega
  | env he =>
    have spent := hs.env s _ _ hc he
    simp only [potential]
    omega
  | kill _ _ => exact absurd hc (hs.kill _ _)

/-- A run spends at least as much as it has steps. -/
theorem Spends.counts (hs : Spends v w m mon first budget C) (ho : Obeys m mon post first C)
    {s t : Config Op Res ε ρ Origin Shared} {g : Ghost Origin σ} {n : Nat}
    (ht : Tracks crash mon post s.threads g)
    (h : m.Counts crash (fun _ _ => 1) (fun _ => C) s t n) :
    budget s.shared + n ≤ budget t.shared + potential v w s g := by
  obtain ⟨g', -, spent⟩ := Counts.invariant (I := fun u k => ∃ g' : Ghost Origin σ,
    Tracks crash mon post u.threads g' ∧
      budget s.shared + potential v w u g' + k ≤ budget u.shared + potential v w s g)
    ⟨g, ht, by omega⟩
    (fun u u' l k hc hI hst => by
      obtain ⟨g', ht, spent⟩ := hI
      obtain ⟨g'', ht', hf⟩ := ht.step ho hc hst
      have step := hs.step hc hf
      exact ⟨g'', ht', by omega⟩) h
  omega

/-- A run from an idle start takes no more steps than its budget has grown. -/
theorem Spends.bound (hs : Spends v w m mon first budget C) (ho : Obeys m mon post first C)
    {s t : Config Op Res ε ρ Origin Shared} {n : Nat} (empty : s.threads = [])
    (h : m.Counts crash (fun _ _ => 1) (fun _ => C) s t n) :
    budget s.shared + n ≤ budget t.shared + v s.shared := by
  have spent := hs.counts ho (.of_nil empty) h
  simpa [potential, empty] using spent

end Resumption.Machine
