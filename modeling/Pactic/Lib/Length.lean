import Pactic.Lib.Potential
import Mathlib.Algebra.GroupWithZero.Nat

/-! # Programs of bounded cost

Every call has a cost. A program costs at most `n` if its calls do, whatever
they answer; costs add up along a sequence and along a handler. What is left to
pay is a potential: a run takes no more steps than that. -/
namespace Resumption

variable {Op : Type} {Res : Op → Type} {ε α β : Type}

/-- A purse that the calls are paid from. -/
def spending (w : Op → Nat) : Monitor Op Res ε Nat := ⟨fun n o => w o ≤ n, fun n o _ => n - w o⟩

namespace Prog

/-- The calls that are left cost at most `n`. -/
def Costs (w : Op → Nat) (n : Nat) (p : Prog Op Res ε α) : Prop :=
  (spending w).wp p (fun _ _ => True) n

/-- At most `n` calls are left. -/
abbrev Within (n : Nat) (p : Prog Op Res ε α) : Prop := p.Costs (fun _ => 1) n

namespace Costs
variable {w : Op → Nat} {n m : Nat}

theorem ret (n : Nat) (r : Except ε α) : (Prog.ret r : Prog Op Res ε α).Costs w n := trivial

theorem call_iff {o : Op} {k : Except ε (Res o) → Prog Op Res ε α} :
    (Prog.call o k).Costs w n ↔ w o ≤ n ∧ ∀ r, (k r).Costs w (n - w o) := Iff.rfl

theorem mono {p : Prog Op Res ε α} (h : p.Costs w n) (hle : n ≤ m) : p.Costs w m := by
  induction p generalizing n m with
  | ret r => trivial
  | call o k ih =>
    obtain ⟨paid, rest⟩ := call_iff.mp h
    exact call_iff.mpr ⟨paid.trans hle, fun r => ih r (rest r) (Nat.sub_le_sub_right hle _)⟩

theorem perform (o : Op) : (perform o : Prog Op Res ε (Res o)).Costs w (w o) :=
  ⟨le_rfl, fun _ => trivial⟩

theorem bind {p : Prog Op Res ε α} {f : α → Prog Op Res ε β} (hp : p.Costs w n)
    (hf : ∀ a, (f a).Costs w m) : (p >>= f).Costs w (n + m) := by
  change (p.bind f).Costs w (n + m)
  induction p generalizing n with
  | ret r => cases r with
    | ok a => exact (hf a).mono (by omega)
    | error e => trivial
  | call o k ih =>
    obtain ⟨paid, rest⟩ := call_iff.mp hp
    refine call_iff.mpr ⟨by omega, fun r => ?_⟩
    rw [Nat.sub_add_comm paid]
    exact ih r (rest r)

theorem tryCatch {p : Prog Op Res ε α} {h : ε → Prog Op Res ε α} (hp : p.Costs w n)
    (hh : ∀ e, (h e).Costs w m) : (tryCatch p h).Costs w (n + m) := by
  induction p generalizing n with
  | ret r => cases r with
    | ok a => trivial
    | error e => exact (hh e).mono (by omega)
  | call o k ih =>
    obtain ⟨paid, rest⟩ := call_iff.mp hp
    refine call_iff.mpr ⟨by omega, fun r => ?_⟩
    rw [Nat.sub_add_comm paid]
    exact ih r (rest r)

/-- What two kinds of costs come to together. -/
theorem add {w' : Op → Nat} {p : Prog Op Res ε α} (h : p.Costs w n) (h' : p.Costs w' m) :
    p.Costs (fun o => w o + w' o) (n + m) := by
  induction p generalizing n m with
  | ret r => trivial
  | call o k ih =>
    obtain ⟨paid, rest⟩ := call_iff.mp h
    obtain ⟨paid', rest'⟩ := call_iff.mp h'
    have both : n - w o + (m - w' o) ≤ n + m - (w o + w' o) := by omega
    exact call_iff.mpr ⟨Nat.add_le_add paid paid', fun r => (ih r (rest r) (rest' r)).mono both⟩

/-- A program all of whose calls are free. -/
theorem of_only {p : Prog Op Res ε α} (h : p.Only fun o => w o = 0) : p.Costs w n := by
  induction p with
  | ret r => trivial
  | call o k ih =>
    refine call_iff.mpr ⟨h.1.trans_le (Nat.zero_le n), fun r => ?_⟩
    rw [h.1]
    exact ih r (h.2 r)

end Costs
end Prog

namespace Machine
variable {ρ Origin Shared Choice Env : Type} {m : Machine Op Res ε ρ Origin Shared Choice Env}
  {crash : ε} {s t : Config Op Res ε ρ Origin Shared} {w : Op → Nat} {b : Origin → Nat}
  {v : Shared → Nat} {C : Config Op Res ε ρ Origin Shared → Label Origin Choice Env → Prop}

/-- What the programs cost, the threads of a run cost at most. -/
theorem Reach.costs (ho : ∀ o, (m.program o).Costs w (b o)) (hs : s.threads = [])
    (h : m.Reach crash C s t) : ∀ th ∈ t.threads, th.prog.Costs w (b th.origin) := by
  have next (o : Origin) (op : Op) (k : Except ε (Res op) → Prog Op Res ε ρ) (r : Except ε (Res op))
      (hk : (Prog.call op k).Costs w (b o)) : (k r).Costs w (b o) :=
    ((Prog.Costs.call_iff.mp hk).2 r).mono (Nat.sub_le _ _)
  refine Reach.programs (P := fun o p => p.Costs w (b o)) (fun o _ _ _ => ho o) next
    (fun _ => trivial) (fun th hth => ?_) h
  rw [hs] at hth
  cases hth

theorem sum_range_getElem? {τ : Type} (f : τ → Nat) (l : List τ) :
    ∑ i ∈ Finset.range l.length, ((l[i]?).map f).getD 0 = (l.map f).sum := by
  induction l with
  | nil => rfl
  | cons x l ih =>
    rw [List.length_cons, Finset.sum_range_succ', List.map_cons, List.sum_cons]
    simp only [List.getElem?_cons_succ, List.getElem?_cons_zero, Option.map_some,
      Option.getD_some, ih]
    omega

/-- A run takes no more steps than what is left of its threads costs, `f th` for
each at most, and what the shared state pays for those that start. -/
theorem Spends.length_le
    (hs : Spends v (fun _ n => n) m (fun _ => spending w) b (fun _ => 0) C)
    (ho : ∀ o, (m.program o).Costs w (b o)) {f : Thread Op Res ε ρ Origin → Nat}
    (h : ∀ th ∈ s.threads, th.prog.Costs w (f th)) {n : Nat}
    (hr : m.Counts crash (fun _ _ => 1) (fun _ => C) s t n) :
    n ≤ v s.shared + (s.threads.map f).sum := by
  let g : Ghost Origin Nat := fun i => (s.threads[i]?).map fun th => (th.origin, f th)
  have tracked : Tracks crash (fun _ => spending w) (fun _ _ _ => True) s.threads g := {
    out := fun i hi => by simp only [g, hi, Option.map_none]
    obeys := fun i th hi => by
      refine ⟨f th, ?_, .inl (h th (List.mem_of_getElem? hi))⟩
      simp only [g, hi, Option.map_some] }
  have purses : potential v (fun _ n => n) s g = v s.shared + (s.threads.map f).sum := by
    rw [potential, ← sum_range_getElem?]
    congr 1
    refine Finset.sum_congr rfl fun i _ => ?_
    cases hi : s.threads[i]? with
    | none => simp only [g, hi, Option.map_none, purse, Option.getD_none]
    | some th => simp only [g, hi, Option.map_some, purse, Option.getD_some]
  have spent := hs.counts (fun _ o _ _ _ => ho o) tracked hr
  omega

/-- Where runs are bounded and none is stuck before it is done, some run is. -/
theorem Counts.exists_end {Done : Config Op Res ε ρ Origin Shared → Prop} {N : Nat}
    (bound : ∀ t n, m.Counts crash (fun _ _ => 1) (fun _ => C) s t n → n ≤ N)
    (progress : ∀ t n, m.Counts crash (fun _ _ => 1) (fun _ => C) s t n →
      Done t ∨ ∃ l u, C t l ∧ m.step crash t l = some u) :
    ∃ t n, m.Counts crash (fun _ _ => 1) (fun _ => C) s t n ∧ Done t := by
  by_contra none
  have long (n : Nat) : ∃ t, m.Counts crash (fun _ _ => 1) (fun _ => C) s t n := by
    induction n with
    | zero => exact ⟨s, .refl⟩
    | succ n ih =>
      obtain ⟨t, ht⟩ := ih
      rcases progress t n ht with done | ⟨l, u, hc, hst⟩
      · exact absurd ⟨t, n, ht, done⟩ none
      · exact ⟨u, ht.tail hc hst⟩
  obtain ⟨t, ht⟩ := long (N + 1)
  have le := bound t (N + 1) ht
  omega

end Machine
end Resumption
