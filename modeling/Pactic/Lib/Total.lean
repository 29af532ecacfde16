import Pactic.Lib.Machine

/-! # Programs that finish

`Finishes` is the total correctness of a program that runs with nothing else in
between: it never waits for good, and `Q` holds wherever it ends. What a call may
do to the shared state and what it may answer is a relation. In a machine, such
a program has a schedule to its end, and no other schedule leads elsewhere. -/
namespace Resumption

variable {Op : Type} {Res : Op → Type} {ε α β ρ Origin Shared Choice Env : Type}

def Finishes (does : (o : Op) → Shared → Shared → Except ε (Res o) → Prop) :
    Prog Op Res ε α → Shared → (Except ε α → Shared → Prop) → Prop
  | .ret r, sh, Q => Q r sh
  | .call o k, sh, Q => (∃ sh' r, does o sh sh' r) ∧
      ∀ sh' r, does o sh sh' r → Finishes does (k r) sh' Q

variable {does : (o : Op) → Shared → Shared → Except ε (Res o) → Prop} {sh : Shared}

@[simp] theorem finishes_pure {a : α} {Q : Except ε α → Shared → Prop} :
    Finishes does (pure a) sh Q ↔ Q (.ok a) sh := Iff.rfl

@[simp] theorem finishes_throw {e : ε} {Q : Except ε α → Shared → Prop} :
    Finishes does (throw e) sh Q ↔ Q (.error e) sh := Iff.rfl

theorem Finishes.mono {p : Prog Op Res ε α} {Q R : Except ε α → Shared → Prop}
    (h : Finishes does p sh Q) (hQ : ∀ r x, Q r x → R r x) : Finishes does p sh R := by
  induction p generalizing sh with
  | ret r => exact hQ r sh h
  | call o k ih => exact ⟨h.1, fun x r hx => ih r (h.2 x r hx)⟩

theorem finishes_bind {p : Prog Op Res ε α} {f : α → Prog Op Res ε β}
    {Q : Except ε β → Shared → Prop} :
    Finishes does (p >>= f) sh Q ↔ Finishes does p sh fun r mid => match r with
      | .ok a => Finishes does (f a) mid Q
      | .error e => Q (.error e) mid := by
  change Finishes does (p.bind f) sh Q ↔ _
  induction p generalizing sh with
  | ret r => cases r <;> rfl
  | call o k ih =>
    exact and_congr_right fun _ => forall_congr' fun x => forall_congr' fun r => forall_congr' fun _ => ih r

theorem finishes_tryCatch {p : Prog Op Res ε α} {f : ε → Prog Op Res ε α}
    {Q : Except ε α → Shared → Prop} :
    Finishes does (tryCatch p f) sh Q ↔ Finishes does p sh fun r mid => match r with
      | .ok a => Q (.ok a) mid
      | .error e => Finishes does (f e) mid Q := by
  change Finishes does (p.tryCatch f) sh Q ↔ _
  induction p generalizing sh with
  | ret r => cases r <;> rfl
  | call o k ih =>
    exact and_congr_right fun _ => forall_congr' fun x => forall_congr' fun r => forall_congr' fun _ => ih r

/-- A call with one outcome. -/
theorem finishes_perform {o : Op} {x : Shared} {v : Except ε (Res o)}
    {Q : Except ε (Res o) → Shared → Prop} (one : ∀ sh' r, does o sh sh' r ↔ sh' = x ∧ r = v)
    (h : Q v x) : Finishes does (Prog.perform o) sh Q := by
  refine ⟨⟨x, v, (one x v).mpr ⟨rfl, rfl⟩⟩, fun sh' r hr => ?_⟩
  obtain ⟨rfl, rfl⟩ := (one sh' r).mp hr
  exact h

/-- A call with one outcome, which it answers, and what follows it. -/
theorem finishes_call {o : Op} {x : Shared} {a : Res o} {f : Res o → Prog Op Res ε β}
    {Q : Except ε β → Shared → Prop} (one : ∀ sh' r, does o sh sh' r ↔ sh' = x ∧ r = .ok a)
    (h : Finishes does (f a) x Q) : Finishes does (Prog.perform o >>= f) sh Q :=
  finishes_bind.mpr (finishes_perform one h)

/-- Wherever `I` holds, the program comes to an answer, and `I` holds again. -/
def Passes (does : (o : Op) → Shared → Shared → Except ε (Res o) → Prop) (I : Shared → Prop)
    (p : Prog Op Res ε α) : Prop :=
  ∀ sh, I sh → Finishes does p sh fun r x => (∃ a, r = .ok a) ∧ I x

namespace Passes
variable {I : Shared → Prop}

theorem pure (a : α) : Passes does I (pure a : Prog Op Res ε α) := fun _ h => ⟨⟨a, rfl⟩, h⟩

theorem perform {o : Op} (answers : ∀ sh, I sh → ∃ sh' r, does o sh sh' r)
    (keeps : ∀ sh sh' r, I sh → does o sh sh' r → (∃ a, r = .ok a) ∧ I sh') :
    Passes does I (Prog.perform o : Prog Op Res ε (Res o)) :=
  fun sh h => ⟨answers sh h, fun sh' r hr => keeps sh sh' r h hr⟩

theorem bind {p : Prog Op Res ε α} {f : α → Prog Op Res ε β} (hp : Passes does I p)
    (hf : ∀ a, Passes does I (f a)) : Passes does I (p >>= f) := by
  intro sh h
  refine finishes_bind.mpr ((hp sh h).mono fun r x hx => ?_)
  obtain ⟨⟨a, rfl⟩, hI⟩ := hx
  exact hf a x hI

theorem tryCatch {p : Prog Op Res ε α} {f : ε → Prog Op Res ε α} (hp : Passes does I p) :
    Passes does I (tryCatch p f) := by
  intro sh h
  refine finishes_tryCatch.mpr ((hp sh h).mono fun r x hx => ?_)
  obtain ⟨⟨a, rfl⟩, hI⟩ := hx
  exact ⟨⟨a, rfl⟩, hI⟩

end Passes

namespace Machine
variable {m : Machine Op Res ε ρ Origin Shared Choice Env} {crash : ε} {i : Nat} {o : Origin}
  {q : Prog Op Res ε ρ} {Q : Except ε ρ → Shared → Prop} {s t : Config Op Res ε ρ Origin Shared}

variable (m does) in
/-- Only thread `i` moves, and its calls do what they may. -/
def Undisturbed (i : Nat) (s : Config Op Res ε ρ Origin Shared) (l : Label Origin Choice Env) : Prop :=
  ∃ c, l = .run i c ∧ ∀ o op k sh r, s.threads[i]? = some ⟨o, .call op k⟩ →
    m.exec c i o op s.shared = some (sh, r) → does op s.shared sh r

/-- There is a schedule to the end of a program that finishes. -/
theorem reach_end (can : ∀ op x y r, does op x y r → ∃ c, m.exec c i o op x = some (y, r))
    (h : Finishes does q s.shared Q) (hi : s.threads[i]? = some ⟨o, q⟩) :
    ∃ t r, m.Reach crash (m.Undisturbed does i) s t ∧ t.threads[i]? = some ⟨o, .ret r⟩ ∧
      Q r t.shared := by
  induction q generalizing s with
  | ret r => exact ⟨s, r, .refl, hi, h⟩
  | call op k ih =>
    obtain ⟨⟨y, r, hy⟩, rest⟩ := h
    obtain ⟨c, hc⟩ := can op _ y r hy
    have moved : m.step crash s (.run i c) = some ⟨y, s.threads.set i ⟨o, k r⟩⟩ :=
      (step_run hi).mpr ⟨y, r, hc, rfl⟩
    have allowed : m.Undisturbed does i s (.run i c) := by
      refine ⟨c, rfl, fun o' op' k' sh' r' hi' he => ?_⟩
      rw [hi] at hi'
      cases hi'
      rw [hc] at he
      cases he
      exact hy
    have here := (List.getElem?_eq_some_iff.mp hi).1
    obtain ⟨t, r', reach, last, hQ⟩ := ih r (s := ⟨y, s.threads.set i ⟨o, k r⟩⟩) (rest y r hy)
      (List.getElem?_set_self here)
    exact ⟨t, r', (Reach.refl.tail allowed moved).trans reach, last, hQ⟩

/-- What is left of a program that finishes does so, too. -/
theorem finishes_along (h : Finishes does q s.shared Q) (hi : s.threads[i]? = some ⟨o, q⟩)
    (reach : m.Reach crash (m.Undisturbed does i) s t) :
    ∃ q, t.threads[i]? = some ⟨o, q⟩ ∧ Finishes does q t.shared Q := by
  induction reach with
  | refl => exact ⟨q, hi, h⟩
  | @tail u v l _ hc hst ih =>
    obtain ⟨q, hq, hQ⟩ := ih
    obtain ⟨c, rfl, allowed⟩ := hc
    cases step_fires hst with
    | @run _ _ o' op k sh r hi' he =>
      have here := (List.getElem?_eq_some_iff.mp hi').1
      have acts := allowed _ _ _ _ _ hi' he
      rw [hq] at hi'
      cases hi'
      exact ⟨k r, List.getElem?_set_self here, hQ.2 _ _ acts⟩

/-- Every schedule that comes to the end of the program ends in `Q`. -/
theorem ends_of_finishes (h : Finishes does q s.shared Q) (hi : s.threads[i]? = some ⟨o, q⟩)
    (reach : m.Reach crash (m.Undisturbed does i) s t) {r : Except ε ρ}
    (last : t.threads[i]? = some ⟨o, .ret r⟩) : Q r t.shared := by
  obtain ⟨q, hq, hQ⟩ := finishes_along h hi reach
  rw [last] at hq
  cases hq
  exact hQ

end Machine
end Resumption
