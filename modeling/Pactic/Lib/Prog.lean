import Mathlib.Logic.Basic

/-! # Programs as trees of effects

A program is the tree of the calls it makes: each call may answer or throw, and
the continuation takes either. Two programs compose in the exception monad, and
`tryCatch` hands a thrown error to its handler. Trees are finite, so a program
always ends once its calls do.

A `Monitor` watches the calls of one program through a private state: `allow`
says which calls are in order and `next` how an outcome moves the state.
`Monitor.wp` is the weakest precondition of a program under a monitor; its
equations below reduce a program to a first-order formula. -/
namespace Resumption

/-- A program over the effects `Op` with answers `Res` and errors `ε`. -/
inductive Prog (Op : Type) (Res : Op → Type) (ε α : Type) : Type where
  | ret (r : Except ε α)
  | call (o : Op) (k : Except ε (Res o) → Prog Op Res ε α)

variable {Op : Type} {Res : Op → Type} {ε α β σ : Type}

namespace Prog

def bind : Prog Op Res ε α → (α → Prog Op Res ε β) → Prog Op Res ε β
  | ret (.ok a), f => f a
  | ret (.error e), _ => ret (.error e)
  | call o k, f => call o fun r => (k r).bind f

def tryCatch : Prog Op Res ε α → (ε → Prog Op Res ε α) → Prog Op Res ε α
  | ret (.ok a), _ => ret (.ok a)
  | ret (.error e), h => h e
  | call o k, h => call o fun r => (k r).tryCatch h

instance : Monad (Prog Op Res ε) where
  pure a := ret (.ok a)
  bind := bind

instance : MonadExceptOf ε (Prog Op Res ε) where
  throw e := ret (.error e)
  tryCatch := tryCatch

/-- One call, its outcome passed on. -/
def perform (o : Op) : Prog Op Res ε (Res o) := call o ret

/-- The program has returned or thrown. -/
def finished : Prog Op Res ε α → Bool
  | ret _ => true
  | call _ _ => false

/-- Every call the program can make satisfies `P`. -/
def Only (P : Op → Prop) : Prog Op Res ε α → Prop
  | ret _ => True
  | call o k => P o ∧ ∀ r, (k r).Only P

namespace Only
variable {P Q : Op → Prop}

theorem mono {p : Prog Op Res ε α} (h : p.Only P) (hP : ∀ o, P o → Q o) : p.Only Q := by
  induction p with
  | ret r => trivial
  | call o k ih => exact ⟨hP o h.1, fun r => ih r (h.2 r)⟩

theorem and {p : Prog Op Res ε α} (h : p.Only P) (h' : p.Only Q) : p.Only fun o => P o ∧ Q o := by
  induction p with
  | ret r => trivial
  | call o k ih => exact ⟨⟨h.1, h'.1⟩, fun r => ih r (h.2 r) (h'.2 r)⟩

theorem perform {o : Op} (h : P o) : (perform o : Prog Op Res ε (Res o)).Only P :=
  ⟨h, fun _ => trivial⟩

theorem bind {p : Prog Op Res ε α} {f : α → Prog Op Res ε β} (hp : p.Only P)
    (hf : ∀ a, (f a).Only P) : (p >>= f).Only P := by
  change (p.bind f).Only P
  induction p with
  | ret r => cases r with
    | ok a => exact hf a
    | error e => trivial
  | call o k ih => exact ⟨hp.1, fun r => ih r (hp.2 r)⟩

theorem tryCatch {p : Prog Op Res ε α} {h : ε → Prog Op Res ε α} (hp : p.Only P)
    (hh : ∀ e, (h e).Only P) : (tryCatch p h).Only P := by
  induction p with
  | ret r => cases r with
    | ok a => trivial
    | error e => exact hh e
  | call o k ih => exact ⟨hp.1, fun r => ih r (hp.2 r)⟩

/-- What comes first in a program makes no other calls than the program. -/
theorem of_bind {p : Prog Op Res ε α} {f : α → Prog Op Res ε β} (h : (p >>= f).Only P) : p.Only P := by
  change (p.bind f).Only P at h
  induction p with
  | ret r => trivial
  | call o k ih => exact ⟨h.1, fun r => ih r (h.2 r)⟩

theorem of_tryCatch {p : Prog Op Res ε α} {h : ε → Prog Op Res ε α}
    (hp : (MonadExceptOf.tryCatch p h).Only P) : p.Only P := by
  change (p.tryCatch h).Only P at hp
  induction p with
  | ret r => trivial
  | call o k ih => exact ⟨hp.1, fun r => ih r (hp.2 r)⟩

end Only
end Prog

/-- What a program may call and how its private state follows the outcomes. -/
structure Monitor (Op : Type) (Res : Op → Type) (ε σ : Type) where
  allow : σ → Op → Prop
  next : σ → (o : Op) → Except ε (Res o) → σ

namespace Monitor
variable (M : Monitor Op Res ε σ)

/-- Every call is allowed, whatever the calls before it answered, and the end
satisfies `Q`. -/
def wp : Prog Op Res ε α → (Except ε α → σ → Prop) → σ → Prop
  | .ret r, Q, s => Q r s
  | .call o k, Q, s => M.allow s o ∧ ∀ r, wp (k r) Q (M.next s o r)

theorem wp_mono {p : Prog Op Res ε α} {Q R : Except ε α → σ → Prop} {s : σ}
    (h : M.wp p Q s) (hQ : ∀ r t, Q r t → R r t) : M.wp p R s := by
  induction p generalizing s with
  | ret r => exact hQ r s h
  | call o k ih => exact ⟨h.1, fun r => ih r (h.2 r)⟩

@[simp] theorem wp_pure (a : α) (Q : Except ε α → σ → Prop) (s : σ) :
    M.wp (pure a : Prog Op Res ε α) Q s ↔ Q (.ok a) s := Iff.rfl

@[simp] theorem wp_throw (e : ε) (Q : Except ε α → σ → Prop) (s : σ) :
    M.wp (throw e : Prog Op Res ε α) Q s ↔ Q (.error e) s := Iff.rfl

@[simp] theorem wp_perform (o : Op) (Q : Except ε (Res o) → σ → Prop) (s : σ) :
    M.wp (Prog.perform o) Q s ↔ M.allow s o ∧ ∀ r, Q r (M.next s o r) := Iff.rfl

@[simp] theorem wp_bind (p : Prog Op Res ε α) (f : α → Prog Op Res ε β)
    (Q : Except ε β → σ → Prop) (s : σ) :
    M.wp (p >>= f) Q s ↔ M.wp p (fun r t => match r with
      | .ok a => M.wp (f a) Q t
      | .error e => Q (.error e) t) s := by
  change M.wp (p.bind f) Q s ↔ _
  induction p generalizing s with
  | ret r => cases r <;> rfl
  | call o k ih => exact and_congr Iff.rfl (forall_congr' fun r => ih r _)

/-- A call and what follows it. -/
theorem wp_perform_bind (o : Op) (f : Res o → Prog Op Res ε β) (Q : Except ε β → σ → Prop) (s : σ) :
    M.wp (Prog.perform o >>= f) Q s ↔ M.allow s o ∧ (∀ a, M.wp (f a) Q (M.next s o (.ok a))) ∧
      ∀ e, Q (.error e) (M.next s o (.error e)) := by
  rw [wp_bind, wp_perform]
  refine and_congr_right fun _ => ⟨fun h => ⟨fun a => h (.ok a), fun e => h (.error e)⟩, fun h r => ?_⟩
  cases r with
  | ok a => exact h.1 a
  | error e => exact h.2 e

@[simp] theorem wp_tryCatch (p : Prog Op Res ε α) (h : ε → Prog Op Res ε α)
    (Q : Except ε α → σ → Prop) (s : σ) :
    M.wp (tryCatch p h) Q s ↔ M.wp p (fun r t => match r with
      | .ok a => Q (.ok a) t
      | .error e => M.wp (h e) Q t) s := by
  change M.wp (p.tryCatch h) Q s ↔ _
  induction p generalizing s with
  | ret r => cases r <;> rfl
  | call o k ih => exact and_congr Iff.rfl (forall_congr' fun r => ih r _)

@[simp] theorem wp_ite (c : Prop) [Decidable c] (p q : Prog Op Res ε α)
    (Q : Except ε α → σ → Prop) (s : σ) :
    M.wp (if c then p else q) Q s ↔ if c then M.wp p Q s else M.wp q Q s := by
  split <;> rfl

/-- A program in order makes allowed calls only. -/
theorem only_of_wp {P : Op → Prop} (hP : ∀ s o, M.allow s o → P o) {p : Prog Op Res ε α}
    {Q : Except ε α → σ → Prop} {s : σ} (h : M.wp p Q s) : p.Only P := by
  induction p generalizing s with
  | ret r => trivial
  | call o k ih => exact ⟨hP s o h.1, fun r => ih r (h.2 r)⟩

/-- A program under a monitor that forbids nothing. -/
theorem wp_of_allow (hM : ∀ s o, M.allow s o) (p : Prog Op Res ε α) (s : σ) :
    M.wp p (fun _ _ => True) s := by
  induction p generalizing s with
  | ret r => trivial
  | call o k ih => exact ⟨hM s o, fun r => ih r _⟩

/-- A monitor that allows more. -/
theorem wp_of_allows {M N : Monitor Op Res ε σ} {p : Prog Op Res ε α}
    {Q : Except ε α → σ → Prop} {s : σ} (h : M.wp p Q s) (hn : M.next = N.next)
    (ha : ∀ s o, M.allow s o → N.allow s o) : N.wp p Q s := by
  induction p generalizing s with
  | ret r => exact h
  | call o k ih => exact ⟨ha s o h.1, fun r => ih r (hn ▸ h.2 r)⟩

/-- Calls that are allowed where `I` holds and keep it. -/
theorem wp_of_keeps {P : Op → Prop} {I : σ → Prop}
    (hP : ∀ s o, I s → P o → M.allow s o ∧ ∀ r, I (M.next s o r)) {p : Prog Op Res ε α}
    (h : p.Only P) {s : σ} (hs : I s) : M.wp p (fun _ t => I t) s := by
  induction p generalizing s with
  | ret r => exact hs
  | call o k ih => exact ⟨(hP s o hs h.1).1, fun r => ih r (h.2 r) ((hP s o hs h.1).2 r)⟩

/-- Calls that are allowed in `s` and do not move it. -/
theorem wp_of_only {P : Op → Prop} {s : σ} (hP : ∀ o, P o → M.allow s o ∧ ∀ r, M.next s o r = s)
    {p : Prog Op Res ε α} (h : p.Only P) : M.wp p (fun _ t => t = s) s :=
  M.wp_of_keeps (fun _ o hs ho => hs ▸ hP o ho) h rfl

/-- The program is in order wherever `I` holds, and `I` holds at its end. -/
def Maintains (I : σ → Prop) (p : Prog Op Res ε α) : Prop :=
  ∀ s, I s → M.wp p (fun _ t => I t) s

namespace Maintains
variable {M} {I : σ → Prop}

theorem ret (r : Except ε α) : M.Maintains I (.ret r : Prog Op Res ε α) := fun _ hs => hs

theorem bind {p : Prog Op Res ε α} {f : α → Prog Op Res ε β} (hp : M.Maintains I p)
    (hf : ∀ a, M.Maintains I (f a)) : M.Maintains I (p >>= f) := by
  intro s hs
  refine (M.wp_bind p f _ s).mpr (M.wp_mono (hp s hs) fun r t ht => ?_)
  cases r with
  | ok a => exact hf a t ht
  | error e => exact ht

theorem tryCatch {p : Prog Op Res ε α} {h : ε → Prog Op Res ε α} (hp : M.Maintains I p)
    (hh : ∀ e, M.Maintains I (h e)) : M.Maintains I (tryCatch p h) := by
  intro s hs
  refine (M.wp_tryCatch p h _ s).mpr (M.wp_mono (hp s hs) fun r t ht => ?_)
  cases r with
  | ok a => exact ht
  | error e => exact hh e t ht

theorem of_only {P : Op → Prop} (hP : ∀ s o, I s → P o → M.allow s o ∧ ∀ r, I (M.next s o r))
    {p : Prog Op Res ε α} (h : p.Only P) : M.Maintains I p :=
  fun _ hs => M.wp_of_keeps hP h hs

end Maintains
end Monitor

/-- A statement about every outcome, by its two cases. -/
theorem forall_except {P : Except ε α → Prop} :
    (∀ r, P r) ↔ (∀ a, P (.ok a)) ∧ ∀ e, P (.error e) :=
  ⟨fun h => ⟨fun a => h (.ok a), fun e => h (.error e)⟩, fun h r =>
    match r with
    | .ok a => h.1 a
    | .error e => h.2 e⟩

theorem forall_except_unit {P : Except ε Unit → Prop} :
    (∀ r, P r) ↔ P (.ok ()) ∧ ∀ e, P (.error e) :=
  forall_except.trans (and_congr ⟨fun h => h (), fun h _ => h⟩ Iff.rfl)

end Resumption
