import Pactic.Lib.Prog

/-! # A program on its own

`Solo` runs one program to its end with nothing else in between. What a call may
do to the shared state and what it may answer is a relation, so that the same
rules serve calls that are answered and calls that may fail. -/
namespace Resumption

variable {Op : Type} {Res : Op → Type} {ε α β Shared : Type}

/-- From the first state the program may end in the second one with this result. -/
inductive Solo (does : (o : Op) → Shared → Shared → Except ε (Res o) → Prop) :
    Prog Op Res ε α → Shared → Shared → Except ε α → Prop where
  | ret {r sh} : Solo does (.ret r) sh sh r
  | call {o k sh₁ sh₂ sh₃ a r} : does o sh₁ sh₂ a → Solo does (k a) sh₂ sh₃ r →
      Solo does (.call o k) sh₁ sh₃ r

variable {does : (o : Op) → Shared → Shared → Except ε (Res o) → Prop} {sh sh' : Shared}

theorem solo_ret {r r' : Except ε α} :
    Solo does (.ret r) sh sh' r' ↔ sh' = sh ∧ r' = r := by
  constructor
  · rintro ⟨⟩
    exact ⟨rfl, rfl⟩
  · rintro ⟨rfl, rfl⟩
    exact .ret

theorem solo_call {o : Op} {k : Except ε (Res o) → Prog Op Res ε α} {r : Except ε α} :
    Solo does (.call o k) sh sh' r ↔ ∃ mid a, does o sh mid a ∧ Solo does (k a) mid sh' r := by
  constructor
  · rintro ⟨⟩
    exact ⟨_, _, ‹_›, ‹_›⟩
  · rintro ⟨mid, a, ha, hk⟩
    exact .call ha hk

@[simp] theorem solo_pure {a : α} {r : Except ε α} :
    Solo does (pure a : Prog Op Res ε α) sh sh' r ↔ sh' = sh ∧ r = .ok a := solo_ret

@[simp] theorem solo_throw {e : ε} {r : Except ε α} :
    Solo does (throw e : Prog Op Res ε α) sh sh' r ↔ sh' = sh ∧ r = .error e := solo_ret

@[simp] theorem solo_perform {o : Op} {r : Except ε (Res o)} :
    Solo does (Prog.perform o) sh sh' r ↔ does o sh sh' r := by
  rw [Prog.perform, solo_call]
  constructor
  · rintro ⟨mid, a, ha, hr⟩
    obtain ⟨rfl, rfl⟩ := solo_ret.mp hr
    exact ha
  · intro h
    exact ⟨sh', r, h, .ret⟩

/-- The first part ends, and then the rest runs or its error is passed on. -/
theorem solo_bind {p : Prog Op Res ε α} {f : α → Prog Op Res ε β} {r : Except ε β} :
    Solo does (p >>= f) sh sh' r ↔
      (∃ mid a, Solo does p sh mid (.ok a) ∧ Solo does (f a) mid sh' r) ∨
      ∃ e, Solo does p sh sh' (.error e) ∧ r = .error e := by
  change Solo does (p.bind f) sh sh' r ↔ _
  induction p generalizing sh with
  | ret x =>
    cases x with
    | ok a =>
      refine ⟨fun h => .inl ⟨sh, a, .ret, h⟩, ?_⟩
      rintro (⟨mid, b, hp, hf⟩ | ⟨e, hp, -⟩)
      · cases hp
        exact hf
      · cases hp
    | error e =>
      constructor
      · intro h
        obtain ⟨rfl, rfl⟩ := solo_ret.mp h
        exact .inr ⟨e, .ret, rfl⟩
      · rintro (⟨mid, b, hp, -⟩ | ⟨e, hp, rfl⟩)
        · cases hp
        · cases hp
          exact .ret
  | call o k ih =>
    simp only [Prog.bind, solo_call, ih]
    constructor
    · rintro ⟨mid, a, ha, ⟨mid', b, hp, hf⟩ | ⟨e, hp, rfl⟩⟩
      · exact .inl ⟨mid', b, ⟨mid, a, ha, hp⟩, hf⟩
      · exact .inr ⟨e, ⟨mid, a, ha, hp⟩, rfl⟩
    · rintro (⟨mid', b, ⟨mid, a, ha, hp⟩, hf⟩ | ⟨e, ⟨mid, a, ha, hp⟩, rfl⟩)
      · exact ⟨mid, a, ha, .inl ⟨mid', b, hp, hf⟩⟩
      · exact ⟨mid, a, ha, .inr ⟨e, hp, rfl⟩⟩

theorem solo_tryCatch {p : Prog Op Res ε α} {f : ε → Prog Op Res ε α} {r : Except ε α} :
    Solo does (tryCatch p f) sh sh' r ↔
      (∃ a, Solo does p sh sh' (.ok a) ∧ r = .ok a) ∨
      ∃ mid e, Solo does p sh mid (.error e) ∧ Solo does (f e) mid sh' r := by
  change Solo does (p.tryCatch f) sh sh' r ↔ _
  induction p generalizing sh with
  | ret x =>
    cases x with
    | ok a =>
      constructor
      · intro h
        obtain ⟨rfl, rfl⟩ := solo_ret.mp h
        exact .inl ⟨a, .ret, rfl⟩
      · rintro (⟨b, hp, rfl⟩ | ⟨mid, e, hp, -⟩)
        · cases hp
          exact .ret
        · cases hp
    | error e =>
      refine ⟨fun h => .inr ⟨sh, e, .ret, h⟩, ?_⟩
      rintro (⟨b, hp, -⟩ | ⟨mid, e', hp, hf⟩)
      · cases hp
      · cases hp
        exact hf
  | call o k ih =>
    simp only [Prog.tryCatch, solo_call, ih]
    constructor
    · rintro ⟨mid, a, ha, ⟨b, hp, rfl⟩ | ⟨mid', e, hp, hf⟩⟩
      · exact .inl ⟨b, ⟨mid, a, ha, hp⟩, rfl⟩
      · exact .inr ⟨mid', e, ⟨mid, a, ha, hp⟩, hf⟩
    · rintro (⟨b, ⟨mid, a, ha, hp⟩, rfl⟩ | ⟨mid', e, ⟨mid, a, ha, hp⟩, hf⟩)
      · exact ⟨mid, a, ha, .inl ⟨b, hp, rfl⟩⟩
      · exact ⟨mid, a, ha, .inr ⟨mid', e, hp, hf⟩⟩

/-! ## What holds at the end -/

/-- Wherever the program ends, `Q` holds of its result and the state. -/
def Ensures (does : (o : Op) → Shared → Shared → Except ε (Res o) → Prop) (p : Prog Op Res ε α)
    (sh : Shared) (Q : Except ε α → Shared → Prop) : Prop :=
  ∀ sh' r, Solo does p sh sh' r → Q r sh'

section
variable {Q R : Except ε α → Shared → Prop}

theorem Ensures.mono {p : Prog Op Res ε α} (h : Ensures does p sh Q) (hQ : ∀ r x, Q r x → R r x) :
    Ensures does p sh R := fun x r hx => hQ r x (h x r hx)

theorem ensures_pure {a : α} (h : Q (.ok a) sh) : Ensures does (pure a) sh Q := by
  intro x r hx
  obtain ⟨rfl, rfl⟩ := solo_pure.mp hx
  exact h

theorem ensures_throw {e : ε} (h : Q (.error e) sh) : Ensures does (throw e) sh Q := by
  intro x r hx
  obtain ⟨rfl, rfl⟩ := solo_throw.mp hx
  exact h

theorem ensures_perform {o : Op} {Q : Except ε (Res o) → Shared → Prop}
    (h : ∀ x r, does o sh x r → Q r x) : Ensures does (Prog.perform o) sh Q :=
  fun x r hx => h x r (solo_perform.mp hx)

theorem ensures_bind {p : Prog Op Res ε β} {f : β → Prog Op Res ε α}
    (h : Ensures does p sh fun r mid => match r with
      | .ok b => Ensures does (f b) mid Q
      | .error e => Q (.error e) mid) : Ensures does (p >>= f) sh Q := by
  intro x r hx
  rcases solo_bind.mp hx with ⟨mid, b, hp, hf⟩ | ⟨e, hp, rfl⟩
  · exact h mid _ hp x r hf
  · exact h x _ hp

theorem ensures_tryCatch {p : Prog Op Res ε α} {f : ε → Prog Op Res ε α}
    (h : Ensures does p sh fun r mid => match r with
      | .ok a => Q (.ok a) mid
      | .error e => Ensures does (f e) mid Q) : Ensures does (tryCatch p f) sh Q := by
  intro x r hx
  rcases solo_tryCatch.mp hx with ⟨a, hp, rfl⟩ | ⟨mid, e, hp, hf⟩
  · exact h x _ hp
  · exact h mid _ hp x r hf

end

end Resumption
