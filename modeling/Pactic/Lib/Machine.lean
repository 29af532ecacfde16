import Pactic.Lib.Prog
import Mathlib.Logic.Function.Basic

/-! # Threads over a shared state

A machine runs any number of programs against one shared state. A label starts
a thread, performs the next call of a thread, lets the surroundings act, or
kills a thread. Everything that is not decided by the programs is decided by
the label: the answer a call gives (`Choice`), when threads start, and in which
order they move. So a list of labels is a schedule and running it is a function.

`invariant` is the rule for safety proofs: programs that obey their monitors,
and an invariant between the shared state and the monitors' private states that
every allowed call preserves. -/
namespace Resumption

/-- How threads start, what their calls do, and what else may happen. -/
structure Machine (Op : Type) (Res : Op → Type) (ε ρ Origin Shared Choice Env : Type) where
  program : Origin → Prog Op Res ε ρ
  accept : Origin → Shared → Option Shared
  exec : Choice → Nat → Origin → (o : Op) → Shared → Option (Shared × Except ε (Res o))
  env : Env → Shared → Option Shared
  abort : Nat → Shared → Shared

structure Thread (Op : Type) (Res : Op → Type) (ε ρ Origin : Type) where
  origin : Origin
  prog : Prog Op Res ε ρ

structure Config (Op : Type) (Res : Op → Type) (ε ρ Origin Shared : Type) where
  shared : Shared
  threads : List (Thread Op Res ε ρ Origin)

namespace Config
variable {Op : Type} {Res : Op → Type} {ε ρ Origin Shared : Type}

/-- Thread `i` still has calls to make. -/
def Busy (s : Config Op Res ε ρ Origin Shared) (i : Nat) : Prop :=
  ∃ o op k, s.threads[i]? = some ⟨o, .call op k⟩

def idle (s : Config Op Res ε ρ Origin Shared) : Bool := s.threads.all (·.prog.finished)

/-- The next call of thread `i`. -/
def calling (s : Config Op Res ε ρ Origin Shared) (i : Nat) : Option Op :=
  match s.threads[i]? with
  | some ⟨_, .call op _⟩ => some op
  | _ => none

theorem calling_of_call {s : Config Op Res ε ρ Origin Shared} {i : Nat} {o : Origin} {op k}
    (h : s.threads[i]? = some ⟨o, .call op k⟩) : s.calling i = some op := by
  simp only [calling, h]

theorem calling_eq_some {s : Config Op Res ε ρ Origin Shared} {i : Nat} {op : Op} :
    s.calling i = some op ↔ ∃ o k, s.threads[i]? = some ⟨o, .call op k⟩ := by
  constructor
  · intro h
    unfold calling at h
    split at h
    · next o op' k hi => cases h; exact ⟨o, k, hi⟩
    · cases h
  · rintro ⟨o, k, hi⟩
    exact calling_of_call hi

theorem idle_iff {s : Config Op Res ε ρ Origin Shared} : s.idle = true ↔ ∀ i, ¬ s.Busy i := by
  constructor
  · rintro h i ⟨o, op, k, hi⟩
    have hf := List.all_eq_true.mp h _ (List.mem_of_getElem? hi)
    cases hf
  · intro h
    refine List.all_eq_true.mpr fun th hth => ?_
    obtain ⟨i, hi⟩ := List.mem_iff_getElem?.mp hth
    obtain ⟨o, q⟩ := th
    cases q with
    | ret r => rfl
    | call op k => exact absurd ⟨o, op, k, hi⟩ (h i)

end Config

inductive Label (Origin Choice Env : Type) where
  | start (o : Origin)
  | run (i : Nat) (c : Choice)
  | env (e : Env)
  | kill (i : Nat)

variable {Op : Type} {Res : Op → Type} {ε ρ Origin Shared Choice Env σ : Type}

namespace Machine
variable (m : Machine Op Res ε ρ Origin Shared Choice Env) (crash : ε)

/-- One step. A killed thread throws `crash` and leaves its session behind. -/
def step (s : Config Op Res ε ρ Origin Shared) :
    Label Origin Choice Env → Option (Config Op Res ε ρ Origin Shared)
  | .start o => (m.accept o s.shared).map fun sh =>
      ⟨sh, s.threads ++ [⟨o, m.program o⟩]⟩
  | .run i c => match s.threads[i]? with
      | some ⟨o, .call op k⟩ => (m.exec c i o op s.shared).map fun r =>
          ⟨r.1, s.threads.set i ⟨o, k r.2⟩⟩
      | _ => none
  | .env e => (m.env e s.shared).map fun sh => { s with shared := sh }
  | .kill i => match s.threads[i]? with
      | some ⟨o, .call _ _⟩ =>
          some ⟨m.abort i s.shared, s.threads.set i ⟨o, .ret (.error crash)⟩⟩
      | _ => none

def runs : List (Label Origin Choice Env) → Config Op Res ε ρ Origin Shared →
    Option (Config Op Res ε ρ Origin Shared)
  | [], s => some s
  | l :: ls, s => (m.step crash s l).bind (runs ls)

/-- States reached by steps that all meet `C`. -/
inductive Reach (C : Config Op Res ε ρ Origin Shared → Label Origin Choice Env → Prop)
    (s : Config Op Res ε ρ Origin Shared) : Config Op Res ε ρ Origin Shared → Prop where
  | refl : Reach C s s
  | tail {t u l} : Reach C s t → C t l → m.step crash t l = some u → Reach C s u

variable {m crash}

/-- What a step can be. -/
inductive Fires (m : Machine Op Res ε ρ Origin Shared Choice Env) (crash : ε)
    (s : Config Op Res ε ρ Origin Shared) :
    Label Origin Choice Env → Config Op Res ε ρ Origin Shared → Prop where
  | start {o sh} : m.accept o s.shared = some sh →
      Fires m crash s (.start o) ⟨sh, s.threads ++ [⟨o, m.program o⟩]⟩
  | run {i c o op k sh r} : s.threads[i]? = some ⟨o, .call op k⟩ →
      m.exec c i o op s.shared = some (sh, r) →
      Fires m crash s (.run i c) ⟨sh, s.threads.set i ⟨o, k r⟩⟩
  | env {e sh} : m.env e s.shared = some sh → Fires m crash s (.env e) ⟨sh, s.threads⟩
  | kill {i o op k} : s.threads[i]? = some ⟨o, .call op k⟩ →
      Fires m crash s (.kill i) ⟨m.abort i s.shared, s.threads.set i ⟨o, .ret (.error crash)⟩⟩

theorem step_fires {s t : Config Op Res ε ρ Origin Shared} {l}
    (h : m.step crash s l = some t) : m.Fires crash s l t := by
  cases l with
  | start o =>
    simp only [step, Option.map_eq_some_iff] at h
    obtain ⟨sh, ha, rfl⟩ := h
    exact .start ha
  | run i c =>
    simp only [step] at h
    split at h
    · next o op k hi =>
      simp only [Option.map_eq_some_iff] at h
      obtain ⟨⟨sh, r⟩, he, rfl⟩ := h
      exact .run hi he
    · cases h
  | env e =>
    simp only [step, Option.map_eq_some_iff] at h
    obtain ⟨sh, he, rfl⟩ := h
    exact .env he
  | kill i =>
    simp only [step] at h
    split at h
    · next o op k hi => cases h; exact .kill hi
    · cases h

/-- The step of a thread whose next call is known. -/
theorem step_run {s t : Config Op Res ε ρ Origin Shared} {i c o op k}
    (hi : s.threads[i]? = some ⟨o, .call op k⟩) : m.step crash s (.run i c) = some t ↔
      ∃ sh r, m.exec c i o op s.shared = some (sh, r) ∧ t = ⟨sh, s.threads.set i ⟨o, k r⟩⟩ := by
  simp only [step, hi, Option.map_eq_some_iff, Prod.exists]
  exact exists_congr fun sh => exists_congr fun r => and_congr_right fun _ => eq_comm

theorem Reach.trans {C : Config Op Res ε ρ Origin Shared → Label Origin Choice Env → Prop}
    {s t u} (h : m.Reach crash C s t) (h' : m.Reach crash C t u) : m.Reach crash C s u := by
  induction h' with
  | refl => exact h
  | tail _ hc hs ih => exact ih.tail hc hs

theorem Reach.mono {C C' : Config Op Res ε ρ Origin Shared → Label Origin Choice Env → Prop} {s t}
    (hC : ∀ u l, C u l → C' u l) (h : m.Reach crash C s t) : m.Reach crash C' s t := by
  induction h with
  | refl => exact .refl
  | tail _ hc hs ih => exact ih.tail (hC _ _ hc) hs

theorem reach_of_runs {C : Config Op Res ε ρ Origin Shared → Label Origin Choice Env → Prop}
    {ls : List (Label Origin Choice Env)} {s t} (hC : ∀ l ∈ ls, ∀ s, C s l)
    (h : m.runs crash ls s = some t) : m.Reach crash C s t := by
  induction ls generalizing s with
  | nil => cases h; exact .refl
  | cons l ls ih =>
    simp only [runs, Option.bind_eq_some_iff] at h
    obtain ⟨u, hu, ht⟩ := h
    exact (Reach.refl.tail (hC l (.head _) s) hu).trans (ih (fun k hk => hC k (.tail _ hk)) ht)

/-- Where the threads of a run come from. -/
theorem Reach.origins {C : Config Op Res ε ρ Origin Shared → Label Origin Choice Env → Prop}
    {P : Origin → Prop} (hC : ∀ u o, C u (.start o) → P o) {s t : Config Op Res ε ρ Origin Shared}
    (hs : ∀ th ∈ s.threads, P th.origin) (h : m.Reach crash C s t) : ∀ th ∈ t.threads, P th.origin := by
  have moved {ts : List (Thread Op Res ε ρ Origin)} {i : Nat} {o : Origin} {q q' : Prog Op Res ε ρ}
      (hts : ∀ th ∈ ts, P th.origin) (hi : ts[i]? = some ⟨o, q⟩) :
      ∀ th ∈ ts.set i ⟨o, q'⟩, P th.origin := by
    intro th hth
    rcases List.mem_or_eq_of_mem_set hth with hth | rfl
    · exact hts th hth
    · exact (hts ⟨o, q⟩ (List.mem_of_getElem? hi) : P o)
  induction h with
  | refl => exact hs
  | tail _ hc hst ih =>
    cases step_fires hst with
    | @start o sh ha =>
      intro th hth
      rcases List.mem_append.mp hth with hth | hth
      · exact ih th hth
      · cases List.mem_singleton.mp hth
        exact hC _ o hc
    | run hi _ => exact moved ih hi
    | env _ => exact ih
    | kill hi => exact moved ih hi

/-- A thread that was started stays one of the threads. -/
theorem Reach.started {C : Config Op Res ε ρ Origin Shared → Label Origin Choice Env → Prop}
    {s t : Config Op Res ε ρ Origin Shared} (h : m.Reach crash C s t) {o : Origin}
    (hs : ∃ th ∈ s.threads, th.origin = o) : ∃ th ∈ t.threads, th.origin = o := by
  have moved {ts : List (Thread Op Res ε ρ Origin)} {i : Nat} {o' : Origin} {q q' : Prog Op Res ε ρ}
      (hi : ts[i]? = some ⟨o', q⟩) (ht : ∃ th ∈ ts, th.origin = o) :
      ∃ th ∈ ts.set i ⟨o', q'⟩, th.origin = o := by
    obtain ⟨th, hth, rfl⟩ := ht
    obtain ⟨j, hj⟩ := List.mem_iff_getElem?.mp hth
    by_cases hij : i = j
    · subst hij
      rw [hi] at hj
      cases hj
      exact ⟨⟨o', q'⟩, List.mem_set (List.getElem?_eq_some_iff.mp hi).1 _, rfl⟩
    · exact ⟨th, List.mem_of_getElem? ((List.getElem?_set_ne hij).trans hj), rfl⟩
  induction h with
  | refl => exact hs
  | tail _ _ hst ih =>
    cases step_fires hst with
    | start _ =>
      obtain ⟨th, hth, ho⟩ := ih
      exact ⟨th, List.mem_append_left _ hth, ho⟩
    | run hi _ => exact moved hi ih
    | env _ => exact ih
    | kill hi => exact moved hi ih

/-- A thread after a step was there with its origin, or has been started by it. -/
theorem step_origin {s t : Config Op Res ε ρ Origin Shared} {l} (h : m.step crash s l = some t)
    {th : Thread Op Res ε ρ Origin} (hth : th ∈ t.threads) :
    (∃ th' ∈ s.threads, th'.origin = th.origin) ∨
      l = .start th.origin ∧ ∃ sh, m.accept th.origin s.shared = some sh := by
  have moved {i : Nat} {o : Origin} {q q' : Prog Op Res ε ρ} (hi : s.threads[i]? = some ⟨o, q⟩)
      (hth : th ∈ s.threads.set i ⟨o, q'⟩) : ∃ th' ∈ s.threads, th'.origin = th.origin := by
    rcases List.mem_or_eq_of_mem_set hth with hth | rfl
    · exact ⟨th, hth, rfl⟩
    · exact ⟨_, List.mem_of_getElem? hi, rfl⟩
  cases step_fires h with
  | @start o sh ha =>
    rcases List.mem_append.mp hth with hth | hth
    · exact .inl ⟨th, hth, rfl⟩
    · cases List.mem_singleton.mp hth
      exact .inr ⟨rfl, sh, ha⟩
  | run hi _ => exact .inl (moved hi hth)
  | env _ => exact .inl ⟨th, hth, rfl⟩
  | kill hi => exact .inl (moved hi hth)

/-- What the programs keep call by call, the threads of a run keep. -/
theorem Reach.programs {C : Config Op Res ε ρ Origin Shared → Label Origin Choice Env → Prop}
    {P : Origin → Prog Op Res ε ρ → Prop}
    (start : ∀ o sh sh', m.accept o sh = some sh' → P o (m.program o))
    (next : ∀ o op k r, P o (.call op k) → P o (k r)) (killed : ∀ o, P o (.ret (.error crash)))
    {s t : Config Op Res ε ρ Origin Shared} (hs : ∀ th ∈ s.threads, P th.origin th.prog)
    (h : m.Reach crash C s t) : ∀ th ∈ t.threads, P th.origin th.prog := by
  have moved {ts : List (Thread Op Res ε ρ Origin)} {i : Nat} {th : Thread Op Res ε ρ Origin}
      (hts : ∀ th ∈ ts, P th.origin th.prog) (hth : P th.origin th.prog) :
      ∀ th' ∈ ts.set i th, P th'.origin th'.prog := by
    intro th' hmem
    rcases List.mem_or_eq_of_mem_set hmem with hmem | rfl
    · exact hts th' hmem
    · exact hth
  induction h with
  | refl => exact hs
  | tail _ _ hst ih =>
    cases step_fires hst with
    | @start o sh ha =>
      intro th hth
      rcases List.mem_append.mp hth with hth | hth
      · exact ih th hth
      · rw [List.mem_singleton.mp hth]
        exact start o _ sh ha
    | run hi _ => exact moved ih (next _ _ _ _ (ih _ (List.mem_of_getElem? hi)))
    | env _ => exact ih
    | kill _ => exact moved ih (killed _)

/-- What all calls of a program have in common, those of its thread have. -/
theorem Reach.only {C : Config Op Res ε ρ Origin Shared → Label Origin Choice Env → Prop}
    {P : Origin → Op → Prop}
    (hP : ∀ o sh sh', m.accept o sh = some sh' → (m.program o).Only (P o))
    {s t : Config Op Res ε ρ Origin Shared} (hs : ∀ th ∈ s.threads, th.prog.Only (P th.origin))
    (h : m.Reach crash C s t) : ∀ th ∈ t.threads, th.prog.Only (P th.origin) :=
  Reach.programs (P := fun o p => p.Only (P o)) hP (fun _ _ _ r hk => hk.2 r) (fun _ => trivial) hs h

/-- Up to `n` calls of a program on its own, every call with the same choice. -/
def alone (m : Machine Op Res ε ρ Origin Shared Choice Env) (i : Nat) (c : Choice) (o : Origin) :
    Nat → Prog Op Res ε ρ → Shared → Option (Shared × Prog Op Res ε ρ)
  | 0, q, sh => some (sh, q)
  | n + 1, .call op k, sh => (m.exec c i o op sh).bind fun r => alone m i c o n (k r.2) r.1
  | _ + 1, .ret _, _ => none

/-- Moving one thread only runs its program on its own. -/
theorem runs_alone {s : Config Op Res ε ρ Origin Shared} {i : Nat} {c : Choice} {o : Origin}
    {q : Prog Op Res ε ρ} (n : Nat) (hi : s.threads[i]? = some ⟨o, q⟩) :
    m.runs crash (List.replicate n (.run i c)) s =
      (m.alone i c o n q s.shared).map fun r => ⟨r.1, s.threads.set i ⟨o, r.2⟩⟩ := by
  induction n generalizing s q with
  | zero =>
    have same : s.threads.set i ⟨o, q⟩ = s.threads := by
      obtain ⟨hlt, he⟩ := List.getElem?_eq_some_iff.mp hi
      rw [← he, List.set_getElem_self]
    simp only [List.replicate_zero, runs, alone, Option.map_some, same]
  | succ n ih =>
    cases q with
    | ret r => simp only [List.replicate_succ, runs, alone, step, hi, Option.bind_none, Option.map_none]
    | call op k =>
      simp only [List.replicate_succ, runs, alone, step, hi]
      cases he : m.exec c i o op s.shared with
      | none => rfl
      | some r =>
        have hlt := (List.getElem?_eq_some_iff.mp hi).1
        have moved : (⟨r.1, s.threads.set i ⟨o, k r.2⟩⟩ : Config Op Res ε ρ Origin Shared).threads[i]? =
            some ⟨o, k r.2⟩ := List.getElem?_set_self hlt
        simp only [Option.map_some, Option.bind_some, ih moved, List.set_set]

/-- A program that is run on its own has one outcome. -/
theorem alone_unique {i : Nat} {c : Choice} {o : Origin} {q : Prog Op Res ε ρ} {sh x y : Shared} {n k : Nat}
    {r r' : Except ε ρ} (h : m.alone i c o n q sh = some (x, .ret r))
    (h' : m.alone i c o k q sh = some (y, .ret r')) : r = r' := by
  induction n generalizing q sh k with
  | zero =>
    cases h
    cases k with
    | zero => cases h'; rfl
    | succ k => cases h'
  | succ n ih =>
    cases q with
    | ret r => cases h
    | call op f =>
      obtain ⟨z, hz, h⟩ := Option.bind_eq_some_iff.mp h
      cases k with
      | zero => cases h'
      | succ k =>
        obtain ⟨z', hz', h'⟩ := Option.bind_eq_some_iff.mp h'
        rw [hz] at hz'
        cases hz'
        exact ih h h'

/-- A run all of whose steps pass a test. -/
def runsIf (m : Machine Op Res ε ρ Origin Shared Choice Env) (crash : ε)
    (test : Config Op Res ε ρ Origin Shared → Label Origin Choice Env → Bool) :
    List (Label Origin Choice Env) → Config Op Res ε ρ Origin Shared →
      Option (Config Op Res ε ρ Origin Shared)
  | [], s => some s
  | l :: ls, s => if test s l then (m.step crash s l).bind (runsIf m crash test ls) else none

theorem reach_of_runsIf_of_mem {C : Config Op Res ε ρ Origin Shared → Label Origin Choice Env → Prop}
    {test} {ls : List (Label Origin Choice Env)} {s t}
    (hC : ∀ s, ∀ l ∈ ls, test s l = true → C s l) (h : m.runsIf crash test ls s = some t) :
    m.Reach crash C s t := by
  induction ls generalizing s with
  | nil => cases h; exact .refl
  | cons l ls ih =>
    simp only [runsIf] at h
    split at h
    · next ht =>
      obtain ⟨u, hu, h⟩ := Option.bind_eq_some_iff.mp h
      exact (Reach.refl.tail (hC s l (.head _) ht) hu).trans
        (ih (fun s k hk => hC s k (.tail _ hk)) h)
    · cases h

theorem reach_of_runsIf {C : Config Op Res ε ρ Origin Shared → Label Origin Choice Env → Prop}
    {test} (hC : ∀ s l, test s l = true → C s l) {ls : List (Label Origin Choice Env)} {s t}
    (h : m.runsIf crash test ls s = some t) : m.Reach crash C s t :=
  reach_of_runsIf_of_mem (fun s l _ => hC s l) h

/-! ## Counting -/

variable (m crash) in
/-- Runs with a count: `count` is what a step adds to it, and `C` sees what it
has come to before the step. -/
inductive Counts (count : Config Op Res ε ρ Origin Shared → Label Origin Choice Env → Nat)
    (C : Nat → Config Op Res ε ρ Origin Shared → Label Origin Choice Env → Prop)
    (s : Config Op Res ε ρ Origin Shared) : Config Op Res ε ρ Origin Shared → Nat → Prop where
  | refl : Counts count C s s 0
  | tail {t u l n} : Counts count C s t n → C n t l → m.step crash t l = some u →
      Counts count C s u (n + count t l)

/-- A relation between the state and the count that every step preserves. -/
theorem Counts.invariant {count : Config Op Res ε ρ Origin Shared → Label Origin Choice Env → Nat}
    {C : Nat → Config Op Res ε ρ Origin Shared → Label Origin Choice Env → Prop}
    {I : Config Op Res ε ρ Origin Shared → Nat → Prop} {s t : Config Op Res ε ρ Origin Shared}
    {n : Nat} (start : I s 0)
    (hs : ∀ u v l n, C n u l → I u n → m.step crash u l = some v → I v (n + count u l))
    (h : m.Counts crash count C s t n) : I t n := by
  induction h with
  | refl => exact start
  | tail _ hc hst ih => exact hs _ _ _ _ hc ih hst

/-- A run with its count, all of whose steps pass a test. -/
def runsCount (m : Machine Op Res ε ρ Origin Shared Choice Env) (crash : ε)
    (count : Config Op Res ε ρ Origin Shared → Label Origin Choice Env → Nat)
    (test : Nat → Config Op Res ε ρ Origin Shared → Label Origin Choice Env → Bool) :
    List (Label Origin Choice Env) → Config Op Res ε ρ Origin Shared → Nat →
      Option (Config Op Res ε ρ Origin Shared × Nat)
  | [], s, n => some (s, n)
  | l :: ls, s, n => if test n s l then
      (m.step crash s l).bind fun t => runsCount m crash count test ls t (n + count s l)
    else none

theorem counts_of_runsCount
    {count : Config Op Res ε ρ Origin Shared → Label Origin Choice Env → Nat}
    {C : Nat → Config Op Res ε ρ Origin Shared → Label Origin Choice Env → Prop} {test}
    {ls : List (Label Origin Choice Env)} (hC : ∀ n s, ∀ l ∈ ls, test n s l = true → C n s l)
    {s t u : Config Op Res ε ρ Origin Shared} {n k : Nat} (h : m.Counts crash count C s t n)
    (hr : m.runsCount crash count test ls t n = some (u, k)) : m.Counts crash count C s u k := by
  induction ls generalizing t n with
  | nil => cases hr; exact h
  | cons l ls ih =>
    simp only [runsCount] at hr
    split at hr
    · next ht =>
      obtain ⟨v, hv, hr⟩ := Option.bind_eq_some_iff.mp hr
      exact ih (fun n s k hk => hC n s k (.tail _ hk)) (h.tail (hC n t l (.head _) ht) hv) hr
    · cases hr

/-- A run by a list of steps counts its steps. -/
theorem counts_of_runs {C : Config Op Res ε ρ Origin Shared → Label Origin Choice Env → Prop}
    {ls : List (Label Origin Choice Env)} (hC : ∀ l ∈ ls, ∀ s, C s l)
    {s t u : Config Op Res ε ρ Origin Shared} {n : Nat}
    (h : m.Counts crash (fun _ _ => 1) (fun _ => C) s t n) (hr : m.runs crash ls t = some u) :
    m.Counts crash (fun _ _ => 1) (fun _ => C) s u (n + ls.length) := by
  induction ls generalizing t n with
  | nil => cases hr; exact h
  | cons l ls ih =>
    obtain ⟨v, hv, hr⟩ := Option.bind_eq_some_iff.mp hr
    have rest := ih (fun k hk => hC k (.tail _ hk)) (h.tail (hC l (.head _) t) hv) hr
    rwa [Nat.add_assoc, Nat.add_comm 1] at rest

theorem Counts.mono {count : Config Op Res ε ρ Origin Shared → Label Origin Choice Env → Nat}
    {C C' : Config Op Res ε ρ Origin Shared → Label Origin Choice Env → Prop}
    (hC : ∀ u l, C u l → C' u l) {s t : Config Op Res ε ρ Origin Shared} {n : Nat}
    (h : m.Counts crash count (fun _ => C) s t n) : m.Counts crash count (fun _ => C') s t n := by
  induction h with
  | refl => exact .refl
  | tail _ hc hst ih => exact ih.tail (hC _ _ hc) hst

/-- The steps of a run that is counted. -/
theorem Counts.reach {count : Config Op Res ε ρ Origin Shared → Label Origin Choice Env → Nat}
    {C : Config Op Res ε ρ Origin Shared → Label Origin Choice Env → Prop}
    {s t : Config Op Res ε ρ Origin Shared} {n : Nat}
    (h : m.Counts crash count (fun _ => C) s t n) : m.Reach crash C s t := by
  induction h with
  | refl => exact .refl
  | tail _ hc hst ih => exact ih.tail hc hst

/-! ## Keeping a log -/

section
variable {κ : Type}

variable (m crash) in
/-- Runs with a log kept beside them: `note` enters a step with the states before
and after it, and `C` sees what is in the log before the step. -/
inductive Logs (note : κ → Config Op Res ε ρ Origin Shared → Label Origin Choice Env →
      Config Op Res ε ρ Origin Shared → κ)
    (C : κ → Config Op Res ε ρ Origin Shared → Label Origin Choice Env → Prop)
    (s : Config Op Res ε ρ Origin Shared) (k : κ) : Config Op Res ε ρ Origin Shared → κ → Prop where
  | refl : Logs note C s k s k
  | tail {t u l n} : Logs note C s k t n → C n t l → m.step crash t l = some u →
      Logs note C s k u (note n t l u)

variable {note : κ → Config Op Res ε ρ Origin Shared → Label Origin Choice Env →
    Config Op Res ε ρ Origin Shared → κ}
  {C : κ → Config Op Res ε ρ Origin Shared → Label Origin Choice Env → Prop}
  {C' : Config Op Res ε ρ Origin Shared → Label Origin Choice Env → Prop}
  {s t : Config Op Res ε ρ Origin Shared} {k n : κ}

/-- The steps of a run with a log. -/
theorem Logs.reach (hC : ∀ n u l, C n u l → C' u l) (h : m.Logs crash note C s k t n) :
    m.Reach crash C' s t := by
  induction h with
  | refl => exact .refl
  | tail _ hc hst ih => exact ih.tail (hC _ _ _ hc) hst

/-- What holds in every state of a run can be used at every step of it. -/
theorem Logs.knowing {P : Config Op Res ε ρ Origin Shared → Prop} (hC : ∀ n u l, C n u l → C' u l)
    (hP : ∀ u, m.Reach crash C' s u → P u) (h : m.Logs crash note C s k t n) :
    m.Logs crash note (fun n u l => C n u l ∧ P u) s k t n := by
  induction h with
  | refl => exact .refl
  | tail hr hc hst ih => exact ih.tail ⟨hc, hP _ (hr.reach hC)⟩ hst

/-- A run with its log, all of whose steps pass a test. -/
def runsLog (m : Machine Op Res ε ρ Origin Shared Choice Env) (crash : ε)
    (note : κ → Config Op Res ε ρ Origin Shared → Label Origin Choice Env →
      Config Op Res ε ρ Origin Shared → κ)
    (test : κ → Config Op Res ε ρ Origin Shared → Label Origin Choice Env → Bool) :
    List (Label Origin Choice Env) → Config Op Res ε ρ Origin Shared → κ →
      Option (Config Op Res ε ρ Origin Shared × κ)
  | [], s, k => some (s, k)
  | l :: ls, s, k => if test k s l then
      (m.step crash s l).bind fun t => runsLog m crash note test ls t (note k s l t)
    else none

theorem logs_of_runsLog {test} {ls : List (Label Origin Choice Env)}
    {u : Config Op Res ε ρ Origin Shared} {k' : κ}
    (hC : ∀ n s, ∀ l ∈ ls, test n s l = true → C n s l) (h : m.Logs crash note C s k t n)
    (hr : m.runsLog crash note test ls t n = some (u, k')) : m.Logs crash note C s k u k' := by
  induction ls generalizing t n with
  | nil => cases hr; exact h
  | cons l ls ih =>
    simp only [runsLog] at hr
    split at hr
    · next ht =>
      obtain ⟨v, hv, hr⟩ := Option.bind_eq_some_iff.mp hr
      exact ih (fun n s k hk => hC n s k (.tail _ hk)) (h.tail (hC n t l (.head _) ht) hv) hr
    · cases hr

end

/-- A thread that is not moved or killed is still at its call. -/
theorem step_calling {s t : Config Op Res ε ρ Origin Shared} {l} (h : m.step crash s l = some t)
    {j : Nat} {op : Op} (hj : s.calling j = some op) (hr : ∀ c, l ≠ .run j c) (hk : l ≠ .kill j) :
    t.calling j = some op := by
  obtain ⟨o, k, hj⟩ := Config.calling_eq_some.mp hj
  refine Config.calling_eq_some.mpr ⟨o, k, ?_⟩
  cases step_fires h with
  | start ha => exact (List.getElem?_append_left (List.getElem?_eq_some_iff.mp hj).1).trans hj
  | @run i c _ _ _ _ _ hi he =>
    have hij : i ≠ j := fun hij => hr c (hij ▸ rfl)
    exact (List.getElem?_set_ne hij).trans hj
  | env he => exact hj
  | @kill i _ _ _ hi =>
    have hij : i ≠ j := fun hij => hk (hij ▸ rfl)
    exact (List.getElem?_set_ne hij).trans hj

/-! ## One thread at a time -/

/-- A thread that has calls to make after a step had some before it, or started. -/
theorem step_busy {s t : Config Op Res ε ρ Origin Shared} {l} (h : m.step crash s l = some t)
    {i : Nat} (hi : t.Busy i) : s.Busy i ∨ i = s.threads.length ∧ ∃ o, l = .start o := by
  obtain ⟨o', op', k', hi⟩ := hi
  have moved {j : Nat} {o op k q} (hj : s.threads[j]? = some ⟨o, .call op k⟩)
      (hi : (s.threads.set j ⟨o, q⟩)[i]? = some ⟨o', .call op' k'⟩) : s.Busy i := by
    by_cases hij : j = i
    · subst hij
      exact ⟨o, op, k, hj⟩
    · rw [List.getElem?_set_ne hij] at hi
      exact ⟨o', op', k', hi⟩
  cases step_fires h with
  | @start o sh ha =>
    by_cases hlt : i < s.threads.length
    · rw [List.getElem?_append_left hlt] at hi
      exact .inl ⟨o', op', k', hi⟩
    · have hlen := (List.getElem?_eq_some_iff.mp hi).1
      rw [List.length_append, List.length_singleton] at hlen
      exact .inr ⟨by omega, o, rfl⟩
  | run hj he => exact .inl (moved hj hi)
  | env he => exact .inl ⟨o', op', k', hi⟩
  | kill hj => exact .inl (moved hj hi)

/-- Where threads only start while nothing else is in progress, at most one is. -/
theorem Reach.alone {C : Config Op Res ε ρ Origin Shared → Label Origin Choice Env → Prop}
    (hC : ∀ u o i, C u (.start o) → ¬ u.Busy i) {s t : Config Op Res ε ρ Origin Shared}
    (hs : ∀ i, ¬ s.Busy i) (h : m.Reach crash C s t) {i j : Nat} (hi : t.Busy i) (hj : t.Busy j) :
    i = j := by
  induction h with
  | refl => exact absurd hi (hs i)
  | tail _ hc hst ih =>
    rcases step_busy hst hi with hi | ⟨rfl, o, rfl⟩
    · rcases step_busy hst hj with hj | ⟨-, o, rfl⟩
      · exact ih hi hj
      · exact absurd hi (hC _ o i hc)
    · rcases step_busy hst hj with hj | ⟨rfl, -⟩
      · exact absurd hj (hC _ o j hc)
      · rfl

/-! ## The rule for invariants -/

/-- The monitors' states of the threads: who they are and where they stand. -/
abbrev Ghost (Origin σ : Type) := Nat → Option (Origin × σ)

/-- Every thread the ghost knows is there. -/
def Known (g : Ghost Origin σ) (ts : List (Thread Op Res ε ρ Origin)) : Prop :=
  ∀ {i o p}, g i = some (o, p) → ∃ q, ts[i]? = some ⟨o, q⟩

variable (crash) in
/-- The ghost follows the threads: same threads, same origins, and what is left
of every program obeys its monitor from the state recorded. A killed thread has
nothing left to obey. -/
structure Tracks (mon : Origin → Monitor Op Res ε σ) (post : Origin → Except ε ρ → σ → Prop)
    (ts : List (Thread Op Res ε ρ Origin)) (g : Ghost Origin σ) : Prop where
  out : ∀ i, ts[i]? = none → g i = none
  obeys : ∀ i th, ts[i]? = some th → ∃ p, g i = some (th.origin, p) ∧
    ((mon th.origin).wp th.prog (post th.origin) p ∨ th.prog = .ret (.error crash))

/-- Every started program obeys its monitor. -/
def Obeys (m : Machine Op Res ε ρ Origin Shared Choice Env) (mon : Origin → Monitor Op Res ε σ)
    (post : Origin → Except ε ρ → σ → Prop) (first : Origin → σ)
    (C : Config Op Res ε ρ Origin Shared → Label Origin Choice Env → Prop) : Prop :=
  ∀ s o sh, C s (.start o) → m.accept o s.shared = some sh →
    (mon o).wp (m.program o) (post o) (first o)

/-- Where `K` is known to hold, `I` survives a start, an allowed call, the
surroundings and a killed thread. -/
structure Stable (m : Machine Op Res ε ρ Origin Shared Choice Env)
    (mon : Origin → Monitor Op Res ε σ) (first : Origin → σ)
    (C : Config Op Res ε ρ Origin Shared → Label Origin Choice Env → Prop)
    (K I : Shared → Ghost Origin σ → Prop) : Prop where
  start : ∀ s o sh g i, C s (.start o) → Known g s.threads → K s.shared g → I s.shared g →
    g i = none → m.accept o s.shared = some sh → I sh (Function.update g i (some (o, first o)))
  run : ∀ s i o op k c sh r g p, C s (.run i c) → s.threads[i]? = some ⟨o, .call op k⟩ →
    K s.shared g → I s.shared g → g i = some (o, p) → (mon o).allow p op →
    m.exec c i o op s.shared = some (sh, r) →
    I sh (Function.update g i (some (o, (mon o).next p op r)))
  env : ∀ s e sh g, C s (.env e) → K s.shared g → I s.shared g → m.env e s.shared = some sh → I sh g
  kill : ∀ s i g, C s (.kill i) → K s.shared g → I s.shared g → I (m.abort i s.shared) g

variable {mon : Origin → Monitor Op Res ε σ} {post : Origin → Except ε ρ → σ → Prop}
  {first : Origin → σ} {C : Config Op Res ε ρ Origin Shared → Label Origin Choice Env → Prop}
  {I J K : Shared → Ghost Origin σ → Prop}

/-- Two invariants, the second of which needs the first. -/
theorem Stable.and (hI : Stable m mon first C K I)
    (hJ : Stable m mon first C (fun sh g => K sh g ∧ I sh g) J) :
    Stable m mon first C K (fun sh g => I sh g ∧ J sh g) where
  start s o sh g i hc ht hk h hg ha :=
    ⟨hI.start s o sh g i hc ht hk h.1 hg ha, hJ.start s o sh g i hc ht ⟨hk, h.1⟩ h.2 hg ha⟩
  run s i o op k c sh r g p hc hi hk h hg ha he :=
    ⟨hI.run s i o op k c sh r g p hc hi hk h.1 hg ha he,
      hJ.run s i o op k c sh r g p hc hi ⟨hk, h.1⟩ h.2 hg ha he⟩
  env s e sh g hc hk h he := ⟨hI.env s e sh g hc hk h.1 he, hJ.env s e sh g hc ⟨hk, h.1⟩ h.2 he⟩
  kill s i g hc hk h := ⟨hI.kill s i g hc hk h.1, hJ.kill s i g hc ⟨hk, h.1⟩ h.2⟩

theorem Tracks.set {ts : List (Thread Op Res ε ρ Origin)} {g : Ghost Origin σ} {i : Nat} {o : Origin} {p : σ}
    {q q' : Prog Op Res ε ρ} (h : Tracks crash mon post ts g)
    (hi : ts[i]? = some ⟨o, q⟩)
    (hq : (mon o).wp q' (post o) p ∨ q' = .ret (.error crash)) :
    Tracks crash mon post (ts.set i ⟨o, q'⟩) (Function.update g i (some (o, p))) := by
  have hlt := (List.getElem?_eq_some_iff.mp hi).1
  constructor
  · intro j hj
    by_cases hij : i = j
    · subst hij; simp [hlt] at hj
    · rw [Function.update_of_ne (Ne.symm hij)]
      exact h.out j (by rwa [List.getElem?_set_ne hij] at hj)
  · intro j th hj
    by_cases hij : i = j
    · subst hij
      simp only [List.getElem?_set_self hlt, Option.some.injEq] at hj
      subst hj
      exact ⟨p, by simp, hq⟩
    · rw [List.getElem?_set_ne hij] at hj
      rw [Function.update_of_ne (Ne.symm hij)]
      exact h.obeys j th hj

theorem Tracks.append {ts : List (Thread Op Res ε ρ Origin)} {g : Ghost Origin σ} {o : Origin} {p : σ}
    {q : Prog Op Res ε ρ} (h : Tracks crash mon post ts g)
    (hq : (mon o).wp q (post o) p) :
    Tracks crash mon post (ts ++ [⟨o, q⟩])
      (Function.update g ts.length (some (o, p))) := by
  constructor
  · intro j hj
    have hlen : ts.length < j := by simp at hj; omega
    rw [Function.update_of_ne (by omega)]
    exact h.out j (by simp; omega)
  · intro j th hj
    by_cases hij : j = ts.length
    · subst hij
      simp only [List.getElem?_concat_length, Option.some.injEq] at hj
      subst hj
      exact ⟨p, by simp, .inl hq⟩
    · rw [Function.update_of_ne hij]
      have hlt : j < ts.length := by
        have := (List.getElem?_eq_some_iff.mp hj).1
        simp at this; omega
      exact h.obeys j th (by rwa [List.getElem?_append_left hlt] at hj)

/-- A machine that has started nothing is tracked by the empty ghost. -/
theorem Tracks.of_nil {ts : List (Thread Op Res ε ρ Origin)} (h : ts = []) :
    Tracks crash mon post ts (fun _ => none) :=
  ⟨fun _ _ => rfl, fun i th hi => by rw [h] at hi; cases hi⟩

theorem Tracks.known {ts : List (Thread Op Res ε ρ Origin)} {g : Ghost Origin σ}
    (h : Tracks crash mon post ts g) : Known g ts := by
  intro i o p hg
  cases hi : ts[i]? with
  | none => rw [h.out i hi] at hg; cases hg
  | some th =>
    obtain ⟨q, hq, -⟩ := h.obeys i th hi
    rw [hq] at hg; cases hg
    exact ⟨th.prog, rfl⟩

/-- A thread about to make a call is allowed to, and obeys its monitor after it. -/
theorem Tracks.called {ts : List (Thread Op Res ε ρ Origin)} {g : Ghost Origin σ} {i o op k}
    (h : Tracks crash mon post ts g) (hi : ts[i]? = some ⟨o, .call op k⟩) :
    ∃ p, g i = some (o, p) ∧ (mon o).allow p op ∧
      ∀ r, (mon o).wp (k r) (post o) ((mon o).next p op r) := by
  obtain ⟨p, hg, hw | hw⟩ := h.obeys i _ hi
  · exact ⟨p, hg, hw.1, hw.2⟩
  · cases hw

variable (m crash mon first) in
/-- One step, with the monitors' states before and after it. -/
inductive Follows (s : Config Op Res ε ρ Origin Shared) (g : Ghost Origin σ) :
    Label Origin Choice Env → Config Op Res ε ρ Origin Shared → Ghost Origin σ → Prop where
  | start {o sh} : m.accept o s.shared = some sh → g s.threads.length = none →
      Follows s g (.start o) ⟨sh, s.threads ++ [⟨o, m.program o⟩]⟩
        (Function.update g s.threads.length (some (o, first o)))
  | run {i c o op k sh r p} : s.threads[i]? = some ⟨o, .call op k⟩ → g i = some (o, p) →
      (mon o).allow p op → m.exec c i o op s.shared = some (sh, r) →
      Follows s g (.run i c) ⟨sh, s.threads.set i ⟨o, k r⟩⟩
        (Function.update g i (some (o, (mon o).next p op r)))
  | env {e sh} : m.env e s.shared = some sh → Follows s g (.env e) ⟨sh, s.threads⟩ g
  | kill {i o op k p} : s.threads[i]? = some ⟨o, .call op k⟩ → g i = some (o, p) →
      Follows s g (.kill i) ⟨m.abort i s.shared, s.threads.set i ⟨o, .ret (.error crash)⟩⟩ g

theorem Follows.step {s t : Config Op Res ε ρ Origin Shared} {l g g'}
    (h : Follows m crash mon first s g l t g') : m.step crash s l = some t := by
  cases h with
  | start ha _ => simp only [Machine.step, ha, Option.map_some]
  | run hi _ _ he => simp only [Machine.step, hi, he, Option.map_some]
  | env he => simp only [Machine.step, he, Option.map_some]
  | kill hi _ => simp only [Machine.step, hi]

/-- The monitors follow every step. -/
theorem Tracks.step {s t : Config Op Res ε ρ Origin Shared} {l g}
    (ht : Tracks crash mon post s.threads g) (ho : Obeys m mon post first C) (hc : C s l)
    (h : m.step crash s l = some t) :
    ∃ g', Tracks crash mon post t.threads g' ∧ Follows m crash mon first s g l t g' := by
  cases step_fires h with
  | start ha => exact ⟨_, ht.append (ho s _ _ hc ha), .start ha (ht.out _ (by simp))⟩
  | run hi he =>
    obtain ⟨p, hg, allowed, rest⟩ := ht.called hi
    exact ⟨_, ht.set hi (.inl (rest _)), .run hi hg allowed he⟩
  | env he => exact ⟨g, ht, .env he⟩
  | @kill i o op k hi =>
    obtain ⟨p, hg, -⟩ := ht.obeys i _ hi
    have hu : Function.update g i (some (o, p)) = g := by
      rw [← hg]; exact Function.update_eq_self i g
    exact ⟨g, hu ▸ ht.set hi (.inr rfl), .kill hi hg⟩

/-- One step of a machine whose programs obey their monitors. -/
theorem Stable.step (hs : Stable m mon first C (fun _ _ => True) I)
    (ho : Obeys m mon post first C) {s t l g}
    (ht : Tracks crash mon post s.threads g) (hI : I s.shared g) (hc : C s l)
    (h : m.step crash s l = some t) :
    ∃ g', Tracks crash mon post t.threads g' ∧ I t.shared g' := by
  obtain ⟨g', ht', hf⟩ := ht.step ho hc h
  refine ⟨g', ht', ?_⟩
  cases hf with
  | start ha hg => exact hs.start s _ _ g _ hc ht.known trivial hI hg ha
  | run hi hg allowed he => exact hs.run s _ _ _ _ _ _ _ g _ hc hi trivial hI hg allowed he
  | env he => exact hs.env s _ _ g hc trivial hI he
  | kill _ _ => exact hs.kill s _ g hc trivial hI

/-- An invariant of the shared state and the monitors holds in every state
reached by steps that meet `C`. -/
theorem Stable.invariant (hs : Stable m mon first C (fun _ _ => True) I)
    (ho : Obeys m mon post first C) {s t : Config Op Res ε ρ Origin Shared} {g}
    (ht : Tracks crash mon post s.threads g) (hI : I s.shared g)
    (h : m.Reach crash C s t) :
    ∃ g', Tracks crash mon post t.threads g' ∧ I t.shared g' := by
  induction h with
  | refl => exact ⟨g, ht, hI⟩
  | tail _ hc hst ih =>
    obtain ⟨g', ht', hI'⟩ := ih
    exact hs.step ho ht' hI' hc hst

/-! ## Invariants that look at the threads -/

/-- An invariant of the threads, too, that one step preserves. -/
theorem Tracks.invariant {I : Config Op Res ε ρ Origin Shared → Ghost Origin σ → Prop}
    (ho : Obeys m mon post first C) {s t : Config Op Res ε ρ Origin Shared} {g}
    (ht : Tracks crash mon post s.threads g) (hI : I s g)
    (hs : ∀ u g l v g', C u l → Tracks crash mon post u.threads g → I u g →
      Follows m crash mon first u g l v g' → I v g')
    (h : m.Reach crash C s t) : ∃ g', Tracks crash mon post t.threads g' ∧ I t g' := by
  induction h with
  | refl => exact ⟨g, ht, hI⟩
  | tail _ hc hst ih =>
    obtain ⟨g', ht', hI'⟩ := ih
    obtain ⟨g'', ht'', hf⟩ := ht'.step ho hc hst
    exact ⟨g'', ht'', hs _ _ _ _ _ hc ht' hI' hf⟩

/-- The same for runs with a log, which the invariant sees as well. -/
theorem Tracks.logged {κ : Type} {note : κ → Config Op Res ε ρ Origin Shared →
      Label Origin Choice Env → Config Op Res ε ρ Origin Shared → κ}
    {D : κ → Config Op Res ε ρ Origin Shared → Label Origin Choice Env → Prop}
    {I : Config Op Res ε ρ Origin Shared → Ghost Origin σ → κ → Prop}
    (ho : Obeys m mon post first C) (hC : ∀ n u l, D n u l → C u l)
    {s t : Config Op Res ε ρ Origin Shared} {g} {k n : κ}
    (ht : Tracks crash mon post s.threads g) (hI : I s g k)
    (hs : ∀ u g n l v g', D n u l → Tracks crash mon post u.threads g → I u g n →
      Follows m crash mon first u g l v g' → I v g' (note n u l v))
    (h : m.Logs crash note D s k t n) : ∃ g', Tracks crash mon post t.threads g' ∧ I t g' n := by
  induction h with
  | refl => exact ⟨g, ht, hI⟩
  | tail _ hc hst ih =>
    obtain ⟨g', ht', hI'⟩ := ih
    obtain ⟨g'', ht'', hf⟩ := ht'.step ho (hC _ _ _ hc) hst
    exact ⟨g'', ht'', hs _ _ _ _ _ _ hc ht' hI' hf⟩

/-- What holds in every state of a run can be used at every step of it. -/
theorem Reach.knowing {P : Config Op Res ε ρ Origin Shared → Prop}
    {s t : Config Op Res ε ρ Origin Shared} (hP : ∀ u, m.Reach crash C s u → P u)
    (h : m.Reach crash C s t) : m.Reach crash (fun u l => C u l ∧ P u) s t := by
  induction h with
  | refl => exact .refl
  | tail hr hc hst ih => exact ih.tail ⟨hc, hP _ hr⟩ hst

variable (mon post) in
/-- Thread `i` was not killed: what is left of it obeys its monitor from `p`. -/
def Alive (ts : List (Thread Op Res ε ρ Origin)) (g : Ghost Origin σ) (i : Nat) (o : Origin)
    (p : σ) : Prop :=
  ∃ q, ts[i]? = some ⟨o, q⟩ ∧ g i = some (o, p) ∧ (mon o).wp q (post o) p

/-- A thread is what it was before the step, or started, or moved, or was killed. -/
theorem Follows.alive_cases {s t : Config Op Res ε ρ Origin Shared} {l g g' i o p}
    (ht : Tracks crash mon post s.threads g) (h : Follows m crash mon first s g l t g')
    (ha : Alive mon post t.threads g' i o p) :
    (Alive mon post s.threads g i o p ∧ ∀ c, l ≠ .run i c) ∨
    (l = .start o ∧ p = first o ∧ g i = none) ∨
    (∃ c op k sh r p₀, l = .run i c ∧ s.threads[i]? = some ⟨o, .call op k⟩ ∧
      Alive mon post s.threads g i o p₀ ∧ (mon o).allow p₀ op ∧
      m.exec c i o op s.shared = some (sh, r) ∧ t.shared = sh ∧ p = (mon o).next p₀ op r) ∨
    l = .kill i ∧ post o (.error crash) p := by
  obtain ⟨q, hi, hg, hw⟩ := ha
  cases h with
  | start ha hnone =>
    by_cases hn : i = s.threads.length
    · subst hn
      rw [Function.update_self] at hg
      cases hg
      exact .inr (.inl ⟨rfl, rfl, hnone⟩)
    · rw [Function.update_of_ne hn] at hg
      have hlt : i < s.threads.length := by
        have := (List.getElem?_eq_some_iff.mp hi).1
        simp at this; omega
      rw [List.getElem?_append_left hlt] at hi
      exact .inl ⟨⟨q, hi, hg, hw⟩, fun c hc => by cases hc⟩
  | @run j c o' op k sh r p₀ hj hgj allowed he =>
    by_cases hn : i = j
    · subst hn
      rw [Function.update_self] at hg
      cases hg
      obtain ⟨p₁, hg₁, ha₁, hr₁⟩ := ht.called hj
      rw [hgj] at hg₁
      cases hg₁
      exact .inr (.inr (.inl ⟨c, op, k, sh, r, p₀, rfl, hj, ⟨_, hj, hgj, ha₁, hr₁⟩, allowed, he,
        rfl, rfl⟩))
    · rw [Function.update_of_ne hn] at hg
      rw [List.getElem?_set_ne (Ne.symm hn)] at hi
      exact .inl ⟨⟨q, hi, hg, hw⟩, fun c' hc => by cases hc; exact hn rfl⟩
  | env he => exact .inl ⟨⟨q, hi, hg, hw⟩, fun c hc => by cases hc⟩
  | @kill j o' op k p₀ hj hgj =>
    by_cases hn : i = j
    · subst hn
      have hlt := (List.getElem?_eq_some_iff.mp hj).1
      simp only [List.getElem?_set_self hlt, Option.some.injEq] at hi
      cases hi
      exact .inr (.inr (.inr ⟨rfl, hw⟩))
    · rw [List.getElem?_set_ne (Ne.symm hn)] at hi
      exact .inl ⟨⟨q, hi, hg, hw⟩, fun c hc => by cases hc⟩

/-- A thread that neither moves nor is killed stays as it is. -/
theorem Follows.alive_stays {s t : Config Op Res ε ρ Origin Shared} {l g g' i o p}
    (h : Follows m crash mon first s g l t g') (ha : Alive mon post s.threads g i o p)
    (hr : ∀ c, l ≠ .run i c) (hk : l ≠ .kill i) : Alive mon post t.threads g' i o p := by
  obtain ⟨q, hi, hg, hw⟩ := ha
  cases h with
  | start _ hnone =>
    have hlt := (List.getElem?_eq_some_iff.mp hi).1
    refine ⟨q, (List.getElem?_append_left hlt).trans hi, ?_, hw⟩
    rw [Function.update_of_ne (by omega)]
    exact hg
  | @run j c o' op k sh r p₀ hj _ _ _ =>
    have hn : i ≠ j := fun he => hr c (by rw [he])
    exact ⟨q, (List.getElem?_set_ne (Ne.symm hn)).trans hi, by rwa [Function.update_of_ne hn], hw⟩
  | env _ => exact ⟨q, hi, hg, hw⟩
  | @kill j o' op k p₀ hj _ =>
    have hn : i ≠ j := fun he => hk (by rw [he])
    exact ⟨q, (List.getElem?_set_ne (Ne.symm hn)).trans hi, hg, hw⟩

/-- The thread that moves is alive after it. -/
theorem Follows.alive_moved {s t : Config Op Res ε ρ Origin Shared} {g g' i c}
    (ht : Tracks crash mon post s.threads g) (h : Follows m crash mon first s g (.run i c) t g') :
    ∃ o op k r p, s.threads[i]? = some ⟨o, .call op k⟩ ∧ Alive mon post s.threads g i o p ∧
      (mon o).allow p op ∧ m.exec c i o op s.shared = some (t.shared, r) ∧
      Alive mon post t.threads g' i o ((mon o).next p op r) := by
  cases h with
  | @run _ _ o op k sh r p hi hg allowed he =>
    obtain ⟨p₁, hg₁, ha₁, hr₁⟩ := ht.called hi
    rw [hg] at hg₁
    cases hg₁
    have hlt := (List.getElem?_eq_some_iff.mp hi).1
    exact ⟨o, op, k, r, p, hi, ⟨_, hi, hg, ha₁, hr₁⟩, allowed, he,
      ⟨k r, List.getElem?_set_self hlt, Function.update_self .., hr₁ r⟩⟩

variable (mon post) in
/-- No thread was killed. -/
def AllAlive (ts : List (Thread Op Res ε ρ Origin)) (g : Ghost Origin σ) : Prop :=
  ∀ i th, ts[i]? = some th → ∃ p, Alive mon post ts g i th.origin p

/-- Where nothing is killed, every thread stays alive. -/
theorem AllAlive.step {s t : Config Op Res ε ρ Origin Shared} {l g g'}
    (h : AllAlive mon post s.threads g) (ht : Tracks crash mon post s.threads g)
    (hf : Follows m crash mon first s g l t g')
    (ho : ∀ o, (mon o).wp (m.program o) (post o) (first o)) (hk : ∀ i, l ≠ .kill i) :
    AllAlive mon post t.threads g' := by
  intro i th hi
  have stays (hi : s.threads[i]? = some th) (hr : ∀ c, l ≠ .run i c) :
      ∃ p, Alive mon post t.threads g' i th.origin p := by
    obtain ⟨p, hp⟩ := h i th hi
    exact ⟨p, hf.alive_stays hp hr (hk i)⟩
  cases l with
  | start o =>
    have again := hf
    cases again with
    | start ha hnone =>
      by_cases hn : i = s.threads.length
      · subst hn
        simp only [List.getElem?_concat_length, Option.some.injEq] at hi
        subst hi
        exact ⟨first o, m.program o, List.getElem?_concat_length .., Function.update_self .., ho o⟩
      · have hlt : i < s.threads.length := by
          have := (List.getElem?_eq_some_iff.mp hi).1
          simp at this; omega
        rw [List.getElem?_append_left hlt] at hi
        exact stays hi fun c hc => by cases hc
  | run j c =>
    by_cases hij : i = j
    · subst hij
      obtain ⟨o, op, k, r, p, -, -, -, -, q, hq, rest⟩ := hf.alive_moved ht
      rw [hi] at hq
      cases hq
      exact ⟨_, q, hi, rest⟩
    · have again := hf
      cases again with
      | run _ _ _ _ =>
        rw [List.getElem?_set_ne (Ne.symm hij)] at hi
        exact stays hi fun c' hc => by cases hc; exact hij rfl
  | env e =>
    have again := hf
    cases again with
    | env _ => exact stays hi fun c hc => by cases hc
  | kill j => exact absurd rfl (hk j)

/-- A thread has one state. -/
theorem Alive.unique {ts : List (Thread Op Res ε ρ Origin)} {g : Ghost Origin σ} {i o o' p p'}
    (h : Alive mon post ts g i o p) (h' : Alive mon post ts g i o' p') : o = o' ∧ p = p' := by
  obtain ⟨-, -, hg, -⟩ := h
  obtain ⟨-, -, hg', -⟩ := h'
  rw [hg] at hg'
  cases hg'
  exact ⟨rfl, rfl⟩

/-! ## Two runs -/

/-- The calls in `P` and the surroundings do not tell states related by `R` apart. -/
structure Blind (m : Machine Op Res ε ρ Origin Shared Choice Env) (R : Shared → Shared → Prop)
    (P : Op → Prop) : Prop where
  exec : ∀ {c i o op sh sh'}, R sh sh' → P op →
    Option.Rel (fun x y => R x.1 y.1 ∧ x.2 = y.2) (m.exec c i o op sh) (m.exec c i o op sh')
  env : ∀ {e sh sh'}, R sh sh' → Option.Rel R (m.env e sh) (m.env e sh')

/-- The same threads over related states, thread `n` with calls in `P` left. -/
structure Twins (R : Shared → Shared → Prop) (P : Op → Prop) (n : Nat)
    (s t : Config Op Res ε ρ Origin Shared) : Prop where
  shared : R s.shared t.shared
  threads : t.threads = s.threads
  only : ∀ th, s.threads[n]? = some th → th.prog.Only P

/-- Only thread `n` and the surroundings move. -/
def Label.MovesOnly (n : Nat) (l : Label Origin Choice Env) : Prop :=
  (∃ c, l = .run n c) ∨ ∃ e, l = .env e

theorem rel_bind {α β γ δ : Type} {R : α → β → Prop} {S : γ → δ → Prop} {x : Option α}
    {y : Option β} {f : α → Option γ} {g : β → Option δ} (h : Option.Rel R x y)
    (hf : ∀ a b, R a b → Option.Rel S (f a) (g b)) : Option.Rel S (x.bind f) (y.bind g) := by
  cases h with
  | none => exact .none
  | some h => exact hf _ _ h

theorem rel_map {α β γ : Type} {R : α → β → Prop} {x : Option α} {y : Option β} {f : α → γ}
    {g : β → γ} (h : Option.Rel R x y) (hf : ∀ a b, R a b → f a = g b) : x.map f = y.map g := by
  cases h with
  | none => rfl
  | some h => exact congrArg some (hf _ _ h)

theorem Blind.step {R : Shared → Shared → Prop} {P : Op → Prop} (hb : m.Blind R P) {n : Nat}
    {l : Label Origin Choice Env} (hl : Label.MovesOnly n l)
    {s t : Config Op Res ε ρ Origin Shared} (h : Twins R P n s t) :
    Option.Rel (Twins R P n) (m.step crash s l) (m.step crash t l) := by
  rcases hl with ⟨c, rfl⟩ | ⟨e, rfl⟩
  · simp only [Machine.step, h.threads]
    cases hi : s.threads[n]? with
    | none => exact .none
    | some th =>
      obtain ⟨o, prog⟩ := th
      cases prog with
      | ret r => exact .none
      | call op k =>
        have hop := h.only _ hi
        have hlt := (List.getElem?_eq_some_iff.mp hi).1
        simp only [Option.map_eq_bind]
        refine rel_bind (hb.exec h.shared hop.1) fun x y hxy => .some ⟨hxy.1, ?_, fun th hth => ?_⟩
        · show s.threads.set n ⟨o, k y.2⟩ = s.threads.set n ⟨o, k x.2⟩
          rw [hxy.2]
        · replace hth : (s.threads.set n ⟨o, k x.2⟩)[n]? = some th := hth
          rw [List.getElem?_set_self hlt, Option.some.injEq] at hth
          subst hth
          exact hop.2 _
  · simp only [Machine.step, Option.map_eq_bind]
    exact rel_bind (hb.env h.shared) fun x y hxy => .some ⟨hxy, h.threads, h.only⟩

/-- Schedules that move one thread end in related states. -/
theorem Blind.runs {R : Shared → Shared → Prop} {P : Op → Prop} (hb : m.Blind R P) {n : Nat}
    {ls : List (Label Origin Choice Env)} (hls : ∀ l ∈ ls, Label.MovesOnly n l)
    {s t : Config Op Res ε ρ Origin Shared} (h : Twins R P n s t) :
    Option.Rel (Twins R P n) (m.runs crash ls s) (m.runs crash ls t) := by
  induction ls generalizing s t with
  | nil => exact .some h
  | cons l ls ih =>
    refine rel_bind (hb.step (hls l (.head _)) h) fun s' t' h' => ?_
    exact ih (fun k hk => hls k (.tail _ hk)) h'

end Machine
end Resumption
