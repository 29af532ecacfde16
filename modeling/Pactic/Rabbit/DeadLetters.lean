import Pactic.Rabbit.Retries

/-! # Dead letters

Every message is in one place: it waits, or one callback has it, or it is
settled. So its handlers run one after the other, and what they did says where
it ends. -/
namespace Pactic
open Resumption

/-! ## Where a message is -/

section
variable {Queue Content Data ε : Type}

/-- The callback has its message still. -/
def Attempt.has : Attempt ε → Bool
  | sent | finished => false
  | _ => true

/-- The copies of message `a` that wait. -/
def Circulation.mail (b : Circulation Queue Content Data ε) (a : Nat) : List (Letter Queue Content) :=
  b.waiting.filter fun x => x.original = a

theorem mail_append {b b' : Circulation Queue Content Data ε} {x : Letter Queue Content}
    (h : b'.waiting = b.waiting ++ [x]) (a : Nat) :
    b'.mail a = b.mail a ++ if x.original = a then [x] else [] := by
  simp only [Circulation.mail, h, List.filter_append, List.filter_singleton,
    Bool.cond_decide]

theorem outcomes_append {b b' : Circulation Queue Content Data ε} {r : Nat × Except ε Unit}
    (h : b'.results = b.results ++ [r]) (a : Nat) :
    b'.outcomes a = b.outcomes a ++ if r.1 = a then [r.2] else [] := by
  simp only [Circulation.outcomes, h, List.filter_append, List.filter_singleton, List.map_append,
    Bool.cond_decide]
  split
  · rfl
  · rfl

abbrev Callbacks (Queue Content ε : Type) := Machine.Ghost (Consumption Queue Content) (Attempt ε)

/-- The callbacks that have a copy of message `a`. -/
def holders (g : Callbacks Queue Content ε) (a : Nat) :
    Set (Nat × Consumption Queue Content × Attempt ε) :=
  {x | g x.1 = some x.2 ∧ x.2.1.letter.original = a ∧ x.2.2.has = true}

theorem mem_holders {g : Callbacks Queue Content ε} {a i : Nat} {o : Consumption Queue Content}
    {p : Attempt ε} : (i, o, p) ∈ holders g a ↔
      g i = some (o, p) ∧ o.letter.original = a ∧ p.has = true := Iff.rfl

variable (rt : Runtime Content Data ε) (dead : Queue)

/-- Handlers that threw. -/
abbrev failures (errs : List ε) : List (Except ε Unit) := errs.map .error

/-- A copy of the message with this content, after the failures `errs`. -/
structure Letter.CopyOf (x : Letter Queue Content) (content : Content) (errs : List ε) : Prop where
  live : x.queue ≠ dead
  attempts : x.attempts = errs.length
  left : errs.length ≤ 2
  payload : rt.parse x.content = rt.parse content

/-- A message is nowhere yet, or waits, or one callback has it, or it is settled:
it did not parse, or a handler returned or threw what cannot be read, or it is
among the dead letters. With it goes what its handlers did. -/
inductive Course : Option (Queue × Content) → List (Letter Queue Content) →
    Set (Nat × Consumption Queue Content × Attempt ε) → List (Except ε Unit) → Prop where
  | unpublished : Course none [] ∅ []
  | waiting {q content x} {errs : List ε} : x.CopyOf rt dead content errs →
      Course (some (q, content)) [x] ∅ (failures errs)
  | handling {q content i o} {errs : List ε} : o.letter.CopyOf rt dead content errs →
      Course (some (q, content)) [] {(i, o, .handling)} (failures errs)
  | caught {q content i o p err} {errs : List ε} : o.letter.CopyOf rt dead content errs →
      rt.message err = .ok () → p = .threw err ∨ p = .asserted err →
      Course (some (q, content)) [] {(i, o, p)} (failures errs ++ [.error err])
  | unparsed {q content} {errs : List ε} : errs.length ≤ 2 →
      Course (some (q, content)) [] ∅ (failures errs)
  | returned {q content} {errs : List ε} : errs.length ≤ 2 →
      Course (some (q, content)) [] ∅ (failures errs ++ [.ok ()])
  | unread {q content err} {errs : List ε} : errs.length ≤ 2 → rt.message err ≠ .ok () →
      Course (some (q, content)) [] ∅ (failures errs ++ [.error err])
  | buried {q content x err} {errs : List ε} : errs.length = 2 → rt.message err = .ok () →
      x.queue = dead → rt.parse x.content = rt.parse content →
      Course (some (q, content)) [x] ∅ (failures errs ++ [.error err])

variable {rt dead} {origin : Option (Queue × Content)} {ms : List (Letter Queue Content)}
  {hs : Set (Nat × Consumption Queue Content × Attempt ε)} {outs : List (Except ε Unit)}

theorem Letter.CopyOf.printed {x : Letter Queue Content} {content : Content} {errs : List ε}
    (h : x.CopyOf rt dead content errs) {data : Data} (parsed : rt.parse x.content = .ok data) :
    rt.parse (rt.stringify data) = rt.parse content := by
  rw [rt.parse_stringify, ← h.payload, parsed]

/-- What a callback with an attempt left publishes is a copy again. -/
theorem Letter.CopyOf.again {x : Letter Queue Content} {content : Content} {errs : List ε}
    (h : x.CopyOf rt dead content errs) (left : ¬ 2 ≤ x.attempts) {data : Data} {err : ε}
    (parsed : rt.parse x.content = .ok data) : Letter.CopyOf rt dead
      ⟨x.original, x.retryQueue dead, rt.stringify data, some (x.attempts + 1)⟩ content
      (errs ++ [err]) := by
  have same : x.retryQueue dead = x.queue := if_neg left
  have attempts := h.attempts
  refine ⟨?_, ?_, ?_, h.printed parsed⟩
  · show x.retryQueue dead ≠ dead
    rw [same]
    exact h.live
  · rw [List.length_append, List.length_singleton, ← attempts]
    rfl
  · rw [List.length_append, List.length_singleton]
    omega

theorem Course.of_mem {x : Letter Queue Content} (h : Course rt dead origin ms hs outs) (hx : x ∈ ms)
    (live : x.queue ≠ dead) : ∃ q content errs, origin = some (q, content) ∧ ms = [x] ∧ hs = ∅ ∧
      outs = failures errs ∧ x.CopyOf rt dead content errs := by
  cases h with
  | @waiting q content y errs copy =>
    cases List.mem_singleton.mp hx
    exact ⟨q, content, errs, rfl, rfl, rfl, rfl, copy⟩
  | buried _ _ hq _ =>
    cases List.mem_singleton.mp hx
    exact absurd hq live
  | unpublished | handling _ | caught _ _ _ | unparsed _ | returned _ | unread _ _ => cases hx

theorem Course.of_handling {i : Nat} {o : Consumption Queue Content}
    (h : Course rt dead origin ms hs outs) (hi : (i, o, .handling) ∈ hs) :
    ∃ q content errs, origin = some (q, content) ∧ ms = [] ∧ hs = {(i, o, .handling)} ∧
      outs = failures errs ∧ o.letter.CopyOf rt dead content errs := by
  cases h with
  | @handling q content j o' errs copy =>
    cases Set.mem_singleton_iff.mp hi
    exact ⟨q, content, errs, rfl, rfl, rfl, rfl, copy⟩
  | caught _ _ hp =>
    cases Set.mem_singleton_iff.mp hi
    rcases hp with hp | hp <;> cases hp
  | unpublished | waiting _ | unparsed _ | returned _ | unread _ _ | buried _ _ _ _ => cases hi

theorem Course.of_caught {i : Nat} {o : Consumption Queue Content} {p : Attempt ε} {err : ε}
    (h : Course rt dead origin ms hs outs) (hi : (i, o, p) ∈ hs)
    (hp : p = .threw err ∨ p = .asserted err) :
    ∃ q content errs, origin = some (q, content) ∧ ms = [] ∧ hs = {(i, o, p)} ∧
      outs = failures errs ++ [.error err] ∧ o.letter.CopyOf rt dead content errs ∧
      rt.message err = .ok () := by
  cases h with
  | handling _ =>
    cases Set.mem_singleton_iff.mp hi
    rcases hp with hp | hp <;> cases hp
  | @caught q content j o' p' err' errs copy read hp' =>
    cases Set.mem_singleton_iff.mp hi
    have same : err = err' := by
      rcases hp with rfl | rfl
      · rcases hp' with hp' | hp' <;> cases hp'
        rfl
      · rcases hp' with hp' | hp' <;> cases hp'
        rfl
    subst same
    exact ⟨q, content, errs, rfl, rfl, rfl, rfl, copy, read⟩
  | unpublished | waiting _ | unparsed _ | returned _ | unread _ _ | buried _ _ _ _ => cases hi

/-! ### Callbacks -/

/-- The callbacks that have a copy of message `a`, after callback `i` has moved. -/
theorem mem_holders_update {g : Callbacks Queue Content ε} {i j a : Nat}
    {o o' : Consumption Queue Content} {p p' : Attempt ε} :
    (j, o', p') ∈ holders (Function.update g i (some (o, p))) a ↔
      (j, o', p') = (i, o, p) ∧ o.letter.original = a ∧ p.has = true ∨
      j ≠ i ∧ (j, o', p') ∈ holders g a := by
  rw [mem_holders, mem_holders]
  by_cases hj : j = i
  · subst hj
    rw [Function.update_self]
    constructor
    · rintro ⟨h, own, has⟩
      cases h
      exact .inl ⟨rfl, own, has⟩
    · rintro (⟨h, own, has⟩ | ⟨hn, -⟩)
      · cases h
        exact ⟨rfl, own, has⟩
      · exact absurd rfl hn
  · rw [Function.update_of_ne hj]
    constructor
    · intro h
      exact .inr ⟨hj, h⟩
    · rintro (⟨h, -⟩ | ⟨-, h⟩)
      · exact absurd (congrArg Prod.fst h) hj
      · exact h

theorem holders_of_other {g : Callbacks Queue Content ε} {i a : Nat} {o : Consumption Queue Content}
    {p : Attempt ε} (hg : ∀ o' p', g i = some (o', p') → o' = o) (ha : o.letter.original ≠ a) :
    holders (Function.update g i (some (o, p))) a = holders g a := by
  ext ⟨j, o', p'⟩
  rw [mem_holders_update]
  constructor
  · rintro (⟨-, own, -⟩ | ⟨-, h⟩)
    · exact absurd own ha
    · exact h
  · intro h
    refine .inr ⟨?_, h⟩
    rintro rfl
    exact ha (hg o' p' h.1 ▸ h.2.1)

theorem holders_of_own {g : Callbacks Queue Content ε} {i : Nat} {o : Consumption Queue Content}
    {p : Attempt ε} (hs : ∀ x ∈ holders g o.letter.original, x.1 = i) :
    holders (Function.update g i (some (o, p))) o.letter.original =
      if p.has then {(i, o, p)} else ∅ := by
  have shape (x : Nat × Consumption Queue Content × Attempt ε) :
      x ∈ (if p.has = true then {(i, o, p)} else ∅ : Set _) ↔ x = (i, o, p) ∧ p.has = true := by
    split <;> simp [*]
  ext ⟨j, o', p'⟩
  rw [mem_holders_update, shape]
  constructor
  · rintro (⟨same, -, has⟩ | ⟨hn, h⟩)
    · exact ⟨same, has⟩
    · exact absurd (hs _ h) hn
  · rintro ⟨same, has⟩
    exact .inl ⟨same, rfl, has⟩

/-- A callback that has no message left goes on. -/
theorem holders_of_sent {g : Callbacks Queue Content ε} {i a : Nat} {o : Consumption Queue Content}
    {p p' : Attempt ε} (hg : g i = some (o, p)) (hp : p.has = false) (hp' : p'.has = false) :
    holders (Function.update g i (some (o, p'))) a = holders g a := by
  ext ⟨j, o', q⟩
  rw [mem_holders_update]
  constructor
  · rintro (⟨-, -, has⟩ | ⟨-, h⟩)
    · rw [hp'] at has
      cases has
    · exact h
  · intro h
    refine .inr ⟨?_, h⟩
    rintro rfl
    obtain ⟨held, -, has⟩ := mem_holders.mp h
    rw [hg] at held
    cases held
    rw [hp] at has
    cases has

/-! ### Steps -/

variable (rt dead) in
def Accounted (b : Circulation Queue Content Data ε) (g : Callbacks Queue Content ε) : Prop :=
  ∀ a, Course rt dead b.originals[a]? (b.mail a) (holders g a) (b.outcomes a)

/-- A call of a callback is about its own message. -/
theorem Advances.other {o : Consumption Queue Content} {b b' : Circulation Queue Content Data ε}
    {p p' : Attempt ε} (h : Advances rt dead o b p b' p') {a : Nat} (ha : o.letter.original ≠ a) :
    b'.originals = b.originals ∧ b'.mail a = b.mail a ∧ b'.outcomes a = b.outcomes a := by
  cases h with
  | returned => exact ⟨rfl, rfl, by rw [outcomes_append rfl, if_neg ha, List.append_nil]⟩
  | failed err => exact ⟨rfl, rfl, by rw [outcomes_append rfl, if_neg ha, List.append_nil]⟩
  | published parsed => exact ⟨rfl, by rw [mail_append rfl, if_neg ha, List.append_nil], rfl⟩
  | asserted | acked => exact ⟨rfl, rfl, rfl⟩

/-- The message of a callback after the callback has moved. -/
theorem Advances.own {o : Consumption Queue Content} {b b' : Circulation Queue Content Data ε}
    {p p' : Attempt ε} (h : Advances rt dead o b p b' p') {g : Callbacks Queue Content ε} {i : Nat}
    (hg : g i = some (o, p))
    (course : Course rt dead b.originals[o.letter.original]? (b.mail o.letter.original)
      (holders g o.letter.original) (b.outcomes o.letter.original)) :
    Course rt dead b'.originals[o.letter.original]? (b'.mail o.letter.original)
      (holders (Function.update g i (some (o, p'))) o.letter.original)
      (b'.outcomes o.letter.original) := by
  have moved {q : Attempt ε} (hs : holders g o.letter.original = {(i, o, p)}) :
      holders (Function.update g i (some (o, q))) o.letter.original =
        if q.has then {(i, o, q)} else ∅ := by
    refine holders_of_own fun x hx => ?_
    rw [hs] at hx
    rw [Set.mem_singleton_iff.mp hx]
  cases h with
  | @returned ch =>
    obtain ⟨q, content, errs, ho, hm, hs, outs, copy⟩ := course.of_handling ⟨hg, rfl, rfl⟩
    rw [outcomes_append rfl, if_pos rfl, moved hs, outs]
    show Course rt dead b.originals[o.letter.original]? (b.mail o.letter.original) _ _
    rw [ho, hm]
    exact .returned copy.left
  | @failed ch err =>
    obtain ⟨q, content, errs, ho, hm, hs, outs, copy⟩ := course.of_handling ⟨hg, rfl, rfl⟩
    rw [outcomes_append rfl, if_pos rfl, moved hs, outs]
    show Course rt dead b.originals[o.letter.original]? (b.mail o.letter.original) _ _
    rw [ho, hm, Attempt.caught]
    cases read : rt.message err with
    | ok _ => exact .caught copy read (.inl rfl)
    | error e => exact .unread copy.left (by rw [read]; intro h; cases h)
  | @asserted err =>
    obtain ⟨q, content, errs, ho, hm, hs, outs, copy, read⟩ :=
      course.of_caught ⟨hg, rfl, rfl⟩ (.inl rfl)
    rw [moved hs, ho, hm, outs]
    exact .caught copy read (.inr rfl)
  | @published ch err data parsed =>
    obtain ⟨q, content, errs, ho, hm, hs, outs, copy, read⟩ :=
      course.of_caught ⟨hg, rfl, rfl⟩ (.inr rfl)
    rw [mail_append rfl, if_pos rfl, moved hs, hm]
    show Course rt dead b.originals[o.letter.original]? _ _ (b.outcomes o.letter.original)
    rw [ho, outs]
    by_cases last : 2 ≤ o.letter.attempts
    · have two : errs.length = 2 := by
        have := copy.attempts
        have := copy.left
        omega
      exact .buried two read (if_pos last) (copy.printed parsed)
    · have again : failures errs ++ [.error err] = failures (errs ++ [err]) := by
        rw [failures, failures, List.map_append, List.map_singleton]
      rw [again]
      exact .waiting (copy.again last parsed)
  | acked =>
    rw [holders_of_sent hg rfl rfl]
    exact course

theorem Advances.accounted {o : Consumption Queue Content} {b b' : Circulation Queue Content Data ε}
    {p p' : Attempt ε} (h : Advances rt dead o b p b' p') {g : Callbacks Queue Content ε} {i : Nat}
    (hg : g i = some (o, p)) (hb : Accounted rt dead b g) :
    Accounted rt dead b' (Function.update g i (some (o, p'))) := by
  intro a
  by_cases ha : o.letter.original = a
  · subst ha
    exact h.own hg (hb _)
  · obtain ⟨originals, mail, outcomes⟩ := h.other ha
    have same (o' : Consumption Queue Content) (q : Attempt ε) (h : g i = some (o', q)) : o' = o := by
      rw [hg] at h
      cases h
      rfl
    rw [originals, mail, outcomes, holders_of_other same ha]
    exact hb a

variable [DecidableEq Queue] [DecidableEq Content]

theorem mail_erase {b b' : Circulation Queue Content Data ε} {x : Letter Queue Content}
    (h : b'.waiting = b.waiting.erase x) (a : Nat) : b'.mail a = (b.mail a).erase x := by
  rw [Circulation.mail, h, Circulation.mail, List.erase_filter]

theorem Accounted.accept {o : Consumption Queue Content} {b b' : Circulation Queue Content Data ε}
    {g : Callbacks Queue Content ε} {i : Nat} (hb : Accounted rt dead b g) (hg : g i = none)
    (h : o.accept dead b = some b') :
    Accounted rt dead b' (Function.update g i (some (o, .first rt o.letter))) := by
  obtain ⟨waiting, live, ch, -, rfl⟩ := accept_eq_some h
  intro a
  rw [mail_erase rfl]
  show Course rt dead b.originals[a]? _ _ (b.outcomes a)
  by_cases ha : o.letter.original = a
  · subst ha
    have mem : o.letter ∈ b.mail o.letter.original :=
      List.mem_filter.mpr ⟨waiting, decide_eq_true rfl⟩
    obtain ⟨q, content, errs, ho, hm, hs, outs, copy⟩ := (hb o.letter.original).of_mem mem live
    have own : ∀ x ∈ holders g o.letter.original, x.1 = i := by
      intro x hx
      rw [hs] at hx
      cases hx
    have taken : [o.letter].erase o.letter = [] := List.erase_cons_head ..
    rw [holders_of_own own, ho, hm, outs, taken, Attempt.first]
    cases rt.parse o.letter.content with
    | ok data => exact .handling copy
    | error e => exact .unparsed copy.left
  · have absent : o.letter ∉ b.mail a := fun hm => ha (of_decide_eq_true (List.mem_filter.mp hm).2)
    rw [List.erase_of_not_mem absent,
      holders_of_other (fun o' p' h => by rw [hg] at h; cases h) ha]
    exact hb a

omit [DecidableEq Content] in
theorem Accounted.publish {q : Queue} {content : Content} {b b' : Circulation Queue Content Data ε}
    {g : Callbacks Queue Content ε} (hb : Accounted rt dead b g)
    (h : b.publish dead q content = some b') : Accounted rt dead b' g := by
  obtain ⟨live, rfl⟩ := publish_eq_some h
  intro a
  rw [mail_append rfl]
  show Course rt dead (b.originals ++ [(q, content)])[a]? _ _ (b.outcomes a)
  by_cases ha : b.originals.length = a
  · subst ha
    have course := hb b.originals.length
    rw [List.getElem?_eq_none (le_refl _)] at course
    rw [List.getElem?_concat_length, if_pos rfl]
    generalize b.mail b.originals.length = ms, holders g b.originals.length = hs,
      b.outcomes b.originals.length = outs at course ⊢
    cases course with
    | unpublished =>
      have copy : Letter.CopyOf rt dead ⟨b.originals.length, q, content, none⟩ content [] :=
        ⟨live, rfl, Nat.zero_le _, rfl⟩
      exact .waiting copy
  · have same : (b.originals ++ [(q, content)])[a]? = b.originals[a]? := by
      by_cases old : a < b.originals.length
      · exact List.getElem?_append_left old
      · rw [List.getElem?_eq_none, List.getElem?_eq_none]
        · omega
        · rw [List.length_append, List.length_singleton]
          omega
    rw [same, if_neg ha, List.append_nil]
    exact hb a

/-- One step of the loop leaves every message accounted for. -/
theorem Accounted.step {crash : ε} {s t : LoopState Queue Content Data ε}
    {g g' : Callbacks Queue Content ε} {l : LoopStep Queue Content ε}
    (hb : Accounted rt dead s.shared g) (hc : Served s l)
    (hf : Machine.Follows (retryLoop rt dead) crash (retrying rt dead)
      (fun o => .first rt o.letter) s g l t g') : Accounted rt dead t.shared g' := by
  cases hf with
  | start accepted free => exact hb.accept free accepted
  | @run i c o op k sh r p hi hg allowed he =>
    have ran : op.relay rt c o s.shared = (sh, r) := Option.some.inj he
    have moved := (relay_advances allowed (hc.call hi)).accounted hg hb
    rw [ran] at moved
    exact moved
  | env published => exact hb.publish published
  | kill _ _ => exact hc.elim

end

/-! ## What becomes of a message -/

section
variable {Queue Content Data ε : Type} {rt : Runtime Content Data ε} {dead : Queue}
  {origin : Option (Queue × Content)} {ms : List (Letter Queue Content)}
  {hs : Set (Nat × Consumption Queue Content × Attempt ε)} {outs : List (Except ε Unit)}

theorem length_outcomes (errs : List ε) (r : Except ε Unit) :
    (failures errs ++ [r]).length = errs.length + 1 := by
  rw [List.length_append, List.length_map, List.length_singleton]

theorem third_outcome {errs : List ε} (h : errs.length ≤ 2) (r : Except ε Unit) {err : ε} :
    (failures errs ++ [r])[2]? = some (.error err) ↔ errs.length = 2 ∧ r = .error err := by
  by_cases two : errs.length = 2
  · obtain ⟨e₁, e₂, rfl⟩ := List.length_eq_two.mp two
    simp
  · refine iff_of_false ?_ fun h => two h.1
    rw [List.getElem?_eq_none]
    · intro h
      cases h
    · rw [length_outcomes]
      omega

theorem no_third_outcome {errs : List ε} (h : errs.length ≤ 2) :
    (failures errs)[2]? = none := by
  rw [List.getElem?_eq_none]
  rw [List.length_map]
  exact h

/-- No message gets more than three handlers. -/
theorem Course.length_le (h : Course rt dead origin ms hs outs) : outs.length ≤ 3 := by
  cases h with
  | unpublished => exact Nat.zero_le _
  | waiting copy | handling copy =>
    have left := copy.left
    rw [List.length_map]
    omega
  | caught copy _ _ =>
    have left := copy.left
    rw [length_outcomes]
    omega
  | unparsed left =>
    rw [List.length_map]
    omega
  | returned left | unread left _ | buried left _ _ _ =>
    rw [length_outcomes]
    omega

/-- Only the last handler of a message can return. -/
theorem Course.hopeless_iff (h : Course rt dead origin ms hs outs) :
    (∃ e₁ e₂ e₃, outs = [.error e₁, .error e₂, .error e₃]) ↔ ∃ err, outs[2]? = some (.error err) := by
  constructor
  · rintro ⟨e₁, e₂, e₃, rfl⟩
    exact ⟨e₃, rfl⟩
  · have short {errs : List ε} (left : errs.length ≤ 2)
        (h : ∃ err, (failures errs)[2]? = some (.error err)) :
        ∃ e₁ e₂ e₃, failures errs = [.error e₁, .error e₂, .error e₃] := by
      obtain ⟨err, h⟩ := h
      rw [no_third_outcome left] at h
      cases h
    have full {errs : List ε} {r : Except ε Unit} (left : errs.length ≤ 2)
        (h : ∃ err, (failures errs ++ [r])[2]? = some (.error err)) :
        ∃ e₁ e₂ e₃, failures errs ++ [r] = [.error e₁, .error e₂, .error e₃] := by
      obtain ⟨err, h⟩ := h
      obtain ⟨two, rfl⟩ := (third_outcome left r).mp h
      obtain ⟨e₁, e₂, rfl⟩ := List.length_eq_two.mp two
      exact ⟨e₁, e₂, err, rfl⟩
    cases h with
    | unpublished =>
      rintro ⟨err, h⟩
      cases h
    | waiting copy | handling copy => exact short copy.left
    | caught copy _ _ => exact full copy.left
    | unparsed left => exact short left
    | returned left | unread left _ => exact full left
    | buried two _ _ _ => exact full two.le

variable {b : Circulation Queue Content Data ε} {g : Callbacks Queue Content ε}

theorem Accounted.hopeless_iff (hb : Accounted rt dead b g) (a : Nat) :
    b.Hopeless a ↔ ∃ err, (b.outcomes a)[2]? = some (.error err) := (hb a).hopeless_iff

variable [DecidableEq Queue]

/-- A message is among the dead letters once at most, and only after three
failures. -/
theorem Course.dead_letters (h : Course rt dead origin ms hs outs) :
    (ms.filter fun x => x.queue = dead) = [] ∨ ∃ q content x err, origin = some (q, content) ∧
      (ms.filter fun x => x.queue = dead) = [x] ∧ rt.parse x.content = rt.parse content ∧
      outs[2]? = some (.error err) ∧ rt.message err = .ok () := by
  cases h with
  | unpublished | handling _ | caught _ _ _ | unparsed _ | returned _ | unread _ _ => exact .inl rfl
  | waiting copy => exact .inl (List.filter_eq_nil_iff.mpr (by simpa using copy.live))
  | @buried q content x err errs two read hq payload =>
    refine .inr ⟨q, content, x, err, rfl, ?_, payload, (third_outcome two.le _).mpr ⟨two, rfl⟩, read⟩
    exact List.filter_eq_self.mpr (by simpa using hq)

/-- Where no callback has the message and no copy of it waits, it is among the
dead letters or its last handler did not throw what can be read. -/
theorem Course.settled (h : Course rt dead origin ms ∅ outs) (still : ∀ x ∈ ms, x.queue = dead)
    (none : (ms.filter fun x => x.queue = dead) = []) {err : ε}
    (threw : outs[2]? = some (.error err)) : rt.message err ≠ .ok () := by
  have nothing : ms = [] := by
    rw [List.filter_eq_self.mpr fun x hx => decide_eq_true (still x hx)] at none
    exact none
  generalize held : (∅ : Set (Nat × Consumption Queue Content × Attempt ε)) = hs at h
  cases h with
  | unpublished => cases threw
  | waiting _ | buried _ _ _ _ => cases nothing
  | handling _ => exact absurd held.symm (Set.singleton_ne_empty _)
  | caught _ _ _ => exact absurd held.symm (Set.singleton_ne_empty _)
  | unparsed left =>
    rw [no_third_outcome left] at threw
    cases threw
  | returned left =>
    obtain ⟨-, h⟩ := (third_outcome left _).mp threw
    cases h
  | unread left unread =>
    obtain ⟨-, h⟩ := (third_outcome left _).mp threw
    cases h
    exact unread

theorem deadLetters_eq (b : Circulation Queue Content Data ε) (a : Nat) :
    b.deadLetters a dead = ((b.mail a).filter fun x => x.queue = dead).map Letter.content := by
  simp only [Circulation.deadLetters, Circulation.mail, List.filter_filter, Bool.decide_and,
    Bool.and_comm]

/-- Nothing but a hopeless message is ever buried, and none twice. -/
theorem Accounted.buries_only (hb : Accounted rt dead b g) (a : Nat) :
    (b.deadLetters a dead).length ≤ 1 ∧ (¬ b.Hopeless a → b.deadLetters a dead = []) := by
  rw [deadLetters_eq, hb.hopeless_iff]
  rcases (hb a).dead_letters with none | ⟨q, content, x, err, -, one, -, threw, -⟩
  · rw [none]
    exact ⟨Nat.zero_le _, fun _ => rfl⟩
  · rw [one]
    exact ⟨le_refl _, fun h => absurd ⟨err, threw⟩ h⟩

theorem Accounted.buries_iff (hb : Accounted rt dead b g) {a : Nat} (free : holders g a = ∅)
    (still : ∀ x ∈ b.waiting, x.queue = dead) : b.BuriesHopeless rt a dead ↔ b.LastReadable rt a := by
  have hopeless := hb.hopeless_iff a
  have only := (hb a).dead_letters
  have course := hb a
  rw [free] at course
  rw [Circulation.BuriesHopeless, deadLetters_eq, hopeless]
  rcases only with none | ⟨q, content, x, err, published, one, payload, threw, read⟩
  · -- nothing is buried, so it comes down to whether the message is hopeless
    rw [none]
    constructor
    · rintro ⟨once, -⟩ err threw
      obtain ⟨_, _, -, nothing⟩ := once ⟨err, threw⟩
      cases nothing
    · intro read
      have hope : ¬ ∃ err, (b.outcomes a)[2]? = some (.error err) := by
        rintro ⟨err, threw⟩
        exact course.settled (fun x hx => still x (List.mem_filter.mp hx).1) none threw (read err threw)
      exact ⟨fun h => absurd h hope, fun _ => rfl⟩
  · rw [one]
    refine iff_of_true ⟨fun _ => ⟨q, content, published, ?_⟩, fun h => absurd ⟨err, threw⟩ h⟩ ?_
    · rw [List.map_singleton, List.map_singleton, payload]
    · intro err' threw'
      rw [threw] at threw'
      cases threw'
      exact read

end

/-! ## Runs of the loop -/

section
variable {Queue Content Data ε : Type} {rt : Runtime Content Data ε} {dead : Queue}

variable (rt dead) in
/-- The invariant of the loop. -/
structure Conserved (s : LoopState Queue Content Data ε) (g : Callbacks Queue Content ε) : Prop where
  accounted : Accounted rt dead s.shared g
  alive : Machine.AllAlive (retrying rt dead) (fun _ _ p => p = .finished) s.threads g

theorem conserved_fresh : Conserved rt dead LoopState.fresh fun _ => none := by
  refine ⟨fun a => ?_, fun i th hi => by cases hi⟩
  have none : holders (fun _ => none : Callbacks Queue Content ε) a = ∅ := by
    ext x
    exact iff_of_false (fun h => by cases h.1) fun h => by cases h
  rw [none]
  exact .unpublished

/-- In an idle state no callback has a message. -/
theorem Conserved.holders_of_idle {s : LoopState Queue Content Data ε} {g} (h : Conserved rt dead s g)
    (known : Machine.Known g s.threads) (idle : s.idle = true) (a : Nat) : holders g a = ∅ := by
  refine Set.eq_empty_of_forall_notMem fun x hx => ?_
  obtain ⟨i, o, p⟩ := x
  obtain ⟨hg, -, has⟩ := mem_holders.mp hx
  obtain ⟨q, hq⟩ := known hg
  obtain ⟨p', q', hq', hg', wp⟩ := h.alive i _ hq
  have ended := List.all_eq_true.mp idle _ (List.mem_of_getElem? hq)
  rw [hq] at hq'
  cases hq'
  rw [hg] at hg'
  cases hg'
  cases q with
  | call op k => cases ended
  | ret r =>
    cases (show p = .finished from wp)
    cases has

variable [DecidableEq Queue] [DecidableEq Content] {crash : ε}

theorem Conserved.step {s t : LoopState Queue Content Data ε} {g g'} {l : LoopStep Queue Content ε}
    (h : Conserved rt dead s g) (hc : Served s l)
    (tracks : Machine.Tracks crash (retrying rt dead) (fun _ _ p => p = .finished) s.threads g)
    (hf : Machine.Follows (retryLoop rt dead) crash (retrying rt dead)
      (fun o => .first rt o.letter) s g l t g') : Conserved rt dead t g' := by
  refine ⟨h.accounted.step hc hf, h.alive.step tracks hf (callback_retries rt dead) fun i hl => ?_⟩
  subst hl
  exact hc

/-- The loop goes on until only dead letters are left. -/
theorem drained_or_step (s : LoopState Queue Content Data ε) : s.Drained dead ∨
    ∃ l u, Served s l ∧ (∀ e, l ≠ .env e) ∧ (retryLoop rt dead).step crash s l = some u := by
  by_cases idle : s.idle = true
  · by_cases still : ∀ x ∈ s.shared.waiting, x.queue = dead
    · exact .inl ⟨idle, still⟩
    · obtain ⟨x, hx⟩ := not_forall.mp still
      obtain ⟨waiting, live⟩ := Classical.not_imp.mp hx
      have next : Delivery.accept (Consumption.delivery ⟨s.shared.delivered, x⟩) s.shared.toChannel =
          some { s.shared.toChannel with delivered := s.shared.delivered + 1 } := if_pos rfl
      have accepted : (Consumption.accept dead ⟨s.shared.delivered, x⟩ s.shared).isSome := by
        rw [Consumption.accept, if_pos ⟨waiting, live⟩, next]
        rfl
      obtain ⟨sh, hsh⟩ := Option.isSome_iff_exists.mp accepted
      refine .inr ⟨.start ⟨s.shared.delivered, x⟩, _, trivial, ?_,
        Option.map_eq_some_iff.mpr ⟨sh, hsh, rfl⟩⟩
      intro e h
      cases h
  · obtain ⟨i, hi⟩ := not_forall.mp fun h => idle (Config.idle_iff.mpr h)
    obtain ⟨o, op, k, hi⟩ := not_not.mp hi
    refine .inr ⟨.run i {}, _, .inl rfl, ?_, (Machine.step_run hi).mpr ⟨_, _, rfl, rfl⟩⟩
    intro e h
    cases h

variable (rt dead crash) in
/-- No run of the loop is longer than sixteen steps for each message published,
and it goes on until only dead letters are left. No message gets more than three
handlers, and none but a hopeless one is buried. In the end every hopeless
message is buried, and no other, exactly if the errors its third handlers threw
can be read. -/
theorem buries_hopeless_iff {t : LoopState Queue Content Data ε} {n : Nat}
    (h : (retryLoop rt dead).Counts crash (fun _ _ => 1) (fun _ => Served) LoopState.fresh t n) :
    n ≤ 16 * t.shared.originals.length ∧
    (t.Drained dead ∨ ∃ l u, Served t l ∧ (∀ e, l ≠ .env e) ∧
      (retryLoop rt dead).step crash t l = some u) ∧
    (∀ a, (t.shared.outcomes a).length ≤ 3 ∧ (t.shared.deadLetters a dead).length ≤ 1 ∧
      (¬ t.shared.Hopeless a → t.shared.deadLetters a dead = [])) ∧
    (t.Drained dead → ∀ a, t.shared.BuriesHopeless rt a dead ↔ t.shared.LastReadable rt a) := by
  have obeys : Machine.Obeys (retryLoop rt dead) (retrying rt dead) (fun _ _ p => p = .finished)
      (fun o => .first rt o.letter) Served := fun _ o _ _ _ => callback_retries rt dead o
  have bound := retryLoop_spends.bound obeys rfl h
  obtain ⟨g, tracks, conserved⟩ := h.invariant (I := fun u _ => ∃ g : Callbacks Queue Content ε,
    Machine.Tracks crash (retrying rt dead) (fun _ _ p => p = .finished) u.threads g ∧
      Conserved rt dead u g) ⟨_, .of_nil rfl, conserved_fresh⟩ fun u v l _ hc hI hst => by
    obtain ⟨g, tracks, conserved⟩ := hI
    obtain ⟨g', tracks', hf⟩ := tracks.step obeys hc hst
    exact ⟨g', tracks', conserved.step hc tracks hf⟩
  refine ⟨?_, drained_or_step t, fun a => ?_, fun drained a => ?_⟩
  · simpa [LoopState.fresh, Circulation.cost] using bound
  · exact ⟨(conserved.accounted a).length_le, conserved.accounted.buries_only a⟩
  · exact conserved.accounted.buries_iff (conserved.holders_of_idle tracks.known drained.1 a) drained.2

end
/-! ## A deposit that fails -/

/-- A handler may throw `undefined`, too; reading its message throws again. -/
def service.runtime : Runtime Payload Payload (Option Err) where
  parse := .ok
  stringify := id
  message
    | some _ => .ok ()
    | none => .error (some (.business "TypeError"))
  parse_stringify _ := rfl

abbrev ServiceLoop := LoopState Queue Payload Payload (Option Err)

def deposit : Payload := .job (.funding ⟨1, 1, "USD", 100, "a"⟩)

/-- Delivery `k` of the deposit, its handler, and `calls` calls after it. -/
def attempted (k : Nat) (x : Option Nat) (thrown : Option Err) (calls : Nat) :
    List (LoopStep Queue Payload (Option Err)) :=
  .start ⟨k, ⟨0, .walletFunding, deposit, x⟩⟩ :: .run k { result := .error thrown } ::
    List.replicate calls (.run k {})

/-- The deposit is published, and the first two handlers throw errors. -/
def failedTwice : List (LoopStep Queue Payload (Option Err)) :=
  .env (.walletFunding, deposit) :: attempted 0 none (some .unavailable) 3 ++
    attempted 1 (some 1) (some .unavailable) 3

def served (_ : Nat) (s : ServiceLoop) : LoopStep Queue Payload (Option Err) → Bool
  | .run i c => c.result = .ok () || match s.threads[i]? with
    | some ⟨_, .call (.handle _) _⟩ => true
    | _ => false
  | .kill _ => false
  | _ => true

theorem served_sound {n : Nat} {s : ServiceLoop} {l : LoopStep Queue Payload (Option Err)}
    (h : served n s l = true) : Served s l := by
  cases l with
  | start o => trivial
  | env e => trivial
  | kill i => cases h
  | run i c =>
    simp only [served, Bool.or_eq_true, decide_eq_true_eq] at h
    rcases h with ok | handler
    · exact .inl ok
    · right
      split at handler
      · next o data k hi => exact ⟨o, data, k, hi⟩
      · cases handler

/-- A state the schedule leads to, and what holds there. -/
theorem served_counts (ls : List (LoopStep Queue Payload (Option Err))) {P : ServiceLoop → Bool}
    (h : ((retryLoop service.runtime Queue.walletFundingDead).runsCount none (fun _ _ => 1) served ls
      LoopState.fresh 0).any (fun r => P r.1) = true) : ∃ t : ServiceLoop, ∃ n,
    (retryLoop service.runtime Queue.walletFundingDead).Counts none (fun _ _ => 1)
      (fun _ => Served) LoopState.fresh t n ∧ P t = true := by
  rw [Option.any_eq_true] at h
  obtain ⟨⟨t, n⟩, hr, after⟩ := h
  exact ⟨t, n, Machine.counts_of_runsCount (fun _ _ _ _ => served_sound) .refl hr, after⟩

/-- The third handler throws an error as well. -/
theorem buries_hopeless_iff_failed : ∃ t : ServiceLoop, t.Drained Queue.walletFundingDead ∧
    t.shared.Hopeless 0 ∧ t.shared.BuriesHopeless service.runtime 0 .walletFundingDead := by
  obtain ⟨t, n, counts, h⟩ := served_counts (failedTwice ++ attempted 2 (some 2) (some .p2025) 3)
    (P := fun t => t.idle ∧ (∀ x ∈ t.shared.waiting, x.queue = .walletFundingDead) ∧
      t.shared.outcomes 0 = [.error (some .unavailable), .error (some .unavailable),
        .error (some .p2025)]) (by decide +kernel)
  simp only [decide_eq_true_eq] at h
  obtain ⟨idle, dead, outcomes⟩ := h
  refine ⟨t, ⟨idle, dead⟩, ⟨_, _, _, outcomes⟩, ?_⟩
  refine ((buries_hopeless_iff service.runtime Queue.walletFundingDead none counts).2.2.2
    ⟨idle, dead⟩ 0).mpr fun err threw => ?_
  rw [outcomes] at threw
  cases threw
  rfl

/-- The third handler throws `undefined`, and the deposit is nowhere. -/
theorem hopeless_unburied : ¬ ∀ (t : ServiceLoop) (n : Nat),
    (retryLoop service.runtime Queue.walletFundingDead).Counts none (fun _ _ => 1)
      (fun _ => Served) LoopState.fresh t n → t.Drained Queue.walletFundingDead →
      ∀ a, t.shared.BuriesHopeless service.runtime a .walletFundingDead := by
  intro buriedAfterFailures
  obtain ⟨t, n, counts, h⟩ := served_counts (failedTwice ++ attempted 2 (some 2) none 0)
    (P := fun t => t.idle ∧ (∀ x ∈ t.shared.waiting, x.queue = .walletFundingDead) ∧
      t.shared.deadLetters 0 .walletFundingDead = [] ∧
      t.shared.outcomes 0 = [.error (some .unavailable), .error (some .unavailable), .error none])
    (by decide +kernel)
  simp only [decide_eq_true_eq] at h
  obtain ⟨idle, dead, unburied, outcomes⟩ := h
  obtain ⟨q, content, -, once⟩ := (buriedAfterFailures t n counts ⟨idle, dead⟩ 0).1 ⟨_, _, _, outcomes⟩
  rw [unburied] at once
  cases once

end Pactic
