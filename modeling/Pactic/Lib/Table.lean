import Mathlib.Algebra.BigOperators.Group.List.Basic
import Mathlib.Data.List.Nodup
import Mathlib.Tactic.Abel

/-! # Tables with a unique key

A table is a list of rows no two of which share a key, with the proof of that
as a field. Rows are inserted at the end and replaced in place, so neither
operation can break uniqueness. -/
namespace Keyed

structure Table {ρ κ : Type} (key : ρ → κ) where
  rows : List ρ
  unique : (rows.map key).Nodup

namespace Table
variable {ρ κ : Type} {key : ρ → κ}

@[ext] theorem ext {t u : Table key} (h : t.rows = u.rows) : t = u := by
  cases t; cases u; cases h; rfl

def empty : Table key := ⟨[], List.nodup_nil⟩

instance : EmptyCollection (Table key) := ⟨empty⟩

theorem eq_of_key (t : Table key) {r s : ρ} (hr : r ∈ t.rows) (hs : s ∈ t.rows)
    (h : key r = key s) : r = s := List.inj_on_of_nodup_map t.unique hr hs h

variable [DecidableEq κ]

def find? (t : Table key) (k : κ) : Option ρ := t.rows.find? fun r => key r = k

/-- Insert a row, unless its key is taken. -/
def insert? (t : Table key) (r : ρ) : Option (Table key) :=
  if h : key r ∈ t.rows.map key then none
  else some ⟨t.rows ++ [r], by
    rw [List.map_append, List.nodup_append]
    refine ⟨t.unique, by simp, ?_⟩
    rintro a ha b hb rfl
    simp only [List.map_cons, List.map_nil, List.mem_singleton] at hb
    exact h (hb ▸ ha)⟩

/-- Replace the row with the key of `r`, if there is one. -/
def put (t : Table key) (r : ρ) : Table key :=
  ⟨t.rows.map fun x => if key x = key r then r else x, by
    have e : (t.rows.map fun x => if key x = key r then r else x).map key = t.rows.map key := by
      rw [List.map_map]
      refine List.map_congr_left fun x _ => ?_
      simp only [Function.comp_apply]
      split
      · next h => exact h.symm
      · rfl
    rw [e]; exact t.unique⟩

/-- Drop the row with key `k`, if there is one. -/
def erase (t : Table key) (k : κ) : Table key :=
  ⟨t.rows.filter fun r => key r ≠ k, t.unique.sublist (List.filter_sublist.map _)⟩

/-- Change every row without touching its key. -/
def mapRows (t : Table key) (f : ρ → ρ) (h : ∀ r, key (f r) = key r) : Table key :=
  ⟨t.rows.map f, by rw [List.map_map, show key ∘ f = key from funext h]; exact t.unique⟩

theorem find?_eq_some {t : Table key} {k : κ} {r : ρ} :
    t.find? k = some r ↔ r ∈ t.rows ∧ key r = k := by
  constructor
  · intro h
    exact ⟨List.mem_of_find?_eq_some h, by simpa using List.find?_some h⟩
  · rintro ⟨hr, rfl⟩
    cases h : t.find? (key r) with
    | none => exact absurd (List.find?_eq_none.mp h r hr) (by simp)
    | some s =>
      have hs := List.mem_of_find?_eq_some h
      have hk : key s = key r := by simpa using List.find?_some h
      rw [t.eq_of_key hs hr hk]

theorem find?_of_nodup {rs : List ρ} (hn : (rs.map key).Nodup) {r : ρ} (hr : r ∈ rs) :
    rs.find? (fun x => key x = key r) = some r := by
  have : find? ⟨rs, hn⟩ (key r) = some r := find?_eq_some.mpr ⟨hr, rfl⟩
  exact this

/-- A key selects its row and nothing else. -/
theorem filter_of_nodup {rs : List ρ} (hn : (rs.map key).Nodup) {r : ρ} (hr : r ∈ rs) :
    rs.filter (fun x => key x = key r) = [r] := by
  induction rs with
  | nil => cases hr
  | cons x rs ih =>
    rw [List.map_cons, List.nodup_cons] at hn
    rcases List.mem_cons.mp hr with rfl | hr
    · rw [List.filter_cons_of_pos (by simp), List.filter_eq_nil_iff.mpr]
      intro y hy he
      exact hn.1 (List.mem_map.mpr ⟨y, hy, by simpa using he⟩)
    · have hne : key x ≠ key r := fun he => hn.1 (he ▸ List.mem_map_of_mem hr)
      rw [List.filter_cons_of_neg (by simpa using hne)]
      exact ih hn.2 hr

theorem find?_eq_none {t : Table key} {k : κ} : t.find? k = none ↔ ∀ r ∈ t.rows, key r ≠ k := by
  simp [find?]

theorem find?_isSome {t : Table key} {k : κ} :
    (t.find? k).isSome ↔ ∃ r ∈ t.rows, key r = k := by
  simp [find?]

theorem insert?_eq_some {t u : Table key} {r : ρ} :
    t.insert? r = some u ↔ t.find? (key r) = none ∧ u.rows = t.rows ++ [r] := by
  have hk : key r ∈ t.rows.map key ↔ ¬ t.find? (key r) = none := by
    rw [find?_eq_none, List.mem_map]; push Not; exact Iff.rfl
  unfold insert?
  split
  · next h => simp [hk.mp h]
  · next h =>
    rw [hk, not_not] at h
    simp only [Option.some.injEq, h, true_and]
    exact ⟨fun e => by rw [← e], fun e => ext e.symm⟩

theorem insert?_eq_none {t : Table key} {r : ρ} :
    t.insert? r = none ↔ ∃ s ∈ t.rows, key s = key r := by
  unfold insert?
  split
  · next h => simpa using h
  · next h => simpa using h

theorem mem_put {t : Table key} {r x : ρ} :
    x ∈ (t.put r).rows ↔ (x ∈ t.rows ∧ key x ≠ key r) ∨ (x = r ∧ ∃ y ∈ t.rows, key y = key r) := by
  simp only [put, List.mem_map]
  constructor
  · rintro ⟨y, hy, rfl⟩
    split
    · next h => exact .inr ⟨rfl, y, hy, h⟩
    · next h => exact .inl ⟨hy, h⟩
  · rintro (⟨hx, hk⟩ | ⟨rfl, y, hy, hk⟩)
    · exact ⟨x, hx, if_neg hk⟩
    · exact ⟨y, hy, if_pos hk⟩

theorem keys_put (t : Table key) (r : ρ) : (t.put r).rows.map key = t.rows.map key := by
  simp only [put, List.map_map]
  refine List.map_congr_left fun x _ => ?_
  simp only [Function.comp_apply]
  split
  · next h => exact h.symm
  · rfl

theorem put_put (t : Table key) {r s : ρ} (h : key r = key s) : (t.put r).put s = t.put s := by
  refine ext ?_
  simp only [put, List.map_map]
  refine List.map_congr_left fun x _ => ?_
  simp only [Function.comp_apply]
  by_cases hx : key x = key r
  · rw [if_pos hx, if_pos h, if_pos (hx.trans h)]
  · rw [if_neg hx]

theorem filter_put (t : Table key) (r : ρ) :
    ((t.put r).rows.filter fun x => key x ≠ key r) = t.rows.filter fun x => key x ≠ key r := by
  simp only [put]
  induction t.rows with
  | nil => rfl
  | cons x xs ih =>
    rw [List.map_cons]
    by_cases hx : key x = key r
    · rw [if_pos hx, List.filter_cons_of_neg (by simp), List.filter_cons_of_neg (by simp [hx]), ih]
    · rw [if_neg hx, List.filter_cons_of_pos (by simpa using hx),
        List.filter_cons_of_pos (by simpa using hx), ih]

/-- What is picked out of a table does not see the replacement of a row that is
not picked by one that is not picked either. -/
theorem filter_put_of_not {P : ρ → Prop} [DecidablePred P] {t : Table key} {r : ρ} (hr : ¬ P r)
    (hx : ∀ x ∈ t.rows, key x = key r → ¬ P x) :
    (t.put r).rows.filter P = t.rows.filter P := by
  have rows : ∀ xs : List ρ, (∀ x ∈ xs, key x = key r → ¬ P x) →
      (xs.map fun x => if key x = key r then r else x).filter P = xs.filter P := by
    intro xs hxs
    induction xs with
    | nil => rfl
    | cons x xs ih =>
      have rest := ih fun y hy => hxs y (.tail _ hy)
      rw [List.map_cons]
      by_cases he : key x = key r
      · have hnot := hxs x (.head _) he
        rw [if_pos he, List.filter_cons_of_neg (by simpa using hr),
          List.filter_cons_of_neg (by simpa using hnot), rest]
      · rw [if_neg he, List.filter_cons, List.filter_cons, rest]
  exact rows t.rows hx

theorem filter_foldl_put {P : ρ → Prop} [DecidablePred P] {rs : List ρ} {t : Table key}
    (h : ∀ r ∈ rs, ¬ P r ∧ ∀ x ∈ t.rows, key x = key r → ¬ P x) :
    (rs.foldl put t).rows.filter P = t.rows.filter P := by
  induction rs generalizing t with
  | nil => rfl
  | cons r rs ih =>
    obtain ⟨hr, hx⟩ := h r (.head _)
    rw [List.foldl_cons, ih fun s hs => ⟨(h s (.tail _ hs)).1, fun x hmem he => ?_⟩,
      filter_put_of_not hr hx]
    rcases mem_put.mp hmem with ⟨hmem, -⟩ | ⟨rfl, -⟩
    · exact (h s (.tail _ hs)).2 x hmem he
    · exact hr

/-- A row that is dropped in the end may be replaced before. -/
theorem insert?_put_erase (t : Table key) (r s : ρ) :
    ((t.put r).insert? s).map (·.erase (key r)) = (t.insert? s).map (·.erase (key r)) := by
  unfold insert?
  by_cases h : key s ∈ t.rows.map key
  · rw [dif_pos h, dif_pos (by rw [keys_put]; exact h)]
  · rw [dif_neg h, dif_neg (by rw [keys_put]; exact h)]
    simp only [Option.map_some, Option.some.injEq]
    refine ext ?_
    simp only [erase, List.filter_append, filter_put]

theorem find?_put (t : Table key) (r : ρ) (k : κ) :
    (t.put r).find? k = if key r = k then (t.find? k).map fun _ => r else t.find? k := by
  ext x
  split
  · next hk =>
    subst hk
    simp only [find?_eq_some, mem_put, Option.map_eq_some_iff]
    constructor
    · rintro ⟨⟨-, hne⟩ | ⟨rfl, y, hy, hk⟩, hx⟩
      · exact absurd hx hne
      · exact ⟨y, ⟨hy, hk⟩, rfl⟩
    · rintro ⟨y, ⟨hy, hk⟩, rfl⟩
      exact ⟨.inr ⟨rfl, y, hy, hk⟩, rfl⟩
  · next hk =>
    simp only [find?_eq_some, mem_put]
    constructor
    · rintro ⟨⟨hx, -⟩ | ⟨rfl, -⟩, hxk⟩
      · exact ⟨hx, hxk⟩
      · exact absurd hxk hk
    · rintro ⟨hx, rfl⟩
      exact ⟨.inl ⟨hx, fun h => hk h.symm⟩, rfl⟩

/-- A column that the new row agrees on does not change. -/
theorem map_put {γ : Type} (t : Table key) (r : ρ) (f : ρ → γ)
    (h : ∀ x ∈ t.rows, key x = key r → f x = f r) : (t.put r).rows.map f = t.rows.map f := by
  simp only [put, List.map_map]
  refine List.map_congr_left fun x hx => ?_
  simp only [Function.comp_apply]
  split
  · next hk => exact (h x hx hk).symm
  · rfl

/-- A sum over the rows moves by the difference at the replaced row. -/
theorem sum_put {M : Type} [AddCommGroup M] (t : Table key) (r x : ρ) (f : ρ → M)
    (hx : t.find? (key r) = some x) :
    ((t.put r).rows.map f).sum = (t.rows.map f).sum - f x + f r := by
  obtain ⟨hmem, hk⟩ := find?_eq_some.mp hx
  have aux : ∀ l : List ρ, (l.map key).Nodup → x ∈ l →
      ((l.map fun y => if key y = key r then r else y).map f).sum =
        (l.map f).sum - f x + f r := by
    intro l
    induction l with
    | nil => intro _ h; cases h
    | cons y l ih =>
      intro hn hm
      simp only [List.map_cons, List.nodup_cons, List.mem_map] at hn
      simp only [List.map_cons, List.sum_cons]
      rcases List.mem_cons.mp hm with rfl | hm
      · have rest : (l.map fun y => if key y = key r then r else y) = l := by
          refine (List.map_congr_left fun z hz => if_neg fun h => ?_).trans (List.map_id l)
          exact hn.1 ⟨z, hz, h.trans hk.symm⟩
        rw [if_pos hk, rest]; abel
      · have hy : ¬ key y = key r := fun h => hn.1 ⟨x, hm, hk.trans h.symm⟩
        rw [if_neg hy, ih hn.2 hm]; abel
  exact aux t.rows t.unique hmem

theorem find?_of_insert? {t u : Table key} {r : ρ} (h : t.insert? r = some u) (k : κ) :
    u.find? k = if key r = k then some r else t.find? k := by
  obtain ⟨hn, hu⟩ := insert?_eq_some.mp h
  rw [find?, hu, List.find?_append]
  split
  · next hk => rw [← hk, show t.rows.find? (fun x => key x = key r) = none from hn]; simp
  · next hk => simp [hk, find?]

/-- Several rows put one after the other: the one with the key, else the old. -/
theorem find?_foldl_put {rs : List ρ} {t : Table key} (hn : (rs.map key).Nodup)
    (hp : ∀ r ∈ rs, (t.find? (key r)).isSome) (k : κ) :
    (rs.foldl put t).find? k = (rs.find? fun r => key r = k).or (t.find? k) := by
  induction rs generalizing t with
  | nil => rfl
  | cons r rs ih =>
    simp only [List.map_cons, List.nodup_cons, List.mem_map] at hn
    have hp' : ∀ x ∈ rs, ((t.put r).find? (key x)).isSome := by
      intro x hx
      have := hp x (List.mem_cons_of_mem _ hx)
      rw [find?_put]; split <;> simpa using this
    rw [List.foldl_cons, ih hn.2 hp', find?_put, List.find?_cons]
    split
    · next hk =>
      have hr := hp r List.mem_cons_self
      rw [hk] at hr
      obtain ⟨x, hx⟩ := Option.isSome_iff_exists.mp hr
      have hnone : rs.find? (fun x => key x = k) = none := by
        rw [List.find?_eq_none]
        intro x hx he
        exact hn.1 ⟨x, hx, by simpa [hk] using he⟩
      simp [hk, hx, hnone]
    · next hk => simp [hk]

/-- What holds of a row and of all rows put holds of the row with its key afterwards. -/
theorem find?_foldl_put_of {P : ρ → Prop} {rs : List ρ} {t : Table key} {k : κ} (hrs : ∀ r ∈ rs, P r)
    (h : ∃ r, t.find? k = some r ∧ P r) : ∃ r, (rs.foldl put t).find? k = some r ∧ P r := by
  induction rs generalizing t with
  | nil => exact h
  | cons r rs ih =>
    refine ih (fun x hx => hrs x (.tail _ hx)) ?_
    obtain ⟨x, hx, hP⟩ := h
    by_cases hk : key r = k
    · exact ⟨r, by rw [find?_put, if_pos hk, hx, Option.map_some], hrs r (.head _)⟩
    · exact ⟨x, by rw [find?_put, if_neg hk, hx], hP⟩

/-- Inserting several rows puts them at the end. -/
theorem rows_of_foldlM_insert? {rs : List ρ} {t u : Table key}
    (h : rs.foldlM insert? t = some u) : u.rows = t.rows ++ rs := by
  induction rs generalizing t with
  | nil => simp only [List.foldlM_nil, Option.pure_def, Option.some.injEq] at h; simp [h]
  | cons r rs ih =>
    simp only [List.foldlM_cons, Option.bind_eq_bind, Option.bind_eq_some_iff] at h
    obtain ⟨v, hv, hu⟩ := h
    rw [ih hu, (insert?_eq_some.mp hv).2, List.append_assoc, List.singleton_append]

/-- Rows with keys of their own are refused only where one of them is there. -/
theorem exists_of_foldlM_insert?_eq_none {rs : List ρ} {t : Table key}
    (hn : (rs.map key).Nodup) (h : rs.foldlM insert? t = none) :
    ∃ r ∈ rs, ∃ x ∈ t.rows, key x = key r := by
  induction rs generalizing t with
  | nil => cases h
  | cons r rs ih =>
    obtain ⟨fresh, hn⟩ := List.nodup_cons.mp hn
    cases hr : t.insert? r with
    | none => exact ⟨r, .head _, insert?_eq_none.mp hr⟩
    | some u =>
      simp only [List.foldlM_cons, hr, Option.bind_eq_bind, Option.bind_some] at h
      obtain ⟨y, hy, x, hx, he⟩ := ih hn h
      rw [(insert?_eq_some.mp hr).2, List.mem_append, List.mem_singleton] at hx
      rcases hx with hx | rfl
      · exact ⟨y, .tail _ hy, x, hx, he⟩
      · exact absurd (he ▸ List.mem_map_of_mem hy) fresh

/-! ## Partial indices -/

/-- Among the rows with `P`, no two agree on `f`. -/
def UniqueOn {γ : Type} (t : Table key) (P : ρ → Prop) (f : ρ → γ) : Prop :=
  ∀ x ∈ t.rows, ∀ y ∈ t.rows, P x → P y → f x = f y → x = y

section
variable {γ : Type} {t u : Table key} {P : ρ → Prop} {f : ρ → γ} {r : ρ}

theorem UniqueOn.put (h : t.UniqueOn P f)
    (hr : P r → ∀ y ∈ t.rows, key y ≠ key r → P y → f y ≠ f r) : (t.put r).UniqueOn P f := by
  intro x hx y hy px py he
  rcases mem_put.mp hx with ⟨hxt, hxk⟩ | ⟨rfl, -⟩
  · rcases mem_put.mp hy with ⟨hyt, -⟩ | ⟨rfl, -⟩
    · exact h x hxt y hyt px py he
    · exact absurd he (hr py x hxt hxk px)
  · rcases mem_put.mp hy with ⟨hyt, hyk⟩ | ⟨rfl, -⟩
    · exact absurd he.symm (hr px y hyt hyk py)
    · rfl

theorem UniqueOn.insert (h : t.UniqueOn P f) (ins : t.insert? r = some u)
    (hr : P r → ∀ y ∈ t.rows, P y → f y ≠ f r) : u.UniqueOn P f := by
  intro x hx y hy px py he
  rw [(insert?_eq_some.mp ins).2, List.mem_append, List.mem_singleton] at hx hy
  rcases hx with hxt | rfl
  · rcases hy with hyt | rfl
    · exact h x hxt y hyt px py he
    · exact absurd he (hr py x hxt px)
  · rcases hy with hyt | rfl
    · exact absurd he.symm (hr px y hyt py)
    · rfl

end

end Table
end Keyed
