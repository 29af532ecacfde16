import Mathlib.Data.List.Nodup
import Mathlib.Data.List.Sort
import Mathlib.Order.Basic

/-! # Pages of sorted rows

A query sorts rows by a key, largest first, and may put rows with the same key
in any order. A page is a slice of what one query returns, and the next page
comes from the next query. A cut through rows with the same key may fall
differently in each of them; `pages_perm` and `cut_of_pages_perm` say that
nothing else can go wrong. Rows that are added in between can only repeat what
was shown, not hide it: `walk_complete`. -/
namespace Paging

/-- The rows as one query may return them. -/
structure Arrangement {ρ κ : Type} [LE κ] (key : ρ → κ) (rows : List ρ) where
  list : List ρ
  perm : list.Perm rows
  sorted : list.Pairwise fun x y => key y ≤ key x

section
variable {ρ κ : Type} [LinearOrder κ] {key : ρ → κ} {rows : List ρ}

def Arrangement.slice (a : Arrangement key rows) (skip take : Nat) : List ρ :=
  (a.list.drop skip).take take

theorem Arrangement.length (a : Arrangement key rows) : a.list.length = rows.length :=
  a.perm.length_eq

theorem Arrangement.slice_eq_nil {a : Arrangement key rows} {skip take : Nat}
    (h : rows.length ≤ skip) : a.slice skip take = [] := by
  rw [slice, List.drop_eq_nil_of_le (a.length.trans_le h), List.take_nil]

theorem Arrangement.take_append_slice (a : Arrangement key rows) (skip take : Nat) :
    a.list.take skip ++ a.slice skip take = a.list.take (skip + take) := List.take_add.symm

variable (key rows) in
/-- After `n` rows there is nothing left, or the key goes down. -/
def Cut (n : Nat) : Prop := rows.length ≤ n ∨ n = 0 ∨ ∃ v, rows.countP (fun r => v ≤ key r) = n

/-- The rows from `v` on come first. -/
theorem filter_eq_take {l : List ρ} (h : l.Pairwise fun x y => key y ≤ key x) (v : κ) :
    l.filter (fun r => v ≤ key r) = l.take (l.countP fun r => v ≤ key r) := by
  induction h with
  | nil => rfl
  | @cons x l hx _ ih =>
    by_cases hv : v ≤ key x
    · rw [List.filter_cons_of_pos (by simpa using hv), List.countP_cons_of_pos (by simpa using hv),
        List.take_succ_cons, ih]
    · have below : ∀ y ∈ x :: l, ¬ v ≤ key y := by
        intro y hy
        rcases List.mem_cons.mp hy with rfl | hy
        · exact hv
        · exact fun hle => hv (hle.trans (hx y hy))
      have none : (x :: l).countP (fun r => v ≤ key r) = 0 :=
        List.countP_eq_zero.mpr fun y hy => by simpa using below y hy
      rw [none, List.take_zero]
      exact List.filter_eq_nil_iff.mpr fun y hy => by simpa using below y hy

/-- Before a cut all queries have the same rows. -/
theorem Cut.take_perm {n : Nat} (h : Cut key rows n) (a b : Arrangement key rows) :
    (a.list.take n).Perm (b.list.take n) := by
  rcases h with hlen | rfl | ⟨v, rfl⟩
  · rw [List.take_of_length_le (a.length.trans_le hlen),
      List.take_of_length_le (b.length.trans_le hlen)]
    exact a.perm.trans b.perm.symm
  · rw [List.take_zero, List.take_zero]
  · have same (c : Arrangement key rows) :
        c.list.take (rows.countP fun r => v ≤ key r) = c.list.filter fun r => v ≤ key r := by
      rw [filter_eq_take c.sorted v, c.perm.countP_eq]
    rw [same a, same b]
    exact (a.perm.trans b.perm.symm).filter _

/-- Between two cuts, too. -/
theorem slice_perm {m n : Nat} (hm : Cut key rows m) (hn : Cut key rows (m + n))
    (a b : Arrangement key rows) : (a.slice m n).Perm (b.slice m n) := by
  have whole := hn.take_perm a b
  rw [← a.take_append_slice, ← b.take_append_slice] at whole
  exact (List.perm_append_left_iff _).mp
    (((hm.take_perm a b).symm.append_right _).trans whole)

/-- The first `n` pages, one after the other, each from a query of its own. -/
def pages (limit : Nat) (as : Nat → Arrangement key rows) (n : Nat) : List ρ :=
  (List.range n).flatMap fun k => (as k).slice (k * limit) limit

section
variable {limit : Nat} {as : Nat → Arrangement key rows}

theorem pages_succ (n : Nat) :
    pages limit as (n + 1) = pages limit as n ++ (as n).slice (n * limit) limit := by
  rw [pages, List.range_succ, List.flatMap_append, List.flatMap_singleton]
  rfl

theorem pages_sublist {k n : Nat} (h : k ≤ n) : (pages limit as k).Sublist (pages limit as n) := by
  induction h with
  | refl => exact .refl _
  | step _ ih =>
    rw [pages_succ]
    exact ih.trans (List.sublist_append_left _ _)

/-- Pages of one query are what it returns. -/
theorem pages_eq_take {a : Arrangement key rows} {n : Nat} (h : ∀ k < n, as k = a) :
    pages limit as n = a.list.take (n * limit) := by
  induction n with
  | zero => rw [Nat.zero_mul, List.take_zero]; rfl
  | succ n ih =>
    rw [pages_succ, ih fun k hk => h k (by omega), h n (by omega), a.take_append_slice,
      Nat.succ_mul]

/-- Where every boundary is a cut, the pages have the first rows of any query. -/
theorem pages_perm (h : ∀ k, Cut key rows (k * limit)) (a : Arrangement key rows) (n : Nat) :
    (pages limit as n).Perm (a.list.take (n * limit)) := by
  induction n with
  | zero => rw [Nat.zero_mul, List.take_zero]; exact .refl _
  | succ n ih =>
    have next := h (n + 1)
    rw [Nat.succ_mul] at next ⊢
    rw [pages_succ, ← a.take_append_slice]
    exact ih.append (slice_perm (h n) next _ _)

/-- And they are sorted. -/
theorem pages_sorted (h : ∀ k, Cut key rows (k * limit)) (n : Nat) :
    (pages limit as n).Pairwise fun x y => key y ≤ key x := by
  induction n with
  | zero => exact .nil
  | succ n ih =>
    rw [pages_succ]
    have sorted := (as n).sorted
    rw [← List.take_append_drop (n * limit) (as n).list] at sorted
    obtain ⟨-, later, across⟩ := List.pairwise_append.mp sorted
    refine List.pairwise_append.mpr ⟨ih, later.sublist (List.take_sublist _ _), fun x hx y hy => ?_⟩
    exact across x ((pages_perm h (as n) n).mem_iff.mp hx) y (List.mem_of_mem_take hy)

end

/-! ## Where a boundary is no cut -/

/-- Where the key goes down from one row to the next there is a cut. -/
theorem cut_of_lt (a : Arrangement key rows) {n : Nat} {x y : ρ} {l r : List ρ}
    (ha : a.list = l ++ x :: y :: r) (hn : n = l.length + 1) (h : key y < key x) : Cut key rows n := by
  have sorted := a.sorted
  rw [ha] at sorted
  obtain ⟨-, rest, across⟩ := List.pairwise_append.mp sorted
  obtain ⟨-, rest⟩ := List.pairwise_cons.mp rest
  obtain ⟨below, -⟩ := List.pairwise_cons.mp rest
  have high : l.countP (fun r => key x ≤ key r) = l.length :=
    List.countP_eq_length.mpr fun z hz => by simpa using across z hz x (.head _)
  have low : (y :: r).countP (fun r => key x ≤ key r) = 0 := by
    refine List.countP_eq_zero.mpr fun z hz => ?_
    rcases List.mem_cons.mp hz with rfl | hz
    · simpa using h
    · simpa using (below z hz).trans_lt h
  refine .inr (.inr ⟨key x, ?_⟩)
  rw [← a.perm.countP_eq, ha, List.countP_append, List.countP_cons_of_pos (by simp), high, low]
  omega

/-- Two neighbours with the same key may change places. -/
def Arrangement.swap (a : Arrangement key rows) {x y : ρ} {l r : List ρ}
    (ha : a.list = l ++ x :: y :: r) (h : key x ≤ key y) : Arrangement key rows where
  list := l ++ y :: x :: r
  perm := ((List.Perm.swap x y r).append_left l).trans (ha ▸ a.perm)
  sorted := by
    have sorted := a.sorted
    rw [ha] at sorted
    obtain ⟨left, rest, across⟩ := List.pairwise_append.mp sorted
    obtain ⟨hx, rest⟩ := List.pairwise_cons.mp rest
    obtain ⟨hy, right⟩ := List.pairwise_cons.mp rest
    refine List.pairwise_append.mpr ⟨left, .cons (fun z hz => ?_) (.cons (fun z hz => ?_) right),
      fun u hu z hz => across u hu z ((List.Perm.swap x y r).mem_iff.mp hz)⟩
    · rcases List.mem_cons.mp hz with rfl | hz
      · exact h
      · exact hy z hz
    · exact hx z (.tail _ hz)

/-- The rows in one order a query may choose. -/
def Arrangement.sort (key : ρ → κ) (rows : List ρ) : Arrangement key rows where
  list := rows.insertionSort fun x y => key y ≤ key x
  perm := List.perm_insertionSort _ _
  sorted := by
    have : Std.Total fun x y : ρ => key y ≤ key x := ⟨fun x y => le_total (key y) (key x)⟩
    have : IsTrans ρ fun x y => key y ≤ key x := ⟨fun x y z hxy hyz => hyz.trans hxy⟩
    exact List.pairwise_insertionSort _ _

/-- If pages have every row once whatever the queries choose, then every boundary
between them is a cut: else a row on one side of it comes again on the other. -/
theorem cut_of_pages_perm {limit n : Nat} (hn : rows.Nodup) (hlen : rows.length ≤ n * limit)
    (h : ∀ as : Nat → Arrangement key rows, (pages limit as n).Perm rows) (k : Nat) :
    Cut key rows (k * limit) := by
  let a := Arrangement.sort key rows
  by_cases hend : rows.length ≤ k * limit
  · exact .inl hend
  by_cases hzero : k * limit = 0
  · exact .inr (.inl hzero)
  have hk : k < n := by
    by_contra hc
    exact hend (hlen.trans (Nat.mul_le_mul_right _ (not_lt.mp hc)))
  have hlimit : 0 < limit := Nat.pos_of_ne_zero fun h0 => hzero (by rw [h0, Nat.mul_zero])
  have len := a.length
  obtain ⟨x, y, l, r, ha, hl⟩ : ∃ x y l r, a.list = l ++ x :: y :: r ∧ k * limit = l.length + 1 := by
    refine ⟨a.list[k * limit - 1], a.list[k * limit], a.list.take (k * limit - 1),
      a.list.drop (k * limit + 1), ?_, ?_⟩
    · have hs : k * limit - 1 + 1 = k * limit := by omega
      have first := List.drop_eq_getElem_cons (l := a.list) (i := k * limit - 1) (by omega)
      have second := List.drop_eq_getElem_cons (l := a.list) (i := k * limit) (by omega)
      rw [hs, second] at first
      rw [← first, List.take_append_drop]
    · rw [List.length_take]
      omega
  by_contra hc
  have same : key x ≤ key y := not_lt.mp fun hlt => hc (cut_of_lt a ha hl hlt)
  let b := a.swap ha same
  let as : Nat → Arrangement key rows := fun p => if p < k then a else b
  have before : pages limit as k = l ++ [x] := by
    rw [pages_eq_take fun p hp => if_pos hp, ha, hl, List.take_length_add_append]
    rfl
  have after : x ∈ (as k).slice (k * limit) limit := by
    have hb : (as k).list = (l ++ [y]) ++ x :: r := by
      rw [show as k = b from if_neg (lt_irrefl k)]
      show l ++ y :: x :: r = _
      simp
    have hd : (as k).list.drop (k * limit) = x :: r := by
      rw [hb, hl]
      exact List.drop_left' (by simp)
    rw [Arrangement.slice, hd]
    obtain ⟨m, rfl⟩ := Nat.exists_eq_succ_of_ne_zero hlimit.ne'
    exact .head _
  have nodup : (pages limit as (k + 1)).Nodup :=
    (pages_sublist hk).nodup ((h as).nodup_iff.mpr hn)
  rw [pages_succ, before] at nodup
  exact (List.disjoint_of_nodup_append nodup) (by simp) after

/-! ## While rows are added -/

/-- As many rows with a larger key as there are in front of a cut keep a row
behind it, whatever is added. -/
theorem not_mem_take {a : Arrangement key rows} {r : ρ} {n : Nat}
    (h : n ≤ rows.countP fun x => key r < key x) : r ∉ a.list.take n := by
  intro hr
  have sorted := a.sorted
  rw [← List.take_append_drop n a.list] at sorted
  obtain ⟨-, -, across⟩ := List.pairwise_append.mp sorted
  have behind : (a.list.drop n).countP (fun x => key r < key x) = 0 :=
    List.countP_eq_zero.mpr fun x hx => by simpa using across r hr x hx
  have front : (a.list.take n).countP (fun x => key r < key x) < (a.list.take n).length := by
    refine lt_of_le_of_ne List.countP_le_length fun he => ?_
    have self := List.countP_eq_length.mp he r hr
    simp at self
  have all : rows.countP (fun x => key r < key x) =
      (a.list.take n).countP (fun x => key r < key x) +
        (a.list.drop n).countP fun x => key r < key x := by
    rw [← a.perm.countP_eq, ← List.countP_append, List.take_append_drop]
  have len := List.length_take_le n a.list
  omega

/-- What is not in front of a cut has that many rows before it. -/
theorem Cut.le_countP {n : Nat} {r : ρ} (h : Cut key rows n) (a : Arrangement key rows)
    (hr : r ∈ rows) (hn : r ∉ a.list.take n) : n ≤ rows.countP fun x => key r < key x := by
  rcases h with hlen | rfl | ⟨v, rfl⟩
  · rw [List.take_of_length_le (a.length.trans_le hlen)] at hn
    exact absurd (a.perm.mem_iff.mpr hr) hn
  · exact Nat.zero_le _
  · refine List.countP_mono_left fun x _ hx => ?_
    have front : a.list.take (rows.countP fun r => v ≤ key r) = a.list.filter fun r => v ≤ key r := by
      rw [filter_eq_take a.sorted v, a.perm.countP_eq]
    rw [front, List.mem_filter] at hn
    have below : key r < v := not_le.mp fun hv => hn ⟨a.perm.mem_iff.mpr hr, by simpa using hv⟩
    simp only [decide_eq_true_eq] at hx ⊢
    exact below.trans_le hx

theorem mem_of_grow {rows : Nat → List ρ} (grow : ∀ k, (rows k).Sublist (rows (k + 1))) {r : ρ}
    (hr : r ∈ rows 0) (k : Nat) : r ∈ rows k := by
  induction k with
  | zero => exact hr
  | succ k ih => exact (grow k).subset ih

/-- A row that the pages so far have not shown is not in front of the next one,
as long as the boundaries between them were cuts when they were read. -/
theorem unseen_not_mem_take {limit : Nat} {rows : Nat → List ρ}
    {as : ∀ k, Arrangement key (rows k)} (grow : ∀ k, (rows k).Sublist (rows (k + 1))) {r : ρ}
    (hr : r ∈ rows 0) {n : Nat} (cut : ∀ k < n, Cut key (rows k) ((k + 1) * limit))
    (unseen : ∀ k < n, r ∉ (as k).slice (k * limit) limit) : r ∉ (as n).list.take (n * limit) := by
  refine not_mem_take ?_
  -- Rows with a larger key are never lost, so they count for the next page as well.
  induction n with
  | zero => simp
  | succ n ih =>
    have before := ih (fun k hk => cut k (by omega)) fun k hk => unseen k (by omega)
    have later : r ∉ (as n).list.take ((n + 1) * limit) := by
      rw [Nat.succ_mul, ← (as n).take_append_slice, List.mem_append]
      exact fun h => h.elim (not_mem_take before) (unseen n (by omega))
    exact ((cut n (by omega)).le_countP (as n) (mem_of_grow grow hr n) later).trans
      (grow n).countP_le

/-- So pages that reach the end have shown all rows that were there at first. -/
theorem walk_complete {limit : Nat} {rows : Nat → List ρ} (as : ∀ k, Arrangement key (rows k))
    (grow : ∀ k, (rows k).Sublist (rows (k + 1))) {n : Nat}
    (cut : ∀ k < n, Cut key (rows k) ((k + 1) * limit)) (last : (rows n).length ≤ (n + 1) * limit)
    {r : ρ} (hr : r ∈ rows 0) : ∃ k ≤ n, r ∈ (as k).slice (k * limit) limit := by
  by_contra none
  have unseen : ∀ k ≤ n, r ∉ (as k).slice (k * limit) limit := fun k hk hm => none ⟨k, hk, hm⟩
  have front := unseen_not_mem_take grow hr cut fun k hk => unseen k hk.le
  have listed : r ∈ (as n).list.take ((n + 1) * limit) := by
    rw [List.take_of_length_le ((as n).length.trans_le last)]
    exact (as n).perm.mem_iff.mpr (mem_of_grow grow hr n)
  rw [Nat.succ_mul, ← (as n).take_append_slice, List.mem_append] at listed
  exact listed.elim front (unseen n le_rfl)

end
end Paging
