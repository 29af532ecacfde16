import Mathlib.Data.Int.Notation
import Mathlib.Data.List.Basic

/-! # JavaScript's `parseInt`

`parseInt` without a radix skips white space, reads a sign and a `0x`, and then
as many digits as there are; what follows does not matter. Where there is no
digit the result is `NaN`, which is `none` here. Numbers stay exact: JavaScript
rounds them from 2^53 on.

A printed number is read back, whatever follows it, unless that goes on as a
number does. -/
namespace JavaScript

/-- `WhiteSpace` and `LineTerminator` of the language. -/
def whiteSpace : List Nat :=
  [0x9, 0xA, 0xB, 0xC, 0xD, 0x20, 0xA0, 0x1680, 0x2000, 0x2001, 0x2002, 0x2003, 0x2004, 0x2005,
    0x2006, 0x2007, 0x2008, 0x2009, 0x200A, 0x2028, 0x2029, 0x202F, 0x205F, 0x3000, 0xFEFF]

/-- The value of a digit; the letters go on from ten. -/
def digit (c : Char) : Option Nat :=
  if c.isDigit then some (c.toNat - '0'.toNat)
  else if c.isLower then some (c.toNat - 'a'.toNat + 10)
  else if c.isUpper then some (c.toNat - 'A'.toNat + 10)
  else none

/-- As many digits as there are. -/
def digits (radix : Nat) : List Char → List Nat
  | [] => []
  | c :: rest => match digit c with
    | some d => if d < radix then d :: digits radix rest else []
    | none => []

def parseDigits (radix : Nat) (l : List Char) : Option Nat :=
  match digits radix l with
  | [] => none
  | ds => some (ds.foldl (fun n d => radix * n + d) 0)

def parseUnsigned : List Char → Option Nat
  | '0' :: 'x' :: rest => parseDigits 16 rest
  | '0' :: 'X' :: rest => parseDigits 16 rest
  | l => parseDigits 10 l

def parseSigned : List Char → Option Int
  | '-' :: rest => (parseUnsigned rest).map fun (n : Nat) => -Int.ofNat n
  | '+' :: rest => (parseUnsigned rest).map Int.ofNat
  | l => (parseUnsigned l).map Int.ofNat

def parseInt (s : String) : Option Int :=
  parseSigned (s.toList.dropWhile fun c => c.toNat ∈ whiteSpace)

section
variable {c : Char} {n : Nat} {l rest : List Char}

theorem digit_of_isDigit (h : c.isDigit) : digit c = some (c.toNat - '0'.toNat) := if_pos h

theorem digit_lt_ten (h : c.isDigit) : c.toNat - '0'.toNat < 10 := by
  have bounds := h
  simp only [Char.isDigit, Bool.and_eq_true, decide_eq_true_eq] at bounds
  have high : c.toNat ≤ 57 := bounds.2
  have zero : '0'.toNat = 48 := rfl
  omega

/-- Digits are read up to what is none. -/
theorem digits_append (hl : ∀ c ∈ l, c.isDigit) (hrest : digits 10 rest = []) :
    digits 10 (l ++ rest) = l.map fun c => c.toNat - '0'.toNat := by
  induction l with
  | nil => simpa using hrest
  | cons c l ih =>
    have first : c.isDigit := hl c (.head _)
    have later := ih fun d hd => hl d (.tail _ hd)
    simp only [List.cons_append, digits, digit_of_isDigit first, if_pos (digit_lt_ten first), later,
      List.map_cons]

theorem parseDigits_append (hl : ∀ c ∈ l, c.isDigit) (hne : l ≠ []) (hrest : digits 10 rest = []) :
    parseDigits 10 (l ++ rest) = some (Nat.ofDigitChars 10 l 0) := by
  have value : Nat.ofDigitChars 10 l 0 =
      (l.map fun c => c.toNat - '0'.toNat).foldl (fun n d => 10 * n + d) 0 := by
    rw [Nat.ofDigitChars_eq_foldl, List.foldl_map]
  rw [parseDigits, digits_append hl hrest, value]
  cases l with
  | nil => exact absurd rfl hne
  | cons c l => rfl

/-- Nothing that goes on as a number does. -/
def Ends (rest : List Char) : Prop :=
  digits 10 rest = [] ∧ ∀ c l, rest = c :: l → c ≠ 'x' ∧ c ≠ 'X'

theorem Ends.nil : Ends [] := ⟨rfl, fun _ _ h => by cases h⟩

/-- Digits are no prefix of another notation. -/
theorem parseUnsigned_append (hl : ∀ c ∈ l, c.isDigit) (hne : l ≠ []) (hrest : Ends rest) :
    parseUnsigned (l ++ rest) = some (Nat.ofDigitChars 10 l 0) := by
  have decimal : parseUnsigned (l ++ rest) = parseDigits 10 (l ++ rest) := by
    have plain (x : Char) (tail : List Char) (hx : x = 'x' ∨ x = 'X') : l ++ rest ≠ '0' :: x :: tail := by
      intro he
      obtain ⟨c, l, rfl⟩ := List.exists_cons_of_ne_nil hne
      simp only [List.cons_append, List.cons.injEq] at he
      cases l with
      | nil =>
        obtain ⟨small, large⟩ := hrest.2 x tail he.2
        exact hx.elim small large
      | cons d l =>
        obtain rfl : d = x := (List.cons.inj he.2).1
        have isDigit := hl d (.tail _ (.head _))
        rcases hx with rfl | rfl <;> cases isDigit
    unfold parseUnsigned
    split
    · next he => exact absurd he (plain _ _ (.inl rfl))
    · next he => exact absurd he (plain _ _ (.inr rfl))
    · rfl
  rw [decimal, parseDigits_append hl hne hrest.1]

theorem digits_toList_repr (n : Nat) : (∀ c ∈ n.repr.toList, c.isDigit) ∧ n.repr.toList ≠ [] ∧
    Nat.ofDigitChars 10 n.repr.toList 0 = n := by
  rw [Nat.toList_repr]
  exact ⟨fun c hc => Nat.isDigit_of_mem_toDigits (by omega) (by omega) hc, Nat.toDigits_ne_nil,
    Nat.ofDigitChars_ten_toDigits⟩

theorem parseUnsigned_repr (n : Nat) (hrest : Ends rest) :
    parseUnsigned (n.repr.toList ++ rest) = some n := by
  obtain ⟨hdigits, hne, value⟩ := digits_toList_repr n
  rw [parseUnsigned_append hdigits hne hrest, value]

/-- A digit is neither white space nor a sign. -/
theorem digit_starts (h : c.isDigit) : c.toNat ∉ whiteSpace ∧ c ≠ '-' ∧ c ≠ '+' := by
  have bounds := h
  simp only [Char.isDigit, Bool.and_eq_true, decide_eq_true_eq] at bounds
  have low : 48 ≤ c.toNat := bounds.1
  have high : c.toNat ≤ 57 := bounds.2
  refine ⟨?_, ?_, ?_⟩
  · simp only [whiteSpace, List.mem_cons, List.not_mem_nil, or_false]
    omega
  · intro he
    cases he
    cases h
  · intro he
    cases he
    cases h

theorem parseSigned_digits (hl : ∀ c ∈ l, c.isDigit) (hne : l ≠ []) (rest : List Char) :
    parseSigned (l ++ rest) = (parseUnsigned (l ++ rest)).map Int.ofNat := by
  obtain ⟨c, l, rfl⟩ := List.exists_cons_of_ne_nil hne
  obtain ⟨-, minus, plus⟩ := digit_starts (hl c (.head _))
  rw [List.cons_append]
  unfold parseSigned
  split
  · next he => exact absurd (List.cons.inj he).1 minus
  · next he => exact absurd (List.cons.inj he).1 plus
  · rfl

/-- A printed number is read back, up to what follows it. -/
theorem parseInt_append (n : Int) (s : String) (hs : Ends s.toList) :
    parseInt (toString n ++ s) = some n := by
  have start (c : Char) (l : List Char) (hc : c.toNat ∉ whiteSpace) :
      (c :: l).dropWhile (fun c => c.toNat ∈ whiteSpace) = c :: l :=
    List.dropWhile_cons_of_neg (by simpa using hc)
  rw [Int.toString_eq_repr, Int.repr_eq_if, parseInt, String.toList_append]
  split
  · obtain ⟨hdigits, hne, -⟩ := digits_toList_repr n.toNat
    obtain ⟨c, l, he⟩ := List.exists_cons_of_ne_nil hne
    have first := (digit_starts (hdigits c (he ▸ .head _))).1
    have skipped : (n.toNat.repr.toList ++ s.toList).dropWhile (fun c => c.toNat ∈ whiteSpace) =
        n.toNat.repr.toList ++ s.toList := by
      rw [he, List.cons_append, start _ _ first]
    rw [skipped, parseSigned_digits hdigits hne, parseUnsigned_repr _ hs, Option.map_some]
    congr 1
    simp only [Int.ofNat_eq_natCast]
    omega
  · have minus : ('-' : Char).toNat ∉ whiteSpace := by decide
    have printed : ("-" ++ (-n).toNat.repr).toList ++ s.toList =
        '-' :: ((-n).toNat.repr.toList ++ s.toList) := by rw [String.toList_append]; rfl
    rw [printed, start _ _ minus, parseSigned, parseUnsigned_repr _ hs, Option.map_some]
    congr 1
    simp only [Int.ofNat_eq_natCast]
    omega

/-- What was printed is read back. -/
theorem parseInt_toString (n : Int) : parseInt (toString n) = some n := by
  have whole := parseInt_append n "" .nil
  rwa [String.append_empty] at whole

end

example : parseInt " -12.5" = some (-12) ∧ parseInt "0x1f" = some 31 ∧ parseInt "page" = none := by
  decide

end JavaScript
