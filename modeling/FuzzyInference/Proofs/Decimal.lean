import Mathlib.Data.List.TakeDrop
import FuzzyInference.Decimal.Shortest

/-!
# Numerals

The digits of a natural number can be read back, and they are a **numeral**:
there is a digit, and no zero stands in front of another digit
(`Digit.IsNumeral`). Where a number is written with a decimal point, what
stands before the point is a numeral too (`Decimal.isNumeral_positional`),
unless the number is zero. The decimals that are written for positive numbers
are not (`Dyadic.significand_shortest_pos`).
-/

namespace FuzzyInference

namespace Digit

/-- A digit is the digit of its character. -/
@[simp] theorem ofChar?_char : ∀ d : Digit, ofChar? d.char = some d := by decide

theorem isDigit_char : ∀ d : Digit, d.char.isDigit = true := by decide

theorem char_ne_minus : ∀ d : Digit, d.char ≠ '-' := by decide

theorem toNat_concat (ds : List Digit) (d : Digit) :
    toNat (ds ++ [d]) = 10 * toNat ds + d.val := by
  rw [toNat, List.foldl_append]
  rfl

/-- **The digits of a natural number** denote it. -/
@[simp] theorem toNat_ofNat (n : Nat) : toNat (ofNat n) = n := by
  induction n using ofNat.induct with
  | case1 n h =>
    rw [ofNat, if_pos h]
    show 10 * 0 + n % 10 = n
    omega
  | case2 n h ih =>
    rw [ofNat, if_neg h, toNat_concat, ih]
    show 10 * (n / 10) + n % 10 % 10 = n
    omega

/-- **A numeral** has a digit, and no zero in front of another digit. -/
structure IsNumeral (ds : List Digit) : Prop where
  /-- There is a digit. -/
  ne_nil : ds ≠ []
  /-- A zero in front is all there is. -/
  eq_zero : ∀ {d more}, ds = 0 :: d :: more → False

theorem isNumeral_singleton (d : Digit) : IsNumeral [d] :=
  ⟨List.cons_ne_nil _ _, fun h => by cases h⟩

/-- Digits that do not begin with a zero are a numeral. -/
theorem isNumeral_cons {d : Digit} (hd : d ≠ 0) (more : List Digit) : IsNumeral (d :: more) :=
  ⟨List.cons_ne_nil _ _, fun h => hd (List.cons.inj h).1⟩

/-- **A number that is not zero** does not begin with a zero. -/
theorem exists_ofNat_eq_cons {n : Nat} (hn : 0 < n) :
    ∃ d more, ofNat n = d :: more ∧ d ≠ 0 := by
  induction n using ofNat.induct with
  | case1 n h =>
    refine ⟨Fin.ofNat 10 n, [], by rw [ofNat, if_pos h], fun heq => ?_⟩
    have hzero : n % 10 = 0 := congrArg Fin.val heq
    omega
  | case2 n h ih =>
    obtain ⟨d, more, hdigits, hd⟩ := ih (by omega)
    exact ⟨d, more ++ [Fin.ofNat 10 (n % 10)], by rw [ofNat, if_neg h, hdigits]; rfl, hd⟩

/-- **The digits of a natural number** are a numeral. -/
theorem isNumeral_ofNat (n : Nat) : IsNumeral (ofNat n) := by
  rcases Nat.eq_zero_or_pos n with rfl | hn
  · rw [ofNat, if_pos (by decide)]
    exact isNumeral_singleton _
  · obtain ⟨d, more, hdigits, hd⟩ := exists_ofNat_eq_cons hn
    rw [hdigits]
    exact isNumeral_cons hd more

end Digit

namespace Decimal

variable {d : Decimal}

/-- **What stands before the decimal point** is a numeral. -/
theorem isNumeral_positional (hd : 0 < d.significand) : Digit.IsNumeral d.positional.1 := by
  obtain ⟨digit, more, hdigits, hdigit⟩ := Digit.exists_ofNat_eq_cons hd
  unfold positional
  rw [hdigits]
  cases d.exponent with
  | ofNat zeros => exact Digit.isNumeral_cons hdigit _
  | negSucc k =>
    simp only
    split
    · next hlt =>
      obtain ⟨places, hplaces⟩ := Nat.exists_eq_succ_of_ne_zero (Nat.sub_ne_zero_of_lt hlt)
      rw [hplaces, List.splitAt_eq]
      exact Digit.isNumeral_cons hdigit _
    · exact Digit.isNumeral_singleton 0

/-- A decimal that is not zero is none with the largest unit. -/
theorem significand_normalize_pos (hd : 0 < d.significand) : 0 < d.normalize.significand := by
  induction d using normalize.induct with
  | case1 d h ih =>
    rw [normalize, if_pos h]
    exact ih (Nat.div_pos (Nat.le_of_dvd hd (Nat.dvd_of_mod_eq_zero h.2)) (by decide))
  | case2 d h =>
    rw [normalize, if_neg h]
    exact hd

end Decimal

namespace Dyadic

variable {v : Dyadic} {tie : Tie} {place : Int} {n : Nat}

/-- Zero does not round to a positive number. -/
theorem not_admits_zero (hv : 0 < v.mantissa) : v.admits place 0 = false := by
  have hlower : 0 < v.lower := by
    unfold lower
    split <;> omega
  have hscale : 0 < v.quarterScale place :=
    Nat.mul_pos (Nat.pow_pos (by decide)) (Nat.pow_pos (by decide))
  have hpos : 0 < v.lower * v.quarterScale place := Nat.mul_pos hlower hscale
  unfold admits
  simp only [Nat.zero_mul]
  split
  · exact decide_eq_false fun h => Nat.not_le_of_lt hpos h.1
  · exact decide_eq_false fun h => Nat.not_lt_zero _ h.1

/-- **A point that is found on a grid** rounds to the number. -/
theorem admits_of_onGrid? (h : v.onGrid? tie place = some n) : v.admits place n = true := by
  unfold onGrid? at h
  simp only at h
  split at h
  · next hbelow habove =>
    rw [← Option.some.inj h]
    split_ifs
    · exact habove
    · exact hbelow
  · next hbelow _ =>
    cases h
    exact hbelow
  · next _ habove =>
    cases h
    exact habove
  · cases h

/-- **The decimal of a positive number** is not zero. -/
theorem significand_shortest_pos (hv : 0 < v.mantissa) : 0 < (v.shortest tie).significand := by
  refine Decimal.significand_normalize_pos ?_
  cases hfound : (List.range 9).findSome? fun (i : Nat) =>
      (v.onGrid? tie (v.wholeDigits - (i + 1))).map (Decimal.mk · (v.wholeDigits - (i + 1))) with
  | none =>
    show 0 < v.exact.significand
    unfold exact
    split
    · exact Nat.mul_pos hv (Nat.pow_pos (by decide))
    · exact Nat.mul_pos hv (Nat.pow_pos (by decide))
  | some d =>
    show 0 < d.significand
    obtain ⟨i, -, hi⟩ := List.exists_of_findSome?_eq_some hfound
    obtain ⟨n, hn, rfl⟩ := Option.map_eq_some_iff.mp hi
    refine Nat.pos_of_ne_zero fun hzero => ?_
    have hadmits := admits_of_onGrid? hn
    rw [show n = 0 from hzero, not_admits_zero hv] at hadmits
    cases hadmits

end Dyadic

end FuzzyInference
