import FuzzyInference.Json.Single
import FuzzyInference.Proofs.Json.Codec

/-!
# Single-precision numbers in documents

A finite number is written with a numeral in front of its point, and with an
exponent that has a digit where it has one (`Json.legible_ofDecimal`). So its
document is legible, and the number is written faithfully if only the digits
that were chosen read back (`Json.faithful_single`).
-/

namespace FuzzyInference

/-- The mantissa of a finite number that is not zero. -/
theorem Single.mantissa_pos {x : Float32} {negative : Bool} {size : Dyadic}
    (h : form x = .finite negative size) : 0 < size.mantissa := by
  unfold form at h
  simp only at h
  split_ifs at h with hinfinite hzero hsmall hfraction
  · cases h
    exact Nat.pos_of_ne_zero hfraction
  · cases h
    exact Nat.add_pos_left (Nat.pow_pos (by decide)) _

namespace Json

/-- **The number that writes a decimal** can be read. -/
theorem legible_ofDecimal {d : Decimal} (hd : 0 < d.significand) (negative : Bool) :
    (Number.ofDecimal negative d).Legible := by
  unfold Number.ofDecimal
  simp only
  split
  · exact ⟨Decimal.isNumeral_positional hd, nofun⟩
  · obtain ⟨digit, more, hdigits, -⟩ := Digit.exists_ofNat_eq_cons hd
    rw [hdigits]
    refine ⟨Digit.isNumeral_singleton digit, fun e he => ?_⟩
    cases he
    exact (Digit.isNumeral_ofNat _).ne_nil

/-- **A number that reads back** is written faithfully. -/
theorem faithful_single {x : Float32} (h : Codec.read? (Codec.write x) = some x) : Faithful x := by
  obtain ⟨n, hn, hwrite⟩ : ∃ n : Number, n.Legible ∧ Codec.write x = .number n := by
    show ∃ n : Number, n.Legible ∧ ofSingle x = .number n
    replace h : Codec.read? (ofSingle x) = some x := h
    unfold ofSingle at h ⊢
    cases hform : Single.form x with
    | notANumber =>
      rw [hform] at h
      cases h
    | infinite negative =>
      rw [hform] at h
      cases h
    | zero negative => exact ⟨_, ⟨Digit.isNumeral_singleton _, fun e he => by cases he⟩, rfl⟩
    | finite negative size =>
      have hpos : 0 < (size.shortest .even).significand :=
        Dyadic.significand_shortest_pos (Single.mantissa_pos hform)
      exact ⟨_, legible_ofDecimal hpos negative, rfl⟩
  refine ⟨?_, ?_, h⟩
  · rw [hwrite]
    exact .number hn
  · rw [hwrite]
    exact nofun

end Json

end FuzzyInference
