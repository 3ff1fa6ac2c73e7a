import FuzzyInference.Proofs.Stream.Codec

/-!
# What fits a width

The five least integers of a width are marks, so an integer can be written as
plain data only if it lies above them and within the width. Every answer of the
encoder is either the raw token that means what was to be written or the fault
that names it (`Raw.Writes`), and it is the one or the other as the integer fits
or not. This holds of all integers and of the numbers of all variables.

Of references it holds with an exception. The place of a reference, counted from
one and with its sign, becomes a signed word of sixty-four bits before it is
written, and a place that does not fit the word goes round. Two references have
the same word for every word there is, one of them asserting what the other
denies (`TermRef.mirror`). If the word can be written then at least one of the
two places has gone round, and it is written although it does not fit
(`TermRef.GoesRound`). These are references to the last places below `2 ^ 64`
only, and all others are written or refused as they should be (`Width.codec`).
-/

namespace FuzzyInference

variable {w : Width}

/-- **The answer for an integer that is to be written**, when a fault is to name
`number`: the raw token that means the integer if it is plain data, and otherwise
the fault. -/
structure Raw.Writes (number : Nat) (v : Int) (answer : Except EncodingFault (Raw w)) : Prop where
  /-- What is plain data is written, and read again. -/
  written : w.HoldsData v → ∃ raw, answer = .ok raw ∧ Token.ofRaw raw = .datum v
  /-- What is not is refused. -/
  refused : ¬ w.HoldsData v → answer = .error (.tooLarge number)

/-- **An integer** is written if it fits. -/
theorem Raw.writes_ofDatum (number : Nat) (v : Int) :
    Writes number v (Raw.ofDatum w number v) where
  written h := by
    have hlower : w.least ≤ w.least + 5 := Int.le_add_of_nonneg_right (by decide)
    have hholds : w.Holds v := ⟨Int.le_trans hlower h.1, h.2⟩
    have hok : Raw.ofDatum w number v = .ok ⟨v, hholds⟩ := dif_pos h
    exact ⟨_, hok, Raw.ofDatum_eq_ok_iff.mp hok⟩
  refused h := dif_neg h

/-- **A raw token is written as what it means.** -/
theorem Token.encode_ofRaw (raw : Raw w) : (Token.ofRaw raw).encode w = .ok raw := by
  cases hmeans : Token.ofRaw raw with
  | mark m => exact congrArg Except.ok (Token.eq_raw_of_ofRaw hmeans).symm
  | datum v => exact Raw.ofDatum_eq_ok_iff.mpr hmeans

/-- Where the integers of a width end. -/
theorem Width.ends (w : Width) :
    -2 ^ 63 ≤ w.least ∧ w.least ≤ -128 ∧ 127 ≤ w.greatest ∧ w.greatest < 2 ^ 63 := by
  cases w <;> decide

namespace TermRef

/-! ## Places that go round -/

/-- **A reference that goes round** into the plain data of a width: its place is
as far from `2 ^ 64` as something that can be written is from zero. -/
def GoesRound (w : Width) (r : TermRef) : Prop :=
  if r.negated then 2 ^ 64 - w.greatest ≤ (r.index : Int) + 1
  else 2 ^ 64 + (w.least + 5) ≤ (r.index : Int) + 1

instance (w : Width) (r : TermRef) : Decidable (r.GoesRound w) :=
  inferInstanceAs (Decidable (if r.negated then _ else _))

/-- **The other reference of the same word.** -/
def mirror (r : TermRef) : TermRef := ⟨(2 ^ 65 - 2 - r.index) % 2 ^ 64, !r.negated⟩

variable {r s : TermRef}

/-- **The word of a reference can be written** if its place can or if it has gone
round. -/
theorem holdsData_toValue_iff (hr : r.index < 2 ^ 64) :
    w.HoldsData r.toValue ↔ w.HoldsData r.place ∨ r.GoesRound w := by
  obtain ⟨hleast, hleast', hgreatest, hgreatest'⟩ := w.ends
  rw [toValue_eq_bmod, Int.bmod]
  obtain ⟨index, _ | _⟩ := r
  · simp only [place, GoesRound, Width.HoldsData, Bool.false_eq_true, if_false] at hr ⊢
    split <;> omega
  · simp only [place, GoesRound, Width.HoldsData, if_true] at hr ⊢
    split <;> omega

/-- What goes round does not fit. -/
theorem not_holdsData_of_goesRound (h : r.GoesRound w) : ¬ w.HoldsData r.place := by
  obtain ⟨hleast, hleast', hgreatest, hgreatest'⟩ := w.ends
  obtain ⟨index, _ | _⟩ := r
  · simp only [place, GoesRound, Width.HoldsData, Bool.false_eq_true, if_false] at h ⊢
    omega
  · simp only [place, GoesRound, Width.HoldsData, if_true] at h ⊢
    omega

/-- **A reference is written as it should be** exactly if it does not go round. -/
theorem writes_iff (hr : r.index < 2 ^ 64) :
    Raw.Writes r.index r.place (r.encode w) ↔ ¬ r.GoesRound w := by
  constructor
  · intro hwrites hround
    obtain ⟨raw, hraw, -⟩ := (Raw.writes_ofDatum r.index r.toValue).written
      ((holdsData_toValue_iff hr).mpr (.inr hround))
    have hrefused := hwrites.refused (not_holdsData_of_goesRound hround)
    cases hraw.symm.trans hrefused
  · intro hround
    constructor
    · intro hplace
      have hvalue : r.toValue = r.place := by
        obtain ⟨hleast, -, -, hgreatest⟩ := w.ends
        obtain ⟨hlower, hupper⟩ := hplace
        exact toValue_eq_place (by omega) (by omega)
      rw [← hvalue] at hplace ⊢
      exact (Raw.writes_ofDatum r.index r.toValue).written hplace
    · intro hplace
      refine (Raw.writes_ofDatum r.index r.toValue).refused fun hvalue => ?_
      exact ((holdsData_toValue_iff hr).mp hvalue).elim hplace hround

/-! ## References of the same word -/

theorem index_mirror_lt (r : TermRef) : r.mirror.index < 2 ^ 64 := Nat.mod_lt _ (by decide)

theorem mirror_ne (r : TermRef) : r.mirror ≠ r := by
  intro h
  have hnegated : (!r.negated) = r.negated := congrArg negated h
  exact (Bool.not_eq_self r.negated).mp hnegated

/-- **Two references have the same word** exactly if they are the same or one is
the mirror of the other. -/
theorem toValue_eq_iff (hr : r.index < 2 ^ 64) (hs : s.index < 2 ^ 64) :
    s.toValue = r.toValue ↔ s = r ∨ s = r.mirror := by
  rw [toValue_eq_bmod, toValue_eq_bmod, Int.bmod, Int.bmod]
  obtain ⟨i, _ | _⟩ := r <;> obtain ⟨j, _ | _⟩ := s
  all_goals
    simp only [place, mirror, TermRef.mk.injEq, Bool.false_eq_true, if_false, if_true,
      Bool.not_false, Bool.not_true, and_true, and_false, or_false, false_or, reduceCtorEq]
      at hr hs ⊢
    split <;> split <;> omega

/-- What is written is the word of the reference. -/
theorem encode_eq_ok_iff {raw : Raw w} :
    r.encode w = .ok raw ↔ raw.value = r.toValue ∧ w.HoldsData r.toValue :=
  Raw.ofDatum_eq_ok_iff.trans Token.ofRaw_eq_datum_iff

/-- **A mirror is written like the reference**, if that is written. -/
theorem encode_mirror {raw : Raw w} (hr : r.index < 2 ^ 64) (hraw : r.encode w = .ok raw) :
    r.mirror.encode w = .ok raw := by
  have hvalue : r.mirror.toValue = r.toValue :=
    (toValue_eq_iff hr r.index_mirror_lt).mpr (.inr rfl)
  rw [encode_eq_ok_iff, hvalue]
  exact encode_eq_ok_iff.mp hraw

/-- What is written as it should be is read as the place. -/
theorem ofRaw_of_writes {raw : Raw w} (hr : Raw.Writes r.index r.place (r.encode w))
    (hraw : r.encode w = .ok raw) : Token.ofRaw raw = .datum r.place := by
  by_cases hplace : w.HoldsData r.place
  · obtain ⟨raw', hraw', hread⟩ := hr.written hplace
    cases hraw.symm.trans hraw'
    exact hread
  · cases hraw.symm.trans (hr.refused hplace)

/-- **Two references with one raw token** are the same unless one of them goes
round. -/
theorem eq_or_goesRound {raw : Raw w} (hr : r.index < 2 ^ 64) (hs : s.index < 2 ^ 64)
    (hraw : r.encode w = .ok raw) (hraw' : s.encode w = .ok raw) :
    s = r ∨ s = r.mirror ∧ (r.GoesRound w ∨ s.GoesRound w) := by
  have hvalue : s.toValue = r.toValue :=
    (encode_eq_ok_iff.mp hraw').1.symm.trans (encode_eq_ok_iff.mp hraw).1
  by_cases hround : r.GoesRound w ∨ s.GoesRound w
  · exact ((toValue_eq_iff hr hs).mp hvalue).imp_right fun hmirror => ⟨hmirror, hround⟩
  · -- both are read as their places, and a place belongs to one reference only
    obtain ⟨hround, hround'⟩ := not_or.mp hround
    have hread := ofRaw_of_writes ((writes_iff hr).mpr hround) hraw
    have hread' := ofRaw_of_writes ((writes_iff hs).mpr hround') hraw'
    have hplace : s.place = r.place := Token.datum.inj (hread'.symm.trans hread)
    have hsame : some s = some r := by rw [← ofValue?_place s, hplace, ofValue?_place]
    exact .inl (Option.some.inj hsame)

end TermRef

/-- **What a width makes of tokens, numbers and references.** A raw token is
written as what it means. Marks, integers and the numbers of variables are written
and read again if they fit, and refused otherwise, and so is a reference exactly if
it does not go round. Two references have one raw token only if one is the mirror
of the other and one of them goes round; and a reference that is written has a
mirror that is written likewise. -/
theorem Width.codec (w : Width) :
    (∀ raw : Raw w, (Token.ofRaw raw).encode w = .ok raw) ∧
    (∀ m : Mark, ∃ raw, (Token.mark m).encode w = .ok raw ∧ Token.ofRaw raw = .mark m) ∧
    (∀ v : Int, Raw.Writes v.natAbs v ((Token.datum v).encode w)) ∧
    (∀ tag : Nat, Raw.Writes tag tag (encodeTag w tag)) ∧
    (∀ r : TermRef, r.index < 2 ^ 64 → TermRef.ofValue? r.place = some r ∧
      (Raw.Writes r.index r.place (r.encode w) ↔ ¬ r.GoesRound w)) ∧
    (∀ r s : TermRef, r.index < 2 ^ 64 → s.index < 2 ^ 64 → ∀ raw, r.encode w = .ok raw →
      s.encode w = .ok raw → s = r ∨ s = r.mirror ∧ (r.GoesRound w ∨ s.GoesRound w)) ∧
    ∀ r : TermRef, r.index < 2 ^ 64 → ∀ raw, r.encode w = .ok raw →
      r.mirror ≠ r ∧ r.mirror.index < 2 ^ 64 ∧ r.mirror.encode w = .ok raw := by
  refine ⟨Token.encode_ofRaw, fun m => ⟨m.raw w, rfl, Token.ofRaw_raw m⟩,
    fun v => Raw.writes_ofDatum v.natAbs v, fun tag => Raw.writes_ofDatum tag tag, ?_, ?_, ?_⟩
  · intro r hr
    exact ⟨r.ofValue?_place, TermRef.writes_iff hr⟩
  · intro r s hr hs raw hraw hraw'
    exact TermRef.eq_or_goesRound hr hs hraw hraw'
  · intro r hr raw hraw
    exact ⟨r.mirror_ne, r.index_mirror_lt, TermRef.encode_mirror hr hraw⟩

/-- At eight bits a denial that just fits, and an assertion that goes round. -/
theorem Width.codec_eight :
    Raw.Writes 122 (-123) ((TermRef.isNot 122).encode .bits8) ∧
      (TermRef.is (2 ^ 64 - 2)).encode .bits8 = .ok ⟨-1, by decide⟩ ∧
      (TermRef.isNot 0).encode .bits8 = .ok ⟨-1, by decide⟩ ∧
      (TermRef.is (2 ^ 64 - 2)).GoesRound .bits8 := by
  obtain ⟨-, -, -, -, hwrites, hshared, hmirror⟩ := Width.codec .bits8
  have hround : (TermRef.is (2 ^ 64 - 2)).encode .bits8 = .ok ⟨-1, by decide⟩ := rfl
  have hfirst := (hmirror (.is (2 ^ 64 - 2)) (by decide) _ hround).2.2
  refine ⟨(hwrites (.isNot 122) (by decide)).2.mpr (by decide), hround, hfirst, ?_⟩
  rcases hshared _ (.isNot 0) (by decide) (by decide) _ hround hfirst with h | ⟨-, h | h⟩
  · exact absurd h (by decide)
  · exact h
  · exact absurd h (by decide)

/-- **The assertion of the last place but one** is written, though its place does
not fit, and by the raw token that denies the first place. -/
theorem TermRef.last_but_one_goes_round :
    ¬ Width.HoldsData .bits8 (TermRef.is (2 ^ 64 - 2)).place ∧
      (TermRef.is (2 ^ 64 - 2)).encode .bits8 = .ok ⟨-1, by decide⟩ ∧
      (TermRef.isNot 0).encode .bits8 = .ok ⟨-1, by decide⟩ ∧
      TermRef.is (2 ^ 64 - 2) ≠ TermRef.isNot 0 :=
  ⟨by decide, rfl, rfl, by decide⟩

end FuzzyInference
