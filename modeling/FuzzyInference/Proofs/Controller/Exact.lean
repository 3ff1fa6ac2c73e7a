import FuzzyInference.Proofs.Controller.Division
import FuzzyInference.Proofs.Controller.Numbered
import FuzzyInference.Proofs.Shape.Exact

/-!
# Controllers that compute with numbers

Over the exact scalars a controller could come by something that is not a
number in three ways: it could be given one, a function of the user's own could
answer one, or a shape could divide by zero. The first is refused everywhere
but at the set-up, the second is up to the user, and the third does not happen
where degrees are computed. So a controller that has been set up with numbers,
and is given no functions but exact ones, has numbers for its inputs and
degrees at all times (`Controller.exact_after`). This is shown by induction on
the history, with one lemma for each command that has a part in it.
-/

namespace FuzzyInference

/-- **A function of the user's own that is exact** makes numbers of
numbers. -/
def CustomCurve.IsExact (curve : CustomCurve Exact) : Prop :=
  ∀ (x lower upper : ℝ) (inputs coefficients : List ℝ), ∃ y : ℝ,
    curve.value ⟨.number x, inputs.map .number, .number lower, .number upper⟩
      (coefficients.map .number) = .number y

/-- **An exact profile**: any shape, or a function that is exact. -/
def Profile.IsExact : Profile Exact → Prop
  | .builtin _ => True
  | .custom curve => curve.IsExact

/-- **The degree of a number** is a number, for a well-formed term that has
degrees. -/
theorem Term.exists_degree?_number {t : Term Exact} {style : Style} {inputs owners : Nat}
    {side : Side} (ht : t.WellFormed style inputs owners side)
    (hside : side = .input ∨ style = .mamdani) (hexact : t.profile.IsExact) (x lower upper : ℝ) :
    ∃ y : ℝ, t.degree? (.number x) (.number lower) (.number upper) = some (.number y) := by
  obtain ⟨height, hheight⟩ : ∃ height : ℝ, t.height = .number height := by
    have hnumber : t.height ≤ t.height := (Scalar.IsLinear.number_of_le ht.height.1).2
    lift t.height to ℝ using hnumber with height
    exact ⟨height, rfl⟩
  obtain ⟨p, hp⟩ : ∃ p : List ℝ, t.coefficients = p.map .number :=
    Scalar.exists_eq_map_number ht.finite
  unfold degree?
  cases hprofile : t.profile with
  | custom curve =>
    rw [hprofile] at hexact
    obtain ⟨y, hy⟩ := hexact x lower upper [] p
    refine ⟨height * y, congrArg some ?_⟩
    rw [hheight, hp]
    exact congrArg (Exact.number height * ·) hy
  | builtin shape =>
    have hpart : shape.part = .conventional := (hprofile ▸ ht.legal).conventional hside
    have hwidth := ht.width shape hprofile
    have hsupplied := ht.supplied shape hprofile
    rw [hp] at hwidth hsupplied
    rw [Shape.zeroWidth?_number] at hwidth
    rw [List.length_map] at hsupplied
    obtain ⟨y, hy⟩ := Shape.exists_eval? hsupplied x
    refine ⟨height * y, ?_⟩
    rw [hheight, hp]
    simp only [Shape.eval?_number hpart hwidth, hy, Option.map_some, Exact.number_mul]

/-- **A command that brings no function but an exact one.** -/
def Command.IsExact : Command Exact → Prop
  | .bindTerm b => b.profile.IsExact
  | _ => True

namespace Controller

/-- **A controller that computes with numbers.** -/
structure IsExact (c : Controller Exact) : Prop where
  /-- The functions among its terms are exact. -/
  profiles : ∀ {side slot t}, c.term? side slot = some t → t.profile.IsExact
  /-- Its inputs are numbers. -/
  inputs : c.Numbered
  /-- So are the degrees that have been found. -/
  degrees : ∀ degree ∈ c.cycle.degrees, ¬ Scalar.IsNaN degree

variable {c d : Controller Exact}

/-- What goes on with the same terms and degrees goes on with numbers. -/
theorem IsExact.of_keeps (hc : c.IsExact) (hkeeps : c.Keeps d) (hinputs : d.Numbered)
    (hdegrees : d.cycle.degrees = c.cycle.degrees) : d.IsExact where
  profiles ht := hc.profiles ((hkeeps.term? _ _).symm.trans ht)
  inputs := hinputs
  degrees := hdegrees ▸ hc.degrees

/-! ## One operation -/

/-- **Fuzzifying** finds numbers: the degrees are those of saturated inputs. -/
theorem exact_fuzzify (hsound : c.Sound) (hc : c.IsExact) (h : c.fuzzify = .ok d) :
    d.IsExact := by
  have hinputs := numbered_fuzzify hc.inputs h
  refine ⟨fun ht => hc.profiles (((keeps_fuzzify h).term? _ _).symm.trans ht), hinputs,
    fun degree hdegree => ?_⟩
  obtain ⟨x, hx, hvalue⟩ := exists_makes_of_fuzzify h hdegree
  cases hx with
  | @degree _ slot t v hd ht hv =>
    cases hd.symm.trans h
    have hmem := List.mem_of_getElem? hv
    obtain ⟨hlower, hupper, -⟩ := (sound_fuzzify hsound h).inputs v hmem
    obtain ⟨lower, upper, value⟩ := v
    lift lower to ℝ using Exact.isFinite_iff.mp hlower
    lift upper to ℝ using Exact.isFinite_iff.mp hupper
    lift value to ℝ using Decidable.not_not.mp (hinputs _ hmem)
    obtain ⟨y, hy⟩ := Term.exists_degree?_number (hsound.terms ht).wellFormed (.inl rfl)
      (hc.profiles ht) value lower upper
    cases hvalue.symm.trans hy
    exact not_not_intro (le_refl y)

/-- Inferring leaves the degrees as they are. -/
theorem degrees_infer {α : Type} [Scalar α] (c : Controller α) (tokens : List Token) :
    (c.infer tokens).2.cycle.degrees = c.cycle.degrees := by
  refine infer_induction (P := fun d => d.cycle.degrees = c.cycle.degrees) rfl fun inferred => ?_
  obtain ⟨activations, sums, strengths, hcycle⟩ := cycle_fireItems c.cleared
    ⟨c.cycle.cleared, 0, 0⟩ (Stream.items c.bounds tokens)
  have hdegrees := congrArg Cycle.degrees hcycle
  exact hdegrees

theorem exact_infer (hc : c.IsExact) (tokens : List Token) : (c.infer tokens).2.IsExact :=
  hc.of_keeps (keeps_infer c tokens) (hc.inputs.of_inputs (inputs_infer c tokens))
    (degrees_infer c tokens)

theorem exact_defuzzify (hc : c.IsExact) (h : c.defuzzify = .ok d) : d.IsExact := by
  have hkeeps := keeps_defuzzify h
  obtain ⟨-, outputs, -, rfl⟩ := defuzzify_eq_ok h
  exact hc.of_keeps hkeeps hc.inputs rfl

/-- **Binding a term** brings its own profile. -/
theorem exact_bindTerm (hc : c.IsExact) {b : Binding Exact} (hb : b.profile.IsExact)
    (h : c.bindTerm b = .ok d) : d.IsExact := by
  obtain ⟨-, rfl⟩ := bindTerm_eq_ok h
  refine ⟨fun {side slot t} ht => ?_, hc.inputs.of_inputs (inputs_store c b),
    cycle_store c b ▸ hc.degrees⟩
  rw [term?_store] at ht
  split at ht
  · cases ht
    exact hb
  · exact hc.profiles ht

theorem exact_runCycle (hsound : c.Sound) (hc : c.IsExact) (tokens : List Token) :
    (c.runCycle tokens).2.IsExact :=
  runCycle_induction hc (fun _ h => exact_fuzzify hsound hc h) (fun _ hd => exact_infer hd tokens)
    fun _ _ hd h => exact_defuzzify hd h

/-- **A command keeps the numbers**, if it brings no function but an exact
one. -/
theorem exact_perform (hsound : c.Sound) (hc : c.IsExact) {command : Command Exact}
    (hcommand : command.IsExact) : (c.perform command).2.IsExact := by
  cases command with
  | choose setting =>
    refine settle_induction hc fun d h => hc.of_keeps (keeps_choose h) ?_ ?_
    all_goals rcases choose_eq_ok h with ⟨n, -, -, rfl⟩ | ⟨norms, -, rfl⟩
    · exact hc.inputs
    · exact hc.inputs
    · rfl
    · rfl
  | chooseMethod method =>
    refine settle_induction hc fun d h => ?_
    obtain ⟨-, rfl⟩ := chooseMethod_eq_ok h
    exact hc.of_keeps (keeps_chooseMethod h) hc.inputs rfl
  | bindTerm binding => exact settle_induction hc fun d h => exact_bindTerm hc hcommand h
  | setWeights weights =>
    refine settle_induction hc fun d h => ?_
    obtain ⟨-, rfl⟩ := setWeights_eq_ok h
    exact hc.of_keeps (keeps_setWeights h) hc.inputs rfl
  | clearWeights => exact hc.of_keeps ⟨rfl, rfl, rfl⟩ hc.inputs rfl
  | setInput tag value =>
    refine settle_induction hc fun d h => ?_
    have hinputs := numbered_setInput hc.inputs h
    obtain ⟨v, -, -, rfl⟩ := setInput_eq_ok h
    exact hc.of_keeps (keeps_setInput h) hinputs rfl
  | fuzzify => exact settle_induction hc fun d h => exact_fuzzify hsound hc h
  | infer tokens => exact exact_infer hc tokens
  | defuzzify => exact settle_induction hc fun d h => exact_defuzzify hc h
  | evaluate tokens values =>
    refine evaluate_induction hc fun hlength hnumbers => ?_
    have hkeeps : c.Keeps (c.withInputs values) := keeps_withInputs hlength
    exact exact_runCycle (hsound.of_keeps hkeeps hsound.fits)
      (hc.of_keeps hkeeps (numbered_withInputs hnumbers) rfl) tokens

/-- **The numbers are kept** in the course of a history. -/
theorem exact_after (hc : c.Reachable) (hexact : c.IsExact) {history : List (Command Exact)}
    (hhistory : ∀ command ∈ history, command.IsExact) : (c.after history).IsExact := by
  induction history generalizing c with
  | nil => exact hexact
  | cons command history ih =>
    obtain ⟨hcommand, hhistory⟩ := List.forall_mem_cons.mp hhistory
    exact ih (hc.perform command) (exact_perform hc.sound hexact hcommand) hhistory

/-- **A controller that is set up with numbers** computes with numbers. -/
theorem exact_setup {style : Style} {inputs outputs : List (Variable Exact)}
    {inputSlots outputSlots : Nat} (h : setup style inputs outputs inputSlots outputSlots = .ok c)
    (hinputs : ∀ v ∈ inputs, ¬ Scalar.IsNaN v.value) : c.IsExact := by
  refine ⟨fun {side slot t} ht => ?_, ?_, ?_⟩
  · rw [term?_of_setup h] at ht
    cases ht
  · obtain ⟨values, rfl⟩ := eq_of_setup h
    exact hinputs
  · obtain ⟨values, rfl⟩ := eq_of_setup h
    intro degree hdegree
    rw [List.eq_of_mem_replicate hdegree]
    exact not_not_intro (le_refl (0 : ℝ))

end Controller

end FuzzyInference
