import FuzzyInference.Proofs.Controller.Configured
import FuzzyInference.Proofs.Controller.Cycle
import FuzzyInference.Proofs.Controller.Meaning
import FuzzyInference.Proofs.Controller.Region
import FuzzyInference.Proofs.Defuzzify.Division

/-!
# Where controllers divide by zero

All divisions of a cycle are made when a term is evaluated, when the
universe of an output is cut into steps, or when a crisp value is read off
the findings. These are the `Computation`s; `Controller.Makes` says which of
them an operation makes, and at which values, and what an operation finds
is the value of one of them, or is made of such values
(`Controller.exists_makes_of_fuzzify` and the theorems behind it).

Over the real numbers a controller that uses no functions of the user's own
makes no computation that divides by zero, with one exception
(`Controller.divides_by_zero_iff`). The checks of a binding see to it that
the width of a shape is not zero, but they do not ask for the slope of a
sigmoid that is to be inverted. If it is zero, then a rule that concludes
with the term divides by zero, unless the strength of the rule is next to
nothing or to certainty.
-/

namespace FuzzyInference

/-! ## Computations -/

/-- **A part of an operation in which there may be divisions.** -/
inductive Computation (α : Type) where
  /-- The degree to which a value has a term, in a universe. -/
  | degree (t : Term α) (x lower upper : α)
  /-- A Sugeno conclusion. -/
  | sugeno (t : Term α) (inputs : List α) (lower upper : α)
  /-- A Tsukamoto conclusion of a strength. -/
  | tsukamoto (t : Term α) (strength : α) (inputs : List α) (lower upper : α)
  /-- The distance between the points an output is sampled at. -/
  | resolution (c : Controller α) (v : Variable α)
  /-- The crisp value of a sampled curve. -/
  | sampled (d : Defuzzifier) (s : Samples α)
  /-- The crisp value of weighted conclusions. -/
  | weighted (d : Defuzzifier) (sum : WeightedSum α)

namespace Computation

variable {α : Type} [Scalar α]

/-- **What is computed.** -/
def value? : Computation α → Option α
  | degree t x lower upper => t.degree? x lower upper
  | sugeno t inputs lower upper => t.sugeno? inputs lower upper
  | tsukamoto t strength inputs lower upper => t.tsukamoto? strength inputs lower upper
  | resolution c v => some (c.resolution v)
  | sampled d s => d.ofSamples? s
  | weighted d sum => some (d.ofWeighted sum.weighted sum.weight)

/-- **How it is computed.** -/
def formula? : Computation α → Option (Formula α)
  | degree t x lower upper => t.degreeFormula? x lower upper
  | sugeno t inputs lower upper => t.sugenoFormula? inputs lower upper
  | tsukamoto t strength inputs lower upper => t.tsukamotoFormula? strength inputs lower upper
  | resolution c v => some ((.scalar v.upper - .scalar v.lower) / .scalar (c.evalPoints : α))
  | sampled d s => d.sampledFormula? s
  | weighted d sum => some (d.weightedFormula sum.weighted sum.weight)

/-- **The value of the formula is what is computed.** -/
theorem eval_formula? (x : Computation α) : x.formula?.map Formula.eval = x.value? := by
  cases x with
  | degree t x lower upper => exact t.eval_degreeFormula? x lower upper
  | sugeno t inputs lower upper => exact t.eval_sugenoFormula? inputs lower upper
  | tsukamoto t strength inputs lower upper =>
    exact t.eval_tsukamotoFormula? strength inputs lower upper
  | resolution c v => rfl
  | sampled d s => exact d.eval_sampledFormula? s
  | weighted d sum => exact congrArg some (d.eval_weightedFormula sum.weighted sum.weight)

/-- **What is divided by** in a computation. -/
def divisors (x : Computation α) : List α := (x.formula?.map Formula.divisors).getD []

/-- **A computation that does not divide by zero.** -/
def Defined (x : Computation ℝ) : Prop := ∀ f, x.formula? = some f → f.Defined

theorem zero_mem_divisors_iff {x : Computation ℝ} : 0 ∈ x.divisors ↔ ¬ x.Defined := by
  unfold divisors Defined
  cases x.formula? with
  | none => exact iff_of_false List.not_mem_nil fun h => h fun f hf => by cases hf
  | some f =>
    show 0 ∈ f.divisors ↔ ¬ ∀ g, some f = some g → g.Defined
    simp only [Option.some.injEq, forall_eq', Formula.Defined]
    simp

end Computation

/-- **The operations that make computations.** -/
inductive Operation where
  /-- Fuzzify the inputs. -/
  | fuzzify
  /-- Infer what follows from a rule stream. -/
  | infer {w : Width} (s : RuleStream w)
  /-- Sample the curve of an output. -/
  | region (output : Nat)
  /-- Give the outputs their crisp values. -/
  | defuzzify

namespace Controller

section Makes

variable {α : Type} [Scalar α]

/-- **The computations that are made to sample the curve of an output.** -/
inductive SamplesCurve (c : Controller α) (output : Nat) : Computation α → Prop
  /-- The universe is cut into steps. -/
  | resolution {v : Variable α} (hv : c.outputs[output]? = some v) :
    SamplesCurve c output (.resolution c v)
  /-- At every point the terms of the output have a degree. -/
  | degree {v : Variable α} {slot k : Nat} {t : Term α} (hv : c.outputs[output]? = some v)
    (hk : k ≤ c.evalPoints) (ht : c.term? .output slot = some t) (howner : t.owner = output) :
    SamplesCurve c output (.degree t (v.lower + c.resolution v * (k : α)) v.lower v.upper)

/-- **The computations that an operation makes.** -/
inductive Makes (c : Controller α) : Operation → Computation α → Prop
  /-- Fuzzifying finds the degrees of the input terms at the saturated
  inputs. -/
  | degree {d : Controller α} {slot : Nat} {t : Term α} {v : Variable α}
    (hd : c.fuzzify = .ok d) (ht : c.term? .input slot = some t)
    (hv : d.inputs[t.owner]? = some v) : Makes c .fuzzify (.degree t v.value v.lower v.upper)
  /-- A rule of some strength in a Sugeno system evaluates its
  conclusions. -/
  | sugeno {w : Width} {s : RuleStream w} {n : Nat} {rules : List Rule} {a : Atom} {strength : α}
    {t : Term α} {v : Variable α} (hstyle : c.style = .sugeno) (hs : (c.infer s.tokens).1 = .ok n)
    (hrules : Stream.Begins c.bounds rules s.table)
    (ha : (a, strength) ∈ c.conclusionsFrom 0 rules) (hpos : 0 < strength)
    (ht : c.term? .output a.term.index = some t) (hv : c.outputs[a.subject]? = some v) :
    Makes c (.infer s) (.sugeno t c.cycle.inputs v.lower v.upper)
  /-- In a Tsukamoto system it inverts them. -/
  | tsukamoto {w : Width} {s : RuleStream w} {n : Nat} {rules : List Rule} {a : Atom}
    {strength : α} {t : Term α} {v : Variable α} (hstyle : c.style = .tsukamoto)
    (hs : (c.infer s.tokens).1 = .ok n) (hrules : Stream.Begins c.bounds rules s.table)
    (ha : (a, strength) ∈ c.conclusionsFrom 0 rules) (hpos : 0 < strength)
    (ht : c.term? .output a.term.index = some t) (hv : c.outputs[a.subject]? = some v) :
    Makes c (.infer s) (.tsukamoto t strength c.cycle.inputs v.lower v.upper)
  /-- A Mamdani system can be asked for the curve of an output. -/
  | region {output : Nat} {x : Computation α} (hstyle : c.style = .mamdani)
    (hx : c.SamplesCurve output x) : Makes c (.region output) x
  /-- Defuzzifying samples the curve of every output of a Mamdani
  system. -/
  | samples {output : Nat} {x : Computation α} (hstyle : c.style = .mamdani)
    (hinferred : c.cycle.inferred = true) (hx : c.SamplesCurve output x) : Makes c .defuzzify x
  /-- It reads a crisp value off the samples. -/
  | sampled {output : Nat} {v : Variable α} {s : Samples α}
    (hstyle : c.style = .mamdani) (hinferred : c.cycle.inferred = true)
    (hv : c.outputs[output]? = some v) (hs : c.samples? output v = some s) :
    Makes c .defuzzify (.sampled c.defuzzifier s)
  /-- In the other styles it takes the sum of every output. -/
  | weighted {output : Nat} {sum : WeightedSum α} (hstyle : c.style ≠ .mamdani)
    (hinferred : c.cycle.inferred = true) (hsum : c.cycle.sums[output]? = some sum) :
    Makes c .defuzzify (.weighted c.defuzzifier sum)

variable {c : Controller α}

/-- **The degrees that fuzzifying finds** are computed. -/
theorem exists_makes_of_fuzzify {d : Controller α} (hd : c.fuzzify = .ok d) {y : α}
    (hy : y ∈ d.cycle.degrees) : ∃ x, c.Makes .fuzzify x ∧ x.value? = some y := by
  obtain ⟨-, values, degrees, -, hdegrees, heq⟩ := fuzzify_eq_ok hd
  have hinputs : d.inputs = c.inputs.zipWith (fun v x => { v with value := x }) values := by
    rw [heq]
  rw [heq] at hy
  have hmem := List.mem_map_of_mem (f := some) hy
  rw [← List.mapM_eq_some_iff.mp hdegrees] at hmem
  obtain ⟨t, ht, hdegree⟩ := List.mem_map.mp hmem
  obtain ⟨o, ho, hot⟩ := List.mem_filterMap.mp ht
  cases hot
  have hbound : some t ∈ c.termsOf .input := ho
  obtain ⟨slot, hslot⟩ := exists_term?_of_mem hbound
  obtain ⟨v, hv, hdegree⟩ := Option.bind_eq_some_iff.mp hdegree
  exact ⟨_, .degree hd hslot (hinputs ▸ hv), hdegree⟩

/-- **A conclusion that is drawn** is computed. In a Tsukamoto system it is
saturated in its universe afterwards. -/
theorem exists_makes_of_infer {w : Width} {s : RuleStream w} {n : Nat} {rules : List Rule}
    (hs : (c.infer s.tokens).1 = .ok n) (hrules : Stream.Begins c.bounds rules s.table)
    {a : Atom} {strength : α} (ha : (a, strength) ∈ c.conclusionsFrom 0 rules)
    (hpos : 0 < strength) {z : α} (hz : c.conclusion? c.cycle.inputs a strength = some z) :
    ∃ x v y, c.Makes (.infer s) x ∧ x.value? = some y ∧ c.outputs[a.subject]? = some v ∧
      (if c.style = .tsukamoto then v.saturateFinite? y else some y) = some z := by
  obtain ⟨t, ht, hz⟩ := Option.bind_eq_some_iff.mp hz
  obtain ⟨v, hv, hz⟩ := Option.bind_eq_some_iff.mp hz
  cases hstyle : c.style with
  | mamdani =>
    rw [hstyle] at hz
    cases hz
  | sugeno =>
    rw [hstyle] at hz
    refine ⟨_, v, z, .sugeno hstyle hs hrules ha hpos ht hv, hz, hv, ?_⟩
    rfl
  | tsukamoto =>
    rw [hstyle] at hz
    obtain ⟨y, hy, hz⟩ := Option.bind_eq_some_iff.mp hz
    refine ⟨_, v, y, .tsukamoto hstyle hs hrules ha hpos ht hv, hy, hv, ?_⟩
    exact hz

/-- **The crisp value of an output** is computed. -/
theorem exists_makes_of_crisp? (hinferred : c.cycle.inferred = true) {output : Nat}
    {v : Variable α} (hv : c.outputs[output]? = some v) {y : α}
    (hy : c.crisp? output v = some y) : ∃ x, c.Makes .defuzzify x ∧ x.value? = some y := by
  unfold crisp? at hy
  cases hstyle : c.style with
  | mamdani =>
    rw [hstyle] at hy
    obtain ⟨s, hs, hy⟩ := Option.bind_eq_some_iff.mp hy
    exact ⟨_, .sampled hstyle hinferred hv hs, hy⟩
  | sugeno =>
    rw [hstyle] at hy
    obtain ⟨sum, hsum, hy⟩ := Option.bind_eq_some_iff.mp hy
    exact ⟨_, .weighted (fun h => by cases hstyle.symm.trans h) hinferred hsum, hy⟩
  | tsukamoto =>
    rw [hstyle] at hy
    obtain ⟨sum, hsum, hy⟩ := Option.bind_eq_some_iff.mp hy
    exact ⟨_, .weighted (fun h => by cases hstyle.symm.trans h) hinferred hsum, hy⟩

/-- **A curve after one more piece**, which consists of the activation of a term
and of a degree to which a point has it. -/
def cover (c : Controller α) (y : α) (piece : Activation α × α) : α :=
  let mu := Scalar.clampUnit piece.2
  c.norms.aggregation.apply
    (c.norms.aggregation.apply y (c.norms.implication.apply piece.1.direct mu))
    (c.norms.implication.apply piece.1.negated (1 - mu))

/-- **A value of the curve of an output** at a point is made of computations if its
pieces are. Each belongs to a term of the output, whose activation has been found
by inference and whose degree at the point is computed. -/
def MadeOf (c : Controller α) (makes : Computation α → Prop) (output : Nat) (v : Variable α)
    (x y : α) : Prop :=
  ∃ pieces : List (Activation α × α),
    (∀ p ∈ pieces, ∃ slot t, c.term? .output slot = some t ∧ t.owner = output ∧
      c.cycle.activations[slot]? = some p.1 ∧ makes (.degree t x v.lower v.upper) ∧
      (Computation.degree t x v.lower v.upper).value? = some p.2) ∧
    y = pieces.foldl c.cover 0

section Curve

variable {output : Nat} {v : Variable α}

omit [Scalar α] in
/-- A term that stands with an activation stands in the same place. -/
theorem exists_slot_of_mem_zip {t : Term α} {activation : Activation α}
    (h : (some t, activation) ∈ c.outputTerms.zip c.cycle.activations) :
    ∃ slot, c.term? .output slot = some t ∧ c.cycle.activations[slot]? = some activation := by
  obtain ⟨slot, hslot⟩ := List.mem_iff_getElem?.mp h
  obtain ⟨ht, hactivation⟩ := List.getElem?_zip_eq_some.mp hslot
  exact ⟨slot, congrArg Option.join ht, hactivation⟩

/-- **The curve of an output** is made of the degrees that its terms have at a
point. By induction on the terms: one of the output is a further piece, and all
others change nothing. -/
theorem madeOf_of_curve? (hv : c.outputs[output]? = some v) {k : Nat} (hk : k ≤ c.evalPoints)
    {makes : Computation α → Prop} (hmakes : ∀ x, c.SamplesCurve output x → makes x) {y : α}
    (hy : c.curve? output (v.lower + c.resolution v * (k : α)) = some y) :
    c.MadeOf makes output v (v.lower + c.resolution v * (k : α)) y := by
  unfold curve? at hy
  rw [hv] at hy
  refine List.foldlM_eq_some_induction (P := c.MadeOf makes output v _) hy ⟨[], nofun, rfl⟩ ?_
  rintro ⟨slot, activation⟩ hmem y z ⟨pieces, hpieces, rfl⟩ hz
  cases slot with
  | none =>
    cases hz
    exact ⟨pieces, hpieces, rfl⟩
  | some t =>
    unfold unite? at hz
    by_cases howner : t.owner = output
    · simp only [howner, ne_eq, not_true_eq_false, if_false] at hz
      obtain ⟨degree, hdegree, hz⟩ := Option.bind_eq_some_iff.mp hz
      cases hz
      obtain ⟨slot, ht, hactivation⟩ := exists_slot_of_mem_zip hmem
      refine ⟨pieces ++ [(activation, degree)], fun p hp => ?_, ?_⟩
      · rcases List.mem_append.mp hp with hp | hp
        · exact hpieces p hp
        · cases List.mem_singleton.mp hp
          exact ⟨slot, t, ht, howner, hactivation, hmakes _ (.degree hv hk ht howner), hdegree⟩
      · rw [List.foldl_concat]
        rfl
    · cases (if_pos howner).symm.trans hz
      exact ⟨pieces, hpieces, rfl⟩

/-- **The region of an output** is computed: the distance of its points, and the
degrees that each of them is made of. -/
theorem exists_makes_of_region (hv : c.outputs[output]? = some v) {points : List (CurvePoint α)}
    (h : c.region output = .ok points) :
    ∃ x step, c.Makes (.region output) x ∧ x.value? = some step ∧
      ∀ (k : Nat) (p : CurvePoint α), points[k]? = some p →
        p.x = v.lower + step * (k : α) ∧ c.MadeOf (c.Makes (.region output)) output v p.x p.y := by
  obtain ⟨⟨⟩, hrequire, -⟩ := Except.bind_eq_ok_iff.mp h
  have hstyle : c.style = .mamdani := by
    unfold requireCurve at hrequire
    split at hrequire
    · cases hrequire
    · next hstyle => exact Decidable.not_not.mp hstyle
  refine ⟨_, _, .region hstyle (.resolution hv), rfl, fun k p hp => ?_⟩
  obtain ⟨hk, hpoint⟩ := point?_of_region hstyle hv h hp
  obtain ⟨y, hy, rfl⟩ := Option.map_eq_some_iff.mp hpoint
  exact ⟨rfl, madeOf_of_curve? hv hk (fun _ hx => .region hstyle hx) hy⟩

/-- **So are the samples** that a crisp value is read off. -/
theorem exists_makes_of_samples? (hstyle : c.style = .mamdani)
    (hinferred : c.cycle.inferred = true) (hv : c.outputs[output]? = some v) {s : Samples α}
    (hs : c.samples? output v = some s) :
    ∃ x, c.Makes .defuzzify x ∧ x.value? = some s.step ∧
      ∀ (k : Nat) (y : α), s.ys[k]? = some y →
        c.MadeOf (c.Makes .defuzzify) output v (s.x k) y := by
  obtain ⟨ys, hys, hs⟩ := Option.bind_eq_some_iff.mp hs
  cases hs
  refine ⟨_, .samples hstyle hinferred (.resolution hv), rfl, fun k y hy => ?_⟩
  obtain ⟨hlt, hsample⟩ := List.lt_and_eq_some_of_map_range (List.mapM_eq_some_iff.mp hys) hy
  exact madeOf_of_curve? hv (Nat.le_of_lt_succ hlt) (fun _ hx => .samples hstyle hinferred hx)
    hsample

end Curve

/-- **A controller without functions of the user's own.** -/
def Builtin (c : Controller α) : Prop :=
  ∀ side slot t, c.term? side slot = some t → ∃ shape, t.profile = .builtin shape

end Makes

/-- **A stream inverts a level sigmoid** when it is inferred from: one of its
rules concludes with it, at a strength in between. -/
def InvertsLevel (c : Controller ℝ) {w : Width} (s : RuleStream w) : Prop :=
  ∃ n rules a strength t, (c.infer s.tokens).1 = .ok n ∧ Stream.Begins c.bounds rules s.table ∧
    (a, strength) ∈ c.conclusionsFrom 0 rules ∧ 0 < strength ∧ ¬ Scalar.Near strength 0 ∧
    ¬ Scalar.Near strength 1 ∧ c.term? .output a.term.index = some t ∧ t.InvertsLevel

variable {c : Controller ℝ}

/-! ## Computations that are defined -/

/-- **A degree** is found without a division by zero: the shape of a term has
been checked for a width. -/
theorem defined_degree (hc : c.Sound) (hbuiltin : c.Builtin) {side : Side} {slot : Nat}
    {t : Term ℝ} (ht : c.term? side slot = some t) (hside : side = .input ∨ c.style = .mamdani)
    (x lower upper : ℝ) : (Computation.degree t x lower upper).Defined := by
  intro f hf
  obtain ⟨shape, hshape⟩ := hbuiltin side slot t ht
  have hformed := (hc.terms ht).wellFormed
  have hpart : shape.part = .conventional := (hshape ▸ hformed.legal).conventional hside
  exact Term.defined_degreeFormula? hshape hpart (hformed.width shape hshape) hf

/-- **A curve is sampled** without a division by zero: there are enough
points. -/
theorem defined_of_samplesCurve (hc : c.Reachable) (hbuiltin : c.Builtin)
    (hstyle : c.style = .mamdani) {output : Nat} {x : Computation ℝ}
    (hx : c.SamplesCurve output x) : x.Defined := by
  cases hx with
  | resolution hv =>
    have hpoints : (c.evalPoints : ℝ) ≠ 0 :=
      Nat.cast_ne_zero.mpr (Nat.ne_zero_of_lt hc.fit.evalPoints)
    intro f hf
    cases hf
    simpa using hpoints
  | degree hv hk ht howner => exact defined_degree hc.sound hbuiltin ht (.inr hstyle) _ _ _

/-- **A Tsukamoto conclusion** divides by zero when a level sigmoid is
inverted. -/
theorem defined_tsukamoto_iff (hc : c.Sound) (hbuiltin : c.Builtin) (hstyle : c.style = .tsukamoto)
    {slot : Nat} {t : Term ℝ} (ht : c.term? .output slot = some t) {strength : ℝ}
    (hpos : 0 < strength) (inputs : List ℝ) (lower upper : ℝ) :
    (Computation.tsukamoto t strength inputs lower upper).Defined ↔
      ¬ (t.InvertsLevel ∧ ¬ Scalar.Near strength 0 ∧ ¬ Scalar.Near strength 1) := by
  obtain ⟨shape, hshape⟩ := hbuiltin .output slot t ht
  have hformed := (hc.terms ht).wellFormed
  obtain ⟨ramp, rfl⟩ : ∃ ramp, shape = .inverse ramp :=
    (hstyle ▸ hshape ▸ hformed.legal).exists_inverse
  obtain ⟨point, hpoint⟩ := Term.exists_tsukamoto? hformed.supplied
    (fun shape h => by cases hshape.symm.trans h; rfl) strength inputs lower upper
  -- there is a formula, because there is a conclusion
  obtain ⟨f, hf, -⟩ := Option.map_eq_some_iff.mp
    ((t.eval_tsukamotoFormula? strength inputs lower upper).trans hpoint)
  refine Iff.trans ⟨fun h => h f hf, fun h g hg => ?_⟩
    (Term.defined_tsukamotoFormula? hshape hpos hf)
  cases hf.symm.trans hg
  exact h

/-! ## A sigmoid of some slope -/

/-- A Tsukamoto controller of one input and one output, with a place for a
term of either. -/
def unsloped : Controller ℝ where
  style := .tsukamoto
  inputs := [⟨0, 1, 0⟩]
  outputs := [⟨0, 10, 0⟩]
  inputTerms := [none]
  outputTerms := [none]
  norms := .initial
  evalPoints := Setting.defaultEvalPoints
  defuzzifier := .weightedAverage
  weights := none
  cycle := ⟨[0], [0], [⟨0, 0⟩], [⟨0, 0⟩], [], false, false⟩

/-- A term of the input that every value has to one half. -/
noncomputable def halfway : Binding ℝ := ⟨.input, 0, 0, .builtin .constant, [Scalar.half], 1⟩

/-- A term of the output that inverts a sigmoid around five. -/
def inverted (slope : ℝ) : Binding ℝ :=
  ⟨.output, 0, 0, .builtin (.inverse .sigmoid), [slope, 5], 1⟩

/-- The controller when its terms have been bound and its input has been
fuzzified. -/
noncomputable def sloping (slope : ℝ) : Controller ℝ :=
  { unsloped with
    inputTerms := [some (Binding.term halfway)]
    outputTerms := [some (Binding.term (inverted slope))]
    cycle := { unsloped.cycle with degrees := [Scalar.half], fuzzified := true } }

theorem saturate?_zero : Variable.saturate? (⟨0, 1, 0⟩ : Variable ℝ) 0 = some 0 := by
  simp [Variable.saturate?, Scalar.clamp]

theorem setup_unsloped (style : Style) : setup style [⟨0, 1, 0⟩] [⟨0, 10, 0⟩] 1 1
    = .ok { unsloped with style := style, defuzzifier := .initial style } := by
  have hcheck : ([⟨0, 1, 0⟩, ⟨0, 10, 0⟩] : List (Variable ℝ)).forM Variable.check = .ok () := by
    refine List.forM_eq_ok_iff.mpr ?_
    simp [Variable.check, Variable.IsProperRange, Scalar.IsFinite]
  unfold setup
  simp only [List.cons_append, List.nil_append]
  rw [hcheck]
  simp [saturate?_zero, Fault.found, unsloped]

theorem reachable_unsloped : unsloped.Reachable := .setup (setup_unsloped .tsukamoto)

theorem fuzzify_sloping (slope : ℝ) :
    ((unsloped.store halfway).store (inverted slope)).fuzzify = .ok (sloping slope) := by
  have hdegree : inputDegree? [(⟨0, 1, 0⟩ : Variable ℝ)] (Binding.term halfway)
      = some Scalar.half := by
    simp [inputDegree?, Term.degree?, Shape.eval?, halfway, Binding.term, Scalar.clampUnit,
      Scalar.clamp]
  have hvalues : [(⟨0, 1, 0⟩ : Variable ℝ)].mapM (fun v => v.saturate? v.value) = some [0] :=
    List.mapM_eq_some_iff.mpr (congrArg ([·]) saturate?_zero)
  have hdegrees : [Binding.term halfway].mapM (inputDegree? [(⟨0, 1, 0⟩ : Variable ℝ)])
      = some [Scalar.half] := List.mapM_eq_some_iff.mpr (congrArg ([·]) hdegree)
  exact fuzzify_of_mapM (c := (unsloped.store halfway).store (inverted slope))
    (by simp [store, halfway, inverted, unsloped]) hvalues hdegrees

/-- A sigmoid of any slope can be bound. -/
theorem reachable_sloping (slope : ℝ) : (sloping slope).Reachable := by
  have hinput : unsloped.bindTerm halfway = .ok (unsloped.store halfway) :=
    bindTerm_of_admissible ⟨Nat.one_pos, Nat.one_pos, rfl,
      fun shape h => by cases h; exact Nat.le_refl 1, le_rfl, fun p _ => le_rfl,
      fun shape h => by cases h; rfl⟩
  have houtput : (unsloped.store halfway).bindTerm (inverted slope)
      = .ok ((unsloped.store halfway).store (inverted slope)) :=
    bindTerm_of_admissible ⟨Nat.one_pos, Nat.one_pos, rfl,
      fun shape h => by cases h; exact Nat.le_refl 2, le_rfl, fun p _ => le_rfl,
      fun shape h => by cases h; rfl⟩
  have hafter : unsloped.after [.bindTerm halfway, .bindTerm (inverted slope), .fuzzify]
      = sloping slope := by
    simp only [after, List.foldl_cons, List.foldl_nil, perform, hinput, houtput,
      fuzzify_sloping slope, settle]
  rw [← hafter]
  exact reachable_unsloped.after _

/-- A rule base of one rule, from the term of the input to that of the
output. -/
def slopeRule : List Rule := [⟨some ⟨⟨0, .is 0⟩, []⟩, [⟨0, .is 0⟩]⟩]

/-- What it is encoded as at eight bits. -/
def slopeStream : RuleStream .bits8 :=
  (RuleStream.encode .bits8 slopeRule).toOption.getD ⟨[]⟩

theorem begins_slope : Stream.Begins ⟨1, 1⟩ slopeRule slopeStream.table := by
  refine ⟨?_, slopeStream, rfl, List.prefix_rfl⟩
  refine List.forall_mem_singleton.mpr ⟨⟨rfl, List.cons_ne_nil _ _⟩, ?_, ?_⟩
  · exact List.forall_mem_singleton.mpr ⟨by decide, by decide⟩
  · exact List.forall_mem_singleton.mpr ⟨by decide, by decide⟩

/-- The stream is accepted where there are the two terms. -/
theorem accept_slope {α : Type} [Scalar α] {c : Controller α} (hbounds : c.bounds = ⟨1, 1⟩)
    (hinput : c.Resolves .input ⟨0, .is 0⟩) (houtput : c.Resolves .output ⟨0, .is 0⟩) :
    c.accept slopeStream.tokens = .ok () := by
  have hscript : Rule.script slopeRule
      = [.clause none ⟨0, .is 0⟩ true, .conclusion ⟨0, .is 0⟩ true, .done] := rfl
  refine accept_eq_ok_iff.mpr ⟨slopeRule, hbounds ▸ begins_slope, ?_⟩
  rw [hscript]
  simp only [List.forall_mem_cons]
  exact ⟨hinput, ⟨fun h => Bool.false_ne_true h.1, houtput⟩, trivial, fun _ h => by cases h⟩

theorem exists_infer_slope (slope : ℝ) :
    ∃ n, ((sloping slope).infer slopeStream.tokens).1 = .ok n := by
  have haccept : (sloping slope).accept slopeStream.tokens = .ok () :=
    accept_slope rfl ⟨_, rfl, rfl⟩ ⟨_, rfl, rfl⟩
  obtain ⟨n, d, hinfer, -⟩ := exists_infer (reachable_sloping slope).sound rfl rfl haccept
  exact ⟨n, congrArg Prod.fst hinfer⟩

theorem conclusionsFrom_sloping (slope : ℝ) :
    (sloping slope).conclusionsFrom 0 slopeRule = [(⟨0, .is 0⟩, Scalar.half)] := by
  have hstrength : Scalar.clampUnit (0 + (sloping slope).cycle.degreeOf (.is 0))
      * (sloping slope).weight 0 = Scalar.half := by
    simp [sloping, unsloped, Cycle.degreeOf, weight, Scalar.clampUnit, Scalar.clamp, TermRef.is]
    norm_num
  exact congrArg (fun strength : ℝ => [((⟨0, .is 0⟩ : Atom), strength)]) hstrength

theorem eq_of_term?_sloping {slope : ℝ} {side : Side} {slot : Nat} {t : Term ℝ}
    (ht : (sloping slope).term? side slot = some t) :
    t = match side with
      | .input => Binding.term halfway
      | .output => Binding.term (inverted slope) := by
  have hmem : some t ∈ (sloping slope).termsOf side :=
    List.mem_of_getElem? (Option.join_eq_some_iff.mp ht)
  cases side with
  | input => exact Option.some.inj (List.mem_singleton.mp hmem)
  | output => exact Option.some.inj (List.mem_singleton.mp hmem)

theorem builtin_sloping (slope : ℝ) : (sloping slope).Builtin := by
  intro side slot t ht
  rw [eq_of_term?_sloping ht]
  cases side with
  | input => exact ⟨.constant, rfl⟩
  | output => exact ⟨.inverse .sigmoid, rfl⟩

/-! ## All operations -/

/-- **A controller divides by zero** exactly when it inverts a sigmoid
without a slope. -/
theorem divides_by_zero_iff (hc : c.Reachable) (hbuiltin : c.Builtin) (op : Operation) :
    (∃ x, c.Makes op x ∧ 0 ∈ x.divisors) ↔
      ∃ (w : Width) (s : RuleStream w), op = .infer s ∧ c.InvertsLevel s := by
  simp only [Computation.zero_mem_divisors_iff]
  constructor
  · rintro ⟨x, hx, hundefined⟩
    cases hx with
    | degree hd ht hv =>
      exact absurd (defined_degree hc.sound hbuiltin ht (.inl rfl) _ _ _) hundefined
    | sugeno hstyle hs hrules ha hpos ht hv =>
      obtain ⟨shape, hshape⟩ := hbuiltin _ _ _ ht
      exact absurd (fun f hf => Term.defined_sugenoFormula? hshape hf) hundefined
    | tsukamoto hstyle hs hrules ha hpos ht hv =>
      rw [defined_tsukamoto_iff hc.sound hbuiltin hstyle ht hpos, not_not] at hundefined
      obtain ⟨hlevel, hzero, hone⟩ := hundefined
      exact ⟨_, _, rfl, _, _, _, _, _, hs, hrules, ha, hpos, hzero, hone, ht, hlevel⟩
    | region hstyle hx => exact absurd (defined_of_samplesCurve hc hbuiltin hstyle hx) hundefined
    | samples hstyle hinferred hx =>
      exact absurd (defined_of_samplesCurve hc hbuiltin hstyle hx) hundefined
    | sampled hstyle hinferred hv hs =>
      exact absurd (fun f hf => Defuzzifier.defined_sampledFormula? hf) hundefined
    | weighted hstyle hinferred hsum =>
      refine absurd (fun f hf => ?_) hundefined
      cases hf
      exact Defuzzifier.defined_weightedFormula _ _ _
  · rintro ⟨w, s, rfl, n, rules, a, strength, t, hs, hrules, ha, hpos, hzero, hone, ht, hlevel⟩
    have hstyle : c.style = .tsukamoto :=
      (hlevel.1 ▸ (hc.sound.terms ht).wellFormed.legal).style_of_inverse
    obtain ⟨r, hr, hconclusion⟩ := exists_of_mem_conclusionsFrom ha
    have hlt : a.subject < c.outputs.length :=
      ((hrules.fits r hr).conclusions a hconclusion).subject_lt
    have hv : c.outputs[a.subject]? = some c.outputs[a.subject] := List.getElem?_eq_getElem hlt
    refine ⟨_, .tsukamoto hstyle hs hrules ha hpos ht hv, ?_⟩
    rw [defined_tsukamoto_iff hc.sound hbuiltin hstyle ht hpos, not_not]
    exact ⟨hlevel, hzero, hone⟩

/-- A sigmoid that has a slope is inverted at one half without a division by
zero. -/
theorem defined_sloping_one :
    (∃ n, ((sloping 1).infer slopeStream.tokens).1 = .ok n) ∧
    ¬ ∃ x, (sloping 1).Makes (.infer slopeStream) x ∧ 0 ∈ x.divisors := by
  refine ⟨exists_infer_slope 1, ?_⟩
  rw [divides_by_zero_iff (reachable_sloping 1) (builtin_sloping 1) (.infer slopeStream)]
  rintro ⟨w, s, -, n, rules, a, strength, t, -, -, -, -, -, -, ht, -, hslope⟩
  rw [eq_of_term?_sloping ht] at hslope
  exact one_ne_zero (Option.some.inj hslope)

/-- **A sigmoid without a slope can be bound**, and then a rule that concludes
with it divides by zero. -/
theorem sloping_zero_divides_by_zero :
    (sloping 0).Reachable ∧ (sloping 0).Builtin ∧
    ∃ x, (sloping 0).Makes (.infer slopeStream) x ∧ 0 ∈ x.divisors := by
  have hreachable := reachable_sloping 0
  have hbuiltin := builtin_sloping 0
  obtain ⟨n, hinfer⟩ := exists_infer_slope 0
  have hconclusion : (⟨0, .is 0⟩, Scalar.half) ∈ (sloping 0).conclusionsFrom 0 slopeRule := by
    rw [conclusionsFrom_sloping]
    exact List.mem_singleton.mpr rfl
  have hpos : (0 : ℝ) < Scalar.half := by simp
  have ht : (sloping 0).term? .output 0 = some (Binding.term (inverted 0)) := rfl
  have hv : (sloping 0).outputs[0]? = some ⟨0, 10, 0⟩ := rfl
  refine ⟨hreachable, hbuiltin, _,
    .tsukamoto rfl hinfer begins_slope hconclusion hpos ht hv, ?_⟩
  rw [Computation.zero_mem_divisors_iff,
    defined_tsukamoto_iff hreachable.sound hbuiltin rfl ht hpos, not_not]
  refine ⟨⟨rfl, rfl⟩, ?_, ?_⟩
  · rw [Real.near_iff, Real.scalar_half]
    norm_num [abs_of_pos]
  · rw [Real.near_iff, Real.scalar_half]
    norm_num [abs_of_pos, abs_of_neg]

end Controller

end FuzzyInference
