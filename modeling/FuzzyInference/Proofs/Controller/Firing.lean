import FuzzyInference.Proofs.Controller.Acceptance
import FuzzyInference.Proofs.Controller.Reachable

/-!
# Inference is all or nothing

Inference reads its stream twice. The first reading only looks, the second
one fires the rules and changes the findings as it goes along. This module
shows that the second reading cannot be stopped once the first has gone
through: every event that a sound controller accepts can be fired, on any
findings of the right size (`Controller.fire_eq_fired`), and the two
readings meet the same events, because the number of variables is all they
ask the controller for, which taking back the findings does not change.

`Controller.fired` is what an event makes of the findings when nothing is
missing that it needs.
-/

namespace FuzzyInference

/-- **The degree of a statement of a premise**, among some findings. -/
def Cycle.degreeOf {α : Type} [Scalar α] (x : Cycle α) (r : TermRef) : α :=
  let degree := Scalar.clampUnit (x.degrees[r.index]?.getD 0)
  if r.negated then 1 - degree else degree

namespace Controller

variable {α : Type} [Scalar α] {c : Controller α}

/-! ## What an event makes of the findings -/

/-- The value of a conclusion of a strength, in a Sugeno or Tsukamoto
system. -/
def conclusion? (c : Controller α) (inputs : List α) (a : Atom) (strength : α) : Option α := do
  let term ← c.term? .output a.term.index
  let v ← c.outputs[a.subject]?
  match c.style with
  | .mamdani => none
  | .sugeno => term.sugeno? inputs v.lower v.upper
  | .tsukamoto => do
    let point ← term.tsukamoto? strength inputs v.lower v.upper
    v.saturateFinite? point

/-- **The value of a conclusion**, where it has one. -/
def conclusion (c : Controller α) (inputs : List α) (a : Atom) (strength : α) : α :=
  (c.conclusion? inputs a strength).getD 0

/-- **What a conclusion makes of the findings.** -/
def concluded (c : Controller α) (x : Cycle α) (a : Atom) (strength : α) : Cycle α :=
  match c.style with
  | .mamdani =>
    { x with activations := x.activations.modify a.term.index fun activation =>
        Activation.raise activation c.norms.aggregation a.term.negated strength }
  | .sugeno | .tsukamoto =>
    if 0 < strength then
      { x with sums := x.sums.modify a.subject fun sum =>
          WeightedSum.add sum (c.conclusion x.inputs a strength) strength }
    else x

/-- **What an event makes of the findings.** -/
def fired (c : Controller α) (f : Firing α) : Event → Firing α
  | .clause link a closes =>
    let strength := joinDegree c.norms link f.strength (f.cycle.degreeOf a.term)
    if closes then
      let weighted := strength * c.weight f.cycle.strengths.length
      { f with
        strength := weighted
        cycle := { f.cycle with strengths := f.cycle.strengths ++ [weighted] } }
    else { f with strength := strength }
  | .conclusion a closes =>
    let cycle := c.concluded f.cycle a f.strength
    if closes then ⟨cycle, 0, f.closed + 1⟩ else { f with cycle := cycle }
  | .done => f

/-! ## No event is stopped -/

/-- A statement of a premise has a degree. -/
theorem atomDegree?_eq_degreeOf {x : Cycle α} (hx : x.Fits c) {a : Atom}
    (ha : c.Resolves .input a) : atomDegree? x a.term = some (x.degreeOf a.term) := by
  obtain ⟨t, ht, -⟩ := ha
  have hlt : a.term.index < x.degrees.length := hx.degrees ▸ lt_of_term? ht
  unfold atomDegree? Cycle.degreeOf
  rw [List.getElem?_eq_getElem hlt]
  rfl

/-- In a Sugeno or Tsukamoto system a conclusion of some strength adds its
value to a sum. -/
theorem conclude_eq_of_ne_mamdani {x : Cycle α} {a : Atom} {strength : α} {t : Term α}
    {v : Variable α} (ht : c.term? .output a.term.index = some t)
    (hv : c.outputs[a.subject]? = some v) (hstyle : c.style ≠ .mamdani) :
    c.conclude x a strength
      = if 0 < strength then
          c.conclusion? x.inputs a strength >>= fun z => addConclusion x a.subject z strength
        else some x := by
  unfold conclude conclusion?
  rw [ht, hv]
  cases hs : c.style with
  | mamdani => exact absurd hs hstyle
  | sugeno => rfl
  | tsukamoto =>
    simp only [bind, Option.bind_some, Option.bind_assoc]
    rfl

theorem concluded_of_ne_mamdani {x : Cycle α} {a : Atom} {strength : α}
    (hstyle : c.style ≠ .mamdani) :
    c.concluded x a strength
      = if 0 < strength then
          { x with sums := x.sums.modify a.subject fun sum =>
              WeightedSum.add sum (c.conclusion x.inputs a strength) strength }
        else x := by
  unfold concluded
  cases hs : c.style with
  | mamdani => exact absurd hs hstyle
  | sugeno => rfl
  | tsukamoto => rfl

/-- The items of events fired, one event further. -/
theorem fireItems_cons {f g : Firing α} {e : Event} (hne : e ≠ .done) (h : c.fire f e = some g)
    (position : Nat) (items : List Cursor.Item) :
    c.fireItems f (.ok (position, e) :: items) = c.fireItems g items := by
  cases e with
  | clause link a closes => rw [fireItems, h]; exact fun h => by cases h
  | conclusion a closes => rw [fireItems, h]; exact fun h => by cases h
  | done => exact absurd rfl hne

variable [Scalar.IsOrdered α]

/-- **A conclusion has a value**, at all inputs and at every strength. -/
theorem exists_conclusion? (hc : c.Sound) {a : Atom} (ha : c.Resolves .output a)
    (hstyle : c.style ≠ .mamdani) (inputs : List α) (strength : α) :
    ∃ z, c.conclusion? inputs a strength = some z := by
  obtain ⟨t, ht, howner⟩ := ha
  have hadmits := hc.terms ht
  have hlt : a.subject < c.outputs.length := howner ▸ hadmits.owner_lt
  have hv : c.outputs[a.subject]? = some c.outputs[a.subject] := List.getElem?_eq_getElem hlt
  have hproper := hc.outputs _ (List.getElem_mem hlt)
  generalize c.outputs[a.subject] = v at hv hproper
  unfold conclusion?
  rw [ht, hv]
  cases hs : c.style with
  | mamdani => exact absurd hs hstyle
  | sugeno => exact Term.exists_sugeno? hadmits.supplied inputs v.lower v.upper
  | tsukamoto =>
    have hpart : ∀ shape, t.profile = .builtin shape → shape.part = .tsukamoto := by
      intro shape hshape
      have hallowed := hadmits.allowed
      rw [hs, hshape] at hallowed
      exact of_decide_eq_true hallowed
    obtain ⟨point, hpoint⟩ :=
      Term.exists_tsukamoto? hadmits.supplied hpart strength inputs v.lower v.upper
    have hvalue := Variable.saturateFinite?_of_isProperRange hproper point
    exact ⟨_, (congrArg (· >>= v.saturateFinite?) hpoint).trans hvalue⟩

theorem conclusion?_eq (hc : c.Sound) {a : Atom} (ha : c.Resolves .output a)
    (hstyle : c.style ≠ .mamdani) (inputs : List α) (strength : α) :
    c.conclusion? inputs a strength = some (c.conclusion inputs a strength) := by
  obtain ⟨z, hz⟩ := exists_conclusion? hc ha hstyle inputs strength
  unfold conclusion
  rw [hz]
  rfl

/-- **A conclusion can be drawn** from findings of the right size. -/
theorem conclude_eq_concluded (hc : c.Sound) {x : Cycle α} (hx : x.Fits c) {a : Atom}
    (ha : c.Resolves .output a) (strength : α) :
    c.conclude x a strength = some (c.concluded x a strength) := by
  have hvalue := conclusion?_eq hc ha
  obtain ⟨t, ht, howner⟩ := ha
  have hlt : a.subject < c.outputs.length := howner ▸ (hc.terms ht).owner_lt
  obtain ⟨v, hv⟩ : ∃ v, c.outputs[a.subject]? = some v := ⟨_, List.getElem?_eq_getElem hlt⟩
  -- the activation of the term, or the sum of the output, is there to be replaced
  by_cases hstyle : c.style = .mamdani
  · have hindex : a.term.index < x.activations.length := hx.activations ▸ lt_of_term? ht
    obtain ⟨activation, hactivation⟩ : ∃ b, x.activations[a.term.index]? = some b :=
      ⟨_, List.getElem?_eq_getElem hindex⟩
    unfold conclude concluded
    rw [ht, hv, hstyle]
    show (x.activations[a.term.index]? >>= _) = some _
    rw [hactivation, List.modify_eq_set_of_getElem? _ hactivation]
    rfl
  · obtain ⟨sum, hsum⟩ : ∃ s, x.sums[a.subject]? = some s :=
      ⟨_, List.getElem?_eq_getElem (hx.sums ▸ hlt)⟩
    rw [conclude_eq_of_ne_mamdani ht hv hstyle, concluded_of_ne_mamdani hstyle]
    by_cases hpos : 0 < strength
    · rw [if_pos hpos, if_pos hpos, hvalue hstyle, List.modify_eq_set_of_getElem? _ hsum]
      show (x.sums[a.subject]? >>= _) = some _
      rw [hsum]
      rfl
    · rw [if_neg hpos, if_neg hpos]

/-- **An accepted event can be fired**, on findings of the right size. -/
theorem fire_eq_fired (hc : c.Sound) {f : Firing α} (hf : f.cycle.Fits c) {e : Event}
    (he : c.Takes e) : c.fire f e = some (c.fired f e) := by
  cases e with
  | clause link a closes =>
    show (atomDegree? f.cycle a.term >>= _) = _
    rw [atomDegree?_eq_degreeOf hf he]
    cases closes <;> rfl
  | conclusion a closes =>
    show (c.conclude f.cycle a f.strength >>= _) = _
    rw [conclude_eq_concluded hc hf he.2]
    cases closes <;> rfl
  | done => rfl

theorem fits_fired (hc : c.Sound) {f : Firing α} (hf : f.cycle.Fits c) {e : Event}
    (he : c.Takes e) : (c.fired f e).cycle.Fits c :=
  fits_fire hf (fire_eq_fired hc hf he)

/-- **Accepted events can be fired one after the other**, up to the end. By
induction on the events, with findings of the right size throughout. -/
theorem fireItems_placed (hc : c.Sound) {es : List Event} (hes : ∀ e ∈ es, c.Takes e)
    (hopen : ∀ e ∈ es, e ≠ .done) {f : Firing α} (hf : f.cycle.Fits c) (position : Nat) :
    c.fireItems f ((Event.placed position (es ++ [.done])).map .ok)
      = (.ok (), es.foldl c.fired f) := by
  induction es generalizing f position with
  | nil => rfl
  | cons e es ih =>
    obtain ⟨he, hes⟩ := List.forall_mem_cons.mp hes
    obtain ⟨hne, hopen⟩ := List.forall_mem_cons.mp hopen
    rw [List.cons_append, Event.placed, List.map_cons, List.foldl_cons,
      fireItems_cons hne (fire_eq_fired hc hf he)]
    exact ih hes hopen (fits_fired hc hf he) _

/-! ## The second reading -/

/-- **A stream whose events are taken is fired to its end.** -/
theorem fireStream_of_begins (hc : c.Sound) {w : Width} {raws : List (Raw w)} {rules : List Rule}
    (hbegins : Stream.Begins c.bounds rules raws) (htakes : ∀ e ∈ Rule.script rules, c.Takes e) :
    c.fireStream (raws.map Token.ofRaw)
      = (.ok ((rules.flatMap Rule.events).foldl c.fired ⟨c.cycle, 0, 0⟩).closed,
        { c with cycle := { ((rules.flatMap Rule.events).foldl c.fired ⟨c.cycle, 0, 0⟩).cycle with
            inferred := true } }) := by
  have hopen : ∀ e ∈ rules.flatMap Rule.events, e ≠ .done := by
    intro e he
    obtain ⟨r, -, he⟩ := List.mem_flatMap.mp he
    exact Rule.ne_done_of_mem_events he
  unfold fireStream
  rw [Stream.items_of_begins hbegins, Rule.script,
    fireItems_placed hc (fun e he => htakes e (List.mem_append_left _ he)) hopen hc.fits]

/-- **Inference is all or nothing.** When it fails, the controller is as it
was. Once the first reading has gone through, the second one finds no
fault in the stream, knows every output term that is referred to, comes to
the end, and is successful. -/
theorem infer_all_or_nothing (hc : c.Reachable) {w : Width} (s : RuleStream w) :
    (∀ f, (c.infer s.tokens).1 = .error f →
      (c.infer s.tokens).2 = c ∧ ((∃ u, f = .unready u) ∨ ∃ g, f = .malformed g)) ∧
    (c.accept s.tokens = .ok () →
      (∀ i ∈ Stream.items c.cleared.bounds s.tokens, i.isOk = true) ∧
      (∃ position, (Stream.items c.cleared.bounds s.tokens).getLast?
        = some (.ok (position, .done))) ∧
      (∀ position a closes, .ok (position, .conclusion a closes)
          ∈ Stream.items c.cleared.bounds s.tokens →
        ∃ t, c.cleared.term? .output a.term.index = some t ∧ t.owner = a.subject) ∧
      ∃ rules after, c.cleared.fireStream s.tokens = (.ok rules, after) ∧
        after.cycle.inferred = true ∧
        (c.cycle.fuzzified = true → c.outputTerms.any Option.isNone = false →
          c.infer s.tokens = (.ok rules, after))) := by
  have hsecond (haccept : c.accept s.tokens = .ok ()) :
      ∃ rules after, c.cleared.fireStream s.tokens = (.ok rules, after) ∧
        after.cycle.inferred = true := by
    obtain ⟨rules, hbegins, htakes⟩ := accept_eq_ok_iff.mp haccept
    exact ⟨_, _, fireStream_of_begins (sound_cleared hc.sound) hbegins htakes, rfl⟩
  constructor
  · intro f hf
    rcases infer_cases c s.tokens with ⟨u, h⟩ | ⟨g, -, h⟩ | ⟨haccept, h⟩
    · rw [h] at hf ⊢
      exact ⟨rfl, .inl ⟨u, (Except.error.inj hf).symm⟩⟩
    · rw [h] at hf ⊢
      exact ⟨rfl, .inr ⟨g, (Except.error.inj hf).symm⟩⟩
    · -- past the first reading nothing fails
      obtain ⟨rules, after, hfired, -⟩ := hsecond haccept
      rw [h, hfired] at hf
      cases hf
  · intro haccept
    obtain ⟨rules, hbegins, -⟩ := accept_eq_ok_iff.mp haccept
    refine ⟨accepts_of_accept haccept, Stream.getLast?_items_of_begins hbegins, ?_, ?_⟩
    · intro position a closes hitem
      have htaken : c.acceptEvent position (.conclusion a closes) = .ok () :=
        List.forM_eq_ok_iff.mp haccept _ hitem
      exact (acceptEvent_eq_ok_iff.mp htaken).2
    · obtain ⟨rules, after, hfired, hinferred⟩ := hsecond haccept
      refine ⟨rules, after, hfired, hinferred, fun hfuzzified hbound => ?_⟩
      rw [infer_eq_fireStream hfuzzified hbound haccept, hfired]

/-- A Mamdani controller of one input and one output, with places for one
term of the former and for two of the latter. -/
def bare : Controller Float32 where
  style := .mamdani
  inputs := [⟨0, 1, 0⟩]
  outputs := [⟨0, 1, 0⟩]
  inputTerms := [none]
  outputTerms := [none, none]
  norms := .initial
  evalPoints := Setting.defaultEvalPoints
  defuzzifier := .centroid
  weights := none
  cycle := ⟨[0], [0], [⟨0, 0⟩, ⟨0, 0⟩], [⟨0, 0⟩], [], false, false⟩

/-- The controller when its terms have been bound and its input has been
fuzzified. -/
def ready : Controller Float32 :=
  bare.after [.bindTerm ⟨.input, 0, 0, .builtin .constant, [1], 1⟩,
    .bindTerm ⟨.output, 0, 0, .builtin .linearS, [0, 1], 1⟩,
    .bindTerm ⟨.output, 0, 1, .builtin .linearZ, [0, 1], 1⟩, .fuzzify]

theorem reachable_bare : bare.Reachable := by
  have hsetup : setup .mamdani [⟨0, 1, 0⟩] [⟨0, 1, 0⟩] 1 2 = .ok bare := rfl
  exact .setup hsetup

theorem reachable_ready : ready.Reachable := reachable_bare.after _

theorem accept_ready : ready.accept Stream.singleStream.tokens = .ok () := by
  refine accept_eq_ok_iff.mpr ⟨Stream.singleRule, Stream.begins_single [], ?_⟩
  intro e he
  have hscript : Rule.script Stream.singleRule
      = [.clause none ⟨0, .is 0⟩ true, .conclusion ⟨0, .isNot 1⟩ true, .done] := rfl
  rw [hscript] at he
  rcases List.mem_cons.mp he with rfl | he
  · exact ⟨_, rfl, rfl⟩
  · rcases List.mem_cons.mp he with rfl | he
    · exact ⟨fun h => h.2 rfl, _, rfl, rfl⟩
    · rw [List.mem_singleton.mp he]
      trivial

theorem infer_single_rule :
    (bare.infer Stream.singleStream.tokens).2 = bare ∧
    ∃ rules after, ready.infer Stream.singleStream.tokens = (.ok rules, after) ∧
      after.cycle.inferred = true := by
  constructor
  · exact ((infer_all_or_nothing reachable_bare Stream.singleStream).1 (.unready .notFuzzified)
      rfl).1
  · obtain ⟨-, -, -, rules, after, -, hinferred, hinfer⟩ :=
      (infer_all_or_nothing reachable_ready Stream.singleStream).2 accept_ready
    exact ⟨rules, after, hinfer rfl rfl, hinferred⟩

end Controller

end FuzzyInference
