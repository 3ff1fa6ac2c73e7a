import FuzzyInference.Proofs.Controller.Cycle
import FuzzyInference.Proofs.Description.Build
import FuzzyInference.Scalar.Single

/-!
# Evaluating what is built

A built system is ready to be evaluated, as often as one likes, but for
one thing. Whether conclusions may deny a term depends on the style of the
system, and neither the reader of the rules nor the encoder asks for the
style. A rule base with such a conclusion is built without a fault in
every style, and in a Sugeno or Tsukamoto system every single evaluation
of it is refused; without it, or in a Mamdani system, none is
(`Description.answers_of_build`).
-/

namespace FuzzyInference

namespace NamedController

variable {α : Type} [Scalar α]

/-- **The answers to some calls**, made one after the other. -/
def answers (n : NamedController α) :
    List (List (String × α)) → List (Except (Fault α) (List (String × α)))
  | [] => []
  | call :: calls => (n.evaluate call).1 :: (n.evaluate call).2.answers calls

/-- The system with its controller at another time. -/
def holding (n : NamedController α) (c : Controller α) : NamedController α :=
  { n with controller := c }

/-- **A system that is ready** to be evaluated. -/
structure Ready (n : NamedController α) : Prop where
  /-- Its controller is sound. -/
  sound : n.controller.Sound
  /-- All its terms are bound. -/
  bound : ∀ side, ∀ slot ∈ n.controller.termsOf side, slot ≠ none
  /-- Its inputs have names. -/
  inputNames : n.inputNames.length = n.controller.inputs.length
  /-- Its outputs have names. -/
  outputNames : n.outputNames.length = n.controller.outputs.length

/-- **A call that suits a system** has values for inputs that it knows. -/
def Suits (n : NamedController α) (call : List (String × α)) : Prop :=
  ∀ p ∈ call, p.1 ∈ n.inputNames ∧ ¬ Scalar.IsNaN p.2

variable {n : NamedController α} {c : Controller α}

/-- A system is ready at all times. -/
theorem Ready.holding (hn : n.Ready) (h : n.controller.Keeps c) (hc : c.Sound) :
    (n.holding c).Ready where
  sound := hc
  bound side := by
    show ∀ slot ∈ c.termsOf side, slot ≠ none
    rw [h.termsOf]
    exact hn.bound side
  inputNames := hn.inputNames.trans (Controller.length_variablesOf_congr h.frame .input).symm
  outputNames := hn.outputNames.trans (Controller.length_variablesOf_congr h.frame .output).symm

/-! ## One call -/

/-- **A value with a name that is known** has the number of an input. -/
theorem exists_taggedInput {p : String × α} (hname : p.1 ∈ n.inputNames)
    (hvalue : ¬ Scalar.IsNaN p.2) :
    ∃ tag, n.taggedInput p = .ok (tag, p.2) ∧ tag < n.inputNames.length := by
  obtain ⟨name, x⟩ := p
  cases htag : n.inputNames.findIdx? (· = name) with
  | none =>
    have hne := List.findIdx?_eq_none_iff.mp htag name hname
    exact absurd (decide_eq_true rfl) (Bool.not_eq_true _ ▸ hne)
  | some tag =>
    refine ⟨tag, ?_, (List.findIdx?_eq_some_iff_findIdx_eq.mp htag).1⟩
    simp only [taggedInput, htag, if_neg hvalue]

/-- **Inputs that are there can be set** to numbers, one after the other. -/
theorem exists_setInputs (hc : c.Sound) {tagged : List (Nat × α)}
    (h : ∀ p ∈ tagged, p.1 < c.inputs.length ∧ ¬ Scalar.IsNaN p.2) :
    ∃ d, c.setInputs tagged = .ok d ∧ c.Keeps d ∧ d.Sound := by
  induction tagged generalizing c with
  | nil => exact ⟨c, rfl, .refl c, hc⟩
  | cons p tagged ih =>
    obtain ⟨⟨hlt, hvalue⟩, hrest⟩ := List.forall_mem_cons.mp h
    obtain ⟨c', hset⟩ : ∃ c', c.setInput p.1 p.2 = .ok c' := by
      unfold Controller.setInput
      rw [List.getElem?_eq_getElem hlt]
      exact ⟨_, if_neg hvalue⟩
    have hkeeps := Controller.keeps_setInput hset
    have hlength : c'.inputs.length = c.inputs.length :=
      Controller.length_variablesOf_congr hkeeps.frame .input
    obtain ⟨d, hd, hkeeps', hsound⟩ := ih (Controller.sound_setInput hc hset) fun q hq => by
      rw [hlength]
      exact hrest q hq
    exact ⟨d, Except.bind_eq_ok_iff.mpr ⟨c', hset, hd⟩, hkeeps.trans hkeeps', hsound⟩

/-- What comes of a whole cycle. -/
def concluded (n : NamedController α) :
    Except (Fault α) Nat × Controller α →
      Except (Fault α) (List (String × α)) × NamedController α
  | (.error f, c) => (.error f, n.holding c)
  | (.ok _, c) => ((n.holding c).namedOutputs, n.holding c)

/-- **A call that suits** is a cycle, of a controller that has the given
inputs. -/
theorem exists_evaluate (hn : n.Ready) {call : List (String × α)} (hcall : n.Suits call) :
    ∃ c, n.controller.Keeps c ∧ c.Sound ∧
      n.evaluate call = n.concluded (c.runCycle n.rules.tokens) := by
  obtain ⟨tagged, htagged, -⟩ := List.exists_mapM_eq_ok (l := call) (f := n.taggedInput) (by
    intro p hp
    obtain ⟨tag, htag, -⟩ := exists_taggedInput (hcall p hp).1 (hcall p hp).2
    exact ⟨_, htag⟩)
  have hvalid : ∀ p ∈ tagged, p.1 < n.controller.inputs.length ∧ ¬ Scalar.IsNaN p.2 := by
    intro p hp
    have hmem : Except.ok p ∈ call.map n.taggedInput := by
      rw [List.mapM_eq_ok_iff.mp htagged]
      exact List.mem_map_of_mem hp
    obtain ⟨q, hq, hqp⟩ := List.mem_map.mp hmem
    obtain ⟨tag, htag, hlt⟩ := exists_taggedInput (hcall q hq).1 (hcall q hq).2
    cases htag.symm.trans hqp
    exact ⟨hn.inputNames ▸ hlt, (hcall q hq).2⟩
  obtain ⟨c, hset, hkeeps, hsound⟩ := exists_setInputs hn.sound hvalid
  refine ⟨c, hkeeps, hsound, ?_⟩
  have hset : (do n.controller.setInputs (← call.mapM n.taggedInput)) = .ok c :=
    Except.bind_eq_ok_iff.mpr ⟨tagged, htagged, hset⟩
  unfold evaluate
  rw [hset]
  rcases hrun : c.runCycle n.rules.tokens with ⟨outcome, after⟩
  simp only [hrun]
  cases outcome <;> rfl

omit [Scalar α] in
/-- **The values of the outputs**, each with its name. -/
theorem namedOutputs_eq (h : n.outputNames.length = n.controller.outputs.length) :
    n.namedOutputs = .ok (n.outputNames.zip (n.controller.outputs.map (·.value))) := by
  unfold namedOutputs
  rw [List.mapM_eq_ok_iff]
  refine List.ext_getElem (by simp [h]) fun i hi _ => ?_
  have hlt : i < n.controller.outputs.length := by simpa [← h] using hi
  have hvalue : n.controller.value .output i = .ok n.controller.outputs[i].value := by
    unfold Controller.value
    rw [show (n.controller.variablesOf .output)[i]? = _ from List.getElem?_eq_getElem hlt]
  simp only [List.getElem_map, List.getElem_zipIdx, Nat.zero_add, List.getElem_zip, hvalue]
  rfl

/-- **A call is answered** with a value for each output when the rule base is
accepted. -/
theorem evaluate_of_accept [Scalar.IsOrdered α] (hn : n.Ready)
    (haccept : n.controller.accept n.rules.tokens = .ok ()) {call : List (String × α)}
    (hcall : n.Suits call) :
    ∃ values, (n.evaluate call).1 = .ok values ∧ values.map Prod.fst = n.outputNames := by
  obtain ⟨c, hkeeps, hc, heq⟩ := exists_evaluate hn hcall
  have hready := hn.holding hkeeps hc
  rw [← Controller.accept_congr hkeeps] at haccept
  obtain ⟨rules, d, hrun⟩ :=
    Controller.runCycle_of_accept hc (hready.bound .input) (hready.bound .output) haccept
  have hd : (n.holding d).Ready := by
    have hkeeps' := Controller.keeps_runCycle c n.rules.tokens
    have hsound := Controller.sound_runCycle hc n.rules.tokens
    rw [hrun] at hkeeps' hsound
    exact hn.holding (hkeeps.trans hkeeps') hsound
  rw [heq, hrun]
  refine ⟨_, namedOutputs_eq hd.outputNames, List.map_fst_zip ?_⟩
  rw [List.length_map]
  exact Nat.le_of_eq hd.outputNames

/-- **A call fails** when the rule base is refused. -/
theorem evaluate_of_reject [Scalar.IsOrdered α] (hn : n.Ready) {f : StreamFault}
    (hreject : n.controller.accept n.rules.tokens = .error f) {call : List (String × α)}
    (hcall : n.Suits call) : (n.evaluate call).1 = .error (.malformed f) := by
  obtain ⟨c, hkeeps, hc, heq⟩ := exists_evaluate hn hcall
  have hready := hn.holding hkeeps hc
  rw [← Controller.accept_congr hkeeps] at hreject
  obtain ⟨d, hrun⟩ :=
    Controller.runCycle_of_reject hc (hready.bound .input) (hready.bound .output) hreject
  rw [heq, hrun]
  rfl

/-! ## One call after the other -/

/-- **What holds of the answer to any call** holds of all answers. By
induction on the calls, each of which leaves the same system with its
controller at another time. -/
theorem forall_answers (hn : n.Ready) {P : Except (Fault α) (List (String × α)) → Prop}
    (h : ∀ c, n.controller.Keeps c → c.Sound → ∀ call, n.Suits call →
      P ((n.holding c).evaluate call).1)
    {calls : List (List (String × α))} (hcalls : ∀ call ∈ calls, n.Suits call) :
    ∀ answer ∈ n.answers calls, P answer := by
  have hall : ∀ c, n.controller.Keeps c → c.Sound →
      ∀ answer ∈ (n.holding c).answers calls, P answer := by
    induction calls with
    | nil => exact fun c _ _ answer ha => absurd ha List.not_mem_nil
    | cons call calls ih =>
      intro c hkeeps hc answer ha
      obtain ⟨hcall, hcalls⟩ := List.forall_mem_cons.mp hcalls
      rcases List.mem_cons.mp ha with rfl | ha
      · exact h c hkeeps hc call hcall
      · obtain ⟨c', hkeeps', hc', heq⟩ := exists_evaluate (hn.holding hkeeps hc) hcall
        have hafter : ((n.holding c).evaluate call).2
            = n.holding (c'.runCycle n.rules.tokens).2 := by
          rw [heq, show (n.holding c).rules = n.rules from rfl]
          rcases c'.runCycle n.rules.tokens with ⟨outcome, d⟩
          cases outcome <;> rfl
        rw [hafter] at ha
        exact ih hcalls _ ((hkeeps.trans hkeeps').trans (Controller.keeps_runCycle _ _))
          (Controller.sound_runCycle hc' _) answer ha
  exact hall n.controller (.refl _) hn.sound

end NamedController

namespace Description

variable {α : Type} [Scalar α] {d : Description α} {n : NamedController α} {rules : List Rule}

/-- **Rules that are legal** in a style: only in a Mamdani system conclusions
may deny a term. -/
def Legal (style : Style) (rules : List Rule) : Prop :=
  style = .mamdani ∨ ∀ r ∈ rules, ∀ a ∈ r.conclusions, a.term.negated = false

/-- **A call that suits a description** has values for inputs that it
describes. -/
def Suits (d : Description α) (call : List (String × α)) : Prop :=
  ∀ p ∈ call, p.1 ∈ d.inputs.map (·.name) ∧ ¬ Scalar.IsNaN p.2

namespace Built

/-- A built system is ready. -/
theorem ready (hn : d.Built n) : n.Ready where
  sound := hn.describes.reachable.sound
  bound := hn.bound
  inputNames := by
    rw [hn.inputNames, List.length_map]
    exact (hn.describes.counts .input).symm
  outputNames := by
    rw [hn.outputNames, List.length_map]
    exact (hn.describes.counts .output).symm

/-- **The statements of its rules** speak of terms that are bound, each as a
term of the variable it is said of. -/
theorem resolves (hn : d.Built n) {side : Side} {a : Atom} (ha : a.Named d.names.resolver side) :
    n.controller.Resolves side a := by
  obtain ⟨-, p, hp, howner, hslot⟩ := exists_placed_of_named ha
  have hlt : a.term.index < (n.controller.termsOf side).length := by
    rw [hn.describes.places, ← hslot]
    exact slot_lt_of_mem_placed hp
  obtain ⟨t, ht⟩ := Option.ne_none_iff_exists'.mp (hn.bound side _ (List.getElem_mem hlt))
  have hterm : n.controller.term? side a.term.index = some t := by
    unfold Controller.term?
    rw [List.getElem?_eq_getElem hlt, ht]
    rfl
  -- the term in the place is the one that is described, as there is no other for it
  obtain ⟨q, hq, hslot', howner'⟩ := hn.describes.owners hterm
  rw [placed_unique hq hp (hslot'.trans hslot.symm)] at howner'
  exact ⟨t, hterm, howner'.symm.trans howner⟩

/-- The rule base is the one that the text is read as. -/
theorem encoded (hn : d.Built n) (hrules : readRules d.names.resolver d.ruleText = .ok rules) :
    RuleStream.encode .bits16 rules = .ok n.rules := by
  obtain ⟨rules', hrules', hencode⟩ := hn.rules
  cases hrules.symm.trans hrules'
  exact hencode

/-- A statement of a rule fits among the variables of the controller. -/
theorem fits (hn : d.Built n) (side : Side) (hcount : termCount (d.variablesOf side) < 2 ^ 63)
    {a : Atom} (ha : a.Named d.names.resolver side) :
    a.Fits (n.controller.variablesOf side).length := by
  obtain ⟨hsubject, p, hp, -, hslot⟩ := exists_placed_of_named ha
  refine ⟨?_, ?_⟩
  · rw [hn.describes.counts]
    exact hsubject
  · rw [← hslot]
    exact Nat.lt_of_lt_of_le (slot_lt_of_mem_placed hp) (Nat.le_pred_of_lt hcount)

/-- **The stream of a built system** begins with the rules of its text. -/
theorem begins (hn : d.Built n) (hinputs : termCount d.inputs < 2 ^ 63)
    (houtputs : termCount d.outputs < 2 ^ 63)
    (hrules : readRules d.names.resolver d.ruleText = .ok rules) :
    Stream.Begins n.controller.bounds rules n.rules.table := by
  have hencode := hn.encoded hrules
  refine ⟨fun r hr => ?_, n.rules, hencode, List.prefix_rfl⟩
  have hnamed := named_of_readRules hrules r hr
  refine ⟨RuleStream.isComplete_of_encode hencode r hr, fun q hq => ?_, fun a ha => ?_⟩
  · exact hn.fits .input hinputs (hnamed.clauses q hq)
  · exact hn.fits .output houtputs (hnamed.conclusions a ha)

/-- **An event of the rules is accepted** unless it is a conclusion that
denies a term where the style has no use for it. -/
theorem takes_or_denies (hn : d.Built n)
    (hrules : readRules d.names.resolver d.ruleText = .ok rules) {e : Event}
    (he : e ∈ Rule.script rules) :
    n.controller.Takes e ∨ ∃ a closes, e = .conclusion a closes ∧ a.term.negated = true ∧
      d.style ≠ .mamdani := by
  cases e with
  | clause link a closes =>
    obtain ⟨r, hr, hq⟩ := Rule.clause_mem_script_iff.mp ⟨closes, he⟩
    exact .inl (hn.resolves ((named_of_readRules hrules r hr).clauses _ hq))
  | conclusion a closes =>
    obtain ⟨r, hr, ha⟩ := Rule.conclusion_mem_script_iff.mp ⟨closes, he⟩
    by_cases hdenied : a.term.negated = true ∧ d.style ≠ .mamdani
    · exact .inr ⟨a, closes, rfl, hdenied⟩
    · rw [← hn.describes.style] at hdenied
      exact .inl ⟨hdenied, hn.resolves ((named_of_readRules hrules r hr).conclusions a ha)⟩
  | done => exact .inl trivial

/-- **The rule base of a built system is accepted** if and only if it is
legal. -/
theorem accept_iff (hn : d.Built n) (hinputs : termCount d.inputs < 2 ^ 63)
    (houtputs : termCount d.outputs < 2 ^ 63)
    (hrules : readRules d.names.resolver d.ruleText = .ok rules) :
    n.controller.accept n.rules.tokens = .ok () ↔ Legal d.style rules := by
  have hbegins := hn.begins hinputs houtputs hrules
  have htakes : n.controller.accept n.rules.tokens = .ok () ↔
      ∀ e ∈ Rule.script rules, n.controller.Takes e := by
    -- the stream begins with no other rules than these
    refine Controller.accept_eq_ok_iff.trans ⟨?_, fun h => ⟨rules, hbegins, h⟩⟩
    rintro ⟨rules', hbegins', h⟩
    rw [← Stream.begins_unique hbegins hbegins']
    exact h
  rw [htakes]
  constructor
  · intro h
    by_cases hstyle : d.style = .mamdani
    · exact .inl hstyle
    · refine .inr fun r hr a ha => ?_
      obtain ⟨closes, he⟩ := Rule.conclusion_mem_script_iff.mpr ⟨r, hr, ha⟩
      rw [← Bool.not_eq_true]
      intro hnegated
      exact (h _ he).1 ⟨hnegated, hn.describes.style ▸ hstyle⟩
  · intro hlegal e he
    rcases hn.takes_or_denies hrules he with h | ⟨a, closes, rfl, hnegated, hstyle⟩
    · exact h
    · obtain ⟨r, hr, ha⟩ := Rule.conclusion_mem_script_iff.mp ⟨closes, he⟩
      rcases hlegal with hmamdani | hasserted
      · exact absurd hmamdani hstyle
      · rw [hasserted r hr a ha] at hnegated
        cases hnegated

/-- **What is wrong with a rule base that is refused**: one of its conclusions
denies a term. -/
theorem reason_of_reject (hn : d.Built n) (hinputs : termCount d.inputs < 2 ^ 63)
    (houtputs : termCount d.outputs < 2 ^ 63)
    (hrules : readRules d.names.resolver d.ruleText = .ok rules) {f : StreamFault}
    (h : n.controller.accept n.rules.tokens = .error f) :
    f.reason = .negatedConclusion d.style := by
  have hitems : Stream.items n.controller.bounds n.rules.tokens = _ :=
    Stream.items_of_begins (hn.begins hinputs houtputs hrules)
  rw [Controller.accept, hitems] at h
  obtain ⟨i, hi, hrefused⟩ := List.exists_of_forM_eq_error h
  obtain ⟨⟨position, e⟩, hp, rfl⟩ := List.mem_map.mp hi
  have he : e ∈ Rule.script rules := by
    rw [← Stream.map_snd_placed 1 (Rule.script rules)]
    exact List.mem_map_of_mem hp
  rcases hn.takes_or_denies hrules he with htakes | ⟨a, closes, rfl, hnegated, hstyle⟩
  · cases hrefused.symm.trans (Controller.acceptEvent_eq_ok_iff.mpr htakes)
  · have hdenied : a.term.negated = true ∧ n.controller.style ≠ .mamdani :=
      ⟨hnegated, hn.describes.style ▸ hstyle⟩
    have hrefusal : n.controller.acceptEvent position (.conclusion a closes)
        = .error ⟨position + 1, .negatedConclusion n.controller.style⟩ := if_pos hdenied
    cases hrefused.symm.trans hrefusal
    exact congrArg StreamFault.Reason.negatedConclusion hn.describes.style

/-! ## Every call of every run -/

/-- The system knows the names that the description gives. -/
theorem suits (hn : d.Built n) {calls : List (List (String × α))}
    (hcalls : ∀ call ∈ calls, d.Suits call) : ∀ call ∈ calls, n.Suits call := by
  intro call hcall p hp
  rw [hn.inputNames]
  exact hcalls call hcall p hp

/-- **Legal rules are answered for**, call after call. -/
theorem answered [Scalar.IsOrdered α] (hn : d.Built n)
    (haccept : n.controller.accept n.rules.tokens = .ok ()) {calls : List (List (String × α))}
    (hcalls : ∀ call ∈ calls, d.Suits call) :
    ∀ answer ∈ n.answers calls,
      ∃ values, answer = .ok values ∧ values.map Prod.fst = d.outputs.map (·.name) := by
  rw [← hn.outputNames]
  refine NamedController.forall_answers hn.ready (fun c hkeeps hc call hcall => ?_)
    (hn.suits hcalls)
  rw [← Controller.accept_congr hkeeps] at haccept
  exact NamedController.evaluate_of_accept (hn.ready.holding hkeeps hc) haccept hcall

/-- **Rules that are not legal are refused**, call after call. -/
theorem refused [Scalar.IsOrdered α] (hn : d.Built n) {f : StreamFault}
    (hreject : n.controller.accept n.rules.tokens = .error f) {calls : List (List (String × α))}
    (hcalls : ∀ call ∈ calls, d.Suits call) :
    ∀ answer ∈ n.answers calls, answer = .error (.malformed f) := by
  refine NamedController.forall_answers hn.ready (fun c hkeeps hc call hcall => ?_)
    (hn.suits hcalls)
  rw [← Controller.accept_congr hkeeps] at hreject
  exact NamedController.evaluate_of_reject (hn.ready.holding hkeeps hc) hreject hcall

end Built

/-- **A built system answers every call** with one value for each output, if
and only if its rules are legal in its style. Where they are not it is built
all the same, and it answers no call at all. -/
theorem answers_of_build [Scalar.IsOrdered α] (hbuild : d.build = .ok n)
    (hinputs : termCount d.inputs < 2 ^ 63) (houtputs : termCount d.outputs < 2 ^ 63)
    (hrules : readRules d.names.resolver d.ruleText = .ok rules) :
    ((∀ calls, (∀ call ∈ calls, d.Suits call) → ∀ answer ∈ n.answers calls,
        ∃ values, answer = .ok values ∧ values.map Prod.fst = d.outputs.map (·.name)) ↔
      Legal d.style rules) ∧
    (¬ Legal d.style rules → ∀ calls, (∀ call ∈ calls, d.Suits call) →
      ∀ answer ∈ n.answers calls,
        ∃ position, answer = .error (.malformed ⟨position, .negatedConclusion d.style⟩)) := by
  have hn := built_of_build hbuild
  have haccept := hn.accept_iff hinputs houtputs hrules
  have hrefused (hlegal : ¬ Legal d.style rules) (calls) (hcalls : ∀ call ∈ calls, d.Suits call) :
      ∀ answer ∈ n.answers calls,
        ∃ position, answer = .error (.malformed ⟨position, .negatedConclusion d.style⟩) := by
    cases hreject : n.controller.accept n.rules.tokens with
    | ok u => exact absurd (haccept.mp hreject) hlegal
    | error f =>
      intro answer hanswer
      rw [hn.refused hreject hcalls answer hanswer,
        ← hn.reason_of_reject hinputs houtputs hrules hreject]
      exact ⟨f.position, rfl⟩
  refine ⟨⟨fun h => ?_, fun hlegal calls hcalls => hn.answered (haccept.mpr hlegal) hcalls⟩,
    hrefused⟩
  -- a single call without any input is enough to tell
  refine Classical.not_not.mp fun hlegal => ?_
  have hsuits : ∀ call ∈ [([] : List (String × α))], d.Suits call :=
    List.forall_mem_singleton.mpr fun p hp => absurd hp List.not_mem_nil
  obtain ⟨values, hanswer, -⟩ := h _ hsuits _ List.mem_cons_self
  obtain ⟨position, hfault⟩ := hrefused hlegal _ hsuits _ List.mem_cons_self
  cases hanswer.symm.trans hfault

/-! Sugeno systems of one rule, whose conclusion denies its term or does not. -/

/-- The description of one that denies it. -/
def ramp : Description Float32 where
  style := .sugeno
  inputs := [⟨"x", 0, 1, [⟨"low", .linearZ, [0, 1], 1⟩]⟩]
  outputs := [⟨"y", 0, 1, [⟨"high", .constant, [1], 1⟩]⟩]
  and := none
  or := none
  implication := none
  aggregation := none
  evalPoints := none
  defuzzifier := none
  rules := ["IF x IS low THEN y IS NOT high"]
  weights := none

/-- The description of one that does not. -/
def rising : Description Float32 := { ramp with rules := ["IF x IS low THEN y IS high"] }

/-- The rules in numbers. -/
def rampRules (conclusion : TermRef) : List Rule := [⟨some ⟨⟨0, .is 0⟩, []⟩, [⟨0, conclusion⟩]⟩]

theorem readRules_ramp :
    readRules ramp.names.resolver ramp.ruleText = .ok (rampRules (.isNot 0)) ∧
      readRules rising.names.resolver rising.ruleText = .ok (rampRules (.is 0)) := by
  have hdenied : (readRules ramp.names.resolver ramp.ruleText).toOption
      = some (rampRules (.isNot 0)) := by decide +kernel
  have hasserted : (readRules rising.names.resolver rising.ruleText).toOption
      = some (rampRules (.is 0)) := by decide +kernel
  exact ⟨Except.eq_ok_of_toOption hdenied, Except.eq_ok_of_toOption hasserted⟩

theorem legal_ramp : ¬ Legal ramp.style (rampRules (.isNot 0)) ∧
    Legal rising.style (rampRules (.is 0)) := by
  constructor
  · rintro (h | h)
    · cases h
    · exact Bool.noConfusion (h _ List.mem_cons_self _ List.mem_cons_self)
  · exact .inr (List.forall_mem_singleton.mpr (List.forall_mem_singleton.mpr rfl))

/-- The fault of a rule stream that an evaluation has stopped at. -/
def refusal? {β : Type} : Except (Fault α) β → Option StreamFault
  | .error (.malformed f) => some f
  | _ => none

theorem suits_ramp : ramp.Suits [("x", 1)] := by
  intro p hp
  rw [List.mem_singleton.mp hp]
  exact ⟨List.mem_cons_self, by decide⟩

/-- Both systems are built. The one answers no call and the other one all of
them. -/
theorem answers_of_build_ramp :
    (∃ n, ramp.build = .ok n ∧
      (∃ calls, (∀ call ∈ calls, ramp.Suits call) ∧ ∃ answer ∈ n.answers calls,
        ∀ values, answer ≠ .ok values) ∧
      ∀ answer ∈ n.answers [[("x", 1)], []],
        ∃ position, answer = .error (.malformed ⟨position, .negatedConclusion .sugeno⟩)) ∧
    ∃ n, rising.build = .ok n ∧ ∀ answer ∈ n.answers [[("x", 1)], []],
      ∃ values, answer = .ok values ∧ values.map Prod.fst = ["y"] := by
  have hbuilt : ramp.build.toOption.isSome = true ∧ rising.build.toOption.isSome = true := by
    decide +kernel
  have hcalls : ∀ call ∈ [[("x", (1 : Float32))], []], ramp.Suits call :=
    List.forall_mem_cons.mpr ⟨suits_ramp, List.forall_mem_singleton.mpr fun p hp =>
      absurd hp List.not_mem_nil⟩
  constructor
  · obtain ⟨n, hn⟩ := Option.isSome_iff_exists.mp hbuilt.1
    have hbuild := Except.eq_ok_of_toOption hn
    obtain ⟨-, hrefused⟩ := answers_of_build hbuild (by decide) (by decide) readRules_ramp.1
    have hanswers := hrefused legal_ramp.1 _ hcalls
    obtain ⟨position, hfirst⟩ := hanswers _ List.mem_cons_self
    refine ⟨n, hbuild, ⟨_, hcalls, _, List.mem_cons_self, fun values hvalues => ?_⟩, hanswers⟩
    cases hvalues.symm.trans hfirst
  · obtain ⟨n, hn⟩ := Option.isSome_iff_exists.mp hbuilt.2
    have hbuild := Except.eq_ok_of_toOption hn
    obtain ⟨hanswered, -⟩ := answers_of_build hbuild (by decide) (by decide) readRules_ramp.2
    exact ⟨n, hbuild, hanswered.mpr legal_ramp.2 _ hcalls⟩

theorem ramp_refuses : ∃ n, ramp.build = .ok n ∧ ramp.Suits [("x", 1)] ∧
    (n.evaluate [("x", 1)]).1 = .error (.malformed ⟨5, .negatedConclusion .sugeno⟩) := by
  have hrefusal : (ramp.build.toOption.bind fun n => refusal? (n.evaluate [("x", 1)]).1)
      = some ⟨5, .negatedConclusion .sugeno⟩ := by decide +kernel
  obtain ⟨n, hn, hrefused⟩ := Option.bind_eq_some_iff.mp hrefusal
  refine ⟨n, Except.eq_ok_of_toOption hn, suits_ramp, ?_⟩
  unfold refusal? at hrefused
  split at hrefused
  · next hanswer =>
    cases hrefused
    exact hanswer
  · cases hrefused

end Description

end FuzzyInference
