import FuzzyInference.Description.InPlace
import FuzzyInference.Proofs.Controller.Configured
import FuzzyInference.Proofs.Controller.Numbered
import FuzzyInference.Proofs.Controller.Stepwise
import FuzzyInference.Proofs.Description.Evaluate
import FuzzyInference.Proofs.Description.Tables

/-!
# By name or by number

A system can be evaluated by name, with values for some of its inputs, and
its controller can be evaluated by number, with values for all of them. The
former does nothing that the latter would not do: where all the names are
known and all the values are numbers, the inputs that are not mentioned are
given the values that they have, and the one that is mentioned more than once
the last of its values (`NamedController.inputsFor`).

So this is a statement about all the systems that a description leads to
(`Description.Reaches`). That the names are different has been checked when
the system was built, and that the values of the inputs are numbers is what
holds from then on (`Controller.Numbered`); it is needed because an
evaluation by number would object to a value that is not.
-/

namespace FuzzyInference

/-- Pairs with other keys, when no keys are confounded with the one that is
asked for. -/
theorem lastValue?_map {κ κ' α : Type} [DecidableEq κ] [DecidableEq κ'] (pairs : List (κ × α))
    {f : κ → κ'} {key : κ} (hf : ∀ p ∈ pairs, f p.1 = f key → p.1 = key) :
    lastValue? (pairs.map fun p => (f p.1, p.2)) (f key) = lastValue? pairs key := by
  have hfilter : (pairs.map fun p => (f p.1, p.2)).filter (fun p => p.1 = f key)
      = (pairs.filter fun p => p.1 = key).map fun p => (f p.1, p.2) := by
    rw [List.filter_map]
    refine congrArg _ (List.filter_congr fun p hp => ?_)
    exact decide_eq_decide.mpr ⟨hf p hp, congrArg f⟩
  unfold lastValue?
  rw [hfilter, List.getLast?_map, Option.map_map]
  rfl

/-- What is done after a cycle is done with the controller that it leaves, if
it has gone through. -/
theorem InPlace.on_cycle_then {α β : Type} [Scalar α] (inference : InPlace α Nat)
    (p : InPlace α β) (c : Controller α) :
    (do fuzzify; let _ ← inference; defuzzify; p : InPlace α β).on c
      = match (cycle inference).on c with
        | (.ok _, d) => p.on d
        | (.error f, d) => (.error f, d) := by
  have hcycle : (do fuzzify; let _ ← inference; defuzzify; p : InPlace α β)
      = cycle inference >>= fun _ => p := by
    unfold cycle
    simp only [bind_assoc, pure_bind]
  rw [hcycle, on_bind]
  rcases (cycle inference).on c with ⟨outcome, d⟩
  cases outcome <;> rfl

namespace NamedController

variable {α : Type} [Scalar α] {n : NamedController α} {call : List (String × α)}

/-- **The values that a call leaves the inputs with**: those that it lists
last, and those that the inputs have where it lists none. -/
def inputsFor (n : NamedController α) (call : List (String × α)) : List α :=
  (n.inputNames.zip n.controller.inputs).map fun (name, v) =>
    (lastValue? call name).getD v.value

/-! ## One call -/

/-- A name that is known has its place among the names. -/
theorem taggedInput_eq {p : String × α} (hname : p.1 ∈ n.inputNames)
    (hvalue : ¬ Scalar.IsNaN p.2) :
    n.taggedInput p = .ok (n.inputNames.idxOf p.1, p.2) := by
  have hfind : n.inputNames.findIdx? (· = p.1) = some (n.inputNames.idxOf p.1) := by
    rw [List.findIdx?_eq_some_iff_findIdx_eq]
    refine ⟨List.idxOf_lt_length_iff.mpr hname, congrArg (n.inputNames.findIdx ·) ?_⟩
    funext name
    exact (beq_eq_decide name p.1).symm
  unfold taggedInput
  simp only [hfind, if_neg hvalue]

/-- What is not a number, or has a name that is not known, is rejected. -/
theorem taggedInput_cases (n : NamedController α) (p : String × α) :
    (p.1 ∈ n.inputNames ∧ ¬ Scalar.IsNaN p.2) ∨ ∃ r, n.taggedInput p = .error (.rejected r) := by
  obtain ⟨name, x⟩ := p
  cases hfind : n.inputNames.findIdx? (· = name) with
  | none =>
    refine .inr ⟨.unknownInput name, ?_⟩
    simp only [taggedInput, hfind]
    rfl
  | some tag =>
    by_cases hvalue : Scalar.IsNaN x
    · refine .inr ⟨.namedInputNotNumber name, ?_⟩
      simp only [taggedInput, hfind, if_pos hvalue]
      rfl
    · refine .inl ⟨?_, hvalue⟩
      by_contra hname
      have hnone : n.inputNames.findIdx? (· = name) = none :=
        List.findIdx?_eq_none_iff.mpr fun other hother =>
          decide_eq_false fun heq => hname (heq ▸ hother)
      cases hfind.symm.trans hnone

/-- A call with the numbers of the inputs in place of their names. -/
def byNumber (n : NamedController α) (call : List (String × α)) : List (Nat × α) :=
  call.map fun p => (n.inputNames.idxOf p.1, p.2)

theorem mapM_taggedInput (hcall : n.Suits call) :
    call.mapM n.taggedInput = .ok (n.byNumber call) := by
  unfold byNumber
  rw [List.mapM_eq_ok_iff, List.map_map]
  exact List.map_congr_left fun p hp => taggedInput_eq (hcall p hp).1 (hcall p hp).2

/-- **The inputs are set** to the values of a call. -/
theorem withSettings_eq (hcall : n.Suits call) (hnames : n.inputNames.Nodup)
    (hcount : n.inputNames.length = n.controller.inputs.length) :
    n.controller.withSettings (n.byNumber call) = n.controller.withInputs (n.inputsFor call) := by
  refine Controller.withSettings_eq_withInputs fun i v hv => ?_
  have hlt : i < n.inputNames.length := hcount ▸ (List.getElem?_eq_some_iff.mp hv).1
  have hplace : n.inputNames.idxOf n.inputNames[i] = i := hnames.idxOf_getElem i hlt
  have hlast : lastValue? (n.byNumber call) i = lastValue? call n.inputNames[i] := by
    rw [← lastValue?_map call (f := (n.inputNames.idxOf ·)) fun p hp h => ?_]
    · simp only [hplace]
      rfl
    · exact (List.idxOf_inj (hcall p hp).1).mp h
  have hzip : (n.inputNames.zip n.controller.inputs)[i]? = some (n.inputNames[i], v) :=
    List.getElem?_zip_eq_some.mpr ⟨List.getElem?_eq_getElem hlt, hv⟩
  unfold inputsFor
  rw [List.getElem?_map, hzip, hlast]
  rfl

/-- **A call that suits a system** sets the inputs and runs a cycle. -/
theorem on_evaluation (hcall : n.Suits call) (hnames : n.inputNames.Nodup)
    (hcount : n.inputNames.length = n.controller.inputs.length) :
    (n.evaluation call).on n.controller
      = match (InPlace.cycle (.inferTable n.rules)).on
          (n.controller.withInputs (n.inputsFor call)) with
        | (.ok _, c) => ((n.holding c).namedOutputs, c)
        | (.error f, c) => (.error f, c) := by
  have hsettings : ∀ q ∈ n.byNumber call,
      q.1 < n.controller.inputs.length ∧ ¬ Scalar.IsNaN q.2 := by
    intro q hq
    obtain ⟨p, hp, rfl⟩ := List.mem_map.mp hq
    exact ⟨hcount ▸ List.idxOf_lt_length_iff.mpr (hcall p hp).1, (hcall p hp).2⟩
  unfold evaluation
  rw [mapM_taggedInput hcall, InPlace.on_bind_of_ok (InPlace.on_liftM _ _),
    InPlace.on_bind_of_ok (InPlace.on_setInputs hsettings), withSettings_eq hcall hnames hcount,
    InPlace.on_cycle_then]
  rcases (InPlace.cycle (.inferTable n.rules)).on _ with ⟨outcome, c⟩
  cases outcome <;> rfl

/-- **A call that does not suit a system** is rejected before anything is
done. -/
theorem on_evaluation_of_not_suits (hcall : ¬ n.Suits call) :
    ∃ r, (n.evaluation call).on n.controller = (.error (.rejected r), n.controller) := by
  cases htagged : call.mapM n.taggedInput with
  | ok tagged =>
    refine absurd (fun p hp => (n.taggedInput_cases p).resolve_right ?_) hcall
    rintro ⟨r, hr⟩
    have hmem := List.mem_map_of_mem (f := n.taggedInput) hp
    rw [List.mapM_eq_ok_iff.mp htagged, hr] at hmem
    obtain ⟨q, -, hq⟩ := List.mem_map.mp hmem
    cases hq
  | error f =>
    obtain ⟨p, -, hp⟩ := List.exists_of_mapM_eq_error htagged
    unfold evaluation
    rw [htagged, InPlace.on_bind_of_error (InPlace.on_liftM _ _)]
    rcases n.taggedInput_cases p with ⟨hname, hvalue⟩ | ⟨r, hr⟩
    · cases hp.symm.trans (taggedInput_eq hname hvalue)
    · cases hp.symm.trans hr
      exact ⟨r, rfl⟩

omit [Scalar α] in
theorem length_inputsFor (hcount : n.inputNames.length = n.controller.inputs.length) :
    (n.inputsFor call).length = n.controller.inputs.length := by
  unfold inputsFor
  rw [List.length_map, List.length_zip, hcount, Nat.min_self]

theorem number_of_mem_inputsFor (hcall : n.Suits call) (hnumbers : n.controller.Numbered) :
    ∀ x ∈ n.inputsFor call, ¬ Scalar.IsNaN x := by
  intro x hx
  obtain ⟨⟨name, v⟩, hmem, rfl⟩ := List.mem_map.mp hx
  show ¬ Scalar.IsNaN ((lastValue? call name).getD v.value)
  cases hlast : lastValue? call name with
  | none => exact hnumbers v (List.of_mem_zip hmem).2
  | some y =>
    obtain ⟨p, hp, rfl⟩ := Option.map_eq_some_iff.mp hlast
    exact (hcall p (List.mem_filter.mp (List.mem_of_getLast? hp)).1).2

/-- **A call is an evaluation by number.** -/
theorem evaluateInPlace_eq (hcall : n.Suits call) (hnames : n.inputNames.Nodup)
    (hcount : n.inputNames.length = n.controller.inputs.length)
    (hnumbers : n.controller.Numbered) :
    n.evaluateInPlace call
      = n.concluded ((InPlace.evaluate (.inferTable n.rules) (n.inputsFor call)).on
          n.controller) := by
  have hon := on_evaluation hcall hnames hcount
  rw [← InPlace.evaluate_of_numbers (.inferTable n.rules) (length_inputsFor hcount)
    (number_of_mem_inputsFor hcall hnumbers)] at hon
  unfold evaluateInPlace
  rw [hon]
  rcases (InPlace.evaluate (.inferTable n.rules) (n.inputsFor call)).on n.controller
    with ⟨outcome, c⟩
  cases outcome <;> rfl

end NamedController

/-! ## Systems that a description leads to -/

namespace Description

variable {α : Type} [Scalar α] {d : Description α} {n : NamedController α}

/-- **The systems that a description leads to**: the one that is built, and what
becomes of it when it is evaluated, or when its controller is operated on,
with success or without. -/
inductive Reaches (d : Description α) : NamedController α → Prop
  /-- The system that is built. -/
  | build {n : NamedController α} (h : d.build = .ok n) : d.Reaches n
  /-- A system after an evaluation by name. -/
  | evaluate {n : NamedController α} (hn : d.Reaches n) (call : List (String × α)) :
    d.Reaches (n.evaluateInPlace call).2
  /-- A system after an operation on its controller. -/
  | operate {n : NamedController α} (hn : d.Reaches n) (command : Command α) :
    d.Reaches (n.holding (n.controller.operate command).2)

/-- **What is known of all these systems.** -/
structure Serves (d : Description α) (n : NamedController α) : Prop where
  /-- The controller is one that has been set up and operated on. -/
  reachable : n.controller.Reachable
  /-- Its inputs are numbers. -/
  numbered : n.controller.Numbered
  /-- It has the described variables. -/
  counts : ∀ side, (n.controller.variablesOf side).length = (d.variablesOf side).length
  /-- The inputs are known by the described names. -/
  inputNames : n.inputNames = d.inputs.map (·.name)
  /-- And so are the outputs. -/
  outputNames : n.outputNames = d.outputs.map (·.name)
  /-- The names are different. -/
  distinct : ∀ side, Distinct (d.variablesOf side)

/-- **What holds of a controller that is set up** and is kept by all commands
holds of the controller of the system that is built. -/
theorem build_induction {P : Controller α → Prop} (h : d.build = .ok n)
    (hsetup : ∀ c, d.setup = .ok c → P c) (hperform : ∀ c command, P c → P (c.perform command).2) :
    P n.controller := by
  have hstep {c e : Controller α} {r : Except (Fault α) (Controller α)} (command : Command α)
      (hc : P c) (hcommand : c.perform command = c.settle r) (hr : r = .ok e) : P e := by
    have hafter := hperform c command hc
    rw [hcommand, hr] at hafter
    exact hafter
  obtain ⟨-, ⟨fresh, chosen, bound, hfresh, hconfigure, hbind, hweighs⟩, -⟩ := build_eq_ok h
  obtain ⟨settled, hsettled, hmethod⟩ := Except.bind_eq_ok_iff.mp hconfigure
  obtain ⟨inputs, hinputs, houtputs⟩ := Except.bind_eq_ok_iff.mp hbind
  have hP : P settled := List.foldlM_eq_ok_induction hsettled (hsetup fresh hfresh)
    fun s _ _ _ hc hs => hstep (.choose s) hc rfl hs
  have hP : P chosen := by
    cases hm : d.defuzzifier with
    | none =>
      rw [hm] at hmethod
      cases hmethod
      exact hP
    | some m =>
      rw [hm] at hmethod
      exact hstep (.chooseMethod m) hP rfl hmethod
  have hP : P inputs := List.foldlM_eq_ok_induction hinputs hP
    fun b _ _ _ hc hb => hstep (.bindTerm b) hc rfl hb
  have hP : P bound := List.foldlM_eq_ok_induction houtputs hP
    fun b _ _ _ hc hb => hstep (.bindTerm b) hc rfl hb
  unfold Weighs at hweighs
  split at hweighs
  · next ws _ => exact hstep (.setWeights ws) hP rfl hweighs
  · rw [hweighs]
    exact hP

/-- A variable that has just been made has the lower end of its universe for
its value, which is finite. -/
theorem number_of_makeVariable [Scalar.IsLinear α] {v : VariableDescription α} {w : Variable α}
    (h : makeVariable v = .ok w) : ¬ Scalar.IsNaN w.value := by
  unfold makeVariable Variable.make Variable.check at h
  by_cases hproper : Variable.IsProperRange v.lower v.upper
  · simp only [if_pos hproper] at h
    cases h
    exact not_not_intro (Scalar.IsLinear.number_of_isFinite hproper.1)
  · simp only [if_neg hproper] at h
    cases h

theorem numbered_of_setup [Scalar.IsLinear α] {c : Controller α} (h : d.setup = .ok c) :
    c.Numbered := by
  obtain ⟨inputs, hinputs, h⟩ := Except.bind_eq_ok_iff.mp h
  obtain ⟨outputs, -, h⟩ := Except.bind_eq_ok_iff.mp h
  obtain ⟨values, rfl⟩ := Controller.eq_of_setup h
  intro w hw
  have hmem : (.ok w : Except (Fault α) (Variable α)) ∈ inputs.map .ok := List.mem_map_of_mem hw
  rw [← List.mapM_eq_ok_iff.mp hinputs] at hmem
  obtain ⟨v, -, hv⟩ := List.mem_map.mp hmem
  exact number_of_makeVariable hv

namespace Serves

/-- The number of the names of the inputs. -/
theorem inputCount (hn : d.Serves n) : n.inputNames.length = n.controller.inputs.length := by
  rw [hn.inputNames, List.length_map]
  exact (hn.counts .input).symm

theorem outputCount (hn : d.Serves n) : n.outputNames.length = n.controller.outputs.length := by
  rw [hn.outputNames, List.length_map]
  exact (hn.counts .output).symm

end Serves

variable [Scalar.IsLinear α]

theorem serves_of_build (h : d.build = .ok n) : d.Serves n where
  reachable := (built_of_build h).describes.reachable
  numbered := build_induction h (fun _ => numbered_of_setup) fun _ command hc =>
    Controller.numbered_perform hc command
  counts := (built_of_build h).describes.counts
  inputNames := (built_of_build h).inputNames
  outputNames := (built_of_build h).outputNames
  distinct := distinct_of_checkAllNames (build_eq_ok h).1

namespace Serves

/-- **Operating on the controller** leaves such a system behind. -/
theorem operate (hn : d.Serves n) (command : Command α) :
    d.Serves (n.holding (n.controller.operate command).2) := by
  rw [Controller.operate_eq_perform hn.reachable.sound]
  exact {
    reachable := hn.reachable.perform command
    numbered := Controller.numbered_perform hn.numbered command
    counts := fun side => (Controller.length_variablesOf_congr
      (Controller.frame_perform n.controller command) side).trans (hn.counts side)
    inputNames := hn.inputNames
    outputNames := hn.outputNames
    distinct := hn.distinct }

omit [Scalar.IsLinear α] in
/-- **A call by name is an evaluation by number**, if it suits the system. -/
theorem evaluateInPlace_eq (hn : d.Serves n) {call : List (String × α)} (hcall : n.Suits call) :
    n.evaluateInPlace call
      = n.concluded ((InPlace.evaluate (.inferTable n.rules) (n.inputsFor call)).on
          n.controller) :=
  NamedController.evaluateInPlace_eq hcall (hn.inputNames ▸ (hn.distinct .input).subjects)
    hn.inputCount hn.numbered

/-- The controller after an evaluation by number. -/
theorem evaluated (hn : d.Serves n) (values : List α) :
    d.Serves (n.holding ((InPlace.evaluate (.inferTable n.rules) values).on n.controller).2) := by
  have hoperate := hn.operate (.evaluate n.rules.tokens values)
  have hafter : (n.controller.operate (.evaluate n.rules.tokens values)).2
      = ((InPlace.evaluate (.inferTable n.rules) values).on n.controller).2 := by
    rw [InPlace.inferTable_eq]
    exact congrArg Prod.snd (Controller.on_return_some _)
  rw [hafter] at hoperate
  exact hoperate

omit [Scalar.IsLinear α] in
/-- **What is made of a cycle** is the fault that has stopped it, or the values of
the described outputs. -/
theorem concluded {run : Except (Fault α) Nat × Controller α}
    (hn : d.Serves (n.holding run.2)) :
    (n.concluded run).2 = n.holding run.2 ∧
    (∀ f, (n.concluded run).1 = .error f ↔ run.1 = .error f) ∧
    ∀ answer, (n.concluded run).1 = .ok answer →
      answer.map Prod.fst = d.outputs.map (·.name) ∧ (answer.map Prod.fst).Nodup ∧
      ∀ tag name x, answer[tag]? = some (name, x) → run.2.value .output tag = .ok x := by
  obtain ⟨outcome, c⟩ := run
  cases outcome with
  | error f =>
    refine ⟨rfl, fun g => ⟨fun h => ?_, fun h => ?_⟩, fun answer h => ?_⟩
    · exact congrArg Except.error (Except.error.inj h)
    · exact congrArg Except.error (Except.error.inj h)
    · cases h
  | ok rules =>
    have hanswer : (n.concluded (.ok rules, c)).1
        = .ok (n.outputNames.zip (c.outputs.map (·.value))) :=
      NamedController.namedOutputs_eq hn.outputCount
    have hcount : n.outputNames.length ≤ (c.outputs.map (·.value)).length :=
      Nat.le_of_eq (hn.outputCount.trans (List.length_map _).symm)
    rw [hanswer]
    refine ⟨rfl, fun g => iff_of_false (fun h => by cases h) (fun h => by cases h), ?_⟩
    rintro answer ⟨⟩
    have hnames : (n.outputNames.zip (c.outputs.map (·.value))).map Prod.fst
        = d.outputs.map (·.name) := (List.map_fst_zip hcount).trans hn.outputNames
    refine ⟨hnames, hnames ▸ (hn.distinct .output).subjects, fun tag name x h => ?_⟩
    obtain ⟨-, hx⟩ := List.getElem?_zip_eq_some.mp h
    rw [List.getElem?_map] at hx
    obtain ⟨v, hv, rfl⟩ := Option.map_eq_some_iff.mp hx
    unfold Controller.value
    rw [show (c.variablesOf .output)[tag]? = some v from hv]

/-- **A call by name** leaves such a system behind. -/
theorem evaluate (hn : d.Serves n) (call : List (String × α)) :
    d.Serves (n.evaluateInPlace call).2 := by
  by_cases hcall : n.Suits call
  · have hafter := hn.evaluated (n.inputsFor call)
    rw [hn.evaluateInPlace_eq hcall]
    rcases hrun : (InPlace.evaluate (.inferTable n.rules) (n.inputsFor call)).on n.controller
      with ⟨outcome, c⟩
    rw [hrun] at hafter
    cases outcome <;> exact hafter
  · obtain ⟨r, hr⟩ := NamedController.on_evaluation_of_not_suits hcall
    unfold NamedController.evaluateInPlace
    rw [hr]
    exact hn

end Serves

/-- **A description leads to systems that serve it.** By induction on how they
have come about. -/
theorem serves_of_reaches (h : d.Reaches n) : d.Serves n := by
  induction h with
  | build h => exact serves_of_build h
  | evaluate _ call ih => exact ih.evaluate call
  | operate _ command ih => exact ih.operate command

/-- **Three ways to evaluate come to the same.** For as many numbers as there
are inputs, a controller that is evaluated goes as one whose inputs are set
one after the other before the steps of a cycle are called for. And a system
that is evaluated by name ends with the controller, and with the fault, of
one that is evaluated by number: with the last value of every input that the
call lists, and the present value of every other. When it succeeds, the
answer has the described outputs, each once, with their values. -/
theorem evaluations_agree :
    (∀ (c : Controller α) {w : Width} (s : RuleStream w) (values : List α),
      values.length = c.inputs.length → (∀ x ∈ values, ¬ Scalar.IsNaN x) →
      (InPlace.evaluate (.inferTable s) values).on c
        = (InPlace.stepwise (.inferTable s) values).on c) ∧
    ∀ {d : Description α} {n : NamedController α}, d.Reaches n →
      ∀ call : List (String × α), d.Suits call →
        let run := (InPlace.evaluate (.inferTable n.rules) (n.inputsFor call)).on n.controller
        (n.evaluateInPlace call).2 = n.holding run.2 ∧
        (∀ f, (n.evaluateInPlace call).1 = .error f ↔ run.1 = .error f) ∧
        ∀ answer, (n.evaluateInPlace call).1 = .ok answer →
          answer.map Prod.fst = d.outputs.map (·.name) ∧ (answer.map Prod.fst).Nodup ∧
          ∀ tag name x, answer[tag]? = some (name, x) → run.2.value .output tag = .ok x := by
  refine ⟨fun c w s values hlength hvalues =>
    InPlace.evaluate_eq_stepwise _ hlength hvalues, ?_⟩
  intro d n hreaches call hcall run
  have hn := serves_of_reaches hreaches
  have hsuits : n.Suits call := by
    unfold NamedController.Suits
    rw [hn.inputNames]
    exact hcall
  rw [hn.evaluateInPlace_eq hsuits]
  exact (hn.evaluated _).concluded

/-- The heat is given twice, and the damp is left as it has been set. -/
theorem evaluations_agree_fan :
    (InPlace.evaluate (.inferTable Stream.singleStream) [0.5]).on Controller.ready
      = (InPlace.stepwise (.inferTable Stream.singleStream) [0.5]).on Controller.ready ∧
    ∃ n, fan.Reaches n ∧ n.inputsFor [("heat", 0.25), ("heat", 0.75)] = [0.75, 0.5] ∧
      (n.evaluateInPlace [("heat", 0.25), ("heat", 0.75)]).2
        = n.holding ((InPlace.evaluate (.inferTable n.rules) [0.75, 0.5]).on n.controller).2 ∧
      ∃ x, (n.evaluateInPlace [("heat", 0.25), ("heat", 0.75)]).1 = .ok [("speed", x)] ∧
        ((InPlace.evaluate (.inferTable n.rules) [0.75, 0.5]).on n.controller).2.value .output 0
          = .ok x := by
  obtain ⟨hcontroller, hsystem⟩ := evaluations_agree (α := Float32)
  refine ⟨hcontroller Controller.ready Stream.singleStream [0.5] rfl ?_, ?_⟩
  · exact List.forall_mem_singleton.mpr (by decide)
  have hfound : (fan.build.toOption.bind fun n =>
      let n := n.holding (n.controller.operate (.setInput 1 0.5)).2
      (n.evaluateInPlace [("heat", 0.25), ("heat", 0.75)]).1.toOption.map fun answer =>
        (n.inputsFor [("heat", 0.25), ("heat", 0.75)], answer.map Prod.fst))
      = some ([0.75, 0.5], ["speed"]) := by decide +kernel
  obtain ⟨n, hbuild, hfound⟩ := Option.bind_eq_some_iff.mp hfound
  obtain ⟨answer, hanswer, heq⟩ := Option.map_eq_some_iff.mp hfound
  obtain ⟨hinputs, hnames⟩ := Prod.mk.inj heq
  have hreaches : fan.Reaches _ := .operate (.build (Except.eq_ok_of_toOption hbuild))
    (.setInput 1 0.5)
  have hcall : fan.Suits [("heat", 0.25), ("heat", 0.75)] :=
    List.forall_mem_cons.mpr ⟨⟨List.mem_cons_self, by decide⟩,
      List.forall_mem_singleton.mpr ⟨List.mem_cons_self, by decide⟩⟩
  obtain ⟨hafter, -, hanswers⟩ := hsystem hreaches _ hcall
  rw [hinputs] at hafter hanswers
  have hanswer := Except.eq_ok_of_toOption hanswer
  obtain ⟨-, -, hvalue⟩ := hanswers answer hanswer
  match answer, hnames with
  | [(name, x)], hnames =>
    obtain ⟨rfl, -⟩ := List.cons.inj hnames
    exact ⟨_, hreaches, hinputs, hafter, x, hanswer, hvalue 0 "speed" x rfl⟩

end Description

end FuzzyInference
