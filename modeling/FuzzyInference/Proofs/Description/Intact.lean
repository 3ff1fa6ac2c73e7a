import FuzzyInference.Proofs.Controller.Intact
import FuzzyInference.Proofs.Description.Agreement

/-!
# What a failure leaves of a system

A call by name that fails is stopped at one of two places. While its names
and values are looked at, nothing has been written; and once they have been
accepted, the call is an evaluation by number, which cannot be rejected any
more. So a failure leaves no more behind than `Controller.Leaves` says, for
the controllers of the systems that a description leads to as well.
-/

namespace FuzzyInference

namespace InPlace

variable {α : Type} [Scalar α] [Scalar.IsOrdered α] {c : Controller α}

/-- **An evaluation in place that fails**, of a stream as it is stored. -/
theorem leaves_evaluate (hc : c.Sound) {w : Width} (s : RuleStream w) (values : List α) :
    ((∃ r, ((evaluate (.inferTable s) values).on c).1 = .error (.rejected r)) ↔
      values.length ≠ c.inputs.length ∨ ∃ x ∈ values, Scalar.IsNaN x) ∧
    ∀ f, ((evaluate (.inferTable s) values).on c).1 = .error f →
      c.Leaves f ((evaluate (.inferTable s) values).on c).2 := by
  rw [inferTable_eq, on_evaluate hc]
  exact Controller.leaves_evaluate hc

end InPlace

namespace Description

variable {α : Type} [Scalar α] [Scalar.IsLinear α] {d : Description α} {n : NamedController α}

/-- **A call by name that fails** is rejected if and only if it does not suit the
system, and leaves of the controller what an evaluation leaves. -/
theorem Serves.leaves (hn : d.Serves n) (call : List (String × α)) :
    ((∃ r, (n.evaluateInPlace call).1 = .error (.rejected r)) ↔ ¬ n.Suits call) ∧
    ∀ f, (n.evaluateInPlace call).1 = .error f →
      ∃ c, (n.evaluateInPlace call).2 = n.holding c ∧ n.controller.Leaves f c := by
  by_cases hcall : n.Suits call
  · obtain ⟨hrejected, hleaves⟩ :=
      InPlace.leaves_evaluate hn.reachable.sound n.rules (n.inputsFor call)
    obtain ⟨hafter, hfault, -⟩ := (hn.evaluated (n.inputsFor call)).concluded
    rw [← hn.evaluateInPlace_eq hcall] at hafter hfault
    refine ⟨iff_of_false ?_ (not_not_intro hcall), fun f hf => ?_⟩
    · rintro ⟨r, hr⟩
      rcases hrejected.mp ⟨r, (hfault _).mp hr⟩ with hlength | ⟨x, hx, hnan⟩
      · exact hlength (NamedController.length_inputsFor hn.inputCount)
      · exact NamedController.number_of_mem_inputsFor hcall hn.numbered x hx hnan
    · exact ⟨_, hafter, hleaves f ((hfault f).mp hf)⟩
  · obtain ⟨r, hr⟩ := NamedController.on_evaluation_of_not_suits hcall
    unfold NamedController.evaluateInPlace
    rw [hr]
    refine ⟨iff_of_true ⟨r, rfl⟩ hcall, fun f hf => ?_⟩
    cases hf
    exact ⟨n.controller, rfl, rfl⟩

/-- **A failure leaves things intact.** An operation on a controller that fails
changes nothing, and one that sets something and succeeds changes what it
sets. Only an evaluation can fail half-way, by number or by name, but not
when it is rejected, which it is if and only if there are too few values or
too many, a name that is not known, or a value that is not a number; and what
it changes then is what fuzzifying writes. -/
theorem intact_of_error :
    (∀ {c : Controller α}, c.Reachable → ∀ command : Command α,
      (¬ command.IsEvaluation → ∀ f, (c.operate command).1 = .error f →
        (c.operate command).2 = c) ∧
      (command.IsSetting → ∀ o, (c.operate command).1 = .ok o →
        (c.operate command).2 = c.assign command)) ∧
    (∀ {c : Controller α}, c.Reachable → ∀ {w : Width} (s : RuleStream w) (values : List α),
      let run := (InPlace.evaluate (.inferTable s) values).on c
      ((∃ r, run.1 = .error (.rejected r)) ↔
        values.length ≠ c.inputs.length ∨ ∃ x ∈ values, Scalar.IsNaN x) ∧
      ∀ f, run.1 = .error f → c.Leaves f run.2) ∧
    ∀ {d : Description α} {n : NamedController α}, d.Reaches n →
      ∀ call : List (String × α),
        let run := n.evaluateInPlace call
        ((∃ r, run.1 = .error (.rejected r)) ↔ ¬ d.Suits call) ∧
        ∀ f, run.1 = .error f → ∃ c, run.2 = n.holding c ∧ n.controller.Leaves f c := by
  refine ⟨fun hc command => ⟨fun hcommand f => Controller.operate_of_error hc.sound hcommand,
    fun hcommand o => Controller.operate_of_ok hc.sound hcommand⟩,
    fun hc w s values => InPlace.leaves_evaluate hc.sound s values, ?_⟩
  intro d n hreaches call
  have hn := serves_of_reaches hreaches
  have hsuits : n.Suits call ↔ d.Suits call := by
    unfold NamedController.Suits
    rw [hn.inputNames]
    exact Iff.rfl
  rw [← hsuits]
  exact hn.leaves call

/-- The fault that an evaluation has stopped at. -/
theorem eq_of_refusal? {β : Type} {r : Except (Fault Float32) β} {f : StreamFault}
    (h : refusal? r = some f) : r = .error (.malformed f) := by
  unfold refusal? at h
  split at h
  · cases h
    rfl
  · cases h

/-- Defuzzifying too early, setting an input, evaluating a controller whose terms
are missing, and a rule that is refused when the input has been set. -/
theorem intact_of_error_ramp :
    (Controller.ready.operate .defuzzify).2 = Controller.ready ∧
    (Controller.ready.operate (.setInput 0 0.5)).2
      = Controller.ready.assign (.setInput 0 0.5) ∧
    Controller.bare.UpToFuzzifying
      ((InPlace.evaluate (.inferTable Stream.singleStream) [0.5]).on Controller.bare).2 ∧
    ∃ n, ramp.Reaches n ∧
      (n.evaluateInPlace [("x", 1)]).1 = .error (.malformed ⟨5, .negatedConclusion .sugeno⟩) ∧
      ∃ c, (n.evaluateInPlace [("x", 1)]).2 = n.holding c ∧ n.controller.UpToFuzzifying c ∧
        c.cycle.fuzzified = true := by
  obtain ⟨hoperate, hevaluate, hsystem⟩ := intact_of_error (α := Float32)
  have hset : ((Controller.ready.operate (.setInput 0 0.5)).1).toOption = some none := by
    decide +kernel
  have hearly : ((InPlace.evaluate (.inferTable Stream.singleStream) [0.5]).on
      Controller.bare).1 = .error (.unready (.unboundInput 0)) := by
    rfl
  have hrefusal : (ramp.build.toOption.bind fun n =>
      (refusal? (n.evaluateInPlace [("x", 1)]).1).map fun f =>
        (f, (n.evaluateInPlace [("x", 1)]).2.controller.cycle.fuzzified))
      = some (⟨5, .negatedConclusion .sugeno⟩, true) := by
    decide +kernel
  refine ⟨(hoperate Controller.reachable_ready .defuzzify).1 not_false _ rfl,
    (hoperate Controller.reachable_ready (.setInput 0 0.5)).2 trivial _
      (Except.eq_ok_of_toOption hset),
    (hevaluate Controller.reachable_bare Stream.singleStream [0.5]).2 _ hearly, ?_⟩
  obtain ⟨n, hbuild, hrefusal⟩ := Option.bind_eq_some_iff.mp hrefusal
  obtain ⟨f, hrefused, heq⟩ := Option.map_eq_some_iff.mp hrefusal
  obtain ⟨rfl, hfuzzified⟩ := Prod.mk.inj heq
  have hreaches : ramp.Reaches n := .build (Except.eq_ok_of_toOption hbuild)
  have hfault := eq_of_refusal? hrefused
  obtain ⟨c, hafter, hleaves⟩ := (hsystem hreaches [("x", 1)]).2 _ hfault
  rw [hafter] at hfuzzified
  exact ⟨n, hreaches, hfault, c, hafter, hleaves, hfuzzified⟩

end Description

end FuzzyInference
