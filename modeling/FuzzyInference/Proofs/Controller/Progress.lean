import FuzzyInference.Proofs.Controller.Bounds
import FuzzyInference.Proofs.Controller.Configured

/-!
# What a history has made possible

A cycle has an order: terms are bound, the inputs are fuzzified, an
inference is made, the outputs are defuzzified. A controller does not
remember how it has come to be what it is, though. It has its tables of
terms and two flags, which are raised and lowered in several places, by
commands of their own and in the middle of an evaluation.

A **milestone** is a step that has been taken with success, by whatever
command. `Controller.passed` lists the milestones of a history, and
`Controller.shows_after_iff` says that the tables and flags of a controller
show exactly these, and those that the controller showed to begin with.
The proof is by induction on the history, with one lemma for each command
(`Controller.shows_perform_iff`). Since the list only ever grows, no step
that has once been possible is refused as coming too early again, which is
the last part of `Controller.order_of_setup`.
-/

namespace FuzzyInference

/-- **A step that has been taken with success.** -/
inductive Milestone where
  /-- A term has been bound in a place of the table of a side. -/
  | bound (side : Side) (slot : Nat)
  /-- The inputs have been fuzzified. -/
  | fuzzified
  /-- An inference has been made. -/
  | inferred
deriving DecidableEq, Repr

/-- **An operation that is refused as coming too early.** -/
def Fault.IsUnready {α β : Type} (r : Except (Fault α) β) : Prop :=
  ∃ u, r = .error (.unready u)

namespace Controller

variable {α : Type} [Scalar α] {c d : Controller α}

/-! ## The milestones of a history -/

/-- The milestones of a whole cycle, which may be stopped between them. -/
def cycleMilestones (c : Controller α) (tokens : List Token) : List Milestone :=
  match c.fuzzify with
  | .error _ => []
  | .ok fuzzified => .fuzzified :: if (fuzzified.infer tokens).1.isOk then [.inferred] else []

/-- **The milestones of a command**: the steps of it that succeed. -/
def milestones (c : Controller α) : Command α → List Milestone
  | .bindTerm b => if (c.bindTerm b).isOk then [.bound b.side b.slot] else []
  | .fuzzify => if c.fuzzify.isOk then [.fuzzified] else []
  | .infer tokens => if (c.infer tokens).1.isOk then [.inferred] else []
  | .evaluate tokens values =>
    if values.length ≠ c.inputs.length then []
    else if ∃ x ∈ values, Scalar.IsNaN x then []
    else (c.withInputs values).cycleMilestones tokens
  | .choose _ | .chooseMethod _ | .setWeights _ | .clearWeights | .setInput _ _ | .defuzzify => []

/-- **The milestones of a history**, in the order they are passed. -/
def passed (c : Controller α) : List (Command α) → List Milestone
  | [] => []
  | command :: history => c.milestones command ++ (c.perform command).2.passed history

/-- What comes later adds to the milestones. -/
theorem passed_append (c : Controller α) (history more : List (Command α)) :
    c.passed (history ++ more) = c.passed history ++ (c.after history).passed more := by
  induction history generalizing c with
  | nil => rfl
  | cons command history ih =>
    show _ ++ (c.perform command).2.passed (history ++ more) = _
    rw [ih, ← List.append_assoc]
    rfl

/-- **Whether a controller shows that a milestone has been passed.** -/
def Shows (c : Controller α) : Milestone → Prop
  | .bound side slot => c.term? side slot ≠ none
  | .fuzzified => c.cycle.fuzzified = true
  | .inferred => c.cycle.inferred = true

omit [Scalar α] in
/-- A controller with the terms and the flags of another shows what it
shows. -/
theorem shows_congr (hterm : ∀ side slot, d.term? side slot = c.term? side slot)
    (hfuzzified : d.cycle.fuzzified = c.cycle.fuzzified)
    (hinferred : d.cycle.inferred = c.cycle.inferred) (m : Milestone) : d.Shows m ↔ c.Shows m := by
  cases m with
  | bound side slot =>
    show d.term? side slot ≠ none ↔ c.term? side slot ≠ none
    rw [hterm]
  | fuzzified =>
    show d.cycle.fuzzified = true ↔ c.cycle.fuzzified = true
    rw [hfuzzified]
  | inferred =>
    show d.cycle.inferred = true ↔ c.cycle.inferred = true
    rw [hinferred]

/-! ## One operation -/

/-- A term that is bound is bound in its place. -/
theorem shows_bindTerm_iff {b : Binding α} (h : c.bindTerm b = .ok d) (m : Milestone) :
    d.Shows m ↔ m = .bound b.side b.slot ∨ c.Shows m := by
  obtain ⟨hcheck, rfl⟩ := bindTerm_eq_ok h
  have hslot := (admissible_of_checkBinding hcheck).slot_lt
  have hcycle := cycle_store c b
  cases m with
  | bound side slot =>
    show (c.store b).term? side slot ≠ none ↔ _ ∨ c.term? side slot ≠ none
    rw [term?_store]
    by_cases hplace : b.side = side ∧ b.slot = slot
    · obtain ⟨rfl, rfl⟩ := hplace
      rw [if_pos ⟨rfl, rfl, hslot⟩]
      exact iff_of_true (Option.some_ne_none _) (.inl rfl)
    · rw [if_neg fun h => hplace ⟨h.1, h.2.1⟩, or_iff_right]
      rintro ⟨⟩
      exact hplace ⟨rfl, rfl⟩
  | fuzzified =>
    show (c.store b).cycle.fuzzified = true ↔ _
    rw [hcycle, or_iff_right fun h => by cases h]
    rfl
  | inferred =>
    show (c.store b).cycle.inferred = true ↔ _
    rw [hcycle, or_iff_right fun h => by cases h]
    rfl

theorem shows_fuzzify_iff (h : c.fuzzify = .ok d) (m : Milestone) :
    d.Shows m ↔ m = .fuzzified ∨ c.Shows m := by
  have hkeeps := keeps_fuzzify h
  obtain ⟨-, values, degrees, -, -, rfl⟩ := fuzzify_eq_ok h
  cases m with
  | bound side slot =>
    rw [or_iff_right fun h => by cases h]
    show Controller.term? _ side slot ≠ none ↔ c.term? side slot ≠ none
    rw [hkeeps.term?]
  | fuzzified => exact iff_of_true rfl (.inl rfl)
  | inferred => exact (or_iff_right fun h => by cases h).symm

/-- **An inference leaves everything alone if it fails**, and otherwise leaves
new findings behind, and the inputs as they were fuzzified. -/
theorem infer_eq_ok {tokens : List Token} {rules : Nat} (h : (c.infer tokens).1 = .ok rules) :
    ∃ activations sums strengths, (c.infer tokens).2 = { c with cycle := { c.cycle with
      activations := activations, sums := sums, strengths := strengths, inferred := true } } := by
  rcases infer_cases c tokens with ⟨u, hinfer⟩ | ⟨f, -, hinfer⟩ | ⟨-, hinfer⟩
  · rw [hinfer] at h
    cases h
  · rw [hinfer] at h
    cases h
  · rw [hinfer] at h ⊢
    exact fireStream_eq_ok h

theorem shows_infer_iff {tokens : List Token} {rules : Nat} (h : (c.infer tokens).1 = .ok rules)
    (m : Milestone) : (c.infer tokens).2.Shows m ↔ m = .inferred ∨ c.Shows m := by
  obtain ⟨activations, sums, strengths, hafter⟩ := infer_eq_ok h
  rw [hafter]
  cases m with
  | bound side slot => exact (or_iff_right fun h => by cases h).symm
  | fuzzified => exact (or_iff_right fun h => by cases h).symm
  | inferred => exact iff_of_true rfl (.inl rfl)

theorem shows_defuzzify_iff (h : c.defuzzify = .ok d) (m : Milestone) :
    d.Shows m ↔ c.Shows m := by
  obtain ⟨-, outputs, -, rfl⟩ := defuzzify_eq_ok h
  exact shows_congr (fun _ _ => rfl) rfl rfl m

/-! ## When an operation comes too early -/

omit [Scalar α] in
/-- A table without a gap has a term in each of its places. -/
theorem forall_bound_iff {side : Side} :
    (∀ o ∈ c.termsOf side, o ≠ none) ↔
      ∀ slot < (c.termsOf side).length, c.term? side slot ≠ none := by
  rw [List.forall_mem_iff_forall_getElem]
  refine forall_congr' fun slot => forall_congr' fun hlt => ?_
  rw [term?, List.getElem?_eq_getElem hlt]
  rfl

omit [Scalar α] in
theorem any_isNone_iff :
    c.outputTerms.any Option.isNone = true ↔
      ∃ slot < c.outputTerms.length, c.term? .output slot = none := by
  rw [List.any_eq_true]
  constructor
  · rintro ⟨o, ho, hnone⟩
    obtain ⟨slot, hslot⟩ := List.mem_iff_getElem?.mp ho
    refine ⟨slot, (List.getElem?_eq_some_iff.mp hslot).1, ?_⟩
    show (c.outputTerms[slot]?).join = none
    rw [hslot, Option.isNone_iff_eq_none.mp hnone]
    rfl
  · rintro ⟨slot, hlt, hnone⟩
    have hnone : (c.outputTerms[slot]?).join = none := hnone
    rw [List.getElem?_eq_getElem hlt] at hnone
    exact ⟨_, List.getElem_mem hlt, Option.isNone_iff_eq_none.mpr hnone⟩

omit [Scalar α] in
theorem not_isUnready_ok {β : Type} (b : β) :
    ¬ Fault.IsUnready (.ok b : Except (Fault α) β) := by
  rintro ⟨u, h⟩
  cases h

variable [Scalar.IsOrdered α]

/-- **The inputs can be fuzzified** when every input term is bound, and else
it is too early for it. -/
theorem fuzzify_eq_ok_iff (hc : c.Sound) :
    (∃ d, c.fuzzify = .ok d) ↔ ∀ slot < c.inputTerms.length, c.Shows (.bound .input slot) := by
  have hbound : (∀ o ∈ c.inputTerms, o ≠ none) ↔ _ := @forall_bound_iff _ c .input
  constructor
  · rintro ⟨d, h⟩
    exact hbound.mp (fuzzify_eq_ok h).1
  · intro h
    exact exists_fuzzify hc (hbound.mpr h)

/-- **It is too early for an inference** when the inputs have not been
fuzzified or some output term is not bound, whatever the stream. -/
theorem isUnready_infer_iff (hc : c.Sound) (tokens : List Token) :
    Fault.IsUnready (c.infer tokens).1 ↔
      ¬ c.Shows .fuzzified ∨ ∃ slot < c.outputTerms.length, ¬ c.Shows (.bound .output slot) := by
  have hbound : (∃ slot < c.outputTerms.length, ¬ c.Shows (.bound .output slot)) ↔
      c.outputTerms.any Option.isNone = true := by
    rw [any_isNone_iff]
    exact exists_congr fun slot => and_congr_right fun _ => Decidable.not_not
  rw [hbound]
  show _ ↔ ¬ c.cycle.fuzzified = true ∨ _
  unfold infer
  cases hfuzzified : c.cycle.fuzzified with
  | false => exact iff_of_true ⟨_, rfl⟩ (.inl Bool.false_ne_true)
  | true =>
    cases hany : c.outputTerms.any Option.isNone with
    | true => exact iff_of_true ⟨_, rfl⟩ (.inr rfl)
    | false =>
      refine iff_of_false ?_ (by simp)
      cases haccept : c.accept tokens with
      | error f =>
        rintro ⟨u, h⟩
        cases h
      | ok _ =>
        obtain ⟨rules, hrules⟩ := fireStream_of_accept hc haccept
        show ¬ Fault.IsUnready (c.cleared.fireStream tokens).1
        rw [hrules]
        exact not_isUnready_ok rules

/-- **The outputs can be defuzzified** when an inference has been made, and
else it is too early for it. -/
theorem defuzzify_eq_ok_iff (hc : c.Sound) :
    (∃ d, c.defuzzify = .ok d) ↔ c.Shows .inferred :=
  ⟨fun ⟨_, h⟩ => (defuzzify_eq_ok h).1, exists_defuzzify hc⟩

/-- Fuzzifying is refused only as coming too early. -/
theorem not_isUnready_fuzzify_iff (hc : c.Sound) :
    ¬ Fault.IsUnready c.fuzzify ↔ ∃ d, c.fuzzify = .ok d := by
  refine ⟨fun h => ?_, fun ⟨d, hd⟩ => hd ▸ not_isUnready_ok d⟩
  cases hfind : c.inputTerms.findIdx? Option.isNone with
  | some slot =>
    refine absurd ⟨.unboundInput slot, ?_⟩ h
    unfold fuzzify
    rw [hfind]
  | none =>
    refine exists_fuzzify hc fun o ho hnone => ?_
    have hbound := List.findIdx?_eq_none_iff.mp hfind o ho
    rw [hnone] at hbound
    cases hbound

/-- So is defuzzifying. -/
theorem not_isUnready_defuzzify_iff (hc : c.Sound) :
    ¬ Fault.IsUnready c.defuzzify ↔ ∃ d, c.defuzzify = .ok d := by
  refine ⟨fun h => ?_, fun ⟨d, hd⟩ => hd ▸ not_isUnready_ok d⟩
  cases hinferred : c.cycle.inferred with
  | true => exact exists_defuzzify hc hinferred
  | false =>
    refine absurd ⟨.notInferred, ?_⟩ h
    unfold defuzzify
    rw [hinferred]
    rfl

/-! ## One command -/

/-- An inference that fails leaves the controller as it was. -/
theorem infer_eq_error (hc : c.Sound) {tokens : List Token} {f : Fault α}
    (h : (c.infer tokens).1 = .error f) : (c.infer tokens).2 = c := by
  rcases infer_cases c tokens with ⟨u, hinfer⟩ | ⟨g, -, hinfer⟩ | ⟨haccept, hinfer⟩
  · rw [hinfer]
  · rw [hinfer]
  · obtain ⟨rules, hrules⟩ := fireStream_of_accept hc haccept
    rw [hinfer, hrules] at h
    cases h

/-- **An inference shows** that it has been made if it succeeds. -/
theorem shows_infer (hc : c.Sound) (tokens : List Token) (m : Milestone) :
    (c.infer tokens).2.Shows m ↔
      m ∈ (if (c.infer tokens).1.isOk then [Milestone.inferred] else []) ∨ c.Shows m := by
  cases h : (c.infer tokens).1 with
  | error f =>
    rw [infer_eq_error hc h]
    exact (or_iff_right List.not_mem_nil).symm
  | ok rules =>
    rw [shows_infer_iff h]
    exact or_congr_left List.mem_singleton.symm

/-- **A whole cycle shows its milestones**, however far it comes. -/
theorem shows_runCycle_iff (hc : c.Sound) (tokens : List Token) (m : Milestone) :
    (c.runCycle tokens).2.Shows m ↔ m ∈ c.cycleMilestones tokens ∨ c.Shows m := by
  unfold cycleMilestones
  rcases runCycle_cases c tokens with ⟨f, hf, h⟩ | ⟨e, he, h⟩
  · rw [h, hf]
    exact (or_iff_right List.not_mem_nil).symm
  · have hinfer := shows_infer (sound_fuzzify hc he) tokens m
    rw [shows_fuzzify_iff he, ← or_assoc, or_comm (b := m = .fuzzified)] at hinfer
    rw [he]
    show _ ↔ m ∈ _ :: _ ∨ c.Shows m
    rw [List.mem_cons, ← hinfer]
    -- defuzzifying, if it comes to that, shows nothing
    rcases h with ⟨f, -, h⟩ | ⟨rules, -, ⟨f, -, h⟩ | ⟨d, hd, h⟩⟩
    · rw [h]
    · rw [h]
    · rw [h]
      exact shows_defuzzify_iff hd m

/-- **A controller shows the milestones of a command** after it, and those it
has shown before. -/
theorem shows_perform_iff (hc : c.Sound) (command : Command α) (m : Milestone) :
    (c.perform command).2.Shows m ↔ m ∈ c.milestones command ∨ c.Shows m := by
  -- what a command settles it shows if it succeeds, and only then
  have hsettle {r : Except (Fault α) (Controller α)} {ms : List Milestone}
      (h : ∀ d, r = .ok d → (d.Shows m ↔ m ∈ ms ∨ c.Shows m)) :
      (c.settle r).2.Shows m ↔ m ∈ (if r.isOk then ms else []) ∨ c.Shows m := by
    cases r with
    | error f => exact (or_iff_right List.not_mem_nil).symm
    | ok d => exact h d rfl
  have hsilent {r : Except (Fault α) (Controller α)}
      (h : ∀ d, r = .ok d → (d.Shows m ↔ c.Shows m)) :
      (c.settle r).2.Shows m ↔ m ∈ [] ∨ c.Shows m := by
    rw [or_iff_right List.not_mem_nil]
    exact settle_induction (P := fun d => d.Shows m ↔ c.Shows m) Iff.rfl h
  cases command with
  | choose setting =>
    refine hsilent fun d h => ?_
    rcases choose_eq_ok h with ⟨n, -, -, rfl⟩ | ⟨norms, -, rfl⟩ <;>
      exact shows_congr (fun _ _ => rfl) rfl rfl m
  | chooseMethod method =>
    refine hsilent fun d h => ?_
    rw [(chooseMethod_eq_ok h).2]
    exact shows_congr (fun _ _ => rfl) rfl rfl m
  | bindTerm binding =>
    refine hsettle fun d h => ?_
    rw [shows_bindTerm_iff h, List.mem_singleton]
  | setWeights weights =>
    refine hsilent fun d h => ?_
    rw [(setWeights_eq_ok h).2]
    exact shows_congr (fun _ _ => rfl) rfl rfl m
  | clearWeights =>
    exact (shows_congr (fun _ _ => rfl) rfl rfl m).trans (or_iff_right List.not_mem_nil).symm
  | setInput tag value =>
    refine hsilent fun d h => ?_
    obtain ⟨v, -, -, rfl⟩ := setInput_eq_ok h
    exact shows_congr (fun _ _ => rfl) rfl rfl m
  | fuzzify =>
    refine hsettle fun d h => ?_
    rw [shows_fuzzify_iff h, List.mem_singleton]
  | infer tokens => exact shows_infer hc tokens m
  | defuzzify => exact hsilent fun d h => shows_defuzzify_iff h m
  | evaluate tokens values =>
    show (c.evaluate tokens values).2.Shows m ↔ m ∈ (if _ then _ else if _ then _ else _) ∨ _
    unfold evaluate
    split
    · exact (or_iff_right List.not_mem_nil).symm
    · split
      · exact (or_iff_right List.not_mem_nil).symm
      · next hlength _ =>
        have hkeeps : c.Keeps (c.withInputs values) :=
          keeps_withInputs (Decidable.not_not.mp hlength)
        rw [shows_runCycle_iff (hc.of_keeps hkeeps hc.fits)]
        exact or_congr_right (shows_congr (fun _ _ => rfl) rfl rfl m)

/-! ## A history -/

/-- **A controller shows the milestones of its history**, and those it has
shown before. By induction on the history. -/
theorem shows_after_iff (hc : c.Reachable) (history : List (Command α)) (m : Milestone) :
    (c.after history).Shows m ↔ m ∈ c.passed history ∨ c.Shows m := by
  induction history generalizing c with
  | nil => exact (or_iff_right List.not_mem_nil).symm
  | cons command history ih =>
    show ((c.perform command).2.after history).Shows m ↔
      m ∈ c.milestones command ++ (c.perform command).2.passed history ∨ _
    rw [ih (hc.perform command), shows_perform_iff hc.sound, List.mem_append, or_left_comm,
      or_assoc]

variable {style : Style} {inputs outputs : List (Variable α)} {inputSlots outputSlots : Nat}

omit [Scalar.IsOrdered α] in
/-- A controller that has just been set up shows nothing. -/
theorem not_shows_of_setup (h : setup style inputs outputs inputSlots outputSlots = .ok c)
    (m : Milestone) : ¬ c.Shows m := by
  cases m with
  | bound side slot => exact not_not_intro (term?_of_setup h side slot)
  | fuzzified =>
    obtain ⟨values, rfl⟩ := eq_of_setup h
    exact Bool.false_ne_true
  | inferred =>
    obtain ⟨values, rfl⟩ := eq_of_setup h
    exact Bool.false_ne_true

section Setup

variable (h : setup style inputs outputs inputSlots outputSlots = .ok c)

include h

/-- **A controller that has been set up shows what has been passed** since. -/
theorem shows_after_setup_iff (history : List (Command α)) (m : Milestone) :
    (c.after history).Shows m ↔ m ∈ c.passed history :=
  (shows_after_iff (.setup h) history m).trans (or_iff_left (not_shows_of_setup h m))

theorem fuzzify_after_iff (history : List (Command α)) :
    (∃ d, (c.after history).fuzzify = .ok d) ↔
      ∀ slot < inputSlots, .bound .input slot ∈ c.passed history := by
  have hlength : (c.after history).inputTerms.length = inputSlots :=
    congrArg Frame.inputSlots ((frame_after c history).trans (setup_eq_ok h).1)
  rw [fuzzify_eq_ok_iff ((Reachable.setup h).after history).sound, hlength]
  exact forall_congr' fun slot => imp_congr_right fun _ => shows_after_setup_iff h history _

theorem isUnready_infer_after_iff (history : List (Command α)) (tokens : List Token) :
    Fault.IsUnready ((c.after history).infer tokens).1 ↔
      .fuzzified ∉ c.passed history ∨
        ∃ slot < outputSlots, .bound .output slot ∉ c.passed history := by
  have hlength : (c.after history).outputTerms.length = outputSlots :=
    congrArg Frame.outputSlots ((frame_after c history).trans (setup_eq_ok h).1)
  rw [isUnready_infer_iff ((Reachable.setup h).after history).sound, hlength,
    shows_after_setup_iff h]
  exact or_congr_right (exists_congr fun slot => and_congr_right fun _ =>
    not_congr (shows_after_setup_iff h history _))

theorem defuzzify_after_iff (history : List (Command α)) :
    (∃ d, (c.after history).defuzzify = .ok d) ↔ .inferred ∈ c.passed history :=
  (defuzzify_eq_ok_iff ((Reachable.setup h).after history).sound).trans
    (shows_after_setup_iff h history _)

/-- **What does not come too early** does not come too early after more
commands either: the milestones of the longer history include those of the
shorter one. -/
theorem ready_after_append (history more : List (Command α)) :
    (¬ Fault.IsUnready (c.after history).fuzzify →
      ¬ Fault.IsUnready (c.after (history ++ more)).fuzzify) ∧
    (∀ tokens tokens', ¬ Fault.IsUnready ((c.after history).infer tokens).1 →
      ¬ Fault.IsUnready ((c.after (history ++ more)).infer tokens').1) ∧
    (¬ Fault.IsUnready (c.after history).defuzzify →
      ¬ Fault.IsUnready (c.after (history ++ more)).defuzzify) := by
  have hsound (history : List (Command α)) : (c.after history).Sound :=
    ((Reachable.setup h).after history).sound
  have hpassed {m : Milestone} (hm : m ∈ c.passed history) : m ∈ c.passed (history ++ more) := by
    rw [passed_append]
    exact List.mem_append_left _ hm
  refine ⟨?_, fun tokens tokens' => mt ?_, ?_⟩
  · rw [not_isUnready_fuzzify_iff (hsound _), not_isUnready_fuzzify_iff (hsound _),
      fuzzify_after_iff h, fuzzify_after_iff h]
    exact fun hbound slot hlt => hpassed (hbound slot hlt)
  · rw [isUnready_infer_after_iff h, isUnready_infer_after_iff h]
    exact Or.imp (mt hpassed) fun ⟨slot, hlt, hslot⟩ => ⟨slot, hlt, mt hpassed hslot⟩
  · rw [not_isUnready_defuzzify_iff (hsound _), not_isUnready_defuzzify_iff (hsound _),
      defuzzify_after_iff h, defuzzify_after_iff h]
    exact hpassed

end Setup

/-- **The order of a cycle**, over any history of a controller that has been
set up. The inputs can be fuzzified if and only if every input term has been
bound. An inference comes too early, whatever its stream, if and only if the
inputs have not been fuzzified or some output term has not been bound. The
outputs can be defuzzified if and only if an inference has been made. What
does not come too early does not come too early after more commands, be they
successful or not. -/
theorem order_of_setup (h : setup style inputs outputs inputSlots outputSlots = .ok c)
    (history : List (Command α)) :
    ((∃ d, (c.after history).fuzzify = .ok d) ↔
      ∀ slot < inputSlots, .bound .input slot ∈ c.passed history) ∧
    (∀ tokens, Fault.IsUnready ((c.after history).infer tokens).1 ↔
      .fuzzified ∉ c.passed history ∨
        ∃ slot < outputSlots, .bound .output slot ∉ c.passed history) ∧
    ((∃ d, (c.after history).defuzzify = .ok d) ↔ .inferred ∈ c.passed history) ∧
    ∀ more,
      (¬ Fault.IsUnready (c.after history).fuzzify →
        ¬ Fault.IsUnready (c.after (history ++ more)).fuzzify) ∧
      (∀ tokens tokens', ¬ Fault.IsUnready ((c.after history).infer tokens).1 →
        ¬ Fault.IsUnready ((c.after (history ++ more)).infer tokens').1) ∧
      (¬ Fault.IsUnready (c.after history).defuzzify →
        ¬ Fault.IsUnready (c.after (history ++ more)).defuzzify) :=
  ⟨fuzzify_after_iff h history, isUnready_infer_after_iff h history,
    defuzzify_after_iff h history, ready_after_append h history⟩

/-- A history in which an inference comes too early, a term is bound twice and
a stream is empty: at its end an inference can be made, but none has been. -/
def halting : List (Command Float32) :=
  [.infer Stream.singleStream.tokens, .bindTerm ⟨.input, 0, 0, .builtin .constant, [1], 1⟩,
    .bindTerm ⟨.output, 0, 0, .builtin .linearS, [0, 1], 1⟩, .evaluate [] [0.5],
    .bindTerm ⟨.output, 0, 1, .builtin .linearZ, [0, 1], 1⟩, .infer [],
    .bindTerm ⟨.input, 0, 0, .builtin .linearS, [0, 1], 1⟩,
    .bindTerm ⟨.input, 0, 1, .builtin .constant, [1], 1⟩]

theorem order_of_setup_halting :
    bare.passed halting = [.bound .input 0, .bound .output 0, .fuzzified, .bound .output 1,
      .bound .input 0] ∧
    (∃ d, (bare.after halting).fuzzify = .ok d) ∧
    ¬ Fault.IsUnready ((bare.after halting).infer Stream.singleStream.tokens).1 ∧
    ¬ (∃ d, (bare.after halting).defuzzify = .ok d) ∧
    ∃ d, (bare.after (halting ++ [.infer Stream.singleStream.tokens, .infer []])).defuzzify
      = .ok d := by
  have hsetup : setup .mamdani [⟨0, 1, 0⟩] [⟨0, 1, 0⟩] 1 2 = .ok bare := rfl
  have hpassed : bare.passed halting = [.bound .input 0, .bound .output 0, .fuzzified,
      .bound .output 1, .bound .input 0] := by decide +kernel
  obtain ⟨hfuzzify, hinfer, hdefuzzify, -⟩ := order_of_setup hsetup halting
  obtain ⟨-, -, hlater, -⟩ :=
    order_of_setup hsetup (halting ++ [.infer Stream.singleStream.tokens, .infer []])
  rw [hpassed] at hfuzzify hinfer hdefuzzify
  refine ⟨hpassed, hfuzzify.mpr (by decide), ?_, ?_, hlater.mpr (by decide +kernel)⟩
  · rw [hinfer]
    decide
  · rw [hdefuzzify]
    decide

end Controller

end FuzzyInference
