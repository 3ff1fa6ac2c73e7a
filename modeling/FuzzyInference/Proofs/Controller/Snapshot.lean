import FuzzyInference.Proofs.Controller.InPlace

/-!
# Inference does not look at the inputs

A controller has its inputs twice: as they have been set, and as they have
been fuzzified. Once they have been fuzzified an inference goes by the
latter, and so does every conclusion that is a function of the inputs. The
inputs can be set for the next cycle while this one is still going on.

Two controllers that differ at most in the values of their inputs are
`Controller.Alike`. A program is **blind** (`InPlace.IsBlind`) if it goes the
same way on alike controllers and leaves alike controllers behind. What is
made of blind programs is blind, so it is enough to look at the pieces.
Setting an input is one of them, and all that it leaves behind is a
controller like the one before; to fuzzify is not.
-/

namespace FuzzyInference

/-! ## Alike controllers -/

namespace Controller

variable {α : Type} {c d e : Controller α}

/-- **Two controllers that differ at most in the values of their inputs.** -/
def Alike (c d : Controller α) : Prop :=
  ∃ inputs : List (Variable α),
    inputs.map Variable.range = c.inputs.map Variable.range ∧ d = { c with inputs := inputs }

namespace Alike

theorem refl (c : Controller α) : c.Alike c := ⟨c.inputs, rfl, rfl⟩

theorem trans (h : c.Alike d) (h' : d.Alike e) : c.Alike e := by
  obtain ⟨inputs, hinputs, rfl⟩ := h
  obtain ⟨inputs', hinputs', rfl⟩ := h'
  exact ⟨inputs', hinputs'.trans hinputs, rfl⟩

theorem cycle (h : c.Alike d) : d.cycle = c.cycle := by
  obtain ⟨inputs, -, rfl⟩ := h
  rfl

theorem outputs (h : c.Alike d) : d.outputs = c.outputs := by
  obtain ⟨inputs, -, rfl⟩ := h
  rfl

/-- Alike controllers have the same frame and the same terms. -/
theorem keeps (h : c.Alike d) : c.Keeps d := by
  obtain ⟨inputs, hinputs, rfl⟩ := h
  exact keeps_of_inputs c.cycle hinputs

end Alike

end Controller

/-! ## Blind programs -/

namespace InPlace

/-- **A program that does not see the values of the inputs.** -/
def IsBlind {α β : Type} (p : InPlace α β) : Prop :=
  ∀ c d : Controller α, c.Alike d → (p.on d).1 = (p.on c).1 ∧ (p.on c).2.Alike (p.on d).2

section Programs

variable {α β γ : Type} {p : InPlace α β}

theorem isBlind_pure (b : β) : (pure b : InPlace α β).IsBlind := fun _ _ h => ⟨rfl, h⟩

theorem isBlind_throw (f : Fault α) : (throw f : InPlace α β).IsBlind := fun _ _ h => ⟨rfl, h⟩

theorem isBlind_liftM (x : Except (Fault α) β) : (liftM x : InPlace α β).IsBlind :=
  fun _ _ h => ⟨rfl, h⟩

/-- A change that has nothing to do with the inputs. -/
theorem isBlind_modify {f : Controller α → Controller α} (hinputs : ∀ c, (f c).inputs = c.inputs)
    (hf : ∀ c inputs, f { c with inputs := inputs } = { f c with inputs := inputs }) :
    (modify f : InPlace α PUnit).IsBlind := by
  rintro c d ⟨inputs, hranges, rfl⟩
  refine ⟨rfl, inputs, ?_, hf c inputs⟩
  show _ = (f c).inputs.map Variable.range
  rw [hinputs]
  exact hranges

/-- **Blind programs, one after the other.** -/
theorem IsBlind.bind (hp : p.IsBlind) {k : β → InPlace α γ} (hk : ∀ b, (k b).IsBlind) :
    (p >>= k).IsBlind := by
  intro c d h
  obtain ⟨houtcome, hafter⟩ := hp c d h
  rw [on_bind, on_bind]
  rcases hc : p.on c with ⟨r, c'⟩
  rcases hd : p.on d with ⟨r', d'⟩
  rw [hc, hd] at houtcome hafter
  cases houtcome
  cases r with
  | ok b => exact hk b c' d' hafter
  | error f => exact ⟨rfl, hafter⟩

/-- A check before a blind program. -/
theorem IsBlind.guard {P : Prop} [Decidable P] {f : Fault α} {k : PUnit → InPlace α γ}
    (hk : (k ⟨⟩).IsBlind) : (if P then throw f >>= k else k ⟨⟩).IsBlind := by
  split
  · exact (isBlind_throw f).bind fun _ => hk
  · exact hk

/-- **A program that looks at the controller** is blind if it makes no use of
the inputs. -/
theorem isBlind_get_bind {k : Controller α → InPlace α γ}
    (hk : ∀ {c d : Controller α}, c.Alike d → k d = k c) (hblind : ∀ c, (k c).IsBlind) :
    (get >>= k).IsBlind := by
  intro c d h
  rw [on_get_bind, on_get_bind, hk h]
  exact hblind c c d h

theorem isBlind_foldlM {body : γ → β → InPlace α γ} (h : ∀ g b, (body g b).IsBlind) (l : List β)
    (g : γ) : (l.foldlM body g).IsBlind := by
  induction l generalizing g with
  | nil => exact isBlind_pure g
  | cons b l ih => exact (h g b).bind ih

end Programs

/-! ## Configuring is blind -/

section Configuring

variable {α : Type} [Scalar α]

omit [Scalar α] in
theorem isBlind_choose (s : Setting) : (choose s : InPlace α Unit).IsBlind := by
  cases s with
  | evalPoints n => exact .guard (isBlind_modify (fun _ => rfl) fun _ _ => rfl)
  | _ op =>
    refine isBlind_get_bind ?_ fun c => ?_
    · rintro c d ⟨inputs, -, rfl⟩
      rfl
    · split
      · exact isBlind_modify (fun _ => rfl) fun _ _ => rfl
      · exact isBlind_throw _

omit [Scalar α] in
theorem isBlind_chooseMethod (m : Defuzzifier) : (chooseMethod m : InPlace α Unit).IsBlind := by
  refine isBlind_get_bind ?_ fun c => .guard (isBlind_modify (fun _ => rfl) fun _ _ => rfl)
  rintro c d ⟨inputs, -, rfl⟩
  rfl

theorem isBlind_bindTerm (b : Binding α) : (bindTerm b).IsBlind := by
  refine isBlind_get_bind ?_ fun c => (isBlind_liftM _).bind fun _ => isBlind_modify ?_ ?_
  · intro c d h
    rw [Controller.checkBinding_congr h.keeps.frame]
  · intro c
    unfold Controller.store
    cases b.side <;> rfl
  · intro c inputs
    unfold Controller.store
    cases b.side <;> rfl

theorem isBlind_setWeights (ws : List α) : (setWeights ws).IsBlind := by
  unfold setWeights
  split
  · exact (isBlind_throw _).bind fun _ => isBlind_modify (fun _ => rfl) fun _ _ => rfl
  · exact isBlind_modify (fun _ => rfl) fun _ _ => rfl

/-- **Setting an input** leaves a controller behind that is like the one
before. -/
theorem alike_setInput (tag : Nat) (x : α) (c : Controller α) :
    c.Alike ((setInput tag x).on c).2 := by
  rw [on_setInput]
  cases h : c.setInput tag x with
  | error f => exact .refl c
  | ok d =>
    obtain ⟨v, hv, -, rfl⟩ := Controller.setInput_eq_ok h
    exact ⟨_, Variable.map_range_set x hv, rfl⟩

/-- Whether it succeeds depends on how many inputs there are. -/
theorem isBlind_setInput (tag : Nat) (x : α) : (setInput tag x).IsBlind := by
  rintro c d ⟨inputs, hinputs, rfl⟩
  have hlength : inputs.length = c.inputs.length := by simpa using congrArg List.length hinputs
  rw [on_setInput, on_setInput]
  unfold Controller.setInput
  by_cases htag : tag < c.inputs.length
  · have hv : c.inputs[tag]? = some c.inputs[tag] := List.getElem?_eq_getElem htag
    obtain ⟨w, hw⟩ : ∃ w, inputs[tag]? = some w :=
      ⟨_, List.getElem?_eq_getElem (hlength.symm ▸ htag)⟩
    simp only [hv, hw]
    split
    · exact ⟨rfl, inputs, hinputs, rfl⟩
    · refine ⟨rfl, _, ?_, rfl⟩
      exact (Variable.map_range_set x hw).trans
        (hinputs.trans (Variable.map_range_set x hv).symm)
  · have hv : c.inputs[tag]? = none := List.getElem?_eq_none (Nat.le_of_not_lt htag)
    have hw : inputs[tag]? = none :=
      List.getElem?_eq_none (hlength.symm ▸ Nat.le_of_not_lt htag)
    simp only [hv, hw, hlength]
    exact ⟨rfl, inputs, hinputs, rfl⟩

end Configuring

end InPlace

namespace Controller

variable {α : Type} [Scalar α] {c : Controller α} {inputs : List (Variable α)}

/-! ## Inference -/

/-- Events are fired with no regard to the inputs. -/
theorem fireItems_inputs (f : Firing α) (items : List Cursor.Item) :
    ({ c with inputs := inputs } : Controller α).fireItems f items = c.fireItems f items := by
  induction items generalizing f with
  | nil => rfl
  | cons i items ih =>
    match i with
    | .error fault => rfl
    | .ok (position, .done) => rfl
    | .ok (position, .clause link a closes) =>
      have hfire : ({ c with inputs := inputs } : Controller α).fire f (.clause link a closes)
          = c.fire f (.clause link a closes) := rfl
      unfold fireItems
      rw [hfire]
      simp only [ih]
    | .ok (position, .conclusion a closes) =>
      have hfire : ({ c with inputs := inputs } : Controller α).fire f (.conclusion a closes)
          = c.fire f (.conclusion a closes) := rfl
      unfold fireItems
      rw [hfire]
      simp only [ih]

theorem fireStream_inputs (h : inputs.map Variable.range = c.inputs.map Variable.range)
    (tokens : List Token) :
    ({ c with inputs := inputs } : Controller α).fireStream tokens
      = ((c.fireStream tokens).1, { (c.fireStream tokens).2 with inputs := inputs }) := by
  unfold fireStream
  rw [bounds_congr (keeps_of_inputs c.cycle h).frame, fireItems_inputs]
  rcases c.fireItems ⟨c.cycle, 0, 0⟩ (Stream.items c.bounds tokens) with ⟨outcome, firing⟩
  cases outcome <;> rfl

/-- **Inference** goes by the inputs as they have been fuzzified. -/
theorem infer_inputs (h : inputs.map Variable.range = c.inputs.map Variable.range)
    (tokens : List Token) :
    ({ c with inputs := inputs } : Controller α).infer tokens
      = ((c.infer tokens).1, { (c.infer tokens).2 with inputs := inputs }) := by
  have hfire := fireStream_inputs (c := c.cleared) h tokens
  unfold infer
  rw [accept_congr (keeps_of_inputs c.cycle h)]
  show (if !c.cycle.fuzzified then _ else if c.outputTerms.any Option.isNone then _ else _) = _
  cases !c.cycle.fuzzified with
  | true => rfl
  | false =>
    cases c.outputTerms.any Option.isNone with
    | true => rfl
    | false =>
      cases c.accept tokens with
      | error f => rfl
      | ok _ => exact hfire

end Controller

namespace InPlace

variable {α : Type} [Scalar α]

theorem isBlind_infer (tokens : List Token) : (infer tokens : InPlace α Nat).IsBlind := by
  rintro c d ⟨inputs, hinputs, rfl⟩
  have hranges := congrArg Frame.inputs (Controller.keeps_infer c tokens).frame
  have hinfer : (infer tokens).on { c with inputs := inputs }
      = ((c.infer tokens).1, { (c.infer tokens).2 with inputs := inputs }) :=
    Controller.infer_inputs hinputs tokens
  rw [hinfer]
  exact ⟨rfl, inputs, hinputs.trans hranges.symm, rfl⟩

/-- **A crisp value** is computed from the findings. -/
theorem isBlind_defuzzifyOutput (buffer : List α) (output : Nat) :
    (defuzzifyOutput buffer output).IsBlind := by
  rintro c d ⟨inputs, hinputs, rfl⟩
  have hcrisp (v : Variable α) :
      ({ c with inputs := inputs } : Controller α).defuzzified? (v, output)
        = c.defuzzified? (v, output) := rfl
  rw [on_defuzzifyOutput, on_defuzzifyOutput]
  cases c.outputs[output]? with
  | none => exact ⟨rfl, inputs, hinputs, rfl⟩
  | some v =>
    simp only [hcrisp]
    cases c.defuzzified? (v, output) with
    | none => exact ⟨rfl, inputs, hinputs, rfl⟩
    | some w => exact ⟨rfl, inputs, hinputs, rfl⟩

theorem isBlind_defuzzify : (defuzzify : InPlace α Unit).IsBlind := by
  refine IsBlind.bind (isBlind_get_bind ?_ fun c =>
    .guard (isBlind_foldlM isBlind_defuzzifyOutput _ _)) fun _ => isBlind_pure ()
  rintro c d ⟨inputs, -, rfl⟩
  rfl

end InPlace

/-! ## Histories -/

/-- **The commands that do not look at the inputs**: all but those that
fuzzify them. -/
def Command.IsBlind {α : Type} : Command α → Prop
  | .fuzzify | .evaluate _ _ => False
  | _ => True

namespace Controller

variable {α : Type} [Scalar α] {c d : Controller α}

/-- **A blind command** goes the same way on alike controllers, and leaves
alike controllers behind. -/
theorem operate_of_alike (h : c.Alike d) {command : Command α} (hblind : command.IsBlind) :
    (d.operate command).1 = (c.operate command).1 ∧
      (c.operate command).2.Alike (d.operate command).2 := by
  have hsilent {p : InPlace α Unit} (hp : p.IsBlind) :
      (do p; return none : InPlace α (Option Nat)).IsBlind :=
    hp.bind fun _ => InPlace.isBlind_pure none
  cases command with
  | choose setting => exact hsilent (InPlace.isBlind_choose setting) c d h
  | chooseMethod method => exact hsilent (InPlace.isBlind_chooseMethod method) c d h
  | bindTerm binding => exact hsilent (InPlace.isBlind_bindTerm binding) c d h
  | setWeights weights => exact hsilent (InPlace.isBlind_setWeights weights) c d h
  | clearWeights =>
    have hclear : (modify clearWeights : InPlace α PUnit).IsBlind :=
      InPlace.isBlind_modify (fun _ => rfl) fun _ _ => rfl
    exact hsilent hclear c d h
  | setInput tag value => exact hsilent (InPlace.isBlind_setInput tag value) c d h
  | infer tokens =>
    exact (InPlace.isBlind_infer tokens).bind (fun _ => InPlace.isBlind_pure _) c d h
  | defuzzify => exact hsilent InPlace.isBlind_defuzzify c d h
  | fuzzify => exact absurd hblind not_false
  | evaluate tokens values => exact absurd hblind not_false

/-- **So does a history of blind commands.** By induction on the history. -/
theorem run_of_alike (h : c.Alike d) {history : List (Command α)}
    (hblind : ∀ command ∈ history, command.IsBlind) :
    (d.run history).1 = (c.run history).1 ∧ (c.run history).2.Alike (d.run history).2 := by
  induction history generalizing c d with
  | nil => exact ⟨rfl, h⟩
  | cons command history ih =>
    obtain ⟨hcommand, hhistory⟩ := List.forall_mem_cons.mp hblind
    obtain ⟨houtcome, hnext⟩ := operate_of_alike h hcommand
    obtain ⟨houtcomes, hlast⟩ := ih hnext hhistory
    refine ⟨?_, hlast⟩
    show (d.operate command).1 :: ((d.operate command).2.run history).1
      = (c.operate command).1 :: ((c.operate command).2.run history).1
    rw [houtcome, houtcomes]

/-- **Setting inputs**, with success or without, leaves a controller behind that
is like the one before. -/
theorem alike_run_setInputs (c : Controller α) (settings : List (Nat × α)) :
    c.Alike (c.run (settings.map fun (tag, x) => .setInput tag x)).2 := by
  induction settings generalizing c with
  | nil => exact .refl c
  | cons setting settings ih =>
    obtain ⟨tag, x⟩ := setting
    have hnext : c.Alike (c.operate (.setInput tag x)).2 := by
      have := InPlace.alike_setInput tag x c
      show c.Alike ((InPlace.setInput tag x >>= fun _ => pure none).on c).2
      rw [InPlace.on_bind]
      rcases hafter : (InPlace.setInput tag x).on c with ⟨r, e⟩
      rw [hafter] at this
      cases r <;> exact this
    exact hnext.trans (ih _)

/-- **Inference uses the inputs as they have been fuzzified.** When inputs are
set behind the back of a cycle, with success or without, an inference and a
defuzzification go as they would have gone: they succeed or fail in the same
way, and find the same degrees, strengths, activations, sums and crisp values.
The controllers that are left differ at most in the values of the inputs. -/
theorem cycle_unseen (c : Controller α) (settings : List (Nat × α)) (tokens : List Token) :
    let d := (c.run (settings.map fun (tag, x) => .setInput tag x)).2
    let inferred := c.run [.infer tokens]
    let inferred' := d.run [.infer tokens]
    let defuzzified := c.run [.infer tokens, .defuzzify]
    let defuzzified' := d.run [.infer tokens, .defuzzify]
    (inferred'.1 = inferred.1 ∧ inferred.2.Alike inferred'.2) ∧
    (defuzzified'.1 = defuzzified.1 ∧ defuzzified.2.Alike defuzzified'.2) ∧
    defuzzified'.2.cycle = defuzzified.2.cycle ∧
    defuzzified'.2.outputs = defuzzified.2.outputs := by
  intro d inferred inferred' defuzzified defuzzified'
  have hd : c.Alike d := alike_run_setInputs c settings
  have hinfer : ∀ command ∈ [(.infer tokens : Command α)], command.IsBlind := by
    simp [Command.IsBlind]
  have hboth : ∀ command ∈ [(.infer tokens : Command α), .defuzzify], command.IsBlind := by
    simp [Command.IsBlind]
  obtain ⟨houtcomes, halike⟩ := run_of_alike hd hboth
  exact ⟨run_of_alike hd hinfer, ⟨houtcomes, halike⟩, halike.cycle, halike.outputs⟩

/-- A Sugeno controller that concludes with its input, which is one half when
it is fuzzified. -/
def echoing : Controller Float32 :=
  Controller.after
    { bare with
      style := .sugeno
      outputTerms := [none]
      defuzzifier := .initial .sugeno
      cycle := ⟨[0], [0], [⟨0, 0⟩], [⟨0, 0⟩], [], false, false⟩ }
    [.bindTerm ⟨.input, 0, 0, .builtin .constant, [1], 1⟩,
      .bindTerm ⟨.output, 0, 0, .custom ⟨"echo", fun s _ => s.inputs.head?.getD 0⟩, [], 1⟩,
      .setInput 0 0.5, .fuzzify]

-- the first of the two settings is accepted, the second is not
example :
    let c := (echoing.run [.setInput 0 0.25, .setInput 1 0, .infer [.mark .opening, .datum 0,
      .datum 1, .mark .consequence, .datum 0, .datum 1, .mark .closing], .defuzzify]).2
    c.inputs.map Variable.value = [0.25] ∧ c.outputs.map Variable.value = [0.5] := by
  decide +kernel

end Controller

end FuzzyInference
