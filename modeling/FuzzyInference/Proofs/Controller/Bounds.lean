import FuzzyInference.Proofs.Controller.Cycle
import FuzzyInference.Proofs.Scalar.Linear

/-!
# Nothing is looked up that is not there

The operations look up coefficients, terms, variables and findings by
number, mostly without asking whether there is one of that number, and
saturate values between ends without asking which one is the lower. Where
such a thing goes wrong an operation stops with `Fault.outOfBounds`. This
module shows that it never does: not for any reachable controller, whatever
is asked of it (`Controller.inBounds_of_reachable`).

What justifies a lookup has been checked elsewhere – when a term was bound,
or when a stream was read for the first time – and is found again in what
is known of sound controllers. So there is one lemma for each operation,
and it follows the operation up to each lookup.
-/

namespace FuzzyInference

namespace Fault

variable {α β γ : Type}

/-- **A result that is not due to a lookup that went wrong.** -/
def InBounds (r : Except (Fault α) β) : Prop := r ≠ .error .outOfBounds

theorem inBounds_ok (b : β) : InBounds (α := α) (.ok b) := fun h => by cases h

theorem inBounds_reject (r : Rejection α) : InBounds (reject r : Except (Fault α) β) :=
  fun h => by cases h

/-- What fails for the same reason as something else. -/
theorem InBounds.of_error {f : Fault α} (h : InBounds (.error f : Except (Fault α) β)) :
    InBounds (.error f : Except (Fault α) γ) :=
  fun heq => h (congrArg Except.error (Except.error.inj heq))

/-- A lookup that finds something. -/
theorem inBounds_found {o : Option β} (h : ∃ b, o = some b) : InBounds (found (α := α) o) := by
  obtain ⟨b, rfl⟩ := h
  exact inBounds_ok b

/-- **Two steps**, of which the second is only taken if the first goes
through. -/
theorem inBounds_bind {x : Except (Fault α) β} {f : β → Except (Fault α) γ} (hx : InBounds x)
    (hf : ∀ b, x = .ok b → InBounds (f b)) : InBounds (x >>= f) := by
  cases x with
  | error e => exact hx.of_error
  | ok b => exact hf b rfl

/-- A check, and what follows it if there is nothing to reject. -/
theorem inBounds_guard {p : Prop} [Decidable p] {r : Rejection α} {k : Unit → Except (Fault α) β}
    (h : ¬ p → InBounds (k ())) : InBounds (if p then reject r >>= k else k ()) := by
  split
  · exact inBounds_bind (inBounds_reject r) fun _ h => by cases h
  · next hp => exact h hp

end Fault

open Fault

/-- **Whether a shape has a width** can be told from enough coefficients. -/
theorem Shape.exists_zeroWidth? {α : Type} [Scalar α] {shape : Shape} {p : List α} {inputs : Nat}
    (h : shape.coefficientCount inputs ≤ p.length) : ∃ w, shape.zeroWidth? p = some w := by
  match p with
  | [] => cases shape <;> first | exact ⟨_, rfl⟩ | exact absurd h (by simp [coefficientCount])
  | [a] => cases shape <;> first | exact ⟨_, rfl⟩ | exact absurd h (by simp [coefficientCount])
  | [a, b] => cases shape <;> first | exact ⟨_, rfl⟩ | exact absurd h (by simp [coefficientCount])
  | a :: b :: c :: p => cases shape <;> exact ⟨_, rfl⟩

namespace Controller

variable {α : Type} {c d : Controller α}

/-! ## Configuring -/

theorem inBounds_choose (c : Controller α) (s : Setting) : InBounds (c.choose s) := by
  unfold choose
  split
  · split
    · exact inBounds_reject _
    · exact inBounds_ok _
  · split
    · exact inBounds_ok _
    · exact inBounds_reject _

theorem inBounds_chooseMethod (c : Controller α) (m : Defuzzifier) :
    InBounds (c.chooseMethod m) := by
  unfold chooseMethod
  split
  · exact inBounds_ok _
  · exact inBounds_reject _

variable [Scalar α]

/-- **A binding is checked** without looking up a coefficient that is not
there: their number has been checked before their values are. -/
theorem inBounds_bindTerm (c : Controller α) (b : Binding α) : InBounds (c.bindTerm b) := by
  have hcount : InBounds (c.checkCount b) := by
    unfold checkCount
    split
    · exact inBounds_ok _
    · dsimp only
      split
      · exact inBounds_reject _
      · exact inBounds_ok _
  have hwidth (h : c.checkCount b = .ok ()) : InBounds (checkWidth b) := by
    unfold checkWidth
    split
    · exact inBounds_ok _
    · next shape hshape =>
      refine inBounds_bind (inBounds_found ?_) fun w _ => ?_
      · exact Shape.exists_zeroWidth? (supplied_of_checkCount h shape hshape)
      · cases w with
        | true => exact inBounds_reject _
        | false => exact inBounds_ok _
  refine inBounds_bind ?_ fun _ _ => inBounds_ok _
  unfold checkBinding
  refine inBounds_guard fun _ => inBounds_guard fun _ => inBounds_guard fun _ => ?_
  exact inBounds_bind hcount fun _ h => inBounds_guard fun _ => hwidth h

theorem inBounds_setWeights (c : Controller α) (ws : List α) : InBounds (c.setWeights ws) := by
  unfold setWeights
  split
  · exact inBounds_reject _
  · exact inBounds_ok _

theorem inBounds_setInput (c : Controller α) (tag : Nat) (x : α) : InBounds (c.setInput tag x) := by
  unfold setInput
  split
  · exact inBounds_reject _
  · split
    · exact inBounds_reject _
    · exact inBounds_ok _

/-! ## Curves -/

omit [Scalar α] in
theorem inBounds_requireCurve (c : Controller α) (output : Nat) :
    InBounds (c.requireCurve output) := by
  unfold requireCurve
  split
  · exact inBounds_reject _
  · split
    · exact inBounds_reject _
    · exact inBounds_ok _

omit [Scalar α] in
theorem lt_of_requireCurve {output : Nat} (h : c.requireCurve output = .ok ()) :
    output < c.outputs.length := by
  unfold requireCurve at h
  split at h
  · cases h
  · split at h
    · cases h
    · next hlt => exact Nat.lt_of_not_le hlt

theorem inBounds_curve (hc : c.Sound) (output : Nat) (x : α) : InBounds (c.curve output x) :=
  inBounds_bind (inBounds_requireCurve c output) fun _ h =>
    inBounds_found (exists_curve? hc (lt_of_requireCurve h) x)

theorem inBounds_region (hc : c.Sound) (output : Nat) : InBounds (c.region output) := by
  refine inBounds_bind (inBounds_requireCurve c output) fun _ h => ?_
  have hlt := lt_of_requireCurve h
  refine inBounds_bind (inBounds_found ⟨_, List.getElem?_eq_getElem hlt⟩) fun v _ => ?_
  obtain ⟨points, hpoints, -⟩ := List.exists_mapM_eq_ok (l := List.range (c.evalPoints + 1))
    (f := fun k : Nat => do
      let x := v.lower + c.resolution v * (k : α)
      let y ← found (α := α) (c.curve? output x)
      return (⟨x, y⟩ : CurvePoint α)) fun k _ => by
    obtain ⟨y, hy⟩ := exists_curve? hc hlt (v.lower + c.resolution v * (k : α))
    exact ⟨_, Except.bind_eq_ok_iff.mpr ⟨y, found_eq_ok_iff.mpr hy, rfl⟩⟩
  rw [hpoints]
  exact inBounds_ok points

/-! ## A cycle -/

variable [Scalar.IsOrdered α]

theorem inBounds_fuzzify (hc : c.Sound) : InBounds c.fuzzify := by
  cases hfind : c.inputTerms.findIdx? Option.isNone with
  | some slot =>
    have hfuzzify : c.fuzzify = .error (.unready (.unboundInput slot)) := by
      unfold fuzzify
      rw [hfind]
    rw [hfuzzify]
    exact fun h => by cases h
  | none =>
    obtain ⟨d, hd⟩ := exists_fuzzify hc fun slot hslot hnone => by
      have hbound := List.findIdx?_eq_none_iff.mp hfind slot hslot
      rw [hnone] at hbound
      cases hbound
    rw [hd]
    exact inBounds_ok d

/-- **Items that are accepted are fired** to the end, whatever stream they
come from. By induction on the items, with findings of the right size
throughout. -/
theorem fireItems_of_accept (hc : c.Sound) {items : List Cursor.Item}
    (haccept : ∀ i ∈ items, c.acceptItem i = .ok ()) {f : Firing α} (hf : f.cycle.Fits c) :
    (c.fireItems f items).1 = .ok () := by
  induction items generalizing f with
  | nil => rfl
  | cons i items ih =>
    obtain ⟨hi, hitems⟩ := List.forall_mem_cons.mp haccept
    cases i with
    | error fault => cases hi
    | ok p =>
      obtain ⟨position, e⟩ := p
      have htakes : c.Takes e := acceptEvent_eq_ok_iff.mp hi
      by_cases hdone : e = .done
      · rw [hdone]
        rfl
      · rw [fireItems_cons hdone (fire_eq_fired hc hf htakes)]
        exact ih hitems (fits_fired hc hf htakes)

/-- **The second reading comes to the end** of a stream that is accepted, for
it meets the items that the first one has accepted. -/
theorem fireStream_of_accept (hc : c.Sound) {tokens : List Token}
    (haccept : c.accept tokens = .ok ()) :
    ∃ rules, (c.cleared.fireStream tokens).1 = .ok rules := by
  have hitems : ∀ i ∈ Stream.items c.cleared.bounds tokens, c.cleared.acceptItem i = .ok () :=
    List.forM_eq_ok_iff.mp haccept
  have hsound := sound_cleared hc
  have hfired := fireItems_of_accept hsound hitems (f := ⟨c.cleared.cycle, 0, 0⟩) hsound.fits
  unfold fireStream
  split
  · next hfires =>
    rw [hfires] at hfired
    cases hfired
  · exact ⟨_, rfl⟩

theorem inBounds_infer (hc : c.Sound) (tokens : List Token) : InBounds (c.infer tokens).1 := by
  rcases infer_cases c tokens with ⟨u, h⟩ | ⟨f, -, h⟩ | ⟨haccept, h⟩
  · rw [h]
    exact fun h => by cases h
  · rw [h]
    exact fun h => by cases h
  · obtain ⟨rules, hrules⟩ := fireStream_of_accept hc haccept
    rw [h, hrules]
    exact inBounds_ok rules

theorem inBounds_defuzzify (hc : c.Sound) : InBounds c.defuzzify := by
  cases hinferred : c.cycle.inferred with
  | true =>
    obtain ⟨d, hd⟩ := exists_defuzzify hc hinferred
    rw [hd]
    exact inBounds_ok d
  | false =>
    have hdefuzzify : c.defuzzify = .error (.unready .notInferred) := by
      unfold defuzzify
      rw [hinferred]
      rfl
    rw [hdefuzzify]
    exact fun h => by cases h

theorem inBounds_runCycle (hc : c.Sound) (tokens : List Token) :
    InBounds (c.runCycle tokens).1 := by
  have hfuzzify := inBounds_fuzzify hc
  rcases runCycle_cases c tokens with ⟨f, hf, h⟩ | ⟨e, he, h⟩
  · rw [hf] at hfuzzify
    rw [h]
    exact hfuzzify.of_error
  · have hsound := sound_fuzzify hc he
    have hinfer := inBounds_infer hsound tokens
    have hdefuzzify := inBounds_defuzzify (sound_infer hsound tokens)
    rcases h with ⟨f, hf, h⟩ | ⟨rules, -, ⟨f, hf, h⟩ | ⟨d, -, h⟩⟩
    · rw [h]
      rwa [hf] at hinfer
    · rw [hf] at hdefuzzify
      rw [h]
      exact hdefuzzify.of_error
    · rw [h]
      exact inBounds_ok rules

theorem inBounds_evaluate (hc : c.Sound) (tokens : List Token) (values : List α) :
    InBounds (c.evaluate tokens values).1 := by
  unfold evaluate
  split
  · exact inBounds_reject _
  · next hlength =>
    split
    · exact inBounds_reject _
    · have hkeeps : c.Keeps (c.withInputs values) := keeps_withInputs (Decidable.not_not.mp hlength)
      exact inBounds_runCycle (hc.of_keeps hkeeps hc.fits) tokens

/-! ## Any command -/

/-- **No command looks up what is not there.** -/
theorem inBounds_perform (hc : c.Sound) (command : Command α) :
    InBounds (c.perform command).1 := by
  have hsettle {r : Except (Fault α) (Controller α)} (h : InBounds r) :
      InBounds (c.settle r).1 := by
    cases r with
    | error f => exact h.of_error
    | ok d => exact inBounds_ok none
  have hmap {r : Except (Fault α) Nat} (h : InBounds r) : InBounds (r.map some) := by
    cases r with
    | error f => exact h.of_error
    | ok rules => exact inBounds_ok (some rules)
  cases command with
  | choose setting => exact hsettle (inBounds_choose c setting)
  | chooseMethod method => exact hsettle (inBounds_chooseMethod c method)
  | bindTerm binding => exact hsettle (inBounds_bindTerm c binding)
  | setWeights weights => exact hsettle (inBounds_setWeights c weights)
  | clearWeights => exact inBounds_ok none
  | setInput tag value => exact hsettle (inBounds_setInput c tag value)
  | fuzzify => exact hsettle (inBounds_fuzzify hc)
  | infer tokens => exact hmap (inBounds_infer hc tokens)
  | defuzzify => exact hsettle (inBounds_defuzzify hc)
  | evaluate tokens values => exact hmap (inBounds_evaluate hc tokens values)

omit [Scalar.IsOrdered α] in
/-- **Nothing is looked up that is not there**, and nothing is saturated in
an interval that is none. No command to a reachable controller fails for
such a reason, and neither does a question for a curve. A term is only
stored in a place of its table. The intervals in which values are saturated
are the universes, the unit interval, and the one of half a step to either
side; each of them has its ends in order. -/
theorem inBounds_of_reachable [Scalar.IsLinear α] (hc : c.Reachable) :
    (∀ command, InBounds (c.perform command).1) ∧
    (∀ output x, InBounds (c.curve output x)) ∧
    (∀ output, InBounds (c.region output)) ∧
    (∀ b d, c.bindTerm b = .ok d → b.slot < (c.termsOf b.side).length) ∧
    (∀ v ∈ c.inputs ++ c.outputs, v.lower ≤ v.upper) ∧
    (0 : α) ≤ 1 ∧ -(Scalar.half : α) ≤ Scalar.half := by
  have hsound := hc.sound
  refine ⟨inBounds_perform hsound, inBounds_curve hsound, inBounds_region hsound, ?_, ?_,
    Scalar.IsLinear.zero_le_one, Scalar.IsLinear.neg_half_le_half⟩
  · intro b d h
    exact (admissible_of_checkBinding (bindTerm_eq_ok h).1).slot_lt
  · intro v hv
    have hproper : Variable.IsProperRange v.lower v.upper :=
      (List.mem_append.mp hv).elim (hsound.inputs v) (hsound.outputs v)
    exact Scalar.IsOrdered.le_of_lt hproper.2.2

/-- A controller that can be asked anything. -/
theorem inBounds_ready :
    (∀ command, InBounds (ready.perform command).1) ∧
    (∀ output x, InBounds (ready.curve output x)) ∧
    (∀ output, InBounds (ready.region output)) ∧
    (ready.term? .output 1).isSome = true ∧ ready.cycle.fuzzified = true := by
  obtain ⟨hperform, hcurve, hregion, -⟩ := inBounds_of_reachable reachable_ready
  exact ⟨hperform, hcurve, hregion, rfl, rfl⟩

end Controller

end FuzzyInference
