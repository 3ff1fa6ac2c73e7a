import FuzzyInference.Proofs.Controller.InPlace

/-!
# All inputs at once, or one at a time

To evaluate is to set all inputs and to run a cycle. The values are looked at
first, so that nothing is set unless all of it can be. A caller can as well
set the inputs one at a time, by their numbers, and call for the steps of the
cycle one after the other, up to the first that fails. When the values are
numbers, and as many as there are inputs, that comes to the same
(`InPlace.evaluate_eq_stepwise`).

Values that are listed with the numbers of inputs, in any order, leave each
input with the last value that is listed for it (`lastValue?`).
-/

namespace FuzzyInference

/-- **The last value that is listed for a key**, if there is one. -/
def lastValue? {κ α : Type} [DecidableEq κ] (pairs : List (κ × α)) (key : κ) : Option α :=
  (pairs.filter fun p => p.1 = key).getLast?.map Prod.snd

/-- Among numbered values the one that is listed for a number is in that
place. -/
theorem lastValue?_zipIdx {α : Type} (values : List α) (i : Nat) :
    lastValue? (values.zipIdx.map Prod.swap) i = values[i]? := by
  have hfrom (k : Nat) : lastValue? ((values.zipIdx k).map Prod.swap) (k + i) = values[i]? := by
    unfold lastValue?
    induction values generalizing k i with
    | nil => rfl
    | cons x values ih =>
      rw [List.zipIdx_cons, List.map_cons]
      cases i with
      | zero =>
        have hrest :
            (((values.zipIdx (k + 1)).map Prod.swap).filter fun p => p.1 = k + 0) = [] := by
          refine List.filter_eq_nil_iff.mpr fun p hp => ?_
          obtain ⟨⟨y, j⟩, hy, rfl⟩ := List.mem_map.mp hp
          have hlt : k + 1 ≤ j := List.le_snd_of_mem_zipIdx hy
          simpa using Nat.ne_of_gt hlt
        rw [List.filter_cons_of_pos (by simp), hrest]
        rfl
      | succ i =>
        have hi : k + (i + 1) = k + 1 + i := by omega
        rw [List.filter_cons_of_neg (by simp), hi]
        exact ih i (k + 1)
  rw [← hfrom 0, Nat.zero_add]

/-- The values of a variable, one after the other. -/
theorem Variable.foldl_value {κ α : Type} (pairs : List (κ × α)) (v : Variable α) :
    pairs.foldl (fun v p => { v with value := p.2 }) v
      = { v with value := (pairs.getLast?.map Prod.snd).getD v.value } := by
  induction pairs generalizing v with
  | nil => rfl
  | cons p pairs ih =>
    rw [List.foldl_cons, ih]
    cases pairs with
    | nil => rfl
    | cons q pairs =>
      rw [List.getLast?_cons_cons, List.getLast?_eq_some_getLast (List.cons_ne_nil q pairs)]
      rfl

namespace Controller

variable {α : Type}

/-- The controller when inputs have been set one after the other. -/
def withSettings (c : Controller α) (pairs : List (Nat × α)) : Controller α :=
  { c with
    inputs := pairs.foldl (fun vs p => vs.modify p.1 fun v => { v with value := p.2 }) c.inputs }

/-- **Every input is left with the last value** that is listed for it. -/
theorem getElem?_withSettings (c : Controller α) (pairs : List (Nat × α)) (i : Nat) :
    (c.withSettings pairs).inputs[i]?
      = c.inputs[i]?.map fun v => { v with value := (lastValue? pairs i).getD v.value } := by
  refine (List.getElem?_foldl_modify pairs c.inputs i).trans (Option.map_congr fun v _ => ?_)
  exact Variable.foldl_value _ v

/-- **All inputs have been set** when the values are what is listed last for
each of them, or what it has been before. -/
theorem withSettings_eq_withInputs {c : Controller α} {pairs : List (Nat × α)} {values : List α}
    (h : ∀ i v, c.inputs[i]? = some v → values[i]? = some ((lastValue? pairs i).getD v.value)) :
    c.withSettings pairs = c.withInputs values := by
  have hinputs : (c.withSettings pairs).inputs
      = c.inputs.zipWith (fun v x => { v with value := x }) values := by
    refine List.ext_getElem? fun i => ?_
    rw [getElem?_withSettings, List.getElem?_zipWith]
    cases hv : c.inputs[i]? with
    | none => rfl
    | some v =>
      rw [h i v hv]
      rfl
  unfold withInputs
  rw [← hinputs]
  rfl

end Controller

namespace InPlace

variable {α : Type} [Scalar α] {c : Controller α}

/-- **Inputs that are there can be set** to numbers, one after the other. -/
theorem on_setInputs {pairs : List (Nat × α)}
    (h : ∀ p ∈ pairs, p.1 < c.inputs.length ∧ ¬ Scalar.IsNaN p.2) :
    (pairs.forM fun (tag, x) => setInput tag x).on c = (.ok (), c.withSettings pairs) := by
  induction pairs generalizing c with
  | nil => rfl
  | cons p pairs ih =>
    obtain ⟨⟨hlt, hvalue⟩, hrest⟩ := List.forall_mem_cons.mp h
    have hv : c.inputs[p.1]? = some c.inputs[p.1] := List.getElem?_eq_getElem hlt
    have hset : (setInput p.1 p.2).on c = (.ok (), c.withSettings [p]) := by
      rw [on_setInput]
      unfold Controller.setInput Controller.withSettings
      simp only [hv, if_neg hvalue, List.foldl_cons, List.foldl_nil,
        List.modify_eq_set_of_getElem? _ hv]
      rfl
    have hlength : (c.withSettings [p]).inputs.length = c.inputs.length := List.length_modify ..
    show (setInput p.1 p.2 >>= fun _ => pairs.forM _).on c = _
    rw [on_bind_of_ok hset, ih (fun q hq => hlength ▸ hrest q hq)]
    rfl

/-- **To evaluate is to set the inputs and to run a cycle**, for as many numbers
as there are inputs. -/
theorem evaluate_of_numbers (inference : InPlace α Nat) {values : List α}
    (hlength : values.length = c.inputs.length) (hvalues : ∀ x ∈ values, ¬ Scalar.IsNaN x) :
    (evaluate inference values).on c = (cycle inference).on (c.withInputs values) := by
  have hcount : ¬ values.length ≠ c.inputs.length := fun h => h hlength
  have hnumbers : ¬ ∃ x ∈ values, Scalar.IsNaN x := fun ⟨x, hx, hnan⟩ => hvalues x hx hnan
  unfold evaluate
  simp only [on_get_bind, if_neg hcount, if_neg hnumbers, on_modify_bind]

/-- **Evaluating step by step**: the inputs one after the other, and then the
steps of a cycle around an inference. -/
def stepwise (inference : InPlace α Nat) (values : List α) : InPlace α Nat := do
  values.zipIdx.forM fun (x, tag) => setInput tag x
  fuzzify
  let rules ← inference
  defuzzify
  return rules

/-- **To evaluate is to evaluate step by step**, for as many numbers as there
are inputs. -/
theorem evaluate_eq_stepwise (inference : InPlace α Nat) {values : List α}
    (hlength : values.length = c.inputs.length) (hvalues : ∀ x ∈ values, ¬ Scalar.IsNaN x) :
    (evaluate inference values).on c = (stepwise inference values).on c := by
  have hset : (values.zipIdx.forM fun (x, tag) => setInput tag x).on c
      = (.ok (), c.withInputs values) := by
    have hpairs : ∀ p ∈ values.zipIdx.map Prod.swap,
        p.1 < c.inputs.length ∧ ¬ Scalar.IsNaN p.2 := by
      intro p hp
      obtain ⟨⟨x, i⟩, hx, rfl⟩ := List.mem_map.mp hp
      have hi := List.mem_zipIdx_iff_getElem?.mp hx
      exact ⟨hlength ▸ (List.getElem?_eq_some_iff.mp hi).1, hvalues x (List.mem_of_getElem? hi)⟩
    have := on_setInputs hpairs
    rw [List.forM_eq_forM, List.forM_map] at this
    refine Eq.trans this (congrArg _ (Controller.withSettings_eq_withInputs fun i v hv => ?_))
    have hlt := (List.getElem?_eq_some_iff.mp hv).1
    rw [lastValue?_zipIdx, List.getElem?_eq_getElem (hlength.symm ▸ hlt)]
    rfl
  unfold stepwise
  rw [evaluate_of_numbers inference hlength hvalues, on_bind_of_ok hset]
  rfl

end InPlace

end FuzzyInference
