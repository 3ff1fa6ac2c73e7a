import FuzzyInference.Controller.InPlace
import FuzzyInference.Proofs.Controller.Curve
import FuzzyInference.Proofs.Controller.Width

/-!
# In place or at once

An operation can be carried out in place, write by write, or at once, where
a failure leaves the controller as it was. On a sound controller both come
to the same (`Controller.operate_eq_perform`): every check stands before the
first write, and once the checks have gone through no later step can fail.

For the operations that make a single write this is a comparison of checks,
one after the other. Fuzzifying and defuzzifying write to table after table,
place by place. In the middle of such a loop a table has been replaced in
its first places and not yet in the others, and what is written next does
not depend on what has been written before (`defuzzified?_congr_outputs`).
So the loop is followed through states that are known beforehand
(`InPlace.on_forM_range`), up to the one in which all places have been
replaced.
-/

namespace FuzzyInference

namespace InPlace

/-! ## Running programs -/

section Programs

variable {α β γ : Type} {c d : Controller α}

@[simp] theorem on_pure (b : β) (c : Controller α) :
    (pure b : InPlace α β).on c = (.ok b, c) := rfl

@[simp] theorem on_throw (f : Fault α) (c : Controller α) :
    (throw f : InPlace α β).on c = (.error f, c) := rfl

@[simp] theorem on_get (c : Controller α) :
    (get : InPlace α (Controller α)).on c = (.ok c, c) := rfl

@[simp] theorem on_set (c d : Controller α) : (set d : InPlace α PUnit).on c = (.ok ⟨⟩, d) := rfl

@[simp] theorem on_modify (f : Controller α → Controller α) (c : Controller α) :
    (modify f : InPlace α PUnit).on c = (.ok ⟨⟩, f c) := rfl

@[simp] theorem on_passing (step : Controller α → Except (Fault α) β × Controller α)
    (c : Controller α) : (passing step).on c = step c := rfl

@[simp] theorem on_liftM (x : Except (Fault α) β) (c : Controller α) :
    (liftM x : InPlace α β).on c = (x, c) := rfl

/-- **Two programs, one after the other**: the second goes on from what the
first has left, unless that has failed. -/
theorem on_bind (p : InPlace α β) (k : β → InPlace α γ) (c : Controller α) :
    (p >>= k).on c = match p.on c with
      | (.ok b, d) => (k b).on d
      | (.error f, d) => (.error f, d) := by
  show ExceptT.bindCont k (p.on c).1 (p.on c).2 = _
  rcases p.on c with ⟨r, d⟩
  cases r <;> rfl

theorem on_bind_of_ok {p : InPlace α β} {b : β} (h : p.on c = (.ok b, d)) (k : β → InPlace α γ) :
    (p >>= k).on c = (k b).on d := by
  rw [on_bind, h]

theorem on_bind_of_error {p : InPlace α β} {f : Fault α} (h : p.on c = (.error f, d))
    (k : β → InPlace α γ) : (p >>= k).on c = (.error f, d) := by
  rw [on_bind, h]

@[simp] theorem on_get_bind (k : Controller α → InPlace α γ) (c : Controller α) :
    (get >>= k).on c = (k c).on c := on_bind_of_ok (on_get c) k

@[simp] theorem on_modify_bind (f : Controller α → Controller α) (k : PUnit → InPlace α γ)
    (c : Controller α) : (modify f >>= k).on c = (k ⟨⟩).on (f c) := on_bind_of_ok (on_modify f c) k

@[simp] theorem on_throw_bind (f : Fault α) (k : β → InPlace α γ) (c : Controller α) :
    ((throw f : InPlace α β) >>= k).on c = (.error f, c) := on_bind_of_error (on_throw f c) k

/-- A lookup that finds something. -/
theorem on_lookUp_bind {o : Option β} {b : β} (h : o = some b) (k : β → InPlace α γ)
    (c : Controller α) : (lookUp o >>= k).on c = (k b).on c := by
  subst h
  rfl

/-- **A loop** that leads from each of some states to the next leads from the
first to the last, if no step depends on what is handed on to it. -/
theorem on_foldlM_range {body : β → Nat → InPlace α β} {n : Nat} {state : Nat → Controller α}
    (h : ∀ k < n, ∀ b, ∃ b', (body b k).on (state k) = (.ok b', state (k + 1))) (b : β) :
    ∃ b', ((List.range n).foldlM body b).on (state 0) = (.ok b', state n) := by
  have hfrom : ∀ m k b, k + m = n →
      ∃ b', ((List.range' k m).foldlM body b).on (state k) = (.ok b', state n) := by
    intro m
    induction m with
    | zero =>
      intro k b hk
      rw [← hk]
      exact ⟨b, rfl⟩
    | succ m ih =>
      intro k b hk
      obtain ⟨b', hstep⟩ := h k (by omega) b
      rw [List.range'_succ, List.foldlM_cons, on_bind_of_ok hstep]
      exact ih (k + 1) b' (by omega)
  rw [List.range_eq_range']
  exact hfrom n 0 b (Nat.zero_add n)

/-- **A loop that replaces a table place by place**, where what is put into a place
depends on no place that has been replaced before. -/
theorem on_foldlM_replacing (put : List γ → Controller α) {body : β → Nat → InPlace α β}
    {l l' : List γ} (hlength : l.length = l'.length)
    (h : ∀ k a, l[k]? = some a → ∀ table : List γ, table[k]? = l'[k]? → ∀ b,
      ∃ b', (body b k).on (put table) = (.ok b', put (table.set k a))) (b : β) :
    ∃ b', ((List.range l.length).foldlM body b).on (put l') = (.ok b', put l) := by
  have hstep : ∀ k < l.length, ∀ b, ∃ b', (body b k).on (put (l.take k ++ l'.drop k))
      = (.ok b', put (l.take (k + 1) ++ l'.drop (k + 1))) := by
    intro k hk b
    have ha : l[k]? = some l[k] := List.getElem?_eq_getElem hk
    obtain ⟨b', hb⟩ := h k _ ha _ (List.getElem?_take_append_drop hk) b
    rw [List.set_take_append_drop hlength ha] at hb
    exact ⟨b', hb⟩
  have hloop := on_foldlM_range hstep b
  rw [List.take_append_drop_of_length rfl hlength.symm] at hloop
  exact hloop

/-- A loop that hands nothing on. -/
theorem forM_eq_foldlM (body : γ → InPlace α Unit) (l : List γ) :
    l.forM body = l.foldlM (fun _ => body) () := by
  induction l with
  | nil => rfl
  | cons a l ih =>
    show (body a >>= fun _ => l.forM body) = _
    rw [List.foldlM_cons, ih]

theorem on_forM_range {body : Nat → InPlace α Unit} {n : Nat} {state : Nat → Controller α}
    (h : ∀ k < n, (body k).on (state k) = (.ok (), state (k + 1))) :
    ((List.range n).forM body).on (state 0) = (.ok (), state n) := by
  obtain ⟨⟨⟩, hloop⟩ := on_foldlM_range (fun k hk (_ : Unit) => ⟨(), h k hk⟩) ()
  rwa [forM_eq_foldlM]

theorem on_forM_replacing (put : List γ → Controller α) {body : Nat → InPlace α Unit}
    {l l' : List γ} (hlength : l.length = l'.length)
    (h : ∀ k a, l[k]? = some a → ∀ table : List γ, table[k]? = l'[k]? →
      (body k).on (put table) = (.ok (), put (table.set k a))) :
    ((List.range l.length).forM body).on (put l') = (.ok (), put l) := by
  obtain ⟨⟨⟩, hloop⟩ := on_foldlM_replacing put hlength
    (fun k a ha table htable (_ : Unit) => ⟨(), h k a ha table htable⟩) ()
  rwa [forM_eq_foldlM]

end Programs

end InPlace

/-! ## Operations that write once -/

/-- **An operation at once**: it goes as it does, and leaves the controller alone
if it fails. -/
def Controller.atOnce {α : Type} (c : Controller α) :
    Except (Fault α) (Controller α) → Except (Fault α) Unit × Controller α
  | .ok d => (.ok (), d)
  | .error f => (.error f, c)

namespace InPlace

variable {α : Type} [Scalar α]

omit [Scalar α] in
theorem on_choose (s : Setting) (c : Controller α) :
    (choose s).on c = c.atOnce (c.choose s) := by
  cases s with
  | evalPoints n =>
    unfold choose Controller.choose
    by_cases hn : n < Setting.leastEvalPoints
    · simp only [if_pos hn, on_throw_bind]
      rfl
    · simp only [if_neg hn]
      rfl
  | _ op =>
    unfold choose Controller.choose
    simp only [on_get_bind]
    cases c.norms.choose _ <;> rfl

omit [Scalar α] in
theorem on_chooseMethod (m : Defuzzifier) (c : Controller α) :
    (chooseMethod m).on c = c.atOnce (c.chooseMethod m) := by
  unfold chooseMethod Controller.chooseMethod
  simp only [on_get_bind]
  cases m.suits c.style <;> rfl

theorem on_bindTerm (b : Binding α) (c : Controller α) :
    (bindTerm b).on c = c.atOnce (c.bindTerm b) := by
  unfold bindTerm Controller.bindTerm
  simp only [on_get_bind]
  cases c.checkBinding b <;> rfl

theorem on_setWeights (ws : List α) (c : Controller α) :
    (setWeights ws).on c = c.atOnce (c.setWeights ws) := by
  unfold setWeights Controller.setWeights
  cases ws.findIdx? fun w => ¬ Scalar.IsFinite w <;> rfl

theorem on_setInput (tag : Nat) (x : α) (c : Controller α) :
    (setInput tag x).on c = c.atOnce (c.setInput tag x) := by
  unfold setInput Controller.setInput
  simp only [on_get_bind]
  cases c.inputs[tag]? with
  | none => rfl
  | some v =>
    by_cases hx : Scalar.IsNaN x
    · simp only [if_pos hx]
      rfl
    · simp only [if_neg hx]
      rfl

/-! ## Fuzzifying -/

section Fuzzify

variable {c : Controller α} {saturated : List (Variable α)} {values degrees : List α}

/-- The controller when its first inputs have been saturated. -/
def saturatedUpTo (c : Controller α) (saturated : List (Variable α)) (values : List α) (k : Nat) :
    Controller α :=
  { c with
    inputs := saturated.take k ++ c.inputs.drop k
    cycle := { c.cycle with inputs := values.take k ++ c.cycle.inputs.drop k } }

/-- **The inputs are saturated** one after the other. -/
theorem on_saturateInputs (hfits : c.cycle.Fits c)
    (hvalues : c.inputs.mapM (fun v => v.saturate? v.value) = some values)
    (hsaturated : saturated = c.inputs.zipWith (fun v x => { v with value := x }) values) :
    ((List.range c.inputs.length).forM saturateInput).on c
      = (.ok (), { c with inputs := saturated, cycle := { c.cycle with inputs := values } }) := by
  have hcount : values.length = c.inputs.length := List.length_of_mapM_eq_some hvalues
  have hlength : saturated.length = c.inputs.length := by
    rw [hsaturated, List.length_zipWith, hcount, Nat.min_self]
  have hstep : ∀ k < c.inputs.length,
      (saturateInput k).on (saturatedUpTo c saturated values k)
        = (.ok (), saturatedUpTo c saturated values (k + 1)) := by
    intro k hk
    have hv : (saturatedUpTo c saturated values k).inputs[k]? = some c.inputs[k] := by
      rw [← List.getElem?_eq_getElem hk]
      exact List.getElem?_take_append_drop (hlength ▸ hk)
    obtain ⟨x, hx, hsome⟩ :=
      List.exists_getElem?_of_mapM_eq_some hvalues (List.getElem?_eq_getElem hk)
    have hw : saturated[k]? = some { c.inputs[k] with value := x } := by
      rw [hsaturated, List.getElem?_zipWith, List.getElem?_eq_getElem hk, hx]
    unfold saturateInput
    rw [on_get_bind, on_lookUp_bind hv, on_lookUp_bind hsome, on_set]
    unfold saturatedUpTo
    rw [List.set_take_append_drop hlength hw,
      List.set_take_append_drop (hcount.trans hfits.inputs.symm) hx]
  have hloop := on_forM_range hstep
  unfold saturatedUpTo at hloop
  rw [List.take_append_drop_of_length hlength rfl,
    List.take_append_drop_of_length hcount hfits.inputs] at hloop
  exact hloop

/-- **The degrees are found** one after the other. -/
theorem on_findDegrees (hfits : c.cycle.degrees.length = c.inputTerms.length)
    (hbound : ∀ slot ∈ c.inputTerms, slot ≠ none)
    (hdegrees : (c.inputTerms.filterMap id).mapM (Controller.inputDegree? c.inputs)
      = some degrees) :
    ((List.range c.inputTerms.length).forM findDegree).on c
      = (.ok (), { c with cycle := { c.cycle with degrees := degrees } }) := by
  obtain ⟨terms, hterms⟩ := List.exists_eq_map_some hbound
  have hfilter : c.inputTerms.filterMap id = terms := by
    rw [hterms, List.filterMap_map]
    exact List.filterMap_some
  rw [hfilter] at hdegrees
  have hcount : degrees.length = c.inputTerms.length := by
    rw [List.length_of_mapM_eq_some hdegrees, hterms, List.length_map]
  rw [← hcount]
  refine on_forM_replacing (fun table => { c with cycle := { c.cycle with degrees := table } })
    (hcount.trans hfits.symm) fun k degree hdegree table _ => ?_
  have hk : k < terms.length :=
    List.length_of_mapM_eq_some hdegrees ▸ (List.getElem?_eq_some_iff.mp hdegree).1
  have ht : c.term? .input k = some terms[k] := by
    show (c.inputTerms[k]?).join = _
    rw [hterms, List.getElem?_map, List.getElem?_eq_getElem hk]
    rfl
  obtain ⟨x, hx, hsome⟩ :=
    List.exists_getElem?_of_mapM_eq_some hdegrees (List.getElem?_eq_getElem hk)
  cases hdegree.symm.trans hx
  unfold findDegree
  rw [on_get_bind]
  exact (on_lookUp_bind ht _ _).trans (on_lookUp_bind hsome _ _)

/-- **Fuzzifying in place** is fuzzifying at once, for a sound controller. -/
theorem on_fuzzify [Scalar.IsOrdered α] (hc : c.Sound) : fuzzify.on c = c.atOnce c.fuzzify := by
  cases hfind : c.inputTerms.findIdx? Option.isNone with
  | some slot =>
    unfold fuzzify Controller.fuzzify
    simp only [on_get_bind, hfind]
    rfl
  | none =>
    have hbound : ∀ slot ∈ c.inputTerms, slot ≠ none := by
      intro slot hslot hnone
      have := List.findIdx?_eq_none_iff.mp hfind slot hslot
      rw [hnone] at this
      cases this
    obtain ⟨d, hd⟩ := Controller.exists_fuzzify hc hbound
    rw [hd]
    obtain ⟨-, values, degrees, hvalues, hdegrees, rfl⟩ := Controller.fuzzify_eq_ok hd
    have hfound := on_findDegrees
      (c := { c with
        inputs := c.inputs.zipWith (fun v x => { v with value := x }) values
        cycle := { c.cycle with inputs := values } }) hc.fits.degrees hbound hdegrees
    unfold fuzzify
    simp only [on_get_bind, hfind]
    rw [on_bind_of_ok (on_saturateInputs hc.fits hvalues rfl), on_bind_of_ok hfound, on_modify]
    rfl

end Fuzzify

/-! ## Defuzzifying -/

section Defuzzify

variable {c : Controller α} {outputs : List (Variable α)}

/-- **What is left in the buffer** when an output has been defuzzified: the samples
of its curve, or what has been there if it has none. -/
def gathered (c : Controller α) (output : Nat) (v : Variable α) (buffer : List α) : List α :=
  match c.style with
  | .mamdani => ((c.samples? output v).map Samples.ys).getD buffer
  | .sugeno | .tsukamoto => buffer

theorem gathered_of_samples? (hstyle : c.style = .mamdani) {output : Nat} {v : Variable α}
    {s : Samples α} (hs : c.samples? output v = some s) (buffer : List α) :
    gathered c output v buffer = s.ys := by
  unfold gathered
  rw [hstyle, hs]
  rfl

/-- **The buffer makes no difference** to the crisp value: nothing is left in it
when the samples are put in. -/
theorem crispThrough?_eq (c : Controller α) (output : Nat) (v : Variable α) (buffer : List α) :
    crispThrough? c output v buffer
      = (c.crisp? output v).map fun x => (x, gathered c output v buffer) := by
  unfold crispThrough? Controller.crisp? gathered
  cases c.style with
  | mamdani =>
    unfold Controller.samples?
    simp only [List.take_zero, List.nil_append]
    cases (List.range (c.evalPoints + 1)).mapM fun (k : Nat) =>
        c.curve? output (v.lower + c.resolution v * (k : α)) with
    | none => rfl
    | some ys => exact Option.map_eq_bind.symm
  | _ =>
    cases c.cycle.sums[output]? <;> rfl

/-- An output is given its crisp value if it has one. -/
theorem on_defuzzifyOutput (buffer : List α) (output : Nat) (c : Controller α) :
    (defuzzifyOutput buffer output).on c
      = match c.outputs[output]? with
        | some v =>
          match c.defuzzified? (v, output) with
          | some w =>
            (.ok (gathered c output v buffer), { c with outputs := c.outputs.set output w })
          | none => (.error .outOfBounds, c)
        | none => (.error .outOfBounds, c) := by
  unfold defuzzifyOutput
  rw [on_get_bind]
  cases c.outputs[output]? with
  | none => rfl
  | some v =>
    rw [on_lookUp_bind rfl, crispThrough?_eq]
    simp only [Controller.defuzzified?]
    cases c.crisp? output v with
    | none => rfl
    | some x =>
      simp only [Option.map_some, on_lookUp_bind rfl, Option.bind_eq_bind, Option.bind_some]
      cases v.saturateFinite? x <;> rfl

theorem on_defuzzifyOutput_of_some (buffer : List α) {output : Nat} {v w : Variable α}
    (hv : c.outputs[output]? = some v) (hw : c.defuzzified? (v, output) = some w) :
    (defuzzifyOutput buffer output).on c
      = (.ok (gathered c output v buffer), { c with outputs := c.outputs.set output w }) := by
  rw [on_defuzzifyOutput]
  simp only [hv, hw]

/-- **The outputs are defuzzified** one after the other, whatever the buffer has
been left with. -/
theorem on_defuzzifyOutputs (houtputs : c.outputs.zipIdx.mapM c.defuzzified? = some outputs)
    (buffer : List α) :
    ∃ left, ((List.range c.outputs.length).foldlM defuzzifyOutput buffer).on c
      = (.ok left, { c with outputs := outputs }) := by
  have hcount : outputs.length = c.outputs.length := by
    rw [List.length_of_mapM_eq_some houtputs, List.length_zipIdx]
  rw [← hcount]
  refine on_foldlM_replacing (fun table => { c with outputs := table }) hcount
    (fun k w hw table htable b => ?_) buffer
  have hk : k < c.outputs.length := hcount ▸ (List.getElem?_eq_some_iff.mp hw).1
  have hv : c.outputs[k]? = some c.outputs[k] := List.getElem?_eq_getElem hk
  have hplace : c.outputs.zipIdx[k]? = some (c.outputs[k], k) := by
    rw [List.getElem?_zipIdx, hv, Option.map_some, Nat.zero_add]
  obtain ⟨w', hw', hsome⟩ := List.exists_getElem?_of_mapM_eq_some houtputs hplace
  cases hw.symm.trans hw'
  have hcrisp : ({ c with outputs := table } : Controller α).defuzzified? (c.outputs[k], k)
      = some w := by
    rw [Controller.defuzzified?_outputs (congrArg (Option.map Variable.range) htable) rfl]
    exact hsome
  exact ⟨_, on_defuzzifyOutput_of_some b (htable.trans hv) hcrisp⟩

/-- **Defuzzifying in place**, through whatever buffer, where it can be done. -/
theorem on_defuzzifyThrough {d : Controller α} (h : c.defuzzify = .ok d) (buffer : List α) :
    ∃ left, (defuzzifyThrough buffer).on c = (.ok left, d) := by
  obtain ⟨hinferred, outputs, houtputs, rfl⟩ := Controller.defuzzify_eq_ok h
  unfold defuzzifyThrough
  simp only [on_get_bind, hinferred]
  exact on_defuzzifyOutputs houtputs buffer

/-- **Defuzzifying in place** is defuzzifying at once, for a sound controller. -/
theorem on_defuzzify [Scalar.IsOrdered α] (hc : c.Sound) :
    defuzzify.on c = c.atOnce c.defuzzify := by
  cases hinferred : c.cycle.inferred with
  | false =>
    unfold defuzzify defuzzifyThrough Controller.defuzzify
    simp only [bind_assoc, on_get_bind, hinferred]
    rfl
  | true =>
    obtain ⟨d, hd⟩ := Controller.exists_defuzzify hc hinferred
    obtain ⟨left, hleft⟩ := on_defuzzifyThrough hd []
    unfold defuzzify
    rw [hd, on_bind_of_ok hleft]
    rfl

end Defuzzify

/-! ## Whole cycles -/

variable [Scalar.IsOrdered α] {c : Controller α}

omit [Scalar.IsOrdered α] in
/-- **A stream as it is stored** is inferred from like its tokens. -/
theorem inferTable_eq {w : Width} (s : RuleStream w) :
    (inferTable s : InPlace α Nat) = infer s.tokens := by
  unfold inferTable infer
  congr 1
  funext c
  exact c.inferRaw_eq s

/-- **A cycle in place** is a cycle at once, for a sound controller. -/
theorem on_cycle (hc : c.Sound) (tokens : List Token) :
    (cycle (infer tokens)).on c = c.runCycle tokens := by
  unfold cycle Controller.runCycle
  cases hfuzzify : c.fuzzify with
  | error f =>
    have hf : fuzzify.on c = (.error f, c) := by rw [on_fuzzify hc, hfuzzify]; rfl
    rw [on_bind_of_error hf]
  | ok d =>
    have hf : fuzzify.on c = (.ok (), d) := by rw [on_fuzzify hc, hfuzzify]; rfl
    have hd := Controller.sound_infer (Controller.sound_fuzzify hc hfuzzify) tokens
    rw [on_bind_of_ok hf]
    have hi : (infer tokens).on d = d.infer tokens := rfl
    rcases hinfer : d.infer tokens with ⟨rules | rules, e⟩
    · rw [on_bind_of_error (hi.trans hinfer)]
      simp only [hinfer]
    · rw [hinfer] at hd
      rw [on_bind_of_ok (hi.trans hinfer), on_bind, on_defuzzify hd]
      simp only [hinfer]
      cases e.defuzzify <;> rfl

/-- **Evaluating in place** is evaluating at once, for a sound controller. -/
theorem on_evaluate (hc : c.Sound) (tokens : List Token) (values : List α) :
    (evaluate (infer tokens) values).on c = c.evaluate tokens values := by
  unfold evaluate Controller.evaluate
  simp only [on_get_bind]
  split
  · rfl
  · next hlength =>
    split
    · rfl
    · have hkeeps : c.Keeps (c.withInputs values) :=
        Controller.keeps_withInputs (Decidable.not_not.mp hlength)
      exact on_cycle (hc.of_keeps hkeeps hc.fits) tokens

end InPlace

namespace Controller

variable {α : Type} [Scalar α] [Scalar.IsOrdered α] {c : Controller α}

omit [Scalar α] [Scalar.IsOrdered α] in
/-- A program that does its work at once, with nothing to tell. -/
theorem on_return_none {p : InPlace α Unit} {r : Except (Fault α) (Controller α)}
    (h : p.on c = c.atOnce r) : (do p; return none : InPlace α (Option Nat)).on c = c.settle r := by
  rw [InPlace.on_bind, h]
  cases r <;> rfl

omit [Scalar α] [Scalar.IsOrdered α] in
/-- A program that tells a number. -/
theorem on_return_some (p : InPlace α Nat) :
    (do return some (← p) : InPlace α (Option Nat)).on c = ((p.on c).1.map some, (p.on c).2) := by
  rw [InPlace.on_bind]
  rcases p.on c with ⟨rules | rules, d⟩ <;> rfl

/-- **In place or at once**: a command comes to the same, for a sound
controller. -/
theorem operate_eq_perform (hc : c.Sound) (command : Command α) :
    c.operate command = c.perform command := by
  cases command with
  | choose setting => exact on_return_none (InPlace.on_choose setting c)
  | chooseMethod method => exact on_return_none (InPlace.on_chooseMethod method c)
  | bindTerm binding => exact on_return_none (InPlace.on_bindTerm binding c)
  | setWeights weights => exact on_return_none (InPlace.on_setWeights weights c)
  | clearWeights => rfl
  | setInput tag value => exact on_return_none (InPlace.on_setInput tag value c)
  | fuzzify => exact on_return_none (InPlace.on_fuzzify hc)
  | infer tokens => exact on_return_some (InPlace.infer tokens)
  | defuzzify => exact on_return_none (InPlace.on_defuzzify hc)
  | evaluate tokens values =>
    refine (on_return_some _).trans ?_
    rw [InPlace.on_evaluate hc]
    rfl

end Controller

end FuzzyInference
