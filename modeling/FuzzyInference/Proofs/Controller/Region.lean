import FuzzyInference.Proofs.Controller.Configured
import FuzzyInference.Proofs.Controller.InPlace
import FuzzyInference.Proofs.Controller.Isolation

/-!
# The region of an output and its crisp value

The curve of an output is looked at in two places. `Controller.region` hands it
out as points, and `Controller.samples?` takes the values that are
defuzzified. The two are written apart, and take the same values in the same
places (`Controller.isRegion_of_region`). So what an output of a Mamdani
controller holds when it has been defuzzified is what the method makes of its
region (`Controller.defuzzify_of_inferred`).

Defuzzifying works on the controller it reads from. By the time an output has
its turn, those before it hold new values, and the buffer for its samples is
full of theirs. Neither is seen. An output has one region in all controllers
that are the same but for what their outputs hold
(`Controller.UpToOutputs.isRegion`), so each of them gives it the same value
from whatever buffer, and a second time changes nothing.
-/

namespace FuzzyInference

variable {α : Type} [Scalar α]

/-- **The values of points, as samples** over the universe of a variable, which is
divided into so many steps. -/
def Variable.samplesOf (v : Variable α) (steps : Nat) (points : List (CurvePoint α)) : Samples α :=
  ⟨points.map CurvePoint.y, v.lower, v.span / (steps : α)⟩

namespace Controller

variable {c d : Controller α} {output : Nat} {v : Variable α} {points : List (CurvePoint α)}

/-! ## Regions -/

/-- Where a curve over a universe is looked at. -/
def place (c : Controller α) (v : Variable α) (k : Nat) : α := v.lower + c.resolution v * (k : α)

/-- **A point of the curve of an output.** -/
def point? (c : Controller α) (output : Nat) (v : Variable α) (k : Nat) : Option (CurvePoint α) :=
  (c.curve? output (c.place v k)).map (CurvePoint.mk (c.place v k))

/-- **The region of an output** has all the points of its curve. -/
theorem region_eq_ok_iff (hstyle : c.style = .mamdani) (hv : c.outputs[output]? = some v) :
    c.region output = .ok points ↔
      (List.range (c.evalPoints + 1)).map (c.point? output v) = points.map some := by
  have hlt : output < c.outputs.length := (List.getElem?_eq_some_iff.mp hv).1
  have hrequire : c.requireCurve output = .ok () := by
    unfold requireCurve
    rw [if_neg (not_not_intro hstyle), if_neg (Nat.not_le_of_lt hlt)]
  have hregion : c.region output
      = (List.range (c.evalPoints + 1)).mapM fun k => Fault.found (c.point? output v k) := by
    unfold region
    rw [hrequire, hv]
    refine congrArg (List.mapM · _) (funext fun k => ?_)
    show (Fault.found (c.curve? output (c.place v k)) >>= _)
      = Fault.found ((c.curve? output (c.place v k)).map _)
    cases c.curve? output (c.place v k) <;> rfl
  have hfound : Function.Injective (Fault.found : Option (CurvePoint α) → Except (Fault α) _) := by
    rintro (_ | p) (_ | q) h <;> cases h <;> rfl
  rw [hregion, List.mapM_eq_ok_iff]
  show List.map (Fault.found ∘ _) _ = List.map (Fault.found ∘ some) _ ↔ _
  rw [← List.map_map, ← List.map_map, (List.map_injective_iff.mpr hfound).eq_iff]

/-- **The points of the curve of an output** over a universe, as they are handed
out and as they are defuzzified. -/
structure IsRegion (c : Controller α) (output : Nat) (v : Variable α)
    (points : List (CurvePoint α)) : Prop where
  /-- They are handed out. -/
  region : c.region output = .ok points
  /-- There is one more than there are steps. -/
  length : points.length = c.evalPoints + 1
  /-- Each lies where the sample of its number does. -/
  x : ∀ (k : Nat) (p : CurvePoint α), points[k]? = some p →
    p.x = (v.samplesOf c.evalPoints points).x k
  /-- Each lies on the curve. -/
  y : ∀ (k : Nat) (p : CurvePoint α), points[k]? = some p → c.curve output p.x = .ok p.y
  /-- Their values are the samples. -/
  samples : c.samples? output v = some (v.samplesOf c.evalPoints points)

/-- The points of a region are those of the curve, in their places. -/
theorem point?_of_region (hstyle : c.style = .mamdani) (hv : c.outputs[output]? = some v)
    (h : c.region output = .ok points) {k : Nat} {p : CurvePoint α} (hp : points[k]? = some p) :
    k ≤ c.evalPoints ∧ c.point? output v k = some p := by
  have ⟨hlt, hpoint⟩ := List.lt_and_eq_some_of_map_range ((region_eq_ok_iff hstyle hv).mp h) hp
  exact ⟨Nat.le_of_lt_succ hlt, hpoint⟩

/-- **The region of an output** consists of what is defuzzified. -/
theorem isRegion_of_region (hstyle : c.style = .mamdani) (hv : c.outputs[output]? = some v)
    (h : c.region output = .ok points) : c.IsRegion output v points := by
  have hplaces := (region_eq_ok_iff hstyle hv).mp h
  obtain ⟨⟨⟩, hrequire, -⟩ := Except.bind_eq_ok_iff.mp h
  have hpoint (k : Nat) (p : CurvePoint α) (hp : points[k]? = some p) :
      ∃ y, c.curve? output (c.place v k) = some y ∧ ⟨c.place v k, y⟩ = p :=
    Option.map_eq_some_iff.mp (point?_of_region hstyle hv h hp).2
  constructor
  · exact h
  · have hlength := congrArg List.length hplaces
    rw [List.length_map, List.length_map, List.length_range] at hlength
    exact hlength.symm
  · intro k p hp
    obtain ⟨y, -, rfl⟩ := hpoint k p hp
    rfl
  · intro k p hp
    obtain ⟨y, hy, rfl⟩ := hpoint k p hp
    exact Except.bind_eq_ok_iff.mpr ⟨(), hrequire, Fault.found_eq_ok_iff.mpr hy⟩
  · refine Option.bind_eq_some_iff.mpr ⟨_, List.mapM_eq_some_iff.mpr ?_, rfl⟩
    calc (List.range (c.evalPoints + 1)).map (fun k => c.curve? output (c.place v k))
        = ((List.range (c.evalPoints + 1)).map (c.point? output v)).map
            (Option.map CurvePoint.y) := by
          rw [List.map_map]
          refine List.map_congr_left fun k _ => ?_
          show _ = Option.map _ (Option.map _ _)
          rw [Option.map_map]
          exact Option.map_id'.symm
      _ = (points.map some).map (Option.map CurvePoint.y) := by rw [hplaces]
      _ = (points.map CurvePoint.y).map some := by rw [List.map_map, List.map_map]; rfl

/-- **An output has a region**, in a sound controller. -/
theorem exists_isRegion (hc : c.Sound) (hstyle : c.style = .mamdani)
    (hv : c.outputs[output]? = some v) : ∃ points, c.IsRegion output v points := by
  have hlt : output < c.outputs.length := (List.getElem?_eq_some_iff.mp hv).1
  obtain ⟨points, hpoints⟩ := List.exists_eq_map_some
    (l := (List.range (c.evalPoints + 1)).map (c.point? output v)) (by
      intro o ho hnone
      obtain ⟨k, -, rfl⟩ := List.mem_map.mp ho
      obtain ⟨y, hy⟩ := exists_curve? hc hlt (c.place v k)
      rw [Option.map_eq_none_iff.mp hnone] at hy
      cases hy)
  exact ⟨points, isRegion_of_region hstyle hv ((region_eq_ok_iff hstyle hv).mpr hpoints)⟩

/-- **The region of an output** is that of all controllers that are the same but for
what their outputs hold. -/
theorem UpToOutputs.isRegion (h : c.UpToOutputs d) (hpoints : c.IsRegion output v points) :
    d.IsRegion output v points := by
  have hsteps : d.evalPoints = c.evalPoints := h.evalPoints
  constructor
  · rw [h.region, hpoints.region]
  · rw [hsteps, hpoints.length]
  · rw [hsteps]
    exact hpoints.x
  · intro k p hp
    rw [h.curve]
    exact hpoints.y k p hp
  · rw [hsteps, h.samples? output rfl, hpoints.samples]

/-! ## Defuzzifying -/

variable [Scalar.IsOrdered α]

/-- **What an output is given** is what the method makes of its samples, saturated
if it is finite. -/
theorem defuzzified?_eq (hc : c.Sound) (hstyle : c.style = .mamdani)
    (hv : c.outputs[output]? = some v) {s : Samples α} (hs : c.samples? output v = some s) {x : α}
    (hx : c.defuzzifier.ofSamples? s = some x) :
    c.defuzzified? (v, output) = some
      { v with value := if Scalar.IsFinite x then Scalar.clamp v.lower v.upper x else x } := by
  have hcrisp : c.crisp? output v = some x := by
    unfold crisp?
    rw [hstyle]
    exact Option.bind_eq_some_iff.mpr ⟨s, hs, hx⟩
  have hvalue := Variable.saturateFinite?_of_isProperRange
    (hc.outputs v (List.mem_of_getElem? hv)) x
  exact Option.bind_eq_some_iff.mpr ⟨x, hcrisp, Option.bind_eq_some_iff.mpr ⟨_, hvalue, rfl⟩⟩

/-- **All controllers that are the same but for what their outputs hold** come to
the same when they are defuzzified, through whatever buffer. -/
theorem UpToOutputs.operate_defuzzify (h : c.UpToOutputs d) (hc : c.Sound) {e : Controller α}
    (he : c.defuzzify = .ok e) :
    d.operate .defuzzify = (.ok none, e) ∧
      ∀ buffer, ∃ left, (InPlace.defuzzifyThrough buffer).on d = (.ok left, e) := by
  have hdefuzzify : d.defuzzify = .ok e := h.defuzzify.trans he
  constructor
  · rw [operate_eq_perform (h.sound hc)]
    show d.settle d.defuzzify = _
    rw [hdefuzzify]
    rfl
  · exact InPlace.on_defuzzifyThrough hdefuzzify

/-- **Crisp values agree with regions, and defuzzifying is stable**, for every
reachable Mamdani controller that an inference has been made with, whatever its
method.

Defuzzifying succeeds, and changes nothing but what the outputs hold. Each
output then holds what the method makes of the values of its region, saturated
in its universe if it is finite; the region is the same before and after, has
a point for each sample, where the sample is, and consists of points of the
curve. In place, an output is given this value in every controller that is the
same but for what the outputs hold, and the buffer is left with the samples of
its own, whatever has been in it. All these controllers come to the same when
they are defuzzified, the one that has been defuzzified among them. -/
theorem defuzzify_of_inferred (hc : c.Reachable) (hstyle : c.style = .mamdani)
    (hinferred : c.cycle.inferred = true) :
    c.defuzzifier.isSampled = true ∧
    ∃ d, c.operate .defuzzify = (.ok none, d) ∧ d.operate .defuzzify = (.ok none, d) ∧
      c.UpToOutputs d ∧
      (∀ output v, c.outputs[output]? = some v → ∃ points x w,
        c.IsRegion output v points ∧ d.IsRegion output v points ∧
        c.defuzzifier.ofSamples? (v.samplesOf c.evalPoints points) = some x ∧
        w = { v with value := if Scalar.IsFinite x then Scalar.clamp v.lower v.upper x else x } ∧
        d.outputs[output]? = some w ∧
        ∀ e, c.UpToOutputs e → ∀ buffer,
          (InPlace.defuzzifyOutput buffer output).on e
            = (.ok (points.map CurvePoint.y), { e with outputs := e.outputs.set output w })) ∧
      ∀ e, c.UpToOutputs e → e.operate .defuzzify = (.ok none, d) ∧
        ∀ buffer, ∃ left, (InPlace.defuzzifyThrough buffer).on e = (.ok left, d) := by
  have hsampled : c.defuzzifier.isSampled = true := by
    have hsuits : c.defuzzifier.suits c.style = true := hc.fit.defuzzifier
    rwa [hstyle] at hsuits
  obtain ⟨d, hd⟩ := exists_defuzzify hc.sound hinferred
  have hafter : c.UpToOutputs d := .of_defuzzify hd
  refine ⟨hsampled, d, ((UpToOutputs.refl c).operate_defuzzify hc.sound hd).1,
    (hafter.operate_defuzzify hc.sound hd).1, hafter, ?_,
    fun e he => he.operate_defuzzify hc.sound hd⟩
  intro output v hv
  obtain ⟨points, hpoints⟩ := exists_isRegion hc.sound hstyle hv
  obtain ⟨x, hx⟩ := c.defuzzifier.exists_ofSamples? (v.samplesOf c.evalPoints points)
  have hw := defuzzified?_eq hc.sound hstyle hv hpoints.samples hx
  refine ⟨points, x, _, hpoints, hafter.isRegion hpoints, hx, rfl, ?_, fun e he buffer => ?_⟩
  · have hplace := getElem?_of_defuzzify hd output
    rw [hv, Option.map_some, hw] at hplace
    obtain ⟨w, hw, heq⟩ := Option.map_eq_some_iff.mp hplace
    rw [hw, heq]
  · obtain ⟨u, hu, hrange⟩ := he.exists_output hv
    have hsamples := (he.samples? output hrange).trans hpoints.samples
    have hcrisp := (he.defuzzified? output hrange).trans hw
    rw [InPlace.on_defuzzifyOutput_of_some buffer hu hcrisp,
      InPlace.gathered_of_samples? (he.style.trans hstyle) hsamples]
    rfl

/-- A controller that the rule which says nothing of the second output has been
inferred with. -/
def spared : Controller Float32 := paired.after [.infer sparingStream.tokens]

theorem defuzzify_of_inferred_spared :
    ∃ d points, spared.operate .defuzzify = (.ok none, d) ∧
      d.operate .defuzzify = (.ok none, d) ∧ d.region 1 = .ok points ∧ points.length = 101 := by
  obtain ⟨-, d, hdefuzzify, hagain, -, houtputs, -⟩ :=
    defuzzify_of_inferred (reachable_paired.after [.infer sparingStream.tokens])
      (show spared.style = .mamdani by decide +kernel)
      (show spared.cycle.inferred = true by decide +kernel)
  obtain ⟨points, -, -, hpoints, hregion, -⟩ :=
    houtputs 1 _ (List.getElem?_eq_getElem (by decide +kernel))
  refine ⟨d, points, hdefuzzify, hagain, hregion.region, hpoints.length.trans ?_⟩
  decide +kernel

end Controller

end FuzzyInference
