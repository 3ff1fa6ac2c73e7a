import FuzzyInference.Description.Document
import FuzzyInference.Proofs.Json.Single

/-!
# Descriptions that read back

A description that is written as a document and read again is the same
description (`Description.ofText?_prettyText`), whichever of its choices are
made, and however its names and its rules are spelled. Level by level, from the
terms to the whole, a record is written faithfully if its parts are.

Of the scalars it is assumed that they are finite and that a finite number reads
back from the digits that have been chosen for it. Reading rounds to double
precision once or twice before it rounds to single precision, so this is not
true of digits as such, but the digits of a number are those of the shortest
decimal next to it. For given numbers it can be computed, as for those of
`Description.quoting`.
-/

namespace FuzzyInference

/-! ## The scalars of a description -/

section Scalars

variable {α : Type}

/-- The scalars of a term. -/
def TermDescription.scalars (t : TermDescription α) : List α := t.height :: t.coefficients

/-- The scalars of a variable. -/
def VariableDescription.scalars (v : VariableDescription α) : List α :=
  v.lower :: v.upper :: v.terms.flatMap TermDescription.scalars

/-- **The scalars of a description**: the heights and the coefficients of its
terms, the ends of its universes, and the weights of its rules. -/
def Description.scalars (d : Description α) : List α :=
  (d.inputs ++ d.outputs).flatMap VariableDescription.scalars ++ d.weights.getD []

end Scalars

namespace Json

/-! ## Choices -/

theorem faithful_style (s : Style) : Faithful s :=
  ⟨.text _, nofun, choose?_chosen (by cases s <;> rfl)⟩

theorem faithful_norm (n : Norm) : Faithful n :=
  ⟨.text _, nofun, choose?_chosen (by cases n <;> rfl)⟩

theorem faithful_defuzzifier (d : Defuzzifier) : Faithful d :=
  ⟨.text _, nofun, choose?_chosen (by cases d <;> rfl)⟩

/-- **A shape** is read by the name it is written by. -/
theorem faithful_shape (s : Shape) : Faithful s := by
  refine ⟨.text _, nofun, ?_⟩
  have hname : choice? (chosen s.name) = some s.name := Text.toString?_ofString s.name
  show (choice? (chosen s.name)).bind Shape.ofName? = some s
  rw [hname, Option.bind_some]
  cases s with
  | inverse ramp => cases ramp <;> rfl
  | _ => rfl

/-! ## Records -/

variable {α : Type} [Scalar α] [Codec α]

/-- **A term** is written faithfully if its scalars are. -/
theorem faithful_term {t : TermDescription α} (h : ∀ x ∈ t.scalars, Faithful x) : Faithful t := by
  obtain ⟨hheight, hscalars⟩ := List.forall_mem_cons.mp h
  have hname := faithful_string t.name
  have hshape := faithful_shape t.shape
  have hcoefficients : Faithful t.coefficients := faithful_list hscalars
  refine faithful_record ["name", "shape", "coefficients", "height"]
    [some (Codec.write t.name), some (Codec.write t.shape), some (Codec.write t.coefficients),
      some (Codec.write t.height)] (by decide) rfl rfl (fun j => rfl) ?_ ?_
  · simp only [List.forall_mem_cons]
    exact ⟨hname.legibleField, hshape.legibleField, hcoefficients.legibleField,
      hheight.legibleField, nofun⟩
  · simp only [hname.required, hshape.required, hcoefficients.required, hheight.defaulting]
    rfl

/-- **A variable** is written faithfully if its scalars are. -/
theorem faithful_variable {v : VariableDescription α} (h : ∀ x ∈ v.scalars, Faithful x) :
    Faithful v := by
  obtain ⟨hlower, h⟩ := List.forall_mem_cons.mp h
  obtain ⟨hupper, hscalars⟩ := List.forall_mem_cons.mp h
  have hname := faithful_string v.name
  have hterms : Faithful v.terms := faithful_list fun t ht =>
    faithful_term fun x hx => hscalars x (List.mem_flatMap_of_mem ht hx)
  refine faithful_record ["name", "min", "max", "terms"]
    [some (Codec.write v.name), some (Codec.write v.lower), some (Codec.write v.upper),
      some (Codec.write v.terms)] (by decide) rfl rfl (fun j => rfl) ?_ ?_
  · simp only [List.forall_mem_cons]
    exact ⟨hname.legibleField, hlower.legibleField, hupper.legibleField, hterms.legibleField,
      nofun⟩
  · simp only [hname.required, hlower.required, hupper.required, hterms.defaulting]
    rfl

/-- **A description** is written faithfully if its scalars are, and if the
number of its points has sixty-four bits. -/
theorem faithful_description {d : Description α} (h : ∀ x ∈ d.scalars, Faithful x)
    (hpoints : ∀ n ∈ d.evalPoints, n < Nat.pow 2 64) : Faithful d := by
  have hvariable (v : VariableDescription α) (hv : v ∈ d.inputs ++ d.outputs) : Faithful v :=
    faithful_variable fun x hx => h x (List.mem_append_left _ (List.mem_flatMap_of_mem hv hx))
  have hinputs : Faithful d.inputs :=
    faithful_list fun v hv => hvariable v (List.mem_append_left _ hv)
  have houtputs : Faithful d.outputs :=
    faithful_list fun v hv => hvariable v (List.mem_append_right _ hv)
  have hstyle := faithful_style d.style
  have hrules : Faithful d.rules := faithful_list fun rule _ => faithful_string rule
  have hevalPoints : ∀ n ∈ d.evalPoints, Faithful n := fun n hn => faithful_nat (hpoints n hn)
  have hweights : ∀ ws ∈ d.weights, Faithful ws := fun ws hws =>
    faithful_list fun x hx => h x (List.mem_append_right _ (by rw [hws]; exact hx))
  have hnorm (o : Option Norm) : ∀ n ∈ o, Faithful n := fun n _ => faithful_norm n
  have hdefuzzifier : ∀ m ∈ d.defuzzifier, Faithful m := fun m _ => faithful_defuzzifier m
  refine faithful_record descriptionFields
    [some (Codec.write d.style), some (Codec.write d.inputs), some (Codec.write d.outputs),
      d.and.map Codec.write, d.or.map Codec.write, d.implication.map Codec.write,
      d.aggregation.map Codec.write, d.evalPoints.map Codec.write,
      d.defuzzifier.map Codec.write, some (Codec.write d.rules), d.weights.map Codec.write]
    (by decide) rfl ?_ (fun j => rfl) ?_ ?_
  · refine congrArg record ?_
    simp only [descriptionFields, List.zip_cons_cons, givens_cons, present_eq]
    simp
  · simp only [List.forall_mem_cons]
    exact ⟨hstyle.legibleField, hinputs.legibleField, houtputs.legibleField,
      legibleField_map_write (hnorm d.and), legibleField_map_write (hnorm d.or),
      legibleField_map_write (hnorm d.implication), legibleField_map_write (hnorm d.aggregation),
      legibleField_map_write hevalPoints, legibleField_map_write hdefuzzifier,
      hrules.legibleField, legibleField_map_write hweights, nofun⟩
  · simp only [hstyle.required, hinputs.required, houtputs.required, hrules.defaulting,
      optional_map_write (hnorm _), optional_map_write hevalPoints,
      optional_map_write hdefuzzifier, optional_map_write hweights]
    rfl

end Json

/-- **A value that is written faithfully** is read back from its text. -/
theorem Json.Faithful.ofText?_eq {β : Type} [Json.Codec β] {b : β} (h : Json.Faithful b) :
    ofText? (prettyText b) = some b := by
  unfold ofText? prettyText
  rw [Json.parse?_pretty h.legible]
  exact h.readsBack

namespace Description

/-- **A description that is written is read back.** Its scalars are finite, finite
numbers read back from their digits, and the number of its points, where one is
given, has sixty-four bits. -/
theorem ofText?_prettyText {d : Description Float32} (hfinite : ∀ x ∈ d.scalars, Scalar.IsFinite x)
    (hnumbers : ∀ x ∈ d.scalars, Scalar.IsFinite x →
      Json.Codec.read? (Json.Codec.write x) = some x)
    (hpoints : ∀ n ∈ d.evalPoints, n < Nat.pow 2 64) : ofText? (prettyText d) = some d := by
  have hscalars (x : Float32) (hx : x ∈ d.scalars) : Json.Faithful x :=
    Json.faithful_single (hnumbers x hx (hfinite x hx))
  exact (Json.faithful_description hscalars hpoints).ofText?_eq

/-- A description in which a text has to be escaped, a list is empty, and some of
the choices are left out. -/
def quoting : Description Float32 where
  style := .mamdani
  inputs := [⟨"level \"raw\"\t", -0.5, 0.1, [⟨"high", .linearS, [0, 0.3], 0.7⟩]⟩]
  outputs := [⟨"valve", 0, 16777216, []⟩]
  and := some .product
  or := none
  implication := none
  aggregation := some .boundedSum
  evalPoints := some 50
  defuzzifier := none
  rules := ["IF 1\nTHEN 2"]
  weights := some []

theorem ofText?_prettyText_quoting : ofText? (prettyText quoting) = some quoting := by
  refine ofText?_prettyText (by decide +kernel) (by decide +kernel) fun n hn => ?_
  cases hn
  decide

end Description

end FuzzyInference
