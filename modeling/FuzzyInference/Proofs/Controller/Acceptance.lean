import FuzzyInference.Controller.Infer
import FuzzyInference.Proofs.Stream.Acceptance

/-!
# Which streams a controller accepts

A controller reads a stream once before it acts on it, and asks of each
event what no reader of streams can know: that the terms are there, that
they are terms of the variables they are said of, and that no conclusion
is denied unless the style allows it. `Controller.Takes` says this of an
event wherever it begins, and `Controller.accept_eq_ok_iff` what it comes
to for a whole stream: the accepted ones begin with a rule base whose
events are all taken.
-/

namespace FuzzyInference

namespace Controller

variable {α : Type} {c : Controller α}

/-- **A reference that there is nothing to object to** is to a term of the
variable it is about. -/
def Resolves (c : Controller α) (side : Side) (a : Atom) : Prop :=
  ∃ t, c.term? side a.term.index = some t ∧ t.owner = a.subject

theorem objection?_eq_none_iff {side : Side} {a : Atom} :
    c.objection? side a = none ↔ c.Resolves side a := by
  unfold objection? Resolves
  cases c.term? side a.term.index with
  | none =>
    constructor
    · intro h
      cases h
    · rintro ⟨t, h, -⟩
      cases h
  | some t =>
    by_cases howner : t.owner = a.subject
    · exact ⟨fun _ => ⟨t, rfl, howner⟩, fun _ => if_neg (not_not_intro howner)⟩
    · simp only [if_pos howner]
      constructor
      · intro h
        cases h
      · rintro ⟨u, h, hu⟩
        cases h
        exact absurd hu howner

/-- **What a controller asks of an event** to accept it, wherever the event
begins. -/
def Takes (c : Controller α) : Event → Prop
  | .clause _ a _ => c.Resolves .input a
  | .conclusion a _ => ¬ (a.term.negated = true ∧ c.style ≠ .mamdani) ∧ c.Resolves .output a
  | .done => True

theorem acceptEvent_eq_ok_iff {position : Nat} {e : Event} :
    c.acceptEvent position e = .ok () ↔ c.Takes e := by
  cases e with
  | clause link a closes =>
    show _ ↔ c.Resolves .input a
    rw [← objection?_eq_none_iff, acceptEvent]
    cases c.objection? .input a with
    | none => exact iff_of_true rfl rfl
    | some reason => constructor <;> intro h <;> cases h
  | conclusion a closes =>
    show _ ↔ _ ∧ c.Resolves .output a
    rw [← objection?_eq_none_iff, acceptEvent]
    by_cases hnegated : a.term.negated = true ∧ c.style ≠ .mamdani
    · rw [if_pos hnegated]
      constructor
      · intro h
        cases h
      · exact fun h => absurd hnegated h.1
    · rw [if_neg hnegated]
      cases c.objection? .output a with
      | none => exact iff_of_true rfl ⟨hnegated, rfl⟩
      | some reason =>
        constructor
        · intro h
          cases h
        · rintro ⟨-, h⟩
          cases h
  | done => exact iff_of_true rfl trivial

/-- A stream that a controller accepts is read without a fault. -/
theorem accepts_of_accept {tokens : List Token} (h : c.accept tokens = .ok ()) :
    Stream.Accepts c.bounds tokens := by
  intro i hi
  have hitem := List.forM_eq_ok_iff.mp h i hi
  cases i with
  | error f => cases hitem
  | ok e => rfl

/-- The events of a rule base, where they have been read, are accepted if
they are taken. -/
theorem forM_acceptItem_placed {position : Nat} {es : List Event} :
    ((Event.placed position es).map .ok).forM c.acceptItem = .ok () ↔ ∀ e ∈ es, c.Takes e := by
  rw [List.forM_eq_ok_iff]
  constructor
  · intro h e he
    rw [← Stream.map_snd_placed position es] at he
    obtain ⟨⟨p, e⟩, hp, rfl⟩ := List.mem_map.mp he
    exact acceptEvent_eq_ok_iff.mp (h _ (List.mem_map_of_mem hp))
  · intro h i hi
    obtain ⟨⟨p, e⟩, hp, rfl⟩ := List.mem_map.mp hi
    refine acceptEvent_eq_ok_iff.mpr (h e ?_)
    rw [← Stream.map_snd_placed position es]
    exact List.mem_map_of_mem hp

/-- **The streams a controller accepts** are those that begin with a rule
base whose events it takes. -/
theorem accept_eq_ok_iff {w : Width} {raws : List (Raw w)} :
    c.accept (raws.map Token.ofRaw) = .ok () ↔
      ∃ rules, Stream.Begins c.bounds rules raws ∧ ∀ e ∈ Rule.script rules, c.Takes e := by
  constructor
  · intro h
    obtain ⟨rules, hbegins⟩ := (Stream.accepts_iff_begins raws).mp (accepts_of_accept h)
    refine ⟨rules, hbegins, ?_⟩
    rw [accept, Stream.items_of_begins hbegins] at h
    exact forM_acceptItem_placed.mp h
  · rintro ⟨rules, hbegins, htakes⟩
    rw [accept, Stream.items_of_begins hbegins]
    exact forM_acceptItem_placed.mpr htakes

end Controller

end FuzzyInference
