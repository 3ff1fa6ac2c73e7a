import FuzzyInference.Controller.Table
import FuzzyInference.Proofs.Controller.Firing
import FuzzyInference.Proofs.Stream.Table

/-!
# The width of a table makes no difference

The same rule base can be stored as a table of integers of eight bits or of
sixty-four. Where the marks are depends on the width, so a raw token that is
plain data in one table is a mark in another, and what a controller makes of
a table could depend on it in many places: whenever a raw token is looked
at, in a stream that is refused as well as in one that is not.

It does not. What is done with a table is what is done with its tokens
(`Controller.inferRaw_eq`, `Controller.evaluateRaw_eq`), and a rule base has
the same tokens at every width that has room for it
(`Controller.width_irrelevant`).
-/

namespace FuzzyInference

namespace Controller

variable {α : Type} [Scalar α] {w : Width}

omit [Scalar α] in
theorem acceptRaw_eq (c : Controller α) (s : RuleStream w) : c.acceptRaw s = c.accept s.tokens := by
  unfold acceptRaw accept
  rw [RuleStream.items_eq]

theorem fireRaw_eq (c : Controller α) (s : RuleStream w) : c.fireRaw s = c.fireStream s.tokens := by
  unfold fireRaw
  rw [RuleStream.items_eq]
  rfl

/-- **Inferring from a table** is inferring from its tokens. -/
theorem inferRaw_eq (c : Controller α) (s : RuleStream w) : c.inferRaw s = c.infer s.tokens := by
  unfold inferRaw
  rw [acceptRaw_eq, fireRaw_eq]
  rfl

theorem runCycleRaw_eq (c : Controller α) (s : RuleStream w) :
    c.runCycleRaw s = c.runCycle s.tokens := by
  unfold runCycleRaw
  simp only [inferRaw_eq]
  rfl

/-- **Evaluating a table** is evaluating its tokens. -/
theorem evaluateRaw_eq (c : Controller α) (s : RuleStream w) (values : List α) :
    c.evaluateRaw s values = c.evaluate s.tokens values := by
  unfold evaluateRaw evaluate
  rw [runCycleRaw_eq]

/-- **The width of a table makes no difference.** Two tables that mean the same
tokens, well formed or not, are stepped through alike from every place, read
alike from every bookmark on, and inferred from and evaluated alike by every
controller. Two tables that a rule base is encoded as mean the same tokens. -/
theorem width_irrelevant (w w' : Width) :
    (∀ (s : RuleStream w) (s' : RuleStream w'), s.tokens = s'.tokens →
      (∀ bounds phase position, s.step bounds phase position = s'.step bounds phase position) ∧
      (∀ bounds b, s.trace bounds b = s'.trace bounds b) ∧
      ∀ c : Controller α, c.inferRaw s = c.inferRaw s' ∧
        ∀ values, c.evaluateRaw s values = c.evaluateRaw s' values) ∧
    ∀ (rules : List Rule) (s : RuleStream w) (s' : RuleStream w'),
      RuleStream.encode w rules = .ok s → RuleStream.encode w' rules = .ok s' →
        s.tokens = s'.tokens := by
  refine ⟨fun s s' h => ⟨RuleStream.step_congr h, RuleStream.trace_congr h, fun c => ?_⟩, ?_⟩
  · refine ⟨?_, fun values => ?_⟩
    · rw [inferRaw_eq, inferRaw_eq, h]
    · rw [evaluateRaw_eq, evaluateRaw_eq, h]
  · intro rules s s' hs hs'
    rw [RuleStream.tokens_of_encode hs, RuleStream.tokens_of_encode hs']

/-- A table of sixteen bits that breaks off behind a number which is a mark at
eight bits. -/
def brokenStream : RuleStream .bits16 where
  table := [Mark.opening.raw _, ⟨-128, by decide⟩]

/-- The same tokens at thirty-two bits. -/
def brokenWideStream : RuleStream .bits32 where
  table := [Mark.opening.raw _, ⟨-128, by decide⟩]

theorem width_irrelevant_broken :
    brokenStream.step ⟨1, 1⟩ .premise 1
      = .error ⟨1, .subjectOutOfRange .input (-128) 1⟩ ∧
    brokenWideStream.step ⟨1, 1⟩ .premise 1
      = .error ⟨1, .subjectOutOfRange .input (-128) 1⟩ ∧
    ready.inferRaw brokenStream = ready.inferRaw brokenWideStream ∧
    Token.ofRaw (⟨-128, by decide⟩ : Raw .bits8) = .mark .opening ∧
    ∃ s : RuleStream .bits32, RuleStream.encode .bits32 Stream.singleRule = .ok s ∧
      Stream.singleStream.tokens = s.tokens := by
  obtain ⟨hsame, -⟩ := width_irrelevant (α := Float32) .bits16 .bits32
  obtain ⟨hstep, -, hinfer⟩ := hsame brokenStream brokenWideStream rfl
  have hfault : brokenStream.step ⟨1, 1⟩ .premise 1
      = .error ⟨1, .subjectOutOfRange .input (-128) 1⟩ := rfl
  refine ⟨hfault, (hstep _ _ _).symm.trans hfault, (hinfer ready).1, rfl, _, rfl, ?_⟩
  exact (width_irrelevant (α := Float32) .bits8 .bits32).2 Stream.singleRule _ _ rfl rfl

end Controller

end FuzzyInference
