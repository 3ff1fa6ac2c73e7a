import FuzzyInference.Proofs.Stream.Codec
import FuzzyInference.Stream.Cursor

/-!
# The events of a rule base

What a rule base means to a reader of its stream is a list of events:
for each rule a `clause` for every statement of its premise and a
`conclusion` for every one of its conclusions, the last of either kind
being marked as such, and `done` at the end. `Rule.script` is this list.

A reader does not see rules, though. It sees one event after the other
and knows only what may come next, which is one of three things: a rule or
the end, a further statement of the premise at hand, or a conclusion. The
inductive `Script` is that point of view, and the main statement of the
module, `script_iff_rules`, says that the two agree: what a reader passes
through event by event are the events of a rule base, and no two rule
bases have the same events (`Rule.script_injective`).
-/

namespace FuzzyInference

/-! ## Lists with their last element marked -/

/-- The elements of a list, each with whether it is the last one. -/
def markLast {β : Type} : List β → List (β × Bool)
  | [] => []
  | [a] => [(a, true)]
  | a :: b :: l => (a, false) :: markLast (b :: l)

/-- What has others behind it is not the last. -/
theorem markLast_cons {β : Type} (a : β) {l : List β} (h : l ≠ []) :
    markLast (a :: l) = (a, false) :: markLast l := by
  obtain ⟨b, more, rfl⟩ := List.exists_cons_of_ne_nil h
  rfl

@[simp] theorem map_fst_markLast {β : Type} (l : List β) :
    (markLast l).map Prod.fst = l := by
  induction l with
  | nil => rfl
  | cons a l ih =>
    cases l with
    | nil => rfl
    | cons b l =>
      rw [markLast, List.map_cons, ih]

theorem mem_of_mem_markLast {β : Type} {l : List β} {a : β} {b : Bool} (h : (a, b) ∈ markLast l) :
    a ∈ l := by
  rw [← map_fst_markLast l]
  exact List.mem_map_of_mem h

theorem exists_mem_markLast {β : Type} {l : List β} {a : β} (h : a ∈ l) :
    ∃ b, (a, b) ∈ markLast l := by
  rw [← map_fst_markLast l] at h
  obtain ⟨⟨a, b⟩, hmark, rfl⟩ := List.mem_map.mp h
  exact ⟨b, hmark⟩

/-- **A list whose last element is marked says where it ends**, whatever
comes behind it. -/
theorem markLast_append_inj {β γ : Type} {f : β × Bool → γ} (hf : Function.Injective f)
    {l₁ l₂ : List β} (h₁ : l₁ ≠ []) (h₂ : l₂ ≠ []) {x y : List γ}
    (h : (markLast l₁).map f ++ x = (markLast l₂).map f ++ y) : l₁ = l₂ ∧ x = y := by
  induction l₁ generalizing l₂ with
  | nil => exact absurd rfl h₁
  | cons a l₁ ih =>
    cases l₂ with
    | nil => exact absurd rfl h₂
    | cons b l₂ =>
      cases l₁ with
      | nil =>
        cases l₂ with
        | nil =>
          obtain ⟨hab, hxy⟩ := List.cons.inj h
          cases hf hab
          exact ⟨rfl, hxy⟩
        | cons b' l₂ =>
          -- one of the two ends here and the other does not
          cases hf (List.cons.inj h).1
      | cons a' l₁ =>
        cases l₂ with
        | nil => cases hf (List.cons.inj h).1
        | cons b' l₂ =>
          obtain ⟨hab, hrest⟩ := List.cons.inj h
          cases hf hab
          obtain ⟨hl, hxy⟩ := ih (List.cons_ne_nil a' l₁) (List.cons_ne_nil b' l₂) hrest
          exact ⟨congrArg (a :: ·) hl, hxy⟩

/-! ## The events of rules -/

/-- The event of a statement of a premise. -/
def Event.ofClause (c : (Option Connective × Atom) × Bool) : Event := .clause c.1.1 c.1.2 c.2

/-- The event of a conclusion. -/
def Event.ofConclusion (a : Atom × Bool) : Event := .conclusion a.1 a.2

theorem Event.ofClause_injective : Function.Injective Event.ofClause := by
  rintro ⟨⟨k, a⟩, b⟩ ⟨⟨k', a'⟩, b'⟩ h
  cases h
  rfl

theorem Event.ofConclusion_injective : Function.Injective Event.ofConclusion := by
  rintro ⟨a, b⟩ ⟨a', b'⟩ h
  cases h
  rfl

namespace Rule

/-- **The events of a rule.** -/
def events (r : Rule) : List Event :=
  (markLast r.clauses).map Event.ofClause ++ (markLast r.conclusions).map Event.ofConclusion

/-- **The events of a rule base**, with the end. -/
def script (rules : List Rule) : List Event := rules.flatMap events ++ [.done]

theorem script_cons (r : Rule) (rules : List Rule) :
    script (r :: rules) = r.events ++ script rules := by
  rw [script, List.flatMap_cons, List.append_assoc]
  rfl

/-- **The clauses among the events** are those of the rules. -/
theorem clause_mem_script_iff {rules : List Rule} {link : Option Connective} {a : Atom} :
    (∃ closes, .clause link a closes ∈ script rules) ↔ ∃ r ∈ rules, (link, a) ∈ r.clauses := by
  constructor
  · rintro ⟨closes, he⟩
    rcases List.mem_append.mp he with he | he
    · obtain ⟨r, hr, he⟩ := List.mem_flatMap.mp he
      rcases List.mem_append.mp he with he | he
      · obtain ⟨q, hq, heq⟩ := List.mem_map.mp he
        cases heq
        exact ⟨r, hr, mem_of_mem_markLast hq⟩
      · obtain ⟨q, -, heq⟩ := List.mem_map.mp he
        cases heq
    · cases List.mem_singleton.mp he
  · rintro ⟨r, hr, hq⟩
    obtain ⟨closes, hmark⟩ := exists_mem_markLast hq
    refine ⟨closes, List.mem_append_left _ (List.mem_flatMap.mpr ⟨r, hr, ?_⟩)⟩
    exact List.mem_append_left _ (List.mem_map.mpr ⟨_, hmark, rfl⟩)

/-- **The conclusions among the events** are those of the rules. -/
theorem conclusion_mem_script_iff {rules : List Rule} {a : Atom} :
    (∃ closes, .conclusion a closes ∈ script rules) ↔ ∃ r ∈ rules, a ∈ r.conclusions := by
  constructor
  · rintro ⟨closes, he⟩
    rcases List.mem_append.mp he with he | he
    · obtain ⟨r, hr, he⟩ := List.mem_flatMap.mp he
      rcases List.mem_append.mp he with he | he
      · obtain ⟨q, -, heq⟩ := List.mem_map.mp he
        cases heq
      · obtain ⟨q, hq, heq⟩ := List.mem_map.mp he
        cases heq
        exact ⟨r, hr, mem_of_mem_markLast hq⟩
    · cases List.mem_singleton.mp he
  · rintro ⟨r, hr, ha⟩
    obtain ⟨closes, hmark⟩ := exists_mem_markLast ha
    refine ⟨closes, List.mem_append_left _ (List.mem_flatMap.mpr ⟨r, hr, ?_⟩)⟩
    exact List.mem_append_right _ (List.mem_map.mpr ⟨_, hmark, rfl⟩)

/-- The end is no event of a rule. -/
theorem ne_done_of_mem_events {r : Rule} {e : Event} (he : e ∈ r.events) : e ≠ .done := by
  rcases List.mem_append.mp he with he | he
  · obtain ⟨c, -, rfl⟩ := List.mem_map.mp he
    exact fun h => by cases h
  · obtain ⟨a, -, rfl⟩ := List.mem_map.mp he
    exact fun h => by cases h

theorem clauses_ne_nil {r : Rule} (h : r.IsComplete) : r.clauses ≠ [] := by
  obtain ⟨premise, conclusions⟩ := r
  cases premise with
  | none => cases h.1
  | some p => exact List.cons_ne_nil _ _

/-- The statements of a premise determine it. -/
theorem premise_of_clauses {r s : Rule} (h : r.clauses = s.clauses) : r.premise = s.premise := by
  obtain ⟨premise, conclusions⟩ := r
  obtain ⟨premise', conclusions'⟩ := s
  cases premise with
  | none =>
    cases premise' with
    | none => rfl
    | some q => cases h
  | some p =>
    cases premise' with
    | none => cases h
    | some q =>
      obtain ⟨first, rest⟩ := p
      obtain ⟨first', rest'⟩ := q
      obtain ⟨hfirst, hrest⟩ := List.cons.inj h
      cases hfirst
      have hinj : Function.Injective fun c : Connective × Atom => (some c.1, c.2) := by
        rintro ⟨k, a⟩ ⟨k', a'⟩ h
        cases h
        rfl
      cases (List.map_inj_right fun _ _ e => hinj e).mp hrest
      rfl

/-- The first event of a rule is a statement without a connective. -/
theorem events_eq_cons {r : Rule} (h : r.IsComplete) :
    ∃ a closes es, r.events = .clause none a closes :: es := by
  obtain ⟨premise, conclusions⟩ := r
  cases premise with
  | none => cases h.1
  | some p =>
    obtain ⟨first, rest⟩ := p
    cases rest with
    | nil => exact ⟨first, true, _, rfl⟩
    | cons c rest => exact ⟨first, false, _, rfl⟩

/-- The end is not the beginning of a rule. -/
theorem script_cons_ne {r : Rule} (h : r.IsComplete) (rules : List Rule) :
    script (r :: rules) ≠ script [] := by
  obtain ⟨a, closes, es, hr⟩ := events_eq_cons h
  rw [script_cons, hr]
  intro heq
  cases (List.cons.inj heq).1

/-- **No two rule bases have the same events.** -/
theorem script_injective {rules rules' : List Rule} (h : ∀ r ∈ rules, r.IsComplete)
    (h' : ∀ r ∈ rules', r.IsComplete) (heq : script rules = script rules') : rules = rules' := by
  induction rules generalizing rules' with
  | nil =>
    cases rules' with
    | nil => rfl
    | cons s rules' => exact absurd heq.symm (script_cons_ne (h' s List.mem_cons_self) rules')
  | cons r rules ih =>
    obtain ⟨hr, hrules⟩ := List.forall_mem_cons.mp h
    cases rules' with
    | nil => exact absurd heq (script_cons_ne hr rules)
    | cons s rules' =>
      obtain ⟨hs, hrules'⟩ := List.forall_mem_cons.mp h'
      rw [script_cons, script_cons, events, events, List.append_assoc, List.append_assoc] at heq
      obtain ⟨hclauses, heq⟩ := markLast_append_inj Event.ofClause_injective
        (clauses_ne_nil hr) (clauses_ne_nil hs) heq
      obtain ⟨hconclusions, heq⟩ := markLast_append_inj Event.ofConclusion_injective
        hr.2 hs.2 heq
      rw [ih hrules hrules' heq]
      have hpremise := premise_of_clauses hclauses
      cases r
      cases s
      cases hpremise
      cases hconclusions
      rfl

end Rule

/-! ## What may be said of which variables -/

/-- **A statement fits** among so many variables if its variable is one of
them and its term is one a stream can refer to. -/
structure Atom.Fits (limit : Nat) (a : Atom) : Prop where
  /-- The variable is there. -/
  subject_lt : a.subject < limit
  /-- The term is one that can be referred to. -/
  index_lt : a.term.index < 2 ^ 63 - 1

/-- **A rule fits** if it is complete and its statements do. -/
structure Rule.Fits (bounds : Bounds) (r : Rule) : Prop where
  /-- It is complete. -/
  complete : r.IsComplete
  /-- The statements of its premise fit. -/
  clauses : ∀ c ∈ r.clauses, c.2.Fits bounds.inputs
  /-- Its conclusions fit. -/
  conclusions : ∀ a ∈ r.conclusions, a.Fits bounds.outputs

/-! ## Scripts -/

/-- **What may come next** in a stream. -/
inductive Stage where
  /-- A rule, or the end. -/
  | rule
  /-- A further statement of the premise at hand. -/
  | link
  /-- A conclusion. -/
  | conclusion
deriving DecidableEq, Repr

namespace Stage

/-- The phase of reading. -/
def phase : Stage → Phase
  | .rule | .link => .premise
  | .conclusion => .conclusion

/-- Whether a rule is open. -/
def isOpen : Stage → Bool
  | .rule => false
  | .link | .conclusion => true

/-- What may come behind a statement of a premise. -/
def afterClause (closes : Bool) : Stage := if closes then .conclusion else .link

/-- What may come behind a conclusion. -/
def afterConclusion (closes : Bool) : Stage := if closes then .rule else .conclusion

end Stage

/-- **A script**: events that follow each other as those of a stream do, up
to the end. -/
inductive Script (bounds : Bounds) : Stage → List Event → Prop
  /-- The end. -/
  | done : Script bounds .rule [.done]
  /-- The first statement of a premise. -/
  | first {a : Atom} {closes : Bool} {es : List Event} (ha : a.Fits bounds.inputs)
    (h : Script bounds (.afterClause closes) es) :
    Script bounds .rule (.clause none a closes :: es)
  /-- A further statement of a premise. -/
  | link {k : Connective} {a : Atom} {closes : Bool} {es : List Event}
    (ha : a.Fits bounds.inputs) (h : Script bounds (.afterClause closes) es) :
    Script bounds .link (.clause (some k) a closes :: es)
  /-- A conclusion. -/
  | conclusion {a : Atom} {closes : Bool} {es : List Event} (ha : a.Fits bounds.outputs)
    (h : Script bounds (.afterConclusion closes) es) :
    Script bounds .conclusion (.conclusion a closes :: es)

section Script

variable {bounds : Bounds}

/-- Conclusions make a script with what may follow them. -/
theorem script_conclusions {l : List Atom} (hl : l ≠ []) (h : ∀ a ∈ l, a.Fits bounds.outputs)
    {es : List Event} (hes : Script bounds .rule es) :
    Script bounds .conclusion ((markLast l).map Event.ofConclusion ++ es) := by
  induction l with
  | nil => exact absurd rfl hl
  | cons a l ih =>
    obtain ⟨ha, hrest⟩ := List.forall_mem_cons.mp h
    cases l with
    | nil => exact .conclusion ha hes
    | cons b l => exact .conclusion ha (ih (List.cons_ne_nil b l) hrest)

/-- A premise, from any statement of it that has a connective, makes a
script with the conclusions that follow. -/
theorem script_links {l : List (Connective × Atom)} (hl : l ≠ [])
    (h : ∀ c ∈ l, c.2.Fits bounds.inputs) {es : List Event} (hes : Script bounds .conclusion es) :
    Script bounds .link
      ((markLast (l.map fun (k, a) => (some k, a))).map Event.ofClause ++ es) := by
  induction l with
  | nil => exact absurd rfl hl
  | cons c l ih =>
    obtain ⟨hc, hrest⟩ := List.forall_mem_cons.mp h
    cases l with
    | nil => exact .link hc hes
    | cons d l => exact .link hc (ih (List.cons_ne_nil d l) hrest)

/-- The events of a rule make a script with those of the rules that
follow. -/
theorem script_rule {r : Rule} (hr : r.Fits bounds) {es : List Event}
    (hes : Script bounds .rule es) : Script bounds .rule (r.events ++ es) := by
  have htail := script_conclusions hr.complete.2 hr.conclusions hes
  obtain ⟨hcomplete, hclauses, -⟩ := hr
  obtain ⟨premise, conclusions⟩ := r
  cases premise with
  | none => cases hcomplete.1
  | some p =>
    obtain ⟨first, rest⟩ := p
    obtain ⟨hfirst, hrest⟩ := List.forall_mem_cons.mp hclauses
    rw [Rule.events, List.append_assoc]
    cases rest with
    | nil => exact .first hfirst htail
    | cons c rest =>
      refine .first hfirst (script_links (List.cons_ne_nil c rest) ?_ htail)
      intro d hd
      exact hrest _ (List.mem_map_of_mem hd)

/-- **What a script is made of**, according to what may come next: rules
and the end, or what is left of a rule before them. -/
def Stage.Spells (bounds : Bounds) : Stage → List Event → Prop
  | .rule, es => ∃ rules, (∀ r ∈ rules, r.Fits bounds) ∧ es = Rule.script rules
  | .conclusion, es => ∃ l rules, l ≠ [] ∧ (∀ a ∈ l, a.Fits bounds.outputs) ∧
      (∀ r ∈ rules, r.Fits bounds) ∧
      es = (markLast l).map Event.ofConclusion ++ Rule.script rules
  | .link, es => ∃ links l rules, links ≠ [] ∧ (∀ c ∈ links, c.2.Fits bounds.inputs) ∧
      l ≠ [] ∧ (∀ a ∈ l, a.Fits bounds.outputs) ∧ (∀ r ∈ rules, r.Fits bounds) ∧
      es = (markLast (links.map fun (k, a) => (some k, a))).map Event.ofClause ++
        ((markLast l).map Event.ofConclusion ++ Rule.script rules)

/-- **Every script is made of rules.** -/
theorem spells_of_script {stage : Stage} {es : List Event} (h : Script bounds stage es) :
    stage.Spells bounds es := by
  induction h with
  | done => exact ⟨[], fun _ hr => absurd hr List.not_mem_nil, rfl⟩
  | @first a closes es ha h ih =>
    cases closes with
    | true =>
      -- the premise is this statement alone
      obtain ⟨l, rules, hl, hfits, hrules, rfl⟩ := ih
      refine ⟨⟨some ⟨a, []⟩, l⟩ :: rules, List.forall_mem_cons.mpr ⟨?_, hrules⟩, ?_⟩
      · exact ⟨⟨rfl, hl⟩, List.forall_mem_singleton.mpr ha, hfits⟩
      · rw [Rule.script_cons, Rule.events, List.append_assoc]
        rfl
    | false =>
      -- the premise goes on with the linked statements
      obtain ⟨links, l, rules, hlinks, hclauses, hl, hfits, hrules, rfl⟩ := ih
      refine ⟨⟨some ⟨a, links⟩, l⟩ :: rules, List.forall_mem_cons.mpr ⟨?_, hrules⟩, ?_⟩
      · refine ⟨⟨rfl, hl⟩, List.forall_mem_cons.mpr ⟨ha, ?_⟩, hfits⟩
        intro c hc
        obtain ⟨d, hd, rfl⟩ := List.mem_map.mp hc
        exact hclauses d hd
      · rw [Rule.script_cons, Rule.events, List.append_assoc]
        simp only [Rule.clauses, Premise.clauses]
        rw [markLast_cons _ (mt List.map_eq_nil_iff.mp hlinks)]
        rfl
  | @link k a closes es ha h ih =>
    cases closes with
    | true =>
      obtain ⟨l, rules, hl, hfits, hrules, rfl⟩ := ih
      exact ⟨[(k, a)], l, rules, List.cons_ne_nil _ _, List.forall_mem_singleton.mpr ha, hl,
        hfits, hrules, rfl⟩
    | false =>
      obtain ⟨links, l, rules, hlinks, hclauses, hl, hfits, hrules, rfl⟩ := ih
      refine ⟨(k, a) :: links, l, rules, List.cons_ne_nil _ _,
        List.forall_mem_cons.mpr ⟨ha, hclauses⟩, hl, hfits, hrules, ?_⟩
      rw [List.map_cons, markLast_cons _ (mt List.map_eq_nil_iff.mp hlinks)]
      rfl
  | @conclusion a closes es ha h ih =>
    cases closes with
    | true =>
      -- the last conclusion, with whole rules behind it
      obtain ⟨rules, hrules, rfl⟩ := ih
      exact ⟨[a], rules, List.cons_ne_nil _ _, List.forall_mem_singleton.mpr ha, hrules, rfl⟩
    | false =>
      obtain ⟨l, rules, hl, hfits, hrules, rfl⟩ := ih
      refine ⟨a :: l, rules, List.cons_ne_nil _ _, List.forall_mem_cons.mpr ⟨ha, hfits⟩,
        hrules, ?_⟩
      rw [markLast_cons a hl]
      rfl

/-- **The scripts are the events of the rule bases** whose rules fit. -/
theorem script_iff_rules {es : List Event} :
    Script bounds .rule es ↔ ∃ rules, (∀ r ∈ rules, r.Fits bounds) ∧ es = Rule.script rules := by
  constructor
  · exact spells_of_script
  · rintro ⟨rules, hrules, rfl⟩
    induction rules with
    | nil => exact .done
    | cons r rules ih =>
      obtain ⟨hr, hrules⟩ := List.forall_mem_cons.mp hrules
      rw [Rule.script_cons]
      exact script_rule hr (ih hrules)

end Script

end FuzzyInference
