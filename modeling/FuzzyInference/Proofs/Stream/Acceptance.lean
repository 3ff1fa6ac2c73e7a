import FuzzyInference.Proofs.Stream.Reading

/-!
# Which streams are accepted

A reader of a stream has no grammar to go by, only its steps. This module
says what they amount to: a stream is read without a fault exactly if it
begins with the tokens of a rule base that fits, and then the events that
are read are those of the rule base (`Stream.accepts_iff_tokensOf`,
`Stream.items_of_tokensOf`). At a width, the tokens of a rule base are
those it is encoded as, which gives `Stream.accepts_iff_encoded`.

What stands behind the first closing mark is not read at all, in a stream
that is accepted and in one that is not. A step looks at most three tokens
ahead and would have to pass the closing mark to see what is behind it
(`Stream.step_closing`).
-/

namespace FuzzyInference

namespace Stream

variable {bounds : Bounds}

/-- **Whether a stream is read without a fault.** -/
def Accepts (bounds : Bounds) (tokens : List Token) : Prop :=
  ∀ i ∈ items bounds tokens, i.isOk = true

/-! ## The opening mark -/

/-- Behind the opening mark a stream is read rule by rule. -/
theorem items_opening (rest : List Token) :
    items bounds (.mark .opening :: rest) = (Cursor.within bounds .rule 1 rest).items := by
  rw [items, Cursor.items_eq, Cursor.items_of_reading rfl]
  rfl

/-- A stream that cannot be opened has the fault as its only item. -/
theorem items_of_opened {tokens : List Token} {f : StreamFault}
    (h : (Cursor.start bounds tokens).opened = .error f) : items bounds tokens = [.error f] := by
  have hnext : (Cursor.start bounds tokens).next?
      = some (.error f, (Cursor.start bounds tokens).finish) := by
    rw [Cursor.next?, Cursor.start] at *
    simp only [h]
  rw [items, Cursor.items_eq, hnext]
  exact congrArg _ (Cursor.items_of_finished rfl)

/-- A stream has to begin with the opening mark. -/
theorem items_of_ne_opening {t : Token} (h : t ≠ .mark .opening) (rest : List Token) :
    items bounds (t :: rest) = [.error ⟨0, .notOpening t⟩] := by
  refine items_of_opened ?_
  rw [Cursor.opened, Cursor.start]
  split
  · next heq => cases heq
  · next heq => exact absurd (List.cons.inj heq).1 h
  · next heq =>
    cases heq
    rfl

/-! ## Accepted tokens -/

/-- **What is read of a rule base** are its events, in order. -/
theorem items_of_tokensOf {rules : List Rule} (h : ∀ r ∈ rules, r.Fits bounds)
    (rest : List Token) :
    items bounds (RuleStream.tokensOf rules ++ rest)
      = (Event.placed 1 (Rule.script rules)).map .ok := by
  have hscript : Script bounds .rule (Rule.script rules) := script_iff_rules.mpr ⟨rules, h, rfl⟩
  rw [RuleStream.tokensOf_eq fun r hr => (h r hr).complete, List.cons_append, items_opening,
    Cursor.items_of_script hscript]

/-- **The tokens that are accepted** are those that begin with the tokens
of a rule base that fits. -/
theorem accepts_iff_tokensOf {tokens : List Token} (hw : ∀ t ∈ tokens, t.IsWord) :
    Accepts bounds tokens ↔
      ∃ rules, (∀ r ∈ rules, r.Fits bounds) ∧ RuleStream.tokensOf rules <+: tokens := by
  constructor
  · intro h
    cases tokens with
    | nil =>
      rw [Accepts, items_of_opened rfl] at h
      cases h _ List.mem_cons_self
    | cons t rest =>
      by_cases ht : t = .mark .opening
      · subst ht
        rw [Accepts, items_opening] at h
        obtain ⟨es, more, hes, rfl⟩ :=
          Cursor.script_of_items .rule (fun t ht => hw t (List.mem_cons_of_mem _ ht)) trivial h
        obtain ⟨rules, hrules, rfl⟩ := script_iff_rules.mp hes
        refine ⟨rules, hrules, more, ?_⟩
        rw [RuleStream.tokensOf_eq fun r hr => (hrules r hr).complete]
        rfl
      · rw [Accepts, items_of_ne_opening ht] at h
        cases h _ List.mem_cons_self
  · rintro ⟨rules, hrules, rest, rfl⟩ i hi
    rw [items_of_tokensOf hrules] at hi
    obtain ⟨e, -, rfl⟩ := List.mem_map.mp hi
    rfl

/-! ## Behind the closing mark -/

/-- No statement is read in front of the closing mark. -/
theorem readAtom_closing (side : Side) (limit position : Nat) (t : Token) :
    ∃ f, ∀ more, readAtom side limit position (t :: .mark .closing :: more) = .error f := by
  cases h : readSubject side limit position (some t) with
  | error f =>
    refine ⟨f, fun more => ?_⟩
    show (readSubject side limit position (some t) >>= _) = _
    rw [h]
    rfl
  | ok n =>
    refine ⟨⟨position + 1, .notReference (.mark .closing)⟩, fun more => ?_⟩
    show (readSubject side limit position (some t) >>= _) = _
    rw [h]
    rfl

/-- **A step does not see past the closing mark.** Where the mark is among
the tokens a step looks at, the step ends there. -/
theorem step_closing (phase : Phase) (position : Nat) (front more more' : List Token) :
    step bounds phase position (front ++ .mark .closing :: more)
      = step bounds phase position (front ++ .mark .closing :: more') := by
  -- no step looks at more than four tokens, so the mark matters behind three at most
  match front with
  | [] => cases phase <;> rfl
  | [t] =>
    cases phase with
    | premise =>
      cases t with
      | mark m => cases m <;> rfl
      | datum v =>
        obtain ⟨f, hf⟩ := readAtom_closing .input bounds.inputs (position + 0) (.datum v)
        show (readAtom _ _ _ (.datum v :: .mark .closing :: more) >>= _)
          = (readAtom _ _ _ (.datum v :: .mark .closing :: more') >>= _)
        rw [hf, hf]
        rfl
    | conclusion =>
      obtain ⟨f, hf⟩ := readAtom_closing .output bounds.outputs position t
      show (readAtom _ _ _ (t :: .mark .closing :: more) >>= _)
        = (readAtom _ _ _ (t :: .mark .closing :: more') >>= _)
      rw [hf, hf]
      rfl
  | [t, u] =>
    cases phase with
    | premise =>
      obtain ⟨f, hf⟩ := readAtom_closing .input bounds.inputs (position + 1) u
      have hlinked (link : Option Connective) :
          stepClause bounds position (t :: u :: .mark .closing :: more) link 1
            = stepClause bounds position (t :: u :: .mark .closing :: more') link 1 := by
        show (readAtom _ _ _ (u :: .mark .closing :: more) >>= _)
          = (readAtom _ _ _ (u :: .mark .closing :: more') >>= _)
        rw [hf, hf]
        rfl
      cases t with
      | mark m =>
        cases m with
        | conjunction => exact hlinked (some .and)
        | disjunction => exact hlinked (some .or)
        | opening => rfl
        | closing => rfl
        | consequence => rfl
      | datum v => rfl
    | conclusion => rfl
  | t :: u :: v :: front => cases front <;> cases phase <;> rfl

/-- Of the windows only that of the end has the closing mark in it. -/
theorem eq_done_of_closing_mem {e : Event} (h : .mark .closing ∈ e.tokens) : e = .done := by
  cases e with
  | clause link a closes =>
    rcases link with _ | _ | _ <;> cases closes <;>
      simp [Event.tokens, Atom.tokens, Mark.ofConnective] at h
  | conclusion a closes => cases closes <;> simp [Event.tokens, Atom.tokens] at h
  | done => rfl

/-- **A step stays in front of the closing mark** unless it passes the
end. -/
theorem front_of_step {phase : Phase} {position : Nat} {front more : List Token} {t : Window}
    (hw : ∀ t ∈ front, t.IsWord)
    (h : step bounds phase position (front ++ .mark .closing :: more) = .ok t)
    (hdone : t.event ≠ .done) :
    ∃ front', front = t.event.tokens ++ front' ∧ t.consumed = t.event.tokens.length := by
  rw [step_closing phase position front more []] at h
  have hwords : ∀ u ∈ front ++ [.mark .closing], u.IsWord := by
    intro u hu
    rcases List.mem_append.mp hu with hu | hu
    · exact hw u hu
    · rw [List.mem_singleton.mp hu]
      trivial
  obtain ⟨-, ht, tail, hsplit, -⟩ := event_of_step hwords h
  rcases List.eq_nil_or_concat tail with rfl | ⟨front', u, rfl⟩
  · refine absurd (eq_done_of_closing_mem ?_) hdone
    rw [← List.append_nil t.event.tokens, ← hsplit]
    exact List.mem_append_right _ List.mem_cons_self
  · rw [List.concat_eq_append, ← List.append_assoc] at hsplit
    exact ⟨front', (List.append_inj' hsplit rfl).1, congrArg Window.consumed ht⟩

end Stream

/-- **What stands behind the closing mark is not read.** By induction on
how much stands in front of it. -/
theorem Cursor.items_closing (c : Cursor) (hc : c.status = .reading) {front : List Token}
    (hw : ∀ t ∈ front, t.IsWord) (more more' : List Token) :
    items { c with rest := front ++ .mark .closing :: more }
      = items { c with rest := front ++ .mark .closing :: more' } := by
  induction hn : front.length using Nat.strongRecOn generalizing c front with
  | ind n ih =>
    subst hn
    rw [items_of_reading (c := { c with rest := front ++ .mark .closing :: more }) hc,
      items_of_reading (c := { c with rest := front ++ .mark .closing :: more' }) hc]
    simp only [advance, Stream.step_closing c.phase c.position front more more']
    cases hstep : Stream.step c.bounds c.phase c.position (front ++ .mark .closing :: more') with
    | error f => simp only [items_of_finished (c := finish _) rfl]
    | ok t =>
      by_cases hlink : isLinked t.event ∧ ¬ c.ruleOpen
      · simp only [if_pos hlink, items_of_finished (c := finish _) rfl]
      · simp only [if_neg hlink]
        by_cases hdone : t.event = .done
        · rw [items_of_finished (congrArg statusAfter hdone),
            items_of_finished (congrArg statusAfter hdone)]
        · obtain ⟨front', rfl, hconsumed⟩ := Stream.front_of_step hw hstep hdone
          have hlt : front'.length < (t.event.tokens ++ front').length := by
            have := t.event.tokens_length_pos
            rw [List.length_append]
            omega
          have hreading : statusAfter t.event = .reading := by
            cases he : t.event with
            | done => exact absurd he hdone
            | clause link a closes => rfl
            | conclusion a closes => rfl
          have hih := ih front'.length hlt (c.moved t) hreading
            (fun u hu => hw u (List.mem_append_right _ hu)) rfl
          simp only [moved, hconsumed, List.append_assoc, List.drop_left] at hih ⊢
          exact congrArg _ hih

namespace Stream

variable {bounds : Bounds}

theorem items_closing {front : List Token} (hw : ∀ t ∈ front, t.IsWord)
    (more more' : List Token) :
    items bounds (front ++ .mark .closing :: more)
      = items bounds (front ++ .mark .closing :: more') := by
  cases front with
  | nil =>
    have hne : Token.mark .closing ≠ .mark .opening := fun h => by cases h
    exact (items_of_ne_opening hne more).trans (items_of_ne_opening hne more').symm
  | cons t front =>
    by_cases ht : t = .mark .opening
    · subst ht
      rw [List.cons_append, List.cons_append, items_opening, items_opening]
      exact Cursor.items_closing (Cursor.within bounds .rule 1 []) rfl
        (fun u hu => hw u (List.mem_cons_of_mem _ hu)) more more'
    · rw [List.cons_append, List.cons_append, items_of_ne_opening ht, items_of_ne_opening ht]

/-! ## Encoded rule bases -/

/-- **A stream begins with a rule base** if the rules fit and the stream
they are encoded as is the first part of it. -/
structure Begins {w : Width} (bounds : Bounds) (rules : List Rule) (raws : List (Raw w)) : Prop
    where
  /-- The rules fit. -/
  fits : ∀ r ∈ rules, r.Fits bounds
  /-- They are encoded as the first part of the stream. -/
  encoded : ∃ s, RuleStream.encode w rules = .ok s ∧ s.table <+: raws

/-- At the width of a stream, its first tokens are the rule base they say
they are. -/
theorem begins_iff {w : Width} {rules : List Rule} {raws : List (Raw w)} :
    Begins bounds rules raws ↔ (∀ r ∈ rules, r.Fits bounds) ∧
      RuleStream.tokensOf rules <+: raws.map Token.ofRaw := by
  constructor
  · rintro ⟨hfits, s, hs, hbegins⟩
    refine ⟨hfits, ?_⟩
    rw [← RuleStream.tokens_of_encode hs]
    exact List.IsPrefix.map Token.ofRaw hbegins
  · rintro ⟨hfits, hbegins⟩
    have hwritable : ∀ t ∈ RuleStream.tokensOf rules, t.Writable w := by
      intro t ht
      obtain ⟨r, -, hr⟩ := List.mem_map.mp (hbegins.subset ht)
      exact ⟨r, hr⟩
    obtain ⟨s, hs⟩ := RuleStream.exists_encode (fun r hr => (hfits r hr).complete) hwritable
    refine ⟨hfits, s, hs, ?_⟩
    rw [← RuleStream.tokens_of_encode hs] at hbegins
    exact (List.prefix_map_iff_of_injective Token.ofRaw_injective).mp hbegins

/-- The tokens of a stream are words. -/
theorem isWord_map_ofRaw {w : Width} (raws : List (Raw w)) :
    ∀ t ∈ raws.map Token.ofRaw, t.IsWord := by
  intro t ht
  obtain ⟨r, -, rfl⟩ := List.mem_map.mp ht
  exact Token.isWord_ofRaw r

/-- Positions aside, what is read of a rule base are its events. -/
theorem map_snd_placed (position : Nat) (es : List Event) :
    (Event.placed position es).map Prod.snd = es := by
  induction es generalizing position with
  | nil => rfl
  | cons e es ih => rw [Event.placed, List.map_cons, ih]

/-- **What is read of a stream that begins with a rule base** are the events
of the rule base. -/
theorem items_of_begins {w : Width} {rules : List Rule} {raws : List (Raw w)}
    (h : Begins bounds rules raws) :
    items bounds (raws.map Token.ofRaw) = (Event.placed 1 (Rule.script rules)).map .ok := by
  obtain ⟨hfits, rest, hrest⟩ := begins_iff.mp h
  rw [← hrest, items_of_tokensOf hfits]

theorem map_items_of_begins {w : Width} {rules : List Rule} {raws : List (Raw w)}
    (h : Begins bounds rules raws) :
    (items bounds (raws.map Token.ofRaw)).map (Except.map Prod.snd)
      = (Rule.script rules).map .ok := by
  rw [items_of_begins h, List.map_map]
  conv => rhs; rw [← map_snd_placed 1 (Rule.script rules), List.map_map]
  rfl

/-- **A stream that begins with a rule base is read to its end.** -/
theorem getLast?_items_of_begins {w : Width} {rules : List Rule} {raws : List (Raw w)}
    (h : Begins bounds rules raws) :
    ∃ position, (items bounds (raws.map Token.ofRaw)).getLast? = some (.ok (position, .done)) := by
  have hlast := congrArg List.getLast? (map_snd_placed 1 (Rule.script rules))
  rw [List.getLast?_map, Rule.script, List.getLast?_concat, Option.map_eq_some_iff] at hlast
  obtain ⟨⟨position, e⟩, hplaced, rfl⟩ := hlast
  refine ⟨position, ?_⟩
  rw [items_of_begins h, List.getLast?_map, Rule.script, hplaced]
  rfl

/-- Accepted streams begin with a rule base, and the others do not. -/
theorem accepts_iff_begins {w : Width} (raws : List (Raw w)) :
    Accepts bounds (raws.map Token.ofRaw) ↔ ∃ rules, Begins bounds rules raws := by
  rw [accepts_iff_tokensOf (isWord_map_ofRaw raws)]
  exact exists_congr fun rules => begins_iff.symm

/-- **A stream begins with one rule base only**, since the events of both
would be what is read of it. -/
theorem begins_unique {w : Width} {rules rules' : List Rule} {raws : List (Raw w)}
    (h : Begins bounds rules raws) (h' : Begins bounds rules' raws) : rules' = rules := by
  have hevents := (map_items_of_begins h').symm.trans (map_items_of_begins h)
  exact Rule.script_injective (fun r hr => (h'.fits r hr).complete)
    (fun r hr => (h.fits r hr).complete)
    ((List.map_inj_right fun _ _ he => Except.ok.inj he).mp hevents)

/-- **The accepted streams are those that begin with a rule base**, of every
width. There is only one it can be, its events are what is read, and what
stands behind the first closing mark makes no difference, be the stream
accepted or not. -/
theorem accepts_iff_encoded {w : Width} (bounds : Bounds) (raws : List (Raw w)) :
    (Accepts bounds (raws.map Token.ofRaw) ↔ ∃ rules, Begins bounds rules raws) ∧
    (∀ rules, Begins bounds rules raws →
      (∀ rules', Begins bounds rules' raws → rules' = rules) ∧
      (items bounds (raws.map Token.ofRaw)).map (Except.map Prod.snd)
        = (Rule.script rules).map .ok) ∧
    (∀ front more more', raws = front ++ Mark.closing.raw w :: more →
      items bounds (raws.map Token.ofRaw)
        = items bounds ((front ++ Mark.closing.raw w :: more').map Token.ofRaw)) := by
  refine ⟨accepts_iff_begins raws, fun rules h => ⟨fun rules' => begins_unique h,
    map_items_of_begins h⟩, ?_⟩
  rintro front more more' rfl
  simp only [List.map_append, List.map_cons, Token.ofRaw_raw]
  exact items_closing (isWord_map_ofRaw front) _ _

/-- A rule base of one rule. -/
def singleRule : List Rule := [⟨some ⟨⟨0, .is 0⟩, []⟩, [⟨0, .isNot 1⟩]⟩]

/-- What it is encoded as at eight bits. -/
def singleStream : RuleStream .bits8 where
  table := [Mark.opening.raw _, ⟨0, by decide⟩, ⟨1, by decide⟩, Mark.consequence.raw _,
    ⟨0, by decide⟩, ⟨-2, by decide⟩, Mark.closing.raw _]

/-- A raw token that is not part of it. -/
def stray : Raw .bits8 := ⟨7, by decide⟩

theorem begins_single (more : List (Raw .bits8)) :
    Begins ⟨1, 1⟩ singleRule (singleStream.table ++ more) := by
  refine ⟨?_, singleStream, rfl, List.prefix_append _ _⟩
  refine List.forall_mem_singleton.mpr ⟨⟨rfl, List.cons_ne_nil _ _⟩, ?_, ?_⟩
  · exact List.forall_mem_singleton.mpr ⟨by decide, by decide⟩
  · exact List.forall_mem_singleton.mpr ⟨by decide, by decide⟩

theorem accepts_single_rule :
    Accepts ⟨1, 1⟩ ((singleStream.table ++ [stray]).map Token.ofRaw) ∧
    (items ⟨1, 1⟩ ((singleStream.table ++ [stray]).map Token.ofRaw)).map (Except.map Prod.snd)
      = [.ok (.clause none ⟨0, .is 0⟩ true), .ok (.conclusion ⟨0, .isNot 1⟩ true), .ok .done] ∧
    items ⟨1, 1⟩ ((singleStream.table ++ [stray]).map Token.ofRaw)
      = items ⟨1, 1⟩ singleStream.tokens := by
  obtain ⟨haccepts, hevents, hbehind⟩ := accepts_iff_encoded ⟨1, 1⟩ (singleStream.table ++ [stray])
  refine ⟨haccepts.mpr ⟨singleRule, begins_single [stray]⟩,
    (hevents singleRule (begins_single [stray])).2, ?_⟩
  exact hbehind (singleStream.table.take 6) [stray] [] rfl

end Stream

end FuzzyInference
