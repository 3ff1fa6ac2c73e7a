import FuzzyInference.Proofs.Stream.Script

/-!
# Reading the events of a stream

A step of the reader and an event of a script are two views of one
window of tokens. `Event.tokens` is the window of an event, and the two
lemmas that matter say what a step can do, once and for all:
`Stream.step_of_event` computes it on the tokens of an event, and
`Stream.event_of_step` finds the event in the tokens on which it has
succeeded. Both have to mention the token behind the window, which a step
looks at without leaving it behind (`Event.Precedes`).

Step by step they give what a whole reading does
(`Cursor.items_of_script`, `Cursor.script_of_items`): its items are the
events of a script with the positions they began at, or there is a fault
among them.
-/

namespace FuzzyInference

/-! ## The window of an event -/

namespace Event

/-- **The tokens of an event**, which a step leaves behind. The connective
behind a statement of a premise is left for the next step, the `and`
behind a conclusion is not. -/
def tokens : Event → List Token
  | .clause link a closes =>
    (link.map fun k => Token.mark (.ofConnective k)).toList ++ a.tokens ++
      if closes then [.mark .consequence] else []
  | .conclusion a closes => a.tokens ++ if closes then [] else [.mark .conjunction]
  | .done => [.mark .closing]

/-- The phase an event leads to. -/
def next : Event → Phase
  | .clause _ _ closes => if closes then .conclusion else .premise
  | .conclusion _ closes => if closes then .premise else .conclusion
  | .done => .premise

/-- **Whether an event can stand in front of some tokens.** A statement that
does not close its premise needs a connective behind it, a conclusion that
closes its rule must not have an `and`. -/
def Precedes (rest : List Token) : Event → Prop
  | .clause _ _ false => ∃ k more, rest = .mark (.ofConnective k) :: more
  | .conclusion _ true => rest[0]? ≠ some (.mark .conjunction)
  | _ => True

/-- Whether an event belongs to a phase, and its statement fits. -/
inductive Suits (bounds : Bounds) : Phase → Event → Prop
  /-- A statement of a premise. -/
  | clause {link : Option Connective} {a : Atom} {closes : Bool} (ha : a.Fits bounds.inputs) :
    Suits bounds .premise (.clause link a closes)
  /-- A conclusion. -/
  | conclusion {a : Atom} {closes : Bool} (ha : a.Fits bounds.outputs) :
    Suits bounds .conclusion (.conclusion a closes)
  /-- The end. -/
  | done : Suits bounds .premise .done

end Event

/-! ## The tokens of rules, event by event -/

/-- The tokens of conclusions, the first of which has no `and` in front of
it. -/
theorem flatMap_tokens_conclusions (a : Atom) (l : List Atom) :
    ((markLast (a :: l)).map Event.ofConclusion).flatMap Event.tokens
      = a.tokens ++ Atom.linkedTokens (l.map (Connective.and, ·)) := by
  induction l generalizing a with
  | nil => rfl
  | cons b l ih =>
    rw [markLast, List.map_cons, List.flatMap_cons, ih]
    rfl

/-- The tokens of a premise, from any statement of it. -/
theorem flatMap_tokens_clauses (link : Option Connective) (a : Atom)
    (l : List (Connective × Atom)) :
    ((markLast ((link, a) :: l.map fun (k, a) => (some k, a))).map Event.ofClause).flatMap
        Event.tokens
      = (link.map fun k => Token.mark (.ofConnective k)).toList ++ a.tokens ++
        Atom.linkedTokens l ++ [.mark .consequence] := by
  induction l generalizing link a with
  | nil =>
    cases link <;> rfl
  | cons c l ih =>
    obtain ⟨k, b⟩ := c
    rw [List.map_cons, markLast, List.map_cons, List.flatMap_cons, ih, Atom.linkedTokens_cons]
    cases link <;> simp [Event.ofClause, Event.tokens]

/-- **The tokens of the events of a rule are the tokens of the rule.** -/
theorem Rule.flatMap_tokens_events {r : Rule} (h : r.IsComplete) :
    r.events.flatMap Event.tokens = r.tokens := by
  obtain ⟨premise, conclusions⟩ := r
  cases premise with
  | none => cases h.1
  | some p =>
    cases conclusions with
    | nil => exact absurd rfl h.2
    | cons a l =>
      rw [events, List.flatMap_append, flatMap_tokens_conclusions]
      have hclauses := flatMap_tokens_clauses none p.first p.rest
      show ((markLast p.clauses).map Event.ofClause).flatMap Event.tokens ++ _ = _
      rw [show p.clauses = (none, p.first) :: p.rest.map fun (k, a) => (some k, a) from rfl,
        hclauses]
      simp [tokens]

/-- **The tokens of a rule base are those of its events**, behind the
opening mark. -/
theorem RuleStream.tokensOf_eq {rules : List Rule} (h : ∀ r ∈ rules, r.IsComplete) :
    tokensOf rules = .mark .opening :: (Rule.script rules).flatMap Event.tokens := by
  induction rules with
  | nil => rfl
  | cons r rules ih =>
    obtain ⟨hr, hrules⟩ := List.forall_mem_cons.mp h
    rw [Rule.script_cons, List.flatMap_append, Rule.flatMap_tokens_events hr,
      ← (List.cons.inj (ih hrules)).2, tokensOf, List.flatMap_cons]
    simp

/-! ## What a step can do -/

/-- A token is a **word** if it is a mark, or a datum of sixty-four bits that
is not the least of them. The tokens of a stream of any width are. -/
def Token.IsWord : Token → Prop
  | .mark _ => True
  | .datum v => v.natAbs < 2 ^ 63

theorem Token.isWord_ofRaw {w : Width} (r : Raw w) : (Token.ofRaw r).IsWord := by
  cases hr : Token.ofRaw r with
  | mark m => trivial
  | datum v =>
    obtain ⟨-, hleast, hgreatest⟩ := Token.ofRaw_eq_datum_iff.mp hr
    show v.natAbs < 2 ^ 63
    cases w <;>
      simp only [Width.least, Width.greatest, Width.bits, Nat.pow_eq] at hleast hgreatest <;> omega

namespace Stream

variable {bounds : Bounds} {phase : Phase} {position : Nat} {rest : List Token}

theorem required_eq_ok_iff {t : Option Token} {u : Token} :
    required position t = .ok u ↔ t = some u := by
  cases t with
  | none =>
    constructor <;> intro h <;> cases h
  | some t => exact ⟨fun h => congrArg some (Except.ok.inj h), fun h => by cases h; rfl⟩

theorem readSubject_eq_ok_iff {side : Side} {limit n : Nat} {t : Option Token} :
    readSubject side limit position t = .ok n ↔ t = some (.datum n) ∧ n < limit := by
  unfold readSubject
  rw [Except.bind_eq_ok_iff]
  constructor
  · rintro ⟨u, hu, h⟩
    rw [required_eq_ok_iff] at hu
    cases u with
    | mark m => cases h
    | datum v =>
      by_cases hv : 0 ≤ v ∧ v < limit
      · simp only [if_pos hv] at h
        cases h
        refine ⟨?_, by omega⟩
        rw [hu, Int.toNat_of_nonneg hv.1]
      · simp only [if_neg hv] at h
        cases h
  · rintro ⟨rfl, hlt⟩
    refine ⟨_, rfl, ?_⟩
    have hv : (0 : Int) ≤ n ∧ (n : Int) < limit := by omega
    simp only [if_pos hv]
    rfl

theorem readTerm_eq_ok_iff {r : TermRef} {t : Option Token} :
    readTerm position t = .ok r ↔ ∃ v, t = some (.datum v) ∧ TermRef.ofValue? v = some r := by
  unfold readTerm
  rw [Except.bind_eq_ok_iff]
  constructor
  · rintro ⟨u, hu, h⟩
    rw [required_eq_ok_iff] at hu
    cases u with
    | mark m => cases h
    | datum v =>
      refine ⟨v, hu, ?_⟩
      cases hr : TermRef.ofValue? v with
      | none => simp only [hr] at h; cases h
      | some r => simp only [hr] at h; cases h; rfl
  · rintro ⟨v, rfl, hv⟩
    refine ⟨_, rfl, ?_⟩
    simp only [hv]
    rfl

/-- **A statement that fits is read** from its tokens. -/
theorem readAtom_tokens {side : Side} {limit : Nat} {a : Atom} (ha : a.Fits limit)
    (rest : List Token) : readAtom side limit position (a.tokens ++ rest) = .ok a := by
  refine Except.bind_eq_ok_iff.mpr ⟨a.subject, ?_, Except.bind_eq_ok_iff.mpr ⟨a.term, ?_, rfl⟩⟩
  · exact readSubject_eq_ok_iff.mpr ⟨rfl, ha.subject_lt⟩
  · exact readTerm_eq_ok_iff.mpr ⟨_, rfl, TermRef.ofValue?_toValue ha.index_lt⟩

/-- **A statement that is read fits**, and was read from its tokens. -/
theorem tokens_of_readAtom {side : Side} {limit : Nat} {a : Atom} (hw : ∀ t ∈ rest, t.IsWord)
    (h : readAtom side limit position rest = .ok a) :
    a.Fits limit ∧ ∃ more, rest = a.tokens ++ more := by
  obtain ⟨subject, hs, h⟩ := Except.bind_eq_ok_iff.mp h
  obtain ⟨term, ht, h⟩ := Except.bind_eq_ok_iff.mp h
  cases h
  obtain ⟨hsubject, hlt⟩ := readSubject_eq_ok_iff.mp hs
  obtain ⟨v, hterm, hv⟩ := readTerm_eq_ok_iff.mp ht
  have hword : v.natAbs < 2 ^ 63 := hw (.datum v) (List.mem_of_getElem? hterm)
  obtain ⟨hindex, hvalue⟩ := TermRef.toValue_of_ofValue? hword hv
  refine ⟨⟨hlt, hindex⟩, rest.drop 2, ?_⟩
  match rest, hsubject, hterm with
  | t :: u :: more, hsubject, hterm =>
    cases hsubject
    cases hterm
    rw [Atom.tokens, hvalue]
    rfl

/-- A statement of a premise is read with what is in front of it and what
follows. -/
theorem stepClause_of_clause {link : Option Connective} {a : Atom} {closes : Bool}
    (ha : a.Fits bounds.inputs) (hp : (Event.clause link a closes).Precedes rest) :
    stepClause bounds position ((Event.clause link a closes).tokens ++ rest) link
        link.toList.length
      = .ok ⟨(Event.clause link a closes).next, .clause link a closes,
          (Event.clause link a closes).tokens.length⟩ := by
  cases closes with
  | true =>
    cases link with
    | none => exact Except.bind_eq_ok_iff.mpr ⟨a, readAtom_tokens ha _, rfl⟩
    | some k => exact Except.bind_eq_ok_iff.mpr ⟨a, readAtom_tokens ha _, rfl⟩
  | false =>
    obtain ⟨k', more, rfl⟩ := hp
    cases link with
    | none => exact Except.bind_eq_ok_iff.mpr ⟨a, readAtom_tokens ha _, by cases k' <;> rfl⟩
    | some k => exact Except.bind_eq_ok_iff.mpr ⟨a, readAtom_tokens ha _, by cases k' <;> rfl⟩

/-- A conclusion is read, with the `and` behind it if there is one. -/
theorem stepConclusion_of_conclusion {a : Atom} {closes : Bool} (ha : a.Fits bounds.outputs)
    (hp : (Event.conclusion a closes).Precedes rest) :
    stepConclusion bounds position ((Event.conclusion a closes).tokens ++ rest)
      = .ok ⟨(Event.conclusion a closes).next, .conclusion a closes,
          (Event.conclusion a closes).tokens.length⟩ := by
  cases closes with
  | true => exact Except.bind_eq_ok_iff.mpr ⟨a, readAtom_tokens ha _, if_neg hp⟩
  | false => exact Except.bind_eq_ok_iff.mpr ⟨a, readAtom_tokens ha _, rfl⟩

/-- **A step on the window of an event passes the event**, if what follows
lets it. -/
theorem step_of_event {e : Event} (hs : e.Suits bounds phase) (hp : e.Precedes rest) :
    step bounds phase position (e.tokens ++ rest) = .ok ⟨e.next, e, e.tokens.length⟩ := by
  cases hs with
  | @clause link a closes ha =>
    have hstep : stepClause bounds position ((Event.clause link a closes).tokens ++ rest) link _
        = _ := stepClause_of_clause ha hp
    rcases link with _ | _ | _ <;> exact hstep
  | conclusion ha => exact stepConclusion_of_conclusion ha hp
  | done => rfl

/-- A statement of a premise that has been read. -/
theorem event_of_stepClause (link : Option Connective) (front : List Token) {t : Window}
    (hfront : front = (link.map fun k => Token.mark (.ofConnective k)).toList)
    (hw : ∀ t ∈ rest, t.IsWord)
    (h : stepClause bounds position (front ++ rest) link front.length = .ok t) :
    t.event.Suits bounds .premise ∧ t = ⟨t.event.next, t.event, t.event.tokens.length⟩ ∧
      ∃ more, front ++ rest = t.event.tokens ++ more ∧ t.event.Precedes more := by
  simp only [stepClause, Except.bind_eq_ok_iff, List.drop_left] at h
  obtain ⟨a, ha, u, hu, h⟩ := h
  obtain ⟨hfits, more, rfl⟩ := tokens_of_readAtom hw ha
  have hmore : more[0]? = some u := by
    rw [required_eq_ok_iff, Nat.add_comm, List.getElem?_append_right (by omega)] at hu
    simpa [Atom.tokens] using hu
  obtain ⟨more', rfl⟩ : ∃ more', more = u :: more' := by
    cases more with
    | nil => cases hmore
    | cons v more' => cases hmore; exact ⟨more', rfl⟩
  subst hfront
  -- the token behind the statement closes the premise or links it to another one
  cases u with
  | datum v => cases h
  | mark m =>
    cases m with
    | consequence =>
      cases h
      refine ⟨.clause hfits, ?_, more', ?_, trivial⟩
      · simp [Event.next, Event.tokens]
      · simp [Event.tokens]
    | conjunction =>
      cases h
      refine ⟨.clause hfits, ?_, .mark .conjunction :: more', ?_, .and, more', rfl⟩
      · simp [Event.next, Event.tokens]
      · simp [Event.tokens]
    | disjunction =>
      cases h
      refine ⟨.clause hfits, ?_, .mark .disjunction :: more', ?_, .or, more', rfl⟩
      · simp [Event.next, Event.tokens]
      · simp [Event.tokens]
    | opening => cases h
    | closing => cases h

/-- A conclusion that has been read. -/
theorem event_of_stepConclusion {t : Window} (hw : ∀ t ∈ rest, t.IsWord)
    (h : stepConclusion bounds position rest = .ok t) :
    t.event.Suits bounds .conclusion ∧ t = ⟨t.event.next, t.event, t.event.tokens.length⟩ ∧
      ∃ more, rest = t.event.tokens ++ more ∧ t.event.Precedes more := by
  simp only [stepConclusion, Except.bind_eq_ok_iff] at h
  obtain ⟨a, ha, h⟩ := h
  obtain ⟨hfits, more, rfl⟩ := tokens_of_readAtom hw ha
  by_cases hand : (a.tokens ++ more)[2]? = some (.mark .conjunction)
  · rw [if_pos hand] at h
    cases h
    refine ⟨.conclusion hfits, rfl, more.tail, ?_, trivial⟩
    match more, hand with
    | u :: more, hand =>
      cases hand
      simp [Event.tokens]
  · rw [if_neg hand] at h
    cases h
    exact ⟨.conclusion hfits, rfl, more, rfl, hand⟩

/-- **A step that succeeds passes an event**, and its window are the tokens
of the event. -/
theorem event_of_step {t : Window} (hw : ∀ t ∈ rest, t.IsWord)
    (h : step bounds phase position rest = .ok t) :
    t.event.Suits bounds phase ∧ t = ⟨t.event.next, t.event, t.event.tokens.length⟩ ∧
      ∃ more, rest = t.event.tokens ++ more ∧ t.event.Precedes more := by
  cases phase with
  | conclusion => exact event_of_stepConclusion hw h
  | premise =>
    simp only [step, Except.bind_eq_ok_iff, required_eq_ok_iff] at h
    obtain ⟨u, hu, h⟩ := h
    obtain ⟨tail, rfl⟩ : ∃ tail, rest = u :: tail := by
      cases rest with
      | nil => cases hu
      | cons v tail => cases hu; exact ⟨tail, rfl⟩
    have htail := fun t ht => hw t (List.mem_cons_of_mem _ ht)
    -- what stands in front of the statement tells which of the three cases it is
    cases u with
    | datum v => exact event_of_stepClause none [] rfl hw h
    | mark m =>
      cases m with
      | closing =>
        cases h
        exact ⟨.done, rfl, tail, rfl, trivial⟩
      | conjunction =>
        exact event_of_stepClause (some .and) [.mark .conjunction] rfl htail h
      | disjunction =>
        exact event_of_stepClause (some .or) [.mark .disjunction] rfl htail h
      | opening => cases h
      | consequence => cases h

end Stream

/-! ## What a reading does -/

/-- Events with the positions they begin at, the first of them given. -/
def Event.placed (position : Nat) : List Event → List (Nat × Event)
  | [] => []
  | e :: es => (position, e) :: placed (position + e.tokens.length) es

/-- A window is not empty. -/
theorem Event.tokens_length_pos (e : Event) : 0 < e.tokens.length := by
  cases e with
  | clause link a closes =>
    simp only [tokens, List.length_append, Atom.length_tokens]
    omega
  | conclusion a closes =>
    simp only [tokens, List.length_append, Atom.length_tokens]
    omega
  | done => exact Nat.zero_lt_one

/-- What a stage finds in front of it: where a further statement of a
premise has to come there is a connective. -/
def Stage.Awaits (rest : List Token) : Stage → Prop
  | .link => ∃ k more, rest = .mark (.ofConnective k) :: more
  | _ => True

/-- **What has to stand behind an event** that leads to a stage. It is what the
stage finds in front of it, and behind a rule there is no `and` either, which
would go on with its conclusions. -/
def Stage.Admits (rest : List Token) : Stage → Prop
  | .rule => rest[0]? ≠ some (.mark .conjunction)
  | stage => stage.Awaits rest

/-- **One event further**, an event leads from a stage to another. -/
inductive Stage.Goes (bounds : Bounds) : Stage → Event → Stage → Prop
  /-- The first statement of a premise. -/
  | first {a : Atom} {closes : Bool} (ha : a.Fits bounds.inputs) :
    Goes bounds .rule (.clause none a closes) (.afterClause closes)
  /-- A further statement of a premise. -/
  | link {k : Connective} {a : Atom} {closes : Bool} (ha : a.Fits bounds.inputs) :
    Goes bounds .link (.clause (some k) a closes) (.afterClause closes)
  /-- A conclusion. -/
  | conclusion {a : Atom} {closes : Bool} (ha : a.Fits bounds.outputs) :
    Goes bounds .conclusion (.conclusion a closes) (.afterConclusion closes)

namespace Cursor

variable {bounds : Bounds} {stage : Stage} {position : Nat} {rest : List Token}

/-- The cursor within a stream, in front of some tokens. -/
def within (bounds : Bounds) (stage : Stage) (position : Nat) (rest : List Token) : Cursor :=
  ⟨bounds, rest, position, stage.phase, stage.isOpen, .reading⟩

/-- The items of a cursor, one item further. -/
theorem items_eq (c : Cursor) :
    c.items = match c.next? with
      | none => []
      | some (i, d) => i :: d.items := by
  unfold items
  rw [trace]
  split
  · next h =>
    rw [h]
    rfl
  · next h =>
    rw [h]
    rfl

theorem items_of_finished {c : Cursor} (h : c.status = .finished) : c.items = [] := by
  rw [items_eq, next?, h]

theorem items_of_reading {c : Cursor} (h : c.status = .reading) :
    c.items = c.advance.1 :: c.advance.2.items := by
  rw [items_eq, next?, h]

/-- A step that fails is the end of the reading. -/
theorem items_of_step_eq_error {f : StreamFault}
    (h : Stream.step bounds stage.phase position rest = .error f) :
    (within bounds stage position rest).items = [.error f] := by
  have hadvance : (within bounds stage position rest).advance
      = (.error f, (within bounds stage position rest).finish) := by
    rw [advance, within, h]
  rw [items_of_reading rfl, hadvance, items_of_finished rfl]

/-- A connective that joins nothing is the end of the reading. -/
theorem items_of_dangling {t : Window}
    (h : Stream.step bounds stage.phase position rest = .ok t)
    (hlink : isLinked t.event ∧ ¬ stage.isOpen) :
    (within bounds stage position rest).items = [.error ⟨position, .danglingConnective⟩] := by
  have hadvance : (within bounds stage position rest).advance
      = (.error ⟨position, .danglingConnective⟩, (within bounds stage position rest).finish) := by
    rw [advance, within, h]
    exact if_pos hlink
  rw [items_of_reading rfl, hadvance, items_of_finished rfl]

/-- **An event that is passed is an item**, and the reading goes on behind
it. -/
theorem items_of_event {e : Event} (hs : e.Suits bounds stage.phase) (hp : e.Precedes rest)
    (hlink : ¬ (isLinked e ∧ ¬ stage.isOpen)) :
    (within bounds stage position (e.tokens ++ rest)).items
      = .ok (position, e) :: items
          ⟨bounds, rest, position + e.tokens.length, e.next, opensRule stage.isOpen e,
            statusAfter e⟩ := by
  have hadvance : (within bounds stage position (e.tokens ++ rest)).advance
      = (.ok (position, e), ⟨bounds, rest, position + e.tokens.length, e.next,
          opensRule stage.isOpen e, statusAfter e⟩) := by
    rw [advance, within, Stream.step_of_event hs hp]
    refine (if_neg hlink).trans ?_
    simp only [moved, List.drop_left]
  rw [items_of_reading rfl, hadvance]

end Cursor

namespace Stage

variable {bounds : Bounds} {stage next : Stage} {position : Nat} {rest : List Token} {e : Event}

theorem Admits.awaits (h : stage.Admits rest) : stage.Awaits rest := by
  cases stage with
  | rule => trivial
  | link => exact h
  | conclusion => trivial

namespace Goes

theorem suits (h : stage.Goes bounds e next) : e.Suits bounds stage.phase := by
  cases h with
  | first ha => exact .clause ha
  | link ha => exact .clause ha
  | conclusion ha => exact .conclusion ha

/-- What an event can stand in front of is what its stage admits. -/
theorem precedes_iff (h : stage.Goes bounds e next) : e.Precedes rest ↔ next.Admits rest := by
  cases h with
  | @first a closes ha => cases closes <;> exact Iff.rfl
  | @link k a closes ha => cases closes <;> exact Iff.rfl
  | @conclusion a closes ha => cases closes <;> exact Iff.rfl

/-- Every script goes on with those of the stage behind. -/
theorem script {es : List Event} (h : stage.Goes bounds e next) (hes : Script bounds next es) :
    Script bounds stage (e :: es) := by
  cases h with
  | first ha => exact .first ha hes
  | link ha => exact .link ha hes
  | conclusion ha => exact .conclusion ha hes

/-- The cursor behind an event is at its stage. -/
theorem within_eq (h : stage.Goes bounds e next) :
    Cursor.mk bounds rest position e.next (Cursor.opensRule stage.isOpen e) (Cursor.statusAfter e)
      = .within bounds next position rest := by
  cases h with
  | @first a closes ha => cases closes <;> rfl
  | @link k a closes ha => cases closes <;> rfl
  | @conclusion a closes ha => cases closes <;> rfl

/-- An event that leads on is an item, and the reading goes on behind it. -/
theorem items (h : stage.Goes bounds e next) (hrest : next.Admits rest) :
    (Cursor.within bounds stage position (e.tokens ++ rest)).items = .ok (position, e) ::
      (Cursor.within bounds next (position + e.tokens.length) rest).items := by
  have hlink : ¬ (Cursor.isLinked e ∧ ¬ stage.isOpen) := by
    cases h <;> simp [Cursor.isLinked, isOpen]
  rw [Cursor.items_of_event h.suits (h.precedes_iff.mpr hrest) hlink, h.within_eq]

end Goes

end Stage

/-- What a script begins with can stand behind an event. -/
theorem Script.admits {bounds : Bounds} {stage : Stage} {es : List Event}
    (h : Script bounds stage es) (rest : List Token) :
    stage.Admits (es.flatMap Event.tokens ++ rest) := by
  cases h with
  | done => exact fun h => by cases h
  | first ha h => exact fun h => by cases h
  | @link k a closes es ha h => exact ⟨k, _, rfl⟩
  | conclusion ha h => trivial

namespace Cursor

variable {bounds : Bounds} {stage : Stage} {position : Nat} {rest : List Token}

/-- **The items of a script are its events.** -/
theorem items_of_script {es : List Event} (h : Script bounds stage es) (rest : List Token) :
    (within bounds stage position (es.flatMap Event.tokens ++ rest)).items
      = (Event.placed position es).map .ok := by
  induction h generalizing position with
  | done =>
    have hdone : (within bounds .rule position (Event.done.tokens ++ rest)).items = _ :=
      items_of_event .done trivial (by simp [isLinked])
    exact hdone.trans (congrArg _ (items_of_finished rfl))
  | first ha h ih =>
    rw [List.flatMap_cons, List.append_assoc, (Stage.Goes.first ha).items (h.admits rest), ih]
    rfl
  | link ha h ih =>
    rw [List.flatMap_cons, List.append_assoc, (Stage.Goes.link ha).items (h.admits rest), ih]
    rfl
  | conclusion ha h ih =>
    rw [List.flatMap_cons, List.append_assoc, (Stage.Goes.conclusion ha).items (h.admits rest), ih]
    rfl

/-- **The stage behind an event.** Unless it is the end, an event that can be
passed leads from the stage to another one. -/
theorem exists_goes {e : Event} {more : List Token} (hs : e.Suits bounds stage.phase)
    (hp : e.Precedes more) (hlink : ¬ (isLinked e ∧ ¬ stage.isOpen))
    (hstage : stage.Awaits (e.tokens ++ more)) :
    (stage = .rule ∧ e = .done) ∨ ∃ next : Stage, stage.Goes bounds e next ∧ next.Admits more := by
  cases stage with
  | rule =>
    cases hs with
    | done => exact .inl ⟨rfl, rfl⟩
    | @clause link a closes ha =>
      cases link with
      -- nothing to join yet
      | some k => exact absurd ⟨rfl, Bool.false_ne_true⟩ hlink
      | none => exact .inr ⟨_, .first ha, (Stage.Goes.first ha).precedes_iff.mp hp⟩
  | link =>
    obtain ⟨k, tail, hk⟩ := hstage
    cases hs with
    | done => cases k <;> cases hk
    | @clause link a closes ha =>
      cases link with
      | none => cases hk
      | some k' => exact .inr ⟨_, .link ha, (Stage.Goes.link ha).precedes_iff.mp hp⟩
  | conclusion =>
    cases hs with
    | @conclusion a closes ha =>
      exact .inr ⟨_, .conclusion ha, (Stage.Goes.conclusion ha).precedes_iff.mp hp⟩

/-- **A reading without a fault reads a script.** By induction on how much
is still to be read: what a step passes is an event, and the stage behind
it is the one the script goes on with. -/
theorem script_of_items (stage : Stage) (hw : ∀ t ∈ rest, t.IsWord) (hstage : stage.Awaits rest)
    (h : ∀ i ∈ (within bounds stage position rest).items, i.isOk = true) :
    ∃ es more, Script bounds stage es ∧ rest = es.flatMap Event.tokens ++ more := by
  induction hn : rest.length using Nat.strongRecOn generalizing stage position rest with
  | ind n ih =>
    subst hn
    cases hstep : Stream.step bounds stage.phase position rest with
    | error f =>
      rw [items_of_step_eq_error hstep] at h
      cases h _ List.mem_cons_self
    | ok t =>
      obtain ⟨hs, -, more, rfl, hp⟩ := Stream.event_of_step hw hstep
      by_cases hlink : isLinked t.event ∧ ¬ stage.isOpen
      · rw [items_of_dangling hstep hlink] at h
        cases h _ List.mem_cons_self
      · rw [items_of_event hs hp hlink] at h
        obtain ⟨-, h⟩ := List.forall_mem_cons.mp h
        rcases exists_goes hs hp hlink hstage with ⟨rfl, hdone⟩ | ⟨next, hgoes, hadmits⟩
        · rw [hdone]
          exact ⟨[.done], more, .done, rfl⟩
        · rw [hgoes.within_eq] at h
          have hlt : more.length < (t.event.tokens ++ more).length := by
            rw [List.length_append]
            exact Nat.lt_add_of_pos_left t.event.tokens_length_pos
          obtain ⟨es, more', hes, hsplit⟩ := ih more.length hlt next
            (fun u hu => hw u (List.mem_append_right _ hu)) hadmits.awaits h rfl
          refine ⟨t.event :: es, more', hgoes.script hes, ?_⟩
          rw [List.flatMap_cons, List.append_assoc, ← hsplit]

end Cursor

end FuzzyInference
