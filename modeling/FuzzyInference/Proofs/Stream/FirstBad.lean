import FuzzyInference.Proofs.Stream.Expectation

/-!
# The first bad token

A stream that is refused is refused at a place. One would like it to be that of
the **first bad token**: an accepted stream can begin with what stands before it,
and none with the token itself (`Stream.IsFirstBad`). This module proves when
it is (`Stream.isFirstBad_iff_of_fault`).

The reading passes events up to a stage at which it gets stuck (`Cursor.Stuck`).
What has been passed is the beginning of a script, and what is left stops short of
what the stage expects, at the place of the fault
(`FuzzyInference.Proofs.Stream.Expectation`). So this is the first bad token.

There is one exception. A connective in front of the first statement of a premise
joins nothing, and is bad itself. But whether a rule is open is only asked when the
statement behind the connective has been read, so if there is something wrong
with this statement as well, the fault is that of the statement
(`Stream.hasty_blames_behind`). It is found at most three tokens behind the
connective, and a connective of this kind is the only reason for a fault to be
found behind the first bad token.
-/

namespace FuzzyInference

/-! ## Up to the fault -/

namespace Stage

variable {bounds : Bounds} {stage next last : Stage} {position : Nat} {rest : List Token}
  {e : Event} {es : List Event}

/-- What an event begins with can stand behind another one. -/
theorem Goes.admits (h : stage.Goes bounds e next) (rest : List Token) :
    stage.Admits (e.tokens ++ rest) := by
  cases h with
  | first ha => exact fun h => by cases h
  | @link k a closes ha => exact ⟨k, _, rfl⟩
  | conclusion ha => trivial

/-- What may stand in front of a stage is told by the first token. -/
theorem Awaits.cons {t : Token} {ts : List Token} (h : stage.Awaits (t :: ts))
    (ts' : List Token) : stage.Awaits (t :: ts') := by
  cases stage with
  | link =>
    obtain ⟨k, _, heq⟩ := h
    exact ⟨k, ts', congrArg (· :: ts') (List.cons.inj heq).1⟩
  | rule => trivial
  | conclusion => trivial

theorem Admits.cons {t : Token} {ts : List Token} (h : stage.Admits (t :: ts))
    (ts' : List Token) : stage.Admits (t :: ts') := by
  cases stage with
  | rule => exact h
  | link => exact h.awaits.cons ts'
  | conclusion => trivial

/-- **Events lead** from a stage to another, one after the other. -/
inductive Leads (bounds : Bounds) : Stage → List Event → Stage → Prop
  /-- No event leads away. -/
  | refl (stage : Stage) : Leads bounds stage [] stage
  /-- One event further. -/
  | step {stage next last : Stage} {e : Event} {es : List Event} (he : stage.Goes bounds e next)
    (h : Leads bounds next es last) : Leads bounds stage (e :: es) last

namespace Leads

/-- What events begin with, or stand in front of, can stand behind another event. -/
theorem admits (h : stage.Leads bounds es last) (hes : es ≠ []) (rest : List Token) :
    stage.Admits (es.flatMap Event.tokens ++ rest) := by
  cases h with
  | refl => exact absurd rfl hes
  | step he h =>
    rw [List.flatMap_cons, List.append_assoc]
    exact he.admits _

/-- Scripts go on with those of the stage behind. -/
theorem script {more : List Event} (h : stage.Leads bounds es last)
    (hmore : Script bounds last more) : Script bounds stage (es ++ more) := by
  induction h with
  | refl => exact hmore
  | step he _ ih => exact he.script (ih hmore)

/-- **Events that lead on are items**, and the reading goes on behind them. -/
theorem items (h : stage.Leads bounds es last) (hrest : es ≠ [] → last.Admits rest) :
    (Cursor.within bounds stage position (es.flatMap Event.tokens ++ rest)).items
      = (Event.placed position es).map .ok ++
        (Cursor.within bounds last (position + (es.flatMap Event.tokens).length) rest).items := by
  induction h generalizing position with
  | refl stage => rfl
  | @step stage next last e es he h ih =>
    have hadmits : next.Admits (es.flatMap Event.tokens ++ rest) := by
      by_cases hes : es = []
      · subst hes
        cases h
        exact hrest (List.cons_ne_nil _ _)
      · exact h.admits hes rest
    rw [List.flatMap_cons, List.append_assoc, he.items hadmits,
      ih fun _ => hrest (List.cons_ne_nil _ _), List.length_append, ← Nat.add_assoc]
    rfl

end Leads

end Stage

/-- **A script leads to the end.** -/
theorem Script.exists_leads {bounds : Bounds} {stage : Stage} {es : List Event}
    (h : Script bounds stage es) :
    ∃ front, es = front ++ [.done] ∧ stage.Leads bounds front .rule := by
  induction h with
  | done => exact ⟨[], rfl, .refl _⟩
  | first ha h ih =>
    obtain ⟨front, rfl, hfront⟩ := ih
    exact ⟨_ :: front, rfl, .step (.first ha) hfront⟩
  | link ha h ih =>
    obtain ⟨front, rfl, hfront⟩ := ih
    exact ⟨_ :: front, rfl, .step (.link ha) hfront⟩
  | conclusion ha h ih =>
    obtain ⟨front, rfl, hfront⟩ := ih
    exact ⟨_ :: front, rfl, .step (.conclusion ha) hfront⟩

namespace Cursor

variable {bounds : Bounds} {stage : Stage} {position : Nat} {rest : List Token}
  {f : StreamFault}

/-- **A reading that gets stuck**: events lead from where it begins to a stage at
which the fault is the only item. -/
structure Stuck (bounds : Bounds) (stage : Stage) (position : Nat) (rest : List Token)
    (f : StreamFault) (es : List Event) (last : Stage) (back : List Token) : Prop where
  /-- The events lead there. -/
  leads : stage.Leads bounds es last
  /-- Their tokens stand in front of what is left. -/
  splits : rest = es.flatMap Event.tokens ++ back
  /-- What is left can stand behind them. -/
  admits : es ≠ [] → last.Admits back
  /-- It is what the stage has in front of it. -/
  awaits : last.Awaits back
  /-- There the reading ends. -/
  items : (within bounds last (position + (es.flatMap Event.tokens).length) back).items = [.error f]

/-- A fault that is the only item is found where the reading begins. -/
theorem Stuck.here (hstage : stage.Awaits rest)
    (h : (within bounds stage position rest).items = [.error f]) :
    Stuck bounds stage position rest f [] stage rest :=
  ⟨.refl stage, rfl, fun h => absurd rfl h, hstage, h⟩

/-- A reading that gets stuck behind an event gets stuck. -/
theorem Stuck.step {e : Event} {es : List Event} {next last : Stage} {back : List Token}
    (hgoes : stage.Goes bounds e next) (hadmits : next.Admits rest)
    (h : Stuck bounds next (position + e.tokens.length) rest f es last back) :
    Stuck bounds stage position (e.tokens ++ rest) f (e :: es) last back where
  leads := .step hgoes h.leads
  splits := by rw [List.flatMap_cons, List.append_assoc, ← h.splits]
  admits := by
    intro _
    by_cases hes : es = []
    · subst hes
      cases h.leads
      rwa [h.splits] at hadmits
    · exact h.admits hes
  awaits := h.awaits
  items := by
    rw [List.flatMap_cons, List.length_append, ← Nat.add_assoc]
    exact h.items

/-- **A fault is found where the reading gets stuck.** By induction on how much is
still to be read. -/
theorem exists_stuck (hw : ∀ t ∈ rest, t.IsWord) (hstage : stage.Awaits rest)
    (h : .error f ∈ (within bounds stage position rest).items) :
    ∃ es last back, Stuck bounds stage position rest f es last back := by
  induction hn : rest.length using Nat.strongRecOn generalizing stage position rest with
  | ind n ih =>
    subst hn
    cases hstep : Stream.step bounds stage.phase position rest with
    | error g =>
      have hitems := items_of_step_eq_error hstep
      rw [hitems] at h
      cases List.mem_singleton.mp h
      exact ⟨_, _, _, .here hstage hitems⟩
    | ok t =>
      by_cases hlink : isLinked t.event ∧ ¬ stage.isOpen
      · have hitems := items_of_dangling hstep hlink
        rw [hitems] at h
        cases List.mem_singleton.mp h
        exact ⟨_, _, _, .here hstage hitems⟩
      · obtain ⟨hs, -, more, rfl, hp⟩ := Stream.event_of_step hw hstep
        rw [items_of_event hs hp hlink] at h
        have hlater := (List.mem_cons.mp h).resolve_left nofun
        rcases exists_goes hs hp hlink hstage with ⟨rfl, hdone⟩ | ⟨next, hgoes, hadmits⟩
        · rw [hdone, items_of_finished rfl] at hlater
          cases hlater
        · rw [hgoes.within_eq] at hlater
          have hlt : more.length < (t.event.tokens ++ more).length := by
            rw [List.length_append]
            exact Nat.lt_add_of_pos_left t.event.tokens_length_pos
          obtain ⟨es, last, back, hstuck⟩ := ih more.length hlt
            (fun u hu => hw u (List.mem_append_right _ hu)) hadmits.awaits hlater rfl
          exact ⟨_, last, back, hstuck.step hgoes hadmits⟩

/-- **An event with a connective in front of it**, told by its tokens. -/
theorem isLinked_iff {e : Event} {more : List Token} :
    isLinked e = true ↔ ∃ k tail, e.tokens ++ more = .mark (.ofConnective k) :: tail := by
  constructor
  · intro h
    cases e with
    | clause link a closes =>
      cases link with
      | none => cases h
      | some k => exact ⟨k, _, rfl⟩
    | conclusion a closes => cases h
    | done => cases h
  · rintro ⟨k, tail, htail⟩
    cases e with
    | clause link a closes =>
      cases link with
      | none => cases htail
      | some k => rfl
    | conclusion a closes => cases htail
    | done => cases k <;> cases htail

/-- **A connective with nothing to join** ends the reading, there or where the
statement behind it ends. -/
theorem items_of_connective (hw : ∀ t ∈ rest, t.IsWord) (k : Connective) :
    ∃ g, (within bounds .rule position (.mark (.ofConnective k) :: rest)).items = [.error g] ∧
      position ≤ g.position ∧ g.position ≤ position + 3 ∧
      g.position ≤ position + (rest.length + 1) := by
  have hwords : ∀ t ∈ Token.mark (.ofConnective k) :: rest, t.IsWord :=
    List.forall_mem_cons.mpr ⟨trivial, hw⟩
  cases hstep : Stream.step bounds Stage.rule.phase position (.mark (.ofConnective k) :: rest) with
  | error g =>
    refine ⟨g, items_of_step_eq_error hstep, ?_⟩
    -- a step is the same where the statement has another one to be joined to
    have hawaits : Stage.link.Awaits (.mark (.ofConnective k) :: rest) := ⟨k, rest, rfl⟩
    obtain ⟨j, hposition, hstops⟩ := Stream.stops_of_step hwords hawaits nofun hstep
    have hj : j < 4 := hstops.lt_length
    have hle : j ≤ rest.length + 1 := hstops.le_length
    omega
  | ok t =>
    obtain ⟨-, -, more, hmore, -⟩ := Stream.event_of_step hwords hstep
    have hlink := isLinked_iff.mpr ⟨k, rest, hmore.symm⟩
    exact ⟨_, items_of_dangling hstep ⟨hlink, Bool.false_ne_true⟩,
      Nat.le_refl _, Nat.le_add_right _ _, Nat.le_add_right _ _⟩

/-- **What is in front of a cursor that is stuck**: a connective with nothing to
join, or tokens that stop short of what the stage expects. -/
theorem stuck_cases (hw : ∀ t ∈ rest, t.IsWord) (hstage : stage.Awaits rest)
    (h : (within bounds stage position rest).items = [.error f]) :
    (stage = .rule ∧ ∃ k more, rest = .mark (.ofConnective k) :: more) ∨
      (stage = .rule → ∀ more, rest ≠ .mark .closing :: more) ∧
        ∃ j, f.position = position + j ∧ Stops (stage.checks bounds) rest j := by
  by_cases hfirst : stage = .rule ∧ ∃ k more, rest = .mark (.ofConnective k) :: more
  · exact .inl hfirst
  right
  cases hstep : Stream.step bounds stage.phase position rest with
  | error g =>
    rw [items_of_step_eq_error hstep] at h
    cases h
    refine ⟨?_, Stream.stops_of_step hw hstage
      (fun hrule k more hrest => hfirst ⟨hrule, k, more, hrest⟩) hstep⟩
    rintro rfl more rfl
    cases hstep
  | ok t =>
    obtain ⟨hs, -, more, rfl, hp⟩ := Stream.event_of_step hw hstep
    by_cases hlink : isLinked t.event ∧ ¬ stage.isOpen
    · refine absurd ⟨?_, isLinked_iff.mp hlink.1⟩ hfirst
      cases stage with
      | rule => rfl
      | link => exact absurd rfl hlink.2
      | conclusion => exact absurd rfl hlink.2
    · rw [items_of_event hs hp hlink] at h
      cases h

end Cursor

/-! ## The first bad token -/

namespace Stream

variable {w : Width} {bounds : Bounds} {raws front : List (Raw w)} {f : StreamFault} {p c : Nat}
  {es : List Event}

/-- **Tokens with which an accepted stream begins.** -/
def Promising (bounds : Bounds) (front : List (Raw w)) : Prop :=
  ∃ more, Accepts bounds ((front ++ more).map Token.ofRaw)

/-- **The first bad token** of a stream: what stands before it is the beginning of
an accepted stream, and with it is not. If there is nothing left it is the end
that comes too early. -/
structure IsFirstBad (bounds : Bounds) (raws : List (Raw w)) (p : Nat) : Prop where
  /-- It is a token of the stream, or the end. -/
  le_length : p ≤ raws.length
  /-- An accepted stream begins with the tokens in front of it. -/
  promising : Promising bounds (raws.take p)
  /-- None begins with these and the token itself. -/
  not_promising : p < raws.length → ¬ Promising bounds (raws.take (p + 1))

/-- **A premature connective**: it stands where a rule is to begin, behind the
tokens of a rule base without the closing mark. An `and` behind a rule is not
premature, as it goes on with the conclusions of the rule. -/
def Premature (bounds : Bounds) (raws : List (Raw w)) (c : Nat) : Prop :=
  ∃ rules k, (∀ r ∈ rules, r.Fits bounds) ∧
    RuleStream.tokensOf rules = (raws.take c).map Token.ofRaw ++ [.mark .closing] ∧
    raws[c]? = some ((Mark.ofConnective k).raw w) ∧ (k = .and → rules = [])

/-- An accepted stream that begins with some tokens begins with some of them. -/
theorem Promising.of_isPrefix {front' : List (Raw w)} (h : Promising bounds front')
    (hfront : front <+: front') : Promising bounds front := by
  obtain ⟨more, haccepts⟩ := h
  obtain ⟨between, rfl⟩ := hfront
  exact ⟨between ++ more, by rwa [← List.append_assoc]⟩

/-- **There is one first bad token.** -/
theorem IsFirstBad.unique {q : Nat} (h : IsFirstBad bounds raws p)
    (h' : IsFirstBad bounds raws q) : q = p := by
  have hnot {p q : Nat} (h : IsFirstBad bounds raws p) (h' : IsFirstBad bounds raws q) :
      ¬ p < q := fun hlt =>
    h.not_promising (Nat.lt_of_lt_of_le hlt h'.le_length)
      (h'.promising.of_isPrefix (List.take_prefix_take_left hlt))
  exact Nat.le_antisymm (Nat.le_of_not_lt (hnot h h')) (Nat.le_of_not_lt (hnot h' h))

/-- The tokens of a stream can be written. -/
theorem writable_of_mem {ts : List Token} (hraws : raws.map Token.ofRaw = .mark .opening :: ts)
    {t : Token} (ht : t ∈ ts) : t.Writable w := by
  obtain ⟨r, -, hr⟩ := List.mem_map.mp (hraws ▸ List.mem_cons_of_mem _ ht)
  exact ⟨r, hr⟩

/-- **A script that can be written** is one that a stream can go on with. -/
theorem promising_of_script (hes : Script bounds .rule es)
    (hfront : front.map Token.ofRaw <+: .mark .opening :: es.flatMap Event.tokens)
    (hwritable : ∀ t ∈ es.flatMap Event.tokens, t.Writable w) : Promising bounds front := by
  obtain ⟨rules, hrules, rfl⟩ := script_iff_rules.mp hes
  have hcomplete : ∀ r ∈ rules, r.IsComplete := fun r hr => (hrules r hr).complete
  rw [← RuleStream.tokensOf_eq hcomplete] at hfront
  obtain ⟨s, hs⟩ : ∃ s, RuleStream.encode w rules = .ok s := by
    refine RuleStream.exists_encode hcomplete fun t ht => ?_
    rw [RuleStream.tokensOf_eq hcomplete] at ht
    rcases List.mem_cons.mp ht with rfl | ht
    · exact Token.isPlain_mark _ w
    · exact hwritable t ht
  rw [← RuleStream.tokens_of_encode hs] at hfront
  obtain ⟨more, hmore⟩ := (List.prefix_map_iff_of_injective Token.ofRaw_injective).mp hfront
  exact ⟨more, (accepts_iff_begins _).mpr ⟨rules, hrules, s, hs, hmore ▸ List.prefix_rfl⟩⟩

/-- **What is read up to a premature connective**, and of the fault that it is. -/
theorem items_of_premature {more : List Token} (hw : ∀ t ∈ more, t.IsWord)
    (hes : Stage.rule.Leads bounds es .rule) {k : Connective} (hk : es ≠ [] → k ≠ .and) :
    ∃ g, items bounds
          (.mark .opening :: (es.flatMap Event.tokens ++ .mark (.ofConnective k) :: more))
        = (Event.placed 1 es).map .ok ++ [.error g] ∧
      1 + (es.flatMap Event.tokens).length ≤ g.position ∧
      g.position ≤ 1 + (es.flatMap Event.tokens).length + 3 := by
  obtain ⟨g, hg, hle, hbehind, -⟩ := Cursor.items_of_connective hw k
  refine ⟨g, ?_, hle, hbehind⟩
  rw [items_opening, hes.items fun hne => ?_, hg]
  cases k with
  | and => exact absurd rfl (hk hne)
  | or => exact fun h => by cases h

/-- **A premature connective is the first bad token**, and a fault is found there
or up to three tokens behind it. -/
theorem Premature.isFirstBad (h : Premature bounds raws c) :
    IsFirstBad bounds raws c ∧ ∀ f, .error f ∈ items bounds (raws.map Token.ofRaw) →
      c ≤ f.position ∧ f.position ≤ c + 3 := by
  obtain ⟨rules, k, hrules, htokens, hc, hk⟩ := h
  obtain ⟨es, hscript, hes⟩ := (script_iff_rules.mpr ⟨rules, hrules, rfl⟩).exists_leads
  have hfront : (raws.take c).map Token.ofRaw = .mark .opening :: es.flatMap Event.tokens := by
    rw [RuleStream.tokensOf_eq fun r hr => (hrules r hr).complete, hscript,
      List.flatMap_append, ← List.cons_append] at htokens
    exact (List.append_inj' htokens rfl).1.symm
  have hlt := (List.getElem?_eq_some_iff.mp hc).1
  have hlength : c = 1 + (es.flatMap Event.tokens).length := by
    have hlength := congrArg List.length hfront
    rw [List.length_map, List.length_take_of_le (Nat.le_of_lt hlt), List.length_cons] at hlength
    omega
  have hkes : es ≠ [] → k ≠ .and := by
    rintro hne rfl
    rw [hk rfl] at hscript
    have hempty : [] ++ [.done] = es ++ [.done] := hscript
    exact hne (List.append_cancel_right hempty).symm
  have htake : raws.take (c + 1) = raws.take c ++ [(Mark.ofConnective k).raw w] := by
    rw [List.take_add_one, hc, Option.toList_some]
  have hitems (more : List (Raw w)) : ∃ g,
      items bounds ((raws.take (c + 1) ++ more).map Token.ofRaw)
        = (Event.placed 1 es).map .ok ++ [.error g] ∧ c ≤ g.position ∧ g.position ≤ c + 3 := by
    rw [htake, List.map_append, List.map_append, hfront, hlength]
    simpa using items_of_premature (isWord_map_ofRaw more) hes hkes
  refine ⟨⟨Nat.le_of_lt hlt, ?_, fun _ => ?_⟩, fun f hf => ?_⟩
  · refine promising_of_script (hes.script .done) ?_ ?_
    · rw [hfront, List.flatMap_append]
      exact List.prefix_append _ _
    · intro t ht
      rw [List.flatMap_append] at ht
      rcases List.mem_append.mp ht with ht | ht
      · exact writable_of_mem hfront ht
      · rw [List.mem_singleton.mp ht]
        exact Token.isPlain_mark _ w
  · rintro ⟨more, haccepts⟩
    obtain ⟨g, hg, -⟩ := hitems more
    rw [Accepts, hg] at haccepts
    cases haccepts _ (List.mem_append_right _ List.mem_cons_self)
  · obtain ⟨g, hg, hposition⟩ := hitems (raws.drop (c + 1))
    rw [List.take_append_drop] at hg
    rw [hg] at hf
    rcases List.mem_append.mp hf with hf | hf
    · obtain ⟨_, -, ⟨⟩⟩ := List.mem_map.mp hf
    · cases List.mem_singleton.mp hf
      exact hposition

/-- What stands in front of some token behind the events that have been read. -/
theorem map_take_of_leads {back : List Token}
    (hraws : raws.map Token.ofRaw = .mark .opening :: (es.flatMap Event.tokens ++ back)) (j : Nat) :
    (raws.take (1 + (es.flatMap Event.tokens).length + j)).map Token.ofRaw
      = .mark .opening :: (es.flatMap Event.tokens ++ back.take j) := by
  rw [List.map_take, hraws, Nat.add_assoc, Nat.add_comm 1, List.take_succ_cons,
    List.take_length_add_append]

theorem premature_of_leads {k : Connective} {more : List Token}
    (hraws : raws.map Token.ofRaw
      = .mark .opening :: (es.flatMap Event.tokens ++ .mark (.ofConnective k) :: more))
    (hleads : Stage.rule.Leads bounds es .rule)
    (hadmits : es ≠ [] → Stage.rule.Admits (.mark (.ofConnective k) :: more)) :
    Premature bounds raws (1 + (es.flatMap Event.tokens).length) := by
  obtain ⟨rules, hrules, hscript⟩ := script_iff_rules.mp (hleads.script .done)
  refine ⟨rules, k, hrules, ?_, ?_, ?_⟩
  · have htake := map_take_of_leads hraws 0
    rw [Nat.add_zero] at htake
    rw [RuleStream.tokensOf_eq fun r hr => (hrules r hr).complete, ← hscript, htake]
    simp [Event.tokens]
  · have hget : (raws.map Token.ofRaw)[1 + (es.flatMap Event.tokens).length]?
        = some (.mark (.ofConnective k)) := by
      rw [hraws, Nat.add_comm, List.getElem?_cons_succ, List.getElem?_append_right (Nat.le_refl _),
        Nat.sub_self, List.getElem?_cons_zero]
    rw [List.getElem?_map, Option.map_eq_some_iff] at hget
    obtain ⟨r, hr, hmark⟩ := hget
    rw [hr, Token.eq_raw_of_ofRaw hmark]
  · rintro rfl
    have hes : es = [] := by
      by_contra hne
      exact hadmits hne rfl
    subst hes
    refine (Rule.script_injective (fun r hr => (hrules r hr).complete) ?_ hscript.symm)
    exact fun _ hr => absurd hr List.not_mem_nil

section Stops

variable {back : List Token} {last : Stage} {j : Nat}
  (hraws : raws.map Token.ofRaw = .mark .opening :: (es.flatMap Event.tokens ++ back))
  (hleads : Stage.rule.Leads bounds es last) (hstops : Stops (last.checks bounds) back j)

include hraws hleads hstops

/-- **Up to where tokens stop short** of what their stage expects, there is promise. -/
theorem promising_of_stops (hinputs : 0 < bounds.inputs) (houtputs : 0 < bounds.outputs) :
    Promising bounds (raws.take (1 + (es.flatMap Event.tokens).length + j)) := by
  obtain ⟨more, hmore, hfront, hmem⟩ := Stage.exists_completion hinputs houtputs hstops
  refine promising_of_script (hleads.script hmore) ?_ ?_
  · rw [map_take_of_leads hraws, List.flatMap_append]
    exact (List.prefix_cons_inj _).mpr ((List.prefix_append_right_inj _).mpr hfront)
  · intro t ht
    rw [List.flatMap_append] at ht
    rcases List.mem_append.mp ht with ht | ht
    · exact writable_of_mem hraws (List.mem_append_left _ ht)
    · rcases hmem t ht with hback | hplain
      · exact writable_of_mem hraws (List.mem_append_right _ hback)
      · exact hplain w

/-- **Beyond it there is none.** -/
theorem not_promising_of_stops (hadmits : es ≠ [] → last.Admits back) (hawaits : last.Awaits back)
    (hclosing : last = .rule → ∀ more, back ≠ .mark .closing :: more) (hj : j < back.length) :
    ¬ Promising bounds (raws.take (1 + (es.flatMap Event.tokens).length + j + 1)) := by
  rintro ⟨more, haccepts⟩
  have hgoes := hstops.congr hj (List.prefix_append _ (more.map Token.ofRaw))
  obtain ⟨t, ts, hback⟩ := List.exists_cons_of_length_pos (Nat.zero_lt_of_lt hj)
  rw [Nat.add_assoc, List.map_append, map_take_of_leads hraws, List.cons_append,
    List.append_assoc] at haccepts
  have hwords : ∀ u ∈ back.take (j + 1) ++ more.map Token.ofRaw, u.IsWord := by
    intro u hu
    rcases List.mem_append.mp hu with hu | hu
    · refine isWord_map_ofRaw raws u ?_
      rw [hraws]
      exact List.mem_cons_of_mem _ (List.mem_append_right _ (List.mem_of_mem_take hu))
    · exact isWord_map_ofRaw more u hu
  rw [hback, List.take_succ_cons, List.cons_append] at haccepts hwords hgoes
  rw [hback] at hadmits hawaits
  rw [Accepts, items_opening, hleads.items fun hes => (hadmits hes).cons _] at haccepts
  obtain ⟨es', more', hscript, hsplit⟩ := Cursor.script_of_items last hwords (hawaits.cons _)
    fun i hi => haccepts i (List.mem_append_right _ hi)
  by_cases hdone : es' = [.done]
  · subst hdone
    cases hscript
    exact hclosing rfl ts (hback.trans (congrArg (· :: ts) (List.cons.inj hsplit).1))
  · rw [hsplit] at hgoes
    exact hscript.not_stops hdone hgoes

/-- **Where tokens stop short of what their stage expects** is the first bad token. -/
theorem isFirstBad_of_stops (hinputs : 0 < bounds.inputs) (houtputs : 0 < bounds.outputs)
    (hadmits : es ≠ [] → last.Admits back) (hawaits : last.Awaits back)
    (hclosing : last = .rule → ∀ more, back ≠ .mark .closing :: more) :
    IsFirstBad bounds raws (1 + (es.flatMap Event.tokens).length + j) := by
  have hlength : raws.length = 1 + (es.flatMap Event.tokens).length + back.length := by
    have hlength := congrArg List.length hraws
    rw [List.length_map, List.length_cons, List.length_append] at hlength
    omega
  refine ⟨?_, promising_of_stops hraws hleads hstops hinputs houtputs, fun hlt => ?_⟩
  · rw [hlength]
    exact Nat.add_le_add_left hstops.le_length _
  · exact not_promising_of_stops hraws hleads hstops hadmits hawaits hclosing (by omega)

end Stops

/-- **A fault is one of the first bad token**, unless there is a premature
connective. -/
theorem isFirstBad_of_fault (hinputs : 0 < bounds.inputs) (houtputs : 0 < bounds.outputs)
    (h : .error f ∈ items bounds (raws.map Token.ofRaw)) :
    f.position ≤ raws.length ∧
      ((∃ c, Premature bounds raws c) ∨ IsFirstBad bounds raws f.position) := by
  have hempty : Promising bounds (raws.take 0) :=
    promising_of_script .done List.nil_prefix fun t ht =>
      List.mem_singleton.mp ht ▸ Token.isPlain_mark _ w
  rcases hraws : raws.map Token.ofRaw with _ | ⟨t, rest⟩
  · rw [hraws, items_of_opened rfl] at h
    cases List.mem_singleton.mp h
    refine ⟨Nat.zero_le _, .inr ⟨Nat.zero_le _, hempty, fun hlt => ?_⟩⟩
    rw [List.map_eq_nil_iff.mp hraws] at hlt
    cases hlt
  by_cases ht : t = .mark .opening
  · subst ht
    have hwords : ∀ t ∈ rest, t.IsWord := fun t ht =>
      isWord_map_ofRaw raws t (hraws ▸ List.mem_cons_of_mem _ ht)
    rw [hraws, items_opening] at h
    have hrule : Stage.rule.Awaits rest := trivial
    obtain ⟨es, last, back, hleads, rfl, hadmits, hawaits, hitems⟩ :=
      Cursor.exists_stuck hwords hrule h
    have hback : ∀ t ∈ back, t.IsWord := fun t ht => hwords t (List.mem_append_right _ ht)
    have hlength := congrArg List.length hraws
    rw [List.length_map, List.length_cons, List.length_append] at hlength
    rcases Cursor.stuck_cases hback hawaits hitems with
      ⟨rfl, k, more, rfl⟩ | ⟨hclosing, j, hposition, hstops⟩
    · obtain ⟨g, hg, -, -, hle⟩ := Cursor.items_of_connective
        (fun t ht => hback t (List.mem_cons_of_mem _ ht)) k
      cases hitems.symm.trans hg
      rw [List.length_cons] at hlength
      exact ⟨by omega, .inl ⟨_, premature_of_leads hraws hleads hadmits⟩⟩
    · have hfirst :=
        isFirstBad_of_stops hraws hleads hstops hinputs houtputs hadmits hawaits hclosing
      rw [← hposition] at hfirst
      exact ⟨hfirst.le_length, .inr hfirst⟩
  · rw [hraws, items_of_ne_opening ht] at h
    cases List.mem_singleton.mp h
    refine ⟨Nat.zero_le _, .inr ⟨Nat.zero_le _, hempty, fun hlt => ?_⟩⟩
    rintro ⟨more, haccepts⟩
    have htake : (raws.take (0 + 1) ++ more).map Token.ofRaw = t :: more.map Token.ofRaw := by
      rw [List.map_append, List.map_take, hraws]
      rfl
    rw [Accepts, htake, items_of_ne_opening ht] at haccepts
    cases haccepts _ List.mem_cons_self

/-- **Where a stream is refused.** The place of the fault is a token of the stream
or its end. It is the first bad token exactly if there is no premature connective
in front of it. A premature connective is the first bad token itself, and the
fault is found there, or up to three tokens behind it. -/
theorem isFirstBad_iff_of_fault (bounds : Bounds) (raws : List (Raw w))
    (hinputs : 0 < bounds.inputs) (houtputs : 0 < bounds.outputs)
    (h : .error f ∈ items bounds (raws.map Token.ofRaw)) :
    f.position ≤ raws.length ∧
      (IsFirstBad bounds raws f.position ↔ ¬ ∃ c < f.position, Premature bounds raws c) ∧
      ∀ c, Premature bounds raws c →
        IsFirstBad bounds raws c ∧ c ≤ f.position ∧ f.position ≤ c + 3 := by
  obtain ⟨hle, hcases⟩ := isFirstBad_of_fault hinputs houtputs h
  refine ⟨hle, ⟨?_, fun hnot => ?_⟩, fun c hc => ⟨hc.isFirstBad.1, hc.isFirstBad.2 f h⟩⟩
  · rintro hbad ⟨c, hlt, hc⟩
    rw [hc.isFirstBad.1.unique hbad] at hlt
    exact Nat.lt_irrefl c hlt
  · rcases hcases with ⟨c, hc⟩ | hbad
    · rcases Nat.lt_or_eq_of_le (hc.isFirstBad.2 f h).1 with hlt | heq
      · exact absurd ⟨c, hlt, hc⟩ hnot
      · exact heq ▸ hc.isFirstBad.1
    · exact hbad

/-- A premise that is not closed. -/
def unclosed : List (Raw .bits64) :=
  [Mark.opening.raw _, ⟨0, by decide⟩, ⟨1, by decide⟩, Mark.closing.raw _]

theorem items_unclosed :
    items ⟨1, 1⟩ (unclosed.map Token.ofRaw) = [.error ⟨3, .notLinked (.mark .closing)⟩] := by
  have hopening : unclosed.map Token.ofRaw
      = [.mark .opening, .datum 0, .datum 1, .mark .closing] := rfl
  rw [hopening, items_opening]
  exact Cursor.items_of_step_eq_error rfl

/-- **The closing mark behind a statement** is the first bad token, since the
premise is to be closed first. -/
theorem isFirstBad_iff_of_fault_unclosed : IsFirstBad ⟨1, 1⟩ unclosed 3 := by
  have hfault : .error ⟨3, .notLinked (.mark .closing)⟩
      ∈ items ⟨1, 1⟩ (unclosed.map Token.ofRaw) := items_unclosed ▸ List.mem_singleton_self _
  obtain ⟨-, hfirst, -⟩ :=
    isFirstBad_iff_of_fault ⟨1, 1⟩ unclosed Nat.one_pos Nat.one_pos hfault
  refine hfirst.mpr ?_
  rintro ⟨c, hc, rules, k, -, -, hget, -⟩
  -- no token in front of it is a connective
  have hnone : unclosed[c]? ≠ some ((Mark.ofConnective k).raw _) := by
    match c, hc with
    | 0, _ => cases k <;> decide
    | 1, _ => cases k <;> decide
    | 2, _ => cases k <;> decide
  exact hnone hget

/-- A premature `and`, and behind it the number of an input that is not there. -/
def hasty : List (Raw .bits64) :=
  [Mark.opening.raw _, Mark.conjunction.raw _, ⟨5, by decide⟩, ⟨1, by decide⟩,
    Mark.consequence.raw _, ⟨0, by decide⟩, ⟨1, by decide⟩, Mark.closing.raw _]

theorem premature_hasty : Premature ⟨1, 1⟩ hasty 1 :=
  ⟨[], .and, fun _ hr => absurd hr List.not_mem_nil, rfl, rfl, fun _ => rfl⟩

/-- **A premature connective is not blamed** if there is another bad token right
behind it: no accepted stream begins with the tokens in front of the place of the
fault. -/
theorem hasty_blames_behind :
    (∃ f, items ⟨1, 1⟩ (hasty.map Token.ofRaw) = [.error f] ∧ f.position = 2) ∧
      ¬ Promising ⟨1, 1⟩ (hasty.take 2) := by
  refine ⟨⟨⟨2, .subjectOutOfRange .input 5 1⟩, ?_, rfl⟩,
    premature_hasty.isFirstBad.1.not_promising (by decide)⟩
  have hopening : hasty.map Token.ofRaw
      = [.mark .opening, .mark .conjunction, .datum 5, .datum 1, .mark .consequence, .datum 0,
        .datum 1, .mark .closing] := rfl
  rw [hopening, items_opening]
  exact Cursor.items_of_step_eq_error rfl

end Stream

end FuzzyInference
