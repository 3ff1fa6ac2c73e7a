import FuzzyInference.Proofs.Stream.Acceptance
import Mathlib.Data.List.Forall2

/-!
# What a stage expects

What may come next in a rule stream is told token by token: where a statement
has to come, the number of a variable, a reference to a term, and perhaps a mark
(`Stage.checks`). Tokens **stop short** of this at a place where the next one is
missing or is not of the kind (`Stops`). This module proves that a step fails
at the place where the tokens in front of it stop short
(`Stream.stops_of_step`), that the tokens of events never do
(`Script.not_stops`), and that tokens that have stopped short could have gone on
well up to that place (`Stage.exists_completion`).

Of the three statements the first is about positions, and it is the only one
that opens the definition of a step. A connective in front of the first statement
of a premise is beyond them: no stage expects it, and yet a step goes on behind
it (`FuzzyInference.Proofs.Stream.FirstBad`).
-/

namespace FuzzyInference

/-! ## What a stage expects -/

namespace Token

/-- The number of one of so many variables. -/
def IsSubject (limit : Nat) (t : Token) : Prop := ∃ n < limit, t = .datum n

/-- A reference to a term. -/
def IsReference (t : Token) : Prop :=
  ∃ r : TermRef, r.index < 2 ^ 63 - 1 ∧ t = .datum r.toValue

/-- A connective. -/
def IsConnective (t : Token) : Prop := ∃ k, t = .mark (.ofConnective k)

/-- What can stand behind a statement of a premise. -/
def IsLinking (t : Token) : Prop := t = .mark .consequence ∨ t.IsConnective

end Token

/-- What the tokens of a statement are, one by one. -/
abbrev Atom.checks (limit : Nat) : List (Token → Prop) := [Token.IsSubject limit, Token.IsReference]

/-- **What a stage expects**, token by token: a statement of a premise with what
is in front of it and what follows, or a conclusion. -/
def Stage.checks (bounds : Bounds) : Stage → List (Token → Prop)
  | .rule => Atom.checks bounds.inputs ++ [Token.IsLinking]
  | .link => Token.IsConnective :: (Atom.checks bounds.inputs ++ [Token.IsLinking])
  | .conclusion => Atom.checks bounds.outputs

/-- **Tokens meet** what is expected of them. -/
abbrev Meets (checks : List (Token → Prop)) (ts : List Token) : Prop :=
  List.Forall₂ (fun check t => check t) checks ts

theorem exists_meets_of_forall {checks : List (Token → Prop)} {P : Token → Prop}
    (h : ∀ check ∈ checks, ∃ t, check t ∧ P t) : ∃ ts, Meets checks ts ∧ ∀ t ∈ ts, P t := by
  induction checks with
  | nil => exact ⟨[], .nil, fun _ ht => absurd ht List.not_mem_nil⟩
  | cons check checks ih =>
    obtain ⟨⟨t, ht, hP⟩, hrest⟩ := List.forall_mem_cons.mp h
    obtain ⟨ts, hts, hPs⟩ := ih hrest
    exact ⟨t :: ts, .cons ht hts, List.forall_mem_cons.mpr ⟨hP, hPs⟩⟩

/-- **Tokens stop short** of what is expected, at a place: those in front of it are
as expected, and the next one is missing or is not. -/
inductive Stops : List (Token → Prop) → List Token → Nat → Prop
  /-- The first token is missing or not as expected. -/
  | here {check : Token → Prop} {checks : List (Token → Prop)} {rest : List Token}
    (h : ∀ t, rest[0]? = some t → ¬ check t) : Stops (check :: checks) rest 0
  /-- The first token is as expected. -/
  | there {check : Token → Prop} {checks : List (Token → Prop)} {t : Token} {rest : List Token}
    {j : Nat} (ht : check t) (h : Stops checks rest j) :
    Stops (check :: checks) (t :: rest) (j + 1)

namespace Stops

variable {checks more : List (Token → Prop)} {ts rest rest' : List Token} {j : Nat}

theorem append_right (h : Stops checks rest j) (more : List (Token → Prop)) :
    Stops (checks ++ more) rest j := by
  induction h with
  | here h => exact .here h
  | there ht _ ih => exact .there ht ih

theorem append_left (hts : Meets checks ts) (h : Stops more rest j) :
    Stops (checks ++ more) (ts ++ rest) (checks.length + j) := by
  induction hts with
  | nil => rwa [List.length_nil, Nat.zero_add]
  | cons ht _ ih =>
    rw [List.length_cons, Nat.succ_add]
    exact .there ht ih

theorem lt_length (h : Stops checks rest j) : j < checks.length := by
  induction h with
  | here h => exact Nat.succ_pos _
  | there ht _ ih => exact Nat.succ_lt_succ ih

theorem le_length (h : Stops checks rest j) : j ≤ rest.length := by
  induction h with
  | here h => exact Nat.zero_le _
  | there ht _ ih => exact Nat.succ_le_succ ih

/-- **Where tokens stop short** depends on no token behind. -/
theorem congr (h : Stops checks rest j) (hj : j < rest.length)
    (hrest : rest.take (j + 1) <+: rest') : Stops checks rest' j := by
  induction h generalizing rest' with
  | @here check checks rest h =>
    obtain ⟨more, rfl⟩ := hrest
    refine .here fun t ht => h t ?_
    cases rest with
    | nil => cases hj
    | cons u rest => exact ht
  | @there check checks t rest j ht _ ih =>
    obtain ⟨more, rfl⟩ := hrest
    rw [List.take_succ_cons, List.cons_append]
    exact .there ht (ih (Nat.lt_of_succ_lt_succ hj) (List.prefix_append _ _))

/-- **Tokens that are all as expected** do not stop short. -/
theorem not_of_meets (hts : Meets checks ts) : ¬ Stops checks (ts ++ rest) j := by
  intro h
  induction hts generalizing j with
  | nil => cases h
  | cons ht _ ih =>
    cases h with
    | here h => exact h _ rfl ht
    | there _ h => exact ih h

/-- **What has come so far can be completed**, as long as everything that may be
missing can be found. -/
theorem exists_meets {P : Token → Prop} (hchecks : ∀ check ∈ checks, ∃ t, check t ∧ P t)
    (h : Stops checks rest j) :
    ∃ ts, Meets checks ts ∧ rest.take j <+: ts ∧ ∀ t ∈ ts, t ∈ rest ∨ P t := by
  induction h with
  | here h =>
    obtain ⟨ts, hts, hP⟩ := exists_meets_of_forall hchecks
    exact ⟨ts, hts, List.nil_prefix, fun t ht => .inr (hP t ht)⟩
  | @there check checks t rest j ht _ ih =>
    obtain ⟨ts, hts, hfront, hmem⟩ := ih fun c hc => hchecks c (List.mem_cons_of_mem _ hc)
    refine ⟨t :: ts, .cons ht hts, ?_, ?_⟩
    · rw [List.take_succ_cons]
      exact (List.prefix_cons_inj t).mpr hfront
    · intro u hu
      rcases List.mem_cons.mp hu with rfl | hu
      · exact .inl List.mem_cons_self
      · exact (hmem u hu).imp_left (List.mem_cons_of_mem _)

end Stops

/-! ## What is found in place of it -/

namespace Stream

variable {bounds : Bounds} {side : Side} {limit position : Nat} {rest : List Token}
  {t : Option Token} {f : StreamFault}

theorem of_readSubject_error (h : readSubject side limit position t = .error f) :
    f.position = position ∧ ∀ u, t = some u → ¬ u.IsSubject limit := by
  constructor
  · rcases t with _ | m | v
    · cases h
      rfl
    · cases h
      rfl
    · by_cases hv : 0 ≤ v ∧ v < limit
      · simp only [readSubject, required, bind, Except.bind, if_pos hv] at h
        cases h
      · simp only [readSubject, required, bind, Except.bind, if_neg hv] at h
        cases h
        rfl
  · rintro u rfl ⟨n, hn, rfl⟩
    cases h.symm.trans (readSubject_eq_ok_iff.mpr ⟨rfl, hn⟩)

theorem of_readTerm_error (h : readTerm position t = .error f) :
    f.position = position ∧ ∀ u, t = some u → ¬ u.IsReference := by
  constructor
  · rcases t with _ | m | v
    · cases h
      rfl
    · cases h
      rfl
    · cases hv : TermRef.ofValue? v with
      | none =>
        simp only [readTerm, required, bind, Except.bind, hv] at h
        cases h
        rfl
      | some r =>
        simp only [readTerm, required, bind, Except.bind, hv] at h
        cases h
  · rintro u rfl ⟨r, hr, rfl⟩
    cases h.symm.trans (readTerm_eq_ok_iff.mpr ⟨_, rfl, TermRef.ofValue?_toValue hr⟩)

/-- **A statement that cannot be read** stops short at the place of the fault. -/
theorem stops_of_readAtom (h : readAtom side limit position rest = .error f) :
    ∃ j, f.position = position + j ∧ Stops (Atom.checks limit) rest j := by
  unfold readAtom at h
  cases hs : readSubject side limit position rest[0]? with
  | error g =>
    rw [hs] at h
    cases h
    obtain ⟨hposition, hnot⟩ := of_readSubject_error hs
    exact ⟨0, hposition, .here hnot⟩
  | ok n =>
    cases ht : readTerm (position + 1) rest[1]? with
    | ok r =>
      rw [hs, ht] at h
      cases h
    | error g =>
      rw [hs, ht] at h
      cases h
      obtain ⟨hposition, hnot⟩ := of_readTerm_error ht
      obtain ⟨hsubject, hn⟩ := readSubject_eq_ok_iff.mp hs
      match rest, hsubject with
      | u :: rest, hsubject =>
        cases hsubject
        exact ⟨1, hposition, .there ⟨n, hn, rfl⟩ (.here hnot)⟩

theorem meets_tokens {a : Atom} (ha : a.Fits limit) : Meets (Atom.checks limit) a.tokens :=
  .cons ⟨a.subject, ha.subject_lt, rfl⟩ (.cons ⟨a.term, ha.index_lt, rfl⟩ .nil)

/-- The same for a statement of a premise with what follows it. -/
theorem stops_of_stepClause {link : Option Connective} (hw : ∀ t ∈ rest, t.IsWord)
    (front : List Token)
    (h : stepClause bounds position (front ++ rest) link front.length = .error f) :
    ∃ j, f.position = position + front.length + j ∧
      Stops (Atom.checks bounds.inputs ++ [Token.IsLinking]) rest j := by
  unfold stepClause at h
  rw [List.drop_left] at h
  cases ha : readAtom .input bounds.inputs (position + front.length) rest with
  | error g =>
    rw [ha] at h
    cases h
    obtain ⟨j, hposition, hstops⟩ := stops_of_readAtom ha
    exact ⟨j, hposition, hstops.append_right _⟩
  | ok a =>
    obtain ⟨hfits, more, rfl⟩ := tokens_of_readAtom hw ha
    have hnext : (front ++ (a.tokens ++ more))[front.length + 2]? = more[0]? := by
      rw [List.getElem?_append_right (by omega), Nat.add_sub_cancel_left,
        List.getElem?_append_right (by simp), a.length_tokens, Nat.sub_self]
    obtain ⟨hposition, hnot⟩ : f.position = position + front.length + 2 ∧
        ∀ u, more[0]? = some u → ¬ u.IsLinking := by
      simp only [ha, hnext, bind, Except.bind] at h
      generalize more[0]? = after at h ⊢
      rcases after with _ | m | v
      · cases h
        exact ⟨rfl, nofun⟩
      · cases m <;> cases h
        all_goals
          refine ⟨rfl, ?_⟩
          rintro _ ⟨⟩ (heq | ⟨_ | _, heq⟩) <;> cases heq
      · cases h
        refine ⟨rfl, ?_⟩
        rintro _ ⟨⟩ (heq | ⟨_, heq⟩) <;> cases heq
    exact ⟨2, hposition, Stops.append_left (meets_tokens hfits) (.here hnot)⟩

/-- **A step that fails** stops short of what its stage expects, at the place of
the fault. -/
theorem stops_of_step {stage : Stage} (hw : ∀ t ∈ rest, t.IsWord) (hawaits : stage.Awaits rest)
    (hfirst : stage = .rule → ∀ k more, rest ≠ .mark (.ofConnective k) :: more)
    (h : step bounds stage.phase position rest = .error f) :
    ∃ j, f.position = position + j ∧ Stops (stage.checks bounds) rest j := by
  cases stage with
  | conclusion =>
    cases ha : readAtom .output bounds.outputs position rest with
    | error g =>
      simp only [Stage.phase, step, stepConclusion, ha, bind, Except.bind] at h
      cases h
      exact stops_of_readAtom ha
    | ok a =>
      simp only [Stage.phase, step, stepConclusion, ha, bind, Except.bind] at h
      split at h <;> cases h
  | link =>
    obtain ⟨k, more, rfl⟩ := hawaits
    have hclause : stepClause bounds position ([.mark (.ofConnective k)] ++ more) (some k) 1
        = .error f := by
      cases k <;> exact h
    obtain ⟨j, hposition, hstops⟩ :=
      stops_of_stepClause (fun t ht => hw t (List.mem_cons_of_mem _ ht)) [_] hclause
    exact ⟨j + 1, hposition.trans (by simp only [List.length_singleton]; omega),
      .there ⟨k, rfl⟩ hstops⟩
  | rule =>
    rcases rest with _ | ⟨m | v, more⟩
    · cases h
      exact ⟨0, rfl, .here fun _ ht => by cases ht⟩
    · cases m with
      | closing => cases h
      | conjunction => exact absurd rfl (hfirst rfl .and more)
      | disjunction => exact absurd rfl (hfirst rfl .or more)
      | opening =>
        cases h
        exact ⟨0, rfl, .here (by rintro _ ⟨⟩ ⟨_, -, heq⟩; cases heq)⟩
      | consequence =>
        cases h
        exact ⟨0, rfl, .here (by rintro _ ⟨⟩ ⟨_, -, heq⟩; cases heq)⟩
    · obtain ⟨j, hposition, hstops⟩ := stops_of_stepClause hw [] h
      exact ⟨j, hposition, hstops⟩

end Stream

/-- **An event that leads on** is all that its stage expects. -/
theorem Stage.Goes.not_stops {bounds : Bounds} {stage next : Stage} {e : Event}
    {more : List Token} {j : Nat} (h : stage.Goes bounds e next) (hmore : next.Admits more) :
    ¬ Stops (stage.checks bounds) (e.tokens ++ more) j := by
  have hclause {a : Atom} {closes : Bool} (ha : a.Fits bounds.inputs)
      (hmore : (Stage.afterClause closes).Admits more) :
      ∃ ts more', (Event.clause none a closes).tokens ++ more = ts ++ more' ∧
        Meets (Atom.checks bounds.inputs ++ [Token.IsLinking]) ts := by
    cases closes with
    | true =>
      exact ⟨a.tokens ++ [.mark .consequence], more, rfl,
        .cons ⟨a.subject, ha.subject_lt, rfl⟩ (.cons ⟨a.term, ha.index_lt, rfl⟩
          (.cons (.inl rfl) .nil))⟩
    | false =>
      obtain ⟨k, more', rfl⟩ := hmore
      exact ⟨a.tokens ++ [.mark (.ofConnective k)], more', rfl,
        .cons ⟨a.subject, ha.subject_lt, rfl⟩ (.cons ⟨a.term, ha.index_lt, rfl⟩
          (.cons (.inr ⟨k, rfl⟩) .nil))⟩
  intro hstops
  cases h with
  | first ha =>
    obtain ⟨ts, more', heq, hts⟩ := hclause ha hmore
    rw [heq] at hstops
    exact Stops.not_of_meets hts hstops
  | @link k a closes ha =>
    obtain ⟨ts, more', heq, hts⟩ := hclause ha hmore
    have hlink : (Event.clause (some k) a closes).tokens ++ more
        = .mark (.ofConnective k) :: (ts ++ more') := congrArg _ heq
    rw [hlink] at hstops
    exact Stops.not_of_meets (.cons ⟨k, rfl⟩ hts) hstops
  | @conclusion a closes ha =>
    rw [Event.tokens, List.append_assoc] at hstops
    exact Stops.not_of_meets (Stream.meets_tokens ha) hstops

/-- **A script stops short of nothing**, except that a rule base may end. -/
theorem Script.not_stops {bounds : Bounds} {stage : Stage} {es : List Event} {more : List Token}
    {j : Nat} (h : Script bounds stage es) (hes : es ≠ [.done]) :
    ¬ Stops (stage.checks bounds) (es.flatMap Event.tokens ++ more) j := by
  cases h with
  | done => exact absurd rfl hes
  | first ha h =>
    rw [List.flatMap_cons, List.append_assoc]
    exact (Stage.Goes.first ha).not_stops (h.admits more)
  | link ha h =>
    rw [List.flatMap_cons, List.append_assoc]
    exact (Stage.Goes.link ha).not_stops (h.admits more)
  | conclusion ha h =>
    rw [List.flatMap_cons, List.append_assoc]
    exact (Stage.Goes.conclusion ha).not_stops (h.admits more)

/-! ## Completions -/

/-- **A token that can be written at every width.** -/
def Token.IsPlain (t : Token) : Prop := ∀ w : Width, t.Writable w

theorem Token.isPlain_mark (m : Mark) : (Token.mark m).IsPlain := fun w => ⟨m.raw w, ofRaw_raw m⟩

/-- The statement that the first variable has the first term. -/
def Atom.least : Atom := ⟨0, .is 0⟩

namespace Atom

variable {limit : Nat} {ts : List Token} {t : Token}

theorem fits_least (h : 0 < limit) : least.Fits limit := ⟨h, Nat.succ_pos _⟩

theorem isPlain_of_mem_least (h : t ∈ least.tokens) : t.IsPlain := by
  intro w
  rcases List.mem_pair.mp h with rfl | rfl
  · exact ⟨⟨0, by cases w <;> decide⟩, Token.ofRaw_eq_datum_iff.mpr ⟨rfl, by cases w <;> decide⟩⟩
  · exact ⟨⟨1, by cases w <;> decide⟩, Token.ofRaw_eq_datum_iff.mpr ⟨rfl, by cases w <;> decide⟩⟩

/-- What is expected of a statement can be written at every width. -/
theorem exists_plain_checks (h : 0 < limit) :
    ∀ check ∈ checks limit, ∃ t, check t ∧ t.IsPlain :=
  List.forall_mem_cons.mpr
    ⟨⟨_, ⟨0, h, rfl⟩, isPlain_of_mem_least List.mem_cons_self⟩, List.forall_mem_singleton.mpr
      ⟨_, ⟨.is 0, Nat.succ_pos _, rfl⟩,
        isPlain_of_mem_least (List.mem_cons_of_mem _ List.mem_cons_self)⟩⟩

/-- Tokens as expected of a statement are those of a statement. -/
theorem exists_of_meets (h : Meets (checks limit) ts) :
    ∃ a : Atom, a.Fits limit ∧ ts = a.tokens := by
  obtain _ | ⟨⟨n, hn, rfl⟩, _ | ⟨⟨r, hr, rfl⟩, _ | _⟩⟩ := h
  exact ⟨⟨n, r⟩, ⟨hn, hr⟩, rfl⟩

theorem exists_of_meets_linking (h : Meets (checks limit ++ [Token.IsLinking]) ts) :
    ∃ (a : Atom) (u : Token), a.Fits limit ∧ ts = a.tokens ++ [u] := by
  obtain _ | ⟨⟨n, hn, rfl⟩, _ | ⟨⟨r, hr, rfl⟩, _ | ⟨-, _ | _⟩⟩⟩ := h
  exact ⟨⟨n, r⟩, _, ⟨hn, hr⟩, rfl⟩

end Atom

namespace Stage

variable {bounds : Bounds} {stage : Stage} {rest : List Token} {j : Nat}

theorem exists_plain_checks (hinputs : 0 < bounds.inputs) (houtputs : 0 < bounds.outputs) :
    ∀ check ∈ stage.checks bounds, ∃ t, check t ∧ t.IsPlain := by
  have hclause : ∀ check ∈ Atom.checks bounds.inputs ++ [Token.IsLinking],
      ∃ t, check t ∧ t.IsPlain := by
    rw [List.forall_mem_append, List.forall_mem_singleton]
    exact ⟨Atom.exists_plain_checks hinputs, _, .inl rfl, Token.isPlain_mark _⟩
  cases stage with
  | rule => exact hclause
  | link => exact List.forall_mem_cons.mpr ⟨⟨_, ⟨.and, rfl⟩, Token.isPlain_mark _⟩, hclause⟩
  | conclusion => exact Atom.exists_plain_checks houtputs

/-- A short way to end a stream behind a premise. -/
def ending : List Event := [.conclusion .least true, .done]

theorem tokens_ending :
    ending.flatMap Event.tokens = Atom.least.tokens ++ [.mark .closing] := by
  simp [ending, Event.tokens]

theorem isPlain_of_mem_ending {t : Token} (h : t ∈ ending.flatMap Event.tokens) : t.IsPlain := by
  rw [tokens_ending] at h
  rcases List.mem_append.mp h with h | h
  · exact Atom.isPlain_of_mem_least h
  · rw [List.mem_singleton.mp h]
    exact Token.isPlain_mark _

/-- **A statement is completed** as the last one of its premise. -/
theorem completion_of_clause (link : Option Connective) {front : List Token} {a : Atom} {u : Token}
    (hlink : (link.map fun k => Token.mark (.ofConnective k)).toList = front)
    (hfront : rest.take j <+: front ++ (a.tokens ++ [u])) (hj : j < front.length + 3)
    (hmem : ∀ t ∈ front ++ (a.tokens ++ [u]), t ∈ rest ∨ t.IsPlain) :
    rest.take j <+: (Event.clause link a true :: ending).flatMap Event.tokens ∧
      ∀ t ∈ (Event.clause link a true :: ending).flatMap Event.tokens, t ∈ rest ∨ t.IsPlain := by
  have htokens : (Event.clause link a true :: ending).flatMap Event.tokens
      = (front ++ a.tokens) ++ (.mark .consequence :: ending.flatMap Event.tokens) := by
    simp [Event.tokens, hlink]
  rw [← List.append_assoc] at hfront hmem
  rw [htokens]
  refine ⟨(List.prefix_of_prefix_length_le hfront (List.prefix_append _ _) ?_).trans
    (List.prefix_append _ _), fun t ht => ?_⟩
  · rw [List.length_append, a.length_tokens]
    have hle := List.length_take_le j rest
    omega
  · rcases List.mem_append.mp ht with ht | ht
    · exact hmem t (List.mem_append_left _ ht)
    · rcases List.mem_cons.mp ht with rfl | ht
      · exact .inr (Token.isPlain_mark _)
      · exact .inr (isPlain_of_mem_ending ht)

/-- **What stops short can be completed** to a script, with tokens that can be
written at every width. -/
theorem exists_completion (hinputs : 0 < bounds.inputs) (houtputs : 0 < bounds.outputs)
    (h : Stops (stage.checks bounds) rest j) :
    ∃ es, Script bounds stage es ∧ rest.take j <+: es.flatMap Event.tokens ∧
      ∀ t ∈ es.flatMap Event.tokens, t ∈ rest ∨ t.IsPlain := by
  obtain ⟨ts, hts, hfront, hmem⟩ := h.exists_meets (exists_plain_checks hinputs houtputs)
  have hj := h.lt_length
  have hrule : Script bounds (.afterConclusion true) [.done] := .done
  have hend : Script bounds (.afterClause true) ending :=
    .conclusion (Atom.fits_least houtputs) hrule
  cases stage with
  | rule =>
    obtain ⟨a, u, ha, rfl⟩ := Atom.exists_of_meets_linking hts
    exact ⟨_, .first ha hend, completion_of_clause none rfl hfront hj hmem⟩
  | link =>
    obtain _ | ⟨⟨k, rfl⟩, hts⟩ := hts
    obtain ⟨a, u, ha, rfl⟩ := Atom.exists_of_meets_linking hts
    exact ⟨_, .link ha hend, completion_of_clause (some k) rfl hfront hj hmem⟩
  | conclusion =>
    obtain ⟨a, ha, rfl⟩ := Atom.exists_of_meets hts
    refine ⟨_, .conclusion ha hrule, hfront.trans (List.prefix_append _ _), fun t ht => ?_⟩
    rcases List.mem_append.mp ht with ht | ht
    · exact hmem t ht
    · rw [List.mem_singleton.mp ht]
      exact .inr (Token.isPlain_mark _)

end Stage

end FuzzyInference
