import FuzzyInference.Proofs.Stream.Acceptance

/-!
# What a rule base is read as

A reference is written as a signed word of sixty-four bits, so a place from
`2 ^ 63 - 1` on goes round: the reference is read as one to some other
place, or as none. A rule base of any references can be written all the
same, and this module says what has been written then. `Rule.reread` is
the rule as it is read, and by `Stream.begins_reread` the stream of a rule
base, if it is read without a fault, begins with the rule base reread. That
is the rule base itself if no reference has gone round
(`Stream.begins_of_encode`).

Nothing is read for this. Two rule bases with the same tokens have the same
statements but for their references, because the tokens say themselves
where the statements of a premise end and where the conclusions do: no
connective follows them (`Unjoined`).
-/

namespace FuzzyInference

/-! ## References that have gone round -/

/-- **What a reference is read as**, when it has been written. What is
written as a reference to nothing is not read at all. -/
def TermRef.reread (r : TermRef) : TermRef := (ofValue? r.toValue).getD r

/-- A statement as it is read. -/
def Atom.reread (a : Atom) : Atom := ⟨a.subject, a.term.reread⟩

/-- A premise as it is read. -/
def Premise.reread (p : Premise) : Premise :=
  ⟨p.first.reread, p.rest.map fun q => (q.1, q.2.reread)⟩

/-- **A rule as it is read.** -/
def Rule.reread (r : Rule) : Rule :=
  ⟨r.premise.map Premise.reread, r.conclusions.map Atom.reread⟩

/-- **A reference is written like the one that it is read as**, since a word
does not go round once more. -/
theorem TermRef.toValue_reread (r : TermRef) : r.reread.toValue = r.toValue := by
  unfold reread
  cases hread : ofValue? r.toValue with
  | none => rfl
  | some r' =>
    rw [Option.getD_some, toValue_eq_bmod, place_of_ofValue? hread]
    exact Int.bmod_bmod

theorem Atom.tokens_reread (a : Atom) : a.reread.tokens = a.tokens := by
  unfold tokens reread
  rw [TermRef.toValue_reread]

theorem Atom.linkedTokens_reread (links : List (Connective × Atom)) :
    linkedTokens (links.map fun q => (q.1, q.2.reread)) = linkedTokens links := by
  unfold linkedTokens
  rw [List.flatMap_map]
  simp only [tokens_reread]

/-- **A rule is written like the one that it is read as.** -/
theorem Rule.tokens_reread (r : Rule) : r.reread.tokens = r.tokens := by
  obtain ⟨_ | p, _ | ⟨a, l⟩⟩ := r
  · rfl
  · rfl
  · rfl
  have hlinks := Atom.linkedTokens_reread (l.map (Connective.and, ·))
  rw [List.map_map] at hlinks
  show p.first.reread.tokens ++ Atom.linkedTokens (p.rest.map fun q => (q.1, q.2.reread))
      ++ .mark .consequence :: a.reread.tokens
      ++ Atom.linkedTokens ((l.map Atom.reread).map (Connective.and, ·)) = _
  rw [Atom.tokens_reread, Atom.tokens_reread, Atom.linkedTokens_reread, List.map_map]
  exact congrArg _ hlinks

/-! ## The same tokens -/

/-- What is written as a statement that fits is read as this statement. -/
theorem Atom.reread_of_tokens {a b : Atom} {limit : Nat} (hb : b.Fits limit)
    (h : a.tokens = b.tokens) : a.reread = b := by
  obtain ⟨hsubject, hterm⟩ := List.cons.inj h
  have hsubject : a.subject = b.subject := Int.ofNat.inj (Token.datum.inj hsubject)
  have hterm : a.term.toValue = b.term.toValue := Token.datum.inj (List.cons.inj hterm).1
  rw [reread, hsubject, TermRef.reread, hterm, TermRef.ofValue?_toValue hb.index_lt]
  rfl

/-- **Whether there is no connective** at the head of some tokens. -/
def Unjoined (x : List Token) : Prop := ∀ k more, x ≠ .mark (.ofConnective k) :: more

theorem unjoined_of_head {t : Token} (h : ∀ k, t ≠ .mark (.ofConnective k)) (x : List Token) :
    Unjoined (t :: x) := fun k _ heq => h k (List.cons.inj heq).1

theorem unjoined_datum (v : Int) (x : List Token) : Unjoined (.datum v :: x) :=
  unjoined_of_head (fun _ h => by cases h) x

theorem unjoined_consequence (x : List Token) : Unjoined (.mark .consequence :: x) :=
  unjoined_of_head (fun k h => by cases k <;> cases h) x

theorem unjoined_closing (x : List Token) : Unjoined (.mark .closing :: x) :=
  unjoined_of_head (fun k h => by cases k <;> cases h) x

variable {x y : List Token} {bounds : Bounds}

/-- **Statements with connectives in front of them** have the tokens of
those they are read as only, if no connective follows. -/
theorem Atom.map_reread_of_tokens {links links' : List (Connective × Atom)} {limit : Nat}
    (hfits : ∀ q ∈ links', q.2.Fits limit) (hx : Unjoined x) (hy : Unjoined y)
    (h : linkedTokens links ++ x = linkedTokens links' ++ y) :
    (links.map fun q => (q.1, q.2.reread)) = links' ∧ x = y := by
  induction links generalizing links' with
  | nil =>
    cases links' with
    | nil => exact ⟨rfl, h⟩
    | cons q' links' => exact absurd h (hx q'.1 _)
  | cons q links ih =>
    cases links' with
    | nil => exact absurd h.symm (hy q.1 _)
    | cons q' links' =>
      obtain ⟨k, a⟩ := q
      obtain ⟨k', b⟩ := q'
      obtain ⟨hb, hfits⟩ := List.forall_mem_cons.mp hfits
      rw [linkedTokens_cons, linkedTokens_cons, List.append_assoc, List.append_assoc,
        List.cons_append, List.cons_append] at h
      obtain ⟨hk, h⟩ := List.cons.inj h
      obtain ⟨hatom, h⟩ := List.append_inj h rfl
      obtain ⟨hlinks, hxy⟩ := ih hfits h
      have hk : k = k' := by
        cases k <;> cases k' <;> first | rfl | cases hk
      rw [List.map_cons, hlinks, reread_of_tokens hb hatom, hk]
      exact ⟨rfl, hxy⟩

namespace Rule

/-- **A rule** has the tokens of the one it is read as only. -/
theorem reread_of_tokens {r r' : Rule} (hr : r.IsComplete) (hr' : r'.Fits bounds)
    (hx : Unjoined x) (hy : Unjoined y) (h : r.tokens ++ x = r'.tokens ++ y) :
    r.reread = r' ∧ x = y := by
  obtain ⟨hcomplete, hclauses, hconclusions⟩ := hr'
  obtain ⟨_ | p, _ | ⟨a, l⟩⟩ := r
  · cases hr.1
  · cases hr.1
  · exact absurd rfl hr.2
  obtain ⟨_ | p', _ | ⟨b, l'⟩⟩ := r'
  · cases hcomplete.1
  · cases hcomplete.1
  · exact absurd rfl hcomplete.2
  obtain ⟨hfirst, hrest⟩ := List.forall_mem_cons.mp hclauses
  obtain ⟨hb, hl'⟩ := List.forall_mem_cons.mp hconclusions
  simp only [tokens, List.append_assoc, List.cons_append] at h
  -- the first statement of the premise, those behind it, the first conclusion, those behind it
  obtain ⟨htokens, h⟩ := List.append_inj h rfl
  have hfirst := Atom.reread_of_tokens hfirst htokens
  have hlinks : ∀ q ∈ p'.rest, q.2.Fits bounds.inputs := fun q hq =>
    hrest (some q.1, q.2) (List.mem_map_of_mem hq)
  obtain ⟨hrest, h⟩ := Atom.map_reread_of_tokens hlinks (unjoined_consequence _)
    (unjoined_consequence _) h
  obtain ⟨htokens, h⟩ := List.append_inj (List.cons.inj h).2 rfl
  have ha := Atom.reread_of_tokens hb htokens
  have hothers : ∀ q ∈ l'.map (Connective.and, ·), q.2.Fits bounds.outputs :=
    List.forall_mem_map.mpr hl'
  obtain ⟨hl, hxy⟩ := Atom.map_reread_of_tokens hothers hx hy h
  have hl : (l.map Atom.reread).map (Connective.and, ·) = l'.map (Connective.and, ·) := by
    rw [List.map_map] at hl ⊢
    exact hl
  have hl := (List.map_inj_right fun _ _ heq => (Prod.mk.inj heq).2).mp hl
  refine ⟨?_, hxy⟩
  rw [reread, List.map_cons, ha, hl, Option.map_some, Premise.reread, hfirst, hrest]

/-- A rule begins with the variable of a statement. -/
theorem exists_tokens_eq_cons {r : Rule} (hr : r.IsComplete) :
    ∃ v more, r.tokens = .datum v :: more := by
  obtain ⟨_ | p, _ | ⟨a, l⟩⟩ := r
  · cases hr.1
  · cases hr.1
  · exact absurd rfl hr.2
  exact ⟨_, _, rfl⟩

/-- So does a rule base, if not with the end. -/
theorem unjoined_flatMap_tokens {rules : List Rule} (h : ∀ r ∈ rules, r.IsComplete)
    (x : List Token) : Unjoined (rules.flatMap tokens ++ .mark .closing :: x) := by
  cases rules with
  | nil => exact unjoined_closing x
  | cons r rules =>
    obtain ⟨v, more, hr⟩ := exists_tokens_eq_cons (h r List.mem_cons_self)
    rw [List.flatMap_cons, hr]
    exact unjoined_datum v _

/-- The end is not the beginning of a rule. -/
theorem tokens_append_ne {r : Rule} (hr : r.IsComplete) (x y : List Token) :
    r.tokens ++ x ≠ .mark .closing :: y := by
  obtain ⟨v, more, hr⟩ := exists_tokens_eq_cons hr
  rw [hr]
  exact fun h => by cases (List.cons.inj h).1

/-- **A rule base** has the tokens of the one it is read as only. By induction
on the rules. -/
theorem map_reread_of_tokens {rules rules' : List Rule} (h : ∀ r ∈ rules, r.IsComplete)
    (h' : ∀ r ∈ rules', r.Fits bounds)
    (htokens : rules.flatMap tokens ++ .mark .closing :: x
      = rules'.flatMap tokens ++ .mark .closing :: y) : rules.map reread = rules' := by
  induction rules generalizing rules' with
  | nil =>
    cases rules' with
    | nil => rfl
    | cons r' rules' =>
      rw [List.flatMap_cons, List.append_assoc] at htokens
      exact (tokens_append_ne (h' r' List.mem_cons_self).complete _ _ htokens.symm).elim
  | cons r rules ih =>
    obtain ⟨hr, hrules⟩ := List.forall_mem_cons.mp h
    rw [List.flatMap_cons, List.append_assoc] at htokens
    cases rules' with
    | nil => exact (tokens_append_ne hr _ _ htokens).elim
    | cons r' rules' =>
      obtain ⟨hr', hrules'⟩ := List.forall_mem_cons.mp h'
      rw [List.flatMap_cons, List.append_assoc] at htokens
      obtain ⟨hreread, htokens⟩ := reread_of_tokens hr hr' (unjoined_flatMap_tokens hrules x)
        (unjoined_flatMap_tokens (fun r hr => (hrules' r hr).complete) y) htokens
      rw [List.map_cons, hreread, ih hrules hrules' htokens]

end Rule

/-- **An encoded rule base is read as the rule base reread**, whatever its
references, if its stream is read without a fault. -/
theorem Stream.begins_reread {w : Width} {rules : List Rule} {s : RuleStream w}
    (hs : RuleStream.encode w rules = .ok s) (haccepts : Accepts bounds s.tokens) :
    Begins bounds (rules.map Rule.reread) s.table := by
  obtain ⟨rules', h⟩ := (accepts_iff_begins s.table).mp haccepts
  obtain ⟨hfits, rest, hrest⟩ := begins_iff.mp h
  have htokens := hrest.trans (RuleStream.tokens_of_encode hs)
  simp only [RuleStream.tokensOf, List.cons_append, List.append_assoc, List.nil_append] at htokens
  rw [Rule.map_reread_of_tokens (RuleStream.isComplete_of_encode hs) hfits
    (List.cons.inj htokens).2.symm]
  exact h

/-- **An encoded rule base begins with the rule base reread**, if the latter
fits. -/
theorem Stream.begins_reread_of_fits {w : Width} {rules : List Rule} {s : RuleStream w}
    (hs : RuleStream.encode w rules = .ok s)
    (hfits : ∀ r ∈ rules.map Rule.reread, r.Fits bounds) :
    Begins bounds (rules.map Rule.reread) s.table := by
  refine begins_iff.mpr ⟨hfits, ?_⟩
  have htokens : RuleStream.tokensOf (rules.map Rule.reread) = s.tokens := by
    rw [RuleStream.tokens_of_encode hs]
    unfold RuleStream.tokensOf
    rw [List.flatMap_map]
    simp only [Rule.tokens_reread]
  exact htokens ▸ List.prefix_rfl

end FuzzyInference
