import FuzzyInference.Proofs.Language.Grammar
import FuzzyInference.Proofs.Sequence

/-!
# The reader reads the grammar

`Reader.State.read` is an automaton that resolves names on its way, and
the grammar of `FuzzyInference.Proofs.Language.Grammar` knows neither
states nor an order of resolution. This module proves that they agree: the
reader accepts exactly the lexemes that some sequence of passages spells
and whose names resolve, and finds exactly the rules that the sentences
among the passages denote.

There is one equivalence for each state, of the form *what is read from
here is a part of the grammar, and then what is read from there*. A run of
further phrases is read by induction on the lexemes, and in the other
direction by induction on the phrases. Neither side of an equivalence
mentions a fault, and this is why the order in which the reader finds
faults does not matter.
-/

namespace FuzzyInference

/-- **Lexemes that begin with some lexemes**, and what is left behind
them. -/
def Located.Begin (xs : List Lexeme) (ls rest : List Located) : Prop :=
  ∃ front, ls = front ++ rest ∧ front.map Located.lexeme = xs

namespace Located

theorem begin_nil {ls rest : List Located} : Begin [] ls rest ↔ ls = rest := by
  constructor
  · rintro ⟨front, rfl, hfront⟩
    rw [List.map_eq_nil_iff.mp hfront]
    rfl
  · rintro rfl
    exact ⟨[], rfl, rfl⟩

theorem begin_cons {x : Lexeme} {xs : List Lexeme} {ls rest : List Located} :
    Begin (x :: xs) ls rest ↔ ∃ l tail, ls = l :: tail ∧ l.lexeme = x ∧ Begin xs tail rest := by
  constructor
  · rintro ⟨front, rfl, hfront⟩
    obtain ⟨l, front, rfl, hl, hrest⟩ := List.map_eq_cons_iff.mp hfront
    exact ⟨l, front ++ rest, rfl, hl, front, rfl, hrest⟩
  · rintro ⟨l, -, rfl, hl, front, rfl, hfront⟩
    exact ⟨l :: front, rfl, by rw [List.map_cons, hl, hfront]⟩

theorem begin_append {xs ys : List Lexeme} {ls rest : List Located} :
    Begin (xs ++ ys) ls rest ↔ ∃ mid, Begin xs ls mid ∧ Begin ys mid rest := by
  constructor
  · rintro ⟨front, rfl, hfront⟩
    obtain ⟨f, g, rfl, hf, hg⟩ := List.map_eq_append_iff.mp hfront
    exact ⟨g ++ rest, ⟨f, List.append_assoc f g rest, hf⟩, g, rfl, hg⟩
  · rintro ⟨-, ⟨f, rfl, hf⟩, g, rfl, hg⟩
    exact ⟨f ++ g, (List.append_assoc f g rest).symm, by rw [List.map_append, hf, hg]⟩

/-- A list begins with all of its lexemes. -/
theorem begin_self {xs : List Lexeme} {ls : List Located} :
    Begin xs ls [] ↔ ls.map Located.lexeme = xs := by
  constructor
  · rintro ⟨front, rfl, hfront⟩
    rw [List.append_nil, hfront]
  · intro h
    exact ⟨ls, (List.append_nil ls).symm, h⟩

theorem Begin.length {xs : List Lexeme} {ls rest : List Located} (h : Begin xs ls rest) :
    ls.length = xs.length + rest.length := by
  obtain ⟨front, rfl, rfl⟩ := h
  rw [List.length_append, List.length_map]

end Located

open Located

variable {names : Resolver}

namespace Reader

/-- **What is resolved** is what the phrase denotes. -/
theorem resolve_eq_ok_iff {side : Side} (line : Nat) {name term : String} {negated : Bool}
    {a : Atom} :
    resolve names side line name negated term = .ok a ↔
      (⟨name, negated, term⟩ : Phrase).Denotes names side a := by
  unfold resolve
  constructor
  · intro h
    cases hsubject : names.subject? side name with
    | none => simp only [hsubject, reduceCtorEq] at h
    | some tag =>
      cases hterm : names.term? side tag term with
      | none => simp only [hsubject, hterm, reduceCtorEq] at h
      | some index =>
        simp only [hsubject, hterm, Except.ok.injEq] at h
        subst h
        exact ⟨hsubject, hterm, rfl⟩
  · rintro ⟨hsubject, hterm, hnegated⟩
    obtain ⟨subject, ⟨index, negated'⟩⟩ := a
    cases hnegated
    simp only [hsubject, hterm]

namespace State

variable {last : Place} {rules : List Rule}

/-- **One lexeme is read**, and then the others. -/
theorem read_cons_eq_ok_iff {s : State} {l : Located} {ls : List Located} :
    s.read names last (l :: ls) = .ok rules ↔
      ∃ next finished later, s.advance names l = .ok (next, finished) ∧
        next.read names last ls = .ok later ∧ rules = finished.toList ++ later := by
  constructor
  · intro h
    unfold read at h
    cases hadvance : s.advance names l with
    | error f => simp only [hadvance, reduceCtorEq] at h
    | ok p =>
      obtain ⟨next, finished⟩ := p
      cases hread : next.read names last ls with
      | error f => simp only [hadvance, hread, reduceCtorEq] at h
      | ok later =>
        simp only [hadvance, hread, Except.ok.injEq] at h
        exact ⟨next, finished, later, rfl, hread, h.symm⟩
  · rintro ⟨next, finished, later, hadvance, hread, rfl⟩
    unfold read
    simp only [hadvance, hread]

/-- A lexeme with which no rule ends. -/
theorem read_of_advance {s next : State} {l : Located} {ls : List Located}
    (h : s.advance names l = .ok (next, none)) :
    s.read names last (l :: ls) = .ok rules ↔ next.read names last ls = .ok rules := by
  rw [read_cons_eq_ok_iff, h]
  constructor
  · rintro ⟨_, _, later, ⟨⟩, hread, rfl⟩
    exact hread
  · intro hread
    exact ⟨next, none, rules, rfl, hread, rfl⟩

/-- **A state in which no text can end** goes on with a lexeme. -/
theorem read_eq_ok_iff_of_close {s : State} {ls : List Located} {f : LanguageFault}
    (hclose : s.close last = .error f) :
    s.read names last ls = .ok rules ↔
      ∃ l tail next finished later, ls = l :: tail ∧ s.advance names l = .ok (next, finished) ∧
        next.read names last tail = .ok later ∧ rules = finished.toList ++ later := by
  cases ls with
  | nil =>
    unfold read
    simp [hclose]
  | cons l tail =>
    rw [read_cons_eq_ok_iff]
    constructor
    · rintro ⟨next, finished, later, h⟩
      exact ⟨l, tail, next, finished, later, rfl, h⟩
    · rintro ⟨_, _, next, finished, later, ⟨⟩, h⟩
      exact ⟨next, finished, later, h⟩

/-! ## What each state goes on with -/

section Advance

variable {draft : Rule} {role : Role} {line : Nat} {name : String} {l : Located} {next : State}
  {finished : Option Rule}

theorem advance_statement :
    (statement draft role).advance names l = .ok (next, finished) ↔
      ∃ n, l.lexeme = .name n ∧ next = .named draft role l.place.line n ∧ finished = none := by
  obtain ⟨x, place⟩ := l
  unfold advance
  cases x with
  | name n => simp [eq_comm]
  | keyword k => simp
  | semicolon => simp

theorem advance_named :
    (named draft role line name).advance names l = .ok (next, finished) ↔
      l.lexeme = .keyword .is ∧ next = .joined draft role line name ∧ finished = none := by
  obtain ⟨x, place⟩ := l
  unfold advance
  cases x with
  | keyword k => cases k <;> simp [eq_comm]
  | semicolon => simp
  | name n => simp

theorem complete_eq_ok_iff {negated : Bool} {term : String} :
    complete names draft role line name negated term = .ok next ↔
      ∃ a, (⟨name, negated, term⟩ : Phrase).Denotes names role.side a ∧
        next = afterStatement draft role a := by
  simp only [← resolve_eq_ok_iff line]
  unfold complete
  cases resolve names role.side line name negated term with
  | error f => simp
  | ok a => simp [eq_comm]

theorem advance_joined :
    (joined draft role line name).advance names l = .ok (next, finished) ↔
      (l.lexeme = .keyword .not ∧ next = .denied draft role line name ∧ finished = none) ∨
      ∃ t a, l.lexeme = .name t ∧ (⟨name, false, t⟩ : Phrase).Denotes names role.side a ∧
        next = afterStatement draft role a ∧ finished = none := by
  obtain ⟨x, place⟩ := l
  unfold advance
  cases x with
  | keyword k => cases k <;> simp [eq_comm]
  | semicolon => simp
  | name t =>
    simp only [Except.map_eq_ok_iff, complete_eq_ok_iff]
    constructor
    · rintro ⟨_, ⟨a, ha, rfl⟩, ⟨⟩⟩
      exact .inr ⟨t, a, rfl, ha, rfl, rfl⟩
    · rintro (⟨⟨⟩, -⟩ | ⟨_, a, ⟨⟩, ha, rfl, rfl⟩)
      exact ⟨_, ⟨a, ha, rfl⟩, rfl⟩

theorem advance_denied :
    (denied draft role line name).advance names l = .ok (next, finished) ↔
      ∃ t a, l.lexeme = .name t ∧ (⟨name, true, t⟩ : Phrase).Denotes names role.side a ∧
        next = afterStatement draft role a ∧ finished = none := by
  obtain ⟨x, place⟩ := l
  unfold advance
  cases x with
  | keyword k => simp
  | semicolon => simp
  | name t =>
    simp only [Except.map_eq_ok_iff, complete_eq_ok_iff]
    constructor
    · rintro ⟨_, ⟨a, ha, rfl⟩, ⟨⟩⟩
      exact ⟨t, a, rfl, ha, rfl, rfl⟩
    · rintro ⟨_, a, ⟨⟩, ha, rfl, rfl⟩
      exact ⟨_, ⟨a, ha, rfl⟩, rfl⟩

theorem advance_premise :
    (premise draft).advance names l = .ok (next, finished) ↔
      (l.lexeme = .keyword .then ∧ next = .statement draft .conclusion ∧ finished = none) ∨
      ∃ c : Connective, l.lexeme = .keyword c.keyword ∧ next = .statement draft (.linked c) ∧
        finished = none := by
  obtain ⟨x, place⟩ := l
  unfold advance
  rw [Connective.exists_iff]
  cases x with
  | keyword k => cases k <;> simp [Connective.keyword, eq_comm]
  | semicolon => simp
  | name n => simp

theorem advance_between :
    between.advance names l = .ok (next, finished) ↔
      finished = none ∧
        ((l.lexeme = .keyword .if ∧ next = .statement .empty .opening) ∨
          ((l.lexeme = .keyword .end ∨ l.lexeme = .semicolon) ∧ next = .between)) := by
  obtain ⟨x, place⟩ := l
  unfold advance
  cases x with
  | keyword k => cases k <;> simp [eq_comm, and_comm]
  | semicolon => simp [eq_comm, and_comm]
  | name n => simp

/-- What can stand between rules ends a rule that has a conclusion. -/
theorem advance_conclusion :
    (conclusion draft).advance names l = .ok (next, finished) ↔
      (finished = some draft ∧ between.advance names l = .ok (next, none)) ∨
      l.lexeme = .keyword .and ∧ next = .statement draft .conclusion ∧ finished = none := by
  obtain ⟨x, place⟩ := l
  unfold advance
  cases x with
  | keyword k => cases k <;> simp [eq_comm, and_comm]
  | semicolon => simp [eq_comm, and_comm]
  | name n => simp

end Advance

/-! ## A phrase -/

variable {draft : Rule} {role : Role} {ls : List Located}

/-- **The term of a phrase**, denied or not, is read behind the copula. -/
theorem read_joined {line : Nat} {name : String} :
    (joined draft role line name).read names last ls = .ok rules ↔
      ∃ (p : Phrase) (a : Atom) (rest : List Located), p.subject = name ∧
        Begin ((if p.denied then [.keyword .not] else []) ++ [.name p.term]) ls rest ∧
        p.Denotes names role.side a ∧
        (afterStatement draft role a).read names last rest = .ok rules := by
  rw [read_eq_ok_iff_of_close rfl]
  constructor
  · rintro ⟨l, tail, next, finished, later, rfl, hadvance, hread, rfl⟩
    rcases advance_joined.mp hadvance with ⟨hl, rfl, rfl⟩ | ⟨t, a, hl, ha, rfl, rfl⟩
    · obtain ⟨m, rest, _, _, _, rfl, hdenied, hrest, rfl⟩ := (read_eq_ok_iff_of_close rfl).mp hread
      obtain ⟨t, a, hm, ha, rfl, rfl⟩ := advance_denied.mp hdenied
      exact ⟨⟨name, true, t⟩, a, rest, rfl, ⟨[l, m], rfl, by simp [hl, hm]⟩, ha, hrest⟩
    · exact ⟨⟨name, false, t⟩, a, tail, rfl, ⟨[l], rfl, by simp [hl]⟩, ha, hread⟩
  · rintro ⟨⟨_, denied, t⟩, a, rest, rfl, hbegin, ha, hread⟩
    cases denied with
    | true =>
      obtain ⟨l, tail, rfl, hl, hbegin⟩ := begin_cons.mp hbegin
      obtain ⟨m, tail, rfl, hm, hbegin⟩ := begin_cons.mp hbegin
      rw [begin_nil.mp hbegin]
      refine ⟨l, _, _, none, rules, rfl, advance_joined.mpr (.inl ⟨hl, rfl, rfl⟩), ?_, rfl⟩
      exact (read_eq_ok_iff_of_close rfl).mpr
        ⟨m, rest, _, none, rules, rfl, advance_denied.mpr ⟨t, a, hm, ha, rfl, rfl⟩, hread, rfl⟩
    | false =>
      obtain ⟨l, tail, rfl, hl, hbegin⟩ := begin_cons.mp hbegin
      rw [begin_nil.mp hbegin]
      exact ⟨l, _, _, none, rules, rfl,
        advance_joined.mpr (.inr ⟨t, a, hl, ha, rfl, rfl⟩), hread, rfl⟩

/-- **A phrase is read**, and then what follows it. -/
theorem read_statement :
    (statement draft role).read names last ls = .ok rules ↔
      ∃ (p : Phrase) (a : Atom) (rest : List Located), Begin p.lexemes ls rest ∧
        p.Denotes names role.side a ∧
        (afterStatement draft role a).read names last rest = .ok rules := by
  rw [read_eq_ok_iff_of_close rfl]
  constructor
  · rintro ⟨l, tail, next, finished, later, rfl, hadvance, hread, rfl⟩
    obtain ⟨n, hl, rfl, rfl⟩ := advance_statement.mp hadvance
    obtain ⟨m, tail, _, _, _, rfl, hnamed, hjoined, rfl⟩ := (read_eq_ok_iff_of_close rfl).mp hread
    obtain ⟨hm, rfl, rfl⟩ := advance_named.mp hnamed
    obtain ⟨p, a, rest, rfl, hbegin, ha, hrest⟩ := read_joined.mp hjoined
    exact ⟨p, a, rest,
      begin_cons.mpr ⟨l, _, rfl, hl, begin_cons.mpr ⟨m, tail, rfl, hm, hbegin⟩⟩, ha, hrest⟩
  · rintro ⟨p, a, rest, hbegin, ha, hread⟩
    obtain ⟨l, tail, rfl, hl, hbegin⟩ := begin_cons.mp hbegin
    obtain ⟨m, tail, rfl, hm, hbegin⟩ := begin_cons.mp hbegin
    refine ⟨l, _, _, none, rules, rfl, advance_statement.mpr ⟨_, hl, rfl, rfl⟩, ?_, rfl⟩
    refine (read_eq_ok_iff_of_close rfl).mpr
      ⟨m, tail, _, none, rules, rfl, advance_named.mpr ⟨hm, rfl, rfl⟩, ?_, rfl⟩
    exact read_joined.mpr ⟨p, a, rest, rfl, hbegin, ha, hread⟩

/-! ## Runs of phrases -/

/-- **What a premise goes on with**: a phrase with a connective in front of
it, or the conclusions. -/
theorem read_premise_step {a : Atom} {before : List (Connective × Atom)} :
    (premise ⟨some ⟨a, before⟩, []⟩).read names last ls = .ok rules ↔
      (∃ tail, Begin [.keyword .then] ls tail ∧
        (statement ⟨some ⟨a, before⟩, []⟩ .conclusion).read names last tail = .ok rules) ∨
      ∃ (c : Connective) (p : Phrase) (b : Atom) (rest : List Located),
        Begin (.keyword c.keyword :: p.lexemes) ls rest ∧ p.Denotes names .input b ∧
        (premise ⟨some ⟨a, before ++ [(c, b)]⟩, []⟩).read names last rest = .ok rules := by
  rw [read_eq_ok_iff_of_close rfl]
  constructor
  · rintro ⟨l, tail, next, finished, later, rfl, hadvance, hread, rfl⟩
    rcases advance_premise.mp hadvance with ⟨hl, rfl, rfl⟩ | ⟨c, hl, rfl, rfl⟩
    · exact .inl ⟨tail, begin_cons.mpr ⟨l, tail, rfl, hl, begin_nil.mpr rfl⟩, hread⟩
    · obtain ⟨p, b, rest, hbegin, hb, hrest⟩ := read_statement.mp hread
      exact .inr ⟨c, p, b, rest, begin_cons.mpr ⟨l, tail, rfl, hl, hbegin⟩, hb, hrest⟩
  · rintro (⟨tail, hbegin, hread⟩ | ⟨c, p, b, rest, hbegin, hb, hread⟩)
    · obtain ⟨l, _, rfl, hl, hnil⟩ := begin_cons.mp hbegin
      rw [begin_nil.mp hnil]
      exact ⟨l, tail, _, none, rules, rfl, advance_premise.mpr (.inl ⟨hl, rfl, rfl⟩), hread, rfl⟩
    · obtain ⟨l, tail, rfl, hl, hphrase⟩ := begin_cons.mp hbegin
      exact ⟨l, tail, _, none, rules, rfl, advance_premise.mpr (.inr ⟨c, hl, rfl, rfl⟩),
        read_statement.mpr ⟨p, b, rest, hphrase, hb, hread⟩, rfl⟩

/-- **The rest of a premise is read**, up to the conclusions. -/
theorem read_premise {a : Atom} {before : List (Connective × Atom)} :
    (premise ⟨some ⟨a, before⟩, []⟩).read names last ls = .ok rules ↔
      ∃ links as rest, Begin (Phrase.linked links ++ [.keyword .then]) ls rest ∧
        List.Forall₂ (fun p q => p.1 = q.1 ∧ p.2.Denotes names .input q.2) links as ∧
        (statement ⟨some ⟨a, before ++ as⟩, []⟩ .conclusion).read names last rest = .ok rules := by
  constructor
  · intro hread
    induction hlength : ls.length using Nat.strongRecOn generalizing ls before with
    | _ n ih =>
      subst hlength
      rcases read_premise_step.mp hread with
        ⟨tail, hbegin, htail⟩ | ⟨c, p, b, rest, hbegin, hb, hrest⟩
      · exact ⟨[], [], tail, hbegin, .nil, by rwa [List.append_nil]⟩
      · have hless : rest.length < ls.length := by
          rw [hbegin.length, List.length_cons]
          omega
        obtain ⟨links, as, rest', hlinks, has, hconclusion⟩ := ih _ hless hrest rfl
        refine ⟨(c, p) :: links, (c, b) :: as, rest', ?_, .cons ⟨rfl, hb⟩ has, ?_⟩
        · rw [Phrase.linked_cons, ← List.cons_append, List.append_assoc]
          exact begin_append.mpr ⟨rest, hbegin, hlinks⟩
        · rwa [List.append_assoc] at hconclusion
  · rintro ⟨links, as, rest, hbegin, has, hread⟩
    induction has generalizing ls before with
    | nil =>
      rw [List.append_nil] at hread
      exact read_premise_step.mpr (.inl ⟨rest, hbegin, hread⟩)
    | @cons p q links as hpq _ ih =>
      obtain ⟨c, p⟩ := p
      obtain ⟨d, b⟩ := q
      obtain ⟨rfl, hb⟩ := hpq
      rw [Phrase.linked_cons, ← List.cons_append, List.append_assoc] at hbegin
      obtain ⟨mid, hphrase, hlinks⟩ := begin_append.mp hbegin
      refine read_premise_step.mpr (.inr ⟨c, p, b, mid, hphrase, hb, ih hlinks ?_⟩)
      rwa [List.append_assoc]

/-- **What conclusions go on with**: another one, or the rule has ended and
the text goes on. -/
theorem read_conclusion_step {premise : Option Premise} {before : List Atom} :
    (conclusion ⟨premise, before⟩).read names last ls = .ok rules ↔
      (∃ later, between.read names last ls = .ok later ∧ rules = ⟨premise, before⟩ :: later) ∨
      ∃ (p : Phrase) (b : Atom) (rest : List Located),
        Begin (.keyword .and :: p.lexemes) ls rest ∧ p.Denotes names .output b ∧
        (conclusion ⟨premise, before ++ [b]⟩).read names last rest = .ok rules := by
  cases ls with
  | nil =>
    simp [read, close, begin_cons, eq_comm]
  | cons l tail =>
    rw [read_cons_eq_ok_iff]
    constructor
    · rintro ⟨next, finished, later, hadvance, hread, rfl⟩
      rcases advance_conclusion.mp hadvance with ⟨rfl, hbetween⟩ | ⟨hl, rfl, rfl⟩
      · exact .inl ⟨later, read_cons_eq_ok_iff.mpr ⟨next, none, later, hbetween, hread, rfl⟩, rfl⟩
      · obtain ⟨p, b, rest, hbegin, hb, hrest⟩ := read_statement.mp hread
        exact .inr ⟨p, b, rest, begin_cons.mpr ⟨l, tail, rfl, hl, hbegin⟩, hb, hrest⟩
    · rintro (⟨later, hread, rfl⟩ | ⟨p, b, rest, hbegin, hb, hread⟩)
      · obtain ⟨next, finished, later, hadvance, hnext, rfl⟩ := read_cons_eq_ok_iff.mp hread
        obtain ⟨rfl, -⟩ := advance_between.mp hadvance
        exact ⟨next, some _, later, advance_conclusion.mpr (.inl ⟨rfl, hadvance⟩), hnext, rfl⟩
      · obtain ⟨_, _, ⟨⟩, hl, hphrase⟩ := begin_cons.mp hbegin
        exact ⟨_, none, rules, advance_conclusion.mpr (.inr ⟨hl, rfl, rfl⟩),
          read_statement.mpr ⟨p, b, rest, hphrase, hb, hread⟩, rfl⟩

/-- **The rest of the conclusions is read**, and then the text goes on. -/
theorem read_conclusion {premise : Option Premise} {before : List Atom} :
    (conclusion ⟨premise, before⟩).read names last ls = .ok rules ↔
      ∃ others bs rest later, Begin (Phrase.linked (others.map (Connective.and, ·))) ls rest ∧
        List.Forall₂ (Phrase.Denotes names .output) others bs ∧
        between.read names last rest = .ok later ∧ rules = ⟨premise, before ++ bs⟩ :: later := by
  constructor
  · intro hread
    induction hlength : ls.length using Nat.strongRecOn generalizing ls before with
    | _ n ih =>
      subst hlength
      rcases read_conclusion_step.mp hread with
        ⟨later, hlater, rfl⟩ | ⟨p, b, rest, hbegin, hb, hrest⟩
      · exact ⟨[], [], ls, later, begin_nil.mpr rfl, .nil, hlater, by rw [List.append_nil]⟩
      · have hless : rest.length < ls.length := by
          rw [hbegin.length, List.length_cons]
          omega
        obtain ⟨others, bs, rest', later, hothers, hbs, hlater, rfl⟩ := ih _ hless hrest rfl
        refine ⟨p :: others, b :: bs, rest', later, ?_, .cons hb hbs, hlater, ?_⟩
        · rw [List.map_cons, Phrase.linked_cons, ← List.cons_append]
          exact begin_append.mpr ⟨rest, hbegin, hothers⟩
        · rw [List.append_assoc]
          rfl
  · rintro ⟨others, bs, rest, later, hbegin, hbs, hread, rfl⟩
    induction hbs generalizing ls before with
    | nil =>
      rw [begin_nil.mp hbegin, List.append_nil]
      exact read_conclusion_step.mpr (.inl ⟨later, hread, rfl⟩)
    | @cons p b others bs hb _ ih =>
      rw [List.map_cons, Phrase.linked_cons, ← List.cons_append] at hbegin
      obtain ⟨mid, hphrase, hothers⟩ := begin_append.mp hbegin
      rw [List.append_cons]
      exact read_conclusion_step.mpr (.inr ⟨p, b, mid, hphrase, hb, ih hothers⟩)

/-! ## A text -/

/-- A sentence, cut where the state of the reader changes. -/
theorem begin_sentence {s : Sentence} {rest : List Located} :
    Begin s.lexemes ls rest ↔ ∃ l tail, ls = l :: tail ∧ l.lexeme = .keyword .if ∧
      ∃ premise, Begin s.first.lexemes tail premise ∧
        ∃ conclusion, Begin (Phrase.linked s.rest ++ [.keyword .then]) premise conclusion ∧
          ∃ further, Begin s.conclusion.lexemes conclusion further ∧
            Begin (Phrase.linked (s.others.map (Connective.and, ·))) further rest := by
  have hcut : s.lexemes = .keyword .if :: (s.first.lexemes ++ ((Phrase.linked s.rest ++
      [.keyword .then]) ++ (s.conclusion.lexemes ++
        Phrase.linked (s.others.map (Connective.and, ·))))) := by
    simp [Sentence.lexemes]
  simp only [hcut, begin_cons, begin_append]

/-- **A rule is read**, and then the text goes on. -/
theorem read_sentence {l : Located} {tail : List Located} (hl : l.lexeme = .keyword .if) :
    between.read names last (l :: tail) = .ok rules ↔
      ∃ (s : Sentence) (r : Rule) (rest : List Located) (later : List Rule),
        Begin s.lexemes (l :: tail) rest ∧ s.Denotes names r ∧
        between.read names last rest = .ok later ∧ rules = r :: later := by
  rw [read_of_advance (advance_between.mpr ⟨rfl, .inl ⟨hl, rfl⟩⟩), read_statement]
  constructor
  · rintro ⟨p, a, premise, hp, ha, hpremise⟩
    obtain ⟨links, as, conclusion, hlinks, has, hconclusion⟩ := read_premise.mp hpremise
    obtain ⟨q, b, further, hq, hb, hfurther⟩ := read_statement.mp hconclusion
    obtain ⟨others, bs, rest, later, hothers, hbs, hlater, rfl⟩ := read_conclusion.mp hfurther
    exact ⟨⟨p, links, q, others⟩, _, rest, later,
      begin_sentence.mpr
        ⟨l, tail, rfl, hl, premise, hp, conclusion, hlinks, further, hq, hothers⟩,
      Sentence.denotes_iff.mpr ⟨a, as, b, bs, rfl, ha, has, hb, hbs⟩, hlater, rfl⟩
  · rintro ⟨s, r, rest, later, hbegin, hdenotes, hlater, rfl⟩
    obtain ⟨a, as, b, bs, rfl, ha, has, hb, hbs⟩ := Sentence.denotes_iff.mp hdenotes
    obtain ⟨_, _, ⟨⟩, -, premise, hp, conclusion, hlinks, further, hq, hothers⟩ :=
      begin_sentence.mp hbegin
    refine ⟨s.first, a, premise, hp, ha, read_premise.mpr
      ⟨s.rest, as, conclusion, hlinks, has,
        read_statement.mpr ⟨s.conclusion, b, further, hq, hb, ?_⟩⟩⟩
    exact read_conclusion.mpr ⟨s.others, bs, rest, later, hothers, hbs, hlater, rfl⟩

/-- **A text is read**: its lexemes are those of some passages, and the
rules are what the sentences among these denote. -/
theorem read_between :
    between.read names last ls = .ok rules ↔
      ∃ ps, ls.map Located.lexeme = Passage.spelled ps ∧
        List.Forall₂ (Sentence.Denotes names) (Passage.sentences ps) rules := by
  constructor
  · intro hread
    induction hlength : ls.length using Nat.strongRecOn generalizing ls rules with
    | _ n ih =>
      subst hlength
      cases ls with
      | nil =>
        cases hread
        exact ⟨[], rfl, .nil⟩
      | cons l tail =>
        obtain ⟨next, finished, later, hadvance, hnext, rfl⟩ := read_cons_eq_ok_iff.mp hread
        obtain ⟨rfl, ⟨hl, -⟩ | ⟨hl, rfl⟩⟩ := advance_between.mp hadvance
        · obtain ⟨s, r, rest, later, hbegin, hdenotes, hlater, hrules⟩ :=
            (read_sentence hl).mp hread
          have hless : rest.length < (l :: tail).length := by
            rw [hbegin.length, Sentence.lexemes, List.length_append, List.length_cons]
            omega
          obtain ⟨ps, hspelled, hdenote⟩ := ih _ hless hlater rfl
          refine ⟨.rule s :: ps, ?_, hrules ▸ .cons hdenotes hdenote⟩
          exact begin_self.mp (begin_append.mpr ⟨rest, hbegin, begin_self.mpr hspelled⟩)
        · obtain ⟨ps, hspelled, hdenote⟩ := ih _ (Nat.lt_succ_self _) hnext rfl
          rcases hl with hl | hl
          · exact ⟨.closing :: ps, by rw [List.map_cons, hl, hspelled]; rfl, hdenote⟩
          · exact ⟨.semicolon :: ps, by rw [List.map_cons, hl, hspelled]; rfl, hdenote⟩
  · rintro ⟨ps, hspelled, hdenote⟩
    induction ps generalizing ls rules with
    | nil =>
      rw [List.map_eq_nil_iff.mp hspelled, List.forall₂_nil_left_iff.mp hdenote]
      rfl
    | cons p ps ih =>
      cases p with
      | closing =>
        obtain ⟨l, tail, rfl, hl, htail⟩ := List.map_eq_cons_iff.mp hspelled
        exact (read_of_advance (advance_between.mpr ⟨rfl, .inr ⟨.inl hl, rfl⟩⟩)).mpr
          (ih htail hdenote)
      | semicolon =>
        obtain ⟨l, tail, rfl, hl, htail⟩ := List.map_eq_cons_iff.mp hspelled
        exact (read_of_advance (advance_between.mpr ⟨rfl, .inr ⟨.inr hl, rfl⟩⟩)).mpr
          (ih htail hdenote)
      | rule s =>
        obtain ⟨rest, hbegin, hrest⟩ := begin_append.mp (begin_self.mpr hspelled)
        obtain ⟨l, tail, rfl, hl, -⟩ := begin_sentence.mp hbegin
        obtain ⟨r, later, hdenotes, hlater, rfl⟩ := List.forall₂_cons_left_iff.mp hdenote
        exact (read_sentence hl).mpr
          ⟨s, r, rest, later, hbegin, hdenotes, ih (begin_self.mp hrest) hlater, rfl⟩

end State

end Reader

/-- The rules of a text that can be scanned are read from its lexemes. -/
theorem readRules_of_scan {source : String} {ls : List Located} (hscan : scan source = .ok ls) :
    readRules names source = readLexemes names ls := by
  rw [readRules, hscan]
  rfl

/-- **The reader accepts exactly the grammar.** A text that can be scanned
is accepted if and only if its lexemes are those of some passages and the
names in all their sentences resolve. The passages are then the only ones,
and the rules found are exactly those that the sentences denote, in their
order; each of them is complete. -/
theorem readRules_iff_passages (names : Resolver) {source : String} {ls : List Located}
    (hscan : scan source = .ok ls) :
    ((∃ rules, readRules names source = .ok rules) ↔
      ∃ ps, ls.map Located.lexeme = Passage.spelled ps ∧
        ∀ s ∈ Passage.sentences ps, s.Resolves names) ∧
    (∀ ps, ls.map Located.lexeme = Passage.spelled ps →
      (∀ qs, ls.map Located.lexeme = Passage.spelled qs → qs = ps) ∧
      ∀ rules, readRules names source = .ok rules ↔
        List.Forall₂ (Sentence.Denotes names) (Passage.sentences ps) rules) ∧
    ∀ rules, readRules names source = .ok rules → ∀ r ∈ rules, r.IsComplete := by
  have hread (rules : List Rule) : readRules names source = .ok rules ↔
      ∃ ps, ls.map Located.lexeme = Passage.spelled ps ∧
        List.Forall₂ (Sentence.Denotes names) (Passage.sentences ps) rules := by
    rw [readRules_of_scan hscan]
    exact Reader.State.read_between
  have hunique {ps qs : List Passage} (hps : ls.map Located.lexeme = Passage.spelled ps)
      (hqs : ls.map Located.lexeme = Passage.spelled qs) : qs = ps :=
    Passage.spelled_injective (hqs.symm.trans hps)
  refine ⟨?_, fun ps hps => ⟨fun qs hqs => hunique hps hqs, fun rules => ?_⟩, ?_⟩
  · simp only [hread, ← Sentence.exists_denotes_iff, ← List.exists_forall₂_iff]
    exact ⟨fun ⟨rules, ps, hps, h⟩ => ⟨ps, hps, rules, h⟩,
      fun ⟨ps, hps, rules, h⟩ => ⟨rules, ps, hps, h⟩⟩
  · rw [hread]
    constructor
    · rintro ⟨qs, hqs, hdenote⟩
      rwa [hunique hps hqs] at hdenote
    · exact fun hdenote => ⟨ps, hps, hdenote⟩
  · intro rules hrules r hr
    obtain ⟨ps, -, hdenote⟩ := (hread rules).mp hrules
    have hdenoted : List.Forall₂ (fun r s => s.Denotes names r) rules (Passage.sentences ps) :=
      hdenote.flip
    obtain ⟨s, hs⟩ := List.exists_forall₂_iff.mp ⟨_, hdenoted⟩ r hr
    exact hs.isComplete

/-! ## A text of two rules -/

/-- Names for one input with two terms and one output with one. -/
def Names.heating : Names :=
  ((Names.empty.addVariable .input "room" 0).addTerm .input 0 "cold" 0).addTerm .input 0 "hot" 1
    |>.addVariable .output "heating" 0 |>.addTerm .output 0 "strong" 0

/-- Two rules with nothing in between, and a semicolon. -/
def Passage.heating : List Passage :=
  [.rule ⟨⟨"room", false, "cold"⟩, [(.or, ⟨"room", true, "hot"⟩)],
      ⟨"heating", false, "strong"⟩, [⟨"heating", false, "strong"⟩]⟩,
    .rule ⟨⟨"room", false, "hot"⟩, [], ⟨"heating", true, "strong"⟩, []⟩,
    .semicolon]

/-- The text in which these passages are written. -/
def heatingText : String :=
  "IF room IS cold or room IS NOT hot THEN heating IS strong AND heating IS strong\n" ++
  "if room is hot then heating is not strong;"

/-- **A text of two rules** has one reading, and its rules are these two. -/
theorem readRules_heating :
    ∃ ls, scan heatingText = .ok ls ∧ ls.map Located.lexeme = Passage.spelled Passage.heating ∧
      (∀ ps, ls.map Located.lexeme = Passage.spelled ps → ps = Passage.heating) ∧
      readRules Names.heating.resolver heatingText =
        .ok [⟨some ⟨⟨0, .is 0⟩, [(.or, ⟨0, .isNot 1⟩)]⟩, [⟨0, .is 0⟩, ⟨0, .is 0⟩]⟩,
          ⟨some ⟨⟨0, .is 1⟩, []⟩, [⟨0, .isNot 0⟩]⟩] := by
  have hlexemes : (scan heatingText).toOption.map (·.map Located.lexeme)
      = some (Passage.spelled Passage.heating) := by decide +kernel
  obtain ⟨ls, hls, hspelled⟩ := Option.map_eq_some_iff.mp hlexemes
  have hscan : scan heatingText = .ok ls := Except.eq_ok_of_toOption hls
  obtain ⟨-, hpassages, -⟩ := readRules_iff_passages Names.heating.resolver hscan
  obtain ⟨hunique, hrules⟩ := hpassages Passage.heating hspelled
  refine ⟨_, hscan, hspelled, hunique, (hrules _).mpr ?_⟩
  refine .cons ?_ (.cons ?_ .nil)
  · exact Sentence.denotes_iff.mpr ⟨_, _, _, _, rfl, ⟨rfl, rfl, rfl⟩,
      .cons ⟨rfl, rfl, rfl, rfl⟩ .nil, ⟨rfl, rfl, rfl⟩, .cons ⟨rfl, rfl, rfl⟩ .nil⟩
  · exact Sentence.denotes_iff.mpr ⟨_, _, _, _, rfl, ⟨rfl, rfl, rfl⟩, .nil, ⟨rfl, rfl, rfl⟩, .nil⟩

end FuzzyInference
