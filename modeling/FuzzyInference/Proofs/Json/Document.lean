import FuzzyInference.Json.Parse
import FuzzyInference.Proofs.Json.Token

/-!
# Documents that read back

The tokens of a document say all there is to say about it: reading them gives
the document (`Json.foldlM_step_tokens`), whatever it is that they are found in.
So a document that is written over several lines is read back if its text is
cut into its tokens (`Json.lex_prettyAt`). This is so for all documents whose
numbers can be read and whose texts are those of strings, the **legible** ones
(`Json.parse?_pretty`).
-/

namespace FuzzyInference

namespace Json

/-- **A legible document**: its numbers can be read, and its texts and its keys
are strings. -/
inductive Legible : Json → Prop
  /-- The null. -/
  | null : Legible .null
  /-- A truth value. -/
  | bool (b : Bool) : Legible (.bool b)
  /-- A number that can be read. -/
  | number {n : Number} (hn : n.Legible) : Legible (.number n)
  /-- A string. -/
  | text (s : String) : Legible (.ofString s)
  /-- An array of legible elements. -/
  | array {vs : List Json} (hvs : ∀ v ∈ vs, Legible v) : Legible (.array vs)
  /-- An object of legible members. -/
  | object {ms : List (Text × Json)} (hkeys : ∀ m ∈ ms, ∃ s, m.1 = .ofString s)
    (hms : ∀ m ∈ ms, Legible m.2) : Legible (.object ms)

/-! ## The tokens of a document -/

mutual

/-- **The tokens of a document.** -/
def tokens : Json → List Token
  | .null => [.null]
  | .bool b => [.bool b]
  | .number n => [.number n]
  | .text t => [.text t]
  | .array vs => .openArray :: (elementTokens vs ++ [.closeArray])
  | .object ms => .openObject :: (memberTokens ms ++ [.closeObject])

/-- The tokens of the elements of an array. -/
def elementTokens : List Json → List Token
  | [] => []
  | [v] => tokens v
  | v :: vs => tokens v ++ .comma :: elementTokens vs

/-- The tokens of the members of an object. -/
def memberTokens : List (Text × Json) → List Token
  | [] => []
  | [(key, v)] => .text key :: .colon :: tokens v
  | (key, v) :: ms => .text key :: .colon :: tokens v ++ .comma :: memberTokens ms

end

/-- A document does not begin with the end of an array. -/
theorem exists_tokens_eq_cons (j : Json) : ∃ t ts, j.tokens = t :: ts ∧ t ≠ .closeArray := by
  cases j with
  | null => exact ⟨_, _, rfl, by decide⟩
  | bool b => exact ⟨_, _, rfl, by simp⟩
  | number n => exact ⟨_, _, rfl, by simp⟩
  | text t => exact ⟨_, _, rfl, by simp⟩
  | array vs => exact ⟨_, _, rfl, by decide⟩
  | object ms => exact ⟨_, _, rfl, by decide⟩

theorem elementTokens_cons (v w : Json) (vs : List Json) :
    elementTokens (v :: w :: vs) = v.tokens ++ .comma :: elementTokens (w :: vs) := rfl

theorem memberTokens_cons (m n : Text × Json) (ms : List (Text × Json)) :
    memberTokens (m :: n :: ms)
      = .text m.1 :: .colon :: m.2.tokens ++ .comma :: memberTokens (n :: ms) := rfl

/-! ## Reading the tokens -/

namespace Reading

/-- **Past some tokens.** -/
def run (r : Reading) (ts : List Token) : Option Reading := ts.foldlM step r

theorem run_cons (r : Reading) (t : Token) (ts : List Token) :
    r.run (t :: ts) = (r.step t).bind (·.run ts) := List.foldlM_cons

theorem run_append (r : Reading) (ts us : List Token) :
    r.run (ts ++ us) = (r.run ts).bind (·.run us) := List.foldlM_append

end Reading

/-- **A document that its tokens give**, within any arrays and objects. -/
def Rereads (v : Json) : Prop :=
  ∀ frames, (Reading.value frames).run v.tokens = some (.complete v frames)

section Run

variable {frames : List Frame}

theorem Rereads.run_append {v : Json} (hv : v.Rereads) (ts : List Token) :
    (Reading.value frames).run (v.tokens ++ ts) = (Reading.complete v frames).run ts := by
  rw [Reading.run_append, hv, Option.bind_some]

/-- The first element of an array is read like any other. -/
theorem run_firstElement (v : Json) (vs : List Json) (ts : List Token) :
    (Reading.firstElement frames).run (elementTokens (v :: vs) ++ ts)
      = (Reading.value (.array [] :: frames)).run (elementTokens (v :: vs) ++ ts) := by
  obtain ⟨t, more, hmore, ht⟩ : ∃ t more, elementTokens (v :: vs) = t :: more ∧ t ≠ .closeArray := by
    obtain ⟨t, more, hv, ht⟩ := exists_tokens_eq_cons v
    cases vs with
    | nil => exact ⟨t, more, hv, ht⟩
    | cons w vs => exact ⟨t, _, by rw [elementTokens_cons, hv]; rfl, ht⟩
  have hstep : Reading.step (.firstElement frames) t
      = Reading.step (.value (.array [] :: frames)) t := by
    cases t <;> first | rfl | exact absurd rfl ht
  rw [hmore, List.cons_append, Reading.run_cons, Reading.run_cons, hstep]

/-- The first key of an object is read like any other. -/
theorem run_firstKey (m : Text × Json) (ms : List (Text × Json)) (ts : List Token) :
    (Reading.firstKey frames).run (memberTokens (m :: ms) ++ ts)
      = (Reading.key [] frames).run (memberTokens (m :: ms) ++ ts) := by
  cases ms <;> rfl

/-- **The elements of an array**, up to its end. -/
theorem run_elementTokens {v : Json} {vs : List Json} (h : ∀ w ∈ v :: vs, w.Rereads)
    (before : List Json) :
    (Reading.value (.array before :: frames)).run (elementTokens (v :: vs) ++ [.closeArray])
      = some (.complete (.array (before.reverse ++ v :: vs)) frames) := by
  induction vs generalizing v before with
  | nil =>
    show (Reading.value _).run (v.tokens ++ _) = _
    rw [(h v (List.mem_singleton.mpr rfl)).run_append]
    show some (Reading.complete (.array (v :: before).reverse) frames) = _
    rw [List.reverse_cons]
  | cons w vs ih =>
    obtain ⟨hv, hvs⟩ := List.forall_mem_cons.mp h
    rw [elementTokens_cons, List.append_assoc, hv.run_append]
    show (Reading.value (.array (v :: before) :: frames)).run (elementTokens (w :: vs) ++ _) = _
    rw [ih hvs, List.reverse_cons, List.append_assoc]
    rfl

/-- **The members of an object**, up to its end. -/
theorem run_memberTokens {m : Text × Json} {ms : List (Text × Json)}
    (h : ∀ n ∈ m :: ms, n.2.Rereads) (before : List (Text × Json)) :
    (Reading.key before frames).run (memberTokens (m :: ms) ++ [.closeObject])
      = some (.complete (.object (before.reverse ++ m :: ms)) frames) := by
  induction ms generalizing m before with
  | nil =>
    show (Reading.value (.object before m.1 :: frames)).run (m.2.tokens ++ _) = _
    rw [(h m (List.mem_singleton.mpr rfl)).run_append]
    show some (Reading.complete (.object (m :: before).reverse) frames) = _
    rw [List.reverse_cons]
  | cons n ms ih =>
    obtain ⟨hm, hms⟩ := List.forall_mem_cons.mp h
    rw [memberTokens_cons, List.append_assoc]
    show (Reading.value (.object before m.1 :: frames)).run (m.2.tokens ++ _) = _
    rw [hm.run_append]
    show (Reading.key (m :: before) frames).run (memberTokens (n :: ms) ++ _) = _
    rw [ih hms, List.reverse_cons, List.append_assoc]
    rfl

end Run

/-- **The tokens of a document give the document.** -/
theorem Legible.rereads {j : Json} (hj : j.Legible) : j.Rereads := by
  induction hj with
  | null => exact fun frames => rfl
  | bool b => exact fun frames => rfl
  | number hn => exact fun frames => rfl
  | text s => exact fun frames => rfl
  | @array vs hvs ih =>
    intro frames
    cases vs with
    | nil => rfl
    | cons v vs =>
      show (Reading.firstElement frames).run (elementTokens (v :: vs) ++ _) = _
      rw [run_firstElement, run_elementTokens ih]
      rfl
  | @object ms hkeys hms ih =>
    intro frames
    cases ms with
    | nil => rfl
    | cons m ms =>
      show (Reading.firstKey frames).run (memberTokens (m :: ms) ++ _) = _
      rw [run_firstKey, run_memberTokens ih]
      rfl

/-! ## Cutting a text into the tokens -/

/-- **A text that is cut into some tokens**, if something else follows. -/
def Lexes (cs : List Char) (ts : List Token) : Prop :=
  ∀ {rest : List Char} {later : List Token}, Separated rest → lex rest = some later →
    lex (cs ++ rest) = some (ts ++ later)

/-- **A document that is cut into its tokens**, however far it is indented. -/
def Relexes (v : Json) : Prop := ∀ depth, Lexes (prettyAt depth v).toList v.tokens

section Lex

variable {rest : List Char} {later : List Token}

/-- A mark is followed by anything. -/
theorem lex_mark_of_lex {c : Char} {t : Token} (ht : Token.ofChar? c = some t)
    (h : lex rest = some later) : lex (c :: rest) = some (t :: later) := by
  rw [lex_mark ht, h]
  rfl

/-- A mark can follow anything. -/
theorem separated_mark {c : Char} {t : Token} (ht : Token.ofChar? c = some t) :
    Separated (c :: rest) := by
  intro d hd
  cases hd
  unfold Token.ofChar? at ht
  split at ht
  case h_7 => cases ht
  all_goals decide

theorem toList_newline (depth : Nat) :
    (newline depth).toList = '\n' :: List.replicate (2 * depth) ' ' := by
  unfold newline
  rw [String.toList_append]
  exact congrArg (List.cons '\n') String.toList_ofList

/-- A new line can follow anything. -/
theorem separated_newline (depth : Nat) : Separated ((newline depth).toList ++ rest) := by
  rw [toList_newline]
  intro c hc
  cases hc
  decide

/-- **A new line** is passed over. -/
theorem lex_newline (depth : Nat) : lex ((newline depth).toList ++ rest) = lex rest := by
  rw [toList_newline, List.cons_append, lex_blank rfl]
  induction 2 * depth with
  | zero => rfl
  | succ n ih => rw [List.replicate_succ, List.cons_append, lex_blank rfl, ih]

/-- **The elements of an array**, each on a line of its own. -/
theorem lexes_prettyElements {v : Json} {vs : List Json} (h : ∀ w ∈ v :: vs, w.Relexes)
    (depth : Nat) : Lexes (prettyElements depth (v :: vs)).toList (elementTokens (v :: vs)) := by
  induction vs generalizing v with
  | nil =>
    intro rest later hrest hlater
    show lex ((newline depth ++ prettyAt depth v).toList ++ rest) = some (v.tokens ++ later)
    rw [String.toList_append, List.append_assoc, lex_newline]
    exact h v (List.mem_singleton.mpr rfl) depth hrest hlater
  | cons w vs ih =>
    intro rest later hrest hlater
    obtain ⟨hv, hvs⟩ := List.forall_mem_cons.mp h
    show lex ((newline depth ++ prettyAt depth v ++ "," ++ prettyElements depth (w :: vs)).toList
      ++ rest) = some (v.tokens ++ .comma :: elementTokens (w :: vs) ++ later)
    simp only [String.toList_append, List.append_assoc]
    rw [lex_newline]
    exact hv depth (separated_mark rfl) (lex_mark_of_lex rfl (ih hvs hrest hlater))

/-- A key with its colon. -/
theorem lex_key (s : String) (h : lex rest = some later) :
    lex ((Text.ofString s).quoted.toList ++ (": ".toList ++ rest))
      = some (.text (.ofString s) :: .colon :: later) := by
  rw [lex_text]
  show (lex (':' :: ' ' :: rest)).map _ = _
  rw [lex_mark_of_lex rfl ((lex_blank rfl).trans h)]
  rfl

/-- **The members of an object**, each on a line of its own. -/
theorem lexes_prettyMembers {m : Text × Json} {ms : List (Text × Json)}
    (hkeys : ∀ n ∈ m :: ms, ∃ s, n.1 = .ofString s) (h : ∀ n ∈ m :: ms, n.2.Relexes)
    (depth : Nat) : Lexes (prettyMembers depth (m :: ms)).toList (memberTokens (m :: ms)) := by
  induction ms generalizing m with
  | nil =>
    intro rest later hrest hlater
    obtain ⟨key, v⟩ := m
    obtain ⟨s, hs⟩ := hkeys _ (List.mem_singleton.mpr rfl)
    cases hs
    show lex ((newline depth ++ (Text.ofString s).quoted ++ ": " ++ prettyAt depth v).toList
      ++ rest) = some (.text (.ofString s) :: .colon :: v.tokens ++ later)
    simp only [String.toList_append, List.append_assoc]
    rw [lex_newline]
    exact lex_key s (h _ (List.mem_singleton.mpr rfl) depth hrest hlater)
  | cons n ms ih =>
    intro rest later hrest hlater
    obtain ⟨key, v⟩ := m
    obtain ⟨hv, hms⟩ := List.forall_mem_cons.mp h
    obtain ⟨⟨s, hs⟩, hmore⟩ := List.forall_mem_cons.mp hkeys
    cases hs
    show lex ((newline depth ++ (Text.ofString s).quoted ++ ": " ++ prettyAt depth v ++ "," ++
      prettyMembers depth (n :: ms)).toList ++ rest) = some (.text (.ofString s) :: .colon ::
        v.tokens ++ .comma :: memberTokens (n :: ms) ++ later)
    simp only [String.toList_append, List.append_assoc]
    rw [lex_newline]
    exact lex_key s (hv depth (separated_mark rfl) (lex_mark_of_lex rfl (ih hmore hms hrest hlater)))

end Lex

/-- **A legible document is cut into its tokens.** -/
theorem Legible.relexes {j : Json} (hj : j.Legible) : j.Relexes := by
  induction hj with
  | null =>
    intro depth rest later hrest hlater
    have hword : Token.ofWord? "null".toList = some .null := rfl
    exact (lex_word hword hrest).trans (by rw [hlater]; rfl)
  | bool b =>
    intro depth rest later hrest hlater
    have hword : Token.ofWord? (if b then "true" else "false").toList = some (.bool b) := by
      cases b <;> rfl
    exact (lex_word hword hrest).trans (by rw [hlater]; rfl)
  | number hn =>
    intro depth rest later hrest hlater
    exact (lex_number hn hrest).trans (by rw [hlater]; rfl)
  | text s =>
    intro depth rest later hrest hlater
    exact (lex_text s).trans (by rw [hlater]; rfl)
  | @array vs hvs ih =>
    intro depth rest later hrest hlater
    have hend := lex_mark_of_lex (c := ']') rfl hlater
    cases vs with
    | nil =>
      show lex ("[]".toList ++ rest) = _
      exact lex_mark_of_lex (c := '[') rfl hend
    | cons v vs =>
      show lex (("[" ++ prettyElements (depth + 1) (v :: vs) ++ newline depth ++ "]").toList
        ++ rest) = some (.openArray :: (elementTokens (v :: vs) ++ [.closeArray]) ++ later)
      simp only [String.toList_append, List.append_assoc, List.cons_append]
      refine lex_mark_of_lex rfl (lexes_prettyElements ih _ (separated_newline _) ?_)
      rw [lex_newline]
      exact hend
  | @object ms hkeys hms ih =>
    intro depth rest later hrest hlater
    have hend := lex_mark_of_lex (c := '}') rfl hlater
    cases ms with
    | nil =>
      show lex ("\x7b\x7d".toList ++ rest) = _
      exact lex_mark_of_lex (c := '{') rfl hend
    | cons m ms =>
      show lex (("\x7b" ++ prettyMembers (depth + 1) (m :: ms) ++ newline depth ++ "\x7d").toList
        ++ rest) = some (.openObject :: (memberTokens (m :: ms) ++ [.closeObject]) ++ later)
      simp only [String.toList_append, List.append_assoc, List.cons_append]
      refine lex_mark_of_lex rfl (lexes_prettyMembers hkeys ih _ (separated_newline _) ?_)
      rw [lex_newline]
      exact hend

/-- **A legible document that is written is read back.** -/
theorem parse?_pretty {j : Json} (hj : j.Legible) : parse? j.pretty = some j := by
  have hlex : lex (j.pretty.toList ++ []) = some (j.tokens ++ []) :=
    hj.relexes 0 separated_nil (by rw [lex])
  rw [List.append_nil, List.append_nil] at hlex
  have hrun : j.tokens.foldlM Reading.step (.value []) = some (.complete j []) := hj.rereads []
  unfold parse? ofTokens?
  rw [hlex, Option.bind_eq_bind, Option.bind_some, hrun]
  rfl

end Json

end FuzzyInference
