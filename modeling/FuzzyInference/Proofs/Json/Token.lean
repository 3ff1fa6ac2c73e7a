import Mathlib.Data.List.TakeWhile
import FuzzyInference.Json.Print
import FuzzyInference.Json.Token
import FuzzyInference.Proofs.Decimal
import FuzzyInference.Proofs.Sequence

/-!
# Tokens that read back

Whatever is written of one token is cut off again as this token, and what
follows is left as it was. There is a lemma for each kind of token: a mark
(`Json.lex_mark`), a word (`Json.lex_word`), a number (`Json.lex_number`) and a
text in quotes (`Json.lex_text`).

A number and a word go on as long as there are characters that could belong to
them, so something else has to follow (`Json.Separated`). A text knows its end
by the closing quote. Inside, a character stands for itself, or is escaped, by
a letter or by its code; either way it comes back as the same character, since
no control character is half of a larger one (`Json.Writes.pieces_cons`).
-/

namespace FuzzyInference

namespace Json

/-! ## Numbers -/

/-- Digits are read as far as they go. -/
theorem spanDigits_append (ds : List Digit) {rest : List Char}
    (hrest : ∀ c ∈ rest.head?, Digit.ofChar? c = none) :
    spanDigits (ds.map Digit.char ++ rest) = (ds, rest) := by
  induction ds with
  | nil =>
    cases rest with
    | nil => rfl
    | cons c cs =>
      show spanDigits (c :: cs) = _
      rw [spanDigits, hrest c rfl]
  | cons d ds ih =>
    show spanDigits (d.char :: (ds.map Digit.char ++ rest)) = _
    rw [spanDigits, Digit.ofChar?_char, ih]

namespace Number

/-- **A number that can be read**: a numeral stands before the point, and the
exponent has a digit. -/
structure Legible (n : Number) : Prop where
  /-- What stands before the point is a numeral. -/
  whole : Digit.IsNumeral n.whole
  /-- There is a digit in the exponent. -/
  exponent : ∀ e, n.exponent = some e → e.digits ≠ []

/-- The characters of an exponent. -/
def exponentChars : Option Exponent → List Char
  | none => []
  | some e => 'e' :: (if e.negative then '-' else '+') :: e.digits.map Digit.char

/-- The characters of a fraction. -/
def fractionChars (ds : List Digit) : List Char :=
  if ds = [] then [] else '.' :: ds.map Digit.char

/-- **The characters of a number.** -/
theorem toList_text (n : Number) :
    n.text.toList = (if n.negative then ['-'] else []) ++ (n.whole.map Digit.char ++
      (fractionChars n.fraction ++ exponentChars n.exponent)) := by
  have hsign (b : Bool) : (if b then "-" else "").toList = if b then ['-'] else [] := by
    cases b <;> rfl
  have hfraction (ds : List Digit) :
      (if ds.isEmpty then "" else "." ++ Digit.text ds).toList = fractionChars ds := by
    cases ds with
    | nil => rfl
    | cons d ds => simp [Digit.text, fractionChars]
  have hexponent (e : Exponent) :
      ("e" ++ e.sign ++ Digit.text e.digits).toList = exponentChars (some e) := by
    have hmark : e.sign.toList = [if e.negative then '-' else '+'] := by
      unfold Exponent.sign
      cases e.negative <;> rfl
    simp [Digit.text, exponentChars, hmark]
  unfold text
  rw [String.toList_append, String.toList_append, String.toList_append, hsign, hfraction,
    Digit.text, String.toList_ofList, List.append_assoc, List.append_assoc]
  cases n.exponent with
  | none => rfl
  | some e => rw [hexponent]

theorem exponent?_exponentChars {o : Option Exponent} (h : ∀ e, o = some e → e.digits ≠ []) :
    exponent? (exponentChars o) = some o := by
  cases o with
  | none => rfl
  | some e =>
    have hdigits (negative : Bool) :
        exponentDigits? negative (e.digits.map Digit.char) = some ⟨negative, e.digits⟩ := by
      have hspan : spanDigits (e.digits.map Digit.char ++ []) = (e.digits, []) :=
        spanDigits_append e.digits fun c hc => by cases hc
      rw [List.append_nil] at hspan
      obtain ⟨d, ds, hcons⟩ := List.exists_cons_of_ne_nil (h e rfl)
      rw [exponentDigits?, hspan, hcons]
    obtain ⟨negative, digits⟩ := e
    cases negative with
    | true => exact congrArg (Option.map some) (hdigits true)
    | false => exact congrArg (Option.map some) (hdigits false)

theorem fraction?_point {cs rest : List Char} {d : Digit} {ds : List Digit}
    (h : spanDigits cs = (d :: ds, rest)) : fraction? ('.' :: cs) = some (d :: ds, rest) := by
  unfold fraction?
  simp only [h]

theorem fraction?_append (ds : List Digit) {rest : List Char}
    (hdigit : ∀ c ∈ rest.head?, Digit.ofChar? c = none) (hpoint : ∀ c ∈ rest.head?, c ≠ '.') :
    fraction? (fractionChars ds ++ rest) = some (ds, rest) := by
  cases ds with
  | nil =>
    show fraction? rest = _
    unfold fraction?
    split
    · exact absurd rfl (hpoint '.' rfl)
    · rfl
  | cons d ds => exact fraction?_point (spanDigits_append _ hdigit)

/-- **A number that can be read** is read as it is written. -/
theorem ofChars?_text {n : Number} (h : n.Legible) : ofChars? n.text.toList = some n := by
  obtain ⟨negative, whole, fraction, exponent⟩ := n
  obtain ⟨⟨hne, hzero⟩, hexponent⟩ := h
  obtain ⟨d, ds, rfl⟩ := List.exists_cons_of_ne_nil hne
  have hend : ∀ c ∈ (exponentChars exponent).head?, Digit.ofChar? c = none ∧ c ≠ '.' := by
    cases exponent with
    | none => exact fun c hc => by cases hc
    | some e => exact fun c hc => Option.some.inj hc ▸ by decide
  have hpoint : ∀ c ∈ (fractionChars fraction ++ exponentChars exponent).head?,
      Digit.ofChar? c = none := by
    cases fraction with
    | nil => exact fun c hc => (hend c hc).1
    | cons d ds => exact fun c hc => Option.some.inj hc ▸ by decide
  have hspan := spanDigits_append (d :: ds) hpoint
  have hunsigned : unsigned? negative ((d :: ds).map Digit.char ++
      (fractionChars fraction ++ exponentChars exponent))
        = some ⟨negative, d :: ds, fraction, exponent⟩ := by
    unfold unsigned?
    rw [hspan]
    split
    · next heq => cases heq
    · next heq => exact (hzero (congrArg Prod.fst heq)).elim
    · next heq =>
      cases heq
      rw [fraction?_append _ (fun c hc => (hend c hc).1) fun c hc => (hend c hc).2]
      show (exponent? (exponentChars exponent)).bind _ = _
      rw [exponent?_exponentChars hexponent]
      rfl
  rw [toList_text]
  cases negative with
  | true => exact hunsigned
  | false =>
    show ofChars? (d.char :: (ds.map Digit.char ++ _)) = _
    unfold ofChars?
    split
    · next heq => exact absurd (List.cons.inj heq).1 (Digit.char_ne_minus d)
    · exact hunsigned

/-- A number begins with a digit or with a minus sign. -/
theorem exists_text_eq_cons {n : Number} (h : n.Legible) :
    ∃ c cs, n.text.toList = c :: cs ∧ (c.isDigit = true ∨ c = '-') := by
  obtain ⟨d, ds, hwhole⟩ := List.exists_cons_of_ne_nil h.whole.ne_nil
  rw [toList_text, hwhole]
  cases n.negative with
  | true => exact ⟨_, _, rfl, .inr rfl⟩
  | false => exact ⟨_, _, rfl, .inl (Digit.isDigit_char d)⟩

/-- The characters of a number are those a number can be written with. -/
theorem isNumeric_of_mem_text {n : Number} {c : Char} (hc : c ∈ n.text.toList) :
    isNumeric c = true := by
  have hdigits {ds : List Digit} (hc : c ∈ ds.map Digit.char) : isNumeric c = true := by
    obtain ⟨d, -, rfl⟩ := List.mem_map.mp hc
    simp [isNumeric, Digit.isDigit_char]
  rw [toList_text] at hc
  rcases List.mem_append.mp hc with hc | hc
  · split at hc
    · cases List.mem_singleton.mp hc
      rfl
    · cases hc
  rcases List.mem_append.mp hc with hc | hc
  · exact hdigits hc
  rcases List.mem_append.mp hc with hc | hc
  · unfold fractionChars at hc
    split at hc
    · cases hc
    · rcases List.mem_cons.mp hc with rfl | hc
      · rfl
      · exact hdigits hc
  · cases hexponent : n.exponent with
    | none =>
      rw [hexponent] at hc
      cases hc
    | some e =>
      rw [hexponent] at hc
      rcases List.mem_cons.mp hc with rfl | hc
      · rfl
      rcases List.mem_cons.mp hc with rfl | hc
      · split <;> rfl
      · exact hdigits hc

end Number

/-! ## Quoted texts -/

/-- **What writes a character** in a quoted text: the character, or its code if
it is a control character. -/
inductive Writes (c : Char) : Written → Prop
  /-- The character. -/
  | char : Writes c (.char c)
  /-- Its code. -/
  | unit (hc : c < ' ') : Writes c (.unit c.toNat)

/-- A character is the piece of what writes it. -/
theorem Writes.pieces_cons {c : Char} {w : Written} (h : Writes c w) (ws : List Written) :
    pieces (w :: ws) = .char c :: pieces ws := by
  cases h with
  | char => rw [pieces]
  | unit hc =>
    have hlt : c.toNat < 32 := hc
    have hlone : lonePiece c.toNat = .char c := by
      rw [lonePiece, if_neg (by omega), Char.ofNat_toNat]
    match ws with
    | [] | .char _ :: _ => simp [pieces, hlone]
    | .unit m :: ws => rw [pieces, if_neg (by omega), hlone]

theorem hexDigit?_hexChar (n : Nat) : hexDigit? (hexChar n) = some (n % 16) := by
  have hdigit : ∀ k < 16, hexDigit? (Nat.digitChar k) = some k := by decide
  exact hdigit _ (Nat.mod_lt n (by decide))

theorem hexUnit?_hexChar {n : Nat} (hn : n < 65536) :
    hexUnit? (hexChar (n / 4096)) (hexChar (n / 256)) (hexChar (n / 16)) (hexChar n) = some n := by
  simp only [hexUnit?, hexDigit?_hexChar]
  show some _ = some _
  congr 1
  omega

/-- **An escaped character** is read as what writes it. -/
theorem quoted?_escapeChar (c : Char) (cs : List Char) :
    ∃ w, Writes c w ∧ quoted? ((escapeChar c).toList ++ cs)
      = (quoted? cs).map fun (later, rest) => (w :: later, rest) := by
  have hplain {d : Char} (hd : d ≠ 'u') (hunescape : unescape? d = some c) :
      quoted? ('\\' :: d :: cs) = (quoted? cs).map fun (later, rest) => (.char c :: later, rest) := by
    rw [quoted?, hunescape]
    · cases quoted? cs <;> rfl
    · intro a b e f cs' h
      exact absurd h (by simp [hd])
  unfold escapeChar
  split_ifs with hquote hbackslash hback hfeed hline hreturn htab hcontrol
  iterate 7
    · subst c
      exact ⟨_, .char, hplain (by decide) rfl⟩
  · refine ⟨_, .unit hcontrol, ?_⟩
    have hlt : c.toNat < 32 := hcontrol
    have hchars : (escapeUnit c.toNat).toList = '\\' :: 'u' :: hexChar (c.toNat / 4096) ::
        hexChar (c.toNat / 256) :: hexChar (c.toNat / 16) :: [hexChar c.toNat] := by
      simp [escapeUnit]
    rw [hchars]
    simp only [List.cons_append, List.nil_append]
    rw [quoted?, hexUnit?_hexChar (by omega)]
    cases quoted? cs <;> rfl
  · refine ⟨_, .char, ?_⟩
    have hchars : c.toString.toList = [c] := by simp
    rw [hchars, List.singleton_append, quoted?]
    · rw [if_neg hcontrol]
      cases quoted? cs <;> rfl
    · exact hquote
    · exact fun a b d e cs' h _ => hbackslash h
    · exact fun d cs' h _ => hbackslash h

/-- **A text that is written in quotes** is read as far as its closing
quote. -/
theorem exists_quoted? (l rest : List Char) :
    ∃ ws, quoted? (l.flatMap (fun c => (escapeChar c).toList) ++ '"' :: rest) = some (ws, rest) ∧
      pieces ws = l.map .char := by
  induction l with
  | nil => exact ⟨[], by rw [List.flatMap_nil, List.nil_append, quoted?], rfl⟩
  | cons c l ih =>
    obtain ⟨ws, hws, hpieces⟩ := ih
    obtain ⟨w, hw, hc⟩ := quoted?_escapeChar c
      (l.flatMap (fun c => (escapeChar c).toList) ++ '"' :: rest)
    refine ⟨w :: ws, ?_, ?_⟩
    · rw [List.flatMap_cons, List.append_assoc, hc, hws]
      rfl
    · rw [hw.pieces_cons, hpieces]
      rfl

/-- The characters of a text in quotes. -/
theorem Text.toList_quoted (s : String) :
    (Text.ofString s).quoted.toList
      = '"' :: (s.toList.flatMap (fun c => (escapeChar c).toList) ++ ['"']) := by
  unfold quoted ofString
  rw [String.toList_append, String.toList_append, String.toList_join, List.map_map,
    List.flatMap_map]
  rfl

/-! ## Tokens in front of others -/

/-- **What ends a number or a word**: another character, or nothing. -/
def Separated (rest : List Char) : Prop :=
  ∀ c ∈ rest.head?, isNumeric c = false ∧ c.isAlpha = false

theorem separated_nil : Separated [] := fun c hc => by cases hc

variable {rest : List Char}

/-- A blank is passed over. -/
theorem lex_blank {c : Char} (hc : isBlank c = true) : lex (c :: rest) = lex rest := by
  rw [lex, if_pos hc]

/-- **A mark** is a token by itself. -/
theorem lex_mark {c : Char} {t : Token} (h : Token.ofChar? c = some t) :
    lex (c :: rest) = (lex rest).map (t :: ·) := by
  have hkind : ¬ isBlank c = true ∧ c ≠ '"' ∧ ¬ (c.isDigit = true ∨ c = '-') ∧
      ¬ c.isAlpha = true := by
    unfold Token.ofChar? at h
    split at h
    case h_7 => cases h
    all_goals decide
  obtain ⟨hblank, hquote, hnumber, halpha⟩ := hkind
  rw [lex, if_neg hblank, if_neg hquote, if_neg hnumber, if_neg halpha, h]
  cases lex rest <;> rfl

/-- **A word** in front of something else. -/
theorem lex_word {word : List Char} {t : Token} (h : Token.ofWord? word = some t)
    (hrest : Separated rest) : lex (word ++ rest) = (lex rest).map (t :: ·) := by
  obtain ⟨c, cs, rfl, hblank, hquote, hnumber, halpha⟩ : ∃ c cs, word = c :: cs ∧
      ¬ isBlank c = true ∧ c ≠ '"' ∧ ¬ (c.isDigit = true ∨ c = '-') ∧
      (c :: cs).all Char.isAlpha = true := by
    unfold Token.ofWord? at h
    split_ifs at h
    all_goals
      subst word
      exact ⟨_, _, rfl, by decide⟩
  obtain ⟨hletter, hletters⟩ := List.forall_mem_cons.mp (List.all_eq_true.mp halpha)
  obtain ⟨htake, hdrop⟩ := List.span_append hletters fun c hc => (hrest c hc).2
  rw [List.cons_append, lex, if_neg hblank, if_neg hquote, if_neg hnumber, if_pos hletter, htake,
    hdrop, h]
  cases lex rest <;> rfl

/-- **A number** in front of something else. -/
theorem lex_number {n : Number} (h : n.Legible) (hrest : Separated rest) :
    lex (n.text.toList ++ rest) = (lex rest).map (.number n :: ·) := by
  obtain ⟨c, cs, hcons, hstart⟩ := Number.exists_text_eq_cons h
  have hnumber := Number.ofChars?_text h
  have hnumeric : ∀ c ∈ cs, isNumeric c = true := fun c hc =>
    Number.isNumeric_of_mem_text (hcons ▸ List.mem_cons_of_mem _ hc)
  obtain ⟨htake, hdrop⟩ := List.span_append hnumeric fun c hc => (hrest c hc).1
  have hblank : ¬ isBlank c = true := by
    intro hblank
    simp only [isBlank, Bool.or_eq_true, decide_eq_true_eq] at hblank
    rcases hblank with ((rfl | rfl) | rfl) | rfl
    all_goals exact absurd hstart (by decide)
  have hquote : c ≠ '"' := by
    rintro rfl
    exact absurd hstart (by decide)
  rw [hcons] at hnumber ⊢
  rw [List.cons_append, lex, if_neg hblank, if_neg hquote, if_pos hstart, htake, hdrop, hnumber]
  cases lex rest <;> rfl

/-- **A text in quotes** in front of something else. -/
theorem lex_text (s : String) :
    lex ((Text.ofString s).quoted.toList ++ rest)
      = (lex rest).map (.text (.ofString s) :: ·) := by
  obtain ⟨ws, hws, hpieces⟩ := exists_quoted? s.toList rest
  rw [Text.toList_quoted, List.cons_append, List.append_assoc, List.singleton_append, lex,
    if_neg (by decide), if_pos rfl]
  split
  · next hnone => rw [hws] at hnone; cases hnone
  · next hsome =>
    rw [hws] at hsome
    cases hsome
    rw [hpieces]
    rfl

end Json

end FuzzyInference
