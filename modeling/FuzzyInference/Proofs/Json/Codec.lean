import FuzzyInference.Json.Codec
import FuzzyInference.Proofs.Json.Document
import FuzzyInference.Proofs.Sequence

/-!
# Values that are written faithfully

A value is written **faithfully** if its document is legible, is not the null,
and reads back as the value (`Json.Faithful`). Strings are, and natural numbers
of sixty-four bits, and names from a table; lists are if their elements are.

Records are written from a list of fields of which some may be left out
(`Json.givens`), and reading finds for each name what has been written for it, or
that nothing has been (`Json.fields?_givens`). It is enough that no two fields
have the same name; which of them are left out makes no difference. A field
that may be left out is read back as it was because nothing is written as the
null, which would be read as a field that has been left out.
-/

namespace FuzzyInference

namespace Json

/-- **A value that is written faithfully.** -/
structure Faithful {β : Type} [Codec β] (b : β) : Prop where
  /-- Its document is legible. -/
  legible : (Codec.write b).Legible
  /-- It is not written as the null. -/
  ne_null : Codec.write b ≠ .null
  /-- It reads back. -/
  readsBack : Codec.read? (Codec.write b) = some b

/-! ## Texts, numbers and lists -/

@[simp] theorem Text.toString?_ofString (s : String) : (Text.ofString s).toString? = some s := by
  have hchars (l : List Char) : chars? (l.map .char) = some l := by
    induction l with
    | nil => rfl
    | cons c l ih =>
      rw [List.map_cons, chars?, ih]
      rfl
  unfold toString? ofString
  rw [hchars, Option.map_some, String.ofList_toList]

theorem faithful_string (s : String) : Faithful s :=
  ⟨.text s, nofun, Text.toString?_ofString s⟩

theorem read?_nat {j : Json} {n : Nat} (h : j.integer? = some (n : Int)) :
    Codec.read? j = some n := by
  unfold Codec.read? instCodecNat
  simp only [h]

/-- **A natural number of sixty-four bits** is written faithfully. -/
theorem faithful_nat {n : Nat} (hn : n < Nat.pow 2 64) : Faithful n := by
  refine ⟨.number ⟨Digit.isNumeral_ofNat n, nofun⟩, nofun, ?_⟩
  have hinteger : integer? (Codec.write n) = some (n : Int) := by
    show (Number.ofNat n).integer? = _
    unfold Number.integer? Number.ofNat
    rw [if_neg (by simp)]
    simp only [Digit.toNat_ofNat]
    exact if_pos hn
  exact read?_nat hinteger

/-- **A list** is written faithfully if its elements are. -/
theorem faithful_list {β : Type} [Codec β] {bs : List β} (h : ∀ b ∈ bs, Faithful b) :
    Faithful bs := by
  refine ⟨.array fun j hj => ?_, nofun, ?_⟩
  · obtain ⟨b, hb, rfl⟩ := List.mem_map.mp hj
    exact (h b hb).legible
  · show (bs.map Codec.write).mapM Codec.read? = some bs
    rw [List.mapM_eq_some_iff, List.map_map]
    exact List.map_congr_left fun b hb => (h b hb).readsBack

/-! ## Choices -/

/-- **A name is read** as what the table has for it. -/
theorem choose?_chosen {β : Type} {table : List (String × β)} {name : String} {b : β}
    (h : table.lookup name = some b) : choose? table (chosen name) = some b := by
  have hname : choice? (chosen name) = some name := Text.toString?_ofString name
  unfold choose?
  rw [hname]
  exact h

/-! ## Records -/

/-- **The members for the fields that are given.** -/
def givens (fields : List (String × Option Json)) : List (String × Json) :=
  fields.filterMap fun (name, value) => value.map (name, ·)

section Records

variable {fields : List (String × Option Json)}

@[simp] theorem givens_nil : givens [] = [] := rfl

theorem givens_cons (name : String) (o : Option Json) (fields : List (String × Option Json)) :
    givens ((name, o) :: fields) = (o.map (name, ·)).toList ++ givens fields := by
  cases o <;> rfl

/-- A field that is left out without a value is one that is given or not. -/
theorem present_eq {β : Type} [Codec β] (name : String) (o : Option β) :
    present name o = ((o.map Codec.write).map (name, ·)).toList := by
  cases o <;> rfl

/-- The keys of a record are strings. -/
theorem keyed?_record (members : List (String × Json)) :
    keyed? (members.map fun (key, value) => (.ofString key, value)) = some members := by
  unfold keyed?
  rw [List.mapM_eq_some_iff, List.map_map]
  exact List.map_congr_left fun m _ => by simp

/-- What is given for a name, if no other field has it. -/
theorem filter_givens (hnodup : (fields.map Prod.fst).Nodup) {name : String} {o : Option Json}
    (h : (name, o) ∈ fields) :
    (givens fields).filter (·.1 = name) = (o.map (name, ·)).toList := by
  induction fields with
  | nil => cases h
  | cons field fields ih =>
    obtain ⟨hnotMem, hnodup⟩ := List.nodup_cons.mp hnodup
    rw [givens_cons, List.filter_append]
    rcases List.mem_cons.mp h with rfl | h
    · -- no other field has the name
      have hother : (givens fields).filter (·.1 = name) = [] := by
        refine List.filter_eq_nil_iff.mpr fun member hmember hname => hnotMem ?_
        obtain ⟨other, hmem, hgiven⟩ := List.mem_filterMap.mp hmember
        obtain ⟨value, -, rfl⟩ := Option.map_eq_some_iff.mp hgiven
        have heq : other.1 = name := of_decide_eq_true hname
        exact List.mem_map.mpr ⟨other, hmem, heq⟩
      rw [hother, List.append_nil]
      cases o <;> simp
    · have hne : field.1 ≠ name := fun heq => hnotMem (heq ▸ List.mem_map_of_mem h)
      rw [ih hnodup h]
      cases field.2 <;> simp [hne]

/-- **The fields of a record** are found as they were given. -/
theorem fields?_givens {names : List String} {values : List (Option Json)} (hnames : names.Nodup)
    (hlength : names.length = values.length) :
    fields? names (record (givens (names.zip values))) = some values := by
  have hfst : (names.zip values).map Prod.fst = names := List.map_fst_zip (Nat.le_of_eq hlength)
  have hsnd : (names.zip values).map Prod.snd = values :=
    List.map_snd_zip (Nat.le_of_eq hlength.symm)
  have hgiven : ∀ field ∈ names.zip values,
      given? (givens (names.zip values)) field.1 = some field.2 := by
    rintro ⟨name, o⟩ hfield
    unfold given?
    rw [filter_givens (hfst.symm ▸ hnames) hfield]
    cases o <;> rfl
  show (keyed? _).bind (fun members => names.mapM (given? members)) = _
  rw [keyed?_record, Option.bind_some, List.mapM_eq_some_iff]
  calc names.map (given? (givens (names.zip values)))
      = ((names.zip values).map Prod.fst).map (given? (givens (names.zip values))) := by rw [hfst]
    _ = ((names.zip values).map Prod.snd).map some := by
      rw [List.map_map, List.map_map]
      exact List.map_congr_left hgiven
    _ = values.map some := by rw [hsnd]

/-- **A field that is legible**, if it is given. -/
def LegibleField (o : Option Json) : Prop := ∀ j, o = some j → j.Legible

/-- A record of legible fields is legible. -/
theorem legible_givens (h : ∀ field ∈ fields, LegibleField field.2) :
    (record (givens fields)).Legible := by
  refine .object (fun m hm => ?_) fun m hm => ?_
  all_goals
    obtain ⟨⟨name, j⟩, hmember, rfl⟩ := List.mem_map.mp hm
  · exact ⟨name, rfl⟩
  · obtain ⟨field, hfield, hgiven⟩ := List.mem_filterMap.mp hmember
    obtain ⟨value, hvalue, heq⟩ := Option.map_eq_some_iff.mp hgiven
    cases heq
    exact h field hfield _ hvalue

/-- **A record is written faithfully** if it is written from legible fields of
different names, and is made again of what they have been written with. -/
theorem faithful_record {β : Type} [Codec β] {b : β} {make : List (Option Json) → Option β}
    (names : List String) (values : List (Option Json)) (hnames : names.Nodup)
    (hlength : names.length = values.length)
    (hwrite : Codec.write b = record (givens (names.zip values)))
    (hread : ∀ j, Codec.read? j = fields? names j >>= make)
    (hlegible : ∀ o ∈ values, LegibleField o) (hmake : make values = some b) : Faithful b := by
  refine ⟨?_, ?_, ?_⟩
  · rw [hwrite]
    exact legible_givens fun field hfield => hlegible _ (List.of_mem_zip hfield).2
  · rw [hwrite]
    exact nofun
  · rw [hwrite, hread, fields?_givens hnames hlength]
    exact hmake

end Records

section Fields

variable {β : Type} [Codec β] {b : β}

theorem Faithful.legibleField (h : Faithful b) : LegibleField (some (Codec.write b)) := by
  intro j hj
  cases hj
  exact h.legible

theorem legibleField_map_write {o : Option β} (h : ∀ b ∈ o, Faithful b) :
    LegibleField (o.map Codec.write) := by
  intro j hj
  obtain ⟨b, hb, rfl⟩ := Option.map_eq_some_iff.mp hj
  exact (h b hb).legible

theorem Faithful.required (h : Faithful b) : Json.required (some (Codec.write b)) = some b :=
  h.readsBack

theorem Faithful.defaulting (h : Faithful b) (value : β) :
    Json.defaulting value (some (Codec.write b)) = some b := h.readsBack

/-- **A field that may be left out** reads back, whether it has been or not. -/
theorem optional_map_write {o : Option β} (h : ∀ b ∈ o, Faithful b) :
    optional (o.map Codec.write) = some o := by
  cases o with
  | none => rfl
  | some b =>
    obtain ⟨-, hne, hread⟩ := h b rfl
    unfold optional
    split
    · next heq => cases heq
    · next heq => exact absurd (Option.some.inj heq) hne
    · next heq =>
      cases heq
      rw [hread]
      rfl

end Fields

end Json

end FuzzyInference
