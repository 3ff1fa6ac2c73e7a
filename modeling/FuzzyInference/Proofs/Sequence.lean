/-!
# Computations that may stop

Most of what the library does can stop half-way, with a fault (`Except`)
or without a word (`Option`), and is written as a sequence of such steps,
often one for each element of a list. The lemmas of this module say when
a whole sequence goes through: exactly when each of its steps does.
-/

variable {ε α β γ : Type}

namespace Except

/-- **Two steps go through** when the first does and the second does with
what the first has found. -/
theorem bind_eq_ok_iff {x : Except ε α} {f : α → Except ε β} {b : β} :
    x >>= f = .ok b ↔ ∃ a, x = .ok a ∧ f a = .ok b := by
  cases x with
  | error e =>
    constructor
    · intro h
      cases h
    · rintro ⟨a, h, -⟩
      cases h
  | ok a =>
    constructor
    · intro h
      exact ⟨a, rfl, h⟩
    · rintro ⟨a', h, hb⟩
      cases h
      exact hb

/-- A step that cannot stop adds nothing to the one before it. -/
theorem map_eq_ok_iff {x : Except ε α} {f : α → β} {b : β} :
    x.map f = .ok b ↔ ∃ a, x = .ok a ∧ f a = b := by
  cases x with
  | error e =>
    constructor
    · intro h
      cases h
    · rintro ⟨a, h, -⟩
      cases h
  | ok a =>
    constructor
    · intro h
      exact ⟨a, rfl, Except.ok.inj h⟩
    · rintro ⟨a', h, hb⟩
      cases h
      exact congrArg Except.ok hb

/-- What a computation finds without saying why it could stop. -/
theorem eq_ok_of_toOption {x : Except ε α} {a : α} (h : x.toOption = some a) : x = .ok a := by
  cases x with
  | error e => cases h
  | ok b => exact congrArg Except.ok (Option.some.inj h)

end Except

namespace List

/-- **A step for each element goes through** when all of them do. -/
theorem mapM_eq_ok_iff {l : List α} {f : α → Except ε β} {bs : List β} :
    l.mapM f = .ok bs ↔ l.map f = bs.map .ok := by
  induction l generalizing bs with
  | nil => cases bs <;> simp [pure, Except.pure]
  | cons a l ih =>
    rw [mapM_cons, Except.bind_eq_ok_iff]
    constructor
    · rintro ⟨b, hb, h⟩
      obtain ⟨rest, hrest, h⟩ := Except.bind_eq_ok_iff.mp h
      cases h
      rw [map_cons, map_cons, hb, ih.mp hrest]
    · intro h
      cases bs with
      | nil => cases h
      | cons b rest =>
        obtain ⟨hb, hrest⟩ := cons.inj h
        exact ⟨b, hb, Except.bind_eq_ok_iff.mpr ⟨rest, ih.mpr hrest, rfl⟩⟩

/-- A step for each element that may come to nothing. -/
theorem mapM_eq_some_iff {l : List α} {f : α → Option β} {bs : List β} :
    l.mapM f = some bs ↔ l.map f = bs.map some := by
  induction l generalizing bs with
  | nil => cases bs <;> simp
  | cons a l ih =>
    rw [mapM_cons, Option.bind_eq_bind, Option.bind_eq_some_iff]
    constructor
    · rintro ⟨b, hb, h⟩
      obtain ⟨rest, hrest, h⟩ := Option.bind_eq_some_iff.mp h
      cases h
      rw [map_cons, map_cons, hb, ih.mp hrest]
    · intro h
      cases bs with
      | nil => cases h
      | cons b rest =>
        obtain ⟨hb, hrest⟩ := cons.inj h
        exact ⟨b, hb, Option.bind_eq_some_iff.mpr ⟨rest, ih.mpr hrest, rfl⟩⟩

/-- What is read off each of the things that are found is what is read off
the elements they are found for. -/
theorem map_of_mapM_eq_some {l : List α} {f : α → Option β} {bs : List β} {g : β → γ} {k : α → γ}
    (h : l.mapM f = some bs) (hg : ∀ a b, f a = some b → g b = k a) : bs.map g = l.map k := by
  rw [mapM_eq_some_iff] at h
  induction l generalizing bs with
  | nil =>
    cases bs with
    | nil => rfl
    | cons b bs => cases h
  | cons a l ih =>
    cases bs with
    | nil => cases h
    | cons b bs =>
      obtain ⟨hb, hrest⟩ := cons.inj h
      rw [map_cons, map_cons, hg a b hb, ih hrest]

theorem length_of_mapM_eq_some {l : List α} {f : α → Option β} {bs : List β}
    (h : l.mapM f = some bs) : bs.length = l.length := by
  have := congrArg length (mapM_eq_some_iff.mp h)
  rw [length_map, length_map] at this
  exact this.symm

/-- Steps that all find something find a list, as long as the one they
went through. -/
theorem exists_mapM_eq_some {l : List α} {f : α → Option β} (h : ∀ a ∈ l, ∃ b, f a = some b) :
    ∃ bs, l.mapM f = some bs ∧ bs.length = l.length := by
  induction l with
  | nil => exact ⟨[], rfl, rfl⟩
  | cons a l ih =>
    obtain ⟨b, hb⟩ := h a mem_cons_self
    obtain ⟨bs, hbs, hlen⟩ := ih fun a ha => h a (mem_cons_of_mem _ ha)
    refine ⟨b :: bs, ?_, congrArg (· + 1) hlen⟩
    rw [mapM_eq_some_iff] at hbs ⊢
    rw [map_cons, map_cons, hb, hbs]

/-- A list without a gap is a list of what stands in its places. -/
theorem exists_eq_map_some {l : List (Option α)} (h : ∀ o ∈ l, o ≠ none) :
    ∃ as : List α, l = as.map some := by
  induction l with
  | nil => exact ⟨[], rfl⟩
  | cons o l ih =>
    obtain ⟨ho, hl⟩ := forall_mem_cons.mp h
    obtain ⟨a, rfl⟩ := Option.ne_none_iff_exists'.mp ho
    obtain ⟨as, rfl⟩ := ih hl
    exact ⟨a :: as, rfl⟩

/-- What is found for the numbers below another one is found for each of them. -/
theorem lt_and_eq_some_of_map_range {f : Nat → Option β} {n : Nat} {bs : List β}
    (h : (range n).map f = bs.map some) {k : Nat} {b : β} (hb : bs[k]? = some b) :
    k < n ∧ f k = some b := by
  have hplace := congrArg (·[k]?) h
  simp only [getElem?_map, hb, Option.map_some] at hplace
  obtain ⟨k', hk, hfound⟩ := Option.map_eq_some_iff.mp hplace
  obtain ⟨hlt, rfl⟩ := getElem?_eq_some_iff.mp hk
  rw [length_range] at hlt
  rw [getElem_range] at hfound
  exact ⟨hlt, hfound⟩

/-- **What is found in a place**, when something is found in all of them. -/
theorem exists_getElem?_of_mapM_eq_some {l : List α} {f : α → Option β} {bs : List β}
    (h : l.mapM f = some bs) {k : Nat} {a : α} (ha : l[k]? = some a) :
    ∃ b, bs[k]? = some b ∧ f a = some b := by
  have hplace := congrArg (·[k]?) (mapM_eq_some_iff.mp h)
  simp only [getElem?_map, ha] at hplace
  obtain ⟨b, hb, heq⟩ := Option.map_eq_some_iff.mp hplace.symm
  exact ⟨b, hb, heq.symm⟩

/-- In a list without a gap no gap is found. -/
theorem any_isNone_eq_false {l : List (Option α)} (h : ∀ o ∈ l, o ≠ none) :
    l.any Option.isNone = false := by
  rw [any_eq_false]
  intro o ho
  rw [Option.isNone_iff_eq_none]
  exact h o ho

/-- Steps that all go through go through together. -/
theorem exists_mapM_eq_ok {l : List α} {f : α → Except ε β} (h : ∀ a ∈ l, ∃ b, f a = .ok b) :
    ∃ bs, l.mapM f = .ok bs ∧ bs.length = l.length := by
  induction l with
  | nil => exact ⟨[], rfl, rfl⟩
  | cons a l ih =>
    obtain ⟨b, hb⟩ := h a mem_cons_self
    obtain ⟨bs, hbs, hlen⟩ := ih fun a ha => h a (mem_cons_of_mem _ ha)
    refine ⟨b :: bs, ?_, congrArg (· + 1) hlen⟩
    rw [mapM_eq_ok_iff] at hbs ⊢
    rw [map_cons, map_cons, hb, hbs]

/-- What one of the steps found is among what all of them found. -/
theorem length_of_mapM_eq_ok {l : List α} {f : α → Except ε β} {bs : List β}
    (h : l.mapM f = .ok bs) : bs.length = l.length := by
  rw [mapM_eq_ok_iff] at h
  have hlen := congrArg length h
  rw [length_map, length_map] at hlen
  exact hlen.symm

/-- **A step for each element that fails** fails for one of them. -/
theorem exists_of_mapM_eq_error {l : List α} {f : α → Except ε β} {e : ε}
    (h : l.mapM f = .error e) : ∃ a ∈ l, f a = .error e := by
  induction l with
  | nil => cases h
  | cons a l ih =>
    rw [mapM_cons] at h
    cases ha : f a with
    | error e' =>
      rw [ha] at h
      cases h
      exact ⟨a, mem_cons_self, ha⟩
    | ok b =>
      rw [ha] at h
      cases hrest : l.mapM f with
      | error e' =>
        obtain ⟨a', ha', hf⟩ := ih (hrest.trans (by rw [hrest] at h; cases h; rfl))
        exact ⟨a', mem_cons_of_mem _ ha', hf⟩
      | ok bs =>
        rw [hrest] at h
        cases h

/-- A check of the elements of a list is a check of the first and a check
of the others. -/
theorem forM_cons_eq (f : α → Except ε Unit) (a : α) (l : List α) :
    (a :: l).forM f = (f a >>= fun _ => l.forM f) := rfl

/-- **A check of each element succeeds** when it does for all of them. -/
theorem forM_eq_ok_iff {l : List α} {f : α → Except ε Unit} :
    l.forM f = .ok () ↔ ∀ a ∈ l, f a = .ok () := by
  induction l with
  | nil => exact ⟨fun _ a ha => absurd ha not_mem_nil, fun _ => rfl⟩
  | cons a l ih =>
    rw [forM_cons_eq, forall_mem_cons, ← ih]
    cases f a with
    | error e =>
      constructor
      · intro h
        cases h
      · rintro ⟨h, -⟩
        cases h
    | ok u => exact ⟨fun h => ⟨rfl, h⟩, And.right⟩

/-- **A check that fails** fails for one of the elements. -/
theorem exists_of_forM_eq_error {l : List α} {f : α → Except ε Unit} {e : ε}
    (h : l.forM f = .error e) : ∃ a ∈ l, f a = .error e := by
  induction l with
  | nil => cases h
  | cons a l ih =>
    rw [forM_cons_eq] at h
    cases ha : f a with
    | error e' =>
      rw [ha] at h
      cases h
      exact ⟨a, mem_cons_self, ha⟩
    | ok u =>
      rw [ha] at h
      obtain ⟨b, hb, hf⟩ := ih h
      exact ⟨b, mem_cons_of_mem _ hb, hf⟩

/-- A change in a place that is there is a setting of it. -/
theorem modify_eq_set_of_getElem? {l : List α} {i : Nat} {a : α} (f : α → α)
    (h : l[i]? = some a) : l.modify i f = l.set i (f a) := by
  refine ext_getElem? fun j => ?_
  by_cases hij : i = j
  · subst hij
    rw [getElem?_modify_eq, getElem?_set_self (getElem?_eq_some_iff.mp h).1, h]
    rfl
  · rw [getElem?_modify_ne f l hij, getElem?_set_ne hij]

/-- A table that has been replaced by another in its first places only: what
stands in the next place is still what stood there. -/
theorem getElem?_take_append_drop {l l' : List α} {k : Nat} (hk : k < l.length) :
    (l.take k ++ l'.drop k)[k]? = l'[k]? := by
  have hlength : (l.take k).length = k := length_take_of_le (Nat.le_of_lt hk)
  rw [getElem?_append_right (Nat.le_of_eq hlength), hlength, Nat.sub_self, getElem?_drop,
    Nat.add_zero]

/-- **A table is replaced place by place.** -/
theorem set_take_append_drop {l l' : List α} (h : l.length = l'.length) {k : Nat} {a : α}
    (ha : l[k]? = some a) : (l.take k ++ l'.drop k).set k a = l.take (k + 1) ++ l'.drop (k + 1) := by
  obtain ⟨hk, rfl⟩ := getElem?_eq_some_iff.mp ha
  have hlength : (l.take k).length = k := length_take_of_le (Nat.le_of_lt hk)
  have hk' : k < l'.length := h ▸ hk
  rw [set_append_right _ _ (Nat.le_of_eq hlength), hlength, Nat.sub_self,
    drop_eq_getElem_cons hk', set_cons_zero, ← take_append_getElem hk, append_assoc]
  rfl

/-- When all the places have been replaced nothing is left of the table. -/
theorem take_append_drop_of_length {l l' : List α} {n : Nat} (h : l.length = n)
    (h' : l'.length = n) : l.take n ++ l'.drop n = l := by
  rw [take_of_length_le (Nat.le_of_eq h), drop_of_length_le (Nat.le_of_eq h'), append_nil]

/-- Steps that all find something, whatever they go on from, find
something together. -/
theorem exists_foldlM_eq_some {f : β → α → Option β} {l : List α}
    (h : ∀ a ∈ l, ∀ b, ∃ b', f b a = some b') (b : β) : ∃ b', l.foldlM f b = some b' := by
  induction l generalizing b with
  | nil => exact ⟨b, rfl⟩
  | cons a l ih =>
    obtain ⟨b', hb⟩ := h a mem_cons_self b
    obtain ⟨r, hr⟩ := ih (fun a ha => h a (mem_cons_of_mem _ ha)) b'
    exact ⟨r, Option.bind_eq_some_iff.mpr ⟨b', hb, hr⟩⟩

/-- **Steps that change nothing** come to nothing. -/
theorem foldlM_eq_some_of_fixed {f : β → α → Option β} {b : β} {l : List α}
    (h : ∀ a ∈ l, f b a = some b) : l.foldlM f b = some b := by
  induction l with
  | nil => rfl
  | cons a l ih =>
    obtain ⟨ha, hl⟩ := forall_mem_cons.mp h
    exact Option.bind_eq_some_iff.mpr ⟨b, ha, ih hl⟩

/-- **Steps along two lists** come to the same with another second list, if
in each place they do. -/
theorem foldlM_zip_congr {δ : Type} {f : β → α × δ → Option β} {l : List α} {xs ys : List δ}
    (hlength : xs.length = ys.length)
    (h : ∀ (i : Nat) a x y, l[i]? = some a → xs[i]? = some x → ys[i]? = some y →
      ∀ b, f b (a, x) = f b (a, y)) (b : β) :
    (l.zip xs).foldlM f b = (l.zip ys).foldlM f b := by
  induction l generalizing xs ys b with
  | nil => rfl
  | cons a l ih =>
    match xs, ys, hlength with
    | [], [], _ => rfl
    | x :: xs, y :: ys, hlength =>
      rw [zip_cons_cons, zip_cons_cons, foldlM_cons, foldlM_cons, h 0 a x y rfl rfl rfl]
      refine bind_congr fun b' => ih (Nat.succ.inj hlength) (fun i => ?_) b'
      exact h (i + 1)

/-- **What holds at the beginning and is kept by every step** holds at the
end. -/
theorem foldlM_eq_ok_induction {f : β → α → Except ε β} {P : β → Prop} {l : List α} {b r : β}
    (h : l.foldlM f b = .ok r) (hb : P b) (step : ∀ a ∈ l, ∀ b b', P b → f b a = .ok b' → P b') :
    P r := by
  induction l generalizing b with
  | nil =>
    cases h
    exact hb
  | cons a l ih =>
    obtain ⟨b', hstep, h⟩ := Except.bind_eq_ok_iff.mp h
    exact ih h (step a mem_cons_self b b' hb hstep) fun a ha =>
      step a (mem_cons_of_mem _ ha)

/-- The same of steps that may find nothing. -/
theorem foldlM_eq_some_induction {f : β → α → Option β} {P : β → Prop} {l : List α} {b r : β}
    (h : l.foldlM f b = some r) (hb : P b) (step : ∀ a ∈ l, ∀ b b', P b → f b a = some b' → P b') :
    P r := by
  induction l generalizing b with
  | nil =>
    cases h
    exact hb
  | cons a l ih =>
    obtain ⟨b', hstep, h⟩ := Option.bind_eq_some_iff.mp h
    exact ih h (step a mem_cons_self b b' hb hstep) fun a ha =>
      step a (mem_cons_of_mem _ ha)

/-- Nothing comes of changes that change nothing. -/
theorem foldl_eq_self {f : α → β → α} (h : ∀ a b, f a b = a) (bs : List β) (a : α) :
    bs.foldl f a = a := by
  induction bs with
  | nil => rfl
  | cons b bs ih => rw [foldl_cons, h, ih]

/-- **What is left by steps in some order** is left by them in any other, if
two of them may be exchanged wherever the steps lead. -/
theorem Perm.foldl_eq_of_closed {f : β → α → β} {P : β → Prop} {l l' : List α}
    (h : l.Perm l') (step : ∀ a ∈ l, ∀ b, P b → P (f b a))
    (exchange : ∀ a ∈ l, ∀ a' ∈ l, ∀ b, P b → f (f b a) a' = f (f b a') a) {b : β} (hb : P b) :
    l.foldl f b = l'.foldl f b := by
  induction h generalizing b with
  | nil => rfl
  | cons a _ ih =>
    exact ih (fun x hx => step x (mem_cons_of_mem a hx))
      (fun x hx y hy => exchange x (mem_cons_of_mem a hx) y (mem_cons_of_mem a hy))
      (step a mem_cons_self b hb)
  | swap a a' l =>
    rw [foldl_cons, foldl_cons, foldl_cons, foldl_cons,
      exchange a' mem_cons_self a (mem_cons_of_mem a' mem_cons_self) b hb]
  | trans hfirst _ ih ih' =>
    rw [ih step exchange hb]
    exact ih' (fun x hx => step x (hfirst.mem_iff.mpr hx))
      (fun x hx y hy => exchange x (hfirst.mem_iff.mpr hx) y (hfirst.mem_iff.mpr hy)) hb

/-- **Changes of places, one after the other**: a place is left with the
changes of that place, one after the other. -/
theorem getElem?_foldl_modify {key : β → Nat} {f : β → α → α} (bs : List β) (l : List α)
    (i : Nat) :
    (bs.foldl (fun l b => l.modify (key b) (f b)) l)[i]?
      = l[i]?.map fun a => (bs.filter fun b => key b = i).foldl (fun a b => f b a) a := by
  induction bs generalizing l with
  | nil => exact Option.map_id'.symm
  | cons b bs ih =>
    rw [foldl_cons, ih, filter_cons]
    by_cases hi : key b = i
    · subst hi
      rw [getElem?_modify_eq, if_pos (decide_eq_true rfl)]
      cases l[key b]? <;> rfl
    · rw [getElem?_modify_ne (f b) l hi, if_neg (by simpa using hi)]

/-- Changes of the places of a list that is the same everywhere. -/
theorem foldl_modify_replicate {key : β → Nat} {f : β → α → α} (bs : List β) (n : Nat) (a : α) :
    bs.foldl (fun l b => l.modify (key b) (f b)) (replicate n a)
      = (range n).map fun i => (bs.filter fun b => key b = i).foldl (fun a b => f b a) a := by
  refine ext_getElem? fun i => ?_
  rw [getElem?_foldl_modify, getElem?_map, getElem?_replicate]
  by_cases hi : i < n
  · rw [if_pos hi, getElem?_range hi]
    rfl
  · rw [if_neg hi, getElem?_eq_none (by simpa using hi)]
    rfl

/-- **What a test lets through** is found again in front of something else. -/
theorem span_append {p : α → Bool} {l rest : List α} (hl : ∀ a ∈ l, p a = true)
    (hrest : ∀ a ∈ rest.head?, p a = false) :
    (l ++ rest).takeWhile p = l ∧ (l ++ rest).dropWhile p = rest := by
  rw [takeWhile_append_of_pos hl, dropWhile_append_of_pos hl]
  cases rest with
  | nil => exact ⟨append_nil l, rfl⟩
  | cons a rest =>
    have ha : ¬ p a = true := Bool.eq_false_iff.mp (hrest a rfl)
    rw [takeWhile_cons_of_neg ha, dropWhile_cons_of_neg ha]
    exact ⟨append_nil l, rfl⟩

end List
