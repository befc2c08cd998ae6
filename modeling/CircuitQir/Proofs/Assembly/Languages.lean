import CircuitQir.Proofs.Assembly.Literals
/-!
# Rules and grammars

A `Grammar` says which texts have which values, without an order among alternatives and without a
place where reading stops. It is put together like a rule: texts one behind the other, a choice, a
part that may be missing, a list with separators.

A rule `Recognizes` a grammar if whatever it takes off a line is a text of the grammar with the
value that it gives, and if in turn it takes every text of the grammar with each of its values,
provided that what follows does not go on with the text. The rules that are put together of others
recognize the grammars put together likewise, as long as no alternative takes what a later one is
for (`Rule.Rejects`).
-/

namespace CircuitQir.Assembly

/-- Which texts have which values. -/
def Grammar (α : Type) : Type := List Char → α → Prop

namespace Grammar

variable {α : Type}

instance : Monad Grammar where
  pure x := fun text y => text = [] ∧ y = x
  bind g f := fun text y => ∃ x front back, text = front ++ back ∧ g front x ∧ f x back y

/-- Exactly the given text. -/
def literal (t : String) : Grammar Unit := fun text _ => text = t.toList

/-- The given text in any mixture of cases. The text itself is lower-case ASCII. -/
def keyword (t : String) : Grammar Unit := fun text _ => text.map Char.toLower = t.toList

/-- A word that stands for a value. -/
def word (t : String) (x : α) : Grammar α := do
  literal t
  return x

/-- Any of the alternatives. -/
def choice (gs : List (Grammar α)) : Grammar α := fun text x => ∃ g ∈ gs, g text x

/-- A text that has a value, or nothing. -/
def optional (g : Grammar α) : Grammar (Option α) := choice [return some (← g), return none]

/-- Any number of characters of a kind. -/
def many (p : Char → Bool) : Grammar (List Char) := fun text cs =>
  text = cs ∧ ∀ c ∈ cs, p c = true

/-- At least one character of a kind. -/
def many1 (p : Char → Bool) : Grammar (List Char) := fun text cs =>
  cs ≠ [] ∧ many p text cs

/-- Any number of items, each behind a separator. -/
def more (separator : String) (item : Grammar α) : List Char → List α → Prop
  | text, [] => text = []
  | text, x :: xs => ∃ front back,
      text = separator.toList ++ (front ++ back) ∧ item front x ∧ more separator item back xs

/-- Any number of items with a separator between them. -/
def separated (separator : String) (item : Grammar α) : Grammar (List α)
  | text, [] => text = []
  | text, x :: xs => ∃ front back,
      text = front ++ back ∧ item front x ∧ more separator item back xs

/-- All texts of the grammar start with the given one. -/
def Starts (g : Grammar α) (t : String) : Prop :=
  ∀ text x, g text x → ∃ back, text = t.toList ++ back

section Texts

variable {β : Type} {g : Grammar α} {gs : List (Grammar α)} {text : List Char} {x : α}

@[simp] theorem pure_iff {y : α} : (pure x : Grammar α) text y ↔ text = [] ∧ y = x := Iff.rfl

theorem literal_bind_iff {t : String} {f : Unit → Grammar α} :
    (literal t >>= f) text x ↔ ∃ back, text = t.toList ++ back ∧ f () back x := by
  constructor
  · rintro ⟨_, front, back, rfl, hfront, hback⟩
    exact ⟨back, congrArg (· ++ back) hfront, hback⟩
  · rintro ⟨back, rfl, hback⟩
    exact ⟨(), t.toList, back, rfl, rfl, hback⟩

@[simp] theorem map_iff {f : α → β} {y : β} :
    (g >>= fun x => pure (f x)) text y ↔ ∃ x, g text x ∧ y = f x := by
  constructor
  · rintro ⟨x, front, _, rfl, hx, rfl, rfl⟩
    exact ⟨x, by rwa [List.append_nil], rfl⟩
  · rintro ⟨x, hx, rfl⟩
    exact ⟨x, text, [], (List.append_nil _).symm, hx, rfl, rfl⟩

@[simp] theorem word_iff {t : String} {y : α} : word t x text y ↔ text = t.toList ∧ y = x := by
  refine map_iff.trans ⟨?_, ?_⟩
  · rintro ⟨_, ht, hy⟩
    exact ⟨ht, hy⟩
  · rintro ⟨ht, hy⟩
    exact ⟨(), ht, hy⟩

@[simp] theorem choice_nil_iff : choice [] text x ↔ False := by simp [choice]

@[simp] theorem choice_cons_iff : choice (g :: gs) text x ↔ g text x ∨ choice gs text x := by
  simp [choice]

theorem either_iff {h : Grammar α} : choice [g, h] text x ↔ g text x ∨ h text x := by simp

theorem optional_iff {o : Option α} :
    optional g text o ↔ (∃ x, g text x ∧ o = some x) ∨ (text = [] ∧ o = none) := by
  simp [optional]

theorem starts_literal (t : String) (f : Unit → Grammar β) : (literal t >>= f).Starts t := by
  intro text y h
  obtain ⟨back, htext, -⟩ := literal_bind_iff.mp h
  exact ⟨back, htext⟩

end Texts

end Grammar

namespace Rule

variable {α β : Type} {r s : Rule α} {g : Grammar α} {follows : List Char → Prop}

/-- What the rule takes off a line are texts of the grammar with their values, and it takes all of
them in front of what may follow. -/
structure Recognizes (r : Rule α) (g : Grammar α) (follows : List Char → Prop) : Prop where
  sound : ∀ {line x rest}, r line = .ok (x, rest) → ∃ front, line = front ++ rest ∧ g front x
  complete : ∀ {front x rest}, g front x → follows rest → r (front ++ rest) = .ok (x, rest)

/-- The rule takes no text of the grammar in front of what may follow. -/
def Rejects (r : Rule α) (g : Grammar β) (follows : List Char → Prop) : Prop :=
  ∀ text x rest, g text x → follows rest → ∃ at_, r (text ++ rest) = .error at_

theorem Recognizes.mono {follows' : List Char → Prop} (hr : r.Recognizes g follows)
    (h : ∀ rest, follows' rest → follows rest) : r.Recognizes g follows' :=
  ⟨hr.sound, fun hg hrest => hr.complete hg (h _ hrest)⟩

/-! ## One behind the other -/

theorem recognizes_pure (x : α) (follows : List Char → Prop) :
    (pure x : Rule α).Recognizes (pure x) follows := by
  constructor
  · intro line y rest heq
    obtain ⟨rfl, rfl⟩ := Prod.mk.inj (Except.ok.inj heq)
    exact ⟨[], rfl, rfl, rfl⟩
  · rintro front y rest ⟨rfl, rfl⟩ -
    rfl

theorem bind_eq_ok {f : α → Rule β} {line rest : List Char} {y : β}
    (h : (r >>= f) line = .ok (y, rest)) :
    ∃ x middle, r line = .ok (x, middle) ∧ f x middle = .ok (y, rest) := by
  cases hr : r line with
  | error at_ =>
    rw [bind_error f hr] at h
    cases h
  | ok result =>
    rw [bind_ok hr] at h
    exact ⟨result.1, result.2, rfl, h⟩

/-- What comes second must not go on with what comes first. -/
theorem Recognizes.bind {f : α → Rule β} {k : α → Grammar β} {middle : List Char → Prop}
    (hr : r.Recognizes g middle) (hf : ∀ x, (f x).Recognizes (k x) follows)
    (hmiddle : ∀ {x text y rest}, k x text y → follows rest → middle (text ++ rest)) :
    (r >>= f).Recognizes (g >>= k) follows := by
  constructor
  · intro line y rest heq
    obtain ⟨x, line', hx, hy⟩ := bind_eq_ok heq
    obtain ⟨front, rfl, hg⟩ := hr.sound hx
    obtain ⟨back, rfl, hk⟩ := (hf x).sound hy
    exact ⟨front ++ back, (List.append_assoc _ _ _).symm, x, front, back, rfl, hg, hk⟩
  · rintro text y rest ⟨x, front, back, rfl, hg, hk⟩ hrest
    rw [List.append_assoc, bind_ok (hr.complete hg (hmiddle hk hrest))]
    exact (hf x).complete hk hrest

/-- Behind a rule that does not mind what follows. -/
theorem Recognizes.then {f : α → Rule β} {k : α → Grammar β}
    (hr : r.Recognizes g fun _ => True) (hf : ∀ x, (f x).Recognizes (k x) follows) :
    (r >>= f).Recognizes (g >>= k) follows :=
  hr.bind hf fun _ _ => trivial

/-- In front of a text that does not go on with what comes first. -/
theorem Recognizes.before {f : α → Rule β} {k : α → Grammar β} {middle : List Char → Prop}
    {t : String} (hr : r.Recognizes g middle) (hf : ∀ x, (f x).Recognizes (k x) follows)
    (hk : ∀ x, (k x).Starts t) (ht : ∀ line, middle (t.toList ++ line)) :
    (r >>= f).Recognizes (g >>= k) follows := by
  refine hr.bind hf ?_
  rintro x text y rest hy -
  obtain ⟨back, rfl⟩ := hk x text y hy
  rw [List.append_assoc]
  exact ht _

theorem Recognizes.map (hr : r.Recognizes g follows) (f : α → β) :
    Recognizes (r >>= fun x => pure (f x)) (g >>= fun x => pure (f x)) follows := by
  refine hr.bind (fun x => recognizes_pure (f x) follows) ?_
  rintro x text y rest ⟨rfl, -⟩ hrest
  exact hrest

/-! ## Fixed text -/

theorem afterPrefix?_eq_some : ∀ {cs line rest : List Char},
    afterPrefix? cs line = some rest → line = cs ++ rest
  | [], _, _, h => Option.some.inj h
  | c :: cs, d :: line, rest, h => by
    rw [afterPrefix?] at h
    split at h
    · rename_i hc
      rw [hc, afterPrefix?_eq_some h, List.cons_append]
    · cases h

theorem recognizes_literal (t : String) :
    (literal t).Recognizes (.literal t) fun _ => True := by
  constructor
  · intro line x rest heq
    unfold literal at heq
    split at heq
    · rename_i hrest
      obtain ⟨-, rfl⟩ := Prod.mk.inj (Except.ok.inj heq)
      exact ⟨t.toList, afterPrefix?_eq_some hrest, rfl⟩
    · cases heq
  · rintro front x rest rfl -
    exact literal_append t rest

/-- Neither text starts with the other. -/
def Apart (t t' : String) : Prop := ¬ t.toList <+: t'.toList ∧ ¬ t'.toList <+: t.toList

instance : DecidableRel Apart := fun t t' =>
  inferInstanceAs (Decidable (¬ t.toList <+: t'.toList ∧ ¬ t'.toList <+: t.toList))

theorem afterPrefix?_eq_none : ∀ {cs ds : List Char}, ¬ cs <+: ds → ¬ ds <+: cs →
    ∀ line, afterPrefix? cs (ds ++ line) = none
  | [], _, h, _, _ => absurd List.nil_prefix h
  | _ :: _, [], _, h, _ => absurd List.nil_prefix h
  | c :: cs, d :: ds, h, h', line => by
    rw [List.cons_append, afterPrefix?]
    split
    · rename_i hc
      rw [List.cons_prefix_cons] at h h'
      exact afterPrefix?_eq_none (fun hp => h ⟨hc, hp⟩) (fun hp => h' ⟨hc.symm, hp⟩) line
    · rfl

/-- A text is not there if nothing like its first character comes next. -/
theorem literal_stops {p : Char → Bool} {t : String} {d : Char} {ds line : List Char}
    (ht : t.toList = d :: ds) (hd : p d = true) (h : Stops p line) :
    literal t line = .error line := by
  refine literal_error ?_
  rw [ht]
  cases line with
  | nil => rfl
  | cons c line =>
    have hc : d ≠ c := by
      rintro rfl
      exact absurd (h d rfl) (by simp [hd])
    exact if_neg hc

theorem rejects_literal {t t' : String} (h : Apart t t') (f : Unit → Rule β) :
    (literal t >>= f).Rejects (.literal t') fun _ => True := by
  rintro text _ rest rfl -
  exact ⟨_, bind_error f (literal_error (afterPrefix?_eq_none h.1 h.2 rest))⟩

theorem Rejects.bind {γ : Type} {h : Grammar β} (hr : r.Rejects h fun _ => True)
    (k : β → Grammar γ) : r.Rejects (h >>= k) follows := by
  rintro text y rest ⟨x, front, back, rfl, hx, -⟩ -
  rw [List.append_assoc]
  exact hr front x _ hx trivial

/-! ## Choices -/

theorem Rejects.choice {gs : List (Grammar β)} (h : ∀ g ∈ gs, r.Rejects g follows) :
    r.Rejects (.choice gs) follows := by
  rintro text x rest ⟨g, hmem, hg⟩ hrest
  exact h g hmem text x rest hg hrest

theorem recognizes_choice_single (hr : r.Recognizes g follows) :
    (choice [r]).Recognizes (.choice [g]) follows := by
  have hg {text : List Char} {x : α} : Grammar.choice [g] text x ↔ g text x := by simp
  constructor
  · intro line x rest heq
    obtain ⟨front, hline, hfront⟩ := hr.sound heq
    exact ⟨front, hline, hg.mpr hfront⟩
  · intro front x rest hfront hrest
    exact hr.complete (hg.mp hfront) hrest

/-- The first alternative must not take what the others are for. -/
theorem recognizes_choice_cons {rs : List (Rule α)} {gs : List (Grammar α)}
    (hr : r.Recognizes g follows) (hs : (choice (s :: rs)).Recognizes (.choice gs) follows)
    (hapart : r.Rejects (.choice gs) follows) :
    (choice (r :: s :: rs)).Recognizes (.choice (g :: gs)) follows := by
  constructor
  · intro line x rest heq
    cases hx : r line with
    | ok result =>
      rw [choice_ok _ hx] at heq
      obtain ⟨front, hline, hg⟩ := hr.sound (hx.trans heq)
      exact ⟨front, hline, Grammar.choice_cons_iff.mpr (.inl hg)⟩
    | error at_ =>
      rw [choice_error s rs hx] at heq
      obtain ⟨front, hline, hgs⟩ := hs.sound heq
      exact ⟨front, hline, Grammar.choice_cons_iff.mpr (.inr hgs)⟩
  · intro front x rest h hrest
    rcases Grammar.choice_cons_iff.mp h with hg | hgs
    · exact choice_ok _ (hr.complete hg hrest)
    · obtain ⟨at_, hx⟩ := hapart front x rest hgs hrest
      rw [choice_error s rs hx]
      exact hs.complete hgs hrest

theorem recognizes_either {h : Grammar α} (hr : r.Recognizes g follows)
    (hs : s.Recognizes h follows) (hapart : r.Rejects h follows) :
    (either r s).Recognizes (.choice [g, h]) follows := by
  refine recognizes_choice_cons hr (recognizes_choice_single hs) (Rejects.choice fun g' hg' => ?_)
  obtain rfl := List.mem_singleton.mp hg'
  exact hapart

/-- An alternative that starts with a text: the text, and how the alternative goes on. -/
structure Alternative (α : Type) where
  text : String
  rule : Rule α
  grammar : Grammar α

/-- Alternatives are told apart by the texts that they start with. -/
theorem recognizes_choice (a : Alternative α) (as : List (Alternative α))
    (hapart : (a :: as).Pairwise fun a b => Apart a.text b.text)
    (has : ∀ b ∈ a :: as, b.rule.Recognizes b.grammar follows) :
    (choice ((a :: as).map fun b => literal b.text >>= fun _ => b.rule)).Recognizes
      (.choice ((a :: as).map fun b => .literal b.text >>= fun _ => b.grammar)) follows := by
  induction as generalizing a with
  | nil =>
    exact recognizes_choice_single ((recognizes_literal a.text).then fun _ =>
      has a List.mem_cons_self)
  | cons b bs ih =>
    obtain ⟨hab, hbs⟩ := List.pairwise_cons.mp hapart
    obtain ⟨ha, has⟩ := List.forall_mem_cons.mp has
    refine recognizes_choice_cons ((recognizes_literal a.text).then fun _ => ha) (ih b hbs has) ?_
    refine Rejects.choice fun g hg => ?_
    obtain ⟨c, hc, rfl⟩ := List.mem_map.mp hg
    exact (rejects_literal (hab c hc) fun _ => a.rule).bind fun _ => c.grammar

/-- A part may be missing where what follows is not taken for it. -/
theorem Recognizes.optional (hr : r.Recognizes g follows)
    (hnone : ∀ {rest}, follows rest → ∃ at_, r rest = .error at_) :
    (optional r).Recognizes (.optional g) follows := by
  constructor
  · intro line o rest heq
    cases hx : r line with
    | ok result =>
      rw [optional_ok hx] at heq
      obtain ⟨rfl, rfl⟩ := Prod.mk.inj (Except.ok.inj heq)
      obtain ⟨front, hline, hg⟩ := hr.sound hx
      exact ⟨front, hline, Grammar.optional_iff.mpr (.inl ⟨_, hg, rfl⟩)⟩
    | error at_ =>
      rw [optional_error hx] at heq
      obtain ⟨rfl, rfl⟩ := Prod.mk.inj (Except.ok.inj heq)
      exact ⟨[], rfl, Grammar.optional_iff.mpr (.inr ⟨rfl, rfl⟩)⟩
  · intro text o rest h hrest
    rcases Grammar.optional_iff.mp h with ⟨x, hg, rfl⟩ | ⟨rfl, rfl⟩
    · exact optional_ok (hr.complete hg hrest)
    · obtain ⟨at_, hx⟩ := hnone hrest
      exact optional_error hx

/-! ## Runs of characters -/

theorem recognizes_many (p : Char → Bool) : (many p).Recognizes (.many p) (Stops p) := by
  constructor
  · intro line cs rest heq
    obtain ⟨rfl, rfl⟩ := Prod.mk.inj (Except.ok.inj heq)
    exact ⟨_, List.takeWhile_append_dropWhile.symm, rfl, List.all_eq_true.mp List.all_takeWhile⟩
  · rintro front cs rest ⟨rfl, hcs⟩ hrest
    exact many_append hcs hrest

theorem recognizes_many1 (p : Char → Bool) : (many1 p).Recognizes (.many1 p) (Stops p) := by
  constructor
  · intro line cs rest heq
    unfold many1 at heq
    split at heq
    · cases heq
    · rename_i hne
      obtain ⟨front, hline, hmany⟩ := (recognizes_many p).sound heq
      obtain ⟨rfl, -⟩ := Prod.mk.inj (Except.ok.inj heq)
      exact ⟨front, hline, by simpa using hne, hmany⟩
  · rintro front cs rest ⟨hne, rfl, hcs⟩ hrest
    exact many1_append hne hcs hrest

theorem many1_error {p : Char → Bool} {line : List Char} (h : Stops p line) :
    many1 p line = .error line := by
  have htake : ([] ++ line).takeWhile p = [] := takeWhile_stops nofun h
  rw [many1, ← List.nil_append line, htake]
  rfl

theorem recognizes_keyword (t : String) : (keyword t).Recognizes (.keyword t) fun _ => True := by
  constructor
  · intro line x rest heq
    unfold keyword at heq
    split at heq
    · rename_i back hfirst
      obtain ⟨-, rfl⟩ := Prod.mk.inj (Except.ok.inj heq)
      refine ⟨line.take t.length, (List.take_append_drop _ _).symm, ?_⟩
      have hmap := afterPrefix?_eq_some hfirst
      have hlength := congrArg List.length hmap
      have htext := t.length_toList
      rw [List.length_map, List.length_append, List.length_take] at hlength
      obtain rfl : back = [] := List.eq_nil_of_length_eq_zero (by omega)
      rwa [List.append_nil] at hmap
    · cases heq
  · rintro front x rest hfront -
    have hlength : front.length = t.length := by
      rw [← t.length_toList, ← hfront, List.length_map]
    rw [keyword, ← hlength, List.take_left, List.drop_left, hfront]
    have hfirst := afterPrefix?_append t.toList []
    rw [List.append_nil] at hfirst
    rw [hfirst]

/-! ## Lists -/

theorem sound_more {item : Rule α} (hitem : item.Recognizes g follows) (separator : String)
    (line : List Char) : ∃ front, line = front ++ (more separator item line).2 ∧
      Grammar.more separator g front (more separator item line).1 := by
  induction line using more.induct separator item with
  | case1 line x rest heq hlt _ _ _ ih =>
    obtain ⟨text, hline, _, front, back, rfl, rfl, hg⟩ :=
      ((recognizes_literal separator).then fun _ => hitem).sound heq
    obtain ⟨texts, hrest, hmore⟩ := ih
    rw [more_ok heq hlt]
    refine ⟨separator.toList ++ (back ++ texts), ?_, back, texts, rfl, hg, hmore⟩
    simp only [hline, List.append_assoc, hrest.symm]
  | case2 line x rest heq hlt =>
    rw [more_stuck heq hlt]
    exact ⟨[], rfl, rfl⟩
  | case3 line at_ heq =>
    rw [more_error heq]
    exact ⟨[], rfl, rfl⟩

section Lists

variable {item : Rule α} {separator : String} {rest at_ : List Char}

/-- Items are taken until one is missing. -/
theorem complete_more (hitem : item.Recognizes g follows) (hne : separator ≠ "")
    (hseparator : ∀ line, follows (separator.toList ++ line)) (hrest : follows rest)
    (hend : (do literal separator; item : Rule α) rest = .error at_) :
    ∀ {xs : List α} {text : List Char}, Grammar.more separator g text xs →
      follows (text ++ rest) ∧ more separator item (text ++ rest) = (xs, rest)
  | [], _, rfl => ⟨hrest, more_error hend⟩
  | x :: xs, _, ⟨front, back, rfl, hg, hmore⟩ => by
    obtain ⟨hfollows, hnext⟩ := complete_more hitem hne hseparator hrest hend hmore
    have hline : separator.toList ++ (front ++ back) ++ rest =
        separator.toList ++ (front ++ (back ++ rest)) := by
      simp only [List.append_assoc]
    have hpos : 0 < separator.toList.length := by
      rw [List.length_pos_iff]
      simpa using hne
    rw [hline]
    refine ⟨hseparator _, ?_⟩
    rw [more_ok ((bind_ok (literal_append _ _)).trans (hitem.complete hg hfollows)), hnext]
    simp only [List.length_append]
    omega

/-- A list ends where neither an item nor a separator with an item behind it follows. -/
theorem Recognizes.separated (hitem : item.Recognizes g follows) (separator : String)
    (hne : separator ≠ "") (hseparator : ∀ line, follows (separator.toList ++ line)) :
    (separated separator item).Recognizes (.separated separator g) fun rest =>
      follows rest ∧ (∃ at_, item rest = .error at_) ∧
        ∃ at_, (do literal separator; item : Rule α) rest = .error at_ := by
  constructor
  · intro line xs rest heq
    cases hx : item line with
    | error at_ =>
      rw [separated_error hx] at heq
      obtain ⟨rfl, rfl⟩ := Prod.mk.inj (Except.ok.inj heq)
      exact ⟨[], rfl, rfl⟩
    | ok result =>
      obtain ⟨x, middle⟩ := result
      rw [separated_ok hx] at heq
      obtain ⟨rfl, rfl⟩ := Prod.mk.inj (Except.ok.inj heq)
      obtain ⟨front, rfl, hg⟩ := hitem.sound hx
      obtain ⟨back, hmiddle, hmore⟩ := sound_more hitem separator middle
      refine ⟨front ++ back, ?_, front, back, rfl, hg, hmore⟩
      rw [List.append_assoc, ← hmiddle]
  · rintro text xs rest hlist ⟨hrest, ⟨at₁, hempty⟩, at₂, hend⟩
    cases xs with
    | nil =>
      obtain rfl : text = [] := hlist
      exact separated_error hempty
    | cons x xs =>
      obtain ⟨front, back, rfl, hg, hmore⟩ := hlist
      obtain ⟨hfollows, hnext⟩ := complete_more hitem hne hseparator hrest hend hmore
      rw [List.append_assoc, separated_ok (hitem.complete hg hfollows), hnext]

end Lists

end Rule

end CircuitQir.Assembly
