import CircuitQir.Json.Decoding
import CircuitQir.Proofs.Json.Scalars
/-!
# JSON documents are read back

Whichever way a value is laid out, its text is read as a complete document with one tree
(`documentOf_text`). The tree is the value as far as JSON can tell (`Json.tree`): a double that is
not finite has become a null, and any other may have become one nearby. The machine that builds the
tree is followed along the text; when it comes to the end of a value, nothing but the place for the
value has changed (`run_text`).
-/

namespace CircuitQir

namespace Json

/-! ## Values as trees -/

mutual

/-- What the text of a value is read as. -/
def tree : Json → Tree
  | null => .null
  | bool b => .bool b
  | natural n => .number (numberOf false (Nat.toDigits 10 n) [] none)
  | double d => if d.isFinite then .number (some (.double (reread d))) else .null
  | string s => .string (some s)
  | array items => .array (trees items) true
  | object members => .object (memberTrees members) true

@[inherit_doc tree]
def trees : List Json → List Tree
  | [] => []
  | j :: js => tree j :: trees js

@[inherit_doc tree]
def memberTrees : List (String × Json) → List (Option String × Tree)
  | [] => []
  | (k, v) :: ms => (some k, tree v) :: memberTrees ms

end

theorem trees_eq_map (js : List Json) : trees js = js.map tree := by
  induction js with
  | nil => rfl
  | cons j js ih => rw [trees, ih, List.map_cons]

/-! ## White space -/

theorem goesOn_of_isSpace {c : Char} (h : isSpace c = true) : goesOn c = false := by
  simp only [isSpace, Bool.or_eq_true, beq_iff_eq] at h
  rcases h with ((rfl | rfl) | rfl) | rfl <;> decide

/-- White space does not go on with what stands before it. -/
theorem stops_spaces {ss rest : List Char} (hss : ∀ c ∈ ss, isSpace c = true)
    (hrest : Stops goesOn rest) : Stops goesOn (ss ++ rest) := by
  cases ss with
  | nil => exact hrest
  | cons c ss => exact stops_cons (goesOn_of_isSpace (hss c List.mem_cons_self))

/-- A layout puts nothing but white space between the parts of a value. -/
structure Layout.Blank (l : Layout) : Prop where
  opening : ∀ n, ∀ c ∈ l.opening n, isSpace c = true
  between : ∀ n, ∀ c ∈ l.between n, isSpace c = true
  closing : ∀ n, ∀ c ∈ l.closing n, isSpace c = true
  afterColon : ∀ c ∈ l.afterColon, isSpace c = true

theorem Layout.blank_compact : compact.Blank := ⟨nofun, nofun, nofun, nofun⟩

theorem Layout.blank_pretty : pretty.Blank := by
  have hline (n : Nat) : ∀ c ∈ indentation n, isSpace c = true := by
    refine List.forall_mem_cons.mpr ⟨rfl, fun c hc => ?_⟩
    obtain rfl := List.eq_of_mem_replicate hc
    rfl
  exact ⟨hline, hline, hline, by simp [pretty, isSpace]⟩

/-! ## One token -/

namespace Machine

/-- The document that the machine comes to with the rest of a text. -/
def run (m : Machine) (cs : List Char) : Document := ((tokens cs).foldl step m).finish

variable {m : Machine} {ss cs rest : List Char} {t : Token} {frames : List Frame}

theorem run_nil (m : Machine) : run m [] = m.finish := by
  rw [run, tokens]
  rfl

theorem run_spaces (hss : ∀ c ∈ ss, isSpace c = true) : run m (ss ++ cs) = run m cs := by
  induction ss with
  | nil => rfl
  | cons s ss ih =>
    obtain ⟨hs, hss⟩ := List.forall_mem_cons.mp hss
    have htokens : tokens (s :: (ss ++ cs)) = tokens (ss ++ cs) := by rw [tokens, if_pos hs]
    rw [List.cons_append, run, htokens]
    exact ih hss

/-- No token starts with white space. -/
theorem isSpace_of_token? {c : Char} (h : token? (c :: cs) = some (t, rest)) :
    isSpace c = false := by
  refine Bool.eq_false_iff.mpr fun hspace => ?_
  simp only [isSpace, Bool.or_eq_true, beq_iff_eq] at hspace
  rcases hspace with ((rfl | rfl) | rfl) | rfl <;> cases h

theorem run_token (h : token? cs = some (t, rest)) : run m cs = run (m.step t) rest := by
  cases cs with
  | nil => cases h
  | cons c cs =>
    have hspace := isSpace_of_token? h
    have htokens : tokens (c :: cs) = t :: tokens rest := by
      rw [tokens, if_neg (by simp [hspace])]
      split
      · rename_i heq
        obtain ⟨rfl, rfl⟩ := Prod.mk.inj (Option.some.inj (heq.symm.trans h))
        rfl
      · rename_i heq
        cases heq.symm.trans h
    rw [run, htokens]
    rfl

/-- A value may start here: it is all that is waited for, or the first in a list. -/
def Awaits (e : Expected) : Prop := e = .value ∨ e = .firstItem

theorem step_start {e : Expected} (he : Awaits e) (ht : t ≠ .closeBracket) :
    step (running frames e) t = startValue frames t := by
  rcases he with rfl | rfl
  · rfl
  · cases frames with
    | nil => rfl
    | cons frame frames =>
      cases frame with
      | array items =>
        cases t with
        | closeBracket => exact absurd rfl ht
        | _ => rfl
      | object members => rfl
      | member members key => rfl

/-- A value that is one token is put where it belongs. -/
theorem run_start {e : Expected} (he : Awaits e) (h : token? cs = some (t, rest))
    (ht : t ≠ .closeBracket) : run (running frames e) cs = run (startValue frames t) rest := by
  rw [run_token h, step_start he ht]

end Machine

/-! ## Whole values -/

open Machine

variable {l : Layout}

theorem stops_itemsText (level : Nat) (js : List Json) {rest : List Char}
    (hrest : Stops goesOn rest) : Stops goesOn (itemsText l level js ++ rest) := by
  cases js with
  | nil => exact hrest
  | cons j js => exact stops_cons (by decide)

theorem stops_membersText (level : Nat) (ms : List (String × Json)) {rest : List Char}
    (hrest : Stops goesOn rest) : Stops goesOn (membersText l level ms ++ rest) := by
  cases ms with
  | nil => exact hrest
  | cons m ms => exact stops_cons (by decide)

/-- The key of a member, and the colon behind it. -/
theorem run_key (hl : l.Blank) {e : Expected} (he : e = .firstKey ∨ e = .key) (key : String)
    (members : List (Option String × Tree)) (frames : List Frame) (rest : List Char) :
    run (running (.object members :: frames) e)
        (stringText key ++ ':' :: (l.afterColon ++ rest)) =
      run (running (.member members (some key) :: frames) .value) rest := by
  have hstep : step (running (.object members :: frames) e) (.string (some key)) =
      running (.member members (some key) :: frames) .colon := by
    rcases he with rfl | rfl <;> rfl
  rw [run_token (token?_string key), hstep, run_token (t := .colon) rfl]
  exact run_spaces hl.afterColon

mutual

/-- When the machine comes to the end of a value, the value is in its place. -/
theorem run_text (hl : l.Blank) : ∀ (j : Json) (level : Nat) {e : Expected} {frames : List Frame}
    {rest : List Char}, Awaits e → Stops goesOn rest →
    run (running frames e) (text l level j ++ rest) = run (place j.tree frames) rest
  | null, _, _, _, _, he, _ => run_start (t := .null) he rfl nofun
  | bool b, _, _, _, _, he, _ => by
    cases b with
    | true => exact run_start (t := .bool true) he rfl nofun
    | false => exact run_start (t := .bool false) he rfl nofun
  | natural n, _, _, _, _, he, hrest => run_start he (token?_natural n hrest) nofun
  | double d, _, _, _, _, he, hrest => by
    rw [text, doubleText, tree]
    cases hd : d.isFinite with
    | true => exact run_start he (token?_double hd hrest) nofun
    | false => exact run_start (t := .null) he rfl nofun
  | string s, _, _, _, _, he, _ => run_start he (token?_string s) nofun
  | array [], level, e, frames, rest, he, _ => by
    rw [text]
    show run (running frames e) ('[' :: ']' :: rest) = _
    rw [run_start (t := .openBracket) he rfl nofun]
    exact run_token (t := .closeBracket) rfl
  | array (j :: js), level, e, frames, rest, he, _ => by
    have hclose : Stops goesOn (l.closing level ++ ']' :: rest) :=
      stops_spaces (hl.closing level) (stops_cons (by decide))
    have hcut : text l level (.array (j :: js)) ++ rest =
        '[' :: (l.opening (level + 1) ++ (text l (level + 1) j ++
          (itemsText l (level + 1) js ++ (l.closing level ++ ']' :: rest)))) := by
      simp [text]
    rw [hcut, run_start (t := .openBracket) he rfl nofun]
    show run (running (.array [] :: frames) .firstItem) _ = _
    rw [run_spaces (hl.opening (level + 1)),
      run_text hl j (level + 1) (.inr rfl) (stops_itemsText (level + 1) js hclose)]
    show run (running (.array [j.tree] :: frames) .next) _ = _
    rw [run_items hl js (level + 1) hclose, run_spaces (hl.closing level),
      run_token (t := .closeBracket) rfl]
    show run (place (.array ((trees js).reverse ++ [j.tree]).reverse true) frames) rest = _
    rw [List.reverse_append, List.reverse_reverse]
    rfl
  | object [], level, e, frames, rest, he, _ => by
    rw [text]
    show run (running frames e) ('\x7b' :: '\x7d' :: rest) = _
    rw [run_start (t := .openBrace) he rfl nofun]
    exact run_token (t := .closeBrace) rfl
  | object ((k, v) :: ms), level, e, frames, rest, he, _ => by
    have hclose : Stops goesOn (l.closing level ++ '\x7d' :: rest) :=
      stops_spaces (hl.closing level) (stops_cons (by decide))
    have hcut : text l level (.object ((k, v) :: ms)) ++ rest =
        '\x7b' :: (l.opening (level + 1) ++ (stringText k ++ ':' :: (l.afterColon ++
          (text l (level + 1) v ++ (membersText l (level + 1) ms ++
            (l.closing level ++ '\x7d' :: rest)))))) := by
      simp [text]
    rw [hcut, run_start (t := .openBrace) he rfl nofun]
    show run (running (.object [] :: frames) .firstKey) _ = _
    rw [run_spaces (hl.opening (level + 1)), run_key hl (.inl rfl),
      run_text hl v (level + 1) (.inl rfl) (stops_membersText (level + 1) ms hclose)]
    show run (running (.object [(some k, v.tree)] :: frames) .next) _ = _
    rw [run_members hl ms (level + 1) hclose, run_spaces (hl.closing level),
      run_token (t := .closeBrace) rfl]
    show run (place (.object ((memberTrees ms).reverse ++ [(some k, v.tree)]).reverse true) frames)
      rest = _
    rw [List.reverse_append, List.reverse_reverse]
    rfl

/-- The elements behind the first are added to their list. -/
theorem run_items (hl : l.Blank) : ∀ (js : List Json) (level : Nat) {items : List Tree}
    {frames : List Frame} {rest : List Char}, Stops goesOn rest →
    run (running (.array items :: frames) .next) (itemsText l level js ++ rest) =
      run (running (.array ((trees js).reverse ++ items) :: frames) .next) rest
  | [], _, _, _, _, _ => rfl
  | j :: js, level, items, frames, rest, hrest => by
    have hcut : itemsText l level (j :: js) ++ rest =
        ',' :: (l.between level ++ (text l level j ++ (itemsText l level js ++ rest))) := by
      simp [itemsText]
    rw [hcut, run_token (t := .comma) rfl]
    show run (running (.array items :: frames) .value) _ = _
    rw [run_spaces (hl.between level),
      run_text hl j level (.inl rfl) (stops_itemsText level js hrest)]
    show run (running (.array (j.tree :: items) :: frames) .next) _ = _
    rw [run_items hl js level hrest, trees, List.reverse_cons, List.append_assoc]
    rfl

/-- The members behind the first are added to their object. -/
theorem run_members (hl : l.Blank) : ∀ (ms : List (String × Json)) (level : Nat)
    {members : List (Option String × Tree)} {frames : List Frame} {rest : List Char},
    Stops goesOn rest →
    run (running (.object members :: frames) .next) (membersText l level ms ++ rest) =
      run (running (.object ((memberTrees ms).reverse ++ members) :: frames) .next) rest
  | [], _, _, _, _, _ => rfl
  | (k, v) :: ms, level, members, frames, rest, hrest => by
    have hcut : membersText l level ((k, v) :: ms) ++ rest =
        ',' :: (l.between level ++ (stringText k ++ ':' :: (l.afterColon ++
          (text l level v ++ (membersText l level ms ++ rest))))) := by
      simp [membersText]
    rw [hcut, run_token (t := .comma) rfl]
    show run (running (.object members :: frames) .key) _ = _
    rw [run_spaces (hl.between level), run_key hl (.inr rfl),
      run_text hl v level (.inl rfl) (stops_membersText level ms hrest)]
    show run (running (.object ((some k, v.tree) :: members) :: frames) .next) _ = _
    rw [run_members hl ms level hrest, memberTrees, List.reverse_cons, List.append_assoc]
    rfl

end

/-- The text of a value is a document, and the document is the value. -/
theorem documentOf_text (hl : l.Blank) (j : Json) :
    documentOf (String.ofList (text l 0 j)) = ⟨j.tree, false⟩ := by
  have hrun : run start (text l 0 j ++ []) = run (complete j.tree) [] :=
    run_text hl j 0 (.inl rfl) (stops_nil goesOn)
  rw [List.append_nil] at hrun
  rw [documentOf, String.toList_ofList]
  exact hrun.trans (run_nil _)

/-- What is read from a document is what its decoder finds in the value. -/
theorem decode_text {α : Type} (hl : l.Blank) (d : Decoder α) (j : Json) :
    decode d (String.ofList (text l 0 j)) = d j.tree := by
  rw [decode, documentOf_text hl]
  cases h : d j.tree with
  | error e => rfl
  | ok x => rfl

theorem decode_compact {α : Type} (d : Decoder α) (j : Json) : decode d j.compact = d j.tree :=
  decode_text Layout.blank_compact d j

theorem decode_pretty {α : Type} (d : Decoder α) (j : Json) : decode d j.pretty = d j.tree :=
  decode_text Layout.blank_pretty d j

end Json

end CircuitQir
