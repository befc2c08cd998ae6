import CircuitQir.Proofs.Assembly.Rejections
import Mathlib.Data.List.DropRight
/-!
# Laying a text out anew

Lines that are blank or start with a semicolon may be put between the lines of a text, or taken
away, and the white space around a line may be changed, the carriage return of its line end
included (`Relayout`). Reading pays no attention to any of this: the module stays the same, and so
does what is wrong with a text that is rejected, which is found where its line has come to stand
(`parse_relayout`).

A text is taken here as the pieces between its line feeds, which are its lines but for an empty
piece behind the last line feed.
-/

namespace CircuitQir

/-! ## White space around a line -/

/-- White space only. -/
def Blank (cs : List Char) : Prop := ∀ c ∈ cs, isBlank c = true

/-- A line that says nothing: if it is not blank, the first character that is not blank is a
semicolon. -/
def Idle (line : List Char) : Prop := ∀ c ∈ (line.dropWhile isBlank).head?, c = ';'

instance : DecidablePred Idle := fun line =>
  decidable_of_iff ((line.dropWhile isBlank).head?.all (· = ';') = true) <| by
    rw [Idle]
    cases (line.dropWhile isBlank).head? <;> simp

/-- A line and the same line with other white space before and after it. -/
def Respaced (line line' : List Char) : Prop :=
  ∃ text before after before' after', Blank before ∧ Blank after ∧ Blank before' ∧ Blank after' ∧
    line = before ++ text ++ after ∧ line' = before' ++ text ++ after'

theorem idle_nil : Idle [] := nofun

theorem trimmed_eq (line : List Char) :
    trimmed line = (line.dropWhile isBlank).rdropWhile isBlank := rfl

theorem trimmed_append {after : List Char} (h : Blank after) (line : List Char) :
    trimmed (line ++ after) = trimmed line := by
  have hend (cs : List Char) : (cs ++ after).rdropWhile isBlank = cs.rdropWhile isBlank := by
    rw [List.rdropWhile, List.reverse_append, List.dropWhile_append_of_pos]
    · rfl
    · exact fun c hc => h c (List.mem_reverse.mp hc)
  rw [trimmed_eq, trimmed_eq, List.dropWhile_append]
  split
  · rename_i hempty
    rw [List.isEmpty_iff.mp hempty, List.dropWhile_eq_nil_iff.mpr h]
  · exact hend _

theorem trimmed_around {before after : List Char} (hbefore : Blank before) (hafter : Blank after)
    (text : List Char) : trimmed (before ++ text ++ after) = trimmed text := by
  rw [trimmed_append hafter, trimmed_eq, List.dropWhile_append_of_pos hbefore, ← trimmed_eq]

/-- A line is what trimming leaves of it with white space around that. -/
theorem exists_around (line : List Char) :
    ∃ before after, Blank before ∧ Blank after ∧ line = before ++ trimmed line ++ after := by
  refine ⟨line.takeWhile isBlank, (line.dropWhile isBlank).rtakeWhile isBlank,
    fun c => List.mem_takeWhile_imp, fun c => List.mem_rtakeWhile_imp, ?_⟩
  rw [trimmed_eq, List.append_assoc, List.rdropWhile_append_rtakeWhile,
    List.takeWhile_append_dropWhile]

theorem respaced_iff {line line' : List Char} :
    Respaced line line' ↔ trimmed line = trimmed line' := by
  constructor
  · rintro ⟨text, before, after, before', after', hbefore, hafter, hbefore', hafter', rfl, rfl⟩
    rw [trimmed_around hbefore hafter, trimmed_around hbefore' hafter']
  · intro h
    obtain ⟨before, after, hbefore, hafter, hline⟩ := exists_around line
    obtain ⟨before', after', hbefore', hafter', hline'⟩ := exists_around line'
    exact ⟨trimmed line', before, after, before', after', hbefore, hafter, hbefore', hafter',
      h ▸ hline, hline'⟩

instance : DecidableRel Respaced := fun _ _ => decidable_of_iff' _ respaced_iff

/-- The carriage return of a line end is white space behind the line. -/
theorem trimmed_withoutReturn (line : List Char) : trimmed (withoutReturn line) = trimmed line := by
  have hreturn : Blank ['\r'] := List.forall_mem_singleton.mpr rfl
  unfold withoutReturn
  split
  · rename_i hlast
    have hline : line.dropLast ++ ['\r'] = line := List.dropLast_append_getLast? _ hlast
    rw [← trimmed_append hreturn, hline]
  · rfl

/-- Trimming keeps the first character that is not blank. -/
theorem head?_trimmed (line : List Char) :
    (trimmed line).head? = (line.dropWhile isBlank).head? := by
  rw [trimmed_eq]
  cases hline : line.dropWhile isBlank with
  | nil => rfl
  | cons c cs =>
    have hc : isBlank c = false := by
      have hhead := List.head?_dropWhile_not isBlank line
      rw [hline] at hhead
      exact hhead
    have hne : (c :: cs).rdropWhile isBlank ≠ [] := by
      intro hnil
      rw [List.rdropWhile_eq_nil_iff.mp hnil c List.mem_cons_self] at hc
      cases hc
    obtain ⟨rest, hrest⟩ := List.rdropWhile_prefix isBlank (c :: cs)
    rw [← List.head?_append_of_ne_nil _ hne, hrest]

namespace Assembly

namespace Draft

/-! ## Lines -/

/-- What is taken in of a line is what trimming leaves of it. -/
theorem line_congr (d : Draft) {raw raw' : List Char} (h : trimmed raw = trimmed raw') :
    d.line raw = d.line raw' := by
  unfold line
  rw [h]

theorem line_of_idle (d : Draft) {raw : List Char} (h : Idle raw) : d.line raw = .ok d := by
  have hskip : ((trimmed raw).isEmpty || (trimmed raw).head? == some ';') = true := by
    rw [Idle, ← head?_trimmed] at h
    cases hline : trimmed raw with
    | nil => rfl
    | cons c cs =>
      rw [hline] at h
      obtain rfl := h c rfl
      rfl
  unfold line
  dsimp only
  rw [if_pos hskip]

theorem lines_idle (d : Draft) {raw : List Char} (h : Idle raw) (number : Nat)
    (ls : List (List Char)) : d.lines number (raw :: ls) = d.lines (number + 1) ls := by
  rw [lines, line_of_idle d h]

/-- The lines of a text are taken in like the pieces between its line feeds. -/
theorem lines_linesFrom {text begun : List Char} (hbegun : '\n' ∉ begun) (d : Draft)
    (number : Nat) : d.lines number (linesFrom begun text) =
      d.lines number ((begun.reverse ++ text).splitOn '\n') := by
  have hreverse {begun : List Char} (h : '\n' ∉ begun) : '\n' ∉ begun.reverse := by
    rwa [List.mem_reverse]
  induction begun, text using linesFrom.induct generalizing d number with
  | case1 begun hempty =>
    obtain rfl := List.isEmpty_iff.mp hempty
    rw [linesFrom, if_pos hempty, List.append_nil, List.splitOn_eq_singleton (hreverse hbegun),
      List.reverse_nil, lines_idle d idle_nil]
    rfl
  | case2 begun hempty =>
    rw [linesFrom, if_neg hempty, List.append_nil, List.splitOn_eq_singleton (hreverse hbegun)]
  | case3 begun cs ih =>
    rw [linesFrom, List.splitOn_append_cons_self_of_not_mem (hreverse hbegun), lines, lines,
      line_congr d (trimmed_withoutReturn _)]
    cases d.line begun.reverse with
    | error issue => rfl
    | ok d' => exact ih List.not_mem_nil d' (number + 1)
  | case4 begun c cs hc ih =>
    have hnext : '\n' ∉ c :: begun := by
      intro hmem
      rcases List.mem_cons.mp hmem with heq | hmem
      · exact hc heq.symm
      · exact hbegun hmem
    rw [linesFrom, ih hnext, List.reverse_cons, List.append_assoc, List.singleton_append]
    exact fun heq => hc heq

end Draft

/-! ## Texts -/

/-- How the lines of a text are laid out anew. -/
inductive Relayout : List (List Char) → List (List Char) → Type
  | done : Relayout [] []
  /-- A line that says nothing is put in. -/
  | insert {ls ls' : List (List Char)} (line : List Char) (h : Idle line) (rest : Relayout ls ls') :
    Relayout ls (line :: ls')
  /-- A line that says nothing is taken out. -/
  | remove {ls ls' : List (List Char)} (line : List Char) (h : Idle line) (rest : Relayout ls ls') :
    Relayout (line :: ls) ls'
  /-- The white space around a line is changed, or left as it is. -/
  | respace {ls ls' : List (List Char)} {line line' : List Char} (h : Respaced line line')
    (rest : Relayout ls ls') : Relayout (line :: ls) (line' :: ls')

namespace Relayout

/-- Where a line has come to stand. Places are counted from zero. -/
def place {ls ls' : List (List Char)} : Relayout ls ls' → Nat → Nat
  | done, i => i
  | insert _ _ rest, i => rest.place i + 1
  | remove _ _ _, 0 => 0
  | remove _ _ rest, i + 1 => rest.place i
  | respace _ _, 0 => 0
  | respace _ rest, i + 1 => rest.place i + 1

variable {ls ls' : List (List Char)}

/-- Lines laid out anew lead to the same draft. -/
theorem lines_ok (r : Relayout ls ls') {d d' : Draft} {number : Nat}
    (h : d.lines number ls = .ok d') (number' : Nat) : d.lines number' ls' = .ok d' := by
  induction r generalizing d number number' with
  | done => exact h
  | insert line hidle rest ih =>
    rw [Draft.lines_idle d hidle]
    exact ih h _
  | remove line hidle rest ih =>
    rw [Draft.lines_idle d hidle] at h
    exact ih h _
  | @respace _ _ line line' hline rest ih =>
    rw [Draft.lines] at h ⊢
    rw [← Draft.line_congr d (respaced_iff.mp hline)]
    cases hd : d.line line with
    | error issue =>
      rw [hd] at h
      cases h
    | ok d'' =>
      rw [hd] at h
      exact ih h _

/-- A line that says something is still there, and what was before it is laid out anew before it. -/
theorem split (r : Relayout ls ls') {front rest : List (List Char)} {line : List Char}
    (hls : ls = front ++ line :: rest) (hline : ¬ Idle line) :
    ∃ front' line' rest', ls' = front' ++ line' :: rest' ∧ Nonempty (Relayout front front') ∧
      Respaced line line' ∧ r.place front.length = front'.length := by
  induction r generalizing front with
  | done => exact absurd hls (by simp)
  | insert idle hidle r ih =>
    obtain ⟨front', line', rest', rfl, ⟨rfront⟩, hrespaced, hplace⟩ := ih hls
    refine ⟨idle :: front', line', rest', rfl, ⟨.insert idle hidle rfront⟩, hrespaced, ?_⟩
    rw [place, hplace, List.length_cons]
  | remove idle hidle r ih =>
    cases front with
    | nil =>
      obtain ⟨rfl, -⟩ := List.cons.inj hls
      exact absurd hidle hline
    | cons l front =>
      obtain ⟨rfl, htail⟩ := List.cons.inj hls
      obtain ⟨front', line', rest', rfl, ⟨rfront⟩, hrespaced, hplace⟩ := ih htail
      exact ⟨front', line', rest', rfl, ⟨.remove _ hidle rfront⟩, hrespaced, hplace⟩
  | @respace _ tail _ first hfirst r ih =>
    cases front with
    | nil =>
      obtain ⟨rfl, -⟩ := List.cons.inj hls
      exact ⟨[], first, tail, rfl, ⟨.done⟩, hfirst, rfl⟩
    | cons l front =>
      obtain ⟨rfl, htail⟩ := List.cons.inj hls
      obtain ⟨front', line', rest', rfl, ⟨rfront⟩, hrespaced, hplace⟩ := ih htail
      refine ⟨first :: front', line', rest', rfl, ⟨.respace hfirst rfront⟩, hrespaced, ?_⟩
      rw [List.length_cons, place, hplace, List.length_cons]

/-- Of lines laid out anew the same one is rejected. -/
theorem lines_error (r : Relayout ls ls') {d : Draft} {number : Nat} {e : Error}
    (h : d.lines number ls = .error e) (number' : Nat) :
    d.lines number' ls' = .error ⟨number' + r.place (e.line - number), e.issue⟩ := by
  obtain ⟨front, line, rest, d', hls, hfront, hline, hnumber⟩ := Draft.lines_eq_error_iff.mp h
  have hsays : ¬ Idle line := by
    intro hidle
    rw [Draft.line_of_idle d' hidle] at hline
    cases hline
  obtain ⟨front', line', rest', rfl, ⟨rfront⟩, hrespaced, hplace⟩ := r.split hls hsays
  rw [hnumber, Nat.add_sub_cancel_left, hplace]
  refine Draft.lines_eq_error_iff.mpr
    ⟨front', line', rest', d', rfl, rfront.lines_ok hfront number', ?_, rfl⟩
  rwa [← Draft.line_congr d' (respaced_iff.mp hrespaced)]

end Relayout

/-- An error when lines have come to stand elsewhere. A function that is not terminated is found at
the end of a text, with so many lines, and any other issue at its line. -/
def Error.moved (e : Error) (place : Nat → Nat) (count : Nat) : Error :=
  { e with line := if e.issue = .unterminated then count else place (e.line - 1) + 1 }

section Texts

variable {t t' : String} (r : Relayout (t.toList.splitOn '\n') (t'.toList.splitOn '\n'))

theorem lines_pieces (t : String) : Draft.empty.lines 1 (linesOf t.toList) =
    Draft.empty.lines 1 (t.toList.splitOn '\n') :=
  Draft.lines_linesFrom List.not_mem_nil _ _

include r

theorem parse_ok_of_relayout {m : Ir.Module} (h : parse t = .ok m) : parse t' = .ok m := by
  rw [parse_eq, lines_pieces] at h ⊢
  obtain ⟨⟨m', current⟩, hlines, h⟩ := bind_eq_ok h
  rw [bind_of_ok (r.lines_ok hlines 1)]
  cases current with
  | none => exact h
  | some f => cases h

theorem parse_error_of_relayout {e : Error} (h : parse t = .error e) :
    parse t' = .error (e.moved r.place (linesOf t'.toList).length) := by
  rw [parse_eq, lines_pieces] at h ⊢
  rcases bind_eq_error h with hlines | ⟨⟨m, current⟩, hlines, h⟩
  · rw [bind_of_error (r.lines_error hlines 1), Error.moved,
      if_neg (Draft.issue_of_lines hlines), Nat.add_comm]
  · rw [bind_of_ok (r.lines_ok hlines 1)]
    cases current with
    | none => cases h
    | some f =>
      obtain rfl := Except.error.inj h
      rfl

end Texts

/-- A text laid out anew is read as the same module, or rejected for the same reason where the line
has come to stand. -/
theorem parse_relayout {t t' : String}
    (r : Relayout (t.toList.splitOn '\n') (t'.toList.splitOn '\n')) :
    (∀ m, parse t' = .ok m ↔ parse t = .ok m) ∧
      ∀ e, parse t = .error e →
        parse t' = .error (e.moved r.place (linesOf t'.toList).length) := by
  refine ⟨fun m => ⟨fun h => ?_, parse_ok_of_relayout r⟩, fun e => parse_error_of_relayout r⟩
  cases hread : parse t with
  | ok m' =>
    rw [parse_ok_of_relayout r hread] at h
    exact h
  | error e =>
    rw [parse_error_of_relayout r hread] at h
    cases h

/-- A text with an instruction that no rule fits. -/
def plainSum : String := "define void @m() \x7b\na:\nadd 1\n\x7d\n"

/-- The same text with lines that say nothing, other white space and other line ends. -/
def spacedSum : String :=
  "; sum\r\n\tdefine void @m() \x7b \r\na:\n\n  ;; of one\n\u00a0 add 1\u2028\n\x7d\u0085\n; end"

/-- How the lines of the one text become those of the other. -/
noncomputable def sumRelayout :
    Relayout (plainSum.toList.splitOn '\n') (spacedSum.toList.splitOn '\n') :=
  show Relayout
      ["define void @m() \x7b".toList, "a:".toList, "add 1".toList, "\x7d".toList, []]
      ["; sum\r".toList, "\tdefine void @m() \x7b \r".toList, "a:".toList, [],
        "  ;; of one".toList, "\u00a0 add 1\u2028".toList, "\x7d\u0085".toList, "; end".toList] from
    .insert _ (by decide +kernel) <|
    .respace (by decide +kernel) <|
    .respace (by decide +kernel) <|
    .insert _ (by decide +kernel) <|
    .insert _ (by decide +kernel) <|
    .respace (by decide +kernel) <|
    .respace (by decide +kernel) <|
    .remove _ (by decide +kernel) <|
    .insert _ (by decide +kernel) .done

theorem parse_spacedSum : parse plainSum = .error ⟨3, .rejected "add 1" 0⟩ ∧
    parse spacedSum = .error ⟨6, .rejected "add 1" 0⟩ := by
  have hplain : parse plainSum = .error ⟨3, .rejected "add 1" 0⟩ := by decide +kernel
  exact ⟨hplain, (parse_relayout sumRelayout).2 _ hplain⟩

end Assembly

end CircuitQir
