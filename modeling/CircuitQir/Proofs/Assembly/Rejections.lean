import CircuitQir.Assembly.Parser
import CircuitQir.Proofs.Assembly.Languages
import CircuitQir.Proofs.Checked
/-!
# Where reading stops

Lines are taken in one after the other, so what becomes of a line depends on the lines before it
and on nothing behind it. Reading stops at the first line that is rejected (`lines_eq_error_iff`),
and the line that an error names is that one: the lines before it are taken in, and whatever comes
behind it makes no difference. The one error that is not about a line is found behind all of them,
when a function is open: its header has been read, and no closing brace since then (`LeavesOpen`).
-/

namespace CircuitQir

/-! ## The first lines of a text -/

/-- A text up to the end of a line, counted from one. -/
def firstLines : Nat → List Char → List Char
  | 0, _ => []
  | _ + 1, [] => []
  | count + 1, '\n' :: cs => '\n' :: firstLines count cs
  | count + 1, c :: cs => c :: firstLines (count + 1) cs

theorem linesFrom_firstLines (count : Nat) (text begun : List Char) :
    linesFrom begun (firstLines (count + 1) text) = (linesFrom begun text).take (count + 1) := by
  induction begun, text using linesFrom.induct generalizing count with
  | case1 begun hempty => simp [firstLines, linesFrom, hempty]
  | case2 begun hempty => simp [firstLines, linesFrom, hempty]
  | case3 begun cs ih =>
    rw [firstLines, linesFrom, linesFrom, List.take_succ_cons]
    cases count with
    | zero => simp [firstLines, linesFrom]
    | succ count => rw [ih]
  | case4 begun c cs hc ih =>
    have hfirst : firstLines (count + 1) (c :: cs) = c :: firstLines (count + 1) cs := by
      rw [firstLines]
      exact fun heq => hc heq
    rw [hfirst, linesFrom, linesFrom, ih]
    · exact fun heq => hc heq
    · exact fun heq => hc heq

/-- The first lines of a text are lines of it. -/
theorem linesOf_firstLines (count : Nat) (text : List Char) :
    linesOf (firstLines count text) = (linesOf text).take count := by
  cases count with
  | zero => simp [firstLines, linesOf, linesFrom]
  | succ count => exact linesFrom_firstLines count text []

namespace Assembly

open Ir

namespace Draft

/-! ## Runs -/

theorem lines_append (d : Draft) (number : Nat) (front rest : List (List Char)) :
    d.lines number (front ++ rest) =
      d.lines number front >>= fun d' => d'.lines (number + front.length) rest := by
  induction front generalizing d number with
  | nil => rfl
  | cons l front ih =>
    rw [List.cons_append, lines, lines, List.length_cons]
    cases hl : d.line l with
    | error issue => rfl
    | ok d' =>
      dsimp only
      rw [ih, Nat.add_right_comm, Nat.add_assoc]

/-- Reading fails at a line that is rejected behind others that are taken in. -/
theorem lines_eq_error_iff {d : Draft} {number : Nat} {ls : List (List Char)} {e : Error} :
    d.lines number ls = .error e ↔ ∃ front l rest d', ls = front ++ l :: rest ∧
      d.lines number front = .ok d' ∧ d'.line l = .error e.issue ∧
        e.line = number + front.length := by
  constructor
  · intro h
    induction ls generalizing d number with
    | nil => cases h
    | cons l ls ih =>
      rw [lines] at h
      cases hl : d.line l with
      | error issue =>
        rw [hl] at h
        obtain rfl := Except.error.inj h
        exact ⟨[], l, ls, d, rfl, rfl, hl, rfl⟩
      | ok d' =>
        rw [hl] at h
        obtain ⟨front, l', rest, d'', rfl, hfront, hl', hline⟩ := ih h
        refine ⟨l :: front, l', rest, d'', rfl, ?_, hl', ?_⟩
        · rw [lines, hl]
          exact hfront
        · rw [hline, List.length_cons]
          omega
  · rintro ⟨front, l, rest, d', rfl, hfront, hl, hline⟩
    rw [lines_append, bind_of_ok hfront, lines, hl, ← hline]

/-! ## Single lines -/

theorem whole_ne_unterminated {α : Type} (r : Rule α) (line : List Char) :
    whole r line ≠ .error .unterminated := by
  intro h
  unfold whole at h
  dsimp only at h
  split at h <;> cases h

/-- No line is to blame for a function that is not terminated. -/
theorem line_ne_unterminated (d : Draft) (raw : List Char) :
    d.line raw ≠ .error .unterminated := by
  have hlast {α β : Type} {r : Rule α} {line : List Char} {f : α → β}
      (h : (do return f (← whole r line) : Except Issue β) = .error .unterminated) : False := by
    rcases bind_eq_error h with hwhole | ⟨x, -, hpure⟩
    · exact whole_ne_unterminated r line hwhole
    · cases hpure
  intro h
  unfold line at h
  dsimp only at h
  split at h
  · cases h
  split at h
  · unfold bodyLine at h
    split at h
    · cases h
    split at h
    · exact hlast h
    · rcases bind_eq_error h with hwhole | ⟨i, -, h⟩
      · exact whole_ne_unterminated _ _ hwhole
      · rcases bind_eq_error h with happended | ⟨f, -, hpure⟩
        · unfold appended at happended
          split at happended <;> cases happended
        · cases hpure
  · unfold moduleLine at h
    split at h
    · exact hlast h
    split at h
    · exact hlast h
    split at h
    · exact hlast h
    split at h
    · exact hlast h
    split at h
    · cases h
    split at h
    · exact hlast h
    · cases h

theorem issue_of_lines {d : Draft} {number : Nat} {ls : List (List Char)} {e : Error}
    (h : d.lines number ls = .error e) : e.issue ≠ .unterminated := by
  obtain ⟨front, l, rest, d', -, -, hl, -⟩ := lines_eq_error_iff.mp h
  intro hissue
  exact line_ne_unterminated d' l (hissue ▸ hl)

/-! ## Open functions -/

theorem startsWith_of_head {line : List Char} {text : String} {c : Char}
    (hc : text.toList.head? = some c) (h : startsWith line text = true) : line.head? = some c := by
  obtain ⟨tail, htail⟩ := List.isPrefixOf_iff_prefix.mp h
  rw [← htail, List.head?_append, hc]
  rfl

/-- A line starts in one way only. -/
theorem not_startsWith {line : List Char} {text text' : String} (hapart : Rule.Apart text text')
    (h : startsWith line text = true) : startsWith line text' ≠ true := by
  intro h'
  have hprefix := List.isPrefixOf_iff_prefix.mp h
  have hprefix' := List.isPrefixOf_iff_prefix.mp h'
  rcases List.prefix_or_prefix_of_prefix hprefix hprefix' with hle | hle
  · exact hapart.1 hle
  · exact hapart.2 hle

theorem isSome_current_of_bodyLine {m : Module} {f : Function} {line : List Char} {d : Draft}
    (h : bodyLine m f line = .ok d) : d.current.isSome = true ↔ line ≠ ['\x7d'] := by
  unfold bodyLine at h
  split at h
  · rename_i hclose
    obtain rfl := Except.ok.inj h
    simp [hclose]
  · rename_i hclose
    have hsome : d.current.isSome = true := by
      split at h
      · obtain ⟨label, -, h⟩ := bind_eq_ok h
        obtain rfl := Except.ok.inj h
        rfl
      · obtain ⟨i, -, h⟩ := bind_eq_ok h
        obtain ⟨f', -, h⟩ := bind_eq_ok h
        obtain rfl := Except.ok.inj h
        rfl
    exact iff_of_true hsome hclose

theorem isSome_current_of_moduleLine {m : Module} {line : List Char} {d : Draft}
    (h : moduleLine m line = .ok d) :
    d.current.isSome = true ↔ startsWith line "define " = true := by
  have hno {x : Option Function} (hx : x = none) (hheader : startsWith line "define " ≠ true) :
      x.isSome = true ↔ startsWith line "define " = true := by
    subst hx
    exact iff_of_false nofun hheader
  unfold moduleLine at h
  split at h
  · rename_i hname
    obtain ⟨name, -, h⟩ := bind_eq_ok h
    obtain rfl := Except.ok.inj h
    exact hno rfl (not_startsWith (by decide) hname)
  split at h
  · rename_i hdeclaration
    obtain ⟨decl, -, h⟩ := bind_eq_ok h
    obtain rfl := Except.ok.inj h
    exact hno rfl (not_startsWith (by decide) hdeclaration)
  split at h
  · rename_i hheader
    obtain ⟨f, -, h⟩ := bind_eq_ok h
    obtain rfl := Except.ok.inj h
    exact iff_of_true rfl hheader
  rename_i hheader
  split at h
  · obtain ⟨g, -, h⟩ := bind_eq_ok h
    obtain rfl := Except.ok.inj h
    exact hno rfl hheader
  split at h
  · obtain rfl := Except.ok.inj h
    exact hno rfl hheader
  split at h
  · obtain ⟨f, -, h⟩ := bind_eq_ok h
    obtain rfl := Except.ok.inj h
    exact hno rfl hheader
  · cases h

/-- A function is open behind a line if the line is its header, or if it was open before and the
line does not close it. -/
theorem isSome_current_of_line {d d' : Draft} {raw : List Char} (h : d.line raw = .ok d') :
    d'.current.isSome = true ↔ startsWith (trimmed raw) "define " = true ∨
      d.current.isSome = true ∧ trimmed raw ≠ ['\x7d'] := by
  obtain ⟨m, current⟩ := d
  unfold line at h
  dsimp only at h
  generalize trimmed raw = l at h ⊢
  have hclose : startsWith l "define " = true → l ≠ ['\x7d'] := by
    rintro hheader rfl
    cases startsWith_of_head rfl hheader
  split at h
  · -- A line that means nothing is neither.
    rename_i hskip
    obtain rfl := Except.ok.inj h
    have hheader : startsWith l "define " ≠ true := by
      intro hheader
      rw [Bool.or_eq_true, startsWith_of_head rfl hheader] at hskip
      rcases hskip with hempty | hcomment
      · rw [List.isEmpty_iff] at hempty
        subst hempty
        cases hheader
      · cases hcomment
    have hopen : l ≠ ['\x7d'] := by
      rintro rfl
      cases hskip
    simp [hheader, hopen]
  cases current with
  | some f =>
    rw [isSome_current_of_bodyLine h]
    exact ⟨fun hne => .inr ⟨rfl, hne⟩, fun hor => hor.elim hclose And.right⟩
  | none =>
    rw [isSome_current_of_moduleLine h]
    exact ⟨.inl, fun hor => hor.elim id fun hand => absurd hand.1 nofun⟩

/-- A function is open behind some lines: its header is among them, and no line behind that closes
it. -/
def LeavesOpen (ls : List (List Char)) : Prop :=
  ∃ front header body, ls = front ++ header :: body ∧
    startsWith (trimmed header) "define " = true ∧ ∀ l ∈ body, trimmed l ≠ ['\x7d']

theorem leavesOpen_concat {ls : List (List Char)} {l : List Char} :
    LeavesOpen (ls ++ [l]) ↔
      startsWith (trimmed l) "define " = true ∨ LeavesOpen ls ∧ trimmed l ≠ ['\x7d'] := by
  constructor
  · rintro ⟨front, header, body, heq, hheader, hbody⟩
    rcases List.eq_nil_or_concat body with rfl | ⟨body, l', rfl⟩
    · obtain ⟨-, rfl⟩ := List.append_inj' heq rfl |>.imp id fun h => List.singleton_inj.mp h
      exact .inl hheader
    · rw [List.concat_eq_append] at heq hbody
      rw [← List.cons_append, ← List.append_assoc] at heq
      obtain ⟨rfl, hl⟩ := List.append_inj' heq rfl
      obtain rfl := List.singleton_inj.mp hl
      obtain ⟨hbody, hlast⟩ := List.forall_mem_append.mp hbody
      exact .inr ⟨⟨front, header, body, rfl, hheader, hbody⟩, hlast _ List.mem_cons_self⟩
  · rintro (hheader | ⟨⟨front, header, body, rfl, hheader, hbody⟩, hlast⟩)
    · exact ⟨ls, l, [], rfl, hheader, nofun⟩
    · refine ⟨front, header, body ++ [l], by simp, hheader, ?_⟩
      exact List.forall_mem_append.mpr ⟨hbody, List.forall_mem_singleton.mpr hlast⟩

/-- The draft behind some lines has a current function exactly if one is open behind them. -/
theorem isSome_current_of_lines {ls : List (List Char)} {d : Draft}
    (h : Draft.empty.lines 1 ls = .ok d) : d.current.isSome = true ↔ LeavesOpen ls := by
  induction ls using List.reverseRecOn generalizing d with
  | nil =>
    obtain rfl := Except.ok.inj h
    refine iff_of_false nofun ?_
    rintro ⟨front, header, body, heq, -⟩
    exact absurd heq (by simp)
  | append_singleton ls l ih =>
    rw [lines_append] at h
    obtain ⟨d', hd', h⟩ := bind_eq_ok h
    rw [lines] at h
    cases hl : d'.line l with
    | error issue =>
      rw [hl] at h
      cases h
    | ok d'' =>
      rw [hl] at h
      obtain rfl := Except.ok.inj h
      rw [isSome_current_of_line hl, ih hd', leavesOpen_concat]

/-- A line is rejected behind others that are taken in. -/
def Rejects (front : List (List Char)) (l : List Char) : Prop :=
  ∃ d issue, empty.lines 1 front = .ok d ∧ d.line l = .error issue

/-- All lines are taken in exactly if none is rejected. -/
theorem exists_lines_ok_iff {ls : List (List Char)} : (∃ d, empty.lines 1 ls = .ok d) ↔
    ∀ front l rest, ls = front ++ l :: rest → ¬ Rejects front l := by
  constructor
  · rintro ⟨d, hd⟩ front l rest hls ⟨d', issue, hfront, hl⟩
    have herror : empty.lines 1 ls = .error ⟨1 + front.length, issue⟩ :=
      lines_eq_error_iff.mpr ⟨front, l, rest, d', hls, hfront, hl, rfl⟩
    rw [herror] at hd
    cases hd
  · intro hnone
    cases hlines : empty.lines 1 ls with
    | ok d => exact ⟨d, rfl⟩
    | error e =>
      obtain ⟨front, l, rest, d, hls, hfront, hl, -⟩ := lines_eq_error_iff.mp hlines
      exact absurd ⟨d, e.issue, hfront, hl⟩ (hnone front l rest hls)

end Draft

open Draft

/-! ## Texts -/

theorem parse_eq (t : String) :
    parse t = Draft.empty.lines 1 (linesOf t.toList) >>= fun d =>
      match d.current with
      | none => .ok d.module
      | some _ => .error ⟨(linesOf t.toList).length, .unterminated⟩ := by
  unfold parse
  congr 1

/-- If all lines of a text are taken in, reading ends with a module or with an open function. -/
theorem parse_of_lines {t : String} {d : Draft}
    (h : Draft.empty.lines 1 (linesOf t.toList) = .ok d) :
    (∃ m, parse t = .ok m) ∨ parse t = .error ⟨(linesOf t.toList).length, .unterminated⟩ := by
  obtain ⟨m, current⟩ := d
  rw [parse_eq, bind_of_ok h]
  cases current with
  | none => exact .inl ⟨m, rfl⟩
  | some f => exact .inr rfl

/-- An error about a line comes from taking the lines in. -/
theorem lines_of_parse_error {t : String} {e : Error} (h : parse t = .error e)
    (hissue : e.issue ≠ .unterminated) :
    Draft.empty.lines 1 (linesOf t.toList) = .error e := by
  rw [parse_eq] at h
  rcases bind_eq_error h with hlines | ⟨⟨m, current⟩, -, h⟩
  · exact hlines
  · cases current with
    | none => cases h
    | some f =>
      obtain rfl := Except.error.inj h
      exact absurd rfl hissue

/-- An error names the first line of a text that is rejected. -/
structure NamesFirst (t : String) (e : Error) : Prop where
  /-- The line that it names is rejected behind the lines before it. -/
  rejected : ∃ front l rest, linesOf t.toList = front ++ l :: rest ∧ Rejects front l ∧
    e.line = front.length + 1
  /-- The text of the lines before it is read, unless it ends in an open function. -/
  before : (∃ m, parse (String.ofList (firstLines (e.line - 1) t.toList)) = .ok m) ∨
    parse (String.ofList (firstLines (e.line - 1) t.toList)) =
      .error ⟨e.line - 1, .unterminated⟩
  /-- It is the error of every text that goes on in another way behind the line. -/
  behind : ∀ s : String,
    (linesOf s.toList).take e.line = (linesOf t.toList).take e.line → parse s = .error e

theorem namesFirst_of_parse {t : String} {e : Error} (h : parse t = .error e)
    (hissue : e.issue ≠ .unterminated) : NamesFirst t e := by
  obtain ⟨front, l, rest, d, hls, hfront, hl, hline⟩ :=
    lines_eq_error_iff.mp (lines_of_parse_error h hissue)
  rw [Nat.add_comm] at hline
  refine ⟨⟨front, l, rest, hls, ⟨d, e.issue, hfront, hl⟩, hline⟩, ?_, fun s hs => ?_⟩
  · have hfirst : linesOf (String.ofList (firstLines (e.line - 1) t.toList)).toList = front := by
      rw [String.toList_ofList, linesOf_firstLines, hls, hline, Nat.add_sub_cancel,
        List.take_left]
    have hlength : e.line - 1 = front.length := by
      rw [hline, Nat.add_sub_cancel]
    have hread := parse_of_lines (hfirst ▸ hfront)
    rw [hfirst, ← hlength] at hread
    exact hread
  · have hagree : (linesOf t.toList).take e.line = front ++ [l] := by
      rw [hls, hline, List.take_length_add_append, List.take_succ_cons, List.take_zero]
    have hsplit := (List.take_append_drop e.line (linesOf s.toList)).symm
    rw [hs, hagree, List.append_assoc, List.singleton_append] at hsplit
    have hlines : Draft.empty.lines 1 (linesOf s.toList) = .error e := by
      refine lines_eq_error_iff.mpr ⟨front, l, _, d, hsplit, hfront, hl, ?_⟩
      rw [hline, Nat.add_comm]
    rw [parse_eq, bind_of_error hlines]

/-- Where a function is open at the end of a text, all lines have been taken in. -/
theorem lines_of_parse_unterminated {t : String} {n : Nat}
    (h : parse t = .error ⟨n, .unterminated⟩) :
    ∃ d, Draft.empty.lines 1 (linesOf t.toList) = .ok d ∧ d.current.isSome = true ∧
      n = (linesOf t.toList).length := by
  rw [parse_eq] at h
  rcases bind_eq_error h with hlines | ⟨⟨m, current⟩, hlines, h⟩
  · exact absurd rfl (issue_of_lines hlines)
  · cases current with
    | none => cases h
    | some f => exact ⟨_, hlines, rfl, (Error.mk.inj (Except.error.inj h)).1.symm⟩

/-- A function is found to be open at the end of a text exactly if no line is rejected and the
lines leave one open. -/
theorem parse_unterminated_iff {t : String} {n : Nat} :
    parse t = .error ⟨n, .unterminated⟩ ↔
      (∀ front l rest, linesOf t.toList = front ++ l :: rest → ¬ Rejects front l) ∧
        LeavesOpen (linesOf t.toList) ∧ n = (linesOf t.toList).length := by
  rw [← exists_lines_ok_iff]
  constructor
  · intro h
    obtain ⟨d, hlines, hopen, hn⟩ := lines_of_parse_unterminated h
    exact ⟨⟨d, hlines⟩, (isSome_current_of_lines hlines).mp hopen, hn⟩
  · rintro ⟨⟨d, hlines⟩, hopen, rfl⟩
    obtain ⟨f, hf⟩ := Option.isSome_iff_exists.mp ((isSome_current_of_lines hlines).mpr hopen)
    rw [parse_eq, bind_of_ok hlines, hf]

/-- Every error names the line it is about: the first line that is rejected, or, where none is and
a function is open at the end, the last line. -/
theorem parse_error_line (t : String) :
    (∀ e, parse t = .error e → e.issue ≠ .unterminated → NamesFirst t e) ∧
      ∀ n, parse t = .error ⟨n, .unterminated⟩ ↔
        (∀ front l rest, linesOf t.toList = front ++ l :: rest → ¬ Rejects front l) ∧
          LeavesOpen (linesOf t.toList) ∧ n = (linesOf t.toList).length :=
  ⟨fun _ => namesFirst_of_parse, fun _ => parse_unterminated_iff⟩

/-- A text with an instruction ahead of the first label. -/
def earlyReturn : String := "; one\r\n define void @m() \x7b\n\n\tret void \nentry:\n\x7d"

theorem parse_earlyReturn : parse earlyReturn = .error ⟨4, .outsideBlock⟩ ∧
    NamesFirst earlyReturn ⟨4, .outsideBlock⟩ ∧
      parse "; one\n define void @m() \x7b\n\n\tret void \r\nnothing" =
        .error ⟨4, .outsideBlock⟩ := by
  have herror : parse earlyReturn = .error ⟨4, .outsideBlock⟩ := by decide +kernel
  have hnames := (parse_error_line earlyReturn).1 _ herror nofun
  exact ⟨herror, hnames, hnames.behind _ (by decide +kernel)⟩

end Assembly

end CircuitQir
