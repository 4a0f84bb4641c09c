import TreeEdit.Proofs.Brackets
import TreeEdit.Proofs.Hanging
import TreeEdit.Proofs.Tiling

/-!
# Indentation moves tokens

Before a text is indented, a scan of its own finds out, line by line, which lines start inside a string
literal. The scanner that cuts the text into tokens knows nothing of lines. The two agree on every text:
quotes in comments, semicolons in strings, backslashes in and outside of strings and at the end of a line
are taken alike. So the tokens stay, and it can be told from them alone where each of them is found
afterwards: a line is not moved if it is the first, or if one of the tokens goes on over its start.

Main statement: `hangingIndent_only_moves_tokens`.
-/

namespace TreeEdit

open Lexeme

/-! ## Positions in an indented text -/

/-- The token goes on over the start of the line. Only a string literal can do so. -/
def Token.Crosses (t : Token) (line : Nat) : Prop := t.span.start.line < line ∧ line ≤ t.span.stop.line

instance (t : Token) (line : Nat) : Decidable (t.Crosses line) := inferInstanceAs (Decidable (_ ∧ _))

/-- Where a position is found once all lines are indented but the first and those that start inside a token. -/
def Pos.indented (column : Nat) (ts : List Token) (p : Pos) : Pos :=
  if p.line = 0 ∨ ∃ t ∈ ts, t.Crosses p.line then p else ⟨p.line, p.ch + column⟩

/-- A span between two positions that are indented. -/
def Span.indented (column : Nat) (ts : List Token) (s : Span) : Span :=
  ⟨s.start.indented column ts, s.stop.indented column ts⟩

namespace Pos

variable {column : Nat} {ts : List Token} {p : Pos} {cs : List Char}

@[simp] theorem line_indented : (p.indented column ts).line = p.line := by
  unfold indented
  split <;> rfl

@[simp] theorem indented_zero : p.indented 0 ts = p := by
  unfold indented
  split <;> rfl

/-- A walk from an indented position leads to an indented position, unless it starts a line outside of the
tokens. -/
theorem indented_advanceOver
    (h : (p.advanceOver cs).line ≠ p.line → ∃ t ∈ ts, t.Crosses (p.advanceOver cs).line) :
    (p.advanceOver cs).indented column ts = (p.indented column ts).advanceOver cs := by
  have hover := fun q : Pos => advanceOver_eq q cs
  generalize zero.advanceOver cs = w at hover
  -- On one line the columns grow alike. Over a newline they are counted anew, wherever the walk started.
  by_cases hline : w.line = 0
  · simp only [hover, hline, if_true, Nat.add_zero]
    unfold indented
    split
    · rfl
    · rw [Nat.add_right_comm]
  · have hcrosses : ∃ t ∈ ts, t.Crosses (p.advanceOver cs).line := by
      apply h
      rw [hover]
      show p.line + w.line ≠ p.line
      omega
    rw [indented, if_pos (.inr hcrosses), hover, hover, line_indented, if_neg hline, if_neg hline]

end Pos

/-! ## Tokens in an indented text -/

/-- A token in its place once the text is indented. -/
def Token.indented (column : Nat) (ts : List Token) (t : Token) : Token :=
  { t with span := t.span.indented column ts }

namespace Lexeme

variable {column : Nat} {l : Lexeme} {p : Pos} {t : Token}

/-- The token of a lexeme is the same wherever it stands, but for its span. -/
theorem token?_elsewhere (h : l.token? p = some t) (q : Pos) :
    l.token? q = some ⟨t.kind, t.text, ⟨q, q.advanceOver t.text.toList⟩⟩ := by
  cases l with
  | blank c => cases h
  | _ =>
      cases h
      simp [token?, Token.ofChars]

/-- A token ends on the same line as its lexeme, for there is no newline among the blanks a comment loses. -/
theorem line_token?_stop (hok : l.Ok) (h : l.token? p = some t) :
    (p.advanceOver l.chars).line = t.span.stop.line := by
  obtain ⟨blanks, hchars, -, hspan⟩ := token?_chars h
  have hblanks : '\n' ∉ blanks := by
    cases l with
    | blank c => cases h
    | comment body =>
        have hbody : '\n' ∉ ';' :: body := List.not_mem_cons_of_ne_of_not_mem (by decide) hok
        rw [show ';' :: body = t.text.toList ++ blanks from hchars] at hbody
        exact fun hmem => hbody (List.mem_append_right _ hmem)
    | _ =>
        cases h
        have hnone : blanks = [] := by simpa [chars, Token.ofChars] using hchars
        simp [hnone]
  rw [hspan, hchars, Pos.advanceOver_append, Pos.advanceOver_of_not_mem hblanks]

/-- A token has a character that is not blank, so the line it starts on is not blank from there on. -/
theorem blankLine_token (hok : l.Ok) (h : l.token? p = some t) (ls : List Lexeme) :
    blankLine (text (l :: ls)) = false := by
  have hhead : ∃ c cs, l.chars = c :: cs ∧ isBlank c = false := by
    cases l with
    | blank c => cases h
    | opening b => exact ⟨b.opener, [], rfl, by cases b <;> decide⟩
    | closing b => exact ⟨b.closer, [], rfl, by cases b <;> decide⟩
    | atom cs =>
        obtain ⟨c, cs, rfl⟩ := List.exists_cons_of_ne_nil hok.1
        exact ⟨c, cs, rfl, isBlank_of_not_isDelimiter (hok.2 c List.mem_cons_self)⟩
    | string body => exact ⟨'"', body, rfl, by decide⟩
    | comment body => exact ⟨';', body, rfl, by decide⟩
  obtain ⟨c, cs, hchars, hc⟩ := hhead
  have hline : c ≠ '\n' := by
    rintro rfl
    cases hc
  simp [blankLine, hchars, hline, hc]

theorem blankLine_blank {c : Char} (hc : isBlank c = true) (hline : c ≠ '\n') (ls : List Lexeme) :
    blankLine (text (blank c :: ls)) = blankLine (text ls) := by
  simp [blankLine, chars, hline, hc]

/-- From an indented position on, a token and what follows it are indented. -/
theorem token?_indented {ts : List Token} (hok : l.Ok) (h : l.token? p = some t) (ht : t ∈ ts) (column : Nat) :
    l.token? (p.indented column ts) = some (t.indented column ts) ∧
      (p.advanceOver l.chars).indented column ts = (p.indented column ts).advanceOver l.chars := by
  obtain ⟨-, -, -, hspan⟩ := token?_chars h
  have hstop := line_token?_stop hok h
  -- If the lexeme ends on a later line, its token goes on over the start of that line.
  have hcrosses : (p.advanceOver l.chars).line ≠ p.line → ∃ t ∈ ts, t.Crosses (p.advanceOver l.chars).line := by
    intro hne
    have hle := p.line_le_advanceOver l.chars
    refine ⟨t, ht, ?_, hstop.le⟩
    rw [hspan]
    show p.line < _
    omega
  refine ⟨?_, Pos.indented_advanceOver hcrosses⟩
  have hend : t.span.stop.indented column ts = (p.indented column ts).advanceOver t.text.toList := by
    rw [hspan] at hstop ⊢
    refine Pos.indented_advanceOver fun hne => ?_
    rw [← hstop] at hne ⊢
    exact hcrosses hne
  rw [token?_elsewhere h, Token.indented, Span.indented, hend, hspan]

theorem newline_not_mem_margin {column : Nat} {inside : Bool} {cs : List Char} : '\n' ∉ margin column inside cs := by
  unfold margin
  split <;> simp

theorem advanceOver_margin (column : Nat) (inside : Bool) (cs : List Char) (p : Pos) :
    p.advanceOver (margin column inside cs) = ⟨p.line, p.ch + if !inside && !blankLine cs then column else 0⟩ := by
  rw [Pos.advanceOver_of_not_mem newline_not_mem_margin, margin]
  split
  · rw [List.length_replicate]
  · rfl

/-- No token goes on over a newline that stands between the tokens. -/
theorem not_crosses_next_line {before after : List Lexeme} (hok : ∀ l ∈ before ++ blank '\n' :: after, l.Ok)
    (ht : t ∈ tokens .zero (before ++ blank '\n' :: after)) :
    ¬ t.Crosses ((Pos.zero.advanceOver (text before)).line + 1) := by
  rintro ⟨hstart, hstop⟩
  rw [tokens_append] at ht
  rcases List.mem_append.1 ht with ht | ht
  · obtain ⟨-, -, hle⟩ := mem_tokens_between (fun l hl => hok l (List.mem_append_left _ hl)) ht
    have hline := Pos.le_def.1 hle
    omega
  · have hafter : t ∈ tokens ((Pos.zero.advanceOver (text before)).advance '\n') after := ht
    obtain ⟨hle, -⟩ := mem_tokens_between (fun l hl => hok l (by simp [hl])) hafter
    have hline : (Pos.zero.advanceOver (text before)).line + 1 ≤ t.span.start.line := Pos.line_le_of_le hle
    omega

/-- A line that starts between the tokens is indented. -/
theorem indented_next_line {before after : List Lexeme} (hok : ∀ l ∈ before ++ blank '\n' :: after, l.Ok) :
    ((Pos.zero.advanceOver (text before)).advance '\n').indented column
        (tokens .zero (before ++ blank '\n' :: after)) =
      ⟨(Pos.zero.advanceOver (text before)).line + 1, column⟩ := by
  rw [Pos.indented, if_neg]
  · show (⟨_, 0 + column⟩ : Pos) = _
    rw [Nat.zero_add]
    rfl
  · rintro (hzero | ⟨t, ht, hcrosses⟩)
    · cases hzero
    · exact not_crosses_next_line hok ht hcrosses

/-- The rest of a text whose lines are shifted, read from where its start is found: every token is found where
its span is indented. On a line that is blank from here on there is no token, and it does not matter where its
start is. -/
theorem tokens_hang {ts : List Token} (before : List Lexeme) {after : List Lexeme} (hrun : Run (before ++ after))
    (hts : tokens .zero (before ++ after) = ts) {p q : Pos} (hp : Pos.zero.advanceOver (text before) = p)
    (hline : q.line = p.line) (hplace : blankLine (text after) = false → q = p.indented column ts) :
    tokens q (hang column after) = (tokens p after).map (Token.indented column ts) := by
  induction after generalizing before p q with
  | nil => rfl
  | cons l ls ih =>
      have hok : l.Ok := hrun.ok l (by simp)
      have hnext : ∀ q : Pos, q.line = (p.advanceOver l.chars).line →
          (blankLine (text ls) = false → q = (p.advanceOver l.chars).indented column ts) →
          tokens q (hang column ls) = (tokens (p.advanceOver l.chars) ls).map (Token.indented column ts) := by
        intro q
        refine ih (before ++ [l]) ?_ ?_ ?_
        · rwa [List.append_assoc]
        · rwa [List.append_assoc]
        · rw [text_append, Pos.advanceOver_append, hp, text_cons, text_nil, List.append_nil]
      rw [hang, tokens, tokens]
      by_cases hl : l = blank '\n'
      · -- The next line: its margin is put in unless it is blank, and no token goes on over its start.
        subst hl
        rw [gap, if_pos rfl, tokens_append, tokens_blanks, text_blanks, advanceOver_margin]
        refine hnext _ (congrArg (· + 1) hline) fun hblank => ?_
        subst hts hp
        show (⟨q.line + 1, 0 + _⟩ : Pos) = Pos.indented column _ (Pos.advance _ '\n')
        rw [indented_next_line hrun.ok, hline, hblank, Nat.zero_add]
        rfl
      · rw [gap_of_ne hl, List.nil_append, List.map_append]
        cases htoken : l.token? p with
        | none =>
            obtain ⟨c, rfl⟩ := token?_eq_none htoken
            have hc : c ≠ '\n' := fun hc => hl (hc ▸ rfl)
            have hover : ∀ q : Pos, q.advanceOver (chars (blank c)) = ⟨q.line, q.ch + 1⟩ :=
              Pos.advanceOver_of_not_mem (by simpa [chars] using Ne.symm hc)
            refine hnext _ (by rw [hover, hover, hline]) fun hblank => ?_
            rw [hplace ((blankLine_blank hok hc ls).trans hblank), Pos.indented_advanceOver]
            intro hne
            rw [hover] at hne
            exact absurd rfl hne
        | some t =>
            obtain rfl := hplace (blankLine_token hok htoken ls)
            have ht : t ∈ ts := by
              rw [← hts, tokens_append, hp, tokens, htoken]
              simp
            obtain ⟨hmoved, hbehind⟩ := token?_indented hok htoken ht column
            rw [hmoved, hnext _ ?_ fun _ => hbehind.symm]
            · rfl
            · rw [← hbehind, Pos.line_indented]

end Lexeme

/-! ## Strings without an end -/

/-- Shifting lines leaves as many of them as there were. -/
theorem count_newline_shift (column : Nat) (ends : List Char → Bool) (cs : List Char) :
    (shift column ends cs).count '\n' = cs.count '\n' := by
  induction cs generalizing ends with
  | nil => rw [shift_nil]
  | cons c cs ih =>
      by_cases hc : c = '\n'
      · subst hc
        have hmargin : (margin column (ends []) cs).count '\n' = 0 :=
          List.count_eq_zero.2 newline_not_mem_margin
        rw [shift_newline, List.count_cons, List.count_append, hmargin, ih, Nat.zero_add, List.count_cons]
      · rw [shift_cons hc, List.count_cons, ih, List.count_cons]

namespace Lexeme

theorem Before.shift {l : Lexeme} {cs : List Char} (h : l.Before cs) (column : Nat) (ends : List Char → Bool) :
    l.Before (shift column ends cs) := by
  cases l with
  | atom => simpa only [Before, head?_shift] using h
  | comment => simpa only [Before, head?_shift] using h
  | _ => trivial

/-- In front of a string without an end the lines are shifted, and the string is left as it is. -/
theorem exists_run_shift {ls : List Lexeme} (hrun : Run ls) (hclosed : Closed ls) {rest : List Char}
    (hrest : stringBody rest = none) (column : Nat) :
    ∃ ls', Run ls' ∧ Closed ls' ∧
      shift column (endsInString false) (text ls ++ '"' :: rest) = text ls' ++ '"' :: rest := by
  induction ls with
  | nil =>
      refine ⟨[], .nil, by simp [Closed], ?_⟩
      rw [text_nil, List.nil_append, shift_quote, shift_inside, hrest]
      rfl
  | cons l ls ih =>
      obtain ⟨hok, hbefore, hrun, hclosed⟩ := (run_cons_iff_before_string rest).1 ⟨hrun, hclosed⟩
      obtain ⟨ls', hrun', hclosed', hshift⟩ := ih hrun hclosed
      rw [text_cons, List.append_assoc]
      by_cases hl : l = blank '\n'
      · -- The margin is that of the whole rest: a line may be blank up to the open string and not behind it.
        subst hl
        refine ⟨blank '\n' :: (blanks (margin column false (text ls ++ '"' :: rest)) ++ ls'), ?_, ?_, ?_⟩
        · exact (hrun'.blanks_append isBlank_of_mem_margin).cons hok trivial
        · have hnewline : Closed [blank '\n'] := closed_blanks ['\n']
          exact hnewline.append ((closed_blanks _).append hclosed')
        · show shift column (endsInString false) ('\n' :: (text ls ++ '"' :: rest)) = _
          rw [shift_newline, text_cons, text_append, text_blanks, List.append_assoc, List.append_assoc, ← hshift]
          rfl
      · have hbefore' : l.Before (text ls' ++ '"' :: rest) := hshift ▸ hbefore.shift column _
        obtain ⟨hrun', hclosed'⟩ := (run_cons_iff_before_string rest).2 ⟨hok, hbefore', hrun', hclosed'⟩
        refine ⟨l :: ls', hrun', hclosed', ?_⟩
        rw [shift_lexeme hok hl hbefore, hshift, text_cons, List.append_assoc]

end Lexeme

/-! ## Indented texts -/

/-- A text with its lines after the first indented is cut into the same tokens, by kind and text, so that no
string literal has other contents than before; or else both texts have a string without an end, and it starts
on the same line. Every token is moved to the right by the indentation, and no further, unless it is on the
first line or on one that starts inside a string literal; such tokens stay where they are. -/
theorem hangingIndent_only_moves_tokens (source : String) (column : Nat) :
    (∀ e, tokenize source = .error e → ∃ f, tokenize (hangingIndent source column) = .error f ∧
      f.cause = e.cause ∧ f.pos.line = e.pos.line) ∧
    ∀ ts, tokenize source = .ok ts → ∃ us, tokenize (hangingIndent source column) = .ok us ∧
      us.map (fun u => (u.kind, u.text)) = ts.map (fun t => (t.kind, t.text)) ∧
      us.map Token.span = ts.map fun t => t.span.indented column ts := by
  by_cases hcolumn : column = 0
  · subst hcolumn
    have hsame : hangingIndent source 0 = source := if_pos rfl
    rw [hsame]
    refine ⟨fun e he => ⟨e, he, rfl, rfl⟩, fun ts hts => ⟨ts, hts, rfl, ?_⟩⟩
    simp [Span.indented]
  · refine ⟨fun e he => ?_, fun ts hts => ?_⟩
    · obtain ⟨ls, rest, hrun, hclosed, hsplit, hrest, rfl⟩ := exists_open_string he
      obtain ⟨ls', hrun', hclosed', hshift⟩ := exists_run_shift hrun hclosed hrest column
      have hfails : tokenize (hangingIndent source column) =
          .error ⟨.unterminatedString, Pos.zero.advanceOver (text ls')⟩ := by
        rw [tokenize, toList_hangingIndent _ hcolumn, hsplit, hshift]
        exact tokensFrom_run_open_string hrun' hclosed' hrest .zero
      refine ⟨_, hfails, rfl, ?_⟩
      -- The text in front of the string has its newlines still, as the string itself has not changed.
      have hlines := count_newline_shift column (endsInString false) (text ls ++ '"' :: rest)
      rw [hshift, List.count_append, List.count_append] at hlines
      show (Pos.zero.advanceOver (text ls')).line = (Pos.zero.advanceOver (text ls)).line
      rw [Pos.line_advanceOver, Pos.line_advanceOver, Nat.add_right_cancel hlines]
    · obtain ⟨ls, hrun, htext, rfl⟩ := tokensFrom_eq_ok_iff.1 hts
      have hmoved : tokens .zero (hang column ls) =
          (tokens .zero ls).map (Token.indented column (tokens .zero ls)) :=
        tokens_hang [] hrun rfl rfl rfl fun _ => (if_pos (.inl rfl)).symm
      refine ⟨(tokens .zero ls).map (Token.indented column (tokens .zero ls)), ?_, ?_, ?_⟩
      · rw [tokenize, toList_hangingIndent _ hcolumn, ← htext, ← text_hang hrun, tokensFrom_run (run_hang hrun column),
          hmoved]
      · rw [List.map_map]
        rfl
      · rw [List.map_map]
        rfl

/-- A string over three lines with a protected quote at the end of the second, and a quote in a comment. Only the
lines behind the string move. A string without an end stays without one. -/
theorem hangingIndent_only_moves_tokens_long_string :
    (∃ us, tokenize (hangingIndent "(f \"a;\n b\\\"\n c\" d\n  x) ; \"\n(g)" 4) = .ok us ∧
      us.map (fun u => (u.kind, u.text)) =
        [(.opening .round, "("), (.atom, "f"), (.string, "\"a;\n b\\\"\n c\""), (.atom, "d"), (.atom, "x"),
          (.closing .round, ")"), (.comment, "; \""), (.opening .round, "("), (.atom, "g"), (.closing .round, ")")] ∧
      us.map (fun u => u.span.start) =
        [⟨0, 0⟩, ⟨0, 1⟩, ⟨0, 3⟩, ⟨2, 4⟩, ⟨3, 6⟩, ⟨3, 7⟩, ⟨3, 9⟩, ⟨4, 4⟩, ⟨4, 5⟩, ⟨4, 6⟩]) ∧
    ∃ f, tokenize (hangingIndent "(f\n\"a\\\"\n" 2) = .error f ∧ f.cause = .unterminatedString ∧ f.pos.line = 1 := by
  refine ⟨?_, ?_⟩
  · have htokens : tokenize "(f \"a;\n b\\\"\n c\" d\n  x) ; \"\n(g)" =
        .ok [⟨.opening .round, "(", ⟨⟨0, 0⟩, ⟨0, 1⟩⟩⟩, ⟨.atom, "f", ⟨⟨0, 1⟩, ⟨0, 2⟩⟩⟩,
          ⟨.string, "\"a;\n b\\\"\n c\"", ⟨⟨0, 3⟩, ⟨2, 3⟩⟩⟩, ⟨.atom, "d", ⟨⟨2, 4⟩, ⟨2, 5⟩⟩⟩,
          ⟨.atom, "x", ⟨⟨3, 2⟩, ⟨3, 3⟩⟩⟩, ⟨.closing .round, ")", ⟨⟨3, 3⟩, ⟨3, 4⟩⟩⟩,
          ⟨.comment, "; \"", ⟨⟨3, 5⟩, ⟨3, 8⟩⟩⟩, ⟨.opening .round, "(", ⟨⟨4, 0⟩, ⟨4, 1⟩⟩⟩,
          ⟨.atom, "g", ⟨⟨4, 1⟩, ⟨4, 2⟩⟩⟩, ⟨.closing .round, ")", ⟨⟨4, 2⟩, ⟨4, 3⟩⟩⟩] := by
      cbv
    obtain ⟨us, hus, hwords, hspans⟩ := (hangingIndent_only_moves_tokens _ 4).2 _ htokens
    refine ⟨us, hus, hwords, ?_⟩
    have hstarts := congrArg (List.map Span.start) hspans
    rw [List.map_map] at hstarts
    exact hstarts.trans (by decide)
  · have hfails : tokenize "(f\n\"a\\\"\n" = .error ⟨.unterminatedString, ⟨1, 0⟩⟩ := by cbv
    exact (hangingIndent_only_moves_tokens _ 2).1 _ hfails

end TreeEdit
