import TreeEdit.Edit.Group
import TreeEdit.Proofs.Spelling

/-!
# Shifting lines keeps what they say

A text with its lines after the first shifted to the right has the same signs: new blanks stand only
behind the end of a line that is not inside a string literal. `shift` is the shifting of all that
follows on a line whose state at its end is known; reading on, character by character, only changes
that state, and over a whole lexeme that is not blank the state comes back to where it was.
-/

namespace TreeEdit

open Lexeme

/-! ## Shifting, character by character -/

/-- Whether there are only blanks up to the end of the line. -/
def blankLine (cs : List Char) : Bool := (cs.takeWhile (· ≠ '\n')).all isBlank

/-- The blanks put in front of a line. -/
def margin (column : Nat) (inside : Bool) (cs : List Char) : List Char :=
  if !inside && !blankLine cs then List.replicate column ' ' else []

/-- The characters with every line after the first shifted; `ends` tells from the rest of the first
line whether a string is open at its end. -/
def shift (column : Nat) (ends : List Char → Bool) (cs : List Char) : List Char :=
  match splitLines cs with
  | [] => []
  | first :: rest => ['\n'].intercalate (first :: indentRest column (ends first) rest)

theorem splitLines_head (cs : List Char) :
    ∃ rest, splitLines cs = cs.takeWhile (· ≠ '\n') :: rest := by
  induction cs with
  | nil => exact ⟨[], rfl⟩
  | cons c cs ih =>
      obtain ⟨rest, hrest⟩ := ih
      by_cases hc : c = '\n'
      · exact ⟨splitLines cs, by simp [splitLines, hc]⟩
      · exact ⟨rest, by simp [splitLines, hc, hrest]⟩

theorem intercalate_append_head (a first : List Char) (rest : List (List Char)) :
    ['\n'].intercalate ((a ++ first) :: rest) = a ++ ['\n'].intercalate (first :: rest) := by
  cases rest with
  | nil => simp
  | cons line rest => simp [List.intercalate_cons_cons]

theorem shift_nil (column : Nat) (ends : List Char → Bool) : shift column ends [] = [] := by
  simp [shift, splitLines, indentRest]

theorem shift_cons {c : Char} (hc : c ≠ '\n') (column : Nat) (ends : List Char → Bool)
    (cs : List Char) :
    shift column ends (c :: cs) = c :: shift column (fun line => ends (c :: line)) cs := by
  obtain ⟨rest, hrest⟩ := splitLines_head cs
  have hcons : splitLines (c :: cs) = (c :: cs.takeWhile (· ≠ '\n')) :: rest := by
    simp [splitLines, hc, hrest]
  rw [shift, shift, hcons, hrest]
  exact intercalate_append_head [c] _ _

theorem shift_newline (column : Nat) (ends : List Char → Bool) (cs : List Char) :
    shift column ends ('\n' :: cs) =
      '\n' :: (margin column (ends []) cs ++ shift column (endsInString (ends [])) cs) := by
  obtain ⟨rest, hrest⟩ := splitLines_head cs
  have hcons : splitLines ('\n' :: cs) = [] :: cs.takeWhile (· ≠ '\n') :: rest := by
    rw [splitLines, if_pos rfl, hrest]
  have hmargin : (if (!ends [] && !(cs.takeWhile (· ≠ '\n')).all isBlank) = true
      then List.replicate column ' ' ++ cs.takeWhile (· ≠ '\n') else cs.takeWhile (· ≠ '\n')) =
      margin column (ends []) cs ++ cs.takeWhile (· ≠ '\n') := by
    rw [margin, blankLine]
    split <;> rfl
  rw [shift, shift, hcons, hrest]
  simp only [indentRest]
  rw [List.intercalate_cons_cons, hmargin, intercalate_append_head]
  rfl

theorem isBlank_of_mem_margin {column : Nat} {inside : Bool} {cs : List Char} :
    ∀ c ∈ margin column inside cs, isBlank c = true := by
  intro c hc
  unfold margin at hc
  split at hc
  · rw [(List.mem_replicate.1 hc).2]
    decide
  · cases hc

/-- The first character stays the first. -/
theorem head?_shift (column : Nat) (ends : List Char → Bool) (cs : List Char) :
    (shift column ends cs).head? = cs.head? := by
  cases cs with
  | nil => rw [shift_nil]
  | cons c cs =>
      by_cases hc : c = '\n'
      · rw [hc, shift_newline]
        rfl
      · rw [shift_cons hc]
        rfl

theorem toList_hangingIndent (s : String) {column : Nat} (h : column ≠ 0) :
    (hangingIndent s column).toList = shift column (endsInString false) s.toList := by
  rw [hangingIndent, if_neg h, shift]
  cases hs : splitLines s.toList with
  | nil => exact absurd hs (splitLines_ne_nil _)
  | cons first rest =>
      simp only
      rw [toList_joinLines, List.map_map]
      simp [Function.comp_def]

/-! ## Shifting, lexeme by lexeme -/

theorem endsInString_cons {inside : Bool} {c : Char} (hquote : c ≠ '"')
    (hsemi : inside = false → c ≠ ';') (hescape : inside = true → c ≠ '\\') (cs : List Char) :
    endsInString inside (c :: cs) = endsInString inside cs := by
  rw [endsInString]
  · exact hquote
  · exact fun h hc _ => hescape h hc
  · exact fun _ _ h hc _ => hescape h hc
  · exact hsemi

theorem shift_plain {cs : List Char} (h : ∀ c ∈ cs, c ≠ '"' ∧ c ≠ ';' ∧ c ≠ '\n') (column : Nat)
    (more : List Char) :
    shift column (endsInString false) (cs ++ more) = cs ++ shift column (endsInString false) more := by
  induction cs with
  | nil => rfl
  | cons c cs ih =>
      obtain ⟨⟨hquote, hsemi, hline⟩, hcs⟩ := List.forall_mem_cons.1 h
      have hends : (fun line => endsInString false (c :: line)) = endsInString false :=
        funext (endsInString_cons hquote (fun _ => hsemi) (by simp))
      rw [List.cons_append, shift_cons hline, hends, ih hcs]
      rfl

/-- Inside a string literal nothing is shifted. -/
theorem shift_inside (column : Nat) (cs : List Char) :
    shift column (endsInString true) cs =
      (stringBody cs).elim cs fun s => s.1 ++ shift column (endsInString false) s.2 := by
  have hstay : ∀ cs, shift column (endsInString true) ('\n' :: cs) =
      '\n' :: shift column (endsInString true) cs := fun cs => shift_newline column _ cs
  fun_induction stringBody cs with
  | case1 => exact shift_nil column _
  | case2 rest =>
      have hends : (fun line => endsInString true ('"' :: line)) = endsInString false := by
        funext line
        rw [endsInString]
        rfl
      rw [shift_cons (by decide), hends]
      rfl
  | case3 =>
      rw [shift_cons (by decide), shift_nil]
      rfl
  | case4 c rest ih =>
      -- A newline behind a backslash ends the line inside the string all the same.
      have hover : shift column (endsInString true) ('\\' :: c :: rest) =
          '\\' :: c :: shift column (endsInString true) rest := by
        rw [shift_cons (by decide)]
        by_cases hc : c = '\n'
        · subst hc
          exact congrArg _ (shift_newline column _ rest)
        · have hends : (fun line => endsInString true ('\\' :: c :: line)) = endsInString true := by
            funext line
            rw [endsInString]
          rw [shift_cons hc, hends]
      rw [hover, ih]
      cases stringBody rest <;> rfl
  | case5 c rest h1 h2 h3 ih =>
      have hover : shift column (endsInString true) (c :: rest) =
          c :: shift column (endsInString true) rest := by
        by_cases hc : c = '\n'
        · rw [hc, hstay]
        · have hends : (fun line => endsInString true (c :: line)) = endsInString true :=
            funext (endsInString_cons h1 (by simp) fun _ => ne_backslash h2 h3)
          rw [shift_cons hc, hends]
      rw [hover, ih]
      cases stringBody rest <;> rfl

theorem shift_quote (column : Nat) (cs : List Char) :
    shift column (endsInString false) ('"' :: cs) = '"' :: shift column (endsInString true) cs := by
  have hends : (fun line => endsInString false ('"' :: line)) = endsInString true := by
    funext line
    rw [endsInString]
    rfl
  rw [shift_cons (by decide), hends]

theorem shift_comment {body : List Char} (hbody : '\n' ∉ body) (column : Nat) {more : List Char}
    (hmore : ∀ c ∈ more.head?, c = '\n') :
    shift column (endsInString false) (';' :: (body ++ more)) =
      ';' :: (body ++ shift column (endsInString false) more) := by
  have hends : (fun line => endsInString false (';' :: line)) = fun _ => false := by
    funext line
    rw [endsInString]
  have hover : shift column (fun _ => false) (body ++ more) = body ++ shift column (fun _ => false) more := by
    induction body with
    | nil => rfl
    | cons c body ih =>
        obtain ⟨hc, hbody⟩ := List.ne_and_not_mem_of_not_mem_cons hbody
        rw [List.cons_append, shift_cons (Ne.symm hc), ih hbody]
        rfl
  have hend : shift column (fun _ => false) more = shift column (endsInString false) more := by
    cases more with
    | nil => rw [shift_nil, shift_nil]
    | cons c more =>
        obtain rfl : c = '\n' := hmore c rfl
        rw [shift_newline, shift_newline]
        rfl
  rw [shift_cons (by decide), hends, hover, hend]

namespace Lexeme

/-- The blanks put in behind a lexeme: those in front of a line, behind the end of the line before. -/
def gap (column : Nat) (l : Lexeme) (ls : List Lexeme) : List Lexeme :=
  if l = blank '\n' then blanks (margin column false (text ls)) else []

/-- The lexemes with every line after the first shifted. -/
def hang (column : Nat) : List Lexeme → List Lexeme
  | [] => []
  | l :: ls => l :: (gap column l ls ++ hang column ls)

theorem gap_of_ne {l : Lexeme} (h : l ≠ blank '\n') (column : Nat) (ls : List Lexeme) :
    gap column l ls = [] := if_neg h

theorem gap_eq_blanks (column : Nat) (l : Lexeme) (ls : List Lexeme) :
    ∃ cs, gap column l ls = blanks cs ∧ ∀ c ∈ cs, isBlank c = true := by
  unfold gap
  split
  · exact ⟨_, rfl, isBlank_of_mem_margin⟩
  · exact ⟨[], rfl, by simp⟩

/-- A lexeme that does not end a line stays as it is, and behind it no string is open. -/
theorem shift_lexeme {l : Lexeme} (hok : l.Ok) (hl : l ≠ blank '\n') {more : List Char} (hmore : l.Before more)
    (column : Nat) :
    shift column (endsInString false) (l.chars ++ more) =
      l.chars ++ shift column (endsInString false) more := by
  cases l with
  | blank c =>
      have hplain : c ≠ '"' ∧ c ≠ ';' ∧ c ≠ '\n' := by
        refine ⟨?_, ?_, ?_⟩ <;> rintro rfl
        · cases hok
        · cases hok
        · exact hl rfl
      exact shift_plain (by simpa [chars] using hplain) column _
  | opening b =>
      refine shift_plain ?_ column _
      cases b <;> simp [chars, Bracket.opener]
  | closing b =>
      refine shift_plain ?_ column _
      cases b <;> simp [chars, Bracket.closer]
  | atom cs =>
      refine shift_plain ?_ column _
      intro c hc
      obtain ⟨-, -, hsemi, hquote⟩ := not_special_of_not_isDelimiter (hok.2 c hc)
      refine ⟨hquote, hsemi, ?_⟩
      rintro rfl
      cases hok.2 _ hc
  | string body =>
      rw [chars, List.cons_append, List.cons_append, shift_quote, shift_inside, stringBody_body_append hok]
      rfl
  | comment body => exact shift_comment hok column hmore

theorem text_hang {ls : List Lexeme} (h : Run ls) (column : Nat) :
    text (hang column ls) = shift column (endsInString false) (text ls) := by
  induction ls with
  | nil => rw [text_nil, shift_nil]; rfl
  | cons l ls ih =>
      rw [hang, text_cons, text_append, ih h.tail, text_cons]
      by_cases hl : l = blank '\n'
      · subst hl
        rw [gap, if_pos rfl, text_blanks]
        exact (shift_newline column (endsInString false) (text ls)).symm
      · rw [gap_of_ne hl, text_nil, List.nil_append]
        exact (shift_lexeme (h.ok l List.mem_cons_self) hl h.before column).symm

theorem signs_hang (column : Nat) (ls : List Lexeme) : signs (hang column ls) = signs ls := by
  induction ls with
  | nil => rfl
  | cons l ls ih =>
      obtain ⟨cs, hgap, -⟩ := gap_eq_blanks column l ls
      rw [hang, signs_cons, signs_append, hgap, signs_blanks, ih, signs_cons]
      rfl

theorem openAfter_hang (column : Nat) (ls : List Lexeme) (opened : List Bracket) :
    openAfter (hang column ls) opened = openAfter ls opened := by
  induction ls generalizing opened with
  | nil => rfl
  | cons l ls ih =>
      obtain ⟨cs, hgap, -⟩ := gap_eq_blanks column l ls
      have hbalanced : Balanced (blanks cs) := balanced_of_signs_eq_nil (signs_blanks cs)
      have hmore : openAfter (blanks cs ++ hang column ls) = openAfter ls := by
        funext opened
        rw [openAfter_append, hbalanced, Option.bind_some, ih]
      rw [hang, hgap, ← List.singleton_append, openAfter_append, hmore, ← openAfter_append]
      rfl

theorem run_hang {ls : List Lexeme} (h : Run ls) (column : Nat) : Run (hang column ls) := by
  induction ls with
  | nil => exact .nil
  | cons l ls ih =>
      obtain ⟨cs, hgap, hblank⟩ := gap_eq_blanks column l ls
      have hrest : Run (gap column l ls ++ hang column ls) := by
        rw [hgap]
        exact (ih h.tail).blanks_append hblank
      refine hrest.cons (h.ok l List.mem_cons_self) ?_
      by_cases hl : l = blank '\n'
      · subst hl
        trivial
      · rw [gap_of_ne hl, List.nil_append]
        cases ls with
        | nil => exact h.before
        | cons m ms =>
            have hm := h.ok m (by simp)
            exact (before_iff_meets hm _).2 ((before_iff_meets hm _).1 h.before)

theorem closed_hang {ls : List Lexeme} (h : Closed ls) (column : Nat) : Closed (hang column ls) := by
  induction ls with
  | nil => exact h
  | cons l ls ih =>
      obtain ⟨cs, hgap, -⟩ := gap_eq_blanks column l ls
      rw [hang, hgap]
      cases ls with
      | nil =>
          have hone : Closed [l] := h
          exact hone.append ((closed_blanks cs).append (ih (by simp [Closed])))
      | cons m ms =>
          have hrest : Closed (hang column (m :: ms)) := by
            refine ih fun x hx => h x ?_
            rwa [List.getLast?_cons_cons]
          intro x hx
          have hx : x ∈ (blanks cs ++ hang column (m :: ms)).getLast? := by
            rw [hang] at hx ⊢
            simpa [List.getLast?_cons, List.getLast?_append] using hx
          exact ((closed_blanks cs).append hrest) x hx

end Lexeme

/-- A text that spells some signs spells them with its lines shifted. -/
theorem hangingIndent_spells {s : String} {ls : List Lexeme} {ss : List Sign} (htext : text ls = s.toList)
    (h : Spells ls ss) (column : Nat) :
    ∃ ls', text ls' = (hangingIndent s column).toList ∧ Spells ls' ss := by
  by_cases hcolumn : column = 0
  · exact ⟨ls, by rw [htext, hangingIndent, if_pos hcolumn], h⟩
  · refine ⟨hang column ls, ?_, run_hang h.run column, closed_hang h.closed column, ?_, ?_⟩
    · rw [text_hang h.run, htext, toList_hangingIndent s hcolumn]
    · intro opened
      rw [openAfter_hang, h.balanced]
    · rw [signs_hang, h.signs_eq]

end TreeEdit
