import Mathlib
import TreeEdit.Proofs.Signs

/-!
# Which texts can be read

A text is read exactly if it can be cut into tokens and its brackets match, whatever the lists in it say.
The brackets are checked in a scan from left to right, with a stack of the ones that are open.

A text that cannot be read has one fault, and the error names it: a string without an end, or else the
first closing bracket that does not match the innermost open one, or else the innermost bracket that is
still open at the end. Main statement: `read_or_faulty`.
-/

namespace TreeEdit

open Reader Lexeme

/-! ## Strings without an end -/

/-- The number of backslashes at the end. -/
def backslashesAtEnd (cs : List Char) : Nat := (cs.reverse.takeWhile (· == '\\')).length

theorem backslashesAtEnd_cons (c : Char) (cs : List Char) :
    backslashesAtEnd (c :: cs) = backslashesAtEnd cs + if c = '\\' ∧ ∀ d ∈ cs, d = '\\' then 1 else 0 := by
  have hall : (cs.reverse.takeWhile (· == '\\')).length = cs.reverse.length ↔ ∀ d ∈ cs, d = '\\' := by
    constructor
    · intro h d hd
      have hself := (List.takeWhile_prefix _).eq_of_length h
      simpa using List.takeWhile_eq_self_iff.1 hself d (List.mem_reverse.2 hd)
    · intro h
      rw [List.takeWhile_eq_self_iff.2 (by simpa using h)]
  -- From behind, the new character is reached only if all the others are backslashes.
  unfold backslashesAtEnd
  rw [List.reverse_cons, List.takeWhile_append]
  by_cases hcs : ∀ d ∈ cs, d = '\\'
  · rw [if_pos (hall.2 hcs)]
    by_cases hc : c = '\\' <;> simp [hc, hall.2 hcs, eq_true hcs]
  · rw [if_neg (mt hall.1 hcs), if_neg (fun h => hcs h.2), Nat.add_zero]

theorem backslashesAtEnd_cons_of_ne {c : Char} (hc : c ≠ '\\') (cs : List Char) :
    backslashesAtEnd (c :: cs) = backslashesAtEnd cs := by
  rw [backslashesAtEnd_cons, if_neg (fun h => hc h.1), Nat.add_zero]

/-- A backslash and the character it protects do not change which characters behind them are protected. -/
theorem odd_backslashesAtEnd_protected (c : Char) (cs : List Char) :
    Odd (backslashesAtEnd ('\\' :: c :: cs)) ↔ Odd (backslashesAtEnd cs) := by
  rw [backslashesAtEnd_cons, backslashesAtEnd_cons]
  by_cases h : c = '\\' ∧ ∀ d ∈ cs, d = '\\'
  · have hmore : ∀ d ∈ c :: cs, d = '\\' := List.forall_mem_cons.2 h
    rw [if_pos h, if_pos ⟨rfl, hmore⟩]
    grind
  · have hmore : ¬ ∀ d ∈ c :: cs, d = '\\' := fun hall => h (List.forall_mem_cons.1 hall)
    rw [if_neg h, if_neg fun hall => hmore hall.2]
    simp

/-- What stands in front of a quote, by the first character. -/
theorem forall_before_quote_cons {P : List Char → Prop} {c : Char} {rest : List Char} :
    (∀ inside after, c :: rest = inside ++ '"' :: after → P inside) ↔
      (c = '"' → P []) ∧ ∀ inside after, rest = inside ++ '"' :: after → P (c :: inside) := by
  constructor
  · intro h
    refine ⟨?_, ?_⟩
    · rintro rfl
      exact h [] rest rfl
    · rintro inside after rfl
      exact h (c :: inside) after rfl
  · rintro ⟨hfirst, hlater⟩ inside after heq
    cases inside with
    | nil => exact hfirst (List.cons.inj heq).1
    | cons d inside =>
        obtain ⟨rfl, rfl⟩ := List.cons.inj heq
        exact hlater inside after rfl

/-- A string does not end if a backslash protects every quote behind its first. -/
theorem stringBody_eq_none_iff {cs : List Char} : stringBody cs = none ↔
    ∀ inside after, cs = inside ++ '"' :: after → Odd (backslashesAtEnd inside) := by
  fun_induction stringBody cs with
  | case1 => simp
  | case2 rest => simp [forall_before_quote_cons, backslashesAtEnd]
  | case3 => simp [forall_before_quote_cons]
  | case4 c rest ih =>
      have hfirst : Odd (backslashesAtEnd ['\\']) := by decide
      rw [Option.map_eq_none_iff, ih, forall_before_quote_cons, forall_before_quote_cons]
      simp [odd_backslashesAtEnd_protected, hfirst]
  | case5 c rest h1 h2 h3 ih =>
      have hc : c ≠ '\\' := ne_backslash h2 h3
      have hquote : c ≠ '"' := h1
      rw [Option.map_eq_none_iff, ih, forall_before_quote_cons]
      simp [backslashesAtEnd_cons_of_ne hc, hquote]

theorem Token.next_eq_error_iff {p : Pos} {c : Char} {rest : List Char} {e : ReadError} :
    Token.next p c rest = .error e ↔
      c = '"' ∧ stringBody rest = none ∧ e = ⟨.unterminatedString, p⟩ := by
  unfold Token.next
  grind [Bracket.ofOpener?, Bracket.ofCloser?]

theorem tokensFrom_error {p : Pos} {c : Char} {rest : List Char} {e : ReadError} (hc : isBlank c = false)
    (h : Token.next p c rest = .error e) : tokensFrom p (c :: rest) = .error e := by
  rw [tokensFrom, if_neg (by simp [hc])]
  split
  · rename_i e' he
    cases he.symm.trans h
    rfl
  · rename_i t body after he
    cases he.symm.trans h

namespace Lexeme

theorem before_quote_iff {l : Lexeme} {rest : List Char} :
    l.Before ('"' :: rest) ↔ ∀ body, l ≠ .comment body := by
  cases l with
  | atom cs => simp [Before, isDelimiter]
  | _ => simp [Before]

/-- One more lexeme in front of a run behind which a string starts. -/
theorem run_cons_iff_before_string {l : Lexeme} {ls : List Lexeme} (rest : List Char) :
    Run (l :: ls) ∧ Closed (l :: ls) ↔
      l.Ok ∧ l.Before (text ls ++ '"' :: rest) ∧ Run ls ∧ Closed ls := by
  cases ls with
  | nil =>
      rw [text_nil, List.nil_append, before_quote_iff]
      constructor
      · rintro ⟨hrun, hclosed⟩
        exact ⟨hrun.ok l (by simp), hclosed l rfl, .nil, by simp [Closed]⟩
      · rintro ⟨hok, hcomment, -, -⟩
        exact ⟨Run.nil.cons hok (by cases l <;> simp [Before]), closed_singleton hcomment⟩
  | cons m ms =>
      have hhead : m.Ok → (l.Before (text (m :: ms) ++ '"' :: rest) ↔ l.Before (text (m :: ms))) := by
        intro hm
        obtain ⟨c, cs, hchars, -⟩ := head_of_ok hm
        rw [text_cons, hchars]
        exact Iff.rfl
      have hclosed : Closed (l :: m :: ms) ↔ Closed (m :: ms) := by simp [Closed]
      rw [hclosed]
      constructor
      · rintro ⟨hrun, hclosed⟩
        exact ⟨hrun.ok l (by simp), (hhead (hrun.ok m (by simp))).2 hrun.before, hrun.tail, hclosed⟩
      · rintro ⟨hok, hbefore, hrun, hclosed⟩
        exact ⟨hrun.cons hok ((hhead (hrun.ok m (by simp))).1 hbefore), hclosed⟩

end Lexeme

/-- A run of lexemes in front of a string without an end does not help. -/
theorem tokensFrom_run_open_string {ls : List Lexeme} {rest : List Char} (hrun : Run ls) (hclosed : Closed ls)
    (hrest : stringBody rest = none) (p : Pos) :
    tokensFrom p (text ls ++ '"' :: rest) = .error ⟨.unterminatedString, p.advanceOver (text ls)⟩ := by
  induction ls generalizing p with
  | nil => exact tokensFrom_error (by decide) (Token.next_eq_error_iff.2 ⟨rfl, hrest, rfl⟩)
  | cons l ls ih =>
      obtain ⟨hok, hbefore, hrun, hclosed⟩ := (run_cons_iff_before_string rest).1 ⟨hrun, hclosed⟩
      rw [text_cons, List.append_assoc, tokensFrom_lexeme hok hbefore, ih hrun hclosed, Pos.advanceOver_append]
      rfl

/-- Where scanning fails, either a string without an end starts, or a lexeme behind which it fails. -/
theorem tokensFrom_cons_error {p : Pos} {c : Char} {rest : List Char} {e : ReadError}
    (h : tokensFrom p (c :: rest) = .error e) :
    (c = '"' ∧ stringBody rest = none ∧ e = ⟨.unterminatedString, p⟩) ∨
      ∃ (l : Lexeme) (after : List Char), l.Ok ∧ l.Before after ∧ l.chars ++ after = c :: rest ∧
        after.length ≤ rest.length ∧ tokensFrom (p.advanceOver l.chars) after = .error e := by
  cases hblank : isBlank c with
  | true =>
      rw [tokensFrom_blank hblank] at h
      exact .inr ⟨.blank c, rest, hblank, trivial, rfl, le_refl _, h⟩
  | false =>
      cases hnext : Token.next p c rest with
      | error e' =>
          cases (tokensFrom_error hblank hnext).symm.trans h
          exact .inl (Token.next_eq_error_iff.1 hnext)
      | ok found =>
          obtain ⟨t, body, after⟩ := found
          obtain ⟨l, hok, hchars, -, hbefore⟩ := Token.next_lexeme hblank hnext
          rw [tokensFrom_next hblank hnext, ← hchars] at h
          refine .inr ⟨l, after, hok, hbefore, ?_, Token.next_length_le hnext, ?_⟩
          · rw [hchars, List.cons_append, Token.next_append hnext]
          · cases hafter : tokensFrom (p.advanceOver l.chars) after with
            | ok ts => rw [hafter] at h; cases h
            | error e' => rw [hafter] at h; cases h; rfl

theorem exists_open_string {p : Pos} {cs : List Char} {e : ReadError} (h : tokensFrom p cs = .error e) :
    ∃ ls rest, Run ls ∧ Closed ls ∧ cs = text ls ++ '"' :: rest ∧ stringBody rest = none ∧
      e = ⟨.unterminatedString, p.advanceOver (text ls)⟩ := by
  induction hn : cs.length using Nat.strong_induction_on generalizing p cs with
  | _ n ih =>
      subst hn
      cases cs with
      | nil => cases (tokensFrom_nil p).symm.trans h
      | cons c rest =>
          rcases tokensFrom_cons_error h with ⟨rfl, hrest, rfl⟩ | ⟨l, after, hok, hbefore, hchars, hlen, hafter⟩
          · exact ⟨[], rest, .nil, by simp [Closed], rfl, hrest, rfl⟩
          · obtain ⟨ls, more, hrun, hclosed, rfl, hmore, rfl⟩ := ih _ (Nat.lt_succ_of_le hlen) hafter rfl
            have hcons := (run_cons_iff_before_string more).2 ⟨hok, hbefore, hrun, hclosed⟩
            refine ⟨l :: ls, more, hcons.1, hcons.2, ?_, hmore, ?_⟩
            · rw [text_cons, List.append_assoc, hchars]
            · rw [text_cons, Pos.advanceOver_append]

/-- The scanner stops at a string without an end, and nowhere else. -/
theorem tokenize_eq_error_iff {source : String} {e : ReadError} :
    tokenize source = .error e ↔ ∃ ls rest, Run ls ∧ Closed ls ∧ source.toList = text ls ++ '"' :: rest ∧
      (∀ inside after, rest = inside ++ '"' :: after → Odd (backslashesAtEnd inside)) ∧
      e = ⟨.unterminatedString, Pos.zero.advanceOver (text ls)⟩ := by
  simp only [← stringBody_eq_none_iff]
  constructor
  · exact exists_open_string
  · rintro ⟨ls, rest, hrun, hclosed, hsplit, hrest, rfl⟩
    rw [tokenize, hsplit]
    exact tokensFrom_run_open_string hrun hclosed hrest .zero

/-! ## Brackets that do not match -/

/-- The brackets that are open behind one more token, innermost first; `none` if it closes a bracket and
the innermost open one does not match. -/
def Token.nest (opened : List Token) (t : Token) : Option (List Token) :=
  match t.kind with
  | .opening _ => some (t :: opened)
  | .closing b =>
    match opened with
    | [] => none
    | o :: outer => if o.kind = .opening b then some outer else none
  | .atom | .string | .comment => some opened

/-- The brackets that are open behind some tokens, given those open before them. -/
def leftOpen (opened tokens : List Token) : Option (List Token) := tokens.foldlM Token.nest opened

@[simp] theorem leftOpen_nil (opened : List Token) : leftOpen opened [] = some opened := rfl

theorem leftOpen_cons (opened : List Token) (t : Token) (ts : List Token) :
    leftOpen opened (t :: ts) = (t.nest opened).bind (leftOpen · ts) := rfl

/-- What is wrong with the brackets of some tokens, given those open before them: where it is seen, and
in which words it is told. -/
inductive Misfit (opened tokens : List Token) : Pos → String → Prop
  | unexpected {before after : List Token} {t : Token} {b : Bracket} (split : tokens = before ++ t :: after)
      (closes : t.kind = .closing b) (scan : leftOpen opened before = some []) :
      Misfit opened tokens t.span.start s!"unexpected `{t.text}`"
  | mismatched {before after outer : List Token} {o t : Token} {b : Bracket}
      (split : tokens = before ++ t :: after) (closes : t.kind = .closing b)
      (scan : leftOpen opened before = some (o :: outer)) (differs : o.kind ≠ .opening b) :
      Misfit opened tokens t.span.start s!"`{o.text}` closed by `{t.text}`"
  | unclosed {outer : List Token} {o : Token} (scan : leftOpen opened tokens = some (o :: outer)) :
      Misfit opened tokens o.span.start s!"unclosed `{o.text}`"

namespace Misfit

variable {opened opened' : List Token} {t : Token} {ts : List Token} {pos : Pos} {message : String}

/-- A token that fits passes the fault on. -/
theorem cons_iff (h : t.nest opened = some opened') :
    Misfit opened (t :: ts) pos message ↔ Misfit opened' ts pos message := by
  have hscan : ∀ before, leftOpen opened (t :: before) = leftOpen opened' before := by
    intro before
    rw [leftOpen_cons, h, Option.bind_some]
  constructor
  · intro hfault
    cases hfault with
    | @unexpected before after u b split closes scan =>
        cases before with
        | nil =>
            cases split
            cases scan
            simp [Token.nest, closes] at h
        | cons _ before =>
            cases split
            exact .unexpected rfl closes (hscan before ▸ scan)
    | @mismatched before after outer o u b split closes scan differs =>
        cases before with
        | nil =>
            cases split
            cases scan
            simp [Token.nest, closes, differs] at h
        | cons _ before =>
            cases split
            exact .mismatched rfl closes (hscan before ▸ scan) differs
    | unclosed scan => exact .unclosed (hscan ts ▸ scan)
  · intro hfault
    cases hfault with
    | @unexpected before after u b split closes scan =>
        exact .unexpected (congrArg (t :: ·) split) closes ((hscan before).trans scan)
    | @mismatched before after outer o u b split closes scan differs =>
        exact .mismatched (congrArg (t :: ·) split) closes ((hscan before).trans scan) differs
    | unclosed scan => exact .unclosed ((hscan ts).trans scan)

/-- How it is told that a closing bracket does not fit. -/
def complaint (t : Token) : List Token → String
  | [] => s!"unexpected `{t.text}`"
  | o :: _ => s!"`{o.text}` closed by `{t.text}`"

/-- A closing bracket that does not fit is the fault. -/
theorem stuck_iff {b : Bracket} (hclose : t.kind = .closing b) (h : t.nest opened = none) :
    Misfit opened (t :: ts) pos message ↔ t.span.start = pos ∧ complaint t opened = message := by
  have hscan : ∀ before, leftOpen opened (t :: before) = none := by
    intro before
    rw [leftOpen_cons, h, Option.bind_none]
  constructor
  · intro hfault
    cases hfault with
    | @unexpected before after u c split closes scan =>
        cases before with
        | nil =>
            cases split
            cases scan
            exact ⟨rfl, rfl⟩
        | cons _ before =>
            cases split
            cases (hscan before).symm.trans scan
    | @mismatched before after outer o u c split closes scan differs =>
        cases before with
        | nil =>
            cases split
            cases scan
            exact ⟨rfl, rfl⟩
        | cons _ before =>
            cases split
            cases (hscan before).symm.trans scan
    | unclosed scan => cases (hscan ts).symm.trans scan
  · rintro ⟨rfl, rfl⟩
    cases opened with
    | nil => exact .unexpected (List.nil_append _).symm hclose rfl
    | cons o outer =>
        refine .mismatched (List.nil_append _).symm hclose rfl fun hopen => ?_
        simp [Token.nest, hclose, hopen] at h

/-- Without tokens there is a fault if a bracket is open. -/
theorem nil_iff : Misfit opened [] pos message ↔
    ∃ o ∈ opened.head?, o.span.start = pos ∧ s!"unclosed `{o.text}`" = message := by
  constructor
  · intro hfault
    cases hfault with
    | unexpected split | mismatched split => simp at split
    | @unclosed outer o scan =>
        cases scan
        exact ⟨o, rfl, rfl, rfl⟩
  · rintro ⟨o, ho, rfl, rfl⟩
    cases opened with
    | nil => cases ho
    | cons o' outer =>
        cases ho
        exact .unclosed rfl

end Misfit

/-- A result is one if all brackets match, and otherwise the error that tells the fault. -/
structure Judges {α : Type} (result : Except ReadError α) (opened tokens : List Token) : Prop where
  ok : (∃ a, result = .ok a) ↔ leftOpen opened tokens = some []
  error (pos : Pos) (message : String) :
    (∃ e, result = .error e ∧ e.pos = pos ∧ e.message = message) ↔ Misfit opened tokens pos message

namespace Judges

variable {α : Type} {result : Except ReadError α} {opened opened' : List Token} {t : Token} {ts : List Token}

theorem cons (hnest : t.nest opened = some opened') (h : Judges result opened' ts) :
    Judges result opened (t :: ts) where
  ok := by
    rw [leftOpen_cons, hnest]
    exact h.ok
  error pos message := by
    rw [Misfit.cons_iff hnest]
    exact h.error pos message

theorem stuck {b : Bracket} (hclose : t.kind = .closing b) (hnest : t.nest opened = none) {e : ReadError}
    (hpos : e.pos = t.span.start) (hmessage : e.message = Misfit.complaint t opened) :
    Judges (.error e : Except ReadError α) opened (t :: ts) where
  ok := by simp [leftOpen_cons, hnest]
  error pos message := by
    rw [Misfit.stuck_iff hclose hnest, ← hpos, ← hmessage]
    simp

theorem map {β : Type} (h : Judges result opened ts) (f : α → β) : Judges (result.map f) opened ts where
  ok := by
    rw [← h.ok]
    cases result <;> simp [Except.map]
  error pos message := by
    rw [← h.error]
    cases result <;> simp [Except.map]

end Judges

/-- A bracket is spelt as it should be. -/
structure Token.Spelt (t : Token) : Prop where
  opening : ∀ b, t.kind = .opening b → t.text = toString b.opener
  closing : ∀ b, t.kind = .closing b → t.text = toString b.closer

theorem Lexeme.spelt_of_mem_tokens {t : Token} {p : Pos} {ls : List Lexeme} (h : t ∈ tokens p ls) :
    t.Spelt := by
  obtain ⟨l, -, q, hq⟩ := mem_tokens h
  cases l with
  | blank c => cases hq
  | opening b =>
      cases hq
      refine ⟨?_, by simp [Token.ofChars]⟩
      rintro _ ⟨⟩
      cases b <;> rfl
  | closing b =>
      cases hq
      refine ⟨by simp [Token.ofChars], ?_⟩
      rintro _ ⟨⟩
      cases b <;> rfl
  | atom cs | string body | comment body =>
      cases hq
      constructor <;> rintro b ⟨⟩

/-- The token that opened a frame. -/
structure Reader.Frame.OpenedBy (f : Frame) (o : Token) : Prop where
  kind : o.kind = .opening f.bracket
  start : o.span.start = f.start
  text : o.text = toString f.bracket.opener

/-- The reader goes wrong exactly where the brackets do. -/
theorem Reader.elementsFrom_judges {ts : List Token} {stack : List Frame} {opened : List Token}
    (hstack : List.Forall₂ Frame.OpenedBy stack opened) (hts : ∀ t ∈ ts, t.Spelt) (elements : List Element) :
    Judges (elementsFrom ts stack elements) opened ts := by
  -- The elements read so far play no part: only the frames are held against the open brackets.
  induction ts generalizing stack opened elements with
  | nil =>
      cases hstack with
      | nil => exact ⟨by simp [elementsFrom], by simp [elementsFrom, Misfit.nil_iff]⟩
      | @cons f o stack outer hf hrest =>
          refine ⟨by simp [elementsFrom], fun pos message => ?_⟩
          have hmessage : ReadError.message ⟨.unclosed f.bracket, f.start⟩ = s!"unclosed `{o.text}`" := by
            rw [hf.text]
            rfl
          simp [elementsFrom, Misfit.nil_iff, hmessage, hf.start]
  | cons t ts ih =>
      obtain ⟨ht, hts⟩ := List.forall_mem_cons.1 hts
      cases hkind : t.kind with
      | opening b =>
          have hnest : t.nest opened = some (t :: opened) := by simp [Token.nest, hkind]
          have hframe : Frame.OpenedBy ⟨b, t.span.start, elements⟩ t := ⟨hkind, rfl, ht.opening b hkind⟩
          simp only [elementsFrom, hkind]
          exact (ih (.cons hframe hstack) hts []).cons hnest
      | closing b =>
          simp only [elementsFrom, hkind]
          cases hstack with
          | nil =>
              refine .stuck hkind (by simp [Token.nest, hkind]) rfl ?_
              rw [Misfit.complaint, ht.closing b hkind]
              rfl
          | @cons f o stack outer hf hrest =>
              by_cases hmatch : f.bracket = b
              · have hnest : t.nest (o :: outer) = some outer := by simp [Token.nest, hkind, hf.kind, hmatch]
                simp only [hmatch, if_true]
                exact (ih hrest hts _).cons hnest
              · have hnest : t.nest (o :: outer) = none := by simp [Token.nest, hkind, hf.kind, hmatch]
                simp only [hmatch, if_false]
                refine .stuck hkind hnest rfl ?_
                rw [Misfit.complaint, ht.closing b hkind, hf.text]
                rfl
      | atom | string | comment =>
          have hnest : t.nest opened = some opened := by simp [Token.nest, hkind]
          simp only [elementsFrom, hkind]
          exact (ih hstack hts _).cons hnest

/-! ## Texts that can be read -/

/-- What keeps a text from being read: where it is seen, and in which words it is told. A string without
an end comes before anything that is wrong with the brackets. -/
inductive Fault (text : String) : Pos → String → Prop
  | string {ls : List Lexeme} {rest : List Char} (run : Run ls) (closed : Closed ls)
      (split : text.toList = Lexeme.text ls ++ '"' :: rest)
      (unended : ∀ inside after, rest = inside ++ '"' :: after → Odd (backslashesAtEnd inside)) :
      Fault text (Pos.zero.advanceOver (Lexeme.text ls)) "unterminated string"
  | bracket {tokens : List Token} {pos : Pos} {message : String} (scan : tokenize text = .ok tokens)
      (misfit : Misfit [] tokens pos message) : Fault text pos message

/-- A text is read exactly if it can be cut into tokens and all its brackets match, and otherwise the error
tells its fault. So no list is refused for what is in it. -/
theorem read_or_faulty (text : String) :
    ((∃ roots, readDocument text = .ok roots) ↔
      ∃ tokens, tokenize text = .ok tokens ∧ leftOpen [] tokens = some []) ∧
    ∀ pos message, (∃ e, readDocument text = .error e ∧ e.pos = pos ∧ e.message = message) ↔
      Fault text pos message := by
  cases htokens : tokenize text with
  | error e =>
      have hread : readDocument text = .error e := by rw [readDocument, htokens]
      refine ⟨by simp [hread], fun pos message => ?_⟩
      constructor
      · rintro ⟨e', he, rfl, rfl⟩
        cases hread.symm.trans he
        obtain ⟨ls, rest, hrun, hclosed, hsplit, hunended, rfl⟩ := tokenize_eq_error_iff.1 htokens
        exact .string hrun hclosed hsplit hunended
      · intro hfault
        refine ⟨e, hread, ?_⟩
        cases hfault with
        | string hrun hclosed hsplit hunended =>
            cases htokens.symm.trans (tokenize_eq_error_iff.2 ⟨_, _, hrun, hclosed, hsplit, hunended, rfl⟩)
            exact ⟨rfl, rfl⟩
        | bracket hscan _ => cases htokens.symm.trans hscan
  | ok ts =>
      have hread : readDocument text = (elementsFrom ts [] []).map Element.attach := by
        rw [readDocument, htokens]
      obtain ⟨ls, -, -, rfl⟩ := exists_run htokens
      have hjudges : Judges (readDocument text) [] (tokens .zero ls) := by
        rw [hread]
        exact (elementsFrom_judges .nil (fun _ => spelt_of_mem_tokens) []).map Element.attach
      refine ⟨by simpa using hjudges.ok, fun pos message => ?_⟩
      rw [hjudges.error]
      constructor
      · exact .bracket htokens
      · intro hfault
        cases hfault with
        | string hrun hclosed hsplit hunended =>
            cases htokens.symm.trans (tokenize_eq_error_iff.2 ⟨_, _, hrun, hclosed, hsplit, hunended, rfl⟩)
        | bracket hscan hmisfit =>
            cases htokens.symm.trans hscan
            exact hmisfit

end TreeEdit
