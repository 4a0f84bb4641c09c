import Mathlib.Data.List.Chain
import Mathlib.Data.List.TakeWhile
import TreeEdit.Proofs.Places
import TreeEdit.Token.Lexer

/-!
# Texts as runs of lexemes

A lexeme is a token with the characters it was read from, or a single blank. A text that the scanner
accepts is a run of lexemes in which no atom touches an atom and every comment is followed by the end
of its line; and conversely such a run is read back lexeme by lexeme. So the scanner is exactly the
reading of such runs: `tokensFrom_eq_ok_iff`.
-/

namespace TreeEdit

/-- A blank character, or a token by its characters. Strings and comments are given without the
character they start with. -/
inductive Lexeme where
  | blank (c : Char)
  | opening (bracket : Bracket)
  | closing (bracket : Bracket)
  | atom (cs : List Char)
  | string (body : List Char)
  | comment (body : List Char)
deriving DecidableEq, Repr

namespace Lexeme

/-- The characters of a lexeme. -/
def chars : Lexeme → List Char
  | blank c => [c]
  | opening b => [b.opener]
  | closing b => [b.closer]
  | atom cs => cs
  | string body => '"' :: body
  | comment body => ';' :: body

/-- The token of a lexeme that starts at a position; a blank has none. -/
def token? (p : Pos) : Lexeme → Option Token
  | blank _ => none
  | opening b => some (.ofChars (.opening b) p [b.opener])
  | closing b => some (.ofChars (.closing b) p [b.closer])
  | atom cs => some (.ofChars .atom p cs)
  | string body => some (.ofChars .string p ('"' :: body))
  | comment body => some (.ofChars .comment p (dropBlanksEnd (';' :: body)))

theorem token?_eq_none {l : Lexeme} {p : Pos} (h : l.token? p = none) : ∃ c, l = blank c := by
  cases l with
  | blank c => exact ⟨c, rfl⟩
  | _ => cases h

/-- The characters are such that the scanner takes them for this lexeme. -/
def Ok : Lexeme → Prop
  | blank c => isBlank c = true
  | opening _ | closing _ => True
  | atom cs => cs ≠ [] ∧ ∀ c ∈ cs, isDelimiter c = false
  | string body => stringBody body = some (body, [])
  | comment body => '\n' ∉ body

/-- The second lexeme may stand directly after the first. -/
def Meets : Lexeme → Lexeme → Prop
  | atom _, atom _ => False
  | comment _, b => b = blank '\n'
  | _, _ => True

/-- The characters of a run of lexemes. -/
def text (ls : List Lexeme) : List Char := ls.flatMap chars

/-- The tokens of a run of lexemes that starts at a position. -/
def tokens (p : Pos) : List Lexeme → List Token
  | [] => []
  | l :: ls => (l.token? p).toList ++ tokens (p.advanceOver l.chars) ls

/-- A run of lexemes that the scanner reads as it is. -/
structure Run (ls : List Lexeme) : Prop where
  ok : ∀ l ∈ ls, l.Ok
  meets : ls.IsChain Meets

@[simp] theorem text_nil : text [] = [] := rfl

@[simp] theorem text_cons (l : Lexeme) (ls : List Lexeme) : text (l :: ls) = l.chars ++ text ls := rfl

/-- A list in brackets with what follows it, as a list and a rest. -/
theorem list_eq_append (b : Bracket) (inner ls : List Lexeme) :
    opening b :: (inner ++ closing b :: ls) = (opening b :: (inner ++ [closing b])) ++ ls := by
  simp

@[simp] theorem text_append (a b : List Lexeme) : text (a ++ b) = text a ++ text b :=
  List.flatMap_append

theorem tokens_append (p : Pos) (a b : List Lexeme) :
    tokens p (a ++ b) = tokens p a ++ tokens (p.advanceOver (text a)) b := by
  induction a generalizing p with
  | nil => rfl
  | cons l a ih =>
      rw [List.cons_append, tokens, tokens, ih, text_cons, Pos.advanceOver_append, List.append_assoc]

theorem Run.nil : Run [] := ⟨by simp, .nil⟩

theorem Run.tail {l : Lexeme} {ls : List Lexeme} (h : Run (l :: ls)) : Run ls :=
  ⟨fun m hm => h.ok m (List.mem_cons_of_mem l hm), h.meets.tail⟩

theorem Run.left {a b : List Lexeme} (h : Run (a ++ b)) : Run a :=
  ⟨fun l hl => h.ok l (List.mem_append_left b hl), h.meets.left_of_append⟩

theorem Run.right {a b : List Lexeme} (h : Run (a ++ b)) : Run b :=
  ⟨fun l hl => h.ok l (List.mem_append_right a hl), h.meets.right_of_append⟩

theorem Run.append {a b : List Lexeme} (ha : Run a) (hb : Run b)
    (h : ∀ x ∈ a.getLast?, ∀ y ∈ b.head?, Meets x y) : Run (a ++ b) := by
  refine ⟨?_, List.isChain_append.2 ⟨ha.meets, hb.meets, h⟩⟩
  intro l hl
  rcases List.mem_append.1 hl with hl | hl
  · exact ha.ok l hl
  · exact hb.ok l hl

end Lexeme

/-! ## The scanner reads a run back -/

/-- In the last case of `stringBody` the character is no backslash. -/
theorem ne_backslash {c : Char} {rest : List Char} (hlast : c = '\\' → rest = [] → False)
    (hmore : ∀ d more, c = '\\' → rest = d :: more → False) : c ≠ '\\' := by
  intro hc
  cases rest with
  | nil => exact hlast hc rfl
  | cons d rest => exact hmore d rest hc rfl

/-- Where a string ends depends on its body only, not on what follows it. -/
theorem stringBody_body_append {cs body after : List Char} (h : stringBody cs = some (body, after))
    (rest : List Char) : stringBody (body ++ rest) = some (body, rest) := by
  fun_induction stringBody cs generalizing body after with
  | case1 => cases h
  | case2 tail =>
      cases h
      rfl
  | case3 => cases h
  | case4 c tail ih =>
      obtain ⟨⟨b, a⟩, hb, he⟩ := Option.map_eq_some_iff.1 h
      cases he
      simp [stringBody, ih hb]
  | case5 c tail h1 h2 h3 ih =>
      obtain ⟨⟨b, a⟩, hb, he⟩ := Option.map_eq_some_iff.1 h
      cases he
      have hc := ne_backslash h2 h3
      rw [List.cons_append, stringBody]
      · rw [ih hb]
        rfl
      · exact h1
      · exact fun he => absurd he hc
      · exact fun d more he => absurd he hc

theorem tokensFrom_nil (p : Pos) : tokensFrom p [] = .ok [] := by
  rw [tokensFrom]

theorem tokensFrom_blank {c : Char} (hc : isBlank c = true) (p : Pos) (rest : List Char) :
    tokensFrom p (c :: rest) = tokensFrom (p.advance c) rest := by
  rw [tokensFrom, if_pos hc]

theorem tokensFrom_next {p : Pos} {c : Char} {rest body after : List Char} {t : Token}
    (hc : isBlank c = false) (h : Token.next p c rest = .ok (t, body, after)) :
    tokensFrom p (c :: rest) = (tokensFrom (p.advanceOver (c :: body)) after).map (t :: ·) := by
  rw [tokensFrom, if_neg (by simp [hc])]
  split
  · rename_i e he
    cases he.symm.trans h
  · rename_i t' body' after' he
    cases he.symm.trans h
    simp only
    cases tokensFrom (p.advanceOver (c :: body)) after <;> rfl

/-- The characters of a run that may follow a lexeme. -/
def Lexeme.Before (l : Lexeme) (rest : List Char) : Prop :=
  match l with
  | atom _ => ∀ c ∈ rest.head?, isDelimiter c = true
  | comment _ => ∀ c ∈ rest.head?, c = '\n'
  | _ => True

theorem isDelimiter_of_isBlank {c : Char} (h : isBlank c = true) : isDelimiter c = true := by
  simp [isDelimiter, h]

theorem isBlank_of_not_isDelimiter {c : Char} (h : isDelimiter c = false) : isBlank c = false := by
  cases hb : isBlank c with
  | false => rfl
  | true => rw [isDelimiter_of_isBlank hb] at h; cases h

theorem not_special_of_not_isDelimiter {c : Char} (h : isDelimiter c = false) :
    Bracket.ofOpener? c = none ∧ Bracket.ofCloser? c = none ∧ c ≠ ';' ∧ c ≠ '"' := by
  simp only [isDelimiter, Bool.or_eq_false_iff, beq_eq_false_iff_ne] at h
  obtain ⟨⟨⟨⟨⟨⟨-, h1⟩, h2⟩, h3⟩, h4⟩, h5⟩, h6⟩ := h
  refine ⟨?_, ?_, h6, h5⟩
  · unfold Bracket.ofOpener?
    split <;> simp_all
  · unfold Bracket.ofCloser?
    split <;> simp_all

theorem not_isDelimiter_of {c : Char} (hblank : isBlank c = false)
    (hopen : Bracket.ofOpener? c = none) (hclose : Bracket.ofCloser? c = none) (hsemi : ¬ c = ';')
    (hquote : ¬ c = '"') : isDelimiter c = false := by
  have hround : c ≠ '(' := by rintro rfl; cases hopen
  have hsquare : c ≠ '[' := by rintro rfl; cases hopen
  have hround' : c ≠ ')' := by rintro rfl; cases hclose
  have hsquare' : c ≠ ']' := by rintro rfl; cases hclose
  simp [isDelimiter, *]

theorem takeWhile_append_stop {q : Char → Bool} {a b : List Char} (ha : ∀ c ∈ a, q c = true)
    (hb : ∀ c ∈ b.head?, q c = false) : (a ++ b).takeWhile q = a ∧ (a ++ b).dropWhile q = b := by
  rw [List.takeWhile_append_of_pos ha, List.dropWhile_append_of_pos ha]
  cases b with
  | nil => simp
  | cons c b => simp [hb c rfl]

/-- A lexeme that is not blank is the next token where what follows cannot belong to it. -/
theorem Token.next_of_lexeme {l : Lexeme} (hl : l.Ok) {rest : List Char} (hrest : l.Before rest) {p : Pos} {t : Token}
    (ht : l.token? p = some t) :
    ∃ c body, l.chars = c :: body ∧ isBlank c = false ∧ Token.next p c (body ++ rest) = .ok (t, body, rest) := by
  cases l with
  | blank c => cases ht
  | opening b =>
      cases ht
      exact ⟨b.opener, [], rfl, by cases b <;> decide, by cases b <;> rfl⟩
  | closing b =>
      cases ht
      exact ⟨b.closer, [], rfl, by cases b <;> decide, by cases b <;> rfl⟩
  | atom cs =>
      cases ht
      obtain ⟨c, cs, rfl⟩ := List.exists_cons_of_ne_nil hl.1
      have hc : isDelimiter c = false := hl.2 c List.mem_cons_self
      have hstop := takeWhile_append_stop (q := fun c => !isDelimiter c) (a := cs) (b := rest)
        (by intro d hd; simp [hl.2 d (List.mem_cons_of_mem c hd)])
        (by intro d hd; simp [hrest d hd])
      obtain ⟨hopen, hclose, hsemi, hquote⟩ := not_special_of_not_isDelimiter hc
      refine ⟨c, cs, rfl, isBlank_of_not_isDelimiter hc, ?_⟩
      simp only [Token.next, hopen, hclose, hsemi, hquote, hstop.1, hstop.2, if_false]
  | string body =>
      cases ht
      refine ⟨'"', body, rfl, by decide, ?_⟩
      simp [Token.next, Bracket.ofOpener?, Bracket.ofCloser?, stringBody_body_append hl rest]
  | comment body =>
      cases ht
      have hbody : ∀ c ∈ body, decide (c ≠ '\n') = true := by
        intro c hc
        refine decide_eq_true ?_
        rintro rfl
        exact hl hc
      have hstop := takeWhile_append_stop hbody (b := rest) (by intro c hc; simp [hrest c hc])
      have hopen : Bracket.ofOpener? ';' = none := rfl
      have hclose : Bracket.ofCloser? ';' = none := rfl
      refine ⟨';', body, rfl, by decide, ?_⟩
      simp only [Token.next, hopen, hclose, hstop.1, hstop.2, if_true]

theorem tokensFrom_lexeme {l : Lexeme} (hl : l.Ok) {rest : List Char} (hrest : l.Before rest)
    (p : Pos) :
    tokensFrom p (l.chars ++ rest) =
      (tokensFrom (p.advanceOver l.chars) rest).map ((l.token? p).toList ++ ·) := by
  cases ht : l.token? p with
  | none =>
      obtain ⟨c, rfl⟩ := Lexeme.token?_eq_none ht
      rw [Lexeme.chars, List.singleton_append, tokensFrom_blank hl, Pos.advanceOver_cons,
        Pos.advanceOver_nil]
      cases tokensFrom (p.advance c) rest <;> rfl
  | some t =>
      obtain ⟨c, body, hchars, hblank, hnext⟩ := Token.next_of_lexeme hl hrest ht
      rw [hchars, List.cons_append, tokensFrom_next hblank hnext]
      rfl

namespace Lexeme

/-- The first character of a lexeme tells an atom and the end of a line from the others. -/
theorem head_of_ok {l : Lexeme} (h : l.Ok) :
    ∃ c rest, l.chars = c :: rest ∧ (isDelimiter c = true ↔ ∀ cs, l ≠ atom cs) ∧
      (c = '\n' ↔ l = blank '\n') := by
  cases l with
  | blank c => exact ⟨c, [], rfl, by simp [isDelimiter_of_isBlank h], by simp⟩
  | opening b => exact ⟨b.opener, [], rfl, by cases b <;> simp [isDelimiter, Bracket.opener],
      by cases b <;> simp [Bracket.opener]⟩
  | closing b => exact ⟨b.closer, [], rfl, by cases b <;> simp [isDelimiter, Bracket.closer],
      by cases b <;> simp [Bracket.closer]⟩
  | atom cs =>
      cases cs with
      | nil => exact absurd rfl h.1
      | cons c cs =>
          have hc := h.2 c List.mem_cons_self
          refine ⟨c, cs, rfl, by simp [hc], ?_⟩
          constructor
          · rintro rfl
            cases hc
          · intro h
            cases h
  | string body => exact ⟨'"', body, rfl, by simp [isDelimiter], by simp⟩
  | comment body => exact ⟨';', body, rfl, by simp [isDelimiter], by simp⟩

theorem before_iff_meets {l m : Lexeme} (hm : m.Ok) (ms : List Lexeme) :
    l.Before (text (m :: ms)) ↔ Meets l m := by
  obtain ⟨c, rest, hchars, hdelim, hline⟩ := head_of_ok hm
  have hhead : (text (m :: ms)).head? = some c := by
    rw [text_cons, hchars]
    rfl
  cases l with
  | atom cs =>
      simp only [Before, hhead, Option.mem_def, Option.some.injEq, forall_eq', hdelim]
      cases m <;> simp [Meets]
  | comment body =>
      simp only [Before, hhead, Option.mem_def, Option.some.injEq, forall_eq', hline]
      exact Iff.rfl
  | _ => simp [Before, Meets]

theorem Run.before {l : Lexeme} {ls : List Lexeme} (h : Run (l :: ls)) : l.Before (text ls) := by
  cases ls with
  | nil => cases l <;> simp [Before]
  | cons m ms =>
      refine (before_iff_meets (h.ok m (by simp)) ms).2 ?_
      exact (List.isChain_cons_cons.1 h.meets).1

theorem Run.cons {l : Lexeme} {ls : List Lexeme} (hl : l.Ok) (hls : Run ls)
    (h : l.Before (text ls)) : Run (l :: ls) := by
  refine ⟨?_, ?_⟩
  · intro m hm
    rcases List.mem_cons.1 hm with rfl | hm
    · exact hl
    · exact hls.ok m hm
  · cases ls with
    | nil => exact .singleton l
    | cons m ms =>
        exact List.isChain_cons_cons.2
          ⟨(before_iff_meets (hls.ok m List.mem_cons_self) ms).1 h, hls.meets⟩

end Lexeme

open Lexeme in
theorem tokensFrom_run {ls : List Lexeme} (h : Run ls) (p : Pos) :
    tokensFrom p (text ls) = .ok (tokens p ls) := by
  induction ls generalizing p with
  | nil => exact tokensFrom_nil p
  | cons l ls ih =>
      rw [text_cons, tokensFrom_lexeme (h.ok l List.mem_cons_self) h.before, ih h.tail]
      rfl

/-! ## What the scanner accepts is a run -/

theorem dropWhile_head {q : Char → Bool} {cs : List Char} {c : Char}
    (h : c ∈ (cs.dropWhile q).head?) : q c = false := by
  have hnot := List.head?_dropWhile_not q cs
  rw [Option.mem_def.1 h] at hnot
  simpa using hnot

theorem Bracket.eq_opener {c : Char} {b : Bracket} (h : Bracket.ofOpener? c = some b) :
    c = b.opener := by
  unfold Bracket.ofOpener? at h
  split at h <;> cases h <;> rfl

theorem Bracket.eq_closer {c : Char} {b : Bracket} (h : Bracket.ofCloser? c = some b) :
    c = b.closer := by
  unfold Bracket.ofCloser? at h
  split at h <;> cases h <;> rfl

theorem Token.next_lexeme {p : Pos} {c : Char} {rest body after : List Char} {t : Token}
    (hblank : isBlank c = false) (h : Token.next p c rest = .ok (t, body, after)) :
    ∃ l : Lexeme, l.Ok ∧ l.chars = c :: body ∧ l.token? p = some t ∧ l.Before after := by
  unfold Token.next at h
  split at h
  · rename_i b hopen
    obtain rfl := Bracket.eq_opener hopen
    cases h
    exact ⟨.opening b, trivial, rfl, rfl, trivial⟩
  · rename_i b hopen hclose
    obtain rfl := Bracket.eq_closer hclose
    cases h
    exact ⟨.closing b, trivial, rfl, rfl, trivial⟩
  · rename_i hopen hclose
    split at h
    · rename_i hsemi
      subst hsemi
      cases h
      refine ⟨.comment (rest.takeWhile (· ≠ '\n')), ?_, rfl, rfl, ?_⟩
      · intro hmem
        simpa using List.mem_takeWhile_imp hmem
      · intro d hd
        simpa using dropWhile_head hd
    · rename_i hsemi
      split at h
      · rename_i hquote
        subst hquote
        split at h
        · cases h
        · rename_i body' after' hbody
          cases h
          have hself := stringBody_body_append hbody []
          rw [List.append_nil] at hself
          exact ⟨.string body, hself, rfl, rfl, trivial⟩
      · rename_i hquote
        cases h
        refine ⟨.atom (c :: rest.takeWhile (!isDelimiter ·)), ⟨List.cons_ne_nil _ _, ?_⟩, rfl, rfl, ?_⟩
        · intro d hd
          rcases List.mem_cons.1 hd with rfl | hd
          · exact not_isDelimiter_of hblank hopen hclose hsemi hquote
          · simpa using List.mem_takeWhile_imp hd
        · intro d hd
          simpa using dropWhile_head hd

open Lexeme in
theorem exists_run {p : Pos} {cs : List Char} {ts : List Token} (h : tokensFrom p cs = .ok ts) :
    ∃ ls, Run ls ∧ text ls = cs ∧ tokens p ls = ts := by
  induction hn : cs.length using Nat.strong_induction_on generalizing p cs ts with
  | _ n ih =>
      cases cs with
      | nil =>
          rw [tokensFrom_nil] at h
          cases h
          exact ⟨[], .nil, rfl, rfl⟩
      | cons c rest =>
          subst hn
          cases hblank : isBlank c with
          | true =>
              rw [tokensFrom_blank hblank] at h
              obtain ⟨ls, hrun, rfl, rfl⟩ := ih rest.length (Nat.lt_succ_self _) h rfl
              exact ⟨.blank c :: ls, hrun.cons hblank trivial, rfl, rfl⟩
          | false =>
              cases hnext : Token.next p c rest with
              | error e =>
                  rw [tokensFrom, if_neg (by simp [hblank])] at h
                  split at h
                  · cases h
                  · rename_i he
                    cases he.symm.trans hnext
              | ok found =>
                  obtain ⟨t, body, after⟩ := found
                  rw [tokensFrom_next hblank hnext] at h
                  obtain ⟨l, hok, hchars, htoken, hbefore⟩ := Token.next_lexeme hblank hnext
                  have hlen : after.length < (c :: rest).length :=
                    Nat.lt_succ_of_le (Token.next_length_le hnext)
                  cases hmore : tokensFrom (p.advanceOver (c :: body)) after with
                  | error e => rw [hmore] at h; cases h
                  | ok more =>
                      rw [hmore] at h
                      cases h
                      obtain ⟨ls, hrun, rfl, rfl⟩ := ih after.length hlen hmore rfl
                      refine ⟨l :: ls, hrun.cons hok hbefore, ?_, ?_⟩
                      · rw [text_cons, hchars, List.cons_append, Token.next_append hnext]
                      · rw [tokens, htoken, hchars]
                        rfl

open Lexeme in
/-- The scanner accepts exactly the runs of lexemes, and gives their tokens. -/
theorem tokensFrom_eq_ok_iff {p : Pos} {cs : List Char} {ts : List Token} :
    tokensFrom p cs = .ok ts ↔ ∃ ls, Run ls ∧ text ls = cs ∧ tokens p ls = ts := by
  constructor
  · exact exists_run
  · rintro ⟨ls, hrun, rfl, rfl⟩
    exact tokensFrom_run hrun p

end TreeEdit
