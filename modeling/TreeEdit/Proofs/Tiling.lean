import TreeEdit.Proofs.OwnCode
import TreeEdit.Proofs.Substitution

/-!
# Tokens and gaps make up the text

The scanner counts lines and columns as it goes, and gives a comment that lost the blanks at its end a new
end. A slice of the text counts lines and columns again from the start. The two agree: each token has the
text of its span, and between one token and the next there are only blanks. So nothing of the text is lost,
and it is put together again from the tokens and the gaps between them: `tokens_and_gaps_make_up_text`.
-/

namespace TreeEdit

open Lexeme

/-! ## Slices -/

/-- A slice is the middle of a text divided in three. -/
theorem slice?_eq_some_iff {source part : String} {span : Span} :
    slice? source span = some part ↔
      ∃ a b, source.toList = a ++ (part.toList ++ b) ∧ Pos.zero.advanceOver a = span.start ∧
        (Pos.zero.advanceOver a).advanceOver part.toList = span.stop := by
  have hbefore : ∀ {p : Pos} {a : List Char}, before? source.toList p = some a ↔
      ∃ b, a ++ b = source.toList ∧ Pos.zero.advanceOver a = p := by
    intro p a
    rw [before?, Option.map_eq_some_iff]
    constructor
    · rintro ⟨⟨a, b⟩, hcut, rfl⟩
      exact ⟨b, cut?_eq_some_iff.1 hcut⟩
    · rintro ⟨b, hcut⟩
      exact ⟨(a, b), cut?_eq_some_iff.2 hcut, rfl⟩
  constructor
  · intro h
    unfold slice? at h
    split at h
    · rename_i a b ha hb
      obtain ⟨x, hax, hstart⟩ := hbefore.1 ha
      obtain ⟨y, hby, hstop⟩ := hbefore.1 hb
      split at h
      · rename_i hle
        cases h
        have hpre : a <+: b := List.prefix_of_prefix_length_le ⟨x, hax⟩ ⟨y, hby⟩ hle
        have hsplit : a ++ b.drop a.length = b := List.prefix_iff_eq_append.1 hpre
        refine ⟨a, y, ?_, hstart, ?_⟩
        · rw [String.toList_ofList, ← List.append_assoc, hsplit, hby]
        · rw [String.toList_ofList, ← Pos.advanceOver_append, hsplit, hstop]
      · cases h
    · cases h
  · rintro ⟨a, b, hsource, hstart, hstop⟩
    have ha : before? source.toList span.start = some a := hbefore.2 ⟨part.toList ++ b, hsource.symm, hstart⟩
    have hb : before? source.toList span.stop = some (a ++ part.toList) := by
      refine hbefore.2 ⟨b, by rw [hsource, List.append_assoc], ?_⟩
      rw [Pos.advanceOver_append, hstop]
    unfold slice?
    rw [ha, hb]
    simp

/-- What stands between two parts of a text is the slice from the end of the one to the start of the other. -/
theorem slice?_of_append {source : String} {a part b : List Char} (h : source.toList = a ++ (part ++ b)) :
    slice? source ⟨Pos.zero.advanceOver a, Pos.zero.advanceOver (a ++ part)⟩ = some (String.ofList part) := by
  refine slice?_eq_some_iff.2 ⟨a, b, by rw [String.toList_ofList, h], rfl, ?_⟩
  rw [String.toList_ofList, ← Pos.advanceOver_append]

/-! ## Tokens in the text -/

namespace Lexeme

/-- A token has the characters of its lexeme, but for the blanks at the end of a comment. -/
theorem token?_chars {l : Lexeme} {p : Pos} {t : Token} (h : l.token? p = some t) :
    ∃ blanks, l.chars = t.text.toList ++ blanks ∧ (∀ c ∈ blanks, isBlank c = true) ∧
      t.span = ⟨p, p.advanceOver t.text.toList⟩ := by
  cases l with
  | blank c => cases h
  | comment body =>
      cases h
      obtain ⟨blanks, hbody, hblanks⟩ := Reader.comment_eq_append body
      refine ⟨blanks, ?_, hblanks, ?_⟩
      · simpa [chars, Token.ofChars] using hbody
      · simp [Token.ofChars]
  | _ =>
      cases h
      exact ⟨[], by simp [chars, Token.ofChars], by simp, by simp [Token.ofChars]⟩

/-- A token has the text of its span. -/
theorem slice?_token {source : String} {ls : List Lexeme} (htext : text ls = source.toList) {t : Token}
    (ht : t ∈ tokens .zero ls) : slice? source t.span = some t.text := by
  obtain ⟨x, l, y, rfl, htoken⟩ := mem_tokens_iff.1 ht
  obtain ⟨blanks, hchars, -, hspan⟩ := token?_chars htoken
  have hsource : source.toList = text x ++ (t.text.toList ++ (blanks ++ text y)) := by
    rw [← htext, text_append, text_cons, hchars, List.append_assoc]
  have hslice := slice?_of_append hsource
  rwa [Pos.advanceOver_append, ← hspan, String.ofList_toList] at hslice

/-- Every character that is not blank is taken up by a token. -/
theorem exists_token_of_not_blank {ls : List Lexeme} (hok : ∀ l ∈ ls, l.Ok) {p : Pos} {a b : List Char} {c : Char}
    (htext : text ls = a ++ c :: b) (hc : isBlank c = false) :
    ∃ t ∈ tokens p ls, t.span.Takes (p.advanceOver a) := by
  induction ls generalizing p a with
  | nil => simp at htext
  | cons l ls ih =>
      obtain ⟨hl, hls⟩ := List.forall_mem_cons.1 hok
      rw [text_cons] at htext
      rcases List.append_eq_append_iff.1 htext with ⟨a', rfl, htail⟩ | ⟨b', hhead, hcons⟩
      · obtain ⟨t, ht, htakes⟩ := ih hls (p := p.advanceOver l.chars) htail
        refine ⟨t, List.mem_append_right _ ht, ?_⟩
        rwa [Pos.advanceOver_append]
      · cases b' with
        | nil =>
            -- The lexeme ends right before the character, which is the first of the next one.
            rw [List.append_nil] at hhead
            obtain ⟨t, ht, htakes⟩ := ih hls (p := p.advanceOver l.chars) (a := []) hcons.symm
            refine ⟨t, List.mem_append_right _ ht, ?_⟩
            rwa [Pos.advanceOver_nil, hhead] at htakes
        | cons d b' =>
            obtain rfl : c = d := (List.cons.inj hcons).1
            cases htoken : l.token? p with
            | none =>
                obtain ⟨e, rfl⟩ := token?_eq_none htoken
                have hmem : c ∈ chars (blank e) := by simp [hhead]
                rw [List.mem_singleton.1 hmem] at hc
                exact absurd hl (by simp [Ok, hc])
            | some t =>
                obtain ⟨blanks, hchars, hblanks, hspan⟩ := token?_chars htoken
                refine ⟨t, by simp [tokens, htoken], ?_⟩
                rw [hhead] at hchars
                rcases List.append_eq_append_iff.1 hchars with ⟨x, htoken, hrest⟩ | ⟨x, rfl, hrest⟩
                · cases x with
                  | nil =>
                      have hmem : c ∈ blanks := by
                        rw [List.nil_append] at hrest
                        simp [← hrest]
                      rw [hblanks c hmem] at hc
                      cases hc
                  | cons e x =>
                      obtain rfl : c = e := (List.cons.inj hrest).1
                      rw [hspan, htoken]
                      refine ⟨Pos.le_advanceOver p a, ?_⟩
                      rw [Pos.advanceOver_append]
                      exact Pos.lt_advanceOver (List.cons_ne_nil c x) _
                · have hmem : c ∈ blanks := by simp [hrest]
                  rw [hblanks c hmem] at hc
                  cases hc

end Lexeme

/-! ## Gaps -/

/-- The spans between some tokens, with the one before the first of them and the one behind the last. -/
def gapSpans (start : Pos) : List Token → Pos → List Span
  | [], stop => [⟨start, stop⟩]
  | t :: ts, stop => ⟨start, t.span.start⟩ :: gapSpans t.span.stop ts stop

/-- Gaps and tokens in turn, from the first gap on. -/
def interleaved : List String → List Token → String
  | gap :: gaps, t :: ts => gap ++ (t.text ++ interleaved gaps ts)
  | gap :: _, [] => gap
  | [], _ => ""

/-- From a place on, with some blanks already passed, the gaps are blank and together with the tokens they are
the rest of the text. -/
theorem exists_gaps {source : String} {ls : List Lexeme} (hok : ∀ l ∈ ls, l.Ok) {a passed : List Char}
    (hsource : source.toList = a ++ (passed ++ text ls)) (hpassed : ∀ c ∈ passed, isBlank c = true) :
    ∃ gaps, List.Forall₂ (fun span gap => slice? source span = some gap)
        (gapSpans (Pos.zero.advanceOver a) (tokens (Pos.zero.advanceOver (a ++ passed)) ls) (endPos source)) gaps ∧
      (∀ gap ∈ gaps, allBlank gap = true) ∧
      interleaved gaps (tokens (Pos.zero.advanceOver (a ++ passed)) ls) = String.ofList (passed ++ text ls) := by
  induction ls generalizing a passed with
  | nil =>
      refine ⟨[String.ofList passed], .cons ?_ .nil, by simpa [allBlank] using hpassed, by simp [tokens, interleaved]⟩
      have hend : endPos source = Pos.zero.advanceOver (a ++ passed) := by rw [endPos, hsource]; simp
      rw [hend]
      exact slice?_of_append hsource
  | cons l ls ih =>
      obtain ⟨hl, hls⟩ := List.forall_mem_cons.1 hok
      cases htoken : l.token? (Pos.zero.advanceOver (a ++ passed)) with
      | none =>
          -- One more blank is passed.
          obtain ⟨c, rfl⟩ := token?_eq_none htoken
          have hmore : ∀ d ∈ passed ++ [c], isBlank d = true := by simpa [or_imp, forall_and] using ⟨hpassed, hl⟩
          have hrest := ih hls (a := a) (by simp [hsource, chars]) hmore
          rw [← List.append_assoc, Pos.advanceOver_append _ (a ++ passed)] at hrest
          simpa [tokens, token?, chars] using hrest
      | some t =>
          obtain ⟨blanks, hchars, hblanks, hspan⟩ := token?_chars htoken
          obtain ⟨gaps, hslices, hgaps, hwhole⟩ := ih hls (a := a ++ (passed ++ t.text.toList))
            (by simp [hsource, hchars]) hblanks
          have hnext : Pos.zero.advanceOver (a ++ (passed ++ t.text.toList) ++ blanks) =
              (Pos.zero.advanceOver (a ++ passed)).advanceOver l.chars := by
            rw [hchars, ← Pos.advanceOver_append]
            simp
          have hstop : Pos.zero.advanceOver (a ++ (passed ++ t.text.toList)) = t.span.stop := by
            rw [hspan, ← List.append_assoc, Pos.advanceOver_append]
          rw [hnext] at hslices hwhole
          rw [hstop] at hslices
          rw [tokens, htoken, Option.toList_some, List.singleton_append]
          have hblank : allBlank (String.ofList passed) = true := by simpa [allBlank] using hpassed
          refine ⟨String.ofList passed :: gaps, .cons ?_ hslices, List.forall_mem_cons.2 ⟨hblank, hgaps⟩, ?_⟩
          · rw [hspan]
            exact slice?_of_append hsource
          · rw [interleaved, hwhole, ← String.toList_inj]
            simp [hchars]

/-- In every text that can be cut into tokens, each token has the text of its span, the spans lie one behind the
other, every character outside of them is blank, and the text is the tokens and the gaps between them in turn. -/
theorem tokens_and_gaps_make_up_text {source : String} {ts : List Token} (h : tokenize source = .ok ts) :
    (∀ t ∈ ts, t.span.start < t.span.stop ∧ slice? source t.span = some t.text) ∧
    ts.Pairwise (fun t u => t.span.stop ≤ u.span.start) ∧
    (∀ a c b, source.toList = a ++ c :: b → (∀ t ∈ ts, ¬ t.span.Takes (Pos.zero.advanceOver a)) →
      isBlank c = true) ∧
    ∃ gaps, List.Forall₂ (fun span gap => slice? source span = some gap) (gapSpans .zero ts (endPos source)) gaps ∧
      (∀ gap ∈ gaps, allBlank gap = true) ∧ interleaved gaps ts = source := by
  obtain ⟨ls, hrun, htext, rfl⟩ := tokensFrom_eq_ok_iff.1 h
  refine ⟨fun t ht => ⟨?_, slice?_token htext ht⟩, tokens_ordered hrun.ok, ?_, ?_⟩
  · exact (mem_tokens_between hrun.ok ht).2.1
  · intro a c b hsource houtside
    by_contra hc
    obtain ⟨t, ht, htakes⟩ := exists_token_of_not_blank hrun.ok (htext.trans hsource) (Bool.eq_false_iff.2 hc)
    exact houtside t ht htakes
  · have hsource : source.toList = [] ++ ([] ++ text ls) := by simp [htext]
    obtain ⟨gaps, hslices, hgaps, hwhole⟩ := exists_gaps hrun.ok hsource (List.forall_mem_nil _)
    refine ⟨gaps, hslices, hgaps, ?_⟩
    simpa [htext] using hwhole

/-- A string with an escaped quote and a newline in it, and a comment that ends in wide and control blanks. -/
theorem tokens_and_gaps_make_up_text_escaped_string :
    ∃ ts, tokenize "(f \"a\\\"\nb\"; é\u3000\r\n λ)" = .ok ts ∧
      ts.map (fun t => (t.text, t.span)) =
        [("(", ⟨⟨0, 0⟩, ⟨0, 1⟩⟩), ("f", ⟨⟨0, 1⟩, ⟨0, 2⟩⟩), ("\"a\\\"\nb\"", ⟨⟨0, 3⟩, ⟨1, 2⟩⟩),
          ("; é", ⟨⟨1, 2⟩, ⟨1, 5⟩⟩), ("λ", ⟨⟨2, 1⟩, ⟨2, 2⟩⟩), (")", ⟨⟨2, 2⟩, ⟨2, 3⟩⟩)] ∧
      (∀ t ∈ ts, slice? "(f \"a\\\"\nb\"; é\u3000\r\n λ)" t.span = some t.text) ∧
      ∃ gaps, (∀ gap ∈ gaps, allBlank gap = true) ∧ interleaved gaps ts = "(f \"a\\\"\nb\"; é\u3000\r\n λ)" := by
  have htokens : tokenize "(f \"a\\\"\nb\"; é\u3000\r\n λ)" =
      .ok [⟨.opening .round, "(", ⟨⟨0, 0⟩, ⟨0, 1⟩⟩⟩, ⟨.atom, "f", ⟨⟨0, 1⟩, ⟨0, 2⟩⟩⟩,
        ⟨.string, "\"a\\\"\nb\"", ⟨⟨0, 3⟩, ⟨1, 2⟩⟩⟩, ⟨.comment, "; é", ⟨⟨1, 2⟩, ⟨1, 5⟩⟩⟩,
        ⟨.atom, "λ", ⟨⟨2, 1⟩, ⟨2, 2⟩⟩⟩, ⟨.closing .round, ")", ⟨⟨2, 2⟩, ⟨2, 3⟩⟩⟩] := by
    cbv
  obtain ⟨hslices, -, -, gaps, -, hgaps, hwhole⟩ := tokens_and_gaps_make_up_text htokens
  exact ⟨_, htokens, rfl, fun t ht => (hslices t ht).2, gaps, hgaps, hwhole⟩

end TreeEdit
