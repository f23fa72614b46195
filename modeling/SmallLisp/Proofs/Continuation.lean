import Mathlib.Control.Monad.Basic
import SmallLisp.Prompt
import SmallLisp.Proofs.Nesting

/-!
# When a text goes on

The prompt judges by characters alone whether a text is complete. It judges as the scanner and the
parser do: its depth is that of the tokens, and it waits exactly for what they would wait for.
-/
namespace SmallLisp

namespace Balance

open Lexeme Scanner

/-- A character that neither quotes nor nests. -/
def Plain (c : Char) : Prop := c ≠ '"' ∧ c ≠ '(' ∧ c ≠ ')'

theorem run_plain {cs : List Char} (h : ∀ c ∈ cs, Plain c) (depth : Int) :
    run ⟨depth, .outside⟩ cs = ⟨depth, .outside⟩ := by
  induction cs with
  | nil => rfl
  | cons c cs ih =>
    obtain ⟨hquote, hopen, hclose⟩ := h c (by simp)
    have hstep : step ⟨depth, .outside⟩ c = ⟨depth, .outside⟩ := by
      simp only [step, if_neg hquote, if_neg hopen, if_neg hclose]
    rw [run, List.foldl_cons, hstep]
    exact ih fun d hd => h d (by simp [hd])

theorem plain_of_isBlank {c : Char} (h : isBlank c = true) : Plain c := by
  refine ⟨?_, ?_, ?_⟩ <;> rintro rfl <;> exact absurd h (by decide)

theorem plain_of_isSymbolChar {c : Char} (h : isSymbolChar c = true) : Plain c := by
  refine ⟨?_, ?_, ?_⟩ <;> rintro rfl <;> exact absurd h (by decide)

theorem plain_of_isDigit {c : Char} (h : isDigit c = true) : Plain c :=
  plain_of_isSymbolChar (by rw [isSymbolChar, h, Bool.or_true, Bool.true_or])

theorem run_cons (b : Balance) (c : Char) (cs : List Char) : b.run (c :: cs) = (b.step c).run cs :=
  rfl

theorem step_inside {c : Char} (hquote : c ≠ '"') (hescape : c ≠ '\\') (depth : Int) :
    step ⟨depth, .inside⟩ c = ⟨depth, .inside⟩ := by
  simp only [step, if_neg hquote, if_neg hescape]

theorem run_readText {cs : List Char} {n : Nat} {contents : List Char}
    (h : readText cs = ⟨n, .ok contents⟩) (depth : Int) :
    run ⟨depth, .inside⟩ (cs.take n) = ⟨depth, .outside⟩ := by
  fun_induction readText cs generalizing n contents with
  | case1 => cases h
  | case2 cs =>
    cases h
    rfl
  | case3 => cases h
  | case4 c cs d hd ih =>
    obtain ⟨m, ds, hm, rfl, -⟩ := Reading.cons_ok h
    rw [Nat.add_comm, List.take_succ_cons, List.take_succ_cons, run_cons, run_cons]
    exact ih hm
  | case5 => cases h
  | case6 c cs hquote hend hescape ih =>
    obtain ⟨m, ds, hm, rfl, -⟩ := Reading.cons_ok h
    rw [Nat.add_comm, List.take_succ_cons, run_cons,
      step_inside hquote (ne_backslash hend hescape)]
    exact ih hm

theorem run_readText_unterminated {cs : List Char} {n : Nat}
    (h : readText cs = ⟨n, .error .unterminatedText⟩) (depth : Int) :
    (run ⟨depth, .inside⟩ cs).inText = true := by
  fun_induction readText cs generalizing n with
  | case1 => rfl
  | case2 cs => cases h
  | case3 => rfl
  | case4 c cs d hd ih =>
    obtain ⟨m, hm, -⟩ := Reading.cons_error h
    rw [run_cons, run_cons]
    exact ih hm
  | case5 => cases h
  | case6 c cs hquote hend hescape ih =>
    obtain ⟨m, hm, -⟩ := Reading.cons_error h
    rw [run_cons, step_inside hquote (ne_backslash hend hescape)]
    exact ih hm

private theorem take_length_takeWhile (p : Char → Bool) (c : Char) (cs : List Char) :
    (c :: cs).take (c :: cs.takeWhile p).length = c :: cs.takeWhile p := by
  rw [List.length_cons, List.take_succ_cons,
    ← List.prefix_iff_eq_take.mp (List.takeWhile_prefix p)]

theorem run_read {cs : List Char} {n : Nat} {kind : Token.Kind} (h : Lexeme.read cs = ⟨n, .ok kind⟩)
    (depth : Int) : run ⟨depth, .outside⟩ (cs.take n) = ⟨depth + kind.weight, .outside⟩ := by
  cases reads_of_eq h with
  | eof =>
    rw [Token.Kind.weight_eof, Int.add_zero]
    rfl
  | opening cs => rfl
  | closing cs => rfl
  | @symbol c hc cs =>
    rw [take_length_takeWhile, run_plain, Token.Kind.weight_symbol, Int.add_zero]
    intro d hd
    rcases List.mem_cons.mp hd with rfl | hd
    · exact plain_of_isSymbolChar (by rw [isSymbolChar, hc]; rfl)
    · exact plain_of_isSymbolChar (List.all_eq_true.mp List.all_takeWhile d hd)
  | @integer c cs value hc hi =>
    rw [take_length_takeWhile, run_plain, Token.Kind.weight_integer, Int.add_zero]
    intro d hd
    rcases List.mem_cons.mp hd with rfl | hd
    · exact plain_of_isDigit hc
    · exact plain_of_isDigit (List.all_eq_true.mp List.all_takeWhile d hd)
  | @text cs n contents hr =>
    have hquote : step ⟨depth, .outside⟩ '"' = ⟨depth, .inside⟩ := rfl
    rw [Nat.add_comm, List.take_succ_cons, run_cons, hquote, run_readText hr]
    rw [Token.Kind.weight_text, Int.add_zero]

theorem run_read_unterminated {cs : List Char} {n : Nat}
    (h : Lexeme.read cs = ⟨n, .error .unterminatedText⟩) (depth : Int) :
    (run ⟨depth, .outside⟩ cs).inText = true := by
  cases reads_of_eq h with
  | malformed hr =>
    rw [run_cons]
    exact run_readText_unterminated hr depth

theorem run_blanks (cs : List Char) (depth : Int) :
    run ⟨depth, .outside⟩ (cs.takeWhile isBlank) = ⟨depth, .outside⟩ :=
  run_plain (fun _ hc => plain_of_isBlank (isBlank_of_mem_takeWhile hc)) depth

theorem run_of_lexes {q : Location} {cs : List Char} {ts : List Token} {e : Option LexError}
    (h : Lexes q cs ts e) (he : e = none) (depth : Int) :
    run ⟨depth, .outside⟩ cs = ⟨depth + Token.depth ts, .outside⟩ := by
  induction h generalizing depth with
  | @finish q cs blank =>
    have hcs := takeWhile_blank_append cs
    rw [blank, List.append_nil] at hcs
    rw [← hcs, run_blanks]
    simp
  | stop => cases he
  | @token q cs n kind ts e h hk tail ih =>
    rw [← blank_take_drop n cs, run_append, run_append, run_blanks, run_read h, ih he,
      Token.depth_cons, Int.add_assoc]

theorem inText_of_lexes {q : Location} {cs : List Char} {ts : List Token} {e : Option LexError}
    (h : Lexes q cs ts e) {p : Location} (he : e = some ⟨.unterminatedText, p⟩) (depth : Int) :
    (run ⟨depth, .outside⟩ cs).inText = true := by
  induction h generalizing depth with
  | finish => cases he
  | @stop q cs n cause h =>
    cases he
    rw [← takeWhile_blank_append cs, run_append, run_blanks]
    exact run_read_unterminated h depth
  | @token q cs n kind ts e h hk tail ih =>
    rw [← blank_take_drop n cs, run_append, run_append, run_blanks, run_read h]
    exact ih he _

/-- The characters of a text nest as its tokens do. -/
theorem of_tokenize {text : String} {ts : List Token} (h : tokenize text = (ts, none)) :
    Balance.of text = ⟨Token.depth ts, .outside⟩ := by
  rw [Balance.of, start, run_of_lexes (tokenize_eq_iff.mp h) rfl, Int.zero_add]

theorem inText_of_tokenize {text : String} {ts : List Token} {p : Location}
    (h : tokenize text = (ts, some ⟨.unterminatedText, p⟩)) : (Balance.of text).inText = true :=
  inText_of_lexes (tokenize_eq_iff.mp h) rfl 0

end Balance

open SmallLisp.Parser

/-- Parsing a text failed because there was no more of it. -/
inductive RunsOut (text : String) : Prop
  | refused {cause location t} (failed : parse text = .error (.refused cause location))
      (current : (afterParse text).current = some t) (ended : t.kind = .eof)
  | unterminated {p} (failed : parse text = .error (.malformed ⟨.unterminatedText, p⟩))

theorem not_isOpen_of_parse {text : String} {program : Program} (h : parse text = .ok program) :
    (Balance.of text).isOpen = false := by
  obtain ⟨us, t, ht, hk, -, hall⟩ := exists_reading_of_parse h
  have hdepth : Token.depth us = 0 := (Progress.depth_of_start hall).symm
  rw [Balance.of_tokenize ht, Token.depth_append, hdepth, Token.depth_cons, hk]
  rfl

theorem isOpen_of_runsOut {text : String} (h : RunsOut text) : (Balance.of text).isOpen = true := by
  cases h with
  | @refused cause location t failed current ended =>
    obtain ⟨us, u, vs, g, hus, hall, hu, hcur⟩ := refused_of_parse failed
    obtain rfl : t = u := Option.some.inj (current.symm.trans hcur)
    have ht : tokenize text = (us ++ t :: vs, (tokenize text).2) := by rw [← hus]
    obtain ⟨rfl, hstop⟩ := eof_last_of_tokenize ht ended
    rw [hstop] at ht
    have hpos : g.state.depth ≠ 0 := by
      intro hzero
      have hend : g.mayEnd = true := by rw [Progress.mayEnd, Progress.state_of_depth hzero]
      rw [Progress.feed_eof ended hend] at hu
      cases hu
    have hdepth := Progress.depth_of_start hall
    rw [Balance.of_tokenize ht, Balance.isOpen, Token.depth_append, Token.depth_cons, ended]
    rw [Token.Kind.weight_eof, Token.depth_nil, Bool.or_eq_true]
    have hopen : 0 < Token.depth us + (0 + 0) := by omega
    exact .inl (decide_eq_true hopen)
  | unterminated failed =>
    obtain ⟨ts, g, ht, -⟩ := exists_reading_of_malformed failed
    rw [Balance.isOpen, Balance.inText_of_tokenize ht, Bool.or_true]

private theorem eq_unterminatedText_of_message {cause : LexError.Cause}
    (h : cause.message = "unexpected EOF when parsing string") : cause = .unterminatedText := by
  cases cause with
  | unterminatedText => rfl
  | unexpectedCharacter c =>
    have hlength : ("unexpected character '" ++ String.singleton c ++ "'").length =
      "unexpected EOF when parsing string".length := congrArg String.length h
    rw [String.length_append, String.length_append, String.length_singleton] at hlength
    exact absurd hlength (by decide +kernel)
  | unknownEscape => exact absurd h (by decide)
  | integerTooLarge => exact absurd h (by decide)

/-- The prompt judges as the scanner and the parser do. Where the tokens of a text end, its balance
counts them; where a quoted text is not closed, it ends inside that. So a line that completes a
program is not continued, and a line after which more of the text is wanted is. -/
theorem balance_agrees :
    (∀ text ts, tokenize text = (ts, none) →
      (Balance.of text).depth = Token.depth ts ∧ (Balance.of text).inText = false) ∧
    (∀ text ts e, tokenize text = (ts, some e) → e.message = "unexpected EOF when parsing string" →
      (Balance.of text).inText = true) ∧
    (∀ pending line program, parse (Prompt.join pending line) = .ok program →
      Prompt.extend pending line = (Prompt.join pending line, false)) ∧
    (∀ pending line, RunsOut (Prompt.join pending line) →
      Prompt.extend pending line = (Prompt.join pending line, true)) := by
  refine ⟨?_, ?_, ?_, ?_⟩
  · intro text ts h
    rw [Balance.of_tokenize h]
    exact ⟨rfl, rfl⟩
  · intro text ts e h hmessage
    obtain ⟨cause, p⟩ := e
    obtain rfl := eq_unterminatedText_of_message hmessage
    exact Balance.inText_of_tokenize h
  · intro pending line program h
    rw [Prompt.extend, not_isOpen_of_parse h]
  · intro pending line h
    rw [Prompt.extend, isOpen_of_runsOut h]

/-- Texts that hold parentheses and quotes, open and closed. -/
theorem balance_agrees_quoted :
    ((Balance.of "(f \")\\\"\")").depth = 0 ∧ (Balance.of "(f \")\\\"\")").inText = false) ∧
    (Balance.of "(f \")\\").inText = true ∧
    Prompt.extend "(f" "\")\")" = ("(f\n\")\")", false) ∧
    Prompt.extend "(f" "\")\"" = ("(f\n\")\"", true) := by
  let ts : List Token := [⟨.opening, ⟨0, 1, 1⟩⟩, ⟨.symbol "f", ⟨1, 1, 2⟩⟩,
    ⟨.text ")\"", ⟨3, 1, 4⟩⟩, ⟨.closing, ⟨8, 1, 9⟩⟩, ⟨.eof, ⟨8, 1, 9⟩⟩]
  have hended : tokenize "(f \")\\\"\")" = (ts, none) := by decide +kernel
  have hquoted : tokenize "(f \")\\" =
      ((tokenize "(f \")\\").1, some ⟨.unterminatedText, ⟨3, 1, 4⟩⟩) := by
    decide +kernel
  have hparsed : parse (Prompt.join "(f" "\")\")") = .ok ⟨⟨0, 1, 1⟩,
      [.call (.symbol ⟨"f", ⟨1, 1, 2⟩⟩) [.text ")" ⟨3, 2, 1⟩] ⟨0, 1, 1⟩]⟩ := by decide +kernel
  have hrefused : parse (Prompt.join "(f" "\")\"") = .error (.refused .unclosedCall ⟨5, 2, 3⟩) := by
    decide +kernel
  have hcurrent : (afterParse (Prompt.join "(f" "\")\"")).current = some ⟨.eof, ⟨5, 2, 3⟩⟩ := by
    decide +kernel
  have hopen : RunsOut (Prompt.join "(f" "\")\"") := .refused hrefused hcurrent rfl
  exact ⟨balance_agrees.1 _ _ hended, balance_agrees.2.1 _ _ _ hquoted rfl,
    balance_agrees.2.2.1 _ _ _ hparsed, balance_agrees.2.2.2 _ _ hopen⟩

end SmallLisp
