import ClassLang.Proofs.ParserSoundness

/-!
# Tokens on demand and tokens in advance

The parser takes its tokens one at a time and turns to quote text when its recursion tells it to;
the listing of a text counts the holes that are open. Both read the same: `tokens_of_parse` says
that the listing of a text is what the parser took from it, that a fault of the lexer in the parser
is the fault of the listing, and that no text with a faulty listing is accepted.

`Logged` is a lexer that keeps a list of all that it has given. As the parser takes its tokens from
any supply, it also runs on this one, which mirrors the lexer, and its log is the sequence of tokens
and quote texts that it took.
-/

set_option autoImplicit false

namespace ClassLang

namespace Tree

/-- A lexer and all that it has given so far. -/
structure Logged where
  lexer : Lexer
  log : List Lexed

namespace Logged

def nextToken (s : Logged) : Except CompileError Lexed × Logged :=
  match s.lexer.nextToken with
  | (.ok lexed, l) => (.ok lexed, ⟨l, s.log ++ [lexed]⟩)
  | (.error e, l) => (.error e, ⟨l, s.log⟩)

/-- Quote text is listed as a token. -/
def nextQuotePart (s : Logged) : Except CompileError QuotePart × Logged :=
  match s.lexer.nextQuotePart with
  | (.ok part, l) =>
    (.ok part, ⟨l, s.log ++ [⟨.quotePart part.text part.isEnd, ⟨s.lexer.pos, l.pos⟩⟩]⟩)
  | (.error e, l) => (.error e, ⟨l, s.log⟩)

instance : Supply Logged :=
  ⟨nextToken, nextQuotePart, fun s => s.lexer.pos, fun s => s.lexer.measure⟩

end Logged

/-- The log is what lexer and log have given. -/
def Logged.mirror (source : String) : Mirror Logged where
  start := Reader.ofText source
  text := Lexer.normalized source
  twin ts s l := s = ⟨l, ts⟩
  inText := Lexer.in_ofText source
  pos := by
    rintro ts _ l rfl
    rfl
  measure := by
    rintro ts _ l rfl
    exact Nat.le_refl _
  word := by
    rintro ts _ l holes - rfl
    rcases hnext : l.nextToken with ⟨e | lexed, l'⟩
    · simp [Supply.nextToken, Logged.nextToken, hnext]
    · simp [Supply.nextToken, Logged.nextToken, hnext]
  quote := by
    rintro ts _ l holes - rfl
    rcases hnext : l.nextQuotePart with ⟨e | part, l'⟩
    · simp [Supply.nextQuotePart, Logged.nextQuotePart, hnext]
    · simp [Supply.nextQuotePart, Logged.nextQuotePart, hnext]

/-- The tree of a module, and all that the parser took from the lexer to make it. -/
def parseLogged (source name : String) : Except CompileError (Module × List Lexed) :=
  let start : Parser Logged := ⟨⟨Lexer.ofText source, []⟩, none⟩
  (fun result => (result.1, result.2.lexer.log)) <$> (Parse.wholeModule name).run start

/-- The two ways in which the parser and its log can end. -/
theorem parseLogged_cases (source name : String) :
    (∃ tree ts eof, parse source name = .ok tree ∧
      parseLogged source name = .ok (tree, ts ++ [eof]) ∧ eof.token = .eof ∧
      tokens source = .ok ts) ∨
    ∃ e, parse source name = .error e ∧ parseLogged source name = .error e ∧
      (e.fault.isSyntactic = true ∨ e.FromLexer ∧ tokens source = .error e) := by
  have hruns := Mirror.wholeModule_runs (m := Logged.mirror source) name
    (.taken .nil rfl)
  rcases hruns with
    ⟨tree, s, p, hlogged, hplain, ⟨ts, r, eof, hreads, hends, heof, hlog, -⟩, -⟩ |
    ⟨e, hlogged, hplain, hfault⟩
  · refine .inl ⟨tree, ts, eof, congrArg (Prod.fst <$> ·) hplain, ?_, heof,
      tokens_eq_ok_iff.2 ⟨r, hreads, hends⟩⟩
    have hlog : s.lexer.log = ts ++ [eof] := congrArg Logged.log hlog
    rw [← hlog]
    exact congrArg ((fun result => (result.1, result.2.lexer.log)) <$> ·) hlogged
  · refine .inr ⟨e, congrArg (Prod.fst <$> ·) hplain, ?_, ?_⟩
    · exact congrArg ((fun result => (result.1, result.2.lexer.log)) <$> ·) hlogged
    · rcases hfault with ⟨hgrammar, -⟩ | ⟨ts, r, hreads, hfails⟩
      · exact .inl (Fault.isSyntactic_of_isOfGrammar hgrammar).1
      · exact .inr ⟨hfails.fromLexer, tokens_eq_error_iff.2 ⟨_, _, hreads, hfails⟩⟩

/-- The parser and the listing read the same. Keeping a log changes nothing; the log of a module
that is accepted is the listing with `eof` behind it; a module that is refused with an error of the
lexer has a listing that fails with this error; and where the listing fails, the module is
refused. -/
theorem tokens_of_parse (source name : String) :
    Prod.fst <$> parseLogged source name = parse source name ∧
    (∀ tree, parse source name = .ok tree → ∃ ts eof, tokens source = .ok ts ∧
      parseLogged source name = .ok (tree, ts ++ [eof]) ∧ eof.token = .eof) ∧
    (∀ e, parse source name = .error e → e.FromLexer → tokens source = .error e) ∧
    ∀ e, tokens source = .error e → ∃ e', parse source name = .error e' := by
  rcases parseLogged_cases source name with
    ⟨tree, ts, eof, hparse, hlogged, heof, htokens⟩ | ⟨e, hparse, hlogged, hfault⟩
  · rw [hparse, hlogged, htokens]
    refine ⟨rfl, ?_, ?_, ?_⟩
    · intro tree' h
      cases h
      exact ⟨ts, eof, rfl, rfl, heof⟩
    · intro e h
      cases h
    · intro e h
      cases h
  · rw [hparse, hlogged]
    refine ⟨rfl, ?_, ?_, ?_⟩
    · intro tree h
      cases h
    · intro e' h hfrom
      cases h
      rcases hfault with hsyntactic | ⟨-, htokens⟩
      · exact absurd hfrom.isLexical (Fault.not_isLexical_of_isSyntactic hsyntactic)
      · exact htokens
    · intro e' _
      exact ⟨e, rfl⟩

/-- A quote in a hole of a quote. -/
def nestedQuotes : String := "fun Int f()\n\t\"a\x7b\"b\x7b1\x7dc\"\x7dd\"\n"

/-- A quote whose text behind a hole is not ended. -/
def openQuote : String := "fun Int f()\n\t\"a\x7b1\x7db\n"

theorem tokens_of_parse_quotes :
    (∃ tree ts eof, parse nestedQuotes "m" = .ok tree ∧ tokens nestedQuotes = .ok ts ∧
      parseLogged nestedQuotes "m" = .ok (tree, ts ++ [eof]) ∧ eof.token = .eof) ∧
    ∃ e : CompileError, parse openQuote "m" = .error e ∧ e.FromLexer ∧
      tokens openQuote = .error e := by
  constructor
  · have haccepted : (parse nestedQuotes "m").toBool = true := by decide +kernel
    cases hparse : parse nestedQuotes "m" with
    | error e =>
      rw [hparse] at haccepted
      cases haccepted
    | ok tree =>
      obtain ⟨-, hlog, -, -⟩ := tokens_of_parse nestedQuotes "m"
      obtain ⟨ts, eof, htokens, hlogged, heof⟩ := hlog tree hparse
      exact ⟨tree, ts, eof, rfl, htokens, hlogged, heof⟩
  · have hrefused : (fun _ => ()) <$> parse openQuote "m" =
        .error ⟨⟨19, 20⟩, .unterminatedQuote⟩ := by
      decide +kernel
    cases hparse : parse openQuote "m" with
    | ok tree =>
      rw [hparse] at hrefused
      cases hrefused
    | error e =>
      rw [hparse] at hrefused
      cases hrefused
      have hfrom : CompileError.FromLexer ⟨⟨19, 20⟩, .unterminatedQuote⟩ :=
        ⟨⟨⟨['b', '\n'], 18, 0⟩, 1, 0, true⟩, .inr rfl⟩
      obtain ⟨-, -, hfault, -⟩ := tokens_of_parse openQuote "m"
      exact ⟨_, rfl, hfrom, hfault _ hparse hfrom⟩

end Tree

end ClassLang
