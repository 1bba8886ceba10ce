import ClassLang.Token.Lexer

/-!
# All tokens of a text

The tokens of a whole text in order, without the final `eof`. Behind a brace that closes a hole the
text of the quote goes on, and that text is listed as a token too.
-/

set_option autoImplicit false

namespace ClassLang

/-- Lists the tokens from `l` on, at most `bound` of them, with `holes` holes open. -/
def tokensFrom : (bound : Nat) → (holes : Nat) → Lexer → Except CompileError (List Lexed)
  | 0, _, l => .error ⟨.emptyAt l.pos, .boundReached⟩
  | bound + 1, holes, l =>
    match l.nextToken with
    | (.error e, _) => .error e
    | (.ok lexed, behind) =>
      match lexed.token with
      | .eof => .ok []
      | .quoteStart _ => (lexed :: ·) <$> tokensFrom bound (holes + 1) behind
      | .rightBrace =>
        if holes = 0 then (lexed :: ·) <$> tokensFrom bound holes behind
        else
          match behind.nextQuotePart with
          | (.error e, _) => .error e
          | (.ok part, last) =>
            let text : Lexed := ⟨.quotePart part.text part.isEnd, ⟨behind.pos, last.pos⟩⟩
            (lexed :: text :: ·) <$>
              tokensFrom bound (if part.isEnd then holes - 1 else holes) last
      | _ => (lexed :: ·) <$> tokensFrom bound holes behind

/-- The tokens of a text, or the first fault in it. -/
def tokens (source : String) : Except CompileError (List Lexed) :=
  let l := Lexer.ofText source
  tokensFrom (l.measure + 1) 0 l

end ClassLang
