import ClassLang.Proofs.ParserSoundness

/-!
# Where the faults of the parser are

What the parser makes of a whole text. The tree of a text that is accepted has places inside the text
(`places_of_parse`); a text that is refused has a fault of the lexer, as in its listing, or one of the
grammar, at a place of the text (`parse_error`), and is never refused for its length.
-/

set_option autoImplicit false

namespace ClassLang.Tree

/-- The same module with another name for its class. -/
def Module.rename (name : String) (m : Module) : Module :=
  { m with classDecl := { m.classDecl with name := name } }

/-- The name of the class is nowhere in the text. -/
theorem parse_rename (source name name' : String) :
    parse source name' = Module.rename name' <$> parse source name := by
  have hrename : (Parse.wholeModule name' : Parse Module) =
      Module.rename name' <$> Parse.wholeModule name := by
    simp only [Parse.wholeModule, Parse.classDecl, map_bind, bind_assoc, map_pure, pure_bind]
    rfl
  rw [parse, parse, hrename]
  generalize (Parse.wholeModule name : Parse Module) = x
  change Prod.fst <$> (x (Parser.ofText source) >>= fun r => pure (r.1.rename name', r.2)) =
    Module.rename name' <$> Prod.fst <$> x (Parser.ofText source)
  cases x (Parser.ofText source) <;> rfl

variable {source name : String}

theorem places_of_parse {tree : Module} (h : parse source name = .ok tree) :
    tree.Places (Span.Inside (byteLength (Lexer.normalized source))) :=
  (nested_of_parse h).places

/-- **A text is refused** for a fault of the lexer, which its listing has as well, or for one of the
parser, and at a place of the text. No text is too large. -/
theorem parse_error {e : CompileError} (h : parse source name = .error e) :
    e.span.Inside (byteLength (Lexer.normalized source)) ∧ e.fault ≠ .boundReached ∧
      (e.fault.isLexical = true ∧ tokens source = .error e ∨ e.fault.isSyntactic = true) := by
  rcases parse_cases source name with ⟨tree, hparse, -⟩ | ⟨e', hparse, hrefuses⟩
  · cases h.symm.trans hparse
  cases h.symm.trans hparse
  rcases hrefuses with ⟨hgrammar, hinside⟩ | ⟨ts, r, hreads, hfails⟩
  · obtain ⟨hsyntactic, hne⟩ := Fault.isSyntactic_of_isOfGrammar hgrammar
    exact ⟨hinside, hne, .inr hsyntactic⟩
  have htokens := tokens_eq_error_iff.2 ⟨_, _, hreads, hfails⟩
  obtain ⟨hlexical, hinside⟩ := tokens_error htokens
  refine ⟨hinside, ?_, .inl ⟨hlexical, htokens⟩⟩
  intro heq
  rw [heq] at hlexical
  cases hlexical

end ClassLang.Tree
