import ClassLang.Token
import ClassLang.Tree

/-!
# The grammar of modules

The derivations of the grammar as data. Each kind of phrase has its `tokens`, the part of the stream
that it derives, and its `tree`, in which every place is `Span.nowhere`; `erase` takes a tree to the
same tree without places. Behind an optional block of imports and an optional block of slots a
module has its methods:

    module  ::= [import INDENT imp (NEWLINE imp)* DEDENT]
                [slots INDENT slot (NEWLINE slot)* DEDENT] method* EOF
    imp     ::= ('.' | '..')+ [seg ('.' seg)*] | seg ('.' seg)*
    slot    ::= (val | var) type name
    method  ::= (fun | def) type (name | operator) '(' [type name (',' type name)*] ')' INDENT block
    type    ::= TypeName ['[' type (',' type)* ']']
    block   ::= expr DEDENT | expr NEWLINE block | pattern '=' expr NEWLINE block
    pattern ::= '_' | bare+
    bare    ::= name | '(' bare ')'
    expr    ::= part+ | part+ operator expr
    part    ::= head ('.' name)*
    head    ::= name | TypeName '.' name | literal | QuoteStart holes | '(' expr ')'
    holes   ::= expr '}' closing-part | expr '}' QuotePart holes
-/

set_option autoImplicit false

namespace ClassLang

/-- The place of what has none. -/
def Span.nowhere : Span := ⟨0, 0⟩

/-! ## Trees without places -/

namespace Tree

mutual

/-- The same type without places. -/
def TypeExpr.erase : TypeExpr → TypeExpr
  | .named _ name => .named .nowhere name
  | .generic _ name args => .generic .nowhere name (eraseTypes args)

def eraseTypes : List TypeExpr → List TypeExpr
  | [] => []
  | ty :: rest => ty.erase :: eraseTypes rest

end

def Pattern.erase : Pattern → Pattern
  | .ignore _ => .ignore .nowhere
  | .single _ name => .single .nowhere name
  | .destruct _ names => .destruct .nowhere (names.map fun named => (.nowhere, named.2))

mutual

/-- The same expression without places. -/
def Expr.erase : Expr → Expr
  | .access _ name => .access .nowhere name
  | .staticAccess _ className method => .staticAccess .nowhere className method
  | .operatorCall _ left operator right => .operatorCall .nowhere left.erase operator right.erase
  | .call _ target args => .call .nowhere target.erase (eraseExprs args)
  | .property _ target name => .property .nowhere target.erase name
  | .letIn _ pattern value body => .letIn .nowhere pattern.erase value.erase body.erase
  | .seq _ first body => .seq .nowhere first.erase body.erase
  | .literal _ value => .literal .nowhere value
  | .quote _ head holes => .quote .nowhere head (eraseHoles holes)

def eraseExprs : List Expr → List Expr
  | [] => []
  | e :: rest => e.erase :: eraseExprs rest

def eraseHoles : List (Expr × String) → List (Expr × String)
  | [] => []
  | (hole, text) :: rest => (hole.erase, text) :: eraseHoles rest

end

@[simp] theorem eraseExprs_eq (es : List Expr) : eraseExprs es = es.map Expr.erase := by
  induction es with
  | nil => rfl
  | cons e es ih => rw [eraseExprs, ih, List.map_cons]

def Import.erase (i : Import) : Import := ⟨.nowhere, i.path⟩

def Slot.erase (slot : Slot) : Slot := ⟨.nowhere, slot.mutable, slot.ty.erase, slot.name⟩

def Param.erase (param : Param) : Param := ⟨.nowhere, param.ty.erase, param.name⟩

def Method.erase (method : Method) : Method :=
  ⟨.nowhere, method.isStatic, method.returnType.erase, method.name,
    method.params.map Param.erase, method.body.erase⟩

def ClassDecl.erase (decl : ClassDecl) : ClassDecl :=
  ⟨.nowhere, decl.name, .nowhere, decl.slots.map Slot.erase, decl.methods.map Method.erase⟩

/-- The same module without places. -/
def Module.erase (module : Module) : Module :=
  ⟨.nowhere, module.imports.map Import.erase, module.classDecl.erase⟩

end Tree

/-! ## Derivations -/

namespace Grammar

inductive TypeExpr where
  | named (name : String)
  | generic (name : String) (first : TypeExpr) (others : List TypeExpr)

mutual

def TypeExpr.tokens : TypeExpr → List Token
  | .named name => [.typeName name]
  | .generic name first others =>
    .typeName name :: .leftBracket :: (first.tokens ++ typeArgTokens others)

/-- The arguments behind the first, and the closing bracket. -/
def typeArgTokens : List TypeExpr → List Token
  | [] => [.rightBracket]
  | ty :: rest => .comma :: (ty.tokens ++ typeArgTokens rest)

end

mutual

def TypeExpr.tree : TypeExpr → Tree.TypeExpr
  | .named name => .named .nowhere name
  | .generic name first others => .generic .nowhere name (first.tree :: typeTrees others)

def typeTrees : List TypeExpr → List Tree.TypeExpr
  | [] => []
  | ty :: rest => ty.tree :: typeTrees rest

end

mutual

inductive Expr where
  | parts (first : Part) (others : List Part)
  | operator (first : Part) (others : List Part) (text : String) (right : Expr)

inductive Part where
  | mk (head : Head) (names : List String)

inductive Head where
  | name (text : String)
  | staticName (className method : String)
  | literal (value : Literal)
  | quote (text : String) (holes : Holes)
  | paren (inner : Expr)

inductive Holes where
  | last (hole : Expr) (text : String)
  | more (hole : Expr) (text : String) (others : Holes)

end

/-- The names behind a part, each with its dot. -/
def memberTokens (names : List String) : List Token := names.flatMap fun name => [.dot, .name name]

mutual

def Expr.tokens : Expr → List Token
  | .parts first others => first.tokens ++ partTokens others
  | .operator first others text right =>
    first.tokens ++ (partTokens others ++ .operator text :: right.tokens)

def Part.tokens : Part → List Token
  | .mk head names => head.tokens ++ memberTokens names

def partTokens : List Part → List Token
  | [] => []
  | part :: rest => part.tokens ++ partTokens rest

def Head.tokens : Head → List Token
  | .name text => [.name text]
  | .staticName className method => [.typeName className, .dot, .name method]
  | .literal value => [.literal value]
  | .quote text holes => .quoteStart text :: holes.tokens
  | .paren inner => .leftParen :: (inner.tokens ++ [.rightParen])

def Holes.tokens : Holes → List Token
  | .last hole text => hole.tokens ++ [.rightBrace, .quotePart text true]
  | .more hole text others => hole.tokens ++ .rightBrace :: .quotePart text false :: others.tokens

end

/-- One part stands for itself, more are a call of the first. -/
def callTree (target : Tree.Expr) (args : List Tree.Expr) : Tree.Expr :=
  if args.isEmpty then target else .call .nowhere target args

/-- A name behind a part is a property of it. -/
def memberTree (target : Tree.Expr) (names : List String) : Tree.Expr :=
  names.foldl (fun target name => .property .nowhere target name) target

mutual

def Expr.tree : Expr → Tree.Expr
  | .parts first others => callTree first.tree (partTrees others)
  | .operator first others text right =>
    .operatorCall .nowhere (callTree first.tree (partTrees others)) text right.tree

def Part.tree : Part → Tree.Expr
  | .mk head names => memberTree head.tree names

def partTrees : List Part → List Tree.Expr
  | [] => []
  | part :: rest => part.tree :: partTrees rest

def Head.tree : Head → Tree.Expr
  | .name text => .access .nowhere text
  | .staticName className method => .staticAccess .nowhere className method
  | .literal value => .literal .nowhere value
  | .quote text holes => .quote .nowhere text holes.tree
  | .paren inner => inner.tree

def Holes.tree : Holes → List (Tree.Expr × String)
  | .last hole text => [(hole.tree, text)]
  | .more hole text others => (hole.tree, text) :: others.tree

end

/-- A name in any number of parentheses. -/
inductive BareName where
  | bare (text : String)
  | paren (inner : BareName)

def BareName.tokens : BareName → List Token
  | .bare text => [.name text]
  | .paren inner => .leftParen :: (inner.tokens ++ [.rightParen])

def BareName.text : BareName → String
  | .bare text => text
  | .paren inner => inner.text

inductive Pattern where
  | ignore
  | names (first : BareName) (others : List BareName)

def Pattern.tokens : Pattern → List Token
  | .ignore => [.underscore]
  | .names first others => first.tokens ++ others.flatMap BareName.tokens

def Pattern.tree : Pattern → Tree.Pattern
  | .ignore => .ignore .nowhere
  | .names first [] => .single .nowhere first.text
  | .names first (second :: others) =>
    .destruct .nowhere ((first :: second :: others).map fun bare => (.nowhere, bare.text))

inductive Block where
  | last (value : Expr)
  | line (first : Expr) (rest : Block)
  | declaration (pattern : Pattern) (value : Expr) (rest : Block)

def Block.tokens : Block → List Token
  | .last value => value.tokens ++ [.dedent]
  | .line first rest => first.tokens ++ .newline :: rest.tokens
  | .declaration pattern value rest =>
    pattern.tokens ++ .equals :: (value.tokens ++ .newline :: rest.tokens)

def Block.tree : Block → Tree.Expr
  | .last value => value.tree
  | .line first rest => .seq .nowhere first.tree rest.tree
  | .declaration pattern value rest => .letIn .nowhere pattern.tree value.tree rest.tree

inductive Segment where
  | lower (text : String)
  | upper (text : String)

def Segment.token : Segment → Token
  | .lower text => .name text
  | .upper text => .typeName text

def Segment.text : Segment → String
  | .lower text => text
  | .upper text => text

/-- One or two dots, which are different tokens. -/
inductive Dots where
  | one
  | two

def Dots.token : Dots → Token
  | .one => .dot
  | .two => .dotDot

def Dots.count : Dots → Nat
  | .one => 1
  | .two => 2

/-- An import that begins with dots may go without a name. -/
inductive Import where
  | relative (first : Dots) (others : List Dots) (path : List Segment)
  | top (first : Segment) (others : List Segment)

/-- Names with a dot between them. -/
def pathTokens : List Segment → List Token
  | [] => []
  | first :: others => first.token :: others.flatMap fun segment => [.dot, segment.token]

def Import.tokens : Import → List Token
  | .relative first others path => (first :: others).map Dots.token ++ pathTokens path
  | .top first others => pathTokens (first :: others)

/-- How far up a row of dots leads. -/
def ancestors : List Dots → Nat
  | [] => 0
  | dots :: rest => dots.count + ancestors rest

def Import.tree : Import → Tree.Import
  | .relative first others path =>
    ⟨.nowhere, .relative ⟨ancestors (first :: others), ⟨path.map Segment.text⟩⟩⟩
  | .top first others => ⟨.nowhere, .fromTop ⟨(first :: others).map Segment.text⟩⟩

structure Slot where
  mutable : Bool
  ty : TypeExpr
  name : String

def Slot.tokens (slot : Slot) : List Token :=
  (if slot.mutable then .varWord else .valWord) :: (slot.ty.tokens ++ [.name slot.name])

def Slot.tree (slot : Slot) : Tree.Slot := ⟨.nowhere, slot.mutable, slot.ty.tree, slot.name⟩

structure Param where
  ty : TypeExpr
  name : String

def Param.tokens (param : Param) : List Token := param.ty.tokens ++ [.name param.name]

def Param.tree (param : Param) : Tree.Param := ⟨.nowhere, param.ty.tree, param.name⟩

/-- A method may be called by a name or by an operator. -/
inductive MethodName where
  | name (text : String)
  | operator (text : String)

def MethodName.token : MethodName → Token
  | .name text => .name text
  | .operator text => .operator text

def MethodName.text : MethodName → String
  | .name text => text
  | .operator text => text

structure Method where
  isStatic : Bool
  returnType : TypeExpr
  name : MethodName
  params : List Param
  body : Block

/-- The parameters up to the closing parenthesis. -/
def paramTokens : List Param → List Token
  | [] => [.rightParen]
  | first :: others =>
    first.tokens ++ (others.flatMap (fun param => .comma :: param.tokens) ++ [.rightParen])

/-- A method up to the line break before its body. -/
def Method.headTokens (method : Method) : List Token :=
  (if method.isStatic then .funWord else .defWord) :: (method.returnType.tokens ++
    method.name.token :: .leftParen :: paramTokens method.params)

def Method.tokens (method : Method) : List Token :=
  method.headTokens ++ .indent :: method.body.tokens

def Method.tree (method : Method) : Tree.Method :=
  ⟨.nowhere, method.isStatic, method.returnType.tree, method.name.text,
    method.params.map Param.tree, method.body.tree⟩

structure Module where
  imports : List Import
  slots : List Slot
  methods : List Method

/-- The lines of an indented list; a list without lines is not written at all. -/
def blockTokens {α : Type} (word : Token) (line : α → List Token) : List α → List Token
  | [] => []
  | first :: others =>
    word :: .indent :: (line first ++ (others.flatMap (fun x => .newline :: line x) ++ [.dedent]))

/-- A module up to the end of the text. -/
def Module.bodyTokens (module : Module) : List Token :=
  blockTokens .importWord Import.tokens module.imports ++
    (blockTokens .slotsWord Slot.tokens module.slots ++ module.methods.flatMap Method.tokens)

def Module.tokens (module : Module) : List Token := module.bodyTokens ++ [.eof]

/-- The tree of a module whose class is called `name`. -/
def Module.tree (name : String) (module : Module) : Tree.Module :=
  ⟨.nowhere, module.imports.map Import.tree,
    ⟨.nowhere, name, .nowhere, module.slots.map Slot.tree, module.methods.map Method.tree⟩⟩

/-! ## Tokens of lists -/

theorem typeArgTokens_eq (tys : List TypeExpr) :
    typeArgTokens tys = tys.flatMap (fun ty => .comma :: ty.tokens) ++ [.rightBracket] := by
  induction tys with
  | nil => rfl
  | cons ty tys ih => simp [typeArgTokens, ih]

theorem partTokens_eq (parts : List Part) : partTokens parts = parts.flatMap Part.tokens := by
  induction parts with
  | nil => rfl
  | cons part parts ih => rw [partTokens, ih, List.flatMap_cons]

/-- The tokens of an expression, its parts behind each other and then perhaps an operator. -/
theorem Expr.tokens_parts (first : Part) (others : List Part) :
    (Expr.parts first others).tokens = (first :: others).flatMap Part.tokens := by
  rw [Expr.tokens, partTokens_eq, List.flatMap_cons]

theorem Expr.tokens_operator (first : Part) (others : List Part) (text : String) (right : Expr) :
    (Expr.operator first others text right).tokens =
      (first :: others).flatMap Part.tokens ++ .operator text :: right.tokens := by
  rw [Expr.tokens, partTokens_eq, List.flatMap_cons, List.append_assoc]

/-! ## Induction on derivations -/

/-- Induction on a type, with the hypothesis for each of its arguments. -/
theorem TypeExpr.induct {P : TypeExpr → Prop} (named : ∀ name, P (.named name))
    (generic : ∀ name first others, P first → (∀ ty ∈ others, P ty) →
      P (.generic name first others)) (ty : TypeExpr) : P ty :=
  @TypeExpr.rec P (fun tys => ∀ ty ∈ tys, P ty) named generic
    (fun _ h => absurd h List.not_mem_nil)
    (fun _ _ hty htys => List.forall_mem_cons.2 ⟨hty, htys⟩) ty

/-- Induction on expressions, their parts, the heads of these and the holes of quotes. -/
theorem Expr.induct {E : Expr → Prop} {P : Part → Prop} {H : Head → Prop} {Q : Holes → Prop}
    (parts : ∀ first others, P first → (∀ part ∈ others, P part) → E (.parts first others))
    (operator : ∀ first others text right, P first → (∀ part ∈ others, P part) → E right →
      E (.operator first others text right))
    (part : ∀ head names, H head → P (.mk head names))
    (name : ∀ text, H (.name text))
    (staticName : ∀ className method, H (.staticName className method))
    (literal : ∀ value, H (.literal value))
    (quote : ∀ text holes, Q holes → H (.quote text holes))
    (paren : ∀ inner, E inner → H (.paren inner))
    (last : ∀ hole text, E hole → Q (.last hole text))
    (more : ∀ hole text others, E hole → Q others → Q (.more hole text others)) :
    (∀ e, E e) ∧ (∀ p, P p) ∧ (∀ h, H h) ∧ ∀ q, Q q :=
  have nil : ∀ part ∈ [], P part := fun _ h => absurd h List.not_mem_nil
  have cons : ∀ part parts, P part → (∀ part ∈ parts, P part) → ∀ p ∈ part :: parts, P p :=
    fun _ _ hpart hparts => List.forall_mem_cons.2 ⟨hpart, hparts⟩
  ⟨@Expr.rec E P H Q (fun parts => ∀ part ∈ parts, P part) parts operator part name staticName
      literal quote paren last more nil cons,
    @Part.rec E P H Q (fun parts => ∀ part ∈ parts, P part) parts operator part name staticName
      literal quote paren last more nil cons,
    @Head.rec E P H Q (fun parts => ∀ part ∈ parts, P part) parts operator part name staticName
      literal quote paren last more nil cons,
    @Holes.rec E P H Q (fun parts => ∀ part ∈ parts, P part) parts operator part name staticName
      literal quote paren last more nil cons⟩

end Grammar

end ClassLang
