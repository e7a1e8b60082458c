import Mathlib

/-!
# Support — C expressions as text

The expressions of C that are made of primary tokens, parentheses, casts, binary operators, calls of
named functions and subscripts: their trees, the text of a tree in which every parenthesis is a node
(`flat`), a lexer (`lex`) and a parser by precedence climbing (`parse`), with the ten levels of
binary operators of C, all of them left-associative.

As in C the parser has to know which words name types, since `(a) - b` is a difference or a cast.

* `lexes_flat`: the text of a tree lexes to its tokens.
* `parses`: the tokens of a tree whose operands are where their level allows parse to the tree,
  one case per constructor.
* `parse_flat`: the text of such a tree parses to the tree.
-/

namespace CSyntax

/-- A text, as its characters. -/
abbrev Text := List Char

/-! ### Trees -/

inductive BinOp
  | lor | land | bor | bxor | band | eq | ne | lt | le | gt | ge | shl | shr | add | sub | mul | div
  | mod
  deriving DecidableEq, Repr

def BinOp.text : BinOp → Text
  | .lor => ['|', '|']
  | .land => ['&', '&']
  | .bor => ['|']
  | .bxor => ['^']
  | .band => ['&']
  | .eq => ['=', '=']
  | .ne => ['!', '=']
  | .lt => ['<']
  | .le => ['<', '=']
  | .gt => ['>']
  | .ge => ['>', '=']
  | .shl => ['<', '<']
  | .shr => ['>', '>']
  | .add => ['+']
  | .sub => ['-']
  | .mul => ['*']
  | .div => ['/']
  | .mod => ['%']

/-- The level of a binary operator in the grammar, from logical or to multiplication. -/
def BinOp.level : BinOp → Nat
  | .lor => 1
  | .land => 2
  | .bor => 3
  | .bxor => 4
  | .band => 5
  | .eq | .ne => 6
  | .lt | .le | .gt | .ge => 7
  | .shl | .shr => 8
  | .add | .sub => 9
  | .mul | .div | .mod => 10

inductive TypeTok
  | word (w : Text)
  | star
  deriving DecidableEq, Repr

def TypeTok.text : TypeTok → Text
  | .word w => w
  | .star => ['*']

/-- A type name, as its words and stars. -/
structure CType where
  head : Text
  rest : List TypeTok
  deriving DecidableEq, Repr

/-- The words and stars with a blank between them. -/
def CType.text (ty : CType) : Text := ty.head ++ ty.rest.flatMap fun t => ' ' :: t.text

inductive Expr
  | raw (text : Text)
  | paren (a : Expr)
  | cast (ty : CType) (a : Expr)
  | binop (op : BinOp) (a b : Expr)
  | call (callee : Text) (args : List Expr)
  | subscript (a b : Expr)
  deriving Repr

/-- Induction over trees, with the hypothesis for every argument of a call. -/
theorem Expr.induct {P : Expr → Prop} (raw : ∀ t, P (.raw t)) (paren : ∀ a, P a → P (.paren a))
    (cast : ∀ ty a, P a → P (.cast ty a)) (binop : ∀ op a b, P a → P b → P (.binop op a b))
    (call : ∀ f args, (∀ a ∈ args, P a) → P (.call f args))
    (subscript : ∀ a b, P a → P b → P (.subscript a b)) : ∀ e, P e
  | .raw t => raw t
  | .paren a => paren a (induct raw paren cast binop call subscript a)
  | .cast ty a => cast ty a (induct raw paren cast binop call subscript a)
  | .binop op a b =>
      binop op a b (induct raw paren cast binop call subscript a)
        (induct raw paren cast binop call subscript b)
  | .call f args => call f args fun a _ => induct raw paren cast binop call subscript a
  | .subscript a b =>
      subscript a b (induct raw paren cast binop call subscript a)
        (induct raw paren cast binop call subscript b)

/-- Where a tree stands in the grammar: a binary operator, a cast, a postfix expression. -/
def Expr.level : Expr → Nat
  | .binop op _ _ => op.level
  | .cast _ _ => 11
  | _ => 12

mutual

/-- The text of a tree, with no parentheses but those of its nodes. -/
def flat : Expr → Text
  | .raw t => t
  | .paren a => '(' :: flat a ++ [')']
  | .cast ty a => '(' :: ty.text ++ ')' :: flat a
  | .binop op a b => flat a ++ ' ' :: op.text ++ ' ' :: flat b
  | .call f args => f ++ '(' :: flatArgs args ++ [')']
  | .subscript a b => flat a ++ '[' :: flat b ++ [']']

/-- The arguments of a call. -/
def flatArgs : List Expr → Text
  | [] => []
  | [a] => flat a
  | a :: b :: args => flat a ++ ',' :: ' ' :: flatArgs (b :: args)

end

/-! ### Tokens -/

inductive Tok
  | word (w : Text)
  | lit (s : Text)
  | op (o : BinOp)
  | lparen
  | rparen
  | lbrack
  | rbrack
  | comma
  deriving DecidableEq, Repr

def isWordChar (c : Char) : Bool := c.isAlphanum || c == '_'

def isQuote (c : Char) : Bool := c == '"' || c == '\''

def punct (c : Char) : Option Tok :=
  if c = '(' then some .lparen
  else if c = ')' then some .rparen
  else if c = '[' then some .lbrack
  else if c = ']' then some .rbrack
  else if c = ',' then some .comma
  else none

/-- A string or character literal up to its closing quote; a backslash takes the next character
with it. -/
def closeQuote (q : Char) : Text → Option (Text × Text)
  | [] => none
  | c :: cs =>
      if c = q then some ([c], cs)
      else if c = '\\' then
        match cs with
        | [] => none
        | d :: ds => (closeQuote q ds).map fun (b, r) => (c :: d :: b, r)
      else (closeQuote q cs).map fun (b, r) => (c :: b, r)

/-- The operators, the longer ones first. -/
def operators : List BinOp :=
  [.lor, .land, .eq, .ne, .le, .ge, .shl, .shr, .bor, .bxor, .band, .lt, .gt, .add, .sub, .mul,
   .div, .mod]

/-- The longest operator a text starts with. -/
def readOp (s : Text) : Option (BinOp × Text) :=
  (operators.find? fun o => o.text.isPrefixOf s).map fun o => (o, s.drop o.text.length)

/-- The token a text starts with, and what follows it. -/
def token : Text → Option (Tok × Text)
  | [] => none
  | c :: cs =>
      match punct c with
      | some t => some (t, cs)
      | none =>
          if isWordChar c then
            some (.word (c :: cs.takeWhile isWordChar), cs.dropWhile isWordChar)
          else if isQuote c then (closeQuote c cs).map fun (b, r) => (.lit (c :: b), r)
          else (readOp (c :: cs)).map fun (o, r) => (.op o, r)

/-- The tokens of a text, by at most `n` steps. -/
def lexN : Nat → Text → Option (List Tok)
  | _, [] => some []
  | 0, _ => none
  | n + 1, c :: cs =>
      if c = ' ' then lexN n cs
      else
        match token (c :: cs) with
        | some (t, rest) => (lexN n rest).map (t :: ·)
        | none => none

/-- The tokens of a text. -/
def lex (s : Text) : Option (List Tok) := lexN s.length s

/-! ### The parser -/

variable (isType : Text → Bool)

/-- The rest of a type name in parentheses. -/
def typeRest : List Tok → Option (List TypeTok × List Tok)
  | .rparen :: ts => some ([], ts)
  | .word w :: ts => (typeRest ts).map fun (r, ts) => (.word w :: r, ts)
  | .op .mul :: ts => (typeRest ts).map fun (r, ts) => (.star :: r, ts)
  | _ => none

mutual

/-- An expression of at least the level `p`. -/
def parseExpr : Nat → Nat → List Tok → Option (Expr × List Tok)
  | 0, _, _ => none
  | n + 1, p, ts =>
      match parseCast n ts with
      | some (a, ts) => climb n p a ts
      | none => none

/-- The operators of at least the level `p` that follow an operand; what stands to the right of
one binds tighter. -/
def climb : Nat → Nat → Expr → List Tok → Option (Expr × List Tok)
  | 0, _, _, _ => none
  | n + 1, p, a, .op o :: ts =>
      if p ≤ o.level then
        match parseExpr n (o.level + 1) ts with
        | some (b, ts) => climb n p (.binop o a b) ts
        | none => none
      else some (a, .op o :: ts)
  | _ + 1, _, a, ts => some (a, ts)

/-- A cast, or a postfix expression. -/
def parseCast : Nat → List Tok → Option (Expr × List Tok)
  | 0, _ => none
  | n + 1, .lparen :: .word w :: ts =>
      if isType w then
        match typeRest ts with
        | some (rest, ts) =>
            match parseCast n ts with
            | some (a, ts) => some (.cast ⟨w, rest⟩ a, ts)
            | none => none
        | none => none
      else parsePostfix n (.lparen :: .word w :: ts)
  | n + 1, ts => parsePostfix n ts

def parsePostfix : Nat → List Tok → Option (Expr × List Tok)
  | 0, _ => none
  | n + 1, ts =>
      match parsePrimary n ts with
      | some (a, ts) => subscripts n a ts
      | none => none

/-- The subscripts that follow a postfix expression. -/
def subscripts : Nat → Expr → List Tok → Option (Expr × List Tok)
  | 0, _, _ => none
  | n + 1, a, .lbrack :: ts =>
      match parseExpr n 0 ts with
      | some (b, .rbrack :: ts) => subscripts n (.subscript a b) ts
      | _ => none
  | _ + 1, a, ts => some (a, ts)

/-- A call, a token, or an expression in parentheses. -/
def parsePrimary : Nat → List Tok → Option (Expr × List Tok)
  | 0, _ => none
  | _ + 1, .word f :: .lparen :: .rparen :: ts => some (.call f [], ts)
  | n + 1, .word f :: .lparen :: ts =>
      match parseArgs n ts with
      | some (args, ts) => some (.call f args, ts)
      | none => none
  | _ + 1, .word w :: ts => some (.raw w, ts)
  | _ + 1, .lit s :: ts => some (.raw s, ts)
  | n + 1, .lparen :: ts =>
      match parseExpr n 0 ts with
      | some (a, .rparen :: ts) => some (.paren a, ts)
      | _ => none
  | _ + 1, _ => none

/-- The arguments of a call up to the closing parenthesis; there is at least one. -/
def parseArgs : Nat → List Tok → Option (List Expr × List Tok)
  | 0, _ => none
  | n + 1, ts =>
      match parseExpr n 0 ts with
      | some (a, .comma :: ts) =>
          match parseArgs n ts with
          | some (args, ts) => some (a :: args, ts)
          | none => none
      | some (a, .rparen :: ts) => some ([a], ts)
      | _ => none

end

/-- The tree of a text. -/
def parse (s : Text) : Option Expr :=
  match lex s with
  | some ts =>
      match parseExpr isType (8 * ts.length + 8) 0 ts with
      | some (e, []) => some e
      | _ => none
  | none => none

/-! ### Well-formed trees -/

/-- A word: an identifier or a number. -/
def IsWord (w : Text) : Prop := w ≠ [] ∧ ∀ c ∈ w, isWordChar c = true

/-- A string or character literal. -/
def IsLit (s : Text) : Prop := ∃ q b, isQuote q = true ∧ s = q :: b ∧ closeQuote q b = some (b, [])

/-- A type name starts with a word that names a type. -/
def CType.WellFormed (ty : CType) : Prop :=
  IsWord ty.head ∧ isType ty.head = true ∧ ∀ w, .word w ∈ ty.rest → IsWord w

mutual

/-- The tokens of a tree are tokens, and the words of its types, and no others, name types. -/
def Expr.WellFormed : Expr → Prop
  | .raw t => (IsWord t ∧ isType t = false) ∨ IsLit t
  | .paren a => a.WellFormed
  | .cast ty a => ty.WellFormed isType ∧ a.WellFormed
  | .binop _ a b => a.WellFormed ∧ b.WellFormed
  | .call f args => IsWord f ∧ isType f = false ∧ WellFormedArgs args
  | .subscript a b => a.WellFormed ∧ b.WellFormed

def WellFormedArgs : List Expr → Prop
  | [] => True
  | a :: args => a.WellFormed ∧ WellFormedArgs args

end

mutual

/-- Every operand stands where its level allows: the right operand of a binary operator binds
tighter than the operator. -/
def Expr.Explicit : Expr → Prop
  | .raw _ => True
  | .paren a => a.Explicit
  | .cast _ a => 11 ≤ a.level ∧ a.Explicit
  | .binop op a b => op.level ≤ a.level ∧ op.level < b.level ∧ a.Explicit ∧ b.Explicit
  | .call _ args => ExplicitArgs args
  | .subscript a b => 12 ≤ a.level ∧ a.Explicit ∧ b.Explicit

def ExplicitArgs : List Expr → Prop
  | [] => True
  | a :: args => a.Explicit ∧ ExplicitArgs args

end

variable {isType} {args : List Expr}

theorem wellFormedArgs_iff :
    WellFormedArgs isType args ↔ ∀ a ∈ args, a.WellFormed isType := by
  induction args with
  | nil => simp [WellFormedArgs]
  | cons a args ih => simp [WellFormedArgs, ih]

theorem explicitArgs_iff : ExplicitArgs args ↔ ∀ a ∈ args, a.Explicit := by
  induction args with
  | nil => simp [ExplicitArgs]
  | cons a args ih => simp [ExplicitArgs, ih]

/-! ### The tokens of a tree -/

/-- A word or a literal. -/
def primTok (t : Text) : Tok := if (t.headD ' ' |> isQuote) then .lit t else .word t

def CType.toks (ty : CType) : List Tok :=
  .word ty.head :: ty.rest.map fun
    | .word w => .word w
    | .star => .op .mul

mutual

def toks : Expr → List Tok
  | .raw t => [primTok t]
  | .paren a => .lparen :: toks a ++ [.rparen]
  | .cast ty a => .lparen :: ty.toks ++ .rparen :: toks a
  | .binop op a b => toks a ++ .op op :: toks b
  | .call f args => .word f :: .lparen :: toksArgs args ++ [.rparen]
  | .subscript a b => toks a ++ .lbrack :: toks b ++ [.rbrack]

def toksArgs : List Expr → List Tok
  | [] => []
  | [a] => toks a
  | a :: b :: args => toks a ++ .comma :: toksArgs (b :: args)

end

/-! ### Lexing -/

/-- The lexical grammar: blanks are skipped, and the longest token is taken. -/
inductive Lexes : Text → List Tok → Prop
  | nil : Lexes [] []
  | space {s ts} : Lexes s ts → Lexes (' ' :: s) ts
  | token {c cs t rest ts} : c ≠ ' ' → token (c :: cs) = some (t, rest) → Lexes rest ts →
      Lexes (c :: cs) (t :: ts)

variable {s : Text} {q : Char}

theorem length_closeQuote {b r : Text} (h : closeQuote q s = some (b, r)) :
    r.length < s.length := by
  fun_induction closeQuote q s generalizing b with
  | case1 => nomatch h
  | case2 cs =>
      cases h
      exact Nat.lt_succ_self _
  | case3 => nomatch h
  | case4 _ _ _ ih | case5 _ _ _ _ ih =>
      obtain ⟨⟨b', r'⟩, hclose, heq⟩ := Option.map_eq_some_iff.mp h
      cases heq
      have := ih hclose
      simp only [List.length_cons]
      omega

variable {rest : Text} {c : Char}

theorem length_token {cs : Text} {t : Tok} (h : token (c :: cs) = some (t, rest)) :
    rest.length ≤ cs.length := by
  rw [token] at h
  split at h
  · cases h
    exact Nat.le_refl _
  · split at h
    · cases h
      exact List.length_dropWhile_le ..
    · split at h
      · obtain ⟨⟨b, r⟩, hclose, heq⟩ := Option.map_eq_some_iff.mp h
        cases heq
        exact Nat.le_of_lt (length_closeQuote hclose)
      · obtain ⟨⟨o, r⟩, hop, heq⟩ := Option.map_eq_some_iff.mp h
        cases heq
        obtain ⟨o', -, heq⟩ := Option.map_eq_some_iff.mp hop
        cases heq
        have hlen : 1 ≤ o.text.length := by cases o <;> decide
        rw [List.length_drop, List.length_cons]
        omega

variable {ts : List Tok}

/-- The lexer follows the lexical grammar. -/
theorem Lexes.lexN (h : Lexes s ts) :
    ∀ {n : Nat}, s.length ≤ n → lexN n s = some ts := by
  induction h with
  | nil =>
      intro n _
      cases n <;> rfl
  | space _ ih =>
      intro n hn
      cases n with
      | zero => exact absurd hn (Nat.not_succ_le_zero _)
      | succ n =>
          rw [CSyntax.lexN, if_pos rfl]
          exact ih (Nat.le_of_succ_le_succ hn)
  | token hc htok _ ih =>
      intro n hn
      cases n with
      | zero => exact absurd hn (Nat.not_succ_le_zero _)
      | succ n =>
          have hlen := length_token htok
          have hrest := ih (Nat.le_trans hlen (Nat.le_of_succ_le_succ hn))
          rw [CSyntax.lexN, if_neg hc, htok]
          simp only [hrest, Option.map_some]

theorem Lexes.lex (h : Lexes s ts) : lex s = some ts :=
  h.lexN (Nat.le_refl _)

/-- What may follow a word. -/
def Ends (rest : Text) : Prop := ∀ c ∈ rest.head?, isWordChar c = false

theorem ends_nil : Ends [] := fun _ h => nomatch h

theorem ends_cons (h : isWordChar c = false) : Ends (c :: rest) := by
  intro d hd
  cases hd
  exact h

theorem punct_eq_none_of_word (h : isWordChar c = true) : punct c = none := by
  unfold punct
  split_ifs with h₁ h₂ h₃ h₄ h₅
  · exact absurd (h₁ ▸ h) (by decide)
  · exact absurd (h₂ ▸ h) (by decide)
  · exact absurd (h₃ ▸ h) (by decide)
  · exact absurd (h₄ ▸ h) (by decide)
  · exact absurd (h₅ ▸ h) (by decide)
  · rfl

theorem ne_space_of_word (h : isWordChar c = true) : c ≠ ' ' := by
  rintro rfl
  exact absurd h (by decide)

theorem quote_cases (h : isQuote q = true) : q = '"' ∨ q = '\'' := by
  simpa [isQuote] using h

theorem isQuote_of_word (h : isWordChar c = true) : isQuote c = false := by
  by_contra hq
  rcases quote_cases (Bool.eq_true_of_not_eq_false hq) with rfl | rfl
  · exact absurd h (by decide)
  · exact absurd h (by decide)

theorem closeQuote_append {b r : Text} (rest : Text) (h : closeQuote q s = some (b, r)) :
    closeQuote q (s ++ rest) = some (b, r ++ rest) := by
  fun_induction closeQuote q s generalizing b with
  | case1 => nomatch h
  | case2 cs =>
      cases h
      rw [List.cons_append, closeQuote.eq_def]
      exact if_pos rfl
  | case3 => nomatch h
  | case4 d ds hne ih =>
      obtain ⟨⟨b', r'⟩, hclose, heq⟩ := Option.map_eq_some_iff.mp h
      cases heq
      rw [List.cons_append, List.cons_append, closeQuote, if_neg hne, if_pos rfl]
      simp only [ih hclose, Option.map_some]
  | case5 c cs hne hslash ih =>
      obtain ⟨⟨b', r'⟩, hclose, heq⟩ := Option.map_eq_some_iff.mp h
      cases heq
      rw [List.cons_append, closeQuote.eq_def]
      dsimp only
      rw [if_neg hne, if_neg hslash, ih hclose]
      rfl

variable {t : Text}

section Lexes

theorem Lexes.punct {t : Tok} (hc : punct c = some t) (h : Lexes rest ts) :
    Lexes (c :: rest) (t :: ts) := by
  refine .token ?_ ?_ h
  · rintro rfl
    exact absurd (hc.symm.trans (by decide : CSyntax.punct ' ' = none)) (Option.some_ne_none t)
  · rw [CSyntax.token, hc]

theorem Lexes.word {w : Text} (hw : IsWord w) (hrest : Ends rest) (h : Lexes rest ts) :
    Lexes (w ++ rest) (.word w :: ts) := by
  obtain ⟨hne, hall⟩ := hw
  cases w with
  | nil => exact absurd rfl hne
  | cons c cs =>
      have hc : isWordChar c = true := hall c List.mem_cons_self
      have hcs : ∀ d ∈ cs, isWordChar d = true := fun d hd => hall d (List.mem_cons_of_mem _ hd)
      have hstop : rest.takeWhile isWordChar = [] ∧ rest.dropWhile isWordChar = rest := by
        cases rest with
        | nil => exact ⟨rfl, rfl⟩
        | cons d ds =>
            have hd : isWordChar d = false := hrest d rfl
            simp [hd]
      refine .token (ne_space_of_word hc) ?_ h
      show CSyntax.token (c :: (cs ++ rest)) = _
      rw [CSyntax.token, punct_eq_none_of_word hc]
      simp only [hc, if_true, List.takeWhile_append_of_pos hcs, List.dropWhile_append_of_pos hcs,
        hstop.1, hstop.2, List.append_nil]

theorem Lexes.lit (hs : IsLit s) (h : Lexes rest ts) :
    Lexes (s ++ rest) (.lit s :: ts) := by
  obtain ⟨q, b, hq, rfl, hclose⟩ := hs
  have happend := closeQuote_append rest hclose
  have hchars : CSyntax.punct q = none ∧ isWordChar q = false ∧ q ≠ ' ' := by
    rcases quote_cases hq with rfl | rfl
    · decide
    · decide
  refine .token hchars.2.2 ?_ h
  show CSyntax.token (q :: (b ++ rest)) = _
  rw [CSyntax.token, hchars.1]
  simp only [hchars.2.1, Bool.false_eq_true, if_false, hq, if_true, happend, Option.map_some,
    List.nil_append]

/-- A primary token. -/
theorem Lexes.prim (ht : (IsWord t ∧ isType t = false) ∨ IsLit t) (hrest : Ends rest)
    (h : Lexes rest ts) : Lexes (t ++ rest) (primTok t :: ts) := by
  rcases ht with ⟨hw, -⟩ | hl
  · have hprim : primTok t = .word t := by
      obtain ⟨hne, hall⟩ := hw
      cases t with
      | nil => exact absurd rfl hne
      | cons c cs =>
          have hquote := isQuote_of_word (hall c List.mem_cons_self)
          simp [primTok, hquote]
    rw [hprim]
    exact .word hw hrest h
  · have hprim : primTok t = .lit t := by
      obtain ⟨q, b, hq, rfl, -⟩ := hl
      simp [primTok, hq]
    rw [hprim]
    exact .lit hl h

theorem Lexes.op (o : BinOp) (h : Lexes rest ts) :
    Lexes (o.text ++ ' ' :: rest) (.op o :: ts) := by
  cases o
  all_goals exact .token (by decide) rfl (.space h)

theorem Lexes.star (h : Lexes rest ts) : Lexes ('*' :: rest) (.op .mul :: ts) :=
  .token (by decide) rfl h

/-- The rest of a type name and its closing parenthesis. -/
theorem Lexes.typeRest {tys : List TypeTok} (hwords : ∀ w, .word w ∈ tys → IsWord w)
    (h : Lexes rest ts) :
    Lexes (tys.flatMap (fun t => ' ' :: t.text) ++ ')' :: rest)
      (tys.map (fun | .word w => .word w | .star => .op .mul) ++ .rparen :: ts) ∧
    Ends (tys.flatMap (fun t => ' ' :: t.text) ++ ')' :: rest) := by
  induction tys with
  | nil => exact ⟨.punct rfl h, ends_cons (by decide)⟩
  | cons t tys ih =>
      obtain ⟨hlex, hends⟩ := ih fun w hw => hwords w (List.mem_cons_of_mem _ hw)
      rw [List.flatMap_cons, List.append_assoc, List.cons_append]
      refine ⟨.space ?_, ends_cons (by decide)⟩
      cases t with
      | word w => exact .word (hwords w List.mem_cons_self) hends hlex
      | star => exact .star hlex

theorem Lexes.ctype {ty : CType} (hty : ty.WellFormed isType) (h : Lexes rest ts) :
    Lexes (ty.text ++ ')' :: rest) (ty.toks ++ .rparen :: ts) := by
  obtain ⟨hword, -, hwords⟩ := hty
  obtain ⟨hlex, hends⟩ := Lexes.typeRest hwords h
  rw [CType.text, List.append_assoc]
  exact .word hword hends hlex

end Lexes

/-- What it takes for a tree's text to lex to its tokens, whatever comes next. -/
def LexesFlat (e : Expr) : Prop :=
  ∀ rest ts, Ends rest → Lexes rest ts → Lexes (flat e ++ rest) (toks e ++ ts)

theorem lexes_flatArgs (hargs : ∀ a ∈ args, LexesFlat a) (h : Lexes rest ts) :
    Lexes (flatArgs args ++ ')' :: rest) (toksArgs args ++ .rparen :: ts) := by
  induction args with
  | nil => exact .punct rfl h
  | cons a args ih =>
      have ha := hargs a List.mem_cons_self
      cases args with
      | nil => exact ha _ _ (ends_cons (by decide)) (.punct rfl h)
      | cons b args =>
          have hargs' := ih fun x hx => hargs x (List.mem_cons_of_mem _ hx)
          simp only [flatArgs, toksArgs, List.append_assoc, List.cons_append]
          exact ha _ _ (ends_cons (by decide)) (.punct rfl (.space hargs'))

variable {e : Expr}

/-- The text of a tree lexes to its tokens. -/
theorem lexes_flat (he : e.WellFormed isType) : LexesFlat e := by
  induction e using Expr.induct with
  | raw t => exact fun rest ts hends h => .prim he hends h
  | paren a ih =>
      intro rest ts _ h
      simp only [flat, toks, List.append_assoc, List.cons_append, List.nil_append]
      exact .punct rfl (ih he _ _ (ends_cons (by decide)) (.punct rfl h))
  | cast ty a ih =>
      intro rest ts hends h
      obtain ⟨hty, ha⟩ := he
      simp only [flat, toks, List.append_assoc, List.cons_append]
      exact .punct rfl (.ctype hty (ih ha _ _ hends h))
  | binop op a b iha ihb =>
      intro rest ts hends h
      obtain ⟨ha, hb⟩ := he
      simp only [flat, toks, List.append_assoc, List.cons_append]
      exact iha ha _ _ (ends_cons (by decide)) (.space (.op op (ihb hb _ _ hends h)))
  | call f args ih =>
      intro rest ts _ h
      obtain ⟨hf, -, hargs⟩ := he
      have hlex := lexes_flatArgs (fun a ha => ih a ha (wellFormedArgs_iff.mp hargs a ha)) h
      simp only [flat, toks, List.append_assoc, List.cons_append, List.nil_append]
      exact .word hf (ends_cons (by decide)) (.punct rfl hlex)
  | subscript a b iha ihb =>
      intro rest ts _ h
      obtain ⟨ha, hb⟩ := he
      simp only [flat, toks, List.append_assoc, List.cons_append, List.nil_append]
      exact iha ha _ _ (ends_cons (by decide))
        (.punct rfl (ihb hb _ _ (ends_cons (by decide)) (.punct rfl h)))

/-! ### What a tree's tokens start with, and what may follow them -/

/-- How the tokens of an expression start: not with the name of a type. -/
def Starts (isType : Text → Bool) : Tok → Prop
  | .word w => isType w = false
  | .lit _ => True
  | .lparen => True
  | _ => False

theorem starts_primTok (ht : (IsWord t ∧ isType t = false) ∨ IsLit t) :
    Starts isType (primTok t) := by
  unfold primTok
  split_ifs with hq
  · trivial
  · rcases ht with ⟨-, htype⟩ | ⟨q, b, hquote, rfl, -⟩
    · exact htype
    · exact absurd hquote hq

theorem toks_cons (he : e.WellFormed isType) :
    ∃ t ts, toks e = t :: ts ∧ Starts isType t := by
  induction e using Expr.induct with
  | raw t => exact ⟨_, [], rfl, starts_primTok he⟩
  | paren a ih => exact ⟨_, _, rfl, trivial⟩
  | cast ty a ih => exact ⟨_, _, rfl, trivial⟩
  | binop op a b iha ihb =>
      obtain ⟨t, ts, heq, hstarts⟩ := iha he.1
      exact ⟨t, _, by rw [toks, heq]; rfl, hstarts⟩
  | call f args ih => exact ⟨_, _, rfl, he.2.1⟩
  | subscript a b iha ihb =>
      obtain ⟨t, ts, heq, hstarts⟩ := iha he.1
      exact ⟨t, _, by rw [toks, heq]; rfl, hstarts⟩

variable {a : Expr}

theorem toksArgs_cons (hargs : WellFormedArgs isType (a :: args)) :
    ∃ t ts, toksArgs (a :: args) = t :: ts ∧ Starts isType t := by
  obtain ⟨t, ts, heq, hstarts⟩ := toks_cons hargs.1
  cases args with
  | nil => exact ⟨t, ts, heq, hstarts⟩
  | cons b args => exact ⟨t, _, by rw [toksArgs, heq]; rfl, hstarts⟩

/-- A postfix expression does not look like a cast. -/
theorem not_cast (he : e.WellFormed isType) (hexplicit : e.Explicit) (hlevel : 12 ≤ e.level)
    {w : Text} {rest : List Tok} (h : toks e ++ rest = .lparen :: .word w :: ts) :
    isType w = false := by
  induction e using Expr.induct generalizing rest with
  | raw t =>
      have hstarts := starts_primTok he
      rw [toks, List.singleton_append] at h
      unfold primTok at h
      split_ifs at h
      · nomatch (List.cons.inj h).1
      · nomatch (List.cons.inj h).1
  | paren a ih =>
      obtain ⟨t, ts', heq, hstarts⟩ := toks_cons (show a.WellFormed isType from he)
      rw [toks, heq] at h
      cases h
      exact hstarts
  | cast ty a ih => exact absurd hlevel (by simp [Expr.level])
  | binop op a b iha ihb =>
      have : op.level ≤ 10 := by cases op <;> decide
      exact absurd hlevel (by simp only [Expr.level]; omega)
  | call f args ih => nomatch (List.cons.inj h).1
  | subscript a b iha ihb =>
      rw [toks, List.append_assoc, List.append_assoc] at h
      exact iha he.1 hexplicit.2.1 hexplicit.1 h

theorem length_toks_pos (e : Expr) : 1 ≤ (toks e).length := by
  cases e <;> simp [toks] <;> omega

/-- Nothing that would make the tree before it an operand of a call or a subscript. -/
def NoPostfix (rest : List Tok) : Prop :=
  ∀ ts, rest ≠ .lbrack :: ts ∧ rest ≠ .lparen :: ts

/-- Nothing that would take the tree before it, or a part of it, for an operand. -/
def Follows (level : Nat) (rest : List Tok) : Prop :=
  NoPostfix rest ∧ ∀ o ts, rest = .op o :: ts → o.level ≤ level

theorem follows_rparen (level : Nat) (ts : List Tok) : Follows level (.rparen :: ts) :=
  ⟨fun _ => ⟨nofun, nofun⟩, nofun⟩

theorem follows_rbrack (level : Nat) (ts : List Tok) : Follows level (.rbrack :: ts) :=
  ⟨fun _ => ⟨nofun, nofun⟩, nofun⟩

theorem follows_comma (level : Nat) (ts : List Tok) : Follows level (.comma :: ts) :=
  ⟨fun _ => ⟨nofun, nofun⟩, nofun⟩

theorem follows_nil (level : Nat) : Follows level [] := ⟨fun _ => ⟨nofun, nofun⟩, nofun⟩

theorem Follows.mono {level level' : Nat} {rest : List Tok} (h : Follows level rest)
    (hle : level ≤ level') : Follows level' rest :=
  ⟨h.1, fun o ts heq => Nat.le_trans (h.2 o ts heq) hle⟩

/-! ### Parsing, one step at a time -/

section Steps

variable {n p : Nat} {rest : List Tok}

/-- Climbing ends at what may follow. -/
theorem climb_stop (h : ∀ o ts, rest = .op o :: ts → o.level < p) :
    climb isType (n + 1) p a rest = some (a, rest) := by
  cases rest with
  | nil => rfl
  | cons t ts =>
      cases t with
      | op o => rw [climb, if_neg (Nat.not_le.mpr (h o ts rfl))]
      | _ => rfl

/-- There is no further subscript. -/
theorem subscripts_stop (h : NoPostfix rest) :
    subscripts isType (n + 1) a rest = some (a, rest) := by
  cases rest with
  | nil => rfl
  | cons t ts =>
      cases t with
      | lbrack => exact absurd rfl (h ts).1
      | _ => rfl

theorem parseCast_of_not_cast (h : ∀ w ts', ts = .lparen :: .word w :: ts' → isType w = false) :
    parseCast isType (n + 1) ts = parsePostfix isType n ts := by
  cases ts with
  | nil => rfl
  | cons t ts =>
      cases t with
      | lparen =>
          cases ts with
          | nil => rfl
          | cons u us =>
              cases u with
              | word w =>
                  rw [parseCast, h w us rfl]
                  rfl
              | _ => rfl
      | _ => rfl

end Steps

theorem typeRest_toks (tys : List TypeTok) (ts : List Tok) :
    typeRest (tys.map (fun | .word w => .word w | .star => .op .mul) ++ .rparen :: ts) =
      some (tys, ts) := by
  induction tys with
  | nil => rfl
  | cons t tys ih =>
      cases t with
      | word w => rw [List.map_cons, List.cons_append, typeRest, ih]; rfl
      | star => rw [List.map_cons, List.cons_append, typeRest, ih]; rfl

/-! ### Parsing a tree's tokens -/

/-- The parser gets a tree back from its tokens, at each of its entry points, given fuel for its
tokens; what is left of the fuel goes on. -/
structure Parses (isType : Text → Bool) (e : Expr) : Prop where
  expr : ∀ p n m rest, p ≤ e.level → 8 * (toks e).length + m ≤ n → Follows e.level rest →
    ∃ n', m ≤ n' ∧ parseExpr isType n p (toks e ++ rest) = climb isType n' p e rest
  cast : 11 ≤ e.level → ∀ n rest, 8 * (toks e).length ≤ n + 2 → NoPostfix rest →
    parseCast isType n (toks e ++ rest) = some (e, rest)
  post : 12 ≤ e.level → ∀ n m rest, 8 * (toks e).length + m ≤ n + 4 →
    (∀ ts, rest ≠ .lparen :: ts) →
    ∃ n', m ≤ n' ∧ parsePostfix isType n (toks e ++ rest) = subscripts isType n' e rest

/-- A tree in a bracket of some kind is read up to the closing one. -/
theorem Parses.closed (h : Parses isType e) {n : Nat} {rest : List Tok}
    (hn : 8 * (toks e).length + 1 ≤ n) (hrest : Follows 0 rest) :
    parseExpr isType n 0 (toks e ++ rest) = some (e, rest) := by
  obtain ⟨n', hn', hparse⟩ := h.expr 0 n 1 rest (Nat.zero_le _) hn (hrest.mono (Nat.zero_le _))
  obtain ⟨k, rfl⟩ : ∃ k, n' = k + 1 := ⟨n' - 1, by omega⟩
  rw [hparse, climb_stop]
  intro o ts heq
  have hlevel := hrest.2 o ts heq
  have hpos : 1 ≤ o.level := by cases o <;> decide
  omega

/-- What a cast operand parses to as an expression. -/
theorem Parses.expr_of_cast
    (hcast : ∀ n rest, 8 * (toks e).length ≤ n + 2 → NoPostfix rest →
      parseCast isType n (toks e ++ rest) = some (e, rest)) (p n m : Nat) (rest : List Tok)
    (hn : 8 * (toks e).length + m ≤ n) (hrest : NoPostfix rest) :
    ∃ n', m ≤ n' ∧ parseExpr isType n p (toks e ++ rest) = climb isType n' p e rest := by
  have hlen := length_toks_pos e
  obtain ⟨k, rfl⟩ : ∃ k, n = k + 1 := ⟨n - 1, by omega⟩
  refine ⟨k, by omega, ?_⟩
  rw [parseExpr, hcast k rest (by omega) hrest]

/-- A postfix expression is a cast operand and an expression. -/
theorem Parses.of_post (he : e.WellFormed isType) (hexplicit : e.Explicit)
    (hlevel : 12 ≤ e.level)
    (hpost : ∀ n m rest, 8 * (toks e).length + m ≤ n + 4 → (∀ ts, rest ≠ .lparen :: ts) →
      ∃ n', m ≤ n' ∧ parsePostfix isType n (toks e ++ rest) = subscripts isType n' e rest) :
    Parses isType e := by
  have hcast : ∀ n rest, 8 * (toks e).length ≤ n + 2 → NoPostfix rest →
      parseCast isType n (toks e ++ rest) = some (e, rest) := by
    intro n rest hn hrest
    have hlen := length_toks_pos e
    obtain ⟨k, rfl⟩ : ∃ k, n = k + 1 := ⟨n - 1, by omega⟩
    obtain ⟨n', hn', hparse⟩ := hpost k 1 rest (by omega) fun ts => (hrest ts).2
    obtain ⟨j, rfl⟩ : ∃ j, n' = j + 1 := ⟨n' - 1, by omega⟩
    rw [parseCast_of_not_cast fun w ts heq => not_cast he hexplicit hlevel heq, hparse,
      subscripts_stop hrest]
  exact ⟨fun p n m rest _ hn hrest => expr_of_cast hcast p n m rest hn hrest.1, fun _ => hcast,
    fun _ => hpost⟩

/-- So is a primary expression. -/
theorem Parses.of_primary (he : e.WellFormed isType) (hexplicit : e.Explicit) (hlevel : 12 ≤ e.level)
    (hprim : ∀ k rest, 8 * (toks e).length ≤ k + 6 → (∀ ts, rest ≠ .lparen :: ts) →
      parsePrimary isType (k + 1) (toks e ++ rest) = some (e, rest)) : Parses isType e := by
  refine .of_post he hexplicit hlevel fun n m rest hn hrest => ?_
  have hlen := length_toks_pos e
  obtain ⟨k, rfl⟩ : ∃ k, n = k + 2 := ⟨n - 2, by omega⟩
  refine ⟨k + 1, by omega, ?_⟩
  rw [parsePostfix, hprim k rest (by omega) hrest]

theorem parses_raw (he : (Expr.raw t).WellFormed isType) :
    Parses isType (.raw t) := by
  refine .of_primary he trivial (Nat.le_refl _) fun k rest _ hrest => ?_
  rw [toks, List.singleton_append, primTok]
  split_ifs
  · rfl
  · -- a word that no parenthesis follows
    cases rest with
    | nil => rfl
    | cons u us =>
        cases u with
        | lparen => exact absurd rfl (hrest us)
        | _ => rfl

theorem parses_paren (he : (Expr.paren a).WellFormed isType) (hexplicit : (Expr.paren a).Explicit)
    (ih : Parses isType a) : Parses isType (.paren a) := by
  refine .of_primary he hexplicit (Nat.le_refl _) fun k rest hn _ => ?_
  simp only [toks, List.cons_append, List.length_cons, List.length_append, List.length_nil] at hn
  have hinner := ih.closed (n := k) (by omega) (follows_rparen 0 rest)
  simp only [toks, List.cons_append, List.append_assoc, List.nil_append]
  rw [parsePrimary, hinner]

theorem parses_subscript {b : Expr} (he : (Expr.subscript a b).WellFormed isType)
    (hexplicit : (Expr.subscript a b).Explicit) (iha : Parses isType a) (ihb : Parses isType b) :
    Parses isType (.subscript a b) := by
  refine .of_post he hexplicit (Nat.le_refl _) fun n m rest hn hrest => ?_
  simp only [toks, List.length_cons, List.length_append, List.length_nil] at hn
  obtain ⟨n₁, hn₁, hparse⟩ := iha.post hexplicit.1 n (8 * (toks b).length + 8 + m)
    (.lbrack :: (toks b ++ .rbrack :: rest)) (by omega) nofun
  obtain ⟨k, rfl⟩ : ∃ k, n₁ = k + 1 := ⟨n₁ - 1, by omega⟩
  have hindex := ihb.closed (n := k) (by omega) (follows_rbrack 0 rest)
  refine ⟨k, by omega, ?_⟩
  simp only [toks, List.cons_append, List.append_assoc, List.nil_append]
  rw [hparse, subscripts, hindex]

/-- The arguments of a call, at least one, up to the closing parenthesis. -/
theorem parseArgs_toks (hne : args ≠ []) (hargs : ∀ a ∈ args, Parses isType a) :
    ∀ {n : Nat} {rest : List Tok}, 8 * (toksArgs args).length + 2 ≤ n →
      parseArgs isType n (toksArgs args ++ .rparen :: rest) = some (args, rest) := by
  induction args with
  | nil => exact absurd rfl hne
  | cons a args ih =>
      intro n rest hn
      have ha := hargs a List.mem_cons_self
      obtain ⟨k, rfl⟩ : ∃ k, n = k + 1 := ⟨n - 1, by omega⟩
      cases args with
      | nil =>
          rw [toksArgs] at hn ⊢
          rw [parseArgs, ha.closed (by omega) (follows_rparen 0 rest)]
      | cons b args =>
          rw [toksArgs, List.length_append, List.length_cons] at hn
          have hrest : parseArgs isType k (toksArgs (b :: args) ++ .rparen :: rest) =
              some (b :: args, rest) :=
            ih (List.cons_ne_nil b args) (fun x hx => hargs x (List.mem_cons_of_mem _ hx)) (by omega)
          rw [toksArgs, List.append_assoc, List.cons_append, parseArgs,
            ha.closed (by omega) (follows_comma 0 _)]
          simp only [hrest]

theorem parses_call {f : Text} (he : (Expr.call f args).WellFormed isType)
    (hexplicit : (Expr.call f args).Explicit) (ih : ∀ a ∈ args, Parses isType a) :
    Parses isType (.call f args) := by
  refine .of_primary he hexplicit (Nat.le_refl _) fun k rest hn _ => ?_
  simp only [toks, List.cons_append, List.length_cons, List.length_append, List.length_nil] at hn
  simp only [toks, List.cons_append, List.append_assoc, List.nil_append]
  cases args with
  | nil => rfl
  | cons a args =>
      have hargs : parseArgs isType k (toksArgs (a :: args) ++ .rparen :: rest) =
          some (a :: args, rest) := parseArgs_toks (List.cons_ne_nil a args) ih (by omega)
      obtain ⟨t, ts, heq, hstarts⟩ := toksArgs_cons he.2.2
      rw [heq, List.cons_append] at hargs ⊢
      cases t with
      | rparen => exact hstarts.elim
      | _ => rw [parsePrimary, hargs]; nofun

theorem parses_cast {ty : CType} (he : (Expr.cast ty a).WellFormed isType)
    (hexplicit : (Expr.cast ty a).Explicit) (ih : Parses isType a) :
    Parses isType (.cast ty a) := by
  have hcast : ∀ n rest, 8 * (toks (.cast ty a)).length ≤ n + 2 → NoPostfix rest →
      parseCast isType n (toks (.cast ty a) ++ rest) = some (.cast ty a, rest) := by
    intro n rest hn hrest
    simp only [toks, CType.toks, List.cons_append, List.length_cons, List.length_append] at hn
    obtain ⟨k, rfl⟩ : ∃ k, n = k + 1 := ⟨n - 1, by omega⟩
    have hoperand := ih.cast hexplicit.1 k rest (by omega) hrest
    simp only [toks, CType.toks, List.cons_append, List.append_assoc]
    rw [parseCast, if_pos he.1.2.1, typeRest_toks]
    simp only [hoperand]
  refine ⟨fun p n m rest _ hn hrest => Parses.expr_of_cast hcast p n m rest hn hrest.1,
    fun _ => hcast, fun hlevel => absurd hlevel (by simp [Expr.level])⟩

theorem parses_binop {op : BinOp} {b : Expr} (hexplicit : (Expr.binop op a b).Explicit)
    (iha : Parses isType a) (ihb : Parses isType b) : Parses isType (.binop op a b) := by
  have hop : op.level ≤ 10 := by cases op <;> decide
  refine ⟨fun p n m rest hp hn hrest => ?_, fun hlevel => ?_, fun hlevel => ?_⟩
  · obtain ⟨hla, hlb, -, -⟩ := hexplicit
    have hp : p ≤ op.level := hp
    have hrest : Follows op.level rest := hrest
    simp only [toks, List.length_append, List.length_cons] at hn
    -- the left operand, up to the operator
    obtain ⟨n₁, hn₁, hleft⟩ := iha.expr p n (8 + 8 * (toks b).length + m)
      (.op op :: (toks b ++ rest)) (Nat.le_trans hp hla) (by omega)
      ⟨fun _ => ⟨nofun, nofun⟩, fun o ts heq => by cases heq; exact hla⟩
    obtain ⟨k, rfl⟩ : ∃ k, n₁ = k + 1 := ⟨n₁ - 1, by omega⟩
    -- the right one, where no operator of its level may follow
    obtain ⟨n₂, hn₂, hright⟩ := ihb.expr (op.level + 1) k 1 rest hlb (by omega)
      (hrest.mono (Nat.le_of_lt hlb))
    obtain ⟨j, rfl⟩ : ∃ j, n₂ = j + 1 := ⟨n₂ - 1, by omega⟩
    rw [climb_stop fun o ts heq => Nat.lt_succ_of_le (hrest.2 o ts heq)] at hright
    refine ⟨k, by omega, ?_⟩
    simp only [toks, List.append_assoc, List.cons_append]
    rw [hleft, climb, if_pos hp, hright]
  · exact absurd hlevel (by simp only [Expr.level]; omega)
  · exact absurd hlevel (by simp only [Expr.level]; omega)

/-- The parser gets every tree back whose operands stand where their level allows. -/
theorem parses (he : e.WellFormed isType) (hexplicit : e.Explicit) :
    Parses isType e := by
  induction e using Expr.induct with
  | raw t => exact parses_raw he
  | paren a ih => exact parses_paren he hexplicit (ih he hexplicit)
  | cast ty a ih => exact parses_cast he hexplicit (ih he.2 hexplicit.2)
  | binop op a b iha ihb =>
      exact parses_binop hexplicit (iha he.1 hexplicit.2.2.1) (ihb he.2 hexplicit.2.2.2)
  | call f args ih =>
      exact parses_call he hexplicit fun a ha =>
        ih a ha (wellFormedArgs_iff.mp he.2.2 a ha) (explicitArgs_iff.mp hexplicit a ha)
  | subscript a b iha ihb =>
      exact parses_subscript he hexplicit (iha he.1 hexplicit.2.1) (ihb he.2 hexplicit.2.2)

/-- **The text of a tree parses to the tree**, when its operands stand where their level allows. -/
theorem parse_flat (he : e.WellFormed isType) (hexplicit : e.Explicit) :
    parse isType (flat e) = some e := by
  have hlex : lex (flat e) = some (toks e) := by
    have h := lexes_flat he [] [] ends_nil .nil
    rw [List.append_nil, List.append_nil] at h
    exact h.lex
  have hparse := (parses he hexplicit).closed (n := 8 * (toks e).length + 8) (by omega)
    (follows_nil 0)
  rw [List.append_nil] at hparse
  rw [parse, hlex]
  simp only [hparse]

end CSyntax
