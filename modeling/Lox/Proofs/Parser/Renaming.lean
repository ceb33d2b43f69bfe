import Lox.Parser.Statement
import Lox.Proofs.Tree.Renaming

/-!
# Parsing renamed tokens

A parser never looks at the line of a token or at the identity of a node. So from tokens on other
lines and with the identities counted from elsewhere it gives the renamed tree and the same reports
about the other lines: `program_renamed`, by one lemma for each parser (`Commutes`).
-/

namespace Lox

/-- Identities counted from elsewhere, and other lines. -/
def Renaming.shift (δ : Nat) (g : Nat → Nat) : Renaming NodeId NodeId := ⟨(δ + ·), g⟩

section
variable (δ : Nat) (g : Nat → Nat)

def ParseState.shift (s : ParseState) : ParseState :=
  ⟨s.rest.map (·.moved g), δ + s.nextId, s.reports.map (·.moved g)⟩

def Parsed.shift (h : α → β) : Parsed α → Parsed β
  | .ok a s => .ok (h a) (s.shift δ g)
  | .fault t cause s => .fault (t.moved g) cause (s.shift δ g)
  | .outOfFuel => .outOfFuel

end

namespace Parser

/-- On renamed tokens the second parser does what the first one does. -/
def Commutes (δ : Nat) (g : Nat → Nat) (h : α → β) (x : Parser α) (y : Parser β) : Prop :=
  ∀ eof s, y (eof.moved g) (s.shift δ g) = (x eof s).shift δ g h

namespace Commutes

variable {δ : Nat} {g : Nat → Nat} {h : α → β} {h' : γ → ε}

theorem pure (a : α) : Commutes δ g h (Pure.pure a) (Pure.pure (h a)) := fun _ _ => rfl

theorem bind {x : Parser α} {y : Parser β} {f : α → Parser γ} {k : β → Parser ε}
    (hx : Commutes δ g h x y) (hf : ∀ a, Commutes δ g h' (f a) (k (h a))) :
    Commutes δ g h' (x >>= f) (y >>= k) := by
  intro eof s
  show Parser.bind y k _ _ = (Parser.bind x f _ _).shift δ g h'
  simp only [Parser.bind, hx eof s]
  cases x eof s with
  | ok a s' => exact hf a eof s'
  | fault t cause s' => rfl
  | outOfFuel => rfl

theorem ite {c : Prop} [Decidable c] {x x' : Parser α} {y y' : Parser β} (hx : Commutes δ g h x y)
    (hx' : Commutes δ g h x' y') : Commutes δ g h (if c then x else x') (if c then y else y') := by
  split
  · exact hx
  · exact hx'

theorem outOfFuel : Commutes δ g h Parser.outOfFuel Parser.outOfFuel := fun _ _ => rfl

theorem fail (t : Token) (cause : SyntaxFault) :
    Commutes δ g h (Parser.fail t cause) (Parser.fail (t.moved g) cause) := fun _ _ => rfl

theorem note (t : Token) (cause : SyntaxFault) :
    Commutes δ g id (Parser.note t cause) (Parser.note (t.moved g) cause) := by
  intro eof s
  simp [Parser.note, Parsed.shift, ParseState.shift, SyntaxFault.report, Report.moved]

theorem freshId : Commutes δ g (δ + ·) Parser.freshId Parser.freshId := fun _ _ => rfl

theorem peek : Commutes δ g (·.moved g) Parser.peek Parser.peek := by
  intro eof s
  cases hs : s.rest <;> simp [Parser.peek, Parsed.shift, ParseState.shift, hs]

theorem atEnd : Commutes δ g id Parser.atEnd Parser.atEnd := by
  intro eof s
  simp [Parser.atEnd, Parsed.shift, ParseState.shift]

theorem advance : Commutes δ g id Parser.advance Parser.advance := by
  intro eof s
  simp [Parser.advance, Parsed.shift, ParseState.shift]

theorem check (k : Symbol) : Commutes δ g id (Parser.check k) (Parser.check k) := by
  intro eof s
  cases hs : s.rest <;> simp [Parser.check, Parsed.shift, ParseState.shift, hs]

theorem takeAny (ks : List Symbol) :
    Commutes δ g (Option.map (·.moved g)) (Parser.takeAny? ks) (Parser.takeAny? ks) := by
  intro eof s
  obtain ⟨rest, i, reports⟩ := s
  cases rest with
  | nil => rfl
  | cons t rest =>
    have ht : ks.any (t.moved g).is = ks.any t.is := rfl
    simp only [Parser.takeAny?, ParseState.shift, List.map_cons, ht]
    split <;> rfl

theorem take (k : Symbol) :
    Commutes δ g (Option.map (·.moved g)) (Parser.take? k) (Parser.take? k) := takeAny [k]

theorem consume (k : Symbol) (cause : SyntaxFault) :
    Commutes δ g (·.moved g) (Parser.consume k cause) (Parser.consume k cause) := by
  intro eof s
  obtain ⟨rest, i, reports⟩ := s
  cases rest with
  | nil => rfl
  | cons t rest =>
    simp only [Parser.consume, ParseState.shift, List.map_cons, Token.moved_is]
    split <;> rfl

theorem recover {x : Parser α} {y : Parser β} {repair : List Token → List Token}
    (hrepair : ∀ ts, repair (ts.map (·.moved g)) = (repair ts).map (·.moved g))
    (hx : Commutes δ g h x y) :
    Commutes δ g (Option.map h) (Parser.recover x repair) (Parser.recover y repair) := by
  intro eof s
  simp only [Parser.recover, hx eof s]
  cases x eof s with
  | ok a s' => rfl
  | fault t cause s' =>
    simp [Parsed.shift, ParseState.shift, hrepair, SyntaxFault.report, Report.moved]
  | outOfFuel => rfl

end Commutes

/-! ## Expressions -/

section
variable {δ : Nat} {g : Nat → Nat} {n : Nat}

theorem joinAt_renamed (level : Nat) (l r : Expr NodeId) (op : Token) :
    joinAt level (l.rename (.shift δ g)) (op.moved g) (r.rename (.shift δ g)) =
      (joinAt level l op r).rename (.shift δ g) := by
  unfold joinAt
  split <;> rfl

theorem assignTo_renamed (target value : Expr NodeId) (equals : Token) :
    Commutes δ g (Expr.rename (.shift δ g)) (assignTo target equals value)
      (assignTo (target.rename (.shift δ g)) (equals.moved g) (value.rename (.shift δ g))) := by
  cases target with
  | «variable» k x => exact .bind .freshId fun i => .pure _
  | get o x => exact .pure _
  | _ => exact .bind (.note equals _) fun _ => .pure _

/-- The parsers of expressions with some fuel. -/
structure RenamedExprs (δ : Nat) (g : Nat → Nat) (n : Nat) : Prop where
  expression : Commutes δ g (Expr.rename (.shift δ g)) (Parser.expression n) (Parser.expression n)
  binary : ∀ level, Commutes δ g (Expr.rename (.shift δ g)) (Parser.binary n level) (Parser.binary n level)
  binaryRest : ∀ level left, Commutes δ g (Expr.rename (.shift δ g)) (Parser.binaryRest n level left)
    (Parser.binaryRest n level (left.rename (.shift δ g)))
  unary : Commutes δ g (Expr.rename (.shift δ g)) (Parser.unary n) (Parser.unary n)
  callRest : ∀ callee, Commutes δ g (Expr.rename (.shift δ g)) (Parser.callRest n callee)
    (Parser.callRest n (callee.rename (.shift δ g)))
  arguments : ∀ count,
    Commutes δ g (Expr.renameAll (.shift δ g)) (Parser.arguments n count) (Parser.arguments n count)
  primary : Commutes δ g (Expr.rename (.shift δ g)) (Parser.primary n) (Parser.primary n)

theorem expression_renamed (ih : RenamedExprs δ g n) :
    Commutes δ g (Expr.rename (.shift δ g)) (expression (n + 1)) (expression (n + 1)) := by
  rw [expression]
  refine .bind (ih.binary 0) fun target => .bind (.take .equal) fun equals => ?_
  cases equals with
  | none => exact .pure _
  | some t => exact .bind ih.expression fun value => assignTo_renamed target value t

theorem binary_renamed (ih : RenamedExprs δ g n) (level : Nat) :
    Commutes δ g (Expr.rename (.shift δ g)) (binary (n + 1) level) (binary (n + 1) level) := by
  rw [binary]
  exact .ite (.bind (ih.binary _) fun left => ih.binaryRest level left) ih.unary

theorem binaryRest_renamed (ih : RenamedExprs δ g n) (level : Nat) (left : Expr NodeId) :
    Commutes δ g (Expr.rename (.shift δ g)) (binaryRest (n + 1) level left)
      (binaryRest (n + 1) level (left.rename (.shift δ g))) := by
  rw [binaryRest, binaryRest]
  refine .bind (.takeAny _) fun op => ?_
  cases op with
  | none => exact .pure _
  | some op =>
    refine .bind (ih.binary _) fun right => ?_
    rw [joinAt_renamed]
    exact ih.binaryRest level _

theorem unary_renamed (ih : RenamedExprs δ g n) :
    Commutes δ g (Expr.rename (.shift δ g)) (unary (n + 1)) (unary (n + 1)) := by
  rw [unary]
  refine .bind (.takeAny _) fun op => ?_
  cases op with
  | none => exact .bind ih.primary fun callee => ih.callRest callee
  | some op => exact .bind ih.unary fun e => .pure _

theorem callRest_renamed (ih : RenamedExprs δ g n) (callee : Expr NodeId) :
    Commutes δ g (Expr.rename (.shift δ g)) (callRest (n + 1) callee)
      (callRest (n + 1) (callee.rename (.shift δ g))) := by
  rw [callRest, callRest]
  refine .bind (.takeAny _) fun found => ?_
  cases found with
  | none => exact .pure _
  | some t =>
    have hcall : ∀ args, Commutes δ g (Expr.rename (.shift δ g)) (do
        let paren ← consume .rightParen .argumentsEnd
        callRest n (.call callee paren args)) (do
        let paren ← consume .rightParen .argumentsEnd
        callRest n (.call (callee.rename (.shift δ g)) paren (Expr.renameAll (.shift δ g) args))) :=
      fun args => .bind (.consume _ _) fun paren => ih.callRest (.call callee paren args)
    refine .ite (.bind (.check _) fun closed => ?_) ?_
    · exact .ite (.bind (.pure []) hcall) (.bind (ih.arguments 0) hcall)
    · exact .bind (.consume _ _) fun x => ih.callRest (.get callee x)

theorem arguments_renamed (ih : RenamedExprs δ g n) (count : Nat) :
    Commutes δ g (Expr.renameAll (.shift δ g)) (arguments (n + 1) count) (arguments (n + 1) count) := by
  rw [arguments]
  refine .ite (.bind .peek fun t => .bind (.note t _) fun _ => ?_) ?_
  all_goals
    refine .bind ih.expression fun first => .bind (.take _) fun comma => ?_
    cases comma with
    | none => exact .pure _
    | some t => exact .bind (ih.arguments _) fun rest => .pure _

theorem primary_renamed (ih : RenamedExprs δ g n) :
    Commutes δ g (Expr.rename (.shift δ g)) (primary (n + 1)) (primary (n + 1)) := by
  rw [primary]
  refine .bind .peek fun t => ?_
  rw [Token.moved_kind]
  split
  case h_6 =>
    refine .bind .advance fun _ => .bind (.consume _ _) fun _ => .bind (.consume _ _) fun x => ?_
    exact .bind .freshId fun k => .pure _
  case h_7 => exact .bind .advance fun _ => .bind .freshId fun k => .pure _
  case h_8 => exact .bind .advance fun _ => .bind .freshId fun k => .pure _
  case h_9 =>
    refine .bind .advance fun _ => .bind ih.expression fun inner => ?_
    exact .bind (.consume _ _) fun _ => .pure _
  case h_10 => exact .fail t _
  all_goals exact .bind .advance fun _ => .pure _

end

theorem renamedExprs (δ : Nat) (g : Nat → Nat) (n : Nat) : RenamedExprs δ g n := by
  induction n with
  | zero =>
    constructor <;> intros
    · rw [Parser.expression]; exact .outOfFuel
    · rw [Parser.binary]; exact .outOfFuel
    · rw [Parser.binaryRest, Parser.binaryRest]; exact .outOfFuel
    · rw [Parser.unary]; exact .outOfFuel
    · rw [Parser.callRest, Parser.callRest]; exact .outOfFuel
    · rw [Parser.arguments]; exact .outOfFuel
    · rw [Parser.primary]; exact .outOfFuel
  | succ n ih =>
    exact ⟨expression_renamed ih, binary_renamed ih, binaryRest_renamed ih, unary_renamed ih,
      callRest_renamed ih, arguments_renamed ih, primary_renamed ih⟩

/-! ## Statements -/

theorem dropBroken_moved (g : Nat → Nat) (ts : List Token) :
    dropBroken (ts.map (·.moved g)) = (dropBroken ts).map (·.moved g) := by
  induction ts with
  | nil => rfl
  | cons t rest ih =>
    cases rest with
    | nil => rfl
    | cons next rest =>
      have hnext : startsStatement (next.moved g) = startsStatement next := rfl
      simp only [List.map_cons, dropBroken, Token.moved_is, hnext] at ih ⊢
      split
      · rfl
      · exact ih

theorem forLoop_renamed (ρ : Renaming NodeId NodeId) (i : Option (Stmt NodeId))
    (c u : Option (Expr NodeId)) (body : Stmt NodeId) :
    Stmt.forLoop (Stmt.renameOpt ρ i) (Expr.renameOpt ρ c) (Expr.renameOpt ρ u) (body.rename ρ) =
      (Stmt.forLoop i c u body).rename ρ := by
  cases i <;> cases c <;> cases u <;> rfl

section
variable (δ : Nat) (g : Nat → Nat) (n : Nat)

theorem parameters_renamed (n count : Nat) :
    Commutes δ g (List.map (·.moved g)) (parameters n count) (parameters n count) := by
  induction n generalizing count with
  | zero => exact .outOfFuel
  | succ n ih =>
    refine .ite (.bind .peek fun t => .bind (.note t _) fun _ => ?_) ?_
    all_goals
      refine .bind (.consume _ _) fun first => .bind (.take _) fun comma => ?_
      cases comma with
      | none => exact .pure _
      | some t => exact .bind (ih _) fun rest => .pure _

theorem varDeclaration_renamed :
    Commutes δ g (Stmt.rename (.shift δ g)) (varDeclaration n) (varDeclaration n) := by
  refine .bind (.consume _ _) fun x => .bind (.take _) fun equals => ?_
  have hend : ∀ e, Commutes δ g (Stmt.rename (.shift δ g)) (do
      let _ ← consume .semicolon .variableEnd
      return Stmt.varDecl x e) (do
      let _ ← consume .semicolon .variableEnd
      return Stmt.varDecl (x.moved g) (Expr.renameOpt (.shift δ g) e)) :=
    fun e => .bind (.consume _ _) fun _ => .pure _
  cases equals with
  | none => exact .bind (.pure none) hend
  | some t =>
    refine .bind (renamedExprs δ g n).expression fun e => ?_
    exact .bind (.pure (some e)) hend

theorem expressionStatement_renamed :
    Commutes δ g (Stmt.rename (.shift δ g)) (expressionStatement n) (expressionStatement n) :=
  .bind (renamedExprs δ g n).expression fun _ => .bind (.consume _ _) fun _ => .pure _

theorem expressionUnless_renamed (k : Symbol) :
    Commutes δ g (Expr.renameOpt (.shift δ g)) (expressionUnless n k) (expressionUnless n k) :=
  .bind (.check k) fun _ => .ite (.pure none) (.bind (renamedExprs δ g n).expression fun _ => .pure _)

theorem condition_renamed (opening closing : SyntaxFault) :
    Commutes δ g (Expr.rename (.shift δ g)) (condition n opening closing) (condition n opening closing) :=
  .bind (.consume _ _) fun _ => .bind (renamedExprs δ g n).expression fun _ =>
    .bind (.consume _ _) fun _ => .pure _

/-- The clauses of a `for` loop under a renaming. -/
def renameClauses (ρ : Renaming NodeId NodeId) :
    Option (Stmt NodeId) × Option (Expr NodeId) × Option (Expr NodeId) →
      Option (Stmt NodeId) × Option (Expr NodeId) × Option (Expr NodeId)
  | (i, c, u) => (Stmt.renameOpt ρ i, Expr.renameOpt ρ c, Expr.renameOpt ρ u)

theorem forClauses_renamed :
    Commutes δ g (renameClauses (.shift δ g)) (forClauses n) (forClauses n) := by
  have hrest : ∀ i, Commutes δ g (renameClauses (.shift δ g)) (do
      let condition ← expressionUnless n .semicolon
      let _ ← consume .semicolon .loopCondition
      let increment ← expressionUnless n .rightParen
      let _ ← consume .rightParen .forClausesEnd
      return (i, condition, increment)) (do
      let condition ← expressionUnless n .semicolon
      let _ ← consume .semicolon .loopCondition
      let increment ← expressionUnless n .rightParen
      let _ ← consume .rightParen .forClausesEnd
      return (Stmt.renameOpt (.shift δ g) i, condition, increment)) := by
    intro i
    refine .bind (expressionUnless_renamed δ g n _) fun c => .bind (.consume _ _) fun _ => ?_
    exact .bind (expressionUnless_renamed δ g n _) fun u => .bind (.consume _ _) fun _ => .pure (_, _, _)
  refine .bind (.consume _ _) fun _ => .bind (.takeAny _) fun found => ?_
  cases found with
  | none =>
    exact .bind (expressionStatement_renamed δ g n) fun s => .bind (.pure (some s)) hrest
  | some t =>
    refine .ite (.bind (.pure none) hrest) ?_
    exact .bind (varDeclaration_renamed δ g n) fun s => .bind (.pure (some s)) hrest

/-- The parsers of statements with some fuel. -/
structure RenamedStmts : Prop where
  declarations : ∀ inBlock, Commutes δ g (Stmt.renameAll (.shift δ g)) (Parser.declarations n inBlock)
    (Parser.declarations n inBlock)
  declaration : Commutes δ g (Stmt.rename (.shift δ g)) (Parser.declaration n) (Parser.declaration n)
  classDeclaration :
    Commutes δ g (Stmt.rename (.shift δ g)) (Parser.classDeclaration n) (Parser.classDeclaration n)
  methods : Commutes δ g (Stmt.renameMethods (.shift δ g)) (Parser.methods n) (Parser.methods n)
  function : ∀ role,
    Commutes δ g (Stmt.renameFun (.shift δ g)) (Parser.function n role) (Parser.function n role)
  block : Commutes δ g (Stmt.renameAll (.shift δ g)) (Parser.block n) (Parser.block n)
  statement : Commutes δ g (Stmt.rename (.shift δ g)) (Parser.statement n) (Parser.statement n)

end

section
variable {δ : Nat} {g : Nat → Nat} {n : Nat}

theorem declarations_renamed (ih : RenamedStmts δ g n) (inBlock : Bool) :
    Commutes δ g (Stmt.renameAll (.shift δ g)) (declarations (n + 1) inBlock)
      (declarations (n + 1) inBlock) := by
  have hfirst : Commutes δ g (Stmt.renameAll (.shift δ g)) (do
      let first ← recover (declaration n) dropBroken
      let rest ← declarations n inBlock
      return first.toList ++ rest) (do
      let first ← recover (declaration n) dropBroken
      let rest ← declarations n inBlock
      return first.toList ++ rest) := by
    refine .bind (.recover (dropBroken_moved g) ih.declaration) fun first => ?_
    refine .bind (ih.declarations inBlock) fun rest => ?_
    have hall : (first.map (Stmt.rename (.shift δ g))).toList ++ Stmt.renameAll (.shift δ g) rest =
        Stmt.renameAll (.shift δ g) (first.toList ++ rest) := by
      cases first <;> rfl
    rw [hall]
    exact .pure _
  rw [declarations]
  exact .bind .atEnd fun _ => .bind (.check _) fun _ => .ite (.pure []) hfirst

theorem declaration_renamed (ih : RenamedStmts δ g n) :
    Commutes δ g (Stmt.rename (.shift δ g)) (declaration (n + 1)) (declaration (n + 1)) := by
  rw [declaration]
  refine .bind (.takeAny _) fun found => ?_
  cases found with
  | none => exact ih.statement
  | some t =>
    refine .ite ih.classDeclaration (.ite ?_ (varDeclaration_renamed δ g n))
    exact .bind (ih.function _) fun f => .pure _

theorem classDeclaration_renamed (ih : RenamedStmts δ g n) :
    Commutes δ g (Stmt.rename (.shift δ g)) (classDeclaration (n + 1)) (classDeclaration (n + 1)) := by
  rw [classDeclaration]
  refine .bind (.consume _ _) fun x => .bind (.take _) fun less => ?_
  have hbody : ∀ parent, Commutes δ g (Stmt.rename (.shift δ g)) (do
      let _ ← consume .leftBrace .classBody
      let methods ← methods n
      let _ ← consume .rightBrace .classEnd
      return Stmt.classDecl x parent methods) (do
      let _ ← consume .leftBrace .classBody
      let methods ← methods n
      let _ ← consume .rightBrace .classEnd
      return Stmt.classDecl (x.moved g) (Expr.renameOpt (.shift δ g) parent) methods) := by
    intro parent
    exact .bind (.consume _ _) fun _ => .bind ih.methods fun ms => .bind (.consume _ _) fun _ => .pure _
  cases less with
  | none => exact .bind (.pure none) hbody
  | some t =>
    refine .bind (.consume _ _) fun parent => .bind .freshId fun k => ?_
    exact .bind (.pure (some (Expr.variable k parent))) hbody

theorem methods_renamed (ih : RenamedStmts δ g n) :
    Commutes δ g (Stmt.renameMethods (.shift δ g)) (methods (n + 1)) (methods (n + 1)) := by
  rw [methods]
  refine .bind (.check _) fun _ => .bind .atEnd fun _ => .ite (.pure []) ?_
  exact .bind (ih.function _) fun m => .bind ih.methods fun ms => .pure _

theorem function_renamed (ih : RenamedStmts δ g n) (role : Role) :
    Commutes δ g (Stmt.renameFun (.shift δ g)) (function (n + 1) role) (function (n + 1) role) := by
  rw [function]
  refine .bind (.consume _ _) fun x => .bind (.consume _ _) fun _ => .bind (.check _) fun _ => ?_
  have hbody : ∀ params, Commutes δ g (Stmt.renameFun (.shift δ g)) (do
      let _ ← consume .rightParen .parameterEnd
      let _ ← consume .leftBrace (.functionBody role)
      let body ← block n
      return FunDecl.mk x params body) (do
      let _ ← consume .rightParen .parameterEnd
      let _ ← consume .leftBrace (.functionBody role)
      let body ← block n
      return FunDecl.mk (x.moved g) (params.map (·.moved g)) body) := by
    intro params
    refine .bind (.consume _ _) fun _ => .bind (.consume _ _) fun _ => .bind ih.block fun body => ?_
    exact .pure (FunDecl.mk x params body)
  exact .ite (.bind (.pure []) hbody) (.bind (parameters_renamed δ g n 0) hbody)

theorem block_renamed (ih : RenamedStmts δ g n) :
    Commutes δ g (Stmt.renameAll (.shift δ g)) (block (n + 1)) (block (n + 1)) := by
  rw [block]
  exact .bind (ih.declarations true) fun body => .bind (.consume _ _) fun _ => .pure _

theorem statement_renamed (ih : RenamedStmts δ g n) :
    Commutes δ g (Stmt.rename (.shift δ g)) (statement (n + 1)) (statement (n + 1)) := by
  have hexpr := (renamedExprs δ g n).expression
  rw [statement]
  refine .bind (.takeAny _) fun found => ?_
  cases found with
  | none => exact expressionStatement_renamed δ g n
  | some t =>
    refine .ite ?_ (.ite ?_ (.ite ?_ (.ite ?_ (.ite ?_ ?_))))
    · refine .bind (forClauses_renamed δ g n) fun clauses => .bind ih.statement fun body => ?_
      obtain ⟨i, c, u⟩ := clauses
      simp only [forLoop_renamed]
      exact .pure _
    · refine .bind (condition_renamed δ g n _ _) fun test => .bind ih.statement fun s => ?_
      refine .bind (.take _) fun found => ?_
      cases found with
      | none => exact .bind (h := Stmt.renameOpt (.shift δ g)) (.pure none) fun _ => .pure _
      | some t =>
        refine .bind ih.statement fun s' => ?_
        exact .bind (h := Stmt.renameOpt (.shift δ g)) (.pure (some s')) fun _ => .pure _
    · exact .bind hexpr fun e => .bind (.consume _ _) fun _ => .pure _
    · exact .bind (expressionUnless_renamed δ g n _) fun e => .bind (.consume _ _) fun _ => .pure _
    · exact .bind (condition_renamed δ g n _ _) fun test => .bind ih.statement fun body => .pure _
    · exact .bind ih.block fun body => .pure _

end

theorem renamedStmts (δ : Nat) (g : Nat → Nat) (n : Nat) : RenamedStmts δ g n := by
  induction n with
  | zero =>
    constructor <;> intros
    · rw [Parser.declarations]; exact .outOfFuel
    · rw [Parser.declaration]; exact .outOfFuel
    · rw [Parser.classDeclaration]; exact .outOfFuel
    · rw [Parser.methods]; exact .outOfFuel
    · rw [Parser.function]; exact .outOfFuel
    · rw [Parser.block]; exact .outOfFuel
    · rw [Parser.statement]; exact .outOfFuel
  | succ n ih =>
    exact ⟨declarations_renamed ih, declaration_renamed ih, classDeclaration_renamed ih,
      methods_renamed ih, function_renamed ih, block_renamed ih, statement_renamed ih⟩

/-! ## Programs -/

theorem splitEnd_moved (g : Nat → Nat) {tokens : List Token} (h : tokens ≠ []) :
    splitEnd (tokens.map (·.moved g)) =
      ((splitEnd tokens).1.map (·.moved g), (splitEnd tokens).2.moved g) := by
  have hlast : (tokens.map (·.moved g)).getLast?.elim 1 Token.line =
      g (tokens.getLast?.elim 1 Token.line) := by
    rw [List.getLast?_map, List.getLast?_eq_some_getLast h]
    rfl
  have hfind : (tokens.map (·.moved g)).find? (·.is .eof) = (tokens.find? (·.is .eof)).map (·.moved g) :=
    List.find?_map
  simp only [splitEnd, hlast, hfind]
  refine Prod.ext List.takeWhile_map ?_
  cases tokens.find? (·.is .eof) <;> rfl

/-- From tokens on other lines and with identities counted from elsewhere, the renamed tree and the
same reports about the other lines. -/
theorem program_renamed (δ : Nat) (g : Nat → Nat) (i : NodeId) {tokens : List Token} (h : tokens ≠ []) :
    program (δ + i) (tokens.map (·.moved g)) =
      ⟨Stmt.renameAll (.shift δ g) (program i tokens).tree,
        (program i tokens).reports.map (·.moved g), δ + (program i tokens).nextId⟩ := by
  have hrun := (renamedStmts δ g (fuelFor tokens)).declarations false (splitEnd tokens).2
    ⟨(splitEnd tokens).1, i, []⟩
  have hfuel : fuelFor (tokens.map (·.moved g)) = fuelFor tokens := by simp [fuelFor]
  simp only [program, splitEnd_moved g h, hfuel]
  simp only [ParseState.shift, List.map_nil] at hrun
  rw [hrun]
  cases declarations (fuelFor tokens) false (splitEnd tokens).2 ⟨(splitEnd tokens).1, i, []⟩ with
  | ok body s => rfl
  | fault t cause s => simp [Parsed.shift, ParseState.shift, Stmt.renameAll, SyntaxFault.report, Report.moved]
  | outOfFuel => rfl

end Parser

end Lox
