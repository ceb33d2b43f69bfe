import Lox.Proofs.Parser.Exact
import Lox.Proofs.Tree.Marks

/-!
# The identities that a parse gives out

An identity is drawn from a counter and put into one node at most; some are dropped, with the target of
an assignment, with the value of an assignment that has no target, or with a broken statement. So the
marks of what a parser returns are fresh, faults or no faults: `program_fresh` and `single_fresh`. A
parser is given the marks of the trees that were read before it and may put into its own (`Draws`).
-/

namespace Lox

theorem Fresh.sublist {lo hi : NodeId} {ks ls : List NodeId} (h : Fresh lo hi ls) (hs : ks.Sublist ls) :
    Fresh lo hi ks :=
  ⟨h.le, hs.nodup h.nodup, fun k hk => h.range k (hs.subset hk)⟩

namespace Parser

/-- From fresh marks in hand the parser comes to fresh marks of what it returns; at a fault it has not
gone back. -/
def Draws (held : List NodeId) (marks : α → List NodeId) (x : Parser α) : Prop :=
  ∀ eof s lo, Fresh lo s.nextId held →
    Ends (x eof s) (fun a s' => Fresh lo s'.nextId (marks a)) (fun s' => lo ≤ s'.nextId) True

namespace Draws

variable {held : List NodeId} {μ : α → List NodeId} {μ' : β → List NodeId} {x y : Parser α}
  {f : α → Parser β}

theorem pure {a : α} (h : (μ a).Sublist held) : Draws held μ (Pure.pure a) := by
  intro eof s lo hs
  exact hs.sublist h

theorem bind (hx : Draws held μ x) (hf : ∀ a, Draws (μ a) μ' (f a)) : Draws held μ' (x >>= f) := by
  intro eof s lo hs
  exact (hx eof s lo hs).bind (fun a s' h => hf a eof s' lo h) (fun _ h => h) id

theorem ite {c : Prop} [Decidable c] (hx : Draws held μ x) (hy : Draws held μ y) :
    Draws held μ (if c then x else y) := by
  split
  · exact hx
  · exact hy

theorem perm {held' : List NodeId} (hx : Draws held' μ x) (hp : held.Perm held') : Draws held μ x :=
  fun eof s lo hs => hx eof s lo (hs.perm hp)

/-- What is in hand stays apart from what a parser draws by itself. -/
theorem frame (hx : Draws [] μ x) : Draws held (fun a => held ++ μ a) x := by
  intro eof s lo hs
  refine (hx eof s s.nextId (.nil (Nat.le_refl _))).mono ?_ ?_ id
  · intro a s' h
    exact hs.append h
  · intro s' h
    exact Nat.le_trans hs.le h

theorem outOfFuel : Draws held μ Parser.outOfFuel := fun _ _ _ _ => trivial

theorem fail (t : Token) (cause : SyntaxFault) : Draws held μ (Parser.fail t cause) :=
  fun _ _ _ hs => hs.le

theorem freshId : Draws [] ([·]) Parser.freshId := by
  intro eof s lo hs
  exact (Fresh.nil hs.le).append (.one s.nextId)

theorem note (t : Token) (cause : SyntaxFault) : Draws held (fun _ => held) (Parser.note t cause) :=
  fun _ _ _ hs => hs

theorem peek : Draws held (fun _ => held) Parser.peek := fun _ _ _ hs => hs

theorem atEnd : Draws held (fun _ => held) Parser.atEnd := fun _ _ _ hs => hs

theorem advance : Draws held (fun _ => held) Parser.advance := fun _ _ _ hs => hs

theorem check (k : Symbol) : Draws held (fun _ => held) (Parser.check k) := fun _ _ _ hs => hs

theorem takeAny (ks : List Symbol) : Draws held (fun _ => held) (Parser.takeAny? ks) := by
  intro eof s lo hs
  unfold takeAny?
  split
  · exact hs
  · split
    · exact hs
    · exact hs

theorem take (k : Symbol) : Draws held (fun _ => held) (Parser.take? k) := takeAny [k]

theorem consume (k : Symbol) (cause : SyntaxFault) :
    Draws held (fun _ => held) (Parser.consume k cause) := by
  intro eof s lo hs
  unfold Parser.consume
  split
  · exact hs.le
  · split
    · exact hs
    · exact hs.le

/-- What was drawn before a fault is dropped. -/
theorem recover {repair : List Token → List Token} (hx : Draws [] μ x) :
    Draws [] (fun a => a.elim [] μ) (Parser.recover x repair) := by
  intro eof s lo hs
  have h := hx eof s lo hs
  unfold Parser.recover
  cases hr : x eof s with
  | ok a s' =>
    rw [hr] at h
    exact h
  | fault t cause s' =>
    rw [hr] at h
    exact .nil h
  | outOfFuel => trivial

end Draws

/-! ## Expressions -/

/-- The target of an assignment is read as an expression first: the identity of a variable is dropped
with it, and so is a value that has no target. -/
theorem assignTo_draws (target value : Expr NodeId) (equals : Token) :
    Draws (target.marks ++ value.marks) Expr.marks (assignTo target equals value) := by
  cases target with
  | «variable» k x => exact .bind (.frame .freshId) fun i => .pure (by simp [Expr.marks])
  | get o x => exact .pure (by simp [Expr.marks])
  | _ => exact .bind (.note equals _) fun _ => .pure (List.sublist_append_left _ _)

/-- The parsers of expressions with some fuel. -/
structure DrawingExprs (n : Nat) : Prop where
  expression : Draws [] Expr.marks (Parser.expression n)
  binary : ∀ level, Draws [] Expr.marks (Parser.binary n level)
  binaryRest : ∀ level left, Draws left.marks Expr.marks (Parser.binaryRest n level left)
  unary : Draws [] Expr.marks (Parser.unary n)
  callRest : ∀ callee, Draws callee.marks Expr.marks (Parser.callRest n callee)
  arguments : ∀ count, Draws [] Expr.marksAll (Parser.arguments n count)
  primary : Draws [] Expr.marks (Parser.primary n)

section
variable {n : Nat}

theorem expression_draws (ih : DrawingExprs n) : Draws [] Expr.marks (expression (n + 1)) := by
  rw [expression]
  refine .bind (ih.binary 0) fun target => .bind (.take .equal) fun equals => ?_
  cases equals with
  | none => exact .pure (.refl _)
  | some t => exact .bind (.frame ih.expression) fun value => assignTo_draws target value t

theorem binary_draws (ih : DrawingExprs n) (level : Nat) : Draws [] Expr.marks (binary (n + 1) level) := by
  rw [binary]
  exact .ite (.bind (ih.binary _) fun left => ih.binaryRest level left) ih.unary

theorem binaryRest_draws (ih : DrawingExprs n) (level : Nat) (left : Expr NodeId) :
    Draws left.marks Expr.marks (binaryRest (n + 1) level left) := by
  rw [binaryRest]
  refine .bind (.takeAny _) fun op => ?_
  cases op with
  | none => exact .pure (.refl _)
  | some op =>
    refine .bind (.frame (ih.binary _)) fun right => ?_
    rw [← marks_joinAt left right op]
    exact ih.binaryRest level _

theorem unary_draws (ih : DrawingExprs n) : Draws [] Expr.marks (unary (n + 1)) := by
  rw [unary]
  refine .bind (.takeAny _) fun op => ?_
  cases op with
  | none => exact .bind ih.primary fun callee => ih.callRest callee
  | some op => exact .bind ih.unary fun e => .pure (by simp [Expr.marks])

theorem callRest_draws (ih : DrawingExprs n) (callee : Expr NodeId) :
    Draws callee.marks Expr.marks (callRest (n + 1) callee) := by
  rw [callRest]
  refine .bind (.takeAny _) fun found => ?_
  cases found with
  | none => exact .pure (.refl _)
  | some t =>
    have hcall : ∀ args, Draws (callee.marks ++ Expr.marksAll args) Expr.marks (do
        let paren ← consume .rightParen .argumentsEnd
        callRest n (.call callee paren args)) := by
      intro args
      refine .bind (.consume _ _) fun paren => ?_
      have hnext := ih.callRest (.call callee paren args)
      rwa [Expr.marks] at hnext
    refine .ite (.bind (.check _) fun closed => ?_) ?_
    · refine .ite (.bind (.pure ?_) hcall) (.bind (.frame (ih.arguments 0)) hcall)
      simp [Expr.marksAll]
    · refine .bind (.consume _ _) fun x => ?_
      have hnext := ih.callRest (.get callee x)
      rwa [Expr.marks] at hnext

theorem arguments_draws (ih : DrawingExprs n) (count : Nat) :
    Draws [] Expr.marksAll (arguments (n + 1) count) := by
  rw [arguments]
  refine .ite (.bind .peek fun t => .bind (.note t _) fun _ => ?_) ?_
  all_goals
    refine .bind ih.expression fun first => .bind (.take _) fun comma => ?_
    cases comma with
    | none => exact .pure (by simp [Expr.marksAll])
    | some t => exact .bind (.frame (ih.arguments _)) fun rest => .pure (by simp [Expr.marksAll])

theorem primary_draws (ih : DrawingExprs n) : Draws [] Expr.marks (primary (n + 1)) := by
  rw [primary]
  refine .bind .peek fun t => ?_
  split
  case h_6 =>
    refine .bind .advance fun _ => .bind (.consume _ _) fun _ => .bind (.consume _ _) fun x => ?_
    exact .bind .freshId fun k => .pure (by simp [Expr.marks])
  case h_7 => exact .bind .advance fun _ => .bind .freshId fun k => .pure (by simp [Expr.marks])
  case h_8 => exact .bind .advance fun _ => .bind .freshId fun k => .pure (by simp [Expr.marks])
  case h_9 =>
    refine .bind .advance fun _ => .bind ih.expression fun inner => ?_
    exact .bind (.consume _ _) fun _ => .pure (by simp [Expr.marks])
  case h_10 => exact .fail t _
  all_goals exact .bind .advance fun _ => .pure (by simp [Expr.marks])

end

theorem drawingExprs (n : Nat) : DrawingExprs n := by
  induction n with
  | zero =>
    constructor <;> intros
    · rw [Parser.expression]; exact .outOfFuel
    · rw [Parser.binary]; exact .outOfFuel
    · rw [Parser.binaryRest]; exact .outOfFuel
    · rw [Parser.unary]; exact .outOfFuel
    · rw [Parser.callRest]; exact .outOfFuel
    · rw [Parser.arguments]; exact .outOfFuel
    · rw [Parser.primary]; exact .outOfFuel
  | succ n ih =>
    exact ⟨expression_draws ih, binary_draws ih, binaryRest_draws ih, unary_draws ih, callRest_draws ih,
      arguments_draws ih, primary_draws ih⟩

/-! ## Statements -/

section
variable (n : Nat)

theorem parameters_draws (n count : Nat) : Draws held (fun _ => held) (parameters n count) := by
  induction n generalizing count with
  | zero => exact .outOfFuel
  | succ n ih =>
    rw [parameters]
    refine .ite (.bind .peek fun t => .bind (.note t _) fun _ => ?_) ?_
    all_goals
      refine .bind (.consume _ _) fun first => .bind (.take _) fun comma => ?_
      cases comma with
      | none => exact .pure (.refl _)
      | some t => exact .bind (ih _) fun rest => .pure (.refl _)

theorem varDeclaration_draws : Draws [] Stmt.marks (varDeclaration n) := by
  refine .bind (.consume _ _) fun x => .bind (.take _) fun equals => ?_
  have hend : ∀ e, Draws (Expr.marksOpt e) Stmt.marks (do
      let _ ← consume .semicolon .variableEnd
      return Stmt.varDecl x e) :=
    fun e => .bind (.consume _ _) fun _ => .pure (by simp [Stmt.marks])
  cases equals with
  | none => exact .bind (.pure (.refl _)) hend
  | some t =>
    refine .bind (drawingExprs n).expression fun e => ?_
    exact .bind (.pure (.refl _)) hend

theorem expressionStatement_draws : Draws [] Stmt.marks (expressionStatement n) :=
  .bind (drawingExprs n).expression fun _ => .bind (.consume _ _) fun _ => .pure (by simp [Stmt.marks])

theorem expressionUnless_draws (k : Symbol) : Draws [] Expr.marksOpt (expressionUnless n k) :=
  .bind (.check k) fun _ => .ite (.pure (.refl _)) (.bind (drawingExprs n).expression fun _ => .pure (.refl _))

theorem condition_draws (opening closing : SyntaxFault) :
    Draws [] Expr.marks (condition n opening closing) :=
  .bind (.consume _ _) fun _ => .bind (drawingExprs n).expression fun _ =>
    .bind (.consume _ _) fun _ => .pure (.refl _)

/-- The marks of the clauses of a `for` loop, in the order they are read in. -/
def clauseMarks : Option (Stmt NodeId) × Option (Expr NodeId) × Option (Expr NodeId) → List NodeId
  | (i, c, u) => Stmt.marksOpt i ++ Expr.marksOpt c ++ Expr.marksOpt u

theorem forClauses_draws : Draws [] clauseMarks (forClauses n) := by
  have hrest : ∀ i, Draws (Stmt.marksOpt i) clauseMarks (do
      let condition ← expressionUnless n .semicolon
      let _ ← consume .semicolon .loopCondition
      let increment ← expressionUnless n .rightParen
      let _ ← consume .rightParen .forClausesEnd
      return (i, condition, increment)) := by
    intro i
    refine .bind (.frame (expressionUnless_draws n _)) fun c => .bind (.consume _ _) fun _ => ?_
    refine .bind (.frame (expressionUnless_draws n _)) fun u => .bind (.consume _ _) fun _ => ?_
    exact .pure (.refl _)
  refine .bind (.consume _ _) fun _ => .bind (.takeAny _) fun found => ?_
  cases found with
  | none => exact .bind (expressionStatement_draws n) fun s => .bind (.pure (.refl _)) hrest
  | some t =>
    refine .ite (.bind (.pure (.refl _)) hrest) ?_
    exact .bind (varDeclaration_draws n) fun s => .bind (.pure (.refl _)) hrest

/-- The parsers of statements with some fuel. -/
structure DrawingStmts : Prop where
  declarations : ∀ inBlock, Draws [] Stmt.marksAll (Parser.declarations n inBlock)
  declaration : Draws [] Stmt.marks (Parser.declaration n)
  classDeclaration : Draws [] Stmt.marks (Parser.classDeclaration n)
  methods : Draws [] Stmt.marksMethods (Parser.methods n)
  function : ∀ role, Draws [] Stmt.marksFun (Parser.function n role)
  block : Draws [] Stmt.marksAll (Parser.block n)
  statement : Draws [] Stmt.marks (Parser.statement n)

end

section
variable {n : Nat}

theorem declarations_draws (ih : DrawingStmts n) (inBlock : Bool) :
    Draws [] Stmt.marksAll (declarations (n + 1) inBlock) := by
  have hfirst : Draws [] Stmt.marksAll (do
      let first ← recover (declaration n) dropBroken
      let rest ← declarations n inBlock
      return first.toList ++ rest) := by
    refine .bind (.recover ih.declaration) fun first => .bind (.frame (ih.declarations inBlock)) fun rest => ?_
    refine .pure ?_
    cases first <;> simp [Stmt.marksAll]
  rw [declarations]
  exact .bind .atEnd fun _ => .bind (.check _) fun _ => .ite (.pure (.refl _)) hfirst

theorem declaration_draws (ih : DrawingStmts n) : Draws [] Stmt.marks (declaration (n + 1)) := by
  rw [declaration]
  refine .bind (.takeAny _) fun found => ?_
  cases found with
  | none => exact ih.statement
  | some t =>
    refine .ite ih.classDeclaration (.ite ?_ (varDeclaration_draws n))
    exact .bind (ih.function _) fun f => .pure (by simp [Stmt.marks])

theorem classDeclaration_draws (ih : DrawingStmts n) : Draws [] Stmt.marks (classDeclaration (n + 1)) := by
  rw [classDeclaration]
  refine .bind (.consume _ _) fun x => .bind (.take _) fun less => ?_
  have hbody : ∀ parent, Draws (Expr.marksOpt parent) Stmt.marks (do
      let _ ← consume .leftBrace .classBody
      let methods ← methods n
      let _ ← consume .rightBrace .classEnd
      return Stmt.classDecl x parent methods) := by
    intro parent
    refine .bind (.consume _ _) fun _ => .bind (.frame ih.methods) fun ms => .bind (.consume _ _) fun _ => ?_
    exact .pure (by simp [Stmt.marks])
  cases less with
  | none => exact .bind (.pure (.refl _)) hbody
  | some t =>
    refine .bind (.consume _ _) fun parent => .bind .freshId fun k => .bind (.pure ?_) hbody
    simp [Expr.marksOpt, Expr.marks]

theorem methods_draws (ih : DrawingStmts n) : Draws [] Stmt.marksMethods (methods (n + 1)) := by
  rw [methods]
  refine .bind (.check _) fun _ => .bind .atEnd fun _ => .ite (.pure (.refl _)) ?_
  refine .bind (ih.function _) fun m => .bind (.frame ih.methods) fun ms => .pure ?_
  simp [Stmt.marksMethods]

theorem function_draws (ih : DrawingStmts n) (role : Role) :
    Draws [] Stmt.marksFun (function (n + 1) role) := by
  rw [function]
  refine .bind (.consume _ _) fun x => .bind (.consume _ _) fun _ => .bind (.check _) fun _ => ?_
  have hbody : ∀ params, Draws [] Stmt.marksFun (do
      let _ ← consume .rightParen .parameterEnd
      let _ ← consume .leftBrace (.functionBody role)
      let body ← block n
      return FunDecl.mk x params body) := by
    intro params
    refine .bind (.consume _ _) fun _ => .bind (.consume _ _) fun _ => .bind ih.block fun body => ?_
    exact .pure (by simp [Stmt.marksFun])
  exact .ite (.bind (.pure (.refl _)) hbody) (.bind (parameters_draws n 0) hbody)

theorem block_draws (ih : DrawingStmts n) : Draws [] Stmt.marksAll (block (n + 1)) := by
  rw [block]
  exact .bind (ih.declarations true) fun body => .bind (.consume _ _) fun _ => .pure (.refl _)

theorem statement_draws (ih : DrawingStmts n) : Draws [] Stmt.marks (statement (n + 1)) := by
  rw [statement]
  refine .bind (.takeAny _) fun found => ?_
  cases found with
  | none => exact expressionStatement_draws n
  | some t =>
    refine .ite ?_ (.ite ?_ (.ite ?_ (.ite ?_ (.ite ?_ ?_))))
    · refine .bind (forClauses_draws n) fun clauses => .bind (.frame ih.statement) fun body => ?_
      obtain ⟨i, c, u⟩ := clauses
      -- in the tree the body stands before the increment
      refine .perm (.pure (.refl _)) ?_
      rw [marks_forLoop, clauseMarks, List.append_assoc, List.append_assoc]
      exact .append_left _ (.append_left _ List.perm_append_comm)
    · refine .bind (condition_draws n _ _) fun test => .bind (.frame ih.statement) fun s => ?_
      have hend : ∀ t, Draws (test.marks ++ s.marks ++ Stmt.marksOpt t) Stmt.marks
          (Pure.pure (Stmt.conditional test s t)) :=
        fun t => .pure (by simp [Stmt.marks])
      refine .bind (.take _) fun found => ?_
      cases found with
      | none => exact .bind (.pure (by simp [Stmt.marksOpt])) hend
      | some t => exact .bind (.frame ih.statement) fun s' => .bind (.pure (.refl _)) hend
    · refine .bind (drawingExprs n).expression fun e => .bind (.consume _ _) fun _ => ?_
      exact .pure (by simp [Stmt.marks])
    · refine .bind (expressionUnless_draws n _) fun e => .bind (.consume _ _) fun _ => ?_
      exact .pure (by simp [Stmt.marks])
    · refine .bind (condition_draws n _ _) fun test => .bind (.frame ih.statement) fun body => ?_
      exact .pure (by simp [Stmt.marks])
    · exact .bind ih.block fun body => .pure (by simp [Stmt.marks])

end

theorem drawingStmts (n : Nat) : DrawingStmts n := by
  induction n with
  | zero =>
    constructor <;> intros
    · rw [Parser.declarations]; exact .outOfFuel
    · rw [Parser.declaration]; exact .outOfFuel
    · rw [Parser.classDeclaration]; exact .outOfFuel
    · rw [Parser.methods]; exact .outOfFuel
    · rw [Parser.function]; exact .outOfFuel
    · rw [Parser.block]; exact .outOfFuel
    · rw [Parser.statement]; exact .outOfFuel
  | succ n ih =>
    exact ⟨declarations_draws ih, declaration_draws ih, classDeclaration_draws ih, methods_draws ih,
      function_draws ih, block_draws ih, statement_draws ih⟩

/-! ## Whole inputs -/

/-- The marks of a program are fresh, whatever was reported. -/
theorem program_fresh (nextId : NodeId) (tokens : List Token) :
    Fresh nextId (program nextId tokens).nextId (Stmt.marksAll (program nextId tokens).tree) := by
  have hends := (drawingStmts (fuelFor tokens)).declarations false (splitEnd tokens).2
    ⟨upToEnd tokens, nextId, []⟩ nextId (.nil (Nat.le_refl _))
  rw [program_eq]
  change Ends (programRun nextId tokens) _ _ _ at hends
  cases hr : programRun nextId tokens with
  | ok body s =>
    rw [hr] at hends
    exact hends
  | fault t cause s =>
    rw [hr] at hends
    exact .nil hends
  | outOfFuel => exact .nil (Nat.le_refl _)

/-- The marks of a single expression are fresh, whatever was reported. -/
theorem single_fresh (nextId : NodeId) (tokens : List Token) :
    Fresh nextId (single nextId tokens).nextId (Expr.marksOpt (single nextId tokens).tree) := by
  have hwhole : Draws [] Expr.marks (wholeExpression (fuelFor tokens)) := by
    refine .bind (drawingExprs _).expression fun e => .bind .atEnd fun _ => .ite (.pure (.refl _)) ?_
    exact .bind .peek fun t => .fail t _
  have hends := hwhole (splitEnd tokens).2 ⟨upToEnd tokens, nextId, []⟩ nextId (.nil (Nat.le_refl _))
  rw [single_eq]
  change Ends (singleRun nextId tokens) _ _ _ at hends
  cases hr : singleRun nextId tokens with
  | ok e s =>
    rw [hr] at hends
    exact hends
  | fault t cause s =>
    rw [hr] at hends
    exact .nil hends
  | outOfFuel => exact .nil (Nat.le_refl _)

end Parser

end Lox
