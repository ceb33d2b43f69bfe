import Lox.Proofs.Parser.Steps

/-!
# Parsing with more behind

A parser looks one token ahead and no further. So a run that ends before its input does is the same run
when more tokens follow, and the same with more fuel: `embedsExprs` and `embedsStmts`, by one rule for
each operation (`Embeds`). Of the input only the end marker shows where it is over, so nothing is said of
runs that take every token.
-/

namespace Lox

/-- The same position in a longer input, after other reports. -/
def ParseState.within (s : ParseState) (before : List Report) (more : List Token) : ParseState :=
  ⟨s.rest ++ more, s.nextId, before ++ s.reports⟩

def Parsed.within (before : List Report) (more : List Token) : Parsed α → Parsed α
  | .ok a s => .ok a (s.within before more)
  | .fault t cause s => .fault t cause (s.within before more)
  | .outOfFuel => .outOfFuel

/-- The tokens that a run leaves. -/
def Parsed.rest : Parsed α → List Token
  | .ok _ s => s.rest
  | .fault _ _ s => s.rest
  | .outOfFuel => []

namespace Parser

/-- Where the first parser leaves tokens, the second one does the same with more behind them. -/
def Embeds (x y : Parser α) : Prop := ∀ eof eof' s before more, (x eof s).rest ≠ [] →
  s.rest ≠ [] ∧ y eof' (s.within before more) = (x eof s).within before more

namespace Embeds

variable {x y x' y' : Parser α}

theorem pure (a : α) : Embeds (Pure.pure a) (Pure.pure a) := fun _ _ _ _ _ h => ⟨h, rfl⟩

theorem bind {f g : α → Parser β} (hx : Embeds x y) (hf : ∀ a, Embeds (f a) (g a)) :
    Embeds (x >>= f) (y >>= g) := by
  intro eof eof' s before more h
  show s.rest ≠ [] ∧ Parser.bind y g _ _ = (Parser.bind x f _ _).within _ _
  replace h : (Parser.bind x f eof s).rest ≠ [] := h
  have hfirst := hx eof eof' s before more
  unfold Parser.bind at h ⊢
  cases hr : x eof s with
  | ok a s' =>
    rw [hr] at h hfirst
    obtain ⟨hne, hg⟩ := hf a eof eof' s' before more h
    obtain ⟨hs, hy⟩ := hfirst hne
    rw [hy]
    exact ⟨hs, hg⟩
  | fault t cause s' =>
    rw [hr] at h hfirst
    obtain ⟨hs, hy⟩ := hfirst h
    rw [hy]
    exact ⟨hs, rfl⟩
  | outOfFuel =>
    rw [hr] at h
    exact absurd rfl h

theorem ite {b : Prop} [Decidable b] (h : Embeds x y) (h' : Embeds x' y') :
    Embeds (if b then x else x') (if b then y else y') := by
  split
  · exact h
  · exact h'

theorem outOfFuel (y : Parser α) : Embeds Parser.outOfFuel y := fun _ _ _ _ _ h => absurd rfl h

theorem fail (t : Token) (cause : SyntaxFault) :
    Embeds (Parser.fail t cause : Parser α) (Parser.fail t cause) := fun _ _ _ _ _ h => ⟨h, rfl⟩

theorem freshId : Embeds Parser.freshId Parser.freshId := fun _ _ _ _ _ h => ⟨h, rfl⟩

theorem note (t : Token) (cause : SyntaxFault) : Embeds (Parser.note t cause) (Parser.note t cause) := by
  intro eof eof' s before more h
  exact ⟨h, by simp [Parser.note, Parsed.within, ParseState.within]⟩

/-- An operation that looks at the next token does the same if there is one. -/
theorem of_cons (hnil : ∀ eof i reports, (x eof ⟨[], i, reports⟩).rest = [])
    (hcons : ∀ eof eof' t rest i reports before more, y eof' ⟨t :: (rest ++ more), i, before ++ reports⟩ =
      (x eof ⟨t :: rest, i, reports⟩).within before more) : Embeds x y := by
  rintro eof eof' ⟨ts, i, reports⟩ before more h
  cases ts with
  | nil => exact absurd (hnil eof i reports) h
  | cons t rest => exact ⟨List.cons_ne_nil _ _, hcons eof eof' t rest i reports before more⟩

theorem peek : Embeds Parser.peek Parser.peek :=
  .of_cons (fun _ _ _ => rfl) fun _ _ _ _ _ _ _ _ => rfl

theorem atEnd : Embeds Parser.atEnd Parser.atEnd :=
  .of_cons (fun _ _ _ => rfl) fun _ _ _ _ _ _ _ _ => rfl

theorem advance : Embeds Parser.advance Parser.advance :=
  .of_cons (fun _ _ _ => rfl) fun _ _ _ _ _ _ _ _ => rfl

theorem check (k : Symbol) : Embeds (Parser.check k) (Parser.check k) :=
  .of_cons (fun _ _ _ => rfl) fun _ _ _ _ _ _ _ _ => rfl

theorem takeAny (ks : List Symbol) : Embeds (Parser.takeAny? ks) (Parser.takeAny? ks) := by
  refine .of_cons (fun _ _ _ => rfl) fun eof eof' t rest i reports before more => ?_
  unfold Parser.takeAny?
  cases h : ks.any t.is <;> simp [h, Parsed.within, ParseState.within]

theorem consume (k : Symbol) (cause : SyntaxFault) :
    Embeds (Parser.consume k cause) (Parser.consume k cause) := by
  refine .of_cons (fun _ _ _ => rfl) fun eof eof' t rest i reports before more => ?_
  unfold Parser.consume
  cases h : t.is k <;> simp [h, Parsed.within, ParseState.within]

theorem recover {repair : List Token → List Token} (hx : Embeds x y) (hnil : repair [] = [])
    (hrepair : ∀ ts more, repair ts ≠ [] → repair (ts ++ more) = repair ts ++ more) :
    Embeds (Parser.recover x repair) (Parser.recover y repair) := by
  intro eof eof' s before more h
  have hfirst := hx eof eof' s before more
  unfold Parser.recover at h ⊢
  cases hr : x eof s with
  | ok a s' =>
    rw [hr] at h hfirst
    obtain ⟨hs, hy⟩ := hfirst h
    rw [hy]
    exact ⟨hs, rfl⟩
  | fault t cause s' =>
    rw [hr] at h hfirst
    have hne : s'.rest ≠ [] := fun hnone => h (show repair s'.rest = [] by rw [hnone, hnil])
    obtain ⟨hs, hy⟩ := hfirst hne
    rw [hy]
    refine ⟨hs, ?_⟩
    simp [Parsed.within, ParseState.within, hrepair _ more h]
  | outOfFuel =>
    rw [hr] at h
    exact absurd rfl h

end Embeds

/-! ## Expressions -/

section
variable {m n : Nat}

theorem embeds_assignTo (target value : Expr NodeId) (equals : Token) :
    Embeds (assignTo target equals value) (assignTo target equals value) := by
  cases target with
  | «variable» k x => exact .bind .freshId fun _ => .pure _
  | get o x => exact .pure _
  | _ => exact .bind (.note equals _) fun _ => .pure _

/-- What holds of the parsers of expressions, with fuel `n` and with fuel `m` on the longer input. -/
structure EmbedsExprs (n m : Nat) : Prop where
  expression : Embeds (Parser.expression n) (Parser.expression m)
  binary : ∀ level, Embeds (Parser.binary n level) (Parser.binary m level)
  binaryRest : ∀ level left, Embeds (Parser.binaryRest n level left) (Parser.binaryRest m level left)
  unary : Embeds (Parser.unary n) (Parser.unary m)
  callRest : ∀ callee, Embeds (Parser.callRest n callee) (Parser.callRest m callee)
  arguments : ∀ count, Embeds (Parser.arguments n count) (Parser.arguments m count)
  primary : Embeds (Parser.primary n) (Parser.primary m)

theorem embeds_expression (ih : EmbedsExprs n m) :
    Embeds (expression (n + 1)) (expression (m + 1)) := by
  rw [expression, expression]
  refine .bind (ih.binary 0) fun target => .bind (.takeAny _) fun equals => ?_
  cases equals with
  | none => exact .pure _
  | some t => exact .bind ih.expression fun value => embeds_assignTo target value t

theorem embeds_binary (ih : EmbedsExprs n m) (level : Nat) :
    Embeds (binary (n + 1) level) (binary (m + 1) level) := by
  rw [binary, binary]
  exact .ite (.bind (ih.binary _) fun left => ih.binaryRest level left) ih.unary

theorem embeds_binaryRest (ih : EmbedsExprs n m) (level : Nat) (left : Expr NodeId) :
    Embeds (binaryRest (n + 1) level left) (binaryRest (m + 1) level left) := by
  rw [binaryRest, binaryRest]
  refine .bind (.takeAny _) fun op => ?_
  cases op with
  | none => exact .pure _
  | some t => exact .bind (ih.binary _) fun right => ih.binaryRest level _

theorem embeds_unary (ih : EmbedsExprs n m) : Embeds (unary (n + 1)) (unary (m + 1)) := by
  rw [unary, unary]
  refine .bind (.takeAny _) fun op => ?_
  cases op with
  | none => exact .bind ih.primary fun callee => ih.callRest callee
  | some t => exact .bind ih.unary fun right => .pure _

theorem embeds_callRest (ih : EmbedsExprs n m) (callee : Expr NodeId) :
    Embeds (callRest (n + 1) callee) (callRest (m + 1) callee) := by
  rw [callRest, callRest]
  refine .bind (.takeAny _) fun found => ?_
  cases found with
  | none => exact .pure _
  | some t =>
    refine .ite (.bind (.check _) fun _ => .ite (.bind (.pure []) ?_) (.bind (ih.arguments 0) ?_)) ?_
    · exact fun args => .bind (.consume _ _) fun paren => ih.callRest _
    · exact fun args => .bind (.consume _ _) fun paren => ih.callRest _
    · exact .bind (.consume _ _) fun name => ih.callRest _

theorem embeds_arguments (ih : EmbedsExprs n m) (count : Nat) :
    Embeds (arguments (n + 1) count) (arguments (m + 1) count) := by
  rw [arguments, arguments]
  refine .ite (.bind .peek fun t => .bind (.note t _) fun _ => ?_) ?_
  all_goals
    refine .bind ih.expression fun first => .bind (.takeAny _) fun comma => ?_
    cases comma with
    | none => exact .pure _
    | some t => exact .bind (ih.arguments _) fun rest => .pure _

theorem embeds_primary (ih : EmbedsExprs n m) : Embeds (primary (n + 1)) (primary (m + 1)) := by
  rw [primary, primary]
  refine .bind .peek fun t => ?_
  cases t.kind with
  | number value => exact .bind .advance fun _ => .pure _
  | string text => exact .bind .advance fun _ => .pure _
  | symbol k =>
    cases k
    case superKw =>
      refine .bind .advance fun _ => .bind (.consume _ _) fun _ => .bind (.consume _ _) fun x => ?_
      exact .bind .freshId fun k => .pure _
    case thisKw => exact .bind .advance fun _ => .bind .freshId fun k => .pure _
    case identifier => exact .bind .advance fun _ => .bind .freshId fun k => .pure _
    case leftParen =>
      refine .bind .advance fun _ => .bind ih.expression fun inner => ?_
      exact .bind (.consume _ _) fun _ => .pure _
    case falseKw | trueKw | nilKw => exact .bind .advance fun _ => .pure _
    all_goals exact .fail t _

end

theorem embedsExprs {n m : Nat} (h : n ≤ m) : EmbedsExprs n m := by
  induction n generalizing m with
  | zero =>
    constructor <;> intros
    · rw [Parser.expression]; exact .outOfFuel _
    · rw [Parser.binary]; exact .outOfFuel _
    · rw [Parser.binaryRest]; exact .outOfFuel _
    · rw [Parser.unary]; exact .outOfFuel _
    · rw [Parser.callRest]; exact .outOfFuel _
    · rw [Parser.arguments]; exact .outOfFuel _
    · rw [Parser.primary]; exact .outOfFuel _
  | succ n ih =>
    obtain ⟨m, rfl⟩ : ∃ k, m = k + 1 := ⟨m - 1, by omega⟩
    have ih : EmbedsExprs n m := ih (by omega)
    exact ⟨embeds_expression ih, embeds_binary ih, embeds_binaryRest ih, embeds_unary ih,
      embeds_callRest ih, embeds_arguments ih, embeds_primary ih⟩

/-! ## Statements -/

theorem dropBroken_append {ts : List Token} (more : List Token) (h : dropBroken ts ≠ []) :
    dropBroken (ts ++ more) = dropBroken ts ++ more := by
  induction ts with
  | nil => exact absurd rfl h
  | cons t rest ih =>
    cases rest with
    | nil => exact absurd rfl h
    | cons next rest =>
      simp only [List.cons_append, dropBroken] at ih h ⊢
      split
      · rfl
      · rename_i hgo
        rw [if_neg hgo] at h
        exact ih h

section
variable {m n : Nat}

theorem embeds_parameters (h : n ≤ m) (count : Nat) : Embeds (parameters n count) (parameters m count) := by
  induction n generalizing m count with
  | zero => exact .outOfFuel _
  | succ n ih =>
    obtain ⟨m, rfl⟩ : ∃ k, m = k + 1 := ⟨m - 1, by omega⟩
    rw [parameters, parameters]
    refine .ite (.bind .peek fun t => .bind (.note t _) fun _ => ?_) ?_
    all_goals
      refine .bind (.consume _ _) fun first => .bind (.takeAny _) fun comma => ?_
      cases comma with
      | none => exact .pure _
      | some t => exact .bind (ih (by omega) _) fun rest => .pure _

theorem embeds_varDeclaration (h : n ≤ m) : Embeds (varDeclaration n) (varDeclaration m) := by
  refine .bind (.consume _ _) fun x => .bind (.takeAny _) fun equals => ?_
  cases equals with
  | none => exact .bind (.pure none) fun e => .bind (.consume _ _) fun _ => .pure _
  | some t =>
    refine .bind (embedsExprs h).expression fun e => .bind (.pure (some e)) fun e => ?_
    exact .bind (.consume _ _) fun _ => .pure _

theorem embeds_expressionStatement (h : n ≤ m) :
    Embeds (expressionStatement n) (expressionStatement m) :=
  .bind (embedsExprs h).expression fun _ => .bind (.consume _ _) fun _ => .pure _

theorem embeds_expressionUnless (h : n ≤ m) (k : Symbol) :
    Embeds (expressionUnless n k) (expressionUnless m k) :=
  .bind (.check k) fun _ => .ite (.pure none) (.bind (embedsExprs h).expression fun _ => .pure _)

theorem embeds_condition (h : n ≤ m) (opening closing : SyntaxFault) :
    Embeds (condition n opening closing) (condition m opening closing) :=
  .bind (.consume _ _) fun _ => .bind (embedsExprs h).expression fun _ =>
    .bind (.consume _ _) fun _ => .pure _

theorem embeds_forClauses (h : n ≤ m) : Embeds (forClauses n) (forClauses m) := by
  have hrest : ∀ i : Option (Stmt NodeId), Embeds (do
      let condition ← expressionUnless n .semicolon
      let _ ← consume .semicolon .loopCondition
      let increment ← expressionUnless n .rightParen
      let _ ← consume .rightParen .forClausesEnd
      return (i, condition, increment)) (do
      let condition ← expressionUnless m .semicolon
      let _ ← consume .semicolon .loopCondition
      let increment ← expressionUnless m .rightParen
      let _ ← consume .rightParen .forClausesEnd
      return (i, condition, increment)) := by
    intro i
    refine .bind (embeds_expressionUnless h _) fun c => .bind (.consume _ _) fun _ => ?_
    exact .bind (embeds_expressionUnless h _) fun u => .bind (.consume _ _) fun _ => .pure _
  refine .bind (.consume _ _) fun _ => .bind (.takeAny _) fun found => ?_
  cases found with
  | none => exact .bind (embeds_expressionStatement h) fun s => .bind (.pure (some s)) hrest
  | some t =>
    refine .ite (.bind (.pure none) hrest) ?_
    exact .bind (embeds_varDeclaration h) fun s => .bind (.pure (some s)) hrest

/-- What holds of the parsers of statements, with fuel `n` and with fuel `m` on the longer input. -/
structure EmbedsStmts (n m : Nat) : Prop where
  declarations : ∀ inBlock, Embeds (Parser.declarations n inBlock) (Parser.declarations m inBlock)
  declaration : Embeds (Parser.declaration n) (Parser.declaration m)
  classDeclaration : Embeds (Parser.classDeclaration n) (Parser.classDeclaration m)
  methods : Embeds (Parser.methods n) (Parser.methods m)
  function : ∀ role, Embeds (Parser.function n role) (Parser.function m role)
  block : Embeds (Parser.block n) (Parser.block m)
  statement : Embeds (Parser.statement n) (Parser.statement m)

theorem embeds_declarations (ih : EmbedsStmts n m) (inBlock : Bool) :
    Embeds (declarations (n + 1) inBlock) (declarations (m + 1) inBlock) := by
  rw [declarations, declarations]
  refine .bind .atEnd fun _ => .bind (.check _) fun _ => .ite (.pure []) ?_
  refine .bind (.recover ih.declaration rfl fun ts more => dropBroken_append more) fun first => ?_
  exact .bind (ih.declarations inBlock) fun rest => .pure _

theorem embeds_declaration (ih : EmbedsStmts n m) (h : n ≤ m) :
    Embeds (declaration (n + 1)) (declaration (m + 1)) := by
  rw [declaration, declaration]
  refine .bind (.takeAny _) fun found => ?_
  cases found with
  | none => exact ih.statement
  | some t =>
    refine .ite ih.classDeclaration (.ite ?_ (embeds_varDeclaration h))
    exact .bind (ih.function _) fun f => .pure _

theorem embeds_classDeclaration (ih : EmbedsStmts n m) :
    Embeds (classDeclaration (n + 1)) (classDeclaration (m + 1)) := by
  have hbody : ∀ name parent, Embeds (do
      let _ ← consume .leftBrace .classBody
      let methods ← methods n
      let _ ← consume .rightBrace .classEnd
      return Stmt.classDecl name parent methods) (do
      let _ ← consume .leftBrace .classBody
      let methods ← methods m
      let _ ← consume .rightBrace .classEnd
      return Stmt.classDecl name parent methods) :=
    fun _ _ => .bind (.consume _ _) fun _ => .bind ih.methods fun _ => .bind (.consume _ _) fun _ => .pure _
  rw [classDeclaration, classDeclaration]
  refine .bind (.consume _ _) fun x => .bind (.takeAny _) fun less => ?_
  cases less with
  | none => exact .bind (.pure none) (hbody x)
  | some t =>
    refine .bind (.consume _ _) fun parent => .bind .freshId fun k => ?_
    exact .bind (.pure (some (Expr.variable k parent))) (hbody x)

theorem embeds_methods (ih : EmbedsStmts n m) : Embeds (methods (n + 1)) (methods (m + 1)) := by
  rw [methods, methods]
  refine .bind (.check _) fun _ => .bind .atEnd fun _ => .ite (.pure []) ?_
  exact .bind (ih.function _) fun f => .bind ih.methods fun fs => .pure _

theorem embeds_function (ih : EmbedsStmts n m) (h : n ≤ m) (role : Role) :
    Embeds (function (n + 1) role) (function (m + 1) role) := by
  have hbody : ∀ name params, Embeds (do
      let _ ← consume .rightParen .parameterEnd
      let _ ← consume .leftBrace (.functionBody role)
      let body ← block n
      return FunDecl.mk name params body) (do
      let _ ← consume .rightParen .parameterEnd
      let _ ← consume .leftBrace (.functionBody role)
      let body ← block m
      return FunDecl.mk name params body) :=
    fun _ _ => .bind (.consume _ _) fun _ => .bind (.consume _ _) fun _ => .bind ih.block fun _ => .pure _
  rw [function, function]
  refine .bind (.consume _ _) fun x => .bind (.consume _ _) fun _ => .bind (.check _) fun _ => ?_
  exact .ite (.bind (.pure []) (hbody x)) (.bind (embeds_parameters h 0) (hbody x))

theorem embeds_block (ih : EmbedsStmts n m) : Embeds (block (n + 1)) (block (m + 1)) := by
  rw [block, block]
  exact .bind (ih.declarations true) fun body => .bind (.consume _ _) fun _ => .pure _

theorem embeds_statement (ih : EmbedsStmts n m) (h : n ≤ m) :
    Embeds (statement (n + 1)) (statement (m + 1)) := by
  rw [statement, statement]
  refine .bind (.takeAny _) fun found => ?_
  cases found with
  | none => exact embeds_expressionStatement h
  | some t =>
    refine .ite ?_ (.ite ?_ (.ite ?_ (.ite ?_ (.ite ?_ ?_))))
    · refine .bind (embeds_forClauses h) fun clauses => ?_
      obtain ⟨i, c, u⟩ := clauses
      exact .bind ih.statement fun body => .pure _
    · refine .bind (embeds_condition h _ _) fun test => .bind ih.statement fun s => ?_
      refine .bind (.takeAny _) fun found => ?_
      cases found with
      | none => exact .bind (.pure none) fun _ => .pure _
      | some t => exact .bind ih.statement fun s' => .bind (.pure (some s')) fun _ => .pure _
    · exact .bind (embedsExprs h).expression fun e => .bind (.consume _ _) fun _ => .pure _
    · exact .bind (embeds_expressionUnless h _) fun e => .bind (.consume _ _) fun _ => .pure _
    · exact .bind (embeds_condition h _ _) fun test => .bind ih.statement fun body => .pure _
    · exact .bind ih.block fun body => .pure _

end

theorem embedsStmts {n m : Nat} (h : n ≤ m) : EmbedsStmts n m := by
  induction n generalizing m with
  | zero =>
    constructor <;> intros
    · rw [Parser.declarations]; exact .outOfFuel _
    · rw [Parser.declaration]; exact .outOfFuel _
    · rw [Parser.classDeclaration]; exact .outOfFuel _
    · rw [Parser.methods]; exact .outOfFuel _
    · rw [Parser.function]; exact .outOfFuel _
    · rw [Parser.block]; exact .outOfFuel _
    · rw [Parser.statement]; exact .outOfFuel _
  | succ n ih =>
    obtain ⟨m, rfl⟩ : ∃ k, m = k + 1 := ⟨m - 1, by omega⟩
    have hle : n ≤ m := by omega
    have ih : EmbedsStmts n m := ih hle
    exact ⟨embeds_declarations ih, embeds_declaration ih hle, embeds_classDeclaration ih,
      embeds_methods ih, embeds_function ih hle, embeds_block ih, embeds_statement ih hle⟩

end Parser

end Lox
