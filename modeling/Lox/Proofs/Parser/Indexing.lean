import Mathlib.Data.List.TakeWhile
import Lox.Proofs.Parser.Exact
import Lox.Proofs.Parser.Mirroring

/-!
# The parser ends on every vector of tokens

With its cursor on a vector, each parsing function does what it does on the list of the tokens up to the
first end marker (`MirrorsExprs`, `MirrorsStmts`). The list parser has enough fuel and takes a token for
every declaration; so the one with the cursor ends on every vector, reads within it, and does not get
past the first end marker: `parse_terminates`.
-/

namespace Lox.Cursor

/-! ## Expressions -/

section
variable (tokens : Array Token) (eof : Token) (e : Nat)

theorem mirrors_assignTo (target value : Expr NodeId) (equals : Token) :
    Mirrors tokens eof e (Cursor.assignTo target equals value) (Parser.assignTo target equals value) := by
  cases target with
  | «variable» k x => exact .bind .freshId fun _ => .pure _
  | get o x => exact .pure _
  | _ => exact .bind (.note equals _) fun _ => .pure _

/-- What holds of the parsers of expressions, with fuel `m` on the vector and `n` on the list. -/
structure MirrorsExprs (m n : Nat) : Prop where
  expression : Mirrors tokens eof e (Cursor.expression m) (Parser.expression n)
  binary : ∀ level, Mirrors tokens eof e (Cursor.binary m level) (Parser.binary n level)
  binaryRest : ∀ level left,
    Mirrors tokens eof e (Cursor.binaryRest m level left) (Parser.binaryRest n level left)
  unary : Mirrors tokens eof e (Cursor.unary m) (Parser.unary n)
  callRest : ∀ callee, Mirrors tokens eof e (Cursor.callRest m callee) (Parser.callRest n callee)
  arguments : ∀ count, Mirrors tokens eof e (Cursor.arguments m count) (Parser.arguments n count)
  primary : Mirrors tokens eof e (Cursor.primary m) (Parser.primary n)

end

section
variable {tokens : Array Token} {eof : Token} {e m n : Nat}

theorem mirrors_expression (ih : MirrorsExprs tokens eof e m n) :
    Mirrors tokens eof e (Cursor.expression (m + 1)) (Parser.expression (n + 1)) := by
  rw [Cursor.expression, Parser.expression]
  refine .bind (ih.binary 0) fun target => .take (fun equals _ => .readBack ?_) (.pure _)
  exact .bind ih.expression fun value => mirrors_assignTo _ _ _ target value equals

theorem mirrors_binary (ih : MirrorsExprs tokens eof e m n) (level : Nat) :
    Mirrors tokens eof e (Cursor.binary (m + 1) level) (Parser.binary (n + 1) level) := by
  rw [Cursor.binary, Parser.binary]
  exact .ite (.bind (ih.binary _) fun left => ih.binaryRest level left) ih.unary

theorem mirrors_binaryRest (ih : MirrorsExprs tokens eof e m n) (level : Nat) (left : Expr NodeId) :
    Mirrors tokens eof e (Cursor.binaryRest (m + 1) level left) (Parser.binaryRest (n + 1) level left) := by
  rw [Cursor.binaryRest, Parser.binaryRest]
  refine .checkAny (fun operator => ?_) (.pure _)
  exact .bind (ih.binary _) fun right => ih.binaryRest level _

theorem mirrors_unary (ih : MirrorsExprs tokens eof e m n) :
    Mirrors tokens eof e (Cursor.unary (m + 1)) (Parser.unary (n + 1)) := by
  rw [Cursor.unary, Parser.unary]
  refine .acceptAny (fun operator => .readBack ?_) ?_
  · exact .bind ih.unary fun right => .pure _
  · exact .bind ih.primary fun callee => ih.callRest callee

theorem mirrors_callRest (ih : MirrorsExprs tokens eof e m n) (callee : Expr NodeId) :
    Mirrors tokens eof e (Cursor.callRest (m + 1) callee) (Parser.callRest (n + 1) callee) := by
  rw [Cursor.callRest, Parser.callRest]
  have hcall : ∀ args, Mirrors tokens eof e (do
      let paren ← Cursor.consume .rightParen .argumentsEnd
      Cursor.callRest m (.call callee paren args)) (do
      let paren ← Parser.consume .rightParen .argumentsEnd
      Parser.callRest n (.call callee paren args)) :=
    fun args => .bind (.consume _ _) fun paren => ih.callRest _
  refine .choose (fun t ht => .plain t ?_) (.choose (fun t ht => .plain t ?_) (.chosen (.pure _)))
  · simp only [ht, if_true]
    exact .bind (.check _) fun closed =>
      .ite (.bind (.pure []) hcall) (.bind (ih.arguments 0) hcall)
  · simp only [Parser.is_eq_decide ht]
    exact .bind (.consume _ _) fun name => ih.callRest _

theorem mirrors_arguments (ih : MirrorsExprs tokens eof e m n) (count : Nat) :
    Mirrors tokens eof e (Cursor.arguments (m + 1) count) (Parser.arguments (n + 1) count) := by
  rw [Cursor.arguments, Parser.arguments]
  refine .ite (.bind .peek fun t => .bind (.note t _) fun _ => ?_) ?_
  all_goals
    refine .bind ih.expression fun first => .take (fun t _ => .plain t ?_) (.pure _)
    exact .bind (ih.arguments _) fun rest => .pure _

theorem mirrors_primary (ih : MirrorsExprs tokens eof e m n) :
    Mirrors tokens eof e (Cursor.primary (m + 1)) (Parser.primary (n + 1)) := by
  rw [Cursor.primary, Parser.primary]
  refine .bind .peek fun t => ?_
  cases t.kind with
  | number value => exact .advance fun _ => .pure _
  | string text => exact .advance fun _ => .pure _
  | symbol k =>
    cases k
    case superKw =>
      refine .advance fun _ => .bind (.consume _ _) fun _ => .bind (.consume _ _) fun x => ?_
      exact .bind .freshId fun k => .pure _
    case thisKw => exact .advance fun _ => .bind .freshId fun k => .pure _
    case identifier => exact .advance fun _ => .bind .freshId fun k => .pure _
    case leftParen =>
      refine .advance fun _ => .bind ih.expression fun inner => ?_
      exact .bind (.consume _ _) fun _ => .pure _
    case falseKw | trueKw | nilKw => exact .advance fun _ => .pure _
    all_goals exact .fail t _

end

theorem mirrorsExprs (tokens : Array Token) (eof : Token) (e : Nat) {m n : Nat} (h : n ≤ m) :
    MirrorsExprs tokens eof e m n := by
  induction n generalizing m with
  | zero =>
    constructor <;> intros
    · rw [Parser.expression]; exact .outOfFuel _
    · rw [Parser.binary]; exact .outOfFuel _
    · rw [Parser.binaryRest]; exact .outOfFuel _
    · rw [Parser.unary]; exact .outOfFuel _
    · rw [Parser.callRest]; exact .outOfFuel _
    · rw [Parser.arguments]; exact .outOfFuel _
    · rw [Parser.primary]; exact .outOfFuel _
  | succ n ih =>
    obtain ⟨m, rfl⟩ : ∃ k, m = k + 1 := ⟨m - 1, by omega⟩
    have ih := ih (Nat.le_of_succ_le_succ h)
    exact ⟨mirrors_expression ih, mirrors_binary ih, mirrors_binaryRest ih, mirrors_unary ih,
      mirrors_callRest ih, mirrors_arguments ih, mirrors_primary ih⟩

/-! ## Statements -/

section
variable (tokens : Array Token) (eof : Token) (e : Nat) {m n : Nat}

theorem mirrors_parameters (h : n ≤ m) (count : Nat) :
    Mirrors tokens eof e (Cursor.parameters m count) (Parser.parameters n count) := by
  induction n generalizing m count with
  | zero => exact .outOfFuel _
  | succ n ih =>
    obtain ⟨m, rfl⟩ : ∃ k, m = k + 1 := ⟨m - 1, by omega⟩
    rw [Cursor.parameters, Parser.parameters]
    refine .ite (.bind .peek fun t => .bind (.note t _) fun _ => ?_) ?_
    all_goals
      refine .bind (.consume _ _) fun first => .take (fun t _ => .plain t ?_) (.pure _)
      exact .bind (ih (Nat.le_of_succ_le_succ h) _) fun rest => .pure _

theorem mirrors_varDeclaration (h : n ≤ m) :
    Mirrors tokens eof e (Cursor.varDeclaration m) (Parser.varDeclaration n) := by
  refine .bind (.consume _ _) fun x => ?_
  have hend : ∀ initializer : Option (Expr NodeId), Mirrors tokens eof e (do
      let _ ← Cursor.consume .semicolon .variableEnd
      return Stmt.varDecl x initializer) (do
      let _ ← Parser.consume .semicolon .variableEnd
      return Stmt.varDecl x initializer) :=
    fun _ => .bind (.consume _ _) fun _ => .pure _
  refine .take (fun t _ => .plain t ?_) (.bind (.pure none) hend)
  exact .bind (mirrorsExprs tokens eof e h).expression fun value => .bind (.pure (some value)) hend

theorem mirrors_expressionStatement (h : n ≤ m) :
    Mirrors tokens eof e (Cursor.expressionStatement m) (Parser.expressionStatement n) :=
  .bind (mirrorsExprs tokens eof e h).expression fun _ => .bind (.consume _ _) fun _ => .pure _

theorem mirrors_expressionUnless (h : n ≤ m) (k : Symbol) :
    Mirrors tokens eof e (Cursor.expressionUnless m k) (Parser.expressionUnless n k) :=
  .bind (.check k) fun _ =>
    .ite (.pure _) (.bind (mirrorsExprs tokens eof e h).expression fun _ => .pure _)

theorem mirrors_condition (h : n ≤ m) (opening closing : SyntaxFault) :
    Mirrors tokens eof e (Cursor.condition m opening closing) (Parser.condition n opening closing) :=
  .bind (.consume _ _) fun _ => .bind (mirrorsExprs tokens eof e h).expression fun _ =>
    .bind (.consume _ _) fun _ => .pure _

theorem mirrors_forClauses (h : n ≤ m) :
    Mirrors tokens eof e (Cursor.forClauses m) (Parser.forClauses n) := by
  have hrest : ∀ initializer : Option (Stmt NodeId), Mirrors tokens eof e (do
      let condition ← Cursor.expressionUnless m .semicolon
      let _ ← Cursor.consume .semicolon .loopCondition
      let increment ← Cursor.expressionUnless m .rightParen
      let _ ← Cursor.consume .rightParen .forClausesEnd
      return (initializer, condition, increment)) (do
      let condition ← Parser.expressionUnless n .semicolon
      let _ ← Parser.consume .semicolon .loopCondition
      let increment ← Parser.expressionUnless n .rightParen
      let _ ← Parser.consume .rightParen .forClausesEnd
      return (initializer, condition, increment)) := by
    intro initializer
    refine .bind (mirrors_expressionUnless _ _ _ h _) fun c => .bind (.consume _ _) fun _ => ?_
    exact .bind (mirrors_expressionUnless _ _ _ h _) fun u => .bind (.consume _ _) fun _ => .pure _
  refine .bind (.consume _ _) fun _ => ?_
  refine .choose (fun t ht => .plain t ?_) (.choose (fun t ht => .plain t ?_) (.chosen ?_))
  · simp only [ht, if_true]
    exact .bind (.pure none) hrest
  · simp only [Parser.is_eq_decide ht]
    exact .bind (mirrors_varDeclaration _ _ _ h) fun s => .bind (.pure (some s)) hrest
  · exact .bind (mirrors_expressionStatement _ _ _ h) fun s => .bind (.pure (some s)) hrest

/-- What holds of the parsers of statements, with fuel `m` on the vector and `n` on the list. -/
structure MirrorsStmts (m n : Nat) : Prop where
  blockRest : Mirrors tokens eof e (Cursor.blockRest m) (Parser.declarations n true)
  unguarded : Mirrors tokens eof e (Cursor.unguarded m) (Parser.declaration n)
  classDeclaration : Mirrors tokens eof e (Cursor.classDeclaration m) (Parser.classDeclaration n)
  methods : Mirrors tokens eof e (Cursor.methods m) (Parser.methods n)
  function : ∀ role, Mirrors tokens eof e (Cursor.function m role) (Parser.function n role)
  block : Mirrors tokens eof e (Cursor.block m) (Parser.block n)
  statement : Mirrors tokens eof e (Cursor.statement m) (Parser.statement n)

end

section
variable {tokens : Array Token} {eof : Token} {e m n : Nat}

/-- One round of a loop over statements. -/
theorem mirrors_round {c : Cursor (List (Stmt NodeId))} {inBlock : Bool}
    (hfirst : Mirrors tokens eof e (Cursor.unguarded m) (Parser.declaration n))
    (hrest : Mirrors tokens eof e c (Parser.declarations n inBlock)) :
    Mirrors tokens eof e (do
      let first ← Cursor.recover (Cursor.unguarded m)
      let rest ← c
      return first.toList ++ rest) (do
      let first ← Parser.recover (Parser.declaration n) Parser.dropBroken
      let rest ← Parser.declarations n inBlock
      return first.toList ++ rest) :=
  .bind hfirst.recover fun _ => .bind hrest fun _ => .pure _

theorem mirrors_blockRest (ih : MirrorsStmts tokens eof e m n) :
    Mirrors tokens eof e (Cursor.blockRest (m + 1)) (Parser.declarations (n + 1) true) := by
  rw [Cursor.blockRest, Parser.declarations]
  intro p s hv
  rw [Cursor.bind_of_ok (hv.check _)]
  have hround := mirrors_round ih.unguarded ih.blockRest p s hv
  obtain ⟨ts, i, reports⟩ := s
  cases ts with
  | nil =>
    refine ⟨p, ?_, hv⟩
    show (Cursor.atEnd >>= _) tokens p = _
    rw [Cursor.bind_of_ok hv.atEnd]
    rfl
  | cons t rest =>
    have hx : ∀ f : Bool → Bool → Parser (List (Stmt NodeId)),
        (Parser.atEnd >>= fun a => Parser.check .rightBrace >>= f a) eof ⟨t :: rest, i, reports⟩ =
          f false (t.is .rightBrace) eof ⟨t :: rest, i, reports⟩ := fun _ => rfl
    rw [hx]
    cases ht : t.is .rightBrace with
    | true =>
      refine ⟨p, ?_, hv⟩
      simp only [List.head?_cons, Option.any_some, ht, if_true]
      rfl
    | false =>
      simp only [List.head?_cons, Option.any_some, ht, Bool.false_eq_true, if_false]
      show EndsLike tokens eof e ((Cursor.atEnd >>= _) tokens p) _
      rw [Cursor.bind_of_ok hv.atEnd]
      exact hround

theorem mirrors_unguarded (ih : MirrorsStmts tokens eof e m n) (h : n ≤ m) :
    Mirrors tokens eof e (Cursor.unguarded (m + 1)) (Parser.declaration (n + 1)) := by
  rw [Cursor.unguarded, Parser.declaration]
  intro p s hv
  rw [Cursor.bind_of_ok hv.peek]
  refine Mirrors.choose (fun t ht => .plain t ?_) (.choose (fun t ht => .plain t ?_)
    (.choose (fun t ht => .plain t ?_) (.chosen ih.statement))) p s hv
  · simp only [ht, if_true]
    exact ih.classDeclaration
  · simp only [Parser.is_eq_decide ht]
    exact .bind (ih.function _) fun f => .pure _
  · simp only [Parser.is_eq_decide ht]
    exact mirrors_varDeclaration tokens eof e h

theorem mirrors_classDeclaration (ih : MirrorsStmts tokens eof e m n) :
    Mirrors tokens eof e (Cursor.classDeclaration (m + 1)) (Parser.classDeclaration (n + 1)) := by
  rw [Cursor.classDeclaration, Parser.classDeclaration]
  refine .bind (.consume _ _) fun x => ?_
  have hbody : ∀ parent : Option (Expr NodeId), Mirrors tokens eof e (do
      let _ ← Cursor.consume .leftBrace .classBody
      let methods ← Cursor.methods m
      let _ ← Cursor.consume .rightBrace .classEnd
      return Stmt.classDecl x parent methods) (do
      let _ ← Parser.consume .leftBrace .classBody
      let methods ← Parser.methods n
      let _ ← Parser.consume .rightBrace .classEnd
      return Stmt.classDecl x parent methods) :=
    fun parent => .bind (.consume _ _) fun _ => .bind ih.methods fun ms =>
      .bind (.consume _ _) fun _ => .pure _
  refine .take (fun t _ => .plain t ?_) (.bind (.pure none) hbody)
  exact .bind (.consume _ _) fun parent => .bind .freshId fun k =>
    .bind (.pure (some (Expr.variable k parent))) hbody

theorem mirrors_methods (ih : MirrorsStmts tokens eof e m n) :
    Mirrors tokens eof e (Cursor.methods (m + 1)) (Parser.methods (n + 1)) := by
  rw [Cursor.methods, Parser.methods]
  have hfirst : Mirrors tokens eof e (do
      let first ← Cursor.function m .method
      let rest ← Cursor.methods m
      return first :: rest) (do
      let first ← Parser.function n .method
      let rest ← Parser.methods n
      return first :: rest) :=
    .bind (ih.function _) fun f => .bind ih.methods fun fs => .pure _
  refine .bind (.check _) fun closed => ?_
  cases closed with
  | true => exact fun p s hv => ⟨p, rfl, hv⟩
  | false => exact .bind .atEnd fun ended => .ite (.pure []) hfirst

theorem mirrors_function (ih : MirrorsStmts tokens eof e m n) (h : n ≤ m) (role : Role) :
    Mirrors tokens eof e (Cursor.function (m + 1) role) (Parser.function (n + 1) role) := by
  rw [Cursor.function, Parser.function]
  refine .bind (.consume _ _) fun x => .bind (.consume _ _) fun _ => .bind (.check _) fun _ => ?_
  have hbody : ∀ params : List Token, Mirrors tokens eof e (do
      let _ ← Cursor.consume .rightParen .parameterEnd
      let _ ← Cursor.consume .leftBrace (.functionBody role)
      let body ← Cursor.block m
      return FunDecl.mk x params body) (do
      let _ ← Parser.consume .rightParen .parameterEnd
      let _ ← Parser.consume .leftBrace (.functionBody role)
      let body ← Parser.block n
      return FunDecl.mk x params body) :=
    fun params => .bind (.consume _ _) fun _ => .bind (.consume _ _) fun _ => .bind ih.block fun _ => .pure _
  exact .ite (.bind (.pure []) hbody) (.bind (mirrors_parameters tokens eof e h 0) hbody)

theorem mirrors_block (ih : MirrorsStmts tokens eof e m n) :
    Mirrors tokens eof e (Cursor.block (m + 1)) (Parser.block (n + 1)) := by
  rw [Cursor.block, Parser.block]
  exact .bind ih.blockRest fun body => .bind (.consume _ _) fun _ => .pure _

theorem mirrors_statement (ih : MirrorsStmts tokens eof e m n) (h : n ≤ m) :
    Mirrors tokens eof e (Cursor.statement (m + 1)) (Parser.statement (n + 1)) := by
  have hexpr := (mirrorsExprs tokens eof e h).expression
  rw [Cursor.statement, Parser.statement]
  refine .choose (fun t ht => .plain t ?_) (.choose (fun t ht => .plain t ?_)
    (.choose (fun t ht => ?_) (.choose (fun t ht => ?_) (.choose (fun t ht => .plain t ?_)
      (.choose (fun t ht => .plain t ?_) (.chosen (mirrors_expressionStatement tokens eof e h)))))))
  all_goals simp only [Parser.is_eq_decide ht]
  · exact .bind (mirrors_forClauses tokens eof e h) fun _ => .bind ih.statement fun body => .pure _
  · refine .bind (mirrors_condition tokens eof e h _ _) fun test => .bind ih.statement fun s => ?_
    refine .take (fun t _ => .plain t ?_) (.pure _)
    exact .bind ih.statement fun s' => .pure _
  · exact .readBack (.bind hexpr fun value => .bind (.consume _ _) fun _ => .pure _)
  · exact .readBack (.bind (mirrors_expressionUnless tokens eof e h _) fun value =>
      .bind (.consume _ _) fun _ => .pure _)
  · exact .bind (mirrors_condition tokens eof e h _ _) fun test => .bind ih.statement fun s => .pure _
  · exact .bind ih.block fun body => .pure _

end

theorem mirrorsStmts (tokens : Array Token) (eof : Token) (e : Nat) {m n : Nat} (h : n ≤ m) :
    MirrorsStmts tokens eof e m n := by
  induction n generalizing m with
  | zero =>
    constructor <;> intros
    · rw [Parser.declarations]; exact .outOfFuel _
    · rw [Parser.declaration]; exact .outOfFuel _
    · rw [Parser.classDeclaration]; exact .outOfFuel _
    · rw [Parser.methods]; exact .outOfFuel _
    · rw [Parser.function]; exact .outOfFuel _
    · rw [Parser.block]; exact .outOfFuel _
    · rw [Parser.statement]; exact .outOfFuel _
  | succ n ih =>
    obtain ⟨m, rfl⟩ : ∃ k, m = k + 1 := ⟨m - 1, by omega⟩
    have h := Nat.le_of_succ_le_succ h
    have ih := ih h
    exact ⟨mirrors_blockRest ih, mirrors_unguarded ih h, mirrors_classDeclaration ih, mirrors_methods ih,
      mirrors_function ih h, mirrors_block ih, mirrors_statement ih h⟩

/-! ## Whole inputs -/

/-- A list of declarations does not end with a fault. -/
theorem declarations_ends (n : Nat) (inBlock : Bool) (eof : Token) (s : ParseState) :
    Parser.Ends (Parser.declarations n inBlock eof s) (fun _ _ => True) (fun _ => False) True := by
  induction n generalizing s with
  | zero => trivial
  | succ n ih =>
    have hfirst : Parser.Ends (Parser.recover (Parser.declaration n) Parser.dropBroken eof s)
        (fun _ _ => True) (fun _ => False) True := by
      unfold Parser.recover
      cases Parser.declaration n eof s <;> trivial
    have hround (b : Bool) : Parser.Ends ((do
        if b then return []
        let first ← Parser.recover (Parser.declaration n) Parser.dropBroken
        let rest ← Parser.declarations n inBlock
        return first.toList ++ rest : Parser (List (Stmt NodeId))) eof s)
          (fun _ _ => True) (fun _ => False) True := by
      cases b with
      | true => trivial
      | false =>
        exact hfirst.bind (fun _ s' _ => (ih s').bind (fun _ _ _ => trivial) (fun _ h => h) id)
          (fun _ h => h) id
    rw [Parser.declarations]
    refine Parser.Ends.bind (x := Parser.atEnd) (P := fun _ s' => s' = s) (F := fun _ => False)
      (D := False) rfl ?_ (fun _ h => h) (fun h => h.elim)
    rintro ended _ rfl
    exact .check (fun _ _ _ _ => hround _) (fun _ => hround _)

theorem mirrors_parse (tokens : Array Token) (eof : Token) (e : Nat) {m n : Nat} (h : n ≤ m) :
    Mirrors tokens eof e (Cursor.parse m) (Parser.declarations n false) := by
  induction n generalizing m with
  | zero =>
    rw [Parser.declarations]
    exact .outOfFuel _
  | succ n ih =>
    obtain ⟨m, rfl⟩ : ∃ k, m = k + 1 := ⟨m - 1, by omega⟩
    have h := Nat.le_of_succ_le_succ h
    have hround := mirrors_round (mirrorsStmts tokens eof e h).unguarded (ih h)
    rw [Cursor.parse, Parser.declarations]
    refine .bind .atEnd fun ended => ?_
    intro p s hv
    have hx : ∀ f : Bool → Parser (List (Stmt NodeId)), (Parser.check .rightBrace >>= f) eof s =
        f (s.rest.head?.any (·.is .rightBrace)) eof s := by
      intro f
      obtain ⟨ts, i, reports⟩ := s
      cases ts <;> rfl
    rw [hx]
    cases ended with
    | true => exact ⟨p, rfl, hv⟩
    | false => exact hround p s hv

theorem split_of_end {tokens : List Token} {t : Token} (h : tokens.find? (·.is .eof) = some t) :
    ∃ more, tokens = Parser.upToEnd tokens ++ t :: more := by
  obtain ⟨_, body, more, rfl, hbody⟩ := List.find?_eq_some_iff_append.1 h
  have ht : t.is .eof = true := by simpa using List.find?_some h
  refine ⟨more, ?_⟩
  rw [Parser.upToEnd_append (by simpa using hbody)]
  simp [Parser.upToEnd, Parser.splitEnd, ht]

/-- The vector of a parser: the tokens up to the first end marker, that marker, and more. -/
theorem toList_close (tokens : List Token) : ∃ more,
    (Cursor.close tokens).toList = Parser.upToEnd tokens ++ (Parser.splitEnd tokens).2 :: more := by
  unfold Cursor.close
  cases hfind : tokens.find? (·.is .eof) with
  | some t =>
    obtain ⟨more, hmore⟩ := split_of_end hfind
    have heof : (Parser.splitEnd tokens).2 = t := by simp [Parser.splitEnd, hfind]
    rw [heof]
    split
    · exact ⟨more, hmore⟩
    · refine ⟨more ++ [.endAt (tokens.getLast?.elim 1 Token.line)], ?_⟩
      rw [Array.toList_push, ← List.cons_append, ← List.append_assoc, ← hmore]
  | none =>
    have hbody : ∀ t ∈ tokens, t.is .eof = false := by simpa using hfind
    have hall : Parser.upToEnd tokens = tokens :=
      List.takeWhile_eq_self_iff.2 fun t ht => by simp [hbody t ht]
    have hlast : tokens.getLast?.any (·.is .eof) = false := by
      cases h : tokens.getLast? with
      | none => rfl
      | some t => exact hbody t (List.mem_of_getLast? h)
    refine ⟨[], ?_⟩
    simp [hlast, hall, Parser.splitEnd, hfind]

theorem firstEnd_close (tokens : List Token) :
    FirstEnd (Cursor.close tokens) (Parser.splitEnd tokens).2 (Parser.upToEnd tokens).length := by
  obtain ⟨more, hmore⟩ := toList_close tokens
  refine ⟨?_, Parser.end_is tokens, fun i hi t ht => ?_⟩
  · rw [← Array.getElem?_toList, hmore, List.getElem?_append_right (Nat.le_refl _), Nat.sub_self]
    rfl
  · rw [← Array.getElem?_toList, hmore, List.getElem?_append_left hi] at ht
    have hmem := List.mem_takeWhile_imp (List.mem_of_getElem? ht)
    simpa using hmem

/-- A vector that is the same up to its first end marker. -/
theorem FirstEnd.congr {tokens other : Array Token} {eof : Token} {e : Nat} (h : FirstEnd tokens eof e)
    (hsame : ∀ i ≤ e, other[i]? = tokens[i]?) : FirstEnd other eof e where
  marker := by rw [hsame e (Nat.le_refl e), h.marker]
  isEnd := h.isEnd
  before i hi t ht := h.before i hi t (by rw [← hsame i (Nat.le_of_lt hi), ht])

/-- At the start all tokens before the first end marker are left. -/
theorem view_start {tokens : List Token} {vector : Array Token}
    (hsame : ∀ i ≤ (Parser.upToEnd tokens).length, vector[i]? = (Cursor.close tokens)[i]?)
    (nextId : NodeId) :
    View vector (Parser.splitEnd tokens).2 (Parser.upToEnd tokens).length { nextId }
      ⟨Parser.upToEnd tokens, nextId, []⟩ where
  first := (firstEnd_close tokens).congr hsame
  le := Nat.zero_le _
  rest := by
    obtain ⟨more, hmore⟩ := toList_close tokens
    rw [List.drop_zero]
    refine List.ext_getElem? fun i => ?_
    rw [List.getElem?_take]
    split
    · rename_i hi
      have htoken : vector.toList[i]? = (Cursor.close tokens).toList[i]? := by
        rw [Array.getElem?_toList, Array.getElem?_toList, hsame i (Nat.le_of_lt hi)]
      rw [htoken, hmore, List.getElem?_append_left hi]
    · rename_i hi
      exact List.getElem?_eq_none (Nat.le_of_not_lt hi)
  nextId := rfl
  reports := rfl

/-- A declaration takes a token at least, broken or not. -/
theorem declaration_moves {vector : Array Token} {eof : Token} {e n : Nat} (h : FirstEnd vector eof e)
    {p : Position} (hp : p.current < e) (hn : 16 * (e + 2) ≤ n) :
    ∃ first p', Cursor.declaration n vector p = .ok first p' ∧ p.current < p'.current ∧
      p'.current ≤ e := by
  let s : ParseState := ⟨(vector.toList.take e).drop p.current, p.nextId, p.reports⟩
  have hv : View vector eof e p s := ⟨h, Nat.le_of_lt hp, rfl, rfl, rfl⟩
  have hlen := hv.length_rest
  have hrun := (mirrorsStmts vector eof e (Nat.le_refl n)).unguarded.recover p s hv
  have hends := (Parser.stmtSound h.isEnd n).declaration s
  unfold Parser.recover at hrun
  cases hx : Parser.declaration n eof s with
  | ok first s' =>
    rw [hx] at hrun hends
    obtain ⟨p', hok, hv'⟩ := hrun
    have hlen' := hv'.length_rest
    have hle := hv'.le
    have hless : s'.rest.length < s.rest.length := hends.2
    exact ⟨_, p', hok, by omega, hle⟩
  | fault t cause s' =>
    rw [hx] at hrun hends
    obtain ⟨p', hok, hv'⟩ := hrun
    have hlen' := hv'.length_rest
    have hle := hv'.le
    have hless : s'.rest.length ≤ s.rest.length := hends.length_le
    have hdrop := Parser.length_dropBroken s'.rest
    simp only at hlen'
    exact ⟨_, p', hok, by omega, hle⟩
  | outOfFuel =>
    rw [hx] at hends
    have hdry : n < 16 * s.rest.length + 12 := hends
    omega

/-- The end of a run that gives a result, with the cursor at an index. -/
def finish (result : Parser.Result α) (current : Nat) : Finish α :=
  .ok result.tree ⟨current, result.nextId, result.reports⟩

section
variable {tokens : List Token} {vector : Array Token} {nextId : NodeId} {n : Nat}

theorem parse_ends (hsame : ∀ i ≤ (Parser.upToEnd tokens).length, vector[i]? = (Cursor.close tokens)[i]?)
    (hn : Parser.fuelFor tokens ≤ n) : Cursor.parse n vector { nextId } =
      finish (Parser.program nextId tokens) (Parser.upToEnd tokens).length := by
  have hrun := mirrors_parse vector _ _ hn _ _ (view_start hsame nextId)
  have hends := Parser.program_ends nextId tokens
  have hnofault := declarations_ends (Parser.fuelFor tokens) false (Parser.splitEnd tokens).2
    ⟨Parser.upToEnd tokens, nextId, []⟩
  rw [Parser.program_eq]
  unfold Parser.programRun at hends ⊢
  cases hx : Parser.declarations (Parser.fuelFor tokens) false (Parser.splitEnd tokens).2
      ⟨Parser.upToEnd tokens, nextId, []⟩ with
  | ok body s =>
    rw [hx] at hrun hends
    obtain ⟨p, hp, hv⟩ := hrun
    simp only [hp, finish, ← hv.current_of_nil hends.2, ← hv.nextId, ← hv.reports]
  | fault t cause s =>
    rw [hx] at hnofault
    exact hnofault.elim
  | outOfFuel =>
    rw [hx] at hends
    exact hends.elim

theorem parseExpression_ends
    (hsame : ∀ i ≤ (Parser.upToEnd tokens).length, vector[i]? = (Cursor.close tokens)[i]?)
    (hn : Parser.fuelFor tokens ≤ n) : ∃ i ≤ (Parser.upToEnd tokens).length,
      Cursor.parseExpression n vector { nextId } = finish (Parser.single nextId tokens) i := by
  have hwhole : Mirrors vector (Parser.splitEnd tokens).2 (Parser.upToEnd tokens).length
      (do
        let e ← Cursor.expression n
        if ← Cursor.atEnd then return e
        else Cursor.fail (← Cursor.peek) .inputEnd) (Parser.wholeExpression (Parser.fuelFor tokens)) :=
    .bind (mirrorsExprs _ _ _ hn).expression fun e => .bind .atEnd fun _ =>
      .ite (.pure e) (.bind .peek fun t => .fail t _)
  have hrun := hwhole _ _ (view_start hsame nextId)
  have hends := Parser.single_ends nextId tokens
  rw [Parser.single_eq]
  unfold Cursor.parseExpression
  unfold Parser.singleRun at hends ⊢
  cases hx : Parser.wholeExpression (Parser.fuelFor tokens) (Parser.splitEnd tokens).2
      ⟨Parser.upToEnd tokens, nextId, []⟩ with
  | ok e s =>
    rw [hx] at hrun
    obtain ⟨p, hp, hv⟩ := hrun
    refine ⟨p.current, hv.le, ?_⟩
    simp only [hp, finish, ← hv.nextId, ← hv.reports]
  | fault t cause s =>
    rw [hx] at hrun
    obtain ⟨p, hp, hv⟩ := hrun
    refine ⟨p.current, hv.le, ?_⟩
    simp only [hp, finish, ← hv.nextId, ← hv.reports]
  | outOfFuel =>
    rw [hx] at hends
    exact hends.elim

end

/-- The parser ends on every vector of tokens that `Cursor.close` makes, whatever its tokens are. It
reads no index outside of the vector and nothing behind the first end marker, so it is the same for
every other vector that agrees up to there. It ends a program with its cursor on that marker, and gives
what the parser of the list gives. A declaration, broken or not, moves the cursor on, and not past the
marker. -/
theorem parse_terminates (nextId : NodeId) (tokens : List Token) :
    ∃ eof e, FirstEnd (Cursor.close tokens) eof e ∧
      ∀ vector : Array Token, (∀ i ≤ e, vector[i]? = (Cursor.close tokens)[i]?) →
        ∀ n, Parser.fuelFor tokens ≤ n →
          Cursor.parse n vector { nextId } = finish (Parser.program nextId tokens) e ∧
          (∃ i ≤ e, Cursor.parseExpression n vector { nextId } = finish (Parser.single nextId tokens) i) ∧
          ∀ p : Position, p.current < e → ∃ first p', Cursor.declaration n vector p = .ok first p' ∧
            p.current < p'.current ∧ p'.current ≤ e := by
  have hlen := Parser.length_upToEnd_le tokens
  refine ⟨_, _, firstEnd_close tokens, fun vector hsame n hn => ?_⟩
  refine ⟨parse_ends hsame hn, parseExpression_ends hsame hn, fun p hp => ?_⟩
  have hfuel : 16 * ((Parser.upToEnd tokens).length + 2) ≤ n := by
    unfold Parser.fuelFor at hn
    omega
  exact declaration_moves ((firstEnd_close tokens).congr hsame) hp hfuel

end Lox.Cursor
