import Lox.Proofs.Number.Texts
import Lox.Proofs.Parser.Grammar
import Lox.Proofs.Token.Exact
import Lox.Proofs.Tree.Brackets
import Lox.Proofs.Tree.Renaming

/-!
# Expressions that can be read back

The text of an expression is that of a form (`form_text`). Where the tokens of the expression are spelled as
their kinds say, and its literals are neither strings nor infinite, the head of the form tells which node it is
the text of (`role_form`), and so the form tells the expression, up to marks and lines (`bare_of_text`).
-/

namespace Lox

/-! ## Spelled tokens -/

namespace Scan

/-- How the tokens are spelled that are all spelled alike. -/
def spellings : List (String × Symbol) := punctuation.map (fun p => (String.ofList p.1, p.2)) ++ Symbol.keywords

theorem mem_spellings {cs : List Char} {a : Symbol} (h : Spells cs (.symbol a)) (ha : a ≠ .identifier) :
    (String.ofList cs, a) ∈ spellings := by
  cases h with
  | mark h => exact List.mem_append_left _ (List.mem_map_of_mem h)
  | keyword h =>
    rw [String.ofList_toList]
    exact List.mem_append_right _ h
  | identifier => exact absurd rfl ha

/-- No reserved word, no punctuation and no number is spelled as an identifier is. -/
theorem spells_identifier {cs : List Char} (h : Spells cs (.symbol .identifier)) :
    (∃ c tail, cs = c :: tail ∧ (c.isAlpha ∨ c = '_') ∧ ∀ d ∈ tail, d.isAlphanum ∨ d = '_') ∧
      ∀ a, (String.ofList cs, a) ∉ Symbol.keywords := by
  cases h with
  | mark h =>
    have hnone : ∀ p ∈ punctuation, p.2 ≠ .identifier := by decide
    exact absurd rfl (hnone _ h)
  | keyword h =>
    have hnone : ∀ p ∈ Symbol.keywords, p.2 ≠ .identifier := by decide
    exact absurd rfl (hnone _ h)
  | identifier hc htail hword => exact ⟨⟨_, _, rfl, hc, htail⟩, hword⟩

end Scan

namespace Token

/-- The token is spelled as its kind says. -/
def Scanned (t : Token) : Prop := Scan.Spells t.lexeme.toList t.kind

/-- The token is one of these symbols, and spelled so. -/
structure Scans (symbols : List Symbol) (t : Token) : Prop where
  any : symbols.any t.is
  scanned : t.Scanned

variable {t u : Token} {symbols : List Symbol}

theorem Scanned.scans {a : Symbol} (h : t.Scanned) (ha : t.is a) : t.Scans [a] := ⟨by simp [ha], h⟩

/-- A symbol that is always spelled alike, with its spelling. -/
theorem Scans.spelled (h : t.Scans symbols) (hs : .identifier ∉ symbols) :
    ∃ a ∈ symbols, t.kind = .symbol a ∧ (t.lexeme, a) ∈ Scan.spellings := by
  obtain ⟨a, ha, hkind⟩ := List.any_eq_true.1 h.any
  have hkind' : t.kind = .symbol a := of_decide_eq_true hkind
  have hspells : Scan.Spells t.lexeme.toList (.symbol a) := by
    rw [← hkind']
    exact h.scanned
  refine ⟨a, ha, hkind', ?_⟩
  have hmem := Scan.mem_spellings hspells fun hid => hs (hid ▸ ha)
  rwa [String.ofList_toList] at hmem

/-- Up to its line, a token is what it is spelled as. -/
theorem Scanned.moved_eq (ht : t.Scanned) (hu : u.Scanned) (h : t.lexeme = u.lexeme) :
    t.moved (fun _ => 0) = u.moved (fun _ => 0) := by
  unfold Scanned at ht hu
  rw [h] at ht
  have hkind : t.kind = u.kind := Lexeme.spells_unique ht hu
  simp [moved, hkind, h]

/-- Two tokens of one symbol that is always spelled alike. -/
theorem Scans.moved_eq {a : Symbol} (ha : a ≠ .identifier) (ht : t.Scans [a]) (hu : u.Scans [a]) :
    t.moved (fun _ => 0) = u.moved (fun _ => 0) := by
  have hnot : Symbol.identifier ∉ [a] := by simpa using ha.symm
  obtain ⟨b, hb, -, hmem⟩ := ht.spelled hnot
  obtain ⟨b', hb', -, hmem'⟩ := hu.spelled hnot
  obtain rfl := List.mem_singleton.1 hb
  obtain rfl := List.mem_singleton.1 hb'
  have hone : ∀ p ∈ Scan.spellings, ∀ q ∈ Scan.spellings, p.2 = q.2 → p.1 = q.1 := by decide +kernel
  exact ht.scanned.moved_eq hu.scanned (hone _ hmem _ hmem' rfl)

end Token

/-! ## Printable expressions -/

/-- The operators of binary nodes. -/
def binaryOperators : List Symbol :=
  [.bangEqual, .equalEqual, .greater, .greaterEqual, .less, .lessEqual, .minus, .plus, .slash, .star]

/-- A literal whose text cannot be taken for another. -/
def Literal.Printable : Literal → Prop
  | .number x => x.toBits.toNat < Number.topField * Number.pow2 Number.significandBits
  | .string _ => False
  | .bool _ | .nil => True

mutual

/-- Each token is one that the grammar has at its place, and the literals are printable. -/
def Expr.Printable : Expr ν → Prop
  | .assign _ x e => x.Scans [.identifier] ∧ e.Printable
  | .binary l op r => op.Scans binaryOperators ∧ l.Printable ∧ r.Printable
  | .call f paren args => paren.Scans [.rightParen] ∧ f.Printable ∧ Expr.PrintableAll args
  | .get o x => x.Scans [.identifier] ∧ o.Printable
  | .grouping e => e.Printable
  | .literal v => v.Printable
  | .logical l op r => op.Scans [.orKw, .andKw] ∧ l.Printable ∧ r.Printable
  | .set o x e => x.Scans [.identifier] ∧ o.Printable ∧ e.Printable
  | .superRef _ kw x => kw.Scans [.superKw] ∧ x.Scans [.identifier]
  | .thisRef _ kw => kw.Scans [.thisKw]
  | .unary op e => op.Scans [.bang, .minus] ∧ e.Printable
  | .variable _ x => x.Scans [.identifier]

def Expr.PrintableAll : List (Expr ν) → Prop
  | [] => True
  | e :: es => e.Printable ∧ Expr.PrintableAll es

end

/-! ## The form of an expression -/

mutual

def Expr.form : Expr ν → Form
  | .assign _ x e => .node "=" [.word x.lexeme, e.form]
  | .binary l op r => .node op.lexeme [l.form, r.form]
  | .call f _ args => .node "call" (f.form :: Expr.forms args)
  | .get o x => .node "." [o.form, .word x.lexeme]
  | .grouping e => .node "group" [e.form]
  | .literal v => .word v.text
  | .logical l op r => .node op.lexeme [l.form, r.form]
  | .set o x e => .node "=" [.node "." [o.form, .word x.lexeme], e.form]
  | .superRef _ _ x => .node "super" [.word x.lexeme]
  | .thisRef _ _ => .word "this"
  | .unary op e => .node op.lexeme [e.form]
  | .variable _ x => .word x.lexeme

def Expr.forms : List (Expr ν) → List Form
  | [] => []
  | e :: es => e.form :: Expr.forms es

end

mutual

theorem Expr.form_text : ∀ e : Expr ν, e.form.text = e.text
  | .assign _ _ e | .grouping e | .unary _ e | .get e _ => by
    simp only [form, text, Form.text, Form.texts, e.form_text]
  | .binary l _ r | .logical l _ r | .set l _ r => by
    simp only [form, text, Form.text, Form.texts, l.form_text, r.form_text]
  | .call f _ args => by
    simp only [form, text, Form.text, Form.texts, f.form_text, Expr.forms_texts args]
  | .literal _ | .superRef _ _ _ | .thisRef _ _ | .variable _ _ => rfl

theorem Expr.forms_texts : ∀ es : List (Expr ν), Form.texts (Expr.forms es) = Expr.texts es
  | [] => rfl
  | e :: es => by simp only [forms, texts, Form.texts, e.form_text, Expr.forms_texts es]

end

/-! ## Words -/

namespace Scan

/-- The characters of a name are neither blanks nor brackets, and it starts with no digit. -/
theorem unbroken_of_identifier {s : String} (h : Spells s.toList (.symbol .identifier)) :
    Form.Unbroken s ∧ s.toList.head?.any Char.isDigit = false ∧ s ∉ ["this", "true", "false", "nil"] := by
  obtain ⟨⟨c, tail, hs, hc, htail⟩, hword⟩ := spells_identifier h
  rw [String.ofList_toList] at hword
  have hparts : ∀ d ∈ s.toList, isWordPart d := by
    rw [hs]
    refine List.forall_mem_cons.2 ⟨?_, fun d hd => Lexeme.isWordPart_iff.2 (htail d hd)⟩
    exact Lexeme.isWordPart_of_start (Lexeme.isWordStart_iff.2 hc)
  refine ⟨⟨?_, fun d hd => decide_eq_true fun hbreak => ?_⟩, ?_, ?_⟩
  · rintro rfl
    cases hs
  · have hpart := hparts d hd
    simp only [List.mem_cons, List.not_mem_nil, or_false] at hbreak
    rcases hbreak with rfl | rfl | rfl <;> cases hpart
  · rw [hs, List.head?_cons, Option.any_some]
    exact Lexeme.isDigit_of_start (Lexeme.isWordStart_iff.2 hc)
  · intro hmem
    simp only [List.mem_cons, List.not_mem_nil, or_false] at hmem
    rcases hmem with rfl | rfl | rfl | rfl
    · exact hword .thisKw (by decide)
    · exact hword .trueKw (by decide)
    · exact hword .falseKw (by decide)
    · exact hword .nilKw (by decide)

end Scan

theorem Token.Scans.name {t : Token} (h : t.Scans [.identifier]) :
    Form.Unbroken t.lexeme ∧ t.lexeme.toList.head?.any Char.isDigit = false ∧
      t.lexeme ∉ ["this", "true", "false", "nil"] := by
  have hkind : t.kind = .symbol .identifier := by simpa [Token.is] using h.any
  have hspells := h.scanned
  rw [Token.Scanned, hkind] at hspells
  exact Scan.unbroken_of_identifier hspells

/-- The heads of the nodes without an operator, and the words that are no names. -/
theorem Form.unbroken_of_mem {s : String}
    (h : s ∈ ["=", "call", ".", "group", "super", "this", "true", "false", "nil"]) : Form.Unbroken s := by
  have hall : ∀ w ∈ ["=", "call", ".", "group", "super", "this", "true", "false", "nil"],
      w ≠ "" ∧ w.toList.all Form.isSolid = true := by decide
  obtain ⟨hne, hsolid⟩ := hall s h
  exact ⟨hne, List.all_eq_true.1 hsolid⟩

/-- Operators are unbroken. -/
theorem Token.Scans.unbroken {t : Token} {symbols : List Symbol} (h : t.Scans symbols)
    (hs : ∀ a ∈ symbols, a ∉ [.identifier, .leftParen, .rightParen]) : Form.Unbroken t.lexeme := by
  obtain ⟨a, ha, -, hmem⟩ := h.spelled fun hid => hs _ hid (by decide)
  have hall : ∀ p ∈ Scan.spellings, p.2 ∉ [.identifier, .leftParen, .rightParen] →
      p.1 ≠ "" ∧ p.1.toList.all Form.isSolid = true := by decide +kernel
  obtain ⟨hne, hsolid⟩ := hall _ hmem (hs a ha)
  exact ⟨hne, List.all_eq_true.1 hsolid⟩

namespace Literal

variable {v w : Literal}

/-- The text of a number is told from a word by its first digit. -/
theorem text_number {x : Float} (h : (Literal.number x).Printable) :
    Form.Unbroken (Literal.number x).text ∧ (Literal.number x).text.toList.head?.any Char.isDigit = true := by
  obtain ⟨_, _, _, _, hwrites, _⟩ := Number.writes_treeText h
  obtain ⟨⟨c, hc, hdigit⟩, hchars⟩ := hwrites.chars
  have hhead : (Number.treeText x).toList.head? = some c := hc
  refine ⟨⟨?_, fun d hd => decide_eq_true fun hbreak => ?_⟩, ?_⟩
  · intro hempty
    rw [show Number.treeText x = "" from hempty] at hhead
    cases hhead
  · simp only [List.mem_cons, List.not_mem_nil, or_false] at hbreak
    rcases hchars d hd with hd | rfl
    · rcases hbreak with rfl | rfl | rfl <;> cases hd
    · rcases hbreak with hbreak | hbreak | hbreak <;> cases hbreak
  · rw [text, hhead, Option.any_some, hdigit]

theorem text_unbroken (h : v.Printable) : Form.Unbroken v.text := by
  cases v with
  | number x => exact (text_number h).1
  | string s => exact h.elim
  | bool b => cases b <;> exact Form.unbroken_of_mem (by decide)
  | nil => exact Form.unbroken_of_mem (by decide)

/-- The text of a literal is read as that of a literal. -/
theorem text_read (h : v.Printable) :
    v.text ≠ "this" ∧ (v.text ∈ ["true", "false", "nil"] ∨ v.text.toList.head?.any Char.isDigit = true) := by
  cases v with
  | number x =>
    have hdigit := (text_number h).2
    refine ⟨fun hthis => ?_, .inr hdigit⟩
    rw [hthis] at hdigit
    cases hdigit
  | string s => exact h.elim
  | bool b => cases b <;> decide
  | nil => decide

theorem text_injective (hv : v.Printable) (hw : w.Printable) (h : v.text = w.text) : v = w := by
  -- no other literal starts with a digit
  have hother : ∀ {x : Float} {s : String}, (Literal.number x).Printable → (Literal.number x).text = s →
      s.toList.head?.any Char.isDigit = false → False := by
    rintro x _ hx rfl hnone
    exact Bool.false_ne_true (hnone.symm.trans (text_number hx).2)
  cases v with
  | number x =>
    cases w with
    | number y => rw [Number.treeText_injective hv hw h]
    | string s => exact hw.elim
    | bool b => exact (hother hv h (by cases b <;> decide)).elim
    | nil => exact (hother hv h (by decide)).elim
  | string s => exact hv.elim
  | bool b =>
    cases w with
    | number y => exact (hother hw h.symm (by cases b <;> decide)).elim
    | string s => exact hw.elim
    | bool b' =>
      revert h
      cases b <;> cases b' <;> decide
    | nil =>
      revert h
      cases b <;> decide
  | nil =>
    cases w with
    | number y => exact (hother hw h.symm (by decide)).elim
    | string s => exact hw.elim
    | bool b =>
      revert h
      cases b <;> decide
    | nil => rfl

end Literal

/-! ## Which node a form is the text of -/

/-- The kinds of node. -/
inductive Expr.Role where
  | assign
  | binary
  | call
  | get
  | grouping
  | literal
  | logical
  | set
  | superRef
  | thisRef
  | unary
  | variable
deriving DecidableEq, Repr

def Expr.role : Expr ν → Expr.Role
  | .assign .. => .assign
  | .binary .. => .binary
  | .call .. => .call
  | .get .. => .get
  | .grouping .. => .grouping
  | .literal .. => .literal
  | .logical .. => .logical
  | .set .. => .set
  | .superRef .. => .superRef
  | .thisRef .. => .thisRef
  | .unary .. => .unary
  | .variable .. => .variable

/-- The kind of node that a form is read as. -/
def Form.role : Form → Expr.Role
  | .word w =>
    if w = "this" then .thisRef
    else if w ∈ ["true", "false", "nil"] ∨ w.toList.head?.any Char.isDigit = true then .literal
    else .variable
  | .node head parts =>
    if head = "=" then
      match parts with
      | .node .. :: _ => .set
      | _ => .assign
    else if head = "call" then .call
    else if head = "." then .get
    else if head = "group" then .grouping
    else if head = "super" then .superRef
    else if head ∈ ["or", "and"] then .logical
    else if parts.length = 1 then .unary
    else .binary

/-- The operators of unary and binary nodes are the heads of no other nodes. -/
theorem Token.Scans.not_head {t : Token} {symbols : List Symbol} (h : t.Scans symbols)
    (hs : ∀ a ∈ symbols, a ∉ [.identifier, .equal, .dot, .superKw, .orKw, .andKw]) :
    t.lexeme ∉ ["=", "call", ".", "group", "super", "or", "and"] := by
  obtain ⟨a, ha, -, hmem⟩ := h.spelled fun hid => hs _ hid (by decide)
  have hheads : ∀ p ∈ Scan.spellings, p.2 ∉ [.identifier, .equal, .dot, .superKw, .orKw, .andKw] →
      p.1 ∉ ["=", "call", ".", "group", "super", "or", "and"] := by decide +kernel
  exact hheads _ hmem (hs a ha)

namespace Expr

/-- The text of a node is read as that of such a node. -/
theorem role_form {e : Expr ν} (h : e.Printable) : e.form.role = e.role := by
  cases e with
  | assign k x e => rfl
  | binary l op r =>
    have hhead := h.1.not_head (by decide)
    simp only [List.mem_cons, List.not_mem_nil, or_false, not_or] at hhead
    simp [form, Form.role, role, hhead]
  | call f paren args => rfl
  | get o x => rfl
  | grouping e => rfl
  | literal v =>
    obtain ⟨hthis, hread⟩ := Literal.text_read h
    rw [form, Form.role, if_neg hthis, if_pos hread]
    rfl
  | logical l op r =>
    obtain ⟨a, ha, -, hmem⟩ := h.1.spelled (by decide)
    have hheads : ∀ p ∈ Scan.spellings, p.2 ∈ [.orKw, .andKw] → p.1 ∈ ["or", "and"] := by decide +kernel
    have hhead := hheads _ hmem ha
    simp only [List.mem_cons, List.not_mem_nil, or_false] at hhead
    rcases hhead with hhead | hhead <;> simp [form, Form.role, role, hhead]
  | set o x e => rfl
  | superRef k kw x => rfl
  | thisRef k kw => rfl
  | unary op e =>
    have hhead := h.1.not_head (by decide)
    simp only [List.mem_cons, List.not_mem_nil, or_false, not_or] at hhead
    simp [form, Form.role, role, hhead]
  | «variable» k x =>
    obtain ⟨-, hdigit, hword⟩ := Token.Scans.name h
    simp only [List.mem_cons, List.not_mem_nil, or_false, not_or] at hword
    simp [form, Form.role, role, hdigit, hword]

mutual

theorem readable_form : ∀ {e : Expr ν}, e.Printable → e.form.Readable
  | .assign _ x e, h => ⟨Form.unbroken_of_mem (by decide), h.1.name.1, readable_form h.2, trivial⟩
  | .binary l op r, h => ⟨h.1.unbroken (by decide), readable_form h.2.1, readable_form h.2.2, trivial⟩
  | .call f paren args, h => ⟨Form.unbroken_of_mem (by decide), readable_form h.2.1, readable_forms h.2.2⟩
  | .get o x, h => ⟨Form.unbroken_of_mem (by decide), readable_form h.2, h.1.name.1, trivial⟩
  | .grouping e, h => ⟨Form.unbroken_of_mem (by decide), readable_form (e := e) h, trivial⟩
  | .literal v, h => Literal.text_unbroken h
  | .logical l op r, h => ⟨h.1.unbroken (by decide), readable_form h.2.1, readable_form h.2.2, trivial⟩
  | .set o x e, h =>
    ⟨Form.unbroken_of_mem (by decide),
      ⟨Form.unbroken_of_mem (by decide), readable_form h.2.1, h.1.name.1, trivial⟩,
      readable_form h.2.2, trivial⟩
  | .superRef k kw x, h => ⟨Form.unbroken_of_mem (by decide), h.2.name.1, trivial⟩
  | .thisRef k kw, _ => Form.unbroken_of_mem (by decide)
  | .unary op e, h => ⟨h.1.unbroken (by decide), readable_form h.2, trivial⟩
  | .variable k x, h => (Token.Scans.name h).1

theorem readable_forms : ∀ {es : List (Expr ν)}, PrintableAll es → Form.ReadableAll (forms es)
  | [], _ => trivial
  | _ :: _, h => ⟨readable_form h.1, readable_forms h.2⟩

end

/-- The expression with its marks and lines forgotten. -/
def bare (e : Expr ν) : Expr Unit := e.rename (.shape fun _ => 0)

def bareAll (es : List (Expr ν)) : List (Expr Unit) := renameAll (.shape fun _ => 0) es

mutual

/-- The form tells the expression, up to marks and lines. -/
theorem bare_of_form : ∀ {e e' : Expr ν}, e.Printable → e'.Printable → e.form = e'.form → e.bare = e'.bare
  | e, e', h, h', hform => by
    have hrole : e.role = e'.role := by rw [← role_form h, ← role_form h', hform]
    -- so the two are nodes of one kind, and only the cases on the diagonal are left
    cases e with
    | assign k x e =>
      cases e' with
      | assign k' x' e' =>
        simp only [form, Form.node.injEq, Form.word.injEq, List.cons.injEq, true_and, and_true] at hform
        exact congrArg₂ (assign ()) (h.1.scanned.moved_eq h'.1.scanned hform.1) (bare_of_form h.2 h'.2 hform.2)
      | _ => cases hrole
    | binary l op r =>
      cases e' with
      | binary l' op' r' =>
        simp only [form, Form.node.injEq, List.cons.injEq, and_true] at hform
        have hop := h.1.scanned.moved_eq h'.1.scanned hform.1
        have hl := bare_of_form h.2.1 h'.2.1 hform.2.1
        have hr := bare_of_form h.2.2 h'.2.2 hform.2.2
        exact (congr (congrArg₂ binary hl hop) hr :)
      | _ => cases hrole
    | call f paren args =>
      cases e' with
      | call f' paren' args' =>
        simp only [form, Form.node.injEq, List.cons.injEq, true_and] at hform
        have hparen := h.1.moved_eq (by decide) h'.1
        have hf := bare_of_form h.2.1 h'.2.1 hform.1
        have hargs := bareAll_of_forms h.2.2 h'.2.2 hform.2
        exact (congr (congrArg₂ call hf hparen) hargs :)
      | _ => cases hrole
    | get o x =>
      cases e' with
      | get o' x' =>
        simp only [form, Form.node.injEq, Form.word.injEq, List.cons.injEq, true_and, and_true] at hform
        exact congrArg₂ get (bare_of_form h.2 h'.2 hform.1) (h.1.scanned.moved_eq h'.1.scanned hform.2)
      | _ => cases hrole
    | grouping e =>
      cases e' with
      | grouping e' =>
        simp only [form, Form.node.injEq, List.cons.injEq, true_and, and_true] at hform
        exact congrArg grouping (bare_of_form (e := e) h h' hform)
      | _ => cases hrole
    | literal v =>
      cases e' with
      | literal v' =>
        simp only [form, Form.word.injEq] at hform
        exact congrArg literal (Literal.text_injective h h' hform)
      | _ => cases hrole
    | logical l op r =>
      cases e' with
      | logical l' op' r' =>
        simp only [form, Form.node.injEq, List.cons.injEq, and_true] at hform
        have hop := h.1.scanned.moved_eq h'.1.scanned hform.1
        have hl := bare_of_form h.2.1 h'.2.1 hform.2.1
        have hr := bare_of_form h.2.2 h'.2.2 hform.2.2
        exact (congr (congrArg₂ logical hl hop) hr :)
      | _ => cases hrole
    | set o x e =>
      cases e' with
      | set o' x' e' =>
        simp only [form, Form.node.injEq, Form.word.injEq, List.cons.injEq, true_and, and_true] at hform
        have hx := h.1.scanned.moved_eq h'.1.scanned hform.1.2
        have ho := bare_of_form h.2.1 h'.2.1 hform.1.1
        have he := bare_of_form h.2.2 h'.2.2 hform.2
        exact (congr (congrArg₂ set ho hx) he :)
      | _ => cases hrole
    | superRef k kw x =>
      cases e' with
      | superRef k' kw' x' =>
        simp only [form, Form.node.injEq, Form.word.injEq, List.cons.injEq, true_and, and_true] at hform
        exact congrArg₂ (superRef ()) (h.1.moved_eq (by decide) h'.1) (h.2.scanned.moved_eq h'.2.scanned hform)
      | _ => cases hrole
    | thisRef k kw =>
      cases e' with
      | thisRef k' kw' => exact congrArg (thisRef ()) (Token.Scans.moved_eq (by decide) h h')
      | _ => cases hrole
    | unary op e =>
      cases e' with
      | unary op' e' =>
        simp only [form, Form.node.injEq, List.cons.injEq, and_true] at hform
        exact congrArg₂ unary (h.1.scanned.moved_eq h'.1.scanned hform.1) (bare_of_form h.2 h'.2 hform.2)
      | _ => cases hrole
    | «variable» k x =>
      cases e' with
      | «variable» k' x' =>
        simp only [form, Form.word.injEq] at hform
        exact congrArg (Expr.variable ()) ((Token.Scans.scanned h).moved_eq (Token.Scans.scanned h') hform)
      | _ => cases hrole

theorem bareAll_of_forms : ∀ {es es' : List (Expr ν)}, PrintableAll es → PrintableAll es' →
    forms es = forms es' → bareAll es = bareAll es'
  | [], [], _, _, _ => rfl
  | [], _ :: _, _, _, h => by cases h
  | _ :: _, [], _, _, h => by cases h
  | e :: es, e' :: es', h, h', hforms => by
    simp only [forms, List.cons.injEq] at hforms
    exact congrArg₂ List.cons (bare_of_form h.1 h'.1 hforms.1) (bareAll_of_forms h.2 h'.2 hforms.2)

end

/-- Printable expressions of one text are the same up to marks and lines. -/
theorem bare_of_text {e e' : Expr ν} (he : e.Printable) (he' : e'.Printable) (h : e.text = e'.text) :
    e.bare = e'.bare := by
  rw [← e.form_text, ← e'.form_text] at h
  exact bare_of_form he he' (Form.text_injective (readable_form he) (readable_form he') h)

end Expr

end Lox
