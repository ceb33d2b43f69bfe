import Lox.Tree.Text

/-!
# Bracketed text

The text of an expression is made of words, with blanks between them and brackets around them. What the text
stands for is a `Form`: a word, or a head and its parts. If no word and no head holds a blank or a bracket, the
text of a form shows where it ends, whatever follows it; so different forms have different texts
(`text_injective`).
-/

namespace Lox

/-- A word, or a head and its parts between brackets. -/
inductive Form where
  | word (text : String)
  | node (head : String) (parts : List Form)

namespace Form

mutual

def text : Form → String
  | .word w => w
  | .node head parts => Expr.parenthesize head (texts parts)

def texts : List Form → List String
  | [] => []
  | f :: fs => f.text :: texts fs

end

/-- Whether a character is neither a blank nor a bracket. -/
def isSolid (c : Char) : Bool := c ∉ [' ', '(', ')']

/-- A text that brackets and blanks leave whole. -/
structure Unbroken (s : String) : Prop where
  nonempty : s ≠ ""
  solid : ∀ c ∈ s.toList, isSolid c = true

mutual

/-- All words and heads are unbroken. -/
def Readable : Form → Prop
  | .word w => Unbroken w
  | .node head parts => Unbroken head ∧ ReadableAll parts

def ReadableAll : List Form → Prop
  | [] => True
  | f :: fs => f.Readable ∧ ReadableAll fs

end

/-! ## Where a text ends -/

/-- The text goes on with a blank or a closing bracket, or not at all. -/
def Breaks (rest : List Char) : Prop := ∀ c ∈ rest.head?, c = ' ' ∨ c = ')'

theorem breaks_nil : Breaks [] := by
  intro c hc
  cases hc

theorem breaks_blank (rest : List Char) : Breaks (' ' :: rest) := by
  intro c hc
  cases hc
  exact .inl rfl

theorem breaks_closing (rest : List Char) : Breaks (')' :: rest) := by
  intro c hc
  cases hc
  exact .inr rfl

/-- The parts of a form, with a blank before each. -/
def spaced : List Form → List Char
  | [] => []
  | f :: fs => ' ' :: f.text.toList ++ spaced fs

theorem toList_node (head : String) (parts : List Form) :
    (Form.node head parts).text.toList = '(' :: head.toList ++ spaced parts ++ [')'] := by
  have hjoined : ∀ (s : String) (fs : List Form),
      (" ".intercalate (s :: texts fs)).toList = s.toList ++ spaced fs := by
    intro s fs
    induction fs generalizing s with
    | nil => simp [texts, spaced]
    | cons f fs ih => simp [texts, spaced, String.intercalate_cons_cons, ih]
  simp [text, Expr.parenthesize, hjoined]

/-- What follows the parts of a form breaks its head. -/
theorem breaks_spaced (parts : List Form) (rest : List Char) : Breaks (spaced parts ++ ')' :: rest) := by
  cases parts with
  | nil => exact breaks_closing rest
  | cons f fs => exact breaks_blank _

namespace Unbroken

variable {s t : String} {rest rest' : List Char}

theorem takeWhile_append (hs : Unbroken s) (hrest : Breaks rest) :
    (s.toList ++ rest).takeWhile isSolid = s.toList := by
  rw [List.takeWhile_append_of_pos hs.solid]
  cases rest with
  | nil => simp
  | cons c rest =>
    have hc : isSolid c = false := by
      rcases hrest c rfl with rfl | rfl <;> rfl
    simp [hc]

/-- An unbroken text ends at the first blank or bracket. -/
theorem cut (hs : Unbroken s) (ht : Unbroken t) (hrest : Breaks rest) (hrest' : Breaks rest')
    (h : s.toList ++ rest = t.toList ++ rest') : s = t ∧ rest = rest' := by
  have htake := congrArg (List.takeWhile isSolid) h
  rw [hs.takeWhile_append hrest, ht.takeWhile_append hrest'] at htake
  obtain rfl := String.toList_inj.1 htake
  exact ⟨rfl, List.append_cancel_left h⟩

/-- An unbroken text does not start as a form in brackets does. -/
theorem ne_bracket (hs : Unbroken s) (h : s.toList ++ rest = '(' :: rest') : False := by
  obtain ⟨c, cs, hchars⟩ := List.exists_cons_of_ne_nil (mt String.toList_eq_nil_iff.1 hs.nonempty)
  rw [hchars] at h
  cases h
  have hsolid := hs.solid '(' (by rw [hchars]; exact List.mem_cons_self)
  cases hsolid

end Unbroken

/-! ## Reading a text -/

mutual

/-- The text of a form shows which form it is and where it ends. -/
theorem text_append : ∀ {f g : Form}, f.Readable → g.Readable → ∀ {rest rest' : List Char}, Breaks rest →
    Breaks rest' → f.text.toList ++ rest = g.text.toList ++ rest' → f = g ∧ rest = rest'
  | .word _, .word _, hf, hg, _, _, hrest, hrest', h => by
    obtain ⟨rfl, heq⟩ := hf.cut hg hrest hrest' h
    exact ⟨rfl, heq⟩
  | .word _, .node _ _, hf, _, _, _, _, _, h => by
    rw [toList_node] at h
    exact (hf.ne_bracket h).elim
  | .node _ _, .word _, _, hg, _, _, _, _, h => by
    rw [toList_node] at h
    exact (hg.ne_bracket h.symm).elim
  | .node head parts, .node head' parts', hf, hg, rest, rest', _, _, h => by
    simp only [toList_node, List.cons_append, List.append_assoc, List.cons.injEq, true_and] at h
    obtain ⟨rfl, hparts⟩ := hf.1.cut hg.1 (breaks_spaced parts rest) (breaks_spaced parts' rest') h
    obtain ⟨rfl, heq⟩ := spaced_append hf.2 hg.2 hparts
    exact ⟨rfl, heq⟩

theorem spaced_append : ∀ {fs gs : List Form}, ReadableAll fs → ReadableAll gs → ∀ {rest rest' : List Char},
    spaced fs ++ ')' :: rest = spaced gs ++ ')' :: rest' → fs = gs ∧ rest = rest'
  | [], [], _, _, _, _, h => ⟨rfl, List.tail_eq_of_cons_eq h⟩
  | [], _ :: _, _, _, _, _, h => by
    cases h
  | _ :: _, [], _, _, _, _, h => by
    cases h
  | f :: fs, g :: gs, hf, hg, rest, rest', h => by
    simp only [spaced, List.cons_append, List.append_assoc, List.cons.injEq, true_and] at h
    obtain ⟨rfl, hmore⟩ := text_append hf.1 hg.1 (breaks_spaced fs rest) (breaks_spaced gs rest') h
    obtain ⟨rfl, heq⟩ := spaced_append hf.2 hg.2 hmore
    exact ⟨rfl, heq⟩

end

/-- Different forms have different texts. -/
theorem text_injective {f g : Form} (hf : f.Readable) (hg : g.Readable) (h : f.text = g.text) : f = g := by
  refine (text_append hf hg breaks_nil breaks_nil ?_).1
  rw [h]

end Form

end Lox
