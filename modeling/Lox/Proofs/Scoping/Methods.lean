import Lox.Proofs.Execution.Changes
import Lox.Proofs.Scoping.Resolution

/-!
# Inside methods

Scopes come from blocks, functions and methods, and none of them but those of a class declares `this` or
`super` (`Scopes.Nests`). So where `this` is found it belongs to a method of a class, whose body is the scope
one nearer; and `super`, if it is found one scope beyond, is that of the class: `Stmt.inClass_of_places`.
-/

namespace Lox

/-! ## Scopes around a node -/

/-- Scopes of blocks, functions and methods of the given classes, with names of their own. -/
inductive Scopes.Nests (K : Stmt ν → Prop) : Scopes ν → Prop
  | top : Nests K []
  | block : (∀ x ∈ names, Plain x) → Nests K scopes → Nests K (⟨.block body, names⟩ :: scopes)
  | function : (∀ x ∈ names, Plain x) → Nests K scopes → Nests K (⟨.function f, names⟩ :: scopes)
  | method : (∀ x ∈ names, Plain x) → K (.classDecl x parent methods) → Plain x.lexeme → f ∈ methods →
      Nests K scopes →
      Nests K (⟨.function f, names⟩ :: .ofReceiver f :: scopes.ofClass x.lexeme parent.isSome methods)

/-- The scopes are those in the body of a method: so many scopes out begins the body, with the scope of `this`
around it. The scopes before are those of blocks and functions in the body. -/
def Scopes.InMethod (scopes : Scopes ν) (depth : Nat) (f : FunDecl (Stmt ν)) : Prop :=
  ∃ (inner : Scopes ν) (names : List String) (outer : Scopes ν), inner.length = depth ∧
    (∀ s ∈ inner, ∀ x ∈ s.names, Plain x) ∧ scopes = inner ++ ⟨.function f, names⟩ :: .ofReceiver f :: outer

/-- So many scopes out is the `this` of a method of a class, and the `super` of the class, if it is found, one
scope beyond. -/
def Scopes.InClass (K : Stmt ν → Prop) (scopes : Scopes ν) (distance : Nat) : Prop :=
  ∃ depth x parent methods f, distance = depth + 1 ∧ K (.classDecl x parent methods) ∧ f ∈ methods ∧
    scopes.InMethod depth f ∧
    (scopes.distance? "super" = some (distance + 1) → scopes[distance + 1]? = some (.ofParent methods))

namespace Scopes

variable {K : Stmt ν → Prop} {scopes : Scopes ν} {f : FunDecl (Stmt ν)} {i j : Nat}

theorem Nests.declare (h : Nests K scopes) {y : String} (hy : Plain y) : Nests K (scopes.declare y) := by
  have hnames : ∀ {names : List String}, (∀ x ∈ names, Plain x) → ∀ x ∈ y :: names, Plain x := by
    intro names hn x hx
    rcases List.mem_cons.1 hx with rfl | hx
    · exact hy
    · exact hn x hx
  cases h with
  | top => exact .top
  | block hn h => exact .block (hnames hn) h
  | function hn h => exact .function (hnames hn) h
  | method hn hk hx hf h => exact .method (hnames hn) hk hx hf h

/-- No scope around a node but that of a superclass begins with `super`. -/
theorem Nests.head (h : Nests K scopes) {s : LexicalScope ν} (hs : s ∈ scopes.head?) : "super" ∉ s.names := by
  cases h with
  | top => cases hs
  | block hn | function hn | method hn =>
    cases hs
    exact fun hmem => (hn _ hmem).2 rfl

theorem getElem?_of_distance? {y : String} {i : Nat} (h : scopes.distance? y = some i) :
    ∃ s, scopes[i]? = some s ∧ y ∈ s.names := by
  obtain ⟨hlt, hmem, _⟩ := List.findIdx?_eq_some_iff_getElem.1 h
  exact ⟨scopes[i], List.getElem?_eq_getElem hlt, of_decide_eq_true hmem⟩

namespace InMethod

theorem body (h : scopes.InMethod j f) : ∃ s, scopes[j]? = some s ∧ s.site = .function f := by
  obtain ⟨inner, names, outer, rfl, _, rfl⟩ := h
  exact ⟨⟨.function f, names⟩, by simp, rfl⟩

theorem receiver (h : scopes.InMethod j f) : scopes[j + 1]? = some (.ofReceiver f) := by
  obtain ⟨inner, names, outer, rfl, _, rfl⟩ := h
  simp

theorem push (h : scopes.InMethod j f) {s : LexicalScope ν} (hs : ∀ x ∈ s.names, Plain x) :
    InMethod (s :: scopes) (j + 1) f := by
  obtain ⟨inner, names, outer, rfl, hinner, rfl⟩ := h
  refine ⟨s :: inner, names, outer, rfl, ?_, rfl⟩
  intro t ht
  rcases List.mem_cons.1 ht with rfl | ht
  · exact hs
  · exact hinner t ht

end InMethod

/-- A further scope with names of its own. -/
theorem InClass.push (h : scopes.InClass K i) {s : LexicalScope ν} (hs : ∀ x ∈ s.names, Plain x) :
    InClass K (s :: scopes) (i + 1) := by
  obtain ⟨j, x, p, methods, f, rfl, hk, hf, hin, hsuper⟩ := h
  refine ⟨j + 1, x, p, methods, f, rfl, hk, hf, hin.push hs, fun hd => ?_⟩
  rw [distance?_cons, if_neg fun hmem => (hs _ hmem).2 rfl] at hd
  obtain ⟨k, hk, hkeq⟩ := Option.map_eq_some_iff.1 hd
  obtain rfl := Nat.succ.inj hkeq
  exact hsuper hk

/-- Where `this` is found, a method of a class lies around the node. -/
theorem Nests.inClass (h : Nests K scopes) (hi : scopes.distance? "this" = some i) : scopes.InClass K i := by
  have hpush : ∀ {scopes : Scopes ν} {s : LexicalScope ν} {i : Nat}, (∀ x ∈ s.names, Plain x) →
      (∀ {i}, scopes.distance? "this" = some i → scopes.InClass K i) →
      distance? (s :: scopes) "this" = some i → InClass K (s :: scopes) i := by
    intro scopes s i hs ih hi
    rw [distance?_cons, if_neg fun hmem => (hs _ hmem).1 rfl] at hi
    obtain ⟨k, hk, rfl⟩ := Option.map_eq_some_iff.1 hi
    exact (ih hk).push hs
  induction h generalizing i with
  | top => cases hi
  | block hn _ ih => exact hpush hn ih hi
  | function hn _ ih => exact hpush hn ih hi
  | @method names x parent _ f scopes hn hk hx hf h _ =>
    rw [distance?_cons, if_neg fun hmem => (hn _ hmem).1 rfl] at hi
    obtain rfl : i = 1 := by
      simpa [distance?_cons, LexicalScope.ofReceiver, eq_comm] using hi
    refine ⟨0, _, _, _, _, rfl, hk, hf, ⟨[], _, _, rfl, by simp, rfl⟩, fun hd => ?_⟩
    cases parent with
    | some e => rfl
    | none =>
      -- the scope would be one that a class without a superclass stands in
      obtain ⟨s, hs, hmem⟩ := getElem?_of_distance? hd
      have hhead : s ∈ (scopes.declare x.lexeme).head? := by
        simpa [ofClass, List.head?_eq_getElem?] using hs
      exact absurd hmem ((h.declare hx).head hhead)

end Scopes

/-! ## The scopes of places -/

mutual

theorem Expr.scopes_of_places (scopes : Scopes ν) (pending : Option String) : ∀ e : Expr ν,
    ∀ p ∈ e.places scopes pending, p.scopes = scopes
  | .assign k x e, p, hp => by
    rcases List.mem_append.1 hp with hp | hp
    · exact e.scopes_of_places scopes pending p hp
    · rw [List.mem_singleton.1 hp]
  | .binary l _ r, p, hp => by
    rcases List.mem_append.1 hp with hp | hp
    · exact l.scopes_of_places scopes pending p hp
    · exact r.scopes_of_places scopes pending p hp
  | .call f _ args, p, hp => by
    rcases List.mem_append.1 hp with hp | hp
    · exact f.scopes_of_places scopes pending p hp
    · exact Expr.scopes_of_placesAll scopes pending args p hp
  | .get o _, p, hp => o.scopes_of_places scopes pending p hp
  | .grouping e, p, hp => e.scopes_of_places scopes pending p hp
  | .literal _, _, hp => nomatch hp
  | .logical l _ r, p, hp => by
    rcases List.mem_append.1 hp with hp | hp
    · exact l.scopes_of_places scopes pending p hp
    · exact r.scopes_of_places scopes pending p hp
  | .set o _ e, p, hp => by
    rcases List.mem_append.1 hp with hp | hp
    · exact o.scopes_of_places scopes pending p hp
    · exact e.scopes_of_places scopes pending p hp
  | .superRef _ _ _, p, hp => by rw [List.mem_singleton.1 hp]
  | .thisRef _ _, p, hp => by rw [List.mem_singleton.1 hp]
  | .unary _ e, p, hp => e.scopes_of_places scopes pending p hp
  | .variable _ _, p, hp => by rw [List.mem_singleton.1 hp]

theorem Expr.scopes_of_placesAll (scopes : Scopes ν) (pending : Option String) : ∀ es : List (Expr ν),
    ∀ p ∈ Expr.placesAll scopes pending es, p.scopes = scopes
  | e :: es, p, hp => by
    rcases List.mem_append.1 hp with hp | hp
    · exact e.scopes_of_places scopes pending p hp
    · exact Expr.scopes_of_placesAll scopes pending es p hp

end

theorem Expr.scopes_of_placesOpt (scopes : Scopes ν) (pending : Option String) {e : Option (Expr ν)} {p : Place ν}
    (hp : p ∈ Expr.placesOpt scopes pending e) : p.scopes = scopes := by
  cases e with
  | none => cases hp
  | some e => exact e.scopes_of_places scopes pending p hp

section
variable {C : Code ν}

theorem Code.name_of_declares? {s : Stmt ν} (hs : C.stmt s) {x : String} (hx : s.declares? = some x) :
    C.name x := by
  cases s with
  | classDecl => cases hx; exact (C.classDecl hs).1
  | function => cases hx; exact (C.function hs).1
  | varDecl => cases hx; exact (C.varDecl hs).1
  | _ => cases hx

theorem Scopes.Nests.after (hname : ∀ x, C.name x → Plain x) {scopes : Scopes ν} (h : Nests C.stmt scopes)
    {s : Stmt ν} (hs : C.stmt s) : Nests C.stmt (s.after scopes) := by
  unfold Stmt.after
  cases hx : s.declares? with
  | none => exact h
  | some x => exact h.declare (hname x (C.name_of_declares? hs hx))

theorem Scopes.plain_of_params (hname : ∀ x, C.name x → Plain x) {f : FunDecl (Stmt ν)} (hf : C.decl f) :
    ∀ x ∈ (LexicalScope.ofFunction f).names, Plain x := by
  intro x hx
  obtain ⟨p, hp, rfl⟩ := List.mem_map.1 (List.mem_reverse.1 hx)
  exact hname _ (hf.1 p hp)

mutual

theorem Stmt.nests_of_places (hname : ∀ x, C.name x → Plain x) (scopes : Scopes ν) : ∀ s : Stmt ν,
    C.stmt s → scopes.Nests C.stmt → ∀ p ∈ s.places scopes, p.scopes.Nests C.stmt
  | .block body, hs, hn, p, hp =>
    Stmt.nests_of_placesAll hname _ body (C.block hs) (.block (by simp) hn) p hp
  | .classDecl x parent methods, hs, hn, p, hp => by
    obtain ⟨hx, _, hmethods⟩ := C.classDecl hs
    rcases List.mem_append.1 hp with hp | hp
    · rwa [Expr.scopes_of_placesOpt _ _ hp]
    · refine Stmt.nests_of_placesMethods hname _ methods (fun f hf => hmethods f hf) (fun f hf => ?_) p hp
      exact .method (Scopes.plain_of_params hname (hmethods f hf)) hs (hname _ hx) hf hn
  | .expression e, _, hn, p, hp => by rwa [e.scopes_of_places _ _ p hp]
  | .function f, hs, hn, p, hp => by
    obtain ⟨hx, hf⟩ := C.function hs
    have hdeclared := hn.declare (hname _ hx)
    exact Stmt.nests_of_placesFun hname _ f hf (.function (Scopes.plain_of_params hname hf) hdeclared) p hp
  | .conditional c s t, hs, hn, p, hp => by
    obtain ⟨_, hthen, helse⟩ := C.conditional hs
    rcases List.mem_append.1 hp with hp | hp
    · rcases List.mem_append.1 hp with hp | hp
      · rwa [c.scopes_of_places _ _ p hp]
      · exact s.nests_of_places hname scopes hthen hn p hp
    · exact Stmt.nests_of_placesOpt hname scopes t helse hn p hp
  | .print _ e, _, hn, p, hp => by rwa [e.scopes_of_places _ _ p hp]
  | .returning _ e, _, hn, p, hp => by rwa [Expr.scopes_of_placesOpt _ _ hp]
  | .varDecl x e, _, hn, p, hp => by rwa [Expr.scopes_of_placesOpt _ _ hp]
  | .loop c s, hs, hn, p, hp => by
    rcases List.mem_append.1 hp with hp | hp
    · rwa [c.scopes_of_places _ _ p hp]
    · exact s.nests_of_places hname scopes (C.loop hs).2 hn p hp

theorem Stmt.nests_of_placesAll (hname : ∀ x, C.name x → Plain x) (scopes : Scopes ν) : ∀ ss : List (Stmt ν),
    (∀ s ∈ ss, C.stmt s) → scopes.Nests C.stmt → ∀ p ∈ Stmt.placesAll scopes ss, p.scopes.Nests C.stmt
  | [], _, _, _, hp => nomatch hp
  | s :: ss, hss, hn, p, hp => by
    have hs := hss s List.mem_cons_self
    rcases List.mem_append.1 hp with hp | hp
    · exact s.nests_of_places hname scopes hs hn p hp
    · exact Stmt.nests_of_placesAll hname _ ss (fun t ht => hss t (List.mem_cons_of_mem _ ht))
        (hn.after hname hs) p hp

theorem Stmt.nests_of_placesOpt (hname : ∀ x, C.name x → Plain x) (scopes : Scopes ν) : ∀ s : Option (Stmt ν),
    (∀ t ∈ s, C.stmt t) → scopes.Nests C.stmt → ∀ p ∈ Stmt.placesOpt scopes s, p.scopes.Nests C.stmt
  | none, _, _, _, hp => nomatch hp
  | some s, hs, hn, p, hp => s.nests_of_places hname scopes (hs s rfl) hn p hp

theorem Stmt.nests_of_placesFun (hname : ∀ x, C.name x → Plain x) (scopes : Scopes ν) : ∀ f : FunDecl (Stmt ν),
    C.decl f → Scopes.Nests C.stmt (.ofFunction f :: scopes) →
      ∀ p ∈ Stmt.placesFun scopes f, p.scopes.Nests C.stmt
  | ⟨_, _, body⟩, hf, hn, p, hp => Stmt.nests_of_placesAll hname _ body hf.2 hn p hp

theorem Stmt.nests_of_placesMethods (hname : ∀ x, C.name x → Plain x) (scopes : Scopes ν) :
    ∀ ms : List (FunDecl (Stmt ν)), (∀ f ∈ ms, C.decl f) →
      (∀ f ∈ ms, Scopes.Nests C.stmt (.ofFunction f :: .ofReceiver f :: scopes)) →
      ∀ p ∈ Stmt.placesMethods scopes ms, p.scopes.Nests C.stmt
  | [], _, _, _, hp => nomatch hp
  | m :: ms, hms, hn, p, hp => by
    rcases List.mem_append.1 hp with hp | hp
    · exact Stmt.nests_of_placesFun hname _ m (hms m List.mem_cons_self) (hn m List.mem_cons_self) p hp
    · exact Stmt.nests_of_placesMethods hname scopes ms (fun f hf => hms f (List.mem_cons_of_mem _ hf))
        (fun f hf => hn f (List.mem_cons_of_mem _ hf)) p hp

end

end

end Lox
