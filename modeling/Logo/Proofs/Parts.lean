import Logo.Proofs.Places
import Logo.Proofs.Region
import Logo.Proofs.Steady

/-! The parts of what is spelled. Every node of a tree is spelled by some of the tokens that spell the tree, next to
each other, and its place goes from one of these tokens to another. -/
namespace Logo

def Node.tree : Node → Tree
  | .expr e => .expr e
  | .stmt s => .stmt s

def Tree.parts : Tree → List Node
  | expr e => (Node.expr e).children
  | exprs es => es.map .expr
  | stmt s => (Node.stmt s).children
  | stmts body | block body => body.map .stmt

def Part (fits : String → Nat → Prop) (ts : List Token) (a : Node) : Prop :=
  ∃ us, us <:+: ts ∧ Spells fits us a.tree

variable {fits : String → Nat → Prop} {ts us : List Token}

namespace Part
variable {a : Node} {e : Expr}

theorem whole (h : Spells fits ts a.tree) : Part fits ts a := ⟨ts, List.infix_refl ts, h⟩

theorem expr (h : Spells fits ts (.expr e)) : Part fits ts (.expr e) := whole h

theorem stmt {s : Stmt} (h : Spells fits ts (.stmt s)) : Part fits ts (.stmt s) := whole h

theorem widen (h : Part fits ts a) (hts : ts <:+: us) : Part fits us a := by
  obtain ⟨vs, hvs, hspells⟩ := h
  exact ⟨vs, hvs.trans hts, hspells⟩

theorem before (h : Part fits ts a) (us : List Token) : Part fits (ts ++ us) a :=
  h.widen (List.prefix_append ts us).isInfix

theorem behind (h : Part fits ts a) (us : List Token) : Part fits (us ++ ts) a :=
  h.widen (List.suffix_append us ts).isInfix

theorem cons (h : Part fits ts a) (t : Token) : Part fits (t :: ts) a := h.behind [t]

end Part

/-- The nodes directly below a tree are parts of what spells it. -/
theorem Spells.parts {tree : Tree} (h : Spells fits ts tree) : ∀ a ∈ tree.parts, Part fits ts a := by
  induction h with
  | number | thing | query | noExprs | noStmts | stop | declare | declareAll => simp [Tree.parts, Node.children]
  | parens _ _ _ ih | list _ _ _ ih | block _ _ _ ih => exact fun a ha => ((ih a ha).before _).cons _
  | binary _ hleft hright =>
    simp only [Tree.parts, Expr.join, Node.children, List.forall_mem_cons]
    exact ⟨(Part.expr hleft).before _, ((Part.expr hright).cons _).behind _, by simp⟩
  | unary _ he =>
    simp only [Tree.parts, Node.children, List.forall_mem_cons]
    exact ⟨(Part.expr he).cons _, by simp⟩
  | operation _ _ _ _ ih | call _ _ _ ih | command _ _ _ _ _ ih | callStmt _ _ _ ih =>
    exact fun a ha => (ih a ha).cons _
  | traverse _ _ _ he =>
    simp only [Tree.parts, Node.children, List.forall_mem_cons]
    exact ⟨((Part.expr he).behind _).cons _, by simp⟩
  | moreExprs he _ _ ih =>
    simp only [Tree.parts, List.map_cons, List.forall_mem_cons]
    exact ⟨(Part.expr he).before _, fun a ha => (ih a ha).behind _⟩
  | moreStmts hs _ _ ih =>
    simp only [Tree.parts, List.map_cons, List.forall_mem_cons]
    exact ⟨(Part.stmt hs).before _, fun a ha => (ih a ha).behind _⟩
  | expression _ he =>
    simp only [Tree.parts, Node.children, List.forall_mem_cons]
    exact ⟨Part.expr he, by simp⟩
  | loop _ he _ _ ih | ifThen _ he _ _ ih | whileTrue _ he _ _ ih =>
    simp only [Tree.parts, Node.children, List.forall_mem_cons]
    exact ⟨((Part.expr he).before _).cons _, fun a ha => ((ih a ha).behind _).cons _⟩
  | ifElse _ he _ _ _ ih ih' =>
    simp only [Tree.parts, Node.children, List.forall_mem_cons, List.forall_mem_append]
    exact ⟨((Part.expr he).before _).cons _, fun a ha => (((ih a ha).before _).behind _).cons _,
      fun a ha => (((ih' a ha).behind _).behind _).cons _⟩
  | forEach _ _ _ _ _ _ ih ih' =>
    simp only [Tree.parts, List.map_cons, List.forall_mem_cons] at ih
    obtain ⟨hlow, hhigh, hstep⟩ := ih
    simp only [Tree.parts, Node.children, List.forall_mem_cons, List.forall_mem_append]
    exact ⟨(((hlow.before _).behind _).cons _).cons _, (((hhigh.before _).behind _).cons _).cons _,
      fun a ha => ((((hstep a ha).before _).behind _).cons _).cons _,
      fun a ha => (((((ih' a ha).cons _).behind _).behind _).cons _).cons _⟩
  | define _ _ _ _ _ _ ih => exact fun a ha => ((((ih a ha).before _).behind _).cons _).cons _
  | make _ _ he =>
    simp only [Tree.parts, Node.children, List.forall_mem_cons]
    exact ⟨((Part.expr he).behind _).cons _, by simp⟩
  | output _ he | print _ he =>
    simp only [Tree.parts, Node.children, List.forall_mem_cons]
    exact ⟨(Part.expr he).cons _, by simp⟩

/-- All nodes of a tree are parts of what spells it. -/
theorem Spells.contains {a b : Node} (h : Spells fits ts a.tree) (hb : a.Contains b) : Part fits ts b := by
  induction hb with
  | refl => exact .whole h
  | @tail c d _ hd ih =>
    obtain ⟨us, hus, hspells⟩ := ih
    refine Part.widen (hspells.parts d ?_) hus
    cases c <;> exact hd

/-- All nodes of a program are parts of what spells it. -/
theorem Spells.program_contains {p : Program} (h : Spells fits ts (.stmts p)) {s : Stmt} (hs : s ∈ p) {b : Node}
    (hb : (Node.stmt s).Contains b) : Part fits ts b := by
  obtain ⟨us, hus, hstmt⟩ := h.parts (.stmt s) (List.mem_map_of_mem hs)
  exact (hstmt.contains hb).widen hus

section
variable {low high : Nat}

theorem Span.Within.merge {s s' : Span} (h : s.Within low high) (h' : s'.Within low high) :
    (s.merge s').Within low high := by
  obtain ⟨habove, hordered, hbelow⟩ := h
  obtain ⟨habove', hordered', hbelow'⟩ := h'
  constructor <;> simp only [Span.merge] <;> omega

theorem Token.lastSpan_within {s : Span} (hs : s.Within low high) (h : ∀ t ∈ ts, t.span.Within low high) :
    (lastSpan s ts).Within low high := by
  induction ts generalizing s with
  | nil => exact hs
  | cons t ts ih =>
    simp only [List.forall_mem_cons] at h
    exact ih h.1 h.2

theorem Token.cover_within {t : Token} (h : ∀ u ∈ t :: ts, u.span.Within low high) : (t.cover ts).Within low high := by
  simp only [List.forall_mem_cons] at h
  exact h.1.merge (lastSpan_within h.1 h.2)

def Tree.span? : Tree → Option Span
  | expr e => some e.span
  | stmt s => some s.span
  | exprs _ | stmts _ | block _ => none

/-- The place of a tree lies where the tokens that spell it lie. -/
theorem Spells.span_within {tree : Tree} (h : Spells fits ts tree) (hall : ∀ t ∈ ts, t.span.Within low high) {s : Span}
    (hs : tree.span? = some s) : s.Within low high := by
  induction h generalizing s with
  | noExprs | moreExprs | noStmts | moreStmts | block => simp [Tree.span?] at hs
  | number | query | stop =>
    simp only [Tree.span?, Expr.span, Stmt.span, Option.some.injEq] at hs
    exact hs ▸ hall _ (by simp)
  | parens _ _ _ ih => exact ih (fun t ht => hall t (by simp [ht])) hs
  | expression _ _ ih => exact ih hall hs
  | binary _ _ _ ih ih' =>
    simp only [Tree.span?, Expr.join, Expr.span, Option.some.injEq] at hs
    exact hs ▸ (ih (fun t ht => hall t (by simp [ht])) rfl).merge (ih' (fun t ht => hall t (by simp [ht])) rfl)
  | unary _ _ ih =>
    simp only [Tree.span?, Expr.span, Option.some.injEq] at hs
    exact hs ▸ (hall _ (by simp)).merge (ih (fun t ht => hall t (by simp [ht])) rfl)
  | thing | list | operation | traverse | call | command | callStmt | loop | ifThen | whileTrue | ifElse | forEach
  | define | make | output | print | declare | declareAll =>
    simp only [Tree.span?, Expr.span, Stmt.span, Option.some.injEq] at hs
    exact hs ▸ Token.cover_within hall

end
end Logo
