import Logo.Proofs.Coverage
import Logo.Proofs.Parts
import Logo.Proofs.Takes.Grammar
import Mathlib

/-! The places of nodes. In an accepted text the place of a node goes from the start of a token to the end of a token
and takes in the places of the nodes below it, and these stand one behind the other. Parentheses leave no node behind,
so a place need not reach as far as the tokens that spell the node; but it never leaves them. -/
namespace Logo

structure Successive (ts : List Token) : Prop where
  filled : ∀ t ∈ ts, t.span.start < t.span.stop
  apart : ts.Pairwise fun t u => t.span.stop ≤ u.span.start

theorem successive_tokensIn (source : String) : Successive (tokensIn source) where
  filled t ht := (cut_tokensIn source t ht).filled
  apart := pairwise_tokensIn source

namespace Successive
variable {t : Token} {ts us : List Token}

theorem sublist (h : Successive us) (hts : ts.Sublist us) : Successive ts :=
  ⟨fun t ht => h.filled t (hts.subset ht), h.apart.sublist hts⟩

theorem left (h : Successive (ts ++ us)) : Successive ts := h.sublist (List.sublist_append_left ts us)

theorem right (h : Successive (ts ++ us)) : Successive us := h.sublist (List.sublist_append_right ts us)

theorem tail (h : Successive (t :: ts)) : Successive ts := h.sublist (List.sublist_cons_self t ts)

/-- Nothing starts before the first token. -/
theorem start_le (h : Successive (t :: ts)) : ∀ u ∈ t :: ts, t.span.start ≤ u.span.start := by
  simp only [List.forall_mem_cons, Nat.le_refl, true_and]
  intro u hu
  have hfilled := h.filled t (by simp)
  have hapart := (List.pairwise_cons.mp h.apart).1 u hu
  omega

/-- Nothing ends behind the last token. -/
theorem stop_le (h : Successive ts) (s : Span) : ∀ u ∈ ts, u.span.stop ≤ (Token.lastSpan s ts).stop := by
  induction ts generalizing s with
  | nil => simp
  | cons t ts ih =>
    simp only [List.forall_mem_cons]
    refine ⟨?_, ih h.tail t.span⟩
    cases ts with
    | nil => exact Nat.le_refl _
    | cons u ts =>
      have hapart := (List.pairwise_cons.mp h.apart).1 u (by simp)
      have hfilled := h.filled u (by simp)
      have hlast := ih h.tail t.span u (by simp)
      have hsame : Token.lastSpan s (t :: u :: ts) = Token.lastSpan t.span (u :: ts) := rfl
      rw [hsame]
      omega

end Successive

structure Span.DelimitedBy (ts : List Token) (s : Span) : Prop where
  starts : ∃ t ∈ ts, s.start = t.span.start
  stops : ∃ t ∈ ts, s.stop = t.span.stop
  filled : s.start < s.stop

namespace Span.DelimitedBy
variable {s s' : Span} {t : Token} {ts us : List Token}

theorem token (ht : t ∈ ts) (hts : Successive ts) : t.span.DelimitedBy ts :=
  ⟨⟨t, ht, rfl⟩, ⟨t, ht, rfl⟩, hts.filled t ht⟩

theorem widen (h : s.DelimitedBy ts) (hsub : ts ⊆ us) : s.DelimitedBy us := by
  obtain ⟨⟨t, ht, hstart⟩, ⟨u, hu, hstop⟩, hfilled⟩ := h
  exact ⟨⟨t, hsub ht, hstart⟩, ⟨u, hsub hu, hstop⟩, hfilled⟩

theorem merge (h : s.DelimitedBy ts) (h' : s'.DelimitedBy ts) : (s.merge s').DelimitedBy ts := by
  have hfilled := h.filled
  have hfilled' := h'.filled
  constructor
  · rcases Nat.le_total s.start s'.start with hle | hle
    · simpa [Span.merge, Nat.min_eq_left hle] using h.starts
    · simpa [Span.merge, Nat.min_eq_right hle] using h'.starts
  · rcases Nat.le_total s.stop s'.stop with hle | hle
    · simpa [Span.merge, Nat.max_eq_right hle] using h'.stops
    · simpa [Span.merge, Nat.max_eq_left hle] using h.stops
  · simp only [Span.merge]
    omega

theorem last (hs : s.DelimitedBy us) (hts : ∀ t ∈ ts, t.span.DelimitedBy us) :
    (Token.lastSpan s ts).DelimitedBy us := by
  induction ts generalizing s with
  | nil => exact hs
  | cons t ts ih =>
    simp only [List.forall_mem_cons] at hts
    exact ih hts.1 hts.2

theorem cover (h : Successive (t :: ts)) : (t.cover ts).DelimitedBy (t :: ts) := by
  have htoken : ∀ u ∈ t :: ts, u.span.DelimitedBy (t :: ts) := fun u hu => token hu h
  simp only [List.forall_mem_cons] at htoken
  exact htoken.1.merge (htoken.1.last htoken.2)

/-- Places of tokens in front of others. -/
theorem before (h : s.DelimitedBy ts) (h' : s'.DelimitedBy us) (hall : Successive (ts ++ us)) : s.stop ≤ s'.start := by
  obtain ⟨t, ht, hstop⟩ := h.stops
  obtain ⟨u, hu, hstart⟩ := h'.starts
  rw [hstop, hstart]
  exact (List.pairwise_append.mp hall.apart).2.2 t ht u hu

/-- What goes from a token to the last of those behind it takes in all places among them. -/
theorem within_cover (h : s.DelimitedBy (t :: ts)) (hall : Successive (t :: ts)) :
    s.Within (t.cover ts).start (t.cover ts).stop := by
  have hfirst := hall.start_le
  have hlast := hall.tail.stop_le t.span
  obtain ⟨⟨u, hu, hstart⟩, ⟨v, hv, hstop⟩, hfilled⟩ := h
  have hu' := hfirst u hu
  have hv' : v.span.stop ≤ t.span.stop ∨ v.span.stop ≤ (Token.lastSpan t.span ts).stop := by
    rcases List.mem_cons.mp hv with rfl | hv
    · exact .inl (Nat.le_refl _)
    · exact .inr (hlast v hv)
  refine ⟨?_, Nat.le_of_lt hfilled, ?_⟩ <;> simp only [Token.cover, Span.merge] <;> omega

end Span.DelimitedBy

theorem Span.within_merge_left {s : Span} (h : s.start ≤ s.stop) (s' : Span) :
    s.Within (s.merge s').start (s.merge s').stop := ⟨Nat.min_le_left _ _, h, Nat.le_max_left _ _⟩

theorem Span.within_merge_right {s' : Span} (h : s'.start ≤ s'.stop) (s : Span) :
    s'.Within (s.merge s').start (s.merge s').stop := ⟨Nat.min_le_right _ _, h, Nat.le_max_right _ _⟩

variable {fits : String → Nat → Prop} {ts us : List Token}

/-- The place of a tree is delimited by the tokens that spell the tree. -/
theorem Spells.delimited {tree : Tree} (h : Spells fits ts tree) (hts : Successive ts) {s : Span}
    (hs : tree.span? = some s) : s.DelimitedBy ts := by
  induction h generalizing s with
  | noExprs | moreExprs | noStmts | moreStmts | block => simp [Tree.span?] at hs
  | number | query | stop =>
    simp only [Tree.span?, Expr.span, Stmt.span, Option.some.injEq] at hs
    exact hs ▸ .token (by simp) hts
  | parens _ _ _ ih => exact (ih hts.tail.left hs).widen (by simp)
  | expression _ _ ih => exact ih hts hs
  | binary _ _ _ ih ih' =>
    simp only [Tree.span?, Expr.join, Expr.span, Option.some.injEq] at hs
    exact hs ▸ ((ih hts.left rfl).widen (by simp)).merge ((ih' hts.right.tail rfl).widen (by simp))
  | unary _ _ ih =>
    simp only [Tree.span?, Expr.span, Option.some.injEq] at hs
    exact hs ▸ (Span.DelimitedBy.token (by simp) hts).merge ((ih hts.tail rfl).widen (by simp))
  | thing | list | operation | traverse | call | command | callStmt | loop | ifThen | whileTrue | ifElse | forEach
  | define | make | output | print | declare | declareAll =>
    simp only [Tree.span?, Expr.span, Stmt.span, Option.some.injEq] at hs
    exact hs ▸ .cover hts

structure Row (ts : List Token) (nodes : List Node) : Prop where
  delimited : ∀ a ∈ nodes, a.span.DelimitedBy ts
  apart : nodes.Pairwise fun a b => a.span.stop ≤ b.span.start

namespace Row
variable {as bs : List Node}

theorem nil : Row ts [] := ⟨by simp, .nil⟩

theorem single {a : Node} (h : Spells fits ts a.tree) (hts : Successive ts) : Row ts [a] where
  delimited := by
    have hs : a.tree.span? = some a.span := by cases a <;> rfl
    simpa using h.delimited hts hs
  apart := List.pairwise_singleton _ _

theorem widen (h : Row ts as) (hsub : ts ⊆ us) : Row us as := ⟨fun a ha => (h.delimited a ha).widen hsub, h.apart⟩

theorem append (h : Row ts as) (h' : Row us bs) (hall : Successive (ts ++ us)) : Row (ts ++ us) (as ++ bs) where
  delimited := by
    simp only [List.forall_mem_append]
    exact ⟨(h.widen (by simp)).delimited, (h'.widen (by simp)).delimited⟩
  apart := List.pairwise_append.mpr
    ⟨h.apart, h'.apart, fun a ha b hb => (h.delimited a ha).before (h'.delimited b hb) hall⟩

theorem behind (h : Row ts as) (us : List Token) : Row (us ++ ts) as := h.widen (by simp)

theorem cons (h : Row ts as) (t : Token) : Row (t :: ts) as := h.behind [t]

theorem ahead (h : Row ts as) (us : List Token) : Row (ts ++ us) as := h.widen (by simp)

end Row

/-- The nodes directly below a tree stand one behind the other. -/
theorem Spells.row {tree : Tree} (h : Spells fits ts tree) (hts : Successive ts) : Row ts tree.parts := by
  induction h with
  | number | thing | query | noExprs | noStmts | stop | declare | declareAll => exact .nil
  | parens _ _ _ ih | list _ _ _ ih | block _ _ _ ih => exact ((ih hts.tail.left).ahead _).cons _
  | binary _ hleft hright =>
    exact (Row.single (a := .expr _) hleft hts.left).append
      ((Row.single (a := .expr _) hright hts.right.tail).cons _) hts
  | unary _ he | output _ he | print _ he => exact (Row.single (a := .expr _) he hts.tail).cons _
  | operation _ _ _ _ ih | call _ _ _ ih | command _ _ _ _ _ ih | callStmt _ _ _ ih => exact (ih hts.tail).cons _
  | traverse _ _ _ he | make _ _ he => exact ((Row.single (a := .expr _) he hts.tail.right).behind _).cons _
  | moreExprs he _ _ ih => exact (Row.single (a := .expr _) he hts.left).append (ih hts.right) hts
  | moreStmts hs _ _ ih => exact (Row.single (a := .stmt _) hs hts.left).append (ih hts.right) hts
  | expression _ he => exact Row.single (a := .expr _) he hts
  | loop _ he _ _ ih | ifThen _ he _ _ ih | whileTrue _ he _ _ ih =>
    exact ((Row.single (a := .expr _) he hts.tail.left).append (ih hts.tail.right) hts.tail).cons _
  | ifElse _ he _ _ _ ih ih' =>
    have hblocks := (ih hts.tail.right.left).append (ih' hts.tail.right.right) hts.tail.right
    exact ((Row.single (a := .expr _) he hts.tail.left).append hblocks hts.tail).cons _
  | @forEach _ _ r _ _ _ _ _ _ _ _ _ _ _ _ _ _ ih ih' =>
    have hbody := (ih' hts.tail.tail.right.right.tail).cons r
    have hparts := (ih hts.tail.tail.right.left).append hbody hts.tail.tail.right
    exact ((hparts.behind _).cons _).cons _
  | define _ _ _ _ _ _ ih => exact ((((ih hts.tail.tail.right.left).ahead _).behind _).cons _).cons _

/-- The place of a tree takes in the places of the nodes directly below it. -/
theorem Spells.encloses {tree : Tree} (h : Spells fits ts tree) (hts : Successive ts) {s : Span}
    (hs : tree.span? = some s) : ∀ b ∈ tree.parts, b.span.Within s.start s.stop := by
  have hrow := h.row hts
  induction h generalizing s with
  | noExprs | moreExprs | noStmts | moreStmts | block => simp [Tree.span?] at hs
  | number | query | stop => simp [Tree.parts, Node.children]
  | parens _ _ hspells ih => exact ih hts.tail.left hs (hspells.row hts.tail.left)
  | expression _ he =>
    simp only [Tree.span?, Stmt.span, Option.some.injEq] at hs
    subst hs
    have hfilled := (he.delimited hts rfl).filled
    simp only [Tree.parts, Node.children, List.mem_singleton, forall_eq]
    exact ⟨Nat.le_refl _, Nat.le_of_lt hfilled, Nat.le_refl _⟩
  | binary _ hleft hright =>
    simp only [Tree.span?, Expr.join, Expr.span, Option.some.injEq] at hs
    subst hs
    have hl := Nat.le_of_lt (hleft.delimited hts.left rfl).filled
    have hr := Nat.le_of_lt (hright.delimited hts.right.tail rfl).filled
    simp only [Tree.parts, Expr.join, Node.children, List.forall_mem_cons]
    exact ⟨Span.within_merge_left hl _, Span.within_merge_right hr _, by simp⟩
  | unary _ he =>
    simp only [Tree.span?, Expr.span, Option.some.injEq] at hs
    subst hs
    have hoperand := Nat.le_of_lt (he.delimited hts.tail rfl).filled
    simp only [Tree.parts, Node.children, List.forall_mem_cons]
    exact ⟨Span.within_merge_right hoperand _, by simp⟩
  | thing | list | operation | traverse | call | command | callStmt | loop | ifThen | whileTrue | ifElse | forEach
  | define | make | output | print | declare | declareAll =>
    simp only [Tree.span?, Expr.span, Stmt.span, Option.some.injEq] at hs
    exact fun b hb => hs ▸ (hrow.delimited b hb).within_cover hts

/-- The node stands in a text with the given tokens and size, with the nodes below it inside of it in their order. -/
structure Node.Placed (tokens : List Token) (size : Nat) (a : Node) : Prop where
  delimited : a.span.DelimitedBy tokens
  inside : a.span.stop ≤ size
  encloses : ∀ b ∈ a.children, b.span.Within a.span.start a.span.stop
  apart : a.children.Pairwise fun b c => b.span.stop ≤ c.span.start

theorem Part.placed {a : Node} {size : Nat} (h : Part fits ts a) (hts : Successive ts)
    (hsize : ∀ t ∈ ts, t.span.stop ≤ size) : a.Placed ts size := by
  obtain ⟨us, hus, hspells⟩ := h
  have hsuccessive := hts.sublist hus.sublist
  have hspan : a.tree.span? = some a.span := by cases a <;> rfl
  have hparts : a.tree.parts = a.children := by cases a <;> rfl
  have hdelimited := (hspells.delimited hsuccessive hspan).widen hus.subset
  refine ⟨hdelimited, ?_, hparts ▸ hspells.encloses hsuccessive hspan, hparts ▸ (hspells.row hsuccessive).apart⟩
  obtain ⟨t, ht, hstop⟩ := hdelimited.stops
  exact hstop ▸ hsize t ht

/-- In an accepted text every node of the program has a place that is not empty, goes from the start of a token to the
end of a token and takes in the places of the nodes below it, which do not overlap and come in their order. The same
holds of the statements of the program. -/
theorem spans_nested_and_ordered {source : String} {seed : List (String × Nat)} {p : Program} {r : Reader}
    (h : readProgram (tokenize source) seed = .ok p r) :
    (∀ s ∈ p, ∀ a, (Node.stmt s).Contains a → a.Placed (tokensIn source) source.utf8ByteSize) ∧
      p.Pairwise fun s s' => s.span.stop ≤ s'.span.start ∧ s.span.start < s'.span.start := by
  have hspells := spells_of_readProgram (Reader.start_behind_free source seed) h
  have htokens := successive_tokensIn source
  constructor
  · intro s hs a ha
    exact (hspells.program_contains hs ha).placed htokens fun t ht => ((tokenize_eq source).2 t ht).2.below
  · have hrow := hspells.row htokens
    have hstmts : p.Pairwise fun s s' => s.span.stop ≤ s'.span.start := List.pairwise_map.mp hrow.apart
    refine hstmts.imp_of_mem fun {s s'} hs _ hapart => ?_
    have hfilled := (hrow.delimited (.stmt s) (List.mem_map_of_mem hs)).filled
    exact ⟨hapart, Nat.lt_of_lt_of_le hfilled hapart⟩

set_option maxRecDepth 4096 in
/-- The product starts behind the parenthesis, where its first factor starts. -/
theorem spans_nested_and_ordered_parens : ∃ p r, readProgram (tokenize "PRINT (:a + :b) * :c HOME") [] = .ok p r ∧
    p.map Stmt.span = [⟨0, 20⟩, ⟨21, 25⟩] ∧
    (∀ s ∈ p, ∀ a, (Node.stmt s).Contains a → a.Placed (tokensIn "PRINT (:a + :b) * :c HOME") 25) ∧
      p.Pairwise fun s s' => s.span.stop ≤ s'.span.start ∧ s.span.start < s'.span.start := by
  have h : readProgram (tokenize "PRINT (:a + :b) * :c HOME") [] = .ok
      [.print ⟨0, 20⟩ (.binary ⟨7, 20⟩ .mul
        (.binary ⟨7, 14⟩ .add (.thing ⟨7, 9⟩ "a") (.thing ⟨12, 14⟩ "b")) (.thing ⟨18, 20⟩ "c")),
        .command ⟨21, 25⟩ .home []]
      ⟨[], .finishAt 25, ⟨21, 25⟩, {}⟩ := by cbv
  exact ⟨_, _, h, rfl, spans_nested_and_ordered h⟩

end Logo
