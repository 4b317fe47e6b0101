import Logo.Proofs.Follows
import Logo.Session
import Mathlib

/-! Changes of a program that do not touch its meaning: other places of its nodes, other spellings of its names. A
renaming acts on tokens, trees and faults, and relates readers and machines, whose tables count only by what is found
in them. That reading and running go along with it is shown in the modules on the grammar and on evaluation. -/
namespace Logo

theorem fold_eq (s : String) : fold s = String.ofList (s.toList.map Char.toUpper) := by
  apply String.toList_injective
  rw [fold, String.toUpper, String.toList_map, String.toList_ofList]

theorem fold_fold (s : String) : fold (fold s) = fold s := by
  rw [fold_eq (fold s), fold_eq s, String.toList_ofList, List.map_map]
  exact congrArg String.ofList (List.map_congr_left fun c _ => Char.toUpper_toUpper_eq_toUpper c)

/-! The names of built-in words are spelled in upper case. -/

theorem Operation.fold_name (op : Operation) : fold op.name = op.name := by
  rw [fold_eq]
  cases op <;> decide

theorem Traversal.fold_name (t : Traversal) : fold t.name = t.name := by
  rw [fold_eq]
  cases t <;> decide

theorem Query.fold_name (q : Query) : fold q.name = q.name := by
  rw [fold_eq]
  cases q <;> decide

theorem Command.fold_name (c : Command) : fold c.name = c.name := by
  rw [fold_eq]
  cases c <;> decide

theorem Keyword.fold_name (k : Keyword) : fold k.name = k.name := by
  rw [fold_eq]
  cases k <;> decide

theorem BinaryOp.fold_sign (op : BinaryOp) : fold op.sign = op.sign := by
  rw [fold_eq]
  cases op <;> decide

theorem UnaryOp.fold_sign (op : UnaryOp) : fold op.sign = op.sign := by
  rw [fold_eq]
  cases op <;> decide

/-- A change of spans that goes along with merging, and a change of spellings that case folding does not see. The
spellings of built-in words stay. -/
structure Renaming where
  span : Span → Span
  name : String → String
  description : String → String
  span_merge : ∀ s t, span (s.merge t) = (span s).merge (span t)
  fold_name : ∀ s, fold (name s) = fold s
  name_folded : ∀ s, fold s = s → name s = s
  description_finish : description "end of input" = "end of input"
  description_text : ∀ s, description ("`" ++ s ++ "`") = "`" ++ name s ++ "`"

variable (ρ : Renaming)

def Token.rename (t : Token) : Token := ⟨t.kind, ρ.name t.text, ρ.span t.span⟩

mutual

def Expr.rename : Expr → Expr
  | .number span value => .number (ρ.span span) value
  | .list span items => .list (ρ.span span) (Expr.renameAll items)
  | .thing span name => .thing (ρ.span span) (ρ.name name)
  | .binary span op left right => .binary (ρ.span span) op left.rename right.rename
  | .unary span op operand => .unary (ρ.span span) op operand.rename
  | .operation span op args => .operation (ρ.span span) op (Expr.renameAll args)
  | .traverse span t procedure items => .traverse (ρ.span span) t (ρ.name procedure) items.rename
  | .query span q => .query (ρ.span span) q
  | .call span name args => .call (ρ.span span) (ρ.name name) (Expr.renameAll args)

def Expr.renameAll : List Expr → List Expr
  | [] => []
  | e :: rest => e.rename :: Expr.renameAll rest

end

@[simp] theorem Expr.renameAll_eq_map (es : List Expr) : Expr.renameAll ρ es = es.map (Expr.rename ρ) := by
  induction es with
  | nil => rfl
  | cons e rest ih => rw [renameAll, ih, List.map_cons]

mutual

def Stmt.rename : Stmt → Stmt
  | .command span c args => .command (ρ.span span) c (args.map (Expr.rename ρ))
  | .call span name args => .call (ρ.span span) (ρ.name name) (args.map (Expr.rename ρ))
  | .expression e => .expression (e.rename ρ)
  | .loop span count body => .loop (ρ.span span) (count.rename ρ) (Stmt.renameAll body)
  | .ifThen span cond body => .ifThen (ρ.span span) (cond.rename ρ) (Stmt.renameAll body)
  | .ifElse span cond yes no => .ifElse (ρ.span span) (cond.rename ρ) (Stmt.renameAll yes) (Stmt.renameAll no)
  | .whileTrue span cond body => .whileTrue (ρ.span span) (cond.rename ρ) (Stmt.renameAll body)
  | .forEach span var low high step? body =>
    .forEach (ρ.span span) (ρ.name var) (low.rename ρ) (high.rename ρ) (step?.map (Expr.rename ρ))
      (Stmt.renameAll body)
  | .define span name params body => .define (ρ.span span) (ρ.name name) (params.map ρ.name) (Stmt.renameAll body)
  | .make span name value => .make (ρ.span span) (ρ.name name) (value.rename ρ)
  | .output span value => .output (ρ.span span) (value.rename ρ)
  | .stop span => .stop (ρ.span span)
  | .print span value => .print (ρ.span span) (value.rename ρ)
  | .declare span names => .declare (ρ.span span) (names.map ρ.name)

def Stmt.renameAll : List Stmt → List Stmt
  | [] => []
  | s :: rest => s.rename :: Stmt.renameAll rest

end

@[simp] theorem Stmt.renameAll_eq_map (body : List Stmt) : Stmt.renameAll ρ body = body.map (Stmt.rename ρ) := by
  induction body with
  | nil => rfl
  | cons s rest ih => rw [renameAll, ih, List.map_cons]

@[simp] theorem Expr.span_rename (e : Expr) : (e.rename ρ).span = ρ.span e.span := by
  cases e <;> simp only [rename, span]

@[simp] theorem Stmt.span_rename (s : Stmt) : (s.rename ρ).span = ρ.span s.span := by
  cases s <;> simp only [rename, span, Expr.span_rename]

theorem Expr.rename_join (op : BinaryOp) (left right : Expr) :
    (left.join op right).rename ρ = (left.rename ρ).join op (right.rename ρ) := by
  simp only [join, rename, ρ.span_merge, span_rename]

/-- Only names that the program chose are changed. -/
def Cause.rename : Cause → Cause
  | .unexpected expected found => .unexpected expected (ρ.description found)
  | .unknownCommand name => .unknownCommand (ρ.name name)
  | .arity name expected got => .arity (ρ.name name) expected got
  | .undefinedVariable name => .undefinedVariable (ρ.name name)
  | .undefinedProcedure name => .undefinedProcedure (ρ.name name)
  | c => c

def Fault.rename (f : Fault) : Fault := ⟨f.cause.rename ρ, f.span?.map ρ.span⟩

def Halt.rename : Halt → Halt
  | .fault f => .fault (f.rename ρ)
  | .outOfFuel => .outOfFuel

theorem Cause.code_rename (c : Cause) : (c.rename ρ).code = c.code := by
  cases c <;> rfl

def Procedure.rename (p : Procedure) : Procedure :=
  ⟨ρ.name p.name, p.params.map ρ.name, p.body.map (Stmt.rename ρ)⟩

namespace Token

@[simp] theorem kind_rename (t : Token) : (t.rename ρ).kind = t.kind := rfl

@[simp] theorem isWord_rename (t : Token) : (t.rename ρ).isWord = t.isWord := rfl

@[simp] theorem isFinish_rename (t : Token) : (t.rename ρ).isFinish = t.isFinish := rfl

@[simp] theorem isNamed_rename (t : Token) (word : String) : (t.rename ρ).isNamed word = t.isNamed word := by
  unfold isNamed
  rw [isWord_rename, rename, ρ.fold_name]

theorem describe_rename (t : Token) : (t.rename ρ).describe = ρ.description t.describe := by
  unfold describe
  rw [isFinish_rename]
  split
  · exact ρ.description_finish.symm
  · exact (ρ.description_text t.text).symm

end Token

/-! Words are looked up by their folded spelling. -/

@[simp] theorem Command.ofWord?_name (s : String) : Command.ofWord? (ρ.name s) = Command.ofWord? s := by
  simp only [Command.ofWord?, ρ.fold_name]

@[simp] theorem Operation.ofWord?_name (s : String) : Operation.ofWord? (ρ.name s) = Operation.ofWord? s := by
  simp only [Operation.ofWord?, ρ.fold_name]

@[simp] theorem Traversal.ofWord?_name (s : String) : Traversal.ofWord? (ρ.name s) = Traversal.ofWord? s := by
  simp only [Traversal.ofWord?, ρ.fold_name]

@[simp] theorem Query.ofWord?_name (s : String) : Query.ofWord? (ρ.name s) = Query.ofWord? s := by
  simp only [Query.ofWord?, ρ.fold_name]

@[simp] theorem Keyword.ofWord?_name (s : String) : Keyword.ofWord? (ρ.name s) = Keyword.ofWord? s := by
  simp only [Keyword.ofWord?, ρ.fold_name]

@[simp] theorem isKeyword_name (s : String) : isKeyword (ρ.name s) = isKeyword s := by
  simp only [isKeyword, Keyword.ofWord?_name]

@[simp] theorem isBuiltin_name (s : String) : isBuiltin (ρ.name s) = isBuiltin s := by
  simp only [isBuiltin, Command.ofWord?_name, Operation.ofWord?_name, Traversal.ofWord?_name, Query.ofWord?_name]

namespace Table
variable {α β : Type} {f : α → β} {t : Table α} {t' : Table β}

/-- The second table holds the entries of the first, changed by `f`. The order of entries does not count. -/
def Same (f : α → β) (t : Table α) (t' : Table β) : Prop := ∀ key, t'.get? key = (t.get? key).map f

theorem Same.refl (t : Table α) : Same id t t := fun _ => Option.map_id'.symm

theorem Same.find? (h : Same f t t') (s : String) : t'.find? (ρ.name s) = (t.find? s).map f := by
  rw [Table.find?, ρ.fold_name]
  exact h _

theorem Same.insert (h : Same f t t') (s : String) (a : α) : Same f (t.insert s a) (t'.insert (ρ.name s) (f a)) := by
  intro key
  rw [get?_insert, get?_insert, ρ.fold_name, h key]
  split <;> rfl

/-- A table made from a list of pairs, from a table already begun. -/
theorem Same.insertAll (h : Same f t t') (pairs : List (String × α)) :
    Same f (pairs.foldl (fun t p => t.insert p.1 p.2) t)
      ((pairs.map fun p => (ρ.name p.1, f p.2)).foldl (fun t p => t.insert p.1 p.2) t') := by
  induction pairs generalizing t t' with
  | nil => exact h
  | cons p rest ih => exact ih (h.insert ρ p.1 p.2)

/-- Entries of a table have new keys for one that begins with others. -/
theorem entries_insertAll (t : Table α) {pairs : List (String × α)}
    (hfolded : ∀ key ∈ pairs.map Prod.fst, fold key = key)
    (hdistinct : ((t.entries ++ pairs).map Prod.fst).Nodup) :
    (pairs.foldl (fun t p => t.insert p.1 p.2) t).entries = t.entries ++ pairs := by
  induction pairs generalizing t with
  | nil => simp
  | cons p rest ih =>
    have hp : fold p.1 = p.1 := hfolded _ (by simp)
    have hfresh : p.1 ∉ t.entries.map Prod.fst := by
      rw [List.map_append, List.map_cons] at hdistinct
      exact fun h => (List.nodup_append.mp hdistinct).2.2 _ h _ (List.mem_cons_self ..) rfl
    have hinsert : (t.insert p.1 p.2).entries = t.entries ++ [p] := by
      have hentries : (t.insert p.1 p.2).entries = put (fold p.1) p.2 t.entries := rfl
      rw [hentries, hp, put_of_not_mem _ _ hfresh]
    rw [List.foldl_cons, ih, hinsert, List.append_assoc, List.singleton_append]
    · exact fun key hkey => hfolded key (List.mem_cons_of_mem _ hkey)
    · rwa [hinsert, List.append_assoc, List.singleton_append]

/-- The names of a table need no folding. -/
theorem ofList_entries (t : Table α) : ofList t.entries = t := by
  refine ext_entries (entries_insertAll {} (fun key hkey => ?_) t.distinct)
  obtain ⟨name, rfl⟩ := t.folded key hkey
  exact fold_fold name

theorem get?_map (f : α → β) (t : Table α) (key : String) : (t.map f).get? key = (t.get? key).map f := by
  change (t.entries.map fun p => (p.1, f p.2)).lookup key = (t.entries.lookup key).map f
  induction t.entries with
  | nil => rfl
  | cons p rest ih =>
    obtain ⟨k, a⟩ := p
    rw [List.map_cons, lookup_cons, lookup_cons, ih]
    split <;> rfl

end Table

structure Reader.Renamed (r r' : Reader) : Prop where
  rest : r'.rest = r.rest.map (Token.rename ρ)
  finish : r'.finish = r.finish.rename ρ
  last : r'.last = ρ.span r.last
  arities : r.arities.Same id r'.arities

structure Workspace.Renamed (w w' : Workspace) : Prop where
  globals : w.globals.Same id w'.globals
  frames : List.Forall₂ (Table.Same id) w.frames w'.frames
  procedures : w.procedures.Same (Procedure.rename ρ) w'.procedures
  counters : w'.counters = w.counters

structure Machine.Renamed (m m' : Machine) : Prop where
  workspace : m.workspace.Renamed ρ m'.workspace
  turtle : m'.turtle = m.turtle
  printed : m'.printed = m.printed
  random : m'.random = m.random

end Logo
