import Logo.Proofs.Follows
import Logo.Proofs.Steady

/-! Parsers seen from the tokens they take. What a parser has read since some place is what was read there before it
and the tokens it takes now. If it succeeds, its result is judged by all of these; if it fails, its failure is
explained by them. -/
namespace Logo

/-- Where a text is read: its end, the places in it and the tables of procedures that may be known there. A
definition leads from a table to a table. -/
structure Setting where
  finish : Token
  place : List Token → Prop
  table : Table Nat → Prop
  finishes : finish.isFinish = true
  inner {ts : List Token} : place ts → ∀ t ∈ ts, t.isFinish = false
  tail {t : Token} {ts : List Token} : place (t :: ts) → place ts
  define {t w : Token} {ts : List Token} {known : Table Nat} : t.isNamed "TO" = true → w.isWord = true →
    place (t :: w :: ts) → table known → table (known.insert w.text (Arity.parameters ts))

namespace Setting

def fits (G : Setting) (name : String) (inputs : Nat) : Prop :=
  ∃ known, G.table known ∧ ∀ count, known.find? name = some count → inputs ≤ count

theorem suffix (G : Setting) {ts us : List Token} (h : G.place (ts ++ us)) : G.place us := by
  induction ts with
  | nil => exact h
  | cons t ts ih => exact ih (G.tail h)

end Setting

theorem Parse.exists_of_bind_ok {α β : Type} {x : Parse α} {f : α → Parse β} {r r' : Reader} {b : β}
    (h : (x >>= f) r = .ok b r') : ∃ a r₁, x r = .ok a r₁ ∧ f a r₁ = .ok b r' := by
  simp only [Bind.bind, EStateM.bind] at h
  split at h
  · next a r₁ hx => exact ⟨a, r₁, hx, h⟩
  · cases h

theorem Parse.run_peek {α : Type} (f : Token → Parse α) (r : Reader) : (peek >>= f) r = f r.head r := rfl

theorem Parse.run_advance {α : Type} (f : Token → Parse α) (r : Reader) : (advance >>= f) r = f r.head r.next := rfl

/-- The reader stands behind the tokens, which stand behind a token at `s`. -/
structure Reader.Behind (G : Setting) (s : Span) (read : List Token) (r : Reader) : Prop where
  place : G.place (read ++ r.rest)
  table : G.table r.arities
  finish : r.finish = G.finish
  last : r.last = Token.lastSpan s read

/-- A failure behind the tokens: it blames a token of the text, and if it blames the end, all tokens are read and
the one expected would have closed something. -/
inductive Breaks (G : Setting) (read rest : List Token) : Halt → Prop where
  | outOfFuel : Breaks G read rest .outOfFuel
  | fault {expected : String} {found : Token} : found ∈ read ++ rest ∨ found = G.finish →
    (found.isFinish = true → rest = [] ∧ Awaits read expected) →
    Breaks G read rest (.fault ⟨.unexpected expected found.describe, some found.span⟩)

inductive Taken (G : Setting) (s : Span) {α : Type} (text : List Token) (S : List Token → α → Prop) :
    EStateM.Result Halt Reader α → Prop where
  | ok {read a r} : read ++ r.rest = text → r.Behind G s read → S read a → Taken G s text S (.ok a r)
  | error {read e r} : read ++ r.rest = text → G.table r.arities → Breaks G read r.rest e →
    Taken G s text S (.error e r)

/-- Behind `before`, the parser takes tokens so that these and those before give its result. -/
def Takes (G : Setting) {α : Type} (before : List Token) (x : Parse α) (S : List Token → α → Prop) : Prop :=
  ∀ s (r : Reader), r.Behind G s before → Taken G s (before ++ r.rest) S (x r)

def TakesNext (G : Setting) {α : Type} (before : List Token) (t : Token) (x : Parse α)
    (S : List Token → α → Prop) : Prop :=
  ∀ s (r : Reader), r.Behind G s before → r.head = t → Taken G s (before ++ r.rest) S (x r)

theorem Token.isFinish_of_isMark {t : Token} {m : Mark} (h : t.isMark m = true) : t.isFinish = false := by
  cases hk : t.kind <;> simp [isMark, isFinish, hk] at h ⊢

theorem Token.isFinish_of_isWord {t : Token} (h : t.isWord = true) : t.isFinish = false := by
  cases hk : t.kind <;> simp [isWord, isFinish, hk] at h ⊢

theorem Token.isWord_of_isFinish {t : Token} (h : t.isFinish = true) : t.isWord = false := by
  cases hk : t.kind <;> simp [isWord, isFinish, hk] at h ⊢

theorem Names.append {bare : Bool} {ns ms : List Token} {names others : List String} (h : Names bare ns names)
    (h' : Names bare ms others) : Names bare (ns ++ ms) (names ++ others) := by
  induction h with
  | nil => exact h'
  | plain hbare hw _ ih => exact .plain hbare hw ih
  | quoted hq hw _ ih => exact .quoted hq hw ih

theorem Token.isFinish_of_joins {t : Token} {op : BinaryOp} (h : t.Joins op) : t.isFinish = false := by
  cases hk : t.kind
  case finish => simp [Joins, Grammar.arithmetic?, Grammar.comparison?, isNamed, isWord, hk] at h
  all_goals simp [isFinish, hk]

theorem Token.isFinish_of_precedes {t : Token} {op : UnaryOp} (h : t.Precedes op) : t.isFinish = false := by
  cases hk : t.kind
  case finish => simp [Precedes, Grammar.sign?, isNamed, isWord, hk] at h
  all_goals simp [isFinish, hk]

/-- As many parameters are counted as are read. -/
theorem Params.parameters_append {ps rest : List Token} {params : List String} (h : Params ps params)
    (hrest : ∀ c more, rest = c :: more → c.isMark .colon = false) :
    Arity.parameters (ps ++ rest) = params.length := by
  induction h with
  | nil =>
    cases rest with
    | nil => rfl
    | cons c more => cases more <;> simp [Arity.parameters, hrest c _ rfl]
  | cons hc hw _ ih => simp [Arity.parameters, hc, hw, ih]

theorem Breaks.behind {G : Setting} {before read rest : List Token} {e : Halt} (h : Breaks G read rest e)
    (hbefore : Steady before) : Breaks G (before ++ read) rest e := by
  cases h with
  | outOfFuel => exact .outOfFuel
  | fault hfound hawaits =>
    refine .fault ?_ fun hfinish => ⟨(hawaits hfinish).1, (hawaits hfinish).2.behind hbefore⟩
    rw [List.append_assoc, List.mem_append]
    exact hfound.imp_left .inr

theorem Token.lastSpan_append (s : Span) (ts us : List Token) :
    lastSpan s (ts ++ us) = lastSpan (lastSpan s ts) us := by
  simp [lastSpan]

namespace Reader
variable {G : Setting} {s : Span} {read : List Token} {r : Reader} {t : Token}

/-- The end comes next only if nothing else does. -/
theorem Behind.rest_eq_nil (h : r.Behind G s read) (hfinish : r.head.isFinish = true) : r.rest = [] := by
  cases hrest : r.rest with
  | nil => rfl
  | cons t rest =>
    have hinner := G.inner h.place t (by simp [hrest])
    simp [head, hrest, hinner] at hfinish

theorem Behind.rest_eq_cons (h : r.Behind G s read) (hinner : r.head.isFinish = false) :
    r.rest = r.head :: r.next.rest := by
  cases hrest : r.rest with
  | nil => simp [head, hrest, h.finish, G.finishes] at hinner
  | cons t rest => simp [head, next, hrest]

theorem Behind.next (h : r.Behind G s read) (hinner : r.head.isFinish = false) :
    r.next.Behind G s (read ++ [r.head]) := by
  obtain ⟨hplace, htable, hfinish, -⟩ := h
  cases hrest : r.rest with
  | nil => simp [head, hrest, hfinish, G.finishes] at hinner
  | cons t rest =>
    simp only [hrest] at hplace
    constructor
    · simpa [head, Reader.next, hrest] using hplace
    · simpa [Reader.next, hrest] using htable
    · simpa [Reader.next, hrest] using hfinish
    · simp [Reader.next, hrest, head, Token.lastSpan]

/-- The next token is a token of the text or its end. -/
theorem Behind.head_mem (h : r.Behind G s read) : r.head ∈ read ++ r.rest ∨ r.head = G.finish := by
  cases hrest : r.rest with
  | nil => simp [head, hrest, h.finish]
  | cons t rest => simp [head, hrest]

end Reader

section
variable {G : Setting} {α β : Type} {before : List Token} {x : Parse α} {f : α → Parse β} {t : Token}
  {S : List Token → α → Prop} {P : List Token → β → Prop}

namespace TakesNext

theorem pure {a : α} (h : S before a) : TakesNext G before t (Pure.pure a) S := fun _ _ hr _ => .ok rfl hr h

theorem fail {expected : String} (h : Awaits before expected) :
    TakesNext G before t (Parse.fail expected : Parse α) S := by
  intro s r hr _
  refine .error rfl hr.table (.fault hr.head_mem fun hfinish => ⟨hr.rest_eq_nil hfinish, h⟩)

theorem reject {expected : String} (h : Awaits before expected) :
    TakesNext G before t (Parse.reject expected t : Parse α) S := by
  rintro s r hr rfl
  exact .error rfl hr.table (.fault hr.head_mem fun hfinish => ⟨hr.rest_eq_nil hfinish, h⟩)

theorem get {f : Reader → Parse α} (hf : ∀ r, G.table r.arities → TakesNext G before t (f r) S) :
    TakesNext G before t (MonadState.get >>= f) S :=
  fun s r hr ht => hf r hr.table s r hr ht

/-- What a parser takes by itself starts with the token that comes next. -/
theorem starts {S : List Token → α → Prop} (h : Takes G [] x S) (hne : ∀ ts a, S ts a → ts ≠ []) :
    TakesNext G [] t x fun ts a => S ts a ∧ ∃ us, ts = t :: us := by
  rintro s r hr rfl
  have htaken := h s r hr
  generalize x r = result at htaken
  cases htaken with
  | @ok ts a r' htext hr' hS =>
    refine .ok htext hr' ⟨hS, ?_⟩
    cases ts with
    | nil => exact absurd rfl (hne _ _ hS)
    | cons t us =>
      have hhead : r.rest = t :: (us ++ r'.rest) := htext.symm
      exact ⟨us, by simp [Reader.head, hhead]⟩
  | error htext htable hbreaks => exact .error htext htable hbreaks

theorem mono {S' : List Token → α → Prop} (hx : TakesNext G before t x S) (h : ∀ read a, S read a → S' read a) :
    TakesNext G before t x S' := by
  intro s r hr ht
  have htaken := hx s r hr ht
  generalize x r = result at htaken
  cases htaken with
  | ok htext hr' hS => exact .ok htext hr' (h _ _ hS)
  | error htext htable hbreaks => exact .error htext htable hbreaks

theorem bind (hx : TakesNext G before t x S) (hf : ∀ read a, S read a → Takes G read (f a) P) :
    TakesNext G before t (x >>= f) P := by
  intro s r hr ht
  have h := hx s r hr ht
  simp only [Bind.bind, EStateM.bind]
  generalize x r = result at h
  cases h with
  | ok htext hr' hS => exact htext ▸ hf _ _ hS _ _ hr'
  | error htext htable hbreaks => exact .error htext htable hbreaks

theorem ite {p : Prop} [Decidable p] {y : Parse α} (hx : p → TakesNext G before t x S)
    (hy : ¬p → TakesNext G before t y S) : TakesNext G before t (if p then x else y) S := by
  by_cases hp : p
  · simpa only [if_pos hp] using hx hp
  · simpa only [if_neg hp] using hy hp

theorem discard (ht : t.isFinish = false) :
    TakesNext G before t (discard Parse.advance) fun read _ => read = before ++ [t] := by
  rintro s r hr rfl
  exact .ok (by simp [hr.rest_eq_cons ht]) (hr.next ht) rfl

/-- Passes over the next token. -/
theorem skip {x : Parse α} (ht : t.isFinish = false) (hx : Takes G (before ++ [t]) x S) :
    TakesNext G before t (do Functor.discard Parse.advance; x) S := by
  refine (discard ht).bind ?_
  rintro _ _ rfl
  exact hx

theorem first {x : Parse α} (ht : t.isFinish = false) (hx : Takes G [t] x S) :
    TakesNext G [] t (do Functor.discard Parse.advance; x) S := skip ht hx

/-- Notes down a procedure once its parameters are read. -/
theorem define {t w u : Token} {ps : List Token} {params : List String} {x : Parse α} (ht : t.isNamed "TO" = true)
    (hw : w.isWord = true) (hps : Params ps params) (hu : u.isMark .colon = false)
    (hx : Takes G (t :: w :: ps) x S) :
    TakesNext G (t :: w :: ps) u
      (do modify fun r => { r with arities := r.arities.insert w.text params.length }; x) S := by
  rintro s r hr rfl
  have hcount : Arity.parameters (ps ++ r.rest) = params.length := by
    refine hps.parameters_append fun c more hrest => ?_
    simpa [Reader.head, hrest] using hu
  have hplace : G.place (t :: w :: (ps ++ r.rest)) := hr.place
  have htable := G.define ht hw hplace hr.table
  rw [hcount] at htable
  exact hx s { r with arities := r.arities.insert w.text params.length } ⟨hr.place, htable, hr.finish, hr.last⟩

end TakesNext

namespace Takes

theorem next (h : Takes G before x S) : TakesNext G before t x S := fun s r hr _ => h s r hr

theorem pure {a : α} (h : S before a) : Takes G before (Pure.pure a) S := fun _ _ hr => .ok rfl hr h

theorem outOfFuel : Takes G before (throw .outOfFuel : Parse α) S := fun _ _ hr => .error rfl hr.table .outOfFuel

theorem peek {f : Token → Parse α} (hf : ∀ t, TakesNext G before t (f t) S) : Takes G before (Parse.peek >>= f) S :=
  fun s r hr => hf r.head s r hr rfl

/-- What comes behind the first parser is read behind the tokens it has taken. -/
theorem bind (hx : Takes G before x S) (hf : ∀ read a, S read a → Takes G read (f a) P) :
    Takes G before (x >>= f) P :=
  fun s r hr => (hx.next.bind hf : TakesNext G before r.head (x >>= f) P) s r hr rfl

theorem mono {S' : List Token → α → Prop} (hx : Takes G before x S) (h : ∀ read a, S read a → S' read a) :
    Takes G before x S' :=
  fun s r hr => (hx.next.mono h : TakesNext G before r.head x S') s r hr rfl

theorem ite {p : Prop} [Decidable p] {y : Parse α} (hx : p → Takes G before x S) (hy : ¬p → Takes G before y S) :
    Takes G before (if p then x else y) S := by
  by_cases hp : p
  · simpa only [if_pos hp] using hx hp
  · simpa only [if_neg hp] using hy hp

/-- Blames the token read last. -/
theorem reject {expected : String} (ht : t.isFinish = false) :
    Takes G (before ++ [t]) (Parse.reject expected t : Parse α) S := by
  intro s r hr
  exact .error rfl hr.table (.fault (by simp) (by simp [ht]))

/-- Whether or not the parser succeeds, it leaves a table of the setting. -/
theorem table (hx : Takes G before x S) {s : Span} {r : Reader} (hr : r.Behind G s before) :
    G.table (final (x r)).arities := by
  have htaken := hx s r hr
  generalize x r = result at htaken
  cases htaken with
  | ok _ hr' _ => exact hr'.table
  | error _ htable _ => exact htable

/-- The first parser leaves a token next about which more is known. -/
theorem bindNext {Q : Token → Prop} (hx : Takes G before x S) (hQ : ∀ r a r', x r = .ok a r' → Q r'.head)
    (hf : ∀ read a t, S read a → Q t → TakesNext G read t (f a) P) : Takes G before (x >>= f) P := by
  intro s r hr
  have h := hx s r hr
  have hhead := hQ r
  simp only [Bind.bind, EStateM.bind]
  generalize x r = result at h hhead
  cases h with
  | ok htext hr' hS => exact htext ▸ hf _ _ _ hS (hhead _ _ rfl) _ _ hr' rfl
  | error htext htable hbreaks => exact .error htext htable hbreaks

/-- A parser that takes tokens of its own, behind others. -/
theorem frame (h : Takes G [] x S) (hbefore : Steady before) :
    Takes G before x fun read a => ∃ ts, read = before ++ ts ∧ S ts a := by
  intro s r hr
  -- Seen from here, nothing is read yet, and the token read last is that before this place.
  have htaken := h r.last r ⟨G.suffix hr.place, hr.table, hr.finish, rfl⟩
  generalize x r = result at htaken
  cases htaken with
  | @ok ts a r' htext hr' hS =>
    have hplace : before ++ ts ++ r'.rest = before ++ r.rest := by simpa using htext
    refine .ok hplace ⟨hplace ▸ hr.place, hr'.table, hr'.finish, ?_⟩ ⟨ts, rfl, hS⟩
    rw [hr'.last, hr.last, Token.lastSpan_append]
  | @error ts e r' htext htable hbreaks => exact .error (by simpa using htext) htable (hbreaks.behind hbefore)

/-- A parser that takes tokens of its own, and what comes behind it. -/
theorem part (h : Takes G [] x S) (hbefore : Steady before)
    (hf : ∀ ts a, S ts a → Takes G (before ++ ts) (f a) P) : Takes G before (x >>= f) P := by
  refine (h.frame hbefore).bind ?_
  rintro _ a ⟨ts, rfl, hS⟩
  exact hf ts a hS

theorem map (g : α → β) (hx : Takes G before x S) (h : ∀ read a, S read a → P read (g a)) :
    Takes G before (g <$> x) P :=
  hx.bind fun read a hS => pure (h read a hS)

theorem spanFrom {f : Span → Parse α} (hf : Takes G (t :: before) (f (t.cover before)) S) :
    Takes G (t :: before) (Parse.spanFrom t.span >>= f) S := by
  intro s r hr
  have hlast : r.last = Token.lastSpan t.span before := hr.last
  have htaken := hf s r hr
  unfold Token.cover at htaken
  rw [← hlast] at htaken
  exact htaken

/-- Reads a token, whatever it is. The end stays where it is. -/
theorem advance {f : Token → Parse α} (hf : ∀ t, t.isFinish = false → Takes G (before ++ [t]) (f t) S)
    (hfinish : TakesNext G before G.finish (f G.finish) S) : Takes G before (Parse.advance >>= f) S := by
  intro s r hr
  rw [Parse.run_advance]
  by_cases hhead : r.head.isFinish = true
  · have hrest := hr.rest_eq_nil hhead
    have hend : r.head = G.finish := by simp [Reader.head, hrest, hr.finish]
    have hnext : r.next = r := by simp [Reader.next, hrest]
    rw [hend, hnext]
    exact hfinish s r hr hend
  · have hinner : r.head.isFinish = false := by simpa using hhead
    have htaken := hf r.head hinner s r.next (hr.next hinner)
    rw [List.append_assoc, List.singleton_append, ← hr.rest_eq_cons hinner] at htaken
    exact htaken

theorem expectMark {m : Mark} {expected : String} {x : Parse α} (hawaits : Awaits before expected)
    (hx : ∀ t, t.isMark m = true → Takes G (before ++ [t]) x S) :
    Takes G before (do Parse.expectMark m expected; x) S := by
  have hmark : Takes G before (Parse.expectMark m expected) fun read _ => ∃ t, t.isMark m = true ∧
      read = before ++ [t] := by
    refine peek fun t => .ite (fun ht => ?_) fun _ => .fail hawaits
    exact (TakesNext.discard (Token.isFinish_of_isMark ht)).mono fun read _ hread => ⟨t, ht, hread⟩
  refine hmark.bind ?_
  rintro _ _ ⟨t, ht, rfl⟩
  exact hx t ht

theorem expectWord {expected : String} {f : String → Parse α} (hawaits : Awaits before expected)
    (hf : ∀ w, w.isWord = true → Takes G (before ++ [w]) (f w.text) S) :
    Takes G before (Parse.expectWord expected >>= f) S := by
  have hword : Takes G before (Parse.expectWord expected) fun read name => ∃ w, w.isWord = true ∧
      read = before ++ [w] ∧ w.text = name := by
    refine peek fun t => .ite (fun ht => ?_) fun _ => .fail hawaits
    exact .skip (Token.isFinish_of_isWord ht) (pure ⟨t, ht, rfl, rfl⟩)
  refine hword.bind ?_
  rintro _ _ ⟨w, hw, rfl, rfl⟩
  exact hf w hw

/-- A name, with or without a quote. -/
theorem name {expected : String} {f : String → Parse α} (hawaits : ∀ ts, Awaits ts expected)
    (hf : ∀ ns n, Names true ns [n] → Takes G (before ++ ns) (f n) S) :
    Takes G before (do Parse.skipMark .quote; Parse.expectWord expected >>= f) S := by
  have hquote : Takes G before (Parse.skipMark .quote) fun read _ =>
      read = before ∨ ∃ q, q.isMark .quote = true ∧ read = before ++ [q] := by
    refine peek fun t => .ite (fun ht => ?_) fun _ => .pure (.inl rfl)
    exact (TakesNext.discard (Token.isFinish_of_isMark ht)).mono fun read _ hread => .inr ⟨t, ht, hread⟩
  refine hquote.bind ?_
  rintro _ _ (rfl | ⟨q, hq, rfl⟩)
  · exact expectWord (hawaits _) fun w hw => hf [w] w.text (.plain rfl hw .nil)
  · refine expectWord (hawaits _) fun w hw => ?_
    simpa using hf [q, w] w.text (.quoted hq hw .nil)

section
variable {p : Parse α} {Row : List Token → List α → Prop} (hp : Takes G [] p S)
  (hsteady : ∀ ts a, S ts a → Steady ts) (hnil : Row [] [])
  (hcons : ∀ ts us a as, S ts a → Row us as → Row (ts ++ us) (a :: as))
include hp hsteady hnil hcons

theorem times (count : Nat) : Takes G [] (p.times count) fun ts as => Row ts as ∧ as.length = count := by
  induction count with
  | zero => exact pure ⟨hnil, rfl⟩
  | succ count ih =>
    refine hp.bind fun ts a hS => ih.part (hsteady ts a hS) fun us as hus => pure ?_
    exact ⟨hcons ts us a as hS hus.1, by simp [hus.2]⟩

/-- A row up to a token that closes it. -/
theorem upTo {closes : Token → Bool} {closing : String} (hcloses : ∀ t, closes t = true → t.isFinish = false)
    (hawaits : Awaits before closing) (fuel : Nat) (hbefore : Steady before) :
    Takes G before (p.upTo closes closing fuel) fun read as =>
      ∃ ts t, Row ts as ∧ closes t = true ∧ read = before ++ (ts ++ [t]) := by
  induction fuel generalizing before with
  | zero => exact outOfFuel
  | succ fuel ih =>
    refine peek fun t => .ite (fun ht => .skip (hcloses t ht) (pure ⟨[], t, hnil, ht, rfl⟩)) fun _ => ?_
    refine .ite (fun _ => .fail hawaits) fun _ => (hp.part hbefore fun ts a hS => ?_).next
    have hrest := ih (hawaits.append (hsteady ts a hS)) (hbefore.append (hsteady ts a hS))
    refine hrest.map _ ?_
    rintro _ as ⟨us, t, hus, ht, rfl⟩
    exact ⟨ts ++ us, t, hcons ts us a as hS hus, ht, by simp⟩

end

end Takes
end
end Logo
