import Logo.Proofs.Pieces

/-! Scanning loses nothing. Every token stands in the text at its place, the places do not overlap, and outside comments
each character that can belong to a token lies in exactly one of them. Asked for further tokens at the end, the scanner
answers with the end token. -/
namespace Logo

def Span.covers (s : Span) (i : Nat) : Bool := decide (s.start ≤ i) && decide (i < s.stop)

theorem Span.covers_iff {s : Span} {i : Nat} : s.covers i = true ↔ s.start ≤ i ∧ i < s.stop := by simp [covers]

namespace Scan

/-! ### Places -/

def Stands (offset : Nat) (cs : List Char) (t : Token) : Prop :=
  ∃ before after, cs = before ++ t.text.toList ++ after ∧
    t.span = ⟨offset + Text.byteLength before, offset + Text.byteLength (before ++ t.text.toList)⟩

theorem Stands.behind {offset : Nat} {text rest : List Char} {t : Token}
    (h : Stands (offset + Text.byteLength text) rest t) : Stands offset (text ++ rest) t := by
  obtain ⟨before, after, hrest, hspan⟩ := h
  refine ⟨text ++ before, after, by simp [hrest], ?_⟩
  rw [hspan]
  simp only [Text.byteLength_append, Nat.add_assoc]

theorem Stands.above {offset : Nat} {cs : List Char} {t : Token} (h : Stands offset cs t) :
    offset ≤ t.span.start := by
  obtain ⟨before, after, -, hspan⟩ := h
  rw [hspan]
  exact Nat.le_add_right _ _

theorem stands_tokensFrom (offset : Nat) (cs : List Char) : ∀ t ∈ tokensFrom offset cs, Stands offset cs t := by
  induction offset, cs using piece_induction with
  | nil offset =>
    simp only [tokensFrom, List.mem_singleton, forall_eq]
    exact ⟨[], [], rfl, rfl⟩
  | blank offset c cs hc ih =>
    intro t ht
    rw [tokensFrom_blank hc] at ht
    have hstands : Stands (offset + Text.byteLength [c]) cs t := by
      rw [Text.byteLength_cons]
      exact ih t ht
    exact hstands.behind
  | token offset c cs kind text rest hpiece hsplit ih =>
    rw [tokensFrom_token hpiece hsplit, hsplit]
    simp only [List.forall_mem_cons]
    refine ⟨⟨[], rest, by simp, ?_⟩, fun t ht => (ih t ht).behind⟩
    simp [Text.byteLength]
  | passed offset c cs text rest _ hpiece hsplit ih =>
    rw [tokensFrom_passed hpiece hsplit, hsplit]
    exact fun t ht => (ih t ht).behind

theorem pairwise_tokensFrom (offset : Nat) (cs : List Char) :
    (tokensFrom offset cs).Pairwise fun t u => t.span.stop ≤ u.span.start := by
  induction offset, cs using piece_induction with
  | nil offset => simp [tokensFrom]
  | blank offset c cs hc ih => rwa [tokensFrom_blank hc]
  | token offset c cs kind text rest hpiece hsplit ih =>
    rw [tokensFrom_token hpiece hsplit, List.pairwise_cons]
    exact ⟨fun u hu => (stands_tokensFrom _ rest u hu).above, ih⟩
  | passed offset c cs text rest _ hpiece hsplit ih => rwa [tokensFrom_passed hpiece hsplit]

/-- What lies in front of a text is in none of its tokens. -/
theorem countP_covers_before {i offset : Nat} (h : i < offset) (cs : List Char) :
    (tokensFrom offset cs).countP (·.span.covers i) = 0 := by
  simp only [List.countP_eq_zero, Span.covers_iff]
  intro t ht hcovers
  have habove := (stands_tokensFrom offset cs t ht).above
  omega

/-! ### Comments -/

/-- Whether a comment is open behind the characters: one opens at a semicolon and closes at a newline. -/
def commentOpen (inside : Bool) (cs : List Char) : Bool :=
  cs.foldl (fun inside c => decide (c = ';') || (inside && decide (c ≠ '\n'))) inside

theorem commentOpen_append (inside : Bool) (cs ds : List Char) :
    commentOpen inside (cs ++ ds) = commentOpen (commentOpen inside cs) ds :=
  List.foldl_append

theorem commentOpen_of_closed {cs : List Char} (h : ';' ∉ cs) : commentOpen false cs = false := by
  induction cs with
  | nil => rfl
  | cons c cs ih =>
    have hc : c ≠ ';' := fun he => h (by simp [he])
    have hcs : ';' ∉ cs := fun hmem => h (by simp [hmem])
    simpa [commentOpen, hc] using ih hcs

theorem commentOpen_of_line {line : List Char} (h : '\n' ∉ line) (inside : Bool) :
    commentOpen inside (';' :: line) = true := by
  have hopen : commentOpen true line = true := by
    induction line with
    | nil => rfl
    | cons c line ih =>
      have hc : c ≠ '\n' := fun he => h (by simp [he])
      have hline : '\n' ∉ line := fun hmem => h (by simp [hmem])
      simpa [commentOpen, hc] using ih hline
  simpa [commentOpen] using hopen

/-! ### Characters of tokens -/

/-- A character that belongs to a token wherever it stands outside comments. -/
def isSolid (c : Char) : Bool := c.isAlphanum || "_[]():\"+-*/=<>".toList.contains c

theorem not_mem_takeWhile {p : Char → Bool} {x : Char} (hx : p x = false) (cs : List Char) : x ∉ cs.takeWhile p := by
  intro hmem
  rw [List.mem_takeWhile_imp hmem] at hx
  cases hx

theorem semicolon_fractionPart (cs : List Char) : ';' ∉ fractionPart cs := by
  fun_cases fractionPart cs with
  | case1 cs => simp [not_mem_takeWhile]
  | case2 => simp

theorem semicolon_exponentPart (cs : List Char) : ';' ∉ exponentPart cs := by
  fun_cases exponentPart cs with
  | case1 e ds he hds => rcases he with rfl | rfl <;> simp [not_mem_takeWhile]
  | case2 e he s ds hs hsds =>
    rcases he with rfl | rfl <;> rcases hs with ⟨rfl | rfl, -⟩ <;> simp [not_mem_takeWhile]
  | _ => simp

theorem semicolon_numeral (c : Char) (cs : List Char) : ';' ∉ numeral c cs := by
  have hunsigned : ∀ cs, ';' ∉ unsignedPart cs := by
    intro cs
    simp [unsignedPart, not_mem_takeWhile, semicolon_fractionPart, semicolon_exponentPart]
  unfold numeral
  split
  · exact hunsigned _
  · split
    · next h => rcases h with ⟨rfl | rfl, -⟩ <;> simp [hunsigned]
    · split
      · simp [pointPart, semicolon_fractionPart, semicolon_exponentPart]
      · simp

theorem semicolon_token {c : Char} {cs text : List Char} {kind : Kind} (h : piece c cs = ⟨some kind, text⟩) :
    ';' ∉ text := by
  have hof := pieceOf_piece c cs
  rw [h] at hof
  cases hof with
  | word hc =>
    have hne := (classes_of_startsWord hc).2
    have hrest : ';' ∉ cs.takeWhile continuesWord := not_mem_takeWhile rfl cs
    simp [hne.symm, hrest]
  | number hnumeral => exact hnumeral ▸ semicolon_numeral c cs
  | mark hnumeral hmark =>
    unfold mark? at hmark
    split at hmark <;> cases hmark <;> decide

/-- A solid character starts a token. -/
theorem not_solid_of_other {c : Char} {cs : List Char} (hword : startsWord c = false) (hnumeral : numeral c cs = [])
    (hmark : mark? c cs = none) : isSolid c = false := by
  have halpha : c.isAlpha = false ∧ c ≠ '_' := by simpa [startsWord] using hword
  have hdigit : c.isDigit = false := by
    cases hc : c.isDigit with
    | false => rfl
    | true => simp [numeral, unsignedPart, hc] at hnumeral
  have hmarks : ∀ x ∈ "[]():\"+-*/=<>".toList, c ≠ x := by
    unfold mark? at hmark
    split at hmark
    case h_17 => simp_all
    all_goals cases hmark
  simp_all [isSolid, Char.isAlphanum]

theorem not_solid_of_isBlank {c : Char} (hc : isBlank c = true) : isSolid c = false := by
  simp only [isBlank, Bool.or_eq_true, decide_eq_true_eq] at hc
  rcases hc with (((rfl | rfl) | rfl) | rfl) | rfl <;> rfl

/-- A text can be scanned from a comment on if that comment ends at once. -/
def Resumes (inside : Bool) (cs : List Char) : Prop := ∀ c more, cs = c :: more → inside = true → c = '\n'

theorem resumes_false (cs : List Char) : Resumes false cs := by simp [Resumes]

theorem Resumes.outside {inside : Bool} {c : Char} {cs : List Char} (h : Resumes inside (c :: cs))
    (hc : isBlank c = false) : inside = false := by
  cases inside with
  | false => rfl
  | true =>
    rw [h c cs rfl rfl] at hc
    cases hc

theorem Resumes.blank {inside : Bool} {c : Char} {cs : List Char} (h : Resumes inside (c :: cs))
    (hc : isBlank c = true) : commentOpen inside [c] = false := by
  have hne : c ≠ ';' := ne_of_isBlank hc rfl
  cases inside with
  | false => simp [commentOpen, hne]
  | true =>
    rw [h c cs rfl rfl]
    rfl

theorem resumes_dropWhile (cs : List Char) : Resumes true (cs.dropWhile (· ≠ '\n')) := by
  intro c more hcs _
  have hhead := List.head?_dropWhile_not (· ≠ '\n') cs
  rw [hcs] at hhead
  simpa using hhead

/-- What is passed over without being blank is a comment to the end of its line, or a character that is not solid. -/
theorem passed_cases {c : Char} {cs text rest : List Char} (hc : isBlank c = false) (hpiece : piece c cs = ⟨none, text⟩)
    (hsplit : c :: cs = text ++ rest) :
    (∃ line, text = ';' :: line ∧ '\n' ∉ line ∧ Resumes true rest) ∨
      (text = [c] ∧ c ≠ ';' ∧ isSolid c = false) := by
  have hof := pieceOf_piece c cs
  rw [hpiece] at hof
  cases hof with
  | blank hblank =>
    rw [hblank] at hc
    cases hc
  | comment hcomment =>
    refine .inl ⟨_, by rw [hcomment], not_mem_takeWhile (by simp) cs, ?_⟩
    have hline : cs.takeWhile (· ≠ '\n') ++ cs.dropWhile (· ≠ '\n') = cs.takeWhile (· ≠ '\n') ++ rest :=
      List.takeWhile_append_dropWhile.trans (List.cons.inj hsplit).2
    rw [← List.append_cancel_left hline]
    exact resumes_dropWhile cs
  | other _ hcomment hword hnumeral hmark => exact .inr ⟨rfl, hcomment, not_solid_of_other hword hnumeral hmark⟩

/-! ### Coverage -/

/-- A character of a text that has a front part is in the front part or behind it. -/
theorem split_cases {text rest before after : List Char} {c : Char} (h : text ++ rest = before ++ c :: after) :
    (∃ more, text = before ++ c :: more) ∨ ∃ before', before = text ++ before' ∧ rest = before' ++ c :: after := by
  rcases List.append_eq_append_iff.mp h with ⟨before', hbefore, hrest⟩ | ⟨more, htext, hmore⟩
  · exact .inr ⟨before', hbefore, hrest⟩
  · cases more with
    | nil => exact .inr ⟨[], by simp [htext], hmore.symm⟩
    | cons d more =>
      obtain ⟨rfl, -⟩ := List.cons.inj hmore
      exact .inl ⟨more, htext⟩

theorem byteLength_lt (before more : List Char) (c : Char) :
    Text.byteLength before < Text.byteLength (before ++ c :: more) := by
  have hpos := c.utf8Size_pos
  rw [Text.byteLength_append, Text.byteLength_cons]
  omega

/-- A solid character outside comments is in exactly one token, and inside them in none. -/
theorem countP_covers {after : List Char} {c : Char} (hsolid : isSolid c = true) (offset : Nat) (cs : List Char) :
    ∀ inside before, Resumes inside cs → cs = before ++ c :: after →
      (tokensFrom offset cs).countP (·.span.covers (offset + Text.byteLength before)) =
        if commentOpen inside before then 0 else 1 := by
  induction offset, cs using piece_induction with
  | nil offset => simp
  | blank offset b cs hb ih =>
    intro inside before hinside hcs
    rw [tokensFrom_blank hb]
    cases before with
    | nil =>
      obtain ⟨rfl, -⟩ := List.cons.inj hcs
      rw [not_solid_of_isBlank hb] at hsolid
      cases hsolid
    | cons d before =>
      obtain ⟨rfl, hrest⟩ := List.cons.inj hcs
      have hcount := ih false before (resumes_false cs) hrest
      rwa [Nat.add_assoc, ← Text.byteLength_cons, ← hinside.blank hb, ← commentOpen_append] at hcount
  | token offset b cs kind text rest hpiece hsplit ih =>
    intro inside before hinside hcs
    obtain rfl := hinside.outside (classes_of_token hpiece).1
    have hclosed := semicolon_token hpiece
    rw [tokensFrom_token hpiece hsplit, List.countP_cons]
    rcases split_cases (hsplit.symm.trans hcs) with ⟨more, htext⟩ | ⟨before', rfl, hrest⟩
    · have hlt := byteLength_lt before more c
      rw [← htext] at hlt
      have hfront : commentOpen false before = false :=
        commentOpen_of_closed fun hmem => hclosed (by simp [htext, hmem])
      rw [countP_covers_before (by omega), hfront]
      simp [Span.covers, hlt]
    · have hcount := ih false before' (resumes_false rest) hrest
      rw [commentOpen_append, commentOpen_of_closed hclosed, Text.byteLength_append, ← Nat.add_assoc, hcount]
      simp [Span.covers]
  | passed offset b cs text rest hb hpiece hsplit ih =>
    intro inside before hinside hcs
    rw [tokensFrom_passed hpiece hsplit]
    rcases passed_cases hb hpiece hsplit with ⟨line, rfl, hline, hresumes⟩ | ⟨rfl, hcomment, hother⟩ <;>
      rcases split_cases (hsplit.symm.trans hcs) with ⟨more, hfront⟩ | ⟨before', rfl, hrest⟩
    · cases before with
      | nil =>
        obtain ⟨rfl, -⟩ := List.cons.inj hfront
        cases hsolid
      | cons d before =>
        rw [List.cons_append] at hfront
        obtain ⟨rfl, rfl⟩ := List.cons.inj hfront
        have hlt := byteLength_lt (';' :: before) more c
        rw [List.cons_append] at hlt
        rw [countP_covers_before (by omega), commentOpen_of_line fun hmem => hline (by simp [hmem])]
        rfl
    · have hcount := ih true before' hresumes hrest
      rw [commentOpen_append, commentOpen_of_line hline, Text.byteLength_append, ← Nat.add_assoc, hcount]
    · obtain ⟨rfl, rfl⟩ : before = [] ∧ b = c := by
        cases before with
        | nil => exact ⟨rfl, (List.cons.inj hfront).1⟩
        | cons d before => simp at hfront
      rw [hother] at hsolid
      cases hsolid
    · obtain rfl := hinside.outside hb
      have hclosed : commentOpen false [b] = false := commentOpen_of_closed (by simpa using hcomment.symm)
      have hcount := ih false before' (resumes_false rest) hrest
      rw [commentOpen_append, hclosed, Text.byteLength_append, ← Nat.add_assoc, hcount]

/-! ### The end -/

theorem Cursor.answers_congr {k k' : Cursor} (h : k.next = k'.next) (n : Nat) : k.answers n = k'.answers n := by
  cases n with
  | zero => rfl
  | succ n => simp only [answers, h]

theorem Cursor.answers_nil (offset n : Nat) : answers ⟨offset, []⟩ n = List.replicate n (.finishAt offset) := by
  induction n with
  | zero => rfl
  | succ n ih => simp [answers, next, ih, List.replicate_succ]

/-- Behind its tokens, a text is at its end for good. -/
theorem Cursor.answers_eq (extra offset : Nat) (cs : List Char) :
    answers ⟨offset, cs⟩ ((tokensFrom offset cs).length + extra) =
      tokensFrom offset cs ++ List.replicate extra (.finishAt (offset + Text.byteLength cs)) := by
  fun_induction tokensFrom offset cs with
  | case1 offset =>
    rw [answers_nil, List.length_singleton, Nat.add_comm, List.replicate_succ]
    rfl
  | case2 offset c cs p stop rest kind hk ih =>
    have hnext : next ⟨offset, c :: cs⟩ =
        (⟨kind, String.ofList p.text, ⟨offset, stop⟩⟩, ⟨stop, cs.drop (p.text.length - 1)⟩) := by
      rw [next]
      simp only [p, stop, hk]
    rw [byteLength_piece] at ih
    rw [List.length_cons, Nat.add_right_comm, answers, hnext, ih]
    rfl
  | case3 offset c cs p stop rest hk ih =>
    have hnext : next ⟨offset, c :: cs⟩ = next ⟨stop, cs.drop (p.text.length - 1)⟩ := by
      rw [next]
      simp only [p, stop, hk]
    rw [byteLength_piece] at ih
    rw [answers_congr hnext, ih]

end Scan

structure Token.Cut (source : String) (t : Token) : Prop where
  inner : t.isFinish = false
  filled : t.span.start < t.span.stop
  place : ∃ before after, source = before ++ t.text ++ after ∧
    t.span = ⟨before.utf8ByteSize, (before ++ t.text).utf8ByteSize⟩

theorem cut_tokensIn (source : String) : ∀ t ∈ tokensIn source, t.Cut source := by
  intro t ht
  obtain ⟨htokens, hinner⟩ := tokenize_eq source
  have hmem : t ∈ tokenize source := by simp [htokens, ht]
  obtain ⟨before, after, hsource, hspan⟩ := Scan.stands_tokensFrom 0 source.toList t hmem
  obtain ⟨c, cs, htext, -⟩ := alone_tokensIn source t ht
  refine ⟨(hinner t ht).1, ?_, String.ofList before, String.ofList after, ?_, ?_⟩
  · simpa [hspan, htext] using Scan.byteLength_lt before cs c
  · rw [← String.toList_inj, hsource]
    simp [String.toList_append]
  · simp only [hspan, ← Text.byteLength_toList, String.toList_append, String.toList_ofList, Nat.zero_add]

theorem pairwise_tokensIn (source : String) :
    (tokensIn source).Pairwise fun t u => t.span.stop ≤ u.span.start := by
  have hpairwise := Scan.pairwise_tokensFrom 0 source.toList
  rw [← tokenize, (tokenize_eq source).1] at hpairwise
  exact (List.pairwise_append.mp hpairwise).1

/-- Scanning cuts a text into tokens that stand one behind the other, and misses no character that belongs to one. The
end is answered time and again. -/
theorem tokenize_lossless (source : String) :
    (∃ inner, tokenize source = inner ++ [.finishAt source.utf8ByteSize] ∧ (∀ t ∈ inner, t.Cut source) ∧
      inner.Pairwise fun t u => t.span.stop ≤ u.span.start) ∧
    (∀ extra, (Scan.Cursor.start source).answers ((tokenize source).length + extra) =
      tokenize source ++ List.replicate extra (.finishAt source.utf8ByteSize)) ∧
    ∀ before c after, source.toList = before ++ c :: after → Scan.isSolid c = true →
      (tokenize source).countP (·.span.covers (Text.byteLength before)) =
        if Scan.commentOpen false before then 0 else 1 := by
  refine ⟨⟨tokensIn source, (tokenize_eq source).1, cut_tokensIn source, pairwise_tokensIn source⟩, fun extra => ?_, ?_⟩
  · rw [Scan.Cursor.start, tokenize, Scan.Cursor.answers_eq, Text.byteLength_toList, Nat.zero_add]
  · intro before c after hsource hsolid
    have hcount := Scan.countP_covers hsolid 0 source.toList false before (Scan.resumes_false _) hsource
    rwa [Nat.zero_add] at hcount

/-- A bracket in a comment is in no token, and one behind it is in one. -/
theorem tokenize_lossless_comment :
    (tokenize "1e -.5;é[\né]").countP (·.span.covers 9) = 0 ∧
      (tokenize "1e -.5;é[\né]").countP (·.span.covers 13) = 1 :=
  ⟨(tokenize_lossless "1e -.5;é[\né]").2.2 "1e -.5;é".toList '[' "\né]".toList rfl rfl,
    (tokenize_lossless "1e -.5;é[\né]").2.2 "1e -.5;é[\né".toList ']' [] rfl rfl⟩

end Logo
