import Logo.Syntax.Grammar
import Logo.Token.Scan

/-! Where tokens stand. The pieces of a text are cut from its head one after the other, so the places of its tokens
lie within the text, and only the last token is an end token. -/
namespace Logo

namespace Text

theorem byteLength_cons (c : Char) (cs : List Char) : byteLength (c :: cs) = c.utf8Size + byteLength cs := by
  have hstart : ∀ n, cs.foldl (fun n c => n + c.utf8Size) n = n + byteLength cs := by
    intro n
    unfold byteLength
    induction cs generalizing n with
    | nil => simp
    | cons d ds ih =>
      simp only [List.foldl_cons]
      rw [ih, ih (0 + d.utf8Size)]
      omega
  simp only [byteLength, List.foldl_cons, Nat.zero_add]
  exact hstart c.utf8Size

theorem byteLength_append (cs ds : List Char) : byteLength (cs ++ ds) = byteLength cs + byteLength ds := by
  induction cs with
  | nil => simp [byteLength]
  | cons c cs ih =>
    simp only [List.cons_append, byteLength_cons, ih]
    omega

theorem byteLength_toList (s : String) : byteLength s.toList = s.utf8ByteSize := by
  have hlist : ∀ cs : List Char, byteLength cs = (String.ofList cs).utf8ByteSize := by
    intro cs
    induction cs with
    | nil => rfl
    | cons c cs ih => simp [byteLength_cons, ih, String.ofList_cons]
  simp [hlist]

end Text

namespace Scan

/-- What is cut from the head of the rest is cut behind the part before. -/
theorem prefix_append {part more cs : List Char} (h : part <+: cs) (h' : more <+: cs.drop part.length) :
    part ++ more <+: cs := by
  obtain ⟨rest, rfl⟩ := h
  simpa [List.prefix_append_right_inj] using h'

theorem run_isPrefix (c : Char) (p : Char → Bool) (cs : List Char) : c :: cs.takeWhile p <+: c :: cs :=
  List.cons_prefix_cons.mpr ⟨rfl, List.takeWhile_prefix p⟩

theorem fractionPart_isPrefix (cs : List Char) : fractionPart cs <+: cs := by
  unfold fractionPart
  split
  · exact run_isPrefix ..
  · simp

theorem exponentPart_isPrefix (cs : List Char) : exponentPart cs <+: cs := by
  unfold exponentPart
  split
  · split
    · split
      · exact run_isPrefix ..
      · split
        · split
          · exact List.cons_prefix_cons.mpr ⟨rfl, run_isPrefix ..⟩
          · simp
        · simp
    · simp
  · simp

theorem unsignedPart_isPrefix (cs : List Char) : unsignedPart cs <+: cs := by
  have hwhole := List.takeWhile_prefix Char.isDigit (l := cs)
  exact prefix_append (prefix_append hwhole (fractionPart_isPrefix _)) (exponentPart_isPrefix _)

theorem pointPart_isPrefix (cs : List Char) : pointPart cs <+: cs :=
  prefix_append (fractionPart_isPrefix cs) (exponentPart_isPrefix _)

theorem numeral_isPrefix (c : Char) (cs : List Char) : numeral c cs <+: c :: cs := by
  unfold numeral
  split
  · exact unsignedPart_isPrefix (c :: cs)
  · split
    · simp [unsignedPart_isPrefix]
    · split
      · exact pointPart_isPrefix (c :: cs)
      · simp

theorem mark?_isPrefix {c : Char} {cs text : List Char} {m : Mark} (h : mark? c cs = some (m, text)) :
    text <+: c :: cs ∧ text ≠ [] := by
  unfold mark? at h
  split at h <;> simp at h <;> simp [← h.2]

/-- The piece at the head of a text is a part of it and not empty. -/
theorem piece_isPrefix (c : Char) (cs : List Char) : (piece c cs).text <+: c :: cs ∧ (piece c cs).text ≠ [] := by
  unfold piece
  split
  · exact ⟨run_isPrefix .., List.cons_ne_nil _ _⟩
  · split
    · exact ⟨run_isPrefix .., List.cons_ne_nil _ _⟩
    · split
      · exact ⟨run_isPrefix .., List.cons_ne_nil _ _⟩
      · split
        · split
          · next hm => exact mark?_isPrefix hm
          · simp
        · next hne => exact ⟨numeral_isPrefix c cs, by simpa using hne⟩

theorem piece_kind {c : Char} {cs : List Char} {kind : Kind} (h : (piece c cs).kind? = some kind) :
    kind ≠ .finish := by
  unfold piece at h
  split at h
  · simp at h
  · split at h
    · simp at h
    · split at h
      · simp [← Option.some.inj h]
      · split at h
        · split at h
          · simp [← Option.some.inj h]
          · simp at h
        · simp [← Option.some.inj h]

/-- What is left behind the head piece ends where the text ends. -/
theorem byteLength_piece (offset : Nat) (c : Char) (cs : List Char) :
    offset + Text.byteLength (piece c cs).text + Text.byteLength (cs.drop ((piece c cs).text.length - 1)) =
      offset + Text.byteLength (c :: cs) := by
  obtain ⟨⟨rest, hrest⟩, hne⟩ := piece_isPrefix c cs
  cases htext : (piece c cs).text with
  | nil => exact absurd htext hne
  | cons d ds =>
    rw [htext] at hrest
    have hcs : cs = ds ++ rest := (List.cons.inj hrest).2.symm
    have hc : c = d := (List.cons.inj hrest).1.symm
    simp [hcs, hc, Nat.add_assoc, ← Text.byteLength_append]

end Scan

structure Span.Within (low high : Nat) (s : Span) : Prop where
  above : low ≤ s.start
  ordered : s.start ≤ s.stop
  below : s.stop ≤ high

theorem Span.Within.widen {low high low' high' : Nat} {s : Span} (h : s.Within low high) (hlow : low' ≤ low)
    (hhigh : high ≤ high') : s.Within low' high' :=
  ⟨Nat.le_trans hlow h.above, h.ordered, Nat.le_trans h.below hhigh⟩

/-- All tokens but the last stand in the text, in front of the end token at its end. -/
theorem Scan.tokensFrom_eq (offset : Nat) (cs : List Char) :
    ∃ inner, tokensFrom offset cs = inner ++ [.finishAt (offset + Text.byteLength cs)] ∧
      ∀ t ∈ inner, t.isFinish = false ∧ t.span.Within offset (offset + Text.byteLength cs) := by
  fun_induction tokensFrom offset cs with
  | case1 offset => exact ⟨[], rfl, by simp⟩
  | case2 offset c cs p stop rest kind hk ih =>
    obtain ⟨inner, hinner, hall⟩ := ih
    have hend : stop + Text.byteLength (cs.drop (p.text.length - 1)) = offset + Text.byteLength (c :: cs) :=
      byteLength_piece offset c cs
    have hstop : offset ≤ stop := Nat.le_add_right _ _
    have hbelow : stop ≤ offset + Text.byteLength (c :: cs) := by omega
    rw [hend] at hinner hall
    refine ⟨⟨kind, String.ofList p.text, ⟨offset, stop⟩⟩ :: inner, by rw [List.cons_append, ← hinner], ?_⟩
    simp only [List.forall_mem_cons]
    refine ⟨⟨?_, ⟨Nat.le_refl _, hstop, hbelow⟩⟩,
      fun t ht => ⟨(hall t ht).1, (hall t ht).2.widen hstop (Nat.le_refl _)⟩⟩
    have hkind := piece_kind hk
    cases kind <;> simp [Token.isFinish] at hkind ⊢
  | case3 offset c cs p stop rest hk ih =>
    obtain ⟨inner, hinner, hall⟩ := ih
    have hend : stop + Text.byteLength (cs.drop (p.text.length - 1)) = offset + Text.byteLength (c :: cs) :=
      byteLength_piece offset c cs
    have hstop : offset ≤ stop := Nat.le_add_right _ _
    rw [hend] at hinner hall
    exact ⟨inner, hinner, fun t ht => ⟨(hall t ht).1, (hall t ht).2.widen hstop (Nat.le_refl _)⟩⟩

def tokensIn (source : String) : List Token := (tokenize source).takeWhile fun t => !t.isFinish

theorem tokenize_eq (source : String) : tokenize source = tokensIn source ++ [.finishAt source.utf8ByteSize] ∧
    ∀ t ∈ tokensIn source, t.isFinish = false ∧ t.span.Within 0 source.utf8ByteSize := by
  obtain ⟨inner, htokens, hall⟩ := Scan.tokensFrom_eq 0 source.toList
  simp only [Text.byteLength_toList, Nat.zero_add] at htokens hall
  have hinner : tokensIn source = inner := by
    rw [tokensIn, tokenize, htokens, List.takeWhile_append_of_pos (by simpa using fun t ht => (hall t ht).1)]
    simp [Token.isFinish, Token.finishAt]
  rw [hinner]
  exact ⟨htokens, hall⟩

theorem within_of_mem_tokenize {source : String} {t : Token} (h : t ∈ tokenize source) :
    t.span.Within 0 source.utf8ByteSize := by
  obtain ⟨htokens, hinner⟩ := tokenize_eq source
  rw [htokens, List.mem_append, List.mem_singleton] at h
  rcases h with h | rfl
  · exact (hinner t h).2
  · exact ⟨Nat.zero_le _, Nat.le_refl _, Nat.le_refl _⟩

/-- The reader of a text starts before the tokens in it, and ends at its end. -/
theorem Reader.start_tokenize (source : String) (known : List (String × Nat)) :
    (Reader.start (tokenize source) known).rest = tokensIn source ∧
      (Reader.start (tokenize source) known).finish = .finishAt source.utf8ByteSize := by
  obtain ⟨htokens, hall⟩ := tokenize_eq source
  refine ⟨rfl, ?_⟩
  have hnone : (tokensIn source).find? Token.isFinish = none := by
    simpa using fun t ht => (hall t ht).1
  simp [start, ofTokens, htokens, List.find?_append, hnone, Token.isFinish, Token.finishAt]

end Logo
