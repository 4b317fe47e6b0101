import Logo.Proofs.Places
import Logo.Source
import Mathlib

/-! Lines and columns. The line of a byte counts the newlines before it and the column the bytes since the last of them,
so the places of bytes are ordered as the bytes are. The lines are what stands between newlines: each is cut out of the
text between characters, and with newlines between them they are the text again. The search among the starts of lines
finds what a walk along the lines finds. -/
namespace Logo

/-! ### Bytes -/

namespace Text

def bytes (cs : List Char) : List UInt8 := cs.flatMap String.utf8EncodeChar

@[simp] theorem bytes_append (cs ds : List Char) : bytes (cs ++ ds) = bytes cs ++ bytes ds := List.flatMap_append

@[simp] theorem bytes_newline (cs : List Char) : bytes ('\n' :: cs) = 10 :: bytes cs := rfl

@[simp] theorem length_bytes (cs : List Char) : (bytes cs).length = byteLength cs := by
  induction cs with
  | nil => rfl
  | cons c cs ih => simpa [bytes, byteLength_cons, String.length_utf8EncodeChar] using ih

theorem byteLength_newline (cs : List Char) : byteLength ('\n' :: cs) = byteLength cs + 1 := by
  rw [← length_bytes, bytes_newline, List.length_cons, length_bytes]

/-- The byte of the newline is part of no other character. -/
theorem newline_notMem_utf8EncodeChar {c : Char} (h : c ≠ '\n') : 10 ∉ String.utf8EncodeChar c := by
  have hval : c.val.toNat ≠ 10 := fun hc => h (Char.ext (UInt32.toNat_inj.mp hc))
  have hbyte : ∀ n < 256, n ≠ 10 → (10 : UInt8) ≠ UInt8.ofNat n := by
    intro n hn hne heq
    have hnat := congrArg UInt8.toNat heq
    rw [UInt8.toNat_ofNat_of_lt' hn] at hnat
    exact hne hnat.symm
  have hnone : ∀ ns : List Nat, (∀ n ∈ ns, n < 256 ∧ n ≠ 10) → 10 ∉ ns.map UInt8.ofNat := by
    simp only [List.mem_map, not_exists, not_and]
    intro ns hns n hn heq
    exact hbyte n (hns n hn).1 (hns n hn).2 heq.symm
  simp only [String.utf8EncodeChar]
  generalize c.val.toNat = v at hval
  split_ifs
  · exact hnone [_] (by simp; omega)
  · exact hnone [_, _] (by simp; omega)
  · exact hnone [_, _, _] (by simp; omega)
  · exact hnone [_, _, _, _] (by simp; omega)

theorem newline_notMem_bytes {cs : List Char} (h : '\n' ∉ cs) : 10 ∉ bytes cs := by
  intro hmem
  obtain ⟨c, hc, hbyte⟩ := List.mem_flatMap.mp hmem
  exact newline_notMem_utf8EncodeChar (fun heq => h (heq ▸ hc)) hbyte

theorem count_newline {cs : List Char} (h : '\n' ∉ cs) : (bytes cs).count 10 = 0 :=
  List.count_eq_zero.mpr (newline_notMem_bytes h)

/-! ### Lines -/

theorem split_eq_splitOn {α : Type} [DecidableEq α] (separator : α) (xs : List α) :
    split separator xs = xs.splitOn separator := by
  induction xs with
  | nil => rfl
  | cons x xs ih =>
    rw [List.splitOn_cons_eq_if_modifyHead, ← ih]
    have hne : split separator xs ≠ [] := ih ▸ List.splitOn_ne_nil separator xs
    by_cases hx : x = separator
    · simp [split, hx]
    · cases hpieces : split separator xs with
      | nil => exact absurd hpieces hne
      | cons piece rest =>
        simp only [split] at hpieces ⊢
        simp [hx, hpieces]

theorem splitLines_of_notMem {line : List Char} (h : '\n' ∉ line) : splitLines line = [line] := by
  rw [splitLines, split_eq_splitOn, List.splitOn_eq_singleton h]

theorem splitLines_append {line : List Char} (h : '\n' ∉ line) (rest : List Char) :
    splitLines (line ++ '\n' :: rest) = line :: splitLines rest := by
  simp only [splitLines, split_eq_splitOn, List.splitOn_append_cons_self_of_not_mem h]

theorem splitLines_ne_nil (cs : List Char) : splitLines cs ≠ [] := by
  rw [splitLines, split_eq_splitOn]
  exact List.splitOn_ne_nil _ _

theorem intercalate_splitLines (cs : List Char) : ['\n'].intercalate (splitLines cs) = cs := by
  rw [splitLines, split_eq_splitOn, List.intercalate_splitOn]

/-- A text is a single line, or a line, a newline and a text. -/
theorem lines_induction {P : List Char → Prop} (single : ∀ line, '\n' ∉ line → P line)
    (next : ∀ line rest, '\n' ∉ line → P rest → P (line ++ '\n' :: rest)) (cs : List Char) : P cs := by
  induction hlength : cs.length using Nat.strongRecOn generalizing cs with
  | ind n ih =>
    by_cases hmem : '\n' ∈ cs
    · obtain ⟨line, rest, rfl, hline⟩ := List.eq_append_cons_of_mem hmem
      refine next line rest hline (ih rest.length ?_ rest rfl)
      simp at hlength
      omega
    · exact single cs hmem

theorem length_splitLines (cs : List Char) : (splitLines cs).length = (bytes cs).count 10 + 1 := by
  induction cs using lines_induction with
  | single line hline => simp [splitLines_of_notMem hline, count_newline hline]
  | next line rest hline ih => simp [splitLines_append hline, ih, count_newline hline]

/-! ### Slices -/

/-- A part of a text lies between two positions of characters. -/
theorem exists_extract {content before text after : String} (h : content = before ++ text ++ after) :
    ∃ start stop : content.Pos, start ≤ stop ∧ String.extract start stop = text ∧
      start.offset.byteIdx = before.utf8ByteSize ∧ stop.offset.byteIdx = (before ++ text).utf8ByteSize := by
  subst h
  have hstart : String.Pos.Raw.IsValid (before ++ text ++ after) before.rawEndPos :=
    String.Pos.Raw.isValid_iff_exists_append.mpr ⟨_, _, String.append_assoc .., rfl⟩
  have hstop : String.Pos.Raw.IsValid (before ++ text ++ after) (before ++ text).rawEndPos :=
    String.Pos.Raw.isValid_iff_exists_append.mpr ⟨_, _, rfl, rfl⟩
  refine ⟨⟨_, hstart⟩, ⟨_, hstop⟩, ?_, ?_, rfl, rfl⟩
  · simp [String.Pos.le_iff, String.Pos.Raw.le_iff]
  · have hsize : (before ++ text).rawEndPos.byteIdx = (before.toByteArray ++ text.toByteArray).size := by simp
    rw [← String.toByteArray_inj, String.toByteArray_extract, String.toByteArray_append, String.toByteArray_append,
      hsize, ByteArray.extract_append_size_left]
    exact ByteArray.extract_append_eq_right (by simp) (by simp)

end Text

/-! ### Places -/

namespace Source
open Text

/-- Line and column, counted from 1, of what comes behind some bytes: each newline, a byte 10, begins a line, and the
bytes behind the last one stand in the same line. -/
def placeBehind (bs : List UInt8) : Nat × Nat := (bs.count 10 + 1, (bs.rtakeWhile (· != 10)).length + 1)

theorem placeBehind_append_of_notMem (bs : List UInt8) {more : List UInt8} (h : 10 ∉ more) :
    placeBehind (bs ++ more) = ((placeBehind bs).1, (placeBehind bs).2 + more.length) := by
  have hmore : ∀ b ∈ more.reverse, (b != 10) = true := by
    intro b hb
    rw [bne_iff_ne]
    rintro rfl
    exact h (List.mem_reverse.mp hb)
  have htail : (bs ++ more).rtakeWhile (· != 10) = bs.rtakeWhile (· != 10) ++ more := by
    simp only [List.rtakeWhile, List.reverse_append, List.takeWhile_append_of_pos hmore, List.reverse_reverse]
  simp only [placeBehind, htail, List.count_append, List.count_eq_zero.mpr h, List.length_append, Nat.add_zero,
    Nat.add_right_comm]

theorem placeBehind_of_notMem {bs : List UInt8} (h : 10 ∉ bs) : placeBehind bs = (1, bs.length + 1) := by
  have happend := placeBehind_append_of_notMem [] h
  simpa [placeBehind, Nat.add_comm] using happend

theorem placeBehind_append_newline (bs more : List UInt8) :
    placeBehind (bs ++ 10 :: more) = ((placeBehind more).1 + bs.count 10 + 1, (placeBehind more).2) := by
  have htail : (bs ++ 10 :: more).rtakeWhile (· != 10) = more.rtakeWhile (· != 10) := by
    induction more using List.reverseRecOn with
    | nil => exact List.rtakeWhile_concat_neg _ _ _ (by simp)
    | append_singleton more b ih =>
      rw [← List.cons_append, ← List.append_assoc, List.rtakeWhile_concat, List.rtakeWhile_concat, ih]
  simp only [placeBehind, htail, List.count_append, List.count_cons_self, Prod.mk.injEq, and_true]
  omega

/-- What comes later stands in a later line, or in the same line in a later column. -/
theorem placeBehind_lt (bs : List UInt8) {more : List UInt8} (h : more ≠ []) :
    toLex (placeBehind bs) < toLex (placeBehind (bs ++ more)) := by
  rw [Prod.Lex.toLex_lt_toLex]
  by_cases hmem : 10 ∈ more
  · have hcount : 0 < more.count 10 := List.count_pos_iff.mpr hmem
    left
    simp only [placeBehind, List.count_append]
    omega
  · have hlength : 0 < more.length := List.length_pos_iff.mpr h
    right
    rw [placeBehind_append_of_notMem bs hmem]
    exact ⟨rfl, Nat.lt_add_of_pos_right hlength⟩

/-! ### Lines and their starts -/

def lines (s : Source) : List (List Char) := splitLines s.content.toList

/-- A walk along the lines: the line and column, counted from 1, of a byte of the given lines. -/
def positionIn (line : Nat) : List (List Char) → Nat → Nat × Nat
  | text :: next :: rest, offset =>
    if offset ≤ byteLength text then (line, offset + 1)
    else positionIn (line + 1) (next :: rest) (offset - byteLength text - 1)
  | _, offset => (line, offset + 1)

theorem positionIn_cons {line : Nat} {text : List Char} {rest : List (List Char)} (h : rest ≠ []) (offset : Nat) :
    positionIn line (text :: rest) offset = if offset ≤ byteLength text then (line, offset + 1)
      else positionIn (line + 1) rest (offset - byteLength text - 1) := by
  cases rest with
  | nil => exact absurd rfl h
  | cons next rest => rfl

section
variable {test : Nat → Bool} {front back : List Nat} (hfront : ∀ x ∈ front, test x = true)
  (hback : ∀ x ∈ back, test x = false)
include hfront hback

/-- A place passes the test exactly if it lies in the front part. -/
theorem any_getElem?_append (i : Nat) : (front ++ back)[i]?.any test = decide (i < front.length) := by
  by_cases hi : i < front.length
  · simp [List.getElem?_append_left hi, hi, hfront _ (List.getElem_mem hi)]
  · rw [List.getElem?_append_right (by omega)]
    cases hx : back[i - front.length]? with
    | none => simp [hi]
    | some x => simp [hi, hback x (List.mem_of_getElem? hx)]

/-- The border between the parts stays between the bounds of the search. -/
theorem partitionPoint_append {low high : Nat} (hlow : low ≤ front.length) (hhigh : front.length ≤ high) :
    partitionPoint test (front ++ back) low high = front.length := by
  fun_induction partitionPoint test (front ++ back) low high with
  | case1 low high hlt middle hmiddle ih =>
    rw [any_getElem?_append hfront hback, decide_eq_true_iff] at hmiddle
    exact ih hmiddle hhigh
  | case2 low high hlt middle hmiddle ih =>
    rw [any_getElem?_append hfront hback, decide_eq_true_iff] at hmiddle
    exact ih hlow (by omega)
  | case3 low high hlt => omega

end

theorem behindNewlines_of_notMem {line : List Char} (h : '\n' ∉ line) (offset : Nat) (rest : List Char) :
    behindNewlines offset (line ++ rest) = behindNewlines (offset + byteLength line) rest := by
  induction line generalizing offset with
  | nil => rfl
  | cons c line ih =>
    rw [List.mem_cons, not_or] at h
    rw [List.cons_append, behindNewlines, if_neg (Ne.symm h.1), ih h.2, byteLength_cons, Nat.add_assoc]

theorem behindNewlines_single {line : List Char} (h : '\n' ∉ line) (offset : Nat) :
    behindNewlines offset line = [] := by
  have hend := behindNewlines_of_notMem h offset []
  rwa [List.append_nil] at hend

theorem behindNewlines_next {line : List Char} (h : '\n' ∉ line) (offset : Nat) (rest : List Char) :
    behindNewlines offset (line ++ '\n' :: rest) =
      (offset + byteLength line + 1) :: behindNewlines (offset + byteLength line + 1) rest := by
  rw [behindNewlines_of_notMem h, behindNewlines, if_pos rfl]
  rfl

theorem lt_of_mem_behindNewlines {offset start : Nat} {cs : List Char} (h : start ∈ behindNewlines offset cs) :
    offset < start := by
  induction cs using lines_induction generalizing offset with
  | single line hline => simp [behindNewlines_single hline] at h
  | next line rest hline ih =>
    rw [behindNewlines_next hline, List.mem_cons] at h
    rcases h with rfl | h
    · omega
    · have hlt := ih h
      omega

/-- The place of a byte by the number of lines that start before it and the start of the last of them, for a text that
starts at the offset `base`. -/
theorem positionIn_starts (cs : List Char) (first base offset : Nat) :
    ∃ front start back, base :: behindNewlines base cs = front ++ start :: back ∧
      (∀ x ∈ front ++ [start], x ≤ base + offset) ∧ (∀ x ∈ back, base + offset < x) ∧
      positionIn first (splitLines cs) offset = (first + front.length, base + offset - start + 1) := by
  -- Along the lines, since the walk goes on in the rest from the start of the next line.
  induction cs using lines_induction generalizing first base offset with
  | single line hline =>
    refine ⟨[], base, [], ?_, ?_, ?_, ?_⟩
    · rw [behindNewlines_single hline, List.nil_append]
    · simp
    · simp
    · rw [splitLines_of_notMem hline, Nat.add_sub_cancel_left]
      rfl
  | next line rest hline ih =>
    rw [behindNewlines_next hline, splitLines_append hline, positionIn_cons (splitLines_ne_nil rest)]
    split_ifs with hle
    · refine ⟨[], base, _, rfl, by simp, ?_, by simp⟩
      intro x hx
      rcases List.mem_cons.mp hx with rfl | hx
      · omega
      · have hlt := lt_of_mem_behindNewlines hx
        omega
    · obtain ⟨front, start, back, hstarts, hfront, hback, hposition⟩ :=
        ih (first + 1) (base + byteLength line + 1) (offset - byteLength line - 1)
      have hoffset : base + byteLength line + 1 + (offset - byteLength line - 1) = base + offset := by omega
      rw [hoffset] at hfront hback hposition
      refine ⟨base :: front, start, back, by rw [hstarts, List.cons_append], ?_, hback, ?_⟩
      · simpa using hfront
      · rw [hposition, List.length_cons, Nat.add_assoc, Nat.add_comm 1]

theorem position_walk (s : Source) (offset : Nat) : s.position offset = positionIn 1 s.lines offset := by
  obtain ⟨front, start, back, hstarts, hfront, hback, hposition⟩ := positionIn_starts s.content.toList 1 0 offset
  rw [Nat.zero_add] at hfront hback hposition
  have hpoint : partitionPoint (· ≤ offset) s.lineStarts 0 s.lineStarts.length = front.length + 1 := by
    rw [lineStarts, hstarts, List.append_cons]
    have hholds : ∀ x ∈ front ++ [start], decide (x ≤ offset) = true := by simpa using hfront
    have hfails : ∀ x ∈ back, decide (x ≤ offset) = false := by simpa using hback
    rw [partitionPoint_append hholds hfails (Nat.zero_le _) (by simp), List.length_append, List.length_singleton]
  rw [position, hpoint, Nat.add_sub_cancel, lineStarts, hstarts, lines, hposition, Nat.add_comm 1]
  simp

theorem length_starts (base : Nat) (cs : List Char) :
    (base :: behindNewlines base cs).length = (splitLines cs).length := by
  induction cs using lines_induction generalizing base with
  | single line hline => rw [behindNewlines_single hline, splitLines_of_notMem hline]; rfl
  | next line rest hline ih =>
    rw [behindNewlines_next hline, splitLines_append hline, List.length_cons, ih, List.length_cons]

/-! ### Positions -/

theorem placeBehind_take {text : List Char} (hnone : '\n' ∉ text) {offset : Nat} (h : offset ≤ byteLength text) :
    placeBehind ((bytes text).take offset) = (1, offset + 1) := by
  have hbytes : 10 ∉ (bytes text).take offset := fun hmem => newline_notMem_bytes hnone (List.mem_of_mem_take hmem)
  rw [placeBehind_of_notMem hbytes, List.length_take, length_bytes, Nat.min_eq_left h]

/-- The position of a byte is the place behind the bytes before it. Its line is there and is long enough for its
column. -/
theorem positionIn_splitLines (cs : List Char) {offset : Nat} (h : offset ≤ byteLength cs) (first : Nat) :
    ∃ n text column, (splitLines cs)[n]? = some text ∧ column ≤ byteLength text ∧
      positionIn first (splitLines cs) offset = (first + n, column + 1) ∧
      placeBehind ((bytes cs).take offset) = (n + 1, column + 1) := by
  -- Along the lines, since the search goes on in the rest with the next number and a smaller offset.
  induction cs using lines_induction generalizing offset first with
  | single text hnone =>
    rw [splitLines_of_notMem hnone]
    exact ⟨0, text, offset, rfl, h, rfl, placeBehind_take hnone h⟩
  | next text rest hnone ih =>
    rw [splitLines_append hnone, positionIn_cons (splitLines_ne_nil rest), bytes_append, bytes_newline]
    split_ifs with hle
    · have htake : (bytes text ++ 10 :: bytes rest).take offset = (bytes text).take offset :=
        List.take_append_of_le_length (by simpa using hle)
      exact ⟨0, text, offset, rfl, hle, rfl, by rw [htake, placeBehind_take hnone hle]⟩
    · obtain ⟨k, rfl⟩ : ∃ k, offset = byteLength text + (k + 1) := ⟨offset - byteLength text - 1, by omega⟩
      have hk : k ≤ byteLength rest := by
        rw [byteLength_append, byteLength_newline] at h
        omega
      have hoffset : byteLength text + (k + 1) - byteLength text - 1 = k := by omega
      have htake : (bytes text ++ 10 :: bytes rest).take (byteLength text + (k + 1)) =
          bytes text ++ 10 :: (bytes rest).take k := by
        rw [← length_bytes, List.take_length_add_append, List.take_succ_cons]
      obtain ⟨n, found, column, hfound, hcolumn, hposition, hplace⟩ := ih hk (first + 1)
      refine ⟨n + 1, found, column, by simpa using hfound, hcolumn, ?_, ?_⟩
      · rw [hoffset, hposition, Nat.add_assoc, Nat.add_comm 1 n]
      · rw [htake, placeBehind_append_newline, hplace, count_newline hnone]

/-- A line is cut out of the text behind as many newlines as there are lines before it, from its start up to the
newline before the next start. -/
theorem exists_cut (cs : List Char) (base : Nat) {n : Nat} {text : List Char} (h : (splitLines cs)[n]? = some text) :
    ∃ before after, cs = before ++ text ++ after ∧ '\n' ∉ text ∧ placeBehind (bytes before) = (n + 1, 1) ∧
      (base :: behindNewlines base cs)[n]? = some (base + byteLength before) ∧
      ((behindNewlines base cs)[n]?.map (· - 1)).getD (base + byteLength cs) = base + byteLength (before ++ text) := by
  induction cs using lines_induction generalizing n base with
  | single line hline =>
    rw [splitLines_of_notMem hline] at h
    obtain ⟨rfl, rfl⟩ : n = 0 ∧ line = text := by simpa using List.getElem?_eq_some_iff.mp h
    exact ⟨[], [], by simp, hline, rfl, rfl, by simp [behindNewlines_single hline]⟩
  | next line rest hline ih =>
    rw [splitLines_append hline] at h
    rw [behindNewlines_next hline]
    cases n with
    | zero =>
      obtain rfl : line = text := by simpa using h
      exact ⟨[], '\n' :: rest, by simp, hline, rfl, rfl, by simp⟩
    | succ n =>
      obtain ⟨before, after, hrest, htext, hbefore, hstart, hstop⟩ :=
        ih (base + byteLength line + 1) (by simpa using h)
      refine ⟨line ++ '\n' :: before, after, by simp [hrest], htext, ?_, ?_, ?_⟩
      · rw [bytes_append, bytes_newline, placeBehind_append_newline, hbefore, count_newline hline]
      · rw [List.getElem?_cons_succ, hstart, byteLength_append, byteLength_newline]
        congr 1
        omega
      · have hsize : base + byteLength (line ++ '\n' :: rest) = base + byteLength line + 1 + byteLength rest := by
          rw [byteLength_append, byteLength_newline]
          omega
        rw [List.getElem?_cons_succ, hsize, hstop]
        simp only [byteLength_append, byteLength_newline]
        omega

/-! ### Sources -/

section
variable (s : Source)

def bytes : List UInt8 := s.content.toUTF8.data.toList

theorem bytes_eq : s.bytes = Text.bytes s.content.toList := by
  have hencode : s.content.toUTF8 = s.content.toList.utf8Encode := String.utf8Encode_toList.symm
  rw [bytes, hencode, List.utf8Encode, List.toList_data_toByteArray, Text.bytes]

theorem length_bytes : s.bytes.length = s.content.utf8ByteSize := by
  rw [bytes_eq, Text.length_bytes, byteLength_toList]

theorem position_eq {offset : Nat} (h : offset ≤ s.content.utf8ByteSize) :
    s.position offset = placeBehind (s.bytes.take offset) := by
  rw [← byteLength_toList] at h
  obtain ⟨n, text, column, -, -, hposition, hplace⟩ := positionIn_splitLines s.content.toList h 1
  rw [position_walk, lines, hposition, bytes_eq, hplace, Nat.add_comm 1 n]

/-- The place behind characters at the front of the text. -/
theorem position_front {front back : String} (h : s.content = front ++ back) :
    s.position front.utf8ByteSize = placeBehind (Text.bytes front.toList) := by
  have hle : front.utf8ByteSize ≤ s.content.utf8ByteSize := by
    rw [h, String.utf8ByteSize_append]
    exact Nat.le_add_right _ _
  rw [position_eq s hle, bytes_eq, h, String.toList_append, bytes_append, ← byteLength_toList, ← Text.length_bytes,
    List.take_left]

@[simp] theorem line?_zero : s.line? 0 = none := rfl

/-- The bytes of a line are those of the characters between its newlines. -/
theorem line?_succ (n : Nat) : s.line? (n + 1) = s.lines[n]?.map String.ofList := by
  have hlength : s.lineStarts.length = s.lines.length := length_starts 0 s.content.toList
  cases hline : s.lines[n]? with
  | none =>
    have hle : s.lines.length ≤ n := by simpa using hline
    simp [line?, hlength, Nat.lt_succ_of_le hle]
  | some line =>
    obtain ⟨before, after, hcut, -, -, hstart, hstop⟩ := exists_cut s.content.toList 0 hline
    have hcontent : s.content = String.ofList before ++ String.ofList line ++ String.ofList after := by
      rw [← String.ofList_append, ← String.ofList_append, ← hcut, String.ofList_toList]
    obtain ⟨start, stop, -, hextract, hoffset, hoffset'⟩ := exists_extract hcontent
    have hrange : ¬(n + 1 = 0 || s.lineStarts.length < n + 1) = true := by
      have hlt : n < s.lineStarts.length := hlength ▸ (List.getElem?_eq_some_iff.mp hline).1
      simp
      omega
    have hfirst : s.lineStarts.getD n 0 = start.offset.byteIdx := by
      rw [hoffset, List.getD_eq_getElem?_getD, lineStarts, hstart, Option.getD_some, Nat.zero_add, ← byteLength_toList,
        String.toList_ofList]
    have hlast : (s.lineStarts[n + 1]?.map (· - 1)).getD s.content.utf8ByteSize = stop.offset.byteIdx := by
      rw [hoffset', lineStarts, List.getElem?_cons_succ, ← byteLength_toList s.content, ← String.ofList_append,
        ← byteLength_toList, String.toList_ofList]
      simpa using hstop
    have hslice : s.content.toUTF8.extract start.offset.byteIdx stop.offset.byteIdx =
        (String.ofList line).toByteArray := by
      rw [← hextract, String.toByteArray_extract]
      rfl
    simp only [line?, if_neg hrange, Nat.add_sub_cancel, hfirst, hlast, hslice]
    exact dif_pos (String.ofList line).isValidUTF8

theorem length_lines : s.lines.length = s.bytes.count 10 + 1 := by
  rw [lines, length_splitLines, bytes_eq]

theorem isSome_line?_iff (n : Nat) : (s.line? n).isSome ↔ 1 ≤ n ∧ n ≤ s.bytes.count 10 + 1 := by
  cases n with
  | zero => simp
  | succ n => simp [line?_succ, ← length_lines]

theorem filterMap_line? (n : Nat) : (List.range' 1 n).filterMap s.line? = (s.lines.take n).map String.ofList := by
  induction n with
  | zero => simp
  | succ n ih =>
    rw [List.range'_1_concat, List.filterMap_append, ih, List.take_add_one, List.map_append, Nat.add_comm 1 n]
    cases hline : s.lines[n]? <;> simp [line?_succ, hline]

theorem intercalate_lines : "\n".intercalate (s.lines.map String.ofList) = s.content := by
  rw [← String.toList_inj, String.toList_intercalate, List.map_map]
  simpa [Function.comp_def, lines] using intercalate_splitLines s.content.toList

/-- Every line is a slice of the text between two positions of characters. -/
theorem exists_slice {n : Nat} {text : String} (h : s.line? n = some text) : ∃ start stop : s.content.Pos,
    start ≤ stop ∧ String.extract start stop = text ∧ s.position start.offset.byteIdx = (n, 1) ∧
    s.position stop.offset.byteIdx = (n, text.utf8ByteSize + 1) := by
  cases n with
  | zero => cases h
  | succ n =>
    rw [line?_succ] at h
    obtain ⟨line, hline, rfl⟩ := Option.map_eq_some_iff.mp h
    obtain ⟨before, after, hcut, hnone, hbefore, -⟩ := exists_cut s.content.toList 0 hline
    have hcontent : s.content = String.ofList before ++ String.ofList line ++ String.ofList after := by
      rw [← String.ofList_append, ← String.ofList_append, ← hcut, String.ofList_toList]
    obtain ⟨start, stop, hle, hextract, hstart, hstop⟩ := exists_extract hcontent
    refine ⟨start, stop, hle, hextract, ?_, ?_⟩
    · rw [hstart, position_front s (hcontent.trans (String.append_assoc ..)), String.toList_ofList, hbefore]
    · rw [hstop, position_front s hcontent, ← String.ofList_append, String.toList_ofList, bytes_append,
        placeBehind_append_of_notMem _ (newline_notMem_bytes hnone), hbefore, Text.length_bytes, ← byteLength_toList,
        String.toList_ofList, Nat.add_comm 1]

theorem position_lt {o o' : Nat} (h : o < o') (hsize : o' ≤ s.content.utf8ByteSize) :
    toLex (s.position o) < toLex (s.position o') := by
  have hbetween : (s.bytes.take o').drop o ≠ [] := by
    apply List.ne_nil_of_length_pos
    simp only [List.length_drop, List.length_take, length_bytes]
    omega
  have htake : s.bytes.take o' = s.bytes.take o ++ (s.bytes.take o').drop o := by
    have hfront : (s.bytes.take o').take o = s.bytes.take o := by rw [List.take_take, Nat.min_eq_left h.le]
    rw [← hfront, List.take_append_drop]
  rw [position_eq s (h.le.trans hsize), position_eq s hsize, htake]
  exact placeBehind_lt _ hbetween

theorem column_le {offset : Nat} (h : offset ≤ s.content.utf8ByteSize) :
    ∃ text, s.line? (s.position offset).1 = some text ∧ (s.position offset).2 - 1 ≤ text.utf8ByteSize := by
  rw [← byteLength_toList] at h
  obtain ⟨n, line, column, hline, hcolumn, hposition, -⟩ := positionIn_splitLines s.content.toList h 1
  refine ⟨String.ofList line, ?_, ?_⟩
  · rw [position_walk, lines, hposition, Nat.add_comm 1 n, line?_succ, lines, hline, Option.map_some]
  · rw [position_walk, lines, hposition, ← byteLength_toList, String.toList_ofList]
    exact hcolumn

end

/-- The line of a byte, also of one inside a character, is told by the newlines before it and the column by the bytes
since the last of them, so the places of two bytes are ordered as the bytes are. There is one line more than newlines.
Each line is the slice of the text between two positions of characters, from the first place of the line to the last;
all lines with newlines between them are the text; and no column lies beyond its line. -/
theorem positions_exact (s : Source) :
    (∀ o ≤ s.content.utf8ByteSize, s.position o =
      ((s.bytes.take o).count 10 + 1, ((s.bytes.take o).rtakeWhile (· != 10)).length + 1)) ∧
    (∀ o o', o < o' → o' ≤ s.content.utf8ByteSize → toLex (s.position o) < toLex (s.position o')) ∧
    (∀ n, (s.line? n).isSome ↔ 1 ≤ n ∧ n ≤ s.bytes.count 10 + 1) ∧
    (∀ n text, s.line? n = some text → ∃ start stop : s.content.Pos,
      start ≤ stop ∧ String.extract start stop = text ∧ s.position start.offset.byteIdx = (n, 1) ∧
      s.position stop.offset.byteIdx = (n, text.utf8ByteSize + 1)) ∧
    "\n".intercalate ((List.range' 1 (s.bytes.count 10 + 1)).filterMap s.line?) = s.content ∧
    (∀ o ≤ s.content.utf8ByteSize,
      ∃ text, s.line? (s.position o).1 = some text ∧ (s.position o).2 - 1 ≤ text.utf8ByteSize) := by
  refine ⟨fun o ho => position_eq s ho, fun o o' h h' => position_lt s h h', isSome_line?_iff s,
    fun n text h => exists_slice s h, ?_, fun o ho => column_le s ho⟩
  rw [filterMap_line?, ← length_lines, List.take_length, intercalate_lines]

/-- A text with a letter of two bytes, an empty line and a newline at its end: a place inside the letter, and one behind
the last newline. -/
theorem positions_exact_accent :
    1 ≤ "é\n\nx\n".utf8ByteSize ∧ 6 ≤ "é\n\nx\n".utf8ByteSize ∧
    position ⟨"", "é\n\nx\n"⟩ 1 = (1, 2) ∧ position ⟨"", "é\n\nx\n"⟩ 6 = (4, 1) ∧
    toLex (position ⟨"", "é\n\nx\n"⟩ 1) < toLex (position ⟨"", "é\n\nx\n"⟩ 6) ∧
    (line? ⟨"", "é\n\nx\n"⟩ 4).isSome ∧ ¬(line? ⟨"", "é\n\nx\n"⟩ 5).isSome ∧
    ∃ start stop : "é\n\nx\n".Pos, String.extract start stop = "é" ∧
      position ⟨"", "é\n\nx\n"⟩ stop.offset.byteIdx = (1, "é".utf8ByteSize + 1) := by
  obtain ⟨hposition, hlt, hsome, hslice, -⟩ := positions_exact ⟨"", "é\n\nx\n"⟩
  have hsize : "é\n\nx\n".utf8ByteSize = 6 := by decide
  rw [hsize] at *
  obtain ⟨start, stop, -, hextract, -, hstop⟩ := hslice 1 "é" (by decide)
  refine ⟨by decide, le_refl 6, hposition 1 (by decide), hposition 6 (le_refl 6), hlt 1 6 (by decide) (le_refl 6),
    (hsome 4).mpr (by decide), ?_, start, stop, hextract, hstop⟩
  rw [hsome 5]
  decide

end Source
end Logo
