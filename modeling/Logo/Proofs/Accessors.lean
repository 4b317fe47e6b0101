import Logo.Operations
import Logo.Proofs.Number.Whole

/-! The operations that look into lists. Positions are doubles that count from 1; as long as a list has fewer than
`2^53` items each of its positions is a double of its own, and `POSITION`, `MEMBER?`, `ITEM`, `COUNT`, `FIRST` and
`LAST` speak of the same items. -/
namespace Logo.Operation
open Number

section
variable {index : Float} {items : List Value} {v : Value}

/-! ### Items -/

theorem itemAt_of_value {n : Nat} (hvalue : value? index = some ((n : ℚ) + 1)) (hitem : items[n]? = some v) :
    itemAt index items = .ok v := by
  have hwhole : toInt? index = some (.ofNat (n + 1)) := toInt?_eq_some_iff.mpr (by simpa using hvalue)
  unfold itemAt
  rw [hwhole]
  simp only [hitem]

theorem value_of_itemAt (h : itemAt index items = .ok v) :
    ∃ n : Nat, value? index = some ((n : ℚ) + 1) ∧ items[n]? = some v := by
  unfold itemAt at h
  split at h
  · next n hwhole =>
    refine ⟨n, by simpa using toInt?_eq_some_iff.mp hwhole, ?_⟩
    cases hitem : items[n]? with
    | none => simp [hitem] at h
    | some found => simpa [hitem] using h
  · cases h

/-- Where no item is found the position is out of bounds. -/
theorem itemAt_of_not_ok (h : ∀ v, itemAt index items ≠ .ok v) :
    itemAt index items = .error (.indexOutOfBounds index items.length) := by
  unfold itemAt at h ⊢
  split
  · next n hwhole =>
    rw [hwhole] at h
    cases hitem : items[n]? with
    | none => rfl
    | some found => simp [hitem] at h
  · rfl

/-- An item is found exactly at the whole numbers from 1 to the length. -/
theorem exists_itemAt_iff (hlength : items.length < 2 ^ 53) : (∃ v, itemAt index items = .ok v) ↔
    (∃ z : Int, value? index = some (z : ℚ)) ∧ 1 ≤ index ∧ index ≤ Number.ofNat items.length := by
  have hcount := value?_ofNat hlength
  constructor
  · rintro ⟨v, hv⟩
    obtain ⟨n, hvalue, hitem⟩ := value_of_itemAt hv
    have hn : n < items.length := (List.getElem?_eq_some_iff.mp hitem).1
    have hn' : (n : ℚ) + 1 ≤ items.length := by exact_mod_cast hn
    refine ⟨⟨n + 1, by simpa using hvalue⟩, ?_, ?_⟩
    · rw [le_iff value?_one hvalue]
      linarith [n.cast_nonneg (α := ℚ)]
    · rwa [le_iff hvalue hcount]
  · rintro ⟨⟨z, hz⟩, hleast, hgreatest⟩
    rw [le_iff value?_one hz] at hleast
    rw [le_iff hz hcount] at hgreatest
    have hleast' : 1 ≤ z := by exact_mod_cast hleast
    have hgreatest' : z ≤ items.length := by exact_mod_cast hgreatest
    obtain ⟨n, rfl⟩ : ∃ n : Nat, z = n + 1 := ⟨(z - 1).toNat, by omega⟩
    have hn : n < items.length := by omega
    exact ⟨items[n], itemAt_of_value (by simpa using hz) (List.getElem?_eq_getElem hn)⟩

def outOfBounds (index : Float) (count : Nat) : Bool :=
  fract index != 0 || index < 1 || Number.ofNat count < index

theorem outOfBounds_eq_false_iff (hlength : items.length < 2 ^ 53) :
    outOfBounds index items.length = false ↔ ∃ v, itemAt index items = .ok v := by
  have hcount := value?_ofNat hlength
  rw [exists_itemAt_iff hlength, ← fract_beq_zero_iff]
  unfold outOfBounds
  simp only [Bool.or_eq_false_iff, decide_eq_false_iff_not, bne, Bool.not_eq_false', and_assoc]
  refine and_congr_right fun hfract => ?_
  obtain ⟨z, hz⟩ := (fract_beq_zero_iff index).mp hfract
  rw [lt_iff hz value?_one, lt_iff hcount hz, le_iff value?_one hz, le_iff hz hcount, not_lt, not_lt]

theorem get_of_itemAt (hlength : items.length < 2 ^ 53) (h : itemAt index items = .ok v) :
    ∃ hi : index.toUInt64.toNat - 1 < items.length, items.get ⟨index.toUInt64.toNat - 1, hi⟩ = v := by
  obtain ⟨n, hvalue, hitem⟩ := value_of_itemAt h
  obtain ⟨hn, hv⟩ := List.getElem?_eq_some_iff.mp hitem
  have hword : index.toUInt64.toNat = n + 1 := by
    have hfloor : ⌊(n : ℚ) + 1⌋ = n + 1 := by exact_mod_cast Int.floor_natCast (R := ℚ) (n + 1)
    rw [toNat_toUInt64 hvalue, hfloor]
    omega
  simp only [hword, Nat.add_sub_cancel]
  exact ⟨hn, hv⟩

/-- The conversion of a position that is not out of bounds is an index of the list. -/
theorem index_lt (hlength : items.length < 2 ^ 53) (h : outOfBounds index items.length = false) :
    index.toUInt64.toNat - 1 < items.length := by
  obtain ⟨v, hv⟩ := (outOfBounds_eq_false_iff hlength).mp h
  exact (get_of_itemAt hlength hv).1

/-- An item is found by checks of the position as a double, and then by its conversion to a word. -/
theorem itemAt_eq_get (hlength : items.length < 2 ^ 53) (index : Float) : itemAt index items =
    if h : outOfBounds index items.length = false then
      .ok (items.get ⟨index.toUInt64.toNat - 1, index_lt hlength h⟩)
    else .error (.indexOutOfBounds index items.length) := by
  split_ifs with h
  · obtain ⟨v, hv⟩ := (outOfBounds_eq_false_iff hlength).mp h
    obtain ⟨_, hget⟩ := get_of_itemAt hlength hv
    exact hv.trans (congrArg Except.ok hget.symm)
  · exact itemAt_of_not_ok fun v hv => h ((outOfBounds_eq_false_iff hlength).mpr ⟨v, hv⟩)

/-! ### Positions -/

theorem positionOf_eq_zero_iff : positionOf v items = 0 ↔ items.any (·.same v) = false := by
  unfold positionOf
  cases h : items.findIdx? (·.same v) with
  | none =>
    have hnone := List.findIdx?_eq_none_iff.mp h
    simpa using hnone
  | some n =>
    obtain ⟨hn, hsame, -⟩ := List.findIdx?_eq_some_iff_getElem.mp h
    have hany : items.any (·.same v) = true := List.any_eq_true.mpr ⟨items[n], List.getElem_mem hn, hsame⟩
    simp [hany]

/-- A position other than 0 is that of the first item that is the same. -/
theorem first_of_positionOf {n : Nat} (h : positionOf v items = n + 1) :
    (∃ found, items[n]? = some found ∧ found.same v = true) ∧
      ∀ j < n, ∀ other, items[j]? = some other → other.same v = false := by
  unfold positionOf at h
  cases hfind : items.findIdx? (·.same v) with
  | none => simp [hfind] at h
  | some i =>
    obtain rfl : i = n := by simpa [hfind] using h
    obtain ⟨hi, hsame, hbefore⟩ := List.findIdx?_eq_some_iff_getElem.mp hfind
    refine ⟨⟨items[i], List.getElem?_eq_getElem hi, hsame⟩, fun j hj other hother => ?_⟩
    obtain ⟨hj', rfl⟩ := List.getElem?_eq_some_iff.mp hother
    simpa using hbefore j hj

theorem positionOf_le : positionOf v items ≤ items.length := by
  cases h : positionOf v items with
  | zero => exact Nat.zero_le _
  | succ n =>
    obtain ⟨⟨found, hfound, -⟩, -⟩ := first_of_positionOf h
    exact (List.getElem?_eq_some_iff.mp hfound).1

end

/-! ### The operations -/

section
variable {x y : Value} {xs : List Value} {i : Float} {m : Machine}

theorem item_ok_iff : item.apply [.number i, .list xs] m = .ok y m ↔ itemAt i xs = .ok y := by
  have hitem : item.apply [.number i, .list xs] m = Eval.ofExcept (itemAt i xs) m := rfl
  rw [hitem]
  cases itemAt i xs with
  | ok found =>
    have hfound : (Eval.ofExcept (.ok found) : Eval Value) m = .ok found m := rfl
    simp [hfound]
  | error c =>
    have hraise : (Eval.ofExcept (.error c) : Eval Value) m = .error (.fault ⟨c, none⟩) m := rfl
    simp [hraise]

theorem item_of_not_ok (h : ¬∃ y, item.apply [.number i, .list xs] m = .ok y m) :
    item.apply [.number i, .list xs] m = .error (.fault ⟨.indexOutOfBounds i xs.length, none⟩) m := by
  have hitem : item.apply [.number i, .list xs] m = Eval.ofExcept (itemAt i xs) m := rfl
  rw [hitem, itemAt_of_not_ok fun v hv => h ⟨v, item_ok_iff.mpr hv⟩]
  rfl

theorem pick_of_some {op : Operation} {f : List Value → Option Value} (h : f xs = some y) :
    op.pick (.list xs) f = .ok y := by
  unfold pick Value.toList
  simp only [bind, Except.bind, h]
  rfl

/-- A list that is not empty is its first item before the others, and its last item behind the others. -/
theorem ends_of_ne_nil (hne : xs ≠ []) (hlength : xs.length < 2 ^ 53) (m : Machine) : ∃ head last rest front,
    first.apply [.list xs] m = .ok head m ∧ item.apply [.number 1, .list xs] m = .ok head m ∧
    Operation.last.apply [.list xs] m = .ok last m ∧
    item.apply [.number (Number.ofNat xs.length), .list xs] m = .ok last m ∧
    butFirst.apply [.list xs] m = .ok (.list rest) m ∧ fput.apply [head, .list rest] m = .ok (.list xs) m ∧
    butLast.apply [.list xs] m = .ok (.list front) m ∧ lput.apply [last, .list front] m = .ok (.list xs) m := by
  have hfirst : first.apply [.list xs] m = Eval.ofExcept (first.pick (.list xs) List.head?) m := rfl
  have hlast : last.apply [.list xs] m = Eval.ofExcept (last.pick (.list xs) List.getLast?) m := rfl
  have hsize : 0 < xs.length := List.length_pos_iff.mpr hne
  refine ⟨xs.head hne, xs.getLast hne, xs.tail, xs.dropLast, ?_, item_ok_iff.mpr ?_, ?_, item_ok_iff.mpr ?_,
    rfl, ?_, rfl, ?_⟩
  · rw [hfirst, pick_of_some (List.head?_eq_some_head hne)]
    rfl
  · apply itemAt_of_value (n := 0)
    · simpa using value?_one
    · rw [← List.head?_eq_getElem?, List.head?_eq_some_head hne]
  · rw [hlast, pick_of_some (List.getLast?_eq_some_getLast hne)]
    rfl
  · apply itemAt_of_value (n := xs.length - 1)
    · rw [value?_ofNat hlength, Nat.cast_sub hsize]
      simp
    · rw [← List.getLast?_eq_getElem?, List.getLast?_eq_some_getLast hne]
  · have hput : fput.apply [xs.head hne, .list xs.tail] m = .ok (.list (xs.head hne :: xs.tail)) m := rfl
    rw [hput, List.cons_head_tail]
  · have hput : lput.apply [xs.getLast hne, .list xs.dropLast] m =
      .ok (.list (xs.dropLast ++ [xs.getLast hne])) m := rfl
    rw [hput, List.dropLast_append_getLast]

end

/-- `POSITION` finds the first item that is the same, `MEMBER?` says whether there is one, and `ITEM` gives the items at
the whole numbers from 1 to `COUNT` and is out of bounds everywhere else. `FIRST` and `LAST` are the items at the two
ends, and a list is put together again from each of them and the rest. -/
theorem accessors_agree (x : Value) (xs : List Value) (hlength : xs.length < 2 ^ 53) (m : Machine) : ∃ k size : Float,
    position.apply [x, .list xs] m = .ok (.number k) m ∧
    count.apply [.list xs] m = .ok (.number size) m ∧
    isMember.apply [x, .list xs] m = .ok (.ofBool (k != 0)) m ∧
    ((k == 0) = false →
      (∃ y, item.apply [.number k, .list xs] m = .ok y m ∧ y.same x = true) ∧
      ∀ j y, 1 ≤ j → j < k → item.apply [.number j, .list xs] m = .ok y m → y.same x = false) ∧
    (∀ i, (∃ y, item.apply [.number i, .list xs] m = .ok y m) ↔
      (∃ z : Int, value? i = some (z : ℚ)) ∧ 1 ≤ i ∧ i ≤ size) ∧
    (∀ i y, item.apply [.number i, .list xs] m = .ok y m →
      ∃ n : Nat, value? i = some ((n : ℚ) + 1) ∧ xs[n]? = some y) ∧
    (∀ i, (¬∃ y, item.apply [.number i, .list xs] m = .ok y m) →
      item.apply [.number i, .list xs] m = .error (.fault ⟨.indexOutOfBounds i xs.length, none⟩) m) ∧
    (xs ≠ [] → ∃ head last rest front,
      first.apply [.list xs] m = .ok head m ∧ item.apply [.number 1, .list xs] m = .ok head m ∧
      Operation.last.apply [.list xs] m = .ok last m ∧ item.apply [.number size, .list xs] m = .ok last m ∧
      butFirst.apply [.list xs] m = .ok (.list rest) m ∧ fput.apply [head, .list rest] m = .ok (.list xs) m ∧
      butLast.apply [.list xs] m = .ok (.list front) m ∧ lput.apply [last, .list front] m = .ok (.list xs) m) := by
  have hmember : isMember.apply [x, .list xs] m = .ok (.ofBool (xs.any (·.same x))) m := rfl
  have hk := value?_ofNat ((positionOf_le (v := x)).trans_lt hlength)
  have hzero : (Number.ofNat (positionOf x xs) == 0) = !xs.any (·.same x) := by
    rw [Bool.eq_iff_iff, beq_iff hk value?_zero, Bool.not_eq_true', ← positionOf_eq_zero_iff]
    exact_mod_cast Iff.rfl
  refine ⟨Number.ofNat (positionOf x xs), Number.ofNat xs.length, rfl, rfl, ?_, ?_, ?_, ?_, ?_, ?_⟩
  · rw [hmember, bne, hzero, Bool.not_not]
  · intro hne
    have hposition : positionOf x xs ≠ 0 := by
      rw [hzero, Bool.not_eq_false'] at hne
      simp [positionOf_eq_zero_iff, hne]
    obtain ⟨n, hn⟩ := Nat.exists_eq_succ_of_ne_zero hposition
    obtain ⟨⟨found, hfound, hsame⟩, hbefore⟩ := first_of_positionOf hn
    rw [hn] at hk
    push_cast at hk
    rw [hn]
    refine ⟨⟨found, item_ok_iff.mpr (itemAt_of_value hk hfound), hsame⟩, fun j y _ hlt hy => ?_⟩
    obtain ⟨i, hi, hitem⟩ := value_of_itemAt (item_ok_iff.mp hy)
    rw [lt_iff hi hk] at hlt
    have hin : i < n := by
      have : (i : ℚ) < n := by linarith
      exact_mod_cast this
    exact hbefore i hin y hitem
  · intro i
    simp only [item_ok_iff]
    exact exists_itemAt_iff hlength
  · exact fun i y hy => value_of_itemAt (item_ok_iff.mp hy)
  · exact fun i hi => item_of_not_ok hi
  · exact fun hne => ends_of_ne_nil hne hlength m

/-- The second item of `[[] [[]]]` is the first that is `[[]]`. -/
theorem accessors_agree_nested : ∃ k : Float,
    [Value.list [], .list [.list []]].length < 2 ^ 53 ∧
    position.apply [.list [.list []], .list [.list [], .list [.list []]]] {} = .ok (.number k) {} ∧ (k == 0) = false ∧
    (∃ y, item.apply [.number k, .list [.list [], .list [.list []]]] {} = .ok y {} ∧ y.same (.list [.list []]) = true) ∧
    ∃ y, item.apply [.number 1, .list [.list [], .list [.list []]]] {} = .ok y {} ∧
      y.same (.list [.list []]) = false := by
  have hlength : [Value.list [], .list [.list []]].length < 2 ^ 53 := by decide
  obtain ⟨k, _, hposition, -, -, hfound, -, -, -, hends⟩ :=
    accessors_agree (.list [.list []]) [.list [], .list [.list []]] hlength {}
  obtain rfl : Number.ofNat 2 = k := by
    cases hposition
    rfl
  have hne : (Number.ofNat 2 == 0) = false := by decide
  obtain ⟨hitem, hbefore⟩ := hfound hne
  obtain ⟨head, _, _, _, -, hfirst, -⟩ := hends (by simp)
  refine ⟨Number.ofNat 2, hlength, hposition, hne, hitem, head, hfirst, hbefore 1 head ?_ ?_ hfirst⟩
  · decide
  · decide

end Logo.Operation
