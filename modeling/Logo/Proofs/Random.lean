import Logo.Proofs.Effects
import Logo.Proofs.Number.Whole
import Mathlib

/-! Random numbers. A step of the generator can be undone, so no two generators come together, and none comes to the
word zero, which no step would leave. A draw from a range whose width is a signed word is exact and falls into the
range; the draws of `RANDOM` are such. -/
namespace Logo
namespace Random

/-! ### Steps -/

structure IsShift (shift : Nat → BitVec 64 → BitVec 64) : Prop where
  add : ∀ a b x, shift (a + b) x = shift b (shift a x)
  vanish : ∀ a x, 64 ≤ a → shift a x = 0
  xor : ∀ a x y, shift a (x ^^^ y) = shift a x ^^^ shift a y

theorem isShift_left : IsShift fun a x => x <<< a where
  add a b x := BitVec.shiftLeft_add x a b
  vanish _ _ h := BitVec.shiftLeft_eq_zero h
  xor a x y := BitVec.shiftLeft_xor_distrib x y a

theorem isShift_right : IsShift fun a x => x >>> a where
  add a b x := BitVec.shiftRight_add x a b
  vanish _ _ h := BitVec.ushiftRight_eq_zero h
  xor a x y := BitVec.ushiftRight_xor_distrib x y a

/-- A word can be told from what it makes with a shift of itself. -/
theorem IsShift.xor_injective {shift : Nat → BitVec 64 → BitVec 64} (h : IsShift shift) {a : Nat} (ha : 0 < a) :
    Function.Injective fun x => x ^^^ shift a x := by
  intro x y hxy
  have hsame : x ^^^ shift a x = y ^^^ shift a y := hxy
  -- The difference of two words that make the same is its own shift, so it is gone in the end and was zero all along.
  have hfixed : shift a (x ^^^ y) = x ^^^ y :=
    calc shift a (x ^^^ y) = x ^^^ (x ^^^ shift a x) ^^^ shift a y := by
          rw [h.xor, ← BitVec.xor_assoc, BitVec.xor_self, BitVec.zero_xor]
      _ = x ^^^ (y ^^^ shift a y) ^^^ shift a y := by rw [hsame]
      _ = x ^^^ y := by rw [BitVec.xor_assoc, BitVec.xor_assoc, BitVec.xor_self, BitVec.xor_zero]
  have hmany : ∀ k, shift (a * (k + 1)) (x ^^^ y) = x ^^^ y := by
    intro k
    induction k with
    | zero => simpa using hfixed
    | succ k ih => rw [Nat.mul_succ, h.add, ih, hfixed]
  have hzero := hmany 63
  rw [h.vanish _ _ (by omega)] at hzero
  exact BitVec.xor_eq_zero_iff.mp hzero.symm

theorem state_injective : Function.Injective state := by
  rintro ⟨x⟩ ⟨y⟩ h
  exact congrArg mk h

theorem next_injective : Function.Injective next := by
  intro r r' h
  have hbits : r.next.state.toBitVec = r'.next.state.toBitVec := by rw [h]
  have hsecond := isShift_left.xor_injective (a := 17) (by decide) hbits
  have hfirst := isShift_right.xor_injective (a := 7) (by decide) hsecond
  have hstate := isShift_left.xor_injective (a := 13) (by decide) hfirst
  exact state_injective (UInt64.toBitVec_inj.mp hstate)

/-- There are finitely many states, so each is also the next one of some state. -/
theorem next_bijective : Function.Bijective next := by
  have hfinite : Finite Random := Finite.of_injective state state_injective
  exact Finite.injective_iff_bijective.mp next_injective

section
variable {r : Random} {low high : Int64}

/-! ### Runs -/

theorem ofSeed_state_ne_zero (seed : UInt64) : (ofSeed seed).state ≠ 0 := by
  unfold ofSeed
  split
  · decide
  · assumption

/-- Zero is the next state of zero only. -/
theorem next_state_ne_zero (h : r.state ≠ 0) : r.next.state ≠ 0 := by
  intro hzero
  have hnext : r.next = (mk 0).next := state_injective hzero
  exact h (congrArg state (next_injective hnext))

theorem iterate_state_ne_zero (h : r.state ≠ 0) (k : Nat) : (next^[k] r).state ≠ 0 := by
  induction k with
  | zero => exact h
  | succ k ih =>
    rw [Function.iterate_succ_apply']
    exact next_state_ne_zero ih

def after (r : Random) (draws : List (Int64 × Int64)) : Random := draws.foldl (fun r d => (r.draw d.1 d.2).2) r

/-- Draws move the generator on, each by one step or not at all. -/
theorem after_eq_iterate (r : Random) (draws : List (Int64 × Int64)) :
    ∃ k ≤ draws.length, r.after draws = next^[k] r := by
  induction draws generalizing r with
  | nil => exact ⟨0, le_refl 0, rfl⟩
  | cons d draws ih =>
    obtain ⟨k, hk, heq⟩ := ih (r.draw d.1 d.2).2
    have hafter : r.after (d :: draws) = (r.draw d.1 d.2).2.after draws := rfl
    rw [hafter, heq, draw]
    split
    · exact ⟨k, Nat.le_succ_of_le hk, rfl⟩
    · exact ⟨k + 1, Nat.succ_le_succ hk, rfl⟩

/-! ### Ranges -/

theorem draw_of_le (h : high ≤ low) : r.draw low high = (low, r) := if_pos h

def choices (low high : Int64) : UInt64 := (high - low).toUInt64 + 1

theorem draw_of_lt (h : low < high) :
    r.draw low high = (low + (r.next.state % choices low high).toInt64, r.next) := if_neg (by simpa using h)

/-- No step of the arithmetic of a draw leaves its words: neither the difference of the ends, nor the number of choices,
nor the choice as a signed word, nor the number drawn. -/
structure Exact (r : Random) (low high : Int64) : Prop where
  difference : (high - low).toInt = high.toInt - low.toInt
  count : ((choices low high).toNat : Int) = high.toInt - low.toInt + 1
  choice : (r.next.state % choices low high).toInt64.toInt = (r.next.state % choices low high).toNat
  number : (r.draw low high).1.toInt = low.toInt + r.next.state.toNat % (high.toInt - low.toInt + 1)

theorem toNat_choices (hpos : 0 ≤ (high - low).toInt) :
    ((choices low high).toNat : Int) = (high - low).toInt + 1 := by
  have hword : (high - low).toUInt64.toNat = (high - low).toInt.toNat :=
    Int64.toNat_toUInt64_of_le (Int64.le_iff_toInt_le.mpr hpos)
  have hlt := (high - low).toInt_lt
  rw [choices, UInt64.toNat_add, hword, UInt64.toNat_one]
  omega

theorem exact_of_lt (h : low < high) (hwidth : high.toInt - low.toInt < 2 ^ 63) : r.Exact low high := by
  have hlt := Int64.lt_iff_toInt_lt.mp h
  have hdifference : (high - low).toInt = high.toInt - low.toInt := by
    rw [Int64.toInt_sub, Int.bmod_eq_of_le] <;> omega
  have hcount : ((choices low high).toNat : Int) = high.toInt - low.toInt + 1 := by
    rw [toNat_choices (by omega), hdifference]
  have hbelow : (r.next.state % choices low high).toNat < (choices low high).toNat := by
    rw [UInt64.toNat_mod]
    exact Nat.mod_lt _ (by omega)
  have hchoice : (r.next.state % choices low high).toInt64.toInt = (r.next.state % choices low high).toNat := by
    rw [← Int64.toInt_toBitVec, UInt64.toBitVec_toInt64, BitVec.toInt_eq_toNat_of_lt, UInt64.toNat_toBitVec]
    rw [UInt64.toNat_toBitVec]
    omega
  refine ⟨hdifference, hcount, hchoice, ?_⟩
  have hlow := low.le_toInt
  have hhigh := high.toInt_lt
  rw [draw_of_lt h, Int64.toInt_add, hchoice, Int.bmod_eq_of_le (by omega) (by omega), UInt64.toNat_mod,
    Int.natCast_emod, hcount]

theorem Exact.bounds (h : r.Exact low high) (hlt : low < high) :
    low ≤ (r.draw low high).1 ∧ (r.draw low high).1 ≤ high := by
  have hlt := Int64.lt_iff_toInt_lt.mp hlt
  have hnonneg := Int.emod_nonneg r.next.state.toNat (b := high.toInt - low.toInt + 1) (by omega)
  have hbelow := Int.emod_lt_of_pos r.next.state.toNat (b := high.toInt - low.toInt + 1) (by omega)
  rw [Int64.le_iff_toInt_le, Int64.le_iff_toInt_le, h.number]
  omega

end
end Random

/-! ### Sessions -/

def Machine.Advances (m m' : Machine) : Prop := ∃ k, m'.random = Random.next^[k] m.random

instance : IsPreorder Machine Machine.Advances where
  refl m := ⟨0, rfl⟩
  trans := by
    rintro m m' m'' ⟨j, hj⟩ ⟨k, hk⟩
    exact ⟨k + j, by rw [hk, hj, Function.iterate_add_apply]⟩

namespace Node

theorem advances_runWith {r : Runner} (hr : ∀ b, Keeps Machine.Advances (r b)) (a : Node) (turns : Nat) :
    Keeps Machine.Advances (runWith turns r a) := by
  have hinvoke := Eval.keeps_run_body (S := Machine.Advances) (fun m w _ => ⟨0, rfl⟩) fun s => hr (.stmt s)
  cases a with
  | expr e => exact Eval.keeps_exprWith (fun _ _ _ m => ⟨1, rfl⟩) (fun e => hr (.expr e)) hinvoke
  | stmt s =>
    refine Eval.keeps_stmtWith (fun m m' h => ?_) (fun e => hr (.expr e)) (fun s => hr (.stmt s)) hinvoke turns
    -- No statement draws by itself.
    cases h <;> exact ⟨0, rfl⟩

theorem advances_run (a : Node) (fuel : Nat) : Keeps Machine.Advances (a.run fuel) := fun _ =>
  Region.keeps_run (R := .whole) (fun n _ hr a _ => advances_runWith hr a n) fuel trivial fun _ _ _ => trivial

end Node

namespace Session

theorem advances_enter (source : String) : Keeps Machine.Advances (enter source) := by
  have hread : Keeps Machine.Advances (read source) := by
    refine .bind .get fun m => ?_
    cases m.readProgram source with
    | ok p => exact .pure p
    | error h => exact .throw h
  refine .bind hread fun p => Eval.keeps_program (fun e _ => ?_) (fun s _ => ?_) none
  · exact Node.advances_run (.expr e) fuel
  · exact Node.advances_run (.stmt s) fuel

theorem advances_evaluate (source : String) : Keeps Machine.Advances (evaluate source) := by
  refine .bind .get fun m => ?_
  cases m.readExpr source with
  | ok e => exact Node.advances_run (.expr e) _
  | error h => exact .throw h

end Session

theorem Request.advances_perform (q : Request) : Keeps Machine.Advances q.perform := by
  cases q with
  | run source => exact .bind (Session.advances_enter source).discard fun _ => .pure _
  | line source => exact Session.advances_enter source
  | value source => exact .bind (Session.advances_evaluate source) fun _ => .pure _
  | reset => exact .bind (.modify fun m => ⟨0, rfl⟩) fun _ => .pure _

theorem Machine.after_state_ne_zero {m : Machine} (h : m.random.state ≠ 0) (requests : List Request) :
    (m.after requests).random.state ≠ 0 := by
  refine after_induction (P := fun m => m.random.state ≠ 0) (fun m q hm => ?_) h requests
  obtain ⟨k, hk⟩ := q.advances_perform m
  rw [hk]
  exact Random.iterate_state_ne_zero hm k

/-! ### The bounds of `RANDOM` -/

namespace Operation

/-- The greatest number that `RANDOM` asks for: one less than the whole part, and -1 where there is none. -/
def greatest (n : Float) : Int64 := Int64.ofInt (Number.clampNat (2 ^ 63 - 1) n - 1)

theorem toInt_greatest (n : Float) : (greatest n).toInt = Number.clampNat (2 ^ 63 - 1) n - 1 := by
  have hle : Number.clampNat (2 ^ 63 - 1) n ≤ 2 ^ 63 - 1 := Nat.min_le_left _ _
  exact Int64.toInt_ofInt_of_le (by omega) (by omega)

theorem greatest_nonneg_iff (n : Float) : 0 ≤ (greatest n).toInt ↔ 1 ≤ n := by
  rw [toInt_greatest, ← Number.toUInt64_pos_iff, Number.clampNat]
  omega

theorem drawBelow_apply (n : Float) (m : Machine) : drawBelow n m =
    .ok (.number (Number.ofInt (m.random.draw 0 (greatest n)).1.toInt))
      { m with random := (m.random.draw 0 (greatest n)).2 } := by
  unfold greatest
  rfl

theorem greatest_eq {x : Float} {word : Int64} (h : word.toInt = Number.clampNat (2 ^ 63 - 1) x) :
    word - 1 = greatest x := by
  have hle : Number.clampNat (2 ^ 63 - 1) x ≤ 2 ^ 63 - 1 := Nat.min_le_left _ _
  have hone : (1 : Int64).toInt = 1 := rfl
  rw [← Int64.toInt_inj, toInt_greatest, Int64.toInt_sub, h, hone, Int.bmod_eq_of_le (by omega) (by omega)]

def drawFloor (x : Float) : Eval Value := do
  let n := Number.round .down x
  if n < 1 then return .number 0
  else
    let m ← get
    let (i, rest) := m.random.draw 0 (Number.toInt64 n - 1)
    set { m with random := rest }
    return .number (Number.ofInt i.toInt)

theorem drawBelow_eq_of_lt {x : Float} (hlt : Number.round .down x < 1) (hless : ¬1 ≤ x) (m : Machine) :
    drawBelow x m = drawFloor x m := by
  have hzero : Number.ofInt (0 : Int64).toInt = 0 := by decide
  have hnone : greatest x ≤ 0 := by
    have hnegative := (greatest_nonneg_iff x).not.mpr hless
    rw [Int64.le_iff_toInt_le, Int64.toInt_zero]
    omega
  have hfloor : drawFloor x m = .ok (.number 0) m := by
    unfold drawFloor
    simp only [hlt, if_true]
    rfl
  rw [drawBelow_apply, hfloor, Random.draw_of_le hnone, hzero]

theorem drawBelow_eq_of_word {x : Float} (hlt : ¬Number.round .down x < 1)
    (hword : (Number.toInt64 (Number.round .down x)).toInt = Number.clampNat (2 ^ 63 - 1) x) (m : Machine) :
    drawBelow x m = drawFloor x m := by
  unfold drawFloor
  rw [drawBelow_apply]
  simp only [hlt, if_false, greatest_eq hword]
  rfl

/-- `RANDOM` draws by the floor of its input. -/
theorem drawBelow_eq_drawFloor (x : Float) : drawBelow x = drawFloor x := by
  funext m
  cases hx : Number.decode x with
  | nan =>
    have hround : Number.round .down x = x := by rw [Number.round, hx]
    apply drawBelow_eq_of_word
    · rw [hround, Number.lt_iff_compare, hx]
      decide
    · rw [hround, Number.toInt64_eq, hx, Number.clampNat, Number.toNat_toUInt64_of_nan hx]
      decide
  | infinite negative =>
    have hround : Number.round .down x = x := by rw [Number.round, hx]
    cases negative with
    | true =>
      apply drawBelow_eq_of_lt
      · rw [hround, Number.lt_iff_compare, hx]
        decide
      · rw [Number.le_iff_compare, hx]
        decide
    | false =>
      apply drawBelow_eq_of_word
      · rw [hround, Number.lt_iff_compare, hx]
        decide
      · rw [hround, Number.toInt64_eq, hx, Number.clampNat, Number.toNat_toUInt64_of_infinite hx]
        decide
  | finite negative m q =>
    have hvalue : Number.value? x = some (Number.signed negative (m * 2 ^ q)) := by rw [Number.value?, hx]
    have hfloor := Number.value?_round_down hvalue
    by_cases hlt : Number.round .down x < 1
    · apply drawBelow_eq_of_lt hlt
      rw [Number.lt_iff hfloor Number.value?_one] at hlt
      rw [Number.le_iff Number.value?_one hvalue, ← Int.cast_one, ← Int.le_floor]
      exact not_le.mpr (by exact_mod_cast hlt)
    · apply drawBelow_eq_of_word hlt
      rw [Number.lt_iff hfloor Number.value?_one] at hlt
      have hone : 1 ≤ ⌊Number.signed negative ((m : ℚ) * 2 ^ q)⌋ := by exact_mod_cast not_lt.mp hlt
      rw [Number.toInt_toInt64 hfloor, Number.clampNat, Number.toNat_toUInt64 hvalue]
      omega

end Operation

/-- No two states of the generator have the same next one, and each is the next one of some state. From a seed neither
draws nor the requests of a session lead to the state zero. A draw from a range of at most one number gives its low
end and leaves the generator as it is; every other draw from a range whose width is a signed word is exact and falls
into the range. `RANDOM` draws between 0 and a number that is less than the greatest signed word, and negative only if
the input is not at least 1. -/
theorem random_never_degenerates :
    Function.Bijective Random.next ∧
    (∀ seed draws, ((Random.ofSeed seed).after draws).state ≠ 0) ∧
    (∀ seed (m : Machine) requests, m.random = .ofSeed seed → (m.after requests).random.state ≠ 0) ∧
    (∀ (r : Random) (low high : Int64), high ≤ low → r.draw low high = (low, r)) ∧
    (∀ (r : Random) (low high : Int64), low < high → high.toInt - low.toInt < 2 ^ 63 →
      r.Exact low high ∧ (r.draw low high).2 = r.next ∧
      low ≤ (r.draw low high).1 ∧ (r.draw low high).1 ≤ high) ∧
    (∀ (n : Float) (m : Machine), ∃ high : Int64,
      high.toInt = Number.clampNat (2 ^ 63 - 1) n - 1 ∧ high.toInt < 2 ^ 63 - 1 ∧ (0 ≤ high.toInt ↔ 1 ≤ n) ∧
      Operation.random.apply [.number n] m =
        .ok (.number (Number.ofInt (m.random.draw 0 high).1.toInt)) { m with random := (m.random.draw 0 high).2 }) := by
  refine ⟨Random.next_bijective, fun seed draws => ?_, fun seed m requests hm => ?_, fun r low high h => ?_,
    fun r low high h hwidth => ?_, fun n m => ?_⟩
  · obtain ⟨k, -, hk⟩ := (Random.ofSeed seed).after_eq_iterate draws
    rw [hk]
    exact Random.iterate_state_ne_zero (Random.ofSeed_state_ne_zero seed) k
  · exact Machine.after_state_ne_zero (hm ▸ Random.ofSeed_state_ne_zero seed) requests
  · exact Random.draw_of_le h
  · have hexact : r.Exact low high := Random.exact_of_lt h hwidth
    exact ⟨hexact, by rw [Random.draw_of_lt h], hexact.bounds h⟩
  · have hle : Number.clampNat (2 ^ 63 - 1) n ≤ 2 ^ 63 - 1 := Nat.min_le_left _ _
    have hgreatest := Operation.toInt_greatest n
    exact ⟨Operation.greatest n, hgreatest, by omega, Operation.greatest_nonneg_iff n, Operation.drawBelow_apply n m⟩

/-- The widest range of negative numbers, drawn from with the seed that is replaced. -/
theorem random_never_degenerates_widest :
    Int64.minValue < -1 ∧ (-1 : Int64).toInt - Int64.minValue.toInt < 2 ^ 63 ∧
    (Random.ofSeed 0).Exact Int64.minValue (-1) ∧
    Int64.minValue ≤ ((Random.ofSeed 0).draw Int64.minValue (-1)).1 ∧
    ((Random.ofSeed 0).draw Int64.minValue (-1)).1 ≤ -1 ∧
    ((Random.ofSeed 0).after [(Int64.minValue, -1), (3, 3)]).state ≠ 0 := by
  obtain ⟨-, hdraws, -, -, hrange, -⟩ := random_never_degenerates
  have hlt : Int64.minValue < -1 := by decide
  have hwidth : (-1 : Int64).toInt - Int64.minValue.toInt < 2 ^ 63 := by decide
  obtain ⟨hexact, -, hlow, hhigh⟩ := hrange (.ofSeed 0) Int64.minValue (-1) hlt hwidth
  exact ⟨hlt, hwidth, hexact, hlow, hhigh, hdraws 0 _⟩

end Logo
