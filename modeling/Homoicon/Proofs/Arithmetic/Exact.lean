import Homoicon.Arithmetic
import Homoicon.Proofs.Calendar
import Homoicon.Proofs.Decimals.Quotients

/-!
# Exact values of operations

What the operations of arithmetic are on integers, characters, tuples, times and dates, reckoned
without bounds, and what an operation gives instead of a value that cannot be held.
-/

namespace Homoicon

/-! ## Values -/

/-- A date of the calendar as a value holds it. -/
structure Date.IsCivil (d : Date) (c : Calendar.Civil) : Prop where
  year : d.year = c.year
  month : (d.month : Int) = c.month
  day : (d.day : Int) = c.day
  held : Calendar.InRange c.year

/-- A value of arithmetic whose parts are integers. -/
inductive Scalar where
  | integer (i : Int)
  | char (c : Char)
  | tuple (bytes : List UInt8)
  | time (nanoseconds : Int)
  | date (d : Date)

namespace Scalar

/-- The kind of a value. -/
def kind : Scalar → Kind
  | integer _ => .integer
  | char _ => .char
  | tuple _ => .tuple
  | time _ => .time
  | date _ => .date

/-- The content of a value. -/
def payload : Scalar → Payload
  | integer i => .integer i
  | char c => .char c
  | tuple bytes => .tuple bytes
  | time n => .time n
  | date d => .date d

/-- The parts of a value are within their widths. -/
def Held : Scalar → Prop
  | integer i => Bits.fits64 i = true
  | time n => Bits.fits64 n = true
  | date d => ∃ c, d.IsCivil c
  | _ => True

end Scalar

/-- A cell holds a value. -/
structure Cell.IsScalar (c : Cell) (a : Scalar) : Prop where
  kind : c.kind = a.kind
  quote : c.quote = 0
  payload : c.payload = a.payload

theorem Cell.IsScalar.typeKind {c : Cell} {a : Scalar} (is : c.IsScalar a) :
    c.typeKind = a.kind := by
  have plain : (a.kind = Kind.quoted) = False := by cases a <;> simp [Scalar.kind]
  rw [Cell.typeKind, Cell.isQuoted, is.quote, is.kind]
  simp [plain]

/-! ## Operations -/

/-- The exact value of an operation.  An integer and a time are reckoned through another integer,
which must be held as well. -/
inductive Exact where
  | integer (i through : Int)
  | ratio (x y : Int)
  | char (code : Int)
  | tuple (parts : List Int)
  | time (nanoseconds through : Int)
  | date (number : Int) (time : Option Int)
  | undefined
  | refused

namespace Operation

/-- An operation on the parts of tuples. -/
def onParts : Operation → Int → Int → Int
  | add, x, y => x + y
  | subtract, x, y => x - y
  | multiply, x, y => x * y
  | divide, x, y => x.tdiv y
  | remainder, x, y => x.tmod y

/-- An operation that divides. -/
def Divides (op : Operation) : Prop := op = divide ∨ op = remainder

instance (op : Operation) : Decidable op.Divides := inferInstanceAs (Decidable (_ ∨ _))

/-- An operation on pairs of parts. -/
def partwise (op : Operation) (pairs : List (Int × Int)) : Exact :=
  if op.Divides ∧ ∃ pair ∈ pairs, pair.2 = 0 then .undefined
  else .tuple (pairs.map fun (x, y) => op.onParts x y)

/-- The parts of two tuples, where the shorter one goes on with zeros. -/
def paired (own other : List UInt8) : List (Int × Int) :=
  (List.range (max own.length other.length)).map fun i =>
    ((own.getD i 0).toNat, (other.getD i 0).toNat)

/-- The exact value of an operation on two values. -/
def exactly : Operation → Scalar → Scalar → Exact
  | add, .integer x, .integer y => .integer (x + y) (x + y)
  | subtract, .integer x, .integer y => .integer (x - y) (x - y)
  | multiply, .integer x, .integer y => .integer (x * y) (x * y)
  | divide, .integer x, .integer y =>
    if y = 0 then .undefined else if y ∣ x then .integer (x / y) (x / y) else .ratio x y
  | remainder, .integer x, .integer y =>
    if y = 0 then .undefined else .integer (x.tmod y) (x.tdiv y)
  | add, .char c, .integer n => .char (c.toNat + n)
  | subtract, .char c, .integer n => .char (c.toNat - n)
  | subtract, .char c, .char other => .integer (c.toNat - other.toNat) (c.toNat - other.toNat)
  | op, .tuple own, .tuple other => op.partwise (paired own other)
  | op, .tuple own, .integer n => op.partwise (own.map fun byte => (byte.toNat, n))
  | add, .time x, .time y => .time (x + y) (x + y)
  | subtract, .time x, .time y => .time (x - y) (x - y)
  | add, .time x, .integer s => .time (x + s * Arithmetic.second) (s * Arithmetic.second)
  | subtract, .time x, .integer s => .time (x - s * Arithmetic.second) (s * Arithmetic.second)
  | add, .integer s, .time x => .time (x + s * Arithmetic.second) (s * Arithmetic.second)
  | multiply, .time x, .integer n => .time (x * n) (x * n)
  | divide, .time x, .integer n =>
    if n = 0 then .undefined else .time (x.tdiv n) (x.tdiv n)
  | add, .date d, .integer n => .date (Arithmetic.dayNumber d + n) d.time
  | subtract, .date d, .integer n => .date (Arithmetic.dayNumber d - n) d.time
  | add, .integer n, .date d => .date (Arithmetic.dayNumber d + n) d.time
  | subtract, .date d, .date other =>
    .integer (Arithmetic.dayNumber d - Arithmetic.dayNumber other)
      (Arithmetic.dayNumber d - Arithmetic.dayNumber other)
  | _, _, _ => .refused

/-- Where no bound is looked at, the parts stay within it: the quotient of the least integer by -1,
the code of a character, the parts of a tuple, a time that is reckoned as a decimal of 53 bits, the
year of a date. -/
def Safe : Operation → Scalar → Scalar → Prop
  | divide, .integer x, .integer y => ¬ (x = Bits.least64 ∧ y = -1)
  | add, .char c, .integer n => Bits.fits64 ((c.toNat : Int) + n) = true
  | subtract, .char c, .integer n => Bits.fits64 ((c.toNat : Int) - n) = true
  | op, .tuple own, .integer n =>
    ∀ byte ∈ own, Bits.fits64 (op.onParts (byte.toNat : Int) n) = true
  | multiply, .time x, .integer n =>
    x.natAbs < 2 ^ 53 ∧ n.natAbs < 2 ^ 53 ∧ (x * n).natAbs < 2 ^ 53
  | divide, .time x, .integer n => x.natAbs < 2 ^ 53 ∧ n.natAbs < 2 ^ 53
  | add, .date d, .integer n | add, .integer n, .date d =>
    ∃ c : Calendar.Civil, Calendar.InRange c.year ∧ c.number = Arithmetic.dayNumber d + n
  | subtract, .date d, .integer n =>
    ∃ c : Calendar.Civil, Calendar.InRange c.year ∧ c.number = Arithmetic.dayNumber d - n
  | _, _, _ => True

end Operation

/-- A result is the exact value of an operation, or the error that there is instead of it. -/
def Exact.Given (name : String) : Exact → Except Fault Cell → Prop
  | .integer i through, r =>
    r = if Bits.fits64 i && Bits.fits64 through then .ok (Cell.integer i) else fail .overflow
  | .ratio x y, r => r = .ok (Cell.decimal (Float.ofInt x / Float.ofInt y))
  | .char code, r =>
    (∃ c : Char, (c.toNat : Int) = code ∧ r = .ok (Cell.char c)) ∨
      (∀ c : Char, (c.toNat : Int) ≠ code) ∧ ∃ text, r = fail (.outOfRange text)
  | .tuple parts, r =>
    ∃ bytes : List UInt8, r = .ok { kind := .tuple, payload := .tuple bytes } ∧
      bytes.map (fun byte => (byte.toNat : Int)) = parts.map fun i => max 0 (min 255 i)
  | .time n through, r =>
    r = if Bits.fits64 n && Bits.fits64 through then .ok (Cell.time n) else fail .overflow
  | .date number clock, r =>
    ∃ (d : Date) (c : Calendar.Civil), d.IsCivil c ∧ c.number = number ∧ d.time = clock ∧
      r = .ok { kind := .date, payload := .date d }
  | .undefined, r => r = fail .zeroDivide
  | .refused, r => ∃ kind, r = fail (.cannotUse name kind)

namespace Arithmetic

theorem checked_eq (i : Int) : checked i = if Bits.fits64 i then .ok i else fail .overflow := rfl

/-- The only quotient of a held integer that is not held is that of the least one by -1. -/
theorem fits64_tdiv {x y : Int} (held : Bits.fits64 x = true) :
    Bits.fits64 (x.tdiv y) = true ↔ ¬ (x = Bits.least64 ∧ y = -1) := by
  obtain ⟨low, high⟩ := Bits.fits64_iff.mp held
  simp only [Bits.fits64_iff, Bits.least64, Bits.greatest64] at *
  obtain rfl | rfl | rfl | wide : y = 0 ∨ y = 1 ∨ y = -1 ∨ 2 ≤ y.natAbs := by omega
  · rw [Int.tdiv_zero]
    omega
  · rw [Int.tdiv_one]
    omega
  · rw [Int.tdiv_neg, Int.tdiv_one]
    omega
  · have half : (x.tdiv y).natAbs ≤ x.natAbs / 2 := by
      rw [Int.natAbs_tdiv]
      exact Nat.div_le_div_left wide (by decide)
    omega

theorem fits64_tmod {x y : Int} (held : Bits.fits64 x = true) :
    Bits.fits64 (x.tmod y) = true := by
  have size : (x.tmod y).natAbs ≤ x.natAbs := by
    rw [Int.natAbs_tmod]
    exact Nat.mod_le _ _
  obtain ⟨low, high⟩ := Bits.fits64_iff.mp held
  simp only [Bits.fits64_iff, Bits.least64, Bits.greatest64] at *
  obtain sign | sign := le_or_gt 0 x
  · have := Int.tmod_nonneg y sign
    omega
  · have : 0 ≤ (-x).tmod y := Int.tmod_nonneg y (by omega)
    rw [Int.neg_tmod] at this
    omega

theorem integers_given (op : Operation) {x y : Int} (safe : op.Safe (.integer x) (.integer y))
    (held : Bits.fits64 x = true) :
    (op.exactly (.integer x) (.integer y)).Given op.name (integers op x y) := by
  have single (i : Int) : Cell.integer <$> checked i =
      if Bits.fits64 i && Bits.fits64 i then .ok (Cell.integer i) else fail .overflow := by
    rw [Bool.and_self, checked_eq]
    split_ifs <;> rfl
  cases op with
  | add => exact single _
  | subtract => exact single _
  | multiply => exact single _
  | divide =>
      change (if y = 0 then Exact.undefined else if y ∣ x then .integer (x / y) (x / y)
        else .ratio x y).Given _ (if y == 0 then fail .zeroDivide
          else if x == Bits.least64 && y == -1 then defect
          else if x.tmod y != 0 then pure (Cell.decimal (Float.ofInt x / Float.ofInt y))
          else pure (Cell.integer (x.tdiv y)))
      by_cases zero : y = 0
      · rw [if_pos zero, if_pos (beq_iff_eq.mpr zero)]
        rfl
      · have apart : ¬ (x == Bits.least64 && y == -1) = true := by
          simpa [Operation.Safe] using safe
        rw [if_neg zero, if_neg (mt beq_iff_eq.mp zero), if_neg apart]
        by_cases divides : y ∣ x
        · have whole : x.tmod y = 0 := Int.dvd_iff_tmod_eq_zero.mp divides
          have fits := (fits64_tdiv held).mpr safe
          rw [if_pos divides, if_neg (by simpa using whole), ← Int.tdiv_eq_ediv_of_dvd divides]
          change _ = if Bits.fits64 (x.tdiv y) && Bits.fits64 (x.tdiv y) then _ else _
          rw [fits]
          rfl
        · have broken : x.tmod y ≠ 0 := mt Int.dvd_iff_tmod_eq_zero.mpr divides
          rw [if_neg divides, if_pos (bne_iff_ne.mpr broken)]
          rfl
  | remainder =>
      change (if y = 0 then Exact.undefined else .integer (x.tmod y) (x.tdiv y)).Given _
        (if y == 0 then fail .zeroDivide
          else if x == Bits.least64 && y == -1 then fail .overflow
          else pure (Cell.integer (x.tmod y)))
      by_cases zero : y = 0
      · rw [if_pos zero, if_pos (beq_iff_eq.mpr zero)]
        rfl
      · rw [if_neg zero, if_neg (mt beq_iff_eq.mp zero)]
        change _ = if Bits.fits64 (x.tmod y) && Bits.fits64 (x.tdiv y) then _ else _
        rw [fits64_tmod held, Bool.true_and]
        by_cases apart : x = Bits.least64 ∧ y = -1
        · rw [if_pos (by simpa using apart), if_neg (mt (fits64_tdiv held).mp (not_not.mpr apart))]
        · rw [if_neg (by simpa using apart), if_pos ((fits64_tdiv held).mpr apart)]
          rfl

/-! ## Characters -/

theorem char_toNat_valid (c : Char) : c.toNat.isValidChar := c.valid

theorem charOfCode?_eq_some {i : Int} {c : Char} :
    charOfCode? i = some c ↔ (c.toNat : Int) = i := by
  unfold charOfCode?
  constructor
  · intro found
    split_ifs at found with valid
    obtain rfl := Option.some.inj found
    have proper : i.toNat.isValidChar := by
      simp only [Bool.and_eq_true, decide_eq_true_eq, Bool.not_eq_true', Bool.and_eq_false_iff,
        decide_eq_false_iff_not] at valid
      unfold Nat.isValidChar
      omega
    rw [Char.ofNat, dif_pos proper]
    change (i.toNat : Int) = i
    simp only [Bool.and_eq_true, decide_eq_true_eq] at valid
    omega
  · rintro rfl
    have proper := char_toNat_valid c
    rw [if_pos, Int.toNat_natCast, Char.ofNat_toNat]
    unfold Nat.isValidChar at proper
    simp only [Bool.and_eq_true, decide_eq_true_eq, Bool.not_eq_true', Bool.and_eq_false_iff,
      decide_eq_false_iff_not]
    omega

/-- The character with a code that is held. -/
theorem char_given {name : String} (code : Int) :
    (Exact.char code).Given name (match charOfCode? code with
      | some c => pure (Cell.char c)
      | none => fail (.outOfRange (toString code))) := by
  cases found : charOfCode? code with
  | some c => exact .inl ⟨c, charOfCode?_eq_some.mp found, rfl⟩
  | none =>
      refine .inr ⟨fun c is => ?_, _, rfl⟩
      rw [charOfCode?_eq_some.mpr is] at found
      cases found

theorem reckoned_eq {op : Operation} {x y : Int} (whole : ¬ op.Divides)
    (fits : Bits.fits64 (op.onParts x y) = true) : reckoned op x y = .ok (op.onParts x y) := by
  cases op with
  | add | subtract | multiply => exact if_pos fits
  | divide | remainder => exact absurd (by decide) whole

variable {op : Operation} {a b : Scalar} {c d : Cell}

theorem chars_given {own : Char} (is : d.IsScalar b) (safe : op.Safe (.char own) b) :
    (op.exactly (.char own) b).Given op.name (chars op c own d) := by
  have refused (e : Cell) : ∃ kind, (refuse op.name e : Except Fault Cell) =
    fail (.cannotUse op.name kind) := ⟨_, rfl⟩
  unfold chars
  rw [is.payload]
  cases b with
  | integer n =>
      cases op with
      | add =>
          have code : reckoned .add own.toNat n = .ok (own.toNat + n) := reckoned_eq (by decide) safe
          simp only [Scalar.payload, code, bind, Except.bind]
          exact char_given _
      | subtract =>
          have code : reckoned .subtract own.toNat n = .ok (own.toNat - n) :=
            reckoned_eq (by decide) safe
          simp only [Scalar.payload, code, bind, Except.bind]
          exact char_given _
      | _ => exact refused _
  | char other =>
      cases op with
      | subtract =>
          have range (c : Char) : c.toNat < 0x110000 := by
            have proper := char_toNat_valid c
            unfold Nat.isValidChar at proper
            omega
          have first := range own
          have second := range other
          have fits : Bits.fits64 ((own.toNat : Int) - other.toNat) = true := by
            rw [Bits.fits64_iff]
            unfold Bits.least64 Bits.greatest64
            omega
          change _ = if Bits.fits64 ((own.toNat : Int) - other.toNat) &&
            Bits.fits64 ((own.toNat : Int) - other.toNat) then _ else _
          rw [fits]
          rfl
      | _ => exact refused _
  | _ => cases op <;> exact refused _

/-! ## Tuples -/

/-- A part of a tuple, brought within a byte. -/
def clampByte (i : Int) : UInt8 := UInt8.ofNat (max 0 (min 255 i)).toNat

theorem clampByte_toNat (i : Int) : ((clampByte i).toNat : Int) = max 0 (min 255 i) := by
  unfold clampByte
  rw [UInt8.toNat_ofNat']
  omega

theorem bytes_eq {x y : Int} (fits : Bits.fits64 (op.onParts x y) = true) :
    bytes op x y = if op.Divides ∧ y = 0 then fail .zeroDivide
      else .ok (clampByte (op.onParts x y)) := by
  cases op with
  | add | subtract | multiply =>
      rw [if_neg (by simp [Operation.Divides])]
      simp only [bytes, reckoned_eq (by decide) fits]
      rfl
  | divide | remainder =>
      by_cases zero : y = 0
      · rw [if_pos ⟨by decide, zero⟩]
        subst zero
        rfl
      · rw [if_neg fun both => zero both.2]
        simp only [bytes]
        rw [if_neg (mt beq_iff_eq.mp zero)]
        rfl

theorem mapM_bytes_eq (pairs : List (Int × Int))
    (fits : ∀ pair ∈ pairs, Bits.fits64 (op.onParts pair.1 pair.2) = true) :
    pairs.mapM (fun (x, y) => bytes op x y) =
      if op.Divides ∧ ∃ pair ∈ pairs, pair.2 = 0 then fail .zeroDivide
      else .ok (pairs.map fun (x, y) => clampByte (op.onParts x y)) := by
  induction pairs with
  | nil =>
      rw [if_neg (by simp)]
      rfl
  | cons pair pairs ih =>
      have rest := ih fun other member => fits other (List.mem_cons_of_mem _ member)
      have first := bytes_eq (fits pair (List.mem_cons_self ..))
      rw [List.mapM_cons, rest]
      simp only [first]
      by_cases zero : op.Divides ∧ pair.2 = 0
      · have undefined : op.Divides ∧ ∃ other ∈ pair :: pairs, other.2 = 0 :=
          ⟨zero.1, pair, List.mem_cons_self .., zero.2⟩
        rw [if_pos zero, if_pos undefined]
        rfl
      · rw [if_neg zero]
        by_cases later : op.Divides ∧ ∃ other ∈ pairs, other.2 = 0
        · obtain ⟨other, member, undefined⟩ := later.2
          have undefined : op.Divides ∧ ∃ other ∈ pair :: pairs, other.2 = 0 :=
            ⟨later.1, other, List.mem_cons_of_mem _ member, undefined⟩
          rw [if_pos later, if_pos undefined]
          rfl
        · have never : ¬ (op.Divides ∧ ∃ other ∈ pair :: pairs, other.2 = 0) := by
            rintro ⟨divides, other, member, undefined⟩
            obtain rfl | member := List.mem_cons.mp member
            · exact zero ⟨divides, undefined⟩
            · exact later ⟨divides, other, member, undefined⟩
          rw [if_neg later, if_neg never]
          rfl

theorem partwise_given {name : String} (pairs : List (Int × Int))
    (fits : ∀ pair ∈ pairs, Bits.fits64 (op.onParts pair.1 pair.2) = true) :
    (op.partwise pairs).Given name (do
      let result ← pairs.mapM fun (x, y) => bytes op x y
      pure { kind := .tuple, payload := .tuple result }) := by
  rw [mapM_bytes_eq pairs fits, Operation.partwise]
  split_ifs with undefined
  · rfl
  · refine ⟨_, rfl, ?_⟩
    simp only [List.map_map]
    exact List.map_congr_left fun pair _ => clampByte_toNat _

theorem fits64_bytes (x y : UInt8) : Bits.fits64 (op.onParts (x.toNat : Int) y.toNat) = true := by
  have first := x.toNat_lt
  have second := y.toNat_lt
  have small {i : Int} (low : -65536 ≤ i) (high : i ≤ 65536) : Bits.fits64 i = true := by
    rw [Bits.fits64_iff]
    unfold Bits.least64 Bits.greatest64
    omega
  have held : Bits.fits64 (x.toNat : Int) = true := small (by omega) (by omega)
  cases op with
  | add | subtract =>
      simp only [Operation.onParts]
      exact small (by omega) (by omega)
  | multiply =>
      have product : x.toNat * y.toNat ≤ 256 * 256 := Nat.mul_le_mul first.le second.le
      have same : Operation.multiply.onParts (x.toNat : Int) y.toNat =
        (x.toNat * y.toNat : Nat) := (Int.natCast_mul _ _).symm
      rw [same]
      exact small (by omega) (by omega)
  | divide =>
      simp only [Operation.onParts]
      refine (fits64_tdiv held).mpr fun least => ?_
      unfold Bits.least64 at least
      omega
  | remainder =>
      simp only [Operation.onParts]
      exact fits64_tmod held

theorem map_getD_range (bytes : List UInt8) :
    (List.range bytes.length).map (bytes.getD · 0) = bytes := by
  refine List.ext_getElem (by simp) fun i inside inside' => ?_
  simp [inside']

theorem tuples_given {own : List UInt8} (is : d.IsScalar b) (safe : op.Safe (.tuple own) b) :
    (op.exactly (.tuple own) b).Given op.name (tuples op own d) := by
  have refused (e : Cell) : ∃ kind, (refuse op.name e : Except Fault Cell) =
    fail (.cannotUse op.name kind) := ⟨_, rfl⟩
  unfold tuples
  rw [is.payload]
  cases b with
  | integer n =>
      have exact_ : op.exactly (.tuple own) (.integer n) =
          op.partwise (own.map fun byte => ((byte.toNat : Int), n)) := by cases op <;> rfl
      have fits : ∀ byte ∈ own, Bits.fits64 (op.onParts (byte.toNat : Int) n) = true := by
        cases op <;> exact safe
      have parts : own.map (fun byte => ((byte.toNat : Int), n)) =
          (List.range (max own.length own.length)).map
            fun i => (((own.getD i 0).toNat : Int), n) := by
        rw [max_self]
        conv_lhs => rw [← map_getD_range own, List.map_map]
        rfl
      have given := @partwise_given op op.name (own.map fun byte => ((byte.toNat : Int), n)) (by
        intro pair member
        obtain ⟨byte, inside, rfl⟩ := List.mem_map.mp member
        exact fits byte inside)
      rw [parts, List.mapM_map] at given
      rw [exact_, parts]
      exact given
  | tuple other =>
      have exact_ : op.exactly (.tuple own) (.tuple other) =
          op.partwise (Operation.paired own other) := by cases op <;> rfl
      have given := @partwise_given op op.name (Operation.paired own other) (by
        rintro pair member
        obtain ⟨i, -, rfl⟩ := List.mem_map.mp member
        exact fits64_bytes _ _)
      rw [exact_]
      rw [Operation.paired, List.mapM_map] at given
      exact given
  | _ => cases op <;> exact refused _

/-! ## Times -/

theorem sum_eq (x y : Int) : Cell.time <$> sum op x y =
    if Bits.fits64 (if op = .add then x + y else x - y) then
      .ok (Cell.time (if op = .add then x + y else x - y)) else fail .overflow := by
  unfold sum
  rw [checked_eq]
  split_ifs <;> rfl

/-- A time some seconds later or earlier is held where the seconds are held as well. -/
theorem sum_seconds_given {name : String} {x y n : Int}
    (same : (if op = .add then x + y else x - y) = n) :
    (Exact.time n y).Given name (do
      let y ← checked y
      Cell.time <$> sum op x y) := by
  change _ = if Bits.fits64 n && Bits.fits64 y then Except.ok (Cell.time n) else fail .overflow
  by_cases inside : Bits.fits64 y = true
  · have checks : checked y = .ok y := if_pos inside
    rw [checks, inside, Bool.and_true, ← same]
    exact sum_eq x y
  · have checks : checked y = fail .overflow := if_neg inside
    rw [checks, Bool.eq_false_iff.mpr inside, Bool.and_false]
    rfl

theorem sum_time_given {name : String} {x y n : Int}
    (same : (if op = .add then x + y else x - y) = n) :
    (Exact.time n n).Given name (Cell.time <$> sum op x y) := by
  change _ = if Bits.fits64 n && Bits.fits64 n then Except.ok (Cell.time n) else fail .overflow
  rw [Bool.and_self, ← same]
  exact sum_eq x y

theorem scaled_time {x n : Int} (first : x.natAbs < 2 ^ 53) (second : n.natAbs < 2 ^ 53)
    (small : (x * n).natAbs < 2 ^ 53) :
    ∃ result, decimals .multiply (Float.ofInt x) (Float.ofInt n) = .ok result ∧
      Decimal.toInteger result = x * n := by
  have equals := (Decimal.equals_ofInt first).mul (Decimal.equals_ofInt second) small
  obtain ⟨number, finite⟩ := equals.finite
  refine ⟨Float.ofInt x * Float.ofInt n, ?_, ?_⟩
  · change (if (Float.ofInt x * Float.ofInt n).isNaN || (Float.ofInt x * Float.ofInt n).isInf
      then fail .overflow else pure _) = _
    rw [number, finite]
    rfl
  · rw [equals.toInteger_eq]
    unfold Bits.clamp64 Bits.least64 Bits.greatest64
    omega

theorem shared_time {x n : Int} (first : x.natAbs < 2 ^ 53) (second : n.natAbs < 2 ^ 53) :
    if n = 0 then decimals .divide (Float.ofInt x) (Float.ofInt n) = fail .zeroDivide
    else ∃ result, decimals .divide (Float.ofInt x) (Float.ofInt n) = .ok result ∧
      Decimal.toInteger result = x.tdiv n := by
  have divisor := Decimal.equals_ofInt second
  have outcome : decimals .divide (Float.ofInt x) (Float.ofInt n) =
      (do
        let result ← if n == 0 then fail .zeroDivide else pure (Float.ofInt x / Float.ofInt n)
        if result.isNaN || result.isInf then fail .overflow else pure result) := by
    rw [← divisor.beq_zero]
    rfl
  rw [outcome]
  split_ifs with zero whole whole
  · rfl
  · exact absurd (beq_iff_eq.mpr zero) whole
  · exact absurd (beq_iff_eq.mp whole) zero
  · obtain ⟨number, finite, value⟩ := (Decimal.equals_ofInt first).div divisor first second zero
    refine ⟨Float.ofInt x / Float.ofInt n, ?_, value⟩
    change (if (Float.ofInt x / Float.ofInt n).isNaN || (Float.ofInt x / Float.ofInt n).isInf
      then fail .overflow else pure _) = _
    rw [number, finite]
    rfl

theorem times_given {x : Int} (is : d.IsScalar b) (safe : op.Safe (.time x) b) :
    (op.exactly (.time x) b).Given op.name (times op x d) := by
  have refused (e : Cell) : ∃ kind, (refuse op.name e : Except Fault Cell) =
    fail (.cannotUse op.name kind) := ⟨_, rfl⟩
  have kind := is.typeKind
  unfold times
  rw [is.payload]
  cases b with
  | time y =>
      cases op with
      | add | subtract => exact sum_time_given rfl
      | multiply | divide =>
          dsimp only
          rw [kind]
          exact refused _
      | remainder => exact refused _
  | integer n =>
      have number : d.asDecimal? = some (Float.ofInt n) := by
        rw [Cell.asDecimal?, is.quote, is.payload]
        rfl
      have small {i : Int} (size : i.natAbs < 2 ^ 53) : Bits.fits64 i = true := by
        rw [Bits.fits64_iff]
        unfold Bits.least64 Bits.greatest64
        omega
      cases op with
      | add | subtract => exact sum_seconds_given rfl
      | multiply =>
          obtain ⟨first, second, product⟩ := safe
          obtain ⟨result, ran, value⟩ := scaled_time first second product
          dsimp only
          rw [kind, number]
          change _ = if Bits.fits64 (x * n) && Bits.fits64 (x * n) then _ else _
          rw [small product, ← value]
          change (decimals .multiply (Float.ofInt x) (Float.ofInt n) >>= _) = _
          rw [ran]
          rfl
      | divide =>
          obtain ⟨first, second⟩ := safe
          have shared := shared_time first second
          dsimp only
          rw [kind, number]
          change (if n = 0 then Exact.undefined else .time (x.tdiv n) (x.tdiv n)).Given _
            (decimals .divide (Float.ofInt x) (Float.ofInt n) >>= _)
          split_ifs at shared ⊢ with zero
          · rw [shared]
            rfl
          · obtain ⟨result, ran, value⟩ := shared
            have quotient : (x.tdiv n).natAbs < 2 ^ 53 := by
              rw [Int.natAbs_tdiv]
              exact (Nat.div_le_self _ _).trans_lt first
            change _ = if Bits.fits64 (x.tdiv n) && Bits.fits64 (x.tdiv n) then _ else _
            rw [small quotient, ← value, ran]
            rfl
      | remainder => exact refused _
  | _ =>
      cases op with
      | multiply | divide =>
          dsimp only
          rw [kind]
          exact refused _
      | _ => exact refused _

/-! ## Dates -/

theorem dayNumber_eq {d : Date} {c : Calendar.Civil} (is : d.IsCivil c) :
    dayNumber d = c.number := by
  unfold dayNumber Calendar.Civil.number
  rw [is.year, is.month, is.day]

/-- The date with a number, at the time of another one. -/
def dateOf (d : Date) (number : Int) : Date :=
  let (year, month, day) := Calendar.civilFromDays number
  { d with year, month := month.toNat, day := day.toNat }

theorem dateOf_isCivil (d : Date) {c : Calendar.Civil} (year : Calendar.InRange c.year) :
    (dateOf d c.number).IsCivil c := by
  unfold dateOf
  rw [c.ofNumber year]
  have months := c.months
  have days := c.days
  exact ⟨rfl, Int.toNat_of_nonneg (by omega), Int.toNat_of_nonneg (by omega), year⟩

theorem dateOf_time (d : Date) (number : Int) : (dateOf d number).time = d.time := by
  unfold dateOf
  generalize Calendar.civilFromDays number = date
  rfl

/-- A day number within the held years is reckoned, whatever the date it is reckoned from. -/
theorem later_given {name : String} {day : Date} {number n : Int}
    (sum : dayNumber day + n = number)
    (held : ∃ c : Calendar.Civil, Calendar.InRange c.year ∧ c.number = number) :
    (Exact.date number day.time).Given name (later day n) := by
  obtain ⟨c, year, rfl⟩ := held
  obtain ⟨low, high⟩ := c.number_bounds year
  have fits {i : Int} (near : c.number - 1000000 ≤ i ∧ i ≤ c.number + 1000000) :
      Bits.fits64 i = true := by
    rw [Bits.fits64_iff]
    unfold Bits.least64 Bits.greatest64
    omega
  have days : (exact64 c.number : Except Fault Int) = .ok c.number := if_pos (fits (by omega))
  have reckoned : Calendar.isReckoned c.number = true := by
    simp [Calendar.isReckoned, Calendar.fromMarch, fits (i := c.number + 719468) (by omega),
      fits (i := c.number + 719468 - 146096) (by omega)]
  have made : later day n = .ok { kind := .date, payload := .date (dateOf day c.number) } := by
    unfold later
    simp only [sum, days, bind, Except.bind, reckoned]
    rfl
  rw [made]
  exact ⟨_, c, dateOf_isCivil day year, rfl, dateOf_time day _, rfl⟩

theorem dates_given {day : Date} (first : (Scalar.date day).Held) (is : d.IsScalar b)
    (held : b.Held) (safe : op.Safe (.date day) b) :
    (op.exactly (.date day) b).Given op.name (dates op day d) := by
  have refused (e : Cell) : ∃ kind, (refuse op.name e : Except Fault Cell) =
    fail (.cannotUse op.name kind) := ⟨_, rfl⟩
  unfold dates
  rw [is.payload]
  cases b with
  | integer n =>
      cases op with
      | add => exact later_given rfl safe
      | subtract =>
          obtain ⟨c, civil⟩ := first
          obtain ⟨c', year, number⟩ := id safe
          obtain ⟨low, high⟩ := c.number_bounds (civil.year ▸ civil.held)
          obtain ⟨low', high'⟩ := c'.number_bounds year
          have fits : Bits.fits64 (-n) = true := by
            rw [dayNumber_eq civil] at number
            rw [Bits.fits64_iff]
            unfold Bits.least64 Bits.greatest64
            omega
          have negative : (exact64 (-n) : Except Fault Int) = .ok (-n) := if_pos fits
          simp only [Scalar.payload, negative, bind, Except.bind]
          exact later_given (Int.sub_eq_add_neg).symm safe
      | _ => exact refused _
  | date other =>
      cases op with
      | subtract =>
          obtain ⟨c, is⟩ := first
          obtain ⟨c', is'⟩ := held
          have bounds := c.number_bounds (is.year ▸ is.held)
          have bounds' := c'.number_bounds (is'.year ▸ is'.held)
          have fits : Bits.fits64 (dayNumber day - dayNumber other) = true := by
            rw [dayNumber_eq is, dayNumber_eq is', Bits.fits64_iff]
            unfold Bits.least64 Bits.greatest64
            omega
          change _ = if Bits.fits64 (dayNumber day - dayNumber other) &&
            Bits.fits64 (dayNumber day - dayNumber other) then _ else _
          rw [fits]
          rfl
      | _ => exact refused _
  | _ => cases op <;> exact refused _

/-! ## All kinds -/

/-- What an operation gives, where both values are held and it is safe, is the exact value. -/
theorem scalars_given (op : Operation) (first : c.IsScalar a) (second : d.IsScalar b)
    (held : a.Held) (held' : b.Held) (safe : op.Safe a b) :
    (op.exactly a b).Given op.name (scalars op c d) := by
  have refused (e : Cell) : ∃ kind, (refuse op.name e : Except Fault Cell) =
    fail (.cannotUse op.name kind) := ⟨_, rfl⟩
  unfold scalars
  dsimp only
  rw [first.typeKind, second.typeKind, first.payload, second.payload]
  cases a with
  | integer x =>
      cases b with
      | integer y =>
          have left : c.asInteger? = some x := by
            rw [Cell.asInteger?, first.payload, first.quote]
            rfl
          have right : d.asInteger? = some y := by
            rw [Cell.asInteger?, second.payload, second.quote]
            rfl
          have whole : numbers op c d = integers op x y := by
            unfold numbers
            rw [first.typeKind, second.typeKind, left, right]
            rfl
          change Exact.Given _ _ (numbers op c d)
          rw [whole]
          exact integers_given op safe held
      | date day =>
          cases op with
          | add => exact @dates_given .add _ _ _ held' first held safe
          | _ => exact refused _
      | time t =>
          cases op with
          | add => exact @times_given .add _ _ _ first trivial
          | _ => exact refused _
      | _ => cases op <;> exact refused _
  | char own => exact chars_given second safe
  | tuple own => exact tuples_given second safe
  | time t => exact times_given second safe
  | date day => exact dates_given held second held' safe

end Arithmetic

end Homoicon
