import Mathlib.Data.List.Forall2
import Homoicon.Proofs.Source.Literals

/-!
# Which number a numeral stands for

What is written when a number, a tuple, a date, a time or bytes are, said without the readers:
digits stand for their value to the base ten or sixteen, and a text that stands for a number out of
range is read as no literal at all.  Only a time goes on: the scanner breaks when its nanoseconds,
or what they are reckoned from, leave 64 bits.
-/

namespace Homoicon.Token

/-! ## Spellings -/

/-- Digits stand for an unsigned number, with or without a plus sign in front. -/
inductive Natural : List Char → Nat → Prop where
  | digits {cs : List Char} : cs ≠ [] → Digits cs → Natural cs (Nat.ofDigitChars 10 cs 0)
  | plus {cs : List Char} : cs ≠ [] → Digits cs →
      Natural ('+' :: cs) (Nat.ofDigitChars 10 cs 0)

/-- Digits stand for a number, with or without a sign in front. -/
inductive Numeral : List Char → Int → Prop where
  | natural {cs : List Char} {n : Nat} : Natural cs n → Numeral cs n
  | minus {cs : List Char} : cs ≠ [] → Digits cs →
      Numeral ('-' :: cs) (-(Nat.ofDigitChars 10 cs 0 : Int))

/-- Parts of a text, none of which contains the mark that stands between them. -/
structure Parted (mark : Char) (parts : List (List Char)) (cs : List Char) : Prop where
  whole : [mark].intercalate parts = cs
  apart : ∀ part ∈ parts, mark ∉ part

/-- A number or an English name, in full or in part, stands for a month. -/
inductive SpellsMonth : List Char → Nat → Prop where
  | number {cs : List Char} {month : Nat} : Natural cs month → SpellsMonth cs month
  | name {cs : List Char} {index : Nat} (listed : index < Calendar.monthNames.length) :
      ((Calendar.monthNames[index]).toList.map Char.toLower).isPrefixOf
        (Text.lowercase (String.ofList cs)).toList = true →
      SpellsMonth cs (index + 1)

/-- What is written for hours, for minutes, and for seconds as nanoseconds. -/
inductive SpellsClock : List Char → Int → Int → Int → Prop where
  | minutes {cs hours minutes : List Char} {h m : Int} : Parted ':' [hours, minutes] cs →
      Numeral hours h → Numeral minutes m → SpellsClock cs h m 0
  | seconds {cs hours minutes seconds : List Char} {h m : Int} {s : Float} :
      Parted ':' [hours, minutes, seconds] cs → Numeral hours h → Numeral minutes m →
      Decimal.readChars? seconds = some s → SpellsClock cs h m (secondsToNanos s)

/-- The nanoseconds that a clock shows. -/
def clockSpan (hours minutes nanos : Int) : Int := (hours * 3600 + minutes * 60) * 1000000000 + nanos

/-- The numbers that the nanoseconds of a clock are reckoned by. -/
def clockSteps (hours minutes nanos : Int) : List Int :=
  [hours * 3600, minutes * 60, hours * 3600 + minutes * 60,
    (hours * 3600 + minutes * 60) * 1000000000, clockSpan hours minutes nanos]

/-- A time is written that cannot be reckoned in 64 bits. -/
inductive SpellsVast : List Char → Prop where
  | time {cs : List Char} {h m nanos i : Int} : cs.head? ≠ some '-' → SpellsClock cs h m nanos →
      i ∈ clockSteps h m nanos → Bits.fits64 i = false → SpellsVast cs
  | before {cs : List Char} {h m nanos i : Int} : SpellsClock cs h m nanos →
      i ∈ -clockSpan h m nanos :: clockSteps h m nanos → Bits.fits64 i = false →
      SpellsVast ('-' :: cs)

/-- Pairs of hexadecimal digits stand for bytes; a plus sign may take the place of the first. -/
inductive SpellsBytes : List Char → List UInt8 → Prop where
  | nil : SpellsBytes [] []
  | pair {c d : Char} {x y : Nat} {byte : UInt8} {cs : List Char} {bytes : List UInt8} :
      hexDigit? c = some x → hexDigit? d = some y → byte.toNat = 16 * x + y →
      SpellsBytes cs bytes → SpellsBytes (c :: d :: cs) (byte :: bytes)
  | plus {d : Char} {y : Nat} {byte : UInt8} {cs : List Char} {bytes : List UInt8} :
      hexDigit? d = some y → byte.toNat = y →
      SpellsBytes cs bytes → SpellsBytes ('+' :: d :: cs) (byte :: bytes)

/-- What is written where a literal made of numbers stands. -/
inductive Spelled : List Char → Lexeme → Prop where
  | integer {cs : List Char} {i : Int} : Numeral cs i → Bits.fits64 i = true →
      Spelled cs (.integer i)
  | tuple {cs : List Char} {parts : List (List Char)} {bytes : List UInt8} :
      Parted '.' parts cs → List.Forall₂ (fun part byte => Natural part byte.toNat) parts bytes →
      bytes.length ≤ 8 → Spelled cs (.tuple bytes)
  | date {cs first second third : List Char} {year : Int} {month day : Nat} :
      Parted '-' [first, second, third] cs →
      (if (String.ofList first).utf8ByteSize = 4 then Numeral first year ∧ Natural third day
        else Numeral third year ∧ Natural first day) →
      SpellsMonth second month → 1 ≤ month ∧ month ≤ 12 → 1 ≤ day ∧ day ≤ 31 →
      Spelled cs (.date year month day)
  | time {cs : List Char} {h m nanos : Int} : cs.head? ≠ some '-' → SpellsClock cs h m nanos →
      Bits.fits64 (clockSpan h m nanos) = true → Spelled cs (.time (clockSpan h m nanos))
  | before {cs : List Char} {h m nanos : Int} : SpellsClock cs h m nanos →
      Bits.fits64 (-clockSpan h m nanos) = true → Spelled ('-' :: cs) (.time (-clockSpan h m nanos))
  | binary {content : List Char} {bytes : List UInt8} : '\x7d' ∉ content →
      SpellsBytes (content.filter (!Text.isBlank ·)) bytes →
      Spelled ('#' :: '\x7b' :: (content ++ ['\x7d'])) (.binary bytes)

/-- A literal made of whole numbers. -/
def countsOut : Lexeme → Bool
  | .integer _ | .tuple _ | .date .. | .time _ | .binary _ => true
  | _ => false

/-! ## Readers -/

theorem digitsValue_eq (cs : List Char) : Decimal.digitsValue 0 cs = Nat.ofDigitChars 10 cs 0 := by
  rw [Nat.ofDigitChars_eq_foldl]
  rfl

theorem digits_of_not {cs : List Char}
    (accepted : ¬ (cs.isEmpty || !cs.all Char.isDigit) = true) : cs ≠ [] ∧ Digits cs := by
  simpa [Digits] using accepted

theorem readNatural?_eq_some {limit n : Nat} {cs : List Char}
    (read : Decimal.readNatural? limit cs = some n) : Natural cs n ∧ n ≤ limit := by
  have value {digits : List Char} (read : (if (digits.isEmpty || !digits.all Char.isDigit) = true
      then none
      else if Decimal.digitsValue 0 digits ≤ limit then some (Decimal.digitsValue 0 digits)
      else none) = some n) :
      digits ≠ [] ∧ Digits digits ∧ Nat.ofDigitChars 10 digits 0 = n ∧ n ≤ limit := by
    split_ifs at read with refused within
    obtain ⟨nonempty, digits⟩ := digits_of_not refused
    cases read
    exact ⟨nonempty, digits, (digitsValue_eq _).symm, within⟩
  unfold Decimal.readNatural? at read
  dsimp only at read
  split at read
  · obtain ⟨nonempty, digits, rfl, within⟩ := value read
    exact ⟨.plus nonempty digits, within⟩
  · obtain ⟨nonempty, digits, rfl, within⟩ := value read
    exact ⟨.digits nonempty digits, within⟩

theorem readInteger?_eq_some {limit : Nat} {cs : List Char} {i : Int}
    (read : Decimal.readInteger? limit cs = some i) :
    Numeral cs i ∧ -(limit + 1 : Int) ≤ i ∧ i ≤ limit := by
  unfold Decimal.readInteger? at read
  split at read
  · rename_i digits
    dsimp only at read
    split_ifs at read with refused within
    obtain ⟨nonempty, digits⟩ := digits_of_not refused
    cases read
    refine ⟨digitsValue_eq _ ▸ .minus nonempty digits, ?_, ?_⟩ <;> omega
  · obtain ⟨n, natural, rfl⟩ := Option.map_eq_some_iff.mp read
    obtain ⟨spelled, within⟩ := readNatural?_eq_some natural
    refine ⟨.natural spelled, ?_, ?_⟩ <;> simp only [Int.ofNat_eq_natCast] <;> omega

theorem readInt64?_eq_some {cs : List Char} {i : Int} (read : Decimal.readInt64? cs = some i) :
    Numeral cs i ∧ Bits.fits64 i = true := by
  obtain ⟨spelled, above, below⟩ := readInteger?_eq_some read
  refine ⟨spelled, ?_⟩
  have least : Bits.least64 = -((Bits.greatest64 : Int) + 1) := by decide
  simp only [Bits.fits64, Bool.and_eq_true, decide_eq_true_eq]
  omega

theorem splitAll_ne_nil (mark : Char) (cs : List Char) : splitAll mark cs ≠ [] := by
  cases cs with
  | nil => exact List.cons_ne_nil _ _
  | cons c cs =>
      unfold splitAll
      split_ifs
      · exact List.cons_ne_nil _ _
      · split <;> exact List.cons_ne_nil _ _

theorem parted_splitAll (mark : Char) (cs : List Char) : Parted mark (splitAll mark cs) cs := by
  induction cs with
  | nil => exact ⟨rfl, by simp [splitAll]⟩
  | cons c cs ih =>
      cases parts : splitAll mark cs with
      | nil => exact absurd parts (splitAll_ne_nil mark cs)
      | cons part more =>
          rw [parts] at ih
          obtain ⟨whole, apart⟩ := ih
          unfold splitAll
          rw [parts]
          split_ifs with same
          · obtain rfl := beq_iff_eq.mp same
            refine ⟨?_, fun other member => ?_⟩
            · rw [← whole]
              simp [List.intercalate]
            · rcases List.mem_cons.mp member with rfl | member
              · exact List.not_mem_nil
              · exact apart other member
          · refine ⟨?_, fun other member => ?_⟩
            · rw [← whole]
              cases more <;> simp [List.intercalate]
            · rcases List.mem_cons.mp member with rfl | member
              · refine List.not_mem_cons_of_ne_of_not_mem (fun same' => ?_) (apart part List.mem_cons_self)
                exact same (by simp [same'])
              · exact apart other (List.mem_cons_of_mem _ member)

theorem readMonth?_eq_some {cs : List Char} {month : Nat} (read : readMonth? cs = some month) :
    SpellsMonth cs month := by
  unfold readMonth? at read
  split at read
  · rename_i natural
    cases read
    exact .number (readNatural?_eq_some natural).1
  · dsimp only at read
    split_ifs at read with listed
    cases read
    exact .name listed (List.findIdx_getElem (w := listed))

theorem readClock?_eq_some {cs : List Char} {h m nanos : Int}
    (read : readClock? cs = some (h, m, nanos)) : SpellsClock cs h m nanos := by
  have parted := parted_splitAll ':' cs
  unfold readClock? at read
  split at read
  · rename_i hours minutes parts
    rw [parts] at parted
    obtain ⟨h, hoursRead, read⟩ := Option.bind_eq_some_iff.mp read
    obtain ⟨m, minutesRead, read⟩ := Option.bind_eq_some_iff.mp read
    cases read
    exact .minutes parted (readInt64?_eq_some hoursRead).1 (readInt64?_eq_some minutesRead).1
  · rename_i hours minutes seconds parts
    rw [parts] at parted
    obtain ⟨h, hoursRead, read⟩ := Option.bind_eq_some_iff.mp read
    obtain ⟨m, minutesRead, read⟩ := Option.bind_eq_some_iff.mp read
    obtain ⟨s, secondsRead, read⟩ := Option.bind_eq_some_iff.mp read
    cases read
    exact .seconds parted (readInt64?_eq_some hoursRead).1 (readInt64?_eq_some minutesRead).1
      secondsRead
  · cases read

theorem exact64_cases (i : Int) :
    Scan.exact64 i = .ok i ∧ Bits.fits64 i = true ∨
      Scan.exact64 i = .error .defect ∧ Bits.fits64 i = false := by
  unfold Scan.exact64
  split_ifs with fits
  · exact .inl ⟨rfl, fits⟩
  · exact .inr ⟨rfl, Bool.eq_false_iff.mpr fits⟩

/-- The nanoseconds of a clock are exact, or one of the numbers on the way leaves 64 bits. -/
theorem clockNanos_cases (h m nanos : Int) :
    clockNanos h m nanos = .ok (clockSpan h m nanos) ∧ Bits.fits64 (clockSpan h m nanos) = true ∨
      clockNanos h m nanos = .error .defect ∧
        ∃ i ∈ clockSteps h m nanos, Bits.fits64 i = false := by
  have vast {i : Int} (step : i ∈ clockSteps h m nanos) (large : Bits.fits64 i = false) :
      ∃ i ∈ clockSteps h m nanos, Bits.fits64 i = false := ⟨i, step, large⟩
  unfold clockNanos
  obtain ⟨hours, -⟩ | ⟨hours, large⟩ := exact64_cases (h * 3600)
  · obtain ⟨minutes, -⟩ | ⟨minutes, large⟩ := exact64_cases (m * 60)
    · obtain ⟨seconds, -⟩ | ⟨seconds, large⟩ := exact64_cases (h * 3600 + m * 60)
      · obtain ⟨whole, -⟩ | ⟨whole, large⟩ := exact64_cases ((h * 3600 + m * 60) * 1000000000)
        · simp only [hours, minutes, seconds, whole, bind, Except.bind]
          exact (exact64_cases (clockSpan h m nanos)).imp_right fun span =>
            ⟨span.1, vast (by simp [clockSteps]) span.2⟩
        · simp only [hours, minutes, seconds, whole, bind, Except.bind]
          exact .inr ⟨trivial, vast (by simp [clockSteps]) large⟩
      · simp only [hours, minutes, seconds, bind, Except.bind]
        exact .inr ⟨trivial, vast (by simp [clockSteps]) large⟩
    · simp only [hours, minutes, bind, Except.bind]
      exact .inr ⟨trivial, vast (by simp [clockSteps]) large⟩
  · simp only [hours, bind, Except.bind]
    exact .inr ⟨trivial, vast (by simp [clockSteps]) large⟩

theorem splitSign_cases (cs : List Char) :
    (∃ digits, cs = '-' :: digits ∧ splitSign cs = (true, digits)) ∨
      cs.head? ≠ some '-' ∧ splitSign cs = (false, cs) := by
  unfold splitSign
  split
  · exact .inl ⟨_, rfl, rfl⟩
  · rename_i unsigned
    refine .inr ⟨fun sign => ?_, rfl⟩
    cases cs with
    | nil => cases sign
    | cons c cs =>
        cases sign
        exact unsigned cs rfl

/-- A time is read as its nanoseconds, and breaks the scanner only when they cannot be reckoned. -/
theorem readTime_exact {line : Nat} {cs : List Char} :
    (∀ t, readTime line cs = .ok t → Spelled cs (.time t)) ∧
      (readTime line cs = .error .defect → SpellsVast cs) := by
  unfold readTime
  obtain ⟨digits, rfl, sign⟩ | ⟨unsigned, sign⟩ := splitSign_cases cs
  · rw [sign]
    cases clock : readClock? digits with
    | none =>
        simp only [clock, orRefuse, bind, Except.bind, refuse, throw, throwThe, MonadExceptOf.throw]
        exact ⟨by simp, by simp⟩
    | some shown =>
        obtain ⟨h, m, nanos⟩ := shown
        have spelled := readClock?_eq_some clock
        obtain ⟨total, -⟩ | ⟨total, i, step, large⟩ := clockNanos_cases h m nanos
        · obtain ⟨whole, fits⟩ | ⟨whole, large⟩ := exact64_cases (-clockSpan h m nanos)
          · simp only [clock, orRefuse, bind, Except.bind, pure, Except.pure, total, if_true, whole]
            exact ⟨fun t read => by cases read; exact .before spelled fits, by simp⟩
          · simp only [clock, orRefuse, bind, Except.bind, pure, Except.pure, total, if_true, whole]
            exact ⟨by simp, fun _ => .before spelled List.mem_cons_self large⟩
        · simp only [clock, orRefuse, bind, Except.bind, pure, Except.pure, total]
          exact ⟨by simp, fun _ => .before spelled (List.mem_cons_of_mem _ step) large⟩
  · rw [sign]
    cases clock : readClock? cs with
    | none =>
        simp only [clock, orRefuse, bind, Except.bind, refuse, throw, throwThe, MonadExceptOf.throw]
        exact ⟨by simp, by simp⟩
    | some shown =>
        obtain ⟨h, m, nanos⟩ := shown
        have spelled := readClock?_eq_some clock
        obtain ⟨total, fits⟩ | ⟨total, i, step, large⟩ := clockNanos_cases h m nanos
        · simp only [clock, orRefuse, bind, Except.bind, pure, Except.pure, total, Bool.false_eq_true,
            if_false]
          exact ⟨fun t read => by cases read; exact .time unsigned spelled fits, by simp⟩
        · simp only [clock, orRefuse, bind, Except.bind, pure, Except.pure, total]
          exact ⟨by simp, fun _ => .time unsigned spelled step large⟩

-- more hours than the nanoseconds of a time can hold
example : readTime 1 "2562048:00".toList = .error .defect := by decide

theorem readDate?_eq_some {cs : List Char} {year : Int} {month day : Nat}
    (read : readDate? cs = some (year, month, day)) : Spelled cs (.date year month day) := by
  have parted := parted_splitAll '-' cs
  unfold readDate? at read
  split at read
  · rename_i first second third parts
    rw [parts] at parted
    dsimp only at read
    obtain ⟨y, yearRead, read⟩ := Option.bind_eq_some_iff.mp read
    obtain ⟨m, monthRead, read⟩ := Option.bind_eq_some_iff.mp read
    obtain ⟨d, dayRead, read⟩ := Option.bind_eq_some_iff.mp read
    split_ifs at read with within
    simp only [Bool.and_eq_true, decide_eq_true_eq] at within
    obtain ⟨⟨⟨least, most⟩, first'⟩, last⟩ := within
    cases read
    refine .date parted ?_ (readMonth?_eq_some monthRead) ⟨least, most⟩ ⟨first', last⟩
    by_cases yearFirst : (String.ofList first).utf8ByteSize = 4
    · rw [if_pos yearFirst]
      simp only [yearFirst, beq_self_eq_true, if_true] at yearRead dayRead
      exact ⟨(readInteger?_eq_some yearRead).1, (readNatural?_eq_some dayRead).1⟩
    · rw [if_neg yearFirst]
      simp only [beq_eq_false_iff_ne.mpr yearFirst, Bool.false_eq_true, if_false]
        at yearRead dayRead
      exact ⟨(readInteger?_eq_some yearRead).1, (readNatural?_eq_some dayRead).1⟩
  · cases read

theorem nonneg_of_numeral {cs : List Char} {i : Int} (unsigned : '-' ∉ cs) (numeral : Numeral cs i) :
    0 ≤ i := by
  cases numeral with
  | natural => exact Int.natCast_nonneg _
  | minus => exact absurd List.mem_cons_self unsigned

theorem readDate?_within {cs : List Char} {year : Int} {month day : Nat}
    (read : readDate? cs = some (year, month, day)) :
    (0 ≤ year ∧ year ≤ Bits.greatest32) ∧ (1 ≤ month ∧ month ≤ 12) ∧ 1 ≤ day ∧ day ≤ 31 := by
  have parted := parted_splitAll '-' cs
  unfold readDate? at read
  split at read
  · rename_i first second third parts
    rw [parts] at parted
    dsimp only at read
    obtain ⟨y, yearRead, read⟩ := Option.bind_eq_some_iff.mp read
    obtain ⟨m, -, read⟩ := Option.bind_eq_some_iff.mp read
    obtain ⟨d, -, read⟩ := Option.bind_eq_some_iff.mp read
    split_ifs at read with within
    simp only [Bool.and_eq_true, decide_eq_true_eq] at within
    obtain ⟨⟨⟨least, most⟩, first'⟩, last⟩ := within
    cases read
    refine ⟨?_, ⟨least, most⟩, first', last⟩
    obtain ⟨numeral, -, small⟩ := readInteger?_eq_some yearRead
    refine ⟨nonneg_of_numeral (parted.apart _ ?_) numeral, small⟩
    split_ifs <;> simp
  · cases read

theorem readParts?_eq_some {parts : List (List Char)} {numbers : List Nat}
    (read : parts.mapM (Decimal.readNatural? 255) = some numbers) :
    List.Forall₂ (fun part byte => Natural part byte.toNat) parts (numbers.map UInt8.ofNat) := by
  induction parts generalizing numbers with
  | nil =>
      cases read
      exact .nil
  | cons part parts ih =>
      rw [List.mapM_cons] at read
      obtain ⟨n, one, read⟩ := Option.bind_eq_some_iff.mp read
      obtain ⟨more, rest, read⟩ := Option.bind_eq_some_iff.mp read
      cases read
      obtain ⟨natural, within⟩ := readNatural?_eq_some one
      have same : (UInt8.ofNat n).toNat = n := UInt8.toNat_ofNat_of_lt' (by simp [UInt8.size]; omega)
      exact .cons (same.symm ▸ natural) (ih rest)

theorem readTuple?_eq_some {cs : List Char} {bytes : List UInt8}
    (read : readTuple? cs = some bytes) : Spelled cs (.tuple bytes) := by
  unfold readTuple? at read
  dsimp only at read
  split at read
  · rename_i numbers parts
    split_ifs at read with short
    cases read
    exact .tuple (parted_splitAll '.' cs) (readParts?_eq_some parts) (by simpa using short)
  · cases read

theorem hexDigit?_lt {c : Char} {x : Nat} (digit : hexDigit? c = some x) : x < 16 := by
  have bound {d : Char} (below : c ≤ d) : c.toNat ≤ d.toNat := below
  unfold hexDigit? at digit
  simp only [Bool.and_eq_true, decide_eq_true_eq] at digit
  split_ifs at digit with decimal small large <;> cases digit
  · have := bound decimal.2
    simp at this
    omega
  · have := bound small.2
    simp at this
    omega
  · have := bound large.2
    simp at this
    omega

theorem readHex?_pair {c d : Char} {value : Nat} (read : readHex? [c, d] = some value)
    {cs : List Char} {bytes : List UInt8} (onward : SpellsBytes cs bytes) :
    SpellsBytes (c :: d :: cs) (UInt8.ofNat value :: bytes) := by
  have same {n : Nat} (small : n < 256) : (UInt8.ofNat n).toNat = n :=
    UInt8.toNat_ofNat_of_lt' (by simpa [UInt8.size] using small)
  unfold readHex? at read
  by_cases sign : c = '+'
  · subst sign
    cases digit : hexDigit? d with
    | none => simp [digit] at read
    | some y =>
        have lt := hexDigit?_lt digit
        obtain rfl : y = value := by simpa [digit] using read
        exact .plus digit (same (by omega)) onward
  · cases high : hexDigit? c with
    | none => simp [high, sign] at read
    | some x =>
        cases low : hexDigit? d with
        | none => simp [high, low, sign] at read
        | some y =>
            have highLt := hexDigit?_lt high
            have lowLt := hexDigit?_lt low
            obtain rfl : 16 * x + y = value := by simpa [high, low, sign] using read
            exact .pair high low (same (by omega)) onward

theorem hexBytes_eq_ok {line : Nat} {digits : String} : {cs : List Char} → {bytes : List UInt8} →
    hexBytes line digits cs = .ok bytes → SpellsBytes cs bytes
  | [], _, read => by
      cases read
      exact .nil
  | [c], _, read => by
      unfold hexBytes at read
      split_ifs at read
      cases read
  | c :: d :: cs, bytes, read => by
      unfold hexBytes at read
      dsimp only at read
      split_ifs at read
      · cases read
      · split at read
        · rename_i value pair
          obtain ⟨later, rest, rfl⟩ := Except.map_eq_ok read
          exact readHex?_pair pair (hexBytes_eq_ok rest)
        · cases read

theorem orRefuse_eq_ok {α : Type} {line : Nat} {cause : String → ScanCause} {cs : List Char}
    {value : Option α} {a : α} (read : orRefuse line cause cs value = .ok a) : value = some a := by
  cases value with
  | none => cases read
  | some b =>
      cases read
      rfl

theorem readNumber_spelled {line : Nat} {cs : List Char} {lexeme : Lexeme}
    (read : readNumber line cs = .ok lexeme) (counts : countsOut lexeme = true) :
    Spelled cs lexeme := by
  unfold readNumber at read
  dsimp only at read
  split at read
  · split at read
    · cases read
      cases counts
    · cases read
  · split_ifs at read
    · obtain ⟨_, -, given⟩ := Except.bind_eq_ok read
      cases given
      cases counts
    · obtain ⟨_, value, rfl⟩ := Except.map_eq_ok read
      exact readTime_exact.1 _ value
    · obtain ⟨⟨year, month, day⟩, value, given⟩ := Except.bind_eq_ok read
      cases given
      exact readDate?_eq_some (orRefuse_eq_ok value)
    · obtain ⟨_, value, rfl⟩ := Except.map_eq_ok read
      exact readTuple?_eq_some (orRefuse_eq_ok value)
    · obtain ⟨_, -, rfl⟩ := Except.map_eq_ok read
      cases counts
    · obtain ⟨_, value, rfl⟩ := Except.map_eq_ok read
      obtain ⟨numeral, fits⟩ := readInt64?_eq_some (orRefuse_eq_ok value)
      exact .integer numeral fits

theorem readWord_counts {line : Nat} {cs : List Char} {lexeme : Lexeme}
    (read : readWord line cs = .ok lexeme) : countsOut lexeme = false := by
  unfold readWord at read
  dsimp only at read
  split_ifs at read
  · cases read
  · cases read
    rfl

theorem classify_spelled {line : Nat} {cs : List Char} {lexeme : Lexeme}
    (read : classify line cs = .ok lexeme) (counts : countsOut lexeme = true) :
    Spelled cs lexeme := by
  unfold classify at read
  split at read
  · cases read
  · cases read
    cases counts
  · cases read
    cases counts
  · split_ifs at read
    · cases read
      cases counts
    · obtain ⟨_, -, rfl⟩ := Except.map_eq_ok read
      cases counts
    · exact readNumber_spelled read counts
    · cases read
      cases counts
    · rw [readWord_counts read] at counts
      cases counts

end Homoicon.Token
