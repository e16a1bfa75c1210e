import Homoicon.Proofs.Contexts.Importing
import Homoicon.Proofs.Exchange.Growing
import Homoicon.Proofs.Exchange.Values
import Homoicon.Proofs.Source.Bare

/-!
# Literals in place of documents

Tuples, dates, bytes and issues have no counterpart in JSON.  Such a value is written as its source
text, and what is read from that text is the value again.  All that the scanner finds of these kinds
are values of this sort.
-/

namespace Homoicon

/-! ## Their texts -/

namespace Lexeme.Sourced

variable {lexeme : Lexeme} {kind : Kind} {text : String}

open Token in
/-- The text of a literal is scanned as that one literal. -/
theorem scan (sourced : lexeme.Sourced kind text) :
    Node.scan text = .ok [.mk (.scalar lexeme) false] := by
  cases sourced with
  | tuple long short =>
      obtain ⟨first, later, same, reads, -⟩ := reads_tuple long short
      exact scan_of_lexes (reads.lexes rfl .finish) same
  | date past small firstMonth lastMonth firstDay lastDay =>
      obtain ⟨year, rfl⟩ := Int.eq_ofNat_of_zero_le past
      rename_i month day
      obtain ⟨month, rfl⟩ := Int.eq_ofNat_of_zero_le (Int.le_trans (by decide) firstMonth)
      obtain ⟨day, rfl⟩ := Int.eq_ofNat_of_zero_le (Int.le_trans (by decide) firstDay)
      obtain ⟨first, later, same, reads⟩ := @reads_date year month day (by omega) (by omega)
        (by omega) (by omega) (by omega)
      exact scan_of_lexes (reads.lexes rfl .finish) ((toList_dateText year month day).trans same)
  | binary bytes =>
      exact scan_of_lexes (lexes_hash rfl fun line => by
        simpa using readHash_binary bytes line []) (toList_binaryText bytes)
  | @issue s run =>
      have read (line : Nat) : readHash line (s.toList ++ []) = .ok (.text .issue s, ⟨[], line⟩) := by
        rw [List.append_nil, readHash_issue (namesIssue_of_run run), run, String.ofList_toList]
      refine scan_of_lexes (lexes_hash rfl read) ?_
      simp [Mold.stringText]

/-- A literal has one kind and one text. -/
theorem unique (sourced : lexeme.Sourced kind text) {kind' : Kind} {text' : String}
    (other : lexeme.Sourced kind' text') : kind = kind' ∧ text = text' := by
  cases sourced <;> cases other <;> exact ⟨rfl, rfl⟩

theorem isSource (sourced : lexeme.Sourced kind text) : kind.isSource = true := by
  cases sourced <;> rfl

end Lexeme.Sourced

namespace Machine.Bears

variable {m : Machine} {c : Cell} {lexeme : Lexeme} {kind : Kind} {text : String}

/-- A cell that holds such a value is written as its text. -/
theorem written (bears : m.Bears c lexeme) (sourced : lexeme.Sourced kind text) :
    Mold.cell (Mold.nesting m) c {} m = .ok (({} : Molder).write text) := by
  obtain ⟨kind', payload, binding, quote⟩ := c
  cases bears with
  | tuple holds =>
      obtain ⟨rfl, rfl, rfl⟩ := holds
      cases sourced
      rfl
  | @date d holds =>
      obtain ⟨rfl, rfl, rfl⟩ := holds
      obtain ⟨year, month, day, _, rfl⟩ := d
      cases sourced
      rfl
  | @binary id index bytes holds found =>
      obtain ⟨rfl, rfl, rfl⟩ := holds
      cases sourced
      change (Query.bytes id >>= fun bytes =>
        pure (({} : Molder).write (Mold.binaryText (bytes.toList.drop index))) : Query Molder) m = _
      rw [Query.bind_ok found]
      rfl
  | @issue id index buffer holds found =>
      obtain ⟨rfl, rfl, rfl⟩ := holds
      cases sourced
      change (Mold.stringContent id index >>= fun s =>
        pure (({} : Molder).write (Mold.stringText .issue s)) : Query Molder) m = _
      rw [Query.bind_ok (stringContent_eq found)]
      rfl

theorem unquoted (bears : m.Bears c lexeme) : c.quote = 0 := by
  cases bears with
  | tuple holds | date holds | binary holds | issue holds => exact holds.unquoted

theorem isSource (bears : m.Bears c lexeme) : c.payload.isSource = true := by
  cases bears with
  | tuple holds | date holds | binary holds | issue holds =>
      rw [holds.payload]
      rfl

theorem kind_eq (bears : m.Bears c lexeme) (sourced : lexeme.Sourced kind text) :
    c.kind = kind := by
  cases bears with
  | tuple holds | date holds | binary holds | issue holds =>
      cases sourced
      exact holds.kind

theorem mold (bears : m.Bears c lexeme) (sourced : lexeme.Sourced kind text) :
    Query.mold c m = .ok text := by
  unfold Query.mold
  rw [Query.bind_ok (Query.read_run m), Query.bind_ok (bears.written sourced)]
  simp [Molder.write]

end Machine.Bears

/-! ## What the scanner finds -/

namespace Token

/-- The tuples, dates, bytes and issues. -/
def isSourced : Lexeme → Bool
  | .tuple _ | .date .. | .binary _ | .text .issue _ => true
  | _ => false

theorem readNumber_sourced {line : Nat} {cs : List Char} {lexeme : Lexeme}
    (read : readNumber line cs = .ok lexeme) (sourced : isSourced lexeme = true) :
    ∃ kind text, lexeme.Sourced kind text := by
  unfold readNumber at read
  dsimp only at read
  split at read
  · split at read <;> cases read
    cases sourced
  · split_ifs at read with percent time date dots
    · obtain ⟨_, -, given⟩ := Except.bind_eq_ok read
      cases given
      cases sourced
    · obtain ⟨_, -, rfl⟩ := Except.map_eq_ok read
      cases sourced
    · obtain ⟨⟨year, month, day⟩, value, given⟩ := Except.bind_eq_ok read
      cases given
      obtain ⟨years, months, days⟩ := readDate?_within (orRefuse_eq_ok value)
      exact ⟨_, _, .date years.1 years.2 (mod_cast months.1) (mod_cast months.2)
        (mod_cast days.1) (mod_cast days.2)⟩
    · obtain ⟨bytes, value, rfl⟩ := Except.map_eq_ok read
      cases readTuple?_eq_some (orRefuse_eq_ok value) with
      | tuple parted spelled short =>
          have count := count_intercalate parted.apart
          rw [parted.whole, spelled.length_eq] at count
          exact ⟨_, _, .tuple (by omega) short⟩
    all_goals
      obtain ⟨_, -, rfl⟩ := Except.map_eq_ok read
      cases sourced

/-- The tuples, dates, bytes and issues that the scanner finds are read back from their texts. -/
theorem settles_sourced :
    Settles fun lexeme => isSourced lexeme = true → ∃ kind text, lexeme.Sourced kind text where
  opening _ _ := nofun
  setMark := nofun
  found stands holds sourced := by
    cases stands with
    | lineBreak | gap | comment | opening | leading => cases holds
    | closing | quote | slash | text | file | tag => 
        cases holds
        cases sourced
    | hash read =>
        cases holds
        cases readHash_literal read with
        | char | construct => cases sourced
        | binary bytes => exact ⟨_, _, .binary bytes⟩
        | issue => exact ⟨_, _, .issue (by simpa using takeLexeme_again true [] false _)⟩
    | run begins finds =>
        unfold findRun at finds
        dsimp only at finds
        have number {line : Nat} {cs : List Char} {lexeme : Lexeme}
            (classified : classify line cs = .ok lexeme) (sourced : isSourced lexeme = true) :
            ∃ kind text, lexeme.Sourced kind text := by
          refine readNumber_sourced (readNumber_of_classify classified ?_) sourced
          cases classify_literal classified with
          | number number => exact number
          | address address => rcases address with rfl | rfl <;> cases sourced
          | _ => cases sourced
        split_ifs at finds
        · obtain ⟨value, classified, given⟩ := Except.bind_eq_ok finds
          cases given
          cases holds
          exact number classified sourced
        · obtain ⟨value, classified, given⟩ := Except.bind_eq_ok finds
          cases given
          cases holds
          exact number classified sourced

end Token

/-! ## Reading them -/

namespace Interp

/-- The value of a literal is new, and no word of it can be bound. -/
theorem lexemeCell_run {lexeme : Lexeme} {kind : Kind} {text : String}
    (sourced : lexeme.Sourced kind text) (m : Machine) :
    ∃ c m', lexemeCell lexeme m = .ok c m' ∧ m.Keeps [] m' ∧
      c.kind.isAnyWord = false ∧ c.inner? = none ∧
      ∀ (n : Machine) around, n.Harbors m m' around → n.Bears c lexeme := by
  cases sourced with
  | tuple =>
      exact ⟨_, m, rfl, .refl m, rfl, rfl, fun n around _ => .tuple ⟨rfl, rfl, rfl⟩⟩
  | @date year month day past small firstMonth lastMonth firstDay lastDay =>
      refine ⟨_, m, rfl, .refl m, rfl, rfl, fun n around _ => ?_⟩
      have bears := @Machine.Bears.date n _ _
        (⟨rfl, rfl, rfl⟩ : Cell.Holds { kind := .date, payload := .date (.ofDay year month.toNat day.toNat) } .date _)
      dsimp only at bears
      rwa [Int.toNat_of_nonneg (by omega), Int.toNat_of_nonneg (by omega)] at bears
  | binary bytes =>
      refine ⟨_, _, rfl, .alloc m _, rfl, rfl, fun n around harbors => ?_⟩
      have live := harbors.get? _ _ (m.heap.alloc_fresh _) (m.get?_alloc_self _)
      have bears := @Machine.Bears.binary n (Cell.series .binary _ 0) _ 0 _ ⟨rfl, rfl, rfl⟩
        (Query.bytes_eq_ok.mpr ⟨_, live, rfl⟩)
      rwa [List.toList_toArray, List.drop_zero] at bears
  | @issue s =>
      refine ⟨_, _, rfl, .alloc m _, rfl, rfl, fun n around harbors => ?_⟩
      have live := harbors.get? _ _ (m.heap.alloc_fresh _) (m.get?_alloc_self _)
      have bears := @Machine.Bears.issue n (Cell.series .issue _ 0) _ 0 _ ⟨rfl, rfl, rfl⟩
        (Query.text_eq_ok.mpr ⟨_, live, rfl⟩)
      rwa [Text.Buffer.slice_ofString] at bears

/-- The text of a literal is loaded as a block of that literal alone. -/
theorem loadFirst?_run {lexeme : Lexeme} {kind : Kind} {text : String}
    (sourced : lexeme.Sourced kind text) (m : Machine) :
    ∃ c m', loadFirst? text m = .ok (some c) m' ∧ m.Keeps [] m' ∧
      ∀ (n : Machine) around, n.Harbors m m' around → n.Bears c lexeme := by
  obtain ⟨c, m₁, made, kept, noWord, noArray, bears⟩ := lexemeCell_run sourced m
  let block := m₁.heap.alloc (Series.ofCells #[c]).managed
  let m₂ : Machine := { m₁ with heap := block.2 }
  have cells : Query.cells block.1 m₂ = .ok #[c] :=
    Query.cells_eq_ok.mpr ⟨_, m₁.get?_alloc_self _, rfl⟩
  have item : itemCells [.mk (.scalar lexeme) false] m = .ok [c] m₁ := by
    have one : itemCell (.mk (.scalar lexeme) false) m = .ok c m₁ := by
      rw [itemCell, nodeCell, bind_ok made]
      rfl
    rw [itemCells, bind_ok one]
    rfl
  have scanned : scan text m = .ok block.1 m₂ := by
    unfold scan
    rw [sourced.scan]
    refine (bind_ok (pure_run _ m) _).trans ?_
    rw [bind_ok item]
    rfl
  have bound : bindUser block.1 m₂ = .ok () m₂ := by
    have walked : bindUserCells m₂.heap.slots.size block.1 [c] 0 m₂ = .ok () m₂ := by
      rw [bindUserCells_cons, bindUserCell_other noWord noArray]
      rfl
    exact (bindUserIn_run _ cells).trans walked
  refine ⟨c, m₂, ?_, kept.trans (.alloc m₁ _), fun n around harbors =>
    bears n around (harbors.front (.alloc m₁ _) (List.forall_mem_nil _))⟩
  have loaded : load text m = .ok block.1 m₂ := by
    unfold load
    rw [bind_ok scanned, bind_ok bound]
    rfl
  unfold loadFirst?
  rw [bind_ok loaded, lift_bind_ok cells]
  rfl

end Interp

end Homoicon
