import Homoicon.Path.Walk
import Homoicon.Proofs.Parsing.Spelling
import Homoicon.Proofs.Storing

/-!
# Elements of series

A series holds its elements as cells, code points or bytes.  A step of a path picks one of them or
puts a value in its place; here it is said which one, for every position and every number.
-/

namespace Homoicon

namespace Cell.SameValue

variable {a b c : Cell}

theorem symm (same : a.SameValue b) : b.SameValue a :=
  ⟨same.kind.symm, same.quote.symm, same.binding.symm, same.payload.symm⟩

theorem trans (first : a.SameValue b) (second : b.SameValue c) : a.SameValue c :=
  ⟨first.kind.trans second.kind, first.quote.trans second.quote,
    first.binding.trans second.binding, first.payload.trans second.payload⟩

end Cell.SameValue

/-! ## Contents -/

namespace Content

/-- The element at a place, as a value. -/
def element? : Content → Nat → Option Cell
  | array cells, i => cells[i]?
  | text buffer, i => (buffer.get? i).map Cell.char
  | binary bytes, i => bytes[i]?.map fun b => Cell.integer b.toNat

/-- The element that a number counts from a position on, where 1 is the position itself. -/
def nth? (content : Content) (start : Nat) (n : Int) : Option Cell :=
  if 1 ≤ n then content.element? (start + n - 1).toNat else none

/-- A value can be an element of the content. -/
def Takes : Content → Cell → Prop
  | array _, v => v.isNull = false
  | text _, v => ∃ c : Char, v.SameValue (Cell.char c)
  | binary _, v => ∃ b : UInt8, v.SameValue (Cell.integer b.toNat)

/-- The content with a value as the element at a place. -/
def replaced : Content → Nat → Cell → Content
  | array cells, i, v => array (cells.modify i fun _ => v.copied)
  | text buffer, i, v => text (.ofList (buffer.toList.modify i fun old => v.asChar?.getD old))
  | binary bytes, i, v =>
    binary (bytes.modify i fun old => (v.asInteger?.map fun b => UInt8.ofNat b.toNat).getD old)

/-- A series with such a content is a value of the kind. -/
def Fits : Content → Kind → Prop
  | array _, k => k.isAnyArray = true
  | text _, k => k.isAnyString = true
  | binary _, k => k = .binary

theorem element?_isSome {content : Content} {i : Nat} :
    (content.element? i).isSome ↔ i < content.size := by
  cases content <;> simp [element?, size, Text.Buffer.get?_eq]

theorem element?_eq_none {content : Content} {i : Nat} :
    content.element? i = none ↔ content.size ≤ i := by
  rw [← Option.not_isSome_iff_eq_none, element?_isSome, Nat.not_lt]

@[simp] theorem size_replaced (content : Content) (i : Nat) (v : Cell) :
    (content.replaced i v).size = content.size := by
  cases content <;> simp [replaced, size]

theorem asChar?_of_sameValue {v : Cell} {c : Char} (same : v.SameValue (Cell.char c)) :
    v.asChar? = some c := by
  rw [Cell.asChar?, same.payload, same.quote]
  rfl

theorem asInteger?_of_sameValue {v : Cell} {i : Int} (same : v.SameValue (Cell.integer i)) :
    v.asInteger? = some i := by
  rw [Cell.asInteger?, same.payload, same.quote]
  rfl

theorem element?_replaced_self {content : Content} {i : Nat} {v : Cell} (takes : content.Takes v)
    (inside : i < content.size) :
    ∃ c, (content.replaced i v).element? i = some c ∧ c.SameValue v := by
  cases content with
  | array cells =>
      refine ⟨v.copied, ?_, rfl, rfl, rfl, rfl⟩
      change (cells.modify i _)[i]? = _
      rw [Array.getElem?_modify, if_pos rfl, Array.getElem?_eq_getElem inside]
      rfl
  | text buffer =>
      obtain ⟨c, same⟩ := takes
      refine ⟨Cell.char c, ?_, same.symm⟩
      have inside : i < buffer.toList.length := by rwa [Text.Buffer.length_toList]
      rw [replaced, element?, Text.Buffer.get?_eq, Text.Buffer.toList_ofList,
        List.getElem?_modify_eq, List.getElem?_eq_getElem inside, asChar?_of_sameValue same]
      rfl
  | binary bytes =>
      obtain ⟨b, same⟩ := takes
      refine ⟨Cell.integer b.toNat, ?_, same.symm⟩
      change ((bytes.modify i _)[i]?).map (fun b => Cell.integer b.toNat) = _
      rw [Array.getElem?_modify, if_pos rfl, Array.getElem?_eq_getElem inside,
        asInteger?_of_sameValue same]
      simp

theorem element?_replaced_of_ne (content : Content) {i j : Nat} (v : Cell) (apart : j ≠ i) :
    (content.replaced i v).element? j = content.element? j := by
  cases content <;>
    simp [replaced, element?, Text.Buffer.get?_eq, Array.getElem?_modify, apart.symm]

end Content

/-! ## Texts -/

namespace Text.Buffer

/-- To take out a code point and put another one in front of what followed is to replace it. -/
theorem insert_remove (b : Text.Buffer) {i : Nat} (inside : i < b.size) (c : Char) :
    (b.remove i (i + 1)).insert i [c] = .ofList (b.toList.modify i fun _ => c) := by
  have length : (b.toList.take i).length = i := by
    rw [List.length_take, length_toList]
    omega
  refine toList_inj.mp ?_
  rw [toList_insert, toList_remove b i.le_succ, List.take_left' length, List.drop_left' length,
    toList_ofList, List.modify_eq_take_cons_drop (by simpa using inside), List.append_assoc]
  rfl

end Text.Buffer

/-! ## Taking series over -/

/-- A machine some of whose series the collector has taken over since. -/
structure Machine.Adopts (m m' : Machine) : Prop where
  rest : ∃ heap manuals, m' = { m with heap, manuals }
  series : ∀ id, m'.heap.get? id = m.heap.get? id ∨
    ∃ s, m.heap.get? id = some s ∧ m'.heap.get? id = some s.managed

namespace Machine.Adopts

variable {m m' m'' : Machine}

theorem refl (m : Machine) : m.Adopts m := ⟨⟨_, _, rfl⟩, fun _ => .inl rfl⟩

theorem managed_managed (s : Series) : s.managed.managed = s.managed := by
  unfold Series.managed Series.withFlags
  rw [UInt32.or_assoc, UInt32.or_self]

theorem trans (first : m.Adopts m') (second : m'.Adopts m'') : m.Adopts m'' where
  rest := by
    obtain ⟨_, _, rfl⟩ := first.rest
    obtain ⟨_, _, rfl⟩ := second.rest
    exact ⟨_, _, rfl⟩
  series id := by
    obtain same | ⟨s, found, taken⟩ := first.series id
    · rw [← same]
      exact second.series id
    · refine .inr ⟨s, found, ?_⟩
      obtain same' | ⟨s', found', taken'⟩ := second.series id
      · rw [same', taken]
      · obtain rfl := Option.some.inj (taken.symm.trans found')
        rw [taken', managed_managed]

/-- The content of a series does not depend on who owns it. -/
theorem content (adopts : m.Adopts m') {id : SeriesId} {s : Series}
    (found : m.heap.get? id = some s) :
    ∃ s', m'.heap.get? id = some s' ∧ s'.content = s.content := by
  obtain same | ⟨t, found', taken⟩ := adopts.series id
  · exact ⟨s, same.trans found, rfl⟩
  · obtain rfl := Option.some.inj (found.symm.trans found')
    exact ⟨_, taken, rfl⟩

theorem frames (adopts : m.Adopts m') : m'.frames = m.frames := by
  obtain ⟨_, _, rfl⟩ := adopts.rest
  rfl

end Machine.Adopts

/-- The call that a relative value is tied to has its variables. -/
def Machine.Ties (m : Machine) (c : Cell) (specifier : Specifier) : Prop :=
  ∀ paramlist varlist, c.binding = .relative paramlist → specifier = some varlist →
    m.heap.isLive varlist = true

namespace Interp

theorem ensureManaged_adopts {m : Machine} {id : SeriesId} (live : m.heap.isLive id = true) :
    ∃ m', ensureManaged id m = .ok () m' ∧ m.Adopts m' := by
  obtain ⟨s, found⟩ := Heap.isLive_iff.mp live
  have asked : Query.hasFlag id Flags.managed m = .ok (s.has Flags.managed) :=
    Query.hasFlag_eq_ok.mpr ⟨s, found, rfl⟩
  unfold ensureManaged
  rw [lift_bind_ok asked]
  cases s.has Flags.managed with
  | true => exact ⟨m, rfl, .refl m⟩
  | false =>
      have flagged : setFlag id Flags.managed m =
        .ok () (m.onHeap (·.modify id (·.withFlags Flags.managed))) := if_pos live
      refine ⟨_, bind_ok flagged _, ⟨_, _, rfl⟩, fun other => ?_⟩
      change (m.heap.modify id _).get? other = _ ∨ ∃ s, _ ∧ (m.heap.modify id _).get? other = _
      rw [Heap.get?_modify]
      split_ifs with same
      · subst same
        exact .inr ⟨s, found, by rw [found]; rfl⟩
      · exact .inl rfl

theorem derelativize_adopts {m : Machine} {specifier : Specifier} {c : Cell}
    (ties : m.Ties c specifier) :
    ∃ m', derelativize c specifier m = .ok (c.resolved specifier) m' ∧ m.Adopts m' := by
  unfold derelativize Cell.resolved
  cases binding : c.binding with
  | unbound | specific => exact ⟨m, rfl, .refl m⟩
  | relative paramlist =>
      cases specifier with
      | none => exact ⟨m, rfl, .refl m⟩
      | some varlist =>
          obtain ⟨m', managed, adopts⟩ := ensureManaged_adopts (ties paramlist varlist binding rfl)
          exact ⟨m', bind_ok managed _, adopts⟩

end Interp

/-! ## Steps into series -/

/-- A value is a position of a series. -/
structure Machine.SeriesAt (m : Machine) (c : Cell) (id : SeriesId) (start : Nat) (s : Series) :
    Prop where
  plain : c.quote = 0
  payload : c.payload = .series id start
  live : m.heap.get? id = some s
  kind : s.content.Fits c.kind

namespace Machine.SeriesAt

variable {m : Machine} {c : Cell} {id : SeriesId} {start : Nat} {s : Series}

theorem arrayOf (at_ : m.SeriesAt c id start s) : Query.arrayOf c m = .ok id := by
  rw [Query.arrayOf_eq_ok, Cell.seriesId?, at_.payload]

theorem index (at_ : m.SeriesAt c id start s) : c.index = start := by
  rw [Cell.index, at_.payload]

/-- A value is a position of one series only. -/
theorem eq (at_ : m.SeriesAt c id start s) {id' : SeriesId} {start' : Nat} {s' : Series}
    (other : m.SeriesAt c id' start' s') : id = id' ∧ start = start' ∧ s = s' := by
  have payload := at_.payload.symm.trans other.payload
  simp only [Payload.series.injEq] at payload
  obtain ⟨rfl, rfl⟩ := payload
  exact ⟨rfl, rfl, Option.some.inj (at_.live.symm.trans other.live)⟩

end Machine.SeriesAt

namespace Path

variable {m : Machine} {c k v : Cell} {id : SeriesId} {start : Nat} {s : Series} {n : Int}

/-- A step from a series is one of the three. -/
theorem step_series (at_ : m.SeriesAt c id start s) (setval : Option Cell) :
    step c k setval m = (match s.content with
      | .array _ => arrayStep c k setval
      | .text _ => stringStep c k setval
      | .binary _ => binaryStep c k setval) m := by
  have depth : c.quoteDepth = 0 := by
    rw [Cell.quoteDepth, at_.payload, at_.plain]
  have bare : Query.unquotify c c.quoteDepth m = .ok c := by
    rw [depth]
    rfl
  have kind := at_.kind
  unfold step
  rw [Interp.lift_bind_ok bare]
  cases content : s.content with
  | array cells =>
      rw [content] at kind
      have array : c.kind.isAnyArray = true := kind
      dsimp only
      rw [array, if_pos rfl]
  | text buffer =>
      rw [content] at kind
      have text : c.kind.isAnyString = true := kind
      have other : c.kind.isAnyArray = false := by
        revert text
        cases c.kind <;> simp [Kind.isAnyString, Kind.isAnyArray, Kind.isAnyPath, Kind.isAnyBlock,
          Kind.isAnyGroup]
      dsimp only
      rw [other, text, if_neg Bool.false_ne_true, if_pos rfl]
  | binary bytes =>
      rw [content] at kind
      obtain kind : c.kind = .binary := kind
      dsimp only
      rw [kind]
      rfl

/-- The place of an element, where a changed value can be written back. -/
def elementPlace (id : SeriesId) (i : Nat) : Content → Place
  | .array _ => .slot id i
  | _ => .nowhere

theorem nth?_eq_none_iff {content : Content} :
    content.nth? start n = none ↔ n < 1 ∨ (content.size : Int) ≤ start + n - 1 := by
  unfold Content.nth?
  split_ifs with positive
  · rw [Content.element?_eq_none]
    omega
  · simp only [true_iff]
    omega

theorem nth?_eq_some {content : Content} {x : Cell} (found : content.nth? start n = some x) :
    1 ≤ n ∧ content.element? (start + n - 1).toNat = some x ∧
      (start + n - 1).toNat < content.size := by
  unfold Content.nth? at found
  split_ifs at found with positive
  exact ⟨positive, found, Content.element?_isSome.mp (by rw [found]; rfl)⟩

/-- The place that a number counts is reckoned in 64 bits. -/
structure Counted (start : Nat) (n : Int) : Prop where
  behind : Bits.fits64 (start + n) = true
  at_ : Bits.fits64 (start + n - 1) = true

theorem place_run (counted : Counted start n) : place start n m = .ok (start + n - 1) m := by
  rw [place, Interp.exact64_eq counted.behind, pure_bind, Interp.exact64_eq counted.at_]
  rfl

theorem place_bind_eq_ok {α : Type} {f : Int → Interp α} {a : α} {m' : Machine}
    (done : (place start n >>= f) m = .ok a m') :
    Counted start n ∧ f (start + n - 1) m = .ok a m' := by
  have counted : Counted start n := by
    obtain ⟨at_, next, placed, -⟩ := Interp.bind_eq_ok.mp done
    unfold place exact64 at placed
    by_cases behind : Bits.fits64 (start + n) = true
    · rw [if_pos behind, pure_bind] at placed
      split_ifs at placed with fits
      · exact ⟨behind, fits⟩
      · cases placed
    · rw [if_neg behind] at placed
      cases placed
  rw [Interp.bind_ok (place_run counted)] at done
  exact ⟨counted, done⟩

theorem outside_of_none {content : Content} (missing : content.nth? start n = none) :
    (n < 1 || (content.size : Int) ≤ start + n - 1) = true := by
  simpa only [Bool.or_eq_true, decide_eq_true_eq] using nth?_eq_none_iff.mp missing

theorem inside_of_some {content : Content} {x : Cell} (found : content.nth? start n = some x) :
    ¬ (n < 1 || (content.size : Int) ≤ start + n - 1) = true := by
  obtain ⟨positive, -, inside⟩ := nth?_eq_some found
  simp only [Bool.or_eq_true, decide_eq_true_eq]
  omega

theorem arrayStep_pick (at_ : m.SeriesAt c id start s) (cells : Array Cell)
    (content : s.content = .array cells) (number : k.asInteger? = some n)
    (counted : Counted start n) :
    arrayStep c k none m = (match s.content.nth? start n with
      | some x => do
        let v ← Interp.derelativize x (Query.deriveSpecifier c none)
        pure (PathStep.picked v (.slot id (start + n - 1).toNat))
      | none => pure (PathStep.picked Cell.null .nowhere)) m := by
  unfold arrayStep
  rw [Interp.lift_bind_ok at_.arrayOf, Interp.lift_bind_ok (Query.size_run at_.live), number]
  dsimp only
  rw [at_.index, Interp.bind_ok (place_run counted)]
  cases found : s.content.nth? start n with
  | none =>
      rw [if_pos (outside_of_none found)]
      rfl
  | some x =>
      obtain ⟨positive, here, -⟩ := nth?_eq_some found
      have cell : Query.cell id (start + n - 1).toNat m = .ok x := by
        refine Query.cell_eq_ok.mpr ⟨cells, Query.cells_eq_ok.mpr ⟨s, at_.live, content⟩, ?_⟩
        rw [content] at here
        exact here
      rw [if_neg (inside_of_some found), Interp.lift_bind_ok cell]

theorem stringStep_pick (at_ : m.SeriesAt c id start s) (buffer : Text.Buffer)
    (content : s.content = .text buffer) (number : k.asInteger? = some n)
    (counted : Counted start n) :
    stringStep c k none m = .ok (.picked ((s.content.nth? start n).getD Cell.null) .nowhere) m := by
  unfold stringStep
  rw [number]
  dsimp only
  rw [Interp.lift_bind_ok at_.arrayOf, at_.index, Interp.bind_ok (place_run counted), content]
  by_cases positive : n < 1
  · rw [if_pos positive, Content.nth?, if_neg (by omega)]
    rfl
  · rw [if_neg positive, Interp.lift_bind_ok (Query.series_eq_ok.mpr at_.live), content]
    dsimp only
    rw [Content.nth?, if_pos (by omega), Content.element?]
    cases buffer.get? (start + n - 1).toNat <;> rfl

theorem binaryStep_pick (at_ : m.SeriesAt c id start s) (bytes : Array UInt8)
    (content : s.content = .binary bytes) (number : k.asInteger? = some n)
    (counted : Counted start n) :
    binaryStep c k none m = .ok (.picked ((s.content.nth? start n).getD Cell.null) .nowhere) m := by
  unfold binaryStep
  rw [number]
  dsimp only
  rw [Interp.lift_bind_ok at_.arrayOf, at_.index, Interp.bind_ok (place_run counted), content]
  by_cases positive : n < 1
  · rw [if_pos positive, Content.nth?, if_neg (by omega)]
    rfl
  · rw [if_neg positive, Interp.lift_bind_ok (Query.series_eq_ok.mpr at_.live), content]
    dsimp only
    rw [Content.nth?, if_pos (by omega), Content.element?]
    cases bytes[(start + n - 1).toNat]? <;> rfl

/-- What a number picks from a position of a series, and where it lives. -/
def picked (s : Series) (c : Cell) (id : SeriesId) (n : Int) : Cell × Place :=
  match s.content.nth? c.index n with
  | some x => (x.resolved (Query.deriveSpecifier c none),
      elementPlace id (c.index + n - 1).toNat s.content)
  | none => (Cell.null, .nowhere)

/-- Only the elements of arrays refer to anything. -/
theorem element?_resolved {content : Content} {i : Nat} {x : Cell}
    (found : content.element? i = some x) (other : ∀ cells, content ≠ .array cells)
    (specifier : Specifier) : x.resolved specifier = x := by
  cases content with
  | array cells => exact absurd rfl (other cells)
  | text buffer =>
      obtain ⟨c, -, rfl⟩ := Option.map_eq_some_iff.mp found
      rfl
  | binary bytes =>
      obtain ⟨b, -, rfl⟩ := Option.map_eq_some_iff.mp found
      rfl

/-- A number picks the element that it counts from the position on. -/
theorem step_pick (at_ : m.SeriesAt c id start s) (number : k.asInteger? = some n)
    (counted : Counted start n)
    (ties : ∀ x, s.content.nth? start n = some x → m.Ties x (Query.deriveSpecifier c none)) :
    ∃ m', step c k none m = .ok (.picked (picked s c id n).1 (picked s c id n).2) m' ∧
      m.Adopts m' := by
  rw [step_series at_, picked, at_.index]
  cases content : s.content with
  | array cells =>
      dsimp only
      rw [arrayStep_pick at_ cells content number counted, content]
      rw [content] at ties
      cases found : (Content.array cells).nth? start n with
      | none => exact ⟨m, rfl, .refl m⟩
      | some x =>
          obtain ⟨m', tied, adopts⟩ := Interp.derelativize_adopts (ties x found)
          exact ⟨m', Interp.bind_ok tied _, adopts⟩
  | text buffer =>
      dsimp only
      rw [stringStep_pick at_ buffer content number counted, content]
      refine ⟨m, ?_, .refl m⟩
      cases found : (Content.text buffer).nth? start n with
      | none => rfl
      | some x =>
          dsimp only
          rw [element?_resolved (nth?_eq_some found).2.1 (by rintro _ ⟨⟩)]
          rfl
  | binary bytes =>
      dsimp only
      rw [binaryStep_pick at_ bytes content number counted, content]
      refine ⟨m, ?_, .refl m⟩
      cases found : (Content.binary bytes).nth? start n with
      | none => rfl
      | some x =>
          dsimp only
          rw [element?_resolved (nth?_eq_some found).2.1 (by rintro _ ⟨⟩)]
          rfl

/-! ## Storing elements -/

/-- A series with a value as the element at a place. -/
def replacing (i : Nat) (v : Cell) (s : Series) : Series :=
  { s with content := s.content.replaced i v }

/-- A machine whose series has a value as the element at a place. -/
def replaced (m : Machine) (id : SeriesId) (i : Nat) (v : Cell) : Machine :=
  m.onHeap (·.modify id (replacing i v))

theorem moveCell_replaced {i : Nat} {cells : Array Cell} (live : m.heap.get? id = some s)
    (content : s.content = .array cells) (inside : i < cells.size) (v : Cell) :
    Interp.moveCell id i v m = .ok () (replaced m id i v) := by
  have found : Query.cells id m = .ok cells := Query.cells_eq_ok.mpr ⟨s, live, content⟩
  refine (Interp.storeCell_run v.copied found inside).trans ?_
  refine congrArg (fun heap => EStateM.Result.ok () (m.onHeap fun _ => heap)) ?_
  refine Heap.modify_congr fun t same => ?_
  obtain rfl := Option.some.inj (live.symm.trans same)
  rw [Series.storing_array content, replacing, content]
  rfl

theorem modifyText_replaced {i : Nat} {buffer : Text.Buffer} {ch : Char}
    (live : m.heap.get? id = some s) (content : s.content = .text buffer) (inside : i < buffer.size)
    (char : v.asChar? = some ch) :
    Interp.modifyText id (fun b => (b.remove i (i + 1)).insert i [ch]) m =
      .ok () (replaced m id i v) := by
  have found : Query.text id m = .ok buffer := Query.text_eq_ok.mpr ⟨s, live, content⟩
  have alive : m.heap.isLive id = true := Heap.isLive_iff.mpr ⟨s, live⟩
  unfold Interp.modifyText
  rw [Interp.lift_bind_ok found, Interp.modifySeries, if_pos alive]
  refine congrArg (fun heap => EStateM.Result.ok () (m.onHeap fun _ => heap)) ?_
  refine Heap.modify_congr fun t same => ?_
  obtain rfl := Option.some.inj (live.symm.trans same)
  obtain ⟨flags, held, link, role⟩ := s
  obtain rfl : held = .text buffer := content
  rw [replacing, Content.replaced, char]
  dsimp only
  rw [Text.Buffer.insert_remove buffer inside]
  rfl

theorem modifyBytes_replaced {i : Nat} {bytes : Array UInt8} {b : Int}
    (live : m.heap.get? id = some s) (content : s.content = .binary bytes)
    (byte : v.asInteger? = some b) :
    Interp.modifyBytes id (·.setIfInBounds i (UInt8.ofNat b.toNat)) m =
      .ok () (replaced m id i v) := by
  have found : Query.bytes id m = .ok bytes := Query.bytes_eq_ok.mpr ⟨s, live, content⟩
  have alive : m.heap.isLive id = true := Heap.isLive_iff.mpr ⟨s, live⟩
  unfold Interp.modifyBytes
  rw [Interp.lift_bind_ok found, Interp.modifySeries, if_pos alive]
  refine congrArg (fun heap => EStateM.Result.ok () (m.onHeap fun _ => heap)) ?_
  refine Heap.modify_congr fun t same => ?_
  obtain rfl := Option.some.inj (live.symm.trans same)
  obtain ⟨flags, held, link, role⟩ := s
  obtain rfl : held = .binary bytes := content
  have changed : bytes.setIfInBounds i (UInt8.ofNat b.toNat) =
      bytes.modify i fun _ => UInt8.ofNat b.toNat := by
    refine Array.ext_getElem? fun j => ?_
    rw [Array.getElem?_setIfInBounds, Array.getElem?_modify]
    split_ifs with here within
    · subst here
      rw [Array.getElem?_eq_getElem within]
      rfl
    · subst here
      rw [Array.getElem?_eq_none (Nat.not_lt.mp within)]
      rfl
    · rfl
  rw [replacing, Content.replaced, byte]
  dsimp only
  rw [changed]
  rfl

/-- The outcome of storing an element. -/
def stores (m : Machine) (id : SeriesId) (s : Series) (start : Nat) (n : Int) (v : Cell) :
    EStateM.Result Fault Machine PathStep :=
  if (s.content.nth? start n).isSome then
    .ok .poked (replaced m id (start + n - 1).toNat v)
  else .error (.error (Cause.outOfRange (toString n)).error) m

theorem checkMutable_run (live : m.heap.get? id = some s) (free : s.has Flags.locked = false) :
    Query.checkMutable id m = .ok () := by
  rw [Query.checkMutable, Query.bind_ok (Query.hasFlag_eq_ok.mpr ⟨s, live, free⟩)]
  rfl

theorem arrayStep_poke (at_ : m.SeriesAt c id start s) (cells : Array Cell)
    (content : s.content = .array cells) (number : k.asInteger? = some n)
    (counted : Counted start n) (present : v.isNull = false)
    (free : s.has Flags.locked = false) :
    arrayStep c k (some v) m = stores m id s start n v := by
  unfold arrayStep stores
  rw [Interp.lift_bind_ok at_.arrayOf, Interp.lift_bind_ok (Query.size_run at_.live), number]
  dsimp only
  rw [at_.index, Interp.bind_ok (place_run counted)]
  cases found : s.content.nth? start n with
  | none =>
      rw [if_pos (outside_of_none found)]
      rfl
  | some x =>
      obtain ⟨positive, -, inside⟩ := nth?_eq_some found
      rw [if_neg (inside_of_some found), present, if_neg Bool.false_ne_true,
        Interp.lift_bind_ok (checkMutable_run at_.live free),
        Interp.bind_ok (moveCell_replaced at_.live content (by rwa [content] at inside) v)]
      rfl

theorem stringStep_poke (at_ : m.SeriesAt c id start s) (buffer : Text.Buffer)
    (content : s.content = .text buffer) (number : k.asInteger? = some n)
    (counted : Counted start n) {ch : Char} (char : v.asChar? = some ch)
    (free : s.has Flags.locked = false) :
    stringStep c k (some v) m = stores m id s start n v := by
  have text : Query.text id m = .ok buffer := Query.text_eq_ok.mpr ⟨s, at_.live, content⟩
  have size : s.content.size = buffer.size := by rw [content]; rfl
  unfold stringStep stores
  rw [number]
  dsimp only
  rw [Interp.lift_bind_ok at_.arrayOf, at_.index, Interp.bind_ok (place_run counted), char]
  dsimp only
  rw [Interp.lift_bind_ok (checkMutable_run at_.live free), Interp.lift_bind_ok text]
  cases found : s.content.nth? start n with
  | none =>
      rw [if_pos (size ▸ outside_of_none found)]
      rfl
  | some x =>
      obtain ⟨positive, -, inside⟩ := nth?_eq_some found
      rw [size] at inside
      rw [if_neg (size ▸ inside_of_some found),
        Interp.bind_ok (modifyText_replaced at_.live content inside char)]
      rfl

theorem binaryStep_poke (at_ : m.SeriesAt c id start s) (bytes : Array UInt8)
    (content : s.content = .binary bytes) (number : k.asInteger? = some n)
    (counted : Counted start n) {b : UInt8}
    (byte : v.asInteger? = some (b.toNat : Int)) (free : s.has Flags.locked = false) :
    binaryStep c k (some v) m = stores m id s start n v := by
  have held : Query.bytes id m = .ok bytes := Query.bytes_eq_ok.mpr ⟨s, at_.live, content⟩
  have size : s.content.size = bytes.size := by rw [content]; rfl
  have narrow : ¬ ((b.toNat : Int) < 0 || 255 < (b.toNat : Int)) = true := by
    have := b.toNat_lt
    simp only [Bool.or_eq_true, decide_eq_true_eq]
    omega
  unfold binaryStep stores
  rw [number]
  dsimp only
  rw [Interp.lift_bind_ok at_.arrayOf, at_.index, Interp.bind_ok (place_run counted), byte]
  dsimp only
  rw [if_neg narrow, Interp.lift_bind_ok (checkMutable_run at_.live free), Interp.lift_bind_ok held]
  cases found : s.content.nth? start n with
  | none =>
      rw [if_pos (size ▸ outside_of_none found)]
      rfl
  | some x =>
      obtain ⟨positive, -, inside⟩ := nth?_eq_some found
      rw [size] at inside
      rw [if_neg (size ▸ inside_of_some found),
        Interp.bind_ok (modifyBytes_replaced at_.live content byte)]
      rfl

/-- A number stores a value as the element that it counts from the position on, or fails. -/
theorem step_poke (at_ : m.SeriesAt c id start s) (number : k.asInteger? = some n)
    (counted : Counted start n) (takes : s.content.Takes v)
    (free : s.has Flags.locked = false) : step c k (some v) m = stores m id s start n v := by
  rw [step_series at_]
  cases content : s.content with
  | array cells =>
      rw [content] at takes
      exact arrayStep_poke at_ cells content number counted takes free
  | text buffer =>
      rw [content] at takes
      obtain ⟨ch, same⟩ := takes
      exact stringStep_poke at_ buffer content number counted (Content.asChar?_of_sameValue same)
        free
  | binary bytes =>
      rw [content] at takes
      obtain ⟨b, same⟩ := takes
      exact binaryStep_poke at_ bytes content number counted (Content.asInteger?_of_sameValue same)
        free

end Path

end Homoicon
