import Homoicon.Proofs.Editing.Failing
import Homoicon.Proofs.Natives
import Homoicon.Proofs.Paths.Elements

/-!
# Splicing

An insertion cuts a series in two at a place and puts the items of a value in between; a removal
takes a span out again.  Cells, code points and bytes are spliced alike, also where a series goes
into itself, and what has gone in can be taken out to leave the series as it was.
-/

namespace Homoicon

/-! ## Contents -/

namespace Content

/-- Two contents have elements of one form. -/
inductive SameForm : Content → Content → Prop where
  | array (xs ys : Array Cell) : SameForm (array xs) (array ys)
  | text (s t : Text.Buffer) : SameForm (text s) (text t)
  | binary (xs ys : Array UInt8) : SameForm (binary xs) (binary ys)

/-- The content with its elements rearranged, which does not depend on their form. -/
def rearranged (f : {α : Type} → List α → List α) : Content → Content
  | array cells => array (f cells.toList).toArray
  | text buffer => text (.ofList (f buffer.toList))
  | binary bytes => binary (f bytes.toList).toArray

/-- The first elements, as many as `part` says, again and again. -/
def copies (part : Option Nat) (times : Nat) (content : Content) : Content :=
  content.rearranged fun xs => (List.replicate times (part.elim xs xs.take)).flatten

/-- Series of a kind are edited as the content: arrays as cells, binaries as bytes, and what is
neither as code points. -/
def EditedAs : Content → Kind → Prop
  | array _, k => k.isAnyArray = true
  | text _, k => k.isAnyArray = false ∧ k ≠ .binary
  | binary _, k => k = .binary

/-- The content with other elements of its form put in at a place. -/
def spliced (at_ : Nat) : Content → Content → Content
  | array xs, array ys => array (xs.toList.take at_ ++ ys.toList ++ xs.toList.drop at_).toArray
  | text s, text t => text (.ofList (s.toList.take at_ ++ t.toList ++ s.toList.drop at_))
  | binary xs, binary ys => binary (xs.toList.take at_ ++ ys.toList ++ xs.toList.drop at_).toArray
  | content, _ => content

variable {given content : Content} {at_ : Nat} {k : Kind}

theorem SameForm.copies (same : SameForm given content) (part : Option Nat) (times : Nat) :
    SameForm (given.copies part times) content := by
  cases same <;> constructor

theorem EditedAs.spliced (edited : EditedAs content k) (same : SameForm given content) :
    EditedAs (content.spliced at_ given) k := by
  cases same <;> exact edited

theorem size_spliced (same : SameForm given content) (inside : at_ ≤ content.size) :
    (content.spliced at_ given).size = content.size + given.size := by
  cases same <;> simp only [size] at inside <;>
    simp only [Content.spliced, size, Text.Buffer.size_ofList, Text.Buffer.length_toList,
      List.size_toArray, List.length_append, List.length_take, List.length_drop,
      Array.length_toList] <;>
    omega

theorem take_drop_spliced {α : Type} (xs ys : List α) (inside : at_ ≤ xs.length) :
    ((xs.take at_ ++ ys ++ xs.drop at_).drop at_).take ys.length = ys := by
  rw [List.append_assoc, List.drop_left' (List.length_take_of_le inside), List.take_left]

theorem take_append_drop_spliced {α : Type} (xs ys : List α) (inside : at_ ≤ xs.length) :
    (xs.take at_ ++ ys ++ xs.drop at_).take at_ ++
      (xs.take at_ ++ ys ++ xs.drop at_).drop (at_ + ys.length) = xs := by
  have front : (xs.take at_).length = at_ := List.length_take_of_le inside
  rw [List.append_assoc, List.take_left' front, ← List.drop_drop, List.drop_left' front,
    List.drop_left, List.take_append_drop]

/-- What has been put in is found at its place. -/
theorem span_spliced (same : SameForm given content) (inside : at_ ≤ content.size) :
    ((content.spliced at_ given).rearranged fun xs => (xs.drop at_).take given.size) = given := by
  cases same with
  | array xs ys =>
      have here := take_drop_spliced ys.toList xs.toList (by simpa [size] using inside)
      rw [Array.length_toList] at here
      rw [Content.spliced, rearranged, size, List.toList_toArray, here, Array.toArray_toList]
  | text s t =>
      have here := take_drop_spliced t.toList s.toList (by simpa [size] using inside)
      rw [Text.Buffer.length_toList] at here
      rw [Content.spliced, rearranged, size, Text.Buffer.toList_ofList, here,
        Text.Buffer.ofList_toList]
  | binary xs ys =>
      have here := take_drop_spliced ys.toList xs.toList (by simpa [size] using inside)
      rw [Array.length_toList] at here
      rw [Content.spliced, rearranged, size, List.toList_toArray, here, Array.toArray_toList]

/-- Without what has been put in, a content is what it was. -/
theorem rest_spliced (same : SameForm given content) (inside : at_ ≤ content.size) :
    ((content.spliced at_ given).rearranged fun xs =>
      xs.take at_ ++ xs.drop (at_ + given.size)) = content := by
  cases same with
  | array xs ys =>
      have back := take_append_drop_spliced ys.toList xs.toList (by simpa [size] using inside)
      rw [Array.length_toList] at back
      rw [Content.spliced, rearranged, size, List.toList_toArray, back, Array.toArray_toList]
  | text s t =>
      have back := take_append_drop_spliced t.toList s.toList (by simpa [size] using inside)
      rw [Text.Buffer.length_toList] at back
      rw [Content.spliced, rearranged, size, Text.Buffer.toList_ofList, back,
        Text.Buffer.ofList_toList]
  | binary xs ys =>
      have back := take_append_drop_spliced ys.toList xs.toList (by simpa [size] using inside)
      rw [Array.length_toList] at back
      rw [Content.spliced, rearranged, size, List.toList_toArray, back, Array.toArray_toList]

end Content

/-! ## The items of a value -/

namespace Machine

/-- The items that a value has for a series.  To an array a block or group offers its cells from its
position on, tied to the call that the value belongs to, unless the value goes in whole; to a text
a block offers what each of its cells forms, any other value what it forms itself; to a binary a
value offers bytes. -/
inductive ItemsOf (m : Machine) (value : Cell) (only : Bool) : Content → Prop where
  | items {id : SeriesId} {cells : Array Cell} (split : only = false)
      (listed : value.is .block = true ∨ value.is .group = true)
      (known : value.seriesId? = some id) (held : Query.cells id m = .ok cells) :
      ItemsOf m value only (.array ((cells.toList.drop value.index).map
        (·.resolved (Query.deriveSpecifier value none))).toArray)
  | whole (whole : only = true ∨ value.is .block = false ∧ value.is .group = false) :
      ItemsOf m value only (.array #[{ value.copied with unevaluated := false }])
  | forms {id : SeriesId} {cells : Array Cell} {parts : List String} (block : value.is .block = true)
      (known : value.seriesId? = some id) (held : Query.cells id m = .ok cells)
      (formed : List.Forall₂ (fun c part => Query.form c m = .ok part)
        (cells.toList.drop value.index) parts) :
      ItemsOf m value only (.text (.ofString (String.join parts)))
  | form {formed : String} (other : value.is .block = false) (answer : Query.form value m = .ok formed) :
      ItemsOf m value only (.text (.ofString formed))
  | byte (b : UInt8) (plain : value.quote = 0) (payload : value.payload = .integer b.toNat) :
      ItemsOf m value only (.binary #[b])
  | char (c : Char) (plain : value.quote = 0) (payload : value.payload = .char c) :
      ItemsOf m value only (.binary (Text.Utf8.encode (String.singleton c)))
  | bytes {id : SeriesId} {bytes : Array UInt8} (binary : value.is .binary = true)
      (known : value.seriesId? = some id) (held : Query.bytes id m = .ok bytes) :
      ItemsOf m value only (.binary (bytes.toList.drop value.index).toArray)
  | string {text : String} (plain : value.quote = 0) (string : value.kind.isAnyString = true)
      (answer : Query.cellText value m = .ok text) :
      ItemsOf m value only (.binary (Text.Utf8.encode text))

/-- A machine one of whose series has another content. -/
def rewritten (m : Machine) (id : SeriesId) (content : Content) : Machine :=
  m.onHeap (·.modify id fun s => { s with content })

variable {m : Machine} {id : SeriesId} {s : Series} {content : Content}

theorem get?_rewritten_self (live : m.heap.get? id = some s) (content : Content) :
    (m.rewritten id content).heap.get? id = some { s with content } := by
  change (m.heap.modify id _).get? id = _
  rw [Heap.get?_modify, if_pos rfl, live]
  rfl

theorem get?_rewritten_of_ne {other : SeriesId} (apart : other ≠ id) :
    (m.rewritten id content).heap.get? other = m.heap.get? other := by
  change (m.heap.modify id _).get? other = _
  rw [Heap.get?_modify, if_neg apart.symm]

theorem get?_rewritten_eq_none {other : SeriesId} :
    (m.rewritten id content).heap.get? other = none ↔ m.heap.get? other = none := by
  change (m.heap.modify id _).get? other = none ↔ _
  rw [Heap.get?_modify]
  split_ifs
  · exact Option.map_eq_none_iff
  · exact Iff.rfl

/-- Series can be changed as before when the collector has taken some over. -/
theorem Adopts.unlocked {adopted : Machine} (adopts : m.Adopts adopted)
    (live : m.heap.get? id = some s) (free : s.has Flags.locked = false) :
    ∃ t, adopted.heap.get? id = some t ∧ t.content = s.content ∧ t.has Flags.locked = false := by
  obtain same | ⟨s', live', taken⟩ := adopts.series id
  · exact ⟨s, same.trans live, rfl, free⟩
  · obtain rfl := Option.some.inj (live.symm.trans live')
    exact ⟨s.managed, taken, rfl, (s.has_withFlags_of_apart (by decide)).trans free⟩

/-- A machine behind an edit: one series has another content, and all else is as it was but for the
series that the collector has taken over. -/
structure Edits (m m' : Machine) (id : SeriesId) (content : Content) : Prop where
  rest : ∃ heap manuals, m' = { m with heap, manuals }
  here : (m'.heap.get? id).map Series.content = some content
  others : ∀ other, other ≠ id → m'.heap.get? other = m.heap.get? other ∨
    ∃ t, m.heap.get? other = some t ∧ m'.heap.get? other = some t.managed

theorem Adopts.edits {adopted : Machine} (adopts : m.Adopts adopted)
    (live : m.heap.get? id = some s) (content : Content) :
    m.Edits (adopted.rewritten id content) id content where
  rest := by
    obtain ⟨heap, manuals, rfl⟩ := adopts.rest
    exact ⟨_, _, rfl⟩
  here := by
    obtain ⟨t, held, -⟩ := adopts.content live
    rw [get?_rewritten_self held]
    rfl
  others other apart := by
    rw [get?_rewritten_of_ne apart]
    exact adopts.series other

end Machine

namespace Interp

/-! ## Changing a content -/

section Changing

variable {m : Machine} {id : SeriesId} {s : Series}

theorem modifySeries_rewritten (live : m.heap.get? id = some s) {f : Series → Series}
    {content : Content} (becomes : f s = { s with content }) :
    modifySeries id f m = .ok () (m.rewritten id content) := by
  rw [modifySeries, if_pos (Heap.isLive_iff.mpr ⟨s, live⟩)]
  refine congrArg (fun heap => EStateM.Result.ok () (m.onHeap fun _ => heap)) ?_
  refine Heap.modify_congr fun t same => ?_
  obtain rfl := Option.some.inj (live.symm.trans same)
  exact becomes

theorem modifyCells_rewritten {cells : Array Cell} (live : m.heap.get? id = some s)
    (held : s.content = .array cells) (f : Array Cell → Array Cell) :
    modifyCells id f m = .ok () (m.rewritten id (.array (f cells))) := by
  have array : isArray id m = .ok true := by
    rw [isArray, Query.bind_ok (Query.series_eq_ok.mpr live), held]
    rfl
  rw [modifyCells, lift_bind_ok array, if_pos rfl]
  refine modifySeries_rewritten live ?_
  obtain ⟨flags, _, link, role⟩ := s
  cases held
  rfl

theorem modifyText_rewritten {buffer : Text.Buffer} (live : m.heap.get? id = some s)
    (held : s.content = .text buffer) (f : Text.Buffer → Text.Buffer) :
    modifyText id f m = .ok () (m.rewritten id (.text (f buffer))) := by
  rw [modifyText, lift_bind_ok (Query.text_eq_ok.mpr ⟨s, live, held⟩)]
  refine modifySeries_rewritten live ?_
  obtain ⟨flags, _, link, role⟩ := s
  cases held
  rfl

theorem modifyBytes_rewritten {bytes : Array UInt8} (live : m.heap.get? id = some s)
    (held : s.content = .binary bytes) (f : Array UInt8 → Array UInt8) :
    modifyBytes id f m = .ok () (m.rewritten id (.binary (f bytes))) := by
  rw [modifyBytes, lift_bind_ok (Query.bytes_eq_ok.mpr ⟨s, live, held⟩)]
  refine modifySeries_rewritten live ?_
  obtain ⟨flags, _, link, role⟩ := s
  cases held
  rfl

end Changing

/-! ## Items -/

variable {m m' : Machine} {value : Cell} {only : Bool}

theorem toList_splice {α : Type} (xs : Array α) (at_ : Nat) (items : List α) :
    (splice xs at_ items).toList = xs.toList.take at_ ++ items ++ xs.toList.drop at_ := by
  unfold splice
  split_ifs with behind
  · have short : xs.toList.length ≤ at_ := by simpa using behind
    rw [List.take_of_length_le short, List.drop_of_length_le short, List.append_nil]
    simp
  · simp [List.extract_eq_take_drop, List.take_of_length_le]

theorem toList_cut {α : Type} (xs : Array α) (start stop : Nat) :
    (cut xs start stop).toList = xs.toList.take start ++ xs.toList.drop stop := by
  simp [cut, List.extract_eq_take_drop, List.take_of_length_le]

theorem toList_extract {α : Type} (xs : Array α) (start count : Nat) :
    (xs.extract start (start + count)).toList = (xs.toList.drop start).take count := by
  rw [Array.toList_extract, List.extract_eq_take_drop, Nat.add_sub_cancel_left]

theorem repeated_eq {α : Type} (items : List α) (times : Nat) :
    repeated items times = (List.replicate times items).flatten := by
  unfold repeated
  split_ifs with none_
  · rw [List.isEmpty_iff.mp none_]
    simp
  · rfl

theorem bounded_eq {α : Type} (items : List α) (part : Option Nat) :
    bounded items part = part.elim items items.take := by
  cases part <;> rfl

/-- Tying a cell to a call changes nothing but who owns the variables of the call. -/
theorem derelativize_eq_ok {c c' : Cell} {specifier : Specifier}
    (done : derelativize c specifier m = .ok c' m') :
    c' = c.resolved specifier ∧ m.Adopts m' := by
  have ties : m.Ties c specifier := by
    rintro paramlist varlist binding rfl
    unfold derelativize at done
    rw [binding] at done
    obtain ⟨_, middle, managed, -⟩ := bind_eq_ok.mp done
    obtain ⟨flag, asked, -⟩ := lift_bind_eq_ok.mp managed
    obtain ⟨s, live, -⟩ := Query.hasFlag_eq_ok.mp asked
    exact Heap.isLive_iff.mpr ⟨s, live⟩
  obtain ⟨_, tied, adopts⟩ := derelativize_adopts ties
  rw [tied] at done
  cases done
  exact ⟨rfl, adopts⟩

theorem mapM_derelativize_eq_ok {cells tied : List Cell} {specifier : Specifier}
    (done : cells.mapM (derelativize · specifier) m = .ok tied m') :
    tied = cells.map (·.resolved specifier) ∧ m.Adopts m' := by
  induction cells generalizing m tied with
  | nil =>
      cases done
      exact ⟨rfl, .refl _⟩
  | cons c cells rest =>
      rw [List.mapM_cons] at done
      obtain ⟨c', next, first, later⟩ := bind_eq_ok.mp done
      obtain ⟨others, last, behind, given⟩ := bind_eq_ok.mp later
      cases given
      obtain ⟨rfl, adopts⟩ := derelativize_eq_ok first
      obtain ⟨rfl, further⟩ := rest behind
      exact ⟨rfl, adopts.trans further⟩

/-- The items that go into an array are those that the value offers. -/
theorem insertionItems_eq_ok {items : List Cell}
    (done : insertionItems value only m = .ok items m') :
    m.ItemsOf value only (.array items.toArray) ∧ m.Adopts m' := by
  unfold insertionItems at done
  split at done
  · rename_i split
    simp only [Bool.and_eq_true, Bool.or_eq_true, Bool.not_eq_true'] at split
    obtain ⟨id, known, done⟩ := lift_bind_eq_ok.mp done
    obtain ⟨listed, answer, done⟩ := lift_bind_eq_ok.mp done
    obtain ⟨cells, held, rfl⟩ := Query.cellsFrom_eq_ok.mp answer
    obtain ⟨rfl, adopts⟩ := mapM_derelativize_eq_ok done
    exact ⟨.items split.1 split.2 (Query.arrayOf_eq_ok.mp known) held, adopts⟩
  · rename_i whole
    cases done
    refine ⟨.whole ?_, .refl m⟩
    cases only <;> simp_all

theorem mapM_eq_ok {α β : Type} {f : α → Query β} {items : List α} {answers : List β} :
    items.mapM f m = .ok answers ↔ List.Forall₂ (fun a b => f a m = .ok b) items answers := by
  induction items generalizing answers with
  | nil =>
      rw [List.mapM_nil, List.forall₂_nil_left_iff]
      exact ⟨fun done => by cases done; rfl, fun done => by cases done; rfl⟩
  | cons a items rest =>
      rw [List.mapM_cons, Query.bind_eq_ok, List.forall₂_cons_left_iff]
      refine exists_congr fun b => ?_
      rw [Query.bind_eq_ok]
      constructor
      · rintro ⟨first, others, answer, given⟩
        cases given
        exact ⟨others, first, rest.mp answer, rfl⟩
      · rintro ⟨others, first, answer, rfl⟩
        exact ⟨first, others, rest.mpr answer, rfl⟩

/-- The text that goes into a text is what the value offers. -/
theorem insertionText_eq_ok {text : String} (done : Query.insertionText value m = .ok text) :
    m.ItemsOf value only (.text (.ofString text)) := by
  unfold Query.insertionText at done
  split at done
  · rename_i block
    obtain ⟨id, known, done⟩ := Query.bind_eq_ok.mp done
    obtain ⟨listed, answer, done⟩ := Query.bind_eq_ok.mp done
    obtain ⟨cells, held, rfl⟩ := Query.cellsFrom_eq_ok.mp answer
    obtain ⟨parts, formed, joined⟩ := Query.bind_eq_ok.mp done
    cases joined
    exact .forms block (Query.arrayOf_eq_ok.mp known) held (mapM_eq_ok.mp formed)
  · rename_i other
    exact .form (Bool.eq_false_iff.mpr other) done

/-- The bytes that go into a binary are those that the value offers. -/
theorem insertionBytes_eq_ok {bytes : List UInt8}
    (done : Query.insertionBytes value m = .ok bytes) :
    m.ItemsOf value only (.binary bytes.toArray) := by
  have refused : ¬ (do fail (.invalidArg (← Query.mold value)) : Query (List UInt8)) m = .ok bytes := by
    intro done
    obtain ⟨text, -, done⟩ := Query.bind_eq_ok.mp done
    cases done
  unfold Query.insertionBytes at done
  split at done
  · exact absurd done refused
  · rename_i plain
    have plain : value.quote = 0 := by simpa using plain
    have series (done : (if value.kind = .binary then do
          pure ((← Query.bytes (← Query.arrayOf value)).toList.drop value.index)
        else if value.kind.isAnyString then do
          pure (Text.Utf8.encode (← Query.cellText value)).toList
        else do fail (.invalidArg (← Query.mold value)) : Query (List UInt8)) m = .ok bytes) :
        m.ItemsOf value only (.binary bytes.toArray) := by
      split_ifs at done with binary string
      · obtain ⟨id, known, done⟩ := Query.bind_eq_ok.mp done
        obtain ⟨held, answer, done⟩ := Query.bind_eq_ok.mp done
        cases done
        exact .bytes (Cell.is_iff.mpr ⟨plain, binary⟩) (Query.arrayOf_eq_ok.mp known) answer
      · obtain ⟨text, answer, done⟩ := Query.bind_eq_ok.mp done
        cases done
        exact .string plain string answer
      · exact absurd done refused
    cases payload : value.payload <;> rw [payload] at done
    case integer b =>
      dsimp only at done
      split_ifs at done with narrow
      · simp only [Bool.and_eq_true, decide_eq_true_eq] at narrow
        cases done
        refine .byte (UInt8.ofNat b.toNat) plain ?_
        have same : (UInt8.ofNat b.toNat).toNat = b.toNat := UInt8.toNat_ofNat_of_lt' (by
          change b.toNat < 256
          omega)
        rw [payload, same, Int.toNat_of_nonneg narrow.1]
      · exact absurd done refused
    case char c =>
      cases done
      exact .char c plain payload
    all_goals exact series done

/-! ## Insertion -/

variable {series : Cell} {at_ behind times : Nat} {part : Option Nat}

theorem repeatedText_eq_ok {chars items : List Char}
    (done : repeatedText chars times m = .ok items m') :
    items = repeated chars times ∧ m = m' := by
  unfold repeatedText at done
  split_ifs at done with long
  · cases done
  · cases done
    exact ⟨rfl, rfl⟩

theorem copies_array (items : List Cell) (part : Option Nat) (times : Nat) :
    (Content.array items.toArray).copies part times =
      .array (repeated (bounded items part) times).toArray := by
  simp [Content.copies, Content.rearranged, repeated_eq, bounded_eq]

theorem copies_text (text : String) (part : Option Nat) (times : Nat) :
    (Content.text (.ofString text)).copies part times =
      .text (.ofList (repeated (bounded text.toList part) times)) := by
  simp [Content.copies, Content.rearranged, repeated_eq, bounded_eq]

theorem copies_binary (bytes : List UInt8) (part : Option Nat) (times : Nat) :
    (Content.binary bytes.toArray).copies part times =
      .binary (repeated (bounded bytes part) times).toArray := by
  simp [Content.copies, Content.rearranged, repeated_eq, bounded_eq]

theorem spliced_array (cells : Array Cell) (at_ : Nat) (items : List Cell) :
    (Content.array cells).spliced at_ (.array items.toArray) = .array (splice cells at_ items) := by
  rw [Content.spliced, List.toList_toArray, ← toList_splice]

theorem spliced_text (buffer : Text.Buffer) (at_ : Nat) (items : List Char) :
    (Content.text buffer).spliced at_ (.text (.ofList items)) = .text (buffer.insert at_ items) := by
  rw [Content.spliced, Text.Buffer.toList_ofList, ← Text.Buffer.toList_insert,
    Text.Buffer.ofList_toList]

theorem spliced_binary (bytes : Array UInt8) (at_ : Nat) (items : List UInt8) :
    (Content.binary bytes).spliced at_ (.binary items.toArray) =
      .binary (splice bytes at_ items) := by
  rw [Content.spliced, List.toList_toArray, ← toList_splice]

/-- An insertion puts the items of the value in at the place, and changes nothing else. -/
theorem insertAt_eq_ok (done : insertAt series at_ value only part times m = .ok behind m') :
    ∃ id s given adopted, series.seriesId? = some id ∧ m.heap.get? id = some s ∧
      s.has Flags.locked = false ∧ s.content.EditedAs series.kind ∧
      m.ItemsOf value only given ∧ given.SameForm s.content ∧ m.Adopts adopted ∧
      m' = adopted.rewritten id
        (s.content.spliced (min at_ s.content.size) (given.copies part times)) ∧
      behind = min at_ s.content.size + (given.copies part times).size := by
  obtain ⟨id, known, done⟩ := lift_bind_eq_ok.mp done
  obtain ⟨_, checked, done⟩ := lift_bind_eq_ok.mp done
  obtain ⟨size, sized, done⟩ := lift_bind_eq_ok.mp done
  obtain ⟨s, live, free⟩ := Editing.checkMutable_eq_ok.mp checked
  have known := Query.arrayOf_eq_ok.mp known
  rw [Query.size_run live] at sized
  cases sized
  split_ifs at done with array binary
  · obtain ⟨items, adopted, listed, done⟩ := bind_eq_ok.mp done
    obtain ⟨⟨⟩, next, changed, done⟩ := bind_eq_ok.mp done
    cases done
    obtain ⟨of, adopts⟩ := insertionItems_eq_ok listed
    obtain ⟨t, held, same⟩ := adopts.content live
    obtain ⟨t', cells, held', content, -⟩ := modifyCells_eq_ok changed
    obtain rfl := Option.some.inj (held.symm.trans held')
    rw [modifyCells_rewritten held content] at changed
    cases changed
    refine ⟨id, s, _, adopted, known, live, free, ?_, of, ?_, adopts, ?_, ?_⟩
    · rwa [← same, content]
    · rw [← same, content]
      exact .array _ _
    · rw [copies_array, ← same, content, spliced_array]
    · rw [copies_array, ← same, content]
      rfl
  · obtain ⟨bytes, listed, done⟩ := lift_bind_eq_ok.mp done
    obtain ⟨⟨⟩, next, changed, done⟩ := bind_eq_ok.mp done
    cases done
    obtain ⟨t, held, live', content, -⟩ := modifyBytes_eq_ok changed
    obtain rfl := Option.some.inj (live.symm.trans live')
    rw [modifyBytes_rewritten live content] at changed
    cases changed
    refine ⟨id, s, _, m, known, live, free, ?_, insertionBytes_eq_ok listed, ?_, .refl m, ?_, ?_⟩
    · rwa [content]
    · rw [content]
      exact .binary _ _
    · rw [copies_binary, content, spliced_binary]
    · rw [copies_binary]
      rfl
  · obtain ⟨text, listed, done⟩ := lift_bind_eq_ok.mp done
    obtain ⟨items, next, again, later⟩ := bind_eq_ok.mp done
    obtain ⟨rfl, rfl⟩ := repeatedText_eq_ok again
    obtain ⟨⟨⟩, last, changed, given⟩ := bind_eq_ok.mp later
    cases given
    obtain ⟨t, buffer, live', content, -⟩ := modifyText_eq_ok changed
    obtain rfl := Option.some.inj (live.symm.trans live')
    rw [modifyText_rewritten live content] at changed
    cases changed
    refine ⟨id, s, _, m, known, live, free, ?_, insertionText_eq_ok listed, ?_, .refl _, ?_, ?_⟩
    · rw [content]
      exact ⟨Bool.eq_false_iff.mpr array, binary⟩
    · rw [content]
      exact .text _ _
    · rw [copies_text, content, spliced_text]
    · rw [copies_text, Content.size, Text.Buffer.size_ofList]

/-! ## Removal -/

/-- A new series takes the place of no other one. -/
theorem alloc_beside (s : Series) (m : Machine) :
    ∃ fresh last, alloc s m = .ok fresh last ∧ (∃ heap, last = { m with heap }) ∧
      m.heap.get? fresh = none ∧ last.heap.get? fresh = some s ∧
      ∀ other, other ≠ fresh → last.heap.get? other = m.heap.get? other := by
  refine ⟨(m.heap.alloc s).1, { m with heap := (m.heap.alloc s).2 }, rfl, ⟨_, rfl⟩,
    m.heap.alloc_fresh s, ?_, fun other apart => ?_⟩
  · exact (Heap.get?_alloc m.heap s _).trans (if_pos rfl)
  · exact (Heap.get?_alloc m.heap s other).trans (if_neg apart.symm)

/-- A removal takes a span out of a series, and then puts it into a new one. -/
theorem removeSpan_eq {id : SeriesId} {s : Series} {at_ count : Nat}
    (known : series.seriesId? = some id) (live : m.heap.get? id = some s)
    (free : s.has Flags.locked = false) (edited : s.content.EditedAs series.kind)
    (inside : at_ + count ≤ s.content.size) :
    ∃ taken, taken.content = (s.content.rearranged fun xs => (xs.drop at_).take count) ∧
      removeSpan series at_ count m =
        (do pure (Cell.series series.kind (← alloc taken) 0) : Interp Cell) (m.rewritten id
          (s.content.rearranged fun xs => xs.take at_ ++ xs.drop (at_ + count))) := by
  have start : min at_ s.content.size = at_ := by omega
  have stop : min (at_ + count) s.content.size = at_ + count := by omega
  unfold removeSpan
  rw [lift_bind_ok (Query.arrayOf_eq_ok.mpr known),
    lift_bind_ok (Editing.checkMutable_eq_ok.mpr ⟨s, live, free⟩),
    lift_bind_ok (Query.size_run live), lift_bind_ok (Query.series_eq_ok.mpr live), start, stop]
  cases content : s.content with
  | array cells =>
      rw [content] at edited
      obtain edited : series.kind.isAnyArray = true := edited
      refine ⟨(Series.ofCells (cells.extract at_ (at_ + count)).toList.toArray).managed, ?_, ?_⟩
      · rw [Content.rearranged, ← toList_extract]
        rfl
      · rw [Content.rearranged, ← toList_cut, Array.toArray_toList]
        dsimp only
        rw [bind_ok (modifyCells_rewritten live content _), edited, if_pos rfl]
        rfl
  | text buffer =>
      refine ⟨(Series.ofText (buffer.slice at_ (at_ + count))).managed, ?_, ?_⟩
      · rw [Text.Buffer.slice_eq, Nat.add_sub_cancel_left]
        rfl
      · rw [Content.rearranged, ← Text.Buffer.toList_remove buffer (Nat.le_add_right at_ count),
          Text.Buffer.ofList_toList]
        dsimp only
        rw [bind_ok (modifyText_rewritten live content _)]
        rfl
  | binary bytes =>
      rw [content] at edited
      obtain edited : series.kind = .binary := edited
      refine ⟨(Series.ofBytes (bytes.extract at_ (at_ + count))).managed, ?_, ?_⟩
      · rw [Content.rearranged, ← toList_extract, Array.toArray_toList]
        rfl
      · rw [Content.rearranged, ← toList_cut, Array.toArray_toList]
        dsimp only
        rw [bind_ok (modifyBytes_rewritten live content _), edited]
        rfl

/-- What has been put in can be taken out again: an insertion cuts the content in two and puts the
items in between, and a removal of as many from the same place returns them as a series of its own
and leaves all contents as they were. -/
theorem insertion_undone (done : insertAt series at_ value only part times m = .ok behind m') :
    ∃ id s given, series.seriesId? = some id ∧ m.heap.get? id = some s ∧
      s.content.EditedAs series.kind ∧ m.ItemsOf value only given ∧ given.SameForm s.content ∧
      m.Edits m' id (s.content.spliced (min at_ s.content.size) (given.copies part times)) ∧
      behind = min at_ s.content.size + (given.copies part times).size ∧
      ∃ fresh last taken,
        removeSpan series (min at_ s.content.size) (given.copies part times).size m' =
          .ok (Cell.series series.kind fresh 0) last ∧
        (∃ heap, last = { m' with heap }) ∧ m'.heap.get? fresh = none ∧
        last.heap.get? fresh = some taken ∧ taken.content = given.copies part times ∧
        ∀ other, other ≠ fresh → (last.heap.get? other).map Series.content =
          (m.heap.get? other).map Series.content := by
  obtain ⟨id, s, given, adopted, known, live, free, edited, of, same, adopts, rfl, rfl⟩ :=
    insertAt_eq_ok done
  have inside : min at_ s.content.size ≤ s.content.size := Nat.min_le_right _ _
  -- What went in has the form of the series, whatever `part` and `times` made of it.
  have alike := same.copies part times
  obtain ⟨t, held, content, unlocked⟩ := adopts.unlocked live free
  have there := Machine.get?_rewritten_self held
    (s.content.spliced (min at_ s.content.size) (given.copies part times))
  obtain ⟨taken, span, removed⟩ := removeSpan_eq known there unlocked (edited.spliced alike)
    ((Nat.add_le_add_right inside _).trans_eq (Content.size_spliced alike inside).symm)
  rw [Content.rest_spliced alike inside] at removed
  rw [Content.span_spliced alike inside] at span
  obtain ⟨fresh, last, new, rest, unused, found, others⟩ := alloc_beside taken
    ((adopted.rewritten id (s.content.spliced (min at_ s.content.size)
      (given.copies part times))).rewritten id s.content)
  rw [bind_ok new] at removed
  refine ⟨id, s, given, known, live, edited, of, same, adopts.edits live _, rfl,
    fresh, last, taken, removed, ?_, ?_, found, span, fun other apart => ?_⟩
  · obtain ⟨heap, rfl⟩ := rest
    exact ⟨heap, rfl⟩
  · exact Machine.get?_rewritten_eq_none.mp unused
  · rw [others other apart]
    by_cases self : other = id
    · subst self
      rw [Machine.get?_rewritten_self there, live]
      rfl
    · rw [Machine.get?_rewritten_of_ne self, Machine.get?_rewritten_of_ne self]
      obtain same | ⟨t, before, after⟩ := adopts.series other
      · rw [same]
      · rw [before, after]
        rfl

/-- A machine with the block `[1 2 3]`. -/
def sampleNumbered : Machine :=
  .ofArgs [] [.ofCells #[Cell.integer 1, Cell.integer 2, Cell.integer 3]]

/-- The block `[1 2 3]`, into which its own first two items go twice. -/
def sampleBlock : Cell := .series .block ⟨1⟩ 0

theorem insertion_undone_sampleNumbered :
    ∃ next, insertAt sampleBlock 1 sampleBlock false (some 2) 2 sampleNumbered = .ok 5 next ∧
      ∃ fresh last, removeSpan sampleBlock 1 4 next = .ok (Cell.series .block fresh 0) last ∧
        (last.heap.get? ⟨1⟩).map Series.content =
          some (.array #[Cell.integer 1, Cell.integer 2, Cell.integer 3]) := by
  obtain ⟨next, done⟩ : ∃ next,
      insertAt sampleBlock 1 sampleBlock false (some 2) 2 sampleNumbered = .ok 5 next := ⟨_, rfl⟩
  obtain ⟨id, s, given, known, live, -, -, -, -, passed, fresh, last, taken, removed, -, unused, -,
    -, others⟩ := insertion_undone done
  obtain rfl : ⟨1⟩ = id := Option.some.inj known
  cases live
  have count : (given.copies (some 2) 2).size = 4 := (Nat.add_left_cancel passed).symm
  have used : (⟨1⟩ : SeriesId) ≠ fresh := by
    rintro rfl
    cases done
    cases unused
  rw [count] at removed
  exact ⟨next, done, fresh, last, removed, others _ used⟩

end Interp

end Homoicon
