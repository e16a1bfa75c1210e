import Homoicon.Proofs.Comparing.Keys

/-!
# Comparisons that end

A comparison goes into the parts of both values at once.  It ends if one of them does not contain
itself, even if the other does; of two different blocks that contain themselves it looks for a
difference forever.
-/

namespace Homoicon

/-! ## Parts of values -/

/-- A place of an array. -/
abbrev Slot := SeriesId × Nat

/-- The slots that a payload has as parts. -/
inductive Payload.HasPart : Payload → Slot → Prop where
  | pair (id : SeriesId) (i : Nat) : HasPart (.pair id) (id, i)
  | quoted (id : SeriesId) (depth : Nat) : HasPart (.quoted id depth) (id, 0)
  | series (id : SeriesId) {start i : Nat} (behind : start ≤ i) :
      HasPart (.series id start) (id, i)

namespace Machine

/-- A slot belongs to a value and holds a cell: the slot is a part of the value, or of a cell whose
slot belongs to it. -/
inductive Within (m : Machine) (c : Cell) : Slot → Cell → Prop where
  | part {q : Slot} {d : Cell} (part : c.payload.HasPart q) (held : Query.cell q.1 q.2 m = .ok d) :
      Within m c q d
  | deeper {p q : Slot} {d e : Cell} (within : Within m c p d) (part : d.payload.HasPart q)
      (held : Query.cell q.1 q.2 m = .ok e) : Within m c q e

/-- A value does not contain itself, nor does anything in it: no slot of it belongs to the cell that
it holds. -/
def Acyclic (m : Machine) (c : Cell) : Prop := ∀ q d, m.Within c q d → ∀ e, ¬ m.Within d q e

/-- What a cell refers to is there, and its quoting is where its depth belongs. -/
structure Intact (m : Machine) (c : Cell) : Prop where
  quoted : c.kind = .quoted → ∃ id depth d, c.payload = .quoted id depth ∧ 3 < depth ∧
    Query.cell id 0 m = .ok d
  plain : c.kind ≠ .quoted → c.quote ≤ 3
  pair : ∀ id, c.payload = .pair id → ∃ cells, Query.cells id m = .ok cells
  series : ∀ id start, c.payload = .series id start → ∃ s, m.heap.get? id = some s

/-- A value and all cells that belong to it refer to what is there. -/
structure Sound (m : Machine) (c : Cell) : Prop where
  own : m.Intact c
  within : ∀ q d, m.Within c q d → m.Intact d

/-- The slots of a value that does not contain itself are among some slots. -/
structure Fits (m : Machine) (slots : List Slot) (c : Cell) : Prop where
  acyclic : m.Acyclic c
  inside : ∀ q d, m.Within c q d → q ∈ slots

/-- A cell is a part of another one, maybe without its quoting. -/
def Part (m : Machine) (c x : Cell) : Prop :=
  ∃ q d, c.payload.HasPart q ∧ Query.cell q.1 q.2 m = .ok d ∧ x.payload = d.payload ∧
    x.kind = d.kind ∧ (x.quote = d.quote ∨ x.quote = 0)

variable {m : Machine} {c d x : Cell} {p q : Slot} {slots : List Slot}

theorem Within.trans {e : Cell} (first : m.Within c p d) (second : m.Within d q e) :
    m.Within c q e := by
  induction second with
  | part part held => exact first.deeper part held
  | deeper _ part held within => exact within.deeper part held

/-- What belongs to a cell depends on its payload only. -/
theorem Within.congr (same : c.payload = d.payload) {e : Cell} (within : m.Within c q e) :
    m.Within d q e := by
  induction within with
  | part part held => exact .part (same ▸ part) held
  | deeper _ part held within => exact within.deeper part held

theorem Sound.part (sound : m.Sound c) (part : m.Part c x) : m.Sound x := by
  obtain ⟨q, d, here, held, payload, kind, quote⟩ := part
  have whole := sound.within q d (.part here held)
  refine ⟨⟨?_, ?_, ?_, ?_⟩, fun q' e within => ?_⟩
  · rw [kind, payload]
    exact whole.quoted
  · rw [kind]
    intro unquoted
    have := whole.plain unquoted
    omega
  · rw [payload]
    exact whole.pair
  · rw [payload]
    exact whole.series
  · exact sound.within q' e ((Within.part here held).trans (within.congr payload))

/-- A part has fewer slots than the value, as its own slot does not belong to it. -/
theorem Fits.part (fits : m.Fits slots c) (part : m.Part c x) :
    ∃ fewer, fewer.length + 1 = slots.length ∧ m.Fits fewer x := by
  obtain ⟨q, d, here, held, payload, -, -⟩ := part
  have own := Within.part here held
  have member := fits.inside q d own
  refine ⟨slots.erase q, ?_, ⟨fun q' e within f again => ?_, fun q' e within => ?_⟩⟩
  · rw [List.length_erase_of_mem member]
    have := List.length_pos_of_mem member
    omega
  · exact fits.acyclic q' e (own.trans (within.congr payload)) f again
  · have inner := within.congr payload
    refine (List.mem_erase_of_ne ?_).mpr (fits.inside q' e (own.trans inner))
    rintro rfl
    exact fits.acyclic q' d own e inner

end Machine

/-! ## Answers -/

namespace Query

variable {m : Machine} {strict : Bool} {a b : Cell}

theorem allEqual_answers {equal : Cell → Cell → Query Bool} {xs ys : List Cell}
    (answered : ∀ x ∈ xs, ∀ y ∈ ys, ∃ r, equal x y m = .ok r) :
    ∃ r, allEqual equal xs ys m = .ok r := by
  induction xs generalizing ys with
  | nil => exact ⟨true, rfl⟩
  | cons x xs rest =>
      cases ys with
      | nil => exact ⟨true, rfl⟩
      | cons y ys =>
          obtain ⟨r, compared⟩ := answered x List.mem_cons_self y List.mem_cons_self
          obtain ⟨r', later⟩ := rest fun x' member y' member' =>
            answered x' (List.mem_cons_of_mem x member) y' (List.mem_cons_of_mem y member')
          rw [allEqual, Query.bind_ok compared]
          cases r with
          | false => exact ⟨false, rfl⟩
          | true => exact ⟨r', later⟩

/-- The cells of an array from a place on are parts of what refers to them. -/
theorem part_of_mem {c x : Cell} {id : SeriesId} {cells : Array Cell} {i : Nat}
    (held : Query.cells id m = .ok cells) (member : x ∈ cells.toList.drop i)
    (here : ∀ j, i ≤ j → c.payload.HasPart (id, j)) : m.Part c x := by
  obtain ⟨j, inside, rfl⟩ := List.getElem_of_mem member
  have found : cells[i + j]? = some (cells.toList.drop i)[j] := by
    rw [← Array.getElem?_toList, ← List.getElem?_drop, List.getElem?_eq_getElem]
  exact ⟨(id, i + j), _, here _ (Nat.le_add_right i j), Query.cell_eq_ok.mpr ⟨cells, held, found⟩,
    rfl, rfl, .inl rfl⟩

/-- Values of one kind are compared if their parts are. -/
theorem equalPayload_answers {equal : Cell → Cell → Query Bool} (whole : m.Intact a)
    (whole' : m.Intact b) (answered : ∀ x y, m.Part a x → m.Part b y → ∃ r, equal x y m = .ok r) :
    ∃ r, equalPayload equal strict a.payload b.payload m = .ok r := by
  generalize payload : a.payload = p
  generalize payload' : b.payload = q
  cases p with
  | pair x =>
      cases q with
      | pair y =>
          obtain ⟨xs, held⟩ := whole.pair x payload
          obtain ⟨ys, held'⟩ := whole'.pair y payload'
          rw [equalPayload, Query.bind_ok held, Query.bind_ok held']
          refine allEqual_answers fun c member d member' => answered c d ?_ ?_
          · exact part_of_mem (i := 0) held (List.mem_of_mem_take member) fun j _ =>
              payload ▸ .pair x j
          · exact part_of_mem (i := 0) held' (List.mem_of_mem_take member') fun j _ =>
              payload' ▸ .pair y j
      | _ => exact ⟨_, rfl⟩
  | series x i =>
      cases q with
      | series y j =>
          obtain ⟨s, live⟩ := whole.series x i payload
          obtain ⟨t, live'⟩ := whole'.series y j payload'
          rw [equalPayload]
          by_cases one : (x == y && i == j) = true
          · rw [if_pos one]
            exact ⟨true, rfl⟩
          rw [if_neg one, Query.bind_ok (Query.series_eq_ok.mpr live),
            Query.bind_ok (Query.series_eq_ok.mpr live')]
          cases content : s.content with
          | array xs =>
              cases content' : t.content with
              | array ys =>
                  dsimp only
                  split_ifs
                  · exact ⟨false, rfl⟩
                  · refine allEqual_answers fun c member d member' => answered c d ?_ ?_
                    · exact part_of_mem (Query.cells_eq_ok.mpr ⟨s, live, content⟩) member
                        fun n behind => payload ▸ .series x behind
                    · exact part_of_mem (Query.cells_eq_ok.mpr ⟨t, live', content'⟩) member'
                        fun n behind => payload' ▸ .series y behind
              | text | binary => exact ⟨false, rfl⟩
          | text | binary => cases t.content <;> exact ⟨_, rfl⟩
      | _ => exact ⟨_, rfl⟩
  | _ => cases q <;> exact ⟨_, rfl⟩

theorem unescapedKind_answers {c : Cell} (whole : m.Intact c) :
    ∃ k, unescapedKind c m = .ok k := by
  by_cases quoted : c.kind = .quoted
  · obtain ⟨id, depth, d, payload, -, held⟩ := whole.quoted quoted
    refine ⟨d.kind, ?_⟩
    rw [unescapedKind, payload]
    dsimp only
    rw [if_pos quoted, Query.bind_ok held]
    rfl
  · exact ⟨c.kind, unescapedKind_plain quoted⟩

theorem quoteDepth_deep {c : Cell} {id : SeriesId} {depth : Nat} (quoted : c.kind = .quoted)
    (payload : c.payload = .quoted id depth) : c.quoteDepth = depth := by
  rw [Cell.quoteDepth, payload]
  exact if_pos quoted

/-- The value inside a deeply quoted one is its part. -/
theorem dequotify_part {c : Cell} (whole : m.Intact c) (quoted : c.kind = .quoted) :
    ∃ x depth, dequotify c m = .ok (x, depth) ∧ m.Part c x := by
  obtain ⟨id, depth, d, payload, deep, held⟩ := whole.quoted quoted
  have inner : unquotify c depth m = .ok { d.copied with
      quote := 0
      unevaluated := d.unevaluated || c.unevaluated
      enfixed := d.enfixed || c.enfixed
      newline := d.newline || c.newline } := by
    rw [unquotify, if_neg (by rw [beq_iff_eq]; omega), payload]
    dsimp only
    rw [if_pos quoted, Nat.sub_self, if_neg (by omega), Query.bind_ok held]
    rfl
  have answered : dequotify c m = (do pure (← unquotify c depth, depth) : Query _) m := by
    rw [dequotify, quoteDepth_deep quoted payload]
  rw [Query.bind_ok inner] at answered
  exact ⟨_, depth, answered, (id, 0), d, payload ▸ .quoted id depth, held, rfl, rfl, .inr rfl⟩

/-- Values that are quoted alike are both quoted deeply, or neither is. -/
theorem quoted_iff (whole : m.Intact a) (whole' : m.Intact b) (depths : a.quoteDepth = b.quoteDepth) :
    a.kind = .quoted ↔ b.kind = .quoted := by
  have deep {c : Cell} (whole : m.Intact c) : c.kind = .quoted ↔ 3 < c.quoteDepth := by
    by_cases quoted : c.kind = .quoted
    · obtain ⟨id, depth, d, payload, deep, -⟩ := whole.quoted quoted
      rw [quoteDepth_deep quoted payload]
      exact iff_of_true quoted deep
    · have shallow := whole.plain quoted
      have counted : c.quoteDepth = c.quote := by
        unfold Cell.quoteDepth
        split
        · rw [if_neg quoted]
        · rfl
      rw [counted]
      exact iff_of_false quoted (by omega)
  rw [deep whole, deep whole', depths]

/-- A comparison one level deeper than those of the parts is answered. -/
theorem equalIn_step (whole : m.Intact a) (whole' : m.Intact b) {n : Nat}
    (deeper : ∀ x y, m.Part a x → m.Part b y → ∃ r, equalIn strict n x y m = .ok r) :
    ∃ r, equalIn strict (n + 1) a b m = .ok r := by
  rw [equalIn]
  by_cases depths : a.quoteDepth = b.quoteDepth
  · obtain ⟨ka, known⟩ := unescapedKind_answers whole
    obtain ⟨kb, known'⟩ := unescapedKind_answers whole'
    rw [if_neg (by simp [depths]), Query.bind_ok known, Query.bind_ok known']
    by_cases quoted : a.kind = .quoted
    · have quoted' := (quoted_iff whole whole' depths).mp quoted
      obtain ⟨x, depth, inner, part⟩ := dequotify_part whole quoted
      obtain ⟨y, depth', inner', part'⟩ := dequotify_part whole' quoted'
      rw [if_pos (by simp [quoted]), Query.bind_ok inner, Query.bind_ok inner']
      exact deeper x y part part'
    · have quoted' := mt (quoted_iff whole whole' depths).mpr quoted
      rw [if_neg (by simp [quoted, quoted'])]
      split_ifs
      · exact ⟨false, rfl⟩
      · cases a.asDecimal? <;> cases b.asDecimal? <;> exact ⟨_, rfl⟩
      · exact equalPayload_answers whole whole' deeper
  · exact ⟨false, by rw [if_pos (by simp [depths])]; rfl⟩

/-- Comparing two values goes at most as deep as one of them has slots, if it does not contain
itself. -/
theorem equalIn_answers (sound : m.Sound a) (sound' : m.Sound b) {n : Nat} {slots : List Slot}
    (few : slots.length ≤ n) (fits : m.Fits slots a ∨ m.Fits slots b) :
    ∃ r, equalIn strict (n + 1) a b m = .ok r := by
  -- Each step down takes a slot off the list, so there are no parts left when the list is empty.
  induction n generalizing a b slots with
  | zero =>
      refine equalIn_step sound.own sound'.own fun x y part part' => ?_
      obtain fits | fits := fits
      · obtain ⟨fewer, counted, -⟩ := fits.part part
        omega
      · obtain ⟨fewer, counted, -⟩ := fits.part part'
        omega
  | succ n ih =>
      refine equalIn_step sound.own sound'.own fun x y part part' => ?_
      obtain fits | fits := fits
      · obtain ⟨fewer, counted, inner⟩ := fits.part part
        exact ih (sound.part part) (sound'.part part') (by omega) (.inl inner)
      · obtain ⟨fewer, counted, inner⟩ := fits.part part'
        exact ih (sound.part part) (sound'.part part') (by omega) (.inr inner)

end Query

/-! ## Room -/

/-- The number of cells of a content. -/
def Content.cellCount : Content → Nat
  | .array cells => cells.size
  | .text _ | .binary _ => 0

/-- The slots of all arrays. -/
def Heap.cellSlots (h : Heap) : List Slot :=
  (List.range h.slots.size).flatMap fun slot =>
    (List.range ((h.get? ⟨slot⟩).elim 0 (·.content.cellCount))).map fun i => (⟨slot⟩, i)

theorem Heap.mem_cellSlots {m : Machine} {q : Slot} {d : Cell}
    (held : Query.cell q.1 q.2 m = .ok d) : q ∈ m.heap.cellSlots := by
  obtain ⟨cells, listed, found⟩ := Query.cell_eq_ok.mp held
  obtain ⟨s, live, content⟩ := Query.cells_eq_ok.mp listed
  refine List.mem_flatMap.mpr ⟨q.1.slot, List.mem_range.mpr
    (Heap.slot_lt_size (Heap.isLive_iff.mpr ⟨s, live⟩)), List.mem_map.mpr ⟨q.2, ?_, rfl⟩⟩
  have inside := (Array.getElem?_eq_some_iff.mp found).1
  rw [List.mem_range, live, Option.elim_some, content]
  exact inside

namespace Query

variable {m : Machine} {a b : Cell}

/-- A comparison is answered if one of the values does not contain itself. -/
theorem equal_answers (sound : m.Sound a) (sound' : m.Sound b) (acyclic : m.Acyclic a ∨ m.Acyclic b)
    (room : m.heap.cellSlots.length < comparisonDepth) (strict : Bool) :
    ∃ answer, equal a b strict m = .ok answer := by
  have stored {c : Cell} (q : Slot) (d : Cell) (within : m.Within c q d) : q ∈ m.heap.cellSlots := by
    cases within with
    | part _ held | deeper _ _ held => exact Heap.mem_cellSlots held
  exact equalIn_answers sound sound' (Nat.le_pred_of_lt room)
    (acyclic.imp (fun acyclic => ⟨acyclic, stored⟩) fun acyclic => ⟨acyclic, stored⟩)

/-- A machine with a block that holds nothing but itself, and the block `[[]]`. -/
def sampleLoop : Machine :=
  .ofArgs [] [.ofCells #[.series .block ⟨1⟩ 0], .ofCells #[.series .block ⟨3⟩ 0], .ofCells #[]]

theorem stored_sampleLoop {q : Slot} {d : Cell} (held : Query.cell q.1 q.2 sampleLoop = .ok d) :
    q.1 = ⟨0⟩ ∧ d = Cell.null ∨ q.1 = ⟨1⟩ ∧ d = .series .block ⟨1⟩ 0 ∨
      q.1 = ⟨2⟩ ∧ d = .series .block ⟨3⟩ 0 := by
  obtain ⟨⟨slot⟩, i⟩ := q
  obtain ⟨cells, listed, found⟩ := Query.cell_eq_ok.mp held
  obtain ⟨s, live, content⟩ := Query.cells_eq_ok.mp listed
  have single {c : Cell} (only : cells = #[c]) : d = c := by
    obtain rfl := only
    obtain ⟨inside, rfl⟩ := Array.getElem?_eq_some_iff.mp found
    obtain rfl : i = 0 := Nat.lt_one_iff.mp inside
    rfl
  obtain _ | _ | _ | _ | slot := slot
  · cases live
    cases content
    exact .inl ⟨rfl, single rfl⟩
  · cases live
    cases content
    exact .inr (.inl ⟨rfl, single rfl⟩)
  · cases live
    cases content
    exact .inr (.inr ⟨rfl, single rfl⟩)
  · cases live
    cases content
    cases found
  · cases live

theorem equal_answers_sampleLoop : ∃ answer,
    equal (.series .block ⟨1⟩ 0) (.series .block ⟨2⟩ 0) false sampleLoop = .ok answer := by
  have whole (id : SeriesId) {s : Series} (live : sampleLoop.heap.get? id = some s) :
      sampleLoop.Intact (.series .block id 0) :=
    ⟨fun quoted => Kind.noConfusion quoted, fun _ => Nat.zero_le 3,
      fun _ pair => Payload.noConfusion pair, fun id' start same => by cases same; exact ⟨s, live⟩⟩
  have stored (q : Slot) (d : Cell) (held : Query.cell q.1 q.2 sampleLoop = .ok d) :
      sampleLoop.Intact d := by
    obtain ⟨-, rfl⟩ | ⟨-, rfl⟩ | ⟨-, rfl⟩ := stored_sampleLoop held
    · exact ⟨fun quoted => Kind.noConfusion quoted, fun _ => Nat.zero_le 3,
        fun _ pair => Payload.noConfusion pair, fun _ _ series => Payload.noConfusion series⟩
    · exact whole ⟨1⟩ rfl
    · exact whole ⟨3⟩ rfl
  have sound (id : SeriesId) {s : Series} (live : sampleLoop.heap.get? id = some s) :
      sampleLoop.Sound (.series .block id 0) := by
    refine ⟨whole id live, fun q d within => ?_⟩
    cases within with
    | part _ held | deeper _ _ held => exact stored q d held
  have empty (q : Slot) (d : Cell) : ¬ sampleLoop.Within (.series .block ⟨3⟩ 0) q d := by
    intro within
    induction within with
    | part part held =>
        cases part
        obtain ⟨same, -⟩ | ⟨same, -⟩ | ⟨same, -⟩ := stored_sampleLoop held <;> cases same
    | deeper _ _ _ none_ => exact none_
  have acyclic : sampleLoop.Acyclic (.series .block ⟨2⟩ 0) := by
    intro q d within
    have inner : d = .series .block ⟨3⟩ 0 := by
      induction within with
      | part part held =>
          cases part
          obtain ⟨same, -⟩ | ⟨same, -⟩ | ⟨-, inner⟩ := stored_sampleLoop held
          · cases same
          · cases same
          · exact inner
      | deeper _ part held inner =>
          subst inner
          exact absurd (.part part held) (empty _ _)
    subst inner
    exact empty q
  exact equal_answers (sound ⟨1⟩ rfl) (sound ⟨2⟩ rfl) (.inr acyclic) (by decide) false

/-- Blocks that hold nothing but themselves are compared forever. -/
theorem equalIn_twins {x y : SeriesId} (apart : x ≠ y) (kind : a.kind = .block)
    (kind' : b.kind = .block) (plain : a.quote = 0) (plain' : b.quote = 0)
    (payload : a.payload = .series x 0) (payload' : b.payload = .series y 0)
    (held : Query.cells x m = .ok #[a]) (held' : Query.cells y m = .ok #[b]) (strict : Bool)
    (depth : Nat) : equalIn strict depth a b m = .error .exhausted := by
  obtain ⟨s, live, content⟩ := Query.cells_eq_ok.mp held
  obtain ⟨t, live', content'⟩ := Query.cells_eq_ok.mp held'
  have unquoted : a.kind ≠ .quoted := by rw [kind]; decide
  have unquoted' : b.kind ≠ .quoted := by rw [kind']; decide
  -- The only parts to compare are the two values themselves.
  induction depth with
  | zero => rfl
  | succ depth ih =>
      have parts : allEqual (equalIn strict depth) [a] [b] m = .error .exhausted := by
        rw [allEqual, Query.bind_run, ih]
      rw [equalIn, quoteDepth_plain plain unquoted, quoteDepth_plain plain' unquoted',
        if_neg (by decide), Query.bind_ok (unescapedKind_plain unquoted),
        Query.bind_ok (unescapedKind_plain unquoted'), kind, kind', if_neg (by decide),
        if_neg (by decide), payload, payload', equalPayload, if_neg (by simp [apart]),
        Query.bind_ok (Query.series_eq_ok.mpr live), Query.bind_ok (Query.series_eq_ok.mpr live'),
        content, content']
      exact parts

end Query

end Homoicon
