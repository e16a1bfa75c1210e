import Homoicon.Proofs.Source.Lexing
import Homoicon.Proofs.Source.Loading
import Mathlib.Data.List.Nodup
import Mathlib.Data.List.Perm.Subperm

/-!
# Molded trees are read back

What is molded of a value that stands for a tree is the text of the tree.  Scanning that text gives
one value, which stands for the same tree.
-/

namespace Homoicon

namespace Molder

@[simp] theorem write_write (sheet : Molder) (a b : String) :
    (sheet.write a).write b = sheet.write (a ++ b) := by
  simp [write, String.append_assoc]

@[simp] theorem write_empty (sheet : Molder) : sheet.write "" = sheet := by
  simp [write]

/-- Writes characters. -/
def writeChars (sheet : Molder) (cs : List Char) : Molder := sheet.write (String.ofList cs)

@[simp] theorem writeChars_writeChars (sheet : Molder) (a b : List Char) :
    (sheet.writeChars a).writeChars b = sheet.writeChars (a ++ b) := by
  simp [writeChars, String.ofList_append]

@[simp] theorem writeChars_nil (sheet : Molder) : sheet.writeChars [] = sheet := by
  simp [writeChars]

theorem write_eq (sheet : Molder) (s : String) : sheet.write s = sheet.writeChars s.toList := by
  simp [writeChars]

theorem newline_eq (sheet : Molder) :
    sheet.newline = sheet.writeChars (Node.breakText sheet.indent) := by
  simp [newline, writeChars, Node.breakText, String.ofList_cons]

@[simp] theorem indent_writeChars (sheet : Molder) (cs : List Char) :
    (sheet.writeChars cs).indent = sheet.indent := rfl

@[simp] theorem active_writeChars (sheet : Molder) (cs : List Char) :
    (sheet.writeChars cs).active = sheet.active := rfl

@[simp] theorem form_writeChars (sheet : Molder) (cs : List Char) :
    (sheet.writeChars cs).form = sheet.form := rfl

end Molder

namespace Machine

variable {m : Machine}

/-! ## Scalars -/

theorem stringContent_eq {id : SeriesId} {index : Nat} {buffer : Text.Buffer}
    (held : Query.text id m = .ok buffer) :
    Mold.stringContent id index m = .ok (buffer.slice index buffer.size) := by
  obtain ⟨s, live, content⟩ := Query.text_eq_ok.mp held
  unfold Mold.stringContent
  rw [Query.bind_ok (Query.series_eq_ok.mpr live), content]
  rfl

/-- A value that stands for a literal is written as the text of the literal. -/
theorem Shows.written {c : Cell} {lexeme : Lexeme} (shown : m.Shows c lexeme)
    (write : Mold.Writer) {sheet : Molder} (source : sheet.form = false) :
    (match Mold.scalarText? sheet.form c with
      | some s => pure (sheet.write s)
      | none => Mold.compound write c sheet : Query Molder) m =
        .ok (sheet.write lexeme.molded) := by
  rw [source]
  obtain ⟨kind, payload, binding, quote⟩ := c
  cases shown with
  | blank kind | bar kind | void kind => cases kind; rfl
  | @logic b kind payload =>
      cases kind
      cases payload
      cases b <;> rfl
  | integer kind payload | char kind payload | tuple kind payload =>
      cases kind
      cases payload
      rfl
  | @text id index buffer kind payload held =>
      cases kind
      cases payload
      change (Mold.stringContent id index >>= fun s =>
        pure (sheet.write (if sheet.form then s else Mold.stringText .text s)) : Query Molder) m = _
      rw [Query.bind_ok (stringContent_eq held), source]
      rfl
  | @binary id index bytes kind payload held =>
      cases kind
      cases payload
      change (Query.bytes id >>= fun bytes =>
        pure (sheet.write (Mold.binaryText (bytes.toList.drop index))) : Query Molder) m = _
      rw [Query.bind_ok held]
      rfl
  | @word mark symbol index kind payload =>
      cases payload
      cases mark <;> cases kind <;> rfl

/-- A cell is blank just if it stands for the empty part of a path. -/
theorem Denotes.isBlank {c : Cell} {node : Node} {ids : List SeriesId}
    (denotes : m.Denotes c node ids) : c.isBlank = node.isBlank := by
  have counted (depth : c.quoteDepth = 0) (kind : c.kind ≠ .quoted) : c.quote = 0 := by
    unfold Cell.quoteDepth at depth
    split at depth
    · rwa [if_neg kind] at depth
    · exact depth
  unfold Cell.isBlank Cell.is
  cases denotes with
  | scalar depth shown =>
      rw [counted depth shown.kind_ne]
      cases shown with
      | blank kind | bar kind | void kind | logic kind | integer kind | char kind | text kind
      | binary kind | tuple kind =>
          rw [kind]
          rfl
      | @word mark _ _ kind =>
          rw [kind]
          cases mark <;> rfl
  | @array _ shape mark _ _ _ _ _ depth kind =>
      rw [kind]
      cases shape <;> cases mark <;> exact Bool.and_false _
  | quoted positive depth =>
      refine Bool.eq_false_iff.mpr fun blank => ?_
      obtain ⟨quote, kind⟩ : c.quote = 0 ∧ c.kind = .blank := by simpa using blank
      unfold Cell.quoteDepth at depth
      split at depth
      · rw [kind, if_neg (by decide)] at depth
        omega
      · omega

/-! ## Arrays -/

/-- A way to write values writes a cell as some text that depends on the indentation, while some
series are being written. -/
def WritesAs (m : Machine) (write : Mold.Writer) (active : List SeriesId) (c : Cell)
    (text : Nat → List Char) : Prop :=
  ∀ sheet : Molder, sheet.form = false → sheet.active = active →
    write c sheet m = .ok (sheet.writeChars (text sheet.indent))

/-- A way to write values writes a cell as an item of an array. -/
structure WritesItem (m : Machine) (write : Mold.Writer) (active : List SeriesId) (c : Cell)
    (item : Item) : Prop where
  newline : c.newline = item.newline
  blank : c.isBlank = item.node.isBlank
  written : WritesAs m write active c fun indent => item.node.text indent

variable {write : Mold.Writer} {active : List SeriesId}

/-- Cells are written as the items of a block or group. -/
theorem written_block {cells : List Cell} {items : List Item}
    (each : List.Forall₂ (WritesItem m write active) cells items) (first broke : Bool)
    (sheet : Molder) (source : sheet.form = false) (inside : sheet.active = active) :
    Mold.blockItems write cells first broke sheet m =
      .ok (sheet.writeChars (Node.itemsText sheet.indent first items),
        broke || items.any Item.newline) := by
  induction each generalizing first broke sheet with
  | nil => simp [Mold.blockItems, Node.itemsText]
  | @cons c item cells items here _ ih =>
      obtain ⟨node, newline⟩ := item
      have gap : (if c.newline then sheet.newline else if first then sheet else sheet.write " ") =
          sheet.writeChars (Token.gapText sheet.indent newline first) := by
        rw [here.newline]
        unfold Token.gapText Item.newline
        cases newline <;> cases first <;> simp [Molder.newline_eq, Molder.write_eq]
      unfold Mold.blockItems
      dsimp only
      rw [gap, Query.bind_ok (here.written (sheet.writeChars _) source inside),
        ih _ _ ((sheet.writeChars _).writeChars _) source inside, here.newline]
      simp [Token.itemsText_cons, Item.node, Item.newline, Bool.or_assoc]

/-- Cells are written as the parts of a path. -/
theorem written_path {cells : List Cell} {items : List Item}
    (each : List.Forall₂ (WritesItem m write active) cells items) (first : Bool)
    (sheet : Molder) (source : sheet.form = false) (inside : sheet.active = active) :
    Mold.pathItems write cells first sheet m =
      .ok (sheet.writeChars (Node.partsText sheet.indent first items)) := by
  induction each generalizing first sheet with
  | nil => simp [Mold.pathItems, Node.partsText]
  | @cons c item cells items here _ ih =>
      obtain ⟨node, newline⟩ := item
      have slash : (if first then sheet else sheet.write "/") =
          sheet.writeChars (if first then [] else ['/']) := by
        cases first <;> simp [Molder.write_eq]
      have blank : c.isBlank = node.isBlank := here.blank
      unfold Mold.pathItems
      dsimp only
      rw [slash, blank]
      cases empty : node.isBlank with
      | true =>
          rw [if_pos rfl]
          refine (ih false (sheet.writeChars _) source inside).trans ?_
          simp [Node.partsText, empty]
      | false =>
          rw [if_neg Bool.false_ne_true,
            Query.bind_ok (here.written (sheet.writeChars _) source inside),
            ih _ ((sheet.writeChars _).writeChars _) source inside]
          simp [Node.partsText, empty, Item.node]

theorem brackets_kind (shape : Shape) (mark : Mark) :
    Mold.brackets (shape.kind mark) =
      (String.ofList (Node.openText shape), String.ofList (Node.closeText shape)) := by
  cases shape <;> cases mark <;> rfl

theorem mark_kind (shape : Shape) (mark : Mark) : (shape.kind mark).mark = mark := by
  cases shape <;> cases mark <;> rfl

theorem isAnyPath_kind (shape : Shape) (mark : Mark) :
    (shape.kind mark).isAnyPath = decide (shape = .path) := by
  cases shape <;> cases mark <;> rfl

/-- An array is written with its mark and brackets. -/
theorem written_array (shape : Shape) (mark : Mark) {id : SeriesId} {index : Nat}
    {cells : Array Cell} {items : List Item} (held : Query.cells id m = .ok cells)
    (outside : id ∉ active)
    (each : List.Forall₂ (WritesItem m write (id :: active)) (cells.toList.drop index) items)
    (sheet : Molder) (source : sheet.form = false) (inside : sheet.active = active) :
    Mold.array write (shape.kind mark) id index sheet m =
      .ok (sheet.writeChars ((Node.array shape mark items).text sheet.indent)) := by
  have fresh : sheet.active.contains id = false := by simpa [inside] using outside
  unfold Mold.array
  rw [brackets_kind, mark_kind, isAnyPath_kind]
  extract_lets lead outer
  have leads : lead = sheet.writeChars (Node.leadText mark) := by
    simp only [lead]
    cases mark <;> simp [Node.leadText, Molder.write_eq]
  clear_value lead
  subst leads
  dsimp only [outer]
  rw [if_neg (by simpa using fresh), Query.bind_ok held]
  have deeper : (id :: sheet.active) = id :: active := congrArg (id :: ·) inside
  by_cases isPath : shape = .path
  · have parts := written_path each true
      { (sheet.writeChars (Node.leadText mark)).write (String.ofList (Node.openText shape)) with
        active := id :: sheet.active, indent := sheet.indent + 1 } source deeper
    rw [if_pos (decide_eq_true isPath)]
    refine (Query.bind_ok parts _).trans (congrArg Except.ok ?_)
    rw [Node.text, if_pos isPath]
    cases mark <;>
      simp [Molder.writeChars, Molder.write, Node.leadText, Node.trailText, String.ofList_append,
        String.append_assoc]
  · have parts := written_block each true false
      { (sheet.writeChars (Node.leadText mark)).write (String.ofList (Node.openText shape)) with
        active := id :: sheet.active, indent := sheet.indent + 1 } source deeper
    rw [if_neg (by simpa using isPath)]
    refine (Query.bind_ok parts _).trans (congrArg Except.ok ?_)
    rw [Node.text, if_neg isPath, Bool.false_or]
    cases broken : items.any Item.newline <;> cases mark <;>
      simp [Molder.newline_eq, Molder.writeChars, Molder.write, Node.leadText, Node.trailText,
        String.ofList_append, String.append_assoc]

theorem compound_array {c : Cell} {shape : Shape} {mark : Mark} {id : SeriesId} {index : Nat}
    (kind : c.kind = shape.kind mark) (payload : c.payload = .series id index)
    {sheet : Molder} :
    (match Mold.scalarText? sheet.form c with
      | some s => pure (sheet.write s)
      | none => Mold.compound write c sheet : Query Molder) =
        Mold.array write (shape.kind mark) id index sheet := by
  obtain ⟨kind, payload, binding, quote⟩ := c
  subst kind
  subst payload
  cases shape <;> cases mark <;> rfl

/-! ## Whole values -/

/-- How often a tree is quoted before its value shows: the steps of writing it that enter no
array. -/
def quotes : Node → Nat
  | .quoted _ node => quotes node + 1
  | _ => 0

theorem quotes_le {node : Node} (structural : node.Structural) : quotes node ≤ 1 := by
  cases structural with
  | scalar | array | path => exact Nat.zero_le _
  | quoted _ _ unquoted structural =>
      cases structural with
      | scalar | array | path => exact Nat.le_refl _
      | quoted => exact absurd rfl (unquoted _ _)

mutual

/-- A value that stands for a tree is written as the text of the tree. -/
theorem Denotes.written : {node : Node} → node.Structural → {c : Cell} → {ids : List SeriesId} →
    m.Denotes c node ids → ids.Nodup → (depth : Nat) → 2 * ids.length + quotes node + 1 ≤ depth →
    (active : List SeriesId) → (∀ id ∈ ids, id ∉ active) →
    WritesAs m (Mold.cell depth) active c fun indent => node.text indent
  | .scalar lexeme, _, c, _, .scalar depth shown, _, fuel, enough, active, _ => by
      intro sheet source _
      obtain ⟨fuel, rfl⟩ : ∃ less, fuel = less + 1 := ⟨fuel - 1, by omega⟩
      simp only [Mold.cell, depth, Nat.lt_irrefl, if_false]
      rw [Node.text, ← Molder.write_eq]
      exact shown.written _ source
  | .quoted more node, structural, c, ids, .quoted positive depth taken inner, distinct, fuel,
      enough, active, outside => by
      intro sheet source inside
      obtain ⟨fuel, rfl⟩ : ∃ less, fuel = less + 1 := ⟨fuel - 1, by omega⟩
      have structural : node.Structural := by
        cases structural with
        | quoted _ _ _ structural => exact structural
      have written := Denotes.written structural inner distinct fuel
        (by rw [quotes] at enough; omega) active outside
        (sheet.write (String.ofList (List.replicate more '\''))) source inside
      simp only [Mold.cell, depth, positive, if_true]
      rw [Query.bind_ok taken, written, Node.text, ← Molder.writeChars_writeChars]
      rfl
  | .array shape mark items, structural, c, _, denotes, distinct, fuel, enough, active, outside => by
      intro sheet source inside
      obtain ⟨fuel, rfl⟩ : ∃ less, fuel = less + 1 := ⟨fuel - 1, by omega⟩
      cases denotes with
      | @array _ _ _ _ id index cells ids depth kind payload held denotes =>
          obtain ⟨apart, distinct⟩ := List.nodup_cons.mp distinct
          have each := DenotesItems.written structural.items denotes distinct fuel
            (by rw [List.length_cons] at enough; omega) (id :: active) (by
              intro other member
              refine List.not_mem_cons_of_ne_of_not_mem ?_
                (outside other (List.mem_cons_of_mem _ member))
              rintro rfl
              exact apart member)
          have written := written_array shape mark held (outside id List.mem_cons_self) each sheet
            source inside
          simp only [Mold.cell, depth, Nat.lt_irrefl, if_false]
          exact (congrFun (compound_array kind payload) m).trans written

theorem DenotesItems.written : {items : List Item} → (∀ item ∈ items, item.node.Structural) →
    {cells : List Cell} → {ids : List SeriesId} → m.DenotesItems cells items ids → ids.Nodup →
    (depth : Nat) → 2 * ids.length + 2 ≤ depth → (active : List SeriesId) →
    (∀ id ∈ ids, id ∉ active) → List.Forall₂ (WritesItem m (Mold.cell depth) active) cells items
  | [], _, _, _, .nil, _, _, _, _, _ => .nil
  | .mk node newline :: items, structural, _, _, denotes, distinct, depth, enough, active,
      outside => by
      cases denotes with
      | @cons c cells _ _ here there first rest =>
          have structuralFirst : node.Structural := structural _ List.mem_cons_self
          obtain ⟨distinctHere, distinctThere, -⟩ := List.nodup_append.mp distinct
          rw [List.length_append] at enough
          have shallow := quotes_le structuralFirst
          refine .cons ⟨rfl, first.isBlank, ?_⟩ ?_
          · exact Denotes.written structuralFirst first distinctHere depth (by omega) active
              fun id member => outside id (List.mem_append_left _ member)
          · exact DenotesItems.written
              (fun item member => structural item (List.mem_cons_of_mem _ member)) rest
              distinctThere depth (by omega) active
              fun id member => outside id (List.mem_append_right _ member)

end

mutual

theorem Denotes.live : {node : Node} → {c : Cell} → {ids : List SeriesId} → m.Denotes c node ids →
    ∀ id ∈ ids, m.heap.isLive id = true
  | _, _, _, .scalar .., _, member => nomatch member
  | _, _, _, .quoted _ _ _ inner, id, member => inner.live id member
  | _, _, _, .array _ _ _ held items, id, member => by
      rcases List.mem_cons.mp member with rfl | member
      · obtain ⟨s, found, -⟩ := Query.cells_eq_ok.mp held
        exact Heap.isLive_iff.mpr ⟨s, found⟩
      · exact items.live id member

theorem DenotesItems.live : {items : List Item} → {cells : List Cell} → {ids : List SeriesId} →
    m.DenotesItems cells items ids → ∀ id ∈ ids, m.heap.isLive id = true
  | _, _, _, .nil, _, member => nomatch member
  | _, _, _, .cons first rest, id, member =>
      (List.mem_append.mp member).elim (first.live id) (rest.live id)

end

/-- A heap has room for no more series than it has slots. -/
theorem length_le_slots {ids : List SeriesId} (distinct : ids.Nodup)
    (live : ∀ id ∈ ids, m.heap.isLive id = true) : ids.length ≤ m.heap.slots.size := by
  have slots : (ids.map SeriesId.slot).Nodup := by
    refine List.Nodup.map (fun a b same => ?_) distinct
    cases a
    cases b
    exact congrArg SeriesId.mk same
  have inside : ids.map SeriesId.slot ⊆ List.range m.heap.slots.size := by
    intro slot member
    obtain ⟨id, listed, rfl⟩ := List.mem_map.mp member
    exact List.mem_range.mpr (Heap.slot_lt_size (live id listed))
  simpa using (slots.subperm inside).length_le

/-- A value that stands for a tree is molded as the text of the tree. -/
theorem Denotes.mold {c : Cell} {node : Node} {ids : List SeriesId} (structural : node.Structural)
    (denotes : m.Denotes c node ids) (unshared : ids.Nodup) :
    Query.mold c m = .ok (String.ofList (node.text 0)) := by
  have shallow := quotes_le structural
  have room := length_le_slots unshared denotes.live
  have written := denotes.written structural unshared (Mold.nesting m)
    (by unfold Mold.nesting; omega) [] (fun id _ => List.not_mem_nil) {} rfl rfl
  unfold Query.mold
  rw [Query.bind_ok (Query.read_run m), Query.bind_ok written]
  simp [Molder.writeChars, Molder.write]

theorem DenotesItems.singleton {cells : List Cell} {item : Item} {ids : List SeriesId}
    (denotes : m.DenotesItems cells [item] ids) :
    ∃ c, cells = [c] ∧ c.newline = item.newline ∧ m.Denotes c item.node ids := by
  cases denotes with
  | cons first rest =>
      cases rest
      rw [List.append_nil]
      exact ⟨_, rfl, rfl, first⟩

/-- The text of a tree is scanned as a single value that stands for the tree. -/
theorem scan_text {node : Node} (structural : node.Structural) (m : Machine) :
    ∃ block c m' ids, Interp.scan (String.ofList (node.text 0)) m = .ok block m' ∧
      Query.cells block m' = .ok #[c] ∧ c.newline = false ∧ m'.Denotes c node ids ∧
      m.Makes m' (block :: ids) := by
  have scanned : Node.scan (String.ofList (node.text 0)) = .ok [.mk node false] := by
    refine Token.scan_itemsText (fun item member => ?_) ?_
    · cases List.mem_singleton.mp member
      exact structural
    · simp [Node.itemsText]
  have items : ∀ item ∈ [Item.mk node false], item.node.Structural := by
    intro item member
    cases List.mem_singleton.mp member
    exact structural
  obtain ⟨cells, m₁, ids, loaded, makes, denotes⟩ := loads_items items m
  obtain ⟨c, rfl, newline, first⟩ := denotes.singleton
  have grown := makes_alloc m₁ (Series.ofCells #[c]).managed
  refine ⟨(m₁.heap.alloc (Series.ofCells #[c]).managed).1, c, _, ids, ?_, ?_, newline,
    first.mono grown.grown structural, ?_⟩
  · unfold Interp.scan
    rw [scanned]
    refine (Interp.bind_ok (Interp.pure_run _ m) _).trans ?_
    rw [Interp.bind_ok loaded]
    exact alloc_run m₁ _
  · exact Query.cells_eq_ok.mpr ⟨_, get?_alloc_self m₁ _, rfl⟩
  · exact (makes.append grown).perm (List.perm_append_singleton _ _).symm

/-- Molding a value and scanning the text gives the value back. -/
theorem scan_mold {c : Cell} {node : Node} {ids : List SeriesId} (structural : node.Structural)
    (denotes : m.Denotes c node ids) (unshared : ids.Nodup) :
    ∃ text block c' m' ids', Query.mold c m = .ok text ∧ Interp.scan text m = .ok block m' ∧
      Query.cells block m' = .ok #[c'] ∧ m'.Denotes c' node ids' ∧ m.Makes m' (block :: ids') := by
  obtain ⟨block, c', m', ids', scanned, cells, -, denotes', makes⟩ := scan_text structural m
  exact ⟨_, block, c', m', ids', denotes.mold structural unshared, scanned, cells, denotes', makes⟩

/-- A machine that holds the block `[a: ''''"t" (new line) :a/0]`. -/
def sampleStore : Machine :=
  { config := {}
    heap :=
      { slots := #[
          some (Series.ofCells #[
            Cell.word .setWord ⟨0⟩,
            { kind := .quoted, payload := .quoted ⟨1⟩ 4 },
            { Cell.series .getPath ⟨3⟩ 0 with newline := true }]),
          some (Series.ofCells #[Cell.series .text ⟨2⟩ 0, Cell.blank]),
          some (Series.ofText "t"),
          some (Series.ofCells #[Cell.word .word ⟨0⟩, Cell.integer 0])]
        ballast := 100 }
    symbols := { entries := #[⟨"a", "a", ⟨0⟩, ⟨0⟩⟩] }
    countdown := 1 }

/-- The path in the block of `sampleStore`. -/
def samplePath : Node :=
  .array .path .get ([.scalar (.word "a" .plain), .scalar (.integer 0)].map (Item.mk · false))

/-- The tree of the block of `sampleStore`. -/
def sampleTree : Node :=
  .array .block .plain
    [.mk (.scalar (.word "a" .set)) false, .mk (.quoted 4 (.scalar (.text .text "t"))) false,
      .mk samplePath true]

theorem structural_word (mark : Mark) : (Node.scalar (.word "a" mark)).Structural :=
  .scalar (.word mark ⟨⟨_, rfl, rfl⟩, by decide⟩)

theorem structural_samplePath : samplePath.Structural := by
  refine @Node.Structural.path .get (.scalar (.word "a" .plain)) (.scalar (.integer 0)) [] ?_ ?_ ?_
  · intro part member
    simp only [List.nil_append, List.mem_cons, List.not_mem_nil, or_false] at member
    rcases member with rfl | rfl
    · exact structural_word .plain
    · exact .scalar (.integer (by decide))
  · intro part member
    simp only [List.nil_append, List.mem_cons, List.not_mem_nil, or_false] at member
    rcases member with rfl | rfl
    · exact .word "a"
    · exact .integer (by decide)
  · exact ⟨by simp [Node.markedEnd], by simp [Node.markedEnd]⟩

theorem structural_sampleTree : sampleTree.Structural := by
  refine .array .block .plain fun item member => ?_
  simp only [List.mem_cons, List.not_mem_nil, or_false] at member
  rcases member with rfl | rfl | rfl
  · exact structural_word .set
  · exact .quoted (by decide) (by decide) (fun _ _ same => nomatch same) (.scalar (.text "t"))
  · exact structural_samplePath

theorem denotes_sampleTree :
    sampleStore.Denotes (Cell.series .block ⟨0⟩ 0) sampleTree [⟨0⟩, ⟨3⟩] := by
  have word (mark : Mark) : sampleStore.Denotes (Cell.word (Kind.word.withMark mark) ⟨0⟩)
      (.scalar (.word "a" mark)) [] :=
    .scalar rfl (@Shows.word sampleStore _ mark ⟨0⟩ 0 rfl rfl)
  have path : sampleStore.Denotes { Cell.series .getPath ⟨3⟩ 0 with newline := true } samplePath
      [⟨3⟩] := by
    refine .array rfl rfl rfl rfl ?_
    exact .cons (word .plain) (.cons (.scalar rfl (.integer rfl rfl)) .nil)
  have text : sampleStore.Denotes { kind := .quoted, payload := .quoted ⟨1⟩ 4 }
      (.quoted 4 (.scalar (.text .text "t"))) [] := by
    have content : (Text.Buffer.ofString "t").slice 0 (Text.Buffer.ofString "t").size = "t" := rfl
    have shown := @Shows.text sampleStore (Cell.series .text ⟨2⟩ 0) ⟨2⟩ 0 (.ofString "t") rfl rfl rfl
    rw [content] at shown
    exact .quoted (by decide) rfl rfl (Denotes.congr (.scalar rfl shown) ⟨rfl, rfl, rfl⟩)
  refine .array rfl rfl rfl rfl ?_
  exact .cons (word .set) (.cons text (.cons path .nil))

theorem scan_mold_sampleTree :
    sampleTree.Structural ∧ sampleStore.Denotes (Cell.series .block ⟨0⟩ 0) sampleTree [⟨0⟩, ⟨3⟩] ∧
      [(⟨0⟩ : SeriesId), ⟨3⟩].Nodup ∧
      ∃ text block c' m' ids', Query.mold (Cell.series .block ⟨0⟩ 0) sampleStore = .ok text ∧
        Interp.scan text sampleStore = .ok block m' ∧ Query.cells block m' = .ok #[c'] ∧
        m'.Denotes c' sampleTree ids' ∧ sampleStore.Makes m' (block :: ids') :=
  ⟨structural_sampleTree, denotes_sampleTree, by decide,
    scan_mold structural_sampleTree denotes_sampleTree (by decide)⟩

end Machine

end Homoicon
