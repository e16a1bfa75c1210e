import Homoicon.Exchange
import Homoicon.Proofs.Natives
import Homoicon.Proofs.Source.RoundTrip
import Homoicon.Proofs.Writing.Watching
import Mathlib.Logic.Relation

/-!
# Writing that ends

Molding and forming end on every heap that is laid out as it should be, whatever refers to what:
each series that is entered is one that is not being written already, and between two of them at
most three values are passed.  The same holds for JSON, which keeps account of its own, and molds
what it meets again.
-/

namespace Homoicon

/-! ## Cells as they should be -/

/-- A cell that is laid out as it should be.  The numbers of a pair are numbers, what a deeply
quoted value refers to is not deeply quoted itself, and a variadic argument goes through a
block. -/
structure Machine.Regular (m : Machine) (c : Cell) : Prop where
  shallow : c.quote ≤ 3
  deep : ∀ pairing depth, c.kind = .quoted → c.payload = .quoted pairing depth →
    ∀ x, Query.cell pairing 0 m = .ok x → x.kind ≠ .quoted
  pair : ∀ id, c.kind = .pair → c.payload = .pair id →
    ∀ i x, Query.cell id i m = .ok x → x.kind.isAnyNumber = true
  varargs : ∀ holder paramlist param, c.kind = .varargs →
    c.payload = .varargs (.array holder paramlist param) →
    ∀ x, Query.cell holder 0 m = .ok x → x.kind = .block ∧ x.quote = 0

/-- All cells in the arrays of a machine are laid out as they should be. -/
def Machine.AllRegular (m : Machine) : Prop := ∀ id i x, Query.cell id i m = .ok x → m.Regular x

namespace Mold

open Query

variable {m : Machine} {c x : Cell}

/-! ## Parts -/

/-- A cell whose quoting is kept in a pairing. -/
def Deep (c : Cell) : Prop := c.kind = .quoted ∧ ∃ pairing depth, c.payload = .quoted pairing depth

theorem quoteDepth_shallow (shallow : ¬ Deep c) (q : Nat) :
    ({ c with quote := q } : Cell).quoteDepth = q := by
  unfold Cell.quoteDepth
  dsimp only
  split
  · rename_i payload
    exact if_neg fun kind => shallow ⟨kind, _, _, payload⟩
  · rfl

theorem unquotify_shallow (shallow : ¬ Deep c) {n : Nat} (positive : 0 < n) :
    Query.unquotify c n = pure { c with quote := c.quote - n % 256 } := by
  unfold Query.unquotify
  rw [if_neg (by simpa using Nat.pos_iff_ne_zero.mp positive)]
  dsimp only
  split
  · rename_i payload
    exact if_neg fun kind => shallow ⟨kind, _, _, payload⟩
  · rfl

/-- What is left of a quoted value has no quoting. -/
theorem regular_unquotify (all : m.AllRegular) (regular : m.Regular c) (quoted : 0 < c.quoteDepth)
    (taken : Query.unquotify c c.quoteDepth m = .ok x) :
    m.Regular x ∧ x.quoteDepth = 0 ∧ (c.kind.isAnyNumber = true → x.kind = c.kind) := by
  by_cases deep : Deep c
  · obtain ⟨kind, pairing, depth, payload⟩ := deep
    have whole : c.quoteDepth = depth := by
      unfold Cell.quoteDepth
      rw [payload]
      exact if_pos kind
    unfold Query.unquotify at taken
    rw [if_neg (by simpa using Nat.pos_iff_ne_zero.mp quoted), payload] at taken
    dsimp only at taken
    rw [if_pos kind, whole, Nat.sub_self, if_neg (Nat.not_lt_zero 3)] at taken
    obtain ⟨inner, held, given⟩ := Query.bind_eq_ok.mp taken
    cases given
    have unquoted := regular.deep pairing depth kind payload inner held
    have whole := all pairing 0 inner held
    refine ⟨⟨Nat.zero_le 3, fun _ _ kind => absurd kind unquoted, whole.pair, whole.varargs⟩, ?_, ?_⟩
    · exact quoteDepth_shallow (fun deep => unquoted deep.1) 0
    · rw [kind]
      exact nofun
  · have depth : c.quoteDepth = c.quote := quoteDepth_shallow deep c.quote
    have small := regular.shallow
    rw [unquotify_shallow deep quoted, depth, Nat.mod_eq_of_lt (by omega), Nat.sub_self] at taken
    cases taken
    exact ⟨⟨Nat.zero_le 3, regular.deep, regular.pair, regular.varargs⟩,
      quoteDepth_shallow deep 0, fun _ => rfl⟩

/-- The parts of a cell that is laid out as it should be are so as well. -/
theorem Part.regular (all : m.AllRegular) (regular : m.Regular c) (part : Part m c x) :
    m.Regular x := by
  cases part with
  | unquoted quoted taken => exact (regular_unquotify all regular quoted taken).1
  | number _ _ _ held | slot _ _ _ _ held => exact all _ _ x held
  | item _ _ _ held member =>
      obtain ⟨i, inside, rfl⟩ := List.getElem_of_mem (List.mem_of_mem_drop member)
      exact all _ i _ (Query.cell_eq_ok.mpr ⟨_, held, by simp⟩)
  | entry _ _ _ held member =>
      obtain ⟨i, inside, rfl⟩ := List.getElem_of_mem member
      exact all _ i _ (Query.cell_eq_ok.mpr ⟨_, held, by simp⟩)
  | input _ _ _ held first => exact all _ 0 x (Query.cell_eq_ok.mpr ⟨_, held, first⟩)

/-- How many values can be passed before a series is entered, or nothing is left. -/
def rank (c : Cell) : Nat :=
  if 0 < c.quoteDepth then if c.kind.isAnyNumber then 2 else 4
  else if c.kind = .pair then 3 else if c.kind = .varargs then 2 else 1

theorem rank_quoted (quoted : 0 < c.quoteDepth) :
    rank c = if c.kind.isAnyNumber then 2 else 4 := if_pos quoted

theorem rank_unquoted (unquoted : c.quoteDepth = 0) :
    rank c = if c.kind = .pair then 3 else if c.kind = .varargs then 2 else 1 :=
  if_neg (by omega)

theorem rank_number (unquoted : c.quoteDepth = 0) (number : c.kind.isAnyNumber = true) :
    rank c = 1 := by
  rw [rank_unquoted unquoted, if_neg, if_neg]
  all_goals
    intro kind
    rw [kind] at number
    cases number

theorem rank_bounds (c : Cell) : 0 < rank c ∧ rank c ≤ 4 := by
  unfold rank
  split_ifs <;> decide

/-- Either a series is entered, or a value of a smaller rank is written. -/
theorem Part.enters_or_passes (all : m.AllRegular) (regular : m.Regular c) (part : Part m c x) :
    (∃ id, expansion c = [id] ∧ m.heap.isLive id = true) ∨ expansion c = [] ∧ rank x < rank c := by
  have lives {id : SeriesId} {cells : Array Cell} (held : Query.cells id m = .ok cells) :
      m.heap.isLive id = true := by
    obtain ⟨s, found, -⟩ := Query.cells_eq_ok.mp held
    exact Heap.isLive_iff.mpr ⟨s, found⟩
  unfold expansion
  cases part with
  | unquoted quoted taken =>
      refine .inr ⟨if_pos quoted, ?_⟩
      obtain ⟨-, unquoted, same⟩ := regular_unquotify all regular quoted taken
      rw [rank_quoted quoted]
      split_ifs with number
      · rw [rank_number unquoted (by rw [same number]; exact number)]
        decide
      · rw [rank_unquoted unquoted]
        split_ifs <;> decide
  | number unquoted kind payload held =>
      have number := regular.pair _ kind payload _ x held
      refine .inr ⟨by rw [if_neg (by omega), payload], ?_⟩
      rw [rank_unquoted unquoted, if_pos kind]
      rcases Nat.eq_zero_or_pos x.quoteDepth with plain | quoted
      · rw [rank_number plain number]
        decide
      · rw [rank_quoted quoted, if_pos number]
        decide
  | item unquoted payload isArray held =>
      refine .inl ⟨_, ?_, lives held⟩
      rw [if_neg (by omega), payload]
      exact if_pos (by simp [isArray])
  | entry unquoted payload isMap held =>
      refine .inl ⟨_, ?_, lives held⟩
      rw [if_neg (by omega), payload]
      exact if_pos (by simp [isMap])
  | slot unquoted payload isContext _ held =>
      obtain ⟨cells, held, -⟩ := Query.cell_eq_ok.mp held
      refine .inl ⟨_, ?_, lives held⟩
      rw [if_neg (by omega), payload]
      exact if_pos isContext
  | input unquoted kind payload held first =>
      obtain ⟨block, quote⟩ := regular.varargs _ _ _ kind payload x
        (Query.cell_eq_ok.mpr ⟨_, held, first⟩)
      have unquotedBlock : x.quoteDepth = 0 := by
        rw [← quote]
        exact quoteDepth_shallow (fun deep => by rw [deep.1] at block; cases block) x.quote
      refine .inr ⟨by rw [if_neg (by omega), payload], ?_⟩
      rw [rank_unquoted unquotedBlock, rank_unquoted unquoted, block, kind]
      decide

/-! ## Watching from outside -/

/-- What is known where a value is written: which series are around it. -/
structure Path (m : Machine) (inv : List SeriesId → Cell → Prop) (around : List SeriesId)
    (c : Cell) : Prop where
  regular : m.Regular c
  distinct : around.Nodup
  live : ∀ id ∈ around, m.heap.isLive id = true
  inv : inv around c

/-- A guard that holds as long as something is known, which is passed on to the parts. -/
structure Keeps (m : Machine) (guard : Guard) (inv : List SeriesId → Cell → Prop) : Prop where
  holds : ∀ around c, around.Nodup → inv around c → guard around (expansion c) around = true
  onward : ∀ around c x, inv around c → (∀ id ∈ expansion c, id ∉ around) → Part m c x →
    inv (expansion c ++ around) x

variable {guard : Guard} {inv : List SeriesId → Cell → Prop} {around : List SeriesId}

theorem Path.part (keeps : Keeps m guard inv) (all : m.AllRegular) (path : Path m inv around c)
    (fresh : ∀ id ∈ expansion c, id ∉ around) (part : Part m c x) :
    Path m inv (expansion c ++ around) x := by
  have regular := part.regular all path.regular
  have onward := keeps.onward around c x path.inv fresh part
  rcases part.enters_or_passes all path.regular with ⟨id, enters, live⟩ | ⟨passes, -⟩
  · rw [enters] at fresh onward ⊢
    refine ⟨regular, List.nodup_cons.mpr ⟨fresh id List.mem_cons_self, path.distinct⟩, ?_, onward⟩
    intro other member
    rcases List.mem_cons.mp member with rfl | member
    · exact live
    · exact path.live other member
  · rw [passes] at onward ⊢
    exact ⟨regular, path.distinct, path.live, onward⟩

/-- The room that writing a value takes at most. -/
def room (m : Machine) (around : List SeriesId) (c : Cell) : Nat :=
  4 * (m.heap.slots.size - around.length) + rank c

theorem room_le_nesting (around : List SeriesId) (c : Cell) : room m around c ≤ nesting m := by
  have bound := (rank_bounds c).2
  unfold room nesting
  omega

theorem Path.room_lt (all : m.AllRegular) (path : Path m inv around c)
    (fresh : ∀ id ∈ expansion c, id ∉ around) (part : Part m c x) :
    room m (expansion c ++ around) x < room m around c := by
  unfold room
  rcases part.enters_or_passes all path.regular with ⟨id, enters, live⟩ | ⟨passes, smaller⟩
  · rw [enters] at fresh ⊢
    have distinct : (id :: around).Nodup :=
      List.nodup_cons.mpr ⟨fresh id List.mem_cons_self, path.distinct⟩
    have most := Machine.length_le_slots distinct (by
        intro other member
        rcases List.mem_cons.mp member with rfl | member
        · exact live
        · exact path.live other member)
    have most_x := (rank_bounds x).2
    have least := (rank_bounds c).1
    simp only [List.singleton_append, List.length_cons] at most ⊢
    omega
  · rw [passes, List.nil_append]
    omega

/-- A watched writer is the plain one, if both have the room they need. -/
theorem watched_agree (keeps : Keeps m guard inv) (all : m.AllRegular) (alarm : Writer)
    {form : Bool} {depth depth' : Nat} (path : Path m inv around c)
    (enough : room m around c ≤ depth) (enough' : room m around c ≤ depth') :
    Agree m around form (watched guard alarm depth around) (cell depth') c := by
  induction depth generalizing around c depth' with
  | zero =>
      have least := (rank_bounds c).1
      unfold room at enough
      omega
  | succ depth ih =>
      have least := (rank_bounds c).1
      obtain ⟨depth', rfl⟩ : ∃ less, depth' = less + 1 :=
        ⟨depth' - 1, by unfold room at enough'; omega⟩
      intro sheet kept
      have holds := keeps.holds around c path.distinct path.inv
      rw [watched, kept.active, if_pos holds, cell_succ]
      refine step_same (fun fresh x part => ?_) sheet kept
      have smaller := path.room_lt all fresh part
      exact ih (path.part keeps all fresh part) (by omega) (by omega)

/-- A block that is written for people without brackets. -/
structure IsBlock (c : Cell) (id : SeriesId) (index : Nat) : Prop where
  unquoted : c.quoteDepth = 0
  kind : c.kind.isAnyArray = true
  payload : c.payload = .series id index

theorem IsBlock.expansion {id : SeriesId} {index : Nat} (block : IsBlock c id index) :
    expansion c = [id] := by
  unfold Mold.expansion
  rw [if_neg (by rw [block.unquoted]; decide), block.payload]
  exact if_pos (by simp [block.kind])

theorem isBlock_of_isAnyBlock {id : SeriesId} (quote : c.quote = 0)
    (kind : c.kind.isAnyBlock = true) (found : c.seriesId? = some id) : IsBlock c id c.index := by
  refine ⟨?_, by simp [Kind.isAnyArray, kind], ?_⟩
  · rw [← quote]
    exact quoteDepth_shallow (fun deep => by rw [deep.1] at kind; cases kind) c.quote
  · unfold Cell.seriesId? at found
    unfold Cell.index
    split at found
    · rename_i payload
      cases found
      rw [payload]
    · cases found

theorem watchedItems_agree (keeps : Keeps m guard inv) (all : m.AllRegular)
    (alarm : SeriesId → Nat → Molder → Query Molder) {write : List SeriesId → Writer}
    {write' : Writer}
    (writes : ∀ around x, Path m inv around x → Agree m around true (write around) write' x)
    {depth depth' : Nat} {id : SeriesId} {index : Nat} (block : IsBlock c id index)
    (path : Path m inv around c) (outside : id ∉ around)
    (enough : m.heap.slots.size - around.length < depth)
    (enough' : m.heap.slots.size - around.length < depth') :
    AgreeItems m around (watchedItems guard alarm write depth around) (formItems write' depth') id
      index := by
  induction depth generalizing around c id index depth' with
  | zero => exact absurd enough (Nat.not_lt_zero _)
  | succ depth ih =>
      obtain ⟨depth', rfl⟩ : ∃ less, depth' = less + 1 := ⟨depth' - 1, by omega⟩
      intro sheet kept
      have holds := keeps.holds around c path.distinct path.inv
      rw [block.expansion] at holds
      rw [watchedItems, kept.active, if_pos holds, formItems_succ]
      refine stepItems_same (fun cells held x member => ?_) sheet kept
      have fresh : ∀ id' ∈ Mold.expansion c, id' ∉ around := by
        rw [block.expansion]
        simpa using outside
      have onward := path.part keeps all fresh
        (.item block.unquoted block.payload block.kind held member)
      rw [block.expansion] at onward
      refine ⟨writes _ x onward, fun quote kind inner found apart => ?_⟩
      have room := Machine.length_le_slots onward.distinct onward.live
      simp only [List.singleton_append, List.length_cons] at room
      exact ih (isBlock_of_isAnyBlock quote kind found) onward apart
        (by simp only [List.length_cons]; omega) (by simp only [List.length_cons]; omega)

/-! ## JSON -/

/-- A value as JSON; `nested` writes the cells inside a series or context. -/
def exchangeStep (nested : SeriesId → Cell → Query Json) (seen : List SeriesId) (c : Cell) :
    Query Json := do
  let content ← Query.exchangeContent nested seen c
  pure (.object [("type", .string c.typeName), ("value", content)])

theorem exchangeIn_succ (depth : Nat) (seen : List SeriesId) (c : Cell) :
    Query.exchangeIn (depth + 1) seen c =
      exchangeStep (fun id => Query.exchangeIn depth (id :: seen)) seen c := rfl

open Classical in
/-- JSON under watch: where a value is met that is not to be visited, and where the bound is used
up, an alarm is sounded. -/
noncomputable def watchedJson (visits : List SeriesId → Cell → Prop) (alarm : Cell → Query Json) :
    Nat → List SeriesId → Cell → Query Json
  | 0, _, c => alarm c
  | depth + 1, seen, c =>
    if visits seen c then
      exchangeStep (fun id => watchedJson visits alarm depth (id :: seen)) seen c
    else alarm c

theorem quoteDepth_of_isQuoted (plain : c.isQuoted = false) : c.quoteDepth = 0 := by
  unfold Cell.isQuoted at plain
  simp only [Bool.or_eq_false_iff, decide_eq_false_iff_not] at plain
  rw [quoteDepth_shallow (fun deep => plain.2 deep.1) c.quote]
  omega

theorem exchangeContent_same {nested nested' : SeriesId → Cell → Query Json} {seen : List SeriesId}
    (each : ∀ id, expansion c = [id] → id ∉ seen → ∀ x, Part m c x →
      Same m (nested id x) (nested' id x) fun _ => True) :
    Same m (Query.exchangeContent nested seen c) (Query.exchangeContent nested' seen c)
      fun _ => True := by
  unfold Query.exchangeContent
  dsimp only
  by_cases quoted : c.isQuoted = true
  · rw [if_pos quoted, if_pos quoted]
    exact .refl _
  rw [if_neg quoted, if_neg quoted]
  have unquoted := quoteDepth_of_isQuoted (Bool.eq_false_iff.mpr quoted)
  by_cases met : (c.seriesId? <|> c.varlist?).any seen.contains = true
  · rw [if_pos met, if_pos met]
    exact .refl _
  rw [if_neg met, if_neg met]
  cases payload : c.payload with
  | series id index =>
      have apart : id ∉ seen := by simpa [Cell.seriesId?, payload] using met
      dsimp only
      split
      · rename_i isArray
        have enters : Mold.expansion c = [id] := IsBlock.expansion ⟨unquoted, isArray, payload⟩
        refine .ask fun items listed => .map _ (.mapM fun x member => ?_)
        obtain ⟨cells, held, given⟩ := Query.bind_eq_ok.mp listed
        cases given
        exact each id enters apart x (.item unquoted payload isArray held member)
      split
      · exact .refl _
      · exact .refl _
  | context varlist phase =>
      have apart : varlist ∉ seen := by simpa [Cell.seriesId?, Cell.varlist?, payload] using met
      dsimp only
      refine .ask fun accessible _ => ?_
      split
      · rename_i opens
        have isContext : c.kind.isAnyContext = true := by
          simp only [Bool.and_eq_true] at opens
          exact opens.1.1
        have enters : Mold.expansion c = [varlist] := by
          unfold Mold.expansion
          rw [if_neg (by omega), payload]
          exact if_pos isContext
        refine .ask fun keys _ => .map _ (.mapM fun field _ => ?_)
        obtain ⟨symbol, i⟩ := field
        refine .ask fun name _ => .ask fun x held => ?_
        exact (each varlist enters apart x
          (.slot unquoted payload isContext (Nat.succ_pos i) held)).bind fun _ _ => .refl _
      · exact .refl _
  | _ => exact .refl _

/-- JSON under watch is the plain one, if both have the room they need: each step inwards goes
into another series. -/
theorem watchedJson_same (keeps : Keeps m guard inv) (all : m.AllRegular)
    {visits : List SeriesId → Cell → Prop} (holds : ∀ seen x, Path m inv seen x → visits seen x)
    (alarm : Cell → Query Json) {depth depth' : Nat} (path : Path m inv around c)
    (enough : m.heap.slots.size - around.length < depth)
    (enough' : m.heap.slots.size - around.length < depth') :
    Same m (watchedJson visits alarm depth around c) (Query.exchangeIn depth' around c)
      fun _ => True := by
  induction depth generalizing around c depth' with
  | zero => exact absurd enough (Nat.not_lt_zero _)
  | succ depth ih =>
      obtain ⟨depth', rfl⟩ : ∃ less, depth' = less + 1 := ⟨depth' - 1, by omega⟩
      rw [watchedJson, if_pos (holds around c path), exchangeIn_succ]
      refine (exchangeContent_same fun id enters apart x part => ?_).bind fun _ _ => .refl _
      have onward := path.part keeps all (by rw [enters]; simpa using apart) part
      rw [enters] at onward
      have room := Machine.length_le_slots onward.distinct onward.live
      simp only [List.singleton_append, List.length_cons] at room
      exact ih onward (by simp only [List.length_cons]; omega)
        (by simp only [List.length_cons]; omega)

/-! ## Whole texts -/

/-- The source code of a value. -/
def molded (write : Writer) (c : Cell) : Query String := do pure (← write c {}).out

/-- The text of a value for people. -/
def formed (write : Writer) (items : SeriesId → Nat → Molder → Query Molder) (c : Cell) :
    Query String := do
  if c.isNull then pure ""
  else if c.quote == 0 && c.kind.isAnyBlock then
    match c.seriesId? with
    | some id => pure (← items id c.index { form := true }).out
    | none => pure ""
  else pure (← write c { form := true }).out

theorem mold_eq (c : Cell) (m : Machine) :
    Query.mold c m = molded (cell (nesting m)) c m := rfl

theorem form_eq (c : Cell) (m : Machine) : Query.form c m =
    formed (cell (nesting m)) (formItems (cell (nesting m)) (nesting m)) c m := rfl

theorem molded_same {write write' : Writer} (agree : Agree m [] false write write' c) :
    molded write c m = molded write' c m :=
  ((agree {} ⟨rfl, rfl⟩).bind fun _ _ => Same.refl _).same

theorem formed_same {write write' : Writer}
    {items items' : SeriesId → Nat → Molder → Query Molder} (agree : Agree m [] true write write' c)
    (blocks : ∀ id index, IsBlock c id index → AgreeItems m [] items items' id index) :
    formed write items c m = formed write' items' c m := by
  unfold formed
  split
  · rfl
  split
  · rename_i enters
    simp only [Bool.and_eq_true, beq_iff_eq] at enters
    cases found : c.seriesId? with
    | none => rfl
    | some id =>
        have block := isBlock_of_isAnyBlock enters.1 enters.2 found
        exact ((blocks id c.index block _ ⟨rfl, rfl⟩).bind fun _ _ => Same.refl _).same
  · exact ((agree _ ⟨rfl, rfl⟩).bind fun _ _ => Same.refl _).same

/-- A value that is reached while another one is written, or the value itself. -/
def Within (m : Machine) : Cell → Cell → Prop := Relation.ReflTransGen (Part m)

/-- Nothing in a value goes into a series that it stands in. -/
def Acyclic (m : Machine) (c : Cell) : Prop :=
  ∀ outer, Within m c outer → ∀ inner, Relation.TransGen (Part m) outer inner →
    ∀ id ∈ expansion outer, id ∉ expansion inner

/-- What is known on the way from a value to the values in it. -/
structure Watch (m : Machine) (guard : Guard) (inv : List SeriesId → Cell → Prop) (c : Cell) :
    Prop where
  all : m.AllRegular
  keeps : Keeps m guard inv
  regular : ∀ x, Within m c x → m.Regular x
  start : ∀ x, Within m c x → inv [] x
  reached : ∀ seen x, inv seen x → Within m c x

namespace Watch

theorem path (watch : Watch m guard inv c) (within : Within m c x) : Path m inv [] x :=
  ⟨watch.regular x within, List.nodup_nil, nofun, watch.start x within⟩

theorem molded_eq (watch : Watch m guard inv c) (within : Within m c x) (alarm : Writer)
    {bound bound' : Nat} (enough : nesting m ≤ bound) (enough' : nesting m ≤ bound') :
    molded (watched guard alarm bound []) x m = molded (cell bound') x m := by
  have room := room_le_nesting (m := m) [] x
  exact molded_same (watched_agree watch.keeps watch.all alarm (watch.path within) (by omega)
    (by omega))

theorem formed_eq (watch : Watch m guard inv c) (alarm : Writer)
    (nestedAlarm : SeriesId → Nat → Molder → Query Molder) {bound bound' : Nat}
    (enough : nesting m ≤ bound) (enough' : nesting m ≤ bound') :
    formed (watched guard alarm bound [])
      (watchedItems guard nestedAlarm (watched guard alarm bound) bound []) c m =
        formed (cell bound') (formItems (cell bound') bound') c m := by
  have room := room_le_nesting (m := m)
  have least : m.heap.slots.size < nesting m := by
    unfold nesting
    omega
  have writes (around : List SeriesId) (x : Cell) (path : Path m inv around x) :
      Agree m around true (watched guard alarm bound around) (cell bound') x :=
    watched_agree watch.keeps watch.all alarm path (Nat.le_trans (room around x) enough)
      (Nat.le_trans (room around x) enough')
  have path := watch.path Relation.ReflTransGen.refl
  exact formed_same (writes [] c path) fun id index block =>
    watchedItems_agree watch.keeps watch.all nestedAlarm writes block path List.not_mem_nil
      (by simp only [List.length_nil]; omega) (by simp only [List.length_nil]; omega)

theorem exchange_eq (watch : Watch m guard inv c) (alarm : Cell → Query Json) {bound bound' : Nat}
    (enough : m.heap.slots.size < bound) (enough' : m.heap.slots.size < bound') :
    watchedJson (fun seen x => guard seen (expansion x) seen = true ∧ Within m c x) alarm bound []
      c m = Query.exchangeIn bound' [] c m := by
  refine (watchedJson_same watch.keeps watch.all (fun seen x path => ⟨?_, ?_⟩) alarm
    (watch.path Relation.ReflTransGen.refl) enough enough').same
  · exact watch.keeps.holds seen x path.distinct path.inv
  · exact watch.reached seen x path.inv

end Watch

/-- A guard is not noticed in the texts of a value, nor is any bound that is large enough: an alarm
would be part of them. -/
structure Unnoticed (m : Machine) (guard : Guard) (c : Cell) : Prop where
  mold : ∀ x, Within m c x → ∀ alarm bound, nesting m ≤ bound →
    molded (watched guard alarm bound []) x m = Query.mold x m
  form : ∀ alarm nestedAlarm bound, nesting m ≤ bound →
    formed (watched guard alarm bound [])
      (watchedItems guard nestedAlarm (watched guard alarm bound) bound []) c m = Query.form c m
  json : ∀ alarm bound, m.heap.slots.size < bound →
    watchedJson (fun seen x => guard seen (expansion x) seen = true ∧ Within m c x) alarm bound []
      c m = Query.exchange c m

theorem Watch.unnoticed (watch : Watch m guard inv c) : Unnoticed m guard c where
  mold _ within alarm _ enough := watch.molded_eq within alarm enough (Nat.le_refl _)
  form alarm nestedAlarm _ enough := watch.formed_eq alarm nestedAlarm enough (Nat.le_refl _)
  json alarm _ enough := watch.exchange_eq alarm enough (by omega)

/-! ## What is known of a value -/

theorem Within.regular (all : m.AllRegular) (regular : m.Regular c) (within : Within m c x) :
    m.Regular x := by
  induction within with
  | refl => exact regular
  | tail _ part ih => exact part.regular all ih

theorem keeps_fresh (c : Cell) : Keeps m fresh fun _ x => Within m c x where
  holds _ _ distinct _ := decide_eq_true distinct
  onward _ _ _ within _ part := within.tail part

/-- The series around a value that does not stand in itself are those that were gone into on the
way. -/
def GoneInto (m : Machine) (c : Cell) (around : List SeriesId) (x : Cell) : Prop :=
  Within m c x ∧ ∀ id ∈ around, ∃ outer, Within m c outer ∧ id ∈ expansion outer ∧
    Relation.TransGen (Part m) outer x

theorem keeps_unshortened (acyclic : Acyclic m c) : Keeps m unshortened (GoneInto m c) where
  holds around x _ gone := by
    unfold unshortened
    simp only [Bool.not_eq_true', List.any_eq_false, List.contains_iff_mem]
    intro id enters member
    obtain ⟨outer, within, gone, inside⟩ := gone.2 id member
    exact acyclic outer within x inside id gone enters
  onward around x y gone _ part := by
    refine ⟨gone.1.tail part, fun id member => ?_⟩
    rcases List.mem_append.mp member with enters | member
    · exact ⟨x, gone.1, enters, .single part⟩
    · obtain ⟨outer, within, gone, inside⟩ := gone.2 id member
      exact ⟨outer, within, gone, inside.tail part⟩

theorem watch_fresh (all : m.AllRegular) (regular : m.Regular c) :
    Watch m fresh (fun _ x => Within m c x) c where
  all := all
  keeps := keeps_fresh c
  regular _ within := within.regular all regular
  start _ within := within
  reached _ _ within := within

theorem watch_unshortened (all : m.AllRegular) (regular : m.Regular c) (acyclic : Acyclic m c) :
    Watch m unshortened (GoneInto m c) c where
  all := all
  keeps := keeps_unshortened acyclic
  regular _ within := within.regular all regular
  start _ within := ⟨within, nofun⟩
  reached _ _ gone := gone.1

/-- Molding, forming and JSON end on every heap that is laid out as it should be: no bound that is
large enough is noticed in the texts of a value, and neither is a guard against going into a series
inside itself.  JSON does so for itself, and molds what it meets again.  If the value stands nowhere
in itself, no series is replaced by `...`. -/
theorem writing_ends {m : Machine} (all : m.AllRegular) {c : Cell} (regular : m.Regular c) :
    Unnoticed m fresh c ∧ (Acyclic m c → Unnoticed m unshortened c) ∧
      ∀ bound, nesting m ≤ bound → molded (cell bound) c m = Query.mold c m ∧
        formed (cell bound) (formItems (cell bound) bound) c m = Query.form c m ∧
        Query.exchangeIn bound [] c m = Query.exchange c m := by
  have watch := watch_fresh all regular
  have here : Within m c c := Relation.ReflTransGen.refl
  refine ⟨watch.unnoticed, fun acyclic => (watch_unshortened all regular acyclic).unnoticed,
    fun bound enough => ⟨?_, ?_, ?_⟩⟩
  · exact (watch.molded_eq here (cell 0) enough enough).symm.trans
      (watch.unnoticed.mold c here (cell 0) bound enough)
  · exact (watch.formed_eq (cell 0) (formItems (cell 0) 0) enough enough).symm.trans
      (watch.unnoticed.form (cell 0) (formItems (cell 0) 0) bound enough)
  · have room : m.heap.slots.size < bound := by
      unfold nesting at enough
      omega
    exact (watch.exchange_eq (Query.exchangeIn 0 []) room room).symm.trans
      (watch.unnoticed.json (Query.exchangeIn 0 []) bound room)

theorem regular_of_kind (quote : c.quote ≤ 3) (kind : c.kind ∉ [.quoted, .pair, .varargs]) :
    m.Regular c := by
  simp only [List.mem_cons, List.not_mem_nil, or_false, not_or] at kind
  exact ⟨quote, fun _ _ same => absurd same kind.1, fun _ same => absurd same kind.2.1,
    fun _ _ _ same => absurd same kind.2.2⟩

/-- A machine with the block `[1 [...]]` that holds itself. -/
def sampleRing : Machine := .ofArgs [] [.ofCells #[.integer 1, .series .block ⟨1⟩ 0]]

theorem allRegular_sampleRing : sampleRing.AllRegular := by
  intro id i x held
  obtain ⟨cells, listed, found⟩ := Query.cell_eq_ok.mp held
  obtain ⟨s, live, content⟩ := Query.cells_eq_ok.mp listed
  have member := Array.mem_of_getElem? found
  obtain ⟨_ | _ | slot⟩ := id
  · cases live
    cases content
    obtain rfl : x = Cell.null := by simpa using member
    exact regular_of_kind (by decide) (by decide)
  · cases live
    cases content
    rcases (by simpa using member : x = .integer 1 ∨ x = .series .block ⟨1⟩ 0) with rfl | rfl
    all_goals exact regular_of_kind (by decide) (by decide)
  · cases live

theorem writing_ends_sampleRing :
    sampleRing.AllRegular ∧ sampleRing.Regular (.series .block ⟨1⟩ 0) ∧
      Unnoticed sampleRing fresh (.series .block ⟨1⟩ 0) :=
  have regular := regular_of_kind (by decide) (by decide)
  ⟨allRegular_sampleRing, regular, (writing_ends allRegular_sampleRing regular).1⟩

/-- A variadic argument that goes through the second series. -/
def sampleVarargs : Cell := { kind := .varargs, payload := .varargs (.array ⟨2⟩ none 0) }

/-- A machine with the block `[1 [...]]` that holds itself, and a variadic argument that goes through
itself. -/
def sampleKnot : Machine :=
  .ofArgs [] [.ofCells #[.integer 1, .series .block ⟨1⟩ 0], .ofCells #[sampleVarargs]]

/-- Sounds the alarm by giving up. -/
def giveUp : Writer := fun _ _ => throw .exhausted

theorem watched_sampleVarargs (bound : Nat) (sheet : Molder) :
    watched fresh giveUp bound [] sampleVarargs sheet sampleKnot = .error .exhausted := by
  induction bound generalizing sheet with
  | zero => rfl
  | succ bound ih =>
      have onward : watched fresh giveUp (bound + 1) [] sampleVarargs sheet sampleKnot =
          (watched fresh giveUp bound [] sampleVarargs (sheet.write "#[varargs! ") >>=
            fun done => pure (done.write "]")) sampleKnot := rfl
      rw [onward, Query.bind_run, ih]

/-- Writing a variadic argument that goes through itself does not end, and the JSON of a block that
holds itself has the block in it a second time, as text. -/
theorem writing_sampleKnot :
    (∀ bound, molded (watched fresh giveUp bound []) sampleVarargs sampleKnot =
      .error .exhausted) ∧
    Query.exchange (.series .block ⟨1⟩ 0) sampleKnot =
      .ok (.object [("type", .string "block!"), ("value", .array [
        .object [("type", .string "integer!"), ("value", .integer 1)],
        .object [("type", .string "block!"), ("value", .string "[1 [...]]")]])]) ∧
    molded (watched fresh giveUp (nesting sampleKnot) [⟨1⟩]) (.series .block ⟨1⟩ 0) sampleKnot =
      .error .exhausted := by
  refine ⟨fun bound => ?_, ?_, ?_⟩
  · rw [molded, Query.bind_run, watched_sampleVarargs]
  · rfl
  · rfl

end Mold

end Homoicon
