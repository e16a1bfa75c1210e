import Homoicon.Mold
import Homoicon.Proofs.Collection.Freeing
import Homoicon.Proofs.Running

/-!
# Values are written the same after a collection

What is written of a value depends only on the series that it refers to, directly or through
others.  All of those outlive a collection if the value is held by a root.
-/

namespace Homoicon

/-- Two machines that are alike in a set of series, which is closed under references. -/
structure Machine.Agree (kept : SeriesId → Prop) (m m' : Machine) : Prop where
  symbols : m'.symbols = m.symbols
  size : m'.heap.slots.size = m.heap.slots.size
  get? : ∀ id, kept id → m'.heap.get? id = m.heap.get? id
  closed : ∀ id, kept id → ∀ s, m.heap.get? id = some s → ∀ next ∈ s.references, kept next

/-- All series that a cell refers to belong to a set. -/
def Cell.Within (kept : SeriesId → Prop) (c : Cell) : Prop := ∀ id ∈ c.references, kept id

theorem Cell.Within.series {kept : SeriesId → Prop} {c : Cell} (within : c.Within kept)
    {id : SeriesId} (found : c.seriesId? = some id) : kept id := by
  refine within id (List.mem_append_left _ ?_)
  unfold Cell.seriesId? at found
  split at found
  · rename_i payload
    cases found
    simp [payload, Payload.nodes]
  · cases found

/-- A question that two machines answer alike, with what is known of the answer. -/
structure Query.Alike (m m' : Machine) {α : Type} (q : Query α) (post : α → Prop) : Prop where
  same : q m' = q m
  answer : ∀ a, q m = .ok a → post a

namespace Query.Alike

variable {m m' : Machine} {α β : Type} {q : Query α} {post : α → Prop}

theorem pure {a : α} (holds : post a) : Alike m m' (Pure.pure a) post where
  same := rfl
  answer b returned := by
    cases returned
    exact holds

theorem throw {fault : Fault} : Alike m m' (MonadExcept.throw fault : Query α) post where
  same := rfl
  answer _ returned := nomatch returned

theorem bind {f : α → Query β} {after : β → Prop} (first : Alike m m' q post)
    (second : ∀ a, post a → Alike m m' (f a) after) : Alike m m' (q >>= f) after := by
  have unfolded (n : Machine) : (q >>= f) n = q n >>= fun a => f a n := rfl
  constructor
  · rw [unfolded, unfolded, first.same]
    cases answered : q m with
    | error fault => rfl
    | ok a => exact (second a (first.answer a answered)).same
  · intro b returned
    rw [unfolded] at returned
    cases answered : q m with
    | error fault =>
        rw [answered] at returned
        cases returned
    | ok a =>
        rw [answered] at returned
        exact (second a (first.answer a answered)).answer b returned

theorem weaken {other : α → Prop} (alike : Alike m m' q post) (entails : ∀ a, post a → other a) :
    Alike m m' q other :=
  ⟨alike.same, fun a returned => entails a (alike.answer a returned)⟩

theorem expect {found : Option α} (holds : ∀ a, found = some a → post a) :
    Alike m m' (Homoicon.expect found : Query α) post := by
  cases found with
  | none => exact throw
  | some a => exact pure (holds a rfl)

theorem mapM {f : α → Query β} {as : List α}
    (each : ∀ a ∈ as, Alike m m' (f a) fun _ => True) :
    Alike m m' (as.mapM f) fun _ => True := by
  induction as with
  | nil =>
      rw [List.mapM_nil]
      exact pure trivial
  | cons a as ih =>
      rw [List.mapM_cons]
      refine bind (each a List.mem_cons_self) fun _ _ => ?_
      refine bind (ih fun a member => each a (List.mem_cons_of_mem _ member)) fun _ _ => ?_
      exact pure trivial

end Query.Alike

section

open Query

variable {kept : SeriesId → Prop} {m m' : Machine}

namespace Machine.Agree

/-! ## What series hold -/

theorem series (agree : Agree kept m m') {id : SeriesId} (inside : kept id) :
    Alike m m' (Query.series id) fun s => ∀ next ∈ s.references, kept next where
  same := by simp only [Query.series, agree.get? id inside]
  answer s returned := by
    unfold Query.series at returned
    split at returned
    · rename_i found
      cases returned
      exact agree.closed id inside _ found
    · cases returned

theorem isLive (agree : Agree kept m m') {id : SeriesId} (inside : kept id) :
    Alike m m' (Query.isLive id) fun _ => True where
  same := by simp only [Query.isLive, Heap.isLive, agree.get? id inside]
  answer _ _ := trivial

theorem spelling (agree : Agree kept m m') (symbol : SymbolId) :
    Alike m m' (Query.spelling symbol) fun _ => True where
  same := by simp only [Query.spelling, agree.symbols]
  answer _ _ := trivial

theorem within_of_references {s : Series} {cells : Array Cell} (content : s.content = .array cells)
    (inside : ∀ next ∈ s.references, kept next) {c : Cell} (member : c ∈ cells) :
    c.Within kept := by
  intro id reference
  refine inside id (List.mem_append_right _ ?_)
  rw [content]
  exact List.mem_flatMap.mpr ⟨c, Array.mem_toList_iff.mpr member, reference⟩

theorem cells (agree : Agree kept m m') {id : SeriesId} (inside : kept id) :
    Alike m m' (Query.cells id) fun cells => ∀ c ∈ cells, c.Within kept := by
  refine (agree.series inside).bind fun s references => ?_
  split
  · rename_i cells content
    exact .pure fun c => within_of_references content references
  · exact .throw

theorem cell (agree : Agree kept m m') {id : SeriesId} (inside : kept id) (index : Nat) :
    Alike m m' (Query.cell id index) (Cell.Within kept) := by
  refine (agree.cells inside).bind fun cells within => ?_
  exact .expect fun c found => within c (Array.mem_of_getElem? found)

theorem bytes (agree : Agree kept m m') {id : SeriesId} (inside : kept id) :
    Alike m m' (Query.bytes id) fun _ => True := by
  refine (agree.series inside).bind fun s _ => ?_
  split
  · exact .pure trivial
  · exact .throw

theorem querySize (agree : Agree kept m m') {id : SeriesId} (inside : kept id) :
    Alike m m' (Query.size id) fun _ => True :=
  (agree.series inside).bind fun _ _ => .pure trivial

theorem hasFlag (agree : Agree kept m m') {id : SeriesId} (inside : kept id) (flags : Flags) :
    Alike m m' (Query.hasFlag id flags) fun _ => True :=
  (agree.series inside).bind fun _ _ => .pure trivial

/-! ## Contexts and actions -/

theorem keylist (agree : Agree kept m m') {id : SeriesId} (inside : kept id) :
    Alike m m' (Query.keylist id) kept := by
  refine (agree.series inside).bind fun s references => ?_
  split
  · rename_i keys link
    exact .pure (references keys (List.mem_append_left _ (by simp [link])))
  · exact .throw

theorem contextSize (agree : Agree kept m m') {id : SeriesId} (inside : kept id) :
    Alike m m' (Query.contextSize id) fun _ => True :=
  (agree.keylist inside).bind fun _ keys => (agree.querySize keys).bind fun _ _ => .pure trivial

theorem key (agree : Agree kept m m') {id : SeriesId} (inside : kept id) (index : Nat) :
    Alike m m' (Query.key id index) fun _ => True :=
  (agree.keylist inside).bind fun _ keys =>
    (agree.cell keys index).bind fun _ _ => .expect fun _ _ => trivial

theorem underlyingParamlist (agree : Agree kept m m') {action : Action}
    (inside : kept action.paramlist) : Alike m m' (Query.underlyingParamlist action) kept := by
  refine (agree.series inside).bind fun s references => ?_
  split
  · rename_i keys link
    exact .pure (references keys (List.mem_append_left _ (by simp [link])))
  · exact .pure inside

theorem exemplar? (agree : Agree kept m m') {action : Action} (inside : kept action.details) :
    Alike m m' (Query.exemplar? action) fun found => ∀ id ∈ found, kept id := by
  refine (agree.series inside).bind fun s references => ?_
  split
  · rename_i fixed link
    refine .pure fun id member => ?_
    cases member
    exact references fixed (List.mem_append_left _ (by simp [link]))
  · exact .pure (by simp)

theorem isFixed (agree : Agree kept m m') {exemplar : Option SeriesId}
    (inside : ∀ id ∈ exemplar, kept id) (index : Nat) :
    Alike m m' (Query.isFixed exemplar index) fun _ => True := by
  cases exemplar with
  | none => exact .pure trivial
  | some id =>
      refine (agree.cells (inside id rfl)).bind fun cells _ => ?_
      split <;> exact .pure trivial

theorem paramWords (agree : Agree kept m m') {action : Action} (params : kept action.paramlist)
    (details : kept action.details) :
    Alike m m' (Query.paramWords action) fun _ => True := by
  refine (agree.underlyingParamlist params).bind fun paramlist inside => ?_
  refine (agree.exemplar? details).bind fun exemplar fixed => ?_
  refine ((agree.querySize inside).bind fun _ _ => .pure trivial :
    Alike m m' (Query.slotsOf paramlist) fun _ => True).bind fun slots _ => ?_
  refine Query.Alike.bind (.mapM fun slot _ => ?_) fun _ _ => .pure trivial
  refine (agree.isFixed fixed slot).bind fun given _ => ?_
  split
  · exact .pure trivial
  · refine ((agree.cell inside slot).bind fun _ _ => .expect fun _ _ => trivial :
      Alike m m' (Query.param paramlist slot) fun _ => True).bind fun p _ => ?_
    split <;> exact .pure trivial

/-! ## Quoting -/

theorem unquotify (agree : Agree kept m m') {c : Cell} (within : c.Within kept) (n : Nat) :
    Alike m m' (Query.unquotify c n) (Cell.Within kept) := by
  unfold Query.unquotify
  split
  · exact .pure within
  · dsimp only
    split
    · rename_i pairing depth payload
      have held : kept pairing := within pairing (by simp [Cell.references, payload, Payload.nodes])
      split
      · split
        · refine .pure fun id reference => within id ?_
          simpa [Cell.references, payload, Payload.nodes] using reference
        · exact (agree.cell held 0).bind fun inner inside => .pure inside
      · exact .pure within
    · exact .pure within

/-! ## Writing -/

/-- A way to write values that is the same for both machines. -/
def Writes (kept : SeriesId → Prop) (m m' : Machine) (write : Mold.Writer) : Prop :=
  ∀ c, c.Within kept → ∀ sheet, Alike m m' (write c sheet) fun _ => True

theorem pathItems {write : Mold.Writer} (writes : Writes kept m m' write) {items : List Cell}
    (within : ∀ c ∈ items, c.Within kept) (first : Bool) (sheet : Molder) :
    Alike m m' (Mold.pathItems write items first sheet) fun _ => True := by
  induction items generalizing first sheet with
  | nil => exact .pure trivial
  | cons c rest ih =>
      have onward := ih fun c member => within c (List.mem_cons_of_mem _ member)
      unfold Mold.pathItems
      dsimp only
      generalize (if first then sheet else sheet.write "/") = sheet
      split
      · exact onward _ _
      · exact (writes c (within c List.mem_cons_self) _).bind fun _ _ => onward _ _

theorem blockItems {write : Mold.Writer} (writes : Writes kept m m' write) {items : List Cell}
    (within : ∀ c ∈ items, c.Within kept) (first broke : Bool) (sheet : Molder) :
    Alike m m' (Mold.blockItems write items first broke sheet) fun _ => True := by
  induction items generalizing first broke sheet with
  | nil => exact .pure trivial
  | cons c rest ih =>
      have onward := ih fun c member => within c (List.mem_cons_of_mem _ member)
      exact (writes c (within c List.mem_cons_self) _).bind fun _ _ => onward _ _ _

theorem array (agree : Agree kept m m') {write : Mold.Writer} (writes : Writes kept m m' write)
    (kind : Kind) {id : SeriesId} (inside : kept id) (index : Nat) (sheet : Molder) :
    Alike m m' (Mold.array write kind id index sheet) fun _ => True := by
  unfold Mold.array
  dsimp only
  split
  all_goals
    split
    · exact .pure trivial
    · refine (agree.cells inside).bind fun cells within => ?_
      have items : ∀ c ∈ cells.toList.drop index, c.Within kept := fun c member =>
        within c (Array.mem_toList_iff.mp (List.mem_of_mem_drop member))
      split
      · exact (pathItems writes items _ _).bind fun _ _ => .pure trivial
      · exact (blockItems writes items _ _ _).bind fun _ _ => .pure trivial

theorem fields (agree : Agree kept m m') {write : Mold.Writer} (writes : Writes kept m m' write)
    (kind : Kind) {varlist : SeriesId} (inside : kept varlist) (running : Bool) (slots : List Nat)
    (first : Bool) (sheet : Molder) :
    Alike m m' (Mold.fields write kind varlist running slots first sheet) fun _ => True := by
  induction slots generalizing first sheet with
  | nil => exact .pure trivial
  | cons slot rest ih =>
      refine (agree.key inside slot).bind fun key _ => ?_
      refine (agree.cell inside slot).bind fun value within => ?_
      dsimp only
      split
      · exact ih _ _
      · split
        · exact (agree.spelling _).bind fun _ _ => (writes value within _).bind fun _ _ => ih _ _
        · exact (writes value within _).bind fun _ _ => ih _ _

theorem context (agree : Agree kept m m') {write : Mold.Writer} (writes : Writes kept m m' write)
    (kind : Kind) {varlist : SeriesId} (inside : kept varlist) (phase : Option Action)
    (sheet : Molder) : Alike m m' (Mold.context write kind varlist phase sheet) fun _ => True := by
  refine (agree.isLive inside).bind fun live _ => ?_
  split
  · exact .pure trivial
  · refine (agree.hasFlag inside _).bind fun ended _ => ?_
    split
    · exact .pure trivial
    · split
      · exact .pure trivial
      · refine (agree.contextSize inside).bind fun count _ => ?_
        exact (agree.fields writes kind inside _ _ _ _).bind fun _ _ => .pure trivial

theorem stringContent (agree : Agree kept m m') {id : SeriesId} (inside : kept id) (index : Nat) :
    Alike m m' (Mold.stringContent id index) fun _ => True := by
  refine (agree.series inside).bind fun s _ => ?_
  split <;> exact .pure trivial

theorem compound (agree : Agree kept m m') {write : Mold.Writer} (writes : Writes kept m m' write)
    {c : Cell} (within : c.Within kept) (sheet : Molder) :
    Alike m m' (Mold.compound write c sheet) fun _ => True := by
  have refers {id : SeriesId} (node : id ∈ c.payload.nodes) : kept id :=
    within id (List.mem_append_left _ node)
  unfold Mold.compound
  cases payload : c.payload with
  | pair id =>
      dsimp only
      have inside : kept id := refers (by simp [payload, Payload.nodes])
      split
      · refine (agree.cell inside 0).bind fun x first => ?_
        refine (writes x first _).bind fun _ _ => ?_
        exact (agree.cell inside 1).bind fun y second => writes y second _
      · exact .pure trivial
  | word symbol index =>
      dsimp only
      split
      · exact (agree.spelling symbol).bind fun _ _ => .pure trivial
      · exact .pure trivial
  | series id index =>
      dsimp only
      have inside : kept id := refers (by simp [payload, Payload.nodes])
      split
      · exact agree.array writes _ inside _ _
      split
      · exact (agree.stringContent inside index).bind fun _ _ => .pure trivial
      split
      · exact (agree.bytes inside).bind fun _ _ => .pure trivial
      split
      · exact (agree.bytes inside).bind fun _ _ => .pure trivial
      split
      · exact agree.array writes _ inside _ _
      · exact .pure trivial
  | context varlist phase =>
      dsimp only
      have inside : kept varlist := refers (by simp [payload, Payload.nodes])
      split
      · exact agree.context writes _ inside _ _
      · exact .pure trivial
  | action a =>
      dsimp only
      have params : kept a.paramlist := refers (by simp [payload, Payload.nodes])
      have details : kept a.details := refers (by simp [payload, Payload.nodes])
      split
      · refine (agree.paramWords params details).bind fun words _ => ?_
        refine Query.Alike.bind (.mapM fun word _ => ?_) fun _ _ => .pure trivial
        exact (agree.spelling _).bind fun _ _ => .pure trivial
      · exact .pure trivial
  | varargs source =>
      cases source with
      | frame varlist param => exact .pure trivial
      | array holder paramlist param =>
          have inside : kept holder := refers (by simp [payload, Payload.nodes])
          dsimp only
          split
          · refine (agree.cells inside).bind fun cells within => ?_
            split
            · rename_i block found
              exact (writes block (within block (Array.mem_of_getElem? found)) _).bind
                fun _ _ => .pure trivial
            · exact .pure trivial
          · exact .pure trivial
  | time n | date d =>
      dsimp only
      split
      · exact .throw
      · exact .pure trivial
  | _ => exact .pure trivial

theorem writes_cell (agree : Agree kept m m') (depth : Nat) :
    Writes kept m m' (Mold.cell depth) := by
  induction depth with
  | zero => exact fun _ _ _ => .pure trivial
  | succ depth ih =>
      intro c within sheet
      unfold Mold.cell
      dsimp only
      split
      · exact (agree.unquotify within _).bind fun inner inside => ih inner inside _
      · split
        · exact .pure trivial
        · exact agree.compound ih within sheet

theorem formList {write : Mold.Writer} (writes : Writes kept m m' write)
    {nested : SeriesId → Nat → Molder → Query Molder}
    (nests : ∀ id, kept id → ∀ index sheet, Alike m m' (nested id index sheet) fun _ => True)
    {items : List Cell} (within : ∀ c ∈ items, c.Within kept) (first : Bool) (sheet : Molder) :
    Alike m m' (Mold.formList write nested items first sheet) fun _ => True := by
  induction items generalizing first sheet with
  | nil => exact .pure trivial
  | cons c rest ih =>
      have onward := ih fun c member => within c (List.mem_cons_of_mem _ member)
      have here := within c List.mem_cons_self
      unfold Mold.formList
      dsimp only
      generalize (if first then sheet else sheet.write " ") = sheet
      split
      · rename_i inner found
        have inside : kept inner := here.series found
        split
        · exact (nests inner inside _ _).bind fun _ _ => onward _ _
        · exact (writes c here _).bind fun _ _ => onward _ _
      · exact (writes c here _).bind fun _ _ => onward _ _

theorem formItems (agree : Agree kept m m') {write : Mold.Writer}
    (writes : Writes kept m m' write) (depth : Nat) {id : SeriesId} (inside : kept id)
    (index : Nat) (sheet : Molder) :
    Alike m m' (Mold.formItems write depth id index sheet) fun _ => True := by
  induction depth generalizing id index sheet with
  | zero => exact .pure trivial
  | succ depth ih =>
      refine (agree.cells inside).bind fun cells within => ?_
      have items : ∀ c ∈ cells.toList.drop index, c.Within kept := fun c member =>
        within c (Array.mem_toList_iff.mp (List.mem_of_mem_drop member))
      exact (formList writes (fun _ held index sheet => ih held index sheet) items _ _).bind
        fun _ _ => .pure trivial

/-- Both machines write a value of the set alike as source code. -/
theorem mold (agree : Agree kept m m') {c : Cell} (within : c.Within kept) :
    Query.mold c m' = Query.mold c m := by
  have nesting : Mold.nesting m' = Mold.nesting m := by simp only [Mold.nesting, agree.size]
  have written (n : Machine) : Query.mold c n =
      ((Mold.cell (Mold.nesting n) c {} : Query Molder) n >>= fun sheet => .ok sheet.out) := rfl
  rw [written, written, nesting, (agree.writes_cell _ c within _).same]

/-- Both machines write a value of the set alike for people. -/
theorem form (agree : Agree kept m m') {c : Cell} (within : c.Within kept) :
    Query.form c m' = Query.form c m := by
  have nesting : Mold.nesting m' = Mold.nesting m := by simp only [Mold.nesting, agree.size]
  unfold Query.form
  rw [Query.bind_ok (Query.read_run m'), Query.bind_ok (Query.read_run m), nesting]
  suffices alike : Alike m m' _ fun _ => True from alike.same
  split
  · exact .pure trivial
  split
  · split
    · rename_i id found
      have inside : kept id := within.series found
      exact (agree.formItems (agree.writes_cell _) _ inside _ _).bind fun _ _ => .pure trivial
    · exact .pure trivial
  · exact (agree.writes_cell _ c within _).bind fun _ _ => .pure trivial

end Machine.Agree

end

/-! ## The values a machine holds -/

namespace Machine

/-- A cell that a machine works with: it stands in a frame, a feed, on a stack, in the throw in
progress, or in an array that is reached from one of those. -/
inductive Holds (m : Machine) : Cell → Prop where
  | out {f : Frame} : f ∈ m.frames → Holds m f.out
  | spare {f : Frame} : f ∈ m.frames → Holds m f.spare
  | next {f : Feed} : f ∈ m.feeds → Holds m f.value
  | stacked {c : Cell} : c ∈ m.stack → Holds m c
  | guarded {c : Cell} : c ∈ m.guards → Holds m c
  | handled {h : HostHandle} : some h ∈ m.handles → Holds m h.cell
  | label {t : Thrown} : m.thrown = some t → Holds m t.label
  | value {t : Thrown} : m.thrown = some t → Holds m t.value
  | inside {id : SeriesId} {s : Series} {cells : Array Cell} {c : Cell} : m.Rooted id →
      m.heap.get? id = some s → s.content = .array cells → c ∈ cells → Holds m c

theorem Rooted.next {m : Machine} {id next : SeriesId} {s : Series} (rooted : m.Rooted id)
    (found : m.heap.get? id = some s) (reference : next ∈ s.references) : m.Rooted next := by
  obtain ⟨root, isRoot, reaches⟩ := rooted
  exact ⟨root, isRoot, reaches.trans (.onward found reference (.here next))⟩

section

variable {m : Machine} {id : SeriesId}

theorem Rooted.of_mem (member : id ∈ m.roots) : m.Rooted id := ⟨id, member, .here id⟩

theorem Rooted.of_frame {f : Frame} (member : f ∈ m.frames) (reference : id ∈ f.references) :
    m.Rooted id := by
  have member := Array.mem_toList_iff.mpr member
  have listed := List.mem_flatMap.mpr ⟨f, member, reference⟩
  exact .of_mem (by simp only [roots, List.mem_append, listed, true_or, or_true])

theorem Rooted.of_feed {f : Feed} (member : f ∈ m.feeds) (reference : id ∈ f.references) :
    m.Rooted id := by
  have member := Array.mem_toList_iff.mpr member
  have listed := List.mem_flatMap.mpr ⟨f, member, reference⟩
  exact .of_mem (by simp only [roots, List.mem_append, listed, true_or, or_true])

theorem Rooted.of_stack {c : Cell} (member : c ∈ m.stack) (reference : id ∈ c.references) :
    m.Rooted id := by
  have member := Array.mem_toList_iff.mpr member
  have listed := List.mem_flatMap.mpr ⟨c, member, reference⟩
  exact .of_mem (by simp only [roots, List.mem_append, listed, true_or, or_true])

theorem Rooted.of_guard {c : Cell} (member : c ∈ m.guards) (reference : id ∈ c.references) :
    m.Rooted id := by
  have member := Array.mem_toList_iff.mpr member
  have listed := List.mem_flatMap.mpr ⟨c, member, reference⟩
  exact .of_mem (by simp only [roots, List.mem_append, listed, or_true, true_or])

theorem Rooted.of_handle {h : HostHandle} (member : some h ∈ m.handles)
    (reference : id ∈ h.cell.references) : m.Rooted id := by
  have member := Array.mem_toList_iff.mpr member
  have listed : id ∈ m.handles.toList.flatMap
      fun handle => handle.toList.flatMap (·.cell.references) :=
    List.mem_flatMap.mpr
      ⟨some h, member, List.mem_flatMap.mpr ⟨h, List.mem_singleton.mpr rfl, reference⟩⟩
  exact .of_mem (by simp only [roots, List.mem_append, listed, or_true, true_or])

theorem Rooted.of_thrown {t : Thrown} (thrown : m.thrown = some t)
    (reference : id ∈ t.label.references ++ t.value.references) : m.Rooted id := by
  refine .of_mem (List.mem_append_right _ ?_)
  rw [thrown]
  exact List.mem_flatMap.mpr ⟨t, List.mem_singleton.mpr rfl, reference⟩

/-- What a machine holds refers to what its roots reach. -/
theorem Holds.within {c : Cell} (holds : m.Holds c) : c.Within m.Rooted := by
  intro id reference
  cases holds with
  | out member => exact .of_frame member (by simp [Frame.references, reference])
  | spare member => exact .of_frame member (by simp [Frame.references, reference])
  | next member => exact .of_feed member (by simp [Feed.references, reference])
  | stacked member => exact .of_stack member reference
  | guarded member => exact .of_guard member reference
  | handled member => exact .of_handle member reference
  | label thrown => exact .of_thrown thrown (List.mem_append_left _ reference)
  | value thrown => exact .of_thrown thrown (List.mem_append_right _ reference)
  | inside rooted found content member =>
      exact Agree.within_of_references content (fun _ => rooted.next found) member id reference

end

/-- A collection changes nothing in what the roots reach. -/
theorem agree_recycle {m : Machine} (unmarked : m.heap.Unmarked) :
    Agree m.Rooted m m.recycle where
  symbols := symbols_recycle m
  size := size_recycle m
  get? id rooted := by
    by_cases unlocked : m.collectorLocks = 0
    · rw [get?_recycle unmarked unlocked, if_pos rooted]
    · rw [recycle, if_pos (Nat.pos_of_ne_zero unlocked)]
  closed _ rooted _ found _ := rooted.next found

theorem unmarked_recycle {m : Machine} (unmarked : m.heap.Unmarked) :
    m.recycle.heap.Unmarked := by
  intro id s found
  by_cases unlocked : m.collectorLocks = 0
  · rw [get?_recycle unmarked unlocked] at found
    split at found
    · exact unmarked id s found
    · exact unmarked id s (Option.eq_some_of_filter_eq_some found)
  · rw [recycle, if_pos (Nat.pos_of_ne_zero unlocked)] at found
    exact unmarked id s found

open Classical in
/-- A collection is not seen: it leaves all values that the machine holds as they were, and what
it frees is what the roots do not reach. -/
theorem recycle_unseen {m : Machine} (unmarked : m.heap.Unmarked) :
    (∀ c, m.Holds c → Query.mold c m.recycle = Query.mold c m ∧
      Query.form c m.recycle = Query.form c m) ∧
    (∀ id, m.Rooted id → m.recycle.heap.get? id = m.heap.get? id) ∧
    (∀ id, ¬ m.Rooted id → m.collectorLocks = 0 →
      m.recycle.heap.get? id = (m.heap.get? id).filter fun s => !s.has Flags.managed) ∧
    m.recycle.heap.Unmarked := by
  have agree := agree_recycle unmarked
  refine ⟨fun c holds => ⟨agree.mold holds.within, agree.form holds.within⟩, agree.get?, ?_,
    unmarked_recycle unmarked⟩
  intro id stray unlocked
  rw [get?_recycle unmarked unlocked, if_neg stray]

/-- A machine that guards a block with a text in it, and has another text that nothing refers
to. -/
def sampleShelf : Machine :=
  let text := Cell.series .text ⟨0⟩ 0
  let heap := ((Heap.empty 100).alloc (Series.ofText "kept").managed).2
  let heap := (heap.alloc (Series.ofCells #[text]).managed).2
  let heap := (heap.alloc (Series.ofText "stray").managed).2
  { config := {}, heap, guards := #[Cell.series .block ⟨1⟩ 0], countdown := 1 }

theorem unmarked_sampleShelf : sampleShelf.heap.Unmarked :=
  ((Heap.Unmarked.empty 100).alloc rfl |>.alloc rfl).alloc rfl

theorem recycle_unseen_sampleShelf :
    sampleShelf.heap.Unmarked ∧ sampleShelf.Holds (Cell.series .block ⟨1⟩ 0) ∧
      Query.mold (Cell.series .block ⟨1⟩ 0) sampleShelf.recycle =
        Query.mold (Cell.series .block ⟨1⟩ 0) sampleShelf := by
  have holds : sampleShelf.Holds (Cell.series .block ⟨1⟩ 0) := .guarded (by simp [sampleShelf])
  exact ⟨unmarked_sampleShelf, holds, ((recycle_unseen unmarked_sampleShelf).1 _ holds).1⟩

end Machine

/-! ## Looking words up -/

section

open Query

namespace Machine.Agree

variable {kept : SeriesId → Prop} {m m' : Machine}

theorem findKey? (agree : Agree kept m m') {id : SeriesId} (inside : kept id) (symbol : SymbolId) :
    Alike m m' (Query.findKey? id symbol) fun _ => True := by
  refine (agree.keylist inside).bind fun keys within => ?_
  refine (agree.cells within).bind fun names _ => ?_
  exact { same := by simp only [bind_run, Query.read_run, agree.symbols, pure_run]
          answer := fun _ _ => trivial }

theorem checkAccessible (agree : Agree kept m m') {id : SeriesId} (inside : kept id) :
    Alike m m' (Query.checkAccessible id) fun _ => True := by
  refine (agree.isLive inside).bind fun live _ => ?_
  cases live with
  | false => exact .throw
  | true =>
      refine (agree.hasFlag inside _).bind fun inaccessible _ => ?_
      split
      · exact .throw
      · exact .pure trivial

/-- The variable a word refers to is found in a series that is reached. -/
theorem resolveWord (agree : Agree kept m m') {word : Cell} {specifier : Specifier}
    (within : word.Within kept) (inside : ∀ id ∈ specifier, kept id) :
    Alike m m' (Query.resolveWord word specifier) fun r => kept r.context := by
  refine (Alike.expect fun _ _ => trivial).bind fun symbol (_ : True) => ?_
  have unbound : Alike m m' (do fail (.notBound (← Query.spelling symbol)) : Query SeriesId) kept :=
    (agree.spelling symbol).bind fun _ _ => .throw
  have reached (context : SeriesId) (here : kept context) : Alike m m' (do
      Query.checkAccessible context
      if word.wordIndex == 0 || (← Query.size context) ≤ word.wordIndex then
        let _ ← (do fail (.notBound (← Query.spelling symbol)) : Query SeriesId)
      pure ⟨context, word.wordIndex⟩) fun r : VarRef => kept r.context := by
    refine (agree.checkAccessible here).bind fun _ _ => ?_
    refine (agree.querySize here).bind fun size _ => ?_
    split
    · exact unbound.bind fun _ _ => .pure here
    · exact .pure here
  split
  · exact unbound.bind reached
  · rename_i context bound
    exact reached context (within context (by simp [Cell.references, bound]))
  · cases specifier with
    | none => exact unbound.bind reached
    | some varlist =>
        have here : kept varlist := inside varlist rfl
        refine (agree.keylist here).bind fun keys _ => ?_
        split
        · exact reached varlist here
        · refine (agree.findKey? here symbol).bind fun found _ => ?_
          split
          · exact reached varlist here
          · exact unbound.bind reached

theorem getVar (agree : Agree kept m m') {word : Cell} {specifier : Specifier}
    (within : word.Within kept) (inside : ∀ id ∈ specifier, kept id) :
    Alike m m' (Query.getVar word specifier) (Cell.Within kept) :=
  (agree.resolveWord within inside).bind fun r here => agree.cell here r.index

end Machine.Agree

end

end Homoicon
