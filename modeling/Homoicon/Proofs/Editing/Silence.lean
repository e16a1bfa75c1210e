import Homoicon.Proofs.Running
import Homoicon.Series.Editing

/-!
# What raises no error

A question that is asked of values as they are, such as the text of a value, has an answer on every
machine that is intact.  It may find the machine broken, or reach a bound, but it raises no error
that a program could trap.
-/

namespace Homoicon

/-- A question that raises no error. -/
def Query.Silent {α : Type} (q : Query α) : Prop := ∀ ⦃m error⦄, q m ≠ .error (.error error)

namespace Query.Silent

variable {α β : Type} {q : Query α} {f : α → Query β}

theorem pure (a : α) : Silent (Pure.pure a : Query α) := fun _ _ => nofun

theorem read : Silent (MonadReader.read : Query Machine) := fun _ _ => nofun

theorem defect : Silent (Homoicon.defect : Query α) := by
  intro m error raised
  cases raised

theorem bind (first : Silent q) (later : ∀ a, Silent (f a)) : Silent (q >>= f) := by
  intro m error raised
  rw [bind_run] at raised
  cases answer : q m with
  | error fault =>
      rw [answer] at raised
      cases raised
      exact first answer
  | ok a =>
      rw [answer] at raised
      exact later a raised

theorem ite {p : Prop} [Decidable p] {q' : Query α} (first : Silent q) (second : Silent q') :
    Silent (if p then q else q') := by
  split
  · exact first
  · exact second

theorem mapM {f : α → Query β} (each : ∀ a, Silent (f a)) (items : List α) :
    Silent (items.mapM f) := by
  induction items with
  | nil => exact .pure []
  | cons a rest ih =>
      rw [List.mapM_cons]
      exact .bind (each a) fun _ => .bind ih fun _ => .pure _

theorem expect (a : Option α) : Silent (Homoicon.expect a : Query α) := by
  cases a with
  | none => exact .defect
  | some a => exact .pure a

/-! ## Reading series -/

theorem series (id : SeriesId) : Silent (Query.series id) := by
  intro m error raised
  unfold Query.series at raised
  split at raised <;> cases raised

theorem cells (id : SeriesId) : Silent (Query.cells id) := by
  refine .bind (.series id) fun s => ?_
  cases s.content with
  | array cells => exact .pure cells
  | text | binary => exact .defect

theorem text (id : SeriesId) : Silent (Query.text id) := by
  refine .bind (.series id) fun s => ?_
  cases s.content with
  | text buffer => exact .pure buffer
  | array | binary => exact .defect

theorem bytes (id : SeriesId) : Silent (Query.bytes id) := by
  refine .bind (.series id) fun s => ?_
  cases s.content with
  | binary bytes => exact .pure bytes
  | array | text => exact .defect

theorem size (id : SeriesId) : Silent (Query.size id) := .bind (.series id) fun _ => .pure _

theorem hasFlag (id : SeriesId) (flags : Flags) : Silent (Query.hasFlag id flags) :=
  .bind (.series id) fun _ => .pure _

theorem cell (id : SeriesId) (index : Nat) : Silent (Query.cell id index) :=
  .bind (.cells id) fun _ => .expect _

theorem cellsFrom (id : SeriesId) (index : Nat) : Silent (Query.cellsFrom id index) :=
  .bind (.cells id) fun _ => .pure _

theorem spelling (symbol : SymbolId) : Silent (Query.spelling symbol) := fun _ _ => nofun

theorem unquotify (c : Cell) (n : Nat) : Silent (Query.unquotify c n) := by
  refine .ite (.pure c) ?_
  dsimp only
  cases c.payload with
  | quoted pairing depth =>
      exact .ite (.ite (.pure _) (.bind (.cell pairing 0) fun _ => .pure _)) (.pure _)
  | _ => exact .pure _

theorem arrayOf (c : Cell) : Silent (Query.arrayOf c) := .expect _

/-! ## Contexts and actions -/

theorem keylist (context : SeriesId) : Silent (Query.keylist context) := by
  refine .bind (.series context) fun s => ?_
  cases s.link with
  | keylist id => exact .pure id
  | _ => exact .defect

theorem contextSize (context : SeriesId) : Silent (Query.contextSize context) :=
  .bind (.keylist context) fun _ => .bind (.size _) fun _ => .pure _

theorem key (context : SeriesId) (index : Nat) : Silent (Query.key context index) :=
  .bind (.keylist context) fun _ => .bind (.cell _ index) fun _ => .expect _

theorem paramWords (action : Action) : Silent (Query.paramWords action) := by
  have paramlist : Silent (Query.underlyingParamlist action) := by
    refine .bind (.series _) fun s => ?_
    cases s.link <;> exact .pure _
  have exemplar : Silent (Query.exemplar? action) := by
    refine .bind (.series _) fun s => ?_
    cases s.link <;> exact .pure _
  have fixed (exemplar : Option SeriesId) (i : Nat) : Silent (Query.isFixed exemplar i) := by
    cases exemplar with
    | none => exact .pure false
    | some id =>
        refine .bind (.cells id) fun cells => ?_
        cases cells[i]? <;> exact .pure _
  refine .bind paramlist fun paramlist => .bind exemplar fun exemplar =>
    .bind (.bind (.size paramlist) fun _ => .pure _) fun slots => ?_
  refine .bind (.mapM (fun i => ?_) slots) fun _ => .pure _
  refine .bind (fixed exemplar i) fun _ => .ite (.pure none)
    (.bind (.bind (.cell _ i) fun _ => .expect _) fun p => ?_)
  cases p.paramClass <;> exact .pure _

/-! ## The text of a value -/

section Molding

variable {write : Mold.Writer} (written : ∀ c m, Silent (write c m))

include written

theorem pathItems (items : List Cell) (first : Bool) (m : Molder) :
    Silent (Mold.pathItems write items first m) := by
  induction items generalizing first m with
  | nil => exact .pure m
  | cons c rest ih =>
      exact .ite (.bind (.pure _) fun _ => ih _ _) (.bind (written _ _) fun _ => ih _ _)

theorem blockItems (items : List Cell) (first broke : Bool) (m : Molder) :
    Silent (Mold.blockItems write items first broke m) := by
  induction items generalizing first broke m with
  | nil => exact .pure (m, broke)
  | cons c rest ih => exact .bind (written _ _) fun _ => ih _ _ _

theorem array (kind : Kind) (id : SeriesId) (index : Nat) (m : Molder) :
    Silent (Mold.array write kind id index m) := by
  refine .ite (.pure _) (.bind (.cells id) fun _ => .ite ?_ ?_)
  · exact .bind (pathItems written _ _ _) fun _ => .bind (.pure _) fun _ => .pure _
  · exact .bind (blockItems written _ _ _ _) fun _ => .pure _

theorem fields (kind : Kind) (varlist : SeriesId) (running : Bool) (slots : List Nat)
    (first : Bool) (m : Molder) : Silent (Mold.fields write kind varlist running slots first m) := by
  induction slots generalizing first m with
  | nil => exact .pure m
  | cons i rest ih =>
      refine .bind (.key varlist i) fun key => .bind (.cell varlist i) fun value =>
        .ite (ih _ _) ?_
      cases key.symbol with
      | none => exact .bind (.pure _) fun _ => .bind (written _ _) fun _ => ih _ _
      | some symbol =>
          exact .bind (.spelling symbol) fun _ => .bind (.pure _) fun _ =>
            .bind (written _ _) fun _ => ih _ _

theorem context (kind : Kind) (varlist : SeriesId) (phase : Option Action) (m : Molder) :
    Silent (Mold.context write kind varlist phase m) := by
  have live : Silent (Query.isLive varlist) := fun _ _ => nofun
  exact .bind live fun _ => .ite (.pure _) <| .bind (.hasFlag varlist _) fun _ =>
    .ite (.pure _) <| .ite (.pure _) <| .bind (.contextSize varlist) fun _ =>
      .bind (fields written _ _ _ _ _ _) fun _ => .pure _

theorem compound (c : Cell) (m : Molder) : Silent (Mold.compound write c m) := by
  unfold Mold.compound
  dsimp only
  cases c.payload with
  | pair id =>
      exact .ite (.bind (.cell id 0) fun _ => .bind (written _ _) fun _ =>
        .bind (.cell id 1) fun _ => written _ _) (.pure _)
  | word symbol _ => exact .ite (.bind (.spelling symbol) fun _ => .pure _) (.pure _)
  | series id index =>
      have content : Silent (Mold.stringContent id index) := by
        refine .bind (.series id) fun s => ?_
        cases s.content <;> exact .pure _
      exact .ite (array written _ _ _ _) <| .ite (.bind content fun _ => .pure _) <|
        .ite (.bind (.bytes id) fun _ => .pure _) <| .ite (.bind (.bytes id) fun _ => .pure _) <|
        .ite (array written _ _ _ _) (.pure _)
  | context varlist phase => exact .ite (context written _ _ _ _) (.pure _)
  | action a =>
      refine .ite (.bind (.paramWords a) fun words => ?_) (.pure _)
      exact .bind (.mapM (fun (symbol, _) => .bind (.spelling symbol) fun _ => .pure _) words)
        fun _ => .pure _
  | varargs source =>
      cases source with
      | frame => exact .pure _
      | array holder =>
          refine .ite (.bind (.cells holder) fun cells => ?_) (.pure _)
          cases cells[0]? with
          | none => exact .bind (.pure _) fun _ => .pure _
          | some block => exact .bind (written _ _) fun _ => .pure _
  | time _ | date _ => exact .ite .defect (.pure _)
  | _ => exact .pure _

theorem formList {nested : SeriesId → Nat → Molder → Query Molder}
    (inner : ∀ id index m, Silent (nested id index m)) (items : List Cell) (first : Bool)
    (m : Molder) : Silent (Mold.formList write nested items first m) := by
  induction items generalizing first m with
  | nil => exact .pure m
  | cons c rest ih =>
      unfold Mold.formList
      dsimp only
      cases c.seriesId? with
      | none => exact .bind (written _ _) fun _ => ih _ _
      | some id =>
          exact .ite (.bind (inner _ _ _) fun _ => ih _ _) (.bind (written _ _) fun _ => ih _ _)

theorem formItems (depth : Nat) (id : SeriesId) (index : Nat) (m : Molder) :
    Silent (Mold.formItems write depth id index m) := by
  induction depth generalizing id index m with
  | zero => exact .pure _
  | succ depth ih =>
      exact .bind (.cells id) fun _ => .bind (formList written ih _ _ _) fun _ => .pure _

end Molding

theorem moldCell (depth : Nat) (c : Cell) (m : Molder) : Silent (Mold.cell depth c m) := by
  induction depth generalizing c m with
  | zero => exact .pure _
  | succ depth ih =>
      refine .ite (.bind (.unquotify c _) fun _ => ih _ _) ?_
      cases Mold.scalarText? m.form c with
      | some text => exact .pure _
      | none => exact compound ih c m

/-- Writing a value raises no error, whatever it holds. -/
theorem mold (c : Cell) : Silent (Query.mold c) :=
  .bind .read fun _ => .bind (moldCell _ _ _) fun _ => .pure _

/-- Forming a value raises no error, whatever it holds. -/
theorem form (c : Cell) : Silent (Query.form c) := by
  refine .bind .read fun m => .ite (.pure _) (.ite ?_ (.bind (moldCell _ _ _) fun _ => .pure _))
  cases c.seriesId? with
  | none => exact .pure _
  | some id => exact .bind (formItems (moldCell _) _ _ _ _) fun _ => .pure _

/-- The text that a value puts into a text can be told without an error. -/
theorem insertionText (value : Cell) : Silent (Query.insertionText value) := by
  refine .ite ?_ (.form value)
  exact .bind (.arrayOf value) fun _ => .bind (.cellsFrom _ _) fun items =>
    .bind (.mapM form items) fun _ => .pure _

end Query.Silent

/-! ## Computations -/

/-- A computation that raises no error. -/
def Interp.Silent {α : Type} (x : Interp α) : Prop :=
  ∀ ⦃m error next⦄, x m ≠ .error (.error error) next

namespace Interp.Silent

variable {α β : Type} {x : Interp α} {f : α → Interp β}

theorem pure (a : α) : Silent (Pure.pure a : Interp α) := fun _ _ _ => nofun

theorem defect : Silent (Homoicon.defect : Interp α) := by
  intro m error next raised
  cases raised

theorem bind (first : Silent x) (later : ∀ a, Silent (f a)) : Silent (x >>= f) := by
  intro m error next raised
  rw [bind_run] at raised
  cases ran : x m with
  | error fault last =>
      rw [ran] at raised
      cases raised
      exact first ran
  | ok a last =>
      rw [ran] at raised
      exact later a raised

theorem ite {p : Prop} [Decidable p] {y : Interp α} (first : Silent x) (second : Silent y) :
    Silent (if p then x else y) := by
  split
  · exact first
  · exact second

theorem mapM {f : α → Interp β} (each : ∀ a, Silent (f a)) (items : List α) :
    Silent (items.mapM f) := by
  induction items with
  | nil => exact .pure []
  | cons a rest ih =>
      rw [List.mapM_cons]
      exact .bind (each a) fun _ => .bind ih fun _ => .pure _

/-- Asking a question that raises no error raises none. -/
theorem ask {q : Query α} (silent : q.Silent) : Silent q.ask := by
  intro m error next raised
  rw [ask_run] at raised
  cases answer : q m with
  | ok a => simp [answer] at raised
  | error fault =>
      rw [answer] at raised
      cases raised
      exact silent answer

end Interp.Silent

end Homoicon
