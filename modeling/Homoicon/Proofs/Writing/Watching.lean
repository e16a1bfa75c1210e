import Homoicon.Mold
import Homoicon.Proofs.Running

/-!
# Writing under watch

A writer can be watched from outside: told which series it is in the middle of, it sounds an alarm
where a guard is broken, and where its bound is used up.  Two writers that write the parts of a
value alike write the value alike, so a watched writer whose guard holds is the plain one.
-/

namespace Homoicon

/-- Two questions that a machine answers alike, with what is known of the answer. -/
structure Query.Same (m : Machine) {α : Type} (q q' : Query α) (post : α → Prop) : Prop where
  same : q m = q' m
  answer : ∀ a, q m = .ok a → post a

namespace Query.Same

variable {m : Machine} {α β : Type} {post : α → Prop} {after : β → Prop}

theorem pure {a : α} (holds : post a) : Same m (Pure.pure a) (Pure.pure a) post where
  same := rfl
  answer b returned := by
    cases returned
    exact holds

theorem bind {q q' : Query α} {f f' : α → Query β} (first : Same m q q' post)
    (second : ∀ a, post a → Same m (f a) (f' a) after) : Same m (q >>= f) (q' >>= f') after := by
  have unfolded (q : Query α) (f : α → Query β) : (q >>= f) m = q m >>= fun a => f a m := rfl
  constructor
  · rw [unfolded, unfolded, ← first.same]
    cases answered : q m with
    | error fault => rfl
    | ok a => exact (second a (first.answer a answered)).same
  · intro b returned
    obtain ⟨a, answered, given⟩ := Query.bind_eq_ok.mp returned
    exact (second a (first.answer a answered)).answer b given

/-- The same question is asked first. -/
theorem ask {q : Query α} {f f' : α → Query β}
    (second : ∀ a, q m = .ok a → Same m (f a) (f' a) after) :
    Same m (q >>= f) (q >>= f') after :=
  bind ⟨rfl, fun _ answered => answered⟩ second

theorem defect : Same m (Homoicon.defect : Query α) Homoicon.defect post := ⟨rfl, fun _ => nofun⟩

theorem refl (q : Query α) : Same m q q fun _ => True := ⟨rfl, fun _ _ => trivial⟩

theorem mapM {f f' : α → Query β} {as : List α}
    (each : ∀ a ∈ as, Same m (f a) (f' a) fun _ => True) :
    Same m (as.mapM f) (as.mapM f') fun _ => True := by
  induction as with
  | nil => exact refl _
  | cons a as ih =>
      rw [List.mapM_cons, List.mapM_cons]
      refine (each a List.mem_cons_self).bind fun _ _ => ?_
      exact (ih fun a member => each a (List.mem_cons_of_mem _ member)).bind fun _ _ => refl _

theorem map {q q' : Query α} (f : α → β) (same : Same m q q' fun _ => True) :
    Same m (f <$> q) (f <$> q') fun _ => True := by
  rw [map_eq_pure_bind, map_eq_pure_bind]
  exact same.bind fun _ _ => refl _

end Query.Same

namespace Mold

open Query

/-! ## One step of writing -/

/-- Writes a value; `write` writes its parts. -/
def step (write : Writer) (c : Cell) (sheet : Molder) : Query Molder := do
  let quotes := c.quoteDepth
  if 0 < quotes then
    let inner ← Query.unquotify c quotes
    write inner (sheet.write (String.ofList (List.replicate quotes '\'')))
  else
    match scalarText? sheet.form c with
    | some text => pure (sheet.write text)
    | none => compound write c sheet

theorem cell_succ (depth : Nat) : cell (depth + 1) = step (cell depth) := rfl

/-- Writes the items of a block for people. -/
def stepItems (write : Writer) (nested : SeriesId → Nat → Molder → Query Molder) (id : SeriesId)
    (index : Nat) (sheet : Molder) : Query Molder := do
  let outer := sheet.active
  let items := (← Query.cells id).toList.drop index
  let sheet ← formList write nested items true { sheet with active := id :: outer }
  pure { sheet with active := outer }

theorem formItems_succ (write : Writer) (depth : Nat) :
    formItems write (depth + 1) = stepItems write (formItems write depth) := rfl

/-- The series that writing a value goes into: an array, or the fields of a context. -/
def expansion (c : Cell) : List SeriesId :=
  if 0 < c.quoteDepth then []
  else
    match c.payload with
    | .series id _ => if c.kind.isAnyArray || c.kind = .map then [id] else []
    | .context varlist _ => if c.kind.isAnyContext then [varlist] else []
    | _ => []

/-! ## Watched writers -/

/-- What a watched writer checks before a value: the series that are gone through on the way to it,
last first, the series that it goes into, and those that the sheet has as being written. -/
abbrev Guard := (around ids active : List SeriesId) → Bool

/-- No series is gone through twice. -/
def fresh : Guard := fun around _ _ => decide around.Nodup

/-- The value does not go into a series that is being written, for which `...` would stand. -/
def unshortened : Guard := fun _ ids active => !ids.any active.contains

/-- A writer that sounds an alarm where a guard fails, and where its bound is used up. -/
def watched (guard : Guard) (alarm : Writer) : Nat → List SeriesId → Writer
  | 0, _, c, sheet => alarm c sheet
  | depth + 1, around, c, sheet =>
    if guard around (expansion c) sheet.active then
      step (watched guard alarm depth (expansion c ++ around)) c sheet
    else alarm c sheet

/-- Blocks for people under watch; `write` writes what stands in them, for the series around. -/
def watchedItems (guard : Guard) (alarm : SeriesId → Nat → Molder → Query Molder)
    (write : List SeriesId → Writer) :
    Nat → List SeriesId → SeriesId → Nat → Molder → Query Molder
  | 0, _, id, index, sheet => alarm id index sheet
  | depth + 1, around, id, index, sheet =>
    if guard around [id] sheet.active then
      stepItems (write (id :: around)) (watchedItems guard alarm write depth (id :: around)) id
        index sheet
    else alarm id index sheet

/-- The values that are written for a value, one level down. -/
inductive Part (m : Machine) (c : Cell) : Cell → Prop where
  | unquoted {x : Cell} : 0 < c.quoteDepth → Query.unquotify c c.quoteDepth m = .ok x → Part m c x
  | number {id : SeriesId} {i : Nat} {x : Cell} : c.quoteDepth = 0 → c.kind = .pair →
      c.payload = .pair id → Query.cell id i m = .ok x → Part m c x
  | item {id : SeriesId} {index : Nat} {cells : Array Cell} {x : Cell} : c.quoteDepth = 0 →
      c.payload = .series id index → c.kind.isAnyArray = true → Query.cells id m = .ok cells →
      x ∈ cells.toList.drop index → Part m c x
  | entry {id : SeriesId} {index : Nat} {cells : Array Cell} {x : Cell} : c.quoteDepth = 0 →
      c.payload = .series id index → c.kind = .map → Query.cells id m = .ok cells →
      x ∈ cells.toList → Part m c x
  | slot {varlist : SeriesId} {phase : Option Action} {i : Nat} {x : Cell} :
      c.quoteDepth = 0 → c.payload = .context varlist phase → c.kind.isAnyContext = true → 0 < i →
      Query.cell varlist i m = .ok x → Part m c x
  | input {holder : SeriesId} {paramlist : Option SeriesId} {param : Nat} {cells : Array Cell}
      {x : Cell} : c.quoteDepth = 0 → c.kind = .varargs →
      c.payload = .varargs (.array holder paramlist param) → Query.cells holder m = .ok cells →
      cells[0]? = some x → Part m c x

/-! ## Writers that agree -/

/-- The series being written and the purpose of a sheet. -/
structure Kept (active : List SeriesId) (form : Bool) (sheet : Molder) : Prop where
  active : sheet.active = active
  form : sheet.form = form

namespace Kept

variable {active : List SeriesId} {form : Bool} {sheet : Molder}

theorem write (kept : Kept active form sheet) (s : String) : Kept active form (sheet.write s) :=
  ⟨kept.active, kept.form⟩

theorem newline (kept : Kept active form sheet) : Kept active form sheet.newline := kept.write _

end Kept

variable {m : Machine} {active : List SeriesId} {form : Bool} {write write' : Writer}

/-- Two writers that write a value alike. -/
def Agree (m : Machine) (active : List SeriesId) (form : Bool) (write write' : Writer) (c : Cell) :
    Prop :=
  ∀ sheet, Kept active form sheet → Same m (write c sheet) (write' c sheet) (Kept active form)

theorem pathItems_same {items : List Cell} (each : ∀ x ∈ items, Agree m active form write write' x)
    (first : Bool) {sheet : Molder} (kept : Kept active form sheet) :
    Same m (pathItems write items first sheet) (pathItems write' items first sheet)
      (Kept active form) := by
  induction items generalizing first sheet with
  | nil => exact .pure kept
  | cons c rest ih =>
      have onward {sheet : Molder} := @ih (fun x member => each x (List.mem_cons_of_mem c member))
        false sheet
      have slashed : Kept active form (if first then sheet else sheet.write "/") := by
        split
        · exact kept
        · exact kept.write _
      unfold pathItems
      dsimp only
      generalize (if first then sheet else sheet.write "/") = sheet at slashed
      split
      · exact onward slashed
      · exact (each c List.mem_cons_self _ slashed).bind fun _ => onward

theorem blockItems_same {items : List Cell}
    (each : ∀ x ∈ items, Agree m active form write write' x) (first broke : Bool) {sheet : Molder}
    (kept : Kept active form sheet) :
    Same m (blockItems write items first broke sheet) (blockItems write' items first broke sheet)
      fun result => Kept active form result.1 := by
  induction items generalizing first broke sheet with
  | nil => exact .pure kept
  | cons c rest ih =>
      have onward {broke : Bool} {sheet : Molder} :=
        @ih (fun x member => each x (List.mem_cons_of_mem c member)) false broke sheet
      have apart : Kept active form
          (if c.newline then sheet.newline else if first then sheet else sheet.write " ") := by
        split
        · exact kept.newline
        split
        · exact kept
        · exact kept.write _
      exact (each c List.mem_cons_self _ apart).bind fun _ => onward

/-- The sheet with the mark in front of an array. -/
def lead (kind : Kind) (sheet : Molder) : Molder :=
  match kind.mark with
  | .get => sheet.write ":"
  | .sym => sheet.write "@"
  | _ => sheet

/-- Writes the items of an array of some kind, and tells whether one began a line. -/
def arrayItems (write : Writer) (kind : Kind) (items : List Cell) (sheet : Molder) :
    Query (Molder × Bool) :=
  if kind.isAnyPath then do pure (← pathItems write items true sheet, false)
  else blockItems write items true false sheet

/-- Ends an array that was entered from a sheet. -/
def close (kind : Kind) (outer : List SeriesId) (inner : Molder × Bool) : Molder :=
  let sheet := { inner.1 with indent := inner.1.indent - 1 }
  let sheet := if inner.2 then sheet.newline else sheet
  let sheet := { sheet.write (brackets kind).2 with active := outer }
  if kind.mark = .set then sheet.write ":" else sheet

theorem array_eq (write : Writer) (kind : Kind) (id : SeriesId) (index : Nat) (sheet : Molder) :
    array write kind id index sheet =
      if (lead kind sheet).active.contains id then
        pure ((lead kind sheet).write ((brackets kind).1 ++ "..." ++ (brackets kind).2))
      else (do
        let cells ← Query.cells id
        let inner ← arrayItems write kind (cells.toList.drop index)
          { (lead kind sheet).write (brackets kind).1 with
            active := id :: (lead kind sheet).active, indent := (lead kind sheet).indent + 1 }
        pure (close kind (lead kind sheet).active inner)) := by
  unfold array arrayItems
  cases kind.isAnyPath with
  | false => rfl
  | true =>
      simp only [if_true, bind_assoc]
      rfl

theorem Kept.lead (kind : Kind) {sheet : Molder} (kept : Kept active form sheet) :
    Kept active form (Mold.lead kind sheet) := by
  unfold Mold.lead
  split
  · exact kept.write _
  · exact kept.write _
  · exact kept

theorem Kept.close (kind : Kind) {outer inner : List SeriesId} {result : Molder × Bool}
    (kept : Kept inner form result.1) : Kept outer form (Mold.close kind outer result) := by
  unfold Mold.close
  dsimp only
  split <;> split <;> exact ⟨rfl, kept.form⟩

theorem arrayItems_same (kind : Kind) {items : List Cell}
    (each : ∀ x ∈ items, Agree m active form write write' x) {sheet : Molder}
    (kept : Kept active form sheet) :
    Same m (arrayItems write kind items sheet) (arrayItems write' kind items sheet)
      fun result => Kept active form result.1 := by
  unfold arrayItems
  split
  · exact (pathItems_same each true kept).bind fun _ done => .pure done
  · exact blockItems_same each true false kept

theorem array_same (kind : Kind) {id : SeriesId} {index : Nat}
    (items : id ∉ active → ∀ cells, Query.cells id m = .ok cells →
      ∀ x ∈ cells.toList.drop index, Agree m (id :: active) form write write' x)
    {sheet : Molder} (kept : Kept active form sheet) :
    Same m (array write kind id index sheet) (array write' kind id index sheet)
      (Kept active form) := by
  have led := kept.lead kind
  rw [array_eq, array_eq]
  split
  · exact .pure (led.write _)
  · rename_i met
    have fresh : id ∉ active := by simpa [led.active] using met
    refine .ask fun cells held => ?_
    refine (arrayItems_same kind (items fresh cells held) ?_).bind fun inner done => ?_
    · exact ⟨congrArg (id :: ·) led.active, led.form⟩
    · rw [led.active]
      exact .pure (done.close kind)

theorem fields_same (kind : Kind) {varlist : SeriesId} (running : Bool) {slots : List Nat}
    (each : ∀ i ∈ slots, ∀ x, Query.cell varlist i m = .ok x → Agree m active form write write' x)
    (first : Bool) {sheet : Molder} (kept : Kept active form sheet) :
    Same m (fields write kind varlist running slots first sheet)
      (fields write' kind varlist running slots first sheet) (Kept active form) := by
  induction slots generalizing first sheet with
  | nil => exact .pure kept
  | cons slot rest ih =>
      have onward {first : Bool} {sheet : Molder} :=
        @ih (fun i member => each i (List.mem_cons_of_mem slot member)) first sheet
      refine .ask fun key _ => .ask fun value held => ?_
      have agree := each slot List.mem_cons_self value held
      dsimp only
      split
      · exact onward kept
      · have spaced : Kept active form (if first then sheet else sheet.write " ") := by
          split
          · exact kept
          · exact kept.write _
        have quoted {sheet : Molder} (kept : Kept active form sheet) : Kept active form
            (if value.quote == 0 && (value.kind.isAnyWord || value.kind.isAnyPath)
              then sheet.write "'" else sheet) := by
          split
          · exact kept.write _
          · exact kept
        split
        · refine .ask fun spelling _ => ?_
          exact (agree _ (quoted (spaced.write _))).bind fun _ done => onward done
        · exact (agree _ (quoted spaced)).bind fun _ done => onward done

theorem context_same (kind : Kind) {varlist : SeriesId} (phase : Option Action)
    (fields : varlist ∉ active → ∀ i, 0 < i → ∀ x, Query.cell varlist i m = .ok x →
      Agree m (varlist :: active) form write write' x)
    {sheet : Molder} (kept : Kept active form sheet) :
    Same m (context write kind varlist phase sheet) (context write' kind varlist phase sheet)
      (Kept active form) := by
  refine .ask fun live _ => ?_
  split
  · exact .pure (kept.write _)
  · refine .ask fun ended _ => ?_
    split
    · exact .pure (kept.write _)
    · split
      · exact .pure (kept.write _)
      · rename_i met
        have fresh : varlist ∉ active := by simpa [kept.active] using met
        refine .ask fun count _ => ?_
        refine (fields_same kind phase.isSome (fun i member =>
          fields fresh i (List.mem_range'_1.mp member).1) true ?_).bind fun _ done => ?_
        · exact ⟨congrArg (varlist :: ·) kept.active, kept.form⟩
        · exact .pure ⟨kept.active, done.form⟩

/-- The parts of a value that is not being written already are written alike. -/
def AgreeParts (m : Machine) (active : List SeriesId) (form : Bool) (write write' : Writer)
    (c : Cell) : Prop :=
  (∀ id ∈ expansion c, id ∉ active) →
    ∀ x, Part m c x → Agree m (expansion c ++ active) form write write' x

theorem compound_same {c : Cell} (unquoted : c.quoteDepth = 0)
    (parts : AgreeParts m active form write write' c) {sheet : Molder}
    (kept : Kept active form sheet) :
    Same m (compound write c sheet) (compound write' c sheet) (Kept active form) := by
  unfold AgreeParts expansion at parts
  rw [if_neg (by omega)] at parts
  unfold compound
  cases payload : c.payload with
  | pair id =>
      rw [payload] at parts
      dsimp only
      split
      · rename_i kind
        have agree {i : Nat} {x : Cell} (held : Query.cell id i m = .ok x) :=
          parts nofun x (.number unquoted kind payload held)
        refine .ask fun x held => ?_
        refine (agree held _ kept).bind fun after done => .ask fun y held => ?_
        exact agree held _ (done.write _)
      · exact .pure (kept.write _)
  | word symbol index =>
      dsimp only
      split
      · exact .ask fun _ _ => .pure (kept.write _)
      · exact .pure (kept.write _)
  | series id index =>
      rw [payload] at parts
      dsimp only at parts ⊢
      split
      · rename_i isArray
        rw [if_pos (by simp [isArray])] at parts
        exact array_same _ (fun fresh cells held x member =>
          parts (by simpa using fresh) x (.item unquoted payload isArray held member)) kept
      split
      · exact .ask fun _ _ => .pure (by split <;> exact kept.write _)
      split
      · exact .ask fun _ _ => .pure (kept.write _)
      split
      · exact .ask fun _ _ => .pure (kept.write _)
      split
      · rename_i isMap
        rw [if_pos (by simp [isMap])] at parts
        exact array_same _ (fun fresh cells held x member =>
          parts (by simpa using fresh) x
            (.entry unquoted payload isMap held (List.mem_of_mem_drop member)))
          (kept.write _)
      · exact .pure (kept.write _)
  | context varlist phase =>
      rw [payload] at parts
      dsimp only at parts ⊢
      split
      · rename_i isContext
        rw [if_pos isContext] at parts
        exact context_same _ _ (fun fresh i behind x held =>
          parts (by simpa using fresh) x (.slot unquoted payload isContext behind held)) kept
      · exact .pure (kept.write _)
  | action a =>
      dsimp only
      split
      · exact .ask fun _ _ => .ask fun _ _ => .pure (kept.write _)
      · exact .pure (kept.write _)
  | varargs source =>
      rw [payload] at parts
      cases source with
      | frame varlist param => exact .pure (by split <;> exact kept.write _)
      | array holder paramlist param =>
          dsimp only
          split
          · rename_i kind
            refine .ask fun cells held => ?_
            split
            · rename_i block first
              exact (parts nofun block (.input unquoted kind payload held first) _
                (kept.write _)).bind fun _ done => .pure (done.write _)
            · exact .pure (((kept.write _).write _).write _)
          · exact .pure (kept.write _)
  | time n | date d =>
      dsimp only
      split
      · exact .defect
      · exact .pure (kept.write _)
  | _ => exact .pure (kept.write _)

/-- Writers that write the parts of a value alike write the value alike. -/
theorem step_same {c : Cell} (parts : AgreeParts m active form write write' c) :
    Agree m active form (step write) (step write') c := by
  intro sheet kept
  unfold step
  dsimp only
  split
  · rename_i quoted
    refine .ask fun inner taken => ?_
    have agree := parts
    rw [AgreeParts, expansion, if_pos quoted] at agree
    exact agree nofun inner (.unquoted quoted taken) _ (kept.write _)
  · rename_i unquoted
    split
    · exact .pure (kept.write _)
    · exact compound_same (by omega) parts kept

/-! ## Blocks for people -/

/-- Two ways to write the items of a block alike. -/
def AgreeItems (m : Machine) (active : List SeriesId)
    (nested nested' : SeriesId → Nat → Molder → Query Molder) (id : SeriesId) (index : Nat) : Prop :=
  ∀ sheet, Kept active true sheet →
    Same m (nested id index sheet) (nested' id index sheet) (Kept active true)

theorem formList_same {nested nested' : SeriesId → Nat → Molder → Query Molder} {items : List Cell}
    (each : ∀ x ∈ items, Agree m active true write write' x)
    (nests : ∀ x ∈ items, x.quote = 0 → x.kind.isAnyBlock = true → ∀ inner,
      x.seriesId? = some inner → inner ∉ active → AgreeItems m active nested nested' inner x.index)
    (first : Bool) {sheet : Molder} (kept : Kept active true sheet) :
    Same m (formList write nested items first sheet) (formList write' nested' items first sheet)
      (Kept active true) := by
  induction items generalizing first sheet with
  | nil => exact .pure kept
  | cons c rest ih =>
      have onward {sheet : Molder} := @ih (fun x member => each x (List.mem_cons_of_mem c member))
        (fun x member => nests x (List.mem_cons_of_mem c member)) false sheet
      have agree := each c List.mem_cons_self
      have spaced : Kept active true (if first then sheet else sheet.write " ") := by
        split
        · exact kept
        · exact kept.write _
      unfold formList
      dsimp only
      generalize (if first then sheet else sheet.write " ") = sheet at spaced
      split
      · rename_i inner found
        split
        · rename_i enters
          simp only [Bool.and_eq_true, beq_iff_eq, Bool.not_eq_true', spaced.active] at enters
          exact (nests c List.mem_cons_self enters.1.1 enters.1.2 inner found
            (by simpa using enters.2) _ spaced).bind fun _ => onward
        · exact (agree _ spaced).bind fun _ => onward
      · exact (agree _ spaced).bind fun _ => onward

theorem stepItems_same {nested nested' : SeriesId → Nat → Molder → Query Molder} {id : SeriesId}
    {index : Nat}
    (each : ∀ cells, Query.cells id m = .ok cells → ∀ x ∈ cells.toList.drop index,
      Agree m (id :: active) true write write' x ∧
        (x.quote = 0 → x.kind.isAnyBlock = true → ∀ inner, x.seriesId? = some inner →
          inner ∉ id :: active → AgreeItems m (id :: active) nested nested' inner x.index)) :
    AgreeItems m active (stepItems write nested) (stepItems write' nested') id index := by
  intro sheet kept
  refine .ask fun cells held => ?_
  refine (formList_same (fun x member => (each cells held x member).1)
    (fun x member => (each cells held x member).2) true ?_).bind fun _ done => ?_
  · exact ⟨congrArg (id :: ·) kept.active, kept.form⟩
  · exact .pure ⟨kept.active, done.form⟩

end Mold

end Homoicon
