import Homoicon.Proofs.Stacks.Calls
import Homoicon.Proofs.Storing

/-!
# How errors are delivered

An error that a trap catches is handed back with the innermost action that has a name and the code
around the failure.  That code is cut out of the array which the innermost frame reads, from where
the expression began, so an error is lost where the array has become shorter than that.
-/

namespace Homoicon

/-! ## What is reported -/

/-- The report of some code: at most its last six cells. -/
def reportOf (parts : List String) : String :=
  String.intercalate " "
    (if 6 < parts.length then "..." :: parts.drop (parts.length - 6) else parts)

namespace Machine

/-- The name of the innermost action that has one, among the frames above a height. -/
def label? (m : Machine) (height : Nat) : Option SymbolId :=
  (m.frames.toList.drop height).reverse.findSome? (·.label)

/-- The innermost frame is at a place in an array with some cells, in an expression that began at
another place. -/
structure Halts (m : Machine) (cells : Array Cell) (start index : Nat) : Prop where
  place : ∃ frame feed array, m.frames.back? = some frame ∧ m.feeds[frame.feed]? = some feed ∧
    feed.position? = some (array, index) ∧ Query.cells array m = .ok cells ∧
    start = min (frame.exprIndex.getD index) index

/-- What there is to report of the code above a height: nothing where no frame is left or its input
has no place, else the cells from the beginning of the expression to the current one. -/
inductive Near (m : Machine) (height : Nat) : Option String → Prop where
  | outside : m.frames.size ≤ height → Near m height none
  | placeless {frame : Frame} {feed : Feed} : height < m.frames.size →
      m.frames.back? = some frame → m.feeds[frame.feed]? = some feed → feed.position? = none →
      Near m height none
  | code {cells : Array Cell} {start index : Nat} {parts : List String} :
      height < m.frames.size → m.Halts cells start index → start ≤ cells.size →
      List.Forall₂ (fun c part => Query.mold c m = .ok part)
        (cells.extract start (max (min (index + 1) cells.size) start)).toList parts →
      Near m height (some (reportOf parts))

/-- An error with what is to be reported above a height. -/
def reported (m : Machine) (height : Nat) (near : Option String) (e : Error) : Error :=
  { e with site := e.site <|> (m.label? height).map m.symbols.spelling, near := e.near <|> near }

end Machine

/-! ## Annotations -/

namespace Query

variable {m : Machine} {height : Nat} {text : Option String} {e : Error}

theorem mapM_mold_run {cells : List Cell} {parts : List String}
    (molds : List.Forall₂ (fun c part => mold c m = .ok part) cells parts) :
    cells.mapM mold m = .ok parts := by
  induction molds with
  | nil => rfl
  | cons first _ ih => rw [List.mapM_cons, bind_ok first, bind_ok ih, pure_run]

/-- The report cannot be made where the expression began behind the end of its array. -/
theorem nearText?_run {cells : Array Cell} {start index : Nat} (halts : m.Halts cells start index) :
    (cells.size < start → nearText? (m.frames.size - 1) m = .error .defect) ∧
      (start ≤ cells.size → ∀ parts, List.Forall₂ (fun c part => mold c m = .ok part)
          (cells.extract start (max (min (index + 1) cells.size) start)).toList parts →
        nearText? (m.frames.size - 1) m = .ok (some (reportOf parts))) := by
  obtain ⟨frame, feed, array, top, fed, position, listed, rfl⟩ := halts.place
  rw [Array.back?_eq_getElem?] at top
  have asked : Query.frame (m.frames.size - 1) m = .ok frame := by rw [Query.frame, top]
  have run : Query.feed frame.feed m = .ok feed := by rw [Query.feed, fed]
  have there : nearText? (m.frames.size - 1) m = (do
      let start := min (frame.exprIndex.getD index) index
      let stop := max (min (index + 1) cells.size) start
      if cells.size < stop then defect
      let parts ← (cells.extract start stop).toList.mapM mold
      pure (some (reportOf parts))) m := by
    rw [nearText?, bind_ok asked, bind_ok run, position]
    exact bind_ok listed _
  refine ⟨fun behind => ?_, fun inside parts molds => ?_⟩
  · have past : cells.size < max (min (index + 1) cells.size)
        (min (frame.exprIndex.getD index) index) := by omega
    rw [there, if_pos past]
    rfl
  · have fits : ¬ cells.size < max (min (index + 1) cells.size)
        (min (frame.exprIndex.getD index) index) := by omega
    rw [there, if_neg fits]
    exact (bind_ok (pure_run ..) _).trans ((bind_ok (mapM_mold_run molds) _).trans rfl)

theorem findSome?_eq_find? {α β : Type} (g : α → Option β) (items : List α) :
    items.findSome? g = (items.find? fun a => (g a).isSome).bind g := by
  induction items with
  | nil => rfl
  | cons a items ih => cases found : g a <;> simp [found, ih]

/-- The frames above a height, by their numbers. -/
theorem label?_eq (m : Machine) (height : Nat) : m.label? height =
    ((List.range' height (m.frames.size - height)).reverse.find? fun f =>
      (m.frames[f]?.bind (·.label)).isSome).bind fun f => m.frames[f]?.bind (·.label) := by
  have frames : (List.range' height (m.frames.size - height)).map (m.frames[·]?) =
      (m.frames.toList.drop height).map some := by
    refine List.ext_getElem (by simp) fun i inside inside' => ?_
    have below : height + i < m.frames.size := by
      rw [List.length_map, List.length_range'] at inside
      omega
    simp [Array.getElem?_eq_getElem below]
  have numbered := congrArg (·.reverse.findSome? (·.bind (·.label))) frames
  simp only [← List.map_reverse, List.findSome?_map] at numbered
  rw [← findSome?_eq_find?]
  exact numbered.symm

/-- The action is named first, whatever becomes of the code. -/
theorem annotate_eq (snap : Snapshot) (e : Error) (m : Machine) : annotate snap e m = (do
    let e : Error := { e with site := e.site <|> (m.label? snap.frames).map m.symbols.spelling }
    if snap.frames < m.frames.size then
      match ← nearText? (m.frames.size - 1) with
      | some near => pure (e.withNear near)
      | none => pure e
    else pure e) m := by
  have innermost := label?_eq m snap.frames
  rw [annotate, bind_ok (read_run m)]
  change (innermostLabel? _ >>= _) m = _
  have searched (frames : List FrameId) : innermostLabel? frames m =
      .ok (frames.reverse.find? fun f => (m.frames[f]?.bind (·.label)).isSome) := rfl
  rw [bind_ok (searched _)]
  cases found : (List.range' snap.frames (m.frames.size - snap.frames)).reverse.find? fun f =>
      (m.frames[f]?.bind (·.label)).isSome with
  | none =>
      rw [found, Option.bind_none] at innermost
      have kept : (e.site <|> none) = e.site := by cases e.site <;> rfl
      rw [innermost, Option.map_none, kept]
      rfl
  | some f =>
      rw [found, Option.bind_some] at innermost
      have labelled := List.find?_some found
      obtain ⟨symbol, label⟩ := Option.isSome_iff_exists.mp labelled
      obtain ⟨frame, there, named⟩ := Option.bind_eq_some_iff.mp label
      have asked : Query.frame f m = .ok frame := by rw [Query.frame, there]
      have spelled : frameLabel f m = .ok (m.symbols.spelling symbol) := by
        rw [frameLabel, bind_ok asked, named]
        rfl
      rw [innermost, label]
      exact bind_ok spelled _

theorem annotate_run {snap : Snapshot} (near : m.Near snap.frames text) :
    annotate snap e m = .ok (m.reported snap.frames text e) := by
  rw [annotate_eq]
  cases near with
  | outside low =>
      rw [if_neg (Nat.not_lt.mpr low), Machine.reported]
      simp
  | @placeless frame feed above top fed placeless =>
      rw [Array.back?_eq_getElem?] at top
      have asked : Query.frame (m.frames.size - 1) m = .ok frame := by rw [Query.frame, top]
      have run : Query.feed frame.feed m = .ok feed := by rw [Query.feed, fed]
      have nothing : nearText? (m.frames.size - 1) m = .ok none := by
        rw [nearText?, bind_ok asked, bind_ok run, placeless]
        rfl
      rw [if_pos above, bind_ok nothing, Machine.reported]
      simp
  | code above halts inside molds =>
      rw [if_pos above, bind_ok ((nearText?_run halts).2 inside _ molds)]
      rfl

/-- Nothing can be reported of code that ends before the expression began. -/
theorem annotate_defect {snap : Snapshot} {cells : Array Cell} {start index : Nat}
    (above : snap.frames < m.frames.size) (halts : m.Halts cells start index)
    (behind : cells.size < start) : annotate snap e m = .error .defect := by
  rw [annotate_eq]
  refine (congrFun (if_pos above) m).trans ?_
  rw [bind_run, (nearText?_run halts).1 behind]

end Query

/-! ## Abandoned calls -/

/-- A machine after a failure, with all stacks cut back. -/
def Machine.cutBack (m : Machine) (snap : Snapshot) (heap : Heap) : Machine :=
  { m.cutTo snap with
    heap
    manuals := m.manuals.shrink snap.manuals
    handles := m.handles.shrink snap.handles
    guards := m.guards.shrink snap.guards
    collectorLocks := snap.collectorLocks
    thrown := none }

/-- The arguments of the calls that frames run, as far as they are kept, are arrays. -/
def Machine.Slotted (m : Machine) : Prop :=
  ∀ frame ∈ m.frames, ∀ args s, frame.varlist = some args → m.heap.get? args = some s →
    ∃ cells, s.content = .array cells

namespace Interp

variable {m n : Machine} {e : Error}

/-- What changes no series into something else than an array leaves the arguments arrays. -/
theorem slotted_modify (slotted : m.Slotted) (id : SeriesId) {f : Series → Series}
    (kept : ∀ s cells, s.content = .array cells → ∃ cells', (f s).content = .array cells') :
    (m.onHeap (·.modify id f)).Slotted := by
  intro frame member args s varlist found
  change (m.heap.modify id f).get? args = some s at found
  rw [Heap.get?_modify] at found
  split at found
  · obtain ⟨before, held, rfl⟩ := Option.map_eq_some_iff.mp found
    obtain ⟨cells, array⟩ := slotted frame member args before varlist held
    exact kept before cells array
  · exact slotted frame member args s varlist found

theorem modifyCells_ok {id : SeriesId} {held : Array Cell} (listed : Query.cells id m = .ok held)
    (f : Array Cell → Array Cell) :
    modifyCells id f m = .ok () (m.onHeap (·.modify id (·.mapCells f))) := by
  obtain ⟨s, found, content⟩ := Query.cells_eq_ok.mp listed
  have array : isArray id m = .ok true := by
    rw [isArray, Query.bind_ok (Query.series_eq_ok.mpr found), content]
    rfl
  rw [modifyCells, lift_bind_ok array, if_pos rfl]
  exact modifySeries_run found _

/-- The arguments of an abandoned call are cut off, if they are kept. -/
theorem abandonFrame_run (f : FrameId) (slotted : m.Slotted) :
    ∃ heap, abandonFrame f m = .ok () { m with heap } ∧ { m with heap }.Slotted := by
  rw [abandonFrame, bind_ok (get_run m)]
  cases held : m.frames[f]?.bind (·.varlist) with
  | none => exact ⟨m.heap, rfl, slotted⟩
  | some args =>
      obtain ⟨frame, found, varlist⟩ := Option.bind_eq_some_iff.mp held
      have asked : Query.isLive args m = .ok (m.heap.isLive args) := rfl
      simp only [lift_bind_ok asked]
      cases live : m.heap.isLive args with
      | false => exact ⟨m.heap, rfl, slotted⟩
      | true =>
          obtain ⟨s, there⟩ := Heap.isLive_iff.mp live
          have flag : Query.hasFlag args Flags.managed m = .ok (s.has Flags.managed) :=
            Query.hasFlag_eq_ok.mpr ⟨s, there, rfl⟩
          simp only [if_true, lift_bind_ok flag]
          cases s.has Flags.managed with
          | false => exact ⟨m.heap, rfl, slotted⟩
          | true =>
              let flagged := m.onHeap (·.modify args (·.withFlags Flags.inaccessible))
              have marked : setFlag args Flags.inaccessible m = .ok () flagged :=
                modifySeries_run there _
              have slotted' : flagged.Slotted := slotted_modify slotted args fun s cells array =>
                ⟨cells, array⟩
              have there' : flagged.heap.get? args = some (s.withFlags Flags.inaccessible) := by
                change (m.heap.modify args _).get? args = _
                rw [Heap.get?_modify, if_pos rfl, there]
                rfl
              obtain ⟨cells, array⟩ := slotted' frame (Array.mem_of_getElem? found) args _ varlist
                there'
              have shrunk := modifyCells_ok (Query.cells_eq_ok.mpr ⟨_, there', array⟩) (·.shrink 1)
              rw [if_pos rfl]
              refine ⟨_, (bind_ok marked _).trans shrunk,
                slotted_modify slotted' args fun s cells array => ?_⟩
              obtain ⟨flags, content, link, role⟩ := s
              cases array
              exact ⟨_, rfl⟩

theorem abandonManual_frees (id : SeriesId) (m : Machine) :
    ∃ heap, abandonManual id m = .ok () { m with heap } := by
  have asked : Query.isLive id m = .ok (m.heap.isLive id) := rfl
  rw [abandonManual, lift_bind_ok asked]
  cases live : m.heap.isLive id with
  | false => exact ⟨m.heap, rfl⟩
  | true =>
      obtain ⟨s, there⟩ := Heap.isLive_iff.mp live
      have flag : Query.hasFlag id Flags.managed m = .ok (s.has Flags.managed) :=
        Query.hasFlag_eq_ok.mpr ⟨s, there, rfl⟩
      rw [if_pos rfl, lift_bind_ok flag]
      cases s.has Flags.managed with
      | true => exact ⟨m.heap, rfl⟩
      | false => exact ⟨_, rfl⟩

/-- What is done for each of some things changes the heap only, if it does for one. -/
theorem forM_onHeap {β : Type} {f : β → Interp PUnit} {p : Machine → Prop}
    (each : ∀ b m, p m → ∃ heap, f b m = .ok ⟨⟩ { m with heap } ∧ p { m with heap })
    (items : List β) (holds : p m) :
    ∃ heap, items.forM f m = .ok ⟨⟩ { m with heap } ∧ p { m with heap } := by
  induction items generalizing m with
  | nil => exact ⟨m.heap, rfl, holds⟩
  | cons b items ih =>
      obtain ⟨heap, first, holds⟩ := each b m holds
      obtain ⟨heap', others, holds⟩ := ih holds
      refine ⟨heap', ?_, holds⟩
      change (f b >>= fun _ => items.forM f) m = _
      rw [bind_ok first, others]

/-- Once the report is made, nothing stops an error from being handed back. -/
theorem restore_run {snap : Snapshot} {reported : Error} (slotted : m.Slotted)
    (annotated : Query.annotate snap e m = .ok reported) :
    ∃ heap, restore snap e m = .ok reported (m.cutBack snap heap) := by
  obtain ⟨heap, abandoned, -⟩ := forM_onHeap (fun f m slotted => abandonFrame_run f slotted)
    (List.range' snap.frames (m.frames.size - snap.frames)).reverse slotted
  obtain ⟨heap', freed, -⟩ := forM_onHeap (p := fun _ => True) (m := { m.cutTo snap with
      heap, manuals := m.manuals.shrink snap.manuals })
    (fun id m _ => (abandonManual_frees id m).imp fun _ done => ⟨done, trivial⟩)
    (m.manuals.toList.drop snap.manuals) trivial
  have manuals : abandonManuals snap.manuals { m.cutTo snap with heap } =
      .ok () { m.cutTo snap with heap := heap', manuals := m.manuals.shrink snap.manuals } := by
    rw [abandonManuals, bind_ok (get_run _), bind_ok (modify_run _ _)]
    exact freed
  refine ⟨heap', ?_⟩
  rw [restore, lift_bind_ok annotated, bind_ok (get_run m), bind_ok abandoned,
    bind_ok (modify_run _ _)]
  refine (bind_ok manuals _).trans ?_
  rfl

variable {α : Type} {body : Interp α}

/-- A failure is handed back with its report. -/
theorem trap_run {text : Option String} (failed : body m = .error (.error e) n)
    (slotted : n.Slotted) (near : n.Near m.frames.size text) : ∃ heap,
      trap body m = .ok (.error (n.reported m.frames.size text e)) (n.cutBack m.snapshot heap) := by
  have annotated : Query.annotate m.snapshot e n = .ok (n.reported m.frames.size text e) :=
    Query.annotate_run near
  obtain ⟨heap, restored⟩ := restore_run slotted annotated
  refine ⟨heap, ?_⟩
  simp only [trap, failed, restored]

/-- A failure is handed back with its report, unless the expression that failed began behind where
the array that it stands in now ends. -/
theorem trap_delivers (failed : body m = .error (.error e) n) (slotted : n.Slotted) :
    (∀ text, n.Near m.frames.size text → ∃ heap,
      trap body m = .ok (.error (n.reported m.frames.size text e)) (n.cutBack m.snapshot heap)) ∧
    ∀ cells start index, m.frames.size < n.frames.size → n.Halts cells start index →
      cells.size < start → trap body m = .error .defect n := by
  refine ⟨fun text => trap_run failed slotted, fun cells start index above halts behind => ?_⟩
  have unreported : Query.annotate m.snapshot e n = .error .defect :=
    Query.annotate_defect above halts behind
  have lost : restore m.snapshot e n = .error .defect n := by
    rw [restore, bind_run, lift_run, unreported]
  simp only [trap, failed, lost]

/-- A machine with some code. -/
def sampleCode (code : Array Cell) : Machine where
  config := {}
  heap := { slots := #[some (Series.ofCells code)], ballast := 100 }
  countdown := 1

/-- The fourth expression of the code fails. -/
def sampleFailing : Interp Unit := do
  let feed ← pushFeed { source := .array ⟨0⟩ 4, value := Cell.end_ }
  let _ ← pushFrame { feed, exprIndex := some 3 }
  fail (.notBound "x")

/-- The machine in which it has failed. -/
def sampleFailed (code : Array Cell) : Machine :=
  { sampleCode code with
    feeds := #[{ source := .array ⟨0⟩ 4, value := Cell.end_ }]
    frames := #[{ feed := 0, exprIndex := some 3 }] }

theorem failed_sampleFailing (code : Array Cell) :
    sampleFailing (sampleCode code) = .error (.error (Cause.notBound "x").error) (sampleFailed code) :=
  rfl

theorem halts_sampleFailed (code : Array Cell) : (sampleFailed code).Halts code 3 3 :=
  ⟨_, _, _, rfl, rfl, rfl, rfl, rfl⟩

theorem slotted_sampleFailed (code : Array Cell) : (sampleFailed code).Slotted := by
  intro frame member args s varlist
  obtain rfl : frame = { feed := 0, exprIndex := some 3 } := by simpa [sampleFailed] using member
  cases varlist

theorem trap_delivers_sample :
    (∃ heap, trap sampleFailing (sampleCode (Array.replicate 4 (Cell.integer 1))) = .ok
        (.error { (Cause.notBound "x").error with near := some "1" })
        ((sampleFailed (Array.replicate 4 (Cell.integer 1))).cutBack
          (sampleCode (Array.replicate 4 (Cell.integer 1))).snapshot heap)) ∧
      trap sampleFailing (sampleCode #[]) = .error .defect (sampleFailed #[]) := by
  refine ⟨?_, ?_⟩
  · have molds : Query.mold (Cell.integer 1)
        (sampleFailed (Array.replicate 4 (Cell.integer 1))) = .ok "1" := by cbv
    have near : (sampleFailed (Array.replicate 4 (Cell.integer 1))).Near 0 (some (reportOf ["1"])) :=
      .code Nat.one_pos (halts_sampleFailed _) (by decide) (List.Forall₂.cons molds .nil)
    exact (trap_delivers (failed_sampleFailing _) (slotted_sampleFailed _)).1 _ near
  · exact (trap_delivers (failed_sampleFailing _) (slotted_sampleFailed _)).2 _ _ _ (by decide)
      (halts_sampleFailed #[]) (by decide)

end Interp

end Homoicon
