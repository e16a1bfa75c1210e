import Homoicon.Proofs.Running
import Homoicon.Proofs.Stacks.Primitives

/-!
# Calls and traps keep the levels

Frames and feeds are pushed and dropped in pairs, the arguments of a call are listed as long as
they are to be freed by hand, and a trap puts back what a failure left behind.
-/

open Std.Do

set_option mvcgen.warning false

namespace Homoicon

namespace Interp

variable {α : Type} (l : Levels)

theorem modifySeries_run {m : Machine} {id : SeriesId} {s : Series}
    (found : m.heap.get? id = some s) (f : Series → Series) :
    modifySeries id f m = .ok () (m.onHeap (·.modify id f)) :=
  if_pos (Heap.isLive_iff.mpr ⟨s, found⟩)

@[spec]
theorem ensureManaged_calm (id : SeriesId) : Calm l (ensureManaged id) := by
  refine triple_iff.mpr fun m here => ?_
  unfold ensureManaged
  cases asked : Query.hasFlag id Flags.managed m with
  | error fault =>
      rw [bind_run, lift_run, asked]
      exact here.above
  | ok managed =>
      rw [lift_bind_ok asked]
      cases managed with
      | true => exact here
      | false =>
          obtain ⟨s, found, -⟩ := Query.hasFlag_eq_ok.mp asked
          have flagged : setFlag id Flags.managed m = _ := modifySeries_run found _
          rw [Bool.not_false, if_pos rfl, bind_ok flagged, modify_run]
          exact ⟨here.bases, here.feeds, here.stack, here.guards, here.quiet,
            here.accounted.manage id⟩

@[spec]
theorem derelativize_calm (c : Cell) (specifier : Specifier) :
    Calm l (derelativize c specifier) := by
  mvcgen [derelativize]

/-! ## Feeds -/

theorem withFeed_keeps {threw : α → Bool} (feed : Feed) (body : FeedId → Interp α)
    (kept : ∀ id, Keeps threw l.fed (body id)) : Keeps threw l (withFeed feed body) := by
  refine triple_iff.mpr fun m here => ?_
  have start : ({ m with feeds := m.feeds.push feed } : Machine).At l.fed :=
    ⟨here.bases, le_top, here.stack, here.guards, here.quiet, here.accounted⟩
  have ran := triple_iff.mp (kept m.feeds.size) _ start
  unfold withFeed
  rw [bind_ok (x := pushFeed feed) rfl]
  cases outcome : body m.feeds.size { m with feeds := m.feeds.push feed } with
  | error fault next =>
      rw [outcome] at ran
      rw [bind_error outcome]
      simpa using ran
  | ok a next =>
      rw [outcome] at ran
      rw [bind_ok outcome]
      refine ⟨ran.bases, le_trans ?_ here.feeds, ran.stack, ran.guards, ran.quiet, ran.accounted⟩
      simp

@[spec]
theorem fetchNext_calm (id : FeedId) : Calm l (fetchNext id) := by
  mvcgen [fetchNext]

@[spec]
theorem fetchKeepLookback_calm (id : FeedId) : Calm l (fetchKeepLookback id) := by
  mvcgen [fetchKeepLookback]

@[spec]
theorem reifyFeed_calm (id : FeedId) : Calm l (reifyFeed id) := by
  mvcgen [reifyFeed]

/-! ## Frames -/

theorem frame_run_of_bases {m : Machine} {below : List Nat} {base : Nat}
    (bases : m.frames.toList.map (·.stackBase) = below ++ [base]) :
    ∃ frame, Query.frame below.length m = .ok frame ∧ frame.stackBase = base := by
  have top : (m.frames.toList.map (·.stackBase))[below.length]? = some base := by
    simp [bases]
  rw [List.getElem?_map, Array.getElem?_toList] at top
  obtain ⟨frame, found, same⟩ := Option.map_eq_some_iff.mp top
  exact ⟨frame, by simp [Query.frame, found], same⟩

theorem withFrame_keeps {threw : α → Bool} (frame : Frame) (body : FrameId → Interp α)
    (kept : ∀ f base, Keeps threw (l.within base) (body f)) :
    Keeps (fun result => threw result.1) l (withFrame frame body) := by
  refine triple_iff.mpr fun m here => ?_
  unfold withFrame
  by_cases deep : m.config.isFull m.frames.size = true
  · have refused : pushFrame frame m = .error (.error Cause.stackOverflow.error) m := if_pos deep
    rw [bind_error refused]
    exact here.above
  · have pushed : pushFrame frame m = .ok m.frames.size
        { m with frames := m.frames.push { frame with stackBase := m.stack.size } } := if_neg deep
    rw [bind_ok pushed]
    have start : ({ m with frames := m.frames.push { frame with stackBase := m.stack.size } } :
        Machine).At (l.within m.stack.size) :=
      ⟨by simp [Levels.within, here.bases], here.feeds, le_top, here.guards, here.quiet,
        here.accounted⟩
    have ran := triple_iff.mp (kept m.frames.size m.stack.size) _ start
    cases outcome : body m.frames.size
        { m with frames := m.frames.push { frame with stackBase := m.stack.size } } with
    | error fault next =>
        rw [outcome] at ran
        rw [bind_error outcome]
        exact ran.of_within
    | ok a next =>
        rw [outcome] at ran
        rw [bind_ok outcome]
        obtain ⟨top, found, base⟩ := frame_run_of_bases ran.bases
        rw [← here.size_frames] at found
        have dropped : dropFrame m.frames.size next = .ok top
            { next with frames := next.frames.pop, stack := next.stack.shrink top.stackBase } := by
          unfold dropFrame
          rw [lift_bind_ok found]
          rfl
        rw [bind_ok dropped]
        refine ⟨?_, ran.feeds, le_trans ?_ here.stack, ran.guards, ran.quiet, ran.accounted⟩
        · have popped := congrArg List.dropLast ran.bases
          simpa [Levels.after, Levels.within, ← List.map_dropLast] using popped
        · simp [base]

@[spec]
theorem freeManual_calm (id : SeriesId) : Calm l (freeManual id) :=
  triple_iff.mpr fun _ here =>
    ⟨here.bases, here.feeds, here.stack, here.guards, here.quiet, here.accounted.release id⟩

@[spec]
theorem releaseVarlist_calm (varlist : SeriesId) : Calm l (releaseVarlist varlist) := by
  mvcgen [releaseVarlist]
  intro s
  have apart : Flags.inaccessible &&& Flags.managed = 0 := by decide
  exact s.has_withFlags_of_apart apart

@[spec]
theorem pushAction_calm (f : FrameId) (action : Action) (binding : Binding) :
    Calm l (pushAction f action binding) := by
  mvcgen [pushAction]
  case vc3.unmanaged =>
    exact (Series.has_withFlags_of_apart _ (by decide)).trans (Series.ofCells_unmanaged _)
  all_goals simp

@[spec]
theorem beginAction_calm (f : FrameId) (label : Option SymbolId) (lookback : Bool) :
    Calm l (beginAction f label lookback) := modifyFrame_calm l f _ fun _ => rfl

@[spec]
theorem releaseHandles_calm (f : FrameId) : Calm l (releaseHandles f) :=
  triple_iff.mpr fun _ here => here.congr rfl rfl rfl rfl rfl rfl rfl

@[spec]
theorem dropAction_calm (f : FrameId) : Calm l (dropAction f) := by
  mvcgen [dropAction]
  all_goals simp

@[spec]
theorem abortAction_calm (f : FrameId) : Calm l (abortAction f) := by
  mvcgen [abortAction]

@[spec]
theorem frameValue_calm (f : FrameId) : Calm l (frameValue f) := by
  mvcgen [frameValue]

/-! ## Signals -/

theorem recycle_at {m : Machine} (here : m.At l) : m.recycle.At l := by
  by_cases locked : 0 < m.collectorLocks
  · have kept : m.recycle = m := if_pos locked
    rwa [kept]
  · have collected : m.recycle = m.onHeap (·.collect _ m.roots m.config.ballast) := if_neg locked
    rw [collected]
    exact here.onHeap (here.accounted.collect _ m.roots m.config.ballast)

@[spec]
theorem recycle_calm : Calm l recycle := by
  refine triple_iff.mpr fun m here => ?_
  simp only [recycle, bind_run, get_run, modify_run, pure_run]
  exact recycle_at l here

@[spec]
theorem countDown_calm : Calm l countDown :=
  triple_iff.mpr fun _ here => here.congr rfl rfl rfl rfl rfl rfl rfl

@[spec]
theorem doSignals_calm : Calm l doSignals := by
  mvcgen [doSignals]
  all_goals refine Machine.At.congr (by assumption) ?_ ?_ ?_ ?_ ?_ ?_ ?_ <;> rfl

/-! ## Traps -/

/-- What is done for each element in turn keeps a level if it does for one. -/
@[spec]
theorem forM_calm {β : Type} (items : List β) (body : β → Interp PUnit)
    (kept : ∀ item ∈ items, Calm l (body item)) : Calm l (items.forM body) := by
  induction items with
  | nil => mvcgen [List.forM]
  | cons item items ih =>
      have first := kept item List.mem_cons_self
      have others := ih fun other member => kept other (List.mem_cons_of_mem item member)
      change Calm l (do body item; items.forM body)
      mvcgen [first, others]

@[spec]
theorem abandonFrame_calm (f : FrameId) : Calm l (abandonFrame f) := by
  mvcgen [abandonFrame]

theorem abandonManual_run {m : Machine} {id : SeriesId} (manual : m.heap.Manual id) :
    abandonManual id m = .ok () (m.onHeap (·.dealloc id)) := by
  obtain ⟨s, found, unmanaged⟩ := manual
  have live : Query.isLive id m = .ok true := Query.isLive_run found
  have flag : Query.hasFlag id Flags.managed m = .ok false :=
    Query.hasFlag_eq_ok.mpr ⟨s, found, unmanaged⟩
  unfold abandonManual
  rw [lift_bind_ok live, if_pos rfl, lift_bind_ok flag]
  rfl

/-- The series that a list still names are freed one after the other. -/
theorem forM_abandonManual_run (made : List SeriesId) {m : Machine}
    (accounted : Accounted m.heap (m.manuals ++ made.toArray)) :
    ∃ heap, made.forM abandonManual m = .ok () { m with heap } ∧ Accounted heap m.manuals := by
  induction made generalizing m with
  | nil => exact ⟨m.heap, rfl, by simpa using accounted⟩
  | cons id made ih =>
      have manual : m.heap.Manual id := (accounted.listed id).mp (by simp)
      have crossed : Interp.eraseLast (m.manuals ++ (id :: made).toArray) id =
          m.manuals ++ made.toArray := by
        have distinct := accounted.distinct
        apply Array.toList_inj.mp
        rw [toList_eraseLast distinct]
        simp only [Array.toList_append] at distinct ⊢
        have elsewhere : id ∉ m.manuals.toList := fun member =>
          (List.nodup_append.mp distinct).2.2 id member id List.mem_cons_self rfl
        rw [List.erase_append_right _ elsewhere, List.erase_cons_head]
      have freed := accounted.release id
      rw [crossed] at freed
      obtain ⟨heap, ran, held⟩ := @ih (m.onHeap (·.dealloc id)) freed
      refine ⟨heap, ?_, held⟩
      change (abandonManual id >>= fun _ => made.forM abandonManual) m = _
      rw [bind_ok (abandonManual_run manual), ran]
      rfl

/-- What a list names from a place on is freed and the list is cut off there. -/
theorem abandonManuals_run (count : Nat) {m : Machine} (accounted : Accounted m.heap m.manuals) :
    ∃ heap, abandonManuals count m = .ok () { m with heap, manuals := m.manuals.shrink count } ∧
      Accounted heap (m.manuals.shrink count) := by
  have split : Accounted m.heap
      (m.manuals.shrink count ++ (m.manuals.toList.drop count).toArray) := by
    have whole : m.manuals.shrink count ++ (m.manuals.toList.drop count).toArray = m.manuals := by
      apply Array.toList_inj.mp
      simp
    rw [whole]
    exact accounted
  obtain ⟨heap, ran, held⟩ := forM_abandonManual_run (m.manuals.toList.drop count)
    (m := { m with manuals := m.manuals.shrink count }) split
  refine ⟨heap, ?_, held⟩
  simp only [abandonManuals, bind_run, get_run, modify_run, ran]

theorem cutTo_at {m next : Machine} (here : m.At l) (above : next.Above l) :
    (next.cutTo m.snapshot).At { l with guards := ⊤, quiet := false } := by
  refine ⟨?_, ?_, ?_, le_top, nofun, above.accounted⟩
  · have below := List.prefix_iff_eq_take.mp above.bases
    have height : m.snapshot.frames = l.bases.length := here.size_frames
    simpa [Machine.cutTo, height, ← List.map_take] using below.symm
  · exact le_trans (by simp [Machine.cutTo, Machine.snapshot]) here.feeds
  · exact le_trans (by simp [Machine.cutTo, Machine.snapshot]) here.stack

/-- A failure above a level is cut back to it, and no more series are listed than before. -/
theorem restore_at {m next : Machine} (here : m.At l) (failed : next.Above l) (e : Error) :
    match restore m.snapshot e next with
      | .ok _ restored => restored.At l ∧ restored.manuals.size ≤ m.manuals.size
      | .error _ restored => restored.Above l := by
  unfold restore
  cases asked : Query.annotate m.snapshot e next with
  | error fault =>
      rw [bind_run, lift_run, asked]
      exact failed
  | ok e =>
      rw [lift_bind_ok asked, bind_ok (get_run next)]
      -- The calls are abandoned over whatever the failure left on the stacks.
      let wide : Levels := ⟨next.frames.toList.map (·.stackBase), ⊤, ⊤, ⊤, false⟩
      have start : next.At wide := ⟨rfl, le_top, le_top, le_top, nofun, failed.accounted⟩
      have abandoned := triple_iff.mp (forM_calm wide
        (List.range' m.snapshot.frames (next.frames.size - m.snapshot.frames)).reverse
        abandonFrame fun f _ => abandonFrame_calm wide f) next start
      cases outcome : (List.range' m.snapshot.frames
          (next.frames.size - m.snapshot.frames)).reverse.forM abandonFrame next with
      | error fault stopped =>
          rw [outcome] at abandoned
          rw [bind_error outcome]
          exact ⟨failed.bases.trans abandoned.bases, abandoned.accounted⟩
      | ok _ mid =>
          rw [outcome] at abandoned
          rw [bind_ok outcome, bind_ok (modify_run _ mid)]
          have above : mid.Above l := ⟨abandoned.bases ▸ failed.bases, abandoned.accounted⟩
          have cut := cutTo_at l here above
          obtain ⟨heap, freed, held⟩ := abandonManuals_run m.snapshot.manuals cut.accounted
          rw [bind_ok freed]
          refine ⟨⟨cut.bases, cut.feeds, cut.stack, le_trans ?_ here.guards, fun _ => rfl, held⟩, ?_⟩
          · simp [Machine.snapshot]
          · simp [Machine.snapshot]

theorem trap_keeps {threw : α → Bool} (body : Interp α) (kept : Keeps threw l body) :
    Keeps (fun result => result.toOption.any threw) l (trap body) := by
  refine triple_iff.mpr fun m here => ?_
  have ran := triple_iff.mp kept m here
  unfold trap
  cases outcome : body m with
  | ok a next =>
      rw [outcome] at ran
      exact ran
  | error fault next =>
      rw [outcome] at ran
      cases fault with
      | defect => exact ran
      | exhausted => exact ran
      | error e =>
          have restored := restore_at l here ran e
          simp only
          cases done : restore m.snapshot e next with
          | ok e last =>
              rw [done] at restored
              simpa [Except.toOption] using restored.1
          | error fault last =>
              rw [done] at restored
              exact restored

/-- A trapped failure leaves no more series listed than there were. -/
theorem size_manuals_le_of_trap {threw : α → Bool} {body : Interp α} (kept : Keeps threw l body)
    {m next : Machine} (here : m.At l) {e : Error} (trapped : trap body m = .ok (.error e) next) :
    next.manuals.size ≤ m.manuals.size := by
  have ran := triple_iff.mp kept m here
  unfold trap at trapped
  cases outcome : body m with
  | ok a last => simp [outcome] at trapped
  | error fault last =>
      rw [outcome] at ran trapped
      cases fault with
      | defect => simp at trapped
      | exhausted => simp at trapped
      | error raised =>
          have restored := restore_at l here ran raised
          simp only at trapped
          cases done : restore m.snapshot raised last with
          | ok e last =>
              rw [done] at restored trapped
              cases trapped
              exact restored.2
          | error fault last => simp [done] at trapped

end Interp

end Homoicon
