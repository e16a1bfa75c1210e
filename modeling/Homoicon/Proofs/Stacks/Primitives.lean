import Homoicon.Proofs.Stacks.Levels

/-!
# The operations of the machine keep its levels

Each change that a machine offers is judged once.  What is built from these changes is judged by
following its text.
-/

open Std.Do

set_option mvcgen.warning false

namespace Homoicon

namespace Interp

theorem toList_eraseLast {ids : Array SeriesId} (distinct : ids.toList.Nodup) (id : SeriesId) :
    (eraseLast ids id).toList = ids.toList.erase id := by
  unfold eraseLast
  cases found : ids.toList.reverse.findIdx? (· == id) with
  | none =>
      have absent : id ∉ ids.toList := by
        intro member
        have misses := List.findIdx?_eq_none_iff.mp found id (List.mem_reverse.mpr member)
        simp at misses
      exact (List.erase_of_not_mem absent).symm
  | some back =>
      obtain ⟨bounded, hit, -⟩ := List.findIdx?_eq_some_iff_getElem.mp found
      have inside : ids.size - 1 - back < ids.toList.length := by
        simp at bounded ⊢
        omega
      have element : ids.toList[ids.size - 1 - back] = id := by
        rw [List.getElem_reverse] at hit
        simpa using hit
      rw [Array.toList_eraseIdxIfInBounds, ← distinct.erase_getElem _ inside, element]

end Interp

namespace Accounted

variable {heap : Heap} {manuals : Array SeriesId}

theorem of_slots {next : Heap} (held : Accounted heap manuals)
    (slots : next.slots = heap.slots) : Accounted next manuals := by
  have lookup : ∀ id, next.get? id = heap.get? id := fun id => by simp [Heap.get?, slots]
  refine ⟨held.distinct, fun id => ?_⟩
  simp only [held.listed, Heap.Manual, lookup]

/-- What matters are the series that the collector does not own. -/
theorem of_manual {next : Heap} (held : Accounted heap manuals)
    (same : ∀ id, next.Manual id ↔ heap.Manual id) : Accounted next manuals :=
  ⟨held.distinct, fun id => (held.listed id).trans (same id).symm⟩

theorem alloc (held : Accounted heap manuals) {s : Series}
    (managed : s.has Flags.managed = true) : Accounted (heap.alloc s).2 manuals := by
  refine held.of_manual fun id => ?_
  have fresh := heap.alloc_fresh s
  unfold Heap.Manual
  rw [Heap.get?_alloc]
  split
  · rename_i same
    subst same
    simp [fresh, managed]
  · rfl

theorem allocManual (held : Accounted heap manuals) {s : Series}
    (unmanaged : s.has Flags.managed = false) :
    Accounted (heap.alloc s).2 (manuals.push (heap.alloc s).1) := by
  have fresh := heap.alloc_fresh s
  have unlisted : (heap.alloc s).1 ∉ manuals.toList := by
    intro member
    obtain ⟨_, found, -⟩ := (held.listed _).mp member
    simp [fresh] at found
  refine ⟨?_, fun id => ?_⟩
  · rw [Array.toList_push, ← List.concat_eq_append]
    exact held.distinct.concat unlisted
  · rw [Array.toList_push, List.mem_append, List.mem_singleton, held.listed id]
    unfold Heap.Manual
    rw [Heap.get?_alloc]
    split
    · rename_i same
      subst same
      simp [unmanaged]
    · rename_i different
      simp [Ne.symm different]

theorem modify (held : Accounted heap manuals) (id : SeriesId) {f : Series → Series}
    (same : ∀ s, (f s).has Flags.managed = s.has Flags.managed) :
    Accounted (heap.modify id f) manuals := by
  refine held.of_manual fun other => ?_
  unfold Heap.Manual
  rw [Heap.get?_modify]
  split
  · cases heap.get? other <;> simp [same]
  · rfl

/-- A series is crossed off once the collector owns it. -/
theorem manage (held : Accounted heap manuals) (id : SeriesId) :
    Accounted (heap.modify id (·.withFlags Flags.managed)) (Interp.eraseLast manuals id) := by
  have managed : ∀ s : Series, (s.withFlags Flags.managed).has Flags.managed = true :=
    fun s => s.has_managed
  refine ⟨?_, fun other => ?_⟩
  · rw [Interp.toList_eraseLast held.distinct]
    exact held.distinct.erase id
  · rw [Interp.toList_eraseLast held.distinct, held.distinct.mem_erase_iff, held.listed other]
    unfold Heap.Manual
    rw [Heap.get?_modify]
    split
    · rename_i same
      subst same
      cases heap.get? id <;> simp [managed]
    · rename_i different
      simp [Ne.symm different]

/-- A series is crossed off once it is freed. -/
theorem release (held : Accounted heap manuals) (id : SeriesId) :
    Accounted (heap.dealloc id) (Interp.eraseLast manuals id) := by
  refine ⟨?_, fun other => ?_⟩
  · rw [Interp.toList_eraseLast held.distinct]
    exact held.distinct.erase id
  · rw [Interp.toList_eraseLast held.distinct, held.distinct.mem_erase_iff, held.listed other]
    unfold Heap.Manual
    rw [Heap.get?_dealloc]
    split
    · rename_i same
      simp [same]
    · rename_i different
      simp [Ne.symm different]

end Accounted

namespace Accounted

variable {heap : Heap} {manuals : Array SeriesId}

theorem mark (held : Accounted heap manuals) (steps : Nat) (pending : List SeriesId) :
    Accounted (heap.mark steps pending) manuals := by
  induction steps generalizing pending heap with
  | zero => exact held
  | succ steps ih =>
      cases pending with
      | nil => exact held
      | cons id pending =>
          simp only [Heap.mark]
          split
          · exact ih held pending
          · split
            · exact ih held pending
            · refine ih (held.modify id fun s => ?_) _
              exact s.has_withFlags_of_apart (by decide)

theorem sweepOne (held : Accounted heap manuals) (id : SeriesId) :
    Accounted (heap.sweepOne id) manuals := by
  unfold Heap.sweepOne
  cases found : heap.get? id with
  | none => exact held
  | some s =>
      simp only
      split
      · exact held.modify id fun s => s.has_and_not_of_apart (by decide)
      · split
        · rename_i managed
          refine held.of_manual fun other => ?_
          unfold Heap.Manual
          rw [Heap.get?_dealloc]
          split
          · rename_i same
            subst same
            simp [found, managed]
          · rfl
        · exact held

theorem sweep (held : Accounted heap manuals) : Accounted heap.sweep manuals := by
  unfold Heap.sweep
  generalize heap.liveIds = ids
  induction ids generalizing heap with
  | nil => exact held
  | cons id ids ih => exact ih (held.sweepOne id)

theorem collect (held : Accounted heap manuals) (steps : Nat) (roots : List SeriesId)
    (ballast : Int) : Accounted (heap.collect steps roots ballast) manuals :=
  (held.mark steps roots).sweep.of_slots rfl

end Accounted

namespace Interp

variable {α : Type} (l : Levels)

@[spec]
theorem ask_calm (q : Query α) : Calm l q.ask := by
  refine triple_iff.mpr fun m here => ?_
  unfold Query.ask
  cases q m with
  | ok => exact here
  | error => exact here.above

@[spec]
theorem lift_calm (q : Query α) : Calm l (MonadLift.monadLift q : Interp α) := ask_calm l q

/-- What always fails promises anything. -/
theorem throws {x : Interp α} {fault : Fault} (fails : ∀ m, x m = .error fault m)
    (done : α → Assertion (.arg Machine .pure)) :
    ⦃fun m => ⌜m.At l⌝⦄ x ⦃post⟨done, fun _ m => ⌜m.Above l⌝⟩⦄ := by
  intro m here
  simp only [wp, PredTrans.apply, EStateM.run, fails]
  exact here.above

@[spec]
theorem fail_spec (cause : Cause) (done : α → Assertion (.arg Machine .pure)) :
    ⦃fun m => ⌜m.At l⌝⦄ (fail cause : Interp α) ⦃post⟨done, fun _ m => ⌜m.Above l⌝⟩⦄ :=
  throws l (fun _ => rfl) done

@[spec]
theorem defect_spec (done : α → Assertion (.arg Machine .pure)) :
    ⦃fun m => ⌜m.At l⌝⦄ (defect : Interp α) ⦃post⟨done, fun _ m => ⌜m.Above l⌝⟩⦄ :=
  throws l (fun _ => rfl) done

@[spec]
theorem expect_calm (a : Option α) : Calm l (expect a : Interp α) := by
  refine triple_iff.mpr fun m here => ?_
  cases a with
  | none => exact here.above
  | some a => exact here

@[spec]
theorem exact64_calm (i : Int) : Calm l (exact64 i : Interp Int) := by
  mvcgen [exact64]

@[spec]
theorem alloc_calm (s : Series) (managed : s.has Flags.managed = true) : Calm l (alloc s) :=
  triple_iff.mpr fun _ here =>
    ⟨here.bases, here.feeds, here.stack, here.guards, here.quiet, here.accounted.alloc managed⟩

@[spec]
theorem allocManual_calm (s : Series) (unmanaged : s.has Flags.managed = false) :
    Calm l (allocManual s) :=
  triple_iff.mpr fun _ here =>
    ⟨here.bases, here.feeds, here.stack, here.guards, here.quiet,
      here.accounted.allocManual unmanaged⟩

@[spec]
theorem modifySeries_calm (id : SeriesId) (f : Series → Series)
    (same : ∀ s, (f s).has Flags.managed = s.has Flags.managed) :
    Calm l (modifySeries id f) := by
  refine triple_iff.mpr fun m here => ?_
  unfold modifySeries
  by_cases live : m.heap.isLive id = true
  · rw [if_pos live]
    exact here.onHeap (here.accounted.modify id same)
  · rw [if_neg live]
    exact here.above

@[spec]
theorem setFlag_calm (id : SeriesId) (flags : Flags) (apart : flags &&& Flags.managed = 0) :
    Calm l (setFlag id flags) :=
  modifySeries_calm l id _ fun s => s.has_withFlags_of_apart apart

@[spec]
theorem clearFlag_calm (id : SeriesId) (flags : Flags)
    (apart : ~~~ flags &&& Flags.managed = Flags.managed) : Calm l (clearFlag id flags) :=
  modifySeries_calm l id _ fun s => s.has_and_not_of_apart apart

@[spec]
theorem modifyCells_calm (id : SeriesId) (f : Array Cell → Array Cell) :
    Calm l (modifyCells id f) := by
  mvcgen [modifyCells]
  case vc3 =>
    intro _ _ s
    split <;> rfl

@[spec]
theorem modifyCell_calm (id : SeriesId) (index : Nat) (f : Cell → Cell) :
    Calm l (modifyCell id index f) := by
  mvcgen [modifyCell]

@[spec]
theorem storeCell_calm (id : SeriesId) (index : Nat) (c : Cell) :
    Calm l (storeCell id index c) := modifyCell_calm l id index _

@[spec]
theorem moveCell_calm (id : SeriesId) (index : Nat) (c : Cell) :
    Calm l (moveCell id index c) := storeCell_calm l id index _

@[spec]
theorem modifyText_calm (id : SeriesId) (f : Text.Buffer → Text.Buffer) :
    Calm l (modifyText id f) := by
  mvcgen [modifyText]
  case vc3 =>
    intro _ _ s
    split <;> rfl

@[spec]
theorem modifyBytes_calm (id : SeriesId) (f : Array UInt8 → Array UInt8) :
    Calm l (modifyBytes id f) := by
  mvcgen [modifyBytes]
  case vc3 =>
    intro _ _ s
    split <;> rfl

@[spec]
theorem allocArray_calm (cells : List Cell) : Calm l (allocArray cells) :=
  alloc_calm l _ (Series.has_managed _)

@[spec]
theorem allocText_calm (s : String) : Calm l (allocText s) := alloc_calm l _ (Series.has_managed _)

@[spec]
theorem allocBytes_calm (bytes : Array UInt8) : Calm l (allocBytes bytes) :=
  alloc_calm l _ (Series.has_managed _)

@[spec]
theorem textCell_calm (kind : Kind) (s : String) : Calm l (textCell kind s) := by
  mvcgen [textCell]

@[spec]
theorem arrayCell_calm (kind : Kind) (cells : List Cell) : Calm l (arrayCell kind cells) := by
  mvcgen [arrayCell]

@[spec]
theorem pairCell_calm (x y : Cell) : Calm l (pairCell x y) := by
  mvcgen [pairCell]
  exact Series.has_managed_of_flags rfl (by decide)

@[spec]
theorem intern_calm (text : String) : Calm l (intern text) :=
  triple_iff.mpr fun _ here =>
    ⟨here.bases, here.feeds, here.stack, here.guards, here.quiet, here.accounted⟩

@[spec]
theorem wordCell_calm (kind : Kind) (name : String) : Calm l (wordCell kind name) := by
  mvcgen [wordCell]

@[spec]
theorem modifyFrame_calm (f : FrameId) (g : Frame → Frame)
    (same : ∀ frame, (g frame).stackBase = frame.stackBase) : Calm l (modifyFrame f g) := by
  refine triple_iff.mpr fun m here => ?_
  unfold modifyFrame
  by_cases running : f < m.frames.size
  · rw [if_pos running]
    refine ⟨?_, here.feeds, here.stack, here.guards, here.quiet, here.accounted⟩
    rw [← here.bases]
    apply List.ext_getElem?
    intro i
    simp only [List.getElem?_map, Array.getElem?_toList, Array.getElem?_modify]
    split
    · simp [Option.map_map, Function.comp_def, same]
    · rfl
  · rw [if_neg running]
    exact here.above

@[spec]
theorem modifyFeed_calm (id : FeedId) (g : Feed → Feed) : Calm l (modifyFeed id g) := by
  refine triple_iff.mpr fun m here => ?_
  unfold modifyFeed
  by_cases open_ : id < m.feeds.size
  · rw [if_pos open_]
    refine ⟨here.bases, ?_, here.stack, here.guards, here.quiet, here.accounted⟩
    simpa using here.feeds
  · rw [if_neg open_]
    exact here.above

@[spec]
theorem writeOut_calm (f : FrameId) (c : Cell) : Calm l (writeOut f c) :=
  modifyFrame_calm l f _ fun _ => rfl

@[spec]
theorem setOut_calm (f : FrameId) (c : Cell) : Calm l (setOut f c) := writeOut_calm l f _

@[spec]
theorem guard_calm (c : Cell) (free : l.guards = ⊤) : Calm l (guard c) :=
  triple_iff.mpr fun _ here =>
    ⟨here.bases, here.feeds, here.stack, free ▸ le_top, here.quiet, here.accounted⟩

theorem guarding_keeps {threw : α → Bool} (body : Interp α)
    (kept : Keeps threw l.unguarded body) : Keeps threw l (guarding body) := by
  refine triple_iff.mpr fun m here => ?_
  have start : m.At l.unguarded :=
    ⟨here.bases, here.feeds, here.stack, le_top, here.quiet, here.accounted⟩
  have ran := triple_iff.mp kept m start
  simp only [guarding, guardMark, bind, EStateM.bind, get, getThe, MonadStateOf.get, EStateM.get,
    pure, EStateM.pure]
  cases outcome : body m with
  | ok a next =>
      rw [outcome] at ran
      refine ⟨ran.bases, ran.feeds, ran.stack, ?_, ran.quiet, ran.accounted⟩
      refine le_trans ?_ here.guards
      simp
  | error fault next =>
      rw [outcome] at ran
      simpa using ran

@[spec]
theorem stackHeight_calm : Calm l stackHeight := by
  mvcgen [stackHeight]

@[spec]
theorem pushStack_calm (c : Cell) (free : l.stack = ⊤) : Calm l (pushStack c) := by
  refine triple_iff.mpr fun m here => ?_
  unfold pushStack
  by_cases full : m.config.dataStackLimit ≤ m.stack.size
  · rw [if_pos full]
    exact here.above
  · rw [if_neg full]
    exact ⟨here.bases, here.feeds, free ▸ le_top, here.guards, here.quiet, here.accounted⟩

@[spec]
theorem popStack?_calm : Calm l popStack? := by
  refine triple_iff.mpr fun m here => ?_
  unfold popStack?
  cases m.stack.back? with
  | none => exact here
  | some top =>
      refine ⟨here.bases, here.feeds, le_trans ?_ here.stack, here.guards, here.quiet,
        here.accounted⟩
      simp

@[spec]
theorem truncateStack_calm (height : Nat) : Calm l (truncateStack height) := by
  refine triple_iff.mpr fun m here => ?_
  refine ⟨here.bases, here.feeds, le_trans ?_ here.stack, here.guards, here.quiet,
    here.accounted⟩
  simp

@[spec]
theorem beginThrow_keeps (label value : Cell) :
    Keeps (fun _ => true) l (beginThrow label value) :=
  triple_iff.mpr fun _ here =>
    ⟨here.bases, here.feeds, here.stack, here.guards, by simp [Levels.after], here.accounted⟩

/-- To end a throw is to be as before it began. -/
@[spec]
theorem takeThrown_spec :
    ⦃fun m => ⌜m.At (l.after true)⌝⦄ takeThrown
    ⦃post⟨fun _ m => ⌜m.At l⌝, fun _ m => ⌜m.Above l⌝⟩⦄ := by
  refine triple_iff.mpr fun m here => ?_
  unfold takeThrown
  cases m.thrown with
  | none => exact (Machine.above_after true).mp here.above
  | some t => exact ⟨here.bases, here.feeds, here.stack, here.guards, fun _ => rfl, here.accounted⟩

@[spec]
theorem thrownLabel?_calm : Calm l thrownLabel? := by
  mvcgen [thrownLabel?]

@[spec]
theorem emit_calm (line : String) : Calm l (emit line) :=
  triple_iff.mpr fun _ here =>
    ⟨here.bases, here.feeds, here.stack, here.guards, here.quiet, here.accounted⟩

end Interp

end Homoicon
