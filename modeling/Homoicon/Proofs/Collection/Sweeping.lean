import Homoicon.Proofs.Collection.Writing

/-!
# A collection frees exactly what is not reached

What a machine works with is spelled out here place by place, and so are the ways from one series
to the next.  A collection keeps every series that can be come to like this as it was, keeps those
that are freed by hand, frees all others, and leaves neither a mark nor a wrong count of the
series in use.
-/

namespace Homoicon

namespace Heap

/-! ## Counting the series in use -/

/-- The heap knows how many series are in use. -/
def Counted (h : Heap) : Prop := h.live = h.liveIds.length

namespace Counted

variable {h : Heap}

theorem empty (ballast : Int) : Counted (.empty ballast) := rfl

theorem alloc (counted : h.Counted) (s : Series) : (h.alloc s).2.Counted := by
  have fresh : h.isLive (h.alloc s).1 = false := by simp [isLive, h.alloc_fresh s]
  have unlisted : (h.alloc s).1 ∉ h.liveIds := by simp [mem_liveIds, fresh]
  have listed : (h.alloc s).2.liveIds.Perm ((h.alloc s).1 :: h.liveIds) := by
    refine (List.perm_ext_iff_of_nodup (nodup_liveIds _)
      (List.nodup_cons.mpr ⟨unlisted, h.nodup_liveIds⟩)).mpr fun id => ?_
    simp only [mem_liveIds, List.mem_cons, isLive, get?_alloc]
    by_cases same : (h.alloc s).1 = id
    · simp [same]
    · simp [same, Ne.symm same]
  have count : (h.alloc s).2.live = h.live + 1 := by
    cases h with
    | mk slots free ballast requested live vacant distinct => cases free <;> rfl
  rw [Counted, count, listed.length_eq, List.length_cons, counted]

theorem dealloc (counted : h.Counted) (id : SeriesId) : (h.dealloc id).Counted := by
  by_cases live : h.isLive id = true
  · have listed : (h.dealloc id).liveIds.Perm (h.liveIds.erase id) := by
      refine (List.perm_ext_iff_of_nodup (nodup_liveIds _) (h.nodup_liveIds.erase id)).mpr
        fun other => ?_
      simp only [mem_liveIds, h.nodup_liveIds.mem_erase_iff, isLive, get?_dealloc]
      by_cases same : id = other
      · simp [same]
      · simp [same, Ne.symm same]
    have count : (h.dealloc id).live = h.live - 1 := by rw [Heap.dealloc, dif_pos live]
    rw [Counted, count, listed.length_eq, List.length_erase_of_mem (mem_liveIds.mpr live), counted]
  · rwa [Heap.dealloc, dif_neg live]

theorem modify (counted : h.Counted) (id : SeriesId) (f : Series → Series) :
    (h.modify id f).Counted := by
  have same (other : SeriesId) : (h.modify id f).isLive other = h.isLive other := by
    simp only [isLive, get?_modify]
    split <;> simp
  have listed : (h.modify id f).liveIds = h.liveIds := by
    simp only [liveIds, size_modify, same]
  rw [Counted, listed]
  exact counted

theorem mark (counted : h.Counted) (steps : Nat) (pending : List SeriesId) :
    (Heap.mark steps pending h).Counted := by
  induction steps generalizing pending h with
  | zero => exact counted
  | succ steps ih =>
      cases pending with
      | nil => exact counted
      | cons id pending =>
          simp only [Heap.mark]
          split
          · exact ih counted pending
          · split
            · exact ih counted pending
            · exact ih (counted.modify id _) _

theorem sweepOne (counted : h.Counted) (id : SeriesId) : (h.sweepOne id).Counted := by
  unfold Heap.sweepOne
  split
  · exact counted
  · split
    · exact counted.modify id _
    · split
      · exact counted.dealloc id
      · exact counted

theorem sweep (counted : h.Counted) : h.sweep.Counted := by
  have swept (ids : List SeriesId) (now : Heap) (counted : now.Counted) :
      (ids.foldl Heap.sweepOne now).Counted := by
    induction ids generalizing now with
    | nil => exact counted
    | cons id ids ih => exact ih _ (counted.sweepOne id)
  exact swept _ h counted

/-- A collection does not lose count. -/
theorem collect (counted : h.Counted) (steps : Nat) (roots : List SeriesId) (ballast : Int) :
    (h.collect steps roots ballast).Counted :=
  (counted.mark steps roots).sweep

end Counted

end Heap

/-! ## What a machine works with -/

namespace Machine

/-- A series that a machine works with directly. -/
inductive Root (m : Machine) : SeriesId → Prop where
  /-- It is never to be collected. -/
  | permanent {id : SeriesId} {s : Series} :
      m.heap.get? id = some s → s.has Flags.root = true → Root m id
  /-- It is to be freed by hand. -/
  | manual {id : SeriesId} : id ∈ m.manuals → Root m id
  | out {id : SeriesId} {f : Frame} : f ∈ m.frames → id ∈ f.out.references → Root m id
  | spare {id : SeriesId} {f : Frame} : f ∈ m.frames → id ∈ f.spare.references → Root m id
  /-- It holds the arguments of a running call. -/
  | varlist {id : SeriesId} {f : Frame} : f ∈ m.frames → f.varlist = some id → Root m id
  /-- It belongs to an action that a frame was made for. -/
  | called {id : SeriesId} {f : Frame} {a : Action} :
      f ∈ m.frames → f.called = some a → id = a.paramlist ∨ id = a.details → Root m id
  /-- It belongs to an action that a frame runs at present. -/
  | phase {id : SeriesId} {f : Frame} {a : Action} :
      f ∈ m.frames → f.phase = some a → id = a.paramlist ∨ id = a.details → Root m id
  | binding {id : SeriesId} {f : Frame} :
      f ∈ m.frames → f.binding = .specific id ∨ f.binding = .relative id → Root m id
  /-- A feed reads it. -/
  | source {id : SeriesId} {f : Feed} {index : Nat} :
      f ∈ m.feeds → f.source = .array id index → Root m id
  /-- A cell that a feed was handed refers to it. -/
  | handed {id : SeriesId} {f : Feed} {rest : List Cell} {c : Cell} :
      f ∈ m.feeds → f.source = .cells rest → c ∈ rest → id ∈ c.references → Root m id
  | current {id : SeriesId} {f : Feed} : f ∈ m.feeds → id ∈ f.value.references → Root m id
  /-- It is the value that a feed has looked up ahead. -/
  | gotten {id : SeriesId} {f : Feed} {c : Cell} :
      f ∈ m.feeds → f.gotten = some c → id ∈ c.references → Root m id
  | lookback {id : SeriesId} {f : Feed} {c : Cell} :
      f ∈ m.feeds → f.lookback = some c → id ∈ c.references → Root m id
  | specifier {id : SeriesId} {f : Feed} : f ∈ m.feeds → f.specifier = some id → Root m id
  | stacked {id : SeriesId} {c : Cell} : c ∈ m.stack → id ∈ c.references → Root m id
  | guarded {id : SeriesId} {c : Cell} : c ∈ m.guards → id ∈ c.references → Root m id
  /-- A value that the outside holds refers to it. -/
  | handle {id : SeriesId} {h : HostHandle} :
      some h ∈ m.handles → id ∈ h.cell.references → Root m id
  | label {id : SeriesId} {t : Thrown} :
      m.thrown = some t → id ∈ t.label.references → Root m id
  | value {id : SeriesId} {t : Thrown} :
      m.thrown = some t → id ∈ t.value.references → Root m id

/-- A series that a machine comes to: from what it works with directly, by the link of a series
and by the cells of an array. -/
inductive Reached (m : Machine) : SeriesId → Prop where
  | root {id : SeriesId} : m.Root id → Reached m id
  /-- The names of a context, or the parameters that the arguments of a call are laid out by. -/
  | keylist {id next : SeriesId} {s : Series} :
      Reached m id → m.heap.get? id = some s → s.link = .keylist next → Reached m next
  /-- The arguments that a specialization has fixed. -/
  | exemplar {id next : SeriesId} {s : Series} :
      Reached m id → m.heap.get? id = some s → s.link = .exemplar next → Reached m next
  | element {id next : SeriesId} {s : Series} {cells : Array Cell} {c : Cell} :
      Reached m id → m.heap.get? id = some s → s.content = .array cells → c ∈ cells →
      next ∈ c.references → Reached m next

section

variable {m : Machine} {id : SeriesId}

theorem Root.of_frame {f : Frame} (reference : id ∈ f.references) (member : f ∈ m.frames) :
    m.Root id := by
  simp only [Frame.references, List.mem_append, Option.mem_toList, List.mem_flatMap,
    List.mem_cons, List.not_mem_nil, or_false] at reference
  rcases reference with (((out | spare) | varlist) | ⟨a, called | phase, part⟩) | binding
  · exact .out member out
  · exact .spare member spare
  · exact .varlist member varlist
  · exact .called member called part
  · exact .phase member phase part
  · refine .binding member ?_
    split at binding <;> simp_all

theorem Root.of_feed {f : Feed} (reference : id ∈ f.references) (member : f ∈ m.feeds) :
    m.Root id := by
  simp only [Feed.references, List.mem_append, Option.mem_toList, List.mem_flatMap] at reference
  rcases reference with ((source | current) | ⟨c, gotten | kept, reference⟩) | specifier
  · split at source
    · rename_i array index reads
      cases List.mem_singleton.mp source
      exact .source member reads
    · rename_i rest reads
      obtain ⟨c, inside, reference⟩ := List.mem_flatMap.mp source
      exact .handed member reads inside reference
  · exact .current member current
  · exact .gotten member gotten reference
  · exact .lookback member kept reference
  · exact .specifier member specifier

theorem Root.of_mem_roots (member : id ∈ m.roots) : m.Root id := by
  simp only [roots, List.mem_append, List.mem_filter, List.mem_flatMap, Array.mem_toList_iff,
    Option.mem_toList] at member
  rcases member with ((((((⟨-, flagged⟩ | manual) | ⟨f, inside, reference⟩) |
    ⟨f, inside, reference⟩) | ⟨c, inside, reference⟩) | ⟨c, inside, reference⟩) |
    ⟨held, inside, h, rfl, reference⟩) | ⟨t, thrown, label | value⟩
  · obtain ⟨s, found, flagged⟩ := (Option.any_eq_true _ _).mp flagged
    exact .permanent found flagged
  · exact .manual manual
  · exact Root.of_frame reference inside
  · exact Root.of_feed reference inside
  · exact .stacked inside reference
  · exact .guarded inside reference
  · exact .handle inside reference
  · exact .label thrown label
  · exact .value thrown value

/-- The collector starts from what the machine works with. -/
theorem Root.rooted (root : m.Root id) : m.Rooted id := by
  cases root with
  | permanent found flagged =>
      refine .of_mem ?_
      have listed : id ∈ m.heap.liveIds :=
        Heap.mem_liveIds.mpr (Heap.isLive_iff.mpr ⟨_, found⟩)
      simp [roots, listed, found, flagged]
  | manual member => exact .of_mem (by simp [roots, member])
  | out member reference => exact .of_frame member (by simp [Frame.references, reference])
  | spare member reference => exact .of_frame member (by simp [Frame.references, reference])
  | varlist member here => exact .of_frame member (by simp [Frame.references, here])
  | called member here part =>
      exact .of_frame member (by rcases part with rfl | rfl <;> simp [Frame.references, here])
  | phase member here part =>
      exact .of_frame member (by rcases part with rfl | rfl <;> simp [Frame.references, here])
  | binding member here =>
      exact .of_frame member (by rcases here with here | here <;> simp [Frame.references, here])
  | source member here => exact .of_feed member (by simp [Feed.references, here])
  | handed member here inside reference =>
      refine .of_feed member ?_
      have listed := List.mem_flatMap.mpr ⟨_, inside, reference⟩
      simp only [Feed.references, here, List.mem_append, listed, true_or]
  | current member reference => exact .of_feed member (by simp [Feed.references, reference])
  | gotten member here reference =>
      exact .of_feed member (by simp [Feed.references, here, reference])
  | lookback member here reference =>
      exact .of_feed member (by simp [Feed.references, here, reference])
  | specifier member here => exact .of_feed member (by simp [Feed.references, here])
  | stacked member reference => exact .of_stack member reference
  | guarded member reference => exact .of_guard member reference
  | handle member reference => exact .of_handle member reference
  | label thrown reference => exact .of_thrown thrown (List.mem_append_left _ reference)
  | value thrown reference => exact .of_thrown thrown (List.mem_append_right _ reference)

theorem Reached.next {next : SeriesId} {s : Series} (reached : m.Reached id)
    (found : m.heap.get? id = some s) (reference : next ∈ s.references) : m.Reached next := by
  rcases List.mem_append.mp reference with link | content
  · split at link
    · cases link
    · rename_i linked
      cases List.mem_singleton.mp link
      exact .keylist reached found linked
    · rename_i linked
      cases List.mem_singleton.mp link
      exact .exemplar reached found linked
  · split at content
    · rename_i cells holds
      obtain ⟨c, inside, reference⟩ := List.mem_flatMap.mp content
      exact .element reached found holds (Array.mem_toList_iff.mp inside) reference
    · cases content

/-- The collector follows just the ways there are. -/
theorem rooted_iff_reached : m.Rooted id ↔ m.Reached id := by
  constructor
  · rintro ⟨root, isRoot, reaches⟩
    have start : m.Reached root := .root (.of_mem_roots isRoot)
    clear isRoot
    induction reaches with
    | here => exact start
    | onward found reference _ ih => exact ih (start.next found reference)
  · intro reached
    induction reached with
    | root root => exact root.rooted
    | keylist _ found link ih =>
        exact ih.next found (by simp [Series.references, link])
    | exemplar _ found link ih =>
        exact ih.next found (by simp [Series.references, link])
    | element _ found content inside reference ih =>
        exact Agree.within_of_references content (fun _ => ih.next found) inside _ reference

theorem counted_recycle (counted : m.heap.Counted) : m.recycle.heap.Counted := by
  unfold recycle
  split
  · exact counted
  · exact counted.collect _ _ _

end

/-- A collection keeps what is reached as it was, and what is freed by hand; it frees everything
else, makes nothing new, and leaves no mark and the right count behind. -/
theorem recycle_exact {m : Machine} (unlocked : m.collectorLocks = 0)
    (unmarked : m.heap.Unmarked) (counted : m.heap.Counted) :
    (∀ id s, m.Reached id → m.heap.get? id = some s → m.recycle.heap.get? id = some s) ∧
    (∀ id s, m.heap.get? id = some s → s.has Flags.managed = true → ¬ m.Reached id →
      m.recycle.heap.isLive id = false) ∧
    (∀ id s, m.heap.get? id = some s → s.has Flags.managed = false →
      m.recycle.heap.get? id = some s) ∧
    (∀ id, m.heap.isLive id = false → m.recycle.heap.isLive id = false) ∧
    m.recycle.heap.Unmarked ∧ m.recycle.heap.live = m.recycle.heap.liveIds.length := by
  have collected := get?_recycle unmarked unlocked
  refine ⟨?kept, ?freed, ?manual, ?dead, unmarked_recycle unmarked, counted_recycle counted⟩
  case kept =>
    intro id s reached found
    rw [collected, if_pos (rooted_iff_reached.mpr reached), found]
  case freed =>
    intro id s found managed stray
    rw [Heap.isLive, collected, if_neg (mt rooted_iff_reached.mp stray), found]
    simp [managed]
  case manual =>
    intro id s found unmanaged
    rw [collected, found]
    simp [unmanaged]
  case dead =>
    intro id dead
    have gone : m.heap.get? id = none := by simpa [Heap.isLive] using dead
    rw [Heap.isLive, collected, gone]
    simp

theorem counted_sampleShelf : sampleShelf.heap.Counted :=
  ((Heap.Counted.empty 100).alloc _ |>.alloc _).alloc _

theorem roots_sampleShelf : sampleShelf.roots = [⟨1⟩] := by decide +kernel

theorem reached_sampleShelf {id : SeriesId} (reached : sampleShelf.Reached id) :
    id = ⟨0⟩ ∨ id = ⟨1⟩ := by
  obtain ⟨root, isRoot, reaches⟩ := rooted_iff_reached.mpr reached
  have start : root = ⟨1⟩ := by simpa [roots_sampleShelf] using isRoot
  subst start
  cases reaches with
  | here => exact .inr rfl
  | onward found reference reaches =>
      cases found
      cases List.mem_singleton.mp reference
      cases reaches with
      | here => exact .inl rfl
      | onward found reference _ =>
          cases found
          cases reference

/-- Of the sample shelf the guarded block and the text in it are kept, and the other text goes. -/
theorem recycle_exact_sampleShelf :
    sampleShelf.collectorLocks = 0 ∧ sampleShelf.heap.Unmarked ∧ sampleShelf.heap.Counted ∧
      sampleShelf.Reached ⟨0⟩ ∧ sampleShelf.recycle.heap.isLive ⟨0⟩ = true ∧
      ¬ sampleShelf.Reached ⟨2⟩ ∧ sampleShelf.recycle.heap.isLive ⟨2⟩ = false := by
  have exact := recycle_exact (m := sampleShelf) rfl unmarked_sampleShelf counted_sampleShelf
  have block : sampleShelf.Reached ⟨1⟩ :=
    .root (.guarded (c := Cell.series .block ⟨1⟩ 0) (by simp [sampleShelf]) (by decide))
  have text : sampleShelf.Reached ⟨0⟩ :=
    .element block rfl rfl (c := Cell.series .text ⟨0⟩ 0) (by simp) (by decide)
  have stray : ¬ sampleShelf.Reached ⟨2⟩ := fun reached => by
    rcases reached_sampleShelf reached with same | same <;> cases same
  exact ⟨rfl, unmarked_sampleShelf, counted_sampleShelf, text,
    Heap.isLive_iff.mpr ⟨_, exact.1 ⟨0⟩ _ text rfl⟩, stray, exact.2.1 ⟨2⟩ _ rfl rfl stray⟩

end Machine

end Homoicon
