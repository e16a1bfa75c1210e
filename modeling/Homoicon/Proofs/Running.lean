import Mathlib.Data.Nat.Find
import Homoicon.Context
import Homoicon.Frame.Call

/-!
# Running computations

How the parts of a computation are run one after the other: these equations turn a statement about
a run into statements about its steps.  A frame is pushed as long as there is room: up to a limit
on their number, which is the greatest one or the least one that uses up the native stack.
-/

namespace Homoicon

variable {α β : Type}

namespace Query

@[simp] theorem pure_run (a : α) (m : Machine) : (pure a : Query α) m = .ok a := rfl

@[simp] theorem throw_run (fault : Fault) (m : Machine) :
    (throw fault : Query α) m = .error fault := rfl

@[simp] theorem fail_run (cause : Cause) (m : Machine) :
    (fail cause : Query α) m = .error (.error cause.error) := rfl

@[simp] theorem defect_run (m : Machine) : (defect : Query α) m = .error .defect := rfl

@[simp] theorem read_run (m : Machine) : (read : Query Machine) m = .ok m := rfl

@[simp] theorem expect_some_run (a : α) (m : Machine) : (expect (some a) : Query α) m = .ok a := rfl

theorem bind_run (q : Query α) (f : α → Query β) (m : Machine) :
    (q >>= f) m = match q m with
      | .ok a => f a m
      | .error fault => .error fault := by
  change (q m >>= fun a => f a m) = _
  cases q m <;> rfl

theorem bind_ok {q : Query α} {m : Machine} {a : α} (done : q m = .ok a) (f : α → Query β) :
    (q >>= f) m = f a m := by
  rw [bind_run, done]

theorem bind_eq_ok {q : Query α} {f : α → Query β} {m : Machine} {b : β} :
    (q >>= f) m = .ok b ↔ ∃ a, q m = .ok a ∧ f a m = .ok b := by
  rw [bind_run]
  cases q m <;> simp

theorem map_run (f : α → β) (q : Query α) (m : Machine) :
    (f <$> q) m = match q m with
      | .ok a => .ok (f a)
      | .error fault => .error fault := by
  change f <$> q m = _
  cases q m <;> rfl

theorem series_eq_ok {id : SeriesId} {m : Machine} {s : Series} :
    series id m = .ok s ↔ m.heap.get? id = some s := by
  unfold series
  cases m.heap.get? id <;> simp

theorem hasFlag_eq_ok {id : SeriesId} {flags : Flags} {m : Machine} {b : Bool} :
    hasFlag id flags m = .ok b ↔ ∃ s, m.heap.get? id = some s ∧ s.has flags = b := by
  unfold hasFlag
  simp only [bind_eq_ok, series_eq_ok, pure_run, Except.ok.injEq]

theorem cells_eq_ok {id : SeriesId} {m : Machine} {held : Array Cell} :
    cells id m = .ok held ↔ ∃ s, m.heap.get? id = some s ∧ s.content = .array held := by
  unfold cells
  rw [bind_eq_ok]
  refine exists_congr fun s => and_congr series_eq_ok ?_
  cases s.content <;> simp

theorem text_eq_ok {id : SeriesId} {m : Machine} {held : Text.Buffer} :
    text id m = .ok held ↔ ∃ s, m.heap.get? id = some s ∧ s.content = .text held := by
  unfold text
  rw [bind_eq_ok]
  refine exists_congr fun s => and_congr series_eq_ok ?_
  cases s.content <;> simp

theorem bytes_eq_ok {id : SeriesId} {m : Machine} {held : Array UInt8} :
    bytes id m = .ok held ↔ ∃ s, m.heap.get? id = some s ∧ s.content = .binary held := by
  unfold bytes
  rw [bind_eq_ok]
  refine exists_congr fun s => and_congr series_eq_ok ?_
  cases s.content <;> simp

theorem cell_eq_ok {id : SeriesId} {index : Nat} {m : Machine} {c : Cell} :
    cell id index m = .ok c ↔ ∃ held, cells id m = .ok held ∧ held[index]? = some c := by
  unfold cell
  rw [bind_eq_ok]
  refine exists_congr fun held => and_congr Iff.rfl ?_
  cases held[index]? <;> simp [expect]

theorem arrayOf_eq_ok {c : Cell} {m : Machine} {id : SeriesId} :
    arrayOf c m = .ok id ↔ c.seriesId? = some id := by
  unfold arrayOf
  cases c.seriesId? <;> simp [expect]

theorem cellsFrom_eq_ok {m : Machine} {id : SeriesId} {index : Nat} {listed : List Cell} :
    cellsFrom id index m = .ok listed ↔
      ∃ held, cells id m = .ok held ∧ held.toList.drop index = listed := by
  unfold cellsFrom
  simp only [bind_eq_ok, pure_run, Except.ok.injEq]

theorem isLive_run {id : SeriesId} {m : Machine} {s : Series} (live : m.heap.get? id = some s) :
    isLive id m = .ok true := by
  rw [isLive, Heap.isLive, live]
  rfl

/-- The text of a position goes on to the end of its series. -/
theorem cellText_run {c : Cell} {id : SeriesId} {start : Nat} {buffer : Text.Buffer} {m : Machine}
    (payload : c.payload = .series id start) (held : text id m = .ok buffer) :
    cellText c m = .ok (buffer.slice start buffer.size) := by
  obtain ⟨s, live, content⟩ := text_eq_ok.mp held
  rw [cellText, Cell.seriesId?, Cell.index, payload]
  dsimp only
  rw [bind_ok (isLive_run live), if_neg (by decide), bind_ok (series_eq_ok.mpr live), content]
  rfl

end Query

namespace Interp

@[simp] theorem pure_run (a : α) (m : Machine) : (pure a : Interp α) m = .ok a m := rfl

@[simp] theorem throw_run (fault : Fault) (m : Machine) :
    (throw fault : Interp α) m = .error fault m := rfl

@[simp] theorem fail_run (cause : Cause) (m : Machine) :
    (fail cause : Interp α) m = .error (.error cause.error) m := rfl

@[simp] theorem defect_run (m : Machine) : (defect : Interp α) m = .error .defect m := rfl

/-- A number that fits is reckoned. -/
theorem exact64_eq {i : Int} (fits : Bits.fits64 i = true) : (exact64 i : Interp Int) = pure i :=
  if_pos fits

@[simp] theorem get_run (m : Machine) : (get : Interp Machine) m = .ok m m := rfl

@[simp] theorem modify_run (f : Machine → Machine) (m : Machine) :
    (modify f : Interp PUnit) m = .ok ⟨⟩ (f m) := rfl

theorem bind_run (x : Interp α) (f : α → Interp β) (m : Machine) :
    (x >>= f) m = match x m with
      | .ok a next => f a next
      | .error fault next => .error fault next := by
  change EStateM.bind x f m = _
  unfold EStateM.bind
  cases x m <;> rfl

theorem bind_ok {x : Interp α} {m next : Machine} {a : α} (done : x m = .ok a next)
    (f : α → Interp β) : (x >>= f) m = f a next := by
  rw [bind_run, done]

theorem bind_eq_ok {x : Interp α} {f : α → Interp β} {m last : Machine} {b : β} :
    (x >>= f) m = .ok b last ↔ ∃ a next, x m = .ok a next ∧ f a next = .ok b last := by
  rw [bind_run]
  cases x m with
  | ok a next =>
      constructor
      · exact fun finished => ⟨a, next, rfl, finished⟩
      · rintro ⟨_, _, same, finished⟩
        cases same
        exact finished
  | error => simp

theorem bind_error {x : Interp α} {m next : Machine} {fault : Fault}
    (failed : x m = .error fault next) (f : α → Interp β) :
    (x >>= f) m = .error fault next := by
  rw [bind_run, failed]

theorem map_run (f : α → β) (x : Interp α) (m : Machine) :
    (f <$> x) m = match x m with
      | .ok a next => .ok (f a) next
      | .error fault next => .error fault next := by
  change EStateM.map f x m = _
  unfold EStateM.map
  cases x m <;> rfl

theorem lift_run (q : Query α) (m : Machine) :
    (liftM q : Interp α) m = match q m with
      | .ok a => .ok a m
      | .error fault => .error fault m := rfl

theorem ask_run (q : Query α) (m : Machine) :
    q.ask m = match q m with
      | .ok a => .ok a m
      | .error fault => .error fault m := rfl

theorem lift_bind_eq_ok {q : Query α} {f : α → Interp β} {m last : Machine} {b : β} :
    ((liftM q : Interp α) >>= f) m = .ok b last ↔ ∃ a, q m = .ok a ∧ f a m = .ok b last := by
  rw [bind_run, lift_run]
  cases q m <;> simp

theorem lift_bind (q : Query α) (f : α → Query β) :
    (liftM (q >>= f) : Interp β) = (liftM q : Interp α) >>= fun a => liftM (f a) := by
  funext m
  rw [lift_run, Query.bind_run, bind_run, lift_run]
  cases q m <;> rfl

/-- A question that has an answer goes on with it. -/
theorem lift_bind_ok {q : Query α} {m : Machine} {a : α} (answer : q m = .ok a)
    (f : α → Interp β) : ((liftM q : Interp α) >>= f) m = f a m :=
  bind_ok (by rw [lift_run, answer]) f

theorem ask_bind_ok {q : Query α} {m : Machine} {a : α} (answer : q m = .ok a)
    (f : α → Interp β) : (q.ask >>= f) m = f a m :=
  bind_ok (by rw [ask_run, answer]) f

end Interp

/-! ## Room for frames -/

namespace Config

variable {config : Config} {frames : Nat}

theorem isFull_maxDepth (config : Config) : config.isFull config.maxDepth = true := by
  simp [isFull]

theorem exists_isFull (config : Config) : ∃ frames, config.isFull frames = true :=
  ⟨_, config.isFull_maxDepth⟩

/-- How many frames there is room for: on so many no other can be pushed. -/
def frameLimit (config : Config) : Nat := Nat.find config.exists_isFull

theorem isFull_frameLimit (config : Config) : config.isFull config.frameLimit = true :=
  Nat.find_spec config.exists_isFull

theorem isFull_of_lt (room : frames < config.frameLimit) : config.isFull frames = false :=
  Bool.eq_false_iff.mpr (Nat.find_min config.exists_isFull room)

theorem lt_frameLimit_iff :
    frames < config.frameLimit ↔ ∀ fewer ≤ frames, config.isFull fewer = false := by
  simp only [frameLimit, Nat.lt_find_iff, Bool.not_eq_true]

theorem frameLimit_le (config : Config) : config.frameLimit ≤ config.maxDepth :=
  Nat.find_min' _ config.isFull_maxDepth

theorem frameLimit_le_of_isFull (full : config.isFull frames = true) : config.frameLimit ≤ frames :=
  Nat.find_min' _ full

/-- Where the native stack has room for the greatest number of frames, that is the limit. -/
theorem frameLimit_eq (roomy : ∀ frames < config.maxDepth, config.overruns frames 0 = false) :
    config.frameLimit = config.maxDepth := by
  refine Nat.le_antisymm config.frameLimit_le (Nat.le_of_not_lt fun less => ?_)
  have full := config.isFull_frameLimit
  rw [isFull, roomy _ less, Bool.or_false, decide_eq_true_iff] at full
  exact Nat.lt_irrefl _ (Nat.lt_of_lt_of_le less full)

end Config

namespace Interp

variable {frame : Frame} {m : Machine}

theorem pushFrame_run (frame : Frame) (room : m.frames.size < m.config.frameLimit) :
    pushFrame frame m = .ok m.frames.size
      { m with frames := m.frames.push { frame with stackBase := m.stack.size } } :=
  if_neg (by simp [Config.isFull_of_lt room])

theorem pushFrame_full (frame : Frame) (full : m.config.isFull m.frames.size = true) :
    pushFrame frame m = .error (.error Cause.stackOverflow.error) m := if_pos full

end Interp

end Homoicon
