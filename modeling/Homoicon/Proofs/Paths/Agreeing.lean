import Homoicon.Proofs.Paths.Positions

/-!
# Machines that agree but for some places

Storing a value changes one place of one series.  New series, and series that the collector takes
over, change nothing that was there.
-/

namespace Homoicon

/-- Two contents are alike but for some places. -/
inductive Content.Like (off : Nat → Prop) : Content → Content → Prop where
  | array {cells cells' : Array Cell} : cells'.size = cells.size →
      (∀ i, ¬ off i → cells'[i]? = cells[i]?) → Like off (.array cells) (.array cells')
  | text {buffer buffer' : Text.Buffer} : buffer'.size = buffer.size →
      (∀ i, ¬ off i → buffer'.get? i = buffer.get? i) → Like off (.text buffer) (.text buffer')
  | binary {bytes bytes' : Array UInt8} : bytes'.size = bytes.size →
      (∀ i, ¬ off i → bytes'[i]? = bytes[i]?) → Like off (.binary bytes) (.binary bytes')

namespace Content.Like

variable {off : Nat → Prop} {content content' content'' : Content}

theorem refl (off : Nat → Prop) (content : Content) : content.Like off content := by
  cases content with
  | array cells => exact .array rfl fun _ _ => rfl
  | text buffer => exact .text rfl fun _ _ => rfl
  | binary bytes => exact .binary rfl fun _ _ => rfl

theorem trans (first : content.Like off content') (second : content'.Like off content'') :
    content.Like off content'' := by
  cases first with
  | array size same =>
      cases second with
      | array size' same' =>
          exact .array (size'.trans size) fun i free => (same' i free).trans (same i free)
  | text size same =>
      cases second with
      | text size' same' =>
          exact .text (size'.trans size) fun i free => (same' i free).trans (same i free)
  | binary size same =>
      cases second with
      | binary size' same' =>
          exact .binary (size'.trans size) fun i free => (same' i free).trans (same i free)

theorem element? (like : content.Like off content') {i : Nat} (free : ¬ off i) :
    content'.element? i = content.element? i := by
  cases like with
  | array size same => exact same i free
  | text size same => exact congrArg (Option.map Cell.char) (same i free)
  | binary size same =>
      exact congrArg (Option.map fun b : UInt8 => Cell.integer b.toNat) (same i free)

theorem size_eq (like : content.Like off content') : content'.size = content.size := by
  cases like <;> assumption

theorem fits (like : content.Like off content') {k : Kind} (fits : content.Fits k) :
    content'.Fits k := by
  cases like <;> exact fits

/-- Contents that are alike everywhere are the same. -/
theorem eq (like : content.Like (fun _ => False) content') : content' = content := by
  cases like with
  | array size same => exact congrArg _ (Array.ext_getElem? fun i => same i id)
  | text size same =>
      rename_i buffer buffer'
      refine congrArg _ (Text.Buffer.toList_inj.mp (List.ext_getElem? fun i => ?_))
      rw [← Text.Buffer.get?_eq, ← Text.Buffer.get?_eq]
      exact same i id
  | binary size same => exact congrArg _ (Array.ext_getElem? fun i => same i id)

theorem replaced (content : Content) (i : Nat) (v : Cell) :
    content.Like (· = i) (content.replaced i v) := by
  cases content with
  | array cells =>
      refine .array (by simp) fun j apart => ?_
      rw [Array.getElem?_modify, if_neg (Ne.symm apart)]
  | text buffer =>
      refine .text (by simp) fun j apart => ?_
      rw [Text.Buffer.get?_eq, Text.Buffer.toList_ofList,
        List.getElem?_modify_ne _ _ (Ne.symm apart), Text.Buffer.get?_eq]
  | binary bytes =>
      refine .binary (by simp) fun j apart => ?_
      rw [Array.getElem?_modify, if_neg (Ne.symm apart)]

end Content.Like

/-- Two series are alike but for some places of the content, and for who owns them. -/
structure Series.Like (off : Nat → Prop) (s s' : Series) : Prop where
  content : s.content.Like off s'.content
  link : s'.link = s.link
  has : ∀ flags, flags &&& Flags.managed = 0 → s'.has flags = s.has flags

namespace Series.Like

variable {off : Nat → Prop} {s s' s'' : Series}

theorem refl (off : Nat → Prop) (s : Series) : s.Like off s := ⟨.refl _ _, rfl, fun _ _ => rfl⟩

theorem trans (first : s.Like off s') (second : s'.Like off s'') : s.Like off s'' where
  content := first.content.trans second.content
  link := second.link.trans first.link
  has flags apart := (second.has flags apart).trans (first.has flags apart)

theorem managed (off : Nat → Prop) (s : Series) : s.Like off s.managed where
  content := .refl _ _
  link := rfl
  has flags apart := s.has_withFlags_of_apart (by rwa [UInt32.and_comm])

end Series.Like

/-- Some places of series. -/
abbrev Footprint := SeriesId → Nat → Prop

/-- One place. -/
abbrev Footprint.only (id : SeriesId) (i : Nat) : Footprint := fun j t => j = id ∧ t = i

/-- A machine differs from another one at some places at most: every series that was there is alike
but for those places, and nothing but the heap has changed. -/
structure Machine.Agrees (m m' : Machine) (off : Footprint) : Prop where
  rest : ∃ heap manuals, m' = { m with heap, manuals }
  series : ∀ j s, m.heap.get? j = some s → ∃ s', m'.heap.get? j = some s' ∧ s.Like (off j) s'

namespace Machine.Agrees

variable {m m' m'' : Machine} {off : Footprint}

theorem refl (m : Machine) (off : Footprint) : m.Agrees m off :=
  ⟨⟨_, _, rfl⟩, fun _ s found => ⟨s, found, .refl _ s⟩⟩

theorem trans (first : m.Agrees m' off) (second : m'.Agrees m'' off) : m.Agrees m'' off where
  rest := by
    obtain ⟨_, _, rfl⟩ := first.rest
    obtain ⟨_, _, rfl⟩ := second.rest
    exact ⟨_, _, rfl⟩
  series j s found := by
    obtain ⟨s', found', like⟩ := first.series j s found
    obtain ⟨s'', found'', like'⟩ := second.series j s' found'
    exact ⟨s'', found'', like.trans like'⟩

theorem of_adopts (adopts : m.Adopts m') (off : Footprint) : m.Agrees m' off where
  rest := adopts.rest
  series j s found := by
    obtain same | ⟨t, found', taken⟩ := adopts.series j
    · exact ⟨s, same.trans found, .refl _ s⟩
    · obtain rfl := Option.some.inj (found.symm.trans found')
      exact ⟨_, taken, .managed _ s⟩

/-- A machine agrees with the one that it was before the collector took series over. -/
theorem of_adopted (adopts : m.Adopts m') (off : Footprint) : m'.Agrees m off where
  rest := by
    obtain ⟨_, _, rfl⟩ := adopts.rest
    exact ⟨_, _, rfl⟩
  series j s found := by
    obtain same | ⟨t, found', taken⟩ := adopts.series j
    · exact ⟨s, same.symm.trans found, .refl _ s⟩
    · obtain rfl := Option.some.inj (found.symm.trans taken)
      have like := Series.Like.managed (off j) t
      exact ⟨t, found', .refl _ _, like.link.symm, fun flags apart => (like.has flags apart).symm⟩

theorem replaced (m : Machine) (id : SeriesId) (i : Nat) (v : Cell) :
    m.Agrees (Path.replaced m id i v) (.only id i) where
  rest := ⟨_, _, rfl⟩
  series j s found := by
    change ∃ s', (m.heap.modify id _).get? j = some s' ∧ _
    rw [Heap.get?_modify, found]
    split_ifs with here
    · subst here
      have row : Footprint.only id i id = (· = i) := funext fun t => propext (and_iff_right rfl)
      refine ⟨_, rfl, ?_, rfl, fun _ _ => rfl⟩
      rw [row]
      exact .replaced s.content i v
    · exact ⟨s, rfl, .refl _ s⟩

theorem alloc (m : Machine) (s : Series) (off : Footprint) :
    m.Agrees { m with heap := (m.heap.alloc s).2 } off where
  rest := ⟨_, _, rfl⟩
  series j t found := by
    refine ⟨t, ?_, .refl _ t⟩
    change (m.heap.alloc s).2.get? j = _
    have fresh := m.heap.alloc_fresh s
    rw [Heap.get?_alloc, if_neg, found]
    rintro rfl
    rw [found] at fresh
    cases fresh

theorem symbols (agrees : m.Agrees m' off) : m'.symbols = m.symbols := by
  obtain ⟨_, _, rfl⟩ := agrees.rest
  rfl

theorem stack (agrees : m.Agrees m' off) : m'.stack = m.stack := by
  obtain ⟨_, _, rfl⟩ := agrees.rest
  rfl

theorem isLive (agrees : m.Agrees m' off) {j : SeriesId} (live : m.heap.isLive j = true) :
    m'.heap.isLive j = true := by
  obtain ⟨s, found⟩ := Heap.isLive_iff.mp live
  obtain ⟨s', found', -⟩ := agrees.series j s found
  exact Heap.isLive_iff.mpr ⟨s', found'⟩

theorem ties (agrees : m.Agrees m' off) {c : Cell} {specifier : Specifier}
    (ties : m.Ties c specifier) : m'.Ties c specifier :=
  fun paramlist varlist relative same => agrees.isLive (ties paramlist varlist relative same)

theorem hasFlag (agrees : m.Agrees m' off) {j : SeriesId} {flags : Flags} {b : Bool}
    (apart : flags &&& Flags.managed = 0) (asked : Query.hasFlag j flags m = .ok b) :
    Query.hasFlag j flags m' = .ok b := by
  obtain ⟨s, found, rfl⟩ := Query.hasFlag_eq_ok.mp asked
  obtain ⟨s', found', like⟩ := agrees.series j s found
  exact Query.hasFlag_eq_ok.mpr ⟨s', found', like.has flags apart⟩

/-- An array has the cells that it had, but for those places. -/
theorem cells (agrees : m.Agrees m' off) {j : SeriesId} {held : Array Cell}
    (listed : Query.cells j m = .ok held) :
    ∃ held', Query.cells j m' = .ok held' ∧ held'.size = held.size ∧
      ∀ t, ¬ off j t → held'[t]? = held[t]? := by
  obtain ⟨s, live, content⟩ := Query.cells_eq_ok.mp listed
  obtain ⟨s', live', like⟩ := agrees.series j s live
  have alike := like.content
  rw [content] at alike
  generalize found : s'.content = content' at alike
  cases alike with
  | array size same => exact ⟨_, Query.cells_eq_ok.mpr ⟨s', live', found⟩, size, same⟩

/-- An array at whose places nothing has changed is as it was. -/
theorem cells_eq (agrees : m.Agrees m' off) {j : SeriesId} {held : Array Cell}
    (apart : ∀ t, ¬ off j t) (listed : Query.cells j m = .ok held) :
    Query.cells j m' = .ok held := by
  obtain ⟨held', listed', -, same⟩ := agrees.cells listed
  exact listed'.trans (congrArg _ (Array.ext_getElem? fun t => same t (apart t)))

/-- A cell at another place is as it was. -/
theorem cell (agrees : m.Agrees m' off) {j : SeriesId} {t : Nat} {c : Cell}
    (found : Query.cell j t m = .ok c) (apart : ¬ off j t) : Query.cell j t m' = .ok c := by
  obtain ⟨held, listed, here⟩ := Query.cell_eq_ok.mp found
  obtain ⟨held', listed', -, same⟩ := agrees.cells listed
  exact Query.cell_eq_ok.mpr ⟨held', listed', (same t apart).trans here⟩

/-- A cell is still there. -/
theorem exists_cell (agrees : m.Agrees m' off) {j : SeriesId} {t : Nat} {c : Cell}
    (found : Query.cell j t m = .ok c) : ∃ c', Query.cell j t m' = .ok c' := by
  obtain ⟨held, listed, here⟩ := Query.cell_eq_ok.mp found
  obtain ⟨held', listed', size, -⟩ := agrees.cells listed
  have inside : t < held'.size := size ▸ (Array.getElem?_eq_some_iff.mp here).1
  exact ⟨held'[t], Query.cell_eq_ok.mpr ⟨held', listed', Array.getElem?_eq_getElem inside⟩⟩

end Machine.Agrees

end Homoicon
