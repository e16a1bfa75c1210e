import Homoicon.Proofs.Contexts.Distinct
import Homoicon.Proofs.Contexts.Settling
import Homoicon.Proofs.Exchange.Import

/-!
# Variables of running code

Where the words of a function's or a loop's code are found, and which variables they refer to there.
The code is a copy, with the same words in the same places; in a call each word that names a
parameter is looked up in that call, and in a loop each word that names a variable of the loop in
the loop's context, whatever arrays and quotes kept on cells are around it.
-/

namespace Homoicon

/-- Two cells that are alike but for what their words refer to. -/
structure Cell.Alike (c c' : Cell) : Prop where
  kind : c'.kind = c.kind
  quote : c'.quote = c.quote
  wordSymbol? : c'.wordSymbol? = c.wordSymbol?

namespace Cell.Alike

variable {c c' c'' : Cell}

theorem refl (c : Cell) : c.Alike c := ⟨rfl, rfl, rfl⟩

theorem trans (first : c.Alike c') (second : c'.Alike c'') : c.Alike c'' :=
  ⟨second.kind.trans first.kind, second.quote.trans first.quote,
    second.wordSymbol?.trans first.wordSymbol?⟩

end Cell.Alike

/-- A cell is found by the positions of the arrays around it and its own; where those of the first
array are looked up is known, and so where the cell is. -/
inductive Machine.Finds (m : Machine) : SeriesId → Specifier → List Nat → Cell → Specifier → Prop where
  | here {id : SeriesId} {s : Specifier} {i : Nat} {c : Cell} :
      Query.cell id i m = .ok c → Finds m id s [i] c s
  | within {id inner : SeriesId} {s s' : Specifier} {i : Nat} {path : List Nat} {c d : Cell} :
      Query.cell id i m = .ok c → c.array? = some inner →
      Finds m inner (Query.deriveSpecifier c s) path d s' → Finds m id s (i :: path) d s'

/-- A machine keeps its arrays and its contexts while it gets new ones. -/
structure Machine.Retains (m m' : Machine) : Prop where
  linked : ∀ context keylist, Query.keylist context m = .ok keylist →
    Query.keylist context m' = .ok keylist
  cells : ∀ id held, Query.cells id m = .ok held → Query.cells id m' = .ok held

namespace Machine

variable {m m' m'' : Machine} {id : SeriesId} {s s' : Specifier} {path : List Nat} {c : Cell}

namespace Retains

theorem refl (m : Machine) : m.Retains m := ⟨fun _ _ linked => linked, fun _ _ found => found⟩

theorem trans (first : m.Retains m') (second : m'.Retains m'') : m.Retains m'' :=
  ⟨fun _ _ linked => second.linked _ _ (first.linked _ _ linked),
    fun _ _ found => second.cells _ _ (first.cells _ _ found)⟩

theorem cell (retains : m.Retains m') {i : Nat} (found : Query.cell id i m = .ok c) :
    Query.cell id i m' = .ok c := by
  obtain ⟨held, cells, here⟩ := Query.cell_eq_ok.mp found
  exact Query.cell_eq_ok.mpr ⟨held, retains.cells id held cells, here⟩

theorem sameHeap (heap : m'.heap = m.heap) : m.Retains m' where
  linked context keylist linked := by
    obtain ⟨t, live, link⟩ := Law.keylist_eq_ok.mp linked
    exact Law.keylist_eq_ok.mpr ⟨t, heap ▸ live, link⟩
  cells id held found := by
    obtain ⟨t, live, content⟩ := Query.cells_eq_ok.mp found
    exact Query.cells_eq_ok.mpr ⟨t, heap ▸ live, content⟩

theorem alloc (m : Machine) (s : Series) :
    m.Retains { m with heap := (m.heap.alloc s).2 } where
  linked context keylist linked := by
    obtain ⟨t, live, link⟩ := Law.keylist_eq_ok.mp linked
    exact Law.keylist_eq_ok.mpr ⟨t, (Extends.alloc m s).get? _ _ live, link⟩
  cells id held found := (Extends.alloc m s).cells found

theorem setFlag {flags : Flags} (done : Interp.setFlag id flags m = .ok () m') :
    m.Retains m' := by
  unfold Interp.setFlag Interp.modifySeries at done
  split at done
  · cases done
    refine ⟨fun context keylist linked => ?_, fun other held found => ?_⟩
    · obtain ⟨t, live, link⟩ := Law.keylist_eq_ok.mp linked
      refine Law.keylist_eq_ok.mpr ?_
      change ∃ s, (m.heap.modify id _).get? context = some s ∧ _
      rw [Heap.get?_modify, live]
      split
      · exact ⟨_, rfl, link⟩
      · exact ⟨_, rfl, link⟩
    · obtain ⟨t, live, content⟩ := Query.cells_eq_ok.mp found
      refine Query.cells_eq_ok.mpr ?_
      change ∃ s, (m.heap.modify id _).get? other = some s ∧ _
      rw [Heap.get?_modify, live]
      split
      · exact ⟨_, rfl, content⟩
      · exact ⟨_, rfl, content⟩
  · cases done

end Retains

namespace Finds

theorem retain (retains : m.Retains m') (at_ : m.Finds id s path c s') : m'.Finds id s path c s' := by
  induction at_ with
  | here found => exact .here (retains.cell found)
  | within found leads _ ih => exact .within (retains.cell found) leads ih

theorem path_cons (at_ : m.Finds id s path c s') : ∃ i rest, path = i :: rest := by
  cases at_ <;> exact ⟨_, _, rfl⟩

/-- The same place, with the first array looked up elsewhere. -/
theorem elsewhere (at_ : m.Finds id s path c s') (t : Specifier) : ∃ t', m.Finds id t path c t' := by
  induction at_ generalizing t with
  | here found => exact ⟨t, .here found⟩
  | within found leads _ ih =>
      obtain ⟨t', there⟩ := ih _
      exact ⟨t', .within found leads there⟩

end Finds

end Machine

/-! ## Copies -/

/-- What stands at places within an array stands at the same ones within another. -/
def Machine.Mirrors (m m' : Machine) (source copy : SeriesId) (index : Nat) : Prop :=
  ∀ ⦃i path c s s'⦄, m.Finds source s ((index + i) :: path) c s' → ∀ t, ∃ c' t',
    m'.Finds copy t (i :: path) c' t' ∧ c.Alike c'

namespace Interp

open Machine

variable {m m' : Machine} {c c' : Cell} {specifier : Specifier}

theorem ensureManaged_retains {id : SeriesId} (done : ensureManaged id m = .ok () m') :
    m.Retains m' := by
  obtain ⟨owned, -, done⟩ := lift_bind_eq_ok.mp done
  split at done
  · obtain ⟨_, between, flagged, done⟩ := bind_eq_ok.mp done
    cases done
    exact (Retains.setFlag flagged).trans (.sameHeap rfl)
  · cases done
    exact .refl m

theorem derelativize_retains (done : derelativize c specifier m = .ok c' m') :
    m.Retains m' ∧ c.Alike c' ∧ c'.array? = c.array? := by
  unfold derelativize at done
  cases binding : c.binding with
  | relative paramlist =>
      rw [binding] at done
      cases specifier with
      | some varlist =>
          obtain ⟨_, between, managed, done⟩ := bind_eq_ok.mp done
          cases done
          exact ⟨ensureManaged_retains managed, ⟨rfl, rfl, rfl⟩, rfl⟩
      | none =>
          cases done
          exact ⟨.refl _, .refl _, rfl⟩
  | unbound | specific =>
      rw [binding] at done
      cases done
      exact ⟨.refl _, .refl _, rfl⟩

/-- A copied cell is like the one it is made from, also in what it leads to. -/
def Copies (base m : Machine) (c c' : Cell) : Prop :=
  c.Alike c' ∧ ∀ ⦃inner i path d s s'⦄, c.array? = some inner →
    base.Finds inner s (i :: path) d s' → ∃ inner', c'.array? = some inner' ∧
      ∀ t, ∃ d' t', m.Finds inner' t (i :: path) d' t' ∧ d.Alike d'

theorem Copies.retain {base : Machine} (copies : Copies base m c c') (retains : m.Retains m') :
    Copies base m' c c' := by
  refine ⟨copies.1, fun inner i path d s s' leads there => ?_⟩
  obtain ⟨inner', leads', found⟩ := copies.2 leads there
  refine ⟨inner', leads', fun t => ?_⟩
  obtain ⟨d', t', there', alike⟩ := found t
  exact ⟨d', t', there'.retain retains, alike⟩

theorem mapM_copies {base : Machine} {f : Cell → Interp Cell}
    (each : ∀ ⦃m m' c c'⦄, base.Retains m → f c m = .ok c' m' → m.Retains m' ∧ Copies base m' c c')
    {cells copied : List Cell} (since : base.Retains m) (done : cells.mapM f m = .ok copied m') :
    m.Retains m' ∧ List.Forall₂ (Copies base m') cells copied := by
  induction cells generalizing m copied with
  | nil =>
      cases done
      exact ⟨.refl _, .nil⟩
  | cons c cells ih =>
      rw [List.mapM_cons] at done
      obtain ⟨c', between, first, done⟩ := bind_eq_ok.mp done
      obtain ⟨rest, last, others, done⟩ := bind_eq_ok.mp done
      cases done
      obtain ⟨retains, copies⟩ := each since first
      obtain ⟨retains', copied⟩ := ih (since.trans retains) others
      exact ⟨retains.trans retains', .cons (copies.retain retains') copied⟩

/-- A copied cell that leads where its source does. -/
theorem copies_of_same {base : Machine} (since : base.Retains m) (alike : c.Alike c')
    (leads : c'.array? = c.array?) : Copies base m c c' := by
  refine ⟨alike, fun inner i path d s s' led there => ⟨inner, leads.trans led, fun t => ?_⟩⟩
  obtain ⟨t', there'⟩ := (there.retain since).elsewhere t
  exact ⟨d, t', there', .refl d⟩

/-- A copied cell that leads to a copy of what its source leads to. -/
theorem copies_of_mirror {base between : Machine} {inner copy : SeriesId} (newline : Bool)
    (since : base.Retains between) (plain : c.quote = 0) (leads : c.array? = some inner)
    (mirrors : between.Mirrors m inner copy 0) :
    Copies base m c { Cell.series c.kind copy c.index with newline } := by
  obtain ⟨array, series⟩ := Cell.array?_eq_some.mp leads
  refine ⟨⟨rfl, plain.symm, ?_⟩, fun inner' i path d s s' led there => ⟨copy, ?_, fun t => ?_⟩⟩
  · obtain ⟨kind, payload⟩ := c
    cases payload <;> first | rfl | cases series
  · exact Cell.array?_eq_some.mpr ⟨array, rfl⟩
  · obtain rfl := Option.some.inj (leads.symm.trans led)
    exact mirrors (by rw [Nat.zero_add]; exact there.retain since) t

theorem forall₂_getElem? {α β : Type} {R : α → β → Prop} {as : List α} {bs : List β}
    (all : List.Forall₂ R as bs) {i : Nat} {a : α} (at_ : as[i]? = some a) :
    ∃ b, bs[i]? = some b ∧ R a b := by
  induction all generalizing i with
  | nil => cases at_
  | cons first _ ih =>
      cases i with
      | zero =>
          cases at_
          exact ⟨_, rfl, first⟩
      | succ i => exact ih at_

theorem copyDeepIn_mirrors {depth index : Nat} {source copy : SeriesId}
    (done : copyDeepIn depth source index specifier m = .ok copy m') :
    m.Retains m' ∧ m.Mirrors m' source copy index := by
  induction depth generalizing source index specifier copy m m' with
  | zero => cases done
  | succ depth ih =>
      obtain ⟨cells, found, done⟩ := lift_bind_eq_ok.mp done
      obtain ⟨copied, between, mapped, done⟩ := bind_eq_ok.mp done
      obtain ⟨retains, copies⟩ : m.Retains between ∧
          List.Forall₂ (Copies m between) cells copied := by
        refine mapM_copies (fun n n' c c' since made => ?_) (.refl m) mapped
        obtain ⟨resolved, n₁, resolving, made⟩ := bind_eq_ok.mp made
        obtain ⟨retains, alike, leads⟩ := derelativize_retains resolving
        by_cases plain : (c.quote == 0 && c.kind.isAnyArray) = true
        · rw [if_pos plain] at made
          obtain ⟨unquoted, array⟩ := Bool.and_eq_true_iff.mp plain
          cases series : c.seriesId? with
          | none =>
              rw [series] at made
              cases made
              exact ⟨retains, copies_of_same (since.trans retains) alike leads⟩
          | some inner =>
              rw [series] at made
              obtain ⟨copy, n₂, copying, made⟩ := bind_eq_ok.mp made
              cases made
              obtain ⟨retains', mirrors⟩ := ih copying
              exact ⟨retains.trans retains', copies_of_mirror _ (since.trans retains)
                (beq_iff_eq.mp unquoted) (Cell.array?_eq_some.mpr ⟨array, series⟩) mirrors⟩
        · rw [if_neg plain] at made
          cases made
          exact ⟨retains, copies_of_same (since.trans retains) alike leads⟩
      cases done
      refine ⟨retains.trans (.alloc between _), fun i path c s s' there t => ?_⟩
      have copied_ (c : Cell) (here : Query.cell source (index + i) m = .ok c) : ∃ c',
          Query.cell (between.heap.alloc (Series.ofCells copied.toArray).managed).1 i
            { between with
              heap := (between.heap.alloc (Series.ofCells copied.toArray).managed).2 } = .ok c' ∧
          Copies m between c c' := by
        obtain ⟨held, foundHeld, at_⟩ := Query.cell_eq_ok.mp here
        obtain ⟨held', same, dropped⟩ := Query.bind_eq_ok.mp found
        obtain rfl := Except.ok.inj (foundHeld.symm.trans same)
        obtain rfl := Except.ok.inj dropped
        have place : (held.toList.drop index)[i]? = some c := by
          rw [List.getElem?_drop, Array.getElem?_toList, at_]
        obtain ⟨c', place', each⟩ := forall₂_getElem? copies place
        exact ⟨c', Query.cell_eq_ok.mpr ⟨_, Query.cells_eq_ok.mpr
          ⟨_, get?_alloc_self between _, rfl⟩, (List.getElem?_toArray ..).trans place'⟩, each⟩
      cases there with
      | here found =>
          obtain ⟨c', here, each⟩ := copied_ c found
          exact ⟨c', t, .here here, each.1⟩
      | within found leads there =>
          obtain ⟨c', here, each⟩ := copied_ _ found
          obtain ⟨j, rest, rfl⟩ := there.path_cons
          obtain ⟨inner', leads', inside⟩ := each.2 leads there
          obtain ⟨d', t', there', alike⟩ := inside (Query.deriveSpecifier c' t)
          exact ⟨d', t', .within here leads' (there'.retain (.alloc between _)), alike⟩

/-- A deep copy has all of the array. -/
theorem copyArrayDeep_mirrors {index : Nat} {source copy : SeriesId}
    (done : copyArrayDeep source index specifier m = .ok copy m') :
    m.Retains m' ∧ m.Mirrors m' source copy index := by
  have copied : copyDeepIn (m.heap.slots.size + 1) source index specifier m = .ok copy m' := done
  exact copyDeepIn_mirrors copied

end Interp

/-! ## Resolving -/

namespace Machine

variable {a : Aim} {m m' n : Machine} {id : SeriesId} {s s' : Specifier} {path : List Nat}
  {c : Cell} {symbol : SymbolId} {slot depth : Nat}

/-- Binding leaves every cell in its place. -/
theorem Finds.settles (found : m.Finds id s path c s') (settles : m.Settles a m')
    (t : Specifier) : ∃ c' t', m'.Finds id t path c' t' ∧ c.Alike c' := by
  induction found generalizing t with
  | here here =>
      obtain ⟨c', here', either⟩ := settles.cell here
      refine ⟨c', t, .here here', ?_⟩
      rcases either with rfl | rfl
      · exact .refl c'
      · exact ⟨a.kind_settle _, a.quote_settle _, a.wordSymbol?_settle _⟩
  | within here leads _ ih =>
      obtain ⟨c', here', either⟩ := settles.cell here
      obtain ⟨d', t', there, alike⟩ := ih (Query.deriveSpecifier c' t)
      exact ⟨d', t', .within here' ((sameSign either).2.2.trans leads) there, alike⟩

theorem SettledTo.cell {i : Nat} (settled : m.SettledTo a depth id)
    (here : Query.cell id i m = .ok c) : a.settle c = c ∧
      ∀ inner, c.array? = some inner → ∃ depth, m.SettledTo a depth inner := by
  cases depth with
  | zero => exact settled.elim
  | succ depth =>
      obtain ⟨held, cells, each⟩ := settled
      obtain ⟨_, same, at_⟩ := Query.cell_eq_ok.mp here
      obtain rfl := Except.ok.inj (cells.symm.trans same)
      obtain ⟨done, within⟩ := each _ (Array.mem_of_getElem? at_)
      exact ⟨done, fun inner leads => ⟨depth, within inner leads⟩⟩

/-- Everything in reach of a walk refers to where it is to. -/
theorem SettledTo.settle (settled : m.SettledTo a depth id) (found : m.Finds id s path c s') :
    a.settle c = c := by
  induction found generalizing depth with
  | here here => exact (settled.cell here).1
  | within here leads _ ih =>
      obtain ⟨_, inside⟩ := (settled.cell here).2 _ leads
      exact ih inside

/-- In the code of a function every array is looked up in the call. -/
theorem SettledTo.specifier {t : Symbols} {paramlist : SeriesId} {params : Array Cell}
    (settled : m.SettledTo (.params t paramlist params) depth id) (found : m.Finds id s path c s') :
    s' = s := by
  induction found generalizing depth with
  | here => rfl
  | @within _ _ s _ _ _ c _ here leads _ ih =>
      obtain ⟨done, within⟩ := settled.cell here
      obtain ⟨_, inside⟩ := within _ leads
      have relative : c.withBinding (.relative paramlist) = c :=
        ((Aim.params t paramlist params).settle_array leads).symm.trans done
      rw [ih inside, ← relative]
      rfl

/-- The variables that a call of an action, or a context, has while its code runs. -/
structure Serves (m : Machine) (varlist keylist : SeriesId) (count : Nat) : Prop where
  accessible : Query.checkAccessible varlist m = .ok ()
  linked : Query.keylist varlist m = .ok keylist
  size : Query.size varlist m = .ok count

/-- A live context that is open serves its own words. -/
theorem Serves.of_live {varlist keylist : SeriesId} {series : Series}
    (live : n.heap.get? varlist = some series) (open_ : series.has Flags.inaccessible = false)
    (linked : series.link = .keylist keylist) : n.Serves varlist keylist series.content.size where
  accessible := by
    have alive : Query.isLive varlist n = .ok true :=
      congrArg Except.ok (Heap.isLive_iff.mpr ⟨_, live⟩)
    rw [Query.checkAccessible, Query.bind_ok alive]
    exact Query.bind_ok (Query.hasFlag_eq_ok.mpr ⟨_, live, open_⟩) _
  linked := Law.keylist_eq_ok.mpr ⟨_, live, linked⟩
  size := Query.bind_ok (Query.series_eq_ok.mpr live) _

theorem Serves.resolveWord {varlist keylist : SeriesId} {count : Nat}
    (serves : n.Serves varlist keylist count) (payload : c.payload = .word symbol slot)
    (binding : c.binding = .specific varlist ∨ c.binding = .relative keylist ∧ s = some varlist)
    (positive : slot ≠ 0) (inside : slot < count) :
    Query.resolveWord c s n = .ok ⟨varlist, slot⟩ := by
  have name : c.wordSymbol? = some symbol := by
    unfold Cell.wordSymbol?
    rw [payload]
  have index : c.wordIndex = slot := by
    unfold Cell.wordIndex
    rw [payload]
  have outside : (slot == 0) = false := beq_eq_false_iff_ne.mpr positive
  have within : decide (count ≤ slot) = false := decide_eq_false (Nat.not_le.mpr inside)
  unfold Query.resolveWord
  rw [name, Query.bind_ok (Query.expect_some_run symbol n), index]
  rcases binding with binding | ⟨binding, rfl⟩
  · rw [binding]
    refine (Query.bind_ok serves.accessible _).trans ((Query.bind_ok serves.size _).trans ?_)
    rw [outside, within]
    rfl
  · rw [binding]
    refine (Query.bind_ok serves.linked _).trans ?_
    rw [beq_self_eq_true, if_pos rfl]
    refine (Query.bind_ok serves.accessible _).trans ((Query.bind_ok serves.size _).trans ?_)
    rw [outside, within]
    rfl

/-- A place with a word stays while the first cell of a paramlist, which is blank, is written. -/
theorem Finds.fill {paramlist : SeriesId} (found : m.Finds id s path c s')
    (word : c.kind.isAnyWord = true) (blank : Query.cell paramlist 0 m = .ok Cell.blank)
    (kept : ∀ id i c, id ≠ paramlist ∨ i ≠ 0 → Query.cell id i m = .ok c →
      Query.cell id i m' = .ok c) : m'.Finds id s path c s' := by
  have apart {id : SeriesId} {i : Nat} {c : Cell} (here : Query.cell id i m = .ok c)
      (other : c ≠ Cell.blank) : id ≠ paramlist ∨ i ≠ 0 := by
    by_contra both
    obtain ⟨rfl, rfl⟩ : id = paramlist ∧ i = 0 := by simpa [not_or] using both
    exact other (Except.ok.inj (here.symm.trans blank))
  induction found with
  | here here =>
      refine .here (kept _ _ _ (apart here ?_) here)
      rintro rfl
      cases word
  | within here leads _ ih =>
      refine .within (kept _ _ _ (apart here ?_) here) leads (ih word)
      rintro rfl
      cases leads

end Machine

/-- A word that refers to where it is to. -/
theorem Aim.refers {a : Aim} {c : Cell} {symbol : SymbolId} {slot : Nat} (settled : a.settle c = c)
    (kind : c.kind.isAnyWord = true) (name : c.wordSymbol? = some symbol)
    (placed : a.slot? symbol = some slot) :
    c.binding = a.binding ∧ c.payload = .word symbol slot := by
  have same := (a.settle_word kind name placed).symm.trans settled
  exact ⟨congrArg Cell.binding same.symm, congrArg Cell.payload same.symm⟩

/-- A name is found in the same place of two lists that have the same names. -/
theorem Symbols.findName?_congr {t : Symbols} {names names' : Array Cell} {canon : SymbolId}
    (same : names'.map Cell.keyName? = names.map Cell.keyName?) :
    t.findName? names' canon = t.findName? names canon := by
  have mapped (list : Array Cell) : t.findName? list canon =
      (list.map Cell.keyName?).findIdx? fun name => name.any (t.canon · == canon) := by
    rw [Symbols.findName?_eq, Array.findIdx?_map]
    rfl
  rw [mapped, mapped, same]

namespace Interp

open Machine

variable {m m' : Machine} {paramlist : SeriesId} {params : Array Cell}

theorem storeCell_other {id other : SeriesId} {i j : Nat} {c d : Cell}
    (apart : other ≠ id ∨ j ≠ i) (found : Query.cell other j m = .ok d) :
    Query.cell other j (m.stored id i c) = .ok d := by
  obtain ⟨held, cells, at_⟩ := Query.cell_eq_ok.mp found
  obtain ⟨s, live, content⟩ := Query.cells_eq_ok.mp cells
  by_cases same : other = id
  · subst same
    have apart : i ≠ j := (apart.resolve_left (· rfl)).symm
    refine Query.cell_eq_ok.mpr ⟨_, Query.cells_eq_ok.mpr
      ⟨_, get?_stored_self live content, rfl⟩, ?_⟩
    rw [Array.getElem?_modify, if_neg apart, at_]
  · exact Query.cell_eq_ok.mpr ⟨held, Query.cells_eq_ok.mpr
      ⟨s, (get?_stored_of_ne same).trans live, content⟩, at_⟩

theorem setFlag_symbols {id : SeriesId} {flags : Flags} (done : setFlag id flags m = .ok () m') :
    m'.symbols = m.symbols := by
  unfold setFlag modifySeries at done
  split at done <;> cases done
  rfl

/-- Completing a paramlist writes its first cell only. -/
theorem makeAction_eq_ok {dispatcher : Dispatcher} {details : List Cell}
    {exemplar : Option SeriesId} {action : Action} (found : Query.cells paramlist m = .ok params)
    (made : makeAction paramlist dispatcher details exemplar m = .ok action m') :
    action.paramlist = paramlist ∧ m'.symbols = m.symbols ∧
      Query.cells paramlist m' =
        .ok (params.modify 0 fun _ => Cell.action action .unbound) ∧
      Query.cells action.details m' = .ok details.toArray ∧
      ∀ id i c, id ≠ paramlist ∨ i ≠ 0 → Query.cell id i m = .ok c →
        Query.cell id i m' = .ok c := by
  obtain ⟨id, m₁, allocated, made⟩ := bind_eq_ok.mp made
  obtain ⟨s, code, allocated⟩ : ∃ s : Series, s.content = .array details.toArray ∧
      alloc s m = .ok id m₁ := ⟨_, rfl, allocated⟩
  rw [alloc_run] at allocated
  obtain ⟨rfl, rfl⟩ := EStateM.Result.ok.inj allocated
  obtain ⟨_, m₂, stored, made⟩ := bind_eq_ok.mp made
  obtain ⟨_, m₃, flagged, made⟩ := bind_eq_ok.mp made
  cases made
  obtain ⟨flags, -, flagged⟩ := lift_bind_eq_ok.mp flagged
  obtain ⟨held, cells, inside, rfl⟩ := storeCell_eq_ok.mp stored
  have grown := Retains.alloc m s
  have last := Retains.setFlag flagged
  have named := grown.cells paramlist params found
  obtain rfl := Except.ok.inj (named.symm.trans cells)
  obtain ⟨t, live, content⟩ := Query.cells_eq_ok.mp named
  have apart : (m.heap.alloc s).1 ≠ paramlist := by
    rintro rfl
    obtain ⟨_, old, -⟩ := Query.cells_eq_ok.mp found
    rw [Heap.alloc_fresh] at old
    cases old
  have symbols := setFlag_symbols flagged
  refine ⟨rfl, symbols, ?_, ?_, fun id i c other here => ?_⟩
  · exact last.cells _ _ (Query.cells_eq_ok.mpr ⟨_, get?_stored_self live content, rfl⟩)
  · refine last.cells _ _ (Query.cells_eq_ok.mpr ⟨s, ?_, code⟩)
    exact (get?_stored_of_ne apart).trans (get?_alloc_self m s)
  · exact last.cell (storeCell_other other (grown.cell here))

theorem alloc_retains {s : Series} {id : SeriesId} (made : alloc s m = .ok id m') :
    m.Retains m' := by
  rw [alloc_run] at made
  obtain ⟨-, rfl⟩ := EStateM.Result.ok.inj made
  exact .alloc m s

theorem makeParamlist_retains {spec id : SeriesId} {index : Nat} {ownReturn : Bool}
    (made : makeParamlist spec index ownReturn m = .ok id m') : m.Retains m' := by
  unfold makeParamlist at made
  obtain ⟨items, -, made⟩ := lift_bind_eq_ok.mp made
  obtain ⟨r, -, made⟩ := lift_bind_eq_ok.mp made
  simp only at made
  split at made
  · obtain ⟨symbol, between, interned, made⟩ := bind_eq_ok.mp made
    have heap : between.heap = m.heap := by
      cases interned
      rfl
    exact (Retains.sameHeap heap).trans (alloc_retains made)
  · exact alloc_retains made

/-- How the code of an action came to be: a copy of its source, in which words were bound to the
parameters, was put into the details of the action. -/
structure Coded (m m₂ m₃ m' : Machine) (source copy : SeriesId) (index : Nat) (action : Action)
    (params : Array Cell) : Prop where
  mirrors : m.Mirrors m₂ source copy index
  settles : m₂.Settles (.params m'.symbols action.paramlist params) m₃
  settled : ∃ depth, m₃.SettledTo (.params m'.symbols action.paramlist params) depth copy
  listed : Query.cells action.paramlist m₃ = .ok params
  typesets : ∃ ps : List Typeset, params = (Cell.blank :: ps.map Cell.typeset).toArray
  filled : Query.cells action.paramlist m' =
    .ok (params.modify 0 fun _ => Cell.action action .unbound)
  details : Query.cell action.details 0 m' =
    .ok ((Cell.series .block copy 0).withBinding (.relative action.paramlist))
  kept : ∀ id i c, id ≠ action.paramlist ∨ i ≠ 0 → Query.cell id i m₃ = .ok c →
    Query.cell id i m' = .ok c

theorem Coded.blank {m₂ m₃ : Machine} {source copy : SeriesId} {index : Nat} {action : Action}
    (coded : Coded m m₂ m₃ m' source copy index action params) : params[0]? = some Cell.blank := by
  obtain ⟨ps, rfl⟩ := coded.typesets
  rfl

theorem makeFunc_coded {spec body : Cell} {action : Action}
    (made : makeFunc spec body m = .ok action m') : ∃ source copy m₂ m₃ params,
      body.seriesId? = some source ∧ Coded m m₂ m₃ m' source copy body.index action params := by
  obtain ⟨specId, -, made⟩ := lift_bind_eq_ok.mp made
  obtain ⟨paramlist, m₁, listed, made⟩ := bind_eq_ok.mp made
  obtain ⟨source, given, made⟩ := lift_bind_eq_ok.mp made
  obtain ⟨copy, m₂, copied, made⟩ := bind_eq_ok.mp made
  obtain ⟨_, m₃, bound, made⟩ := bind_eq_ok.mp made
  obtain ⟨params, added, names, -⟩ := makeParamlist_distinct listed
  obtain ⟨retains, mirrors⟩ := copyArrayDeep_mirrors copied
  have plain : ∀ c ∈ (Cell.blank :: (params ++ added).map Cell.typeset).toArray,
      c.kind.isAnyWord = false ∧ c.array? = none := by
    intro c member
    rcases List.mem_cons.mp (List.mem_toArray.mp member) with rfl | member
    · exact ⟨rfl, rfl⟩
    · obtain ⟨p, -, rfl⟩ := List.mem_map.mp member
      exact ⟨rfl, rfl⟩
  obtain ⟨settles, settled⟩ := relativizeDeep_settles
    (fun c member => Aim.settle_other _ (plain c member).1 (plain c member).2)
    (retains.cells _ _ names) bound
  have still := settles.cells_settled (retains.cells _ _ names) fun c member =>
    Aim.settle_other _ (plain c member).1 (plain c member).2
  obtain ⟨rfl, symbols, filled, details, kept⟩ := makeAction_eq_ok still made
  have same := symbols.trans settles.symbols
  have since := makeParamlist_retains listed
  refine ⟨source, copy, m₂, m₃, (Cell.blank :: (params ++ added).map Cell.typeset).toArray,
    Query.arrayOf_eq_ok.mp given, ?_⟩
  rw [← same] at settles settled
  exact {
    mirrors := fun i path c s s' there => mirrors (there.retain since)
    settles
    settled
    listed := still
    typesets := ⟨params ++ added, rfl⟩
    filled
    details := Query.cell_eq_ok.mpr ⟨_, details, rfl⟩
    kept }

end Interp

namespace Machine

open Interp

/-- A name in a list that begins with a blank. -/
theorem findName?_behind {t : Symbols} {names : Array Cell} {canon : SymbolId} {slot : Nat}
    (blank : names[0]? = some Cell.blank) (found : t.findName? names canon = some slot) :
    slot ≠ 0 ∧ slot < names.size := by
  obtain ⟨inside, here, -⟩ := Array.findIdx?_eq_some_iff_getElem.mp
    ((Symbols.findName?_eq _ _).symm.trans found)
  refine ⟨?_, inside⟩
  rintro rfl
  rw [Array.getElem?_eq_getElem inside] at blank
  rw [Option.some.inj blank] at here
  cases here

/-- A word of a function's body that names a parameter stands in the same place of its code, and
refers to the parameter's slot in each call. -/
theorem func_resolves {spec body c : Cell} {m m' : Machine} {action : Action} {source : SeriesId}
    {i slot : Nat} {path : List Nat} {s s' : Specifier} {symbol : SymbolId}
    (made : makeFunc spec body m = .ok action m') (given : body.seriesId? = some source)
    (found : m.Finds source s ((body.index + i) :: path) c s') (word : c.kind.isAnyWord = true)
    (name : c.wordSymbol? = some symbol)
    (named : Query.findParam? action.paramlist symbol m' = .ok (some slot)) (varlist : SeriesId) :
    ∃ c', m'.Finds action.details (some varlist) (0 :: i :: path) c' (some varlist) ∧ c.Alike c' ∧
      ∀ n count, Serves n varlist action.paramlist count →
        Query.size action.paramlist m' = .ok count →
        Query.resolveWord c' (some varlist) n = .ok ⟨varlist, slot⟩ := by
  obtain ⟨_, copy, m₂, m₃, params, given', coded⟩ := makeFunc_coded made
  obtain rfl := Option.some.inj (given.symm.trans given')
  obtain ⟨c₁, t₁, found₁, alike₁⟩ := coded.mirrors found (some varlist)
  obtain ⟨c₂, t₂, found₂, alike₂⟩ := found₁.settles coded.settles (some varlist)
  obtain ⟨depth, settled⟩ := coded.settled
  have alike := alike₁.trans alike₂
  obtain rfl := settled.specifier found₂
  have word₂ : c₂.kind.isAnyWord = true := alike.kind ▸ word
  have nameless : (params.modify 0 fun _ => Cell.action action .unbound).map Cell.keyName? =
      params.map Cell.keyName? := by
    refine Array.ext_getElem? fun place => ?_
    rw [Array.getElem?_map, Array.getElem?_map, Array.getElem?_modify]
    split
    · rename_i here
      rw [← here, coded.blank]
      rfl
    · rfl
  have placed : m'.symbols.findName? params (m'.symbols.canon symbol) = some slot := by
    rw [Query.findParam?, Query.bind_ok coded.filled, Query.bind_ok (Query.read_run m')] at named
    rw [← Symbols.findName?_congr nameless]
    exact Except.ok.inj named
  obtain ⟨binding, payload⟩ := Aim.refers (settled.settle found₂) word₂
    (alike.wordSymbol?.trans name) placed
  obtain ⟨positive, inside⟩ := findName?_behind coded.blank placed
  have blank : Query.cell action.paramlist 0 m₃ = .ok Cell.blank :=
    Query.cell_eq_ok.mpr ⟨params, coded.listed, coded.blank⟩
  refine ⟨c₂, .within coded.details rfl (found₂.fill word₂ blank coded.kept), alike, ?_⟩
  intro n count serves size
  have count_ : count = params.size := by
    obtain ⟨series, live, content⟩ := Query.cells_eq_ok.mp coded.filled
    rw [Query.size, Query.bind_ok (Query.series_eq_ok.mpr live), content] at size
    exact (Except.ok.inj size).symm.trans Array.size_modify
  exact serves.resolveWord payload (.inr ⟨binding, rfl⟩) positive (count_ ▸ inside)

theorem retains_of_newContext {m m' : Machine} {kind : Kind}
    {keys : List SymbolId} {context : SeriesId} (new : NewContext m kind keys context m') :
    m.Retains m' where
  linked other keylist linked := by
    obtain ⟨s, live, link⟩ := Law.keylist_eq_ok.mp linked
    exact Law.keylist_eq_ok.mpr ⟨s, new.kept.get? _ s List.not_mem_nil live, link⟩
  cells id held found := by
    obtain ⟨s, live, content⟩ := Query.cells_eq_ok.mp found
    exact Query.cells_eq_ok.mpr ⟨s, new.kept.get? _ s List.not_mem_nil live, content⟩

/-- A word of a loop's body that names a variable of the loop stands in the same place of the code
that the loop runs, and refers to the variable. -/
theorem loop_resolves {names : List SymbolId} {body c : Cell} {m m₁ m' : Machine}
    {context copy source : SeriesId} {i slot : Nat} {path : List Nat} {s s' : Specifier}
    {symbol : SymbolId} (made : makeContext .object names m = .ok context m₁)
    (bound : copyBoundTo context body m₁ = .ok copy m') (given : body.seriesId? = some source)
    (found : m.Finds source s ((body.index + i) :: path) c s') (word : c.kind.isAnyWord = true)
    (name : c.wordSymbol? = some symbol)
    (named : Query.findKey? context symbol m' = .ok (some slot)) (specifier : Specifier) :
    ∃ c' t, m'.Finds copy specifier (i :: path) c' t ∧ c.Alike c' ∧
      ∀ n keylist count, Serves n context keylist count →
        Query.size context m' = .ok count → Query.resolveWord c' t n = .ok ⟨context, slot⟩ := by
  obtain ⟨_, _, ran, ⟨new⟩⟩ := makeContext_run .object names m
  obtain ⟨rfl, rfl⟩ := EStateM.Result.ok.inj (made.symm.trans ran)
  obtain ⟨_, asked, bound⟩ := lift_bind_eq_ok.mp bound
  obtain rfl := Option.some.inj (given.symm.trans (Query.arrayOf_eq_ok.mp asked))
  obtain ⟨_, m₂, copied, bound⟩ := bind_eq_ok.mp bound
  obtain ⟨_, m₃, bound, done⟩ := bind_eq_ok.mp bound
  cases done
  obtain ⟨retains, mirrors⟩ := copyArrayDeep_mirrors copied
  have plain : ∀ c ∈ (Cell.blank :: names.map keyCell).toArray,
      c.kind.isAnyWord = false ∧ c.array? = none := by
    intro c member
    rcases List.mem_cons.mp (List.mem_toArray.mp member) with rfl | member
    · exact ⟨rfl, rfl⟩
    · obtain ⟨p, -, rfl⟩ := List.mem_map.mp member
      exact ⟨rfl, rfl⟩
  have fixed : ∀ c ∈ (Cell.blank :: names.map keyCell).toArray, (Aim.context m₂.symbols context
      (Cell.blank :: names.map keyCell).toArray).settle c = c :=
    fun c member => Aim.settle_other _ (plain c member).1 (plain c member).2
  have linked : Query.keylist context m₂ = .ok new.keylist :=
    retains.linked _ _ (Law.keylist_eq_ok.mpr ⟨_, new.held, new.link⟩)
  have listed := retains.cells _ _ (Query.cells_eq_ok.mpr ⟨_, new.heldNames, new.nameCells⟩)
  obtain ⟨settles, _, settled⟩ := bindDeep_settles fixed linked listed bound
  obtain ⟨c₁, t₁, found₁, alike₁⟩ := mirrors (found.retain (retains_of_newContext new)) specifier
  obtain ⟨c₂, t₂, found₂, alike₂⟩ := found₁.settles settles specifier
  have alike := alike₁.trans alike₂
  have placed : m₂.symbols.findName? (Cell.blank :: names.map keyCell).toArray
      (m₂.symbols.canon symbol) = some slot := by
    rw [Query.findKey?, Query.bind_ok (settles.linked _ _ linked),
      Query.bind_ok (settles.cells_settled listed fixed), Query.bind_ok (Query.read_run _),
      settles.symbols] at named
    exact Except.ok.inj named
  obtain ⟨binding, payload⟩ := Aim.refers (settled.settle found₂) (alike.kind ▸ word)
    (alike.wordSymbol?.trans name) placed
  obtain ⟨positive, inside⟩ := findName?_behind rfl placed
  refine ⟨c₂, t₂, found₂, alike, fun n keylist count serves size => ?_⟩
  have count_ : count = names.length + 1 := by
    have vars := retains.cells _ _ (Query.cells_eq_ok.mpr ⟨_, new.held, new.varCells⟩)
    obtain ⟨held, cells, same, -⟩ := settles.cells _ _ vars
    obtain ⟨series, live, content⟩ := Query.cells_eq_ok.mp cells
    rw [Query.size, Query.bind_ok (Query.series_eq_ok.mpr live), content] at size
    exact (Except.ok.inj size).symm.trans (same.trans (by simp))
  exact serves.resolveWord payload (.inl binding) positive (by simpa [count_] using inside)

/-- Words of code refer to what they name, within arrays and below quotes that cells keep: in the
code of a function a word that names a parameter stands where it stands in the body, and refers to
the parameter's slot in each call; in the code of a loop a word that names a variable of the loop
stands where it stands in the body, and refers to that variable. -/
theorem code_resolves {body c : Cell} {m : Machine} {source : SeriesId} {i : Nat} {path : List Nat}
    {s s' : Specifier} {symbol : SymbolId} (given : body.seriesId? = some source)
    (found : m.Finds source s ((body.index + i) :: path) c s') (word : c.kind.isAnyWord = true)
    (name : c.wordSymbol? = some symbol) :
    (∀ {spec : Cell} {m' : Machine} {action : Action} {slot : Nat},
      makeFunc spec body m = .ok action m' →
      Query.findParam? action.paramlist symbol m' = .ok (some slot) → ∀ varlist, ∃ c',
        m'.Finds action.details (some varlist) (0 :: i :: path) c' (some varlist) ∧ c.Alike c' ∧
        ∀ n count, Serves n varlist action.paramlist count →
          Query.size action.paramlist m' = .ok count →
          Query.resolveWord c' (some varlist) n = .ok ⟨varlist, slot⟩) ∧
    (∀ {names : List SymbolId} {m₁ m' : Machine} {context copy : SeriesId} {slot : Nat},
      makeContext .object names m = .ok context m₁ → copyBoundTo context body m₁ = .ok copy m' →
      Query.findKey? context symbol m' = .ok (some slot) → ∀ specifier, ∃ c' t,
        m'.Finds copy specifier (i :: path) c' t ∧ c.Alike c' ∧
        ∀ n keylist count, Serves n context keylist count → Query.size context m' = .ok count →
          Query.resolveWord c' t n = .ok ⟨context, slot⟩) := by
  constructor
  · intro spec m' action slot made
    exact func_resolves made given found word name
  · intro names m₁ m' context copy slot made copied
    exact loop_resolves made copied given found word name

/-- A machine with the spec `[x return:]` and the body `[1 '[x]]`. -/
def sampleCode : Machine :=
  { config := {}
    heap :=
      { slots := #[
          some (Series.ofCells #[Cell.word .word ⟨0⟩, Cell.word .setWord ⟨1⟩]),
          some (Series.ofCells #[Cell.integer 1, { Cell.series .block ⟨2⟩ 0 with quote := 1 }]),
          some (Series.ofCells #[Cell.word .word ⟨0⟩])]
        ballast := 100 }
    symbols := { entries := #[⟨"x", "x", ⟨0⟩, ⟨0⟩⟩, ⟨"return", "return", ⟨1⟩, ⟨1⟩⟩] }
    countdown := 1 }

/-- In a call the word in the quoted array of the code is the argument of that call. -/
theorem code_resolves_sampleCode : ∃ action m',
    makeFunc (Cell.series .block ⟨0⟩ 0) (Cell.series .block ⟨1⟩ 0) sampleCode = .ok action m' ∧
      sampleCode.Finds ⟨1⟩ none [1, 0] (Cell.word .word ⟨0⟩) none ∧
      Query.findParam? action.paramlist ⟨0⟩ m' = .ok (some 1) ∧
      ∀ varlist, ∃ c',
        m'.Finds action.details (some varlist) [0, 1, 0] c' (some varlist) ∧
          (Cell.word .word ⟨0⟩).Alike c' ∧
          ∀ n count, Serves n varlist action.paramlist count →
            Query.size action.paramlist m' = .ok count →
            Query.resolveWord c' (some varlist) n = .ok ⟨varlist, 1⟩ := by
  have runs : match makeFunc (Cell.series .block ⟨0⟩ 0) (Cell.series .block ⟨1⟩ 0) sampleCode with
      | .ok action m' => Query.findParam? action.paramlist ⟨0⟩ m' = .ok (some 1)
      | .error .. => False := by cbv
  have found : sampleCode.Finds ⟨1⟩ none [1, 0] (Cell.word .word ⟨0⟩) none :=
    .within rfl rfl (.here rfl)
  split at runs
  case h_1 action m' made =>
    exact ⟨action, m', made, found, runs, (code_resolves rfl found rfl rfl).1 made runs⟩
  case h_2 => cases runs

end Machine

end Homoicon
