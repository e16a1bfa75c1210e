import Homoicon.Library.Making
import Homoicon.Proofs.Contexts.Distinct
import Homoicon.Proofs.Keeping.Laws

/-!
# Contexts keep their names apart

A context is made with the names it is given, and grows only by names that it does not have.  So
names that are looked up by their canon are unique, among parameters as in contexts.
-/

open Std.Do

set_option mvcgen.warning false

namespace Homoicon

/-- A series whose cells name variables, no two of them alike. -/
structure Series.Keylist (t : Symbols) (s : Series) : Prop where
  unlinked : s.link = .none
  distinct : ∀ cells, s.content = .array cells →
    t.Distinct ((cells.toList.drop 1).filterMap Cell.keyName?)

namespace Law

/-- Each context has a keylist, and the names in it are distinct. -/
def distinctKeys : Law where
  holds m := ∀ context s keylist, m.heap.get? context = some s → s.link = .keylist keylist →
    ∃ names, m.heap.get? keylist = some names ∧ names.Keylist m.symbols
  congr heap symbols holds := by
    rw [heap, symbols]
    exact holds

open Interp

variable {m : Machine} {context : SeriesId} {symbol : SymbolId}

/-- Changing a series does no harm if it is no keylist, or keeps being one. -/
theorem distinctKeys_modify (here : m.Obeys distinctKeys) (i : SeriesId) {f : Series → Series}
    (links : ∀ s, (f s).link = s.link)
    (kept : ∀ s, m.heap.get? i = some s → s.Keylist m.symbols → (f s).Keylist m.symbols) :
    (m.onHeap (·.modify i f)).Obeys distinctKeys := by
  intro context s keylist live link
  change (m.heap.modify i f).get? context = some s at live
  change ∃ names, (m.heap.modify i f).get? keylist = some names ∧ names.Keylist m.symbols
  have linked : ∃ before, m.heap.get? context = some before ∧ before.link = .keylist keylist := by
    rw [Heap.get?_modify] at live
    split at live
    · obtain ⟨before, held, rfl⟩ := Option.map_eq_some_iff.mp live
      exact ⟨before, held, links before ▸ link⟩
    · exact ⟨s, live, link⟩
  obtain ⟨before, held, link⟩ := linked
  obtain ⟨names, listed, distinct⟩ := here context before keylist held link
  rw [Heap.get?_modify]
  split
  · rename_i same
    rw [listed, Option.map_some]
    exact ⟨_, rfl, kept names (same ▸ listed) distinct⟩
  · exact ⟨names, listed, distinct⟩

/-- A list of names stays one when a new name is added. -/
theorem keylist_push {t : Symbols} {s : Series} {cells : Array Cell} (keylist : s.Keylist t)
    (content : s.content = .array cells)
    (new : ∀ c ∈ cells, ∀ known, c.keyName? = some known → t.canon known ≠ t.canon symbol)
    (paramClass : ParamClass) (kinds : KindSet) :
    (s.mapCells (·.push (Cell.typeset (Typeset.param symbol paramClass kinds)))).Keylist t := by
  obtain ⟨flags, held, link, role⟩ := s
  obtain rfl : held = .array cells := content
  refine ⟨keylist.unlinked, ?_⟩
  rintro _ ⟨⟩
  have before := keylist.distinct cells rfl
  rw [Array.toList_push]
  obtain ⟨cells⟩ := cells
  cases cells with
  | nil => exact List.nodup_nil
  | cons first rest =>
      have named : List.filterMap Cell.keyName? ((first :: rest ++ [Cell.typeset
          (Typeset.param symbol paramClass kinds)]).drop 1) =
            List.filterMap Cell.keyName? rest ++ [symbol] := by
        rw [List.cons_append, List.drop_one, List.tail_cons, List.filterMap_append]
        rfl
      rw [Symbols.Distinct, named, List.map_append]
      refine List.Nodup.append before (List.nodup_singleton _) ?_
      rw [List.map_singleton, List.disjoint_singleton, List.mem_map]
      rintro ⟨known, listed, same⟩
      obtain ⟨c, member, name⟩ := List.mem_filterMap.mp listed
      exact new c (by simp [member]) known name same

theorem keylist_eq_ok {keylist : SeriesId} : Query.keylist context m = .ok keylist ↔
    ∃ s, m.heap.get? context = some s ∧ s.link = .keylist keylist := by
  unfold Query.keylist
  rw [Query.bind_eq_ok]
  refine exists_congr fun s => and_congr Query.series_eq_ok ?_
  cases s.link <;> simp

/-- Adding a name to the keylist of a context that does not have it. -/
theorem pushName (keylist : SeriesId) :
    ⦃fun m => ⌜(m.Obeys distinctKeys ∧ Query.findKey? context symbol m = .ok none) ∧
      Query.keylist context m = .ok keylist⌝⦄
    modifyCells keylist (·.push (Cell.typeset (Typeset.param symbol .normal KindSet.anyValue)))
    ⦃post⟨fun _ m => ⌜m.Obeys distinctKeys ∧ Query.keylist context m = .ok keylist⌝,
      fun _ m => ⌜m.Obeys distinctKeys⌝⟩⦄ := by
  refine triple_iff.mpr fun m ⟨⟨here, new⟩, linked⟩ => ?_
  obtain ⟨held, found, ran⟩ | failed := modifyCells_run keylist
    (·.push (Cell.typeset (Typeset.param symbol .normal KindSet.anyValue))) m
  · rw [ran]
    obtain ⟨s, live, link⟩ := keylist_eq_ok.mp linked
    refine ⟨?_, keylist_eq_ok.mpr ?_⟩
    · rw [Query.findKey?, Query.bind_ok linked, Query.bind_ok found] at new
      refine distinctKeys_modify here keylist (Series.link_mapCells _) fun t held kept => ?_
      obtain ⟨_, same, content⟩ := Query.cells_eq_ok.mp found
      obtain rfl := Option.some.inj (held.symm.trans same)
      exact keylist_push kept content (Symbols.findName?_eq_none.mp (Except.ok.inj new)) _ _
    · change ∃ s, (m.heap.modify keylist _).get? context = some s ∧ _
      rw [Heap.get?_modify, live]
      split
      · exact ⟨_, rfl, (Series.link_mapCells _ s).trans link⟩
      · exact ⟨s, rfl, link⟩
  · rw [failed]
    exact here

/-- The variables of a context are no keylist. -/
theorem modifyVariables (keylist : SeriesId) (f : Array Cell → Array Cell) :
    ⦃fun m => ⌜m.Obeys distinctKeys ∧ Query.keylist context m = .ok keylist⌝⦄
    modifyCells context f
    ⦃post⟨fun _ m => ⌜m.Obeys distinctKeys⌝, fun _ m => ⌜m.Obeys distinctKeys⌝⟩⦄ := by
  refine triple_iff.mpr fun m ⟨here, linked⟩ => ?_
  obtain ⟨-, -, ran⟩ | failed := modifyCells_run context f m
  · rw [ran]
    obtain ⟨s, live, link⟩ := keylist_eq_ok.mp linked
    refine distinctKeys_modify here context (Series.link_mapCells _) fun t held kept => ?_
    obtain rfl := Option.some.inj (held.symm.trans live)
    have unlinked := kept.unlinked
    rw [link] at unlinked
    cases unlinked
  · rw [failed]
    exact here

theorem storeVariable (keylist : SeriesId) (index : Nat) (c : Cell) :
    ⦃fun m => ⌜m.Obeys distinctKeys ∧ Query.keylist context m = .ok keylist⌝⦄
    storeCell context index c
    ⦃post⟨fun _ m => ⌜m.Obeys distinctKeys⌝, fun _ m => ⌜m.Obeys distinctKeys⌝⟩⦄ := by
  unfold storeCell modifyCell
  refine Triple.bind _ _ (asked (Query.cells context) fun _ before => before.1) fun held => ?_
  split
  · exact triple_iff.mpr fun m before => triple_iff.mp (modifyVariables keylist _) m before.1
  · exact triple_iff.mpr fun m before => before.1.1

/-- A name that a context does not have can be added to it. -/
theorem appendKey_spec (value : Cell) :
    ⦃fun m => ⌜m.Obeys distinctKeys ∧ Query.findKey? context symbol m = .ok none⌝⦄
    appendKey context symbol value
    ⦃post⟨fun _ m => ⌜m.Obeys distinctKeys⌝, fun _ m => ⌜m.Obeys distinctKeys⌝⟩⦄ := by
  unfold appendKey
  refine Triple.bind _ _ (asked (Query.keylist context) fun _ before => before.1) fun keylist => ?_
  refine Triple.bind _ _ (pushName keylist) fun _ => ?_
  refine Triple.bind _ _ (modifyVariables keylist _) fun _ => ?_
  mvcgen

/-! ## Binding -/

theorem filterMap_modify_sublist {α β : Type} {f : α → α} {g : α → Option β}
    (lost : ∀ a, g (f a) = none) (items : List α) (index : Nat) :
    ((items.modify index f).filterMap g).Sublist (items.filterMap g) := by
  induction items generalizing index with
  | nil => cases index <;> exact .refl _
  | cons item items ih =>
      cases index with
      | zero =>
          rw [List.modify_zero_cons, List.filterMap_cons_none (lost item), List.filterMap_cons]
          split
          · exact .refl _
          · exact List.sublist_cons_self _ _
      | succ index =>
          rw [List.modify_succ_cons, List.filterMap_cons, List.filterMap_cons]
          split
          · exact ih index
          · exact (ih index).cons_cons _

/-- A word in the place of a name takes the name away and adds none. -/
theorem keylist_modify {t : Symbols} {s : Series} (keylist : s.Keylist t) (index : Nat)
    {f : Cell → Cell} (nameless : ∀ c, (f c).keyName? = none) :
    (s.mapCells (·.modify index f)).Keylist t := by
  obtain ⟨flags, content, link, role⟩ := s
  cases content with
  | array cells =>
      refine ⟨keylist.unlinked, ?_⟩
      rintro _ ⟨⟩
      have before := keylist.distinct cells rfl
      refine (List.Sublist.map _ ?_).nodup before
      obtain ⟨cells⟩ := cells
      rw [Array.toList_modify]
      cases cells with
      | nil => cases index <;> exact .refl _
      | cons first rest =>
          cases index with
          | zero => exact .refl _
          | succ index => exact filterMap_modify_sublist nameless rest index
  | text buffer => exact keylist
  | binary bytes => exact keylist

@[local spec high]
theorem modifyCell_distinctKeys (i : SeriesId) (index : Nat) (f : Cell → Cell)
    (nameless : ∀ c, (f c).keyName? = none) : Keeping distinctKeys (modifyCell i index f) := by
  have changed : Keeping distinctKeys (modifyCells i (·.modify index f)) := by
    refine triple_iff.mpr fun m here => ?_
    obtain ⟨-, -, ran⟩ | failed := modifyCells_run i (·.modify index f) m
    · rw [ran]
      exact distinctKeys_modify here i (Series.link_mapCells _) fun s _ kept =>
        keylist_modify kept index nameless
    · rw [failed]
      exact here
  unfold modifyCell
  mvcgen [-modifyCells_calm, changed]

@[local spec 20000]
theorem findKey?_distinctKeys (context : SeriesId) (symbol : SymbolId) :
    ⦃fun m => ⌜m.Obeys distinctKeys⌝⦄
    (MonadLift.monadLift (Query.findKey? context symbol) : Interp (Option Nat))
    ⦃post⟨fun found m => ⌜m.Obeys distinctKeys ∧ Query.findKey? context symbol m = .ok found⌝,
      fun _ m => ⌜m.Obeys distinctKeys⌝⟩⦄ :=
  asked _ fun _ here => here

theorem bindDeepIn_distinctKeys (context : SeriesId) (addSetWords : Bool) (depth : Nat)
    (array : SeriesId) :
    Keeping distinctKeys (bindDeepIn context addSetWords depth array) := by
  induction depth generalizing array with
  | zero => exact obeys_of_fails _ (fun _ => rfl) _
  | succ depth ih =>
      unfold bindDeepIn
      refine forCells_keeping _ _ _ fun i c => ?_
      mvcgen [ih, -appendKey_calm, appendKey_spec]
      all_goals first
        | exact And.left ‹_›
        | intros; rfl

/-- Binding the words of an array to a context adds names only where they are missing. -/
@[local spec high]
theorem bindDeep_distinctKeys (array context : SeriesId) (addSetWords : Bool) :
    Keeping distinctKeys (bindDeep array context addSetWords) := by
  unfold bindDeep
  mvcgen [bindDeepIn_distinctKeys]

@[local spec high]
theorem userSlot_distinctKeys (symbol : SymbolId) : Keeping distinctKeys (userSlot symbol) := by
  refine triple_iff.mpr fun m here => ?_
  rw [userSlot, bind_run, get_run]
  simp only
  rw [bind_run, lift_run]
  cases found : Query.findKey? m.user symbol m with
  | error => exact here
  | ok slot =>
      cases slot with
      | some slot => exact here
      | none =>
          simp only
          rw [bind_run, lift_run]
          cases Query.contextVar? m.lib symbol m with
          | error => exact here
          | ok value => exact triple_iff.mp (appendKey_spec _) m ⟨here, found⟩

theorem bindUserIn_distinctKeys (depth : Nat) (array : SeriesId) :
    Keeping distinctKeys (bindUserIn depth array) := by
  induction depth generalizing array with
  | zero => exact obeys_of_fails _ (fun _ => rfl) _
  | succ depth ih =>
      unfold bindUserIn
      mvcgen [ih]
      all_goals intros; rfl

/-- New code adds names to the user's variables only where they are missing. -/
theorem bindUser_distinctKeys (array : SeriesId) : Keeping distinctKeys (bindUser array) := by
  unfold bindUser
  mvcgen [bindUserIn_distinctKeys]

theorem addSetWords_distinctKeys (context array : SeriesId) :
    Keeping distinctKeys (Library.addSetWords context array) := by
  unfold Library.addSetWords
  mvcgen [-appendKey_calm, appendKey_spec]
  case vc5 => exact And.left ‹_›
  rename_i missing _ found
  rw [Option.isNone_iff_eq_none.mp missing] at found
  exact found

/-! ## Making contexts -/

/-- A new series does no harm if its keylist, in case it has one, is in order. -/
theorem distinctKeys_alloc (here : m.Obeys distinctKeys) {s : Series}
    (linked : ∀ keylist, s.link = .keylist keylist →
      ∃ names, m.heap.get? keylist = some names ∧ names.Keylist m.symbols) :
    ({ m with heap := (m.heap.alloc s).2 } : Machine).Obeys distinctKeys := by
  have kept : ∀ {other t}, m.heap.get? other = some t →
      (m.heap.alloc s).2.get? other = some t := by
    intro other t live
    rw [Heap.get?_alloc, if_neg ?_, live]
    intro same
    have fresh := m.heap.alloc_fresh s
    rw [same, live] at fresh
    cases fresh
  intro context t keylist live link
  change (m.heap.alloc s).2.get? context = some t at live
  rw [Heap.get?_alloc] at live
  split at live
  · obtain rfl := Option.some.inj live
    obtain ⟨names, listed, distinct⟩ := linked keylist link
    exact ⟨names, kept listed, distinct⟩
  · obtain ⟨names, listed, distinct⟩ := here context t keylist live link
    exact ⟨names, kept listed, distinct⟩

/-- The names that a context is made with are those it has. -/
theorem keyNames_of_keys (keys : List SymbolId) :
    List.filterMap Cell.keyName?
      (keys.map fun s => Cell.typeset (Typeset.param s .normal KindSet.anyValue)) = keys := by
  rw [List.filterMap_map]
  exact List.filterMap_some

/-- A context that is made with distinct names has distinct names. -/
theorem makeContext_distinctKeys (kind : Kind) (keys : List SymbolId) :
    ⦃fun m => ⌜m.Obeys distinctKeys ∧ m.symbols.Distinct keys⌝⦄ makeContext kind keys
    ⦃post⟨fun _ m => ⌜m.Obeys distinctKeys⌝, fun _ m => ⌜m.Obeys distinctKeys⌝⟩⦄ := by
  have named : ⦃fun m => ⌜m.Obeys distinctKeys ∧ m.symbols.Distinct keys⌝⦄
      alloc ((Series.ofCells (Cell.blank :: keys.map fun s =>
        Cell.typeset (Typeset.param s .normal KindSet.anyValue)).toArray).withFlags
          (Flags.keylist ||| Flags.managed))
      ⦃post⟨fun keylist m => ⌜m.Obeys distinctKeys ∧
        ∃ names, m.heap.get? keylist = some names ∧ names.Keylist m.symbols⌝,
        fun _ m => ⌜m.Obeys distinctKeys⌝⟩⦄ := by
    refine triple_iff.mpr fun m ⟨here, distinct⟩ => ⟨distinctKeys_alloc here ?_, _,
      (Heap.get?_alloc m.heap _ _).trans (if_pos rfl), ⟨rfl, ?_⟩⟩
    · rintro keylist ⟨⟩
    · rintro _ ⟨⟩
      change m.symbols.Distinct (List.filterMap Cell.keyName? (keys.map _))
      rw [keyNames_of_keys]
      exact distinct
  have owned (keylist : SeriesId) :
      ⦃fun m => ⌜m.Obeys distinctKeys ∧
        ∃ names, m.heap.get? keylist = some names ∧ names.Keylist m.symbols⌝⦄
      alloc { (Series.ofCells (Cell.end_ :: keys.map fun _ => Cell.null).toArray).withFlags
        (Flags.varlist ||| Flags.managed) with link := .keylist keylist }
      ⦃post⟨fun context m => ⌜m.Obeys distinctKeys ∧ Query.keylist context m = .ok keylist⌝,
        fun _ m => ⌜m.Obeys distinctKeys⌝⟩⦄ := by
    refine triple_iff.mpr fun m ⟨here, listed⟩ => ⟨distinctKeys_alloc here ?_, keylist_eq_ok.mpr ?_⟩
    · rintro _ ⟨⟩
      exact listed
    · exact ⟨_, (Heap.get?_alloc m.heap _ _).trans (if_pos rfl), rfl⟩
  unfold makeContext
  refine Triple.bind _ _ named fun keylist => Triple.bind _ _ (owned keylist) fun context => ?_
  refine Triple.bind _ _ (storeVariable keylist 0 _) fun _ => ?_
  mvcgen

/-- No two names of a context are alike, if its keylist is in order. -/
theorem distinct_contextKeys (here : m.Obeys distinctKeys) {keys : List SymbolId}
    (listed : Query.contextKeys context m = .ok keys) : m.symbols.Distinct keys := by
  obtain ⟨keylist, linked, reading⟩ := Query.bind_eq_ok.mp listed
  obtain ⟨cells, held, naming⟩ := Query.bind_eq_ok.mp reading
  obtain ⟨s, live, link⟩ := keylist_eq_ok.mp linked
  obtain ⟨names, found, ordered⟩ := here context s keylist live link
  obtain ⟨_, same, content⟩ := Query.cells_eq_ok.mp held
  obtain rfl := Option.some.inj (found.symm.trans same)
  have named : ∀ {items : List Cell} {keys : List SymbolId},
      items.mapM (fun c => expect (c.key?.bind (·.symbol)) : Cell → Query SymbolId) m = .ok keys →
      items.filterMap Cell.keyName? = keys := by
    intro items
    induction items with
    | nil =>
        rintro _ ⟨⟩
        rfl
    | cons c items ih =>
        intro keys naming
        rw [List.mapM_cons] at naming
        obtain ⟨key, first, naming⟩ := Query.bind_eq_ok.mp naming
        obtain ⟨others, rest, given⟩ := Query.bind_eq_ok.mp naming
        cases given
        have name : c.keyName? = some key := by
          unfold Cell.keyName?
          cases found : c.key?.bind (·.symbol) with
          | none =>
              rw [found] at first
              cases first
          | some known =>
              rw [found] at first
              cases first
              rfl
        rw [List.filterMap_cons_some name, ih rest]
  rw [← named naming]
  exact ordered.distinct cells content

/-- What makes a context with names that are apart, or adds names to contexts. -/
inductive Names (m : Machine) : {α : Type} → Interp α → Prop where
  | bindDeep (array context : SeriesId) (addSetWords : Bool) :
      Names m (bindDeep array context addSetWords)
  | bindUser (array : SeriesId) : Names m (bindUser array)
  | addSetWords (context array : SeriesId) : Names m (Library.addSetWords context array)
  | makeContext (kind : Kind) {keys : List SymbolId} : m.symbols.Distinct keys →
      Names m (makeContext kind keys)

theorem Names.distinctKeys {α : Type} {x : Interp α} (names : Names m x)
    (here : m.Obeys distinctKeys) : (x.final m).Obeys distinctKeys := by
  cases names with
  | bindDeep array context addSetWords =>
      exact final_of_triple (bindDeep_distinctKeys array context addSetWords) here
  | bindUser array => exact final_of_triple (bindUser_distinctKeys array) here
  | addSetWords context array => exact final_of_triple (addSetWords_distinctKeys context array) here
  | makeContext kind distinct =>
      exact final_of_triple (makeContext_distinctKeys kind _) ⟨here, distinct⟩

end Law

namespace Query

/-- Names are unique.  Every parameter that a spec names is found under its name, also if one of
them is called like the one for RETURN that is added; and no context gets two names that are alike
from what extends it, or makes it with names that are apart. -/
theorem findParam?_of_makeParamlist {m : Machine} :
    (∀ {next : Machine} {spec id : SeriesId} {index i : Nat} {ownReturn : Bool} {p : Typeset}
      {symbol : SymbolId}, Interp.makeParamlist spec index ownReturn m = .ok id next →
      (ownReturn = true → (m.symbols.intern "return").2 = m.symbols) →
      param id i next = .ok p → p.symbol = some symbol →
      (ownReturn = true → p.paramClass ≠ .return) →
      findParam? id symbol next = .ok (some i)) ∧
    ∀ {α : Type} {x : Interp α}, Law.Names m x → m.Obeys Law.distinctKeys →
      (x.final m).Obeys Law.distinctKeys ∧ ∀ {context : SeriesId} {keys : List SymbolId},
        contextKeys context (x.final m) = .ok keys → (x.final m).symbols.Distinct keys := by
  constructor
  · intro next spec id index i ownReturn p symbol made interned at_ named listed
    exact findParam?_of_listed made interned at_ named listed
  · intro α x names here
    have kept := names.distinctKeys here
    exact ⟨kept, Law.distinct_contextKeys kept⟩

/-- A machine with the spec `[value limit]`. -/
def sampleSpec : Machine :=
  { config := {}
    heap := ((Heap.empty 100).alloc
      (Series.ofCells #[Cell.word .word ⟨0⟩, Cell.word .word ⟨1⟩]).managed).2
    symbols := { entries := #[⟨"value", "value", ⟨0⟩, ⟨0⟩⟩, ⟨"limit", "limit", ⟨1⟩, ⟨1⟩⟩] }
    countdown := 1 }

theorem distinctKeys_sampleSpec : sampleSpec.Obeys Law.distinctKeys := by
  intro context s keylist live link
  obtain ⟨slot⟩ := context
  cases slot with
  | zero =>
      cases live
      cases link
  | succ slot => cases live

theorem findParam?_of_makeParamlist_sampleSpec :
    (∃ id next p, Interp.makeParamlist ⟨0⟩ 0 false sampleSpec = .ok id next ∧
      param id 2 next = .ok p ∧ p.symbol = some ⟨1⟩ ∧ findParam? id ⟨1⟩ next = .ok (some 2)) ∧
      ((Interp.makeContext .object [⟨0⟩, ⟨1⟩]).final sampleSpec).Obeys Law.distinctKeys := by
  refine ⟨⟨_, _, _, rfl, rfl, rfl, ?_⟩, ?_⟩
  · have made : Interp.makeParamlist ⟨0⟩ 0 false sampleSpec = .ok _ _ := rfl
    exact findParam?_of_makeParamlist.1 made nofun rfl rfl nofun
  · have apart : sampleSpec.symbols.Distinct [⟨0⟩, ⟨1⟩] := by
      unfold Symbols.Distinct
      decide
    exact (findParam?_of_makeParamlist.2 (.makeContext .object apart) distinctKeys_sampleSpec).1

end Query

end Homoicon
