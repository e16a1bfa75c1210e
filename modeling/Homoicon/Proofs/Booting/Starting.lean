import Mathlib.Data.List.Sort
import Homoicon.Interpreter
import Homoicon.Proofs.Booting.Defining
import Homoicon.Proofs.Expressions.Formulas
import Homoicon.Proofs.Natives

/-!
# The machine that starts

Setting up the library never fails.  The names of its variables differ, each spec can be read, and
the actions that the evaluator knows by identity are among those defined.
-/

namespace Homoicon

/-! ## Names -/

/-- A text of small ASCII letters and other characters that have no capitals. -/
def Text.IsSmall (cs : List Char) : Bool := cs.all fun c => c.toNat < 0x80 && c.toLower == c

theorem Text.lowercase_ofList {cs : List Char} (small : IsSmall cs = true) :
    lowercase (String.ofList cs) = String.ofList cs := by
  simp only [IsSmall, List.all_eq_true, Bool.and_eq_true, beq_iff_eq] at small
  have ascii : cs.all (fun c => c.toNat < 0x80) = true :=
    List.all_eq_true.mpr fun c member => (small c member).1
  rw [lowercase, String.toList_ofList, if_pos ascii]
  refine String.toList_inj.mp ?_
  rw [String.toList_map, String.toList_ofList]
  exact (List.map_congr_left fun c member => (small c member).2).trans (List.map_id cs)

/-- A number for a text of characters, by which such texts are put in order. -/
def Text.number (cs : List Char) : Nat := cs.foldl (fun n c => 256 * n + c.toNat) 0

/-- Texts that are in strict order once they are sorted differ from each other. -/
theorem Text.nodup_of_sorted {css : List (List Char)}
    (sorted : ((css.map number).insertionSort (· ≤ ·)).IsChain (· < ·)) : css.Nodup := by
  have distinct : ((css.map number).insertionSort (· ≤ ·)).Nodup :=
    (List.isChain_iff_pairwise.mp sorted).imp Nat.ne_of_lt
  exact ((List.perm_insertionSort _ _).nodup_iff.mp distinct).of_map

namespace Library

/-- The names of all variables of the library, in order. -/
def names : List String :=
  natives.toList.map (·.name) ++ Kind.named.map checkerName ++ Kind.named.map Kind.name ++
    typesets.map (·.1) ++ truths.map (·.1) ++ ["blank"]

/-- Some names are made of some characters. -/
abbrev Spelled (names : List String) (css : List (List Char)) : Prop :=
  List.Forall₂ (fun name cs => name = String.ofList cs) names css

theorem Spelled.add {cs : List Char} {names : List String} {css : List (List Char)}
    (rest : Spelled names css) : Spelled (String.ofList cs :: names) (cs :: css) := .cons rfl rest

theorem Spelled.addBoth {cs cs' : List Char} {names : List String} {css : List (List Char)}
    (rest : Spelled names css) :
    Spelled ((String.ofList cs ++ String.ofList cs') :: names) ((cs ++ cs') :: css) :=
  .cons String.ofList_append.symm rest

theorem Spelled.checkers {kinds : List Kind} {css : List (List Char)}
    (spelled : Spelled (kinds.map Kind.name) css) :
    Spelled (kinds.map checkerName) (css.map fun cs => cs.filter (· != '!') ++ ['?']) := by
  refine List.forall₂_map_right_iff.mpr (List.forall₂_map_left_iff.mpr ?_)
  refine (List.forall₂_map_left_iff.mp spelled).imp fun kind cs name => ?_
  rw [checkerName, name, String.toList_ofList, String.ofList_append]

theorem Spelled.lowercase {names : List String} {css : List (List Char)}
    (spelled : Spelled names css) (small : css.all Text.IsSmall = true) :
    names.map Text.lowercase = css.map String.ofList := by
  induction spelled with
  | nil => rfl
  | cons first _ ih =>
      rw [List.all_cons, Bool.and_eq_true] at small
      rw [List.map_cons, List.map_cons, ih small.2, first, Text.lowercase_ofList small.1]

theorem Spelled.distinct {natives kinds typesets truths : List (List Char)}
    (spelledNatives : Spelled (Library.natives.toList.map (·.name)) natives)
    (spelledKinds : Spelled (Kind.named.map Kind.name) kinds)
    (spelledTypesets : Spelled (Library.typesets.map (·.1)) typesets)
    (spelledTruths : Spelled (Library.truths.map (·.1)) truths)
    (apart : let css := natives ++ kinds.map (fun cs => cs.filter (· != '!') ++ ['?']) ++ kinds ++
      typesets ++ truths ++ [['b', 'l', 'a', 'n', 'k']]
      css.all Text.IsSmall = true ∧
        ((css.map Text.number).insertionSort (· ≤ ·)).IsChain (· < ·)) :
    (names.map Text.lowercase).Nodup := by
  obtain ⟨small, sorted⟩ := apart
  have spelled : Spelled names _ :=
    List.rel_append (List.rel_append (List.rel_append (List.rel_append (List.rel_append
      spelledNatives spelledKinds.checkers) spelledKinds) spelledTypesets) spelledTruths)
      (.cons rfl .nil)
  rw [spelled.lowercase small]
  exact (Text.nodup_of_sorted sorted).map fun _ _ same => String.ofList_inj.mp same

theorem names_distinct : (names.map Text.lowercase).Nodup := by
  exact Spelled.distinct (by repeat' first | exact .nil | apply Spelled.add)
    (by repeat' first | exact .nil | apply Spelled.add)
    (by repeat' first | exact .nil | apply Spelled.add)
    (by repeat' first | exact .nil | apply Spelled.add) (by decide +kernel)

/-! ## Specs -/

end Library

theorem SpecDraft.read?_ofList (cs : List Char) :
    read? (String.ofList cs) =
      ofScan? (Token.Lexer.run cs.length { rest := cs } >>= Node.parse) := by
  rw [read?, Node.scan, Token.tokenize, String.toList_ofList]

theorem SpecDraft.readable_of_chars (cs : List Char)
    (readable : (ofScan? (Token.Lexer.run cs.length { rest := cs } >>= Node.parse)).isSome = true) :
    (read? (String.ofList cs)).isSome = true := by rwa [read?_ofList]

/-- Two parameters that take an integer, and no conventions. -/
def SpecDraft.isBinary (d : SpecDraft) : Bool :=
  match d.reversed with
  | [(_, p₂), (_, p₁)] =>
    d.flags == 0 && Typeset.conventions [p₁, p₂] &&& Flags.lookbacks == 0 &&
      [p₁, p₂].all fun p => p.paramClass = .normal && !p.flags.variadic && p.allows .integer
  | _ => false

theorem SpecDraft.isBinary_iff {d : SpecDraft} : d.isBinary = true ↔
    ∃ name₁ p₁ name₂ p₂, d.reversed = [(name₂, p₂), (name₁, p₁)] ∧ d.flags = 0 ∧
      Typeset.conventions [p₁, p₂] &&& Flags.lookbacks = 0 ∧ p₁.Counts ∧ p₂.Counts := by
  have counts (p : Typeset) : (p.paramClass = .normal && !p.flags.variadic && p.allows .integer) =
      true ↔ p.Counts := by
    simp only [Bool.and_eq_true, decide_eq_true_eq, Bool.not_eq_true', and_assoc]
    exact ⟨fun ⟨normal, single, allows⟩ => ⟨normal, single, allows⟩,
      fun counts => ⟨counts.normal, counts.single, counts.allows⟩⟩
  constructor
  · intro binary
    rw [isBinary] at binary
    split at binary
    · rename_i name₂ p₂ name₁ p₁ listed
      simp only [Bool.and_eq_true, beq_iff_eq, List.all_cons, List.all_nil, Bool.and_true, counts,
        and_assoc] at binary
      exact ⟨name₁, p₁, name₂, p₂, listed, binary⟩
    · cases binary
  · rintro ⟨name₁, p₁, name₂, p₂, listed, binary⟩
    simpa only [isBinary, listed, Bool.and_eq_true, beq_iff_eq, List.all_cons, List.all_nil,
      Bool.and_true, counts, and_assoc] using binary

namespace Library

theorem mathSpec_binary : (SpecDraft.read? mathSpec).any SpecDraft.isBinary = true := by
  have binary (cs : List Char) (binary : (SpecDraft.ofScan?
      (Token.Lexer.run cs.length { rest := cs } >>= Node.parse)).any SpecDraft.isBinary = true) :
      (SpecDraft.read? (String.ofList cs)).any SpecDraft.isBinary = true := by
    rwa [SpecDraft.read?_ofList]
  exact binary _ (by decide +kernel)

theorem checkerSpec_readable :
    (SpecDraft.read? "value [<opt> any-value! void!]").isSome = true :=
  SpecDraft.readable_of_chars _ (by decide +kernel)

/-- Specs that are made of some characters can be read if the characters can. -/
theorem Spelled.readable {specs : List String} {css : List (List Char)}
    (spelled : Spelled specs css)
    (readable : css.all (fun cs => (SpecDraft.ofScan?
      (Token.Lexer.run cs.length { rest := cs } >>= Node.parse)).isSome) = true) :
    ∀ spec ∈ specs, (SpecDraft.read? spec).isSome = true := by
  induction spelled with
  | nil => exact fun _ member => nomatch member
  | cons first _ ih =>
      rw [List.all_cons, Bool.and_eq_true] at readable
      intro spec member
      rcases List.mem_cons.mp member with rfl | member
      · exact first ▸ SpecDraft.readable_of_chars _ readable.1
      · exact ih readable.2 spec member

/-- The spec of each built-in action can be read. -/
theorem natives_readable :
    ∀ native ∈ natives.toList, (SpecDraft.read? native.spec).isSome = true := by
  have specs : ∀ spec ∈ natives.toList.map (·.spec), (SpecDraft.read? spec).isSome = true := by
    exact Spelled.readable
      (by repeat' first | exact .nil | apply Spelled.add | apply Spelled.addBoth)
      (by decide +kernel)
  exact fun native member => specs _ (List.mem_map_of_mem member)

end Library

/-! ## Contexts -/

theorem ContextView.In.modify {v : ContextView} {m : Machine} (held : v.In m) (id : SeriesId)
    {f : Series → Series} (links : ∀ s, (f s).link = s.link)
    (contents : ∀ s, (f s).content = s.content) : v.In (m.onHeap (·.modify id f)) := by
  have alike (other : SeriesId) (s : Series) (found : m.heap.get? other = some s) :
      ∃ s', (m.heap.modify id f).get? other = some s' ∧ s'.link = s.link ∧
        s'.content = s.content := by
    rw [Heap.get?_modify]
    split
    · exact ⟨f s, by rw [found]; rfl, links s, contents s⟩
    · exact ⟨s, found, rfl, rfl⟩
  have cells {other : SeriesId} {cells : Array Cell} (found : Query.cells other m = .ok cells) :
      Query.cells other (m.onHeap (·.modify id f)) = .ok cells := by
    obtain ⟨s, live, content⟩ := Query.cells_eq_ok.mp found
    obtain ⟨s', live', -, same⟩ := alike other s live
    exact Query.cells_eq_ok.mpr ⟨s', live', same.trans content⟩
  refine ⟨?_, cells held.names, cells held.vars, held.size⟩
  obtain ⟨s, live, link⟩ := Law.keylist_eq_ok.mp held.linked
  obtain ⟨s', live', same, -⟩ := alike _ s live
  exact Law.keylist_eq_ok.mpr ⟨s', live', same.trans link⟩

namespace Interp

variable {m : Machine}

/-- A new context without variables, of new series. -/
theorem makeContext_empty (kind : Kind) (m : Machine) :
    ∃ (v : ContextView) (m' : Machine), makeContext kind [] m = .ok v.context m' ∧
      m.Alters [] m' ∧ v.In m' ∧ (∀ id ∈ v.series, m.heap.get? id = none) ∧
      v.context ≠ v.keylist ∧ v.names = #[Cell.blank] ∧
      v.vars = #[Cell.context kind v.context] := by
  let names := namesSeries []
  let keylist := m.heap.alloc names
  let m₁ : Machine := { m with heap := keylist.2 }
  let vars := varsSeries keylist.1 []
  let context := m₁.heap.alloc vars
  let m₂ : Machine := { m₁ with heap := context.2 }
  let m₃ := m₂.stored context.1 0 (Cell.context kind context.1)
  have named : m₁.heap.get? keylist.1 = some names := m.get?_alloc_self names
  have held : m₂.heap.get? context.1 = some vars := m₁.get?_alloc_self vars
  have fresh : m₁.heap.get? context.1 = none := m₁.heap.alloc_fresh vars
  have apart : keylist.1 ≠ context.1 := by
    intro same
    rw [← same, named] at fresh
    cases fresh
  have first : m.Alters [] m₁ := .alloc m (by decide)
  have plain : (varsSeries ⟨0⟩ []).has Flags.passing = false := by decide
  have second : m₁.Alters [] m₂ := .alloc m₁ plain
  have third : m₂.Alters [context.1] m₃ := .modify m₂ _ fun s => s.has_storing 0 _ _
  have fresh' : m.heap.get? context.1 = none := first.keeps.live _ fresh
  have alters : m.Alters [] m₃ :=
    ((first.trans second).widen.trans third).narrow (by simpa using fresh')
  have stored : storeCell context.1 0 (Cell.context kind context.1) m₂ = .ok () m₃ :=
    storeCell_run _ (Query.cells_eq_ok.mpr ⟨vars, held, rfl⟩) (by simp)
  have filled := @Machine.get?_stored_self _ _ _ _ 0 (Cell.context kind context.1) held rfl
  refine ⟨⟨context.1, keylist.1, #[Cell.blank], #[Cell.context kind context.1]⟩, m₃, ?_, alters,
    ?_, ?_, apart.symm, rfl, rfl⟩
  · change (alloc names >>= fun keylist => alloc (varsSeries keylist []) >>= fun context =>
      storeCell context 0 (Cell.context kind context) >>= fun _ => pure context) m = _
    rw [bind_ok (Machine.alloc_run m names), bind_ok (Machine.alloc_run m₁ vars), bind_ok stored]
    rfl
  · refine ⟨Law.keylist_eq_ok.mpr ⟨_, filled, rfl⟩, Query.cells_eq_ok.mpr ⟨names, ?_, rfl⟩,
      Query.cells_eq_ok.mpr ⟨_, filled, ?_⟩, rfl⟩
    · rw [Machine.get?_stored_of_ne apart]
      exact second.keeps.get? _ _ List.not_mem_nil named
    · simp
  · intro id member
    rcases List.mem_pair.mp member with rfl | rfl
    · exact fresh'
    · exact m.heap.alloc_fresh names

end Interp

/-! ## The library -/

section

variable {m m' : Machine} {series : List SeriesId}

/-- A library has the built-in actions, each made from its spec. -/
def Machine.Equipped (m : Machine) (series : List SeriesId) (entries : List (String × Cell)) :
    Prop :=
  ∃ natives more, entries = natives ++ more ∧
    List.Forall₂ (fun (b : Native × Nat) e => e.1 = b.1.name ∧
        m.Realizes series b.1.spec (.native b.2) [] b.1.enfix e.2)
      Library.natives.toList.zipIdx natives

theorem Machine.Equipped.keep {entries : List (String × Cell)}
    (equipped : m.Equipped series entries) (alters : m.Alters series m')
    (more : List (String × Cell)) : m'.Equipped series (entries ++ more) := by
  obtain ⟨natives, others, rfl, known⟩ := equipped
  exact ⟨natives, others ++ more, List.append_assoc .., known.imp fun _ _ =>
    And.imp_right fun realizes => realizes.keep alters⟩

/-- The library has the first variables that it is to have. -/
def Machine.HasFirst (m : Machine) (series : List SeriesId) (entries : List (String × Cell))
    (before : List String) : Prop :=
  m.Stocks series entries ∧ lowerNames entries = before.map Text.lowercase

/-- The next names of the library are new. -/
theorem Machine.HasFirst.new {entries : List (String × Cell)} {before : List String} {β : Type}
    {names : β → String} {items : List β} (reached : m.HasFirst series entries before)
    (part : before ++ items.map names <+: Library.names) :
    (lowerNames entries ++ items.map fun b => Text.lowercase (names b)).Nodup := by
  have distinct := Library.names_distinct.sublist (part.sublist.map _)
  rwa [List.map_append, List.map_map, ← reached.2] at distinct

theorem exists_of_known {β : Type} {means : β → String × Cell → Prop} {items : List β}
    {entries : List (String × Cell)} (known : List.Forall₂ means items entries) {b : β}
    (member : b ∈ items) : ∃ e ∈ entries, means b e := by
  induction known with
  | nil => cases member
  | cons first _ ih =>
      rcases List.mem_cons.mp member with rfl | member
      · exact ⟨_, List.mem_cons_self .., first⟩
      · exact (ih member).imp fun _ => And.imp_left (List.mem_cons_of_mem _)

theorem Machine.HasFirst.next {entries more : List (String × Cell)} {before : List String}
    {β : Type} {names : β → String} {items : List β}
    (reached : m.HasFirst series entries before) (stocks : m'.Stocks series (entries ++ more))
    (known : List.Forall₂ (fun b e => e.1 = names b) items more) :
    m'.HasFirst series (entries ++ more) (before ++ items.map names) := by
  refine ⟨stocks, ?_⟩
  have added : lowerNames more = (items.map names).map Text.lowercase := by
    clear stocks
    induction known with
    | nil => rfl
    | cons first _ ih => exact congrArg₂ List.cons (congrArg _ first) ih
  rw [List.map_append, ← reached.2, ← added]
  exact List.map_append

namespace Interp

/-- Variables whose values do not matter are added one after the other. -/
theorem defineLibs_run {β : Type} {entries : List (String × Cell)} {before : List String}
    (names : β → String) (value : β → Cell) (items : List β)
    (reached : m.HasFirst series entries before)
    (part : before ++ items.map names <+: Library.names) :
    ∃ more m', (items.forM fun b => defineLib (names b) (value b)) m = .ok () m' ∧
      m.Alters series m' ∧ m'.HasFirst series (entries ++ more) (before ++ items.map names) := by
  have new := reached.new part
  obtain ⟨more, m', ran, alters, stocks, known⟩ := Machine.adds_forM names (fun _ _ _ => True)
    (fun _ _ _ _ _ _ => trivial) (fun b _ m entries stocks new =>
      (defineLib_run stocks (value b) new).weaken fun more m' _ same => ⟨_, same, trivial⟩)
    reached.1 new
  exact ⟨more, m', ran, alters, reached.next stocks (known.imp fun _ _ => And.left)⟩

/-- Actions with a number are added one after the other. -/
theorem defineNatives_run {listed : List Native}
    (readable : ∀ native ∈ listed, (SpecDraft.read? native.spec).isSome = true)
    (stocks : m.Stocks series []) (part : listed.map (·.name) <+: Library.names) :
    ∃ entries m', (listed.zipIdx.forM fun b =>
        defineAction b.1.name b.1.spec (.native b.2) [] b.1.enfix) m = .ok () m' ∧
      m.Alters series m' ∧ m'.HasFirst series entries (listed.map (·.name)) ∧
      List.Forall₂ (fun (b : Native × Nat) e => e.1 = b.1.name ∧
        m'.Realizes series b.1.spec (.native b.2) [] b.1.enfix e.2) listed.zipIdx entries := by
  have none_ : m.HasFirst series [] [] := ⟨stocks, rfl⟩
  have names : listed.map (·.name) = listed.zipIdx.map fun b => b.1.name := by
    conv_lhs => rw [← List.zipIdx_map_fst 0 listed, List.map_map]
    rfl
  rw [names] at part ⊢
  have new := none_.new part
  obtain ⟨entries, m', ran, alters, stocks, known⟩ := Machine.adds_forM
    (fun b : Native × Nat => b.1.name)
    (fun m b c => m.Realizes series b.1.spec (.native b.2) [] b.1.enfix c)
    (fun _ _ _ _ alters realizes => realizes.keep alters)
    (fun b member m entries stocks new => defineAction_run stocks
      (readable b.1 (List.fst_mem_of_mem_zipIdx member)) _ _ _ new) stocks new
  exact ⟨entries, m', ran, alters, none_.next stocks (known.imp fun _ _ => And.left), known⟩

/-- Actions that test for a kind are added one after the other. -/
theorem defineCheckers_run {kinds : List Kind} {entries : List (String × Cell)}
    {before : List String} (reached : m.HasFirst series entries before)
    (part : before ++ kinds.map Library.checkerName <+: Library.names) :
    ∃ more m', (kinds.forM fun kind => defineAction (Library.checkerName kind)
        "value [<opt> any-value! void!]" .typeCheck [Cell.datatype kind] false) m = .ok () m' ∧
      m.Alters series m' ∧
      m'.HasFirst series (entries ++ more) (before ++ kinds.map Library.checkerName) := by
  have new := reached.new part
  have each (kind : Kind) (_ : kind ∈ kinds) (m : Machine) (entries : List (String × Cell))
      (stocks : m.Stocks series entries)
      (new : Text.lowercase (Library.checkerName kind) ∉ lowerNames entries) :=
    (defineAction_run stocks Library.checkerSpec_readable .typeCheck [Cell.datatype kind] false
      new).weaken fun more m' _ known => known.imp fun _ => And.imp_right fun _ => trivial
  obtain ⟨more, m', ran, alters, stocks, known⟩ :=
    Machine.adds_forM _ (fun _ _ _ => True) (fun _ _ _ _ _ _ => trivial) each reached.1 new
  exact ⟨more, m', ran, alters, reached.next stocks (known.imp fun _ _ => And.left)⟩

theorem defineActions_run (stocks : m.Stocks series []) :
    ∃ entries m', defineActions m = .ok () m' ∧ m.Alters series m' ∧
      m'.Equipped series entries ∧ m'.HasFirst series entries
        (Library.natives.toList.map (·.name) ++ Kind.named.map Library.checkerName) := by
  have kinds : Library.natives.toList.map (·.name) ++ Kind.named.map Library.checkerName <+:
      Library.names :=
    (List.prefix_append ..).trans ((List.prefix_append ..).trans ((List.prefix_append ..).trans
      (List.prefix_append ..)))
  obtain ⟨listed, m₁, ran₁, alters₁, reached₁, known₁⟩ :=
    defineNatives_run Library.natives_readable stocks ((List.prefix_append ..).trans kinds)
  obtain ⟨more, m₂, ran₂, alters₂, reached₂⟩ := defineCheckers_run reached₁ kinds
  refine ⟨listed ++ more, m₂, ?_, alters₁.trans alters₂, ⟨listed, more, rfl, ?_⟩, reached₂⟩
  · rw [defineActions, bind_ok ran₁, ran₂]
  · exact known₁.imp fun _ _ => And.imp_right fun realizes => realizes.keep alters₂

theorem defineConstants_run {entries : List (String × Cell)} (reached : m.HasFirst series entries
      (Library.natives.toList.map (·.name) ++ Kind.named.map Library.checkerName)) :
    ∃ more m', defineConstants m = .ok () m' ∧ m.Alters series m' ∧
      m'.Stocks series (entries ++ more) := by
  have truths : Library.natives.toList.map (·.name) ++ Kind.named.map Library.checkerName ++
      Kind.named.map Kind.name ++ Library.typesets.map (·.1) ++ Library.truths.map (·.1) <+:
        Library.names := List.prefix_append ..
  have typesets := (List.prefix_append ..).trans truths
  have kinds := (List.prefix_append ..).trans typesets
  obtain ⟨more₁, m₁, ran₁, alters₁, reached₁⟩ :=
    defineLibs_run Kind.name Cell.datatype Kind.named reached kinds
  obtain ⟨more₂, m₂, ran₂, alters₂, reached₂⟩ :=
    defineLibs_run (fun set : String × KindSet => set.1)
      (fun set => Cell.typeset { kinds := set.2 }) Library.typesets reached₁ typesets
  obtain ⟨more₃, m₃, ran₃, alters₃, reached₃⟩ :=
    defineLibs_run (fun truth : String × Bool => truth.1) (fun truth => Cell.logic truth.2)
      Library.truths reached₂ truths
  obtain ⟨more₄, m₄, ran₄, alters₄, ⟨stocks, -⟩⟩ :=
    defineLibs_run id (fun _ => Cell.blank) ["blank"] reached₃ List.prefix_rfl
  refine ⟨more₁ ++ more₂ ++ more₃ ++ more₄, m₄, ?_,
    alters₁.trans (alters₂.trans (alters₃.trans alters₄)), ?_⟩
  · rw [defineConstants, bind_ok ran₁]
    refine (bind_ok ran₂ _).trans ((bind_ok ran₃ _).trans ?_)
    simpa using ran₄
  · simpa only [List.append_assoc] using stocks

theorem libAction_of_known {lib : ContextView} {entries more : List (String × Cell)}
    {listed : List Native} (name : String) (stocked : m.Stocked lib (entries ++ more))
    (known : List.Forall₂ (fun (b : Native × Nat) e => e.1 = b.1.name ∧
      m.Realizes lib.series b.1.spec (.native b.2) [] b.1.enfix e.2) listed.zipIdx entries)
    (member : name ∈ listed.map (·.name)) : ∃ a, libAction name m = .ok a := by
  rw [← List.zipIdx_map_fst 0 listed, List.map_map] at member
  obtain ⟨b, here, rfl⟩ := List.mem_map.mp member
  obtain ⟨e, there, same, a, d, params, value, -⟩ := exists_of_known known here
  refine ⟨a, stocked.libAction_run (c := e.2) (List.mem_append_left _ ?_) (by rw [value]; rfl)⟩
  change (b.1.name, e.2) ∈ entries
  rwa [← same]

theorem findSpecials_run {lib : ContextView} {entries : List (String × Cell)}
    (stocked : m.Stocked lib entries) (equipped : m.Equipped lib.series entries) :
    ∃ specials, findSpecials m = .ok specials := by
  obtain ⟨listed, more, rfl, known⟩ := equipped
  obtain ⟨_, unwind⟩ := libAction_of_known "unwind" stocked known (by decide +kernel)
  obtain ⟨_, redo⟩ := libAction_of_known "redo" stocked known (by decide +kernel)
  obtain ⟨_, divide⟩ := libAction_of_known "path-0" stocked known (by decide +kernel)
  obtain ⟨_, break_⟩ := libAction_of_known "break" stocked known (by decide +kernel)
  obtain ⟨_, continue_⟩ := libAction_of_known "continue" stocked known (by decide +kernel)
  obtain ⟨_, quit⟩ := libAction_of_known "quit" stocked known (by decide +kernel)
  obtain ⟨_, accept⟩ :=
    libAction_of_known "parse-accept" stocked known (by decide +kernel)
  obtain ⟨_, reject⟩ :=
    libAction_of_known "parse-reject" stocked known (by decide +kernel)
  obtain ⟨_, return_⟩ := libAction_of_known "return" stocked known (by decide +kernel)
  exact ⟨_, (Query.bind_ok unwind _).trans <| (Query.bind_ok redo _).trans <|
    (Query.bind_ok divide _).trans <| (Query.bind_ok break_ _).trans <|
    (Query.bind_ok continue_ _).trans <| (Query.bind_ok quit _).trans <|
    (Query.bind_ok accept _).trans <| (Query.bind_ok reject _).trans <|
    (Query.bind_ok return_ _).trans rfl⟩

end Interp

end

/-! ## Booting -/

theorem Interp.setRoot_run {v : ContextView} {m : Machine} (held : v.In m) (w : ContextView)
    (held' : w.In m) : ∃ m', setFlag v.context Flags.root m = .ok () m' ∧
      m.Alters [v.context] m' ∧ v.In m' ∧ w.In m' := by
  obtain ⟨s, live, -⟩ := Law.keylist_eq_ok.mp held.linked
  exact ⟨_, modifySeries_run live _,
    .modify m v.context fun s => s.has_withFlags_of_apart (by decide),
    held.modify _ (fun _ => rfl) fun _ => rfl, held'.modify _ (fun _ => rfl) fun _ => rfl⟩

/-- A library is set up: it has the built-in actions, and the user has no variables. -/
structure Machine.Furbished (m : Machine) (user lib : ContextView)
    (entries : List (String × Cell)) : Prop where
  furnished : m.Furnished user lib
  empty : user.names = #[Cell.blank]
  stocked : m.Stocked lib entries
  equipped : m.Equipped lib.series entries

/-- The two contexts are made and marked, and are without variables. -/
theorem Interp.contexts_run {m : Machine} (tidy : m.Tidy) :
    ∃ (user lib : ContextView) (m' : Machine), (do
        let lib ← makeContext .module []
        let user ← makeContext .module []
        modify fun m => { m with lib, user }
        setFlag lib Flags.root
        setFlag user Flags.root : Interp Unit) m = .ok () m' ∧
      m'.Furnished user lib ∧ user.names = #[Cell.blank] ∧ m'.Stocked lib [] ∧
      m' = { m with heap := m'.heap, symbols := m'.symbols, lib := m'.lib, user := m'.user } := by
  obtain ⟨lib, m₁, ran₁, alters₁, libIn₁, libFresh, libOwn, libNames, libVars⟩ :=
    makeContext_empty .module m
  obtain ⟨user, m₂, ran₂, alters₂, userIn₂, userFresh, userOwn, userNames, -⟩ :=
    makeContext_empty .module m₁
  have apart : lib.series.Disjoint user.series := fun id member fresh =>
    libIn₁.live member (userFresh id fresh)
  let m₃ : Machine := { m₂ with lib := lib.context, user := user.context }
  have libIn₃ : lib.In m₃ :=
    (libIn₁.keep alters₂.keeps (List.disjoint_nil_left _)).transfer fun _ _ => rfl
  have userIn₃ : user.In m₃ := userIn₂.transfer fun _ _ => rfl
  have tidy₂ : m₂.Tidy := (alters₁.trans alters₂).tidy tidy
  have tidy₃ : m₃.Tidy := ⟨tidy₂.clear, tidy₂.registered⟩
  obtain ⟨m₄, ran₄, alters₄, libIn₄, userIn₄⟩ := setRoot_run libIn₃ user userIn₃
  obtain ⟨m₅, ran₅, alters₅, userIn₅, libIn₅⟩ := setRoot_run userIn₄ lib libIn₄
  have eq₅ : m₅ = { m with heap := m₅.heap, symbols := m₅.symbols, lib := lib.context,
                           user := user.context } := by
    have eq₃ : m₃ = { m with heap := m₃.heap, symbols := m₃.symbols, lib := lib.context,
                             user := user.context } := by
      rw [show m₃ = { m₂ with lib := lib.context, user := user.context } from rfl, alters₂.rest,
        alters₁.rest]
    rw [alters₅.rest, alters₄.rest, eq₃]
  refine ⟨user, lib, m₅, ?_, ?_, userNames, ?_, by rw [eq₅]⟩
  · rw [bind_ok ran₁, bind_ok ran₂]
    exact (bind_ok (modify_run _ _) _).trans ((bind_ok ran₄ _).trans ran₅)
  · exact
      { userContext := by rw [eq₅]
        libContext := by rw [eq₅]
        userIn := userIn₅
        libIn := libIn₅
        own := userOwn
        apart }
  · exact
      { tidy := alters₅.tidy (alters₄.tidy tidy₃)
        context := by rw [eq₅]
        held := libIn₅
        own := libOwn
        distinct := List.nodup_nil
        names := ⟨[], by simp [libNames], .nil⟩
        vars := ⟨_, libVars⟩ }

/-- Setting up the library does not fail. -/
theorem Interp.boot_run {m : Machine} (tidy : m.Tidy) :
    ∃ m', boot m = .ok () m' ∧ (∃ user lib entries, m'.Furbished user lib entries) ∧
      m' = { m with heap := m'.heap, symbols := m'.symbols, lib := m'.lib, user := m'.user,
                    specials := m'.specials } := by
  obtain ⟨user, lib, m₁, ran₁, furnished, empty, stocked₁, eq₁⟩ := contexts_run tidy
  obtain ⟨entries, m₂, ran₂, alters₂, equipped₂, reached⟩ :=
    defineActions_run ⟨lib, rfl, stocked₁⟩
  obtain ⟨more, m₃, ran₃, alters₃, lib', same, stocked₃⟩ := defineConstants_run reached
  have alters := alters₂.trans alters₃
  have equipped₃ : m₃.Equipped lib'.series (entries ++ more) :=
    same.symm ▸ equipped₂.keep alters₃ more
  obtain ⟨specials, found⟩ := findSpecials_run stocked₃ equipped₃
  have eq₃ : m₃ = { m₁ with heap := m₃.heap, symbols := m₃.symbols } := alters.rest
  refine ⟨{ m₃ with specials }, ?_, ⟨user, lib', entries ++ more, ?_⟩, ?_⟩
  · have steps : boot = (do
        let lib ← makeContext .module []
        let user ← makeContext .module []
        modify fun m => { m with lib, user }
        setFlag lib Flags.root
        setFlag user Flags.root : Interp Unit) >>= (fun _ => do
        defineActions
        defineConstants
        let specials ← Query.ask findSpecials
        modify fun m => { m with specials }) := by simp [boot]
    rw [steps, bind_ok ran₁, bind_ok ran₂]
    refine (bind_ok ran₃ _).trans ?_
    exact (lift_bind_ok found _).trans (modify_run _ _)
  · exact
      { furnished :=
          { userContext := by rw [eq₃]; exact furnished.userContext
            libContext := stocked₃.context
            userIn := (furnished.userIn.keep alters.keeps furnished.apart).transfer fun _ _ => rfl
            libIn := stocked₃.held.transfer fun _ _ => rfl
            own := furnished.own
            apart := same.symm ▸ furnished.apart }
        empty
        stocked := stocked₃.congr rfl rfl rfl
        equipped := by
          obtain ⟨natives, others, listed, known⟩ := equipped₃
          exact ⟨natives, others, listed, known.imp fun _ _ =>
            And.imp_right fun realizes => realizes.congr rfl rfl⟩ }
  · rw [eq₃, eq₁]

/-- A machine before its library is set up. -/
def Machine.bare (config : Config) : Machine :=
  { config, heap := .empty config.ballast, countdown := config.evalDose }

theorem Machine.tidy_bare (config : Config) : (bare config).Tidy where
  clear id s found := by simp [bare, Heap.get?, Heap.empty] at found
  registered := ⟨[], .empty⟩

/-- Setting up a machine does not fail. -/
theorem Interpreter.boot_run (config : Config) :
    ∃ m, boot config = .ok m ∧ (∃ user lib entries, m.Furbished user lib entries) ∧
      m = { Machine.bare config with
        heap := m.heap, symbols := m.symbols, lib := m.lib, user := m.user,
        specials := m.specials } := by
  obtain ⟨m, ran, set, rest⟩ := Interp.boot_run (Machine.tidy_bare config)
  refine ⟨m, ?_, set, rest⟩
  unfold boot
  extract_lets bare
  have booted : Interp.boot bare = .ok () m := ran
  rw [booted]

end Homoicon
