import Homoicon.Proofs.Editing.Splicing

/-!
# Searching

A search goes through the places of a series from its position on and takes the first one where
the elements are those that are sought.  Cells are sought by equality, code points with or without
regard to case, and bytes as they are.
-/

namespace Homoicon

/-! ## The first place in a list -/

section Places

variable {α β : Type} {matches_ : List α → Bool} {xs : List α} {at_ start stop place : Nat}

/-- A list begins with elements that are related to some others, one by one. -/
def Begins (related : α → β → Prop) (sought : List β) (xs : List α) : Prop :=
  List.Forall₂ related (xs.take sought.length) sought

theorem Begins.length_le {related : α → β → Prop} {sought : List β} (begins : Begins related sought xs) :
    sought.length ≤ xs.length := by
  have counted := List.Forall₂.length_eq begins
  rw [List.length_take] at counted
  omega

/-- Related elements between two places are a beginning at the first one, as long as what is
sought. -/
theorem forall₂_between {related : α → β → Prop} {sought : List β} (ordered : start ≤ stop)
    (inside : stop ≤ xs.length) :
    List.Forall₂ related ((xs.take stop).drop start) sought ↔
      stop = start + sought.length ∧ Begins related sought (xs.drop start) := by
  rw [List.drop_take]
  constructor
  · intro alike
    have counted := List.Forall₂.length_eq alike
    rw [List.length_take, List.length_drop] at counted
    have stops : stop - start = sought.length := by omega
    rw [stops] at alike
    exact ⟨by omega, alike⟩
  · rintro ⟨rfl, begins⟩
    rwa [Nat.add_sub_cancel_left]

theorem findSublist?_eq_some (found : findSublist? matches_ at_ xs = some place) :
    at_ ≤ place ∧ place ≤ at_ + xs.length ∧ matches_ (xs.drop (place - at_)) = true ∧
      ∀ i, at_ ≤ i → i < place → matches_ (xs.drop (i - at_)) = false := by
  induction xs generalizing at_ with
  | nil =>
      rw [findSublist?] at found
      split_ifs at found with here
      cases found
      exact ⟨le_rfl, le_rfl, by rwa [List.drop_nil], fun i above below => by omega⟩
  | cons x xs ih =>
      rw [findSublist?] at found
      split_ifs at found with here
      · cases found
        exact ⟨le_rfl, Nat.le_add_right _ _, by rwa [Nat.sub_self], fun i above below => by omega⟩
      · obtain ⟨above, inside, there, first⟩ := ih found
        have later (i : Nat) (behind : at_ + 1 ≤ i) :
            (x :: xs).drop (i - at_) = xs.drop (i - (at_ + 1)) := by
          rw [show i - at_ = i - (at_ + 1) + 1 by omega, List.drop_succ_cons]
        refine ⟨by omega, by rw [List.length_cons]; omega, by rwa [later _ above], ?_⟩
        intro i from_ below
        obtain rfl | behind := Nat.eq_or_lt_of_le from_
        · rw [Nat.sub_self]
          exact Bool.eq_false_iff.mpr here
        · rw [later i behind]
          exact first i behind below

theorem findSublist?_eq_none (missed : findSublist? matches_ at_ xs = none) (n : Nat) :
    matches_ (xs.drop n) = false := by
  induction xs generalizing at_ n with
  | nil =>
      rw [findSublist?] at missed
      split_ifs at missed with here
      rw [List.drop_nil]
      exact Bool.eq_false_iff.mpr here
  | cons x xs ih =>
      rw [findSublist?] at missed
      split_ifs at missed with here
      cases n with
      | zero => exact Bool.eq_false_iff.mpr here
      | succ n => exact ih missed n

end Places

/-! ## Matches -/

/-- The elements of a content between two places. -/
def Content.between (content : Content) (start stop : Nat) : Content :=
  content.rearranged fun xs => (xs.take stop).drop start

namespace Machine

/-- Two contents are alike for a search: their cells are equal one by one, their texts are the same
but for case unless it is strict, their bytes are the same. -/
def Alike (m : Machine) (strict : Bool) : Content → Content → Prop
  | .array xs, .array ys =>
    List.Forall₂ (fun x y => Query.equal x y strict m = .ok true) xs.toList ys.toList
  | .text s, .text t => Query.searchForm strict s.toList = Query.searchForm strict t.toList
  | .binary xs, .binary ys => xs = ys
  | _, _ => False

/-- What a search for a value looks for: the cells of a block from its position on, any other value
itself; the text or the bytes that a value puts into a series. -/
inductive Sought (m : Machine) (value : Cell) : Content → Prop where
  | run {id : SeriesId} {cells : Array Cell} (block : value.is .block = true)
      (known : value.seriesId? = some id) (held : Query.cells id m = .ok cells) :
      Sought m value (.array (cells.toList.drop value.index).toArray)
  | item (other : value.is .block = false) : Sought m value (.array #[value])
  | char {c : Char} (single : value.asChar? = some c) :
      Sought m value (.text (.ofString (String.singleton c)))
  | text {text : String} (other : value.asChar? = none)
      (given : Query.insertionText value m = .ok text) : Sought m value (.text (.ofString text))
  | bytes {bytes : List UInt8} (given : Query.insertionBytes value m = .ok bytes) :
      Sought m value (.binary bytes.toArray)

/-- Between two places of a content, not before a start, stands what is sought. -/
structure Matches (m : Machine) (strict : Bool) (content sought : Content) (start i j : Nat) :
    Prop where
  from_ : start ≤ i
  ordered : i ≤ j
  inside : j ≤ content.size
  alike : m.Alike strict (content.between i j) sought

/-- The answer of a search: the places around the first match, none if there is no match. -/
def Locates (m : Machine) (strict : Bool) (content sought : Content) (start : Nat) :
    Option (Nat × Nat) → Prop
  | some (i, j) => m.Matches strict content sought start i j ∧
      ∀ i' j', m.Matches strict content sought start i' j' → i ≤ i'
  | none => ∀ i j, ¬ m.Matches strict content sought start i j

variable {m : Machine} {strict : Bool} {content sought : Content} {start : Nat}

/-- Trying the places one after the other locates what is sought. -/
theorem Locates.of_places {α β : Type} {related : α → β → Prop} {xs : List α} {items : List β}
    {matches_ : List α → Bool} (decides : ∀ l, matches_ l = true ↔ Begins related items l)
    (counted : content.size = xs.length) (within : start ≤ xs.length)
    (alike : ∀ i j, start ≤ i → (m.Alike strict (content.between i j) sought ↔
      List.Forall₂ related ((xs.take j).drop i) items)) :
    m.Locates strict content sought start
      ((findSublist? matches_ start (xs.drop start)).map fun i => (i, i + items.length)) := by
  -- What is sought has one length, so a match is known by the place where it begins.
  have places (i j : Nat) : m.Matches strict content sought start i j ↔
      start ≤ i ∧ j = i + items.length ∧ i ≤ xs.length ∧ matches_ (xs.drop i) = true := by
    rw [decides]
    constructor
    · intro found
      have inside := counted ▸ found.inside
      obtain ⟨stops, begins⟩ := (forall₂_between found.ordered inside).mp
        ((alike i j found.from_).mp found.alike)
      exact ⟨found.from_, stops, found.ordered.trans inside, begins⟩
    · rintro ⟨from_, rfl, before, begins⟩
      have room := begins.length_le
      rw [List.length_drop] at room
      have inside : i + items.length ≤ xs.length := by omega
      have ordered : i ≤ i + items.length := Nat.le_add_right _ _
      exact ⟨from_, ordered, counted ▸ inside, (alike i _ from_).mpr
        ((forall₂_between ordered inside).mpr ⟨rfl, begins⟩)⟩
  have behind (i : Nat) (from_ : start ≤ i) : (xs.drop start).drop (i - start) = xs.drop i := by
    rw [List.drop_drop, Nat.add_sub_cancel' from_]
  cases found : findSublist? matches_ start (xs.drop start) with
  | none =>
      intro i j here
      obtain ⟨from_, -, -, begins⟩ := (places i j).mp here
      have missed := findSublist?_eq_none found (i - start)
      rw [behind i from_, begins] at missed
      cases missed
  | some i =>
      obtain ⟨from_, inside, begins, first⟩ := findSublist?_eq_some found
      rw [behind i from_] at begins
      rw [List.length_drop, Nat.add_sub_cancel' within] at inside
      refine ⟨(places i _).mpr ⟨from_, rfl, inside, begins⟩, fun i' j' here => ?_⟩
      obtain ⟨from', -, -, begins'⟩ := (places i' j').mp here
      by_contra before
      have missed := first i' from' (Nat.lt_of_not_le before)
      rw [behind i' from', begins'] at missed
      cases missed

end Machine

/-! ## Searching arrays -/

namespace Query

variable {m : Machine} {strict : Bool}

/-- Comparing two lists element by element tells whether the shorter one is found at the front of
the other, if all comparisons are answered. -/
theorem allEqual_begins (equal : Cell → Cell → Query Bool) {cells items : List Cell}
    (long : items.length ≤ cells.length)
    (answered : ∀ x ∈ cells, ∀ y ∈ items, ∃ b, equal x y m = .ok b) :
    ∃ b, allEqual equal cells items m = .ok b ∧
      (b = true ↔ Begins (fun x y => equal x y m = .ok true) items cells) := by
  induction items generalizing cells with
  | nil => cases cells <;> exact ⟨true, rfl, iff_of_true rfl .nil⟩
  | cons y items ih =>
      cases cells with
      | nil => exact absurd long (Nat.not_succ_le_zero _)
      | cons x cells =>
          obtain ⟨b, compared⟩ := answered x List.mem_cons_self y List.mem_cons_self
          obtain ⟨rest, later, means⟩ := ih (Nat.le_of_succ_le_succ long)
            fun x' member y' member' => answered x' (List.mem_cons_of_mem x member) y'
              (List.mem_cons_of_mem y member')
          rw [allEqual, Query.bind_ok compared]
          unfold Begins at means ⊢
          rw [List.length_cons, List.take_succ_cons, List.forall₂_cons, compared]
          cases b with
          | false => exact ⟨false, rfl, iff_of_false Bool.false_ne_true (by simp)⟩
          | true => exact ⟨rest, later, by simp [means]⟩

section Arrays

variable {items : List Cell} {matches_ : List Cell → Bool}

theorem search_eq (some_ : items ≠ []) (decides : ∀ l, matches_ l = true ↔
      Begins (fun x y => equal x y strict m = .ok true) items l) {cells : List Cell}
    (answered : ∀ x ∈ cells, ∀ y ∈ items, ∃ b, equal x y strict m = .ok b) (at_ : Nat) :
    findInArray.search strict items at_ cells m =
      .ok ((findSublist? matches_ at_ cells).map fun i => (i, i + items.length)) := by
  induction cells generalizing at_ with
  | nil =>
      have missed : matches_ [] = false := by
        refine Bool.eq_false_iff.mpr fun here => some_ (List.length_eq_zero_iff.mp ?_)
        exact Nat.le_zero.mp ((decides []).mp here).length_le
      rw [findInArray.search, findSublist?, missed]
      rfl
  | cons c rest ih =>
      have later := ih (fun x member => answered x (List.mem_cons_of_mem c member)) (at_ + 1)
      rw [findInArray.search, findSublist?]
      by_cases long : items.length ≤ rest.length + 1
      · obtain ⟨b, compared, means⟩ := allEqual_begins (equal · · strict) long answered
        have decided : b = matches_ (c :: rest) := by
          rw [Bool.eq_iff_iff, means, decides]
        rw [if_pos long, Query.bind_ok compared, decided]
        dsimp only
        split_ifs
        · rfl
        · exact later
      · have missed : ¬ matches_ (c :: rest) = true := fun here =>
          long ((decides _).mp here).length_le
        rw [if_neg long, if_neg missed]
        exact later

/-- Searching an array tries its places one after the other. -/
theorem findInArray_eq {value : Cell} (sought : m.Sought value (.array items.toArray))
    (decides : ∀ l, matches_ l = true ↔
      Begins (fun x y => equal x y strict m = .ok true) items l) {cells : List Cell}
    (answered : ∀ x ∈ cells, ∀ y ∈ items, ∃ b, equal x y strict m = .ok b) (start : Nat) :
    findInArray cells start value strict m =
      .ok ((findSublist? matches_ start cells).map fun i => (i, i + items.length)) := by
  have searched : (if items.isEmpty then pure (some (start, start))
      else findInArray.search strict items start cells : Query (Option (Nat × Nat))) m =
        .ok ((findSublist? matches_ start cells).map fun i => (i, i + items.length)) := by
    cases items with
    | nil =>
        have here (l : List Cell) : matches_ l = true := (decides l).mpr .nil
        cases cells <;> rw [findSublist?, if_pos (here _)] <;> rfl
    | cons y items => exact search_eq (List.cons_ne_nil y items) decides answered start
  unfold findInArray
  generalize listed : items.toArray = array at sought
  cases sought with
  | run block known held =>
      obtain rfl : items = _ := congrArg Array.toList listed
      rw [if_pos block, Query.bind_ok (Query.arrayOf_eq_ok.mpr known),
        Query.bind_ok (Query.cellsFrom_eq_ok.mpr ⟨_, held, rfl⟩)]
      exact searched
  | item other =>
      obtain rfl : items = [value] := congrArg Array.toList listed
      rw [if_neg (Bool.eq_false_iff.mp other)]
      exact searched

end Arrays

end Query

/-! ## Searching texts and bytes -/

namespace Text

/-- Of all characters only a capital I with a dot has a small form of two. -/
theorem lowerChar_single {c : Char} (single : c ≠ 'İ') : ∃ small, lowerChar c = [small] := by
  have undotted : ¬ (c.toNat == 0x130) = true := fun dotted =>
    single (Char.toNat_inj.mp (beq_iff_eq.mp dotted))
  unfold lowerChar lowerBeyondAscii
  dsimp only
  rw [if_neg undotted]
  split_ifs
  · exact ⟨_, rfl⟩
  · cases capitalRuns.find? _ with
    | none => exact ⟨_, rfl⟩
    | some run =>
        dsimp only
        split_ifs <;> exact ⟨_, rfl⟩

theorem lowerChar_ne_nil (c : Char) : lowerChar c ≠ [] := by
  by_cases dotted : c = 'İ'
  · subst dotted
    decide
  · obtain ⟨small, form⟩ := lowerChar_single dotted
    rw [form]
    exact List.cons_ne_nil small []

end Text

namespace Query

/-- The character that stands for another one in a search. -/
def searchChar (strict : Bool) (c : Char) : Char :=
  if strict then c else (Text.lowerChar c).headD c

variable {strict : Bool} {cs : List Char}

/-- A text is as long as what a search compares, unless a letter has a longer small form. -/
theorem searchForm_eq_map (single : strict = false → 'İ' ∉ cs) :
    searchForm strict cs = cs.map (searchChar strict) := by
  cases strict with
  | true => exact (List.map_id' cs).symm
  | false =>
      have single := single rfl
      change cs.flatMap Text.lowerChar = cs.map fun c => (Text.lowerChar c).headD c
      rw [List.map_eq_flatMap]
      refine List.flatMap_congr fun c member => ?_
      obtain ⟨small, form⟩ := Text.lowerChar_single (ne_of_mem_of_not_mem member single)
      rw [form]
      rfl

theorem searchForm_ne_nil (some_ : cs ≠ []) : searchForm strict cs ≠ [] := by
  obtain ⟨c, rest, rfl⟩ := List.exists_cons_of_ne_nil some_
  cases strict with
  | true => exact some_
  | false => exact fun none_ => Text.lowerChar_ne_nil c (List.append_eq_nil_iff.mp none_).1

end Query

/-! ## The first match -/

namespace Query

variable {m : Machine} {series value : Cell} {id : SeriesId} {start : Nat} {s : Series}
  {strict : Bool} {sought : Content}

/-- A run of characters, of bytes or of what stands for them is found at the first place where the
list begins with it. -/
theorem findRun_locates {α : Type} [BEq α] [LawfulBEq α] {content : Content} {xs items : List α}
    (counted : content.size = xs.length) (within : start ≤ xs.length)
    (alike : ∀ i j, start ≤ i → (m.Alike strict (content.between i j) sought ↔
      List.Forall₂ Eq ((xs.take j).drop i) items)) :
    m.Locates strict content sought start (findRun (xs.drop start) items start) := by
  refine .of_places (fun l => ?_) counted within alike
  rw [Begins, List.forall₂_eq_eq_eq, List.isPrefixOf_iff_prefix, List.prefix_iff_eq_take, eq_comm]

theorem locates_text {b t : Text.Buffer} (within : start ≤ b.size)
    (single : strict = false → 'İ' ∉ b.toList.drop start) :
    m.Locates strict (.text b) (.text t) start
      (findRun (searchForm strict (b.toList.drop start)) (searchForm strict t.toList) start) := by
  rw [searchForm_eq_map single, List.map_drop]
  refine findRun_locates ?_ ?_ fun i j from_ => ?_
  · rw [List.length_map, Text.Buffer.length_toList]
    rfl
  · rwa [List.length_map, Text.Buffer.length_toList]
  · have part : (b.toList.take j).drop i ⊆ b.toList.drop start := by
      rw [List.drop_take]
      exact List.Subset.trans (List.take_subset _ _) (List.drop_subset_drop_left _ from_)
    have plain : searchForm strict ((b.toList.take j).drop i) =
        ((b.toList.take j).drop i).map (searchChar strict) :=
      searchForm_eq_map fun lax member => single lax (part member)
    rw [Content.between, Content.rearranged, Machine.Alike, Text.Buffer.toList_ofList, plain,
      List.map_drop, List.map_take, List.forall₂_eq_eq_eq]

theorem locates_binary {xs : Array UInt8} {items : List UInt8} (within : start ≤ xs.size) :
    m.Locates strict (.binary xs) (.binary items.toArray) start
      (findRun (xs.toList.drop start) items start) := by
  refine findRun_locates Array.length_toList.symm within fun i j _ => ?_
  rw [Content.between, Content.rearranged, Machine.Alike, List.forall₂_eq_eq_eq,
    ← Array.toList_inj, List.toList_toArray, List.toList_toArray]

theorem between_empty {content : Content} {i : Nat} (same : sought.SameForm content)
    (alike : m.Alike strict (content.between i i) sought) : sought.size = 0 := by
  have empty {α : Type} (xs : List α) : (xs.take i).drop i = [] := List.drop_take_self
  cases same with
  | array ys xs =>
      rw [Content.between, Content.rearranged, Machine.Alike, empty, List.toList_toArray,
        List.forall₂_nil_left_iff] at alike
      rw [Content.size, ← Array.length_toList, alike, List.length_nil]
  | text t b =>
      rw [Content.between, Content.rearranged, Machine.Alike, empty] at alike
      by_contra some_
      have listed : searchForm strict t.toList ≠ [] := by
        refine searchForm_ne_nil fun none_ => some_ ?_
        rw [Content.size, ← Text.Buffer.length_toList, none_, List.length_nil]
      refine listed ?_
      rw [← alike]
      cases strict <;> rfl
  | binary ys xs =>
      rw [Content.between, Content.rearranged, Machine.Alike, empty] at alike
      rw [← alike, Content.size, List.size_toArray, List.length_nil]

/-- At its end a content has no match but for nothing. -/
theorem locates_none {content : Content} (same : sought.SameForm content)
    (at_end : content.size ≤ start) (room : start = content.size → 0 < sought.size) :
    m.Locates strict content sought start none := by
  intro i j found
  have from_ := found.from_
  have ordered := found.ordered
  have inside := found.inside
  obtain rfl : start = i := by omega
  obtain rfl : start = j := by omega
  have none_ := between_empty same found.alike
  have some_ := room (by omega)
  omega

/-- A search finds the first match. -/
theorem findInSeries?_locates (at_ : m.SeriesAt series id start s) (of : m.Sought value sought)
    (same : sought.SameForm s.content)
    (answered : ∀ xs ys, s.content = .array xs → sought = .array ys →
      ∀ x ∈ xs.toList.drop start, ∀ y ∈ ys.toList, ∃ b, equal x y strict m = .ok b)
    (single : ∀ text, s.content = .text text → strict = false → 'İ' ∉ text.toList.drop start)
    (room : start = s.content.size → 0 < sought.size) :
    ∃ found, findInSeries? series value strict m = .ok found ∧
      m.Locates strict s.content sought start found := by
  have fits := at_.kind
  unfold findInSeries?
  rw [Query.bind_ok at_.arrayOf, Query.bind_ok (Query.size_run at_.live), at_.index]
  by_cases at_end : s.content.size ≤ start
  · rw [if_pos at_end]
    exact ⟨none, rfl, locates_none same at_end room⟩
  have within : start ≤ s.content.size := Nat.le_of_not_le at_end
  rw [if_neg at_end]
  have live := at_.live
  generalize held : s.content = content at same fits within ⊢
  cases same with
  | array ys xs =>
      have array : series.kind.isAnyArray = true := fits
      have cells : Query.cells id m = .ok xs := Query.cells_eq_ok.mpr ⟨s, live, held⟩
      have listed : m.Sought value (.array ys.toList.toArray) := by rwa [Array.toArray_toList]
      classical
      have decides (l : List Cell) :
          decide (Begins (fun x y => equal x y strict m = .ok true) ys.toList l) = true ↔
            Begins (fun x y => equal x y strict m = .ok true) ys.toList l := decide_eq_true_iff
      rw [if_pos array, Query.bind_ok cells,
        findInArray_eq listed decides (answered xs ys held rfl)]
      refine ⟨_, rfl, .of_places decides rfl ?_ fun i j _ => ?_⟩
      · simpa [Content.size] using within
      · rw [Content.between, Content.rearranged, Machine.Alike, List.toList_toArray]
  | text t b =>
      have other : series.kind.isAnyArray = false ∧ series.kind ≠ .binary := by
        have string : series.kind.isAnyString = true := fits
        revert string
        cases series.kind <;> simp [Kind.isAnyString, Kind.isAnyArray, Kind.isAnyPath,
          Kind.isAnyBlock, Kind.isAnyGroup]
      have chars : Query.text id m = .ok b := Query.text_eq_ok.mpr ⟨s, live, held⟩
      rw [other.1, if_neg Bool.false_ne_true, if_neg other.2, Query.bind_ok chars]
      have found := locates_text (m := m) (t := t) within (single b held)
      cases of with
      | char known =>
          rw [Text.Buffer.toList_ofString, String.toList_singleton] at found
          rw [known]
          exact ⟨_, rfl, found⟩
      | text unknown given =>
          rw [unknown]
          dsimp only
          rw [Query.bind_ok given]
          exact ⟨_, rfl, found⟩
  | binary ys xs =>
      have kind : series.kind = .binary := fits
      have held' : Query.bytes id m = .ok xs := Query.bytes_eq_ok.mpr ⟨s, live, held⟩
      cases of with
      | bytes given =>
          rw [kind, if_neg (by decide), if_pos rfl, Query.bind_ok given, Query.bind_ok held']
          exact ⟨_, rfl, locates_binary within⟩

/-- A machine with the texts `"Hello"` and `"LL"`. -/
def sampleGreeting : Machine := .ofArgs [] [.ofText "Hello", .ofText "LL"]

theorem findInSeries?_locates_sampleGreeting :
    findInSeries? (.series .text ⟨1⟩ 1) (.series .text ⟨2⟩ 0) false sampleGreeting =
        .ok (some (2, 4)) ∧
      sampleGreeting.Locates false (.text (.ofString "Hello")) (.text (.ofString "LL")) 1
        (some (2, 4)) := by
  have at_ : sampleGreeting.SeriesAt (.series .text ⟨1⟩ 1) ⟨1⟩ 1 (.ofText "Hello") :=
    ⟨rfl, rfl, rfl, rfl⟩
  obtain ⟨found, answer, located⟩ : ∃ found,
      findInSeries? (.series .text ⟨1⟩ 1) (.series .text ⟨2⟩ 0) false sampleGreeting = .ok found ∧
        sampleGreeting.Locates false _ (.text (.ofString "LL")) 1 found :=
    findInSeries?_locates at_ (.text rfl rfl) (.text _ _)
      (fun _ _ held => Content.noConfusion held) (fun _ held _ => by cases held; decide)
      (fun _ => by decide)
  have known : findInSeries? (.series .text ⟨1⟩ 1) (.series .text ⟨2⟩ 0) false sampleGreeting =
    .ok (some (2, 4)) := rfl
  obtain rfl := Except.ok.inj (answer.symm.trans known)
  exact ⟨known, located⟩

end Query

end Homoicon
