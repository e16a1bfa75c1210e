import Homoicon.Proofs.Comparing.Keys
import Homoicon.Proofs.Exchange.Growing
import Mathlib.Data.List.Count

/-!
# Rings of names

A table that texts are entered into one after the other is determined by the list of the different
texts in the order in which they came.  The names with the same small letters are linked in a ring:
from the first of them it goes to the one entered last, and from there back in the order of entering.
-/

namespace Homoicon

namespace Symbols

/-- The table after more texts were entered. -/
def enter (t : Symbols) (texts : List String) : Symbols :=
  texts.foldl (fun t text => (t.intern text).2) t

/-- The ids of the names with some small letters, in the order of entering. -/
def variants (names : List String) (lower : String) : List SymbolId :=
  (names.findIdxs fun name => Text.lowercase name == lower).map SymbolId.mk

/-- To follow the links from `x` leads through some names, in this order, to `y`. -/
def Path (t : Symbols) (x : SymbolId) : List SymbolId → SymbolId → Prop
  | [], y => (t.entry x).synonym = y
  | z :: later, y => (t.entry x).synonym = z ∧ t.Path z later y

variable {t t' : Symbols} {names : List String} {lower : String} {x y z : SymbolId}
  {through : List SymbolId}

/-! ## Following links -/

theorem Path.append {first second : List SymbolId} :
    t.Path x (first ++ z :: second) y ↔ t.Path x first z ∧ t.Path z second y := by
  induction first generalizing x with
  | nil => exact Iff.rfl
  | cons next first ih =>
      constructor
      · rintro ⟨link, path⟩
        obtain ⟨before, behind⟩ := ih.mp path
        exact ⟨⟨link, before⟩, behind⟩
      · rintro ⟨⟨link, before⟩, behind⟩
        exact ⟨link, ih.mpr ⟨before, behind⟩⟩

/-- The links of another table lead the same way, where they are the same. -/
theorem Path.carry {x' : SymbolId} (path : t.Path x through y)
    (start : (t'.entry x').synonym = (t.entry x).synonym)
    (same : ∀ z ∈ through, (t'.entry z).synonym = (t.entry z).synonym) :
    t'.Path x' through y := by
  induction through generalizing x x' with
  | nil => exact start.trans path
  | cons next through ih =>
      obtain ⟨link, path⟩ := path
      refine ⟨start.trans link, ih path (same next List.mem_cons_self) fun z member => ?_⟩
      exact same z (List.mem_cons_of_mem next member)

/-- A ring can be followed from each of its names. -/
theorem Path.rotate (path : t.Path x through x) (member : y ∈ x :: through) :
    ∃ others, t.Path y others y ∧ (y :: others).Perm (x :: through) := by
  rcases List.mem_cons.mp member with rfl | member
  · exact ⟨through, path, .refl _⟩
  · obtain ⟨first, second, rfl⟩ := List.append_of_mem member
    obtain ⟨before, behind⟩ := Path.append.mp path
    refine ⟨second ++ x :: first, Path.append.mpr ⟨behind, before⟩, ?_⟩
    calc
      (y :: (second ++ x :: first)).Perm ((y :: second) ++ (x :: first)) := .refl _
      _ |>.Perm ((x :: first) ++ (y :: second)) := List.perm_append_comm

/-- The walk along a ring ends when it comes back. -/
theorem ringFrom_of_path (path : t.Path x through y) (away : y ∉ through) {steps : Nat}
    (enough : through.length ≤ steps) : t.ringFrom y steps (t.entry x).synonym = through := by
  induction through generalizing x steps with
  | nil =>
      obtain rfl : (t.entry x).synonym = y := path
      cases steps with
      | zero => rfl
      | succ steps => simp [ringFrom]
  | cons z through ih =>
      obtain ⟨link, path⟩ := path
      rw [List.mem_cons, not_or] at away
      cases steps with
      | zero => cases enough
      | succ steps =>
          have onward : (z == y) = false := beq_eq_false_iff_ne.mpr (Ne.symm away.1)
          rw [link, ringFrom, onward, if_neg Bool.false_ne_true,
            ih path away.2 (Nat.le_of_succ_le_succ enough)]

/-! ## The names with the same small letters -/

theorem mem_variants : x ∈ variants names lower ↔
    ∃ name, names[x.index]? = some name ∧ Text.lowercase name = lower := by
  cases x with
  | mk index =>
    simp only [variants, List.mem_map, SymbolId.mk.injEq, exists_eq_right,
      List.mem_findIdxs_iff_exists_getElem_pos, beq_iff_eq]
    constructor
    · rintro ⟨inside, same⟩
      exact ⟨names[index], List.getElem?_eq_getElem inside, same⟩
    · rintro ⟨name, here, same⟩
      obtain ⟨inside, rfl⟩ := List.getElem?_eq_some_iff.mp here
      exact ⟨inside, same⟩

theorem length_variants (names : List String) (lower : String) :
    (variants names lower).length ≤ names.length := by
  rw [variants, List.length_map, List.length_findIdxs]
  exact List.countP_le_length

/-- The names with some small letters come first to last. -/
theorem pairwise_variants (names : List String) (lower : String) :
    (variants names lower).Pairwise (·.index < ·.index) :=
  List.pairwise_map.mpr List.pairwise_findIdxs

theorem nodup_variants (names : List String) (lower : String) : (variants names lower).Nodup :=
  (pairwise_variants names lower).imp fun ordered same =>
    Nat.ne_of_lt ordered (congrArg SymbolId.index same)

/-- Names that come later are met later. -/
theorem variants_append (names more : List String) (lower : String) :
    ∃ later, variants (names ++ more) lower = variants names lower ++ later :=
  ⟨_, by rw [variants, List.findIdxs_append, List.map_append, variants]⟩

theorem variants_concat (names : List String) (text lower : String) :
    variants (names ++ [text]) lower = variants names lower ++
      if Text.lowercase text = lower then [⟨names.length⟩] else [] := by
  rw [variants, List.findIdxs_append, List.findIdxs_singleton, List.map_append, Nat.zero_add]
  congr 1
  by_cases same : Text.lowercase text = lower
  · simp [same]
  · simp [same]

/-! ## Entries -/

theorem entry_push (t : Symbols) (text lower : String) (canon synonym id : SymbolId) :
    (t.push text lower canon synonym).entry id =
      if id.index = t.size then ⟨text, lower, canon, synonym⟩ else t.entry id := by
  rw [entry, entry, Array.getD_eq_getD_getElem?, Array.getD_eq_getD_getElem?, push,
    Array.getElem?_push]
  exact apply_ite (Option.getD · default) _ _ _

theorem entry_link (t : Symbols) {before next : SymbolId} (inside : before.index < t.size)
    (id : SymbolId) : (t.link before next).entry id =
      if before = id then { t.entry id with synonym := next } else t.entry id := by
  rw [entry, entry, Array.getD_eq_getD_getElem?, Array.getD_eq_getD_getElem?, link,
    Array.getElem?_modify]
  by_cases same : before = id
  · subst same
    rw [if_pos rfl, if_pos rfl, Array.getElem?_eq_getElem inside]
    rfl
  · have apart : before.index ≠ id.index := fun index => same (by cases before; cases id; cases index; rfl)
    rw [if_neg same, if_neg apart]

/-! ## The list behind a table -/

theorem getElem?_concat (names : List String) (text : String) (i : Nat) :
    (names ++ [text])[i]? = if i = names.length then some text else names[i]? := by
  grind

theorem getElem?_append_known {i : Nat} {name : String} (here : names[i]? = some name)
    (later : List String) : (names ++ later)[i]? = some name :=
  (List.getElem?_append_left (List.getElem?_eq_some_iff.mp here).1).trans here

/-- A table holds the texts of a list, each under its place. -/
structure Lists (t : Symbols) (names : List String) : Prop where
  size : t.size = names.length
  spelled : ∀ (text : String) (id : SymbolId), t.bySpelling[text]? = some id ↔ names[id.index]? = some text
  lowered : ∀ (id : SymbolId) (name : String), names[id.index]? = some name → t.lower id = Text.lowercase name

namespace Lists

theorem empty : Lists .empty [] where
  size := rfl
  spelled text id := by
    rw [show Symbols.empty.bySpelling = ∅ from rfl, Std.HashMap.getElem?_empty]
    simp
  lowered id name found := by cases found

theorem link (lists : t.Lists names) {before : SymbolId} (inside : before.index < t.size)
    (next : SymbolId) : (t.link before next).Lists names where
  size := Array.size_modify.trans lists.size
  spelled := lists.spelled
  lowered id name found := by
    rw [lower, entry_link t inside, ← lists.lowered id name found, lower]
    split <;> rfl

theorem push (lists : t.Lists names) {text : String} (new : t.bySpelling[text]? = none)
    (canon synonym : SymbolId) :
    (t.push text (Text.lowercase text) canon synonym).Lists (names ++ [text]) where
  size := by
    rw [List.length_append, List.length_singleton, ← lists.size]
    exact Array.size_push _
  spelled other id := by
    rw [getElem?_concat, ← lists.size, Symbols.push, Std.HashMap.getElem?_insert]
    by_cases same : text = other
    · subst same
      rw [if_pos (beq_self_eq_true text)]
      constructor
      · intro given
        cases given
        exact if_pos rfl
      · intro here
        split_ifs at here with last
        · exact congrArg some (congrArg SymbolId.mk last.symm)
        · rw [← lists.spelled, new] at here
          cases here
    · rw [if_neg (by simpa using same), lists.spelled]
      split_ifs with last
      · rw [last, List.getElem?_eq_none (Nat.le_of_eq lists.size.symm)]
        constructor
        · intro found
          cases found
        · intro found
          exact absurd (Option.some.inj found) same
      · rfl
  lowered id name found := by
    rw [getElem?_concat, ← lists.size] at found
    rw [lower, entry_push]
    split_ifs at found ⊢ with here
    · cases found
      rfl
    · exact lists.lowered id name found

end Lists

/-! ## Rings -/

/-- A table holds the texts of a list, finds the first of those with the same small letters, and
links these in a ring, from the first to the last and back to the one before. -/
structure Registers (t : Symbols) (names : List String) : Prop where
  lists : t.Lists names
  folded : t.Folded
  led : ∀ lower, t.byLower[lower]? = (variants names lower).head?
  ringed : ∀ {lower first rest}, variants names lower = first :: rest →
    t.Path first rest.reverse first

namespace Registers

theorem empty : Registers .empty [] where
  lists := .empty
  folded := folded_empty
  led _ := Std.HashMap.getElem?_empty
  ringed none_ := by cases none_

variable {text : String} {canon : SymbolId}

theorem inside (registers : t.Registers names) (member : x ∈ variants names lower) :
    x.index < t.size := by
  obtain ⟨name, here, -⟩ := mem_variants.mp member
  rw [registers.lists.size]
  exact (List.getElem?_eq_some_iff.mp here).1

theorem variants_of_led (registers : t.Registers names) (found : t.byLower[lower]? = some canon) :
    ∃ others, variants names lower = canon :: others := by
  rw [registers.led] at found
  exact List.head?_eq_some_iff.mp found

/-- A name is in one ring only. -/
theorem lower_unique {lower' : String} (member : x ∈ variants names lower)
    (member' : x ∈ variants names lower') : lower = lower' := by
  obtain ⟨name, here, rfl⟩ := mem_variants.mp member
  obtain ⟨name', here', rfl⟩ := mem_variants.mp member'
  rw [here] at here'
  cases here'
  rfl

/-- A ring that a new spelling of its names is put into, right behind the first one. -/
theorem ringed_known (registers : t.Registers names)
    (found : t.byLower[Text.lowercase text]? = some canon)
    (kept : ∀ z : SymbolId, z.index < t.size → z ≠ canon →
      (t'.entry z).synonym = (t.entry z).synonym)
    (led : (t'.entry canon).synonym = ⟨names.length⟩)
    (added : (t'.entry ⟨names.length⟩).synonym = (t.entry canon).synonym)
    {first : SymbolId} {rest : List SymbolId}
    (ring : variants (names ++ [text]) lower = first :: rest) : t'.Path first rest.reverse first := by
  obtain ⟨others, known⟩ := registers.variants_of_led found
  rw [variants_concat] at ring
  split_ifs at ring with same
  · subst same
    rw [known, List.cons_append] at ring
    cases ring
    rw [List.reverse_append]
    refine ⟨led, (registers.ringed known).carry added fun z member => ?_⟩
    have member : z ∈ others := List.mem_reverse.mp member
    have distinct := nodup_variants names (Text.lowercase text)
    rw [known] at distinct
    refine kept z (registers.inside (known ▸ List.mem_cons_of_mem canon member)) fun first => ?_
    exact (List.nodup_cons.mp distinct).1 (first ▸ member)
  · rw [List.append_nil] at ring
    have other (z : SymbolId) (here : z ∈ first :: rest) :
        (t'.entry z).synonym = (t.entry z).synonym := by
      rw [← ring] at here
      refine kept z (registers.inside here) fun first => same ?_
      exact lower_unique (known ▸ List.mem_cons_self) (first ▸ here)
    refine (registers.ringed ring).carry (other first List.mem_cons_self) fun z member => ?_
    exact other z (List.mem_cons_of_mem first (List.mem_reverse.mp member))

/-- The rings beside a new one of a single name. -/
theorem ringed_new (registers : t.Registers names)
    (unknown : t.byLower[Text.lowercase text]? = none)
    (kept : ∀ z : SymbolId, z.index < t.size → (t'.entry z).synonym = (t.entry z).synonym)
    (single : (t'.entry ⟨names.length⟩).synonym = ⟨names.length⟩)
    {first : SymbolId} {rest : List SymbolId}
    (ring : variants (names ++ [text]) lower = first :: rest) : t'.Path first rest.reverse first := by
  rw [variants_concat] at ring
  split_ifs at ring with same
  · subst same
    rw [registers.led, List.head?_eq_none_iff] at unknown
    rw [unknown, List.nil_append] at ring
    cases ring
    exact single
  · rw [List.append_nil] at ring
    have inside (z : SymbolId) (here : z ∈ first :: rest) : z.index < t.size :=
      registers.inside (ring ▸ here)
    refine (registers.ringed ring).carry (kept first (inside first List.mem_cons_self)) ?_
    intro z member
    exact kept z (inside z (List.mem_cons_of_mem first (List.mem_reverse.mp member)))

/-- A new spelling of a known name. -/
theorem push_known (registers : t.Registers names) (new : t.bySpelling[text]? = none)
    (found : t.byLower[Text.lowercase text]? = some canon) :
    ((t.link canon ⟨t.entries.size⟩).push text (Text.lowercase text) canon
      (t.entry canon).synonym).Registers (names ++ [text]) := by
  obtain ⟨others, known⟩ := registers.variants_of_led found
  have inside : canon.index < t.size := registers.inside (known ▸ List.mem_cons_self)
  have size : (t.link canon ⟨t.entries.size⟩).size = t.size := Array.size_modify
  have length : names.length = t.size := registers.lists.size.symm
  constructor
  · exact (registers.lists.link inside _).push new canon _
  · exact (registers.folded.link canon _).push found text _
  · intro lower
    rw [variants_concat]
    refine (registers.led lower).trans ?_
    split_ifs with same
    · rw [← same, known]
      rfl
    · rw [List.append_nil]
  · refine registers.ringed_known found (fun z old apart => ?_) ?_ ?_
    · rw [entry_push, size, if_neg (Nat.ne_of_lt old), entry_link t inside, if_neg apart.symm]
    · rw [entry_push, size, if_neg (Nat.ne_of_lt inside), entry_link t inside, if_pos rfl, length]
      rfl
    · rw [entry_push, size, if_pos length]

/-- A spelling of a new name. -/
theorem push_new (registers : t.Registers names) (new : t.bySpelling[text]? = none)
    (unknown : t.byLower[Text.lowercase text]? = none) :
    ({ t with byLower := t.byLower.insert (Text.lowercase text) ⟨t.entries.size⟩ }.push text
      (Text.lowercase text) ⟨t.entries.size⟩ ⟨t.entries.size⟩).Registers (names ++ [text]) := by
  have length : names.length = t.size := registers.lists.size.symm
  have lists : Lists { t with byLower := t.byLower.insert (Text.lowercase text) ⟨t.entries.size⟩ }
      names := ⟨registers.lists.size, registers.lists.spelled, registers.lists.lowered⟩
  constructor
  · exact lists.push new _ _
  · exact registers.folded.enter unknown text
  · intro lower
    rw [variants_concat, Symbols.push, Std.HashMap.getElem?_insert]
    by_cases same : Text.lowercase text = lower
    · subst same
      rw [registers.led, List.head?_eq_none_iff] at unknown
      rw [if_pos (beq_self_eq_true _), if_pos rfl, unknown, length]
      rfl
    · rw [if_neg (by simpa using same), if_neg same, List.append_nil]
      exact registers.led lower
  · refine registers.ringed_new unknown (fun z old => ?_) ?_
    · rw [entry_push]
      exact congrArg SymbolEntry.synonym (if_neg (Nat.ne_of_lt old))
    · rw [entry_push, length]
      exact congrArg SymbolEntry.synonym (if_pos rfl)

/-- Entering a text adds it to the list, unless it is there. -/
theorem intern (registers : t.Registers names) (text : String) :
    ∃ more, (t.intern text).2.Registers (names ++ more) := by
  unfold Symbols.intern
  cases known : t.bySpelling[text]? with
  | some id => exact ⟨[], by rwa [List.append_nil]⟩
  | none =>
      dsimp only
      cases found : t.byLower[Text.lowercase text]? with
      | some canon => exact ⟨[text], registers.push_known known found⟩
      | none => exact ⟨[text], registers.push_new known found⟩

/-- Entering texts makes the list longer at its end. -/
theorem enter (registers : t.Registers names) (texts : List String) :
    ∃ more, (t.enter texts).Registers (names ++ more) := by
  induction texts generalizing t names with
  | nil => exact ⟨[], by rwa [List.append_nil]⟩
  | cons text texts ih =>
      obtain ⟨added, registers⟩ := registers.intern text
      obtain ⟨more, registers⟩ := ih registers
      exact ⟨added ++ more, by rwa [← List.append_assoc]⟩

/-- What a table tells of the name at a place of the list. -/
theorem named (registers : t.Registers names) {id : SymbolId} {name : String}
    (here : names[id.index]? = some name) :
    t.spelling id = name ∧ t.lower id = Text.lowercase name := by
  have spelled := t.spelled name id ((registers.lists.spelled name id).mpr here)
  exact ⟨by rw [spelling_eq, spelled, Option.getD_some], registers.lists.lowered id name here⟩

theorem exists_name (registers : t.Registers names) (inside : x.index < t.size) :
    ∃ name, names[x.index]? = some name :=
  ⟨_, List.getElem?_eq_getElem (registers.lists.size ▸ inside)⟩

/-- The names with some small letters. -/
theorem mem_variants_iff (registers : t.Registers names) :
    x ∈ variants names lower ↔ x.index < t.size ∧ t.lower x = lower := by
  rw [mem_variants]
  constructor
  · rintro ⟨name, here, same⟩
    refine ⟨?_, (registers.named here).2.trans same⟩
    rw [registers.lists.size]
    exact (List.getElem?_eq_some_iff.mp here).1
  · rintro ⟨inside, same⟩
    obtain ⟨name, here⟩ := registers.exists_name inside
    exact ⟨name, here, (registers.named here).2.symm.trans same⟩

/-- The canon of a name is the first of those with its small letters. -/
theorem variants_canon (registers : t.Registers names) (inside : x.index < t.size) :
    ∃ others, variants names (t.lower x) = t.canon x :: others :=
  registers.variants_of_led (registers.folded.canon inside)

theorem canon_first (registers : t.Registers names) (inside : x.index < t.size) :
    (t.canon x).index < t.size ∧ t.lower (t.canon x) = t.lower x ∧
      ∀ other, other.index < (t.canon x).index → t.lower other ≠ t.lower x := by
  obtain ⟨others, ring⟩ := registers.variants_canon inside
  have canon := registers.mem_variants_iff.mp (ring ▸ List.mem_cons_self)
  refine ⟨canon.1, canon.2, fun other before same => ?_⟩
  have member := registers.mem_variants_iff.mpr ⟨before.trans canon.1, same⟩
  have ordered := pairwise_variants names (t.lower x)
  rw [ring] at member ordered
  rcases List.mem_cons.mp member with rfl | member
  · exact Nat.lt_irrefl _ before
  · exact Nat.lt_asymm before (List.rel_of_pairwise_cons ordered member)

/-- A table of more texts tells the same of the names that were there. -/
theorem kept {later : List String} (registers : t.Registers names)
    (grown : t'.Registers (names ++ later)) (inside : x.index < t.size) :
    t'.spelling x = t.spelling x ∧ t'.canon x = t.canon x := by
  obtain ⟨name, here⟩ := registers.exists_name inside
  have here' := getElem?_append_known here later
  have lower : t'.lower x = t.lower x := (grown.named here').2.trans (registers.named here).2.symm
  have inside' := (grown.mem_variants_iff.mp (mem_variants.mpr ⟨name, here', rfl⟩)).1
  obtain ⟨others, ring⟩ := registers.variants_canon inside
  obtain ⟨others', ring'⟩ := grown.variants_canon inside'
  obtain ⟨behind, longer⟩ := variants_append names later (t.lower x)
  rw [lower, longer, ring, List.cons_append] at ring'
  exact ⟨(grown.named here').1.trans (registers.named here).1.symm, (List.cons.inj ring').1.symm⟩

/-- A name that was entered is found under its spelling. -/
theorem intern_known (registers : t.Registers names) {text : String}
    (here : names[x.index]? = some text) : t.intern text = (x, t) := by
  rw [Symbols.intern, (registers.lists.spelled text x).mpr here]

/-- The place of an entered text. -/
theorem getElem?_intern {text : String} (registers : (t.intern text).2.Registers names) :
    names[(t.intern text).1.index]? = some text := by
  obtain ⟨name, here⟩ := registers.exists_name (t.index_intern text)
  rw [here, ← (registers.named here).1, (t.spelling_intern text).1]

/-- The ring of a name. -/
theorem synonyms_eq (registers : t.Registers names) (inside : x.index < t.size) :
    ∃ others, t.synonyms x = x :: others ∧ t.Path x others x ∧
      (x :: others).Perm (variants names (t.lower x)) := by
  have member : x ∈ variants names (t.lower x) := registers.mem_variants_iff.mpr ⟨inside, rfl⟩
  obtain ⟨rest, ring⟩ := registers.variants_canon inside
  have around : (t.canon x :: rest.reverse).Perm (variants names (t.lower x)) := by
    rw [ring]
    exact (List.reverse_perm rest).cons _
  obtain ⟨others, path, perm⟩ := (registers.ringed ring).rotate (around.mem_iff.mpr member)
  have perm := perm.trans around
  have distinct := perm.nodup_iff.mpr (nodup_variants names (t.lower x))
  have enough : others.length ≤ t.size := by
    have length := perm.length_eq
    have short := length_variants names (t.lower x)
    rw [← registers.lists.size, ← length, List.length_cons] at short
    exact Nat.le_of_succ_le short
  exact ⟨others, congrArg (x :: ·) (ringFrom_of_path path (List.nodup_cons.mp distinct).1 enough),
    path, perm⟩

end Registers

/-! ## Tables in use -/

/-- The id of a text is one of those in use, or the next one. -/
theorem index_intern_le (t : Symbols) (text : String) : (t.intern text).1.index ≤ t.size := by
  unfold Symbols.intern
  cases known : t.bySpelling[text]? with
  | some id =>
      have entered := t.spelled text id known
      refine Nat.le_of_not_lt fun outside => ?_
      rw [Array.getElem?_eq_none (Nat.le_of_lt outside)] at entered
      cases entered
  | none =>
      dsimp only
      cases t.byLower[Text.lowercase text]? with
      | some canon => exact Nat.le_refl _
      | none => exact Nat.le_refl _

/-- What a table promises for the names in it. -/
structure Sound (t : Symbols) : Prop where
  /-- While fewer than 2 ^ 32 names are entered, the number of an id is not cut off at 32 bits. -/
  unsigned32_id : t.size < Bits.count32 → ∀ text,
    Bits.unsigned32 (t.intern text).1.index = (t.intern text).1.index
  /-- The id of a text is spelled like it. -/
  spelling_id : ∀ text, (t.intern text).2.spelling (t.intern text).1 = text
  /-- A text that is entered again has the id that it got the first time. -/
  id_again : ∀ text more,
    (((t.intern text).2.enter more).intern text).1 = (t.intern text).1
  /-- Spellings and canons stay what they are. -/
  kept : ∀ more id, id.index < t.size →
    (t.enter more).spelling id = t.spelling id ∧ (t.enter more).canon id = t.canon id
  /-- The small letters are those of the spelling. -/
  lower_eq : ∀ id, id.index < t.size → t.lower id = Text.lowercase (t.spelling id)
  /-- Names are the same exactly if they have the same small letters. -/
  same_iff : ∀ x y, x.index < t.size → y.index < t.size →
    (t.same x y = true ↔ t.lower x = t.lower y)
  /-- The canon of a name is the first one with its small letters. -/
  canon_first : ∀ id, id.index < t.size →
    (t.canon id).index < t.size ∧ t.lower (t.canon id) = t.lower id ∧
      ∀ other, other.index < (t.canon id).index → t.lower other ≠ t.lower id
  /-- A text is found in any case, by the canon of the names with its small letters. -/
  lookup_known : ∀ text id, id.index < t.size → t.lower id = Text.lowercase text →
    t.lookup? text = some (t.canon id)
  /-- A text is not found if no name has its small letters. -/
  lookup_unknown : ∀ text, (∀ id, id.index < t.size → t.lower id ≠ Text.lowercase text) →
    t.lookup? text = none
  /-- The walk along the ring of a name comes back to it, and has then met every name with its small
  letters, each of them once. -/
  synonyms_ring : ∀ id, id.index < t.size → ∃ others,
    t.synonyms id = id :: others ∧ t.Path id others id ∧ (id :: others).Nodup ∧
      ∀ other, other ∈ id :: others ↔ other.index < t.size ∧ t.lower other = t.lower id

/-- Whatever texts are entered into an empty table, in any order and as often as one likes, the
table keeps its promises. -/
theorem enter_sound (texts : List String) : (Symbols.empty.enter texts).Sound := by
  obtain ⟨names, registers⟩ := Registers.empty.enter texts
  rw [List.nil_append] at registers
  generalize Symbols.empty.enter texts = t at registers
  constructor
  · intro few text
    exact Bits.unsigned32_of_lt (Nat.lt_of_le_of_lt (t.index_intern_le text) few)
  · intro text
    exact (t.spelling_intern text).1
  · intro text more
    obtain ⟨added, known⟩ := registers.intern text
    obtain ⟨later, grown⟩ := known.enter more
    rw [grown.intern_known (getElem?_append_known known.getElem?_intern later)]
  · intro more id inside
    obtain ⟨later, grown⟩ := registers.enter more
    exact registers.kept grown inside
  · intro id inside
    obtain ⟨name, here⟩ := registers.exists_name inside
    rw [(registers.named here).1, (registers.named here).2]
  · intro x y first second
    exact registers.folded.same_iff first second
  · intro id inside
    exact registers.canon_first inside
  · intro text id inside same
    rw [lookup?, ← same]
    exact registers.folded.canon inside
  · intro text unknown
    rw [lookup?, registers.led, List.head?_eq_none_iff]
    refine List.eq_nil_iff_forall_not_mem.mpr fun id member => ?_
    obtain ⟨inside, same⟩ := registers.mem_variants_iff.mp member
    exact unknown id inside same
  · intro id inside
    obtain ⟨others, synonyms, path, perm⟩ := registers.synonyms_eq inside
    refine ⟨others, synonyms, path, perm.nodup_iff.mpr (nodup_variants _ _), fun other => ?_⟩
    rw [perm.mem_iff, registers.mem_variants_iff]

end Symbols

end Homoicon
