import Homoicon.Library.Variable
import Homoicon.Proofs.Kinds
import Homoicon.Proofs.Natives
import Homoicon.Proofs.Source.Loading

/-!
# Quoting is a counter

A value that is quoted and unquoted in steps of any size keeps its kind, binding and payload, and
has the depth that the steps add up to.  Up to depth three the depth is on the cell; beyond, the
value is in a pairing, which all copies of the cell share and which no step changes.  A call with a
count puts exactly that many levels on its value, or takes them off, where the count fits 32 bits.
-/

namespace Homoicon

/-! ## Values at a depth -/

/-- A cell stands for an unquoted value at a quoting depth. -/
inductive Machine.Quotes (m : Machine) (v : Cell) : Nat → Cell → Prop where
  | inline {depth : Nat} {c : Cell} : depth ≤ 3 → c.SameValue { v with quote := depth } →
      Quotes m v depth c
  | paired {depth : Nat} {c inner : Cell} {pairing : SeriesId} : 3 < depth → c.kind = .quoted →
      c.quote = 0 → c.payload = .quoted pairing depth → Query.cell pairing 0 m = .ok inner →
      inner.SameValue v → Quotes m v depth c

/-- What can be told of a cell that stands for an unquoted value at a quoting depth. -/
structure Machine.Tells (m : Machine) (v : Cell) (depth : Nat) (c : Cell) : Prop where
  counts : c.quoteDepth = depth
  kind : Query.unescapedKind c m = .ok v.kind
  stored : c.kind = .quoted ↔ 3 < depth
  paired : 3 < depth → c.quote = 0 ∧ ∃ pairing inner, c.payload = .quoted pairing depth ∧
    Query.cell pairing 0 m = .ok inner ∧ inner.SameValue v
  bare : depth = 0 → c.SameValue v
  removed : ∃ inner, Query.dequotify c m = .ok (inner, depth) ∧ inner.SameValue v

namespace Machine.Quotes

variable {m m' : Machine} {v c : Cell} {depth n : Nat}

theorem unquoted (plain : v.isQuoted = false) : v.quote = 0 ∧ v.kind ≠ .quoted := by
  simpa [Cell.isQuoted] using plain

theorem start (plain : v.isQuoted = false) : m.Quotes v 0 v :=
  .inline (Nat.zero_le 3) ⟨rfl, (unquoted plain).1, rfl, rfl⟩

theorem congr (heap : m'.heap = m.heap) (quotes : m.Quotes v depth c) : m'.Quotes v depth c := by
  cases quotes with
  | inline shallow same => exact .inline shallow same
  | paired deep kind quote payload found same =>
      refine .paired deep kind quote payload ?_ same
      rw [Query.cell_eq_ok] at found ⊢
      simpa only [Query.cells_eq_ok, heap] using found

theorem copied (quotes : m.Quotes v depth c) : m.Quotes v depth c.copied := by
  cases quotes with
  | inline shallow same => exact .inline shallow ⟨same.kind, same.quote, same.binding, same.payload⟩
  | paired deep kind quote payload found same => exact .paired deep kind quote payload found same

theorem quoteDepth (plain : v.isQuoted = false) (quotes : m.Quotes v depth c) :
    c.quoteDepth = depth := by
  unfold Cell.quoteDepth
  cases quotes with
  | inline shallow same =>
      have kind : c.kind ≠ .quoted := same.kind ▸ (unquoted plain).2
      split
      · rw [if_neg kind, same.quote]
      · exact same.quote
  | paired deep kind quote payload =>
      rw [payload]
      exact if_pos kind

theorem unescapedKind (plain : v.isQuoted = false) (quotes : m.Quotes v depth c) :
    Query.unescapedKind c m = .ok v.kind := by
  unfold Query.unescapedKind
  cases quotes with
  | inline shallow same =>
      have kind : c.kind ≠ .quoted := same.kind ▸ (unquoted plain).2
      have own : v.kind = c.kind := same.kind.symm
      rw [own]
      cases c.payload with
      | quoted => exact congrFun (if_neg kind) m
      | _ => rfl
  | paired deep kind quote payload found same =>
      rw [payload]
      dsimp only
      rw [if_pos kind, Query.bind_ok found, same.kind]
      rfl

theorem kind_eq_quoted_iff (plain : v.isQuoted = false) (quotes : m.Quotes v depth c) :
    c.kind = .quoted ↔ 3 < depth := by
  cases quotes with
  | inline shallow same =>
      have kind : c.kind ≠ .quoted := same.kind ▸ (unquoted plain).2
      exact ⟨fun quoted => absurd quoted kind, fun deep => absurd shallow (Nat.not_le.mpr deep)⟩
  | paired deep kind => exact ⟨fun _ => deep, fun _ => kind⟩

theorem sameValue (plain : v.isQuoted = false) (quotes : m.Quotes v 0 c) : c.SameValue v := by
  cases quotes with
  | inline shallow same => exact { same with quote := same.quote.trans (unquoted plain).1.symm }
  | paired deep => cases deep

/-! ## Steps -/

/-- Quoting adds to the depth. -/
theorem quotify (plain : v.isQuoted = false) (quotes : m.Quotes v depth c)
    (counted : depth + n < Bits.count32) :
    ∃ c' m', Interp.quotify c n m = .ok c' m' ∧ m.Extends m' ∧ m'.Quotes v (depth + n) c' := by
  have sum : c.quoteDepth + n = depth + n := by rw [quotes.quoteDepth plain]
  unfold Interp.quotify
  by_cases none_ : n = 0
  · subst none_
    exact ⟨c, m, rfl, .refl m, quotes⟩
  · simp only [beq_eq_false_iff_ne.mpr none_, sum, Bool.false_eq_true, if_false,
      if_neg (Nat.not_le.mpr counted)]
    cases quotes with
    | paired deep kind quote payload found same =>
        rw [if_pos kind, payload]
        exact ⟨_, m, rfl, .refl m, .paired (Nat.lt_add_right n deep) kind quote rfl found same⟩
    | inline shallow same =>
        have kind : c.kind ≠ .quoted := same.kind ▸ (unquoted plain).2
        rw [if_neg kind]
        by_cases low : depth + n ≤ 3
        · rw [if_pos low]
          exact ⟨_, m, rfl, .refl m, .inline low ⟨same.kind, rfl, same.binding, same.payload⟩⟩
        · rw [if_neg low]
          let pair := (Series.ofCells #[{ c.copied with quote := 0 }, Cell.blank]).withFlags
            (Flags.pairing ||| Flags.managed)
          have held : Query.cells (m.heap.alloc pair).1 { m with heap := (m.heap.alloc pair).2 } =
              .ok #[{ c.copied with quote := 0 }, Cell.blank] :=
            Query.cells_eq_ok.mpr ⟨pair, Machine.get?_alloc_self m pair, rfl⟩
          refine ⟨_, _, Interp.bind_ok (Machine.alloc_run m pair) _, .alloc m pair,
            .paired (Nat.lt_of_not_le low) rfl rfl rfl (Query.cell_eq_ok.mpr ⟨_, held, rfl⟩) ?_⟩
          exact ⟨same.kind, (unquoted plain).1.symm, same.binding, same.payload⟩

/-- Unquoting takes from the depth. -/
theorem unquotify (plain : v.isQuoted = false) (quotes : m.Quotes v depth c) (less : n ≤ depth) :
    ∃ c', Query.unquotify c n m = .ok c' ∧ m.Quotes v (depth - n) c' := by
  unfold Query.unquotify
  by_cases none_ : n = 0
  · subst none_
    exact ⟨c, rfl, quotes⟩
  · simp only [beq_eq_false_iff_ne.mpr none_, Bool.false_eq_true, if_false]
    cases quotes with
    | inline shallow same =>
        have kind : c.kind ≠ .quoted := same.kind ▸ (unquoted plain).2
        have left : c.quote - n % 256 = depth - n := by
          have quote : c.quote = depth := same.quote
          rw [quote, Nat.mod_eq_of_lt (by omega)]
        have lowered : m.Quotes v (depth - n) { c with quote := c.quote - n % 256 } :=
          .inline (by omega) ⟨same.kind, left, same.binding, same.payload⟩
        refine ⟨_, ?_, lowered⟩
        cases c.payload with
        | quoted => exact congrFun (if_neg kind) m
        | _ => rfl
    | paired deep kind quote payload found same =>
        rw [payload]
        dsimp only
        rw [if_pos kind]
        by_cases high : 3 < depth - n
        · rw [if_pos high]
          exact ⟨_, rfl, .paired high kind quote rfl found same⟩
        · rw [if_neg high, Query.bind_ok found]
          exact ⟨_, rfl, .inline (Nat.le_of_not_lt high)
            ⟨same.kind, rfl, same.binding, same.payload⟩⟩

/-- Taking off all quoting tells how deep it was. -/
theorem dequotify (plain : v.isQuoted = false) (quotes : m.Quotes v depth c) :
    ∃ c', Query.dequotify c m = .ok (c', depth) ∧ m.Quotes v 0 c' := by
  obtain ⟨c', taken, quotes'⟩ := quotes.unquotify plain (Nat.le_refl depth)
  rw [Nat.sub_self] at quotes'
  refine ⟨c', ?_, quotes'⟩
  rw [Query.dequotify, quotes.quoteDepth plain, Query.bind_ok taken]
  rfl

theorem tells (plain : v.isQuoted = false) (quotes : m.Quotes v depth c) : m.Tells v depth c where
  counts := quotes.quoteDepth plain
  kind := quotes.unescapedKind plain
  stored := quotes.kind_eq_quoted_iff plain
  paired deep := by
    cases quotes with
    | inline shallow => exact absurd shallow (Nat.not_le.mpr deep)
    | paired _ _ quote payload found same => exact ⟨quote, _, _, payload, found, same⟩
  bare none_ := by
    subst none_
    exact quotes.sameValue plain
  removed := by
    obtain ⟨inner, taken, bare⟩ := quotes.dequotify plain
    exact ⟨inner, taken, bare.sameValue plain⟩

end Machine.Quotes

/-- What a cell stands for is the same in a machine that holds more. -/
theorem Machine.Tells.mono {m m' : Machine} {v c : Cell} {depth : Nat} (grown : m.Extends m')
    (tells : m.Tells v depth c) : m'.Tells v depth c := by
  have cell {pairing : SeriesId} {inner : Cell} (found : Query.cell pairing 0 m = .ok inner) :
      Query.cell pairing 0 m' = .ok inner := by
    obtain ⟨held, cells, there⟩ := Query.cell_eq_ok.mp found
    exact Query.cell_eq_ok.mpr ⟨held, grown.cells cells, there⟩
  refine { tells with kind := ?_, paired := fun deep => ?_, removed := ?_ }
  · have kind := tells.kind
    revert kind
    unfold Query.unescapedKind
    cases c.payload with
    | quoted pairing depth =>
        dsimp only
        split
        · intro kind
          obtain ⟨inner, found, same⟩ := Query.bind_eq_ok.mp kind
          exact Query.bind_eq_ok.mpr ⟨inner, cell found, same⟩
        · exact id
    | _ => exact id
  · obtain ⟨quote, pairing, inner, payload, found, same⟩ := tells.paired deep
    exact ⟨quote, pairing, inner, payload, cell found, same⟩
  · obtain ⟨inner, removed, same⟩ := tells.removed
    obtain ⟨_, taken, rest⟩ := Query.bind_eq_ok.mp removed
    exact ⟨inner, Query.bind_eq_ok.mpr ⟨_, grown.unquotify taken, rest⟩, same⟩

/-! ## Sequences of steps -/

/-- A step that changes the quoting of a value. -/
inductive Requoting where
  | quotify (n : Nat)
  | unquotify (n : Nat)
  | dequotify
deriving Repr, DecidableEq

namespace Requoting

/-- What a step makes of a value. -/
def apply (c : Cell) : Requoting → Interp Cell
  | quotify n => Interp.quotify c n
  | unquotify n => Query.ask (Query.unquotify c n)
  | dequotify => do pure (← Query.ask (Query.dequotify c)).1

/-- What some steps make of a value, one after the other. -/
def run (steps : List Requoting) (c : Cell) : Interp Cell := steps.foldlM apply c

/-- The depth behind a step. -/
def depth (before : Nat) : Requoting → Nat
  | quotify n => before + n
  | unquotify n => before - n
  | dequotify => 0

/-- The depth that some steps add up to. -/
def total (steps : List Requoting) (before : Nat) : Nat := steps.foldl depth before

/-- A step takes off no more levels than there are, and puts on no more than can be counted. -/
def Fits (before : Nat) : Requoting → Prop
  | quotify n => before + n < Bits.count32
  | unquotify n => n ≤ before
  | dequotify => True

/-- Each of some steps fits the depth that it finds. -/
def AllFit : List Requoting → Nat → Prop
  | [], _ => True
  | step :: steps, before => step.Fits before ∧ AllFit steps (step.depth before)

variable {m : Machine} {v c : Cell} {before after steps : List Requoting} {here : Nat}

theorem allFit_append {first rest : List Requoting} :
    AllFit (first ++ rest) here ↔ AllFit first here ∧ AllFit rest (total first here) := by
  induction first generalizing here with
  | nil => exact ⟨fun fits => ⟨trivial, fits⟩, And.right⟩
  | cons step first ih => exact (and_congr Iff.rfl ih).trans and_assoc.symm

theorem apply_quotes (plain : v.isQuoted = false) {step : Requoting} (fits : step.Fits here)
    (quotes : m.Quotes v here c) :
    ∃ c' m', apply c step m = .ok c' m' ∧ m.Extends m' ∧ m'.Quotes v (step.depth here) c' := by
  cases step with
  | quotify n => exact quotes.quotify plain fits
  | unquotify n =>
      obtain ⟨c', taken, quotes'⟩ := quotes.unquotify plain fits
      exact ⟨c', m, by rw [apply, Interp.ask_run, taken], .refl m, quotes'⟩
  | dequotify =>
      obtain ⟨c', taken, quotes'⟩ := quotes.dequotify plain
      exact ⟨c', m, Interp.ask_bind_ok taken _, .refl m, quotes'⟩

/-- Steps that fit always have a result, whose depth is what they add up to. -/
theorem run_quotes (plain : v.isQuoted = false) (fits : AllFit steps here)
    (quotes : m.Quotes v here c) :
    ∃ c' m', run steps c m = .ok c' m' ∧ m.Extends m' ∧ m'.Quotes v (total steps here) c' := by
  induction steps generalizing m c here with
  | nil => exact ⟨c, m, rfl, .refl m, quotes⟩
  | cons step steps ih =>
      obtain ⟨c₁, m₁, applied, grown, quotes₁⟩ := apply_quotes plain fits.1 quotes
      obtain ⟨c₂, m₂, ran, grown', quotes₂⟩ := ih fits.2 quotes₁
      refine ⟨c₂, m₂, ?_, grown.trans grown', quotes₂⟩
      rw [run, List.foldlM_cons, Interp.bind_ok applied]
      exact ran

/-- Quoting is a counter on a value that does not change.  At every point of a sequence of steps the
depth is what the steps add up to, and the kind, binding and payload are those of the value that
they began with; whatever other cells stand for, those in the same pairing included, they go on
standing for. -/
theorem run_tells (plain : v.isQuoted = false) (fits : AllFit (before ++ after) 0) (m : Machine) :
    ∃ c m', run before v m = .ok c m' ∧ m'.Tells v (total before 0) c ∧
      ∃ c' m'', run after c m' = .ok c' m'' ∧ m''.Tells v (total (before ++ after) 0) c' ∧
        ∀ w depth d, m'.Tells w depth d → m''.Tells w depth d := by
  obtain ⟨first, rest⟩ := allFit_append.mp fits
  obtain ⟨c, m', ran, -, quotes⟩ := run_quotes plain first (Machine.Quotes.start plain)
  obtain ⟨c', m'', ran', grown, quotes'⟩ := run_quotes plain rest quotes
  rw [total, total, ← List.foldl_append] at quotes'
  exact ⟨c, m', ran, quotes.tells plain, c', m'', ran', quotes'.tells plain,
    fun _ _ _ tells => tells.mono grown⟩

/-- Nine levels on an integer, taken off again from the pairing onto the cell and from there. -/
theorem run_tells_sample : AllFit [.quotify 3, .quotify 6, .unquotify 7, .dequotify] 0 ∧
    ∃ c m', run [.quotify 3, .quotify 6] (Cell.integer 7) (default : Machine) = .ok c m' ∧
      m'.Tells (Cell.integer 7) 9 c ∧
      ∃ c' m'', run [.unquotify 7, .dequotify] c m' = .ok c' m'' ∧
        m''.Tells (Cell.integer 7) 0 c' ∧ ∀ w depth d, m'.Tells w depth d → m''.Tells w depth d := by
  have fits : AllFit ([.quotify 3, .quotify 6] ++ [.unquotify 7, .dequotify]) 0 := by
    simp [AllFit, Fits, depth, Bits.count32]
  exact ⟨fits, run_tells rfl fits default⟩

end Requoting

/-! ## Calls with a count -/

/-- A frame runs a call with a value, a refinement that is used, and a count. -/
structure Machine.Counts (m : Machine) (f : FrameId) (c : Cell) (n : Int) : Prop where
  value : Query.arg f 1 m = .ok c
  used : ∃ r, Query.arg f 2 m = .ok r ∧ r.isTruthy = true
  count : ∃ k, Query.arg f 3 m = .ok k ∧ k.asInteger? = some n

/-- A computation over the frame of a call leaves a value at some depth in its output. -/
def Interp.Leaves (x : Interp Bounce) (m : Machine) (f : FrameId) (v : Cell) (depth : Nat) : Prop :=
  ∃ c m', x m = .ok .out m' ∧ Query.out f m' = .ok c ∧ m'.Quotes v depth c

namespace Library

variable {m : Machine} {f : FrameId} {v c : Cell} {n : Int} {depth : Nat}

theorem lt_size_of_arg {i : Nat} (found : Query.arg f i m = .ok c) : f < m.frames.size := by
  obtain ⟨varlist, asked, -⟩ := Query.bind_eq_ok.mp found
  obtain ⟨frame, here, -⟩ := Query.bind_eq_ok.mp asked
  rw [Query.frame] at here
  cases there : m.frames[f]? with
  | none =>
      rw [there] at here
      cases here
  | some => exact (Array.getElem?_eq_some_iff.mp there).1

/-- Ending a call with a value leaves the value. -/
theorem give_leaves (inside : f < m.frames.size) (quotes : m.Quotes v depth c) :
    Interp.Leaves (Interp.give f c) m f v depth := by
  obtain ⟨frame, found, out⟩ := Machine.puts_putting inside c
  refine ⟨c.copied, m.putting f c, Interp.give_run inside c, ?_, ?_⟩
  · rw [Query.out, Query.bind_ok (by rw [Query.frame, found]), out]
    rfl
  · have same : (m.putting f c).heap = m.heap := rfl
    exact quotes.copied.congr same

/-- The count of a call, as far as 32 bits hold it. -/
theorem quoteCount_run (counts : m.Counts f c n) (positive : 0 ≤ n) :
    quoteCount f m = .ok (n.toNat % Bits.count32) m := by
  obtain ⟨r, used, truthy⟩ := counts.used
  obtain ⟨k, count, value⟩ := counts.count
  have refined : Query.refine f 2 m = .ok true := by
    rw [Query.refine, Query.bind_ok used, truthy]
    rfl
  rw [quoteCount, Interp.lift_bind_ok refined]
  refine (Interp.lift_bind_ok count _).trans ?_
  rw [value]
  exact congrFun (if_pos positive) m

theorem isNull_of_quotes (present : v.isNull = false) (quotes : m.Quotes v depth c) :
    c.isNull = false := by
  cases quotes with
  | inline _ same => rwa [Cell.isNull, same.kind]
  | paired _ kind => rw [Cell.isNull, kind]; rfl

/-- QUOTE puts as many levels on its value as its count says. -/
theorem quote_leaves (e : Engine) (plain : v.isQuoted = false) (present : v.isNull = false)
    (counts : m.Counts f c n) (quotes : m.Quotes v depth c) (positive : 0 ≤ n)
    (fits : depth + n.toNat < Bits.count32) :
    Interp.Leaves (quote e f) m f v (depth + n.toNat) := by
  have whole : n.toNat % Bits.count32 = n.toNat := Nat.mod_eq_of_lt (by omega)
  obtain ⟨c', m', quoted, grown, quotes'⟩ := quotes.quotify plain fits
  have inside := lt_size_of_arg counts.value
  have inside : f < m'.frames.size := by rwa [grown.rest]
  obtain ⟨last, m'', given, left, quotes''⟩ := give_leaves inside quotes'
  refine ⟨last, m'', ?_, left, quotes''⟩
  rw [quote, Interp.lift_bind_ok counts.value, isNull_of_quotes present quotes]
  refine (Interp.bind_ok (quoteCount_run counts positive) _).trans ?_
  rw [whole]
  exact (Interp.bind_ok quoted _).trans given

/-- UNQUOTE takes as many levels off its value as its count says. -/
theorem unquote_leaves (e : Engine) (plain : v.isQuoted = false) (counts : m.Counts f c n)
    (quotes : m.Quotes v depth c) (positive : 0 ≤ n) (fits : n < Bits.count32)
    (less : n.toNat ≤ depth) : Interp.Leaves (unquote e f) m f v (depth - n.toNat) := by
  have whole : n.toNat % Bits.count32 = n.toNat := Nat.mod_eq_of_lt (by omega)
  obtain ⟨c', taken, quotes'⟩ := quotes.unquotify plain less
  obtain ⟨last, m', given, left, quotes''⟩ :=
    give_leaves (lt_size_of_arg counts.value) quotes'
  refine ⟨last, m', ?_, left, quotes''⟩
  rw [unquote, Interp.lift_bind_ok counts.value, Interp.bind_ok (quoteCount_run counts positive),
    whole, quotes.quoteDepth plain]
  refine (congrFun (if_neg (Nat.not_lt.mpr less)) m).trans ?_
  exact (Interp.lift_bind_ok taken _).trans given

/-- UNQUOTE fails when its count is greater than the depth of its value. -/
theorem unquote_fails (e : Engine) (plain : v.isQuoted = false) (counts : m.Counts f c n)
    (quotes : m.Quotes v depth c) (positive : 0 ≤ n) (fits : n < Bits.count32)
    (more : depth < n.toNat) {shown : String} (molds : Query.mold c m = .ok shown) :
    unquote e f m = .error (.error (Cause.invalidArg shown).error) m := by
  have whole : n.toNat % Bits.count32 = n.toNat := Nat.mod_eq_of_lt (by omega)
  rw [unquote, Interp.lift_bind_ok counts.value, Interp.bind_ok (quoteCount_run counts positive),
    whole, quotes.quoteDepth plain, if_pos more]
  exact Interp.lift_bind_ok molds _

/-- QUOTE with a count that 32 bits hold along with the depth puts that many levels on its value,
UNQUOTE takes that many off it or fails if there are fewer, and undoes QUOTE. -/
theorem quote_unquote_count (e : Engine) (plain : v.isQuoted = false) (present : v.isNull = false)
    (counts : m.Counts f c n) (quotes : m.Quotes v depth c) (positive : 0 ≤ n)
    (fits : n < Bits.count32) {shown : String} (molds : Query.mold c m = .ok shown) :
    (depth + n.toNat < Bits.count32 → Interp.Leaves (quote e f) m f v (depth + n.toNat)) ∧
    (depth < n.toNat → unquote e f m = .error (.error (Cause.invalidArg shown).error) m) ∧
    (n.toNat ≤ depth → Interp.Leaves (unquote e f) m f v (depth - n.toNat)) ∧
    ∀ m' f' c', m'.Counts f' c' n → m'.Quotes v (depth + n.toNat) c' →
      Interp.Leaves (unquote e f') m' f' v depth := by
  refine ⟨quote_leaves e plain present counts quotes positive,
    fun more => unquote_fails e plain counts quotes positive fits more molds,
    unquote_leaves e plain counts quotes positive fits, fun m' f' c' counts' quotes' => ?_⟩
  have back := unquote_leaves e plain counts' quotes' positive fits (Nat.le_add_left ..)
  rwa [Nat.add_sub_cancel] at back

/-- A machine whose only frame runs a call with a twice quoted integer and a count of five. -/
def sampleQuoting : Machine :=
  { config := {}, countdown := 1
    heap := ((Heap.empty 100000).alloc (Series.ofCells #[.null, { Cell.integer 7 with quote := 2 },
      .logic true, .integer 5])).2
    frames := #[{ feed := 0, varlist := some ⟨0⟩ }] }

theorem counts_sampleQuoting :
    sampleQuoting.Counts 0 { Cell.integer 7 with quote := 2 } 5 :=
  ⟨rfl, ⟨_, rfl, rfl⟩, _, rfl, rfl⟩

theorem quote_unquote_count_sample :
    Interp.Leaves (quote ⟨fun _ _ => pure false, 0⟩ 0) sampleQuoting 0 (Cell.integer 7) 7 ∧
      unquote ⟨fun _ _ => pure false, 0⟩ 0 sampleQuoting =
        .error (.error (Cause.invalidArg "''7").error) sampleQuoting := by
  have quotes : sampleQuoting.Quotes (Cell.integer 7) 2 { Cell.integer 7 with quote := 2 } :=
    .inline (by decide) (.refl _)
  have law := quote_unquote_count ⟨fun _ _ => pure false, 0⟩ rfl rfl counts_sampleQuoting quotes
    (by decide) (by decide)
    (rfl : Query.mold { Cell.integer 7 with quote := 2 } sampleQuoting = .ok "''7")
  exact ⟨law.1 (by decide), law.2.1 (by decide)⟩

end Library

end Homoicon
