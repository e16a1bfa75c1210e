import Homoicon.Proofs.Comparing.Keys
import Homoicon.Proofs.Decimals.Integers
import Homoicon.Proofs.Natives
import Homoicon.Proofs.Paths.Elements

/-!
# Positions in series

PICK and POKE count elements from a position on, SKIP and AT move it, and binaries are compared from
their positions on.  A position may lie behind the end, since other references can shorten the
series.  All of this is reckoned in 64 bits.
-/

namespace Homoicon

/-- A machine in which an element of a series has been replaced, and nothing else. -/
structure Machine.Replaces (m m' : Machine) (id : SeriesId) (i : Nat) (v : Cell) : Prop where
  rest : ∃ heap, m' = { m with heap }
  others : ∀ other, other ≠ id → m'.heap.get? other = m.heap.get? other
  here : ∃ s content, m.heap.get? id = some s ∧ m'.heap.get? id = some { s with content } ∧
    content.size = s.content.size ∧ (∃ x, content.element? i = some x ∧ x.SameValue v) ∧
      ∀ j, j ≠ i → content.element? j = s.content.element? j

variable {m : Machine} {c k v : Cell} {id : SeriesId} {start : Nat} {s : Series} {n : Int}
  {f : FrameId}

theorem Path.replaced_replaces {i : Nat} (live : m.heap.get? id = some s)
    (takes : s.content.Takes v) (inside : i < s.content.size) :
    m.Replaces (replaced m id i v) id i v where
  rest := ⟨_, rfl⟩
  others other apart := by
    change (m.heap.modify id _).get? other = _
    rw [Heap.get?_modify, if_neg apart.symm]
  here := by
    refine ⟨s, s.content.replaced i v, live, ?_, Content.size_replaced _ _ _,
      Content.element?_replaced_self takes inside,
      fun j apart => Content.element?_replaced_of_ne _ v apart⟩
    change (m.heap.modify id _).get? id = _
    rw [Heap.get?_modify, if_pos rfl, live]
    rfl

theorem Machine.SeriesAt.not_action (at_ : m.SeriesAt c id start s) : c.asAction? = none := by
  rw [Cell.asAction?, at_.payload]

theorem Machine.SeriesAt.not_null (at_ : m.SeriesAt c id start s) : c.isNull = false := by
  have kind := at_.kind
  rw [Cell.isNull, decide_eq_false_iff_not]
  intro null
  rw [null] at kind
  revert kind
  cases s.content with
  | array | text => exact Bool.false_ne_true
  | binary => exact fun same => Kind.noConfusion same

namespace Library

/-! ## Picking and storing -/

theorem pick_run (at_ : m.SeriesAt c id start s) (number : k.asInteger? = some n)
    (counted : Path.Counted start n)
    (ties : ∀ x, s.content.nth? start n = some x → m.Ties x (Query.deriveSpecifier c none))
    (e : Engine) (has : m.HasArgs f [c, k]) :
    ∃ m', m.Adopts m' ∧ pick e f m = .ok .out (m'.putting f (Path.picked s c id n).1) := by
  obtain ⟨m', stepped, adopts⟩ := Path.step_pick at_ number counted ties
  have first : Query.arg f 1 m = .ok c := has.arg_run rfl
  have second : Query.arg f 2 m = .ok k := has.arg_run rfl
  have chosen : Path.pick c k m = .ok (Path.picked s c id n) m' := by
    rw [Path.pick, Interp.bind_ok stepped]
    rfl
  refine ⟨m', adopts, ?_⟩
  rw [pick, Interp.lift_bind_ok first, Interp.lift_bind_ok second, Interp.bind_ok chosen]
  exact Interp.give_run (adopts.frames ▸ has.inside) _

theorem walk_run (at_ : m.SeriesAt c id start s) (kind : k.kind = .integer)
    (unbound : k.binding = .unbound) (number : k.asInteger? = some n)
    (counted : Path.Counted start n)
    (ties : ∀ x, s.content.nth? start n = some x → m.Ties x (Query.deriveSpecifier c none))
    (e : Engine) (specifier : Specifier) (noGroups : Bool) (previous : Cell)
    (label : Option SymbolId) (rest : List Cell) :
    ∃ m', m.Adopts m' ∧ Path.walk e specifier noGroups c previous label (k :: rest) m =
      Path.walk e specifier noGroups (Path.picked s c id n).1 k label rest m' := by
  obtain ⟨m', stepped, adopts⟩ := Path.step_pick at_ number counted ties
  have plain : k.quote = 0 := by
    unfold Cell.asInteger? at number
    split at number
    · split_ifs at number with plain
      exact beq_iff_eq.mp plain
    · cases number
  have literal : Path.picker e k specifier noGroups m = .ok (some k) m := by
    rw [Path.picker, plain, kind]
    have same : Interp.derelativize k specifier m = .ok k m := by
      unfold Interp.derelativize
      rw [unbound]
      rfl
    exact Interp.bind_ok same _
  have chosen : Path.pick c k m = .ok (Path.picked s c id n) m' := by
    rw [Path.pick, Interp.bind_ok stepped]
    rfl
  refine ⟨m', adopts, ?_⟩
  rw [Path.walk, at_.not_action]
  dsimp only
  rw [at_.not_null, if_neg Bool.false_ne_true, Interp.bind_ok literal]
  dsimp only
  have word : k.is .word = false := by
    rw [Cell.is, kind]
    simp
  rw [Interp.bind_ok chosen, word]
  rfl

theorem poke_run (at_ : m.SeriesAt c id start s) (number : k.asInteger? = some n)
    (counted : Path.Counted start n) (takes : s.content.Takes v)
    (free : s.has Flags.locked = false) (e : Engine) (has : m.HasArgs f [c, k, v]) :
    if (s.content.nth? start n).isSome then
      ∃ m', m.Replaces m' id (start + n - 1).toNat v ∧
        poke e f m = .ok .out (m'.putting f v)
    else poke e f m = .error (.error (Cause.outOfRange (toString n)).error) m := by
  have stepped := Path.step_poke at_ number counted takes free
  have first : Query.arg f 1 m = .ok c := has.arg_run rfl
  have second : Query.arg f 2 m = .ok k := has.arg_run rfl
  have third : Query.arg f 3 m = .ok v := has.arg_run rfl
  have start_ : poke e f m = (do
      let _ ← Path.poke c k v
      Interp.give f v) m := by
    rw [poke, Interp.lift_bind_ok third, Interp.lift_bind_ok first, Interp.lift_bind_ok second]
  unfold Path.stores at stepped
  rw [start_]
  split_ifs at stepped ⊢ with there
  · obtain ⟨x, found⟩ := Option.isSome_iff_exists.mp there
    refine ⟨_, Path.replaced_replaces at_.live takes (Path.nth?_eq_some found).2.2, ?_⟩
    have poked : Path.poke c k v m = .ok none (Path.replaced m id (start + n - 1).toNat v) := by
      rw [Path.poke, Interp.bind_ok stepped]
      rfl
    rw [Interp.bind_ok poked]
    exact Interp.give_run (m := Path.replaced m id _ v) has.inside v
  · have failed : Path.poke c k v m =
        .error (.error (Cause.outOfRange (toString n)).error) m := by
      rw [Path.poke, Interp.bind_error stepped]
    rw [Interp.bind_error failed]

/-! ## Moving -/

/-- A position, brought between the head and the tail. -/
def clamped (size : Nat) (target : Int) : Nat := (max 0 (min (size : Int) target)).toNat

theorem shift_run (at_ : m.SeriesAt c id start s) (has : ∃ rest, m.HasArgs f (c :: rest))
    {offset : Int} (fits : Bits.fits64 (start + offset) = true) :
    shift f offset m =
      .ok .out (m.putting f (c.moved (clamped s.content.size (start + offset)))) := by
  obtain ⟨rest, has⟩ := has
  have first : Query.arg f 1 m = .ok c := has.arg_run rfl
  rw [shift, Interp.lift_bind_ok first, Interp.lift_bind_ok at_.arrayOf,
    Interp.lift_bind_ok (Query.size_run at_.live), at_.index, Interp.exact64_eq fits, pure_bind]
  exact Interp.give_run has.inside _

/-- An integer argument goes through a decimal, where it keeps its value or stays large. -/
theorem integerArg_near (number : k.asInteger? = some n) (held : Bits.fits64 n = true)
    (default : Int) : integerArg k default = n ∨ 2 ^ 53 ≤ n ∧ 2 ^ 53 ≤ integerArg k default ∨
      n ≤ -2 ^ 53 ∧ integerArg k default ≤ -2 ^ 53 := by
  obtain ⟨low, high⟩ := Bits.fits64_iff.mp held
  simp only [Bits.least64, Bits.greatest64] at low high
  have decimal : k.asDecimal? = some (Float.ofInt n) := by
    unfold Cell.asInteger? at number
    split at number
    · split_ifs at number with plain
      obtain rfl := Option.some.inj number
      rename_i payload
      rw [Cell.asDecimal?, payload, beq_iff_eq.mp plain]
      rfl
    · cases number
  have value : integerArg k default = Decimal.toInteger (Float.ofInt n) := by
    rw [integerArg, decimal]
    rfl
  rw [value]
  by_cases small : n.natAbs < 2 ^ 53
  · left
    rw [(Decimal.equals_ofInt small).toInteger_eq]
    unfold Bits.clamp64 Bits.least64 Bits.greatest64
    omega
  · right
    obtain ⟨j, equals, more, less⟩ := Decimal.equals_ofInt_large (i := n) (by omega) (by omega)
    rw [equals.toInteger_eq]
    unfold Bits.clamp64 Bits.least64 Bits.greatest64
    obtain positive | negative : 0 < n ∨ n < 0 := by omega
    · have := more positive
      omega
    · have := less negative
      omega

/-- Where SKIP goes, reckoned without bounds. -/
def skipTarget (start : Nat) (n : Int) : Int := start + n

/-- Where AT goes, reckoned without bounds: 1 is the position itself, and so is 0. -/
def atTarget (start : Nat) (n : Int) : Int := start + if 0 < n then n - 1 else n

theorem skip_run (at_ : m.SeriesAt c id start s) (number : k.asInteger? = some n)
    (held : Bits.fits64 n = true) (short : s.content.size < 2 ^ 53) (near : start < 2 ^ 53)
    (fits : Bits.fits64 (skipTarget start (integerArg k 0)) = true) (e : Engine)
    (has : m.HasArgs f [c, k]) :
    skip e f m = .ok .out (m.putting f
      (c.moved (clamped s.content.size (skipTarget start n)))) := by
  have second : Query.arg f 2 m = .ok k := has.arg_run rfl
  have same : clamped s.content.size (skipTarget start n) =
      clamped s.content.size (skipTarget start (integerArg k 0)) := by
    unfold clamped skipTarget
    obtain value | ⟨high, high'⟩ | ⟨low, low'⟩ := integerArg_near number held 0
    · rw [value]
    all_goals omega
  have integer : ∃ i, k.payload = .integer i := by
    unfold Cell.asInteger? at number
    split at number
    · exact ⟨_, ‹_›⟩
    · cases number
  obtain ⟨i, payload⟩ := integer
  rw [skip, Interp.lift_bind_ok second, payload, same]
  exact shift_run at_ ⟨_, has⟩ fits

theorem at_run (at_ : m.SeriesAt c id start s) (number : k.asInteger? = some n)
    (held : Bits.fits64 n = true) (short : s.content.size < 2 ^ 53) (near : start < 2 ^ 53)
    (fits : Bits.fits64 (atTarget start (integerArg k 1)) = true) (e : Engine)
    (has : m.HasArgs f [c, k]) :
    Library.at_ e f m = .ok .out (m.putting f
      (c.moved (clamped s.content.size (atTarget start n)))) := by
  have second : Query.arg f 2 m = .ok k := has.arg_run rfl
  have same : clamped s.content.size (atTarget start n) =
      clamped s.content.size (atTarget start (integerArg k 1)) := by
    unfold clamped atTarget
    obtain value | ⟨high, high'⟩ | ⟨low, low'⟩ := integerArg_near number held 1
    · rw [value]
    all_goals split_ifs <;> omega
  rw [Library.at_, Interp.lift_bind_ok second, same]
  exact shift_run at_ ⟨_, has⟩ fits

end Library

/-! ## Comparing -/

theorem Machine.SeriesAt.kind_binary (at_ : m.SeriesAt c id start s) {bytes : Array UInt8}
    (content : s.content = .binary bytes) : c.kind = .binary := by
  have kind := at_.kind
  rw [content] at kind
  exact kind

/-- A value is a position in a binary, not behind its end, with some bytes from there on. -/
structure Machine.BytesAt (m : Machine) (c : Cell) (rest : List UInt8) : Prop where
  held : ∃ id start s bytes, m.SeriesAt c id start s ∧ s.content = .binary bytes ∧
    start ≤ bytes.size ∧ rest = bytes.toList.drop start

variable {a b : Cell} {xs ys : List UInt8}

theorem Query.order_binaries (first : m.BytesAt a xs) (second : m.BytesAt b ys) (strict : Bool) :
    Query.order a b strict m = .ok (compareBytes xs ys) := by
  obtain ⟨x, i, s, held, at_, content, inside, rfl⟩ := first
  obtain ⟨y, j, t, held', at_', content', inside', rfl⟩ := second
  have kind : a.kind = .binary := at_.kind_binary content
  have kind' : b.kind = .binary := at_'.kind_binary content'
  have left : Query.bytes x m = .ok held := Query.bytes_eq_ok.mpr ⟨s, at_.live, content⟩
  have right : Query.bytes y m = .ok held' := Query.bytes_eq_ok.mpr ⟨t, at_'.live, content'⟩
  have ordered : Query.order? a b strict m =
      .ok (some (compareBytes (held.toList.drop i) (held'.toList.drop j))) := by
    unfold Query.order?
    rw [at_.plain, at_'.plain, kind, kind', at_.payload, at_'.payload]
    change (do
      let xs ← Query.bytes x
      let ys ← Query.bytes y
      if xs.size < i || ys.size < j then defect
      return some (compareBytes (xs.toList.drop i) (ys.toList.drop j)) : Query _) m = _
    rw [Query.bind_ok left, Query.bind_ok right, if_neg (by simp [inside, inside'])]
    rfl
  rw [Query.order, Query.bind_ok ordered]
  rfl

/-- Bytes are in the order of their lists. -/
theorem compareBytes_iff (xs ys : List UInt8) : (compareBytes xs ys = .lt ↔ xs < ys) ∧
    (compareBytes xs ys = .eq ↔ xs = ys) ∧ (compareBytes xs ys = .gt ↔ ys < xs) := by
  unfold compareBytes
  induction xs generalizing ys with
  | nil => cases ys <;> simp [compareLists]
  | cons x xs rest =>
      cases ys with
      | nil => simp [compareLists]
      | cons y ys =>
          obtain ⟨less, equal, more⟩ := rest ys
          rw [compareLists]
          simp only [List.cons_lt_cons_iff, List.cons.injEq]
          simp only [UInt8.lt_iff_toNat_lt, ← UInt8.toNat_inj]
          obtain below | same | above := lt_trichotomy x.toNat y.toNat
          · have here : compare x.toNat y.toNat = .lt := Nat.compare_eq_lt.mpr below
            simp [here, below, below.ne, below.ne', below.not_gt]
          · simp [same, less, equal, more]
          · have here : compare x.toNat y.toNat = .gt := Nat.compare_eq_gt.mpr above
            simp [here, above, above.ne, above.ne', above.not_gt]

theorem Query.equal_binaries (first : m.BytesAt a xs) (second : m.BytesAt b ys) (strict : Bool) :
    Query.equal a b strict m = .ok (xs == ys) := by
  obtain ⟨x, i, s, held, at_, content, -, rfl⟩ := first
  obtain ⟨y, j, t, held', at_', content', -, rfl⟩ := second
  have kind : a.kind = .binary := at_.kind_binary content
  have kind' : b.kind = .binary := at_'.kind_binary content'
  obtain ⟨inner, answer⟩ := Query.equal_payload (m := m) (kind.trans kind'.symm)
    (by rw [kind]; decide) at_.plain at_'.plain strict
  rw [answer, at_.payload, at_'.payload]
  exact Query.equalPayload_binaries (Query.bytes_eq_ok.mpr ⟨s, at_.live, content⟩)
    (Query.bytes_eq_ok.mpr ⟨t, at_'.live, content'⟩)

namespace Library

/-- What a comparison does with its two arguments. -/
inductive Comparing : (Engine → FrameId → Interp Bounce) → Prop where
  | extreme (other : Ordering) : Comparing (extreme other)
  | ordered (test : Ordering → Bool) : Comparing (ordered test)
  | equality (strict expected : Bool) : Comparing (equality strict expected)
  | same : Comparing same

theorem comparing_of_mem : ∀ native ∈ comparisons, Comparing native.run := by
  simp only [comparisons, List.forall_mem_cons]
  exact ⟨.extreme _, .extreme _, .equality _ _, .equality _ _, .equality _ _, .equality _ _, .same,
    .ordered _, .ordered _, .ordered _, .ordered _, .equality _ _, .equality _ _, .equality _ _,
    .equality _ _, .ordered _, .ordered _, .ordered _, .ordered _, List.forall_mem_nil _⟩

/-- Every comparison of two binaries gives a value. -/
theorem comparison_run {run : Engine → FrameId → Interp Bounce} (comparing : Comparing run)
    (first : m.BytesAt a xs) (second : m.BytesAt b ys) (e : Engine) (has : m.HasArgs f [a, b]) :
    ∃ c, run e f m = .ok .out (m.putting f c) := by
  have left : Query.arg f 1 m = .ok a := has.arg_run rfl
  have right : Query.arg f 2 m = .ok b := has.arg_run rfl
  have order : argOrder f m = .ok (compareBytes xs ys) := by
    rw [argOrder, Query.bind_ok left, Query.bind_ok right]
    exact Query.order_binaries first second false
  cases comparing with
  | extreme other =>
      have chosen : Query.arg f (if compareBytes xs ys == other then 2 else 1) m =
          .ok (if compareBytes xs ys == other then b else a) := by
        split_ifs
        · exact right
        · exact left
      refine ⟨if compareBytes xs ys == other then b else a, ?_⟩
      rw [extreme, Interp.ask_bind_ok order, Interp.lift_bind_ok chosen]
      exact Interp.give_run has.inside _
  | ordered test =>
      refine ⟨Cell.logic (test (compareBytes xs ys)), ?_⟩
      rw [ordered, Interp.ask_bind_ok order]
      exact Interp.give_run has.inside _
  | equality strict expected =>
      refine ⟨Cell.logic ((xs == ys) == expected), ?_⟩
      rw [equality, Interp.lift_bind_ok left, Interp.lift_bind_ok right,
        Interp.lift_bind_ok (Query.equal_binaries first second strict)]
      exact Interp.give_run has.inside _
  | same =>
      obtain ⟨x, i, s, held, at_, content, -, rfl⟩ := first
      refine ⟨Cell.logic (a.kind = b.kind && a.payload.isSame b.payload), ?_⟩
      rw [same, Interp.lift_bind_ok left, Interp.lift_bind_ok right, at_.payload]
      exact Interp.give_run has.inside _

end Library

/-! ## Positions -/

/-- Positions are total.  Whatever the position and the number, as long as what they are reckoned to
is held in 64 bits, PICK and the step of a path give the element that the number counts from the
position on, or null, POKE replaces exactly that element or fails, SKIP and AT move the position
between the head and the tail; and binaries have an order from their positions on, if these are not
behind the end. -/
theorem positions_total (e : Engine) :
    (∀ (m : Machine) (c : Cell) (id : SeriesId) (start : Nat) (s : Series) (k : Cell) (n : Int),
      m.SeriesAt c id start s → k.asInteger? = some n → Bits.fits64 n = true →
      (Path.Counted start n →
        (∀ x, s.content.nth? start n = some x → m.Ties x (Query.deriveSpecifier c none)) →
        (∀ f : FrameId, m.HasArgs f [c, k] → ∃ m', m.Adopts m' ∧
          Library.pick e f m = .ok .out (m'.putting f (Path.picked s c id n).1)) ∧
        (k.kind = .integer → k.binding = .unbound →
          ∀ (specifier : Specifier) (noGroups : Bool) (previous : Cell) (label : Option SymbolId)
            (rest : List Cell), ∃ m', m.Adopts m' ∧
            Path.walk e specifier noGroups c previous label (k :: rest) m =
              Path.walk e specifier noGroups (Path.picked s c id n).1 k label rest m')) ∧
      (Path.Counted start n →
        ∀ v : Cell, s.content.Takes v → s.has Flags.locked = false →
          ∀ f : FrameId, m.HasArgs f [c, k, v] →
            if (s.content.nth? start n).isSome then
              ∃ m', m.Replaces m' id (start + n - 1).toNat v ∧
                Library.poke e f m = .ok .out (m'.putting f v)
            else Library.poke e f m =
              .error (.error (Cause.outOfRange (toString n)).error) m) ∧
      (s.content.size < 2 ^ 53 → start < 2 ^ 53 → ∀ f : FrameId, m.HasArgs f [c, k] →
        (Bits.fits64 (Library.skipTarget start (Library.integerArg k 0)) = true →
          Library.skip e f m = .ok .out (m.putting f
            (c.moved (Library.clamped s.content.size (Library.skipTarget start n))))) ∧
        (Bits.fits64 (Library.atTarget start (Library.integerArg k 1)) = true →
          Library.at_ e f m = .ok .out (m.putting f
            (c.moved (Library.clamped s.content.size (Library.atTarget start n))))))) ∧
    (∀ (m : Machine) (a b : Cell) (xs ys : List UInt8), m.BytesAt a xs → m.BytesAt b ys →
      (∃ order, (∀ strict, Query.order a b strict m = .ok order) ∧ (order = .lt ↔ xs < ys) ∧
        (order = .eq ↔ xs = ys) ∧ (order = .gt ↔ ys < xs)) ∧
      ∀ native ∈ Library.comparisons, ∀ f : FrameId, m.HasArgs f [a, b] →
        ∃ c, native.run e f m = .ok .out (m.putting f c)) := by
  refine ⟨fun m c id start s k n at_ number held => ⟨fun counted ties => ⟨?_, ?_⟩, ?_, ?_⟩,
    fun m a b xs ys first second => ⟨?_, ?_⟩⟩
  · exact fun f has => Library.pick_run at_ number counted ties e has
  · exact fun kind unbound => Library.walk_run at_ kind unbound number counted ties e
  · exact fun counted v takes free f has => Library.poke_run at_ number counted takes free e has
  · exact fun short near f has =>
      ⟨fun fits => Library.skip_run at_ number held short near fits e has,
        fun fits => Library.at_run at_ number held short near fits e has⟩
  · exact ⟨_, Query.order_binaries first second, compareBytes_iff xs ys⟩
  · exact fun native member f has =>
      Library.comparison_run (Library.comparing_of_mem native member) first second e has

/-- Three bytes. -/
def sampleBytes : Series := .ofBytes #[7, 8, 9]

/-- A position behind the end of the bytes. -/
def sampleStale : Cell := .series .binary ⟨1⟩ 5

theorem seriesAt_sampleStale (args : List Cell) :
    (Machine.ofArgs args [sampleBytes]).SeriesAt sampleStale ⟨1⟩ 5 sampleBytes :=
  ⟨rfl, rfl, rfl, rfl⟩

theorem bytesAt_sample (args : List Cell) :
    (Machine.ofArgs args [sampleBytes]).BytesAt (.series .binary ⟨1⟩ 1) [8, 9] :=
  ⟨⟨1⟩, 1, sampleBytes, #[7, 8, 9], ⟨rfl, rfl, rfl, rfl⟩, rfl, by decide, rfl⟩

theorem positions_total_sampleStale :
    (∃ m', (Machine.ofArgs [sampleStale, Cell.integer 1] [sampleBytes]).Adopts m' ∧
      Library.pick .idle 0 (.ofArgs [sampleStale, Cell.integer 1] [sampleBytes]) =
        .ok .out (m'.putting 0 Cell.null)) ∧
    Library.poke .idle 0 (.ofArgs [sampleStale, Cell.integer (-2), Cell.integer 1] [sampleBytes]) =
      .error (.error (Cause.outOfRange "-2").error)
        (.ofArgs [sampleStale, Cell.integer (-2), Cell.integer 1] [sampleBytes]) ∧
    Library.skip .idle 0 (.ofArgs [sampleStale, Cell.integer (-1)] [sampleBytes]) =
      .ok .out ((Machine.ofArgs [sampleStale, Cell.integer (-1)] [sampleBytes]).putting 0
        (.series .binary ⟨1⟩ 3)) ∧
    ∃ order, (∀ strict, Query.order (.series .binary ⟨1⟩ 1) (.series .binary ⟨1⟩ 1) strict
        (.ofArgs [] [sampleBytes]) = .ok order) ∧
      (order = .lt ↔ ([8, 9] : List UInt8) < [8, 9]) ∧
      (order = .eq ↔ ([8, 9] : List UInt8) = [8, 9]) ∧
      (order = .gt ↔ ([8, 9] : List UInt8) < [8, 9]) := by
  obtain ⟨positions, compared⟩ := positions_total .idle
  refine ⟨?_, ?_, ?_, (compared _ _ _ _ _ (bytesAt_sample []) (bytesAt_sample [])).1⟩
  · have law := positions _ _ _ _ _ (Cell.integer 1) 1
      (seriesAt_sampleStale [sampleStale, Cell.integer 1]) rfl (by decide)
    exact (law.1 ⟨by decide, by decide⟩ (fun _ none_ => nomatch none_)).1 0
      (Machine.hasArgs_ofArgs _ _)
  · have law := positions _ _ _ _ _ (Cell.integer (-2)) (-2)
      (seriesAt_sampleStale [sampleStale, Cell.integer (-2), Cell.integer 1]) rfl (by decide)
    exact law.2.1 ⟨by decide, by decide⟩ (Cell.integer 1) ⟨1, .refl _⟩ rfl 0
      (Machine.hasArgs_ofArgs _ _)
  · have law := positions _ _ _ _ _ (Cell.integer (-1)) (-1)
      (seriesAt_sampleStale [sampleStale, Cell.integer (-1)]) rfl (by decide)
    have near : Library.integerArg (Cell.integer (-1)) 0 = -1 := by
      have := Library.integerArg_near (k := Cell.integer (-1)) (n := -1) rfl (by decide) 0
      omega
    refine (law.2.2 (by decide) (by decide) 0 (Machine.hasArgs_ofArgs _ _)).1 ?_
    rw [near]
    decide

end Homoicon
