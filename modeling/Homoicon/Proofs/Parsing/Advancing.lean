import Homoicon.Proofs.Parsing.Elsewhere
import Homoicon.Proofs.Parsing.Lengths
import Homoicon.Proofs.Refining

/-!
# Computations that move forward

A match lies between the position where it is tried and the end of the subject, and so does the
position that ACCEPT carries to the block of rules that it ends.
-/

open Std.Do

set_option mvcgen.warning false

namespace Homoicon.Parse

open Law Interp Series.Trait

/-! ## Landing -/

/-- A match lies between a position and the end of a series. -/
def Lands (id : SeriesId) (pos : Nat) (m : Machine) (result : Match) : Prop :=
  m.Obeys (.long id pos) ∧
    ∀ behind, result.behind? = some behind → pos ≤ behind ∧ m.Obeys (.long id behind)

/-- So does the position that ACCEPT carries to the block of rules that it ends. -/
def Carries (id : SeriesId) (pos : Nat) (m : Machine) : Prop :=
  accepting m = true → ∀ t, m.thrown = some t → ∀ i, t.value.asInteger? = some i →
    pos ≤ i.toNat ∧ m.Obeys (.long id i.toNat)

namespace Lands

variable {id : SeriesId} {pos : Nat} {m : Machine} {result : Match}

theorem found {behind : Nat} (here : result.behind? = some behind) (le : pos ≤ behind)
    (there : m.Obeys (.long id behind)) : Lands id pos m result := by
  refine ⟨there.mono_long le, fun place found => ?_⟩
  obtain rfl := Option.some.inj (here.symm.trans found)
  exact ⟨le, there⟩

theorem missed (here : m.Obeys (.long id pos)) (missed : result.behind? = none) :
    Lands id pos m result := by
  refine ⟨here, fun behind found => ?_⟩
  rw [missed] at found
  cases found

theorem mono {start : Nat} (lands : Lands id pos m result) (le : start ≤ pos) :
    Lands id start m result :=
  ⟨lands.1.mono_long le, fun behind found => (lands.2 behind found).imp_left le.trans⟩

end Lands

/-- The same throw is in progress, and a series is at least as long as it was. -/
structure Follows (id : SeriesId) (m next : Machine) : Prop where
  thrown : next.thrown = m.thrown
  specials : next.specials = m.specials
  long : ∀ n, m.Obeys (.long id n) → next.Obeys (.long id n)

namespace Follows

variable {id : SeriesId} {m next last : Machine}

theorem refl (id : SeriesId) (m : Machine) : Follows id m m := ⟨rfl, rfl, fun _ here => here⟩

theorem trans (first : Follows id m next) (second : Follows id next last) : Follows id m last :=
  ⟨second.thrown.trans first.thrown, second.specials.trans first.specials,
    fun n here => second.long n (first.long n here)⟩

end Follows

namespace Carries

variable {id : SeriesId} {pos : Nat} {m next : Machine}

theorem mono {start : Nat} (carries : Carries id pos m) (le : start ≤ pos) : Carries id start m :=
  fun accepts t thrown i value => (carries accepts t thrown i value).imp_left le.trans

theorem of_quiet (quiet : accepting m = false) : Carries id pos m :=
  fun accepts => absurd accepts (Bool.eq_false_iff.mp quiet)

theorem follow (carries : Carries id pos m) (follows : Follows id m next) :
    Carries id pos next := by
  intro accepts t thrown i value
  rw [follows.thrown] at thrown
  have accepts : accepting m = true := by
    rwa [accepting, follows.thrown, follows.specials] at accepts
  exact (carries accepts t thrown i value).imp_right (follows.long _)

end Carries

/-! ## Computations that move forward -/

/-- A computation that moves forward from a start, when it is run at a position.  An ACCEPT that it
throws carries such a position too. -/
def Advances {α : Type} (view : α → Match) (id : SeriesId) (start pos : Nat) (x : Interp α) : Prop :=
  ∀ ⦃m a next⦄, m.Obeys (.long id pos) → x m = .ok a next →
    Lands id start next (view a) ∧ (view a = .thrown → Carries id start next)

/-- A computation that hands on a throw. -/
def Relays {α : Type} (view : α → Match) (id : SeriesId) (x : Interp α) : Prop :=
  ∀ ⦃m a next⦄, x m = .ok a next → view a = .thrown ∧ Follows id m next

/-- A computation that starts and ends no throw, and does not shorten a series. -/
def Quiet {α : Type} (id : SeriesId) (x : Interp α) : Prop :=
  ∀ ⦃m a next⦄, x m = .ok a next → Follows id m next

namespace Quiet

variable {α β : Type} {id : SeriesId}

theorem pure (a : α) : Quiet id (Pure.pure a) := by
  rintro m _ _ ⟨⟩
  exact .refl id m

theorem bind {x : Interp β} {f : β → Interp α} (first : Quiet id x) (later : ∀ b, Quiet id (f b)) :
    Quiet id (x >>= f) := by
  intro m a last done
  obtain ⟨b, next, ran, done⟩ := bind_eq_ok.mp done
  exact (first ran).trans (later b done)

theorem ask (q : Query α) : Quiet id q.ask := by
  intro m a next done
  rw [ask_run] at done
  cases answer : q m with
  | error => simp [answer] at done
  | ok =>
      rw [answer] at done
      cases done
      exact .refl id m

theorem refuse {x : Interp α} (fails : Fails x) : Quiet id x :=
  fun _ _ _ done => (fails done).elim

theorem ite {p : Prop} [Decidable p] {yes no : Interp α} (first : Quiet id yes)
    (second : Quiet id no) : Quiet id (if p then yes else no) := by
  split
  · exact first
  · exact second

theorem ensureManaged (series : SeriesId) : Quiet id (Interp.ensureManaged series) := by
  intro m a next done
  have long (n : Nat) (here : m.Obeys (.long id n)) : next.Obeys (.long id n) :=
    obeys_of_ok (ensureManaged_of id (.long n) series) here done
  suffices same : next.thrown = m.thrown ∧ next.specials = m.specials from ⟨same.1, same.2, long⟩
  obtain ⟨managed, -, done⟩ := lift_bind_eq_ok.mp done
  split at done
  · obtain ⟨_, marked, set, done⟩ := bind_eq_ok.mp done
    cases done
    unfold setFlag modifySeries at set
    split at set
    · cases set
      exact ⟨rfl, rfl⟩
    · cases set
  · cases done
    exact ⟨rfl, rfl⟩

theorem derelativize (c : Cell) (specifier : Specifier) :
    Quiet id (Interp.derelativize c specifier) := by
  unfold Interp.derelativize
  split
  · exact .bind (.ensureManaged _) fun _ => .pure _
  · exact .pure c

theorem take (rules : Rules) (after : String) : Quiet id (rules.take after) := by
  refine .bind (.bind (.ask _) fun cells => ?_) fun
    | none => .refuse (.fail _)
    | some rule => .pure _
  cases cells[rules.index]? with
  | none => exact .pure _
  | some c => exact .bind (.derelativize c rules.specifier) fun _ => .pure _

end Quiet

namespace Relays

variable {α β : Type} {view : α → Match} {id : SeriesId}

theorem pure {a : α} (thrown : view a = .thrown) : Relays view id (Pure.pure a) := by
  rintro m _ _ ⟨⟩
  exact ⟨thrown, .refl id m⟩

theorem behind {x : Interp β} {f : β → Interp α} (quiet : Quiet id x)
    (later : ∀ b, Relays view id (f b)) : Relays view id (x >>= f) := by
  intro m a last done
  obtain ⟨b, next, ran, done⟩ := bind_eq_ok.mp done
  exact (later b done).imp_right (quiet ran).trans

end Relays

namespace Advances

variable {α β : Type} {view : α → Match} {id : SeriesId} {start pos : Nat}

theorem ite {p : Prop} [Decidable p] {yes no : Interp α} (first : Advances view id start pos yes)
    (second : Advances view id start pos no) :
    Advances view id start pos (if p then yes else no) := by
  split
  · exact first
  · exact second

theorem behind {x : Interp β} {f : β → Interp α} (kept : Keeping (.long id pos) x)
    (later : ∀ b, Advances view id start pos (f b)) : Advances view id start pos (x >>= f) := by
  intro m a last here done
  obtain ⟨b, next, ran, done⟩ := bind_eq_ok.mp done
  exact later b (obeys_of_ok kept here ran) done

theorem answered {owned : β → Prop} {x : Interp β} {f : β → Interp α}
    (kept : Keeping (.long id pos) x) (yields : Yields owned x)
    (later : ∀ b, owned b → Advances view id start pos (f b)) :
    Advances view id start pos (x >>= f) := by
  intro m a last here done
  obtain ⟨b, next, ran, done⟩ := bind_eq_ok.mp done
  exact later b (yields ran) (obeys_of_ok kept here ran) done

theorem refuse {x : Interp α} (fails : Fails x) : Advances view id start pos x :=
  fun _ _ _ _ done => (fails done).elim

theorem weaken {fewer : Nat} {x : Interp α} (advances : Advances view id start fewer x)
    (le : fewer ≤ pos) : Advances view id start pos x :=
  fun _ _ _ here done => advances (here.mono_long le) done

theorem found {a : α} {behind : Nat} (here : (view a).behind? = some behind) (low : start ≤ behind)
    (high : behind ≤ pos) : Advances view id start pos (pure a) := by
  rintro m _ _ long ⟨⟩
  refine ⟨.found here low (long.mono_long high), fun thrown => ?_⟩
  rw [thrown] at here
  cases here

theorem missed {a : α} (missed : view a = .notFound) (le : start ≤ pos) :
    Advances view id start pos (pure a) := by
  rintro m _ _ long ⟨⟩
  rw [missed]
  exact ⟨.missed (long.mono_long le) rfl, nofun⟩

/-- A match of something that has been looked at. -/
theorem judged {a : α} {p : Prop} [Decidable p] {behind : Nat}
    (here : view a = if p then .matched behind else .notFound) (le : start ≤ pos)
    (low : start ≤ behind) (high : p → behind ≤ pos) : Advances view id start pos (pure a) := by
  split at here
  · rename_i holds
    exact .found (by rw [here]; rfl) low (high holds)
  · exact .missed here le

theorem map {x : Interp β} (f : β → α) (first : Advances (fun b => view (f b)) id start pos x) :
    Advances view id start pos (f <$> x) := by
  intro m b last here done
  rw [map_run] at done
  cases ran : x m with
  | error => simp [ran] at done
  | ok a next =>
      rw [ran] at done
      cases done
      exact first here ran

/-- A match, and what is done behind it. -/
theorem bind {tells : β → Match} {x : Interp β} {f : β → Interp α} (le : start ≤ pos)
    (first : Advances tells id pos pos x)
    (hit : ∀ b behind, (tells b).behind? = some behind → pos ≤ behind →
      Advances view id start behind (f b))
    (missed : ∀ b, tells b = .notFound → Advances view id start pos (f b))
    (left : ∀ b, tells b = .thrown → Relays view id (f b)) :
    Advances view id start pos (x >>= f) := by
  intro m a last here done
  obtain ⟨b, next, ran, done⟩ := bind_eq_ok.mp done
  obtain ⟨⟨there, lands⟩, carries⟩ := first here ran
  cases told : tells b with
  | matched behind | accepted behind =>
      have found : (tells b).behind? = some behind := by rw [told]; rfl
      obtain ⟨further, there⟩ := lands behind found
      exact hit b behind found further there done
  | notFound => exact missed b told there done
  | thrown =>
      obtain ⟨thrown, follows⟩ := left b told done
      refine ⟨.missed ((follows.long _ there).mono_long le) (by rw [thrown]; rfl), fun _ => ?_⟩
      exact ((carries told).mono le).follow follows

theorem guarding {x : Interp α} (advances : Advances view id start pos x) :
    Advances view id start pos (guarding x) := by
  intro m a last here done
  obtain ⟨mark, _, ⟨⟩, done⟩ := bind_eq_ok.mp done
  obtain ⟨a, next, ran, done⟩ := bind_eq_ok.mp done
  cases done
  obtain ⟨⟨there, lands⟩, carries⟩ := advances here ran
  refine ⟨⟨there.congr rfl rfl, fun place found => ?_⟩, fun thrown => ?_⟩
  · exact (lands place found).imp_right fun there => there.congr rfl rfl
  · exact (carries thrown).follow ⟨rfl, rfl, fun n there => there.congr rfl rfl⟩

end Advances

end Homoicon.Parse
