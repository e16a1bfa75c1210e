import Homoicon.Parse.Matching
import Homoicon.Proofs.Protection.Parsing
import Homoicon.Proofs.Running

/-!
# How blocks of rules are left, and what rules leave alone

A block of rules fares as its alternatives do, unless one of its rules throws.  ACCEPT and REJECT
end there; every other throw goes on.  Rules write to variables, to the subject and to collections,
and put new series on the heap; a series that is none of these is left alone.
-/

open Std.Do

set_option mvcgen.warning false

namespace Homoicon.Parse

/-! ## Leaving -/

section

open Interp

/-- Whether ACCEPT is being thrown. -/
def accepting (m : Machine) : Bool :=
  (m.thrown.map (·.label)).bind Cell.asAction? == some m.specials.parseAccept

/-- Whether REJECT is being thrown. -/
def rejecting (m : Machine) : Bool :=
  (m.thrown.map (·.label)).bind Cell.asAction? == some m.specials.parseReject

/-- ACCEPT carries the position behind the block, and REJECT makes it fail. -/
theorem leaveBlock_cases {pos : Nat} {m next : Machine} {result : Match}
    (done : Parser.leaveBlock pos m = .ok result next) :
    (accepting m = true ∧ ∃ t, m.thrown = some t ∧
        result = .accepted (t.value.asInteger?.getD pos).toNat) ∨
      (accepting m = false ∧ rejecting m = true ∧ result = .notFound) ∨
      (accepting m = false ∧ result = .thrown ∧ next = m) := by
  unfold Parser.leaveBlock at done
  obtain ⟨_, _, ⟨⟩, done⟩ := bind_eq_ok.mp done
  obtain ⟨label, _, ⟨⟩, done⟩ := bind_eq_ok.mp done
  split at done
  · rename_i accepts
    obtain ⟨t, after, took, done⟩ := bind_eq_ok.mp done
    cases done
    unfold takeThrown at took
    split at took
    · cases took
      exact .inl ⟨accepts, _, ‹_›, rfl⟩
    · cases took
  · rename_i other
    split at done
    · rename_i rejects
      obtain ⟨_, _, -, done⟩ := bind_eq_ok.mp done
      cases done
      exact .inr (.inl ⟨Bool.eq_false_iff.mpr other, rejects, rfl⟩)
    · cases done
      exact .inr (.inr ⟨Bool.eq_false_iff.mpr other, rfl, rfl⟩)

/-- How a block of rules fares with what its alternatives come to. -/
theorem leave_eq_ok {pos : Nat} {found result : Match} {m next : Machine}
    (done : (match found with
      | .thrown => Parser.leaveBlock pos
      | result => pure result : Interp Match) m = .ok result next) :
    (found = .thrown ∧ Parser.leaveBlock pos m = .ok result next) ∨
      (found ≠ .thrown ∧ result = found ∧ next = m) := by
  cases found with
  | thrown => exact .inl ⟨rfl, done⟩
  | matched | accepted | notFound =>
      cases done
      exact .inr ⟨nofun, rfl, rfl⟩

/-- A block of rules fares as its alternatives do, unless it is left; they begin with what has been
kept before. -/
theorem block_eq_ok {p : Parser} {s : Subject} {rules : Rules} {pos : Nat} {m next : Machine}
    {result : Match} (done : p.block s rules pos m = .ok result next) :
    ∃ kept found middle,
      (∀ collection, s.collection = some collection →
        ∃ size, Query.size collection m = .ok size ∧ kept = some size) ∧
      p.alternatives s pos kept p.engine.rounds rules pos m = .ok found middle ∧
      ((found = .thrown ∧ Parser.leaveBlock pos middle = .ok result next) ∨
        (found ≠ .thrown ∧ result = found ∧ next = middle)) := by
  unfold Parser.block at done
  obtain ⟨-, -, done⟩ := lift_bind_eq_ok.mp done
  cases there : s.collection with
  | none =>
      rw [there] at done
      obtain ⟨_, _, ⟨⟩, done⟩ := bind_eq_ok.mp done
      obtain ⟨found, middle, ran, done⟩ := bind_eq_ok.mp done
      exact ⟨none, found, middle, nofun, ran, leave_eq_ok done⟩
  | some collection =>
      rw [there] at done
      obtain ⟨size, answer, done⟩ := lift_bind_eq_ok.mp done
      obtain ⟨_, _, ⟨⟩, done⟩ := bind_eq_ok.mp done
      obtain ⟨found, middle, ran, done⟩ := bind_eq_ok.mp done
      refine ⟨some size, found, middle, fun other same => ?_, ran, leave_eq_ok done⟩
      obtain rfl := Option.some.inj same
      exact ⟨size, answer, rfl⟩

/-- No block of rules is left by ACCEPT. -/
theorem block_quiet {p : Parser} {s : Subject} {rules : Rules} {pos : Nat} {m next : Machine}
    (done : p.block s rules pos m = .ok .thrown next) : accepting next = false := by
  obtain ⟨kept, found, middle, -, -, ⟨-, left⟩ | ⟨other, rfl, -⟩⟩ := block_eq_ok done
  · obtain ⟨-, t, -, same⟩ | ⟨-, -, same⟩ | ⟨quiet, -, rfl⟩ := leaveBlock_cases left
    · cases same
    · cases same
    · exact quiet
  · exact absurd rfl other

end

/-! ## Other series -/

open Law Interp Series.Trait

variable {id : SeriesId} {trait : Series.Trait}

/-- A word that is not bound to a series finds its variable elsewhere. -/
theorem resolveWord_elsewhere {word : Cell} (elsewhere : word.binding ≠ .specific id) {m : Machine}
    {r : VarRef} (found : Query.resolveWord word none m = .ok r) : r.context ≠ id := by
  unfold Query.resolveWord at found
  obtain ⟨symbol, -, found⟩ := Query.bind_eq_ok.mp found
  dsimp only at found
  cases bound : word.binding with
  | unbound =>
      rw [bound] at found
      obtain ⟨_, unbound, -⟩ := Query.bind_eq_ok.mp found
      obtain ⟨_, -, unbound⟩ := Query.bind_eq_ok.mp unbound
      cases unbound
  | relative =>
      rw [bound] at found
      obtain ⟨_, unbound, -⟩ := Query.bind_eq_ok.mp found
      obtain ⟨_, -, unbound⟩ := Query.bind_eq_ok.mp unbound
      cases unbound
  | specific context =>
      rw [bound] at found
      obtain ⟨place, returned, found⟩ := Query.bind_eq_ok.mp found
      cases returned
      obtain ⟨_, -, found⟩ := Query.bind_eq_ok.mp found
      obtain ⟨size, -, found⟩ := Query.bind_eq_ok.mp found
      have inside : r.context = context := by
        split at found
        · obtain ⟨_, unbound, found⟩ := Query.bind_eq_ok.mp found
          cases found
          rfl
        · cases found
          rfl
      exact inside ▸ fun same => elsewhere (bound.trans (congrArg _ same))

/-- A variable of another context is written. -/
theorem setVar_elsewhere {word : Cell} (elsewhere : word.binding ≠ .specific id) (value : Cell) :
    Keeping (.of id trait) (setVar word none value) :=
  keeping_answer fun _ r _ found => writeVar_of r value (resolveWord_elsewhere elsewhere found)

/-- What is done to the series of a cell is done to another series. -/
theorem arrayOf_elsewhere {α : Type} {c : Cell} (elsewhere : c.seriesId? ≠ some id)
    {next : SeriesId → Interp α} (kept : ∀ i, i ≠ id → Keeping (.of id trait) (next i)) :
    Keeping (.of id trait) ((Query.arrayOf c).ask >>= next) := by
  refine keeping_answer fun m i _ found => kept i ?_
  rintro rfl
  unfold Query.arrayOf at found
  cases known : c.seriesId? with
  | none =>
      rw [known] at found
      cases found
  | some i =>
      rw [known] at found
      cases found
      exact elsewhere known

theorem insertAt_elsewhere {series : Cell} (elsewhere : series.seriesId? ≠ some id) (at_ : Nat)
    (value : Cell) (only : Bool) (part : Option Nat) (times : Nat) :
    Keeping (.of id trait) (insertAt series at_ value only part times) := by
  refine arrayOf_elsewhere elsewhere fun i apart => ?_
  mvcgen
  all_goals exact fun same => absurd same apart

theorem removeSpan_elsewhere {series : Cell} (elsewhere : series.seriesId? ≠ some id)
    (at_ count : Nat) : Keeping (.of id trait) (removeSpan series at_ count) := by
  refine arrayOf_elsewhere elsewhere fun i apart => ?_
  mvcgen
  all_goals exact fun same => absurd same apart

theorem copyValue_series {series : Cell} (isSeries : series.kind.isAnySeries = true)
    (part : Option Nat) (deep : Bool) : Keeping (.of id trait) (copyValue series part deep) := by
  unfold copyValue
  rw [if_pos isSeries]
  mvcgen

theorem kind_atIndex (c : Cell) (index : Nat) : (c.atIndex index).kind = c.kind := by
  unfold Cell.atIndex
  split <;> rfl

/-- The variable that a rule names is the next cell. -/
theorem Rules.takeTarget_eq_ok {rules behind : Rules} {m next : Machine} {name : String}
    {target : Cell} (done : rules.takeTarget name m = .ok (target, behind) next) :
    rules.take name m = .ok (target, behind) next := by
  obtain ⟨⟨found, rest⟩, middle, took, done⟩ := bind_eq_ok.mp done
  dsimp only at done
  split at done
  · obtain ⟨_, _, -, done⟩ := bind_eq_ok.mp done
    obtain ⟨_, _, refused, -⟩ := bind_eq_ok.mp done
    cases refused
  · obtain ⟨_, -, done⟩ := lift_bind_eq_ok.mp done
    split at done
    · obtain ⟨_, -, done⟩ := lift_bind_eq_ok.mp done
      obtain ⟨_, _, refused, -⟩ := bind_eq_ok.mp done
      cases refused
    · cases done
      exact took

/-- A copy out of the subject leaves other series alone. -/
theorem copyPosition_of {s : Subject} (isSeries : s.cell.kind.isAnySeries = true) (pos : Nat)
    (part : Option Nat) (deep : Bool) :
    Keeping (.of id trait) (Query.ask (s.position pos) >>= fun c => copyValue c part deep) := by
  refine keeping_answer fun m c _ found => copyValue_series ?_ part deep
  obtain ⟨size, -, found⟩ := Query.bind_eq_ok.mp found
  cases found
  rwa [kind_atIndex]

end Homoicon.Parse
