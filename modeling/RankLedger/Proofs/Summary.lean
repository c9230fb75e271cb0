import Mathlib.Algebra.BigOperators.Group.Multiset.Basic
import RankLedger.Proofs.AverageOf

/-!
# Averages as summaries

An average remembers of the votes only their number and their mean, so it stands for a multiset of
votes that it does not know.  Through any sequence of changes that take away only votes that are
there, it keeps their number, and where arithmetic is exact their sum
(`AverageRank.Summarizes.after`).  So the order of the changes does not matter, and what is added
can be taken back (`AverageRank.is_summary_of_multiset`).

Doubles round, and their sums are not kept.  But without votes the average is exactly zero, as it
is in every number type.  That nothing is divided by zero is seen in numbers of which a division by
zero makes none (`CheckedRat`).

**Counting.** The number of votes is an unsigned 64-bit word.  One vote more can overflow it, and
then the change has no result (`AverageRank.after?`).  This happens only where there come to be as
many votes as the word cannot count (`AverageRank.Summarizes.after?_eq_some_iff`).
-/

namespace RankLedger

/-! ## 1. Checked arithmetic -/

/-- Rationals, and what comes of a division by zero. -/
def CheckedRat : Type :=
  Option Rat

namespace CheckedRat

def lift (op : Rat → Rat → Option Rat) (a b : CheckedRat) : CheckedRat :=
  Option.bind a fun p => Option.bind b fun q => op p q

def divide? (p q : Rat) : Option Rat :=
  if q = 0 then none else some (p / q)

def compare? (a b : CheckedRat) : Option Ordering :=
  Option.bind a fun p => Option.bind b fun q => Scalar.compare? p q

instance : Scalar CheckedRat where
  add := lift fun p q => some (p + q)
  sub := lift fun p q => some (p - q)
  mul := lift fun p q => some (p * q)
  div := lift divide?
  ofCount n := some (n : Rat)
  ofInt64 n := some (n.toInt : Rat)
  same a b := compare? a b == some .eq
  compare? := compare?
  isFinite a := Option.isSome a

/-- Checked rationals are read as the rationals that they are. -/
theorem reads : Scalar.Reads (fun a : CheckedRat => a) where
  ofCount _ := rfl
  add := by rintro _ _ _ _ ⟨⟩ ⟨⟩; rfl
  sub := by rintro _ _ _ _ ⟨⟩ ⟨⟩; rfl
  mul := by rintro _ _ _ _ ⟨⟩ ⟨⟩; rfl
  div := by rintro _ _ _ _ ⟨⟩ ⟨⟩ nonzero; exact if_neg nonzero

end CheckedRat

/-! ## 2. Changes -/

namespace AverageRank

/-- A change of an average.  Computing it anew takes the sum and the number of some votes. -/
inductive Change where
  | add (vote : UInt32)
  | remove (vote : UInt32)
  | exchange (old new : UInt32)
  | reset (votes : Multiset UInt32)

def voteSum (votes : Multiset UInt32) : Nat :=
  (votes.map UInt32.toNat).sum

namespace Change

/-- The votes after a change.  A vote that is not there cannot be taken away, and a sum and a number
    can only be taken over if they are unsigned 64-bit words. -/
def next? (votes : Multiset UInt32) : Change → Option (Multiset UInt32)
  | add vote => some (vote ::ₘ votes)
  | remove vote => if vote ∈ votes then some (votes.erase vote) else none
  | exchange old new => if old ∈ votes then some (new ::ₘ votes.erase old) else none
  | reset others =>
      if others.card < 18446744073709551616 ∧ voteSum others < 18446744073709551616 then
        some others
      else none

def on {ν : Type} [Scalar ν] (average : AverageRank ν) (change : Change) (now : Instant) :
    AverageRank ν :=
  match change with
  | add vote => average.addVote vote now
  | remove vote => average.removeVote vote now
  | exchange old new => average.exchangeVote old new now
  | reset votes => average.reset (voteSum votes) votes.card now

/-- Carries a change out if it can count the votes. -/
def on? {ν : Type} [Scalar ν] (average : AverageRank ν) (change : Change) (now : Instant) :
    Option (AverageRank ν) :=
  match change with
  | add vote => average.addVote? vote now
  | change => some (change.on average now)

variable {votes next : Multiset UInt32} {vote old new : UInt32}

theorem next?_remove_eq_some :
    (remove vote).next? votes = some next ↔ votes = vote ::ₘ next := by
  show (if vote ∈ votes then some (votes.erase vote) else none) = some next ↔ _
  rw [Option.ite_none_right_eq_some, Option.some_inj]
  constructor
  · rintro ⟨held, rfl⟩
    exact (Multiset.cons_erase held).symm
  · rintro rfl
    exact ⟨Multiset.mem_cons_self vote next, Multiset.erase_cons_head vote next⟩

theorem next?_exchange_eq_some : (exchange old new).next? votes = some next ↔
    ∃ rest, votes = old ::ₘ rest ∧ next = new ::ₘ rest := by
  show (if old ∈ votes then some (new ::ₘ votes.erase old) else none) = some next ↔ _
  rw [Option.ite_none_right_eq_some, Option.some_inj]
  constructor
  · rintro ⟨held, rfl⟩
    exact ⟨votes.erase old, (Multiset.cons_erase held).symm, rfl⟩
  · rintro ⟨rest, rfl, rfl⟩
    exact ⟨Multiset.mem_cons_self old rest, by rw [Multiset.erase_cons_head]⟩

theorem next?_reset_eq_some {others : Multiset UInt32} :
    (reset others).next? votes = some next ↔ (others.card < 18446744073709551616 ∧
      voteSum others < 18446744073709551616) ∧ others = next := by
  show (if _ then some others else none) = some next ↔ _
  rw [Option.ite_none_right_eq_some, Option.some_inj]

/-- Only one vote more can be one too many. -/
theorem card_next_lt {change : Change} (few : votes.card < 18446744073709551616)
    (fits : change.next? votes = some next) (other : ∀ vote, change ≠ add vote) :
    next.card < 18446744073709551616 := by
  cases change with
  | add vote => exact absurd rfl (other vote)
  | remove vote =>
      obtain rfl := next?_remove_eq_some.1 fits
      rw [Multiset.card_cons] at few
      omega
  | exchange old new =>
      obtain ⟨rest, rfl, rfl⟩ := next?_exchange_eq_some.1 fits
      rw [Multiset.card_cons] at few ⊢
      exact few
  | reset others =>
      obtain ⟨words, rfl⟩ := next?_reset_eq_some.1 fits
      exact words.1

end Change

def votesAfter? (votes : Multiset UInt32) :
    List (Change × Instant) → Option (Multiset UInt32)
  | [] => some votes
  | (change, _) :: rest => (change.next? votes).bind fun next => votesAfter? next rest

def after {ν : Type} [Scalar ν] (average : AverageRank ν) :
    List (Change × Instant) → AverageRank ν
  | [] => average
  | (change, now) :: rest => (change.on average now).after rest

/-- Carries changes out one after another, if the votes can be counted all the time. -/
def after? {ν : Type} [Scalar ν] (average : AverageRank ν) :
    List (Change × Instant) → Option (AverageRank ν)
  | [] => some average
  | (change, now) :: rest => (change.on? average now).bind fun next => next.after? rest

/-- At no time are there as many votes as an unsigned 64-bit word cannot count. -/
def StaysCountable (votes : Multiset UInt32) (changes : List (Change × Instant)) : Prop :=
  ∀ early, early <+: changes → ∀ middle, votesAfter? votes early = some middle →
    middle.card < 18446744073709551616

theorem staysCountable_nil {votes : Multiset UInt32} :
    StaysCountable votes [] ↔ votes.card < 18446744073709551616 := by
  constructor
  · intro h
    exact h [] List.prefix_rfl votes rfl
  · rintro few early none middle fits
    obtain rfl := List.prefix_nil.1 none
    exact Option.some.inj fits ▸ few

theorem staysCountable_cons {votes next : Multiset UInt32} {change : Change} {now : Instant}
    {rest : List (Change × Instant)} (fits : change.next? votes = some next) :
    StaysCountable votes ((change, now) :: rest) ↔
      votes.card < 18446744073709551616 ∧ StaysCountable next rest := by
  have later (early : List (Change × Instant)) :
      votesAfter? votes ((change, now) :: early) = votesAfter? next early := by
    rw [votesAfter?, fits, Option.bind_some]
  constructor
  · intro h
    refine ⟨h [] List.nil_prefix votes rfl, fun early first middle reached => ?_⟩
    exact h _ ((List.prefix_cons_inj _).2 first) middle ((later early).trans reached)
  · rintro ⟨few, h⟩ early begins middle reached
    cases early with
    | nil => exact Option.some.inj reached ▸ few
    | cons first early =>
        obtain ⟨rfl, within⟩ := List.cons_prefix_cons.1 begins
        exact h early within middle ((later early).symm.trans reached)

/-- Votes can be taken away one after the other until none are left. -/
theorem votesAfter?_removals (removals : List (UInt32 × Instant)) :
    votesAfter? (removals.map (·.1)) (removals.map fun removal => (.remove removal.1, removal.2)) =
      some 0 := by
  induction removals with
  | nil => rfl
  | cons removal rest ih =>
      let left : Multiset UInt32 := rest.map (·.1)
      have next : (Change.remove removal.1).next? (removal.1 ::ₘ left) = some left :=
        Change.next?_remove_eq_some.2 rfl
      show ((Change.remove removal.1).next? (removal.1 ::ₘ left)).bind _ = some 0
      rw [next]
      exact ih

/-- Taking votes away always has a result. -/
theorem after?_removals {ν : Type} [Scalar ν] (removals : List (UInt32 × Instant))
    (average : AverageRank ν) :
    average.after? (removals.map fun removal => (.remove removal.1, removal.2)) =
      some (average.after (removals.map fun removal => (.remove removal.1, removal.2))) := by
  induction removals generalizing average with
  | nil => rfl
  | cons removal rest ih => exact ih _

/-! ## 3. Summaries -/

/-- The average has the number of these votes, is zero if there are none, and gives their sum when
    multiplied by their number, in whatever way it can be read. -/
structure Summarizes {ν : Type} [Scalar ν] (average : AverageRank ν) (votes : Multiset UInt32) :
    Prop where
  number : average.number = votes.card
  zero : votes = 0 → average.average = Scalar.zero
  sum : ∀ value? : ν → Option Rat, Scalar.Reads value? → average.Totals value? (voteSum votes)

theorem voteSum_cons (vote : UInt32) (votes : Multiset UInt32) :
    voteSum (vote ::ₘ votes) = vote.toNat + voteSum votes := by
  rw [voteSum, Multiset.map_cons, Multiset.sum_cons, voteSum]

theorem voteSum_of_card {votes : Multiset UInt32} (empty : votes.card = 0) : voteSum votes = 0 := by
  rw [Multiset.card_eq_zero.1 empty]
  rfl

namespace Summarizes

variable {ν : Type} [Scalar ν] {average : AverageRank ν} {votes next : Multiset UInt32}
  {vote : UInt32} {now : Instant}

theorem create (id manager : String) (target : EntityReference) (scale : UInt32) (now : Instant) :
    (AverageRank.create id manager target scale now : AverageRank ν).Summarizes 0 :=
  ⟨rfl, fun _ => rfl, fun _ reads => Totals.of_zero reads rfl rfl⟩

theorem addVote (h : average.Summarizes votes) :
    (average.addVote vote now).Summarizes (vote ::ₘ votes) := by
  refine ⟨?_, fun empty => absurd empty (Multiset.cons_ne_zero), fun value? reads => ?_⟩
  · rw [Multiset.card_cons, ← h.number]
    rfl
  · rw [voteSum_cons]
    exact (h.sum value? reads).addVote reads

theorem removeVote (h : average.Summarizes (vote ::ₘ votes)) :
    (average.removeVote vote now).Summarizes votes := by
  have number : average.number = votes.card + 1 := by rw [h.number, Multiset.card_cons]
  refine ⟨?_, fun empty => ?_, fun value? reads => ?_⟩
  · unfold AverageRank.removeVote
    rw [number]
    cases votes.card <;> rfl
  · unfold AverageRank.removeVote
    rw [number, empty]
    rfl
  · have before := h.sum value? reads
    rw [voteSum_cons] at before
    exact before.removeVote reads number voteSum_of_card

theorem exchangeVote (h : average.Summarizes (vote ::ₘ votes)) (new : UInt32) :
    (average.exchangeVote vote new now).Summarizes (new ::ₘ votes) := by
  have number : average.number = votes.card + 1 := by rw [h.number, Multiset.card_cons]
  refine ⟨?_, fun empty => absurd empty (Multiset.cons_ne_zero), fun value? reads => ?_⟩
  · unfold AverageRank.exchangeVote
    rw [number, Multiset.card_cons]
  · have before := h.sum value? reads
    rw [voteSum_cons] at before ⊢
    exact before.exchangeVote reads number

theorem reset (average : AverageRank ν) (votes : Multiset UInt32) (now : Instant) :
    (average.reset (voteSum votes) votes.card now).Summarizes votes := by
  refine ⟨rfl, fun empty => ?_, fun value? reads => Totals.reset average reads voteSum_of_card⟩
  rw [empty]
  rfl

/-- One change. -/
theorem on {change : Change} (h : average.Summarizes votes)
    (fits : change.next? votes = some next) : (change.on average now).Summarizes next := by
  cases change with
  | add vote =>
      cases fits
      exact h.addVote
  | remove vote =>
      obtain rfl := Change.next?_remove_eq_some.1 fits
      exact h.removeVote
  | exchange old new =>
      obtain ⟨rest, rfl, rfl⟩ := Change.next?_exchange_eq_some.1 fits
      exact h.exchangeVote new
  | reset others =>
      obtain ⟨-, rfl⟩ := Change.next?_reset_eq_some.1 fits
      exact reset average _ now

/-- **Runs.** An average stays a summary of its votes through every sequence of changes that can be
    carried out. -/
theorem after {changes : List (Change × Instant)} (h : average.Summarizes votes)
    (fits : votesAfter? votes changes = some next) : (average.after changes).Summarizes next := by
  induction changes generalizing average votes with
  | nil =>
      cases fits
      exact h
  | cons change rest ih =>
      obtain ⟨change, now⟩ := change
      obtain ⟨middle, first, others⟩ := Option.bind_eq_some_iff.1 fits
      exact ih (h.on first) others

/-- A change has its result if the votes can be counted afterwards. -/
theorem on?_eq_some_iff {change : Change} {result : AverageRank ν} (h : average.Summarizes votes)
    (few : votes.card < 18446744073709551616) (fits : change.next? votes = some next) :
    change.on? average now = some result ↔
      next.card < 18446744073709551616 ∧ change.on average now = result := by
  cases change with
  | add vote =>
      cases fits
      show (if average.number + 1 < 18446744073709551616 then _ else none) = _ ↔ _
      rw [Option.ite_none_right_eq_some, Option.some_inj, h.number, Multiset.card_cons]
      rfl
  | remove vote | exchange old new | reset others =>
      have few := Change.card_next_lt few fits nofun
      exact ⟨fun same => ⟨few, Option.some.inj same⟩, fun same => congrArg some same.2⟩

/-- **Counting.** A run has its result if the votes can be counted all the time. -/
theorem after?_eq_some_iff {changes : List (Change × Instant)} {result : AverageRank ν}
    (h : average.Summarizes votes) (few : votes.card < 18446744073709551616)
    (fits : votesAfter? votes changes = some next) :
    average.after? changes = some result ↔
      StaysCountable votes changes ∧ average.after changes = result := by
  induction changes generalizing average votes with
  | nil =>
      rw [staysCountable_nil, AverageRank.after?, AverageRank.after, Option.some_inj]
      exact (and_iff_right few).symm
  | cons change rest ih =>
      obtain ⟨change, now⟩ := change
      obtain ⟨middle, first, others⟩ := Option.bind_eq_some_iff.1 fits
      rw [staysCountable_cons first, and_iff_right few, AverageRank.after?,
        Option.bind_eq_some_iff]
      constructor
      · rintro ⟨after, changed, run⟩
        obtain ⟨few, rfl⟩ := (h.on?_eq_some_iff few first).1 changed
        exact (ih (h.on first) few others).1 run
      · rintro ⟨countable, rfl⟩
        have few' := countable [] List.nil_prefix middle rfl
        exact ⟨_, (h.on?_eq_some_iff few first).2 ⟨few', rfl⟩,
          (ih (h.on first) few' others).2 ⟨countable, rfl⟩⟩

/-- Averages of the same votes are read as the same rational, whatever numbers they are kept in. -/
theorem exists_value {μ : Type} [Scalar μ] {other : AverageRank μ} {value? : ν → Option Rat}
    {value?' : μ → Option Rat} (reads : Scalar.Reads value?) (reads' : Scalar.Reads value?')
    (h : average.Summarizes votes) (h' : other.Summarizes votes) :
    ∃ q, value? average.average = some q ∧ value?' other.average = some q := by
  by_cases empty : votes = 0
  · refine ⟨(0 : Nat), ?_, ?_⟩
    · rw [h.zero empty]
      exact reads.ofCount 0
    · rw [h'.zero empty]
      exact reads'.ofCount 0
  · obtain ⟨q, value, product⟩ := h.sum value? reads
    obtain ⟨r, value', product'⟩ := h'.sum value?' reads'
    have nonzero : (votes.card : Rat) ≠ 0 :=
      Nat.cast_ne_zero.2 fun none => empty (Multiset.card_eq_zero.1 none)
    rw [h.number] at product
    rw [h'.number] at product'
    have same : r = q := mul_right_cancel₀ nonzero (product'.trans product.symm)
    exact ⟨q, value, same ▸ value'⟩

theorem eq_of_rat {a b : AverageRank Rat} (h : a.Summarizes votes) (h' : b.Summarizes votes) :
    a.average = b.average ∧ a.number = b.number := by
  obtain ⟨q, value, value'⟩ := exists_value Scalar.isExact_rat.reads Scalar.isExact_rat.reads h h'
  exact ⟨Option.some_inj.1 (value.trans value'.symm), h.number.trans h'.number.symm⟩

end Summarizes

/-- **Summaries.** Whatever changes lead to some votes, from an average without any, they have a
    result exactly if there are never as many votes as an unsigned 64-bit word cannot count.  Then:

  1. in rationals, the number and sum of the votes are those of the average, which is zero without
     votes;
  2. other changes that lead to these votes and have a result give the same average and number;
  3. adding a vote and taking it away gives both back;
  4. in doubles the number is right, too, each vote that is taken away lowers it by one, and
     without votes the average is the double zero, for instance once every vote is taken away;
  5. nothing is divided by zero: in numbers that would show it, the average is the rational. -/
theorem is_summary_of_multiset {changes : List (Change × Instant)} {votes : Multiset UInt32}
    (fits : votesAfter? 0 changes = some votes) (id manager : String) (target : EntityReference)
    (scale : UInt32) (start : Instant) :
    let new (ν : Type) [Scalar ν] : AverageRank ν := create id manager target scale start
    (((new Rat).after? changes).isSome ↔ StaysCountable 0 changes) ∧
    (((new Float).after? changes).isSome ↔ StaysCountable 0 changes) ∧
    ∀ exact double, (new Rat).after? changes = some exact →
      (new Float).after? changes = some double →
      (exact.number = votes.card ∧ exact.average * exact.number = voteSum votes ∧
        (votes = 0 → exact.average = 0)) ∧
      (∀ others other, votesAfter? 0 others = some votes →
        (new Rat).after? others = some other →
        other.average = exact.average ∧ other.number = exact.number) ∧
      (∀ vote added removed more, exact.addVote? vote added = some more →
        let back := more.removeVote vote removed
        back.average = exact.average ∧ back.number = exact.number) ∧
      (double.number = votes.card ∧ (votes = 0 → double.average.toBits = 0) ∧
        (∀ vote ∈ votes, ∀ now, (double.removeVote vote now).number + 1 = double.number) ∧
        ∀ removals : List (UInt32 × Instant), (removals.map (·.1) : List UInt32) = votes →
          ∃ emptied,
            double.after? (removals.map fun removal => (.remove removal.1, removal.2)) =
              some emptied ∧
            emptied.number = 0 ∧ emptied.average.toBits = 0) ∧
      ∃ checked, (new CheckedRat).after? changes = some checked ∧
        checked.average = some exact.average := by
  intro new
  have fresh (ν : Type) [Scalar ν] : (new ν).Summarizes 0 :=
    Summarizes.create id manager target scale start
  have few : (0 : Multiset UInt32).card < 18446744073709551616 := by decide
  have counted (ν : Type) [Scalar ν] :
      ((new ν).after? changes).isSome ↔ StaysCountable 0 changes := by
    rw [Option.isSome_iff_exists]
    simp only [(fresh ν).after?_eq_some_iff few fits]
    exact ⟨fun ⟨_, countable, _⟩ => countable, fun countable => ⟨_, countable, rfl⟩⟩
  refine ⟨counted Rat, counted Float, fun exact double ran ran' => ?_⟩
  obtain ⟨countable, rfl⟩ := ((fresh Rat).after?_eq_some_iff few fits).1 ran
  obtain ⟨-, rfl⟩ := ((fresh Float).after?_eq_some_iff few fits).1 ran'
  have rational := (fresh Rat).after fits
  have rounded := (fresh Float).after fits
  have zero : (Scalar.zero : Float).toBits = 0 := rfl
  refine ⟨⟨rational.number, ?_, rational.zero⟩, ?_, ?_, ⟨rounded.number, ?_, ?_, ?_⟩, ?_⟩
  · obtain ⟨_, ⟨⟩, product⟩ := rational.sum _ Scalar.isExact_rat.reads
    exact product
  · intro others other fits' ran
    obtain ⟨-, rfl⟩ := ((fresh Rat).after?_eq_some_iff few fits').1 ran
    exact Summarizes.eq_of_rat ((fresh Rat).after fits') rational
  · intro vote added removed more grown back
    obtain ⟨-, ⟨⟩⟩ := Option.ite_none_right_eq_some.1 grown
    exact Summarizes.eq_of_rat rational.addVote.removeVote rational
  · intro empty
    rw [rounded.zero empty, zero]
  · intro vote held now
    obtain ⟨rest, rfl⟩ := Multiset.exists_cons_of_mem held
    rw [rounded.removeVote.number, rounded.number, Multiset.card_cons]
  · intro removals all
    have fits : votesAfter? votes (removals.map fun removal => (.remove removal.1, removal.2)) =
        some 0 := all ▸ votesAfter?_removals removals
    have none := rounded.after fits
    exact ⟨_, after?_removals removals _, none.number, by rw [none.zero rfl, zero]⟩
  · refine ⟨_, ((fresh CheckedRat).after?_eq_some_iff few fits).2 ⟨countable, rfl⟩, ?_⟩
    obtain ⟨_, value, ⟨⟩⟩ := Summarizes.exists_value CheckedRat.reads Scalar.isExact_rat.reads
      ((fresh CheckedRat).after fits) rational
    exact value

/-- Of two votes one is exchanged, and the other one taken away. -/
theorem summary_of_one_vote :
    let changes : List (Change × Instant) :=
      [(.add 4, .epoch), (.add 2, .epoch), (.exchange 2 5, .epoch), (.remove 4, .epoch)]
    let new (ν : Type) [Scalar ν] : AverageRank ν :=
      create "a" "stars" ⟨.document, "Main.WebHome"⟩ 5 .epoch
    votesAfter? 0 changes = some {5} ∧ StaysCountable 0 changes ∧
      ∃ exact, (new Rat).after? changes = some exact ∧ exact.number = 1 ∧ exact.average = 5 := by
  intro changes new
  have fits : votesAfter? 0 changes = some {5} := by decide
  obtain ⟨counted, counted', facts⟩ :=
    is_summary_of_multiset fits "a" "stars" ⟨.document, "Main.WebHome"⟩ 5 .epoch
  obtain ⟨exact, ran⟩ : ∃ exact, (new Rat).after? changes = some exact := ⟨_, rfl⟩
  have countable : StaysCountable 0 changes :=
    counted.1 (Option.isSome_iff_exists.2 ⟨exact, ran⟩)
  obtain ⟨double, ran'⟩ := Option.isSome_iff_exists.1 (counted'.2 countable)
  obtain ⟨⟨number, product, -⟩, -⟩ := facts exact double ran ran'
  rw [number, Multiset.card_singleton, Nat.cast_one, mul_one] at product
  exact ⟨fits, countable, exact, ran, number, product⟩

end AverageRank

end RankLedger
