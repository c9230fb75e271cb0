import Mathlib.Algebra.Order.Field.Basic
import Mathlib.Algebra.Order.Field.Rat
import Mathlib.Tactic.Ring
import RankLedger.Average
import RankLedger.Ranking

/-!
# Averages of votes

An average is kept vote by vote and never sees the votes it stands for.  It is the average *of*
some votes (`AverageRank.IsAverageOf`) if it counts them, is zero if there are none, and, where
arithmetic is exact, gives their sum when multiplied by their number.  Adding a vote, taking one
away and exchanging one for another keep this relation, as long as the vote that is taken away is
one of them.  So does computing the average anew.

Arithmetic need not be exact for the first two.  What exact means is said by a reading of the
numbers as rationals under which the operations are those of the rationals (`Scalar.IsExact`).
-/

namespace RankLedger

variable {ν : Type} [Scalar ν]

/-! ## 1. Exact arithmetic -/

structure Scalar.IsExact (value : ν → Rat) : Prop where
  ofCount : ∀ n : Nat, value (Scalar.ofCount n) = n
  add : ∀ a b, value (a + b) = value a + value b
  sub : ∀ a b, value (a - b) = value a - value b
  mul : ∀ a b, value (a * b) = value a * value b
  div : ∀ a b, value (a / b) = value a / value b

/-- Rationals are computed with exactly. -/
theorem Scalar.isExact_rat : Scalar.IsExact (fun a : Rat => a) :=
  ⟨fun _ => rfl, fun _ _ => rfl, fun _ _ => rfl, fun _ _ => rfl, fun _ _ => rfl⟩

structure Scalar.Reads (value? : ν → Option Rat) : Prop where
  ofCount : ∀ n : Nat, value? (Scalar.ofCount n) = some (n : Rat)
  add : ∀ {a b p q}, value? a = some p → value? b = some q → value? (a + b) = some (p + q)
  sub : ∀ {a b p q}, value? a = some p → value? b = some q → value? (a - b) = some (p - q)
  mul : ∀ {a b p q}, value? a = some p → value? b = some q → value? (a * b) = some (p * q)
  div : ∀ {a b p q}, value? a = some p → value? b = some q → q ≠ 0 →
    value? (a / b) = some (p / q)

theorem Scalar.IsExact.reads {value : ν → Rat} (exact : Scalar.IsExact value) :
    Scalar.Reads fun a => some (value a) where
  ofCount n := congrArg some (exact.ofCount n)
  add := by rintro a b _ _ ⟨⟩ ⟨⟩; exact congrArg some (exact.add a b)
  sub := by rintro a b _ _ ⟨⟩ ⟨⟩; exact congrArg some (exact.sub a b)
  mul := by rintro a b _ _ ⟨⟩ ⟨⟩; exact congrArg some (exact.mul a b)
  div := by rintro a b _ _ ⟨⟩ ⟨⟩ _; exact congrArg some (exact.div a b)

/-! ## 2. Sums -/

namespace AverageRank

def Totals (value? : ν → Option Rat) (average : AverageRank ν) (sum : Nat) : Prop :=
  ∃ q, value? average.average = some q ∧ q * average.number = sum

namespace Totals

variable {value? : ν → Option Rat} {average : AverageRank ν} {sum : Nat} {vote : UInt32}
  {now : Instant}

/-- The total recovered from an average is the sum of the votes. -/
theorem total (h : average.Totals value? sum) (reads : Scalar.Reads value?) :
    value? average.total = some (sum : Rat) := by
  obtain ⟨q, value, product⟩ := h
  rw [AverageRank.total, reads.mul value (reads.ofCount _), product]

/-- What is divided among some votes is had back from all of them. -/
theorem of_total (reads : Scalar.Reads value?) {total : ν} {n : Nat}
    (value : value? total = some (sum : Rat))
    (shared : average.average = total / Scalar.ofCount (n + 1))
    (number : average.number = n + 1) : average.Totals value? sum := by
  have nonzero : ((n + 1 : Nat) : Rat) ≠ 0 := Nat.cast_ne_zero.2 (Nat.succ_ne_zero n)
  refine ⟨sum / (n + 1 : Nat), ?_, ?_⟩
  · rw [shared]
    exact reads.div value (reads.ofCount _) nonzero
  · rw [number, div_mul_cancel₀ _ nonzero]

theorem of_zero (reads : Scalar.Reads value?) (zero : average.average = Scalar.zero)
    (number : average.number = 0) : average.Totals value? 0 :=
  ⟨0, zero ▸ reads.ofCount 0, by rw [number, Nat.cast_zero, mul_zero]⟩

theorem addVote (h : average.Totals value? sum) (reads : Scalar.Reads value?) :
    (average.addVote vote now).Totals value? (vote.toNat + sum) := by
  have value := reads.add (h.total reads) (reads.ofCount vote.toNat)
  rw [add_comm, ← Nat.cast_add] at value
  exact of_total reads value rfl rfl

/-- The votes that are left after the last one is taken away sum up to zero. -/
theorem removeVote (h : average.Totals value? (vote.toNat + sum)) (reads : Scalar.Reads value?)
    {rest : Nat} (number : average.number = rest + 1) (empty : rest = 0 → sum = 0) :
    (average.removeVote vote now).Totals value? sum := by
  have value := reads.sub (h.total reads) (reads.ofCount vote.toNat)
  rw [Nat.cast_add, add_sub_cancel_left] at value
  unfold AverageRank.removeVote
  rw [number]
  cases rest with
  | zero =>
      rw [empty rfl]
      exact of_zero reads rfl rfl
  | succ rest => exact of_total reads value rfl rfl

theorem exchangeVote {old new : UInt32} (h : average.Totals value? (old.toNat + sum))
    (reads : Scalar.Reads value?) {rest : Nat} (number : average.number = rest + 1) :
    (average.exchangeVote old new now).Totals value? (new.toNat + sum) := by
  have value := reads.add (reads.sub (h.total reads) (reads.ofCount old.toNat))
    (reads.ofCount new.toNat)
  rw [Nat.cast_add, add_sub_cancel_left, add_comm, ← Nat.cast_add] at value
  unfold AverageRank.exchangeVote
  rw [number]
  exact of_total reads value rfl rfl

theorem reset (average : AverageRank ν) (reads : Scalar.Reads value?) {number : Nat}
    (empty : number = 0 → sum = 0) : (average.reset sum number now).Totals value? sum := by
  cases number with
  | zero =>
      rw [empty rfl]
      exact of_zero reads rfl rfl
  | succ rest => exact of_total reads (reads.ofCount sum) rfl rfl

end Totals

end AverageRank

/-! ## 3. The votes of an average -/

namespace Ranking

theorem rankSum_perm {a b : List Ranking} (h : a.Perm b) : rankSum a = rankSum b := by
  induction h with
  | nil => rfl
  | cons vote _ ih => rw [rankSum, rankSum, ih]
  | swap a b rest => simp only [rankSum]; omega
  | trans _ _ first second => exact first.trans second

theorem rankSum_eq_sum (votes : List Ranking) :
    rankSum votes = ((votes.map (·.rank)).map UInt32.toNat).sum := by
  induction votes with
  | nil => rfl
  | cons vote rest ih =>
      rw [rankSum, ih]
      rfl

/-- Ranks on a scale sum up to at most the scale for each vote. -/
theorem rankSum_le {votes : List Ranking} {scale : Nat}
    (h : ∀ vote ∈ votes, vote.rank.toNat ≤ scale) : rankSum votes ≤ votes.length * scale := by
  induction votes with
  | nil => exact Nat.zero_le _
  | cons vote rest ih =>
      have first := h vote List.mem_cons_self
      have others := ih fun other mem => h other (List.mem_cons_of_mem _ mem)
      rw [rankSum, List.length_cons, Nat.succ_mul]
      omega

/-- Ranks are words of 32 bits, and fewer than 2^32 of them sum up to a word of 64 bits. -/
theorem rankSum_lt {votes : List Ranking} (few : votes.length < 4294967296) :
    rankSum votes < 18446744073709551616 := by
  have le : rankSum votes ≤ votes.length * 4294967295 :=
    rankSum_le fun vote _ => Nat.le_of_lt_succ vote.rank.toNat_lt
  omega

end Ranking

namespace AverageRank

structure IsAverageOf (average : AverageRank ν) (votes : List Ranking) : Prop where
  number : average.number = votes.length
  zero : votes = [] → average.average = Scalar.zero
  exact : ∀ value : ν → Rat, Scalar.IsExact value →
    value average.average * votes.length = Ranking.rankSum votes

namespace IsAverageOf

variable {average : AverageRank ν} {votes : List Ranking} {vote : Ranking} {now : Instant}

theorem perm (h : average.IsAverageOf votes) {others : List Ranking} (same : votes.Perm others) :
    average.IsAverageOf others := by
  refine ⟨h.number.trans same.length_eq, ?_, fun value exact => ?_⟩
  · rintro rfl
    exact h.zero (List.perm_nil.1 same)
  · rw [← same.length_eq, ← Ranking.rankSum_perm same]
    exact h.exact value exact

/-- An average without votes. -/
theorem nil (number : average.number = 0) (zero : average.average = Scalar.zero) :
    average.IsAverageOf [] := by
  refine ⟨number, fun _ => zero, fun value _ => ?_⟩
  simp [Ranking.rankSum]

theorem totals (h : average.IsAverageOf votes) {value : ν → Rat} (exact : Scalar.IsExact value) :
    average.Totals (fun a => some (value a)) (Ranking.rankSum votes) :=
  ⟨_, rfl, by rw [h.number, h.exact value exact]⟩

theorem of_totals (number : average.number = votes.length)
    (zero : votes = [] → average.average = Scalar.zero)
    (totals : ∀ value : ν → Rat, Scalar.IsExact value →
      average.Totals (fun a => some (value a)) (Ranking.rankSum votes)) :
    average.IsAverageOf votes := by
  refine ⟨number, zero, fun value exact => ?_⟩
  obtain ⟨_, ⟨⟩, product⟩ := totals value exact
  rw [← number, product]

theorem addVote (h : average.IsAverageOf votes) :
    (average.addVote vote.rank now).IsAverageOf (vote :: votes) :=
  of_totals (congrArg (· + 1) h.number) nofun fun _ exact => (h.totals exact).addVote exact.reads

theorem removeVote (h : average.IsAverageOf (vote :: votes)) :
    (average.removeVote vote.rank now).IsAverageOf votes := by
  have number : average.number = votes.length + 1 := h.number
  refine of_totals ?_ ?_ fun value exact => (h.totals exact).removeVote exact.reads number ?_
  · unfold AverageRank.removeVote
    rw [number]
    cases votes <;> rfl
  · rintro rfl
    unfold AverageRank.removeVote
    rw [number]
    rfl
  · intro empty
    rw [List.length_eq_zero_iff.1 empty]
    rfl

theorem exchangeVote (h : average.IsAverageOf (vote :: votes)) (new : Ranking) :
    (average.exchangeVote vote.rank new.rank now).IsAverageOf (new :: votes) := by
  have number : average.number = votes.length + 1 := h.number
  refine of_totals ?_ nofun fun value exact => (h.totals exact).exchangeVote exact.reads number
  unfold AverageRank.exchangeVote
  rw [number]
  rfl

/-- Computing an average anew makes it the average of the votes, whatever it was before. -/
theorem reset (average : AverageRank ν) (votes : List Ranking) (now : Instant) :
    (average.reset (Ranking.rankSum votes) votes.length now).IsAverageOf votes := by
  refine of_totals rfl ?_ fun value exact => Totals.reset average exact.reads fun empty => ?_
  · rintro rfl
    rfl
  · rw [List.length_eq_zero_iff.1 empty]
    rfl

/-- **On the scale.** The average of votes on a scale lies on it. -/
theorem bounds (h : average.IsAverageOf votes) {scale : Nat}
    (le : ∀ vote ∈ votes, vote.rank.toNat ≤ scale) {value : ν → Rat}
    (exact : Scalar.IsExact value) :
    0 ≤ value average.average ∧ value average.average ≤ scale := by
  cases votes with
  | nil =>
      rw [h.zero rfl, Scalar.zero, exact.ofCount]
      exact ⟨Nat.cast_nonneg 0, Nat.cast_le.2 (Nat.zero_le _)⟩
  | cons vote rest =>
      -- with votes, compare the totals
      have sum := h.exact value exact
      have positive : (0 : Rat) < (vote :: rest).length := Nat.cast_pos.2 (Nat.succ_pos _)
      constructor
      · apply nonneg_of_mul_nonneg_left _ positive
        rw [sum]
        exact Nat.cast_nonneg _
      · apply le_of_mul_le_mul_right _ positive
        rw [sum, mul_comm, ← Nat.cast_mul, Nat.cast_le]
        exact Ranking.rankSum_le le

end IsAverageOf

end AverageRank

end RankLedger
