import RankLedger.Index.Query
import RankLedger.Proofs.Entries
import RankLedger.Proofs.Number.Nearest
import RankLedger.Proofs.Number.Value

/-!
# The order of field values

Which of two values comes first (`FieldValue.IsBelow`) is settled within a kind by the order of the
kind, and between numbers by what they are worth as doubles.  This is a strict order.  It is what a
sort asks for (`FieldValue.compareWith_eq_lt_iff`), but not all of it: a sort takes two values of
which neither comes first for equal.  Within a kind they are (`FieldValue.ties_iff_is`), but across
kinds this is no equality.  A value may tie with two others of which one comes before the other
(`FieldValue.Blurs`): a value of a foreign kind, which does not compare with them, and a double
beyond `2 ^ 53`, to which several integers are rounded.
-/

namespace RankLedger

namespace FieldValue

/-! ## 1. Kinds -/

inductive Kind where
  | text
  | integer
  | double
  | date
  deriving DecidableEq, Repr

def kind {ν : Type} : FieldValue ν → Kind
  | text _ => .text
  | integer _ => .integer
  | double _ => .double
  | date _ => .date

def Kind.isNumber : Kind → Bool
  | integer | double => true
  | text | date => false

def Kind.compares (a b : Kind) : Bool :=
  a == b || a.isNumber && b.isNumber

def worth? (value : FieldValue Float) : Option Rat :=
  value.asNumber?.bind Double.value?

/-! ## 2. The order -/

inductive IsBelow : FieldValue Float → FieldValue Float → Prop where
  | text {a b : String} (less : a < b) : IsBelow (text a) (text b)
  | integer {a b : Int64} (less : a < b) : IsBelow (integer a) (integer b)
  | date {a b : Int64} (less : a < b) : IsBelow (date a) (date b)
  | number {a b : FieldValue Float} {q r : Rat} (first : a.worth? = some q)
      (second : b.worth? = some r) (less : q < r) : IsBelow a b

theorem exists_worth_integer (n : Int64) : ∃ q, (integer n).worth? = some q :=
  Option.isSome_iff_exists.1 ((Double.isSome_value?_iff _).2 (Double.isFinite_ofInt64 n))

/-- Rounding integers to doubles may make them equal, but changes no order. -/
theorem worth_mono {m n : Int64} {q r : Rat} (first : (integer m).worth? = some q)
    (second : (integer n).worth? = some r) (le : m ≤ n) : q ≤ r := by
  have placed := Double.compare?_of_place? (Double.place?_ofInt64 n) (Double.place?_ofInt64 m)
  have order := Double.nearestPlace_mono (Int64.le_iff_toInt_le.1 le)
  by_contra less
  have below := (Double.compare?_eq_lt_iff second first).2 (not_le.1 less)
  rw [placed, Option.some_inj, Std.compare_eq_lt] at below
  exact absurd order (not_le.2 below)

theorem IsBelow.trans {a b c : FieldValue Float} (ab : a.IsBelow b) (bc : b.IsBelow c) :
    a.IsBelow c := by
  cases ab with
  | text less =>
      cases bc with
      | text less' => exact .text (String.lt_trans less less')
      | number first => cases first
  | date less =>
      cases bc with
      | date less' => exact .date (Int64.lt_trans less less')
      | number first => cases first
  | @integer m n less =>
      cases bc with
      | integer less' => exact .integer (Int64.lt_trans less less')
      | number first second less' =>
          obtain ⟨q, worth⟩ := exists_worth_integer m
          exact .number worth second ((worth_mono worth first (Int64.le_of_lt less)).trans_lt less')
  | number first second less =>
      cases bc with
      | text => cases second
      | date => cases second
      | @integer m n less' =>
          obtain ⟨q, worth⟩ := exists_worth_integer n
          exact .number first worth
            (less.trans_le (worth_mono second worth (Int64.le_of_lt less')))
      | number first' second' less' =>
          cases second.symm.trans first'
          exact .number first second' (less.trans less')

theorem IsBelow.irrefl (a : FieldValue Float) : ¬ a.IsBelow a := by
  intro below
  cases below with
  | text less => exact String.lt_irrefl _ less
  | integer less => exact Int64.lt_irrefl less
  | date less => exact Int64.lt_irrefl less
  | number first second less =>
      cases first.symm.trans second
      exact lt_irrefl _ less

/-! ## 3. What a sort compares -/

/-- Two values compare the same from both sides. -/
theorem compareWith_swap (a b : FieldValue Float) :
    (a.compareWith b).swap = b.compareWith a := by
  have numbers (x y : Float) :
      ((Scalar.compare? x y).getD .eq).swap = (Scalar.compare? y x).getD .eq := by
    show ((Double.compare? x y).getD .eq).swap = (Double.compare? y x).getD .eq
    rw [← Double.compare?_swap x y]
    cases Double.compare? x y <;> rfl
  cases a <;> cases b
  case text.text => exact Std.OrientedOrd.eq_swap.symm
  case integer.integer => exact Std.OrientedOrd.eq_swap.symm
  case date.date => exact Std.OrientedOrd.eq_swap.symm
  case integer.double => exact numbers _ _
  case double.integer => exact numbers _ _
  case double.double => exact numbers _ _
  all_goals rfl

theorem exists_worth {a : FieldValue Float} (storable : a.isStorable = true)
    (number : a.kind.isNumber = true) : ∃ q, a.worth? = some q := by
  cases a with
  | integer n => exact exists_worth_integer n
  | double x => exact Option.isSome_iff_exists.1 ((Double.isSome_value?_iff x).2 storable)
  | text | date => cases number

theorem isNumber_of_worth {a : FieldValue Float} {q : Rat} (worth : a.worth? = some q) :
    a.kind.isNumber = true := by
  cases a with
  | integer | double => rfl
  | text | date => cases worth

/-- Numbers compare by their worth, unless both are integers. -/
theorem isBelow_iff_worth {a b : FieldValue Float} {q r : Rat} (first : a.worth? = some q)
    (second : b.worth? = some r) (mixed : ¬ (a.kind = .integer ∧ b.kind = .integer)) :
    a.IsBelow b ↔ q < r := by
  refine ⟨fun below => ?_, .number first second⟩
  cases below with
  | text => cases first
  | date => cases first
  | integer => exact absurd ⟨rfl, rfl⟩ mixed
  | number first' second' less =>
      cases first.symm.trans first'
      cases second.symm.trans second'
      exact less

theorem isBelow_integer_iff {m n : Int64} : (integer m).IsBelow (integer n) ↔ m < n := by
  refine ⟨fun below => ?_, .integer⟩
  cases below with
  | integer less => exact less
  | number first second less =>
      by_contra le
      exact absurd (worth_mono second first (Int64.not_lt.1 le)) (not_le.2 less)

theorem isBelow_text_iff {a b : String} : (text a).IsBelow (text b) ↔ a < b := by
  refine ⟨fun below => ?_, .text⟩
  cases below with
  | text less => exact less
  | number first => cases first

theorem isBelow_date_iff {a b : Int64} : (date a).IsBelow (date b) ↔ a < b := by
  refine ⟨fun below => ?_, .date⟩
  cases below with
  | date less => exact less
  | number first => cases first

/-- Only values that compare come before each other. -/
theorem IsBelow.compares {a b : FieldValue Float} (below : a.IsBelow b) :
    a.kind.compares b.kind = true := by
  cases below with
  | text | integer | date => rfl
  | number first second =>
      rw [Kind.compares, isNumber_of_worth first, isNumber_of_worth second]
      exact Bool.or_true _

/-- **What a sort asks for.** Of values that can be stored, a sort puts those first that are
    below. -/
theorem compareWith_eq_lt_iff {a b : FieldValue Float} (storableA : a.isStorable = true)
    (storableB : b.isStorable = true) : a.compareWith b = .lt ↔ a.IsBelow b := by
  have numbers {x y : Float} (first : a.asNumber? = some x) (second : b.asNumber? = some y)
      (numberA : a.kind.isNumber = true) (numberB : b.kind.isNumber = true)
      (mixed : ¬ (a.kind = .integer ∧ b.kind = .integer)) :
      (Scalar.compare? x y).getD .eq = .lt ↔ a.IsBelow b := by
    obtain ⟨q, worthA⟩ := exists_worth storableA numberA
    obtain ⟨r, worthB⟩ := exists_worth storableB numberB
    rw [isBelow_iff_worth worthA worthB mixed]
    rw [worth?, first, Option.bind_some] at worthA
    rw [worth?, second, Option.bind_some] at worthB
    rw [← Double.compare?_eq_lt_iff worthA worthB]
    show (Double.compare? x y).getD .eq = .lt ↔ _
    cases Double.compare? x y <;> simp
  cases a <;> cases b
  case text.text => exact compareOfLessAndEq_eq_lt.trans isBelow_text_iff.symm
  case integer.integer => exact Std.compare_eq_lt.trans isBelow_integer_iff.symm
  case date.date => exact Std.compare_eq_lt.trans isBelow_date_iff.symm
  case integer.double => exact numbers rfl rfl rfl rfl (fun both => nomatch both.2)
  case double.integer => exact numbers rfl rfl rfl rfl (fun both => nomatch both.1)
  case double.double => exact numbers rfl rfl rfl rfl (fun both => nomatch both.1)
  all_goals exact iff_of_false nofun fun below => Bool.false_ne_true below.compares

/-! ## 4. Values that blur others -/

def Ties (a b : FieldValue Float) : Prop :=
  ¬ a.IsBelow b ∧ ¬ b.IsBelow a

/-- The first value ties with the other two whatever they are: it compares with neither, or it is
    a double on which both of them are rounded. -/
inductive Blurs : FieldValue Float → FieldValue Float → FieldValue Float → Prop where
  | foreign {a b c : FieldValue Float} (first : a.kind.compares b.kind = false)
      (second : a.kind.compares c.kind = false) : Blurs a b c
  | rounded {x : Float} {m n : Int64} {q : Rat} (middle : (double x).worth? = some q)
      (first : (integer m).worth? = some q) (second : (integer n).worth? = some q) :
      Blurs (double x) (integer m) (integer n)

theorem Blurs.symm {a b c : FieldValue Float} (blurs : a.Blurs b c) : a.Blurs c b := by
  cases blurs with
  | foreign first second => exact .foreign second first
  | rounded middle first second => exact .rounded middle second first

theorem Kind.compares_comm (a b : Kind) : a.compares b = b.compares a := by
  cases a <;> cases b <;> rfl

theorem Blurs.ties {a b c : FieldValue Float} (blurs : a.Blurs b c) : a.Ties b := by
  cases blurs with
  | foreign first =>
      refine ⟨fun below => ?_, fun above => ?_⟩
      · rw [below.compares] at first
        cases first
      · rw [Kind.compares_comm, above.compares] at first
        cases first
  | rounded middle first =>
      constructor
      · rw [isBelow_iff_worth middle first (fun both => nomatch both.1)]
        exact lt_irrefl _
      · rw [isBelow_iff_worth first middle (fun both => nomatch both.2)]
        exact lt_irrefl _

/-- **Between two values.** Of two values in order, a third one is above the first or below the
    second, unless it blurs them. -/
theorem IsBelow.split {a b c : FieldValue Float} (below : b.IsBelow c)
    (storable : a.isStorable = true) : b.IsBelow a ∨ a.IsBelow c ∨ a.Blurs b c := by
  cases below with
  | @text x y less =>
      cases a with
      | text z =>
          by_cases above : x < z
          · exact .inl (.text above)
          · exact .inr (.inl (.text (Std.lt_of_le_of_lt (String.not_lt.1 above) less)))
      | integer | double | date => exact .inr (.inr (.foreign rfl rfl))
  | @date x y less =>
      cases a with
      | date z =>
          by_cases above : x < z
          · exact .inl (.date above)
          · exact .inr (.inl (.date (Int64.lt_of_le_of_lt (Int64.not_lt.1 above) less)))
      | text | integer | double => exact .inr (.inr (.foreign rfl rfl))
  | @integer m n less =>
      cases a with
      | integer k =>
          by_cases above : m < k
          · exact .inl (.integer above)
          · exact .inr (.inl (.integer (Int64.lt_of_le_of_lt (Int64.not_lt.1 above) less)))
      | double x =>
          obtain ⟨q, worth⟩ := exists_worth storable rfl
          obtain ⟨low, worthM⟩ := exists_worth_integer m
          obtain ⟨high, worthN⟩ := exists_worth_integer n
          have order : low ≤ high := worth_mono worthM worthN (Int64.le_of_lt less)
          by_cases above : low < q
          · exact .inl (.number worthM worth above)
          by_cases below : q < high
          · exact .inr (.inl (.number worth worthN below))
          · -- nothing is left between the two integers
            have equal : q = low := le_antisymm (not_lt.1 above) (order.trans (not_lt.1 below))
            have equal' : q = high := le_antisymm (equal.le.trans order) (not_lt.1 below)
            exact .inr (.inr (.rounded worth (equal ▸ worthM) (equal' ▸ worthN)))
      | text | date => exact .inr (.inr (.foreign rfl rfl))
  | @number _ _ low high worthB worthC less =>
      cases number : a.kind.isNumber with
      | true =>
          obtain ⟨q, worth⟩ := exists_worth storable number
          by_cases above : low < q
          · exact .inl (.number worthB worth above)
          · exact .inr (.inl (.number worth worthC ((not_lt.1 above).trans_lt less)))
      | false =>
          have apart {v : FieldValue Float} {r : Rat} (worth : v.worth? = some r) :
              a.kind.compares v.kind = false := by
            have other := isNumber_of_worth worth
            rw [Kind.compares, number, Bool.false_and, Bool.or_false, beq_eq_false_iff_ne]
            intro same
            rw [same, other] at number
            cases number
          exact .inr (.inr (.foreign (apart worthB) (apart worthC)))

/-- Of two values in order, a third one ties with both exactly if it blurs them. -/
theorem blurs_iff_ties {a b c : FieldValue Float} (below : b.IsBelow c)
    (storable : a.isStorable = true) : a.Blurs b c ↔ a.Ties b ∧ a.Ties c := by
  refine ⟨fun blurs => ⟨blurs.ties, blurs.symm.ties⟩, fun ⟨first, second⟩ => ?_⟩
  obtain above | below | blurs := below.split storable
  · exact absurd above first.2
  · exact absurd below second.1
  · exact blurs

/-! ## 5. Equal values -/

/-- The two values are of one kind and equal; doubles are equal if they have the same value. -/
inductive Is : FieldValue Float → FieldValue Float → Prop where
  | text (value : String) : Is (text value) (text value)
  | integer (value : Int64) : Is (integer value) (integer value)
  | double {x y : Float} {q : Rat} (first : Double.value? x = some q)
      (second : Double.value? y = some q) : Is (double x) (double y)
  | date (millis : Int64) : Is (date millis) (date millis)

/-- What passes a filter is equal to the value of the filter. -/
theorem same_iff_is {a b : FieldValue Float} (storable : a.isStorable = true) :
    a.same b = true ↔ a.Is b := by
  constructor
  · intro same
    cases a <;> cases b <;> try exact (Bool.false_ne_true same).elim
    case text.text => exact beq_iff_eq.1 same ▸ .text _
    case integer.integer => exact beq_iff_eq.1 same ▸ .integer _
    case date.date => exact beq_iff_eq.1 same ▸ .date _
    case double.double x y =>
      obtain ⟨q, value⟩ := Option.isSome_iff_exists.1 ((Double.isSome_value?_iff x).2 storable)
      exact .double value ((Double.same_iff_value? value).1 same)
  · intro equal
    cases equal with
    | text | integer | date => exact beq_self_eq_true _
    | double first second => exact (Double.same_iff_value? first).2 second

/-- Within a kind a sort tells all values apart that are not equal. -/
theorem ties_iff_is {a b : FieldValue Float} (storableA : a.isStorable = true)
    (storableB : b.isStorable = true) (kind : a.kind = b.kind) : a.Ties b ↔ a.Is b := by
  constructor
  · rintro ⟨notBelow, notAbove⟩
    cases a <;> cases b
    case text.text a b =>
      rw [isBelow_text_iff, String.not_lt] at notBelow notAbove
      exact String.le_antisymm notAbove notBelow ▸ .text _
    case integer.integer a b =>
      rw [isBelow_integer_iff, Int64.not_lt] at notBelow notAbove
      exact Int64.le_antisymm notAbove notBelow ▸ .integer _
    case date.date a b =>
      rw [isBelow_date_iff, Int64.not_lt] at notBelow notAbove
      exact Int64.le_antisymm notAbove notBelow ▸ .date _
    case double.double x y =>
      obtain ⟨q, worthA⟩ := exists_worth storableA rfl
      obtain ⟨r, worthB⟩ := exists_worth storableB rfl
      rw [isBelow_iff_worth worthA worthB (fun both => nomatch both.1)] at notBelow
      rw [isBelow_iff_worth worthB worthA (fun both => nomatch both.1)] at notAbove
      -- doubles differ in their sign of zero at most, and are equal then
      have equal : q = r := le_antisymm (not_lt.1 notAbove) (not_lt.1 notBelow)
      exact .double worthA (equal ▸ worthB)
    all_goals cases kind
  · intro equal
    cases equal with
    | text | integer | date => exact ⟨IsBelow.irrefl _, IsBelow.irrefl _⟩
    | double first second =>
        have worth {x : Float} {q : Rat} (value : Double.value? x = some q) :
            (FieldValue.double x).worth? = some q := value
        rw [Ties, isBelow_iff_worth (worth first) (worth second) (fun both => nomatch both.1),
          isBelow_iff_worth (worth second) (worth first) (fun both => nomatch both.1)]
        exact ⟨lt_irrefl _, lt_irrefl _⟩

end FieldValue

/-! ## 6. Sort keys -/

namespace SortOrder

variable {order : SortOrder}

def Puts (order : SortOrder) (a b : FieldValue Float) : Prop :=
  match order with
  | .ascending => a.IsBelow b
  | .descending => b.IsBelow a

inductive PutsKey (order : SortOrder) :
    Option (FieldValue Float) → Option (FieldValue Float) → Prop where
  | values {a b : FieldValue Float} (before : order.Puts a b) : PutsKey order (some a) (some b)
  | missing {a : FieldValue Float} : PutsKey order (some a) none

theorem Puts.trans {a b c : FieldValue Float} (ab : order.Puts a b) (bc : order.Puts b c) :
    order.Puts a c := by
  cases order with
  | ascending => exact FieldValue.IsBelow.trans ab bc
  | descending => exact FieldValue.IsBelow.trans bc ab

theorem Puts.irrefl (a : FieldValue Float) : ¬ order.Puts a a := by
  cases order with
  | ascending | descending => exact FieldValue.IsBelow.irrefl a

theorem PutsKey.trans {a b c : Option (FieldValue Float)} (ab : order.PutsKey a b)
    (bc : order.PutsKey b c) : order.PutsKey a c := by
  cases ab with
  | values before =>
      cases bc with
      | values before' => exact .values (before.trans before')
      | missing => exact .missing
  | missing => cases bc

theorem PutsKey.irrefl (a : Option (FieldValue Float)) : ¬ order.PutsKey a a := by
  intro puts
  cases puts with
  | values before => exact Puts.irrefl _ before

theorem compareKeys_swap (a b : Option (FieldValue Float)) :
    (order.compareKeys a b).swap = order.compareKeys b a := by
  cases a <;> cases b
  case some.some a b =>
    cases order with
    | ascending => exact a.compareWith_swap b
    | descending => exact congrArg Ordering.swap (a.compareWith_swap b)
  all_goals rfl

theorem compareKeys_eq_lt_iff {a b : Option (FieldValue Float)}
    (storableA : ∀ value, a = some value → value.isStorable = true)
    (storableB : ∀ value, b = some value → value.isStorable = true) :
    order.compareKeys a b = .lt ↔ order.PutsKey a b := by
  cases a <;> cases b
  case some.some a b =>
    have values : order.compareKeys (some a) (some b) = .lt ↔ order.Puts a b := by
      cases order with
      | ascending => exact FieldValue.compareWith_eq_lt_iff (storableA a rfl) (storableB b rfl)
      | descending =>
          show (a.compareWith b).swap = .lt ↔ b.IsBelow a
          rw [a.compareWith_swap]
          exact FieldValue.compareWith_eq_lt_iff (storableB b rfl) (storableA a rfl)
    refine values.trans ⟨.values, fun puts => ?_⟩
    cases puts with
    | values before => exact before
  case some.none => exact iff_of_true rfl .missing
  all_goals exact iff_of_false nofun fun puts => nomatch puts

end SortOrder

/-! ## 7. Documents -/

theorem Document.isStorable_of_sortKey? {ν : Type} [Scalar ν] {document : Document ν}
    {field : String} (storable : document.isStorable = true) (value : FieldValue ν)
    (key : document.sortKey? field = some value) : value.isStorable = true := by
  unfold sortKey? at key
  split at key
  · cases key
    rfl
  · exact List.all_eq_true.1 storable _ (mem_of_lookup key)

namespace IndexQuery

variable {query : IndexQuery Float} {a b c : Document Float}

/-- The sort of a query puts the first document before the second one. -/
def Puts (query : IndexQuery Float) (a b : Document Float) : Prop :=
  ∃ field order, query.sort = some (field, order) ∧
    order.PutsKey (a.sortKey? field) (b.sortKey? field)

theorem Puts.trans (ab : query.Puts a b) (bc : query.Puts b c) : query.Puts a c := by
  obtain ⟨field, order, sort, ab⟩ := ab
  obtain ⟨field', order', sort', bc⟩ := bc
  cases sort.symm.trans sort'
  exact ⟨field, order, sort, ab.trans bc⟩

theorem Puts.irrefl (a : Document Float) : ¬ query.Puts a a := by
  rintro ⟨field, order, sort, puts⟩
  exact SortOrder.PutsKey.irrefl _ puts

/-- Two documents compare the same from both sides. -/
theorem compareDocuments_swap (a b : Document Float) :
    (query.compareDocuments a b).swap = query.compareDocuments b a := by
  unfold compareDocuments
  cases query.sort with
  | none => rfl
  | some sort => exact SortOrder.compareKeys_swap _ _

/-- **What a query asks for.** Of documents that can be stored, a query compares those as smaller
    that its sort puts first. -/
theorem compareDocuments_eq_lt_iff (storableA : a.isStorable = true)
    (storableB : b.isStorable = true) :
    query.compareDocuments a b = .lt ↔ query.Puts a b := by
  unfold compareDocuments
  cases sort : query.sort with
  | none => exact iff_of_false nofun fun ⟨_, _, sort', _⟩ => nomatch sort.symm.trans sort'
  | some sort' =>
      obtain ⟨field, order⟩ := sort'
      refine (SortOrder.compareKeys_eq_lt_iff (Document.isStorable_of_sortKey? storableA)
        (Document.isStorable_of_sortKey? storableB)).trans
        ⟨fun puts => ⟨field, order, sort, puts⟩, fun ⟨_, _, sort', puts⟩ => ?_⟩
      cases sort.symm.trans sort'
      exact puts

end IndexQuery

end RankLedger
