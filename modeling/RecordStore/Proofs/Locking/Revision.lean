import RecordStore.Client.Save
import RecordStore.Proofs.Codec.Object
import RecordStore.Proofs.Expression.Builder

/-!
# Stored revisions

Revisions are stored as decimal integers. Asking that the stored revision equal an observed one is
asking that an item be there and be at that revision.
-/

namespace RecordStore

open Expression (Building Builder Clauses compares)

/-- Where two attributes have an order they are equal when it is that of equals. -/
theorem Attribute.equal_of_compare? {left right : Attribute} {order : Ordering}
    (hcompare : left.compare? right = some order) : left.equal right = decide (order = .eq) := by
  cases left <;> cases right <;> first | cases hcompare; done | simp only [Attribute.equal, hcompare]

namespace TableSchema

/-- The revision of an item is written as a decimal integer of 64 bits, where it is there. -/
def CountsRevision (table : TableSchema) (item : Item) : Prop :=
  ∀ stored, Item.get? item table.revisionAttribute = some stored →
    ∃ text revision, stored = .number text ∧
      Decimal.readInt64? (String.ofList (Text.trim text.toList)) = some revision

/-- The condition that an item is at an observed revision, as the store tests it. -/
def revisionTest (table : TableSchema) (observed : Int64) (item : Item) : Bool :=
  compares .equal (Codec.revisionAttribute observed) (Item.resolve? item [table.revisionAttribute])

variable {table : TableSchema} {item : Item} {observed revision : Int64}

theorem countsRevision_of_get?
    (hget : Item.get? item table.revisionAttribute = some (Codec.revisionAttribute revision)) :
    table.CountsRevision item := by
  intro stored hstored
  rw [hget] at hstored
  cases hstored
  refine ⟨_, revision, rfl, ?_⟩
  rw [Text.trim_toString_int, Decimal.readInt64?_toString]

theorem storedRevision_of_absent (hget : Item.get? item table.revisionAttribute = none) :
    Codec.storedRevision table item = .ok 0 := by
  unfold Codec.storedRevision
  rw [hget]

theorem exists_storedRevision (hcounts : table.CountsRevision item) :
    ∃ revision, Codec.storedRevision table item = .ok revision := by
  cases hget : Item.get? item table.revisionAttribute with
  | none => exact ⟨0, storedRevision_of_absent hget⟩
  | some stored =>
    obtain ⟨text, revision, rfl, hread⟩ := hcounts stored hget
    exact ⟨revision, storedRevision_of_number hget hread⟩

theorem equal_revisionAttribute {text : String}
    (hread : Decimal.readInt64? (String.ofList (Text.trim text.toList)) = some revision) :
    (Attribute.number text).equal (Codec.revisionAttribute observed) = decide (revision = observed) := by
  have hleft : Number.parse? text = some (.integer revision) := by
    unfold Number.parse?
    simp only [hread]
  have hcompare : (Attribute.number text).compare? (Codec.revisionAttribute observed) =
      some (compare revision.toInt observed.toInt) := by
    change (do
      let left ← Number.parse? text
      let right ← Number.parse? (toString observed.toInt)
      left.compare? right) = _
    rw [hleft, Number.parse?_toString]
    rfl
  rw [Attribute.equal_of_compare? hcompare]
  simp only [Std.compare_eq_iff_eq, Int64.toInt_inj]

/-- An item without attributes is at no observed revision. -/
theorem revisionTest_nil : table.revisionTest observed [] = false := rfl

theorem revisionTest_iff (hcounts : table.CountsRevision item) (hobserved : observed ≠ 0) :
    table.revisionTest observed item = true ↔ Codec.storedRevision table item = .ok observed := by
  unfold revisionTest
  rw [Item.resolve?]
  cases hget : Item.get? item table.revisionAttribute with
  | none =>
    rw [storedRevision_of_absent hget]
    constructor
    · intro htest
      cases htest
    · intro hsame
      cases hsame
      exact absurd rfl hobserved
  | some stored =>
    obtain ⟨text, revision, rfl, hread⟩ := hcounts stored hget
    rw [storedRevision_of_number hget hread]
    change (Attribute.number text).equal (Codec.revisionAttribute observed) = true ↔ _
    rw [equal_revisionAttribute hread, decide_eq_true_iff, Except.ok.injEq]

/-- Requests that observed a stored revision require it. -/
theorem adds_requireRevision (hlocking : table.optimisticLocking = true) (hobserved : observed ≠ 0) :
    (table.requireRevision observed).Adds fun _ added =>
      added = .ofCondition (table.revisionTest observed) := by
  have hasks : (table.optimisticLocking && decide (observed ≠ 0)) = true := by
    rw [hlocking, decide_eq_true hobserved]
    rfl
  unfold requireRevision
  rw [if_pos hasks]
  exact Builder.adds_requireEqual (List.cons_ne_nil _ _) _

end TableSchema

end RecordStore
