import Mathlib
import RecordStore.Proofs.Store.Contents

/-!
# Items in order

Items are sorted by inserting them one after another. The result is the stable sort by the order of
their range keys.
-/

namespace RecordStore

section Sorting

variable {α : Type} {le : α → α → Bool}

/-- Whether neither of two comes before the other. -/
def level (le : α → α → Bool) (one other : α) : Bool :=
  le one other && le other one

/-- Two sorted lists are the same once they hold the same and keep what is level in the same
order. -/
theorem eq_of_sorted {left right : List α} (htotal : ∀ one other, le one other || le other one)
    (hperm : left.Perm right) (hleft : left.Pairwise fun one other => le one other)
    (hright : right.Pairwise fun one other => le one other)
    (hlevel : ∀ one, left.filter (level le one) = right.filter (level le one)) :
    left = right := by
  have hself : ∀ one, le one one = true := fun one => by simpa using htotal one one
  induction left generalizing right with
  | nil => exact hperm.nil_eq
  | cons first rest ih =>
    cases right with
    | nil => exact absurd hperm.eq_nil (List.cons_ne_nil _ _)
    | cons other others =>
      have hbefore : ∀ {head : α} {tail : List α} {member : α},
          (head :: tail).Pairwise (fun one other => le one other) → member ∈ head :: tail →
          le head member = true := by
        intro head tail member hsorted hmember
        rcases List.mem_cons.mp hmember with rfl | hmember
        · exact hself _
        · exact List.rel_of_pairwise_cons hsorted hmember
      have hfirst : first = other := by
        have hforth := hbefore hleft (hperm.mem_iff.mpr List.mem_cons_self)
        have hback := hbefore hright (hperm.mem_iff.mp List.mem_cons_self)
        have hsame := hlevel first
        rw [List.filter_cons_of_pos (by simp [level, hself]),
          List.filter_cons_of_pos (by simp [level, hforth, hback])] at hsame
        exact (List.cons.inj hsame).1
      subst hfirst
      rw [ih hperm.cons_inv hleft.of_cons hright.of_cons fun one => ?_]
      have hsame := hlevel one
      by_cases hone : level le one first
      · rw [List.filter_cons_of_pos hone, List.filter_cons_of_pos hone] at hsame
        exact (List.cons.inj hsame).2
      · rwa [List.filter_cons_of_neg hone, List.filter_cons_of_neg hone] at hsame

theorem filter_level_mergeSort (htrans : ∀ one two three, le one two → le two three → le one three)
    (htotal : ∀ one other, le one other || le other one) (items : List α) (one : α) :
    (items.mergeSort le).filter (level le one) = items.filter (level le one) := by
  have hlevels : (items.filter (level le one)).Pairwise fun left right => le left right := by
    refine List.pairwise_iff_forall_sublist.mpr fun {left right} hsublist => ?_
    have hleft : left ∈ items.filter (level le one) := hsublist.mem (by simp)
    have hright : right ∈ items.filter (level le one) := hsublist.mem (by simp)
    simp only [List.mem_filter, level, Bool.and_eq_true] at hleft hright
    exact htrans _ _ _ hleft.2.2 hright.2.1
  have hsublist : (items.filter (level le one)).Sublist (items.mergeSort le) :=
    List.sublist_mergeSort htrans htotal hlevels List.filter_sublist
  have hfiltered := hsublist.filter (level le one)
  rw [List.filter_filter] at hfiltered
  simp only [Bool.and_self] at hfiltered
  refine (hfiltered.eq_of_length ?_).symm
  exact ((List.mergeSort_perm items le).symm.filter _).length_eq

end Sorting

namespace StoredTable

section Insertion

variable {precedes le : Item → Item → Bool} {items sorted : List Item} {item : Item}

theorem perm_insertLast (item : Item) (sorted : List Item) :
    (insertLast precedes item sorted).Perm (item :: sorted) := by
  induction sorted with
  | nil => rfl
  | cons last rest ih =>
    unfold insertLast
    split
    · exact (ih.cons last).trans (.swap item last rest)
    · rfl

theorem perm_sortItems (precedes : Item → Item → Bool) (items : List Item) :
    (sortItems precedes items).Perm items := by
  have hfold : ∀ items sorted : List Item,
      (items.foldl (fun sorted item => insertLast precedes item sorted) sorted).Perm
        (items ++ sorted) := by
    intro items
    induction items with
    | nil => exact fun sorted => .refl sorted
    | cons item rest ih =>
      intro sorted
      have hmoved := (@perm_insertLast precedes item sorted).append_left rest
      exact (ih _).trans (hmoved.trans List.perm_middle)
  have hsorted := hfold items []
  rw [List.append_nil] at hsorted
  exact (List.reverse_perm _).trans hsorted

/-- An item is put after none that is level with it. -/
theorem filter_insertLast (htrans : ∀ one two three, le one two → le two three → le one three)
    (hprecedes : ∀ last ∈ sorted, precedes item last = !le last item) (one : Item) :
    (insertLast precedes item sorted).filter (level le one) =
      (item :: sorted).filter (level le one) := by
  induction sorted with
  | nil => rfl
  | cons last rest ih =>
    have hrest := ih fun other hmem => hprecedes other (List.mem_cons_of_mem _ hmem)
    unfold insertLast
    split
    · rename_i hbefore
      rw [hprecedes last List.mem_cons_self, Bool.not_eq_true'] at hbefore
      rw [List.filter_cons, hrest]
      by_cases hlast : level le one last
      · have hitem : ¬ level le one item := by
          intro hitem
          simp only [level, Bool.and_eq_true] at hlast hitem
          rw [htrans _ _ _ hlast.2 hitem.1] at hbefore
          cases hbefore
        simp [hlast, hitem]
      · simp [List.filter_cons, hlast]
    · rfl

theorem pairwise_insertLast (htrans : ∀ one two three, le one two → le two three → le one three)
    (htotal : ∀ one other, le one other || le other one)
    (hprecedes : ∀ last ∈ sorted, precedes item last = !le last item)
    (hsorted : sorted.Pairwise fun later earlier => le earlier later) :
    (insertLast precedes item sorted).Pairwise fun later earlier => le earlier later := by
  induction sorted with
  | nil => exact List.pairwise_singleton _ _
  | cons last rest ih =>
    obtain ⟨hlast, hrest⟩ := List.pairwise_cons.mp hsorted
    have hbefore := hprecedes last List.mem_cons_self
    unfold insertLast
    split
    · rename_i htrue
      rw [htrue, eq_comm, Bool.not_eq_true'] at hbefore
      refine List.pairwise_cons.mpr ⟨fun other hother => ?_, ih
        (fun other hmem => hprecedes other (List.mem_cons_of_mem _ hmem)) hrest⟩
      rcases List.mem_cons.mp ((perm_insertLast item rest).mem_iff.mp hother) with rfl | hother
      · simpa [hbefore] using htotal last other
      · exact hlast other hother
    · rename_i hfalse
      rw [Bool.eq_false_iff.mpr hfalse, eq_comm, Bool.not_eq_false'] at hbefore
      refine List.pairwise_cons.mpr ⟨fun other hother => ?_, hsorted⟩
      rcases List.mem_cons.mp hother with rfl | hother
      · exact hbefore
      · exact htrans _ _ _ (hlast other hother) hbefore

/-- Sorting by insertion is the stable sort by a total order of the items. -/
theorem sortItems_eq_mergeSort (htrans : ∀ one two three, le one two → le two three → le one three)
    (htotal : ∀ one other, le one other || le other one)
    (hprecedes : ∀ one ∈ items, ∀ other ∈ items, precedes one other = !le other one) :
    sortItems precedes items = items.mergeSort le := by
  have hfold : ∀ held : List Item, (∀ item ∈ held, item ∈ items) →
      let sorted := held.foldl (fun sorted item => insertLast precedes item sorted) []
      sorted.Perm held ∧ sorted.Pairwise (fun later earlier => le earlier later) ∧
        ∀ one, sorted.filter (level le one) = held.reverse.filter (level le one) := by
    intro held hheld
    induction held using List.reverseRec with
    | nil => exact ⟨.nil, .nil, fun _ => rfl⟩
    | append_singleton held item ih =>
      obtain ⟨hperm, hsorted, hlevel⟩ := ih fun other hmem => hheld other (List.mem_append_left _ hmem)
      have hitem : ∀ last ∈ held.foldl (fun sorted item => insertLast precedes item sorted) [],
          precedes item last = !le last item := fun last hlast =>
        hprecedes item (hheld item (by simp)) last
          (hheld last (List.mem_append_left _ (hperm.mem_iff.mp hlast)))
      simp only [List.foldl_append, List.foldl_cons, List.foldl_nil, List.reverse_append,
        List.reverse_cons, List.reverse_nil, List.nil_append, List.singleton_append]
      refine ⟨?_, pairwise_insertLast htrans htotal hitem hsorted, fun one => ?_⟩
      · exact (perm_insertLast item _).trans ((hperm.cons item).trans (List.perm_append_singleton item held).symm)
      · rw [filter_insertLast htrans hitem, List.filter_cons, List.filter_cons, hlevel]
  obtain ⟨hperm, hsorted, hlevel⟩ := hfold items fun _ => id
  refine eq_of_sorted htotal ?_ (List.pairwise_reverse.mpr hsorted)
    (List.pairwise_mergeSort htrans htotal items) fun one => ?_
  · exact (List.reverse_perm _).trans (hperm.trans (List.mergeSort_perm items le).symm)
  · rw [filter_level_mergeSort htrans htotal, sortItems, List.filter_reverse, hlevel,
      ← List.filter_reverse, List.reverse_reverse]

end Insertion

/-! ### Range keys -/

/-- Range keys of one kind put the items in an order. -/
inductive RangeOrder (range : String) (items : List Item) : (Item → Item → Bool) → Prop
  | strings (text : Item → String) (hitems : ∀ item ∈ items, ∀ value,
      Item.get? item range = some value → value = .string (text item)) :
      RangeOrder range items fun left right => text left ≤ text right
  | binaries (bytes : Item → List UInt8) (hitems : ∀ item ∈ items, ∀ value,
      Item.get? item range = some value → value = .binary (bytes item)) :
      RangeOrder range items fun left right => bytes left ≤ bytes right
  | integers (number : Item → Int64) (hitems : ∀ item ∈ items, ∀ value,
      Item.get? item range = some value → ∃ text, value = .number text ∧
        Number.parse? text = some (.integer (number item))) :
      RangeOrder range items fun left right => (number left).toInt ≤ (number right).toInt

theorem RangeOrder.trans {range : String} {items : List Item} {ascends : Item → Item → Bool}
    (horder : RangeOrder range items ascends) (one two three : Item) (hfirst : ascends one two)
    (hsecond : ascends two three) : ascends one three := by
  cases horder with
  | strings =>
    exact decide_eq_true (String.le_trans (of_decide_eq_true hfirst) (of_decide_eq_true hsecond))
  | binaries =>
    exact decide_eq_true (List.le_trans (of_decide_eq_true hfirst) (of_decide_eq_true hsecond))
  | integers =>
    exact decide_eq_true (Int.le_trans (of_decide_eq_true hfirst) (of_decide_eq_true hsecond))

theorem RangeOrder.total {range : String} {items : List Item} {ascends : Item → Item → Bool}
    (horder : RangeOrder range items ascends) (one other : Item) :
    ascends one other || ascends other one := by
  cases horder with
  | strings text => simpa using String.le_total (text one) (text other)
  | binaries bytes => simpa using List.le_total (bytes one) (bytes other)
  | integers number => simpa using Int.le_total (number one).toInt (number other).toInt

theorem RangeOrder.rangePrecedes {range : String} {items : List Item}
    {ascends : Item → Item → Bool} (horder : RangeOrder range items ascends) {one other : Item}
    (hone : one ∈ items) (hother : other ∈ items) (honeRange : (Item.get? one range).isSome)
    (hotherRange : (Item.get? other range).isSome) :
    rangePrecedes range one other = !ascends other one := by
  obtain ⟨left, hleft⟩ := Option.isSome_iff_exists.mp honeRange
  obtain ⟨right, hright⟩ := Option.isSome_iff_exists.mp hotherRange
  rw [StoredTable.rangePrecedes, hleft, hright]
  cases horder with
  | strings text hitems =>
    rw [hitems one hone left hleft, hitems other hother right hright]
    simp only [Attribute.compare?, Option.some.injEq, compareOfLessAndEq_eq_lt, ← decide_not,
      String.not_le]
  | binaries bytes hitems =>
    rw [hitems one hone left hleft, hitems other hother right hright]
    simp only [Attribute.compare?, Option.some.injEq, compareOfLessAndEq_eq_lt, ← decide_not,
      List.not_le]
  | integers number hitems =>
    obtain ⟨text, rfl, htext⟩ := hitems one hone left hleft
    obtain ⟨otherText, rfl, hotherText⟩ := hitems other hother right hright
    simp [Attribute.compare?, Number.compare?, htext, hotherText, Int.compare_eq_lt, ← decide_not]

end StoredTable

end RecordStore
