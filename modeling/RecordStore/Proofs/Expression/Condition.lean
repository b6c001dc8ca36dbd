import Mathlib
import RecordStore.Proofs.Expression.Alias

/-!
# What conditions mean

A test asks about the attribute at a path, and groups combine what their members say. The text of a
condition is derived by the grammar, and the predicate that it is read as says of every item what
the condition means.
-/

namespace RecordStore

open Expression

/-! ### Meaning -/

/-- Whether a test holds of the attribute at its path, which may be absent. -/
def Test.holds (found : Option Attribute) : Test → Bool
  | .exists => found.isSome
  | .absent => found.isNone
  | .compare operator value =>
    match found with
    | some held => satisfies operator held value.bound
    | none => operator = .notEqual
  | .beginsWith start => found.any fun held => held.beginsWith (.string start)
  | .between low high => found.any fun held =>
    satisfies .greaterOrEqual held low.bound && satisfies .lessOrEqual held high.bound
  | .contains value => found.any fun held => held.contains value.bound
  | .lacks value => !found.any fun held => held.contains value.bound
  | .among candidates => found.any fun held =>
    candidates.any fun candidate => held.equal candidate.bound
  | .size operator count =>
    match found.bind Attribute.size? with
    | some held => satisfies operator (.number (toString held)) (.number (toString count.toNat))
    | none => operator = .notEqual

namespace Condition

mutual

/-- Whether a condition holds of an item: a test is made of the attribute at its path, all or some
of the members of a group must hold. -/
def holds (table : TableSchema) (item : Item) : Condition → Bool
  | .leaf path test =>
    match table.resolvePath path with
    | .ok segments => test.holds (Item.resolve? item segments)
    | .error _ => false
  | .all members => allHold table item members
  | .any members => anyHolds table item members
  | .not condition => !holds table item condition

def allHold (table : TableSchema) (item : Item) : List Condition → Bool
  | [] => true
  | member :: rest => holds table item member && allHold table item rest

def anyHolds (table : TableSchema) (item : Item) : List Condition → Bool
  | [] => false
  | member :: rest => holds table item member || anyHolds table item rest

end

end Condition

namespace Expression

/-- A text that is derived on a level and read as a predicate that says of every item what is
meant. -/
def Expresses (bindings : Bindings) (level : Level) (text : String) (meaning : Item → Bool) : Prop :=
  ∃ tokens predicate, Lexes text tokens ∧ ConditionTokens bindings level tokens predicate ∧
    ∀ item, predicate.holds item = .ok (meaning item)

variable {bindings : Bindings} {text left right : String} {meaning other : Item → Bool}

theorem Expresses.congr {level : Level} (hexpresses : Expresses bindings level text meaning)
    (hsame : ∀ item, meaning item = other item) : Expresses bindings level text other := by
  obtain ⟨tokens, predicate, hlexes, hderived, hholds⟩ := hexpresses
  refine ⟨tokens, predicate, hlexes, hderived, ?_⟩
  intro item
  rw [hholds, hsame]

theorem Expresses.conjunction (hexpresses : Expresses bindings .part text meaning) :
    Expresses bindings .conjunction text meaning := by
  obtain ⟨tokens, predicate, hlexes, hderived, hholds⟩ := hexpresses
  exact ⟨tokens, predicate, hlexes, .part hderived, hholds⟩

theorem Expresses.disjunction (hexpresses : Expresses bindings .conjunction text meaning) :
    Expresses bindings .disjunction text meaning := by
  obtain ⟨tokens, predicate, hlexes, hderived, hholds⟩ := hexpresses
  exact ⟨tokens, predicate, hlexes, .conjunction hderived, hholds⟩

/-- A text in parentheses after what it follows. -/
theorem Lexes.parenthesise {opening : String} {openingTokens tokens : List Token}
    (hopening : Lexes opening openingTokens) (hend : endsWithBreak opening = true)
    (htext : Lexes text tokens) :
    Lexes (opening ++ text ++ ")") (openingTokens ++ tokens ++ [.closeParen]) := by
  have hclose : Lexes ")" [.closeParen] := by cbv
  exact (hopening.append_of_ends htext hend).append_of_starts hclose (by decide)

theorem Expresses.group (hexpresses : Expresses bindings .disjunction text meaning) :
    Expresses bindings .part ("(" ++ text ++ ")") meaning := by
  obtain ⟨tokens, predicate, hlexes, hderived, hholds⟩ := hexpresses
  have hopen : Lexes "(" [.openParen] := by cbv
  exact ⟨_, predicate, hopen.parenthesise (by decide) hlexes, .group hderived, hholds⟩

theorem Predicate.holds_not {predicate : Predicate} {item : Item} {result : Bool}
    (hholds : predicate.holds item = .ok result) :
    (Predicate.not predicate).holds item = .ok (!result) := by
  rw [Predicate.holds, hholds]
  rfl

theorem Expresses.not (hexpresses : Expresses bindings .disjunction text meaning) :
    Expresses bindings .part ("NOT (" ++ text ++ ")") fun item => !meaning item := by
  obtain ⟨tokens, predicate, hlexes, hderived, hholds⟩ := hexpresses
  have hopen : Lexes "NOT (" [.word "NOT", .openParen] := by cbv
  exact ⟨_, _, hopen.parenthesise (by decide) hlexes, .not (.group hderived),
    fun item => Predicate.holds_not (hholds item)⟩

/-! ### Chains -/

theorem Predicate.holds_both {left right : Predicate} {item : Item} {leftResult rightResult : Bool}
    (hleft : left.holds item = .ok leftResult) (hright : right.holds item = .ok rightResult) :
    (Predicate.both left right).holds item = .ok (leftResult && rightResult) := by
  rw [Predicate.holds, hleft]
  cases leftResult with
  | false => rfl
  | true => exact hright

theorem Predicate.holds_either {left right : Predicate} {item : Item}
    {leftResult rightResult : Bool}
    (hleft : left.holds item = .ok leftResult) (hright : right.holds item = .ok rightResult) :
    (Predicate.either left right).holds item = .ok (leftResult || rightResult) := by
  rw [Predicate.holds, hleft]
  cases leftResult with
  | false => exact hright
  | true => rfl

/-- The parser joins from the left; a chain on the right is taken up member by member. -/
theorem ConditionTokens.both_chain {leftTokens rightTokens : List Token} {left right : Predicate}
    (hleft : ConditionTokens bindings .conjunction leftTokens left)
    (hright : ConditionTokens bindings .conjunction rightTokens right) :
    ∃ predicate, ConditionTokens bindings .conjunction (leftTokens ++ .word "AND" :: rightTokens)
        predicate ∧
      ∀ item, predicate.holds item = (Predicate.both left right).holds item := by
  generalize hlevel : Level.conjunction = level at hright
  induction hright with
  | part hpart => exact ⟨_, .both hleft hpart, fun _ => rfl⟩
  | @both firstTokens lastTokens first last _ hlast ih =>
    obtain ⟨predicate, hderived, hholds⟩ := ih rfl
    refine ⟨.both predicate last, ?_, ?_⟩
    · have hjoined := ConditionTokens.both hderived hlast
      rw [List.append_assoc, List.cons_append] at hjoined
      exact hjoined
    · intro item
      rw [Predicate.holds, hholds]
      simp only [Predicate.holds]
      cases left.holds item with
      | error fault => rfl
      | ok result => cases result <;> rfl
  | _ => cases hlevel

theorem ConditionTokens.either_chain {leftTokens rightTokens : List Token} {left right : Predicate}
    (hleft : ConditionTokens bindings .disjunction leftTokens left)
    (hright : ConditionTokens bindings .disjunction rightTokens right) :
    ∃ predicate, ConditionTokens bindings .disjunction (leftTokens ++ .word "OR" :: rightTokens)
        predicate ∧
      ∀ item, predicate.holds item = (Predicate.either left right).holds item := by
  generalize hlevel : Level.disjunction = level at hright
  induction hright with
  | conjunction hconjunction => exact ⟨_, .either hleft hconjunction, fun _ => rfl⟩
  | @either firstTokens lastTokens first last _ hlast ih =>
    obtain ⟨predicate, hderived, hholds⟩ := ih rfl
    refine ⟨.either predicate last, ?_, ?_⟩
    · have hjoined := ConditionTokens.either hderived hlast
      rw [List.append_assoc, List.cons_append] at hjoined
      exact hjoined
    · intro item
      rw [Predicate.holds, hholds]
      simp only [Predicate.holds]
      cases left.holds item with
      | error fault => rfl
      | ok result => cases result <;> rfl
  | _ => cases hlevel

theorem Expresses.both (hleft : Expresses bindings .conjunction left meaning)
    (hright : Expresses bindings .conjunction right other) :
    Expresses bindings .conjunction (left ++ " AND " ++ right) fun item =>
      meaning item && other item := by
  obtain ⟨leftTokens, leftPredicate, hleftLexes, hleftDerived, hleftHolds⟩ := hleft
  obtain ⟨rightTokens, rightPredicate, hrightLexes, hrightDerived, hrightHolds⟩ := hright
  obtain ⟨predicate, hderived, hholds⟩ := hleftDerived.both_chain hrightDerived
  have hand : Lexes " AND " [.word "AND"] := by cbv
  have hlexes := hleftLexes.separate hand hrightLexes (by decide) (by decide)
  rw [List.append_assoc, List.singleton_append] at hlexes
  refine ⟨_, predicate, hlexes, hderived, ?_⟩
  intro item
  rw [hholds]
  exact Predicate.holds_both (hleftHolds item) (hrightHolds item)

theorem Expresses.either (hleft : Expresses bindings .disjunction left meaning)
    (hright : Expresses bindings .disjunction right other) :
    Expresses bindings .disjunction (left ++ " OR " ++ right) fun item =>
      meaning item || other item := by
  obtain ⟨leftTokens, leftPredicate, hleftLexes, hleftDerived, hleftHolds⟩ := hleft
  obtain ⟨rightTokens, rightPredicate, hrightLexes, hrightDerived, hrightHolds⟩ := hright
  obtain ⟨predicate, hderived, hholds⟩ := hleftDerived.either_chain hrightDerived
  have hor : Lexes " OR " [.word "OR"] := by cbv
  have hlexes := hleftLexes.separate hor hrightLexes (by decide) (by decide)
  rw [List.append_assoc, List.singleton_append] at hlexes
  refine ⟨_, predicate, hlexes, hderived, ?_⟩
  intro item
  rw [hholds]
  exact Predicate.holds_either (hleftHolds item) (hrightHolds item)

/-- Texts joined by `AND` say that all of them hold. -/
theorem expresses_all {texts : List String} {meanings : List (Item → Bool)}
    (htexts : List.Forall₂ (Expresses bindings .conjunction) texts meanings) (hne : texts ≠ []) :
    Expresses bindings .conjunction (" AND ".intercalate texts) fun item =>
      meanings.all fun meaning => meaning item := by
  induction htexts with
  | nil => exact absurd rfl hne
  | @cons text meaning texts meanings htext hrest ih =>
    cases hrest with
    | nil =>
      rw [String.intercalate_singleton]
      exact htext.congr fun item => by simp
    | cons hnext hafter =>
      rw [String.intercalate_cons_cons]
      exact htext.both (ih (List.cons_ne_nil _ _))

theorem expresses_any {texts : List String} {meanings : List (Item → Bool)}
    (htexts : List.Forall₂ (Expresses bindings .disjunction) texts meanings) (hne : texts ≠ []) :
    Expresses bindings .disjunction (" OR ".intercalate texts) fun item =>
      meanings.any fun meaning => meaning item := by
  induction htexts with
  | nil => exact absurd rfl hne
  | @cons text meaning texts meanings htext hrest ih =>
    cases hrest with
    | nil =>
      rw [String.intercalate_singleton]
      exact htext.congr fun item => by simp
    | cons hnext hafter =>
      rw [String.intercalate_cons_cons]
      exact htext.either (ih (List.cons_ne_nil _ _))

/-! ### Tests -/

section Tests

variable {path : String} {segments : List String}

theorem IsValue.operand {value : Attribute} (hvalue : IsValue bindings text value) :
    OperandTokens bindings [.value text] (.value value) :=
  .value hvalue.bound

theorem lexes_comparator (operator : Comparator) :
    Lexes (" " ++ operator.text ++ " ") [.comparator operator] := by
  cases operator <;> cbv

theorem comparator_breaks (operator : Comparator) :
    startsWithBreak (" " ++ operator.text ++ " ") = true ∧
      endsWithBreak (" " ++ operator.text ++ " ") = true := by
  cases operator <;> decide

theorem expresses_exists (hpath : IsPath bindings path segments) :
    Expresses bindings .part ("attribute_exists(" ++ path ++ ")") fun item =>
      (Item.resolve? item segments).isSome := by
  obtain ⟨tokens, hlexes, htokens⟩ := hpath
  have hopen : Lexes "attribute_exists(" [.word "attribute_exists", .openParen] := by cbv
  exact ⟨_, _, hopen.parenthesise (by decide) hlexes, .exists htokens, fun _ => rfl⟩

theorem expresses_absent (hpath : IsPath bindings path segments) :
    Expresses bindings .part ("attribute_not_exists(" ++ path ++ ")") fun item =>
      (Item.resolve? item segments).isNone := by
  obtain ⟨tokens, hlexes, htokens⟩ := hpath
  have hopen : Lexes "attribute_not_exists(" [.word "attribute_not_exists", .openParen] := by cbv
  exact ⟨_, _, hopen.parenthesise (by decide) hlexes, .absent htokens, fun _ => rfl⟩

/-- What a comparison says of the attribute that may be absent on its left side. -/
def compares (operator : Comparator) (value : Attribute) : Option Attribute → Bool
  | some held => satisfies operator held value
  | none => operator = .notEqual

theorem lexes_compare (operator : Comparator) {leftTokens : List Token} {value : Attribute}
    (hleft : Lexes left leftTokens) (hvalue : IsValue bindings text value) :
    Lexes (left ++ " " ++ operator.text ++ " " ++ text)
      (leftTokens ++ .comparator operator :: [.value text]) := by
  obtain ⟨hstart, hend⟩ := comparator_breaks operator
  have hlexes := hleft.separate (lexes_comparator operator) hvalue.lexes hstart hend
  rw [List.append_assoc, List.singleton_append] at hlexes
  simp only [String.append_assoc] at hlexes ⊢
  exact hlexes

theorem expresses_compare (operator : Comparator) {value : Attribute}
    (hpath : IsPath bindings path segments) (hvalue : IsValue bindings text value) :
    Expresses bindings .part (path ++ " " ++ operator.text ++ " " ++ text) fun item =>
      compares operator value (Item.resolve? item segments) := by
  obtain ⟨tokens, hlexes, htokens⟩ := hpath
  refine ⟨_, _, lexes_compare operator hlexes hvalue, .compare (.path htokens) hvalue.operand, ?_⟩
  intro item
  rw [Predicate.holds]
  simp only [Operand.evaluate]
  cases Item.resolve? item segments <;> rfl

theorem expresses_size (operator : Comparator) {value : Attribute}
    (hpath : IsPath bindings path segments) (hvalue : IsValue bindings text value) :
    Expresses bindings .part ("size(" ++ path ++ ") " ++ operator.text ++ " " ++ text) fun item =>
      compares operator value (((Item.resolve? item segments).bind Attribute.size?).map
        fun count => .number (toString count)) := by
  obtain ⟨tokens, hlexes, htokens⟩ := hpath
  have hopen : Lexes "size(" [.word "size", .openParen] := by cbv
  have hshape : "size(" ++ path ++ ") " ++ operator.text ++ " " ++ text =
      "size(" ++ path ++ ")" ++ " " ++ operator.text ++ " " ++ text := by
    have hclose : ") " = ")" ++ " " := rfl
    rw [hclose, ← String.append_assoc]
  rw [hshape]
  refine ⟨_, _, lexes_compare operator (hopen.parenthesise (by decide) hlexes) hvalue,
    .compare (.size htokens) hvalue.operand, ?_⟩
  intro item
  rw [Predicate.holds]
  simp only [Operand.evaluate]
  cases (Item.resolve? item segments).bind Attribute.size? <;> rfl

theorem expresses_between {lowText highText : String} {low high : Attribute}
    (hpath : IsPath bindings path segments) (hlow : IsValue bindings lowText low)
    (hhigh : IsValue bindings highText high) :
    Expresses bindings .part (path ++ " BETWEEN " ++ lowText ++ " AND " ++ highText) fun item =>
      (Item.resolve? item segments).any fun held =>
        satisfies .greaterOrEqual held low && satisfies .lessOrEqual held high := by
  obtain ⟨tokens, hlexes, htokens⟩ := hpath
  have hbetween : Lexes " BETWEEN " [.word "BETWEEN"] := by cbv
  have hand : Lexes " AND " [.word "AND"] := by cbv
  have hfirst := hlexes.separate hbetween hlow.lexes (by decide) (by decide)
  have hall := hfirst.separate hand hhigh.lexes (by decide) (by decide)
  simp only [List.append_assoc, List.singleton_append] at hall
  refine ⟨_, _, hall, .between (.path htokens) hlow.operand hhigh.operand, ?_⟩
  intro item
  rw [Predicate.holds]
  simp only [Operand.evaluate]
  cases Item.resolve? item segments <;> rfl

/-- A function of an attribute and a value. -/
theorem lexes_function {opening word : String} {value : Attribute} {tokens : List Token}
    (hopening : Lexes opening [.word word, .openParen]) (hend : endsWithBreak opening = true)
    (hpath : Lexes path tokens) (hvalue : IsValue bindings text value) :
    Lexes (opening ++ path ++ ", " ++ text ++ ")")
      (.word word :: .openParen :: (tokens ++ .comma :: ([.value text] ++ [.closeParen]))) := by
  have hcomma : Lexes ", " [.comma] := by cbv
  have hpair := hpath.separate hcomma hvalue.lexes (by decide) (by decide)
  have hall := hopening.parenthesise hend hpair
  rw [← String.append_assoc, ← String.append_assoc] at hall
  simpa using hall

theorem expresses_beginsWith {value : Attribute}
    (hpath : IsPath bindings path segments) (hvalue : IsValue bindings text value) :
    Expresses bindings .part ("begins_with(" ++ path ++ ", " ++ text ++ ")") fun item =>
      (Item.resolve? item segments).any fun held => held.beginsWith value := by
  obtain ⟨tokens, hlexes, htokens⟩ := hpath
  have hopen : Lexes "begins_with(" [.word "begins_with", .openParen] := by cbv
  refine ⟨_, _, lexes_function hopen (by decide) hlexes hvalue,
    .beginsWith (.path htokens) hvalue.operand, ?_⟩
  intro item
  rw [Predicate.holds]
  simp only [Operand.evaluate]
  cases Item.resolve? item segments <;> rfl

theorem expresses_contains {value : Attribute}
    (hpath : IsPath bindings path segments) (hvalue : IsValue bindings text value) :
    Expresses bindings .part ("contains(" ++ path ++ ", " ++ text ++ ")") fun item =>
      (Item.resolve? item segments).any fun held => held.contains value := by
  obtain ⟨tokens, hlexes, htokens⟩ := hpath
  have hopen : Lexes "contains(" [.word "contains", .openParen] := by cbv
  refine ⟨_, _, lexes_function hopen (by decide) hlexes hvalue,
    .contains (.path htokens) hvalue.operand, ?_⟩
  intro item
  rw [Predicate.holds]
  simp only [Operand.evaluate]
  cases Item.resolve? item segments <;> rfl

/-- `NOT` before a part that stands without parentheses. -/
theorem expresses_lacks {value : Attribute}
    (hpath : IsPath bindings path segments) (hvalue : IsValue bindings text value) :
    Expresses bindings .part ("NOT contains(" ++ path ++ ", " ++ text ++ ")") fun item =>
      !(Item.resolve? item segments).any fun held => held.contains value := by
  obtain ⟨tokens, predicate, hlexes, hderived, hholds⟩ := expresses_contains hpath hvalue
  have hnot : Lexes "NOT " [.word "NOT"] := by cbv
  have hall := hnot.append_of_ends hlexes (by decide)
  have hshape : "NOT " ++ ("contains(" ++ path ++ ", " ++ text ++ ")") =
      "NOT contains(" ++ path ++ ", " ++ text ++ ")" := by
    have hopen : "NOT contains(" = "NOT " ++ "contains(" := rfl
    rw [hopen]
    simp only [String.append_assoc]
  rw [hshape] at hall
  exact ⟨_, _, hall, .not hderived, fun item => Predicate.holds_not (hholds item)⟩

theorem candidateTokens_of_values {texts : List String} {values : List Attribute}
    (hvalues : List.Forall₂ (IsValue bindings) texts values) (hne : texts ≠ []) :
    CandidateTokens bindings ([.comma].intercalate (texts.map fun text => [.value text]))
      (values.map .value) := by
  induction hvalues with
  | nil => exact absurd rfl hne
  | @cons text value texts values hvalue hrest ih =>
    cases hrest with
    | nil => exact .last hvalue.operand
    | cons hnext hafter =>
      have hstep := CandidateTokens.step hvalue.operand (ih (List.cons_ne_nil _ _))
      rw [List.map_cons, List.map_cons, List.intercalate_cons_cons, List.append_assoc,
        List.singleton_append]
      exact hstep

theorem isAmong_values (item : Item) (held : Attribute) (values : List Attribute) :
    isAmong item held (values.map .value) = .ok (values.any fun value => held.equal value) := by
  induction values with
  | nil => rfl
  | cons value rest ih =>
    rw [List.map_cons, isAmong, Operand.evaluate, List.any_cons]
    change (if held.equal value = true then _ else _) = _
    cases held.equal value with
    | true => rfl
    | false => exact ih

theorem expresses_among {texts : List String} {values : List Attribute}
    (hpath : IsPath bindings path segments)
    (hvalues : List.Forall₂ (IsValue bindings) texts values) (hne : texts ≠ []) :
    Expresses bindings .part (path ++ " IN (" ++ ", ".intercalate texts ++ ")") fun item =>
      (Item.resolve? item segments).any fun held => values.any fun value => held.equal value := by
  obtain ⟨tokens, hlexes, htokens⟩ := hpath
  have hin : Lexes " IN (" [.word "IN", .openParen] := by cbv
  have hcomma : Lexes ", " [.comma] := by cbv
  have hpieces : List.Forall₂ Lexes texts (texts.map fun text => [.value text]) := by
    clear hne
    induction hvalues with
    | nil => exact .nil
    | cons hvalue _ ih => exact .cons hvalue.lexes ih
  have hcandidates := lexes_intercalate hpieces hcomma (by decide) (by decide)
  have hopening := hlexes.append_of_starts hin (by decide)
  have hend : endsWithBreak (path ++ " IN (") = true := by
    simp [endsWithBreak, isBreak]
  have hall := hopening.parenthesise hend hcandidates
  rw [List.append_assoc, List.append_assoc] at hall
  refine ⟨_, _, hall, .among (.path htokens) (candidateTokens_of_values hvalues hne), ?_⟩
  intro item
  rw [Predicate.holds]
  simp only [Operand.evaluate]
  cases Item.resolve? item segments with
  | none => rfl
  | some held => exact isAmong_values item held values

end Tests

theorem ensures_bind (value : Value) :
    Rendering.Ensures (liftM (Expression.bind value)) fun bindings text =>
      IsValue bindings text value.bound :=
  ensures_value value.bound

theorem ensures_mapM {α β : Type} {computation : α → Rendering β}
    {property : Bindings → α → β → Prop} (items : List α)
    (hitems : ∀ item, (computation item).Ensures fun bindings => property bindings item) :
    Rendering.Ensures (items.mapM computation) fun bindings results =>
      List.Forall₂ (fun result item => property bindings item result) results items := by
  induction items with
  | nil => exact .pure fun _ => .nil
  | cons item rest ih =>
    rw [List.mapM_cons]
    refine .bind (hitems item) fun result => ?_
    refine .bind ih fun results => ?_
    exact .pure fun bindings hrest hitem => .cons hitem hrest

/-- The text of a test says what the test asks of the attribute at its path. -/
theorem Test.ensures_render (test : Test) (path : String) (segments : List String) :
    (test.render path).Ensures fun bindings text => IsPath bindings path segments →
      Expresses bindings .part text fun item => test.holds (Item.resolve? item segments) := by
  cases test with
  | «exists» => exact .pure fun _ => expresses_exists
  | absent => exact .pure fun _ => expresses_absent
  | compare operator value =>
    refine .bind (ensures_bind value) fun text => .pure ?_
    intro bindings hvalue hpath
    refine (expresses_compare operator hpath hvalue).congr ?_
    intro item
    unfold compares Test.holds
    rfl
  | beginsWith start =>
    refine .bind (ensures_bind (.string start)) fun text => .pure ?_
    intro bindings hvalue hpath
    exact expresses_beginsWith hpath hvalue
  | between low high =>
    refine .bind (ensures_bind low) fun lowText => .bind (ensures_bind high) fun highText =>
      .pure ?_
    intro bindings hhigh hlow hpath
    exact expresses_between hpath hlow hhigh
  | contains value =>
    refine .bind (ensures_bind value) fun text => .pure ?_
    intro bindings hvalue hpath
    exact expresses_contains hpath hvalue
  | lacks value =>
    refine .bind (ensures_bind value) fun text => .pure ?_
    intro bindings hvalue hpath
    exact expresses_lacks hpath hvalue
  | among candidates =>
    unfold Test.render
    cases candidates with
    | nil => exact .throw _
    | cons candidate rest =>
      refine .bind (ensures_mapM (candidate :: rest) ensures_bind) fun texts => .pure ?_
      intro bindings htexts hpath
      have hne : texts ≠ [] := by
        rintro rfl
        cases htexts
      refine (expresses_among hpath (List.forall₂_map_right_iff.mpr htexts) hne).congr ?_
      intro item
      simp only [List.any_map]
      rfl
  | size operator count =>
    refine .bind (ensures_value _) fun text => .pure ?_
    intro bindings hvalue hpath
    refine (expresses_size operator hpath hvalue).congr ?_
    intro item
    unfold compares Test.holds
    cases (Item.resolve? item segments).bind Attribute.size? <;> rfl

end Expression

/-! ### Conditions -/

namespace Condition

variable {table : TableSchema}

/-- The level on which the text of a condition is derived. -/
def level : Condition → Level
  | .all members => if members.length > 1 then .conjunction else .part
  | .any members => if members.length > 1 then .disjunction else .part
  | _ => .part

theorem level_of_not_composite {condition : Condition} (hsimple : condition.isComposite = false) :
    condition.level = .part := by
  cases condition with
  | all members | any members =>
    have hlength : ¬ members.length > 1 := of_decide_eq_false hsimple
    rw [level, if_neg hlength]
  | leaf | not => rfl

theorem allHold_eq (item : Item) (members : List Condition) :
    allHold table item members =
      (members.map fun member item => member.holds table item).all fun meaning => meaning item := by
  induction members with
  | nil => rfl
  | cons member rest ih => rw [allHold, ih]; rfl

theorem anyHolds_eq (item : Item) (members : List Condition) :
    anyHolds table item members =
      (members.map fun member item => member.holds table item).any fun meaning => meaning item := by
  induction members with
  | nil => rfl
  | cons member rest ih => rw [anyHolds, ih]; rfl

end Condition

namespace Expression

theorem Expresses.of_level {level : Level} (hexpresses : Expresses bindings level text meaning) :
    Expresses bindings .disjunction text meaning := by
  cases level with
  | part => exact hexpresses.conjunction.disjunction
  | conjunction => exact hexpresses.disjunction
  | disjunction => exact hexpresses

/-- A member of a group is derived as a part, in parentheses where it joins members itself. -/
theorem Expresses.member {condition : Condition}
    (hexpresses : Expresses bindings condition.level text meaning) :
    Expresses bindings .part (if condition.isComposite then "(" ++ text ++ ")" else text)
      meaning := by
  split
  · exact hexpresses.of_level.group
  · rename_i hsimple
    rw [Condition.level_of_not_composite (by simpa using hsimple)] at hexpresses
    exact hexpresses

theorem resolvePath_ne_nil {table : TableSchema} {path : String} {segments : List String}
    (hresolve : table.resolvePath path = .ok segments) : segments ≠ [] := by
  have hparts : ∀ characters pending, Path.segments pending characters ≠ [] := by
    intro characters
    induction characters with
    | nil => intro pending; simp [Path.segments]
    | cons character rest ih =>
      intro pending
      unfold Path.segments
      split
      · exact List.cons_ne_nil _ _
      · exact List.cons_ne_nil _ _
      · rename_i _ hcons
        rw [List.cons.injEq] at hcons
        rw [← hcons.2]
        exact ih _
  unfold TableSchema.resolvePath at hresolve
  cases hpath : Path.segments [] path.toList with
  | nil => exact absurd hpath (hparts _ _)
  | cons first rest =>
    rw [hpath, TableSchema.resolveSegments, bind_eq_ok_iff] at hresolve
    obtain ⟨⟨name, scope⟩, _, hnames⟩ := hresolve
    obtain ⟨names, _, hsegments⟩ := bind_eq_ok_iff.mp hnames
    cases hsegments
    exact List.cons_ne_nil _ _

section Groups

variable {texts : List String} {meanings : List (Item → Bool)}

theorem expresses_allMembers (htexts : List.Forall₂ (Expresses bindings .part) texts meanings)
    (hne : texts ≠ []) :
    Expresses bindings (if texts.length > 1 then .conjunction else .part)
      (" AND ".intercalate texts) fun item => meanings.all fun meaning => meaning item := by
  split
  · exact expresses_all (htexts.imp fun _ _ => Expresses.conjunction) hne
  · rename_i hsingle
    cases htexts with
    | nil => exact absurd rfl hne
    | cons htext hrest =>
      cases hrest with
      | nil =>
        rw [String.intercalate_singleton]
        exact htext.congr fun item => by simp
      | cons => exact absurd (by simp) hsingle

theorem expresses_anyMember (htexts : List.Forall₂ (Expresses bindings .part) texts meanings)
    (hne : texts ≠ []) :
    Expresses bindings (if texts.length > 1 then .disjunction else .part)
      (" OR ".intercalate texts) fun item => meanings.any fun meaning => meaning item := by
  split
  · exact expresses_any (htexts.imp fun _ _ htext => htext.conjunction.disjunction) hne
  · rename_i hsingle
    cases htexts with
    | nil => exact absurd rfl hne
    | cons htext hrest =>
      cases hrest with
      | nil =>
        rw [String.intercalate_singleton]
        exact htext.congr fun item => by simp
      | cons => exact absurd (by simp) hsingle

end Groups

mutual

/-- The text of a condition is derived on the level of the condition and says what it means. -/
theorem ensures_render (table : TableSchema) : ∀ condition : Condition,
    (condition.render table).Ensures fun bindings text =>
      Expresses bindings condition.level text fun item => condition.holds table item
  | .leaf path test => by
    unfold Condition.render
    refine .bind_except fun segments hresolve => ?_
    refine .bind (ensures_path (resolvePath_ne_nil hresolve)) fun text => ?_
    refine (Test.ensures_render test text segments).mono ?_
    intro bindings result hexpresses hpath
    refine (hexpresses hpath).congr ?_
    intro item
    rw [Condition.holds, hresolve]
  | .all [] => .throw _
  | .all (member :: rest) => by
    unfold Condition.render
    refine .bind (ensures_renderMembers table (member :: rest)) fun texts => .pure ?_
    intro bindings htexts
    simp only [Condition.holds, Condition.allHold_eq]
    have hlength := htexts.length_eq
    rw [List.length_map] at hlength
    rw [Condition.level, ← hlength]
    refine expresses_allMembers htexts ?_
    rintro rfl
    cases hlength
  | .any [] => .throw _
  | .any (member :: rest) => by
    unfold Condition.render
    refine .bind (ensures_renderMembers table (member :: rest)) fun texts => .pure ?_
    intro bindings htexts
    simp only [Condition.holds, Condition.anyHolds_eq]
    have hlength := htexts.length_eq
    rw [List.length_map] at hlength
    rw [Condition.level, ← hlength]
    refine expresses_anyMember htexts ?_
    rintro rfl
    cases hlength
  | .not condition => by
    unfold Condition.render
    refine .bind (ensures_render table condition) fun text => .pure ?_
    intro bindings hexpresses
    exact hexpresses.of_level.not

theorem ensures_renderMembers (table : TableSchema) : ∀ members : List Condition,
    (Condition.renderMembers table members).Ensures fun bindings texts =>
      List.Forall₂ (Expresses bindings .part) texts
        (members.map fun member item => member.holds table item)
  | [] => by
    unfold Condition.renderMembers
    exact .pure fun _ => .nil
  | member :: rest => by
    unfold Condition.renderMembers
    refine .bind (ensures_render table member) fun text => ?_
    refine .bind (ensures_renderMembers table rest) fun texts => .pure ?_
    intro bindings hrest hmember
    exact .cons hmember.member hrest

end

end Expression

end RecordStore
