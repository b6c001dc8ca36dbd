import Mathlib
import RecordStore.Expression.Parser

/-!
# The grammar of conditions

Conditions derived by a grammar with three levels: parts, which `NOT` may stand before, parts joined
by `AND`, and these joined by `OR`. The parser reads every derivation as the predicate that it
derives, given at least as large a bound as there are tokens.
-/

namespace RecordStore.Expression

open Parsing

variable {bindings : Bindings}

/-- Segments named by placeholders, with points between them. -/
inductive PathTokens (bindings : Bindings) : List Token → List String → Prop
  | last {placeholder segment : String}
      (hsegment : Entries.find? bindings.names placeholder = some segment) :
      PathTokens bindings [.name placeholder] [segment]
  | step {placeholder segment : String} {tokens : List Token} {segments : List String}
      (hsegment : Entries.find? bindings.names placeholder = some segment)
      (hrest : PathTokens bindings tokens segments) :
      PathTokens bindings (.name placeholder :: .dot :: tokens) (segment :: segments)

inductive OperandTokens (bindings : Bindings) : List Token → Operand → Prop
  | path {tokens : List Token} {segments : List String} (hpath : PathTokens bindings tokens segments) :
      OperandTokens bindings tokens (.path segments)
  | value {placeholder : String} {value : Attribute}
      (hvalue : Entries.find? bindings.values placeholder = some value) :
      OperandTokens bindings [.value placeholder] (.value value)
  | size {tokens : List Token} {segments : List String}
      (hpath : PathTokens bindings tokens segments) :
      OperandTokens bindings (.word "size" :: .openParen :: (tokens ++ [.closeParen]))
        (.size segments)
  | orElse {pathTokens tokens : List Token} {segments : List String} {fallback : Operand}
      (hpath : PathTokens bindings pathTokens segments)
      (hfallback : OperandTokens bindings tokens fallback) :
      OperandTokens bindings
        (.word "if_not_exists" :: .openParen :: (pathTokens ++ .comma :: (tokens ++ [.closeParen])))
        (.orElse segments fallback)
  | append {leftTokens rightTokens : List Token} {left right : Operand}
      (hleft : OperandTokens bindings leftTokens left)
      (hright : OperandTokens bindings rightTokens right) :
      OperandTokens bindings
        (.word "list_append" :: .openParen ::
          (leftTokens ++ .comma :: (rightTokens ++ [.closeParen])))
        (.append left right)

/-- The operands within the parentheses of `IN`. -/
inductive CandidateTokens (bindings : Bindings) : List Token → List Operand → Prop
  | last {tokens : List Token} {operand : Operand}
      (hoperand : OperandTokens bindings tokens operand) :
      CandidateTokens bindings tokens [operand]
  | step {tokens restTokens : List Token} {operand : Operand} {operands : List Operand}
      (hoperand : OperandTokens bindings tokens operand)
      (hrest : CandidateTokens bindings restTokens operands) :
      CandidateTokens bindings (tokens ++ .comma :: restTokens) (operand :: operands)

inductive Level where
  | part
  | conjunction
  | disjunction

inductive ConditionTokens (bindings : Bindings) : Level → List Token → Predicate → Prop
  | compare {leftTokens rightTokens : List Token} {left right : Operand} {operator : Comparator}
      (hleft : OperandTokens bindings leftTokens left)
      (hright : OperandTokens bindings rightTokens right) :
      ConditionTokens bindings .part (leftTokens ++ .comparator operator :: rightTokens)
        (.compare left operator right)
  | between {subjectTokens lowTokens highTokens : List Token} {subject low high : Operand}
      (hsubject : OperandTokens bindings subjectTokens subject)
      (hlow : OperandTokens bindings lowTokens low)
      (hhigh : OperandTokens bindings highTokens high) :
      ConditionTokens bindings .part
        (subjectTokens ++ .word "BETWEEN" :: (lowTokens ++ .word "AND" :: highTokens))
        (.between subject low high)
  | among {subjectTokens tokens : List Token} {subject : Operand} {candidates : List Operand}
      (hsubject : OperandTokens bindings subjectTokens subject)
      (hcandidates : CandidateTokens bindings tokens candidates) :
      ConditionTokens bindings .part
        (subjectTokens ++ .word "IN" :: .openParen :: (tokens ++ [.closeParen]))
        (.among subject candidates)
  | exists {tokens : List Token} {segments : List String}
      (hpath : PathTokens bindings tokens segments) :
      ConditionTokens bindings .part
        (.word "attribute_exists" :: .openParen :: (tokens ++ [.closeParen])) (.exists segments)
  | absent {tokens : List Token} {segments : List String}
      (hpath : PathTokens bindings tokens segments) :
      ConditionTokens bindings .part
        (.word "attribute_not_exists" :: .openParen :: (tokens ++ [.closeParen])) (.absent segments)
  | beginsWith {subjectTokens startTokens : List Token} {subject start : Operand}
      (hsubject : OperandTokens bindings subjectTokens subject)
      (hstart : OperandTokens bindings startTokens start) :
      ConditionTokens bindings .part
        (.word "begins_with" :: .openParen ::
          (subjectTokens ++ .comma :: (startTokens ++ [.closeParen])))
        (.beginsWith subject start)
  | contains {containerTokens elementTokens : List Token} {container element : Operand}
      (hcontainer : OperandTokens bindings containerTokens container)
      (helement : OperandTokens bindings elementTokens element) :
      ConditionTokens bindings .part
        (.word "contains" :: .openParen ::
          (containerTokens ++ .comma :: (elementTokens ++ [.closeParen])))
        (.contains container element)
  | not {tokens : List Token} {predicate : Predicate}
      (hpart : ConditionTokens bindings .part tokens predicate) :
      ConditionTokens bindings .part (.word "NOT" :: tokens) (.not predicate)
  | group {tokens : List Token} {predicate : Predicate}
      (hnested : ConditionTokens bindings .disjunction tokens predicate) :
      ConditionTokens bindings .part (.openParen :: (tokens ++ [.closeParen])) predicate
  | part {tokens : List Token} {predicate : Predicate}
      (hpart : ConditionTokens bindings .part tokens predicate) :
      ConditionTokens bindings .conjunction tokens predicate
  | both {leftTokens rightTokens : List Token} {left right : Predicate}
      (hleft : ConditionTokens bindings .conjunction leftTokens left)
      (hright : ConditionTokens bindings .part rightTokens right) :
      ConditionTokens bindings .conjunction (leftTokens ++ .word "AND" :: rightTokens)
        (.both left right)
  | conjunction {tokens : List Token} {predicate : Predicate}
      (hconjunction : ConditionTokens bindings .conjunction tokens predicate) :
      ConditionTokens bindings .disjunction tokens predicate
  | either {leftTokens rightTokens : List Token} {left right : Predicate}
      (hleft : ConditionTokens bindings .disjunction leftTokens left)
      (hright : ConditionTokens bindings .conjunction rightTokens right) :
      ConditionTokens bindings .disjunction (leftTokens ++ .word "OR" :: rightTokens)
        (.either left right)

/-! ### Reading paths and operands -/

theorem bind_read {α β : Type} {parser : Parsing α} {next : α → Parsing β} {tokens rest : List Token}
    {result : α} (hread : parser tokens = .ok (result, rest)) :
    (parser >>= next) tokens = next result rest := by
  change (parser tokens >>= fun read => next read.1 read.2) = _
  rw [hread]
  rfl

theorem expect_read (token : Token) (rest : List Token) :
    expect token (token :: rest) = .ok ((), rest) := by
  have hnext : next (token :: rest) = .ok (some token, rest) := rfl
  unfold expect
  rw [bind_read hnext, if_neg (by simp)]
  rfl

/-- What cannot go on a path. -/
def EndsPath (rest : List Token) : Prop :=
  rest.head? ≠ some .dot

theorem endsPath_cons (token : Token) (rest : List Token) (htoken : token ≠ .dot) :
    EndsPath (token :: rest) := by
  simpa [EndsPath] using htoken

theorem PathTokens.read {tokens : List Token} {segments : List String}
    (hpath : PathTokens bindings tokens segments) {rest : List Token} (hrest : EndsPath rest) :
    path bindings (tokens ++ rest) = .ok (segments, rest) := by
  induction hpath with
  | last hsegment =>
    cases rest with
    | nil =>
      simp only [List.append_nil, path, segment, hsegment]
      rfl
    | cons token rest =>
      rw [List.singleton_append, path]
      · simp only [segment, hsegment]
        rfl
      · simp_all [EndsPath]
  | step hsegment _ ih =>
    rw [List.cons_append, List.cons_append, path]
    simp only [segment, hsegment, ih]
    rfl

theorem PathTokens.startsWithName {tokens : List Token} {segments : List String}
    (hpath : PathTokens bindings tokens segments) :
    ∃ placeholder rest, tokens = .name placeholder :: rest := by
  cases hpath with
  | last => exact ⟨_, _, rfl⟩
  | step => exact ⟨_, _, rfl⟩

theorem PathTokens.read_operand {tokens : List Token} {segments : List String}
    (hpath : PathTokens bindings tokens segments) (bound : Nat) {rest : List Token}
    (hrest : EndsPath rest) :
    operand bindings bound (tokens ++ rest) = .ok (.path segments, rest) := by
  have hread := hpath.read hrest
  obtain ⟨placeholder, after, rfl⟩ := hpath.startsWithName
  have hsimple : simpleOperand bindings (.name placeholder :: after ++ rest) =
      .ok (.path segments, rest) := by
    change (path bindings (.name placeholder :: after ++ rest) >>= fun read =>
      pure (Operand.path read.1, read.2)) = _
    rw [hread]
    rfl
  cases bound with
  | zero => exact hsimple
  | succ bound => exact hsimple

theorem value_read_operand {placeholder : String} {value : Attribute}
    (hvalue : Entries.find? bindings.values placeholder = some value) (bound : Nat)
    (rest : List Token) :
    operand bindings bound (.value placeholder :: rest) = .ok (.value value, rest) := by
  have hsimple : simpleOperand bindings (.value placeholder :: rest) =
      .ok (.value value, rest) := by
    simp only [simpleOperand, Item.get?, hvalue]
  cases bound with
  | zero => exact hsimple
  | succ bound => exact hsimple

theorem OperandTokens.read {tokens : List Token} {result : Operand}
    (hoperand : OperandTokens bindings tokens result) (bound : Nat)
    (hbound : tokens.length ≤ bound) {rest : List Token} (hrest : EndsPath rest) :
    operand bindings bound (tokens ++ rest) = .ok (result, rest) := by
  induction hoperand generalizing bound rest with
  | path hpath => exact hpath.read_operand bound hrest
  | value hvalue => exact value_read_operand hvalue bound rest
  | @size tokens segments hpath =>
    obtain ⟨bound, rfl⟩ : ∃ smaller, bound = smaller + 1 := ⟨bound - 1, by simp at hbound; omega⟩
    have hread := hpath.read (endsPath_cons .closeParen rest (by decide))
    change ((do
      let path ← Expression.path bindings
      expect .closeParen
      return .size path : Parsing Operand) (tokens ++ [.closeParen] ++ rest)) = _
    rw [List.append_assoc, List.singleton_append, bind_read hread, bind_read (expect_read _ _)]
    rfl
  | @orElse pathTokens tokens segments fallback hpath _ ih =>
    obtain ⟨bound, rfl⟩ : ∃ smaller, bound = smaller + 1 := ⟨bound - 1, by simp at hbound; omega⟩
    have hread := hpath.read (endsPath_cons .comma
      (tokens ++ .closeParen :: rest) (by decide))
    have hfallback := ih bound (by simp at hbound; omega)
      (endsPath_cons .closeParen rest (by decide))
    change ((do
      let path ← Expression.path bindings
      expect .comma
      let fallback ← operand bindings bound
      expect .closeParen
      return .orElse path fallback : Parsing Operand)
        (pathTokens ++ .comma :: (tokens ++ [.closeParen]) ++ rest)) = _
    rw [List.append_assoc, List.cons_append, List.append_assoc, List.singleton_append,
      bind_read hread, bind_read (expect_read _ _), bind_read hfallback,
      bind_read (expect_read _ _)]
    rfl
  | @append leftTokens rightTokens left right _ _ ihLeft ihRight =>
    obtain ⟨bound, rfl⟩ : ∃ smaller, bound = smaller + 1 := ⟨bound - 1, by simp at hbound; omega⟩
    have hleft := ihLeft bound (by simp at hbound; omega)
      (endsPath_cons .comma (rightTokens ++ .closeParen :: rest) (by decide))
    have hright := ihRight bound (by simp at hbound; omega)
      (endsPath_cons .closeParen rest (by decide))
    change ((do
      let left ← operand bindings bound
      expect .comma
      let right ← operand bindings bound
      expect .closeParen
      return .append left right : Parsing Operand)
        (leftTokens ++ .comma :: (rightTokens ++ [.closeParen]) ++ rest)) = _
    rw [List.append_assoc, List.cons_append, List.append_assoc, List.singleton_append,
      bind_read hleft, bind_read (expect_read _ _), bind_read hright,
      bind_read (expect_read _ _)]
    rfl

/-! ### Reading conditions -/

theorem CandidateTokens.read {tokens : List Token} {operands : List Operand}
    (hcandidates : CandidateTokens bindings tokens operands) {bound : Nat} {limit : Nat}
    (hbound : tokens.length ≤ bound) (hlimit : tokens.length ≤ limit) (rest : List Token) :
    separated (operand bindings bound) limit (tokens ++ .closeParen :: rest) =
      .ok (operands, .closeParen :: rest) := by
  induction hcandidates generalizing limit with
  | @last tokens result hoperand =>
    have hread := hoperand.read bound hbound (endsPath_cons .closeParen rest (by decide))
    cases limit with
    | zero => 
      unfold separated
      rw [bind_read hread]
      rfl
    | succ limit =>
      unfold separated
      rw [bind_read hread]
      rfl
  | @step tokens restTokens result operands hoperand hrest ih =>
    have hlength : tokens.length + 1 + restTokens.length ≤ bound ∧
        tokens.length + 1 + restTokens.length ≤ limit := by
      simp only [List.length_append, List.length_cons] at hbound hlimit
      omega
    obtain ⟨limit, rfl⟩ : ∃ smaller, limit = smaller + 1 := ⟨limit - 1, by omega⟩
    have hread := hoperand.read bound (by omega)
      (endsPath_cons .comma (restTokens ++ .closeParen :: rest) (by decide))
    have hcomma : take .comma (.comma :: (restTokens ++ .closeParen :: rest)) =
        .ok (true, restTokens ++ .closeParen :: rest) := rfl
    unfold separated
    rw [List.append_assoc, List.cons_append, bind_read hread, bind_read hcomma, if_pos rfl,
      bind_read (ih (by omega) (by omega))]
    rfl

theorem OperandTokens.not_openParen {tokens : List Token} {operand : Operand}
    (hoperand : OperandTokens bindings tokens operand) (rest : List Token) :
    take .openParen (tokens ++ rest) = .ok (false, tokens ++ rest) := by
  cases hoperand with
  | path hpath =>
    obtain ⟨placeholder, after, rfl⟩ := hpath.startsWithName
    rfl
  | _ => rfl

theorem OperandTokens.not_negated {tokens : List Token} {operand : Operand}
    (hoperand : OperandTokens bindings tokens operand) (parser : Parsing Predicate)
    (rest : List Token) : negation parser (tokens ++ rest) = parser (tokens ++ rest) := by
  cases hoperand with
  | path hpath =>
    obtain ⟨placeholder, after, rfl⟩ := hpath.startsWithName
    rfl
  | _ => rfl

/-- An operand begins none of the functions that are conditions by themselves. -/
theorem OperandTokens.read_comparison {tokens : List Token} {left : Operand}
    (hoperand : OperandTokens bindings tokens left) {bound : Nat} (hbound : tokens.length ≤ bound)
    {rest : List Token} (hrest : EndsPath rest) :
    simpleCondition bindings bound (tokens ++ rest) =
      Expression.comparison bindings bound left rest := by
  have hread := hoperand.read bound hbound hrest
  have hsimple : simpleCondition bindings bound (tokens ++ rest) =
      (operand bindings bound >>= Expression.comparison bindings bound) (tokens ++ rest) := by
    cases hoperand with
    | path hpath =>
      obtain ⟨placeholder, after, rfl⟩ := hpath.startsWithName
      rfl
    | _ => rfl
  rw [hsimple, bind_read hread]

/-- The parser of parts that `disjunction` uses. -/
def partParser (bindings : Bindings) (bound : Nat) : Parsing Predicate :=
  negation (primary bindings (bound + 1) (disjunction bindings bound))

def conjunctionParser (bindings : Bindings) (bound : Nat) : Parsing Predicate :=
  partParser bindings bound >>= fun left =>
    chain "and" .both (partParser bindings bound) left (bound + 1)

theorem disjunction_succ (bound : Nat) :
    disjunction bindings (bound + 1) =
      conjunctionParser bindings bound >>= fun left =>
        chain "or" .either (conjunctionParser bindings bound) left (bound + 1) := rfl

theorem OperandTokens.read_part {tokens : List Token} {left : Operand}
    (hoperand : OperandTokens bindings tokens left) {bound : Nat}
    (hbound : tokens.length ≤ bound + 1) {rest : List Token} (hrest : EndsPath rest) :
    partParser bindings bound (tokens ++ rest) =
      Expression.comparison bindings (bound + 1) left rest := by
  unfold partParser
  rw [hoperand.not_negated, primary, bind_read (hoperand.not_openParen rest),
    if_neg Bool.false_ne_true, hoperand.read_comparison hbound hrest]

section Comparisons

variable {subjectTokens rightTokens lowTokens highTokens tokens : List Token}
  {subject right low high : Operand} {candidates : List Operand} {bound : Nat} {rest : List Token}

theorem takeKeyword_read {keyword word : String} (hword : isKeyword keyword word = true)
    (tokens : List Token) : takeKeyword keyword (.word word :: tokens) = .ok (true, tokens) := by
  rw [takeKeyword, hword, if_pos rfl]

theorem comparison_compare (operator : Comparator)
    (hright : OperandTokens bindings rightTokens right) (hbound : rightTokens.length ≤ bound)
    (hrest : EndsPath rest) :
    comparison bindings bound subject (.comparator operator :: (rightTokens ++ rest)) =
      .ok (.compare subject operator right, rest) := by
  have hbetween : takeKeyword "between" (.comparator operator :: (rightTokens ++ rest)) =
      .ok (false, .comparator operator :: (rightTokens ++ rest)) := rfl
  have hin : takeKeyword "in" (.comparator operator :: (rightTokens ++ rest)) =
      .ok (false, .comparator operator :: (rightTokens ++ rest)) := rfl
  have hnext : next (.comparator operator :: (rightTokens ++ rest)) =
      .ok (some (.comparator operator), rightTokens ++ rest) := rfl
  rw [comparison, bind_read hbetween, if_neg Bool.false_ne_true, bind_read hin,
    if_neg Bool.false_ne_true, bind_read hnext]
  change (operand bindings bound >>= fun right => pure (Predicate.compare subject operator right))
    (rightTokens ++ rest) = _
  rw [bind_read (hright.read bound hbound hrest)]
  rfl

theorem comparison_between (hlow : OperandTokens bindings lowTokens low)
    (hhigh : OperandTokens bindings highTokens high) (hlowBound : lowTokens.length ≤ bound)
    (hhighBound : highTokens.length ≤ bound) (hrest : EndsPath rest) :
    comparison bindings bound subject
        (.word "BETWEEN" :: (lowTokens ++ .word "AND" :: (highTokens ++ rest))) =
      .ok (.between subject low high, rest) := by
  have hlowRead := hlow.read bound hlowBound
    (endsPath_cons (.word "AND") (highTokens ++ rest) (by decide))
  rw [comparison, bind_read (takeKeyword_read (by decide) _), if_pos rfl, bind_read hlowRead,
    bind_read (takeKeyword_read (by decide) _), if_pos rfl, bind_read (hhigh.read bound hhighBound hrest)]
  rfl

theorem comparison_among (hcandidates : CandidateTokens bindings tokens candidates)
    (hbound : tokens.length ≤ bound) :
    comparison bindings bound subject
        (.word "IN" :: .openParen :: (tokens ++ .closeParen :: rest)) =
      .ok (.among subject candidates, rest) := by
  have hbetween : takeKeyword "between"
      (.word "IN" :: .openParen :: (tokens ++ .closeParen :: rest)) =
      .ok (false, .word "IN" :: .openParen :: (tokens ++ .closeParen :: rest)) := by
    rw [takeKeyword, if_neg (by decide)]
  rw [comparison, bind_read hbetween, if_neg Bool.false_ne_true,
    bind_read (takeKeyword_read (by decide) _), if_pos rfl, bind_read (expect_read _ _),
    bind_read (hcandidates.read hbound hbound rest), bind_read (expect_read _ _)]
  rfl

end Comparisons

section Functions

variable {pathTokens leftTokens rightTokens : List Token} {segments : List String}
  {left right : Operand} {bound : Nat}

theorem PathTokens.read_function (hpath : PathTokens bindings pathTokens segments)
    (form : List String → Predicate) (rest : List Token) :
    (path bindings >>= fun path => expect .closeParen >>= fun _ => pure (form path) :
        Parsing Predicate) (pathTokens ++ .closeParen :: rest) = .ok (form segments, rest) := by
  have hread := hpath.read (endsPath_cons .closeParen rest (by decide))
  rw [bind_read hread, bind_read (expect_read _ _)]
  rfl

theorem operandPair_read (hleft : OperandTokens bindings leftTokens left)
    (hright : OperandTokens bindings rightTokens right) (hleftBound : leftTokens.length ≤ bound)
    (hrightBound : rightTokens.length ≤ bound) (rest : List Token) :
    operandPair bindings bound (leftTokens ++ .comma :: (rightTokens ++ .closeParen :: rest)) =
      .ok ((left, right), rest) := by
  have hfirst := hleft.read bound hleftBound (endsPath_cons .comma
    (rightTokens ++ .closeParen :: rest) (by decide))
  have hsecond := hright.read bound hrightBound (endsPath_cons .closeParen rest (by decide))
  unfold operandPair
  rw [bind_read hfirst, bind_read (expect_read _ _), bind_read hsecond,
    bind_read (expect_read _ _)]
  rfl

end Functions

/-! ### Reading derivations

What the parser of a level does with a derivation of that level: a part is read as it is, and a
chain is read up to its last member, after which the parser looks for the next keyword.
-/

def Level.Reads (bindings : Bindings) (tokens : List Token) (predicate : Predicate) : Level → Prop
  | .part => ∀ bound rest, tokens.length ≤ bound → EndsPath rest →
      partParser bindings bound (tokens ++ rest) = .ok (predicate, rest)
  | .conjunction => ∀ bound, tokens.length ≤ bound → ∃ joins ≤ tokens.length, ∀ remaining rest,
      EndsPath rest →
      (partParser bindings bound >>= fun left =>
        chain "and" .both (partParser bindings bound) left (joins + remaining)) (tokens ++ rest) =
      chain "and" .both (partParser bindings bound) predicate remaining rest
  | .disjunction => ∀ bound, tokens.length ≤ bound → ∃ joins ≤ tokens.length, ∀ remaining rest,
      EndsPath rest → (∀ word after, rest = .word word :: after → isKeyword "and" word = false) →
      (conjunctionParser bindings bound >>= fun left =>
        chain "or" .either (conjunctionParser bindings bound) left (joins + remaining))
          (tokens ++ rest) =
      chain "or" .either (conjunctionParser bindings bound) predicate remaining rest

/-- A chain ends where its keyword does not follow. -/
theorem chain_end (keyword : String) (join : Predicate → Predicate → Predicate)
    (part : Parsing Predicate) (left : Predicate) (bound : Nat) {rest : List Token}
    (hrest : ∀ word after, rest = .word word :: after → isKeyword keyword word = false) :
    chain keyword join part left bound rest = .ok (left, rest) := by
  cases bound with
  | zero => rfl
  | succ bound =>
    have hkeyword : takeKeyword keyword rest = .ok (false, rest) := by
      unfold takeKeyword
      split
      · rw [hrest _ _ rfl, if_neg Bool.false_ne_true]
      · rfl
    unfold chain
    rw [bind_read hkeyword]
    rfl

theorem chain_join {keyword word : String} (join : Predicate → Predicate → Predicate)
    (part : Parsing Predicate) (left : Predicate) (bound : Nat) (tokens : List Token)
    (hword : isKeyword keyword word = true) :
    chain keyword join part left (bound + 1) (.word word :: tokens) =
      (part >>= fun right => chain keyword join part (join left right) bound) tokens := by
  have hkeyword : takeKeyword keyword (.word word :: tokens) = .ok (true, tokens) := by
    simp only [takeKeyword, hword, if_true]
  rw [chain, bind_read hkeyword]
  rfl

section Parts

variable {leftTokens rightTokens tokens : List Token} {segments : List String}
  {left right : Operand} {predicate : Predicate}

/-- A function that is a condition by itself, given how its arguments are read. -/
theorem part_read_function {word : String} {bound : Nat} {rest : List Token}
    (hnegation : isKeyword "not" word = false)
    (hread : simpleCondition bindings (bound + 1) (.word word :: .openParen :: tokens) =
      .ok (predicate, rest)) :
    partParser bindings bound (.word word :: .openParen :: tokens) = .ok (predicate, rest) := by
  have hparen : take .openParen (.word word :: .openParen :: tokens) =
      .ok (false, .word word :: .openParen :: tokens) := rfl
  rw [partParser, negation, if_neg (by rw [hnegation]; exact Bool.false_ne_true), primary,
    bind_read hparen, if_neg Bool.false_ne_true, hread]

theorem exists_reads (hpath : PathTokens bindings tokens segments) :
    Level.part.Reads bindings (.word "attribute_exists" :: .openParen :: (tokens ++ [.closeParen]))
      (.exists segments) := by
  intro bound rest _ _
  rw [List.cons_append, List.cons_append, List.append_assoc, List.singleton_append]
  refine part_read_function (by decide) ?_
  rw [simpleCondition, if_pos (by decide)]
  exact hpath.read_function .exists rest

theorem absent_reads (hpath : PathTokens bindings tokens segments) :
    Level.part.Reads bindings
      (.word "attribute_not_exists" :: .openParen :: (tokens ++ [.closeParen]))
      (.absent segments) := by
  intro bound rest _ _
  rw [List.cons_append, List.cons_append, List.append_assoc, List.singleton_append]
  refine part_read_function (by decide) ?_
  rw [simpleCondition, if_neg (by decide),
    if_pos (by decide)]
  exact hpath.read_function .absent rest

theorem beginsWith_reads (hleft : OperandTokens bindings leftTokens left)
    (hright : OperandTokens bindings rightTokens right) :
    Level.part.Reads bindings
      (.word "begins_with" :: .openParen :: (leftTokens ++ .comma :: (rightTokens ++ [.closeParen])))
      (.beginsWith left right) := by
  intro bound rest hbound _
  simp only [List.length_cons, List.length_append] at hbound
  rw [List.cons_append, List.cons_append, List.append_assoc, List.cons_append, List.append_assoc,
    List.singleton_append]
  refine part_read_function (by decide) ?_
  rw [simpleCondition, if_neg (by decide), if_neg (by decide), if_pos (by decide),
    bind_read (operandPair_read hleft hright (by omega) (by omega) rest)]
  rfl

theorem contains_reads (hleft : OperandTokens bindings leftTokens left)
    (hright : OperandTokens bindings rightTokens right) :
    Level.part.Reads bindings
      (.word "contains" :: .openParen :: (leftTokens ++ .comma :: (rightTokens ++ [.closeParen])))
      (.contains left right) := by
  intro bound rest hbound _
  simp only [List.length_cons, List.length_append] at hbound
  rw [List.cons_append, List.cons_append, List.append_assoc, List.cons_append, List.append_assoc,
    List.singleton_append]
  refine part_read_function (by decide) ?_
  rw [simpleCondition, if_neg (by decide), if_neg (by decide), if_neg (by decide),
    if_pos (by decide), bind_read (operandPair_read hleft hright (by omega) (by omega) rest)]
  rfl

theorem not_reads (hpart : Level.part.Reads bindings tokens predicate) :
    Level.part.Reads bindings (.word "NOT" :: tokens) (.not predicate) := by
  intro bound rest hbound hrest
  rw [List.length_cons] at hbound
  have hread := hpart bound rest (by omega) hrest
  unfold partParser at hread ⊢
  rw [List.cons_append, negation, if_pos (by decide), hread]
  rfl

end Parts

theorem EndsPath.keyword (word : String) (tokens : List Token) :
    EndsPath (.word word :: tokens) :=
  endsPath_cons _ tokens (by simp)

/-- A chain of parts that `AND` does not follow is read whole. -/
theorem Level.Reads.conjunction {tokens : List Token} {predicate : Predicate}
    (hreads : Level.conjunction.Reads bindings tokens predicate) {bound : Nat}
    (hbound : tokens.length ≤ bound) {rest : List Token} (hrest : EndsPath rest)
    (hend : ∀ word after, rest = .word word :: after → isKeyword "and" word = false) :
    conjunctionParser bindings bound (tokens ++ rest) = .ok (predicate, rest) := by
  obtain ⟨joins, hjoins, hread⟩ := hreads bound hbound
  have hall := hread (bound + 1 - joins) rest hrest
  rw [Nat.add_sub_of_le (by omega), chain_end _ _ _ _ _ hend] at hall
  exact hall

/-- A whole condition, at the end of a text or before a closing parenthesis. -/
theorem Level.Reads.disjunction {tokens : List Token} {predicate : Predicate}
    (hreads : Level.disjunction.Reads bindings tokens predicate) {bound : Nat}
    (hbound : tokens.length ≤ bound) (rest : List Token)
    (hend : rest.head? = none ∨ rest.head? = some .closeParen) :
    Expression.disjunction bindings (bound + 1) (tokens ++ rest) = .ok (predicate, rest) := by
  have hrest : EndsPath rest := by
    rcases hend with hnone | hparen
    · rw [EndsPath, hnone]
      simp
    · rw [EndsPath, hparen]
      simp
  have hword : ∀ keyword word after, rest = .word word :: after →
      isKeyword keyword word = false := by
    rintro keyword word after rfl
    simp at hend
  obtain ⟨joins, hjoins, hread⟩ := hreads bound hbound
  have hall := hread (bound + 1 - joins) rest hrest (hword "and")
  rw [Nat.add_sub_of_le (by omega), chain_end _ _ _ _ _ (hword "or")] at hall
  rw [disjunction_succ, hall]

/-- The induction is on the derivation; a member of a chain uses up one of the joins that the bound
allows. -/
theorem ConditionTokens.reads {level : Level} {tokens : List Token} {predicate : Predicate}
    (hcondition : ConditionTokens bindings level tokens predicate) :
    level.Reads bindings tokens predicate := by
  induction hcondition with
  | @compare leftTokens rightTokens left right operator hleft hright =>
    intro bound rest hbound hrest
    simp only [List.length_append, List.length_cons] at hbound
    rw [List.append_assoc, List.cons_append,
      hleft.read_part (by omega) (endsPath_cons _ _ (by simp)),
      comparison_compare operator hright (by omega) hrest]
  | between hsubject hlow hhigh =>
    intro bound rest hbound hrest
    simp only [List.length_append, List.length_cons] at hbound
    rw [List.append_assoc, List.cons_append, List.append_assoc, List.cons_append,
      hsubject.read_part (by omega) (.keyword _ _),
      comparison_between hlow hhigh (by omega) (by omega) hrest]
  | among hsubject hcandidates =>
    intro bound rest hbound hrest
    simp only [List.length_append, List.length_cons] at hbound
    rw [List.append_assoc, List.cons_append, List.cons_append, List.append_assoc,
      List.singleton_append, hsubject.read_part (by omega) (.keyword _ _),
      comparison_among hcandidates (by omega)]
  | «exists» hpath => exact exists_reads hpath
  | absent hpath => exact absent_reads hpath
  | beginsWith hsubject hstart => exact beginsWith_reads hsubject hstart
  | contains hcontainer helement => exact contains_reads hcontainer helement
  | not _ ih => exact not_reads ih
  | @group tokens predicate _ ih =>
    intro bound rest hbound hrest
    simp only [List.length_append, List.length_cons, List.length_nil] at hbound
    obtain ⟨bound, rfl⟩ : ∃ smaller, bound = smaller + 1 := ⟨bound - 1, by omega⟩
    have hparen : take .openParen (.openParen :: (tokens ++ [.closeParen]) ++ rest) =
        .ok (true, tokens ++ [.closeParen] ++ rest) := rfl
    have hlength : tokens.length ≤ bound := by omega
    have hnested := ih.disjunction hlength (.closeParen :: rest) (.inr rfl)
    have hprimary : partParser bindings (bound + 1) (.openParen :: (tokens ++ [.closeParen]) ++ rest) =
        primary bindings (bound + 2) (Expression.disjunction bindings (bound + 1))
          (.openParen :: (tokens ++ [.closeParen]) ++ rest) := rfl
    rw [hprimary, primary, bind_read hparen, if_pos rfl, List.append_assoc, List.singleton_append,
      bind_read hnested, bind_read (expect_read _ _)]
    rfl
  | part _ ih =>
    intro bound hbound
    refine ⟨0, by omega, ?_⟩
    intro remaining rest hrest
    rw [bind_read (ih bound rest hbound hrest), Nat.zero_add]
  | @both leftTokens rightTokens left right _ _ ihLeft ihRight =>
    intro bound hbound
    simp only [List.length_append, List.length_cons] at hbound ⊢
    obtain ⟨joins, hjoins, hleft⟩ := ihLeft bound (by omega)
    refine ⟨joins + 1, by omega, ?_⟩
    intro remaining rest hrest
    have hword : isKeyword "and" "AND" = true := by decide
    rw [List.append_assoc, List.cons_append, Nat.add_assoc, Nat.add_comm 1,
      hleft (remaining + 1) _ (.keyword _ _), chain_join _ _ _ _ _ hword,
      bind_read (ihRight bound rest (by omega) hrest)]
  | @conjunction tokens predicate _ ih =>
    intro bound hbound
    refine ⟨0, by omega, ?_⟩
    intro remaining rest hrest hend
    rw [bind_read (ih.conjunction hbound hrest hend), Nat.zero_add]
  | @either leftTokens rightTokens left right _ _ ihLeft ihRight =>
    intro bound hbound
    simp only [List.length_append, List.length_cons] at hbound ⊢
    obtain ⟨joins, hjoins, hleft⟩ := ihLeft bound (by omega)
    refine ⟨joins + 1, by omega, ?_⟩
    intro remaining rest hrest hend
    have hword : isKeyword "or" "OR" = true := by decide
    have hother : ∀ word after, Token.word "OR" :: (rightTokens ++ rest) = .word word :: after →
        isKeyword "and" word = false := by
      rintro word after ⟨rfl, rfl⟩
      decide
    rw [List.append_assoc, List.cons_append, Nat.add_assoc, Nat.add_comm 1,
      hleft (remaining + 1) _ (.keyword _ _) hother, chain_join _ _ _ _ _ hword,
      bind_read (ihRight.conjunction (by omega) hrest hend)]

/-- The text of a derivation parses as what is derived. -/
theorem ConditionTokens.parse {tokens : List Token} {predicate : Predicate} {text : String}
    (hcondition : ConditionTokens bindings .disjunction tokens predicate)
    (hlexes : scan [] text.toList = .ok tokens) :
    Predicate.parse bindings text = .ok predicate := by
  have hread := hcondition.reads.disjunction (Nat.le_refl _) [] (.inl rfl)
  rw [List.append_nil] at hread
  have htokens : tokensOf text = .ok tokens := by simp only [tokensOf, hlexes]
  unfold Predicate.parse
  rw [htokens]
  change ((disjunction bindings (tokens.length + 1)) tokens >>= _) = _
  rw [hread]
  rfl

end RecordStore.Expression
