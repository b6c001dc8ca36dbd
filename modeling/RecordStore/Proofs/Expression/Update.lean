import RecordStore.Expression.Builder
import RecordStore.Proofs.Expression.Condition

/-!
# The grammar of updates

An update is groups of actions, each group begun by its keyword. The parser reads every derivation as
the actions that it derives, in the order of their groups.
-/

namespace RecordStore.Expression

open Parsing

variable {bindings : Bindings}

inductive ActionTokens (bindings : Bindings) : Clause → List Token → Action → Prop
  | set {pathTokens tokens : List Token} {segments : List String} {operand : Operand}
      (hpath : PathTokens bindings pathTokens segments)
      (hoperand : OperandTokens bindings tokens operand) :
      ActionTokens bindings .set (pathTokens ++ .comparator .equal :: tokens)
        (.set segments operand)
  | setSum {pathTokens leftTokens rightTokens : List Token} {segments : List String}
      {left right : Operand} (hpath : PathTokens bindings pathTokens segments)
      (hleft : OperandTokens bindings leftTokens left)
      (hright : OperandTokens bindings rightTokens right) :
      ActionTokens bindings .set
        (pathTokens ++ .comparator .equal :: (leftTokens ++ .plus :: rightTokens))
        (.set segments (.plus left right))
  | remove {tokens : List Token} {segments : List String}
      (hpath : PathTokens bindings tokens segments) :
      ActionTokens bindings .remove tokens (.remove segments)
  | add {pathTokens : List Token} {placeholder : String} {segments : List String}
      {value : Attribute} (hpath : PathTokens bindings pathTokens segments)
      (hvalue : Entries.find? bindings.values placeholder = some value) :
      ActionTokens bindings .add (pathTokens ++ [.value placeholder])
        (.add segments (.value value))
  | delete {pathTokens : List Token} {placeholder : String} {segments : List String}
      {value : Attribute} (hpath : PathTokens bindings pathTokens segments)
      (hvalue : Entries.find? bindings.values placeholder = some value) :
      ActionTokens bindings .delete (pathTokens ++ [.value placeholder])
        (.delete segments (.value value))

/-- The actions of one group, with commas between them. -/
inductive MemberTokens (bindings : Bindings) (clause : Clause) : List Token → List Action → Prop
  | last {tokens : List Token} {action : Action}
      (haction : ActionTokens bindings clause tokens action) :
      MemberTokens bindings clause tokens [action]
  | step {tokens restTokens : List Token} {action : Action} {actions : List Action}
      (haction : ActionTokens bindings clause tokens action)
      (hrest : MemberTokens bindings clause restTokens actions) :
      MemberTokens bindings clause (tokens ++ .comma :: restTokens) (action :: actions)

inductive GroupTokens (bindings : Bindings) : List Token → List Action → Prop
  | nil : GroupTokens bindings [] []
  | group {clause : Clause} {word : String} {tokens restTokens : List Token}
      {actions restActions : List Action} (hword : Clause.ofWord word = .ok clause)
      (hmembers : MemberTokens bindings clause tokens actions)
      (hrest : GroupTokens bindings restTokens restActions) :
      GroupTokens bindings (.word word :: (tokens ++ restTokens)) (actions ++ restActions)

/-! ### Reading actions -/

/-- What cannot go on an action: the end, a comma or a keyword. -/
def EndsAction (rest : List Token) : Prop :=
  rest = [] ∨ (∃ after, rest = .comma :: after) ∨ ∃ word after, rest = .word word :: after

theorem EndsAction.endsPath {rest : List Token} (hrest : EndsAction rest) : EndsPath rest := by
  rcases hrest with rfl | ⟨after, rfl⟩ | ⟨word, after, rfl⟩
  · simp [EndsPath]
  · exact endsPath_cons _ _ (by simp)
  · exact .keyword _ _

theorem sum_read {tokens : List Token} {result : Operand} {bound : Nat}
    (hoperand : OperandTokens bindings tokens result) (hbound : tokens.length ≤ bound)
    {rest : List Token} (hrest : EndsAction rest) :
    sum bindings bound (tokens ++ rest) = .ok (result, rest) := by
  have hplus : take .plus rest = .ok (false, rest) := by
    rcases hrest with rfl | ⟨after, rfl⟩ | ⟨word, after, rfl⟩ <;> rfl
  have hminus : take .minus rest = .ok (false, rest) := by
    rcases hrest with rfl | ⟨after, rfl⟩ | ⟨word, after, rfl⟩ <;> rfl
  rw [sum, bind_read (hoperand.read bound hbound hrest.endsPath), bind_read hplus,
    if_neg Bool.false_ne_true, bind_read hminus]
  rfl

theorem sum_read_plus {leftTokens rightTokens : List Token} {left right : Operand} {bound : Nat}
    (hleft : OperandTokens bindings leftTokens left)
    (hright : OperandTokens bindings rightTokens right) (hleftBound : leftTokens.length ≤ bound)
    (hrightBound : rightTokens.length ≤ bound) {rest : List Token} (hrest : EndsAction rest) :
    sum bindings bound (leftTokens ++ .plus :: (rightTokens ++ rest)) =
      .ok (.plus left right, rest) := by
  have hplus : take .plus (.plus :: (rightTokens ++ rest)) = .ok (true, rightTokens ++ rest) := rfl
  rw [sum, bind_read (hleft.read bound hleftBound (endsPath_cons _ _ (by simp))), bind_read hplus,
    if_pos rfl, bind_read (hright.read bound hrightBound hrest.endsPath)]
  rfl

theorem ActionTokens.read {clause : Clause} {tokens : List Token} {result : Action}
    (haction : ActionTokens bindings clause tokens result) (bound : Nat) (hbound : tokens.length ≤ bound)
    {rest : List Token} (hrest : EndsAction rest) :
    action bindings bound clause (tokens ++ rest) = .ok (result, rest) := by
  cases haction with
  | set hpath hoperand =>
    simp only [List.length_append, List.length_cons] at hbound
    rw [List.append_assoc, List.cons_append, action,
      bind_read (hpath.read (endsPath_cons _ _ (by simp))), bind_read (expect_read _ _),
      bind_read (sum_read hoperand (by omega) hrest)]
    rfl
  | setSum hpath hleft hright =>
    simp only [List.length_append, List.length_cons] at hbound
    rw [List.append_assoc, List.cons_append, List.append_assoc, List.cons_append, action,
      bind_read (hpath.read (endsPath_cons _ _ (by simp))), bind_read (expect_read _ _),
      bind_read (sum_read_plus hleft hright (by omega) (by omega) hrest)]
    rfl
  | remove hpath =>
    change (path bindings >>= fun segments => pure (Action.remove segments)) _ = _
    rw [bind_read (hpath.read hrest.endsPath)]
    rfl
  | add hpath hvalue =>
    rw [List.append_assoc, List.singleton_append, action,
      bind_read (hpath.read (endsPath_cons _ _ (by simp))),
      bind_read (value_read_operand hvalue bound rest)]
    rfl
  | delete hpath hvalue =>
    rw [List.append_assoc, List.singleton_append, action,
      bind_read (hpath.read (endsPath_cons _ _ (by simp))),
      bind_read (value_read_operand hvalue bound rest)]
    rfl

theorem MemberTokens.read {clause : Clause} {tokens : List Token} {results : List Action}
    (hmembers : MemberTokens bindings clause tokens results) (bound limit : Nat)
    (hbound : tokens.length ≤ bound) (hlimit : tokens.length ≤ limit) {rest : List Token}
    (hrest : rest = [] ∨ ∃ word after, rest = .word word :: after) :
    separated (action bindings bound clause) limit (tokens ++ rest) = .ok (results, rest) := by
  induction hmembers generalizing limit with
  | @last tokens result haction =>
    have hread := haction.read bound hbound (hrest.imp_right .inr)
    have hcomma : take .comma rest = .ok (false, rest) := by
      rcases hrest with rfl | ⟨word, after, rfl⟩ <;> rfl
    cases limit with
    | zero =>
      rw [separated, bind_read hread]
      rfl
    | succ limit =>
      rw [separated, bind_read hread, bind_read hcomma]
      rfl
  | @step tokens restTokens result results haction _ ih =>
    simp only [List.length_append, List.length_cons] at hbound hlimit
    obtain ⟨limit, rfl⟩ : ∃ smaller, limit = smaller + 1 := ⟨limit - 1, by omega⟩
    have hends : EndsAction (.comma :: (restTokens ++ rest)) := .inr (.inl ⟨_, rfl⟩)
    have hread := haction.read bound (by omega) hends
    have hcomma : take .comma (.comma :: (restTokens ++ rest)) =
        .ok (true, restTokens ++ rest) := rfl
    rw [List.append_assoc, List.cons_append, separated, bind_read hread, bind_read hcomma,
      if_pos rfl, bind_read (ih limit (by omega) (by omega))]
    rfl

theorem GroupTokens.starts {tokens : List Token} {results : List Action}
    (hgroups : GroupTokens bindings tokens results) :
    tokens = [] ∨ ∃ word after, tokens = .word word :: after := by
  cases hgroups with
  | nil => exact .inl rfl
  | group => exact .inr ⟨_, _, rfl⟩

theorem GroupTokens.read {tokens : List Token} {results : List Action}
    (hgroups : GroupTokens bindings tokens results) {bound : Nat} (hbound : tokens.length < bound) :
    actions bindings bound tokens = .ok (results, []) := by
  induction hgroups generalizing bound with
  | nil =>
    obtain ⟨bound, rfl⟩ : ∃ smaller, bound = smaller + 1 := ⟨bound - 1, by omega⟩
    rfl
  | @group clause word tokens restTokens results restResults hword hmembers hrest ih =>
    simp only [List.length_append, List.length_cons] at hbound
    obtain ⟨bound, rfl⟩ : ∃ smaller, bound = smaller + 1 := ⟨bound - 1, by omega⟩
    have hread := hmembers.read (bound + 1) (bound + 1) (by omega) (by omega)
      hrest.starts
    have hnext : next (.word word :: (tokens ++ restTokens)) =
        .ok (some (.word word), tokens ++ restTokens) := rfl
    have hclause : (liftM (Clause.ofWord word) : Parsing Clause) (tokens ++ restTokens) =
        .ok (clause, tokens ++ restTokens) := by
      rw [hword]
      rfl
    rw [actions, bind_read hnext]
    change (liftM (Clause.ofWord word) >>= fun clause =>
      separated (action bindings (bound + 1) clause) (bound + 1) >>= fun group =>
        actions bindings bound >>= fun rest => pure (group ++ rest)) (tokens ++ restTokens) = _
    rw [bind_read hclause, bind_read hread, bind_read (ih (by omega))]
    rfl

theorem GroupTokens.parse {tokens : List Token} {results : List Action} {text : String}
    (hgroups : GroupTokens bindings tokens results) (hne : results ≠ [])
    (hlexes : Lexes text tokens) : Action.parse bindings text = .ok results := by
  have hread := hgroups.read (Nat.lt_succ_self _)
  have htokens : tokensOf text = .ok tokens := by
    unfold Lexes at hlexes
    simp only [tokensOf, hlexes]
  have hrun : (actions bindings (tokens.length + 1)).run' tokens = .ok results := by
    change (fun read : List Action × List Token => read.1) <$>
      actions bindings (tokens.length + 1) tokens = _
    rw [hread]
    rfl
  unfold Action.parse
  rw [htokens]
  change ((actions bindings (tokens.length + 1)).run' tokens >>= _) = _
  rw [hrun]
  cases results with
  | nil => exact absurd rfl hne
  | cons first rest => rfl

/-! ### Texts of actions -/

/-- A text that is derived as an action of a clause. -/
def IsAction (bindings : Bindings) (clause : Clause) (text : String) (action : Action) : Prop :=
  ∃ tokens, Lexes text tokens ∧ ActionTokens bindings clause tokens action

def IsOperand (bindings : Bindings) (text : String) (operand : Operand) : Prop :=
  ∃ tokens, Lexes text tokens ∧ OperandTokens bindings tokens operand

section Texts

variable {path text : String} {segments : List String} {value : Attribute} {operand : Operand}

theorem IsValue.isOperand (hvalue : IsValue bindings text value) :
    IsOperand bindings text (.value value) :=
  ⟨_, hvalue.lexes, hvalue.operand⟩

theorem isAction_set (hpath : IsPath bindings path segments)
    (hoperand : IsOperand bindings text operand) :
    IsAction bindings .set (path ++ " = " ++ text) (.set segments operand) := by
  obtain ⟨pathTokens, hpathLexes, hpathTokens⟩ := hpath
  obtain ⟨tokens, hlexes, htokens⟩ := hoperand
  have hequal : Lexes " = " [.comparator .equal] := by cbv
  have hall := hpathLexes.separate hequal hlexes (by decide) (by decide)
  rw [List.append_assoc, List.singleton_append] at hall
  exact ⟨_, hall, .set hpathTokens htokens⟩

theorem isAction_setSum {leftText rightText : String} {left right : Operand}
    (hpath : IsPath bindings path segments) (hleft : IsOperand bindings leftText left)
    (hright : IsOperand bindings rightText right) :
    IsAction bindings .set (path ++ " = " ++ leftText ++ " + " ++ rightText)
      (.set segments (.plus left right)) := by
  obtain ⟨pathTokens, hpathLexes, hpathTokens⟩ := hpath
  obtain ⟨leftTokens, hleftLexes, hleftTokens⟩ := hleft
  obtain ⟨rightTokens, hrightLexes, hrightTokens⟩ := hright
  have hequal : Lexes " = " [.comparator .equal] := by cbv
  have hplus : Lexes " + " [.plus] := by cbv
  have hfirst := hpathLexes.separate hequal hleftLexes (by decide) (by decide)
  have hall := hfirst.separate hplus hrightLexes (by decide) (by decide)
  simp only [List.append_assoc, List.singleton_append] at hall
  exact ⟨_, hall, .setSum hpathTokens hleftTokens hrightTokens⟩

theorem isAction_remove (hpath : IsPath bindings path segments) :
    IsAction bindings .remove path (.remove segments) := by
  obtain ⟨tokens, hlexes, htokens⟩ := hpath
  exact ⟨tokens, hlexes, .remove htokens⟩

theorem lexes_operandAfter {pathTokens : List Token} (hpath : Lexes path pathTokens)
    (hvalue : IsValue bindings text value) :
    Lexes (path ++ " " ++ text) (pathTokens ++ [.value text]) := by
  have hblank : Lexes " " [] := by cbv
  have hall := hpath.separate hblank hvalue.lexes (by decide) (by decide)
  rw [List.append_nil] at hall
  exact hall

theorem isAction_add (hpath : IsPath bindings path segments)
    (hvalue : IsValue bindings text value) :
    IsAction bindings .add (path ++ " " ++ text) (.add segments (.value value)) := by
  obtain ⟨pathTokens, hlexes, htokens⟩ := hpath
  exact ⟨_, lexes_operandAfter hlexes hvalue, .add htokens hvalue.bound⟩

theorem isAction_delete (hpath : IsPath bindings path segments)
    (hvalue : IsValue bindings text value) :
    IsAction bindings .delete (path ++ " " ++ text) (.delete segments (.value value)) := by
  obtain ⟨pathTokens, hlexes, htokens⟩ := hpath
  exact ⟨_, lexes_operandAfter hlexes hvalue, .delete htokens hvalue.bound⟩

theorem isOperand_orElse (hpath : IsPath bindings path segments)
    (hvalue : IsValue bindings text value) :
    IsOperand bindings ("if_not_exists(" ++ path ++ ", " ++ text ++ ")")
      (.orElse segments (.value value)) := by
  obtain ⟨pathTokens, hlexes, htokens⟩ := hpath
  have hopen : Lexes "if_not_exists(" [.word "if_not_exists", .openParen] := by cbv
  exact ⟨_, lexes_function hopen (by decide) hlexes hvalue, .orElse htokens hvalue.operand⟩

theorem isOperand_append {leftText : String} {left : Operand}
    (hleft : IsOperand bindings leftText left) (hvalue : IsValue bindings text value) :
    IsOperand bindings ("list_append(" ++ leftText ++ ", " ++ text ++ ")")
      (.append left (.value value)) := by
  obtain ⟨leftTokens, hlexes, htokens⟩ := hleft
  have hopen : Lexes "list_append(" [.word "list_append", .openParen] := by cbv
  exact ⟨_, lexes_function hopen (by decide) hlexes hvalue, .append htokens hvalue.operand⟩

end Texts

/-! ### Texts of groups -/

section Groups

variable {texts restTexts : List String} {actions restActions : List Action} {clause : Clause}

theorem memberTokens_of_texts (htexts : List.Forall₂ (IsAction bindings clause) texts actions)
    (hne : texts ≠ []) :
    ∃ tokens, Lexes (", ".intercalate texts) tokens ∧
      MemberTokens bindings clause tokens actions := by
  induction htexts with
  | nil => exact absurd rfl hne
  | @cons text action texts actions htext hrest ih =>
    obtain ⟨tokens, hlexes, haction⟩ := htext
    cases hrest with
    | nil =>
      rw [String.intercalate_singleton]
      exact ⟨tokens, hlexes, .last haction⟩
    | cons hnext hafter =>
      obtain ⟨restTokens, hrestLexes, hmembers⟩ := ih (List.cons_ne_nil _ _)
      have hcomma : Lexes ", " [.comma] := by cbv
      have hall := hlexes.separate hcomma hrestLexes (by decide) (by decide)
      rw [List.append_assoc, List.singleton_append] at hall
      rw [String.intercalate_cons_cons]
      exact ⟨_, hall, .step haction hmembers⟩

/-- Texts of groups that are derived as actions, one group after another. -/
def AreGroups (bindings : Bindings) (texts : List String) (actions : List Action) : Prop :=
  ∃ pieces, List.Forall₂ Lexes texts pieces ∧ GroupTokens bindings pieces.flatten actions

theorem areGroups_nil : AreGroups bindings [] [] :=
  ⟨[], .nil, .nil⟩

/-- A keyword that begins the groups of a clause. -/
structure Begins (keyword : String) (clause : Clause) : Prop where
  word : Clause.ofWord keyword = .ok clause
  lexes : Lexes (keyword ++ " ") [.word keyword]
  ends : endsWithBreak (keyword ++ " ") = true

theorem begins_set : Begins "SET" .set where
  word := by rw [Clause.ofWord, if_pos (by decide)]
  lexes := by cbv
  ends := by decide

theorem begins_remove : Begins "REMOVE" .remove where
  word := by rw [Clause.ofWord, if_neg (by decide), if_pos (by decide)]
  lexes := by cbv
  ends := by decide

theorem begins_add : Begins "ADD" .add where
  word := by rw [Clause.ofWord, if_neg (by decide), if_neg (by decide), if_pos (by decide)]
  lexes := by cbv
  ends := by decide

theorem begins_delete : Begins "DELETE" .delete where
  word := by rw [Clause.ofWord, if_neg (by decide), if_neg (by decide), if_neg (by decide), if_pos (by decide)]
  lexes := by cbv
  ends := by decide

theorem AreGroups.prepend (hrest : AreGroups bindings restTexts restActions) {keyword : String}
    (hbegins : Begins keyword clause)
    (htexts : List.Forall₂ (IsAction bindings clause) texts actions) :
    AreGroups bindings (Builder.group keyword texts ++ restTexts) (actions ++ restActions) := by
  unfold Builder.group
  split
  · rename_i hempty
    rw [List.isEmpty_iff] at hempty
    subst hempty
    cases htexts
    exact hrest
  · rename_i hfull
    obtain ⟨pieces, hpieces, hgroups⟩ := hrest
    obtain ⟨tokens, hlexes, hmembers⟩ := memberTokens_of_texts htexts (by simpa using hfull)
    have hgroup := hbegins.lexes.append_of_ends hlexes hbegins.ends
    refine ⟨(.word keyword :: tokens) :: pieces, .cons hgroup hpieces, ?_⟩
    rw [List.flatten_cons, List.cons_append]
    exact .group hbegins.word hmembers hgroups

theorem AreGroups.eq_nil (hgroups : AreGroups bindings [] actions) : actions = [] := by
  obtain ⟨pieces, hpieces, htokens⟩ := hgroups
  cases hpieces
  cases htokens
  rfl

theorem AreGroups.lexes (hgroups : AreGroups bindings texts actions) :
    ∃ tokens, Lexes (" ".intercalate texts) tokens ∧ GroupTokens bindings tokens actions := by
  obtain ⟨pieces, hpieces, htokens⟩ := hgroups
  have hblank : Lexes " " [] := by cbv
  have hall := lexes_intercalate hpieces hblank (by decide) (by decide)
  have hflat : ∀ pieces : List (List Token), [].intercalate pieces = pieces.flatten := by
    intro pieces
    induction pieces with
    | nil => rfl
    | cons piece rest ih =>
      cases rest with
      | nil => simp
      | cons next after => rw [List.intercalate_cons_cons, ih, List.append_nil]; rfl
  rw [hflat] at hall
  exact ⟨_, hall, htokens⟩

end Groups

end RecordStore.Expression
