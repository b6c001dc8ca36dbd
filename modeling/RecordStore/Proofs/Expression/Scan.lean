import RecordStore.Expression.Alias
import RecordStore.Expression.Token
import RecordStore.Proofs.Numeral

/-!
# Tokens of composed texts

Texts are put together from placeholders and fixed pieces. A blank, a parenthesis, a comma or a
point ends whatever token stands before it, so that the tokens of two texts that meet at such a
character are the tokens of the one followed by the tokens of the other.
-/

namespace RecordStore.Expression

/-- A character that ends the token before it and that no token goes on with. -/
def isBreak (character : Char) : Bool :=
  character = ' ' || character = '(' || character = ')' || character = ',' || character = '.'

theorem eq_of_isBreak {character : Char} (hbreak : isBreak character = true) :
    character = ' ' ∨ character = '(' ∨ character = ')' ∨ character = ',' ∨ character = '.' := by
  simpa [isBreak, or_assoc] using hbreak

/-- The tokens that a break stands for itself. -/
def breakTokens (character : Char) : List Token :=
  match character with
  | '(' => [.openParen]
  | ')' => [.closeParen]
  | ',' => [.comma]
  | '.' => [.dot]
  | _ => []

/-- The token of an unfinished word, none when there is no word. -/
def pendingTokens (pending : List Char) : List Token :=
  if pending.isEmpty then [] else [wordToken pending.reverse]

theorem scan_nil (pending : List Char) : scan pending [] = .ok (pendingTokens pending) := by
  unfold scan pendingTokens
  cases pending <;> rfl

theorem scan_break (pending : List Char) {character : Char} (hbreak : isBreak character = true)
    (rest : List Char) :
    scan pending (character :: rest) =
      (scan [] rest).map (pendingTokens pending ++ breakTokens character ++ ·) := by
  have hword : isWordPart character = false := by
    rcases eq_of_isBreak hbreak with rfl | rfl | rfl | rfl | rfl <;> decide
  have hblank : Text.isBlank ' ' = true := by decide
  rcases eq_of_isBreak hbreak with rfl | rfl | rfl | rfl | rfl <;>
    cases pending <;> simp [scan, hword, hblank, pendingTokens, breakTokens]

/-- A word goes on with every word part. -/
theorem scan_part {pending : List Char} {character : Char} (hpending : pending.isEmpty = false)
    (hpart : isWordPart character = true) (rest : List Char) :
    scan pending (character :: rest) = scan (character :: pending) rest := by
  have hless : character ≠ '<' := by
    rintro rfl
    exact absurd hpart (by decide)
  have hgreater : character ≠ '>' := by
    rintro rfl
    exact absurd hpart (by decide)
  conv_lhs => unfold scan
  split <;> simp_all

/-! ### Texts that meet at a break -/

/-- A symbol of two characters is not made across a break. -/
theorem head_ne_of_isBreak {characters rest other : List Char} {character expected : Char}
    (hbreak : isBreak character = true) (hexpected : isBreak expected = false)
    (hother : ∀ after, characters = expected :: after → False) :
    characters ++ character :: rest = expected :: other → False := by
  cases characters with
  | nil =>
    rintro ⟨rfl, rfl⟩
    rw [hbreak] at hexpected
    cases hexpected
  | cons first after =>
    rintro ⟨rfl, rfl⟩
    exact hother _ rfl

theorem map_bind_append (read follow : Except Char (List Token)) (before : List Token → List Token)
    (hbefore : ∀ left right, before (left ++ right) = before left ++ right) :
    (read.bind fun tokens => follow.map (tokens ++ ·)).map before =
      (read.map before).bind fun tokens => follow.map (tokens ++ ·) := by
  cases read with
  | error character => rfl
  | ok tokens => cases follow <;> simp [Except.bind, Except.map, hbefore]

theorem flush_append (pending : List Char) (symbol left right : List Token) :
    (if pending.isEmpty then symbol ++ (left ++ right)
      else wordToken pending.reverse :: (symbol ++ (left ++ right))) =
    (if pending.isEmpty then symbol ++ left
      else wordToken pending.reverse :: (symbol ++ left)) ++ right := by
  split <;> simp

/-- The induction is on the steps of the scan; only a symbol that a second character could complete
needs to know that a break is none. -/
theorem scan_append_break (pending characters : List Char) {character : Char}
    (hbreak : isBreak character = true) (rest : List Char) :
    scan pending (characters ++ character :: rest) =
      (scan pending characters).bind fun tokens =>
        (scan [] (character :: rest)).map (tokens ++ ·) := by
  fun_induction scan pending characters
  case case1 pending flush =>
    have hflush : flush [] = pendingTokens pending := rfl
    rw [List.nil_append, scan_break _ hbreak, scan_break [] hbreak, hflush]
    cases scan [] rest <;> simp [Except.bind, Except.map, pendingTokens]
  case case2 | case3 | case4 =>
    rename_i flush _ ih
    rw [List.cons_append, List.cons_append, scan, ih, map_bind_append]
    exact flush_append _ [_]
  case case5 hpart ih =>
    rw [Bool.and_eq_true, Bool.not_eq_true'] at hpart
    rw [List.cons_append, scan_part hpart.1 hpart.2, ih]
  case case6 | case7 | case8 | case9 | case10 | case11 | case12 =>
    rename_i ih
    rw [List.cons_append, scan, if_neg ‹_›, ih, map_bind_append]
    exact flush_append _ [_]
  case case13 hunequal hless _ _ ih =>
    rw [List.cons_append, scan, if_neg ‹_›, ih, map_bind_append]
    case hbefore => exact flush_append _ [_]
    · intro after _
      exact head_ne_of_isBreak hbreak (by decide) fun _ => hunequal _ rfl
    · intro after _
      exact head_ne_of_isBreak hbreak (by decide) fun _ => hless _ rfl
    · simp
  case case14 _ _ hgreater _ ih =>
    rw [List.cons_append, scan, if_neg ‹_›, ih, map_bind_append]
    case hbefore => exact flush_append _ [_]
    · simp
    · simp
    · intro after _
      exact head_ne_of_isBreak hbreak (by decide) fun _ => hgreater _ rfl
  case case15 ih =>
    rw [List.cons_append, scan, if_neg ‹_›, if_pos ‹_›, ih, map_bind_append]
    case hbefore => exact flush_append _ []
    all_goals simp_all
  case case16 ih =>
    rw [List.cons_append, scan, if_neg ‹_›, if_neg ‹_›, if_pos ‹_›, ih, map_bind_append]
    case hbefore => exact flush_append _ []
    all_goals simp_all
  case case17 =>
    rw [List.cons_append, scan, if_neg ‹_›, if_neg ‹_›, if_neg ‹_›]
    · rfl
    all_goals simp_all

/-- A text that consists of the given tokens. -/
def Lexes (text : String) (tokens : List Token) : Prop :=
  scan [] text.toList = .ok tokens

def startsWithBreak (text : String) : Bool :=
  text.toList.head?.any isBreak

def endsWithBreak (text : String) : Bool :=
  text.toList.getLast?.any isBreak

section Composition

variable {left right separator : String} {leftTokens rightTokens separatorTokens : List Token}

theorem Lexes.append_of_starts (hleft : Lexes left leftTokens) (hright : Lexes right rightTokens)
    (hbreak : startsWithBreak right = true) : Lexes (left ++ right) (leftTokens ++ rightTokens) := by
  unfold Lexes startsWithBreak at *
  rw [String.toList_append]
  cases hcharacters : right.toList with
  | nil => simp [hcharacters] at hbreak
  | cons character rest =>
    rw [hcharacters] at hright hbreak
    rw [scan_append_break [] left.toList hbreak rest, hleft, hright]
    rfl

theorem Lexes.append_of_ends (hleft : Lexes left leftTokens) (hright : Lexes right rightTokens)
    (hbreak : endsWithBreak left = true) : Lexes (left ++ right) (leftTokens ++ rightTokens) := by
  unfold Lexes endsWithBreak at *
  rw [String.toList_append]
  rcases List.eq_nil_or_concat left.toList with hcharacters | ⟨before, character, hcharacters⟩
  · simp [hcharacters] at hbreak
  · rw [List.concat_eq_append] at hcharacters
    rw [hcharacters] at hleft hbreak ⊢
    rw [List.getLast?_append, List.getLast?_singleton, Option.some_or] at hbreak
    rw [scan_append_break [] before hbreak []] at hleft
    rw [List.append_assoc, List.singleton_append, scan_append_break [] before hbreak right.toList]
    rw [scan_break [] hbreak, scan_nil] at hleft
    rw [scan_break [] hbreak, hright]
    cases hbefore : scan [] before with
    | error character => rw [hbefore] at hleft; cases hleft
    | ok tokens =>
      rw [hbefore] at hleft
      cases hleft
      simp [Except.bind, Except.map, pendingTokens]

/-- Two texts with a separator between them that begins and ends with a break. -/
theorem Lexes.separate (hleft : Lexes left leftTokens) (hseparator : Lexes separator separatorTokens)
    (hright : Lexes right rightTokens) (hstart : startsWithBreak separator = true)
    (hend : endsWithBreak separator = true) :
    Lexes (left ++ separator ++ right) (leftTokens ++ separatorTokens ++ rightTokens) := by
  refine (hleft.append_of_starts hseparator hstart).append_of_ends hright ?_
  unfold endsWithBreak at *
  rw [String.toList_append, List.getLast?_append]
  cases hlast : separator.toList.getLast? with
  | none => simp [hlast] at hend
  | some character =>
    rw [hlast] at hend
    exact hend


theorem lexes_intercalate {texts : List String} {pieces : List (List Token)}
    (hpieces : List.Forall₂ Lexes texts pieces) (hseparator : Lexes separator separatorTokens)
    (hstart : startsWithBreak separator = true) (hend : endsWithBreak separator = true) :
    Lexes (separator.intercalate texts) (separatorTokens.intercalate pieces) := by
  induction hpieces with
  | nil => exact scan_nil []
  | @cons text piece texts pieces hpiece hrest ih =>
    cases hrest with
    | nil =>
      rw [String.intercalate_singleton, List.intercalate_singleton]
      exact hpiece
    | cons hnext hafter =>
      rw [String.intercalate_cons_cons, List.intercalate_cons_cons]
      exact hpiece.separate hseparator ih hstart hend

end Composition

/-! ### Placeholders -/

theorem scan_word {pending characters : List Char} (hpending : pending.isEmpty = false)
    (hparts : ∀ character ∈ characters, isWordPart character = true) :
    scan pending characters = .ok [wordToken (pending.reverse ++ characters)] := by
  induction characters generalizing pending with
  | nil => rw [scan_nil, pendingTokens, hpending, List.append_nil]; rfl
  | cons character rest ih =>
    rw [scan_part hpending (hparts character List.mem_cons_self),
      ih rfl fun other hother => hparts other (List.mem_cons_of_mem _ hother),
      List.reverse_cons, List.append_assoc, List.singleton_append]

/-- The stems of generators, which placeholders go on with as one word. -/
def IsStem (stem : String) : Prop :=
  ∀ character ∈ stem.toList, isWordPart character = true

theorem isWordPart_of_isDigit {character : Char} (hdigit : character.isDigit = true) :
    isWordPart character = true := by
  have hbounds : character.toNat < 128 := by
    simp only [Char.isDigit, Bool.and_eq_true, decide_eq_true_eq, ge_iff_le,
      UInt32.le_iff_toNat_le] at hdigit
    exact Nat.lt_of_le_of_lt hdigit.2 (by decide)
  simp [isWordPart, Text.isAlphanumeric, hbounds, Char.isAlphanum, hdigit]

theorem isStem_toString (index : Nat) : IsStem (toString index) :=
  fun _ hmem => isWordPart_of_isDigit (isDigit_of_mem_toString hmem)

theorem IsStem.append {left right : String} (hleft : IsStem left) (hright : IsStem right) :
    IsStem (left ++ right) := by
  intro character hmem
  rw [String.toList_append, List.mem_append] at hmem
  exact hmem.elim (hleft character) (hright character)

theorem isStem_empty : IsStem "" := by
  intro character hmem
  simp at hmem

theorem isStem_of_all {text : String} (hparts : text.toList.all isWordPart = true) : IsStem text :=
  List.all_eq_true.mp hparts

/-- The stem of a nested builder. -/
theorem IsStem.nested {stem : String} (hstem : IsStem stem) (index : Nat) :
    IsStem (stem ++ "c" ++ toString index ++ "_") :=
  ((hstem.append (isStem_of_all (by decide))).append (isStem_toString index)).append
    (isStem_of_all (by decide))

/-- A placeholder is one word that its first character marks. -/
theorem lexes_marked {text rest : String} {mark : Char} (hmark : mark = '#' ∨ mark = ':')
    (htext : text.toList = mark :: rest.toList) (hparts : IsStem rest) :
    Lexes text [wordToken text.toList] := by
  have hstart : scan [] (mark :: rest.toList) = (scan [mark] rest.toList).map id := by
    rcases hmark with rfl | rfl <;> rfl
  rw [Lexes, htext, hstart, scan_word rfl hparts]
  rfl

section Placeholders

variable {stem : String}

theorem toList_namePlaceholder (stem : String) (index : Nat) :
    (Aliases.namePlaceholder stem index).toList = '#' :: (stem ++ "n" ++ toString index).toList := by
  simp [Aliases.namePlaceholder]

theorem toList_valuePlaceholder (stem : String) (index : Nat) :
    (Aliases.valuePlaceholder stem index).toList =
      ':' :: (stem ++ "v" ++ toString index).toList := by
  simp [Aliases.valuePlaceholder]

theorem lexes_namePlaceholder (hstem : IsStem stem) (index : Nat) :
    Lexes (Aliases.namePlaceholder stem index) [.name (Aliases.namePlaceholder stem index)] := by
  have hlist := toList_namePlaceholder stem index
  have htoken : wordToken (Aliases.namePlaceholder stem index).toList =
      .name (Aliases.namePlaceholder stem index) := by
    have hname := congrArg String.ofList hlist
    rw [String.ofList_toList] at hname
    rw [hlist, hname]
    rfl
  rw [← htoken]
  exact lexes_marked (.inl rfl) hlist
    ((hstem.append (isStem_of_all (by decide))).append (isStem_toString index))

theorem lexes_valuePlaceholder (hstem : IsStem stem) (index : Nat) :
    Lexes (Aliases.valuePlaceholder stem index)
      [.value (Aliases.valuePlaceholder stem index)] := by
  have hlist := toList_valuePlaceholder stem index
  have htoken : wordToken (Aliases.valuePlaceholder stem index).toList =
      .value (Aliases.valuePlaceholder stem index) := by
    have hname := congrArg String.ofList hlist
    rw [String.ofList_toList] at hname
    rw [hlist, hname]
    rfl
  rw [← htoken]
  exact lexes_marked (.inr rfl) hlist
    ((hstem.append (isStem_of_all (by decide))).append (isStem_toString index))

theorem namePlaceholder_inj {left right : Nat}
    (hequal : Aliases.namePlaceholder stem left = Aliases.namePlaceholder stem right) :
    left = right := by
  have hlists := congrArg String.toList hequal
  rw [toList_namePlaceholder, toList_namePlaceholder, List.cons_inj_right, String.toList_inj,
    String.append_right_inj] at hlists
  exact Nat.repr_injective hlists

theorem valuePlaceholder_inj {left right : Nat}
    (hequal : Aliases.valuePlaceholder stem left = Aliases.valuePlaceholder stem right) :
    left = right := by
  have hlists := congrArg String.toList hequal
  rw [toList_valuePlaceholder, toList_valuePlaceholder, List.cons_inj_right, String.toList_inj,
    String.append_right_inj] at hlists
  exact Nat.repr_injective hlists

end Placeholders

end RecordStore.Expression
