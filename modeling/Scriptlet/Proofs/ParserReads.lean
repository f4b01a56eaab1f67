import Scriptlet.Proofs.Reading

/-! Whatever a parser of the grammar gives, it has read. One lemma for each rule, under the assumption
that the parser of the expressions inside reads them; the nesting budget ties them together. -/
namespace Scriptlet.Parse
open Token (Kind)

def Sound {α : Type} (p : Parser α) (phrase : α → Phrase) : Prop :=
  ∀ {s rest : List Token} {a : α}, p s = .ok (a, rest) →
    ∃ used, s = used ++ rest ∧ Reads (phrase a) used rest

theorem commaTurnCases {α : Type} {closing : Kind} {item : Parser α} {s rest : List Token}
    {turn : Reader.Turn α} (ok : commaTurn closing item s = .ok (turn, rest)) :
    (turn = .stop ∧ rest = s ∧ headKind s = closing) ∨
      (∃ a, turn = .last a ∧ item s = .ok (a, rest) ∧ headKind rest ≠ .comma) ∨
      ∃ a c, turn = .more a ∧ item s = .ok (a, c :: rest) ∧ c.kind = .comma := by
  unfold commaTurn at ok
  rw [bindStep (nextKindApply s)] at ok
  split at ok
  · rename_i close
    cases ok
    exact Or.inl ⟨rfl, rfl, close⟩
  · obtain ⟨a, middle, item, next⟩ := Reader.bindOk.mp ok
    obtain ⟨found, after, comma, last⟩ := Reader.bindOk.mp next
    rcases takeOk (by decide) comma with ⟨rfl, c, rfl, kind⟩ | ⟨rfl, rfl, stop⟩
    · cases last
      exact Or.inr (Or.inr ⟨a, c, rfl, item, kind⟩)
    · cases last
      exact Or.inr (Or.inl ⟨a, rfl, item, stop⟩)

theorem bracketedCases {α : Type} {opening closing : Kind} {item : Parser α} {s rest : List Token}
    {first : Token} {items : List α} (ok : bracketed opening closing item s = .ok ((first, items), rest)) :
    ∃ inner c, s = first :: inner ∧ first.kind = opening ∧ c.kind = closing ∧
      Reader.Repeats (commaTurn closing item) inner items (c :: rest) := by
  unfold bracketed at ok
  obtain ⟨o, inner, open', next⟩ := Reader.bindOk.mp ok
  obtain ⟨found, middle, turns, next⟩ := Reader.bindOk.mp next
  obtain ⟨c, after, close, last⟩ := Reader.bindOk.mp next
  cases last
  obtain ⟨rfl, kind⟩ := expectAsOk.mp open'
  obtain ⟨rfl, kind'⟩ := expectAsOk.mp close
  exact ⟨inner, c, rfl, kind, kind', Reader.collectIff.mp turns⟩

inductive CommaList {α : Type} (item : α → List Token → List Token → Prop) (closing : Kind) :
    List α → List Token → List Token → Prop where
  | none {c rest} (close : c.kind = closing) : CommaList item closing [] [c] rest
  | last {c a used rest} (close : c.kind = closing) (head : item a used (c :: rest)) :
      CommaList item closing [a] (used ++ [c]) rest
  | more {c a as used more rest} (comma : c.kind = .comma) (head : item a used (c :: (more ++ rest)))
      (tail : CommaList item closing as more rest) : CommaList item closing (a :: as) (used ++ c :: more) rest

theorem commaListRead {α : Type} {parser : Parser α} {item : α → List Token → List Token → Prop}
    (sound : ∀ {s rest a}, parser s = .ok (a, rest) → ∃ used, s = used ++ rest ∧ item a used rest)
    {closing : Kind} {s rest : List Token} {c : Token} {as : List α}
    (turns : Reader.Repeats (commaTurn closing parser) s as (c :: rest)) (close : c.kind = closing) :
    ∃ used, s = used ++ rest ∧ CommaList item closing as used rest := by
  generalize tail : c :: rest = after at turns
  induction turns with
  | stop head =>
    subst tail
    rcases commaTurnCases head with ⟨_, rfl, _⟩ | ⟨a, turn, _⟩ | ⟨a, k, turn, _⟩
    · exact ⟨[c], rfl, .none close⟩
    · cases turn
    · cases turn
  | last head =>
    subst tail
    rcases commaTurnCases head with ⟨turn, _⟩ | ⟨x, turn, item, _⟩ | ⟨a, k, turn, _⟩
    · cases turn
    · cases turn
      obtain ⟨used, rfl, read⟩ := sound item
      exact ⟨used ++ [c], by simp, .last close read⟩
    · cases turn
  | more head shorter _ ih =>
    rcases commaTurnCases head with ⟨turn, _⟩ | ⟨x, turn, _⟩ | ⟨x, k, turn, item, comma⟩
    · cases turn
    · cases turn
    · cases turn
      obtain ⟨more, rfl, reads⟩ := ih tail
      obtain ⟨used, rfl, read⟩ := sound item
      exact ⟨used ++ k :: more, by simp, .more comma read reads⟩
  | stuck head still =>
    -- a comma was read, so something was
    rcases commaTurnCases head with ⟨turn, _⟩ | ⟨x, turn, _⟩ | ⟨x, k, turn, item, comma⟩
    · cases turn
    · cases turn
    · cases turn
      obtain ⟨used, rfl, read⟩ := sound item
      refine absurd ?_ still
      simp only [List.length_append, List.length_cons]
      omega

theorem itemsOfCommaList {closing : Kind} {trees : List Node} {used rest : List Token}
    (list : CommaList (fun x => Reads (.expression x)) closing trees used rest) :
    Reads (.items closing trees) used rest := by
  induction list with
  | none close => exact .noItem close
  | last close head => exact .lastItem close head
  | more comma head _ ih => exact .item comma head ih

def OneWord (t : Token) (used _rest : List Token) : Prop := used = [t] ∧ t.kind = .ident

theorem namesOfCommaList {names used rest : List Token} (list : CommaList OneWord .rparen names used rest) :
    Reads (.names names) used rest := by
  induction list with
  | none close => exact .noName close
  | last close head =>
    obtain ⟨rfl, word⟩ := head
    exact .lastName close word
  | more comma head _ ih =>
    obtain ⟨rfl, word⟩ := head
    exact .oneName comma word ih

theorem paramsRead {s rest : List Token} {params : List String} (ok : Parse.params s = .ok (params, rest)) :
    ∃ o names used, s = o :: (used ++ rest) ∧ o.kind = .lparen ∧ params = names.map Token.value ∧
      Reads (.names names) used rest := by
  unfold Parse.params at ok
  obtain ⟨⟨o, names⟩, middle, bracket, last⟩ := Reader.bindOk.mp ok
  cases last
  obtain ⟨inner, c, rfl, open', close, turns⟩ := bracketedCases bracket
  have word : ∀ {s rest : List Token} {t : Token}, expectAs .ident "parameter name" s = .ok (t, rest) →
      ∃ used, s = used ++ rest ∧ OneWord t used rest := by
    intro s rest t ok
    obtain ⟨rfl, kind⟩ := expectAsOk.mp ok
    exact ⟨[t], rfl, rfl, kind⟩
  obtain ⟨used, rfl, list⟩ := commaListRead word turns close
  exact ⟨o, names, used, rfl, open', rfl, namesOfCommaList list⟩

theorem precedencePositive {kind : Kind} {strength : Nat} (binds : kind.precedence? = some strength) :
    1 ≤ strength := by
  cases kind <;> cases binds <;> decide

theorem numberOk {t : Token} {s rest : List Token} {v : SExpr} (ok : number t s = .ok (v, rest)) :
    rest = s ∧ ∀ after, number t after = .ok (v, after) := by
  unfold number at ok ⊢
  cases read : Numeral.read? t.value.toList with
  | none =>
    simp only [read] at ok
    exact absurd ok failOk
  | some n =>
    simp only [read] at ok ⊢
    split at ok
    · rename_i whole
      rw [if_pos whole]
      cases value : n.toInt with
      | ok k =>
        simp only [value] at ok ⊢
        cases ok
        exact ⟨rfl, fun _ => rfl⟩
      | error e =>
        simp only [value] at ok
        exact absurd ok failOk
    · rename_i part
      rw [if_neg part]
      split at ok
      · rename_i finite
        rw [if_pos finite]
        cases ok
        exact ⟨rfl, fun _ => rfl⟩
      · exact absurd ok failOk

section Rules
variable {expr : Parser Node} (sound : Sound expr .expression)
include sound

theorem bracketedRead {opening closing : Kind} {s rest : List Token} {o : Token} {trees : List Node}
    (ok : bracketed opening closing expr s = .ok ((o, trees), rest)) :
    ∃ used, s = o :: (used ++ rest) ∧ o.kind = opening ∧ Reads (.items closing trees) used rest := by
  obtain ⟨inner, c, rfl, open', close, turns⟩ := bracketedCases ok
  obtain ⟨used, rfl, list⟩ := commaListRead sound turns close
  exact ⟨used, rfl, open', itemsOfCommaList list⟩

theorem assignRead : Sound (assign expr) .statement := by
  intro s rest x ok
  unfold assign at ok
  obtain ⟨t, afterName, name, next⟩ := Reader.bindOk.mp ok
  obtain ⟨equals, afterEquals, mark, next⟩ := Reader.bindOk.mp next
  obtain ⟨value, afterValue, read, last⟩ := Reader.bindOk.mp next
  cases last
  obtain ⟨rfl, word⟩ := expectAsOk.mp name
  obtain ⟨rfl, assign⟩ := expectAsOk.mp mark
  obtain ⟨used, rfl, reads⟩ := sound read
  exact ⟨t :: equals :: used, rfl, .assignment word assign reads⟩

theorem statementRead : Sound (statement expr) .statement := by
  intro s rest x ok
  unfold statement at ok
  rw [bindStep (aheadApply s)] at ok
  have plain : expr s = .ok (x, rest) → ∃ used, s = used ++ rest ∧ Reads (.statement x) used rest := by
    intro read
    obtain ⟨used, rfl, reads⟩ := sound read
    exact ⟨used, rfl, .expression reads⟩
  split at ok
  · split at ok
    · exact assignRead sound ok
    · exact plain ok
  · exact plain ok

theorem statementTurnCases {s rest : List Token} {turn : Reader.Turn Node}
    (ok : statementTurn expr s = .ok (turn, rest)) :
    (turn = .stop ∧ rest = s) ∨
      (∃ x used, turn = .last x ∧ s = used ++ rest ∧ Reads (.statement x) used rest) ∨
      ∃ x used t newlines, turn = .more x ∧ t.kind = .newline ∧ Newlines newlines ∧
        s = used ++ t :: (newlines ++ rest) ∧ Reads (.statement x) used (t :: (newlines ++ rest)) := by
  unfold statementTurn at ok
  rw [bindStep (nextKindApply s)] at ok
  split at ok
  · cases ok
    exact Or.inl ⟨rfl, rfl⟩
  · obtain ⟨x, middle, read, next⟩ := Reader.bindOk.mp ok
    rw [bindStep (nextKindApply middle)] at next
    obtain ⟨used, rfl, reads⟩ := statementRead sound read
    generalize head : headKind middle = k at next
    split at next
    · obtain ⟨t, more, rfl, kind⟩ := headKindSome head (by decide)
      obtain ⟨newlines, after, skip, skipped, shape, _⟩ := skipNewlinesSplit (t :: more)
      rw [bindStep skip] at next
      cases next
      cases newlines with
      | nil =>
        cases shape
        exact absurd kind ‹_›
      | cons t' newlines =>
        cases shape
        exact Or.inr (Or.inr ⟨x, used, t, newlines, rfl, kind,
          fun u member => skipped u (List.mem_cons_of_mem _ member), rfl, reads⟩)
    · cases next
      exact Or.inr (Or.inl ⟨x, used, rfl, rfl, reads⟩)
    · exact absurd next failOk

theorem statementsRead {s rest : List Token} {c : Token} {trees : List Node}
    (turns : Reader.Repeats (statementTurn expr) s trees (c :: rest)) (close : c.kind = .rbrace) :
    ∃ used, s = used ++ rest ∧ Reads (.statements trees) used rest := by
  generalize tail : c :: rest = after at turns
  induction turns with
  | stop head =>
    subst tail
    rcases statementTurnCases sound head with ⟨_, rfl⟩ | ⟨x, used, turn, _⟩ | ⟨x, used, t, nl, turn, _⟩
    · exact ⟨[c], rfl, .noStatement close⟩
    · cases turn
    · cases turn
  | last head =>
    subst tail
    rcases statementTurnCases sound head with ⟨turn, _⟩ | ⟨x, used, turn, rfl, read⟩ |
      ⟨x, used, t, nl, turn, _⟩
    · cases turn
    · cases turn
      exact ⟨used ++ [c], by simp, .lastStatement close read⟩
    · cases turn
  | more head shorter _ ih =>
    rcases statementTurnCases sound head with ⟨turn, _⟩ | ⟨x, used, turn, _⟩ |
      ⟨x, used, t, newlines, turn, kind, skipped, rfl, read⟩
    · cases turn
    · cases turn
    · cases turn
      obtain ⟨more, rfl, reads⟩ := ih tail
      exact ⟨used ++ t :: (newlines ++ more), by simp, .oneStatement kind skipped read reads⟩
  | stuck head still =>
    rcases statementTurnCases sound head with ⟨turn, _⟩ | ⟨x, used, turn, _⟩ |
      ⟨x, used, t, newlines, turn, kind, skipped, rfl, read⟩
    · cases turn
    · cases turn
    · refine absurd ?_ still
      simp only [List.length_append, List.length_cons]
      omega

theorem blockRead : Sound (block expr) .block := by
  intro s rest x ok
  unfold block at ok
  obtain ⟨o, inner, open', next⟩ := Reader.bindOk.mp ok
  obtain ⟨newlines, start, skip, skipped, rfl, _⟩ := skipNewlinesSplit inner
  rw [bindStep skip] at next
  obtain ⟨trees, middle, turns, next⟩ := Reader.bindOk.mp next
  obtain ⟨c, after, close, last⟩ := Reader.bindOk.mp next
  cases last
  obtain ⟨rfl, kind⟩ := expectAsOk.mp open'
  obtain ⟨rfl, kind'⟩ := expectAsOk.mp close
  obtain ⟨used, rfl, reads⟩ := statementsRead sound (Reader.collectIff.mp turns) kind'
  exact ⟨o :: (newlines ++ used), by simp, .block kind skipped reads⟩

theorem arrowRead {params : List String} {place : Place} {s rest : List Token} {x : Node}
    (ok : arrow expr params place s = .ok (x, rest)) :
    ∃ mark body used, s = mark :: (used ++ rest) ∧ mark.kind = .arrow ∧ x = .arrow place params body ∧
      Reads (.body body) used rest := by
  unfold arrow at ok
  obtain ⟨mark, inner, arrow, next⟩ := Reader.bindOk.mp ok
  obtain ⟨newlines, start, skip, skipped, rfl, _⟩ := skipNewlinesSplit inner
  rw [bindStep skip, bindStep (nextKindApply start)] at next
  obtain ⟨rfl, kind⟩ := expectAsOk.mp arrow
  split at next
  · obtain ⟨body, after, read, last⟩ := Reader.bindOk.mp next
    cases last
    obtain ⟨used, rfl, reads⟩ := blockRead sound read
    exact ⟨mark, body, newlines ++ used, by simp, kind, rfl, .blockBody skipped reads⟩
  · rename_i noBrace
    obtain ⟨body, after, read, last⟩ := Reader.bindOk.mp next
    cases last
    obtain ⟨used, rfl, reads⟩ := sound read
    exact ⟨mark, body, newlines ++ used, by simp, kind, rfl, .expressionBody skipped noBrace reads⟩

theorem propertyRead : Sound (property expr) .entry := by
  intro s rest x ok
  unfold property at ok
  rw [bindStep (peekApply s)] at ok
  cases s with
  | nil => exact absurd ok failOk
  | cons key more =>
    simp only [List.head?_cons] at ok
    split at ok
    · exact absurd ok failOk
    · rename_i keyKind
      split at ok
      · exact absurd ok failOk
      · rename_i keyValue
        have isKey : IsKey key := by
          by_cases ident : key.kind = .ident
          · exact Or.inl ident
          · have string : key.kind = .string := by
              by_contra other
              exact keyKind ⟨ident, other⟩
            refine Or.inr ⟨string, ?_⟩
            by_contra other
            exact keyValue ⟨string, other⟩
        rw [bindStep (dropApply _), List.tail_cons, bindStep (nextKindApply more)] at ok
        generalize head : headKind more = k at ok
        split at ok
        · obtain ⟨params, middle, names, next⟩ := Reader.bindOk.mp ok
          obtain ⟨newlines, start, skip, skipped, rfl, _⟩ := skipNewlinesSplit middle
          rw [bindStep skip] at next
          obtain ⟨body, after, read, last⟩ := Reader.bindOk.mp next
          cases last
          obtain ⟨o, found, used, rfl, open', rfl, params⟩ := paramsRead names
          obtain ⟨inner, rfl, reads⟩ := blockRead sound read
          exact ⟨key :: o :: (used ++ (newlines ++ inner)), by simp,
            .method isKey open' skipped params reads⟩
        · obtain ⟨colon, more, rfl, kind⟩ := headKindSome head (by decide)
          rw [bindStep (dropApply _), List.tail_cons] at ok
          obtain ⟨value, after, read, last⟩ := Reader.bindOk.mp ok
          cases last
          obtain ⟨used, rfl, reads⟩ := sound read
          exact ⟨key :: colon :: used, rfl, .plain isKey kind reads⟩
        · exact absurd ok failOk

theorem propertyTurnCases {s rest : List Token} {turn : Reader.Turn Node}
    (ok : propertyTurn expr s = .ok (turn, rest)) :
    (turn = .stop ∧ rest = s) ∨
      (∃ x used newlines, turn = .last x ∧ Newlines newlines ∧ s = used ++ (newlines ++ rest) ∧
        Reads (.entry x) used (newlines ++ rest)) ∨
      ∃ x used before c after, turn = .more x ∧ c.kind = .comma ∧ Newlines before ∧ Newlines after ∧
        s = used ++ (before ++ c :: (after ++ rest)) ∧
        Reads (.entry x) used (before ++ c :: (after ++ rest)) := by
  unfold propertyTurn at ok
  rw [bindStep (nextKindApply s)] at ok
  split at ok
  · cases ok
    exact Or.inl ⟨rfl, rfl⟩
  · obtain ⟨x, middle, read, next⟩ := Reader.bindOk.mp ok
    obtain ⟨before, start, skip, skipped, rfl, _⟩ := skipNewlinesSplit middle
    rw [bindStep skip] at next
    obtain ⟨used, rfl, reads⟩ := propertyRead sound read
    obtain ⟨found, rest', comma, last⟩ := Reader.bindOk.mp next
    rcases takeOk (by decide) comma with ⟨rfl, c, rfl, kind⟩ | ⟨rfl, rfl, _⟩
    · obtain ⟨after, start, skip, skipped', rfl, _⟩ := skipNewlinesSplit rest'
      simp only [if_true] at last
      rw [bindStep skip] at last
      cases last
      exact Or.inr (Or.inr ⟨x, used, before, c, after, rfl, kind, skipped, skipped', rfl, reads⟩)
    · cases last
      exact Or.inr (Or.inl ⟨x, used, before, rfl, skipped, rfl, reads⟩)

theorem entriesRead {s rest : List Token} {c : Token} {trees : List Node}
    (turns : Reader.Repeats (propertyTurn expr) s trees (c :: rest)) (close : c.kind = .rbrace) :
    ∃ used, s = used ++ rest ∧ Reads (.entries trees) used rest := by
  generalize tail : c :: rest = after at turns
  induction turns with
  | stop head =>
    subst tail
    rcases propertyTurnCases sound head with ⟨_, rfl⟩ | ⟨x, used, nl, turn, _⟩ |
      ⟨x, used, nl, k, nl', turn, _⟩
    · exact ⟨[c], rfl, .noEntry close⟩
    · cases turn
    · cases turn
  | last head =>
    subst tail
    rcases propertyTurnCases sound head with ⟨turn, _⟩ | ⟨x, used, newlines, turn, skipped, rfl, read⟩ |
      ⟨x, used, nl, k, nl', turn, _⟩
    · cases turn
    · cases turn
      exact ⟨used ++ (newlines ++ [c]), by simp, .lastEntry close skipped read⟩
    · cases turn
  | more head shorter _ ih =>
    rcases propertyTurnCases sound head with ⟨turn, _⟩ | ⟨x, used, nl, turn, _⟩ |
      ⟨x, used, before, k, after, turn, kind, skipped, skipped', rfl, read⟩
    · cases turn
    · cases turn
    · cases turn
      obtain ⟨more, rfl, reads⟩ := ih tail
      exact ⟨used ++ (before ++ k :: (after ++ more)), by simp,
        .oneEntry kind skipped skipped' read reads⟩
  | stuck head still =>
    rcases propertyTurnCases sound head with ⟨turn, _⟩ | ⟨x, used, nl, turn, _⟩ |
      ⟨x, used, before, k, after, turn, kind, skipped, skipped', rfl, read⟩
    · cases turn
    · cases turn
    · refine absurd ?_ still
      simp only [List.length_append, List.length_cons]
      omega

theorem objectRead {s rest : List Token} {x : Node} (ok : object expr s = .ok (x, rest)) :
    ∃ used, s = used ++ rest ∧ Reads (.primary x) used rest := by
  unfold object at ok
  obtain ⟨o, inner, open', next⟩ := Reader.bindOk.mp ok
  obtain ⟨newlines, start, skip, skipped, rfl, _⟩ := skipNewlinesSplit inner
  rw [bindStep skip] at next
  obtain ⟨trees, middle, turns, next⟩ := Reader.bindOk.mp next
  obtain ⟨c, after, close, last⟩ := Reader.bindOk.mp next
  cases last
  obtain ⟨rfl, kind⟩ := expectAsOk.mp open'
  obtain ⟨rfl, kind'⟩ := expectAsOk.mp close
  obtain ⟨used, rfl, reads⟩ := entriesRead sound (Reader.collectIff.mp turns) kind'
  exact ⟨o :: (newlines ++ used), by simp, .object kind skipped reads⟩

theorem groupRead {o : Token} {s rest : List Token} {x : Node} (opening : o.kind = .lparen)
    (ahead : arrowAhead 0 s = false)
    (ok : (do let inner ← expr; let _ ← expect .rparen; pure inner : Parser Node) s = .ok (x, rest)) :
    ∃ used, o :: s = used ++ rest ∧ Reads (.primary x) used rest := by
  obtain ⟨inner, middle, read, next⟩ := Reader.bindOk.mp ok
  obtain ⟨c, after, close, last⟩ := Reader.bindOk.mp next
  cases last
  obtain ⟨rfl, kind⟩ := expectAsOk.mp close
  obtain ⟨used, rfl, reads⟩ := sound read
  exact ⟨o :: (used ++ [c]), by simp, .group opening kind ahead reads⟩

theorem parenthesesRead {o : Token} {s rest : List Token} {x : Node} (opening : o.kind = .lparen)
    (ahead : arrowAhead 0 s = true)
    (ok : (do let names ← params; arrow expr names o.place : Parser Node) (o :: s) = .ok (x, rest)) :
    ∃ used, o :: s = used ++ rest ∧ Reads (.primary x) used rest := by
  obtain ⟨found, middle, names, next⟩ := Reader.bindOk.mp ok
  obtain ⟨o', tokens, used, shape, kind, rfl, params⟩ := paramsRead names
  obtain ⟨mark, body, inner, rfl, kind', rfl, reads⟩ := arrowRead sound next
  obtain ⟨rfl, rfl⟩ := List.cons.inj shape
  exact ⟨o :: (used ++ mark :: inner), by simp, .arrowOfNames opening kind' ahead params reads⟩

theorem identRead {t : Token} {s rest : List Token} {x : Node} (kind : t.kind = .ident)
    (ok : (if s.head?.any (·.kind = .arrow) then arrow expr [t.value] t.place
      else pure (.ident t.place t.value) : Parser Node) s = .ok (x, rest)) :
    ∃ used, t :: s = used ++ rest ∧ Reads (.primary x) used rest := by
  split at ok
  · obtain ⟨mark, body, used, rfl, arrow, rfl, reads⟩ := arrowRead sound ok
    exact ⟨t :: mark :: used, rfl, .arrowOfName kind arrow reads⟩
  · rename_i stop
    cases ok
    refine ⟨[t], rfl, .ident kind fun arrow => stop ?_⟩
    obtain ⟨mark, more, rfl, kind⟩ := headKindSome arrow (by decide)
    simp [kind]

theorem primaryRead : Sound (primary expr) .primary := by
  intro s rest x ok
  unfold primary at ok
  rw [bindStep (aheadApply s)] at ok
  cases s with
  | nil => exact absurd ok failOk
  | cons t more =>
    simp only at ok
    generalize kind : t.kind = k at ok
    split at ok
    · rw [bindStep (dropApply _), List.tail_cons] at ok
      obtain ⟨v, after, read, last⟩ := Reader.bindOk.mp ok
      cases last
      obtain ⟨rfl, value⟩ := numberOk read
      exact ⟨[t], rfl, .number kind (value _)⟩
    · cases ok
      exact ⟨[t], rfl, .string kind⟩
    · cases ok
      exact ⟨[t], rfl, .truth kind⟩
    · cases ok
      exact ⟨[t], rfl, .falsity kind⟩
    · cases ok
      exact ⟨[t], rfl, .null kind⟩
    · rw [bindStep (dropApply _), List.tail_cons] at ok
      exact identRead sound kind ok
    · split at ok
      · rename_i ahead
        exact parenthesesRead sound kind ahead ok
      · rename_i ahead
        rw [bindStep (dropApply _), List.tail_cons] at ok
        exact groupRead sound kind (Bool.eq_false_iff.mpr ahead) ok
    · unfold array at ok
      obtain ⟨⟨o, elements⟩, middle, bracket, last⟩ := Reader.bindOk.mp ok
      cases last
      obtain ⟨used, shape, open', reads⟩ := bracketedRead sound bracket
      exact ⟨o :: used, shape, .array open' reads⟩
    · exact objectRead sound ok
    · exact absurd ok failOk

theorem suffixTurnCases {s rest : List Token} {turn : Reader.Turn Suffix}
    (ok : suffixTurn expr s = .ok (turn, rest)) :
    (turn = .stop ∧ rest = s ∧ headKind s ≠ .dot ∧ headKind s ≠ .lbracket ∧ headKind s ≠ .lparen) ∨
      ∃ suffix used, turn = .more suffix ∧ s = used ++ rest ∧ used ≠ [] ∧
        ∀ {suffixes more after}, rest = more ++ after → Reads (.suffixes suffixes) more after →
          Reads (.suffixes (suffix :: suffixes)) (used ++ more) after := by
  unfold suffixTurn at ok
  rw [bindStep (nextKindApply s)] at ok
  generalize head : headKind s = k at ok
  split at ok
  · obtain ⟨dot, more, rfl, kind⟩ := headKindSome head (by decide)
    rw [bindStep (dropApply _), List.tail_cons] at ok
    obtain ⟨name, middle, word, last⟩ := Reader.bindOk.mp ok
    cases last
    obtain ⟨rfl, kind'⟩ := expectAsOk.mp word
    exact Or.inr ⟨.name name, [dot, name], rfl, rfl, by simp, fun _ reads => .name kind kind' reads⟩
  · obtain ⟨o, more, rfl, kind⟩ := headKindSome head (by decide)
    rw [bindStep (dropApply _), List.tail_cons] at ok
    obtain ⟨key, middle, read, next⟩ := Reader.bindOk.mp ok
    obtain ⟨c, after, close, last⟩ := Reader.bindOk.mp next
    cases last
    obtain ⟨rfl, kind'⟩ := expectAsOk.mp close
    obtain ⟨used, rfl, inner⟩ := sound read
    refine Or.inr ⟨.index key, o :: (used ++ [c]), rfl, by simp, by simp, ?_⟩
    rintro suffixes more after rfl reads
    simpa using Reads.index kind kind' inner reads
  · unfold callArgs at ok
    obtain ⟨args, middle, call, last⟩ := Reader.bindOk.mp ok
    obtain ⟨⟨o, trees⟩, middle', bracket, same⟩ := Reader.bindOk.mp call
    cases same
    cases last
    obtain ⟨used, rfl, open', inner⟩ := bracketedRead sound bracket
    refine Or.inr ⟨.arguments args, o :: used, rfl, rfl, by simp, ?_⟩
    rintro suffixes more after rfl reads
    exact .call open' inner reads
  · rename_i dot bracket paren
    cases ok
    exact Or.inl ⟨rfl, rfl, head ▸ dot, head ▸ bracket, head ▸ paren⟩

theorem suffixesRead {s rest : List Token} {suffixes : List Suffix}
    (turns : Reader.Repeats (suffixTurn expr) s suffixes rest) :
    ∃ used, s = used ++ rest ∧ Reads (.suffixes suffixes) used rest := by
  induction turns with
  | stop head =>
    rcases suffixTurnCases sound head with ⟨_, rfl, dot, bracket, paren⟩ | ⟨_, _, turn, _⟩
    · exact ⟨[], rfl, .noSuffix dot bracket paren⟩
    · cases turn
  | last head =>
    rcases suffixTurnCases sound head with ⟨turn, _⟩ | ⟨_, _, turn, _⟩
    · cases turn
    · cases turn
  | more head shorter _ ih =>
    rcases suffixTurnCases sound head with ⟨turn, _⟩ | ⟨suffix, used, turn, rfl, _, extend⟩
    · cases turn
    · cases turn
      obtain ⟨more, rfl, reads⟩ := ih
      exact ⟨used ++ more, by simp, extend rfl reads⟩
  | stuck head still =>
    rcases suffixTurnCases sound head with ⟨turn, _⟩ | ⟨suffix, used, turn, rfl, some, _⟩
    · cases turn
    · refine absurd ?_ still
      have size := List.length_pos_iff.mpr some
      simp only [List.length_append]
      omega

theorem signedRead {operand : Parser Node} (inner : Sound operand .operand) :
    Sound (signed operand expr) .operand := by
  have plain : Sound (suffixed expr) .operand := by
    intro s rest x ok
    unfold suffixed at ok
    obtain ⟨target, middle, read, next⟩ := Reader.bindOk.mp ok
    obtain ⟨suffixes, after, turns, last⟩ := Reader.bindOk.mp next
    cases last
    obtain ⟨more, rfl, reads'⟩ := suffixesRead sound (Reader.collectIff.mp turns)
    obtain ⟨used, rfl, reads⟩ := primaryRead sound read
    exact ⟨used ++ more, by simp, .suffixed reads reads'⟩
  intro s rest x ok
  unfold signed at ok
  rw [bindStep (peekApply s)] at ok
  cases s with
  | nil => exact plain ok
  | cons op more =>
    simp only [List.head?_cons] at ok
    split at ok
    · rename_i mark
      rw [bindStep (dropApply _), List.tail_cons] at ok
      obtain ⟨y, middle, read, last⟩ := Reader.bindOk.mp ok
      cases last
      obtain ⟨used, rfl, reads⟩ := inner read
      exact ⟨op :: used, rfl, .sign mark reads⟩
    · exact plain ok

end Rules

theorem linkTurnCases {operand : Parser Node} (inner : Sound operand .operand) {s rest : List Token}
    {turn : Reader.Turn Link} (ok : linkTurn operand 1 s = .ok (turn, rest)) :
    (turn = .stop ∧ rest = s ∧ (headKind s).precedence? = none) ∨
      ∃ op strength x used, turn = .more ⟨op, strength, x⟩ ∧ op.kind.precedence? = some strength ∧
        s = op :: (used ++ rest) ∧ Reads (.operand x) used rest := by
  unfold linkTurn at ok
  rw [bindStep (peekApply s)] at ok
  cases s with
  | nil =>
    cases ok
    exact Or.inl ⟨rfl, rfl, rfl⟩
  | cons op more =>
    simp only [List.head?_cons] at ok
    cases binds : op.kind.precedence? with
    | none =>
      simp only [binds] at ok
      cases ok
      exact Or.inl ⟨rfl, rfl, binds⟩
    | some strength =>
      simp only [binds] at ok
      split at ok
      · exact absurd (precedencePositive binds) (by omega)
      · rw [bindStep (dropApply _), List.tail_cons] at ok
        obtain ⟨x, middle, read, last⟩ := Reader.bindOk.mp ok
        cases last
        obtain ⟨used, rfl, reads⟩ := inner read
        exact Or.inr ⟨op, strength, x, used, rfl, binds, rfl, reads⟩

theorem linksRead {operand : Parser Node} (inner : Sound operand .operand) {s rest : List Token}
    {links : List Link} (turns : Reader.Repeats (linkTurn operand 1) s links rest) :
    ∃ used, s = used ++ rest ∧ Reads (.links links) used rest := by
  induction turns with
  | stop head =>
    rcases linkTurnCases inner head with ⟨_, rfl, stop⟩ | ⟨_, _, _, _, turn, _⟩
    · exact ⟨[], rfl, .noLink stop⟩
    · cases turn
  | last head =>
    rcases linkTurnCases inner head with ⟨turn, _⟩ | ⟨_, _, _, _, turn, _⟩
    · cases turn
    · cases turn
  | more head shorter _ ih =>
    rcases linkTurnCases inner head with ⟨turn, _⟩ | ⟨op, strength, x, used, turn, binds, rfl, reads⟩
    · cases turn
    · cases turn
      obtain ⟨more, rfl, reads'⟩ := ih
      exact ⟨op :: (used ++ more), by simp, .link binds reads reads'⟩
  | stuck head still =>
    rcases linkTurnCases inner head with ⟨turn, _⟩ | ⟨op, strength, x, used, turn, binds, rfl, reads⟩
    · cases turn
    · refine absurd ?_ still
      simp only [List.length_cons, List.length_append]
      omega

theorem choiceRead {operand expr : Parser Node} (inner : Sound operand .operand)
    (sound : Sound expr .expression) : Sound (choice operand expr) .expression := by
  intro s rest x ok
  unfold choice chain at ok
  obtain ⟨cond, middle, whole, next⟩ := Reader.bindOk.mp ok
  obtain ⟨first, start, read, turns⟩ := Reader.bindOk.mp whole
  obtain ⟨links, after, collected, last⟩ := Reader.bindOk.mp turns
  cases last
  obtain ⟨more, rfl, reads'⟩ := linksRead inner (Reader.collectIff.mp collected)
  obtain ⟨used, rfl, reads⟩ := inner read
  have cond : Reads (.chain (chainTree first links)) (used ++ more) middle := .chain reads reads'
  obtain ⟨found, rest', mark, branch⟩ := Reader.bindOk.mp next
  rcases takeOk (by decide) mark with ⟨rfl, q, rfl, kind⟩ | ⟨rfl, rfl, stop⟩
  · simp only [if_true] at branch
    obtain ⟨yes, middle', leftOk, next'⟩ := Reader.bindOk.mp branch
    obtain ⟨c, middle'', colon, next''⟩ := Reader.bindOk.mp next'
    obtain ⟨no, final, rightOk, done⟩ := Reader.bindOk.mp next''
    cases done
    obtain ⟨rfl, kind'⟩ := expectAsOk.mp colon
    obtain ⟨d, rfl, right⟩ := sound rightOk
    obtain ⟨b, rfl, left⟩ := sound leftOk
    exact ⟨used ++ more ++ q :: (b ++ c :: d), by simp, .choice kind kind' cond left right⟩
  · cases branch
    exact ⟨used ++ more, by simp, .single cond stop⟩

theorem readsOfBudget (depth : Nat) :
    Sound (expression depth) .expression ∧ Sound (unary depth) .operand := by
  induction depth with
  | zero => exact ⟨fun ok => absurd ok failOk, fun ok => absurd ok failOk⟩
  | succ depth ih => exact ⟨choiceRead ih.2 ih.1, signedRead ih.1 ih.2⟩

theorem programRead {depth : Nat} {s rest : List Token} {tree : Node}
    (body : ∀ t ∈ s, t.kind ≠ .eof) (ok : program depth s = .ok (tree, rest)) :
    rest = [] ∧ ReadsProgram tree s := by
  unfold program at ok
  obtain ⟨before, start, skip, skipped, rfl, front⟩ := skipNewlinesSplit s
  rw [bindStep skip] at ok
  obtain ⟨x, middle, read, next⟩ := Reader.bindOk.mp ok
  obtain ⟨after, final, skip', skipped', rfl, _⟩ := skipNewlinesSplit middle
  rw [bindStep skip', bindStep (nextKindApply _)] at next
  have inner : expression depth start = .ok (x, after ++ final) := by
    split at read
    · cases read
    · exact read
  obtain ⟨used, rfl, reads⟩ := (readsOfBudget depth).1 inner
  split at next
  · rename_i stop
    have done : final = [] := by
      cases final with
      | nil => rfl
      | cons t more => exact absurd stop (body t (by simp))
    subst done
    cases next
    rw [List.append_nil] at reads front ⊢
    exact ⟨rfl, before, used, after, rfl, skipped, skipped', front, reads⟩
  · exact absurd next failOk

end Scriptlet.Parse
