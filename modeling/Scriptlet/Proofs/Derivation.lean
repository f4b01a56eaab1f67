import Scriptlet.Proofs.Ebnf
import Scriptlet.Proofs.Reading

/-! Whatever is read can be derived. -/
namespace Scriptlet.Parse
open Token (Kind)
open Ebnf (Matches Pattern)

theorem isKeyIff (value : String) : isKey value = true ↔ Ebnf.IsName value.toList := by
  have word (c : Char) : Token.isWordStart c = true ↔ c.isAlpha = true ∨ c = '_' := by
    simp [Token.isWordStart]
  have part (c : Char) : Token.isWordPart c = true ↔ c.isAlphanum = true ∨ c = '_' := by
    simp [Token.isWordPart]
  have keyword (text : List Char) : Kind.ofWord text = .ident ↔
      text ∉ [['t', 'r', 'u', 'e'], ['f', 'a', 'l', 's', 'e'], ['n', 'u', 'l', 'l']] := by
    unfold Kind.ofWord Kind.keywords
    simp only [List.lookup_cons, List.lookup_nil, List.mem_cons, List.not_mem_nil, or_false, not_or]
    split
    · rename_i same
      simp [beq_iff_eq.mp same]
    · split
      · rename_i same
        simp [beq_iff_eq.mp same]
      · split
        · rename_i same
          simp [beq_iff_eq.mp same]
        · rename_i first second third
          simp_all
  unfold isKey Ebnf.IsName
  cases value.toList with
  | nil => simp
  | cons c rest =>
    simp only [Bool.and_eq_true, decide_eq_true_eq, List.all_eq_true, keyword, word, part]
    constructor
    · rintro ⟨⟨start, parts⟩, noKeyword⟩
      exact ⟨noKeyword, c, rest, rfl, start, parts⟩
    · rintro ⟨noKeyword, c', rest', same, start, parts⟩
      obtain ⟨rfl, rfl⟩ := List.cons.inj same
      exact ⟨⟨start, parts⟩, noKeyword⟩

theorem binaryIff (k : Kind) : k ∈ Ebnf.binaryOperators ↔ k.precedence? ≠ none := by
  cases k <;> decide

theorem matchKind {t : Token} {k : Kind} (same : t.kind = k) : Matches (Ebnf.kind k) [t] := .token same

theorem matchCons {t : Token} {k : Kind} {p : Pattern} {s : List Token} (same : t.kind = k)
    (more : Matches p s) : Matches (Ebnf.kind k ++ p) (t :: s) := .seq (matchKind same) more

theorem matchOneOf {ps : List Pattern} {p : Pattern} {s : List Token} (member : p ∈ ps)
    (inner : Matches p s) : Matches (Ebnf.oneOf ps) s := by
  induction ps with
  | nil => exact absurd member List.not_mem_nil
  | cons q more ih =>
    rcases List.mem_cons.mp member with rfl | other
    · exact .left inner
    · exact .right (ih other)

theorem matchBinop {t : Token} {strength : Nat} (binds : t.kind.precedence? = some strength) :
    Matches Ebnf.binop [t] := .token ((binaryIff _).mpr (by simp [binds]))

theorem matchKey {t : Token} (word : IsKey t) : Matches Ebnf.key [t] := by
  refine .token ?_
  rcases word with ident | ⟨string, name⟩
  · exact Or.inl ident
  · exact Or.inr ⟨string, (isKeyIff _).mp name⟩

theorem matchNewlines {tokens : List Token} (all : Newlines tokens) : Matches Ebnf.newlines tokens := by
  induction tokens with
  | nil => exact .done
  | cons t more ih =>
    obtain ⟨first, rest⟩ := List.forall_mem_cons.mp all
    exact .again (matchKind first) (ih rest)

theorem matchOpt {p : Pattern} {s : List Token} (inner : Matches p s) : Matches (Ebnf.opt p) s := .left inner

theorem matchNone {p : Pattern} : Matches (Ebnf.opt p) [] := .right .empty

theorem matchItem {item : Pattern} {a inner : List Token} {c : Token} (first : Matches item a)
    (comma : c.kind = .comma) (more : Matches (Ebnf.opt (Ebnf.commaList item)) inner) :
    Matches (Ebnf.commaList item) (a ++ c :: inner) := by
  cases more with
  | left list =>
    cases list with
    | seq next tail =>
      cases tail with
      | seq others last =>
        have part := Matches.seq (matchKind comma) next
        have whole : Matches (Ebnf.commaList item) _ := .seq first (.seq (.again part others) last)
        simpa using whole
  | right none =>
    cases none
    exact .seq first (.seq .done (matchOpt (matchKind comma)))

def Phrase.Derives : Phrase → List Token → Prop
  | .expression _ => Matches (.rule .expr)
  | .chain _ => Matches (.rule .chain)
  | .links _ => Matches (.star (Ebnf.binop ++ .rule .unary))
  | .operand _ => Matches (.rule .unary)
  | .suffixes _ => Matches (.star (Ebnf.oneOf Ebnf.suffixes))
  | .primary _ => Matches (.rule .primary)
  | .items closing _ => Matches (Ebnf.opt (Ebnf.commaList (.rule .expr)) ++ Ebnf.kind closing)
  | .names _ => Matches (Ebnf.opt (Ebnf.commaList (Ebnf.kind .ident)) ++ Ebnf.kind .rparen)
  | .body _ => Matches (Ebnf.newlines ++ (.rule .block ||| .notFirst .lbrace (.rule .expr)))
  | .block _ => Matches (.rule .block)
  | .statements _ => Matches (statementsPattern ++ Ebnf.kind .rbrace)
  | .statement _ => Matches (.rule .stmt)
  | .entries _ => Matches (entriesPattern ++ Ebnf.kind .rbrace)
  | .entry _ => Matches (.rule .prop)
where
  statementsPattern : Pattern :=
    Ebnf.opt (.rule .stmt ++
      (.star ((Ebnf.kind .newline ++ Ebnf.newlines) ++ .rule .stmt) ++ Ebnf.newlines))
  entriesPattern : Pattern :=
    Ebnf.opt (.rule .prop ++ (Ebnf.newlines ++
      (.star (Ebnf.kind .comma ++ (Ebnf.newlines ++ (.rule .prop ++ Ebnf.newlines))) ++
        Ebnf.opt (Ebnf.kind .comma ++ Ebnf.newlines))))

theorem matchItems {item : Pattern} {closing : Kind} {a b : List Token} {c : Token} (first : Matches item a)
    (comma : c.kind = .comma) (more : Matches (Ebnf.opt (Ebnf.commaList item) ++ Ebnf.kind closing) b) :
    Matches (Ebnf.opt (Ebnf.commaList item) ++ Ebnf.kind closing) (a ++ c :: b) := by
  cases more with
  | seq list last =>
    simpa using Matches.seq (matchOpt (matchItem first comma list)) last

theorem matchLastItem {item : Pattern} {closing : Kind} {a : List Token} {c : Token}
    (first : Matches item a) (close : c.kind = closing) :
    Matches (Ebnf.opt (Ebnf.commaList item) ++ Ebnf.kind closing) (a ++ [c]) := by
  have list : Matches (Ebnf.commaList item) (a ++ ([] ++ [])) := .seq first (.seq .done matchNone)
  simpa using Matches.seq (matchOpt list) (matchKind close)

theorem matchStatement {a newlines b : List Token} {t : Token} (first : Matches (.rule .stmt) a)
    (newline : t.kind = .newline) (skipped : Newlines newlines)
    (more : Matches (Phrase.Derives.statementsPattern ++ Ebnf.kind .rbrace) b) :
    Matches (Phrase.Derives.statementsPattern ++ Ebnf.kind .rbrace) (a ++ t :: (newlines ++ b)) := by
  cases more with
  | seq list last =>
    cases list with
    | left list =>
      cases list with
      | seq next tail =>
        cases tail with
        | seq others skip =>
          have part := Matches.seq (Matches.seq (matchKind newline) (matchNewlines skipped)) next
          have whole := Matches.seq first (Matches.seq (Matches.again part others) skip)
          have list : Matches Phrase.Derives.statementsPattern _ := matchOpt whole
          simpa using Matches.seq list last
    | right none =>
      cases none
      have skip : Matches Ebnf.newlines (t :: newlines) :=
        matchNewlines (List.forall_mem_cons.mpr ⟨newline, skipped⟩)
      have list : Matches Phrase.Derives.statementsPattern _ := matchOpt (.seq first (.seq .done skip))
      simpa using Matches.seq list last

theorem matchEntry {a before after b : List Token} {c : Token} (first : Matches (.rule .prop) a)
    (skipped : Newlines before) (comma : c.kind = .comma) (skipped' : Newlines after)
    (more : Matches (Phrase.Derives.entriesPattern ++ Ebnf.kind .rbrace) b) :
    Matches (Phrase.Derives.entriesPattern ++ Ebnf.kind .rbrace)
      (a ++ (before ++ c :: (after ++ b))) := by
  cases more with
  | seq list last =>
    cases list with
    | left list =>
      cases list with
      | seq next tail =>
        cases tail with
        | seq skip tail =>
          cases tail with
          | seq others comma' =>
            have part := Matches.seq (matchKind comma)
              (Matches.seq (matchNewlines skipped') (Matches.seq next skip))
            have whole := Matches.seq first
              (Matches.seq (matchNewlines skipped) (Matches.seq (Matches.again part others) comma'))
            have list : Matches Phrase.Derives.entriesPattern _ := matchOpt whole
            simpa using Matches.seq list last
    | right none =>
      cases none
      have final := matchOpt (Matches.seq (matchKind comma) (matchNewlines skipped'))
      have list : Matches Phrase.Derives.entriesPattern _ :=
        matchOpt (.seq first (.seq (matchNewlines skipped) (.seq .done final)))
      simpa using Matches.seq list last

theorem matchPrimary {p : Pattern} {s : List Token} (inner : Matches p s) (member : p ∈ Ebnf.primaries) :
    Matches (.rule .primary) s := .rule (matchOneOf member inner)

theorem matchArrow {p : List Token} {body : List Token} {mark : Token}
    (params : Matches (Ebnf.kind .ident ||| .rule .params) p) (arrow : mark.kind = .arrow)
    (inner : Matches (Ebnf.newlines ++ (.rule .block ||| .notFirst .lbrace (.rule .expr))) body) :
    Matches (.rule .primary) (p ++ mark :: body) := by
  have whole : Matches (.rule .arrow) (p ++ mark :: body) := .rule (.seq params (matchCons arrow inner))
  exact matchPrimary whole (by simp [Ebnf.primaries])

theorem readsDerives {phrase : Phrase} {used rest : List Token} (reads : Reads phrase used rest) :
    phrase.Derives used := by
  induction reads with
  | single _ _ ih =>
    have whole : Matches (.rule .expr) _ := .rule (.seq ih matchNone)
    rwa [List.append_nil] at whole
  | choice mark colon _ _ _ ih left right =>
    exact .rule (.seq ih (matchOpt (.seq (matchKind mark) (.seq left (.seq (matchKind colon) right)))))
  | chain _ _ ih more => exact .rule (.seq ih more)
  | noLink => exact .done
  | link binds _ _ ih more => exact .again (.seq (matchBinop binds) ih) more
  | sign mark _ ih =>
    rcases mark with mark | mark
    · exact .rule (.left (.seq (.left (matchKind mark)) ih))
    · exact .rule (.left (.seq (.right (matchKind mark)) ih))
  | suffixed _ _ ih more => exact .rule (.right (.rule (.seq ih more)))
  | noSuffix => exact .done
  | name mark word _ ih =>
    exact .again (matchOneOf List.mem_cons_self (matchCons mark (matchKind word))) ih
  | index opening closing _ _ ih more =>
    have part := matchCons opening (Matches.seq ih (matchKind closing))
    have whole : Matches (.star (Ebnf.oneOf Ebnf.suffixes)) _ := .again (matchOneOf (by simp [Ebnf.suffixes]) part) more
    simpa [Phrase.Derives] using whole
  | call opening _ _ ih more =>
    have args : Matches (.rule .args) _ := .rule (matchCons opening ih)
    exact .again (matchOneOf (by simp [Ebnf.suffixes]) args) more
  | number kind => exact matchPrimary (matchKind kind) (by simp [Ebnf.primaries])
  | string kind => exact matchPrimary (matchKind kind) (by simp [Ebnf.primaries])
  | truth kind => exact matchPrimary (matchKind kind) (by simp [Ebnf.primaries])
  | falsity kind => exact matchPrimary (matchKind kind) (by simp [Ebnf.primaries])
  | null kind => exact matchPrimary (matchKind kind) (by simp [Ebnf.primaries])
  | ident kind => exact matchPrimary (matchKind kind) (by simp [Ebnf.primaries])
  | arrowOfName kind mark _ ih => exact matchArrow (.left (matchKind kind)) mark ih
  | arrowOfNames opening mark _ _ _ ih more =>
    have params : Matches (.rule .params) _ := .rule (matchCons opening ih)
    exact matchArrow (.right params) mark more
  | group opening closing _ _ ih =>
    exact matchPrimary (matchCons opening (.seq ih (matchKind closing))) (by simp [Ebnf.primaries])
  | array opening _ ih => exact matchPrimary (matchCons opening ih) (by simp [Ebnf.primaries])
  | object opening skipped _ ih =>
    have whole : Matches (.rule .object) _ := .rule (matchCons opening (.seq (matchNewlines skipped) ih))
    exact matchPrimary whole (by simp [Ebnf.primaries])
  | noItem close => exact .seq matchNone (matchKind close)
  | lastItem close _ ih => exact matchLastItem ih close
  | item comma _ _ ih more => exact matchItems ih comma more
  | noName close => exact .seq matchNone (matchKind close)
  | lastName close word => exact matchLastItem (matchKind word) close
  | oneName comma word _ ih => exact matchItems (matchKind word) comma ih
  | blockBody skipped _ ih => exact .seq (matchNewlines skipped) (.left ih)
  | expressionBody skipped start inner ih =>
    refine .seq (matchNewlines skipped) (.right (.notFirst ?_ ih))
    intro t first brace
    obtain ⟨more, rfl⟩ := List.head?_eq_some_iff.mp first
    exact start brace
  | block opening skipped _ ih => exact .rule (matchCons opening (.seq (matchNewlines skipped) ih))
  | noStatement close => exact .seq matchNone (matchKind close)
  | lastStatement close _ ih =>
    have list : Matches Phrase.Derives.statementsPattern _ := matchOpt (.seq ih (.seq .done .done))
    simpa [Phrase.Derives] using Matches.seq list (matchKind close)
  | oneStatement newline skipped _ _ ih more => exact matchStatement ih newline skipped more
  | assignment word mark _ ih => exact .rule (.left (.seq (matchKind word) (.seq (matchKind mark) ih)))
  | expression _ ih => exact .rule (.right ih)
  | noEntry close => exact .seq matchNone (matchKind close)
  | lastEntry close skipped _ ih =>
    have list : Matches Phrase.Derives.entriesPattern _ :=
      matchOpt (.seq ih (.seq (matchNewlines skipped) (.seq .done matchNone)))
    simpa [Phrase.Derives] using Matches.seq list (matchKind close)
  | oneEntry comma skipped skipped' _ _ ih more => exact matchEntry ih skipped comma skipped' more
  | method word opening skipped _ _ ih more =>
    have params : Matches (.rule .params) _ := .rule (matchCons opening ih)
    have rest := Matches.seq params (Matches.seq (matchNewlines skipped) more)
    exact .rule (.left (.seq (matchKey word) rest))
  | plain word mark _ ih => exact .rule (.right (.seq (matchKey word) (.seq (matchKind mark) ih)))

theorem programDerivable {tree : Node} {body : List Token} {stop : Token} (ends : stop.kind = .eof)
    (reads : ReadsProgram tree body) : Ebnf.Derivable (body ++ [stop]) := by
  obtain ⟨before, used, after, rfl, skipped, skipped', _, reads⟩ := reads
  have tail := Matches.seq (matchNewlines skipped') (matchKind ends)
  have whole : Ebnf.Derivable _ := .rule (.seq (matchNewlines skipped) (.seq (readsDerives reads) tail))
  simpa using whole

end Scriptlet.Parse
