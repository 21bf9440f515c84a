import ModuleScript.Proofs.Grammar.Tree
import ModuleScript.Proofs.Reading.Separating

/-!
# Brackets in programs

In the leaves of a tree each bracket is closed by its own mark, and no mark closes a bracket that is
not opened there. So which newlines count between such tokens does not depend on the brackets around
them, where newlines count directly inside the innermost one.
-/

set_option autoImplicit false

namespace ModuleScript

namespace Bracket

/-- The brackets that are open behind some tokens, if these were before them. -/
def behindAll (opened : List Bracket) (ts : List Token) : List Bracket := ts.foldl behind opened

/-- No token is about a bracket that was opened further out. -/
def Grounded : List Bracket → List Token → Prop
  | _, [] => True
  | opened, t :: ts =>
    (∀ outer, behind (opened ++ outer) t = behind opened t ++ outer) ∧
      Grounded (behind opened t) ts

/-- The tokens close the brackets that they open and no others. -/
structure Nested (ts : List Token) : Prop where
  grounded : ∀ opened, Grounded opened ts
  balanced : ∀ opened, behindAll opened ts = opened

/-- The kinds that are no brackets. -/
def IsPlain (k : Token.Kind) : Prop := ∀ opened l, behind opened ⟨k, l⟩ = opened

variable {opened : List Bracket} {ts us : List Token} {k : Token.Kind} {l : Location}

theorem grounded_append :
    Grounded opened (ts ++ us) ↔ Grounded opened ts ∧ Grounded (behindAll opened ts) us := by
  induction ts generalizing opened with
  | nil => exact ⟨fun h => ⟨trivial, h⟩, And.right⟩
  | cons t ts ih =>
    have hrest : Grounded (behind opened t) (ts ++ us) ↔ _ := ih
    exact ⟨fun h => ⟨⟨h.1, (hrest.mp h.2).1⟩, (hrest.mp h.2).2⟩,
      fun h => ⟨h.1.1, hrest.mpr ⟨h.1.2, h.2⟩⟩⟩

theorem behindAll_append (opened : List Bracket) (ts us : List Token) :
    behindAll opened (ts ++ us) = behindAll (behindAll opened ts) us :=
  List.foldl_append

theorem behindAll_over (h : Grounded opened ts) (outer : List Bracket) :
    behindAll (opened ++ outer) ts = behindAll opened ts ++ outer := by
  induction ts generalizing opened with
  | nil => rfl
  | cons t ts ih =>
    change behindAll (behind (opened ++ outer) t) ts = behindAll (behind opened t) ts ++ outer
    rw [h.1, ih h.2]

theorem nested_nil : Nested [] := ⟨fun _ => trivial, fun _ => rfl⟩

theorem Nested.append (hts : Nested ts) (hus : Nested us) : Nested (ts ++ us) where
  grounded opened := by
    rw [grounded_append, hts.balanced]
    exact ⟨hts.grounded opened, hus.grounded opened⟩
  balanced opened := by rw [behindAll_append, hts.balanced, hus.balanced]

theorem nested_plain (h : IsPlain k) : Nested [⟨k, l⟩] where
  grounded opened := ⟨fun outer => by rw [h, h], trivial⟩
  balanced opened := h opened l

theorem Nested.plain (h : IsPlain k) (hts : Nested ts) : Nested (⟨k, l⟩ :: ts) :=
  (nested_plain h).append hts

theorem behind_opening (b : Bracket) (opened : List Bracket) (l : Location) :
    behind opened ⟨.mark b.opening, l⟩ = b :: opened := by
  cases b <;> rfl

theorem behind_closing (b : Bracket) (opened : List Bracket) (l : Location) :
    behind (b :: opened) ⟨.mark b.closing, l⟩ = opened := by
  cases b <;> rfl

theorem Nested.enclosed (b : Bracket) (l l' : Location) (hts : Nested ts) :
    Nested (⟨.mark b.opening, l⟩ :: (ts ++ [⟨.mark b.closing, l'⟩])) where
  grounded opened := by
    refine ⟨fun outer => ?_, ?_⟩
    · rw [behind_opening, behind_opening, List.cons_append]
    · rw [grounded_append, behind_opening, hts.balanced]
      refine ⟨hts.grounded _, fun outer => ?_, trivial⟩
      rw [List.cons_append, behind_closing, behind_closing]
  balanced opened := by
    change behindAll (behind opened ⟨.mark b.opening, l⟩) (ts ++ _) = _
    rw [behind_opening, behindAll_append, hts.balanced]
    exact behind_closing b opened l'

/-- Nested tokens in brackets of their own. -/
def Enclosed (ts : List Token) : Prop :=
  ∃ (b : Bracket) (l l' : Location) (us : List Token), Nested us ∧
    ts = ⟨.mark b.opening, l⟩ :: (us ++ [⟨.mark b.closing, l'⟩])

theorem Enclosed.nested (h : Enclosed ts) : Nested ts := by
  obtain ⟨b, l, l', us, hus, rfl⟩ := h
  exact hus.enclosed b l l'

/-- The first bracket is not closed before the last token. -/
theorem Enclosed.behindAll_ne_nil {t : Token} {us' : List Token} (h : Enclosed ts)
    (hts : ts = us ++ t :: us') (hne : us ≠ []) : behindAll [] us ≠ [] := by
  obtain ⟨b, l, l', vs, hvs, rfl⟩ := h
  cases us with
  | nil => exact absurd rfl hne
  | cons u us =>
    obtain ⟨hu, htail⟩ := List.cons.inj hts
    have hrest : vs ++ [⟨.mark b.closing, l'⟩] = us ++ t :: us' := htail
    have hprefix : us <+: vs := by
      refine List.prefix_of_prefix_length_le ⟨t :: us', hrest.symm⟩ (List.prefix_append ..) ?_
      have hlength := congrArg List.length hrest
      simp only [List.length_append, List.length_cons, List.length_nil] at hlength
      omega
    obtain ⟨ws, rfl⟩ := hprefix
    have hgrounded := (grounded_append.mp (hvs.grounded [])).1
    change behindAll (behind [] u) us ≠ []
    rw [← hu, behind_opening, ← List.nil_append [b], behindAll_over hgrounded]
    simp

theorem isPlain_mark {m : Mark}
    (h : [round, square, curly].all (fun b => m != b.opening && m != b.closing) = true) :
    IsPlain (.mark m) := by
  have hne : ∀ b : Bracket, m ≠ b.opening ∧ m ≠ b.closing := by
    intro b
    have hb := List.all_eq_true.mp h b (by cases b <;> simp)
    simpa using hb
  intro opened l
  have hopening : [round, square, curly].find? (fun b => Token.Kind.mark m = .mark b.opening) =
      none := by
    simp [(hne _).1]
  unfold behind
  dsimp only
  rw [hopening]
  cases opened with
  | nil => rfl
  | cons b outer =>
    dsimp only
    rw [if_neg fun hm => (hne b).2 (Token.Kind.mark.inj hm)]

theorem isPlain_leaf {k : Token.Kind} (h : ∀ m, k ≠ .mark m) : IsPlain k := by
  intro opened l
  cases k with
  | mark m => exact absurd rfl (h m)
  | _ => cases opened <;> rfl

/-! ## Newlines between nested tokens -/

open Layout

variable {base : List Bracket} {awaited : List Mark} {last : Option Token.Kind}

theorem isPlain_newline : IsPlain .newline := isPlain_leaf (by simp)

theorem behind_newline {t : Token} (ht : t.kind = .newline) (opened : List Bracket) :
    behind opened t = opened := by
  obtain ⟨k, l⟩ := t
  cases ht
  exact isPlain_newline opened l

theorem behindAll_words (opened : List Bracket) (ts : List Token) :
    behindAll opened (words ts) = behindAll opened ts := by
  induction ts generalizing opened with
  | nil => rfl
  | cons t ts ih =>
    by_cases ht : t.kind = .newline
    · rw [words_newline ht, ih]
      change _ = behindAll (behind opened t) ts
      rw [behind_newline ht]
    · rw [words_cons ht]
      exact ih (behind opened t)

theorem grounded_words : Grounded opened (words ts) ↔ Grounded opened ts := by
  induction ts generalizing opened with
  | nil => rfl
  | cons t ts ih =>
    by_cases ht : t.kind = .newline
    · rw [words_newline ht, ih, Grounded, behind_newline ht]
      exact ⟨fun h => ⟨fun outer => behind_newline ht _, h⟩, And.right⟩
    · rw [words_cons ht, Grounded, Grounded, ih]

/-- Newlines are about no bracket. -/
theorem Nested.of_words (h : Nested (words ts)) : Nested ts where
  grounded opened := grounded_words.mp (h.grounded opened)
  balanced opened := (behindAll_words opened ts).symm.trans (h.balanced opened)

theorem Nested.words (h : Nested ts) : Nested (words ts) where
  grounded opened := grounded_words.mpr (h.grounded opened)
  balanced opened := (behindAll_words opened ts).trans (h.balanced opened)

/-- Brackets around grounded tokens do not matter if newlines count directly inside them. -/
theorem significant_over (h : Grounded opened ts) (hbase : ∀ b ∈ base.head?, b = curly) :
    significant ((opened ++ base).map closing) last ts =
      significant (opened.map closing) last ts := by
  induction ts generalizing opened last with
  | nil => rfl
  | cons t ts ih =>
    obtain ⟨ht, hts⟩ := h
    by_cases hn : t.kind = .newline
    · have hignores : ignoresNewlines ((opened ++ base).map closing) =
          ignoresNewlines (opened.map closing) := by
        cases opened with
        | nil => exact (ignoresNewlines_iff base).mpr hbase
        | cons b opened => rfl
      rw [behind_newline hn] at hts
      rw [significant_newline hn, significant_newline hn, ih hts, ih hts]
      unfold separates
      rw [hignores]
    · rw [significant_word hn, significant_word hn, track_closing, track_closing, ht, ih hts]

end Bracket

namespace Grammar

open ModuleScript.Bracket

section

variable {a b c : Tree .expression} {x : Ident} {l l₁ l₂ l₃ l₄ l₅ : Location}

theorem enclosed_range (ha : Nested a.tokens) (hb : Nested b.tokens) :
    Enclosed (Tree.range l l₁ l₂ a b).tokens := by
  have hinner : Nested (a.tokens ++ ⟨.mark .dots, l₁⟩ :: b.tokens) :=
    ha.append (.plain (isPlain_mark rfl) hb)
  refine ⟨.square, l, l₂, _, hinner, ?_⟩
  change ⟨.mark .leftBracket, l⟩ :: a.tokens ++ ⟨.mark .dots, l₁⟩ :: b.tokens ++
    [⟨.mark .rightBracket, l₂⟩] = _
  rfl

/-- What is said of the name in a comprehension, and over what it ranges. -/
theorem nested_iteration (l₁ l₂ l₃ : Location) (x : Ident) (ha : Nested a.tokens)
    {ts : List Token} (hts : Nested ts) :
    Nested (a.tokens ++ ⟨.keyword .forWord, l₁⟩ :: ⟨.identifier x, l₂⟩ ::
      ⟨.keyword .inWord, l₃⟩ :: ts) := by
  refine ha.append (.plain (isPlain_leaf (by simp)) ?_)
  exact .plain (isPlain_leaf (by simp)) (.plain (isPlain_leaf (by simp)) hts)

theorem enclosed_comprehension (ha : Nested a.tokens) (hb : Nested b.tokens) :
    Enclosed (Tree.comprehension l l₁ l₂ l₃ l₄ a x b).tokens := by
  refine ⟨.square, l, l₄, _, nested_iteration l₁ l₂ l₃ x ha hb, ?_⟩
  change ⟨.mark .leftBracket, l⟩ :: a.tokens ++ [⟨.keyword .forWord, l₁⟩, ⟨.identifier x, l₂⟩,
    ⟨.keyword .inWord, l₃⟩] ++ b.tokens ++ [⟨.mark .rightBracket, l₄⟩] = _
  simp only [opening, closing, List.cons_append, List.nil_append, List.append_assoc]

theorem enclosed_filtered (ha : Nested a.tokens) (hb : Nested b.tokens) (hc : Nested c.tokens) :
    Enclosed (Tree.filtered l l₁ l₂ l₃ l₄ l₅ a x b c).tokens := by
  have hrest : Nested (b.tokens ++ ⟨.keyword .ifWord, l₄⟩ :: c.tokens) :=
    hb.append (.plain (isPlain_leaf (by simp)) hc)
  refine ⟨.square, l, l₅, _, nested_iteration l₁ l₂ l₃ x ha hrest,
    ?_⟩
  change ⟨.mark .leftBracket, l⟩ :: a.tokens ++ [⟨.keyword .forWord, l₁⟩, ⟨.identifier x, l₂⟩,
    ⟨.keyword .inWord, l₃⟩] ++ b.tokens ++ ⟨.keyword .ifWord, l₄⟩ :: c.tokens ++
      [⟨.mark .rightBracket, l₅⟩] = _
  simp only [opening, closing, List.cons_append, List.nil_append, List.append_assoc]

end

/-- The brackets in the leaves of a tree are nested. -/
theorem nested_tokens {s : Symbol} (t : Tree s) : Nested t.tokens := by
  have hword : ∀ k, IsPlain (.keyword k) := fun k => isPlain_leaf (by simp)
  have hname : ∀ n, IsPlain (.identifier n) := fun n => isPlain_leaf (by simp)
  have hcomma : IsPlain (.mark .comma) := isPlain_mark rfl
  have hassign : IsPlain (.mark .assign) := isPlain_mark rfl
  have hbar : IsPlain (.mark .bar) := isPlain_mark rfl
  induction t with
  | program t ih | oneItem t ih | filled t ih | expression t ih | declaration t ih | operand t ih
  | someParams t ih | oneArm t ih | uncalled t ih | someArguments t ih | oneArgument t ih =>
    exact ih
  | blank | noParams | noArguments => exact nested_nil
  | moreItems ts s t ihs ihseparator ih => exact (ihs.append ihseparator).append ih
  | newline l => exact nested_plain (isPlain_leaf (by simp))
  | semicolon l => exact nested_plain (isPlain_mark rfl)
  -- statements
  | publicBinding l l₁ l₂ l₃ n t ih =>
    exact .plain (hword _) (.plain (hword _) (.plain (hname n) (.plain hassign ih)))
  | variation l l₁ l₂ n t ih => exact .plain (hword _) (.plain (hname n) (.plain hassign ih))
  | module l l₁ l₂ l₃ n t ih =>
    exact .plain (hword _) (.plain (hname n) (ih.enclosed .curly l₂ l₃))
  | publicModule l l₁ l₂ l₃ l₄ n t ih =>
    exact .plain (hword _) (.plain (hword _) (.plain (hname n) (ih.enclosed .curly l₃ l₄)))
  | imports l l₁ l₂ t path ih =>
    exact .plain (hword _) (ih.append (.plain (hword _) (nested_plain (isPlain_leaf (by simp)))))
  | oneImport l n | oneParam l n => exact nested_plain (hname n)
  | moreImports t l₁ l₂ n ih | moreParams t l₁ l₂ n ih =>
    exact ih.append (.plain hcomma (nested_plain (hname n)))
  -- expressions
  | binding l l₁ l₂ n t ih => exact .plain (hword _) (.plain (hname n) (.plain hassign ih))
  | lambda l l₁ l₂ l₃ ps t ihps ih =>
    have hparams := ihps.enclosed .round l₁ l₂
    have hrest := hparams.append (.plain (l := l₃) (isPlain_mark (m := .arrow) rfl) ih)
    have hlambda := Nested.plain (l := l) (hword .fnWord) hrest
    change Nested ([⟨.keyword .fnWord, l⟩, ⟨.mark .leftParen, l₁⟩] ++ ps.tokens ++
      [⟨.mark .rightParen, l₂⟩, ⟨.mark .arrow, l₃⟩] ++ t.tokens)
    simpa only [List.cons_append, List.nil_append, List.append_assoc, opening, closing]
      using hlambda
  | cond l l₁ l₂ a b c iha ihb ihc =>
    exact ((Nested.plain (hword _) iha).append (.plain (hword _) ihb)).append (.plain (hword _) ihc)
  | select l t arms ih iharms => exact (Nested.plain (hword _) ih).append iharms
  | @binary l m op hop a b iha ihb =>
    exact iha.append (.plain (isPlain_mark (by cases m <;> cases hop <;> rfl)) ihb)
  | @unary l m op hop t ih =>
    exact .plain (isPlain_mark (by cases m <;> cases hop <;> rfl)) ih
  -- arms
  | moreArms ts t ihs ih => exact ihs.append ih
  | arm l l₁ l₂ x t ih => exact .plain hbar (.plain (hname x) (.plain (hword _) ih))
  | guardedArm l l₁ l₂ l₃ x guard t ihg ih =>
    exact (Nested.plain hbar (.plain (hname x) (.plain (hword _) ihg))).append (.plain (hword _) ih)
  -- operands
  | call f l₁ l₂ t ihf ih =>
    have hcall := ihf.append (ih.enclosed .round l₁ l₂)
    change Nested (f.tokens ++ ⟨.mark .leftParen, l₁⟩ :: t.tokens ++ [⟨.mark .rightParen, l₂⟩])
    rw [List.append_assoc]
    exact hcall
  | moreArguments ts l₁ t ihs ih => exact ihs.append (.plain hcomma ih)
  | number | float | string | char | bool | name | dotted =>
    exact nested_plain (isPlain_leaf (by simp))
  | group l l₁ t ih => exact ih.enclosed .round l l₁
  | unit l l₁ => exact nested_nil.enclosed .round l l₁
  | block l l₁ t ih => exact ih.enclosed .curly l l₁
  | list l l₁ t ih => exact ih.enclosed .square l l₁
  | range l l₁ l₂ a b iha ihb => exact (enclosed_range iha ihb).nested
  | comprehension l l₁ l₂ l₃ l₄ t x b ih ihb => exact (enclosed_comprehension ih ihb).nested
  | filtered l l₁ l₂ l₃ l₄ l₅ t x b c ih ihb ihc => exact (enclosed_filtered ih ihb ihc).nested

end Grammar

end ModuleScript
