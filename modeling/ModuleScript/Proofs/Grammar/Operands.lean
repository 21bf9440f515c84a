import ModuleScript.Proofs.Grammar.Exact
import ModuleScript.Proofs.Grammar.Nested
import ModuleScript.Proofs.Reading.Bottom

/-!
# Operands

A primary with the calls behind it begins with a literal, a name or a bracket, and outside its
brackets only the parentheses of calls follow. So it is an operand alone as it is among others, and
it is read the same wherever an operand may come.
-/

set_option autoImplicit false

namespace ModuleScript

open Reader

namespace Grammar

open ModuleScript.Bracket

variable {e : Expr}

/-- The kinds that a primary begins with. -/
def BeginsPrimary : Token.Kind → Prop
  | .identifier _ | .dotted _ | .number _ | .float _ | .string _ | .char _ => True
  | .keyword k => k = .trueWord ∨ k = .falseWord
  | .mark m => m = .leftParen ∨ m = .leftBracket ∨ m = .leftBrace
  | .newline => False

theorem primary_tokens (p : Tree .primary) :
    ∃ t ts, p.tokens = t :: ts ∧ BeginsPrimary t.kind ∧ (ts = [] ∨ Enclosed p.tokens) := by
  cases p with
  | group l l₁ t =>
    exact ⟨_, _, rfl, .inl rfl, .inr ⟨.round, l, l₁, t.tokens, nested_tokens t, rfl⟩⟩
  | unit l l₁ => exact ⟨_, _, rfl, .inl rfl, .inr ⟨.round, l, l₁, [], nested_nil, rfl⟩⟩
  | block l l₁ t =>
    exact ⟨_, _, rfl, .inr (.inr rfl), .inr ⟨.curly, l, l₁, t.tokens, nested_tokens t, rfl⟩⟩
  | list l l₁ t =>
    exact ⟨_, _, rfl, .inr (.inl rfl), .inr ⟨.square, l, l₁, t.tokens, nested_tokens t, rfl⟩⟩
  | range l l₁ l₂ a b =>
    exact ⟨_, _, rfl, .inr (.inl rfl), .inr (enclosed_range (nested_tokens a) (nested_tokens b))⟩
  | comprehension l l₁ l₂ l₃ l₄ a x b =>
    exact ⟨_, _, rfl, .inr (.inl rfl),
      .inr (enclosed_comprehension (nested_tokens a) (nested_tokens b))⟩
  | filtered l l₁ l₂ l₃ l₄ l₅ a x b c =>
    exact ⟨_, _, rfl, .inr (.inl rfl),
      .inr (enclosed_filtered (nested_tokens a) (nested_tokens b) (nested_tokens c))⟩
  | bool l b => cases b <;> exact ⟨_, _, rfl, by simp [BeginsPrimary], .inl rfl⟩
  | _ => exact ⟨_, _, rfl, trivial, .inl rfl⟩

theorem applied_begins (a : Tree .applied) :
    ∃ t ts, a.tokens = t :: ts ∧ BeginsPrimary t.kind := by
  cases a with
  | uncalled p =>
    obtain ⟨t, ts, htokens, hbegins, -⟩ := primary_tokens p
    exact ⟨t, ts, htokens, hbegins⟩
  | call f l₁ l₂ es =>
    obtain ⟨t, ts, htokens, hbegins⟩ := applied_begins f
    refine ⟨t, ts ++ ⟨.mark .leftParen, l₁⟩ :: es.tokens ++ [⟨.mark .rightParen, l₂⟩], ?_, hbegins⟩
    change f.tokens ++ ⟨.mark .leftParen, l₁⟩ :: es.tokens ++ [⟨.mark .rightParen, l₂⟩] = _
    rw [htokens]
    simp

/-- Outside its brackets, an operand goes on only with a call. -/
theorem leftParen_of_applied (a : Tree .applied) {ts us : List Token} {t : Token}
    (htokens : a.tokens = ts ++ t :: us) (hne : ts ≠ []) (hts : behindAll [] ts = []) :
    t.kind = .mark .leftParen := by
  cases a with
  | uncalled p =>
    obtain ⟨u, vs, hp, -, hclosed⟩ := primary_tokens p
    change p.tokens = _ at htokens
    rcases hclosed with rfl | henclosed
    · rw [hp] at htokens
      have hlength := congrArg List.length htokens
      have hpos := List.length_pos_iff.mpr hne
      simp only [List.length_cons, List.length_nil, List.length_append] at hlength
      omega
    · exact absurd hts (henclosed.behindAll_ne_nil htokens hne)
  | call f l₁ l₂ es =>
    have hcall : f.tokens ++ ⟨.mark .leftParen, l₁⟩ :: (es.tokens ++ [⟨.mark .rightParen, l₂⟩]) =
        ts ++ t :: us := by
      refine (List.append_assoc ..).symm.trans htokens
    rcases List.append_eq_append_iff.mp hcall with ⟨vs, hts', hrest⟩ | ⟨vs, hf, hrest⟩
    · cases vs with
      | nil =>
        obtain ⟨ht, -⟩ := List.cons.inj hrest
        rw [← ht]
      | cons v vs =>
        -- the tokens reach into the arguments
        have harguments : Enclosed (⟨.mark .leftParen, l₁⟩ ::
            (es.tokens ++ [⟨.mark .rightParen, l₂⟩])) :=
          ⟨.round, l₁, l₂, es.tokens, nested_tokens es, rfl⟩
        rw [hts', behindAll_append, (nested_tokens f).balanced] at hts
        exact absurd hts (harguments.behindAll_ne_nil hrest (List.cons_ne_nil _ _))
    · cases vs with
      | nil =>
        obtain ⟨ht, -⟩ := List.cons.inj hrest
        rw [ht]
      | cons v vs =>
        obtain ⟨rfl, -⟩ := List.cons.inj hrest
        exact leftParen_of_applied f hf hne hts

/-- The tokens of an operand are derived as an expression only by a tree of an operand. -/
theorem operand_of_tokens (a : Tree .applied) (x : Tree .expression) (hclear : x.clear true = true)
    (h : x.tokens = a.tokens) : ∃ b : Tree .applied, x = .operand b := by
  obtain ⟨u, us, hbegin, hbegins⟩ := applied_begins a
  have hfirst : ∀ v vs, x.tokens = v :: vs → BeginsPrimary v.kind := by
    intro v vs hx
    cases (h.symm.trans hx).symm.trans hbegin
    exact hbegins
  cases x with
  | operand b => exact ⟨b, rfl⟩
  | @binary l m op hop b c =>
    obtain ⟨⟨v, vs, hb, -⟩, -⟩ := read_of_clear b (Bool.and_eq_true_iff.mp hclear).1
    have hne : b.tokens ≠ [] := by
      rw [hb]
      exact List.cons_ne_nil _ _
    have hm := leftParen_of_applied a h.symm hne ((nested_tokens b).balanced [])
    cases m <;> cases hop <;> cases hm
  | @unary l m op hop b =>
    have hm := hfirst _ _ rfl
    cases m <;> cases hop <;> simp [BeginsPrimary] at hm
  | _ =>
    have hk := hfirst _ _ rfl
    simp [BeginsPrimary] at hk

/-- No separator stands outside the brackets of an operand. -/
theorem oneItem_of_tokens (a : Tree .applied) (items : Tree .items) (h : items.tokens = a.tokens) :
    ∃ item, items = .oneItem item := by
  obtain ⟨u, us, hbegin, hbegins⟩ := applied_begins a
  cases items with
  | oneItem item => exact ⟨item, rfl⟩
  | moreItems ts s t =>
    have htokens : a.tokens = ts.tokens ++ (s.tokens ++ t.tokens) :=
      h.symm.trans (List.append_assoc ..)
    have hseparator : ∃ v, s.tokens = [v] ∧ IsSeparator v := by
      cases s with
      | newline l => exact ⟨_, rfl, .inl rfl⟩
      | semicolon l => exact ⟨_, rfl, .inr rfl⟩
    obtain ⟨v, hv, hkind⟩ := hseparator
    rw [hv] at htokens
    by_cases hts : ts.tokens = []
    · rw [hts, hbegin] at htokens
      cases htokens
      rcases hkind with hkind | hkind <;> rw [hkind] at hbegins <;> simp [BeginsPrimary] at hbegins
    · have hparen := leftParen_of_applied a htokens hts ((nested_tokens ts).balanced [])
      rcases hkind with hkind | hkind <;> rw [hkind] at hparen <;> cases hparen

/-- An operand that is read alone is read as one. -/
theorem clear_of_applied (a : Tree .applied) (h : readTokens a.tokens = .ok [.expr e]) :
    ∃ b : Tree .applied, b.tokens = a.tokens ∧ b.clear true = true := by
  obtain ⟨⟨items⟩, htokens, -, hclear⟩ := derives_of_readTokens h
  obtain ⟨u, us, hbegin, hbegins⟩ := applied_begins a
  obtain ⟨item, rfl⟩ := oneItem_of_tokens a items htokens
  have hfirst := htokens.trans hbegin
  cases item with
  | blank => cases hfirst
  | filled s =>
    cases s with
    | declaration d => cases d <;> cases hfirst <;> simp [BeginsPrimary] at hbegins
    | expression x =>
      obtain ⟨b, rfl⟩ := operand_of_tokens a x hclear htokens
      exact ⟨b, htokens, hclear⟩

/-- An operand is read over everything as it is read alone. -/
theorem feedAll_applied (a : Tree .applied) (h : readTokens a.tokens = .ok [.expr e])
    (base : List Pending) : feedAll ⟨base, .operand⟩ a.tokens = .ok ⟨base, .more e none⟩ := by
  obtain ⟨b, htokens, hclear⟩ := clear_of_applied a h
  rw [← htokens] at h ⊢
  obtain ⟨⟨u, us, hbegin, hopens⟩, htakes⟩ := read_of_clear b hclear
  obtain ⟨r, hr, hfinish⟩ := exists_of_bind_eq_ok h
  have hstart : feedAll Reader.start b.tokens = feedAll ⟨[.program []], .operand⟩ b.tokens :=
    feedAll_item hopens (by rw [hbegin, List.map_cons])
  rw [hstart] at hr
  have hstays := htakes [.program []]
  unfold Takes at hstays
  rw [hr] at hstays
  cases hstays with
  | ok hstays =>
    obtain ⟨e', flaw, rfl, -⟩ := hstays
    cases flaw with
    | some f => cases hfinish
    | none =>
      cases hfinish
      exact feedAll_operand hr base

end Grammar

end ModuleScript
