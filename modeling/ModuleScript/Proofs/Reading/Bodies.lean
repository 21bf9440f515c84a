import ModuleScript.Proofs.Reading.Below
import ModuleScript.Proofs.Reading.Moved

/-!
# Statements in a row

What is read of the statements of a body does not depend on the statements before them, nor on
whether the body is a program or that of a module. So the statements of two programs can be read one
behind the other, or in a module.
-/

set_option autoImplicit false

namespace ModuleScript

namespace Reader

variable {b : List Stmt → List Pending} {r r' r₁ : Reader} {t : Token} {ts : List Token}
  {p : Program}

/-- The second reader holds the statements in another body and is like the first in all else. -/
def Held (b : List Stmt → List Pending) (r r' : Reader) : Prop :=
  ∃ q done, r = onto q [.program done] ∧ r' = onto q (b done)

theorem feed_held (hb : Body b) (h : Held b r r') (hfeed : r.feed t = .ok r₁) :
    ∃ r₁', r'.feed t = .ok r₁' ∧ Held b r₁ r₁' := by
  obtain ⟨q, done, rfl, rfl⟩ := h
  rcases feed_onto q t with hsteady | ⟨x, hmeets, hlands, -⟩
  · obtain ⟨q₁, hq, rfl⟩ := hsteady.ok hfeed
    rw [hsteady, hq]
    exact ⟨_, rfl, q₁, done, rfl, rfl⟩
  · rw [hlands] at hfeed ⊢
    rcases feed_program hmeets hfeed with ⟨e, op, rfl, hf, rfl⟩ | ⟨s, hs, hf, rfl⟩
    · refine ⟨⟨.binary t.location op e :: b done, .operand⟩, ?_,
        ⟨[.binary t.location op e], .operand⟩, done, rfl, rfl⟩
      refine (continueWith_operator hf _ e).trans ?_
      rw [(hb.walled done).operators]
    · refine ⟨⟨b (done ++ [s]), .item⟩, ?_, ⟨[], .item⟩, done ++ [s], rfl, rfl⟩
      have hend : endStatement t .separator s (b done) = .ok ⟨b (done ++ [s]), .item⟩ := by
        unfold endStatement
        rw [hb.add]
        rfl
      rcases hs with rfl | ⟨e, rfl, rfl⟩
      · change endItem t s (b done) = _
        unfold endItem
        rw [hf]
        exact hend
      · refine (continueWith_closer hf _ e).trans ?_
        change (settle false (b done) e).bind _ = _
        rw [(hb.walled done).settle]
        change (statement (b done) e).bind _ = _
        rw [(hb.walled done).statement]
        exact hend

theorem feedAll_held (hb : Body b) (h : Held b r r') (hfeed : r.feedAll ts = .ok r₁) :
    ∃ r₁', r'.feedAll ts = .ok r₁' ∧ Held b r₁ r₁' := by
  induction ts generalizing r r' with
  | nil =>
    cases hfeed
    exact ⟨r', rfl, h⟩
  | cons t ts ih =>
    obtain ⟨q, hq, hrest⟩ := exists_of_bind_eq_ok hfeed
    obtain ⟨q', hq', hheld⟩ := feed_held hb h hq
    obtain ⟨r₁', hr₁', hheld⟩ := ih hheld hrest
    refine ⟨r₁', ?_, hheld⟩
    change (r'.feed t).bind _ = _
    rw [hq']
    exact hr₁'

/-! ## Where a body may end -/

theorem whole_iff_separator {s : Stmt} {pending : List Pending} :
    whole s pending = .ok p ↔ endStatement t .separator s pending = .ok ⟨[.program p], .item⟩ := by
  unfold whole endStatement
  cases addStatement? s pending with
  | none => exact ⟨nofun, nofun⟩
  | some pending' =>
    have hc : Closer.separator ≠ .rightBrace := nofun
    dsimp only
    rw [if_neg hc]
    constructor
    · intro h
      split at h
      · rename_i done hdone
        cases h
        cases hdone
        rfl
      · cases h
    · intro h
      cases h
      rfl

/-- A program may end exactly where a separator may end its last statement. -/
theorem finish_iff_separator (ht : t.kind = .newline ∨ t.kind = .mark .semicolon) :
    r.finish = .ok p ↔ r.feed t = .ok ⟨[.program p], .item⟩ := by
  have hf : follower? t.kind = some (.closer .separator) := by
    rcases ht with ht | ht <;> rw [ht] <;> rfl
  obtain ⟨pending, x⟩ := r
  cases x with
  | item =>
    have hfeed : feed ⟨pending, .item⟩ t = .ok ⟨pending, .item⟩ := by
      obtain ⟨k, l⟩ := t
      rcases ht with rfl | rfl <;> rfl
    rw [hfeed, finish_item]
    constructor
    · rintro rfl
      rfl
    · intro h
      cases h
      rfl
  | more e flaw =>
    cases flaw with
    | some flaw =>
      have hfeed : feed ⟨pending, .more e (some flaw)⟩ t = .error flaw := by
        change continueWith t pending e (some flaw) = _
        unfold continueWith
        rw [hf]
      rw [hfeed]
      exact ⟨nofun, nofun⟩
    | none =>
      have hfeed : feed ⟨pending, .more e none⟩ t = (settle false pending e).bind fun q =>
          (statement q.1 q.2).bind fun u => endStatement t .separator u.2 u.1 :=
        continueWith_closer hf pending e
      rw [finish_more, hfeed]
      cases settle false pending e with
      | error f => exact ⟨nofun, nofun⟩
      | ok q =>
        change (statement q.1 q.2).bind _ = _ ↔ (statement q.1 q.2).bind _ = _
        cases statement q.1 q.2 with
        | error f => exact ⟨nofun, nofun⟩
        | ok u => exact whole_iff_separator
  | ended s =>
    have hfeed : feed ⟨pending, .ended s⟩ t = endStatement t .separator s pending := by
      change endItem t s pending = _
      unfold endItem
      rw [hf]
    rw [hfeed]
    exact whole_iff_separator
  | within h =>
    obtain ⟨k, l⟩ := t
    have hfeed : feed ⟨pending, .within h⟩ ⟨k, l⟩ = unexpected ⟨k, l⟩ := by
      rcases ht with rfl | rfl <;> cases h <;> first | rfl | (rename_i b _; cases b <;> rfl)
    rw [hfeed]
    exact ⟨nofun, nofun⟩
  | _ =>
    obtain ⟨k, l⟩ := t
    rcases ht with rfl | rfl <;> exact ⟨nofun, nofun⟩

/-- A right brace may stand where a separator may. -/
theorem feed_rightBrace {pending : List Pending} {l l' : Location}
    (h : r.feed ⟨.mark .semicolon, l⟩ = .ok ⟨pending, .item⟩) :
    r.feed ⟨.mark .rightBrace, l'⟩ = closeBody ⟨.mark .rightBrace, l'⟩ pending := by
  have hend : ∀ s pending', endStatement ⟨.mark .semicolon, l⟩ .separator s pending' =
      .ok ⟨pending, .item⟩ → endStatement ⟨.mark .rightBrace, l'⟩ .rightBrace s pending' =
        closeBody ⟨.mark .rightBrace, l'⟩ pending := by
    intro s pending' h
    unfold endStatement at h ⊢
    cases hadd : addStatement? s pending' with
    | none =>
      rw [hadd] at h
      cases h
    | some pending'' =>
      rw [hadd] at h
      cases h
      rfl
  obtain ⟨pending', x⟩ := r
  cases x with
  | item =>
    cases h
    rfl
  | more e flaw =>
    cases flaw with
    | some flaw => cases h
    | none =>
      obtain ⟨q, hq, hclose⟩ := exists_of_bind_eq_ok h
      obtain ⟨u, hu, hclose⟩ := exists_of_bind_eq_ok hclose
      have hsettle : settle false pending' e = .ok q := hq
      change (settle false pending' e).bind _ = _
      rw [hsettle]
      change (statement q.1 q.2).bind _ = _
      rw [hu]
      exact hend u.2 u.1 hclose
  | ended s => exact hend s pending' h
  | within head => cases head <;> first | contradiction | (rename_i b _; cases b <;> contradiction)
  | _ => cases h

/-- Separators where a statement may stand change nothing. -/
theorem feedAll_separators {pending : List Pending}
    (hs : ∀ t ∈ ts, t.kind = .newline ∨ t.kind = .mark .semicolon) :
    feedAll ⟨pending, .item⟩ ts = .ok ⟨pending, .item⟩ := by
  induction ts with
  | nil => rfl
  | cons t ts ih =>
    have hfeed : feed ⟨pending, .item⟩ t = .ok ⟨pending, .item⟩ := by
      obtain ⟨k, l⟩ := t
      rcases hs _ (.head _) with rfl | rfl <;> rfl
    change (feed _ t).bind _ = _
    rw [hfeed]
    exact ih fun u hu => hs u (.tail _ hu)

theorem body_behind (p : Program) : Body fun done => [.program (p ++ done)] :=
  ⟨fun _ => ⟨⟨fun _ _ => rfl, fun _ _ => rfl⟩, fun _ => rfl⟩,
    fun done s => by rw [addStatement?, List.append_assoc]⟩

/-- The statements of a program are read into any body, which may end where the program does. -/
theorem readTokens_held (hb : Body b) (h : readTokens ts = .ok p) :
    ∃ r, feedAll ⟨b [], .item⟩ ts = .ok r ∧
      ∀ t : Token, t.kind = .newline ∨ t.kind = .mark .semicolon →
        r.feed t = .ok ⟨b p, .item⟩ := by
  obtain ⟨r, hr, hfinish⟩ := exists_of_bind_eq_ok h
  obtain ⟨r', hr', hheld⟩ := feedAll_held hb ⟨⟨[], .item⟩, [], rfl, rfl⟩ hr
  refine ⟨r', hr', fun t ht => ?_⟩
  obtain ⟨r₁', hfeed, q, done, hq, rfl⟩ :=
    feed_held hb hheld ((finish_iff_separator ht).mp hfinish)
  rw [hfeed]
  obtain ⟨pending, x⟩ := q
  cases pending with
  | nil =>
    cases hq
    rfl
  | cons q pending =>
    have hlength := congrArg (fun r => r.pending.length) hq
    simp [onto] at hlength

end Reader

open Reader

variable {ts us : List Token} {p q : Program}

/-- Two programs with separators between them make one. -/
theorem readTokens_append (hp : readTokens ts = .ok p) (hq : readTokens us = .ok q)
    {between : List Token} (hne : between ≠ [])
    (hs : ∀ t ∈ between, t.kind = .newline ∨ t.kind = .mark .semicolon) :
    readTokens (ts ++ (between ++ us)) = .ok (p ++ q) := by
  obtain ⟨r, hr, hseparator⟩ := readTokens_held body_program hp
  obtain ⟨r', hr', hend⟩ := readTokens_held (body_behind p) hq
  have hbetween : r.feedAll between = .ok ⟨[.program p], .item⟩ := by
    cases between with
    | nil => exact absurd rfl hne
    | cons t between =>
      change (r.feed t).bind _ = _
      rw [hseparator t (hs t (.head _))]
      exact feedAll_separators fun u hu => hs u (.tail _ hu)
  have hfinish : r'.finish = .ok (p ++ q) :=
    (finish_iff_separator (t := ⟨.newline, .start []⟩) (.inl rfl)).mpr (hend _ (.inl rfl))
  rw [List.append_nil] at hr'
  change (Reader.start.feedAll (ts ++ (between ++ us))).bind _ = _
  have hstart : Reader.start.feedAll ts = .ok r := hr
  rw [feedAll_append, hstart]
  change ((r.feedAll (between ++ us))).bind _ = _
  rw [feedAll_append, hbetween]
  change (feedAll _ us).bind _ = _
  rw [hr']
  exact hfinish

/-- A program in braces behind the name of a module makes its body. -/
theorem readTokens_module (hp : readTokens ts = .ok p) (l l₁ l₂ l₃ : Location) (n : Ident)
    {behind : List Token} (hs : ∀ t ∈ behind, t.kind = .newline ∨ t.kind = .mark .semicolon) :
    readTokens (⟨.keyword .modWord, l⟩ :: ⟨.identifier n, l₁⟩ :: ⟨.mark .leftBrace, l₂⟩ ::
      (ts ++ (behind ++ [⟨.mark .rightBrace, l₃⟩]))) = .ok [.module l false n p] := by
  obtain ⟨r, hr, hend⟩ := readTokens_held (body_module l false n [.program []]) hp
  have hbrace : r.feedAll (behind ++ [⟨.mark .rightBrace, l₃⟩]) =
      .ok ⟨[.program []], .ended (.module l false n p)⟩ := by
    cases behind with
    | nil =>
      have hfeed : r.feed ⟨.mark .rightBrace, l₃⟩ = _ :=
        feed_rightBrace (hend ⟨.mark .semicolon, l₃⟩ (.inr rfl))
      change (r.feed ⟨.mark .rightBrace, l₃⟩).bind _ = _
      rw [hfeed]
      rfl
    | cons t behind =>
      change (r.feed t).bind _ = _
      rw [hend t (hs t (.head _))]
      change feedAll _ (behind ++ _) = _
      rw [feedAll_append, feedAll_separators fun u hu => hs u (.tail _ hu)]
      rfl
  change (feedAll ⟨[.moduleBody l false n [], .program []], .item⟩ (ts ++ _)).bind _ = _
  rw [feedAll_append, hr]
  change (r.feedAll _).bind _ = _
  rw [hbrace]
  rfl

end ModuleScript
