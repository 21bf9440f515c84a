import ModuleScript.Proofs.Reading.Placed

/-!
# Where the newlines of a source are

No token but a run of newlines holds a newline, and neither does a comment. So between the
beginnings of two tokens a newline of the source stands exactly if a run of newlines was scanned
there, and the first such run is located at the first newline.
-/

set_option autoImplicit false

namespace ModuleScript

/-- The location behind a text. -/
def Location.past (l : Location) (t : Text) : Location := t.foldl Location.after l

theorem Location.past_append (l : Location) (s t : Text) : l.past (s ++ t) = (l.past s).past t :=
  List.foldl_append

namespace Scan

variable {c quote : CodePoint} {t rest : Text}

/-! ## Pieces -/

theorem newline_ne {p : CodePoint → Bool} (hp : p CodePoint.newline = false) (hc : p c = true) :
    CodePoint.newline ≠ c := by
  intro h
  rw [← h, hp] at hc
  cases hc

theorem newline_notMem_takeWhile {p : CodePoint → Bool} (hp : p CodePoint.newline = false)
    (t : Text) : CodePoint.newline ∉ t.takeWhile p := by
  intro h
  exact newline_ne hp (List.all_eq_true.mp List.all_takeWhile _ h) rfl

theorem take_takeWhile (p : CodePoint → Bool) (t : Text) :
    t.take (t.takeWhile p).length = t.takeWhile p :=
  (List.prefix_iff_eq_take.mp (List.takeWhile_prefix p)).symm

theorem leadingDigits_length (t : Text) :
    (leadingDigits t).length = (t.takeWhile CodePoint.isDigit).length := by
  unfold leadingDigits
  induction t with
  | nil => rfl
  | cons c t ih =>
    by_cases hc : c.isDigit = true
    · obtain ⟨d, hd⟩ := Option.isSome_iff_exists.mp hc
      rw [List.takeWhile_cons_of_pos hc, List.filterMap_cons_some hd, List.length_cons, ih,
        List.length_cons]
    · rw [List.takeWhile_cons_of_neg hc]
      rfl

theorem newline_notMem_digits (t : Text) :
    CodePoint.newline ∉ t.take (leadingDigits t).length := by
  rw [leadingDigits_length, take_takeWhile]
  exact newline_notMem_takeWhile (by decide) t

theorem newline_notMem_fraction {ds : List Nat} (h : fraction? t = some ds) :
    CodePoint.newline ∉ t.take (ds.length + 1) := by
  unfold fraction? at h
  split at h
  · split at h
    · rename_i hdot
      cases h
      rw [List.take_succ_cons, hdot.1]
      exact List.not_mem_cons_of_ne_of_not_mem (by decide) (newline_notMem_digits _)
    · cases h
  · cases h

theorem newline_notMem_literalBody {body : Text} (hq : quote ≠ CodePoint.newline)
    (h : literalBody quote t = some body) : CodePoint.newline ∉ t.take (body.length + 1) := by
  fun_induction literalBody quote t generalizing body with
  | case2 rest =>
    cases h
    exact List.not_mem_cons_of_ne_of_not_mem hq.symm List.not_mem_nil
  | case5 d rest hd _ _ ih =>
    obtain ⟨tail, htail, rfl⟩ := Option.map_eq_some_iff.mp h
    have hrest := List.not_mem_cons_of_ne_of_not_mem (Ne.symm hd) (ih htail)
    change CodePoint.newline ∉ _ :: (d :: rest).take _
    exact List.not_mem_cons_of_ne_of_not_mem (by decide) hrest
  | case7 c rest _ hc _ ih =>
    obtain ⟨tail, htail, rfl⟩ := Option.map_eq_some_iff.mp h
    exact List.not_mem_cons_of_ne_of_not_mem (Ne.symm hc) (ih htail)
  | _ => cases h

theorem newline_notMem_nameTail (t : Text) : CodePoint.newline ∉ t.take (nameTail t).length := by
  fun_induction nameTail t with
  | case2 c rest hc ih => exact List.not_mem_cons_of_ne_of_not_mem (newline_ne (by decide) hc) ih
  | case3 d rest hd _ ih =>
    have hrest := List.not_mem_cons_of_ne_of_not_mem (newline_ne (by decide) hd) ih
    exact List.not_mem_cons_of_ne_of_not_mem (by decide) hrest
  | _ => exact List.not_mem_nil

theorem newline_notMem_mark {m : Mark} (h : Mark.leading? t = some m) :
    CodePoint.newline ∉ t.take m.text.length := by
  have hfound : m.text.isPrefixOf t = true := by
    exact List.find?_some (p := fun m : Mark => m.text.isPrefixOf t) h
  rw [← List.prefix_iff_eq_take.mp (List.isPrefixOf_iff_prefix.mp hfound)]
  cases m <;> decide

/-- A run of newlines is newlines only. No other token and no gap holds any. -/
def Piece.Lined (t : Text) : Piece → Prop
  | .token .newline => ∀ d ∈ t, d = CodePoint.newline
  | .token _ | .gap => CodePoint.newline ∉ t
  | .flaw _ | .fault _ => True

theorem numeral_lined (hc : c.isDigit = true) :
    (numeral (c :: rest)).1.Lined (c :: rest.take (numeral (c :: rest)).2) := by
  have hpos : 0 < (leadingDigits (c :: rest)).length := by
    rw [leadingDigits_length, List.takeWhile_cons_of_pos hc]
    exact Nat.succ_pos _
  rw [← List.take_succ_cons]
  unfold numeral
  dsimp only
  split
  · rename_i ds hfraction
    change CodePoint.newline ∉ (c :: rest).take (_ + ds.length + 1)
    rw [Nat.add_assoc, List.take_add]
    exact fun hmem => (List.mem_append.mp hmem).elim (newline_notMem_digits _)
      (newline_notMem_fraction hfraction)
  · split
    · change CodePoint.newline ∉ (c :: rest).take (_ - 1 + 1)
      rw [Nat.sub_add_cancel hpos]
      exact newline_notMem_digits _
    · trivial

theorem literal_lined (hq : quote ≠ CodePoint.newline) (rest : Text) :
    (literal quote rest).1.Lined (quote :: rest.take (literal quote rest).2) := by
  unfold literal
  split
  · trivial
  rename_i body hbody
  have hrest : CodePoint.newline ∉ quote :: rest.take (body.length + 1) :=
    List.not_mem_cons_of_ne_of_not_mem hq.symm (newline_notMem_literalBody hq hbody)
  split
  · trivial
  split
  · exact hrest
  split
  · exact hrest
  · trivial

theorem nameKind_lined (name : Text) (h : CodePoint.newline ∉ t) :
    (Piece.token (nameKind name)).Lined t := by
  unfold nameKind
  split
  · split
    · exact h
    · exact h
  · exact h

theorem piece_lined (c : CodePoint) (rest : Text) :
    (piece c rest).1.Lined (c :: rest.take (piece c rest).2) := by
  unfold piece
  split
  · rename_i hblank
    exact List.not_mem_cons_of_ne_of_not_mem (newline_ne (by decide) hblank) List.not_mem_nil
  split
  · rename_i hcomment
    have hslash : CodePoint.ofChar '/' = c :=
      (List.cons_prefix_cons.mp (List.isPrefixOf_iff_prefix.mp hcomment)).1
    rw [take_takeWhile, ← hslash]
    exact List.not_mem_cons_of_ne_of_not_mem (by decide)
      (newline_notMem_takeWhile (by decide) rest)
  split
  · rename_i hdigit
    exact numeral_lined hdigit
  split
  · rename_i hquote
    refine literal_lined ?_ rest
    rcases hquote with rfl | rfl <;> decide
  split
  · rename_i hname
    refine nameKind_lined _ ?_
    exact List.not_mem_cons_of_ne_of_not_mem (newline_ne (by decide) hname) (newline_notMem_nameTail _)
  split
  · rename_i hnewline
    intro d hd
    rw [take_takeWhile] at hd
    rcases List.mem_cons.mp hd with rfl | hd
    · exact hnewline
    · simpa using List.all_eq_true.mp List.all_takeWhile _ hd
  split
  · rename_i m hmark
    have hpos : 0 < m.text.length := by cases m <;> decide
    change CodePoint.newline ∉ (c :: rest).take (_ - 1 + 1)
    rw [Nat.sub_add_cancel hpos]
    exact newline_notMem_mark hmark
  · trivial

/-! ## Tokens in their source -/

/-- The tokens stand in the text, which begins at the location, one behind the other, and all
newlines of the text are in its runs of newlines. -/
inductive Stands : Location → Text → List Token → Prop where
  | nil {l : Location} {t : Text} : CodePoint.newline ∉ t → Stands l t []
  | cons {l : Location} {k : Token.Kind} {gap lexeme rest : Text} {ts : List Token} :
      CodePoint.newline ∉ gap → lexeme ≠ [] → (Piece.token k).Lined lexeme →
      Stands (l.past (gap ++ lexeme)) rest ts →
      Stands l (gap ++ lexeme ++ rest) (⟨k, l.past gap⟩ :: ts)

variable {l : Location} {a b : Token} {before gap after ts : List Token}

theorem Stands.behind {s : Text} (hs : CodePoint.newline ∉ s) (h : Stands (l.past s) t ts) :
    Stands l (s ++ t) ts := by
  cases h with
  | nil ht => exact .nil fun hmem => (List.mem_append.mp hmem).elim hs ht
  | @cons _ k gap lexeme rest ts hgap hne hlexeme hrest =>
    have hgap' : CodePoint.newline ∉ s ++ gap := fun hmem =>
      (List.mem_append.mp hmem).elim hs hgap
    rw [← Location.past_append, ← List.append_assoc] at hrest
    have hcons := Stands.cons hgap' hne hlexeme hrest
    rw [Location.past_append] at hcons
    rw [← List.append_assoc, ← List.append_assoc]
    exact hcons

/-- Of a text whose first code points have been read already, the tokens stand in what follows
them. -/
theorem stands_tokensFrom {skip : Nat} (h : (tokensFrom skip l t).2 = none) :
    Stands (l.past (t.take skip)) (t.drop skip) (tokensFrom skip l t).1 := by
  induction t generalizing skip l with
  | nil =>
    rw [List.drop_nil]
    cases skip <;> exact .nil List.not_mem_nil
  | cons c rest ih =>
    cases skip with
    | succ skip => exact ih h
    | zero =>
      have hpiece := piece_lined c rest
      unfold tokensFrom at h ⊢
      dsimp only at h ⊢
      generalize piece c rest = p at h hpiece ⊢
      obtain ⟨p, n⟩ := p
      cases p with
      | gap =>
        have hrest := ih h
        change Stands (l.past (c :: rest.take n)) _ _ at hrest
        have hwhole := hrest.behind hpiece
        rw [List.cons_append, List.take_append_drop] at hwhole
        exact hwhole
      | token k =>
        have hrest : Stands (l.past ([] ++ c :: rest.take n)) (rest.drop n)
            (tokensFrom n (l.after c) rest).1 := ih h
        have hwhole := Stands.cons List.not_mem_nil (List.cons_ne_nil c _) hpiece hrest
        rw [List.nil_append, List.cons_append, List.take_append_drop] at hwhole
        exact hwhole
      | flaw cause => cases h
      | fault f => cases h

theorem takeWhile_append_plain {s : Text} (hs : CodePoint.newline ∉ s) (t : Text) :
    (s ++ t).takeWhile (· != CodePoint.newline) = s ++ t.takeWhile (· != CodePoint.newline) :=
  List.takeWhile_append_of_pos fun _ hd => bne_iff_ne.mpr fun he => hs (he ▸ hd)

/-- The text up to a token behind some runs of newlines: it holds a newline exactly if there are
such runs, and the first of them begins at the first newline. -/
theorem Stands.upTo (hgap : ∀ t ∈ gap, t.kind = .newline) (h : Stands l t (gap ++ b :: after)) :
    ∃ q r, t = q ++ r ∧ b.location = l.past q ∧ (CodePoint.newline ∈ q ↔ gap ≠ []) ∧
      ∀ n ∈ gap.head?, n.location = l.past (q.takeWhile (· != CodePoint.newline)) := by
  induction gap generalizing l t with
  | nil =>
    cases h with
    | @cons _ _ q lexeme rest _ hq _ _ _ =>
      refine ⟨q, lexeme ++ rest, List.append_assoc _ _ _, rfl, ?_, nofun⟩
      exact ⟨fun hmem => absurd hmem hq, fun hne => absurd rfl hne⟩
  | cons n gap ih =>
    have hn := hgap n (.head _)
    cases h with
    | @cons _ k s lexeme rest _ hs hne hlexeme hrest =>
      obtain rfl : k = .newline := hn
      obtain ⟨q, r, rfl, hb, -, -⟩ := ih (fun t ht => hgap t (.tail _ ht)) hrest
      cases lexeme with
      | nil => exact absurd rfl hne
      | cons c lexeme =>
        obtain rfl := hlexeme c (.head _)
        refine ⟨s ++ CodePoint.newline :: lexeme ++ q, r, (List.append_assoc _ _ _).symm, ?_, ?_, ?_⟩
        · rw [hb, ← Location.past_append]
        · simp
        · intro n' hn'
          cases hn'
          rw [List.append_assoc, takeWhile_append_plain hs, List.cons_append,
            List.takeWhile_cons_of_neg (by simp), List.append_nil]

/-- The text from the beginning of a token to that of another one holds a newline exactly if there
are runs of newlines between the two, and the first of them begins at the first newline. -/
def Apart (l : Location) (t : Text) (a : Token) (gap : List Token) (b : Token) : Prop :=
  ∃ p q r, t = p ++ q ++ r ∧ a.location = l.past p ∧ b.location = l.past (p ++ q) ∧
    (CodePoint.newline ∈ q ↔ gap ≠ []) ∧
    ∀ n ∈ gap.head?, n.location = l.past (p ++ q.takeWhile (· != CodePoint.newline))

theorem Stands.apart (ha : a.kind ≠ .newline) (hgap : ∀ t ∈ gap, t.kind = .newline)
    (h : Stands l t (before ++ a :: (gap ++ b :: after))) : Apart l t a gap b := by
  induction before generalizing l t with
  | nil =>
    cases h with
    | @cons _ k s lexeme rest _ hs hne hlexeme hrest =>
      have hplain : CodePoint.newline ∉ lexeme := by
        cases k with
        | newline => exact absurd rfl ha
        | _ => exact hlexeme
      obtain ⟨q, r, rfl, hb, hq, hfirst⟩ := hrest.upTo hgap
      refine ⟨s, lexeme ++ q, r, by simp, rfl, ?_, ?_, ?_⟩
      · rw [hb, ← Location.past_append, List.append_assoc]
      · rw [← hq, List.mem_append]
        exact ⟨fun hmem => hmem.resolve_left hplain, .inr⟩
      · intro n hn
        rw [hfirst n hn, ← Location.past_append, takeWhile_append_plain hplain, List.append_assoc]
  | cons t₀ before ih =>
    cases h with
    | @cons _ k s lexeme rest _ hs hne hlexeme hrest =>
      obtain ⟨p, q, r, rfl, hap, hbp, hq, hfirst⟩ := ih hrest
      refine ⟨s ++ lexeme ++ p, q, r, by simp, ?_, ?_, hq, fun n hn => ?_⟩
      · rw [hap, ← Location.past_append]
      · rw [hbp, ← Location.past_append, List.append_assoc _ p]
      · rw [hfirst n hn, ← Location.past_append, List.append_assoc _ p]

end Scan

end ModuleScript
