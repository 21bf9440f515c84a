import ModuleScript.Proofs.Display.Literals
import ModuleScript.Proofs.Reading.Lines
import ModuleScript.Proofs.Reading.Moved

/-!
# Sources that go on

Nothing but a run of newlines goes on over the end of a line. So a source that goes on with a newline
is scanned like the source alone and then like the rest, and the rest is scanned like a source of its
own, moved to where it stands.
-/

set_option autoImplicit false

namespace ModuleScript

namespace Scan

variable {c quote : CodePoint} {t rest more : Text}

/-! ## Pieces in front of a line end -/

/-- A text that begins with the end of a line, a carriage return in front of the newline or not. -/
inductive LineEnd : Text → Prop where
  | newline (more : Text) : LineEnd (CodePoint.newline :: more)
  | returned (more : Text) : LineEnd (('\r' : CodePoint) :: CodePoint.newline :: more)

theorem LineEnd.exists_cons {ending : Text} (h : LineEnd ending) :
    ∃ d more, ending = d :: more ∧ (d = CodePoint.newline ∨ d = '\r') := by
  cases h with
  | newline more => exact ⟨_, more, rfl, .inl rfl⟩
  | returned more => exact ⟨_, _, rfl, .inr rfl⟩

variable {ending : Text}

theorem takeWhile_append_stop {p : CodePoint → Bool} (h : ∀ d ∈ ending.head?, p d = false)
    (t : Text) : (t ++ ending).takeWhile p = t.takeWhile p := by
  have hstop : ending.takeWhile p = [] := by
    cases ending with
    | nil => rfl
    | cons d more => exact List.takeWhile_cons_of_neg (by simp [h d rfl])
  rw [List.takeWhile_append, hstop, List.append_nil]
  split
  · rename_i hlength
    exact ((List.takeWhile_prefix p).eq_of_length hlength).symm
  · rfl

theorem leadingDigits_lineEnd (h : LineEnd ending) (t : Text) :
    leadingDigits (t ++ ending) = leadingDigits t := by
  have hstop : ∀ d ∈ ending.head?, d.isDigit = false := by
    obtain ⟨d, more, rfl, rfl | rfl⟩ := h.exists_cons
    all_goals
      rintro _ ⟨⟩
      decide
  unfold leadingDigits
  rw [takeWhile_append_stop hstop]

theorem fraction?_lineEnd (h : LineEnd ending) (t : Text) :
    fraction? (t ++ ending) = fraction? t := by
  cases t with
  | nil =>
    obtain ⟨d, more, rfl, hd⟩ := h.exists_cons
    cases more with
    | nil => rfl
    | cons d' more =>
      have hdot : ¬ (d = '.' ∧ d'.isDigit = true) := by
        rintro ⟨rfl, -⟩
        revert hd
        decide
      exact if_neg hdot
  | cons c t =>
    cases t with
    | nil =>
      obtain ⟨d, more, rfl, hd⟩ := h.exists_cons
      have hdigit : ¬ (c = '.' ∧ d.isDigit = true) := by
        rintro ⟨-, hdigit⟩
        rcases hd with rfl | rfl
        · exact absurd hdigit (by decide)
        · exact absurd hdigit (by decide)
      exact if_neg hdigit
    | cons d t =>
      have hdigits := leadingDigits_lineEnd h (d :: t)
      rw [List.cons_append] at hdigits
      rw [List.cons_append, List.cons_append, fraction?, fraction?, hdigits]

theorem leadingDigits_le (t : Text) : (leadingDigits t).length ≤ t.length := by
  rw [leadingDigits_length]
  exact (List.takeWhile_sublist _).length_le

theorem numeral_lineEnd (h : LineEnd ending) (t : Text) :
    numeral (t ++ ending) = numeral t := by
  unfold numeral
  dsimp only
  rw [leadingDigits_lineEnd h, List.drop_append_of_le_length (leadingDigits_le t),
    fraction?_lineEnd h]

theorem literalBody_newline (hq : quote = '"' ∨ quote = '\'') (more : Text) :
    literalBody quote (CodePoint.newline :: more) = none := by
  rw [literalBody.eq_def]
  dsimp only
  rw [if_neg (by rcases hq with rfl | rfl <;> decide), if_pos rfl]

/-- No literal goes on behind its line. -/
theorem literalBody_ending (hq : quote = '"' ∨ quote = '\'') (h : LineEnd ending) :
    literalBody quote ending = none := by
  cases h with
  | newline more => exact literalBody_newline hq more
  | returned more =>
    have hr : ('\r' : CodePoint) ≠ quote := by rcases hq with rfl | rfl <;> decide
    rw [literalBody_plain hr (by decide) (by decide), literalBody_newline hq]
    rfl

/-- A backslash does not take the end of its line with it. -/
theorem literalBody_escaped (hq : quote = '"' ∨ quote = '\'') (h : LineEnd ending) :
    literalBody quote (('\\' : CodePoint) :: ending) = none := by
  have hb : quote ≠ '\\' := by rcases hq with rfl | rfl <;> decide
  cases h with
  | newline more =>
    rw [literalBody.eq_def]
    dsimp only
    rw [if_neg hb.symm, if_neg (by decide), if_pos rfl, if_pos rfl]
  | returned more =>
    rw [literalBody_code hb (by decide), literalBody_newline hq]
    rfl

theorem literalBody_lineEnd (hq : quote = '"' ∨ quote = '\'') (h : LineEnd ending) (t : Text) :
    literalBody quote (t ++ ending) = literalBody quote t := by
  fun_induction literalBody quote t with
  | case1 => exact literalBody_ending hq h
  | case2 rest =>
    rw [List.cons_append, literalBody.eq_def]
    dsimp only
    rw [if_pos rfl]
  | case3 rest hne => exact literalBody_newline hq _
  | case4 rest hne hb => exact literalBody_escaped hq (.newline _)
  | case5 d rest hd hne hb ih =>
    rw [List.cons_append, List.cons_append, literalBody_code (Ne.symm hne) hd, ih]
  | case6 hne hb => exact literalBody_escaped hq h
  | case7 c rest hne hb hc ih =>
    rw [List.cons_append, literalBody_plain hne hb hc, ih]

theorem literal_lineEnd (hq : quote = '"' ∨ quote = '\'') (h : LineEnd ending) (t : Text) :
    literal quote (t ++ ending) = literal quote t := by
  unfold literal
  rw [literalBody_lineEnd hq h]

theorem nameTail_lineEnd (h : LineEnd ending) (t : Text) :
    nameTail (t ++ ending) = nameTail t := by
  fun_induction nameTail t with
  | case1 =>
    obtain ⟨d, more, rfl, rfl | rfl⟩ := h.exists_cons
    all_goals
      rw [List.nil_append, nameTail.eq_def]
      dsimp only
      rw [if_neg (by decide), if_neg (by decide)]
  | case2 c rest hc ih =>
    rw [List.cons_append, nameTail.eq_def]
    dsimp only
    rw [if_pos hc, ih]
  | case3 d rest hd hc ih =>
    rw [List.cons_append, List.cons_append, nameTail.eq_def]
    dsimp only
    rw [if_neg hc, if_pos rfl, if_pos hd, ih]
  | case4 d rest hd hc =>
    rw [List.cons_append, List.cons_append, nameTail.eq_def]
    dsimp only
    rw [if_neg hc, if_pos rfl, if_neg hd]
  | case5 hc =>
    obtain ⟨d, more, rfl, rfl | rfl⟩ := h.exists_cons
    all_goals
      rw [List.cons_append, List.nil_append, nameTail.eq_def]
      dsimp only
      rw [if_neg hc, if_pos rfl, if_neg (by decide)]
  | case6 c rest hc hdot =>
    rw [List.cons_append, nameTail.eq_def]
    dsimp only
    rw [if_neg hc, if_neg hdot]

theorem isPrefixOf_lineEnd {s : Text} (hn : CodePoint.newline ∉ s)
    (hr : ('\r' : CodePoint) ∉ s) (h : LineEnd ending) (t : Text) :
    s.isPrefixOf (t ++ ending) = s.isPrefixOf t := by
  induction s generalizing t with
  | nil => rfl
  | cons c s ih =>
    cases t with
    | nil =>
      obtain ⟨d, more, rfl, hd⟩ := h.exists_cons
      have hc : (c == d) = false := by
        apply beq_false_of_ne
        rintro rfl
        rcases hd with rfl | rfl
        · exact hn (.head _)
        · exact hr (.head _)
      rw [List.nil_append, List.isPrefixOf_cons_cons, hc]
      rfl
    | cons d t =>
      have hrest := ih (fun hm => hn (.tail _ hm)) (fun hm => hr (.tail _ hm)) t
      rw [List.cons_append, List.isPrefixOf_cons_cons, List.isPrefixOf_cons_cons, hrest]

theorem leading?_lineEnd (h : LineEnd ending) (t : Text) :
    Mark.leading? (t ++ ending) = Mark.leading? t := by
  unfold Mark.leading?
  congr 1
  funext m
  exact isPrefixOf_lineEnd (by cases m <;> decide) (by cases m <;> decide) h t

theorem comment_lineEnd (h : LineEnd ending) (c : CodePoint) (t : Text) :
    ("//" : Text).isPrefixOf (c :: (t ++ ending)) = ("//" : Text).isPrefixOf (c :: t) :=
  isPrefixOf_lineEnd (by decide) (by decide) h (c :: t)

theorem piece_comment (h : ("//" : Text).isPrefixOf (c :: t) = true) :
    piece c t = (.gap, (t.takeWhile (· != CodePoint.newline)).length) := by
  have hslash : CodePoint.ofChar '/' = c :=
    (List.cons_prefix_cons.mp (List.isPrefixOf_iff_prefix.mp h)).1
  have hblank : ¬ isBlank c = true := by
    subst hslash
    decide
  unfold piece
  rw [if_neg hblank, if_pos h]

/-- A piece that is no comment and no run of newlines stays what it is in front of a line end. -/
theorem piece_lineEnd (hc : c ≠ CodePoint.newline)
    (hcomment : ¬ ("//" : Text).isPrefixOf (c :: t) = true) (h : LineEnd ending) :
    piece c (t ++ ending) = piece c t := by
  have hnumeral : numeral (c :: (t ++ ending)) = numeral (c :: t) := numeral_lineEnd h (c :: t)
  have hmark : Mark.leading? (c :: (t ++ ending)) = Mark.leading? (c :: t) :=
    leading?_lineEnd h (c :: t)
  unfold piece
  rw [comment_lineEnd h, if_neg hcomment, if_neg hcomment, if_neg hc, if_neg hc, hnumeral,
    nameTail_lineEnd h, hmark]
  by_cases hquote : c = '"' ∨ c = '\''
  · rw [literal_lineEnd hquote h]
  · rw [if_neg hquote, if_neg hquote]

theorem takeWhile_run (t more : Text) :
    (t ++ CodePoint.newline :: more).takeWhile (· == CodePoint.newline) =
        t.takeWhile (· == CodePoint.newline) ∨
      t.takeWhile (· == CodePoint.newline) = t ∧
        (t ++ CodePoint.newline :: more).takeWhile (· == CodePoint.newline) =
          t ++ CodePoint.newline :: more.takeWhile (· == CodePoint.newline) := by
  rw [List.takeWhile_append]
  split
  · rename_i hlength
    have hrun : CodePoint.newline :: more.takeWhile (· == CodePoint.newline) =
        (CodePoint.newline :: more).takeWhile (· == CodePoint.newline) :=
      (List.takeWhile_cons_of_pos rfl).symm
    rw [hrun]
    exact .inr ⟨(List.takeWhile_prefix _).eq_of_length hlength, rfl⟩
  · exact .inl rfl

theorem piece_run (t : Text) : piece CodePoint.newline t =
    (.token .newline, (t.takeWhile (· == CodePoint.newline)).length) := rfl

/-- A piece stays what it is in front of a newline, but for a run of newlines that goes on. -/
theorem piece_newline (c : CodePoint) (t more : Text) :
    piece c (t ++ CodePoint.newline :: more) = piece c t ∨
      piece c t = (.token .newline, t.length) ∧
        piece c (t ++ CodePoint.newline :: more) =
          (.token .newline, t.length + 1 + (more.takeWhile (· == CodePoint.newline)).length) := by
  have hending := LineEnd.newline more
  by_cases hcomment : ("//" : Text).isPrefixOf (c :: t) = true
  · have hrest : (t ++ CodePoint.newline :: more).takeWhile (· != CodePoint.newline) =
        t.takeWhile (· != CodePoint.newline) :=
      takeWhile_append_stop (by simp) t
    rw [piece_comment hcomment, piece_comment ((comment_lineEnd hending c t).trans hcomment), hrest]
    exact .inl rfl
  by_cases hc : c = CodePoint.newline
  · subst hc
    rw [piece_run, piece_run]
    rcases takeWhile_run t more with hrun | ⟨hrun, hmore⟩
    · rw [hrun]
      exact .inl rfl
    · rw [hrun, hmore, List.length_append, List.length_cons, Nat.add_assoc, Nat.add_comm 1]
      exact .inr ⟨rfl, rfl⟩
  exact .inl (piece_lineEnd hc hcomment hending)

/-! ## Lengths of pieces -/

theorem fraction?_le {ds : List Nat} (h : fraction? t = some ds) : ds.length + 1 ≤ t.length := by
  unfold fraction? at h
  split at h
  · split at h
    · cases h
      rw [List.length_cons]
      exact Nat.succ_le_succ (leadingDigits_le _)
    · cases h
  · cases h

theorem literalBody_le {body : Text} (h : literalBody quote t = some body) :
    body.length + 1 ≤ t.length := by
  fun_induction literalBody quote t generalizing body with
  | case2 rest =>
    cases h
    exact Nat.succ_le_succ (Nat.zero_le _)
  | case5 d rest hd hq hn ih =>
    obtain ⟨tail, htail, rfl⟩ := Option.map_eq_some_iff.mp h
    have hrest := ih htail
    simp only [List.length_cons]
    omega
  | case7 c rest hq hc hb ih =>
    obtain ⟨tail, htail, rfl⟩ := Option.map_eq_some_iff.mp h
    have hrest := ih htail
    simp only [List.length_cons]
    omega
  | _ => cases h

theorem nameTail_le (t : Text) : (nameTail t).length ≤ t.length := by
  fun_induction nameTail t with
  | case2 c rest hc ih => exact Nat.succ_le_succ ih
  | case3 d rest hd hc ih => exact Nat.succ_le_succ (Nat.succ_le_succ ih)
  | _ => exact Nat.zero_le _

theorem leading?_le {m : Mark} (h : Mark.leading? t = some m) : m.text.length ≤ t.length := by
  have hfound : m.text.isPrefixOf t = true :=
    List.find?_some (p := fun m : Mark => m.text.isPrefixOf t) h
  exact (List.isPrefixOf_iff_prefix.mp hfound).length_le

theorem numeral_le (c : CodePoint) (t : Text) : (numeral (c :: t)).2 ≤ t.length := by
  have hdigits := leadingDigits_le (c :: t)
  rw [List.length_cons] at hdigits
  unfold numeral
  dsimp only
  split
  · rename_i ds hfraction
    have hds := fraction?_le hfraction
    rw [List.length_drop, List.length_cons] at hds
    dsimp only
    omega
  · split
    · dsimp only
      omega
    · exact Nat.zero_le _

theorem literal_le (quote : CodePoint) (t : Text) : (literal quote t).2 ≤ t.length := by
  unfold literal
  split
  · exact Nat.zero_le _
  rename_i body hbody
  have hle := literalBody_le hbody
  split
  · exact Nat.zero_le _
  split
  · exact hle
  split
  · exact hle
  · exact Nat.zero_le _

theorem piece_le (c : CodePoint) (t : Text) : (piece c t).2 ≤ t.length := by
  unfold piece
  split
  · exact Nat.zero_le _
  split
  · exact (List.takeWhile_sublist _).length_le
  split
  · exact numeral_le c t
  split
  · exact literal_le c t
  split
  · exact nameTail_le t
  split
  · exact (List.takeWhile_sublist _).length_le
  split
  · rename_i m hmark
    have hm := leading?_le hmark
    rw [List.length_cons] at hm
    dsimp only
    omega
  · exact Nat.zero_le _

/-! ## Texts one behind the other -/

variable {l : Location} {ts : List Token} {skip : Nat}

theorem tokensFrom_past (t : Text) (l : Location) (more : Text) :
    tokensFrom t.length l (t ++ more) = tokensFrom 0 (l.past t) more := by
  induction t generalizing l with
  | nil => rfl
  | cons c t ih => exact ih (l.after c)

theorem tokensFrom_all (t : Text) (l : Location) : tokensFrom t.length l t = ([], none) := by
  have h := tokensFrom_past t l []
  rw [List.append_nil] at h
  rw [h]
  rfl

/-- What follows the first piece of a text. -/
theorem tokensFrom_zero (c : CodePoint) (t : Text) (l : Location) :
    tokensFrom 0 l (c :: t) =
      match piece c t with
      | (.gap, n) => tokensFrom n (l.after c) t
      | (.token k, n) => (⟨k, l⟩ :: (tokensFrom n (l.after c) t).1, (tokensFrom n (l.after c) t).2)
      | (.flaw cause, _) => ([], some (.report (cause.reportAt l)))
      | (.fault f, _) => ([], some (.fault f)) := rfl

theorem tokensFrom_token {k : Token.Kind} (hp : piece c (t ++ more) = (.token k, t.length))
    (l : Location) : tokensFrom 0 l (c :: (t ++ more)) =
      (⟨k, l⟩ :: (tokensFrom 0 (l.past (c :: t)) more).1,
        (tokensFrom 0 (l.past (c :: t)) more).2) := by
  have hrest := tokensFrom_past t (l.after c) more
  rw [tokensFrom_zero, hp]
  dsimp only
  rw [hrest]
  rfl

/-- The tokens of a text stay in front of a newline and more, but for a run of newlines at its
end. -/
theorem tokensFrom_newline (h : tokensFrom skip l t = (ts, none)) (hskip : skip ≤ t.length)
    (hmore : ∀ c ∈ more.head?, c ≠ CodePoint.newline) :
    ∃ gap : List Token, (∀ u ∈ gap, u.kind = .newline) ∧
      tokensFrom skip l (t ++ CodePoint.newline :: more) =
        (ts ++ (gap ++ (tokensFrom 0 (l.past (t ++ [CodePoint.newline])) more).1),
          (tokensFrom 0 (l.past (t ++ [CodePoint.newline])) more).2) := by
  have hrun : more.takeWhile (· == CodePoint.newline) = [] := by
    cases more with
    | nil => rfl
    | cons c more => exact List.takeWhile_cons_of_neg (by simpa using hmore c rfl)
  induction t generalizing skip l ts with
  | nil =>
    obtain rfl : skip = 0 := Nat.le_zero.mp hskip
    cases h
    refine ⟨[⟨.newline, l⟩], by simp, ?_⟩
    have hpiece : piece CodePoint.newline more = (.token .newline, 0) := by
      change (Piece.token .newline, (more.takeWhile (· == CodePoint.newline)).length) = _
      rw [hrun]
      rfl
    rw [List.nil_append, tokensFrom_zero, hpiece]
    rfl
  | cons c t ih =>
    cases skip with
    | succ skip => exact ih h (Nat.le_of_succ_le_succ hskip)
    | zero =>
      have hle := piece_le c t
      have hpiece := piece_newline c t more
      rw [List.cons_append, tokensFrom_zero]
      rw [tokensFrom_zero] at h
      generalize piece c t = p at h hle hpiece
      obtain ⟨p, n⟩ := p
      cases p with
      | gap =>
        rcases hpiece with hsame | ⟨hkind, -⟩
        · rw [hsame]
          exact ih h hle
        · cases hkind
      | token k =>
        obtain ⟨rfl, hstop⟩ := Prod.mk.inj h
        rcases hpiece with hsame | ⟨hkind, hlonger⟩
        · rw [hsame]
          obtain ⟨gap, hgap, hrest⟩ := ih (Prod.ext rfl hstop) hle
          refine ⟨gap, hgap, ?_⟩
          dsimp only
          rw [hrest]
          rfl
        · -- the run of newlines reaches the end of the text
          cases hkind
          refine ⟨[], nofun, ?_⟩
          have hlength : t.length + 1 + (more.takeWhile (· == CodePoint.newline)).length =
              (t ++ [CodePoint.newline]).length := by
            rw [hrun]
            simp
          have hrest := tokensFrom_past (t ++ [CodePoint.newline]) (l.after c) more
          rw [List.append_assoc] at hrest
          rw [hlonger]
          dsimp only
          rw [tokensFrom_all, hlength]
          change (_ :: (tokensFrom _ _ (t ++ ([CodePoint.newline] ++ more))).1,
            (tokensFrom _ _ (t ++ ([CodePoint.newline] ++ more))).2) = _
          rw [hrest]
          rfl
      | flaw cause => cases h
      | fault f => cases h

/-- A text that begins elsewhere has the same tokens there. -/
theorem tokensFrom_moved {f : Location → Location}
    (hf : ∀ l c, 0 < l.line → f (l.after c) = (f l).after c) (hl : 0 < l.line)
    (h : tokensFrom skip l t = (ts, none)) :
    tokensFrom skip (f l) t = (ts.map (Token.moved f), none) := by
  induction t generalizing skip l ts with
  | nil =>
    cases skip <;> (cases h; rfl)
  | cons c t ih =>
    have hafter : 0 < (l.after c).line := by
      unfold Location.after
      split
      · exact Nat.succ_pos _
      · exact hl
    cases skip with
    | succ skip =>
      have hrest := ih hafter h
      rw [hf l c hl] at hrest
      exact hrest
    | zero =>
      rw [tokensFrom_zero] at h ⊢
      generalize piece c t = p at h ⊢
      obtain ⟨p, n⟩ := p
      cases p with
      | gap =>
        have hrest := ih hafter h
        rw [hf l c hl] at hrest
        exact hrest
      | token k =>
        obtain ⟨rfl, hstop⟩ := Prod.mk.inj h
        have hrest := ih hafter (Prod.ext rfl hstop : tokensFrom n (l.after c) t = (_, none))
        rw [hf l c hl] at hrest
        dsimp only
        rw [hrest]
        rfl
      | flaw cause => cases h
      | fault f => cases h

end Scan

/-! ## Places -/

/-- The location some lines further down; on the first line, also some columns further right. -/
def Location.shifted (lines columns : Nat) (l : Location) : Location :=
  ⟨l.file, l.line + lines, if l.line = 1 then l.column + columns else l.column⟩

namespace Location

theorem shifted_after (lines columns : Nat) (l : Location) (c : CodePoint) (hl : 0 < l.line) :
    (l.after c).shifted lines columns = (l.shifted lines columns).after c := by
  unfold after shifted
  split
  · have hline : ¬ l.line + 1 = 1 := by omega
    dsimp only
    rw [if_neg hline, Nat.add_right_comm]
  · dsimp only
    split
    · rw [Nat.add_right_comm]
    · rfl

theorem file_past (l : Location) (t : Text) : (l.past t).file = l.file := by
  induction t generalizing l with
  | nil => rfl
  | cons c t ih => exact (ih (l.after c)).trans (l.file_after c)

theorem line_past (l : Location) (t : Text) :
    (l.past t).line = l.line + t.count CodePoint.newline := by
  induction t generalizing l with
  | nil => rfl
  | cons c t ih =>
    change ((l.after c).past t).line = _
    rw [ih]
    unfold after
    split
    · rename_i hc
      rw [hc, List.count_cons_self, Nat.add_right_comm, Nat.add_assoc]
    · rename_i hc
      rw [List.count_cons_of_ne hc]

/-- Behind a text that ends a line, the next one begins as many lines further down as there are
newlines. -/
theorem past_newline (l : Location) (t : Text) : l.past (t ++ [CodePoint.newline]) =
    ⟨l.file, l.line + (t.count CodePoint.newline + 1), 1⟩ := by
  have hlast : (l.past t).past [CodePoint.newline] = ⟨(l.past t).file, (l.past t).line + 1, 1⟩ :=
    rfl
  rw [past_append, hlast, file_past, line_past, Nat.add_assoc]

theorem past_plain {t : Text} (ht : CodePoint.newline ∉ t) (l : Location) :
    l.past t = ⟨l.file, l.line, l.column + t.length⟩ := by
  induction t generalizing l with
  | nil => rfl
  | cons c t ih =>
    have hc : c ≠ CodePoint.newline := fun he => ht (he ▸ .head _)
    have hafter : l.after c = ⟨l.file, l.line, l.column + 1⟩ := if_neg hc
    change (l.after c).past t = _
    rw [hafter, ih fun hm => ht (.tail _ hm), List.length_cons, Nat.add_assoc, Nat.add_comm 1]

end Location

end ModuleScript
