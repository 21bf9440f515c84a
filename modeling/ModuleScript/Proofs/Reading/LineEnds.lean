import ModuleScript.Proofs.Locations
import ModuleScript.Proofs.Reading.Onward
import ModuleScript.Proofs.Reading.Separating

/-!
# Line ends

A line may end with a carriage return in front of its newline. Scanning passes over the carriage
return, but finds many runs of newlines where there would be one, each a column further right. None of
this is left in the program, since of newlines that follow each other the first alone counts, and no
node stands at a newline.
-/

set_option autoImplicit false

namespace ModuleScript

/-- The text with a carriage return in front of every newline. -/
def Text.withReturns (t : Text) : Text :=
  t.flatMap fun c => if c = CodePoint.newline then ['\r', CodePoint.newline] else [c]

namespace Text

variable {c : CodePoint} {t : Text}

@[simp] theorem withReturns_nil : withReturns [] = [] := rfl

@[simp] theorem withReturns_newline (t : Text) :
    withReturns (CodePoint.newline :: t) = ('\r' : CodePoint) :: CodePoint.newline :: withReturns t :=
  rfl

theorem withReturns_cons (hc : c ≠ CodePoint.newline) (t : Text) :
    withReturns (c :: t) = c :: withReturns t := by
  simp [withReturns, hc]

theorem withReturns_append (s t : Text) : withReturns (s ++ t) = withReturns s ++ withReturns t :=
  List.flatMap_append

theorem withReturns_plain (h : CodePoint.newline ∉ t) : withReturns t = t := by
  induction t with
  | nil => rfl
  | cons c t ih =>
    have hc : c ≠ CodePoint.newline := fun he => h (he ▸ .head _)
    rw [withReturns_cons hc, ih fun hm => h (.tail _ hm)]

theorem takeWhile_withReturns (t : Text) :
    (withReturns t).takeWhile (· == CodePoint.newline) = [] := by
  cases t with
  | nil => rfl
  | cons c t =>
    by_cases hc : c = CodePoint.newline
    · subst hc
      exact List.takeWhile_cons_of_neg (by decide)
    · rw [withReturns_cons hc]
      exact List.takeWhile_cons_of_neg (by simpa using hc)

end Text

/-! ## Tokens that are spaced otherwise -/

/-- The second tokens are the first ones, but newlines may stand elsewhere, and a newline of the first
may have become several that follow each other. -/
inductive Respaced : List Token → List Token → Prop where
  | nil : Respaced [] []
  | word {t : Token} {ts us : List Token} : t.kind ≠ .newline → Respaced ts us →
      Respaced (t :: ts) (t :: us)
  | newline {a b : Token} {ts us : List Token} : a.kind = .newline → b.kind = .newline →
      Respaced ts us → Respaced (a :: ts) (b :: us)
  | again {a a' b : Token} {ts us : List Token} : a.kind = .newline → a'.kind = .newline →
      b.kind = .newline → Respaced (a' :: ts) us → Respaced (a :: ts) (b :: us)

namespace Respaced

variable {ts us : List Token}

theorem cons (t : Token) (h : Respaced ts us) : Respaced (t :: ts) (t :: us) := by
  by_cases ht : t.kind = .newline
  · exact .newline ht ht h
  · exact .word ht h

theorem refl (ts : List Token) : Respaced ts ts := by
  induction ts with
  | nil => exact .nil
  | cons t ts ih => exact ih.cons t

end Respaced

/-- The tokens are the same but for their spacing, and scanning stopped for the same reason. -/
def Scan.Agrees (found found' : List Token × Option Failure) : Prop :=
  Respaced found.1 found'.1 ∧ found'.2 = found.2

namespace Scan

variable {c : CodePoint} {t a more : Text}

theorem tokensFrom_skip {n : Nat} (h : n ≤ a.length) (l : Location) (more : Text) :
    tokensFrom n l (a ++ more) = tokensFrom 0 (l.past (a.take n)) (a.drop n ++ more) := by
  have hpast := tokensFrom_past (a.take n) l (a.drop n ++ more)
  rwa [List.length_take, Nat.min_eq_left h, ← List.append_assoc, List.take_append_drop] at hpast

/-- A carriage return is passed over. -/
theorem tokensFrom_return (l : Location) (t : Text) :
    tokensFrom 0 l (('\r' : CodePoint) :: t) = tokensFrom 0 (l.after '\r') t := rfl

/-- The newline behind a carriage return makes a run of its own. -/
theorem tokensFrom_returned (l : Location) (t : Text) :
    tokensFrom 0 l (Text.withReturns (CodePoint.newline :: t)) =
      (⟨.newline, l.after '\r'⟩ :: (tokensFrom 0 (l.after CodePoint.newline) t.withReturns).1,
        (tokensFrom 0 (l.after CodePoint.newline) t.withReturns).2) := by
  rw [Text.withReturns_newline, tokensFrom_return, tokensFrom_zero, piece_run,
    Text.takeWhile_withReturns]
  rfl

/-- A run of newlines, in front of which the text behind its first newline agrees. -/
theorem agrees_run (l : Location)
    (h : Agrees (tokensFrom 0 (l.after CodePoint.newline) t)
      (tokensFrom 0 (l.after CodePoint.newline) t.withReturns)) :
    Agrees (tokensFrom 0 l (CodePoint.newline :: t))
      (tokensFrom 0 l (Text.withReturns (CodePoint.newline :: t))) := by
  rw [tokensFrom_returned, tokensFrom_zero, piece_run]
  cases t with
  | nil => exact ⟨.newline rfl rfl h.1, h.2⟩
  | cons d t =>
    by_cases hd : d = CodePoint.newline
    · subst hd
      rw [tokensFrom_zero, piece_run] at h
      rw [List.takeWhile_cons_of_pos (by simp)]
      exact ⟨.again rfl rfl rfl h.1, h.2⟩
    · rw [List.takeWhile_cons_of_neg (by simpa using hd)]
      exact ⟨.newline rfl rfl h.1, h.2⟩

theorem length_takeWhile_line (ha : CodePoint.newline ∉ a) (more : Text) :
    ((a ++ CodePoint.newline :: more).takeWhile (· != CodePoint.newline)).length = a.length := by
  rw [takeWhile_append_plain ha, List.takeWhile_cons_of_neg (by simp), List.append_nil]

/-- A comment takes the carriage return at its end with it. -/
theorem agrees_comment (hcomment : ("//" : Text).isPrefixOf (c :: a) = true)
    (ha : CodePoint.newline ∉ a) (l : Location)
    (h : ∀ l, Agrees (tokensFrom 0 l (CodePoint.newline :: t))
      (tokensFrom 0 l (Text.withReturns (CodePoint.newline :: t)))) :
    Agrees (tokensFrom 0 l (c :: (a ++ CodePoint.newline :: t)))
      (tokensFrom 0 l (c :: (a ++ Text.withReturns (CodePoint.newline :: t)))) := by
  have hreturn : CodePoint.newline ∉ a ++ [('\r' : CodePoint)] := by
    simp [ha]
    decide
  have hline : ∀ ending : Text, LineEnd ending →
      ("//" : Text).isPrefixOf (c :: (a ++ ending)) = true :=
    fun ending hending => (comment_lineEnd hending c a).trans hcomment
  have hleft : tokensFrom 0 l (c :: (a ++ CodePoint.newline :: t)) =
      tokensFrom 0 ((l.after c).past a) (CodePoint.newline :: t) := by
    rw [tokensFrom_zero, piece_comment (hline _ (.newline t)), length_takeWhile_line ha]
    exact tokensFrom_past a _ _
  have hright : tokensFrom 0 l (c :: (a ++ Text.withReturns (CodePoint.newline :: t))) =
      tokensFrom 0 ((l.after c).past a) (Text.withReturns (CodePoint.newline :: t)) := by
    rw [Text.withReturns_newline, tokensFrom_zero,
      piece_comment (hline _ (.returned t.withReturns)), List.append_cons,
      length_takeWhile_line hreturn]
    dsimp only
    rw [tokensFrom_past, Location.past_append]
    rfl
  rw [hleft, hright]
  exact h _

/-- A piece that ends before its line does is the same, whichever way the line ends. -/
theorem agrees_piece (hc : c ≠ CodePoint.newline)
    (hcomment : ¬ ("//" : Text).isPrefixOf (c :: a) = true) (l : Location)
    (h : ∀ n l, Agrees (tokensFrom 0 l (a.drop n ++ CodePoint.newline :: t))
      (tokensFrom 0 l (a.drop n ++ Text.withReturns (CodePoint.newline :: t)))) :
    Agrees (tokensFrom 0 l (c :: (a ++ CodePoint.newline :: t)))
      (tokensFrom 0 l (c :: (a ++ Text.withReturns (CodePoint.newline :: t)))) := by
  have hreturned : LineEnd (Text.withReturns (CodePoint.newline :: t)) := .returned t.withReturns
  have hle := piece_le c a
  rw [tokensFrom_zero, tokensFrom_zero, piece_lineEnd hc hcomment (.newline t),
    piece_lineEnd hc hcomment hreturned]
  generalize piece c a = p at hle
  obtain ⟨p, n⟩ := p
  have hrest := h n ((l.after c).past (a.take n))
  rw [← tokensFrom_skip hle, ← tokensFrom_skip hle] at hrest
  cases p with
  | gap => exact hrest
  | token k => exact ⟨hrest.1.cons _, hrest.2⟩
  | flaw cause => exact ⟨.nil, rfl⟩
  | fault f => exact ⟨.nil, rfl⟩

/-- The tokens of a text do not depend on how its lines end, but for their spacing. -/
theorem agrees_withReturns (t : Text) (l : Location) :
    Agrees (tokensFrom 0 l t) (tokensFrom 0 l t.withReturns) := by
  induction hlength : t.length using Nat.strong_induction_on generalizing t l with
  | h n ih =>
    subst hlength
    cases t with
    | nil => exact ⟨.nil, rfl⟩
    | cons c t =>
      by_cases hc : c = CodePoint.newline
      · subst hc
        exact agrees_run l (ih _ (Nat.lt_succ_self _) t _ rfl)
      rw [Text.withReturns_cons hc]
      by_cases hn : CodePoint.newline ∈ t
      · obtain ⟨a, b, rfl, ha⟩ := List.eq_append_cons_of_mem hn
        rw [Text.withReturns_append, Text.withReturns_plain ha]
        by_cases hcomment : ("//" : Text).isPrefixOf (c :: a) = true
        · refine agrees_comment hcomment ha l fun l => ih _ ?_ (CodePoint.newline :: b) l rfl
          simp only [List.length_cons, List.length_append]
          omega
        · refine agrees_piece hc hcomment l fun n l => ?_
          have hplain : CodePoint.newline ∉ a.drop n := fun hm => ha (List.mem_of_mem_drop hm)
          have hrest := ih _ ?_ (a.drop n ++ CodePoint.newline :: b) l rfl
          · rwa [Text.withReturns_append, Text.withReturns_plain hplain] at hrest
          · simp only [List.length_cons, List.length_append, List.length_drop]
            omega
      · rw [Text.withReturns_plain hn]
        exact ⟨.refl _, rfl⟩

end Scan

/-! ## Separators -/

/-- The same token, or two newlines. -/
def Token.Alike (a b : Token) : Prop := a = b ∨ a.kind = .newline ∧ b.kind = .newline

namespace Respaced

open Layout

variable {ts us : List Token}

theorem upcoming (h : Respaced ts us) : Layout.upcoming ts = Layout.upcoming us := by
  induction h with
  | nil => rfl
  | word ht _ _ => rw [upcoming_word ht, upcoming_word ht]
  | newline ha hb _ ih => rw [upcoming_newline ha, upcoming_newline hb, ih]
  | again ha ha' hb _ ih => rw [upcoming_newline ha, upcoming_newline hb, ← ih, upcoming_newline ha']

/-- Of newlines that follow each other at most the first stays, so their number does not count. -/
theorem significant (h : Respaced ts us) (awaited : List Mark) (last : Option Token.Kind) :
    List.Forall₂ Token.Alike (Layout.significant awaited last ts)
      (Layout.significant awaited last us) := by
  induction h generalizing awaited last with
  | nil => exact .nil
  | word ht _ ih =>
    rw [significant_word ht, significant_word ht]
    exact .cons (.inl rfl) (ih _ _)
  | newline ha hb h ih =>
    rw [significant_newline ha, significant_newline hb, separates_congr _ _ h.upcoming]
    split
    · exact .cons (.inr ⟨ha, hb⟩) (ih _ _)
    · exact ih _ _
  | @again a a' b ts us ha ha' hb h ih =>
    have hupcoming : Layout.upcoming ts = Layout.upcoming us := by
      rw [← h.upcoming, upcoming_newline ha']
    have hrest := ih awaited
    simp only [significant_newline ha'] at hrest
    rw [significant_newline ha, significant_newline hb, separates_congr _ _ hupcoming.symm]
    split
    · have hsecond := hrest (some .newline)
      rw [separates_newline, if_neg (by decide)] at hsecond
      exact .cons (.inr ⟨ha, hb⟩) hsecond
    · rename_i hsep
      have hsecond := hrest last
      rwa [if_neg hsep] at hsecond

end Respaced

/-! ## Readers -/

namespace Reader

/-- What becomes of the reader, without the place of what goes wrong. -/
def unplaced {α : Type} (x : Except Report α) : Except Failure α :=
  x.mapError fun r => (Failure.report r).unplaced

theorem unplaced_bind {α β : Type} {x y : Except Report α} {f g : α → Except Report β}
    (h : unplaced x = unplaced y) (hf : ∀ a, unplaced (f a) = unplaced (g a)) :
    unplaced (x.bind f) = unplaced (y.bind g) := by
  cases x with
  | ok a =>
    cases y with
    | ok b =>
      cases h
      exact hf a
    | error r => cases h
  | error r =>
    cases y with
    | ok b => cases h
    | error r' => exact congrArg Except.error (Except.error.inj h)

/-- Where a newline stands is told by no reader, unless the newline itself is unexpected. -/
theorem feed_newline (r : Reader) (l l' : Location) :
    unplaced (r.feed ⟨.newline, l⟩) = unplaced (r.feed ⟨.newline, l'⟩) := by
  have hend : ∀ s pending, unplaced (endStatement ⟨.newline, l⟩ .separator s pending) =
      unplaced (endStatement ⟨.newline, l'⟩ .separator s pending) := by
    intro s pending
    unfold endStatement
    cases addStatement? s pending <;> rfl
  obtain ⟨pending, x⟩ := r
  cases x with
  | item => rfl
  | operand => rfl
  | operandOrClose => rfl
  | more e flaw =>
    cases flaw with
    | some flaw => rfl
    | none =>
      refine unplaced_bind rfl fun settled => ?_
      exact unplaced_bind rfl fun stated => hend stated.2 stated.1
  | ended s => exact hend s pending
  | within h =>
    cases h with
    | letName l b n => cases b <;> rfl
    | _ => rfl

theorem feedAll_alike {ts us : List Token} (h : List.Forall₂ Token.Alike ts us) (r : Reader) :
    unplaced (r.feedAll ts) = unplaced (r.feedAll us) := by
  induction h generalizing r with
  | nil => rfl
  | @cons a b ts us hab _ ih =>
    have hfeed : unplaced (r.feed a) = unplaced (r.feed b) := by
      rcases hab with rfl | ⟨ha, hb⟩
      · rfl
      · obtain ⟨_, l⟩ := a
        obtain ⟨_, l'⟩ := b
        cases ha
        cases hb
        exact feed_newline r l l'
    exact unplaced_bind hfeed ih

end Reader

/-- Of a source whose lines end with carriage returns and newlines the same program is read as of the
source with newlines only, at the same locations. If there is none, what is wrong is the same but for
its place. -/
theorem readProgram_withReturns (file source : Text) :
    (readProgram file source.withReturns).mapError Failure.unplaced =
      (readProgram file source).mapError Failure.unplaced := by
  obtain ⟨hspaced, hstop⟩ := Scan.agrees_withReturns source (Location.start file)
  have hfed := Reader.feedAll_alike (hspaced.significant [] none) Reader.start
  unfold readProgram tokenize scan
  dsimp only
  rw [hstop]
  generalize Reader.start.feedAll (Layout.significant [] none _) = x at hfed ⊢
  generalize Reader.start.feedAll (Layout.significant [] none _) = y at hfed ⊢
  cases x with
  | error r =>
    cases y with
    | error r' => exact congrArg Except.error (Except.error.inj hfed).symm
    | ok reader => cases hfed
  | ok reader =>
    cases y with
    | error r' => cases hfed
    | ok reader' =>
      cases hfed
      rfl

end ModuleScript
