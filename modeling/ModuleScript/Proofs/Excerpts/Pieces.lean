import ModuleScript.Proofs.Reading.Lines

/-!
# Where tokens begin

Scanning goes through a text piece by piece. Every token is located where scanning has come to it, and
so is the first lexeme of which no token can be made.
-/

set_option autoImplicit false

namespace ModuleScript.Scan

/-- Scanning goes on behind the piece. -/
def Piece.IsRead : Piece → Prop
  | .gap | .token _ => True
  | .flaw _ | .fault _ => False

/-- Scanning a text from a location comes to another location, where the text goes on as given. -/
inductive Reaches : Location → Text → Location → Text → Prop where
  | here {l : Location} {t : Text} : Reaches l t l t
  | behind {l l' : Location} {c : CodePoint} {t t' : Text} {p : Piece} {n : Nat} :
      piece c t = (p, n) → p.IsRead → Reaches (l.past (c :: t.take n)) (t.drop n) l' t' →
      Reaches l (c :: t) l' t'

variable {l l' : Location} {t t' : Text}

/-- What scanning comes to stands behind what it has read, and is located there. -/
theorem Reaches.exists_append (h : Reaches l t l' t') :
    ∃ before, t = before ++ t' ∧ l' = l.past before := by
  induction h with
  | here => exact ⟨[], rfl, rfl⟩
  | @behind l l' c t t' p n _ _ _ ih =>
    obtain ⟨before, htext, hlocation⟩ := ih
    refine ⟨c :: t.take n ++ before, ?_, ?_⟩
    · rw [List.append_assoc, ← htext, List.cons_append, List.take_append_drop]
    · rw [Location.past_append]
      exact hlocation

/-- Scanning a text from a location finds the piece at another one, where the text goes on as given. -/
inductive Finds (l : Location) (t : Text) (l' : Location) (p : Piece) : Text → Prop where
  | mk {c : CodePoint} {rest : Text} {n : Nat} : Reaches l t l' (c :: rest) →
      piece c rest = (p, n) → Finds l t l' p (c :: rest)

theorem Finds.behind {p q : Piece} {c : CodePoint} {n : Nat} (hp : piece c t = (p, n))
    (hread : p.IsRead) (h : Finds (l.past (c :: t.take n)) (t.drop n) l' q t') :
    Finds l (c :: t) l' q t' := by
  obtain ⟨hreaches, hq⟩ := h
  exact .mk (.behind hp hread hreaches) hq

/-- Every token is found where it is located. -/
theorem finds_of_mem {skip : Nat} {a : Token} (ha : a ∈ (tokensFrom skip l t).1) :
    ∃ rest, Finds (l.past (t.take skip)) (t.drop skip) a.location (.token a.kind) rest := by
  induction t generalizing skip l with
  | nil => cases skip <;> cases ha
  | cons c t ih =>
    cases skip with
    | succ skip => exact ih ha
    | zero =>
      unfold tokensFrom at ha
      dsimp only at ha
      cases hp : piece c t with
      | mk p n =>
        rw [hp] at ha
        cases p with
        | gap =>
          obtain ⟨rest, hrest⟩ := ih ha
          exact ⟨rest, hrest.behind hp trivial⟩
        | token k =>
          have ha : a ∈ ⟨k, l⟩ :: (tokensFrom n (l.after c) t).1 := ha
          rcases List.mem_cons.mp ha with rfl | ha
          · exact ⟨_, .mk .here hp⟩
          · obtain ⟨rest, hrest⟩ := ih ha
            exact ⟨rest, hrest.behind hp trivial⟩
        | flaw cause => cases ha
        | fault f => cases ha

/-- A report that ends scanning is about what is found where it is located. -/
theorem finds_of_stop {skip : Nat} {r : Report} (h : (tokensFrom skip l t).2 = some (.report r)) :
    ∃ cause l' rest, r = cause.reportAt l' ∧
      Finds (l.past (t.take skip)) (t.drop skip) l' (.flaw cause) rest := by
  induction t generalizing skip l with
  | nil => cases skip <;> cases h
  | cons c t ih =>
    cases skip with
    | succ skip => exact ih h
    | zero =>
      unfold tokensFrom at h
      dsimp only at h
      cases hp : piece c t with
      | mk p n =>
        rw [hp] at h
        cases p with
        | gap | token k =>
          obtain ⟨cause, l', rest, hr, hrest⟩ := ih h
          exact ⟨cause, l', rest, hr, hrest.behind hp trivial⟩
        | flaw cause =>
          cases h
          exact ⟨cause, l, _, rfl, .mk .here hp⟩
        | fault f => cases h

end ModuleScript.Scan
