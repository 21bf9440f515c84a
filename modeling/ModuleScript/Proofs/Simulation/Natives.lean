import ModuleScript.Proofs.Simulation.Operators

/-!
# Natives on arguments that correspond

The natives that need nothing but their arguments. What they ask of an argument first, a text, an
integer or elements, is the same for values that correspond.
-/

set_option autoImplicit false

namespace ModuleScript.Likeness

variable {k : Likeness} {a a' b b' v v' : Value} {args args' : List Value}

theorem expectText_eq (n : Native) (h : k.Matches v v') : v.expectText n = v'.expectText n := by
  cases h <;> rfl

theorem expectInt_eq (n : Native) (h : k.Matches v v') : v.expectInt n = v'.expectInt n := by
  cases h with
  | plain _ => rfl
  | list hs => simp only [Value.expectInt, (Matches.list hs).display_eq]
  | closure hc => simp only [Value.expectInt, (Matches.closure hc).display_eq]
  | module hm => simp only [Value.expectInt, (Matches.module hm).display_eq]

theorem expectItems_matches (n : Native) (h : k.Matches v v') :
    ExceptRel (List.Forall₂ k.Matches) (v.expectItems n) (v'.expectItems n) := by
  unfold Value.expectItems
  have hi := h.items?
  rw [h.typeName_eq]
  generalize v.items? = xs, v'.items? = ys at hi
  cases hi with
  | none => exact .error _
  | some hs => exact .ok hs

theorem bind_same {α : Type} (r : Except Failure α) {f g : α → Except Failure Value}
    (h : ∀ a, ExceptRel k.Matches (f a) (g a)) : ExceptRel k.Matches (r >>= f) (r >>= g) := by
  cases r with
  | ok a => exact h a
  | error e => exact .error e

theorem changeCase_matches (n : Native) (f : Text → Text) (h : k.Matches v v') :
    ExceptRel k.Matches (v.changeCase n f) (v'.changeCase n f) := by
  unfold Value.changeCase
  rw [expectText_eq n h]
  refine bind_same _ fun t => ?_
  cases h with
  | plain _ =>
    split
    · exact .ok (.plain rfl)
    · exact .ok (.plain rfl)
  | list _ => exact .ok (.plain rfl)
  | closure _ => exact .ok (.plain rfl)
  | module _ => exact .ok (.plain rfl)

theorem forall₂_refl_of_plain {vs : List Value} (h : ∀ v ∈ vs, v.isPlain = true) :
    List.Forall₂ k.Matches vs vs :=
  List.forall₂_same.mpr fun v hv => .plain (h v hv)

theorem numberRange_matches (ha : k.Matches a a') (hb : k.Matches b b') :
    ExceptRel k.Matches (Value.numberRange a b) (Value.numberRange a' b') := by
  unfold Value.numberRange
  rw [expectInt_eq .range ha, expectInt_eq .range hb]
  refine bind_same _ fun low => bind_same _ fun high => .ok (.list (forall₂_refl_of_plain ?_))
  intro v hv
  obtain ⟨i, _, rfl⟩ := List.mem_map.mp hv
  rfl

theorem substring_matches {c c' : Value} (hv : k.Matches v v') (hb : k.Matches b b')
    (hc : k.Matches c c') : ExceptRel k.Matches (v.substring b c) (v'.substring b' c') := by
  unfold Value.substring
  rw [expectText_eq .substr hv, expectInt_eq .substr hb, expectInt_eq .substr hc]
  refine bind_same _ fun t => bind_same _ fun first => bind_same _ fun last => ?_
  split
  · exact .ok (.plain rfl)
  · exact bind_same _ fun _ => bind_same _ fun _ => .error _

theorem parseInteger_matches (h : k.Matches v v') :
    ExceptRel k.Matches v.parseInteger v'.parseInteger := by
  unfold Value.parseInteger
  rw [expectText_eq .parseVal h]
  refine bind_same _ fun t => ?_
  dsimp only
  split
  · exact .ok (.plain rfl)
  · exact bind_same _ fun n => .ok (.plain rfl)

theorem parseTruth_matches (h : k.Matches v v') :
    ExceptRel k.Matches v.parseTruth v'.parseTruth := by
  unfold Value.parseTruth
  rw [expectText_eq .parseBool h]
  refine bind_same _ fun t => .ok (.plain ?_)
  split
  · rfl
  · split <;> rfl

theorem reversed_matches (h : k.Matches v v') : ExceptRel k.Matches v.reversed v'.reversed := by
  have hlist : ∀ {u u' : Value}, k.Matches u u' → ExceptRel k.Matches
      (u.expectItems .reverse >>= fun items => pure (Value.list items.reverse))
      (u'.expectItems .reverse >>= fun items => pure (Value.list items.reverse)) :=
    fun hu => (expectItems_matches .reverse hu).bind fun _ _ hs =>
      .ok (.list (List.forall₂_reverse_iff.mpr hs))
  cases h with
  | @plain v h =>
    cases v with
    | text t => exact .ok (.plain rfl)
    | _ => exact hlist (.plain h)
  | list hs => exact hlist (.list hs)
  | closure hc => exact hlist (.closure hc)
  | module hm => exact hlist (.module hm)

theorem last_matches (h : k.Matches v v') : ExceptRel k.Matches v.last v'.last := by
  refine (expectItems_matches .seq h).bind fun xs ys hs => .ok ?_
  induction hs with
  | nil => exact .plain rfl
  | @cons x y xs ys hxy hs ih =>
    cases hs with
    | nil => exact hxy
    | cons _ _ => simpa only [List.getLast?_cons_cons] using ih

theorem applyNative?_matches (n : Native) (h : List.Forall₂ k.Matches args args') :
    Option.Rel (ExceptRel k.Matches) (Value.applyNative? n args) (Value.applyNative? n args') := by
  cases h with
  | nil => cases n <;> exact .none
  | cons h₁ h =>
    cases h with
    | nil =>
      cases n with
      | typeof =>
        refine .some ?_
        rw [h₁.typeName_eq]
        exact .ok (.plain rfl)
      | upper => exact .some (changeCase_matches .upper Text.upper h₁)
      | lower => exact .some (changeCase_matches .lower Text.lower h₁)
      | parseVal => exact .some (parseInteger_matches h₁)
      | parseBool => exact .some (parseTruth_matches h₁)
      | reverse => exact .some (reversed_matches h₁)
      | seq => exact .some (last_matches h₁)
      | _ => exact .none
    | cons h₂ h =>
      cases h with
      | nil =>
        cases n with
        | range => exact .some (numberRange_matches h₁ h₂)
        | _ => exact .none
      | cons h₃ h =>
        cases h with
        | nil =>
          cases n with
          | substr => exact .some (substring_matches h₁ h₂ h₃)
          | _ => exact .none
        | cons _ _ => cases n <;> exact .none

end ModuleScript.Likeness
