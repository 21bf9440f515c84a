import ModuleScript.Proofs.Simulation.Values

/-!
# Operators and natives on values that correspond

On operands that correspond every operator, and every native that needs nothing but its arguments,
yields values that correspond or stops with the same failure.
-/

set_option autoImplicit false

namespace ModuleScript.Likeness

variable {k : Likeness} {a a' b b' v v' : Value} {args args' : List Value}

theorem undefined_matches (op : BinaryOp) (ha : k.Matches a a') (hb : k.Matches b b') :
    ExceptRel k.Matches (Value.undefined op a b) (Value.undefined op a' b') := by
  unfold Value.undefined
  rw [ha.typeName_eq, hb.typeName_eq]
  exact .error _

theorem lift_plain {α : Type} (r : Except Fault α) (f : α → Value)
    (hf : ∀ a, (f a).isPlain = true) :
    ExceptRel k.Matches (Failure.lift (r.map f)) (Failure.lift (r.map f)) := by
  cases r with
  | ok a => exact .ok (.plain (hf a))
  | error e => exact .error _

theorem concat_matches (ha : k.Matches a a') (hb : k.Matches b b') :
    ExceptRel k.Matches (a.concat b) (a'.concat b') := by
  unfold Value.concat
  rw [ha.display_eq, hb.display_eq]
  cases a'.display with
  | error e => exact .error _
  | ok s =>
    cases b'.display with
    | error e => exact .error _
    | ok t => exact .ok (.plain rfl)

theorem shiftChar_matches (c : CodePoint) (i : Int) :
    ExceptRel k.Matches (Value.shiftChar c i) (Value.shiftChar c i) := by
  by_cases h : 0 ≤ (c.val : Int) + i ∧ (c.val : Int) + i < 0x110000
  · simp only [Value.shiftChar, dif_pos h]
    exact .ok (.plain rfl)
  · simp only [Value.shiftChar, dif_neg h]
    cases Decimal.ofInt? (c.val + i) with
    | ok t => exact .error _
    | error e => exact .error _

theorem add_plain (ha : a.isPlain = true) (hb : b.isPlain = true) :
    ExceptRel k.Matches (a.add b) (a.add b) := by
  fun_cases Value.add a b with
  | case1 x y => exact lift_plain _ _ fun _ => rfl
  | case2 s b => exact concat_matches (.plain rfl) (.plain hb)
  | case3 a t => exact concat_matches (.plain ha) (.plain rfl)
  | case4 c i => exact shiftChar_matches c i
  | case5 as bs => cases ha
  | case6 a b => exact undefined_matches .add (.plain ha) (.plain hb)

theorem add_matches (ha : k.Matches a a') (hb : k.Matches b b') :
    ExceptRel k.Matches (a.add b) (a'.add b') := by
  cases ha with
  | @plain a h =>
    cases hb with
    | plain h' => exact add_plain h h'
    | list hs =>
      cases a with
      | text s => exact concat_matches (.plain rfl) (.list hs)
      | list _ => cases h
      | _ => exact undefined_matches .add (.plain h) (.list hs)
    | closure hc =>
      cases a with
      | text s => exact concat_matches (.plain rfl) (.closure hc)
      | list _ => cases h
      | _ => exact undefined_matches .add (.plain h) (.closure hc)
    | module hm =>
      cases a with
      | text s => exact concat_matches (.plain rfl) (.module hm)
      | list _ => cases h
      | _ => exact undefined_matches .add (.plain h) (.module hm)
  | list hs =>
    cases hb with
    | @plain b h =>
      cases b with
      | text t => exact concat_matches (.list hs) (.plain rfl)
      | list _ => cases h
      | _ => exact undefined_matches .add (.list hs) (.plain h)
    | list hs' => exact .ok (matches_ofItems (List.rel_append hs hs'))
    | closure hc => exact undefined_matches .add (.list hs) (.closure hc)
    | module hm => exact undefined_matches .add (.list hs) (.module hm)
  | closure hc =>
    cases hb with
    | @plain b h =>
      cases b with
      | text t => exact concat_matches (.closure hc) (.plain rfl)
      | list _ => cases h
      | _ => exact undefined_matches .add (.closure hc) (.plain h)
    | list hs => exact undefined_matches .add (.closure hc) (.list hs)
    | closure hc' => exact undefined_matches .add (.closure hc) (.closure hc')
    | module hm => exact undefined_matches .add (.closure hc) (.module hm)
  | module hm =>
    cases hb with
    | @plain b h =>
      cases b with
      | text t => exact concat_matches (.module hm) (.plain rfl)
      | list _ => cases h
      | _ => exact undefined_matches .add (.module hm) (.plain h)
    | list hs => exact undefined_matches .add (.module hm) (.list hs)
    | closure hc => exact undefined_matches .add (.module hm) (.closure hc)
    | module hm' => exact undefined_matches .add (.module hm) (.module hm')

theorem plain_matches {f : Value → Value → Except Failure Value} (op : BinaryOp)
    (hp : ∀ a b, a.isPlain = true → b.isPlain = true → ExceptRel k.Matches (f a b) (f a b))
    (hu : ∀ a b, a.isPlain = false ∨ b.isPlain = false → f a b = Value.undefined op a b)
    (ha : k.Matches a a') (hb : k.Matches b b') : ExceptRel k.Matches (f a b) (f a' b') := by
  have ha' := ha.isPlain_eq
  have hb' := hb.isPlain_eq
  cases hpa : a.isPlain with
  | false =>
    rw [hu a b (.inl hpa), hu a' b' (.inl (ha'.symm.trans hpa))]
    exact undefined_matches op ha hb
  | true =>
    cases hpb : b.isPlain with
    | false =>
      rw [hu a b (.inr hpb), hu a' b' (.inr (hb'.symm.trans hpb))]
      exact undefined_matches op ha hb
    | true =>
      obtain rfl := ha.eq_of_plain hpa
      obtain rfl := hb.eq_of_plain hpb
      exact hp a b hpa hpb

theorem subtract_matches (ha : k.Matches a a') (hb : k.Matches b b') :
    ExceptRel k.Matches (a.subtract b) (a'.subtract b') := by
  refine plain_matches .subtract ?_ ?_ ha hb
  · intro a b ha hb
    fun_cases Value.subtract a b with
    | case1 x y => exact lift_plain _ _ fun _ => rfl
    | case2 c i => exact shiftChar_matches c (-i)
    | case3 a b => exact undefined_matches .subtract (.plain ha) (.plain hb)
  · intro a b h
    cases a <;> cases b <;> simp_all [Value.isPlain, Value.subtract]

theorem multiply_matches (ha : k.Matches a a') (hb : k.Matches b b') :
    ExceptRel k.Matches (a.multiply b) (a'.multiply b') := by
  refine plain_matches .multiply ?_ ?_ ha hb
  · intro a b ha hb
    fun_cases Value.multiply a b with
    | case1 x y => exact lift_plain _ _ fun _ => rfl
    | case2 a b => exact undefined_matches .multiply (.plain ha) (.plain hb)
  · intro a b h
    cases a <;> cases b <;> simp_all [Value.isPlain, Value.multiply]

theorem divide_matches (ha : k.Matches a a') (hb : k.Matches b b') :
    ExceptRel k.Matches (a.divide b) (a'.divide b') := by
  refine plain_matches .divide ?_ ?_ ha hb
  · intro a b ha hb
    fun_cases Value.divide a b with
    | case1 x y h => exact .error _
    | case2 x y h => exact lift_plain _ _ fun _ => rfl
    | case3 a b => exact undefined_matches .divide (.plain ha) (.plain hb)
  · intro a b h
    cases a <;> cases b <;> simp_all [Value.isPlain, Value.divide]

theorem modulo_matches (ha : k.Matches a a') (hb : k.Matches b b') :
    ExceptRel k.Matches (a.modulo b) (a'.modulo b') := by
  refine plain_matches .modulo ?_ ?_ ha hb
  · intro a b ha hb
    fun_cases Value.modulo a b with
    | case1 i => exact .error _
    | case2 i j h => exact .ok (.plain rfl)
    | case3 a b => exact undefined_matches .modulo (.plain ha) (.plain hb)
  · intro a b h
    cases a <;> cases b <;> simp_all [Value.isPlain, Value.modulo]

theorem before?_plain {a b : Value} (h : a.isPlain = false ∨ b.isPlain = false) :
    Value.before? a b = none := by
  cases a <;> cases b <;> simp_all [Value.isPlain, Value.before?]

theorem lessThan_matches (ha : k.Matches a a') (hb : k.Matches b b') :
    ExceptRel k.Matches (a.lessThan b) (a'.lessThan b') := by
  refine plain_matches .less ?_ ?_ ha hb
  · intro a b ha hb
    unfold Value.lessThan
    split
    · exact .ok (.plain rfl)
    · exact undefined_matches .less (.plain ha) (.plain hb)
  · intro a b h
    simp only [Value.lessThan, before?_plain h]

theorem greaterThan_matches (ha : k.Matches a a') (hb : k.Matches b b') :
    ExceptRel k.Matches (a.greaterThan b) (a'.greaterThan b') := by
  refine plain_matches .greater ?_ ?_ ha hb
  · intro a b ha hb
    unfold Value.greaterThan
    split
    · exact .ok (.plain rfl)
    · exact undefined_matches .greater (.plain ha) (.plain hb)
  · intro a b h
    simp only [Value.greaterThan, before?_plain h.symm]

theorem binary_matches (op : BinaryOp) (ha : k.Matches a a') (hb : k.Matches b b') :
    ExceptRel k.Matches (Value.binary op a b) (Value.binary op a' b') := by
  cases op with
  | or => exact undefined_matches .or ha hb
  | and => exact undefined_matches .and ha hb
  | equal =>
    simp only [Value.binary, same_eq ha hb]
    exact .ok (.plain rfl)
  | notEqual =>
    simp only [Value.binary, same_eq ha hb]
    exact .ok (.plain rfl)
  | less => exact lessThan_matches ha hb
  | greater => exact greaterThan_matches ha hb
  | add => exact add_matches ha hb
  | subtract => exact subtract_matches ha hb
  | multiply => exact multiply_matches ha hb
  | divide => exact divide_matches ha hb
  | modulo => exact modulo_matches ha hb

/-! ## Operators in front of an operand -/

theorem negate_matches (h : k.Matches v v') : ExceptRel k.Matches v.negate v'.negate := by
  cases h with
  | @plain v h =>
    cases v with
    | number n => exact .ok (.plain rfl)
    | bool b => exact .ok (.plain rfl)
    | list _ => cases h
    | _ => exact .error _
  | list _ => exact .error _
  | closure _ => exact .error _
  | module _ => exact .error _

theorem head_matches (h : k.Matches v v') : ExceptRel k.Matches v.head v'.head := by
  unfold Value.head
  have hi := h.items?
  rw [h.typeName_eq]
  generalize v.items? = xs, v'.items? = ys at hi
  cases hi with
  | none => exact .error _
  | some hs =>
    cases hs with
    | nil => exact .error _
    | cons h _ => exact .ok h

theorem tail_matches (h : k.Matches v v') : ExceptRel k.Matches v.tail v'.tail := by
  cases h with
  | @plain v h =>
    cases v with
    | text t => exact .ok (.plain rfl)
    | list _ => cases h
    | _ => exact .error _
  | list hs => exact .ok (.list (List.forall₂_drop 1 hs))
  | closure _ => exact .error _
  | module _ => exact .error _

theorem unary_matches (op : UnaryOp) (h : k.Matches v v') :
    ExceptRel k.Matches (Value.unary op v) (Value.unary op v') := by
  cases op with
  | negate => exact negate_matches h
  | head => exact head_matches h
  | tail => exact tail_matches h

theorem truthy_eq (h : k.Matches v v') : v.truthy = v'.truthy := by
  cases h with
  | plain _ => rfl
  | list hs => cases hs <;> rfl
  | closure _ => rfl
  | module _ => rfl

end ModuleScript.Likeness
