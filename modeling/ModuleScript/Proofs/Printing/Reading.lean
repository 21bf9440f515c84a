import ModuleScript.Proofs.Printing.Printer
import ModuleScript.Proofs.Reading.Feeding

/-!
# Reading what is printed

What a reader makes of tokens of given kinds, wherever in a source they stand. Parentheses end all
that has begun inside them and leave what has begun around them as it was, so each construct is read
from the readings of its parts.
-/

set_option autoImplicit false

namespace ModuleScript

open Token.Kind

namespace Reader

/-- All tokens of these kinds lead the reader to where `P` holds. -/
def Leads (r : Reader) (ks : List Token.Kind) (P : Reader → Prop) : Prop :=
  ∀ ts : List Token, ts.map Token.kind = ks → ∃ r', r.feedAll ts = .ok r' ∧ P r'

section Leads

variable {r : Reader} {k : Token.Kind} {ks ks' : List Token.Kind} {P Q : Reader → Prop}
  {pending : List Pending} {x : Expect}

theorem leads_nil (h : P r) : Leads r [] P := by
  intro ts hts
  obtain rfl := List.map_eq_nil_iff.mp hts
  exact ⟨r, rfl, h⟩

theorem leads_cons (h : ∀ l, ∃ r', r.feed ⟨k, l⟩ = .ok r' ∧ Leads r' ks P) :
    Leads r (k :: ks) P := by
  intro ts hts
  obtain ⟨⟨_, l⟩, us, rfl, rfl, hus⟩ := List.map_eq_cons_iff.mp hts
  obtain ⟨r', hfeed, hleads⟩ := h l
  obtain ⟨r'', hrest, hP⟩ := hleads us hus
  refine ⟨r'', ?_, hP⟩
  change (r.feed _).bind (·.feedAll us) = _
  rw [hfeed]
  exact hrest

theorem Leads.append (h : Leads r ks P) (hP : ∀ r', P r' → Leads r' ks' Q) :
    Leads r (ks ++ ks') Q := by
  intro ts hts
  obtain ⟨us, vs, rfl, hus, hvs⟩ := List.map_eq_append_iff.mp hts
  obtain ⟨r', hfeed, hr'⟩ := h us hus
  obtain ⟨r'', hrest, hr''⟩ := hP r' hr' vs hvs
  refine ⟨r'', ?_, hr''⟩
  rw [feedAll_append, hfeed]
  exact hrest

theorem Leads.imp (h : Leads r ks P) (hPQ : ∀ r', P r' → Q r') : Leads r ks Q := by
  intro ts hts
  obtain ⟨r', hfeed, hr'⟩ := h ts hts
  exact ⟨r', hfeed, hPQ r' hr'⟩

theorem Leads.from_operand (h : Leads ⟨pending, .operand⟩ (k :: ks) P) (hk : Opens k)
    (hx : Welcomes x) : Leads ⟨pending, x⟩ (k :: ks) P := by
  intro ts hts
  obtain ⟨r', hfeed, hr'⟩ := h ts hts
  exact ⟨r', (feedAll_welcomes hk hts hx).trans hfeed, hr'⟩

end Leads

/-! ## Expressions -/

/-- The expression has been read as a whole. -/
def Delivers (pending : List Pending) (e : Expr) (r : Reader) : Prop :=
  ∃ e', r = ⟨pending, .more e' none⟩ ∧ e'.bare = e.bare

/-- The expression has been read when what is open to the right ends. -/
def Completes (pending : List Pending) (e : Expr) (r : Reader) : Prop :=
  ∃ opened e₁ e₂, r = ⟨opened, .more e₁ none⟩ ∧
    settle false opened e₁ = .ok (pending, e₂) ∧ e₂.bare = e.bare

/-- The tokens of an expression in parentheses are read as it. -/
def Grouped (w : Bool) (e : Expr) : Prop :=
  ∀ pending x, Welcomes x → Leads ⟨pending, x⟩ (grouped (e.kinds w)) (Delivers pending e)

/-- The tokens of an expression are read as it where it has a construct to itself. -/
structure Readable (w : Bool) (e : Expr) : Prop where
  opens : ∃ k ks, e.kinds w = k :: ks ∧ Opens k
  leads : ∀ pending, Walled pending → Leads ⟨pending, .operand⟩ (e.kinds w) (Completes pending e)

variable {w : Bool} {e a b c : Expr} {es : List Expr} {pending : List Pending} {x : Expect}
  {l : Location}

theorem Readable.grouped (h : Readable w e) : Grouped w e := by
  intro pending x hx
  refine Leads.from_operand (leads_cons fun l => ⟨_, rfl, ?_⟩) opens_leftParen hx
  obtain ⟨k, ks, hk, hopens⟩ := h.opens
  have hinner := h.leads (.group l :: pending) (walled_group l pending)
  rw [hk] at hinner ⊢
  refine (hinner.from_operand hopens (.inr (.inr rfl))).append ?_
  rintro _ ⟨opened, e₁, e₂, rfl, hsettle, hbare⟩
  refine leads_cons fun l' => ⟨⟨pending, .more e₂ none⟩, ?_, leads_nil ⟨e₂, rfl, hbare⟩⟩
  change (settle false opened e₁).bind (fun p => close _ .rightParen p.1 p.2) = _
  rw [hsettle]
  rfl

theorem Grouped.next (h : Grouped w e) {ks : List Token.Kind} {P : Reader → Prop}
    (hx : Welcomes x) (hP : ∀ e', e'.bare = e.bare → Leads ⟨pending, .more e' none⟩ ks P) :
    Leads ⟨pending, x⟩ (Token.Kind.grouped (e.kinds w) ++ ks) P := by
  refine (h pending x hx).append ?_
  rintro _ ⟨e', rfl, hbare⟩
  exact hP e' hbare

theorem Grouped.last (h : Grouped w e) {P : Reader → Prop}
    (hP : ∀ e', e'.bare = e.bare → P ⟨pending, .more e' none⟩) :
    Leads ⟨pending, .operand⟩ (Token.Kind.grouped (e.kinds w)) P := by
  refine (h pending .operand (.inr (.inl rfl))).imp ?_
  rintro _ ⟨e', rfl, hbare⟩
  exact hP e' hbare

/-! ### Leaves -/

theorem readable_leaf {k : Token.Kind} (leaf : Location → Expr) (hkinds : e.kinds w = [k])
    (hbare : ∀ l, (leaf l).bare = e.bare) (hstart : ∀ l pending,
      startOperand ⟨k, l⟩ pending = .ok ⟨pending, .more (leaf l) none⟩ ∧
      startItem ⟨k, l⟩ pending = .ok ⟨pending, .more (leaf l) none⟩ ∧
      startOrClose ⟨k, l⟩ pending = .ok ⟨pending, .more (leaf l) none⟩) : Readable w e := by
  constructor
  · refine ⟨k, [], hkinds, ?_⟩
    rintro ⟨_, l⟩ rfl pending
    obtain ⟨hoperand, hitem, hclose⟩ := hstart l pending
    exact ⟨hitem.trans hoperand.symm, hclose.trans hoperand.symm⟩
  · intro pending hwalled
    rw [hkinds]
    refine leads_cons fun l => ⟨_, (hstart l pending).1, leads_nil ?_⟩
    exact ⟨pending, leaf l, leaf l, rfl, hwalled.settle _ _, hbare l⟩

theorem readable_constant {k : Constant} (hstart : ∀ l pending,
    startOperand ⟨k.kind, l⟩ pending = .ok ⟨pending, .more (.constant l k) none⟩ ∧
    startItem ⟨k.kind, l⟩ pending = .ok ⟨pending, .more (.constant l k) none⟩ ∧
    startOrClose ⟨k.kind, l⟩ pending = .ok ⟨pending, .more (.constant l k) none⟩) :
    Readable w (.constant l k) :=
  readable_leaf (fun l => .constant l k) rfl (fun _ => rfl) hstart

theorem readable_bool (b : Bool) : Readable w (.constant l (.bool b)) := by
  cases b with
  | true => exact readable_constant fun _ _ => ⟨rfl, rfl, rfl⟩
  | false => exact readable_constant fun _ _ => ⟨rfl, rfl, rfl⟩

theorem readable_unit : Readable w (.unit l) := by
  refine ⟨⟨_, _, rfl, opens_leftParen⟩, fun pending hwalled => ?_⟩
  refine leads_cons fun l' => ⟨_, rfl, leads_cons fun _ => ⟨_, rfl, leads_nil ?_⟩⟩
  exact ⟨pending, .unit l', .unit l', rfl, hwalled.settle _ _, rfl⟩

/-! ### Operations -/

theorem readable_unary (op : UnaryOp) (he : Grouped w e) : Readable w (.unary l op e) := by
  have hopens : Opens (.mark op.mark) := by
    cases op <;> exact .of_mark fun _ _ => ⟨rfl, rfl⟩
  have hstart : ∀ l pending, startOperand ⟨.mark op.mark, l⟩ pending =
      .ok ⟨.unary l op :: pending, .operand⟩ := by
    cases op <;> exact fun _ _ => rfl
  refine ⟨⟨_, _, rfl, hopens⟩, fun pending hwalled => ?_⟩
  refine leads_cons fun l' => ⟨_, hstart l' pending, he.last fun e' hbare => ?_⟩
  refine ⟨_, e', .unary l' op e', rfl, hwalled.settle _ _, ?_⟩
  simp only [Expr.bare, hbare]

theorem readable_binary (op : BinaryOp) (ha : Grouped w a) (hb : Grouped w b) :
    Readable w (.binary l op a b) := by
  refine ⟨⟨_, _, rfl, opens_leftParen⟩, fun pending hwalled => ?_⟩
  refine ha.next (.inr (.inl rfl)) fun a' hbare => leads_cons fun l' => ?_
  refine ⟨⟨.binary l' op a' :: pending, .operand⟩, ?_, hb.last fun b' hbare' => ?_⟩
  · have hfollower : follower? (.mark op.mark) = some (.operator op) := by
      cases op <;> rfl
    change continueWith _ pending a' none = _
    unfold continueWith
    rw [hfollower]
    dsimp only
    rw [hwalled.operators]
  · refine ⟨_, b', .binary l' op a' b', rfl, hwalled.settle _ _, ?_⟩
    simp only [Expr.bare, hbare, hbare']

theorem readable_binding (n : Ident) (he : Grouped w e) :
    Readable w (.binding l n (e.named n)) := by
  refine ⟨⟨_, _, rfl, .of_keyword fun _ _ => ⟨rfl, rfl⟩⟩, fun pending hwalled => ?_⟩
  unfold Expr.kinds
  rw [Expr.kinds_named]
  refine leads_cons fun l' => ⟨_, rfl, leads_cons fun _ => ⟨_, rfl, leads_cons fun _ => ?_⟩⟩
  refine ⟨⟨.binding l' n :: pending, .operand⟩, rfl, he.last fun e' hbare => ?_⟩
  refine ⟨_, e', .binding l' n (e'.named n), rfl, hwalled.settle _ _, ?_⟩
  simp only [Expr.bare, Expr.bare_named, hbare]

theorem readable_cond (ha : Grouped w a) (hb : Grouped w b) (hc : Grouped w c) :
    Readable w (.cond l a b c) := by
  refine ⟨⟨_, _, rfl, .of_keyword fun _ _ => ⟨rfl, rfl⟩⟩, fun pending hwalled => ?_⟩
  refine leads_cons fun l' => ⟨_, rfl, ?_⟩
  refine ha.next (.inr (.inl rfl)) fun a' ha' => leads_cons fun _ => ⟨_, rfl, ?_⟩
  refine hb.next (.inr (.inl rfl)) fun b' hb' => leads_cons fun _ => ⟨_, rfl, ?_⟩
  refine hc.last fun c' hc' => ⟨_, c', .cond l' a' b' c', rfl, hwalled.settle _ _, ?_⟩
  simp only [Expr.bare, ha', hb', hc']

/-! ### Functions -/

theorem leads_names (first : Head) (A B : List Ident → Head) (done : List Ident)
    (hfirst : ∀ n l, advance ⟨.identifier n, l⟩ pending first =
      .ok ⟨pending, .within (B (done ++ [n]))⟩)
    (hnext : ∀ done n l, advance ⟨.identifier n, l⟩ pending (A done) =
      .ok ⟨pending, .within (B (done ++ [n]))⟩)
    (hcomma : ∀ done l, advance ⟨.mark .comma, l⟩ pending (B done) =
      .ok ⟨pending, .within (A done)⟩) (n : Ident) (ns : List Ident) :
    Leads ⟨pending, .within first⟩ (ofNames (n :: ns))
      (· = ⟨pending, .within (B (done ++ n :: ns))⟩) := by
  induction ns generalizing n done first with
  | nil => exact leads_cons fun l => ⟨_, hfirst n l, leads_nil rfl⟩
  | cons m ns ih =>
    refine leads_cons fun l => ⟨_, hfirst n l, leads_cons fun l' => ⟨_, hcomma _ l', ?_⟩⟩
    have hrest := ih _ _ (hnext (done ++ [n])) m
    rw [List.append_assoc] at hrest
    exact hrest

theorem leads_params (l : Location) (ps : List Ident) :
    Leads ⟨pending, .within (.fnParen l)⟩ (ofNames ps ++ [.mark .rightParen])
      (· = ⟨pending, .within (.fnParams l ps)⟩) := by
  cases ps with
  | nil => exact leads_cons fun _ => ⟨_, rfl, leads_nil rfl⟩
  | cons p ps =>
    refine (leads_names (.fnParen l) (.fnComma l) (.fnParam l) [] (fun _ _ => rfl)
      (fun _ _ _ => rfl) (fun _ _ => rfl) p ps).append ?_
    rintro _ rfl
    exact leads_cons fun _ => ⟨_, rfl, leads_nil rfl⟩

/-- From the word before the parameters of a function to its body. -/
theorem leads_lambda {ps : List Ident} (he : Grouped w e) {P : Reader → Prop}
    (hP : ∀ l' e', e'.bare = e.bare → P ⟨.lambda l' ps :: pending, .more e' none⟩) :
    Leads ⟨pending, .operand⟩ ((Expr.lambda l none ps e).kinds w) P := by
  refine leads_cons fun l' => ⟨_, rfl, leads_cons fun _ => ⟨_, rfl, ?_⟩⟩
  refine (leads_params l' ps).append ?_
  rintro _ rfl
  exact leads_cons fun _ => ⟨_, rfl, he.last fun e' hbare => hP l' e' hbare⟩

theorem settle_lambda {ps : List Ident} (hps : ps.Nodup) (l : Location) (pending : List Pending)
    (e : Expr) : settle false (.lambda l ps :: pending) e =
      settle false pending (.lambda l none ps e) := by
  rw [settle, if_pos hps]

theorem readable_lambda {ps : List Ident} (hps : ps.Nodup) (he : Grouped w e) :
    Readable w (.lambda l none ps e) := by
  refine ⟨⟨_, _, rfl, .of_keyword fun _ _ => ⟨rfl, rfl⟩⟩, fun pending hwalled => ?_⟩
  refine leads_lambda he fun l' e' hbare => ⟨_, e', .lambda l' none ps e', rfl, ?_, ?_⟩
  · rw [settle_lambda hps, hwalled.settle]
  · simp only [Expr.bare, hbare]

/-! ### Elements and arguments -/

theorem leads_elements {p : List Expr → Pending} {done : List Expr}
    (hcomma : ∀ done e l, continueWith ⟨.mark .comma, l⟩ (p done :: pending) e none =
      .ok ⟨p (done ++ [e]) :: pending, .operand⟩) (h : ∀ a ∈ e :: es, Grouped w a)
    (hx : Welcomes x) :
    Leads ⟨p done :: pending, x⟩ (separated (.mark .comma) (Expr.groups w (e :: es))) fun r =>
      ∃ done' e', r = ⟨p done' :: pending, .more e' none⟩ ∧
        (done' ++ [e']).map Expr.bare = (done ++ e :: es).map Expr.bare := by
  induction es generalizing e done x with
  | nil =>
    refine (h e (.head _) _ x hx).imp ?_
    rintro _ ⟨e', rfl, hbare⟩
    refine ⟨done, e', rfl, ?_⟩
    simp [hbare]
  | cons f es ih =>
    refine (h e (.head _)).next hx fun e' hbare => leads_cons fun l => ⟨_, hcomma done e' l, ?_⟩
    refine (ih (fun a ha => h a (.tail _ ha)) (.inr (.inl rfl))).imp ?_
    rintro _ ⟨done', f', rfl, hall⟩
    refine ⟨done', f', rfl, hall.trans ?_⟩
    simp [hbare]

/-- From the opening mark before elements or arguments to behind the mark that closes them. -/
theorem leads_bracketed (p : List Expr → Pending) {closing : Token.Kind}
    (made : List Expr → Expr)
    (hcomma : ∀ done e l, continueWith ⟨.mark .comma, l⟩ (p done :: pending) e none =
      .ok ⟨p (done ++ [e]) :: pending, .operand⟩)
    (hempty : ∀ l, startOrClose ⟨closing, l⟩ (p [] :: pending) =
      .ok ⟨pending, .more (made []) none⟩)
    (hclose : ∀ done e l, continueWith ⟨closing, l⟩ (p done :: pending) e none =
      .ok ⟨pending, .more (made (done ++ [e])) none⟩) (h : ∀ a ∈ es, Grouped w a) :
    Leads ⟨p [] :: pending, .operandOrClose⟩
      (separated (.mark .comma) (Expr.groups w es) ++ [closing]) fun r =>
        ∃ es', r = ⟨pending, .more (made es') none⟩ ∧ es'.map Expr.bare = es.map Expr.bare := by
  cases es with
  | nil => exact leads_cons fun l => ⟨_, hempty l, leads_nil ⟨[], rfl, rfl⟩⟩
  | cons e es =>
    refine (leads_elements hcomma h (.inr (.inr rfl))).append ?_
    rintro _ ⟨done, e', rfl, hbare⟩
    exact leads_cons fun l => ⟨_, hclose done e' l, leads_nil ⟨_, rfl, hbare⟩⟩

theorem readable_list (h : ∀ a ∈ es, Grouped w a) : Readable w (.list l es) := by
  refine ⟨⟨_, _, rfl, .of_mark fun _ _ => ⟨rfl, rfl⟩⟩, fun pending hwalled => ?_⟩
  refine leads_cons fun l' => ⟨_, rfl, ?_⟩
  refine (leads_bracketed (.list l') (.list l') (fun _ _ _ => rfl) (fun _ => rfl)
    (fun _ _ _ => rfl) h).imp ?_
  rintro _ ⟨es', rfl, hbare⟩
  refine ⟨pending, _, _, rfl, hwalled.settle _ _, ?_⟩
  simp only [Expr.bare, Expr.bares_eq_map, hbare]

theorem applied_eq_call {f : Expr}
    (h : ∀ l l' elements, f = .name l "seq" → es ≠ [.list l' elements]) :
    f.applied es = .call f.location f es := by
  unfold Expr.applied
  split
  · rw [if_neg]
    · rfl
    · rintro rfl
      exact h _ _ _ rfl rfl
  · rfl

theorem exists_name_of_bare {f : Expr} {l : Location} {n : Ident}
    (h : f.bare = (Expr.name l n).bare) : ∃ l', f = .name l' n := by
  cases f with
  | name l' m =>
    cases h
    exact ⟨l', rfl⟩
  | _ => cases h

theorem exists_list_of_bares {l : Location} {elements : List Expr}
    (h : es.map Expr.bare = [Expr.list l elements].map Expr.bare) :
    ∃ l' elements', es = [.list l' elements'] := by
  obtain ⟨e, rfl, he⟩ := List.map_eq_singleton_iff.mp h
  cases e with
  | list l' elements' => exact ⟨l', elements', rfl⟩
  | _ => cases he

theorem readable_call {f : Expr} (hf : Grouped w f) (h : ∀ a ∈ es, Grouped w a)
    (hseq : ∀ l l' elements, f = .name l "seq" → es ≠ [.list l' elements]) :
    Readable w (.call l f es) := by
  refine ⟨⟨_, _, rfl, opens_leftParen⟩, fun pending hwalled => ?_⟩
  refine hf.next (.inr (.inl rfl)) fun f' hbare => leads_cons fun l' => ⟨_, rfl, ?_⟩
  refine (leads_bracketed (.arguments f') f'.applied (fun _ _ _ => rfl) (fun _ => rfl)
    (fun _ _ _ => rfl) h).imp ?_
  rintro _ ⟨es', rfl, hbares⟩
  have hseq' : ∀ l l' elements, f' = .name l "seq" → es' ≠ [.list l' elements] := by
    rintro l l' elements rfl rfl
    obtain ⟨k, rfl⟩ := exists_name_of_bare hbare.symm
    obtain ⟨k', elements', rfl⟩ := exists_list_of_bares hbares.symm
    exact hseq k k' elements' rfl rfl
  refine ⟨pending, _, _, rfl, hwalled.settle _ _, ?_⟩
  rw [applied_eq_call hseq']
  simp only [Expr.bare, Expr.bares_eq_map, hbare, hbares]

theorem readable_sequence (h : ∀ a ∈ es, Grouped w a) : Readable w (.sequence l es) := by
  have hopens : Opens (.identifier "seq") := by
    rintro ⟨_, l⟩ rfl pending
    exact ⟨rfl, rfl⟩
  refine ⟨⟨_, _, rfl, hopens⟩, fun pending hwalled => ?_⟩
  refine leads_cons fun l' => ⟨_, rfl, leads_cons fun _ => ⟨_, rfl, leads_cons fun k => ?_⟩⟩
  refine ⟨_, rfl, ?_⟩
  refine (leads_bracketed (.list k) (.list k) (fun _ _ _ => rfl) (fun _ => rfl)
    (fun _ _ _ => rfl) h).append ?_
  rintro _ ⟨es', rfl, hbares⟩
  refine leads_cons fun _ => ⟨⟨pending, .more (.sequence l' es') none⟩, rfl, leads_nil ?_⟩
  refine ⟨pending, _, _, rfl, hwalled.settle _ _, ?_⟩
  simp only [Expr.bare, Expr.bares_eq_map, hbares]

theorem readable_range (ha : Grouped w a) (hb : Grouped w b) : Readable w (.range l a b) := by
  refine ⟨⟨_, _, rfl, .of_mark fun _ _ => ⟨rfl, rfl⟩⟩, fun pending hwalled => ?_⟩
  refine leads_cons fun l' => ⟨_, rfl, ?_⟩
  refine ha.next (.inr (.inr rfl)) fun a' ha' => leads_cons fun _ => ⟨_, rfl, ?_⟩
  refine hb.next (.inr (.inl rfl)) fun b' hb' => leads_cons fun _ => ⟨_, rfl, leads_nil ?_⟩
  refine ⟨pending, _, .range l' a' b', rfl, hwalled.settle _ _, ?_⟩
  simp only [Expr.bare, ha', hb']

theorem readable_comprehension {y : Ident} {o : Option Expr} (he : Grouped w e)
    (hb : Grouped w b) (ho : ∀ c ∈ o, Grouped w c) : Readable w (.comprehension l e y b o) := by
  refine ⟨⟨_, _, rfl, .of_mark fun _ _ => ⟨rfl, rfl⟩⟩, fun pending hwalled => ?_⟩
  refine leads_cons fun l' => ⟨_, rfl, ?_⟩
  refine he.next (.inr (.inr rfl)) fun e' he' => leads_cons fun _ => ⟨_, rfl, ?_⟩
  refine leads_cons fun _ => ⟨_, rfl, leads_cons fun _ => ⟨_, rfl, ?_⟩⟩
  refine hb.next (.inr (.inl rfl)) fun b' hb' => ?_
  cases o with
  | none =>
    refine leads_cons fun _ => ⟨_, rfl, leads_nil ?_⟩
    refine ⟨pending, _, .comprehension l' e' y b' none, rfl, hwalled.settle _ _, ?_⟩
    simp only [Expr.bare, Expr.bareOption, he', hb']
  | some c =>
    refine leads_cons fun _ => ⟨_, rfl, (ho c rfl).next (.inr (.inl rfl)) fun c' hc' => ?_⟩
    refine leads_cons fun _ => ⟨_, rfl, leads_nil ?_⟩
    refine ⟨pending, _, .comprehension l' e' y b' (some c'), rfl, hwalled.settle _ _, ?_⟩
    simp only [Expr.bare, Expr.bareOption, he', hb', hc']

/-! ### Arms -/

/-- What is to be known of an arm: its guard and its body are read in parentheses. -/
def GroupedArm (w : Bool) : Arm → Prop
  | .mk _ _ guard body => (∀ g ∈ guard, Grouped w g) ∧ Grouped w body

/-- Arms have been read, the last of them open to the right. -/
def DeliversArms (pending : List Pending) (l : Location) (subject : Expr) (arms : List Arm)
    (r : Reader) : Prop :=
  ∃ done k y guard body, r = ⟨.armBody l subject done k y guard :: pending, .more body none⟩ ∧
    (done ++ [Arm.mk k y guard body]).map Arm.bare = arms.map Arm.bare

theorem leads_arm {subject : Expr} {done : List Arm} {arm : Arm} {r : Reader}
    (hbar : ∀ k, r.feed ⟨.mark .bar, k⟩ = .ok ⟨pending, .within (.bar l subject done k)⟩)
    (h : GroupedArm w arm) :
    Leads r (arm.kinds w) (DeliversArms pending l subject (done ++ [arm])) := by
  obtain ⟨_, y, guard, body⟩ := arm
  obtain ⟨hguard, hbody⟩ := h
  refine leads_cons fun k => ⟨_, hbar k, leads_cons fun _ => ⟨_, rfl, ?_⟩⟩
  cases guard with
  | none =>
    refine leads_cons fun _ => ⟨_, rfl, hbody.last fun body' hbare => ?_⟩
    refine ⟨done, k, y, none, body', rfl, ?_⟩
    simp [Arm.bare, Expr.bareOption, hbare]
  | some g =>
    refine leads_cons fun _ => ⟨_, rfl, (hguard g rfl).next (.inr (.inl rfl)) fun g' hbare => ?_⟩
    refine leads_cons fun _ => ⟨_, rfl, hbody.last fun body' hbare' => ?_⟩
    refine ⟨done, k, y, some g', body', rfl, ?_⟩
    simp [Arm.bare, Expr.bareOption, hbare, hbare']

theorem leads_arms {subject : Expr} {done : List Arm} {arm : Arm} {arms : List Arm} {r : Reader}
    (hbar : ∀ k, r.feed ⟨.mark .bar, k⟩ = .ok ⟨pending, .within (.bar l subject done k)⟩)
    (h : ∀ a ∈ arm :: arms, GroupedArm w a) :
    Leads r (Arm.allKinds w (arm :: arms))
      (DeliversArms pending l subject (done ++ arm :: arms)) := by
  induction arms generalizing arm done r with
  | nil =>
    unfold Arm.allKinds
    exact (leads_arm hbar (h arm (.head _))).append fun r' hr' => leads_nil hr'
  | cons next arms ih =>
    refine (leads_arm hbar (h arm (.head _))).append ?_
    rintro _ ⟨done', k, y, guard, body, rfl, hbare⟩
    have hrest : Leads ⟨.armBody l subject done' k y guard :: pending, .more body none⟩
        (Arm.allKinds w (next :: arms))
        (DeliversArms pending l subject ((done' ++ [Arm.mk k y guard body]) ++ next :: arms)) :=
      ih (fun _ => rfl) fun a ha => h a (.tail _ ha)
    refine hrest.imp ?_
    rintro _ ⟨done'', k', y', guard', body', rfl, hbare'⟩
    refine ⟨done'', k', y', guard', body', rfl, hbare'.trans ?_⟩
    rw [List.map_append, hbare]
    simp

theorem readable_select {arms : List Arm} (he : Grouped w e) (hne : arms ≠ [])
    (h : ∀ a ∈ arms, GroupedArm w a) : Readable w (.select l e arms) := by
  refine ⟨⟨_, _, rfl, .of_keyword fun _ _ => ⟨rfl, rfl⟩⟩, fun pending hwalled => ?_⟩
  refine leads_cons fun l' => ⟨_, rfl, he.next (.inr (.inl rfl)) fun e' hbare => ?_⟩
  cases arms with
  | nil => exact absurd rfl hne
  | cons arm arms =>
    have harms : Leads ⟨.subject l' :: pending, .more e' none⟩ (Arm.allKinds w (arm :: arms))
        (DeliversArms pending l' e' ([] ++ arm :: arms)) := leads_arms (fun _ => rfl) h
    refine harms.imp ?_
    rintro _ ⟨done, k, y, guard, body, rfl, hbares⟩
    refine ⟨_, body, .select l' e' (done ++ [Arm.mk k y guard body]), rfl, hwalled.settle _ _, ?_⟩
    simp only [Expr.bare, Arm.bares_eq_map, hbare, hbares]
    rfl

/-! ## Statements -/

/-- The statement has been read when a separator, a right brace or the end comes next. -/
def Ends (pending : List Pending) (s : Stmt) (r : Reader) : Prop :=
  ∃ s' : Stmt, s'.bare = s.bare ∧
    (∀ l, r.feed ⟨.mark .semicolon, l⟩ = endStatement ⟨.mark .semicolon, l⟩ .separator s' pending) ∧
    (∀ l, r.feed ⟨.mark .rightBrace, l⟩ =
      endStatement ⟨.mark .rightBrace, l⟩ .rightBrace s' pending) ∧
    r.finish = whole s' pending

/-- The tokens of a statement are read as it where a statement may stand. -/
def ReadableStmt (w : Bool) (s : Stmt) : Prop :=
  ∀ pending, Walled pending → Leads ⟨pending, .item⟩ (s.kinds w) (Ends pending s)

variable {s : Stmt} {ss : List Stmt}

theorem ends_of_more {opened p : List Pending} {e₁ e₂ : Expr} {s' : Stmt}
    (hsettle : settle false opened e₁ = .ok (p, e₂))
    (hstatement : statement p e₂ = .ok (pending, s')) (hbare : s'.bare = s.bare) :
    Ends pending s ⟨opened, .more e₁ none⟩ := by
  refine ⟨s', hbare, fun l => ?_, fun l => ?_, ?_⟩
  · change (settle false opened e₁).bind (fun q =>
      close ⟨.mark .semicolon, l⟩ .separator q.1 q.2) = _
    rw [hsettle]
    change (statement p e₂).bind _ = _
    rw [hstatement]
    rfl
  · change (settle false opened e₁).bind (fun q =>
      close ⟨.mark .rightBrace, l⟩ .rightBrace q.1 q.2) = _
    rw [hsettle]
    change (statement p e₂).bind _ = _
    rw [hstatement]
    rfl
  · change (settle false opened e₁).bind (fun q =>
      (statement q.1 q.2).bind fun u => whole u.2 u.1) = _
    rw [hsettle]
    change (statement p e₂).bind _ = _
    rw [hstatement]
    rfl

theorem ends_of_ended {s' : Stmt} (hbare : s'.bare = s.bare) :
    Ends pending s ⟨pending, .ended s'⟩ :=
  ⟨s', hbare, fun _ => rfl, fun _ => rfl, rfl⟩

theorem Readable.statement (h : Readable w e) : ReadableStmt w (.expr e) := by
  intro pending hwalled
  unfold Stmt.kinds
  split
  · refine (h.grouped pending .item (.inl rfl)).imp ?_
    rintro _ ⟨e', rfl, hbare⟩
    refine ends_of_more (hwalled.settle false e') (hwalled.statement e') ?_
    simp only [Stmt.bare, hbare]
  · obtain ⟨k, ks, hk, hopens⟩ := h.opens
    have hleads := h.leads pending hwalled
    rw [hk] at hleads ⊢
    refine (hleads.from_operand hopens (.inl rfl)).imp ?_
    rintro _ ⟨opened, e₁, e₂, rfl, hsettle, hbare⟩
    refine ends_of_more hsettle (hwalled.statement e₂) ?_
    simp only [Stmt.bare, hbare]

theorem readable_publicBinding (n : Ident) (he : Grouped w e) :
    ReadableStmt w (.publicBinding l n (e.named n)) := by
  intro pending hwalled
  unfold Stmt.kinds
  rw [Expr.kinds_named]
  refine leads_cons fun l' => ⟨_, rfl, leads_cons fun _ => ⟨_, rfl, leads_cons fun _ => ?_⟩⟩
  refine ⟨_, rfl, leads_cons fun _ => ⟨_, rfl, he.last fun e' hbare => ?_⟩⟩
  refine ends_of_more rfl rfl ?_
  simp only [Stmt.bare, Expr.bare_named, hbare]

theorem readable_variation {n : Ident} {l' : Location} {ps : List Ident}
    (h : Grouped w (.lambda l' none ps e)) : ReadableStmt w (.variation l n l' ps e) := by
  intro pending hwalled
  refine leads_cons fun l'' => ⟨_, rfl, leads_cons fun _ => ⟨_, rfl, leads_cons fun _ => ?_⟩⟩
  refine ⟨⟨.variation l'' n :: pending, .operand⟩, rfl, h.last fun e' hbare => ?_⟩
  cases e' with
  | lambda k o qs body =>
    obtain ⟨-, -, rfl, hbody⟩ := Expr.lambda.inj hbare
    refine ends_of_more rfl rfl ?_
    simp only [Stmt.bare, hbody]
  | _ => cases hbare

theorem readable_imports {ns : List Ident} {path : Text} (hne : ns ≠ []) :
    ReadableStmt w (.imports l ns path) := by
  intro pending hwalled
  cases ns with
  | nil => exact absurd rfl hne
  | cons n ns =>
    refine leads_cons fun l' => ⟨_, rfl, ?_⟩
    refine (leads_names (.impWord l' []) (.impWord l') (.impName l') [] (fun _ _ => rfl)
      (fun _ _ _ => rfl) (fun _ _ => rfl) n ns).append ?_
    rintro _ rfl
    refine leads_cons fun _ => ⟨_, rfl, leads_cons fun _ => ⟨_, rfl, leads_nil ?_⟩⟩
    exact ends_of_ended rfl

/-! ### Bodies -/

/-- The statements of a body have been read when a right brace or the end comes next. -/
def Fills (p : List Stmt → List Pending) (ss : List Stmt) (r : Reader) : Prop :=
  ∃ done : List Stmt, done.map Stmt.bare = ss.map Stmt.bare ∧
    (∀ l, r.feed ⟨.mark .rightBrace, l⟩ = closeBody ⟨.mark .rightBrace, l⟩ (p done)) ∧
    (p = (fun done => [.program done]) → r.finish = .ok done)

theorem Ends.fills {p : List Stmt → List Pending} (hp : Body p) {done : List Stmt} {r : Reader}
    (h : Ends (p done) s r) : Fills p (done ++ [s]) r := by
  obtain ⟨s', hbare, -, hbrace, hfinish⟩ := h
  refine ⟨done ++ [s'], by simp [hbare], fun l => ?_, ?_⟩
  · rw [hbrace]
    unfold endStatement
    rw [hp.add]
    rfl
  · rintro rfl
    exact hfinish

theorem leads_body {p : List Stmt → List Pending} (hp : Body p) (h : ∀ s ∈ ss, ReadableStmt w s)
    (done : List Stmt) :
    Leads ⟨p done, .item⟩ (separated (.mark .semicolon) (Stmt.allKinds w ss))
      (Fills p (done ++ ss)) := by
  induction ss generalizing done with
  | nil =>
    refine leads_nil ⟨done, by simp, fun _ => rfl, ?_⟩
    rintro rfl
    rfl
  | cons s ss ih =>
    have hs := h s (.head _) (p done) (hp.walled done)
    cases ss with
    | nil => exact hs.imp fun r hr => hr.fills hp
    | cons s₂ ss =>
      refine hs.append ?_
      rintro r ⟨s', hbare, hsemicolon, -, -⟩
      refine leads_cons fun l => ⟨⟨p (done ++ [s']), .item⟩, ?_, ?_⟩
      · rw [hsemicolon]
        unfold endStatement
        rw [hp.add]
        rfl
      · refine (ih (fun u hu => h u (.tail _ hu)) (done ++ [s'])).imp ?_
        rintro r' ⟨done', hall, hfills⟩
        exact ⟨done', hall.trans (by simp [hbare]), hfills⟩

theorem blockFlaw_of_bare {done : List Stmt} (hbare : done.map Stmt.bare = ss.map Stmt.bare)
    (h : ∀ s ∈ ss, s.isDeclaration = false) : blockFlaw done = none := by
  have hnone : done.find? Stmt.isDeclaration = none := by
    refine List.find?_eq_none.mpr fun s hs => ?_
    have hmem : s.bare ∈ ss.map Stmt.bare := hbare ▸ List.mem_map_of_mem hs
    obtain ⟨u, hu, he⟩ := List.mem_map.mp hmem
    rw [← Stmt.isDeclaration_bare, ← he, Stmt.isDeclaration_bare, h u hu]
    exact Bool.false_ne_true
  unfold blockFlaw
  rw [hnone]
  rfl

theorem readable_block (hdecl : ∀ s ∈ ss, s.isDeclaration = false)
    (h : ∀ s ∈ ss, ReadableStmt w s) : Readable w (.block l ss) := by
  refine ⟨⟨_, _, rfl, .of_mark fun _ _ => ⟨rfl, rfl⟩⟩, fun pending hwalled => ?_⟩
  refine leads_cons fun l' => ⟨_, rfl, ?_⟩
  refine (leads_body (body_block l' pending) h []).append ?_
  rintro r ⟨done, hbare, hbrace, -⟩
  refine leads_cons fun k => ⟨⟨pending, .more (.block l' done) none⟩, ?_, leads_nil ?_⟩
  · rw [hbrace]
    change Except.ok (Reader.mk pending (.more (.block l' done) (blockFlaw done))) = _
    rw [blockFlaw_of_bare hbare hdecl]
  · refine ⟨pending, _, _, rfl, hwalled.settle _ _, ?_⟩
    simp only [Expr.bare, Stmt.bares_eq_map, hbare]
    rfl

theorem readable_module (isPublic : Bool) (n : Ident) (h : ∀ s ∈ ss, ReadableStmt w s) :
    ReadableStmt w (.module l isPublic n ss) := by
  intro pending hwalled
  have hbody : ∀ l', Leads ⟨pending, .within (.modWord l' isPublic)⟩
      (.identifier n :: .mark .leftBrace ::
        (separated (.mark .semicolon) (Stmt.allKinds w ss) ++ [.mark .rightBrace]))
      (Ends pending (.module l isPublic n ss)) := by
    intro l'
    refine leads_cons fun _ => ⟨_, rfl, leads_cons fun _ => ⟨_, rfl, ?_⟩⟩
    refine (leads_body (body_module l' isPublic n pending) h []).append ?_
    rintro r ⟨done, hbare, hbrace, -⟩
    refine leads_cons fun k => ⟨_, hbrace k, leads_nil (ends_of_ended ?_)⟩
    simp only [Stmt.bare, Stmt.bares_eq_map, hbare]
    rfl
  cases isPublic with
  | true =>
    refine leads_cons fun l' => ⟨⟨pending, .within (.pubWord l')⟩, rfl, ?_⟩
    exact leads_cons fun _ => ⟨_, rfl, hbody l'⟩
  | false => exact leads_cons fun l' => ⟨_, rfl, hbody l'⟩

end Reader

end ModuleScript
