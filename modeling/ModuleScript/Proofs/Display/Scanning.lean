import ModuleScript.Program.Layout
import ModuleScript.Proofs.Display.Literals
import ModuleScript.Value.Display

/-!
# Scanning displayed values

Data are what a source can write down: integers, texts, chars, truth values, the unit and lists of
data. The nested form of a datum is scanned as a list of tokens whose kinds depend on the datum only,
in front of whatever may stand behind an element of a list.
-/

set_option autoImplicit false

namespace ModuleScript

open Scan

namespace Value

/-- A value that a source can write down. A list of chars alone would be a text. -/
inductive IsData : Value → Prop where
  | int {i : Int} : Decimal.writable i = true → IsData (.number (.int i))
  | text (t : Text) : IsData (.text t)
  | char (c : CodePoint) : IsData (.char c)
  | bool (b : Bool) : IsData (.bool b)
  | unit : IsData .unit
  | list {items : List Value} : (∀ v ∈ items, IsData v) →
      (items ≠ [] → ∃ v ∈ items, ∀ c, v ≠ .char c) → IsData (.list items)

mutual

/-- The kinds of the tokens that a datum is written with. -/
def kinds : Value → List Token.Kind
  | number (.int (.ofNat n)) => [.number n]
  | number (.int (.negSucc n)) => [.mark .minus, .number (n + 1)]
  | text t => [.string t]
  | char c => [.char c]
  | bool b => [.keyword (if b then .trueWord else .falseWord)]
  | unit => [.mark .leftParen, .mark .rightParen]
  | list items => .mark .leftBracket :: (itemKinds items ++ [.mark .rightBracket])
  | _ => []

def itemKinds : List Value → List Token.Kind
  | [] => []
  | [v] => v.kinds
  | v :: vs => v.kinds ++ .mark .comma :: itemKinds vs

end

end Value

namespace Scan

/-- In front of the rest, the text is scanned as tokens of these kinds. -/
def Scans (t : Text) (kinds : List Token.Kind) (rest : Text) : Prop :=
  ∀ l, ∃ l' ts, ts.map Token.kind = kinds ∧
    tokensFrom 0 l (t ++ rest) = (ts ++ (tokensFrom 0 l' rest).1, (tokensFrom 0 l' rest).2)

variable {s t rest : Text} {ks ks' : List Token.Kind} {c : CodePoint} {k : Token.Kind}

theorem tokensFrom_length (l : Location) (t rest : Text) :
    ∃ l', tokensFrom t.length l (t ++ rest) = tokensFrom 0 l' rest := by
  induction t generalizing l with
  | nil => exact ⟨l, rfl⟩
  | cons c t ih => exact ih (l.after c)

theorem scans_nil (rest : Text) : Scans [] [] rest :=
  fun l => ⟨l, [], rfl, rfl⟩

theorem Scans.append (hs : Scans s ks (t ++ rest)) (ht : Scans t ks' rest) :
    Scans (s ++ t) (ks ++ ks') rest := by
  intro l
  obtain ⟨l₁, ts, hk, he⟩ := hs l
  obtain ⟨l₂, us, hk', he'⟩ := ht l₁
  refine ⟨l₂, ts ++ us, ?_, ?_⟩
  · rw [List.map_append, hk, hk']
  · rw [List.append_assoc, he, he', List.append_assoc]

theorem scans_token (hp : piece c (t ++ rest) = (.token k, t.length)) :
    Scans (c :: t) [k] rest := by
  intro l
  obtain ⟨l', he⟩ := tokensFrom_length (l.after c) t rest
  refine ⟨l', [⟨k, l⟩], rfl, ?_⟩
  rw [List.cons_append, tokensFrom]
  dsimp only
  rw [hp]
  dsimp only
  rw [he]
  rfl

theorem scans_gap (hp : piece c (t ++ rest) = (.gap, t.length)) : Scans (c :: t) [] rest := by
  intro l
  obtain ⟨l', he⟩ := tokensFrom_length (l.after c) t rest
  refine ⟨l', [], rfl, ?_⟩
  rw [List.cons_append, tokensFrom]
  dsimp only
  rw [hp]
  exact he

/-! ## The parts of a datum -/

theorem scans_ofNat {n : Nat} (hn : Decimal.writable n = true) (h : Delimited rest) :
    Scans (Decimal.ofNat n) [.number n] rest := by
  obtain ⟨c, t, ht, hp⟩ := piece_ofNat hn
  rw [ht]
  exact scans_token (hp rest h)

theorem scans_minus (rest : Text) : Scans ("-" : Text) [.mark .minus] rest :=
  scans_token rfl

theorem scans_enclosed_text (t rest : Text) :
    Scans (Value.enclosed '"' t) [.string t] rest := by
  have hp := piece_text t rest
  refine scans_token (t := Escape.escape t ++ [('"' : CodePoint)]) ?_
  rw [List.append_assoc, List.length_append]
  exact hp

theorem scans_enclosed_char (c : CodePoint) (rest : Text) :
    Scans (Value.enclosed '\'' [c]) [.char c] rest := by
  have hp := piece_char c rest
  refine scans_token (t := Escape.escape [c] ++ [('\'' : CodePoint)]) ?_
  rw [List.append_assoc, List.length_append]
  exact hp

theorem nameTail_of_delimited (h : Delimited rest) : nameTail rest = [] := by
  cases rest with
  | nil => rw [nameTail]
  | cons c rest =>
    obtain ⟨hname, -, hdot⟩ := h c rfl
    rw [nameTail.eq_def]
    simp [hname, hdot]

theorem nameTail_append (ht : ∀ c ∈ t, continuesName c = true) (h : Delimited rest) :
    nameTail (t ++ rest) = t := by
  induction t with
  | nil => exact nameTail_of_delimited h
  | cons c t ih =>
    have hc := ht c (.head _)
    rw [List.cons_append, nameTail.eq_def]
    dsimp only
    rw [if_pos hc, ih fun d hd => ht d (.tail _ hd)]

theorem scans_true (h : Delimited rest) : Scans ("true" : Text) [.keyword .trueWord] rest := by
  have hall : ("rue" : Text).all continuesName = true := rfl
  have htail : nameTail (("rue" : Text) ++ rest) = ("rue" : Text) :=
    nameTail_append (List.all_eq_true.mp hall) h
  apply scans_token
  change (Piece.token (nameKind ('t' :: nameTail (("rue" : Text) ++ rest))),
    (nameTail (("rue" : Text) ++ rest)).length) = _
  rw [htail]
  rfl

theorem scans_false (h : Delimited rest) : Scans ("false" : Text) [.keyword .falseWord] rest := by
  have hall : ("alse" : Text).all continuesName = true := rfl
  have htail : nameTail (("alse" : Text) ++ rest) = ("alse" : Text) :=
    nameTail_append (List.all_eq_true.mp hall) h
  apply scans_token
  change (Piece.token (nameKind ('f' :: nameTail (("alse" : Text) ++ rest))),
    (nameTail (("alse" : Text) ++ rest)).length) = _
  rw [htail]
  rfl

theorem scans_unit (rest : Text) :
    Scans ("()" : Text) [.mark .leftParen, .mark .rightParen] rest :=
  Scans.append (s := ("(" : Text)) (t := (")" : Text)) (scans_token rfl) (scans_token rfl)

theorem scans_leftBracket (rest : Text) : Scans ("[" : Text) [.mark .leftBracket] rest :=
  scans_token rfl

theorem scans_rightBracket (rest : Text) : Scans ("]" : Text) [.mark .rightBracket] rest :=
  scans_token rfl

theorem scans_comma (rest : Text) : Scans (", " : Text) [.mark .comma] rest :=
  Scans.append (s := ("," : Text)) (t := (" " : Text)) (scans_token rfl) (scans_gap rfl)

theorem delimited_comma (rest : Text) : Delimited ((", " : Text) ++ rest) := by
  rintro c ⟨⟩
  decide

theorem delimited_rightBracket (rest : Text) : Delimited (("]" : Text) ++ rest) := by
  rintro c ⟨⟩
  decide

end Scan

namespace Value

open Scan

/-- What is to be shown of a datum: its nested form exists and is scanned as its kinds. -/
def Scannable (v : Value) : Prop :=
  ∃ t, v.nested = .ok t ∧ ∀ rest, Delimited rest → Scans t v.kinds rest

theorem scannable_int {i : Int} (hi : Decimal.writable i = true) :
    Scannable (.number (.int i)) := by
  have hnested : nested (.number (.int i)) = .ok (Decimal.ofInt i) := by
    change Decimal.ofInt? i = _
    unfold Decimal.ofInt?
    rw [if_pos hi]
  refine ⟨_, hnested, fun rest h => ?_⟩
  cases i with
  | ofNat n => exact scans_ofNat hi h
  | negSucc n =>
    have hn : Scans (Decimal.ofNat (n + 1)) [.number (n + 1)] rest := scans_ofNat hi h
    exact (scans_minus _).append hn

theorem scannable_items {items : List Value} (h : ∀ v ∈ items, Scannable v) :
    ∃ ts, nestedItems items = .ok ts ∧
      ∀ rest, Scans (Text.join ", " ts) (itemKinds items) (("]" : Text) ++ rest) := by
  induction items with
  | nil => exact ⟨[], rfl, fun rest => scans_nil _⟩
  | cons v vs ih =>
    obtain ⟨t, ht, hscan⟩ := h v (.head _)
    obtain ⟨ts, hts, hscans⟩ := ih fun w hw => h w (.tail _ hw)
    have hnested : nestedItems (v :: vs) = .ok (t :: ts) := by
      unfold nestedItems
      rw [ht, hts]
      rfl
    refine ⟨t :: ts, hnested, fun rest => ?_⟩
    cases vs with
    | nil =>
      cases hts
      exact hscan _ (delimited_rightBracket rest)
    | cons w vs =>
      cases ts with
      | nil =>
        unfold nestedItems at hts
        cases hw : w.nested <;> cases hws : nestedItems vs <;> rw [hw, hws] at hts <;> cases hts
      | cons u us =>
        have hrest := (scans_comma _).append (hscans rest)
        have hfirst := hscan _ (delimited_comma (Text.join ", " (u :: us) ++ (("]" : Text) ++ rest)))
        have hall := Scans.append (t := (", " : Text) ++ Text.join ", " (u :: us)) (s := t)
          (by rwa [List.append_assoc]) hrest
        rw [← List.append_assoc] at hall
        exact hall

theorem scannable_list {items : List Value} (h : ∀ v ∈ items, Scannable v) :
    Scannable (.list items) := by
  obtain ⟨ts, hts, hscans⟩ := scannable_items h
  have hnested : nested (.list items) = .ok ("[" ++ Text.join ", " ts ++ "]") := by
    unfold nested
    rw [hts]
    rfl
  refine ⟨_, hnested, fun rest _ => ?_⟩
  have hinner := (hscans rest).append (scans_rightBracket rest)
  have hall := (scans_leftBracket (Text.join ", " ts ++ ("]" : Text) ++ rest)).append hinner
  rw [← List.append_assoc] at hall
  exact hall

theorem IsData.scannable {v : Value} (h : IsData v) : Scannable v := by
  induction h with
  | int hi => exact scannable_int hi
  | text t => exact ⟨_, rfl, fun rest _ => scans_enclosed_text t rest⟩
  | char c => exact ⟨_, rfl, fun rest _ => scans_enclosed_char c rest⟩
  | bool b =>
    cases b with
    | true => exact ⟨_, rfl, fun rest h => scans_true h⟩
    | false => exact ⟨_, rfl, fun rest h => scans_false h⟩
  | unit => exact ⟨_, rfl, fun rest _ => scans_unit rest⟩
  | list _ _ ih => exact scannable_list ih

end Value

/-! ## Whole texts -/

mutual

theorem Value.newline_notMem_kinds : ∀ v : Value, Token.Kind.newline ∉ v.kinds
  | .number (.int (.ofNat n)) => by simp [Value.kinds]
  | .number (.int (.negSucc n)) => by simp [Value.kinds]
  | .number (.float x) => by simp [Value.kinds]
  | .text t => by simp [Value.kinds]
  | .char c => by simp [Value.kinds]
  | .bool b => by simp [Value.kinds]
  | .unit => by simp [Value.kinds]
  | .list items => by
    have hitems := Value.newline_notMem_itemKinds items
    simp [Value.kinds, hitems]
  | .closure c => by simp [Value.kinds]
  | .native n => by simp [Value.kinds]
  | .module id path => by simp [Value.kinds]

theorem Value.newline_notMem_itemKinds :
    ∀ items : List Value, Token.Kind.newline ∉ Value.itemKinds items
  | [] => by simp [Value.itemKinds]
  | [v] => Value.newline_notMem_kinds v
  | v :: w :: vs => by
    have hv := Value.newline_notMem_kinds v
    have hvs := Value.newline_notMem_itemKinds (w :: vs)
    simp [Value.itemKinds, hv, hvs]

end

theorem Layout.significant_of_no_newline {ts : List Token}
    (h : Token.Kind.newline ∉ ts.map Token.kind) (awaited : List Mark)
    (last : Option Token.Kind) : Layout.significant awaited last ts = ts := by
  induction ts generalizing awaited last with
  | nil => rfl
  | cons t ts ih =>
    have ht : t.kind ≠ .newline := by
      intro he
      exact h (List.mem_map.mpr ⟨t, .head _, he⟩)
    unfold Layout.significant
    rw [if_neg fun hn => ht hn.1, ih fun hm => h (.tail _ hm)]

theorem tokenize_of_scans {t : Text} {kinds : List Token.Kind} (h : Scans t kinds [])
    (hn : Token.Kind.newline ∉ kinds) (file : Text) :
    ∃ ts, tokenize file t = (ts, none) ∧ ts.map Token.kind = kinds := by
  obtain ⟨l, ts, hk, he⟩ := h (Location.start file)
  have hscan : scan file t = (ts, none) := by
    unfold scan
    rw [List.append_nil] at he
    rw [he]
    change (ts ++ [], none) = _
    rw [List.append_nil]
  refine ⟨ts, ?_, hk⟩
  unfold tokenize
  rw [hscan]
  dsimp only
  rw [Layout.significant_of_no_newline (by rwa [hk])]

end ModuleScript
