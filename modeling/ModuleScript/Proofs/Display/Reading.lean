import ModuleScript.Proofs.Display.Scanning
import ModuleScript.Proofs.Reading.Feeding

/-!
# Reading operands

Tokens yield an expression if they are read as it wherever an operand is to come, whatever constructs
have begun around it. A negation stays open to the right until the token behind it.
-/

set_option autoImplicit false

namespace ModuleScript

open Reader

namespace Reader

/-- Where an operand is to come, the tokens are read as the expression, though some of its
constructs may still be open. -/
def Yields (ts : List Token) (e : Expr) : Prop :=
  ∀ pending, ∃ opened e', feedAll ⟨pending, .operand⟩ ts = .ok ⟨opened ++ pending, .more e' none⟩ ∧
    ∀ atBar, settle atBar (opened ++ pending) e' = settle atBar pending e

variable {ts us : List Token} {t : Token} {e : Expr} {pending : List Pending}

theorem yields_leaf (h : ∀ pending, startOperand t pending = .ok ⟨pending, .more e none⟩) :
    Yields [t] e := by
  intro pending
  refine ⟨[], e, ?_, fun _ => rfl⟩
  change (startOperand t pending).bind _ = _
  rw [h pending]
  rfl

theorem yields_negative {u : Token} {n : Nat} (ht : t.kind = .mark .minus)
    (hu : u.kind = .number n) :
    Yields [t, u] (.unary t.location .negate (.constant u.location (.number (.int n)))) := by
  obtain ⟨_, l⟩ := t
  obtain ⟨_, l'⟩ := u
  cases ht
  cases hu
  exact fun pending => ⟨[.unary l .negate], .constant l' (.number (.int n)), rfl, fun _ => rfl⟩

theorem yields_unit {u : Token} (ht : t.kind = .mark .leftParen) (hu : u.kind = .mark .rightParen) :
    Yields [t, u] (.unit t.location) := by
  obtain ⟨_, l⟩ := t
  obtain ⟨_, l'⟩ := u
  cases ht
  cases hu
  exact fun pending => ⟨[], .unit l, rfl, fun _ => rfl⟩

theorem Yields.close (h : Yields ts e) {c : Closer} (hc : follower? t.kind = some (.closer c))
    (hp : settle (c == .bar) pending e = .ok (pending, e)) :
    feedAll ⟨pending, .operand⟩ (ts ++ [t]) = Reader.close t c pending e := by
  obtain ⟨opened, e', hfeed, hsettle⟩ := h pending
  rw [feedAll_append, hfeed]
  change (continueWith t (opened ++ pending) e' none).bind pure = _
  unfold continueWith
  rw [hc]
  change ((settle (c == .bar) (opened ++ pending) e').bind fun p => Reader.close t c p.1 p.2).bind
    pure = _
  rw [hsettle, hp]
  change (Reader.close t c pending e).bind pure = _
  cases Reader.close t c pending e <;> rfl

end Reader

theorem Value.IsData.opens {v : Value} (h : IsData v) :
    ∃ k ks, v.kinds = k :: ks ∧ Opens k := by
  have hopens : ∀ k : Token.Kind, (∀ l pending,
      startItem ⟨k, l⟩ pending = startOperand ⟨k, l⟩ pending ∧
        startOrClose ⟨k, l⟩ pending = startOperand ⟨k, l⟩ pending) → Opens k := by
    rintro k hk ⟨_, l⟩ rfl pending
    exact hk l pending
  cases h with
  | @int i hi =>
    cases i with
    | ofNat n => exact ⟨_, _, rfl, hopens _ fun l pending => ⟨rfl, rfl⟩⟩
    | negSucc n => exact ⟨_, _, rfl, hopens _ fun l pending => ⟨rfl, rfl⟩⟩
  | text t => exact ⟨_, _, rfl, hopens _ fun l pending => ⟨rfl, rfl⟩⟩
  | char c => exact ⟨_, _, rfl, hopens _ fun l pending => ⟨rfl, rfl⟩⟩
  | bool b => cases b <;> exact ⟨_, _, rfl, hopens _ fun l pending => ⟨rfl, rfl⟩⟩
  | unit => exact ⟨_, _, rfl, hopens _ fun l pending => ⟨rfl, rfl⟩⟩
  | list => exact ⟨_, _, rfl, hopens _ fun l pending => ⟨rfl, rfl⟩⟩

end ModuleScript
