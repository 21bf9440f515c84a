import ModuleScript.Proofs.Printing.Reading
import ModuleScript.Proofs.Printing.Written

/-!
# Printed programs are read back

A printable program is read back from every text that writes its tokens, up to locations.
-/

set_option autoImplicit false

namespace ModuleScript

open Token.Kind

/-! ## Spelling -/

namespace Token.Kind

/-- Tokens that are scanned from their spelling. -/
def Spellable (ks : List Token.Kind) : Prop := ∀ k ∈ ks, k.Spelled

variable {k separator : Token.Kind} {ks ks' : List Token.Kind} {kss : List (List Token.Kind)}

@[simp] theorem spellable_nil : Spellable [] := fun k hk => by cases hk

@[simp] theorem spellable_cons : Spellable (k :: ks) ↔ k.Spelled ∧ Spellable ks := by
  simp [Spellable]

@[simp] theorem spellable_append : Spellable (ks ++ ks') ↔ Spellable ks ∧ Spellable ks' := by
  simp only [Spellable, List.mem_append]
  constructor
  · exact fun h => ⟨fun k hk => h k (.inl hk), fun k hk => h k (.inr hk)⟩
  · rintro ⟨h, h'⟩ k (hk | hk)
    · exact h k hk
    · exact h' k hk

attribute [simp] Spelled.string Spelled.char Spelled.keyword Spelled.mark

@[simp] theorem spellable_grouped : Spellable (grouped ks) ↔ Spellable ks := by
  simp [grouped]

theorem spellable_separated (hs : separator.Spelled) (h : ∀ ks ∈ kss, Spellable ks) :
    Spellable (separated separator kss) := by
  induction kss with
  | nil => exact spellable_nil
  | cons ks kss ih =>
    have hks := h ks (.head _)
    have hrest := ih fun js hj => h js (.tail _ hj)
    cases kss with
    | nil => exact hks
    | cons js kss => exact spellable_append.mpr ⟨hks, spellable_cons.mpr ⟨hs, hrest⟩⟩

theorem spellable_ofNames {ns : List Ident} (h : ∀ n ∈ ns, Scan.isIdentifier n = true) :
    Spellable (ofNames ns) := by
  refine spellable_separated (.mark _) fun ks hks => ?_
  obtain ⟨n, hn, rfl⟩ := List.mem_map.mp hks
  exact spellable_cons.mpr ⟨.identifier (h n hn), spellable_nil⟩

end Token.Kind

variable {w : Bool} {s : Stmt} {ss : List Stmt} {es : List Expr}

@[simp] theorem spellable_expr {e : Expr} :
    Spellable ((Stmt.expr e).kinds w) ↔ Spellable (e.kinds w) := by
  unfold Stmt.kinds
  split
  · exact spellable_grouped
  · rfl

theorem spellable_groups (h : ∀ e ∈ es, Spellable ((Stmt.expr e).kinds w)) :
    Spellable (separated (.mark .comma) (Expr.groups w es)) := by
  refine spellable_separated (.mark _) ?_
  induction es with
  | nil =>
    rintro ks ⟨⟩
  | cons e es ih =>
    intro ks hks
    rcases List.mem_cons.mp hks with rfl | hks
    · exact spellable_grouped.mpr (spellable_expr.mp (h e (.head _)))
    · exact ih (fun a ha => h a (.tail _ ha)) ks hks

theorem spellable_statements (h : ∀ s ∈ ss, Spellable (s.kinds w)) :
    Spellable (separated (.mark .semicolon) (Stmt.allKinds w ss)) := by
  refine spellable_separated (.mark _) ?_
  induction ss with
  | nil =>
    rintro ks ⟨⟩
  | cons s ss ih =>
    intro ks hks
    rcases List.mem_cons.mp hks with rfl | hks
    · exact h s (.head _)
    · exact ih (fun a ha => h a (.tail _ ha)) ks hks

theorem spellable_test {k : Keyword} {o : Option Expr}
    (h : ∀ c ∈ o, Spellable ((Stmt.expr c).kinds w)) : Spellable (Expr.test w k o) := by
  cases o with
  | none => exact spellable_nil
  | some c => simpa [Expr.test] using h c rfl

theorem spellable_arms {arms : List Arm}
    (hx : ∀ l x o b, Arm.mk l x o b ∈ arms → Scan.isIdentifier x = true)
    (hguard : ∀ l x g b, Arm.mk l x (some g) b ∈ arms → Spellable ((Stmt.expr g).kinds w))
    (hbody : ∀ l x o b, Arm.mk l x o b ∈ arms → Spellable ((Stmt.expr b).kinds w)) :
    Spellable (Arm.allKinds w arms) := by
  induction arms with
  | nil => exact spellable_nil
  | cons arm arms ih =>
    obtain ⟨l, x, guard, body⟩ := arm
    have hrest := ih (fun l x o b h => hx l x o b (.tail _ h))
      (fun l x g b h => hguard l x g b (.tail _ h)) fun l x o b h => hbody l x o b (.tail _ h)
    have htest : Spellable (Expr.test w .andWord guard) := by
      refine spellable_test fun g hg => ?_
      cases hg
      exact hguard l x g body (.head _)
    have hname : (Token.Kind.identifier x).Spelled := .identifier (hx l x guard body (.head _))
    have hend := spellable_expr.mp (hbody l x guard body (.head _))
    simp [Arm.allKinds, Arm.kinds, hname, htest, hend, hrest]

theorem Printable.spellable (h : Printable s) : Spellable (s.kinds w) := by
  induction h with
  | int hn => simpa [Expr.kinds, Constant.kind] using Spelled.number hn
  | string l t => simp [Expr.kinds, Constant.kind]
  | char l c => simp [Expr.kinds, Constant.kind]
  | bool l b => simp [Expr.kinds, Constant.kind]
  | unit l => simp [Expr.kinds]
  | name hn => simpa [Expr.kinds] using Spelled.identifier hn
  | dotted hlen hnames => simpa [Expr.kinds] using Spelled.dotted hlen hnames
  | list _ ih => simpa [Expr.kinds] using spellable_groups ih
  | range _ _ iha ihb =>
    simp only [spellable_expr] at iha ihb
    simp [Expr.kinds, iha, ihb]
  | comprehension hx _ _ _ ihe ihb iho =>
    have htest := spellable_test (k := .ifWord) iho
    simp only [spellable_expr] at ihe ihb
    simp [Expr.kinds, Spelled.identifier hx, ihe, ihb, htest]
  | unary _ ih => simpa [Expr.kinds] using ih
  | binary _ _ iha ihb =>
    simp only [spellable_expr] at iha ihb
    simp [Expr.kinds, iha, ihb]
  | binding hn _ ih => simpa [Expr.kinds, Expr.kinds_named, Spelled.identifier hn] using ih
  | lambda _ hps _ ih => simpa [Expr.kinds, spellable_ofNames hps] using ih
  | call _ _ _ ihf ih =>
    simp only [spellable_expr] at ihf
    simp [Expr.kinds, ihf, spellable_groups ih]
  | cond _ _ _ iha ihb ihc =>
    simp only [spellable_expr] at iha ihb ihc
    simp [Expr.kinds, iha, ihb, ihc]
  | select _ _ hx _ _ ihe ihguard ihbody =>
    simpa [Expr.kinds, spellable_arms hx ihguard ihbody] using ihe
  | block _ _ ih => simpa [Expr.kinds] using spellable_statements ih
  | sequence _ ih =>
    have hseq : Spelled (.identifier "seq") := .identifier rfl
    simpa [Expr.kinds, hseq] using spellable_groups ih
  | publicBinding hn _ ih =>
    simpa [Stmt.kinds, Expr.kinds_named, Spelled.identifier hn] using spellable_expr.mp ih
  | variation hn _ ih =>
    simpa [Stmt.kinds, Spelled.identifier hn, Expr.kinds] using spellable_expr.mp ih
  | @module l isPublic n ss hn _ ih =>
    cases isPublic <;> simp [Stmt.kinds, Spelled.identifier hn, spellable_statements ih]
  | imports _ hns => simp [Stmt.kinds, spellable_ofNames hns]

/-! ## Reading -/

open Reader

/-- A printable statement is read, and an expression wherever it has a construct to itself. -/
theorem Printable.readable (h : Printable s) :
    ReadableStmt w s ∧ ∀ e, s = .expr e → Readable w e := by
  have hexpr : ∀ {e}, Readable w e →
      ReadableStmt w (.expr e) ∧ ∀ a, Stmt.expr e = .expr a → Readable w a := by
    intro e he
    refine ⟨he.statement, ?_⟩
    rintro _ ⟨⟩
    exact he
  have hstmt : ∀ {s}, ReadableStmt w s → (∀ e, s ≠ .expr e) →
      ReadableStmt w s ∧ ∀ e, s = .expr e → Readable w e :=
    fun hs hne => ⟨hs, fun e he => absurd he (hne e)⟩
  induction h with
  | int _ => exact hexpr (readable_constant fun _ _ => ⟨rfl, rfl, rfl⟩)
  | string _ _ => exact hexpr (readable_constant fun _ _ => ⟨rfl, rfl, rfl⟩)
  | char _ _ => exact hexpr (readable_constant fun _ _ => ⟨rfl, rfl, rfl⟩)
  | bool _ b => exact hexpr (readable_bool b)
  | unit _ => exact hexpr readable_unit
  | @name _ n _ =>
    exact hexpr (readable_leaf (.name · n) rfl (fun _ => rfl) fun _ _ => ⟨rfl, rfl, rfl⟩)
  | @dotted _ names _ _ =>
    exact hexpr (readable_leaf (.dotted · names) rfl (fun _ => rfl) fun _ _ => ⟨rfl, rfl, rfl⟩)
  | list _ ih => exact hexpr (readable_list fun a ha => ((ih a ha).2 a rfl).grouped)
  | range _ _ iha ihb =>
    exact hexpr (readable_range (iha.2 _ rfl).grouped (ihb.2 _ rfl).grouped)
  | comprehension _ _ _ _ ihe ihb iho =>
    exact hexpr (readable_comprehension (ihe.2 _ rfl).grouped (ihb.2 _ rfl).grouped
      fun c hc => ((iho c hc).2 c rfl).grouped)
  | @unary _ op _ _ ih => exact hexpr (readable_unary op (ih.2 _ rfl).grouped)
  | @binary _ op _ _ _ _ iha ihb =>
    exact hexpr (readable_binary op (iha.2 _ rfl).grouped (ihb.2 _ rfl).grouped)
  | @binding _ n _ _ _ ih => exact hexpr (readable_binding n (ih.2 _ rfl).grouped)
  | lambda hps _ _ ih => exact hexpr (readable_lambda hps (ih.2 _ rfl).grouped)
  | call _ _ hseq ihf ih =>
    exact hexpr (readable_call (ihf.2 _ rfl).grouped (fun a ha => ((ih a ha).2 a rfl).grouped) hseq)
  | cond _ _ _ iha ihb ihc =>
    exact hexpr (readable_cond (iha.2 _ rfl).grouped (ihb.2 _ rfl).grouped (ihc.2 _ rfl).grouped)
  | select _ hne _ _ _ ihe ihguard ihbody =>
    refine hexpr (readable_select (ihe.2 _ rfl).grouped hne fun arm harm => ?_)
    obtain ⟨l, x, guard, body⟩ := arm
    refine ⟨fun g hg => ?_, ((ihbody l x guard body harm).2 _ rfl).grouped⟩
    cases hg
    exact ((ihguard l x g body harm).2 _ rfl).grouped
  | block hdecl _ ih => exact hexpr (readable_block hdecl fun s hs => (ih s hs).1)
  | sequence _ ih => exact hexpr (readable_sequence fun a ha => ((ih a ha).2 a rfl).grouped)
  | @publicBinding _ n _ _ _ ih =>
    exact hstmt (readable_publicBinding n (ih.2 _ rfl).grouped) fun _ he => by cases he
  | variation _ _ ih =>
    exact hstmt (readable_variation (ih.2 _ rfl).grouped) fun _ he => by cases he
  | @module _ isPublic n _ _ _ ih =>
    exact hstmt (readable_module isPublic n fun s hs => (ih s hs).1) fun _ he => by cases he
  | imports hne _ => exact hstmt (readable_imports hne) fun _ he => by cases he

/-! ## Round trip -/

namespace Printing

/-- Every printable program is written by the text that it is printed as, and is read back from every
text that writes its tokens, in every source, up to the locations of its nodes. -/
theorem printed_reads_back {p : Program} (hp : ∀ s ∈ p, Printable s) (enclosed : Bool)
    (file : Text) :
    Written (p.kinds enclosed) (p.print enclosed) ∧
      ∀ t, Written (p.kinds enclosed) t →
        ∃ q : Program, readProgram file t = .ok q ∧ q.map Stmt.bare = p.map Stmt.bare := by
  have hprint : Written (p.kinds enclosed) (([] : Text) ++ p.print enclosed) :=
    written_spaced _ fun c hc => by cases hc
  refine ⟨hprint, fun t ht => ?_⟩
  have hspellable : Spellable (p.kinds enclosed) :=
    spellable_statements fun s hs => (hp s hs).spellable
  obtain ⟨ts, htokens, hkinds⟩ := ht.tokenize hspellable file
  have hstmts : ∀ s ∈ p, ReadableStmt enclosed s := fun s hs => (hp s hs).readable.1
  obtain ⟨r, hfeed, q, hbare, -, hfinish⟩ := leads_body body_program hstmts [] ts hkinds
  have hstart : Reader.start.feedAll ts = .ok r := hfeed
  refine ⟨q, ?_, hbare⟩
  unfold readProgram
  rw [htokens]
  dsimp only
  rw [hstart]
  dsimp only
  rw [hfinish rfl]
  rfl

/-- A public function that matches, and a call of it in a sequence. -/
def sample : Program :=
  let l := Location.erased
  [.publicBinding l "f" (.lambda l (some "f") ["x"] (.select l (.name l "x")
      [.mk l "y" (some (.binary l .less (.name l "y") (.constant l (.number (.int 0)))))
          (.constant l (.string "a\"\n")),
        .mk l "z" none (.list l [.name l "z", .unit l])])),
    .expr (.sequence l [.call l (.name l "f") [.constant l (.char 'c')]])]

theorem sample_printable : ∀ s ∈ sample, Printable s := by
  have hname : ∀ {n : Ident}, Scan.isIdentifier n = true →
      Printable (.expr (.name .erased n)) := .name
  have hless : Printable (.expr (.binary .erased .less (.name .erased "y")
      (.constant .erased (.number (.int 0))))) :=
    .binary (hname rfl) (.int (n := 0) (Decimal.writable_of_le (by decide)))
  have hlist : Printable (.expr (.list .erased [.name .erased "z", .unit .erased])) := by
    refine .list fun e he => ?_
    simp only [List.mem_cons, List.not_mem_nil, or_false] at he
    rcases he with rfl | rfl
    · exact hname rfl
    · exact .unit _
  have hcall : Printable (.expr (.call .erased (.name .erased "f")
      [.constant .erased (.char 'c')])) := by
    refine .call (hname rfl) (fun e he => ?_) fun l l' elements hf => ?_
    · rw [List.mem_singleton.mp he]
      exact .char _ _
    · cases hf
  intro s hs
  unfold sample at hs
  simp only [List.mem_cons, List.not_mem_nil, or_false] at hs
  rcases hs with rfl | rfl
  · refine .publicBinding (e := .lambda .erased none ["x"] _) rfl (.lambda (by simp) ?_ ?_)
    · intro n hn
      rw [List.mem_singleton.mp hn]
      rfl
    · refine .select (hname rfl) (List.cons_ne_nil _ _) ?_ ?_ ?_
      · rintro l x o b h
        simp only [List.mem_cons, List.not_mem_nil, or_false, Arm.mk.injEq] at h
        rcases h with ⟨-, rfl, -, -⟩ | ⟨-, rfl, -, -⟩ <;> rfl
      · rintro l x g b h
        simp only [List.mem_cons, List.not_mem_nil, or_false, Arm.mk.injEq, Option.some.injEq,
          reduceCtorEq, false_and, and_false] at h
        obtain ⟨-, -, rfl, -⟩ := h
        exact hless
      · rintro l x o b h
        simp only [List.mem_cons, List.not_mem_nil, or_false, Arm.mk.injEq] at h
        rcases h with ⟨-, -, -, rfl⟩ | ⟨-, -, -, rfl⟩
        · exact .string _ _
        · exact hlist
  · refine .sequence fun e he => ?_
    rw [List.mem_singleton.mp he]
    exact hcall

theorem printed_reads_back_sample :
    (∀ s ∈ sample, Printable s) ∧ ∃ q : Program,
      readProgram "main" (sample.print false) = .ok q ∧
        q.map Stmt.bare = sample.map Stmt.bare := by
  obtain ⟨hprint, hreads⟩ := printed_reads_back sample_printable false "main"
  exact ⟨sample_printable, hreads _ hprint⟩

end Printing

end ModuleScript
