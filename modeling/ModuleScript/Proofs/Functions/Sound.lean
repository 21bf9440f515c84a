import ModuleScript.Proofs.Conduct.Sessions
import ModuleScript.Proofs.Grammar.WellFormed

/-!
# Functions are sound

Programs that are read are sound, and so is every statement that they lead to, in the bodies of
functions too. Every function that a session makes has variants for different numbers of distinct
parameters, with sound bodies.
-/

set_option autoImplicit false

namespace ModuleScript

open Eval Session

theorem Sound.mono {T T' : Location → Prop} {parent : Option Stmt} {s : Stmt} (h : Sound T parent s)
    (hT : ∀ l, T l → T' l) : Sound T' parent s := by
  induction h with
  | node hp hl _ ih => exact .node hp (fun l hm => hT l (hl l hm)) ih

/-- The function has variants, each for another number of arguments, with parameters that differ and
a body that is located in `T`. -/
structure Closure.Sound (T : Location → Prop) (f : Closure) : Prop where
  variants : f.variants ≠ []
  arities : (f.variants.map Variant.arity).Nodup
  params : ∀ v ∈ f.variants, v.params.Nodup
  body : ∀ v ∈ f.variants, ∃ parent, ModuleScript.Sound T parent (.expr v.body)

variable {T : Location → Prop} {f : Closure} {v : Variant}

theorem Closure.variant?_eq_some {arity : Nat} (h : f.variant? arity = some v) :
    v ∈ f.variants ∧ v.arity = arity :=
  ⟨List.mem_of_find?_eq_some h, by simpa using List.find?_some h⟩

theorem Closure.variant?_eq_none {arity : Nat} :
    f.variant? arity = none ↔ ∀ v ∈ f.variants, v.arity ≠ arity := by
  unfold Closure.variant?
  rw [List.find?_eq_none]
  exact forall₂_congr fun v _ => by rw [beq_iff_eq]

namespace Closure.Sound

/-- Every variant is found under the number of its parameters. -/
theorem variant?_of_mem (h : f.Sound T) (hv : v ∈ f.variants) : f.variant? v.arity = some v := by
  cases hf : f.variant? v.arity with
  | none => exact absurd rfl (variant?_eq_none.mp hf v hv)
  | some u =>
    obtain ⟨hu, harity⟩ := variant?_eq_some hf
    rw [List.inj_on_of_nodup_map h.arities hu hv harity]

theorem single (hv : v.params.Nodup) (hbody : ∃ parent, ModuleScript.Sound T parent (.expr v.body))
    (identity : Nat) (name : Option Ident) : Closure.Sound T ⟨identity, name, [v]⟩ where
  variants := nofun
  arities := List.nodup_singleton _
  params := List.forall_mem_singleton.mpr hv
  body := List.forall_mem_singleton.mpr hbody

theorem append (h : f.Sound T) (hnone : f.variant? v.arity = none) (hv : v.params.Nodup)
    (hbody : ∃ parent, ModuleScript.Sound T parent (.expr v.body)) (identity : Nat) :
    Closure.Sound T ⟨identity, f.name, f.variants ++ [v]⟩ where
  variants := List.append_ne_nil_of_left_ne_nil h.variants _
  arities := by
    rw [List.map_append, List.nodup_append]
    refine ⟨h.arities, List.nodup_singleton _, ?_⟩
    intro a ha b hb
    obtain ⟨u, hu, rfl⟩ := List.mem_map.mp ha
    rw [List.mem_singleton.mp hb]
    exact variant?_eq_none.mp hnone u hu
  params := List.forall_mem_append.mpr ⟨h.params, List.forall_mem_singleton.mpr hv⟩
  body := List.forall_mem_append.mpr ⟨h.body, List.forall_mem_singleton.mpr hbody⟩

end Closure.Sound

namespace Stmt

/-- The statement is sound where it stands. -/
def IsSound (T : Location → Prop) (s : Stmt) : Prop := ∃ parent, Sound T parent s

variable {s t : Stmt}

theorem IsSound.part (h : s.IsSound T) (ht : t ∈ s.parts) : t.IsSound T :=
  let ⟨_, hs⟩ := h
  ⟨_, hs.child (List.mem_append_left _ ht)⟩

theorem IsSound.member (h : s.IsSound T) (ht : t ∈ s.members) : t.IsSound T :=
  let ⟨_, hs⟩ := h
  ⟨_, hs.child (List.mem_append_right _ ht)⟩

end Stmt

namespace Session

/-- A text that a session given these commands reads as a program, with the name of the source. -/
inductive Reads (h : Host) (commands : List Command) : Text → Text → Prop where
  | prelude : Reads h commands "<prelude>" preludeSource
  | source {name text : Text} : Command.source name text ∈ commands → Reads h commands name text
  | file {name text : Text} : Command.file name ∈ commands →
      h.disk.readText (Path.ofText name) = .ok text →
      Reads h commands (Path.ofText name).text text
  | imported {p : Path} {text : Text} : h.disk.LeadsTo p → h.disk.readText p = .ok text →
      Reads h commands p.text text

theorem Given.reads {h : Host} {commands : List Command} {source : Text} {globals : FrameId}
    {outer : List FrameId} {program : Program} (hg : Given h commands source globals outer program) :
    ∃ text, Reads h commands source text ∧ readProgram source text = .ok program := by
  cases hg with
  | prelude hr => exact ⟨_, .prelude, program_of_read hr⟩
  | source hc hr => exact ⟨_, .source hc, program_of_read hr⟩
  | file hc ht hr => exact ⟨_, .file hc ht, program_of_read hr⟩

end Session

namespace Conduct

/-- All statements are sound and all functions are. -/
def sound (T : Location → Prop) : Conduct where
  World := Unit
  Later _ _ := True
  later_refl _ := trivial
  later_trans _ _ := trivial
  Fits _ m := m.Holds (Value.Carries (Closure.Sound T))
  Good _ := Closure.Sound T
  Serves _ _ := True
  Code _ _ := Stmt.IsSound T
  Here _ _ := True
  Varies := True
  good_later _ h := h
  serves_later _ h := h
  code_later _ h := h
  here_later _ h := h
  code_site _ := trivial
  code_part hs ht := hs.part ht
  holds hm := hm
  writable _ _ := ⟨trivial, fun _ _ => trivial, fun _ => trivial⟩
  erasable _ _ _ := trivial
  change hm hc := hc.holds hm
  enter hm hs _ hf := ⟨⟨⟩, trivial, hm.pushFrame hf.good, fun _ ht => hs.part ht⟩
  call hm hf hv _ hg := ⟨⟨⟩, trivial, hm.pushFrame hg.good, hf.body _ hv⟩
  lambda hm hs := by
    obtain ⟨parent, hs⟩ := id hs
    refine ⟨⟨⟩, trivial, hm.of_exporting rfl rfl (hm.exporting.of_eq rfl rfl), ?_⟩
    exact .single hs.permitted.1 ⟨_, hs.child (.head _)⟩ _ _
  vary _ hm hs _ hf hnone := by
    obtain ⟨parent, hs⟩ := id hs
    refine ⟨⟨⟩, trivial, hm.of_exporting rfl rfl (hm.exporting.of_eq rfl rfl), ?_,
      fun _ _ => trivial, fun _ => trivial, fun _ _ => trivial⟩
    exact hf.append (v := variantHere _ _ _) hnone hs.permitted.2 ⟨_, hs.child (.head _)⟩ _
  register hm _ hr := by
    obtain ⟨-, -, -, rfl⟩ := Machine.register_eq_ok hr
    exact ⟨⟨⟩, trivial, hm.pushRecord (fun vis => by cases vis <;> rfl) _, trivial, trivial⟩
  enterModule hm hs _ _ _ _ :=
    ⟨⟨⟩, trivial, hm.pushFrame (by rintro _ _ ⟨⟩), .of_code (fun _ => trivial) (fun _ h => h)
      fun _ ht => hs.member ht⟩

section Serving

variable {h : Host} {commands : List Command}

theorem sound_serving (hT : ∀ source text program, Reads h commands source text →
    readProgram source text = .ok program → ∀ s ∈ program, s.IsSound T) :
    (sound T).Serving h commands where
  files :=
    { setLoading := fun _ hm => hm.of_exporting rfl rfl (hm.exporting.of_eq rfl rfl)
      setLoaded := fun _ _ hm he => hm.of_exporting rfl rfl (hm.exporting.setLoaded _ he)
      openFile := fun hm hp ht hr =>
        ⟨⟨⟩, trivial, (Machine.Holds.pushFrame hm fun hv => by cases hv).pushExports, trivial,
          hT _ _ _ (.imported hp ht) (program_of_read hr)⟩ }
  varies := trivial
  given hm hg :=
    let ⟨_, hreads, hr⟩ := hg.reads
    ⟨⟨⟩, trivial, Machine.Holds.pushExports hm, trivial, hT _ _ _ hreads hr⟩

end Serving

end Conduct

end ModuleScript
