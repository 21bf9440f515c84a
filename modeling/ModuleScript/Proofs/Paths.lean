import Mathlib.Data.List.Basic
import ModuleScript.Files.Disk

/-!
# Paths are known by their texts

The parts of a path that was read from a text are names without slashes. A path made of such names
is the only one with its text, and imports lead to such paths only.
-/

set_option autoImplicit false

namespace ModuleScript

namespace Path

/-- All parts are names: not empty and without a slash. -/
def Proper (p : Path) : Prop := ∀ part ∈ p.parts, part ≠ [] ∧ slash ∉ part

instance (p : Path) : Decidable p.Proper :=
  inferInstanceAs (Decidable (∀ part ∈ p.parts, part ≠ [] ∧ slash ∉ part))

/-! ## Texts split at slashes -/

theorem splitSlashes_append {part : Text} (h : slash ∉ part) (rest : Text) :
    splitSlashes (part ++ slash :: rest) = part :: splitSlashes rest := by
  induction part with
  | nil => simp [splitSlashes]
  | cons c part ih =>
    obtain ⟨hc, hpart⟩ : slash ≠ c ∧ slash ∉ part := by simpa using h
    rw [List.cons_append, splitSlashes, if_neg hc.symm, ih hpart]
    rfl

theorem splitSlashes_name {part : Text} (h : slash ∉ part) : splitSlashes part = [part] := by
  induction part with
  | nil => rfl
  | cons c part ih =>
    obtain ⟨hc, hpart⟩ : slash ≠ c ∧ slash ∉ part := by simpa using h
    rw [splitSlashes, if_neg hc.symm, ih hpart]
    rfl

theorem splitSlashes_join {parts : List Text} (hne : parts ≠ []) (h : ∀ part ∈ parts, slash ∉ part) :
    splitSlashes (Text.join [slash] parts) = parts := by
  induction parts with
  | nil => exact absurd rfl hne
  | cons part rest ih =>
    have hpart := h part (.head _)
    cases rest with
    | nil => exact splitSlashes_name hpart
    | cons next rest =>
      rw [Text.join, List.append_assoc, List.singleton_append, splitSlashes_append hpart,
        ih (by simp) fun x hx => h x (.tail _ hx)]
      simp

theorem slash_notMem_splitSlashes (t : Text) : ∀ part ∈ splitSlashes t, slash ∉ part := by
  induction t with
  | nil => simp [splitSlashes]
  | cons c t ih =>
    unfold splitSlashes
    split
    · exact List.forall_mem_cons.mpr ⟨by simp, ih⟩
    · rename_i hc
      cases hs : splitSlashes t with
      | nil => simp [Text.consPart, Ne.symm hc]
      | cons part rest =>
        rw [hs] at ih
        obtain ⟨hpart, hrest⟩ := List.forall_mem_cons.mp ih
        exact List.forall_mem_cons.mpr ⟨by simp [hpart, Ne.symm hc], hrest⟩

theorem join_ne_nil {part : Text} (hne : part ≠ []) (rest : List Text) :
    Text.join [slash] (part :: rest) ≠ [] := by
  cases rest with
  | nil => exact hne
  | cons next rest => simp [Text.join]

theorem join_injective {ps qs : List Text} (hp : ∀ part ∈ ps, part ≠ [] ∧ slash ∉ part)
    (hq : ∀ part ∈ qs, part ≠ [] ∧ slash ∉ part)
    (h : Text.join [slash] ps = Text.join [slash] qs) : ps = qs := by
  cases ps with
  | nil =>
    cases qs with
    | nil => rfl
    | cons q qs => exact absurd h.symm (join_ne_nil (hq q (.head _)).1 qs)
  | cons p ps =>
    cases qs with
    | nil => exact absurd h (join_ne_nil (hp p (.head _)).1 ps)
    | cons q qs =>
      have hsplit := splitSlashes_join (List.cons_ne_nil p ps) fun x hx => (hp x hx).2
      rw [← hsplit, h]
      exact splitSlashes_join (by simp) fun x hx => (hq x hx).2

/-! ## Proper paths -/

theorem proper_ofText (t : Text) : (ofText t).Proper := by
  intro part hpart
  obtain ⟨hmem, hname⟩ := List.mem_filter.mp hpart
  have hne : part ≠ [] := by
    rintro rfl
    cases hname
  exact ⟨hne, slash_notMem_splitSlashes t part hmem⟩

variable {p q : Path}

theorem Proper.parent (hp : p.Proper) : p.parent.Proper :=
  fun part hpart => hp part ((List.dropLast_sublist _).mem hpart)

theorem Proper.append (hp : p.Proper) (hq : q.Proper) : (p.append q).Proper := by
  unfold Path.append
  split
  · exact hq
  · exact fun part hpart => (List.mem_append.mp hpart).elim (hp part) (hq part)

theorem mem_foldl_descend {names parts : List Text} {part : Text}
    (h : part ∈ names.foldl descend parts) : part ∈ parts ∨ part ∈ names := by
  induction names generalizing parts with
  | nil => exact .inl h
  | cons name rest ih =>
    rcases ih h with h | h
    · unfold descend at h
      split at h
      · exact .inl ((List.dropLast_sublist _).mem h)
      · rcases List.mem_append.mp h with h | h
        · exact .inl h
        · exact .inr (List.mem_singleton.mp h ▸ .head _)
    · exact .inr (.tail _ h)

theorem Proper.resolve (hp : p.Proper) (hq : q.Proper) : (Path.resolve p q).Proper := by
  intro part hpart
  rcases mem_foldl_descend hpart with h | h
  · cases h
  · exact hp.append hq part h

/-- Absolute proper paths with the same text are the same. -/
theorem Proper.text_injective (hp : p.Proper) (hq : q.Proper) (hproot : p.root = [slash])
    (hqroot : q.root = [slash]) (h : p.text = q.text) : p = q := by
  obtain ⟨_, ps⟩ := p
  obtain ⟨_, qs⟩ := q
  dsimp only at hproot hqroot
  subst hproot hqroot
  have htext : ∀ parts : List Text, text ⟨[slash], parts⟩ = slash :: Text.join [slash] parts :=
    fun parts => if_neg (by simp)
  rw [htext, htext] at h
  exact congrArg (Path.mk [slash]) (join_injective hp hq (List.cons.inj h).2)

/-! ## Paths as they are read -/

/-- The parts are names, and none of them is a single dot. -/
def Named (parts : List Text) : Prop := ∀ part ∈ parts, part ≠ [] ∧ slash ∉ part ∧ part ≠ "."

instance (parts : List Text) : Decidable (Named parts) :=
  inferInstanceAs (Decidable (∀ part ∈ parts, part ≠ [] ∧ slash ∉ part ∧ part ≠ "."))

/-- The path is what its text is read as. -/
structure Normal (p : Path) : Prop where
  parts : Named p.parts
  root : p.root = [] ∨ p.root = [slash] ∨ p.root = [slash, slash]

theorem rootOf_cases (t : Text) :
    rootOf t = [] ∨ rootOf t = [slash] ∨ rootOf t = [slash, slash] := by
  unfold rootOf
  split
  · exact .inl rfl
  · exact .inr (.inr rfl)
  · exact .inr (.inl rfl)

theorem normal_ofText (t : Text) : (ofText t).Normal := by
  refine ⟨fun part hpart => ?_, rootOf_cases t⟩
  obtain ⟨hne, hslash⟩ := proper_ofText t part hpart
  refine ⟨hne, hslash, ?_⟩
  rintro rfl
  exact absurd (List.mem_filter.mp hpart).2 (by decide)

theorem mem_parts_append {part : Text} (h : part ∈ (p.append q).parts) :
    part ∈ p.parts ∨ part ∈ q.parts := by
  unfold Path.append at h
  split at h
  · exact .inr h
  · exact List.mem_append.mp h

theorem Normal.resolve (hp : p.Normal) {names : Path} (hq : Named names.parts) :
    (Path.resolve p names).Normal := by
  refine ⟨fun part hpart => ?_, .inr (.inl rfl)⟩
  rcases mem_foldl_descend hpart with h | h
  · cases h
  · exact (mem_parts_append h).elim (hp.parts part) (hq part)

/-- The names are what is left of their text between slashes. -/
theorem filter_splitSlashes_join {parts : List Text} (h : Named parts) :
    (splitSlashes (Text.join [slash] parts)).filter (fun part => part != [] && part != ".") =
      parts := by
  cases parts with
  | nil => rfl
  | cons part rest =>
    rw [splitSlashes_join (List.cons_ne_nil part rest) fun x hx => (h x hx).2.1,
      List.filter_eq_self]
    intro x hx
    obtain ⟨hne, -, hdot⟩ := h x hx
    rw [bne_iff_ne.mpr hne, bne_iff_ne.mpr hdot]
    rfl

theorem takeWhile_slash_join {parts : List Text} (h : Named parts) :
    (Text.join [slash] parts).takeWhile (· == slash) = [] := by
  cases parts with
  | nil => rfl
  | cons part rest =>
    obtain ⟨hne, hslash, -⟩ := h part (.head _)
    cases part with
    | nil => exact absurd rfl hne
    | cons c part =>
      have hc : ¬ (c == slash) = true := fun hc => hslash (beq_iff_eq.mp hc ▸ .head _)
      cases rest <;> exact List.takeWhile_cons_of_neg hc

theorem takeWhile_slash_cons (t : Text) :
    (slash :: t).takeWhile (· == slash) = slash :: t.takeWhile (· == slash) :=
  List.takeWhile_cons_of_pos (beq_self_eq_true slash)

theorem ofText_text (hp : p.Normal) : ofText p.text = p := by
  obtain ⟨root, parts⟩ := p
  obtain ⟨hparts, hroot⟩ := hp
  dsimp only at hparts hroot
  have hsplit := filter_splitSlashes_join hparts
  have hslashes := takeWhile_slash_join hparts
  unfold text
  split
  · rename_i hempty
    obtain ⟨rfl, rfl⟩ := hempty
    rfl
  · dsimp only
    unfold ofText rootOf
    rcases hroot with rfl | rfl | rfl
    · rw [List.nil_append, hsplit, hslashes]
      rfl
    · rw [List.singleton_append, takeWhile_slash_cons, hslashes, splitSlashes, if_pos rfl]
      exact congrArg (Path.mk [slash]) hsplit
    · rw [List.cons_append, List.singleton_append, takeWhile_slash_cons, takeWhile_slash_cons,
        hslashes, splitSlashes, if_pos rfl, splitSlashes, if_pos rfl]
      exact congrArg (Path.mk [slash, slash]) hsplit

end Path

namespace Disk

/-- The path is one that imports lead to. -/
def LeadsTo (d : Disk) (p : Path) : Prop :=
  ∃ relative importer, d.resolveImport relative importer = .ok p

variable {d : Disk} {relative importer : Text} {p : Path}

/-- An import is looked for from the working directory or from beside the importer. -/
theorem resolveImport_eq_ok (h : d.resolveImport relative importer = .ok p) :
    ∃ base, (base = d.directory ∨ base = (Path.ofText importer).parent) ∧
      p = d.directory.resolve (base.append (Path.ofText relative)) := by
  unfold resolveImport at h
  have htarget : ∀ base : Path, (do
        checkWay ⟨(base.append (Path.ofText relative)).root.take 1, []⟩
          (base.append (Path.ofText relative)).parts
        return d.directory.resolve (base.append (Path.ofText relative)) : Except Fault Path) =
        .ok p → p = d.directory.resolve (base.append (Path.ofText relative)) := by
    intro base hr
    cases hc : checkWay ⟨(base.append (Path.ofText relative)).root.take 1, []⟩
        (base.append (Path.ofText relative)).parts with
    | error e =>
      rw [hc] at hr
      cases hr
    | ok u =>
      rw [hc] at hr
      cases hr
      rfl
  cases importer with
  | nil => exact ⟨_, .inr rfl, htarget _ h⟩
  | cons c rest =>
    dsimp only at h
    by_cases hc : c = '<'
    · rw [if_pos hc] at h
      exact ⟨_, .inl rfl, htarget _ h⟩
    · rw [if_neg hc] at h
      exact ⟨_, .inr rfl, htarget _ h⟩

/-- An import leads to an absolute path of names, if the working directory is one. -/
theorem resolveImport_proper (hd : d.directory.Proper)
    (h : d.resolveImport relative importer = .ok p) : p.Proper ∧ p.root = [Path.slash] := by
  obtain ⟨base, hbase, rfl⟩ := resolveImport_eq_ok h
  have hproper : base.Proper := by
    rcases hbase with rfl | rfl
    · exact hd
    · exact (Path.proper_ofText _).parent
  exact ⟨hd.resolve (hproper.append (Path.proper_ofText relative)), rfl⟩

/-- Imports lead to paths as they are read, if the working directory is one. -/
theorem LeadsTo.normal (hd : d.directory.Normal) (h : d.LeadsTo p) : p.Normal := by
  obtain ⟨relative, importer, h⟩ := h
  obtain ⟨base, hbase, rfl⟩ := resolveImport_eq_ok h
  refine hd.resolve fun part hpart => ?_
  rcases Path.mem_parts_append hpart with hpart | hpart
  · rcases hbase with rfl | rfl
    · exact hd.parts part hpart
    · exact (Path.normal_ofText importer).parts part ((List.dropLast_sublist _).mem hpart)
  · exact (Path.normal_ofText relative).parts part hpart

/-- Different files that imports lead to have different texts. -/
theorem resolveImport_injective {relative' importer' : Text} {q : Path} (hd : d.directory.Proper)
    (hp : d.resolveImport relative importer = .ok p)
    (hq : d.resolveImport relative' importer' = .ok q) (h : p.text = q.text) : p = q := by
  obtain ⟨hp, hproot⟩ := resolveImport_proper hd hp
  obtain ⟨hq, hqroot⟩ := resolveImport_proper hd hq
  exact hp.text_injective hq hproot hqroot h

end Disk

end ModuleScript
