import ModuleScript.Proofs.Conduct.Runs
import ModuleScript.Proofs.Loading

/-!
# Runs while files are being loaded

Code that runs while files are being loaded evaluates none of these files again. Where it ends the
same files are being loaded, what there was of them among the files loaded is the same, and whatever
had been loaded stays so. So a conduct is kept if the evaluation of all other files keeps it.
-/

set_option autoImplicit false

namespace ModuleScript

open Eval

/-! ## Stages -/

/-- The files being loaded, and what there is of each file among those loaded when the last of them
begins to be. -/
structure Stage where
  loading : List Path
  loaded : Path → Option Exports

abbrev Machine.stage (m : Machine) : Stage := ⟨m.loading, m.loaded?⟩

/-- The machine is at the stage or has got further without leaving it. -/
structure Stage.Fits (s : Stage) (m : Machine) : Prop where
  loading : m.loading = s.loading
  pending : ∀ p ∈ s.loading, m.loaded? p = s.loaded p
  retained : ∀ {p e}, s.loaded p = some e → m.loaded? p = some e

namespace Stage

variable {s : Stage} {m m' k : Machine} {p : Path}

theorem fits_stage (m : Machine) : m.stage.Fits m := ⟨rfl, fun _ _ => rfl, id⟩

theorem Fits.of_eq (hs : s.Fits m) (hloading : m'.loading = m.loading)
    (hloaded : m'.loaded = m.loaded) : s.Fits m' := by
  have hq : ∀ q, m'.loaded? q = m.loaded? q := fun q => by
    unfold Machine.loaded?
    rw [hloaded]
  refine ⟨hloading.trans hs.loading, fun q hq' => (hq q).trans (hs.pending q hq'), fun {q e} he => ?_⟩
  exact (hq q).trans (hs.retained he)

/-- A file that has begun to be loaded at a stage leaves the stage as it was when it ends. -/
theorem Fits.aborted (hs : s.Fits m) (hk : (m.begun p).stage.Fits k) :
    s.Fits { k with loading := m.loading } where
  loading := hs.loading
  pending q hq :=
    (hk.pending q (List.mem_append_left [p] (hs.loading ▸ hq))).trans (hs.pending q hq)
  retained he := hk.retained (hs.retained he)

theorem Fits.finished (hs : s.Fits m) (hn : m.loaded? p = none) (hfresh : p ∉ m.loading)
    (hk : (m.begun p).stage.Fits k) (e : Exports) :
    s.Fits { k with loading := m.loading, loaded := Machine.setLoaded p e k.loaded } := by
  have hended := hs.aborted hk
  have hother : ∀ q, p ≠ q →
      Machine.loaded? { k with loading := m.loading, loaded := Machine.setLoaded p e k.loaded } q =
        k.loaded? q := fun q hq => (k.loaded?_setLoaded p q e).trans (if_neg hq)
  refine ⟨hs.loading, fun q hq => ?_, fun {q d} hd => ?_⟩
  · rw [hother q fun hpq => hfresh (hpq ▸ hs.loading ▸ hq)]
    exact hended.pending q hq
  · rw [hother q fun hpq => ?_]
    · exact hended.retained hd
    · have hd' := hs.retained hd
      rw [← hpq, hn] at hd'
      cases hd'

/-- Once a file has been evaluated that has begun to be loaded it is no longer being loaded; and it has
been loaded if its evaluation has not failed. -/
theorem loadEnd_of_error (hfresh : p ∉ m.loading) (hk : (m.begun p).stage.Fits k) (f : Failure) :
    loadEnd p (.error f k) = .error f { k with loading := m.loading } := by
  unfold loadEnd Machine.abortLoading
  dsimp only
  rw [hk.loading, List.erase_append_right _ hfresh, List.erase_cons_head, List.append_nil]

theorem loadEnd_of_ok (hfresh : p ∉ m.loading) (hk : (m.begun p).stage.Fits k) (e : Exports) :
    loadEnd p (.ok e k) =
      .ok e { k with loading := m.loading, loaded := Machine.setLoaded p e k.loaded } := by
  have hin : p ∈ k.loading := hk.loading ▸ List.mem_append_right _ (.head _)
  have herase : k.loading.erase p = m.loading := by
    rw [hk.loading, List.erase_append_right _ hfresh, List.erase_cons_head, List.append_nil]
  unfold loadEnd
  dsimp only
  rw [bind_of_ok (change_of_ok (Machine.finishLoading_of_mem hin e)), herase]
  rfl

end Stage

namespace Conduct

variable {h : Host} {C : Conduct} {shut : List Path}

/-- The conduct at each stage at which these files are being loaded. -/
def staged (C : Conduct) (shut : List Path) : Conduct where
  World := Stage × C.World
  Later a b := a.1 = b.1 ∧ C.Later a.2 b.2
  later_refl w := ⟨rfl, C.later_refl w.2⟩
  later_trans hab hbc := ⟨hab.1.trans hbc.1, C.later_trans hab.2 hbc.2⟩
  Fits w m := (w.1.Fits m ∧ ∀ p ∈ shut, p ∈ w.1.loading) ∧ C.Fits w.2 m
  Good w := C.Good w.2
  Serves w := C.Serves w.2
  Code w := C.Code w.2
  Here w := C.Here w.2
  Varies := C.Varies
  good_later hl := C.good_later hl.2
  serves_later hl := C.serves_later hl.2
  code_later hl := C.code_later hl.2
  here_later hl := C.here_later hl.2
  code_site := C.code_site
  code_part := C.code_part
  holds hm := C.holds hm.2
  writable hm := C.writable hm.2
  erasable hm := C.erasable hm.2
  change hm hc := ⟨⟨hm.1.1.of_eq hc.loading hc.loaded, hm.1.2⟩, C.change hm.2 hc⟩
  enter {w _ _ _ _} hm hc hs hf := by
    obtain ⟨w', hl, hm', hparts⟩ := C.enter hm.2 hc hs hf
    exact ⟨(w.1, w'), ⟨rfl, hl⟩, ⟨⟨hm.1.1.of_eq rfl rfl, hm.1.2⟩, hm'⟩, hparts⟩
  call {w _ _ _ _ _} hm hf hv hs hg := by
    obtain ⟨w', hl, hm', hbody⟩ := C.call hm.2 hf hv hs hg
    exact ⟨(w.1, w'), ⟨rfl, hl⟩, ⟨⟨hm.1.1.of_eq rfl rfl, hm.1.2⟩, hm'⟩, hbody⟩
  lambda {w _ _ _ _ _ _} hm hc := by
    obtain ⟨w', hl, hm', hg⟩ := C.lambda hm.2 hc
    exact ⟨(w.1, w'), ⟨rfl, hl⟩, ⟨⟨hm.1.1.of_eq rfl rfl, hm.1.2⟩, hm'⟩, hg⟩
  vary {w _ _ _ _ _ _ _ _ _} hv hm hc hr hf hn := by
    obtain ⟨w', hl, hm', hg, hw⟩ := C.vary hv hm.2 hc hr hf hn
    exact ⟨(w.1, w'), ⟨rfl, hl⟩, ⟨⟨hm.1.1.of_eq rfl rfl, hm.1.2⟩, hm'⟩, hg, hw⟩
  register {w m _ _ _ _ _ _ _ _ _} hm hc hr := by
    obtain ⟨w', hl, hm', hi, hp⟩ := C.register hm.2 hc hr
    obtain ⟨-, -, -, rfl⟩ := Machine.register_eq_ok hr
    exact ⟨(w.1, w'), ⟨rfl, hl⟩, ⟨⟨hm.1.1.of_eq rfl rfl, hm.1.2⟩, hm'⟩, hi, hp⟩
  enterModule {w _ _ _ _ _ _ _ _ _} hm hc hi hp hq := by
    rintro ⟨w₀, m₀, hl₀, hm₀, hc₀, hpath⟩
    obtain ⟨w', hl, hm', hbody⟩ :=
      C.enterModule hm.2 hc hi hp hq ⟨w₀.2, m₀, hl₀.2, hm₀.2, hc₀, hpath⟩
    refine ⟨(w.1, w'), ⟨rfl, hl⟩, ⟨⟨hm.1.1.of_eq rfl rfl, hm.1.2⟩, hm'⟩, fun w₁ m hl₁ hm₁ hd => ?_⟩
    obtain ⟨w₂, hl₂, hm₂, hcode⟩ := hbody w₁.2 m hl₁.2 hm₁.2 hd
    exact ⟨(w₁.1, w₂), ⟨rfl, hl₂⟩, ⟨hm₁.1, hm₂⟩, hcode⟩

/-- Files other than these may be loaded. -/
structure FilesBut (C : Conduct) (h : Host) (shut : List Path) : Prop where
  setLoading : ∀ {w m} paths, C.Fits w m → C.Fits w { m with loading := paths }
  setLoaded : ∀ {w m} p {e}, C.Fits w m → (∀ n v, (n, v) ∈ e → C.Valid w v) →
    C.Fits w { m with loaded := Machine.setLoaded p e m.loaded }
  opening : ∀ {relative importer p}, h.disk.resolveImport relative importer = .ok p → p ∉ shut →
    C.Opening h p

theorem opening_staged {p : Path} (hp : C.Opening h p) : (C.staged shut).Opening h p := by
  intro w m t program hm ht hr
  obtain ⟨w', hl, hm', hs, hcode⟩ := hp hm.2 ht hr
  exact ⟨(w.1, w'), ⟨rfl, hl⟩, ⟨⟨hm.1.1.of_eq rfl rfl, hm.1.2⟩, hm'⟩, hs, hcode⟩

section Load

variable {w : (C.staged shut).World} {m : Machine} {p : Path}

/-- On the machine on which a file has begun to be loaded. -/
theorem staged_begun (hC : C.FilesBut h shut) (hm : (C.staged shut).Fits w m) :
    (C.staged shut).Fits ((m.begun p).stage, w.2) (m.begun p) :=
  ⟨⟨Stage.fits_stage _, fun q hq =>
    List.mem_append_left [p] (hm.1.1.loading.symm ▸ hm.1.2 q hq)⟩, hC.setLoading _ hm.2⟩

theorem staged_load_ends (hC : C.FilesBut h shut) {self self' : Step}
    (hf : (C.staged shut).actions.Follows self self') (relative importer : Text)
    (hm : (C.staged shut).Fits w m) :
    (C.staged shut).worlds.Ends w (fun w' => (Likeness.only ((C.staged shut).Good w')).Exported)
      (load h self relative importer m) (load h self' relative importer m) := by
  rcases load_cases h relative importer m with ⟨f, he⟩ | ⟨p, e, hp, he⟩ | ⟨p, hp, hn, hfresh, he⟩
  · rw [he, he]
    exact .error ((C.staged shut).later_refl w) ⟨rfl, hm⟩
  · rw [he, he]
    exact .ok ((C.staged shut).later_refl w) ⟨rfl, hm⟩
      (exported_only ((C.holds hm.2).exporting.loaded? hp))
  · rw [he, he]
    have hshut : p ∉ shut := fun hs => hfresh (hm.1.1.loading.symm ▸ hm.1.2 p hs)
    have hopening : (C.staged shut).Opening h p := opening_staged (hC.opening hp hshut)
    have hfile := Actions.evaluateFile_agrees hopening.evaluates hf (m.begun p) (m.begun p)
      ⟨rfl, staged_begun hC hm⟩
    generalize evaluateFile h self p (m.begun p) = r, evaluateFile h self' p (m.begun p) = r' at hfile
    -- the file has been evaluated at the stage above, which its end leaves
    cases hfile with
    | @ok w' e e' k _ hl hk he =>
      obtain ⟨rfl, ⟨hstage, -⟩, hk⟩ := hk
      obtain ⟨rfl, hvalid⟩ := only_exported he
      rw [← hl.1] at hstage
      have hfits := hC.setLoading m.loading (hC.setLoaded p hk hvalid)
      rw [Stage.loadEnd_of_ok hfresh hstage]
      have hlater : (C.staged shut).Later w (w.1, w'.2) := ⟨rfl, hl.2⟩
      exact .ok hlater ⟨rfl, ⟨hm.1.1.finished hn hfresh hstage e, hm.1.2⟩, hfits⟩ (exported_only hvalid)
    | @error w' f k _ hl hk =>
      obtain ⟨rfl, ⟨hstage, -⟩, hk⟩ := hk
      rw [← hl.1] at hstage
      rw [Stage.loadEnd_of_error hfresh hstage]
      have hlater : (C.staged shut).Later w (w.1, w'.2) := ⟨rfl, hl.2⟩
      exact .error hlater
        ⟨rfl, ⟨hm.1.1.aborted hstage, hm.1.2⟩, hC.setLoading m.loading hk⟩

end Load

theorem staged_imports (hC : C.FilesBut h shut) : (C.staged shut).Imports h := by
  rintro self self' hf w c _ l names path ⟨rfl, -⟩ m _ ⟨rfl, hm⟩
  exact staged_load_ends hC hf path c.site.source hm

end Conduct

end ModuleScript
