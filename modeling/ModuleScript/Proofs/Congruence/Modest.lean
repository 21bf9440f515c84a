import ModuleScript.Proofs.Congruence.Bare
import ModuleScript.Proofs.Modules.Table
import ModuleScript.Session

/-!
# Modest computations

What evaluation does itself, without handing a task to a step or loading a file, may consume input.
It leaves alone which files have been loaded and which are being loaded, and gives its reports no place.
-/

set_option autoImplicit false

namespace ModuleScript

/-- The part behind the first line is an end of the text. -/
theorem Text.splitLine_suffix (t : Text) : (Text.splitLine t).2 <:+ t := by
  unfold Text.splitLine
  dsimp only
  split
  · exact List.nil_suffix
  · rename_i newline rest hdrop
    have hrest : rest <:+ newline :: rest := List.suffix_cons newline rest
    rw [← hdrop] at hrest
    exact hrest.trans (List.drop_suffix _ t)

/-- At most input has been consumed since; the same files are loaded and being loaded. -/
structure Machine.Modest (m m' : Machine) : Prop where
  input : m'.input <:+ m.input
  loading : m'.loading = m.loading
  loaded : m'.loaded = m.loaded

namespace Machine.Modest

variable {m m' m'' : Machine}

theorem refl (m : Machine) : m.Modest m := ⟨List.suffix_rfl, rfl, rfl⟩

theorem trans (h : m.Modest m') (h' : m'.Modest m'') : m.Modest m'' :=
  ⟨h'.input.trans h.input, h'.loading.trans h.loading, h'.loaded.trans h.loaded⟩

/-- Frames, records, exports and output do not matter. -/
theorem of_eq (hi : m'.input = m.input) (hg : m'.loading = m.loading)
    (hd : m'.loaded = m.loaded) : m.Modest m' :=
  ⟨hi ▸ List.suffix_rfl, hg, hd⟩

theorem setExport (i : ExportsId) (n : Ident) (v : Value) : m.Modest (m.setExport i n v) :=
  of_eq rfl rfl rfl

theorem eraseExport (i : ExportsId) (n : Ident) : m.Modest (m.eraseExport i n) :=
  of_eq rfl rfl rfl

theorem defineMember (i : RecordId) (n : Ident) (s : Slot) (v : Visibility) :
    m.Modest (m.defineMember i n s v) :=
  of_eq rfl rfl rfl

theorem setSlot (i : FrameId) (n : Ident) (s : Slot) : m.Modest (m.setSlot i n s) :=
  of_eq rfl rfl rfl

theorem eraseSlot (i : FrameId) (n : Ident) : m.Modest (m.eraseSlot i n) :=
  of_eq rfl rfl rfl

end Machine.Modest

namespace Eval

variable {α β : Type}

structure Modest (x : Eval α) : Prop where
  ends : ∀ m : Machine, m.Modest (endOf (x m))
  bare : Bare x

/-! ## Rules -/

theorem Reads.modest_end {x : Eval α} (hx : Reads x) (m : Machine) : m.Modest (endOf (x m)) := by
  rcases hx m with ⟨a, ha⟩ | ⟨e, he⟩
  · rw [ha]
    exact .refl m
  · rw [he]
    exact .refl m

theorem modest_of_quiet {x : Eval α} (hx : Quiet x) : Modest x := ⟨hx.reads.modest_end, hx.bare⟩

theorem modest_pure (a : α) : Modest (pure a) := modest_of_quiet (quiet_pure a)

theorem modest_because (c : Cause) : Modest (because c : Eval α) :=
  modest_of_quiet (quiet_because c)

theorem modest_lift {r : Except Failure α} (hr : Failure.Bare r) : Modest (lift r) :=
  modest_of_quiet (quiet_lift hr)

theorem modest_get {f : Machine → Eval α} (hf : ∀ m, Modest (f m)) : Modest (get >>= f) :=
  ⟨fun m => (hf m).ends m, bare_get fun m => (hf m).bare⟩

theorem modest_modify {f : Machine → Machine} (hf : ∀ m : Machine, m.Modest (f m)) : Modest (modify f) :=
  ⟨hf, bare_modify f⟩

theorem modest_change {f : Machine → Except Failure Machine}
    (hf : ∀ (m k : Machine), f m = .ok k → m.Modest k) (hb : ∀ m, Failure.Bare (f m)) :
    Modest (change f) := by
  refine ⟨fun m => ?_, bare_change hb⟩
  cases hk : f m with
  | ok k =>
    rw [change_of_ok hk]
    exact hf m k hk
  | error e =>
    rw [change_of_error hk]
    exact .refl m

theorem Modest.bind {x : Eval α} {f : α → Eval β} (hx : Modest x) (hf : ∀ a, Modest (f a)) :
    Modest (x >>= f) := by
  refine ⟨fun m => ?_, hx.bare.bind fun a => (hf a).bare⟩
  have hxm := hx.ends m
  cases he : x m with
  | ok a k =>
    rw [he] at hxm
    rw [bind_of_ok he]
    exact hxm.trans ((hf a).ends k)
  | error e k =>
    rw [he] at hxm
    rw [bind_of_error he]
    exact hxm

/-- To place a report changes nothing on the machine. -/
theorem endOf_located (h : Host) (l : Location) (x : Eval α) (m : Machine) :
    endOf (located h l x m) = endOf (x m) := by
  cases he : located h l x m with
  | ok a k => rw [located_eq_ok he]
  | error e k =>
    obtain ⟨e', he'⟩ := located_eq_error he
    rw [he']
    rfl

theorem endOf_mending (x : Eval α) (mend : Machine → Machine) (m : Machine) :
    endOf (mending x mend m) = endOf (x m) ∨ endOf (mending x mend m) = mend (endOf (x m)) := by
  unfold mending
  cases x m with
  | ok a k => exact .inl rfl
  | error e k => exact .inr rfl

/-! ## Actions -/

theorem modest_enter (c : Context) (f : Frame) : Modest (c.enter f) :=
  ⟨fun _ => .of_eq rfl rfl rfl, rfl⟩

theorem modest_define (c : Context) (name : Ident) (v : Value) (isPublic : Bool) :
    Modest (define c name v isPublic) := by
  refine modest_modify fun m => ?_
  split
  · exact .defineMember _ _ _ _
  · dsimp only
    split
    · exact (Machine.Modest.setSlot _ _ _).trans (.setExport _ _ _)
    · exact .setSlot _ _ _

theorem modest_newClosure (name : Option Ident) (vs : List Variant) :
    Modest (newClosure name vs) :=
  ⟨fun _ => .of_eq rfl rfl rfl, rfl⟩

theorem modest_replace (c : Context) (r : Resolution) (name : Ident) (v : Value) :
    Modest (replace c r name v) := by
  refine modest_modify fun m => ?_
  split
  · exact .defineMember _ _ _ _
  · dsimp only
    split
    · exact (Machine.Modest.setSlot _ _ _).trans (.setExport _ _ _)
    · exact .setSlot _ _ _

theorem modest_vary (c : Context) (name : Ident) (variant : Variant) :
    Modest (vary c name variant) := by
  refine (modest_of_quiet (quiet_resolve c name)).bind fun ⟨r, existing⟩ => ?_
  cases existing with
  | closure f =>
    dsimp only
    split
    · exact modest_because _
    · refine (modest_newClosure _ _).bind fun updated => ?_
      exact (modest_replace c r name updated).bind fun _ => modest_pure updated
  | _ => exact modest_because _

theorem modest_register (c : Context) (name : Ident) : Modest (register c name) := by
  constructor
  · intro m
    unfold register
    dsimp only
    split
    · rename_i hd
      unfold Machine.declareModule at hd
      split at hd
      · cases hd
      · cases hd
        exact .of_eq rfl rfl rfl
    · exact .refl m
  · refine bare_of_errors fun m e k he => ?_
    unfold register at he
    dsimp only at he
    split at he
    · cases he
    · rename_i hd
      cases he
      exact (m.bare_declareModule _ _).unplaced_eq hd

theorem modest_openModule (c : Context) (isPublic : Bool) (name : Ident) :
    Modest (openModule c isPublic name) := by
  refine (modest_register c name).bind fun r => modest_get fun m => ?_
  refine (modest_define c name _ _).bind fun _ => ?_
  exact (modest_enter c _).bind fun _ => modest_pure _

theorem modest_declareMembers (id : RecordId) (body : List Stmt) :
    Modest (declareMembers id body) := by
  unfold declareMembers
  induction body.filterMap declared? with
  | nil => exact modest_pure _
  | cons p rest ih =>
    refine Modest.bind (modest_change (fun m k hk => ?_) fun m => ?_) fun _ => ih
    · obtain ⟨r, -, rfl⟩ := declare_eq_ok hk
      exact .of_eq rfl rfl rfl
    · exact (Record.bare_declare _ p.1 p.2).map _

theorem modest_restore (c : Context) (name : Ident) (old : Previous) (m : Machine) :
    m.Modest (restore c name old m) := by
  unfold restore
  split
  · exact .defineMember _ _ _ _
  · obtain ⟨slot, exported⟩ := old
    cases slot with
    | none =>
      dsimp only
      split
      · split
        · exact (Machine.Modest.eraseSlot _ _).trans (.eraseExport _ _)
        · exact (Machine.Modest.eraseSlot _ _).trans (.setExport _ _ _)
      · exact .eraseSlot _ _
    | some slot =>
      dsimp only
      split
      · split
        · exact (Machine.Modest.setSlot _ _ _).trans (.eraseExport _ _)
        · exact (Machine.Modest.setSlot _ _ _).trans (.setExport _ _ _)
      · exact .setSlot _ _ _

theorem modest_newSite (source : Text) (globals : FrameId) : Modest (newSite source globals) :=
  ⟨fun _ => .of_eq rfl rfl rfl, rfl⟩

theorem modest_openFile (path : Path) : Modest (openFile path) :=
  Modest.bind ⟨fun _ => .of_eq rfl rfl rfl, rfl⟩ fun globals => modest_newSite path.text globals

theorem modest_bindImports (c : Context) (path : Text) (exports : Exports) (names : List Ident) :
    Modest (bindImports c path exports names) := by
  induction names with
  | nil => exact modest_pure _
  | cons name rest ih =>
    unfold bindImports
    split
    · exact modest_because _
    · exact (modest_define c name _ false).bind fun _ => ih

theorem modest_write (t : Text) : Modest (write t) := modest_modify fun _ => .of_eq rfl rfl rfl

theorem modest_readLine : Modest readLine :=
  ⟨fun m => ⟨Text.splitLine_suffix m.input, rfl, rfl⟩, rfl⟩

end Eval

end ModuleScript
