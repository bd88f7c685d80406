import Dupa.Traversal

/-!
# Visiting with handles

Every item to do is held together with the handle of the directory it is in. A
visit makes the item's call with that handle and passes a handle on to the items
inside. However the visits are ordered, the processor is told of the same tree.
-/

namespace Dupa

abbrev Ticket (H : Type) := Work × Option H

/-- `processor.RootDir(dir)` without a parent, `processor.Dir` with one. -/
def openDir {m : Type → Type} {H : Type} (P : ScanProcessor m H) (dir : Path) : Option H → m H
  | some parent => P.dir dir.filename parent
  | none => P.rootDir dir

def openCall {H : Type} (dir : Path) : Option H → Call
  | some _ => .dir dir
  | none => .rootDir dir

def openWork {H : Type} (dir : Path) : Option H → Work
  | some _ => .dir dir
  | none => .root dir

section
variable {σ H : Type} [Inhabited H] {files : FileSystem} {P : ScanProcessor (StateM σ) H}
  {root : Path} {first : σ} {ticket : Ticket H} {tickets : Multiset (Ticket H)}
  {calls made : List Call} {handle : Option H} {s s' : σ}

/-- A visit in the processor's state `s` makes the calls `made`, leaves the state
`s'` and passes on `handle`. -/
inductive Visit (files : FileSystem) (P : ScanProcessor (StateM σ) H) :
    Ticket H → σ → List Call → Option H → σ → Prop where
  | quiet (work : Work) (handle : Option H) (s : σ) (silent : work.emits files = []) :
      Visit files P (work, handle) s [] handle s
  | opened (dir : Path) (parent : Option H) (s : σ) (listed : (files.list dir).isSome) :
      Visit files P (openWork dir parent, parent) s [openCall dir parent]
        (some ((openDir P dir parent).run s).1) ((openDir P dir parent).run s).2
  | file (path : Path) (parent : H) (info : FileInfo) (s : σ) (known : files.hash path = some info)
      (kept : info.sum ≠ 0) :
      Visit files P (.file path, some parent) s [.file path info] (some parent)
        ((P.file path.filename parent info).run s).2

omit [Inhabited H] in
theorem Visit.made_eq (h : Visit files P ticket s made handle s') :
    made = ticket.1.emits files := by
  cases h with
  | quiet work handle s silent => exact silent.symm
  | opened dir parent s listed => cases parent <;> simp [openWork, openCall, Work.emits, listed]
  | file path parent info s known kept => simp [Work.emits, known, kept]

/-- The handle, if there is one, was returned for the directory the item is in. -/
def Held (calls : List Call) (handles : Path → H) (ticket : Ticket H) : Prop :=
  ∀ handle, ticket.2 = some handle → ticket.1.path ≠ [] ∧
    Call.Opened calls ticket.1.path.parentPath ∧ handles ticket.1.path.parentPath = handle

def issued (P : ScanProcessor (StateM σ) H) (first : σ) (calls : List Call) : (Path → H) × σ :=
  (Call.issueAll P (fun _ => default) calls).run first

/-- The processor has been told by `calls` of everything that is not to do. -/
structure Told (files : FileSystem) (P : ScanProcessor (StateM σ) H) (root : Path) (first : σ)
    (tickets : Multiset (Ticket H)) (calls : List Call) (s : σ) : Prop where
  accounts : (traversal files).Accounts (.root root) (tickets.map Prod.fst) calls
  state : (issued P first calls).2 = s
  rooted : Justified Call.Rooted calls
  held : ∀ ticket ∈ tickets, Held calls (issued P first calls).1 ticket

theorem issued_snoc (P : ScanProcessor (StateM σ) H) (first : σ) (calls : List Call)
    (call : Call) :
    issued P first (calls ++ [call]) =
      (Call.issue P (issued P first calls).1 call).run (issued P first calls).2 := by
  rw [issued, Call.issueAll_append]
  simp [issued, Call.issueAll]
  rfl

theorem told_start : Told files P root first {(.root root, none)} [] first where
  accounts := Worklist.Accounts.start_only (traversal files) (.root root)
  state := rfl
  rooted := Justified.nil
  held := by
    intro ticket h handle some
    rw [Multiset.mem_singleton.mp h] at some
    cases some

/-- No item to do is inside another one. -/
theorem apart {work work' : Work} {todo : Multiset Work}
    (h : (traversal files).Accounts (.root root) (work ::ₘ todo) calls) (hw : work' ∈ todo) :
    ¬work.path <+: work'.path := by
  intro below
  obtain ⟨todo, rfl⟩ := Multiset.exists_cons_of_mem hw
  have bound := h.bounded (.dir work'.path) _ (Work.weight_falls _)
  have outer : Work.weight (.dir work'.path) work = 1 := if_pos below
  have inner : Work.weight (.dir work'.path) work' = 1 := if_pos (List.prefix_refl _)
  have top : Work.weight (.dir work'.path) (.root root) ≤ 1 := by
    rw [Work.weight]
    split <;> omega
  simp only [Multiset.map_cons, Multiset.sum_cons, outer, inner] at bound
  omega

omit [Inhabited H] in
/-- A call leaves what an item holds alone unless it opens the item's directory. -/
theorem Held.other {handles handles' : Path → H} (h : Held calls handles ticket)
    (more : List Call)
    (same : ticket.2.isSome → handles' ticket.1.path.parentPath = handles ticket.1.path.parentPath) :
    Held (calls ++ more) handles' ticket := by
  intro handle some
  obtain ⟨ne, opened, value⟩ := h handle some
  exact ⟨ne, opened.append more, (same (by simp [some])).trans value⟩

theorem Work.mem_children_silent {work child : Work} (silent : work.emits files = [])
    (h : child ∈ work.children files) : child.path = work.path := by
  cases work with
  | root path | dir path =>
    have unlisted : files.list path = none := by
      cases hl : files.list path with
      | none => rfl
      | some names => simp [emits, hl] at silent
    simp [children, listing, unlisted] at h
  | entry path =>
    rw [children] at h
    split at h
    · rw [List.mem_singleton.mp h]; rfl
    · rw [List.mem_singleton.mp h]; rfl
    · simp at h
  | file path => simp [children] at h

omit [Inhabited H] in
theorem mem_children_openWork {dir : Path} {child : Work}
    (h : child ∈ (openWork dir handle).children files) : ∃ name, child = .entry (dir ++ [name]) := by
  have member : child ∈ Work.listing files dir := by cases handle <;> exact h
  obtain ⟨names, -, name, -, rfl⟩ := Work.mem_listing.mp member
  exact ⟨name, rfl⟩

theorem Told.visit (told : Told files P root first (ticket ::ₘ tickets) calls s)
    (h : Visit files P ticket s made handle s') :
    Told files P root first
      (((ticket.1.children files).map fun child => (child, handle) : List (Ticket H)) + tickets)
      (calls ++ made) s' := by
  have before := told.accounts
  rw [Multiset.map_cons] at before
  have here := told.held ticket (Multiset.mem_cons_self ticket tickets)
  have others := fun t ht => told.held t (Multiset.mem_cons_of_mem (b := ticket) ht)
  have away : ∀ t ∈ tickets, ¬ticket.1.path <+: t.1.path := fun t ht =>
    apart before (Multiset.mem_map_of_mem Prod.fst ht)
  have accounts : (traversal files).Accounts (.root root)
      ((((ticket.1.children files).map fun child => (child, handle) : List (Ticket H)) +
        tickets).map Prod.fst) (calls ++ made) := by
    have fst : ((ticket.1.children files).map fun child => (child, handle)).map Prod.fst =
        ticket.1.children files := by simp [Function.comp_def]
    rw [h.made_eq, Multiset.map_add, Multiset.map_coe, fst]
    exact before.visit
  cases h with
  | quiet work handle s silent =>
    rw [List.append_nil] at accounts ⊢
    refine ⟨accounts, told.state, told.rooted, fun t ht => ?_⟩
    rcases Multiset.mem_add.mp ht with ht | ht
    · obtain ⟨child, hc, rfl⟩ := List.mem_map.mp (Multiset.mem_coe.mp ht)
      intro passed some
      rw [Work.mem_children_silent silent hc]
      exact here passed some
    · exact others t ht
  | opened dir parent s listed =>
    have after : issued P first (calls ++ [openCall dir parent]) =
        (Function.update (issued P first calls).1 dir ((openDir P dir parent).run s).1,
          ((openDir P dir parent).run s).2) := by
      rw [issued_snoc, told.state]
      cases parent with
      | none => rfl
      | some parent =>
        obtain ⟨ne, opened, value⟩ := here parent rfl
        rw [← value]
        rfl
    have new : Call.Opened (calls ++ [openCall dir parent]) dir := by
      cases parent <;> simp [Call.Opened, openCall]
    refine ⟨accounts, by rw [after], told.rooted.snoc ?_, fun t ht => ?_⟩
    · cases parent with
      | none => trivial
      | some parent =>
        obtain ⟨ne, opened, value⟩ := here parent rfl
        exact ⟨ne, opened⟩
    · rw [after]
      rcases Multiset.mem_add.mp ht with ht | ht
      · obtain ⟨child, hc, rfl⟩ := List.mem_map.mp (Multiset.mem_coe.mp ht)
        obtain ⟨name, rfl⟩ := mem_children_openWork hc
        intro passed some
        obtain rfl := Option.some.inj some
        simpa [Work.path] using new
      · refine (others t ht).other _ fun _ => Function.update_of_ne ?_ _ _
        intro same
        apply away t ht
        have path : (openWork dir parent).path = dir := by cases parent <;> rfl
        rw [path, ← same]
        exact List.dropLast_prefix _
  | file path parent info s known kept =>
    obtain ⟨ne, opened, value⟩ := here parent rfl
    have after : issued P first (calls ++ [.file path info]) =
        ((issued P first calls).1, ((P.file path.filename parent info).run s).2) := by
      rw [issued_snoc, told.state, ← value]
      rfl
    refine ⟨accounts, by rw [after], told.rooted.snoc ⟨ne, opened⟩, fun t ht => ?_⟩
    rw [after]
    rcases Multiset.mem_add.mp ht with ht | ht
    · simp [Work.children] at ht
    · exact (others t ht).other _ fun _ => rfl

/-! ## When nothing is left to do -/

/-- `calls` tell of the directory `root` of the file system: each directory and
each file in it once, and after the directory that it is in. -/
structure Scanned (files : FileSystem) (root : Path) (calls : List Call) : Prop where
  nodup : calls.Nodup
  roots : ∀ p, .rootDir p ∈ calls ↔ p = root ∧ (files.list root).isSome
  dirs : ∀ p, .dir p ∈ calls ↔ p ≠ root ∧ files.Listed root p
  reports : ∀ p info, .file p info ∈ calls ↔
    files.Regular root p ∧ files.hash p = some info ∧ info.sum ≠ 0
  rooted : Justified Call.Rooted calls

theorem Told.scanned (told : Told files P root first 0 calls s) : Scanned files root calls := by
  have accounts := told.accounts
  rw [Multiset.map_zero] at accounts
  have member : ∀ call, call ∈ calls ↔ ∃ work, Work.Found files root work ∧
      call ∈ work.emits files := by
    intro call
    rw [accounts.mem_iff]
    simp only [Work.reach_iff]
    rfl
  constructor
  · rw [List.nodup_iff_count_le_one]
    intro call
    have bound := accounts.bounded call _ (Work.weight_falls call)
    have top : Work.weight call (.root root) ≤ 1 := by
      rw [Work.weight]
      split <;> omega
    simp only [Multiset.map_zero, Multiset.sum_zero, add_zero] at bound
    exact bound.trans top
  · intro p
    simp only [member, Work.rootDir_mem_emits]
    constructor
    · rintro ⟨work, found, rfl, listed⟩
      exact ⟨found, (show p = root from found) ▸ listed⟩
    · rintro ⟨rfl, listed⟩
      exact ⟨.root p, rfl, rfl, listed⟩
  · intro p
    simp only [member, Work.dir_mem_emits, FileSystem.listed_iff]
    constructor
    · rintro ⟨work, found, rfl, listed⟩
      exact ⟨found.1.below_root.2, listed, Or.inr found⟩
    · rintro ⟨ne, listed, found⟩
      exact ⟨.dir p, found.resolve_left ne, rfl, listed⟩
  · intro p info
    simp only [member, Work.file_mem_emits]
    constructor
    · rintro ⟨work, found, rfl, known⟩
      exact ⟨found, known⟩
    · rintro ⟨regular, known⟩
      exact ⟨.file p, regular, rfl, known⟩
  · exact told.rooted

namespace Scanned

variable {files files' : FileSystem} {root : Path} {calls calls' : List Call}

theorem unlisted (h : Scanned files root calls) (none : files.list root = none) : calls = [] := by
  have nowhere : ∀ p, ¬files.Listed root p := by
    intro p listed
    induction listed with
    | root listed => simp [none] at listed
    | child parent listing member kind listed ih => exact ih
  apply List.eq_nil_iff_forall_not_mem.mpr
  intro call hc
  cases call with
  | rootDir p =>
    obtain ⟨rfl, listed⟩ := (h.roots p).mp hc
    simp [none] at listed
  | dir p => exact nowhere p ((h.dirs p).mp hc).2
  | file p info =>
    obtain ⟨⟨⟨dir, names, name, listed, -⟩, -⟩, -⟩ := (h.reports p info).mp hc
    exact nowhere dir listed

theorem mem_of_agree (h : Scanned files root calls) (h' : Scanned files' root calls')
    {seen : Path → Prop} (agree : files.AgreeOn files' seen)
    (up : ∀ path name, seen (path ++ [name]) → seen path) {call : Call} (hp : seen call.path)
    (hc : call ∈ calls) : call ∈ calls' := by
  cases call with
  | rootDir p =>
    obtain ⟨rfl, listed⟩ := (h.roots p).mp hc
    exact (h'.roots p).mpr ⟨rfl, agree.isSome hp listed⟩
  | dir p =>
    obtain ⟨ne, listed⟩ := (h.dirs p).mp hc
    exact (h'.dirs p).mpr ⟨ne, agree.listed up hp listed⟩
  | file p info =>
    obtain ⟨⟨entry, kind⟩, known, kept⟩ := (h.reports p info).mp hc
    obtain ⟨sameKind, sameHash, -⟩ := agree p hp
    exact (h'.reports p info).mpr
      ⟨⟨agree.entry up hp entry, sameKind ▸ kind⟩, sameHash ▸ known, kept⟩

/-- What differs elsewhere makes no difference here. -/
theorem mem_iff_of_agree (h : Scanned files root calls) (h' : Scanned files' root calls')
    {seen : Path → Prop} (agree : files.AgreeOn files' seen)
    (up : ∀ path name, seen (path ++ [name]) → seen path) {call : Call} (hp : seen call.path) :
    call ∈ calls ↔ call ∈ calls' :=
  ⟨h.mem_of_agree h' agree up hp, h'.mem_of_agree h agree.symm up hp⟩

theorem perm (h : Scanned files root calls) (h' : Scanned files' root calls')
    (agree : files.AgreeOn files' fun _ => True) : calls.Perm calls' :=
  (List.perm_ext_iff_of_nodup h.nodup h'.nodup).mpr fun _ =>
    h.mem_iff_of_agree h' agree (fun _ _ _ => trivial) trivial

end Scanned

end

end Dupa
