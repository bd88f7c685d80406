import Dupa.Classified
import Dupa.Inputs

/-!
# The tree that a scan builds

`TreeCtorProcessor` makes one node for every call. As long as the calls name what they
are about and give every directory before what is inside, it fails no assert, its nodes
form a fresh tree, and `BuildPath` leads back to the paths of the calls (`tree_ok`).
-/

namespace Dupa

open Checked

namespace Heap

/-- A heap on which a tree is being built: nodes are older than their children and
nothing is evaluated. -/
structure Growing (h : Heap) : Prop where
  parent_iff : ∀ p c, c ∈ (h.node p).children ↔ (h.node c).parent = some p
  nodup : ∀ p, (h.node p).children.Nodup
  older : ∀ c p : ℕ, (h.node c).parent = some p → p < c ∧ c < h.numNodes
  inner : ∀ c p, (h.node c).parent = some p → (h.node p).type = .dir
  orphan : ∀ n : ℕ, n < h.numNodes → (h.node n).parent = none → n = 0 ∧ (h.node n).type = .dir
  waits : ∀ n, (h.node n).notEvaluatedChildren = (h.node n).children.length
  unevaluated : ∀ n, (h.node n).eqClass = none
  noClass : ∀ c, h.eqClass c = ⟨[], 0⟩
  evaluated : h.evaluated = []

/-- The heap with a new node, a child of `q`. -/
def grow (h : Heap) (q : NodeId) (type : NodeType) (name : String) (size : Int) : Heap :=
  { h with
    numNodes := h.numNodes + 1
    node := fun m =>
      if m = h.numNodes then ⟨⟨type, name, size, some q, []⟩, none, 0⟩
      else if m = q then
        { h.node q with
          children := (h.node q).children ++ [h.numNodes]
          notEvaluatedChildren := (h.node q).notEvaluatedChildren + 1 }
      else h.node m }

variable {h : Heap} {q n : ℕ} {type : NodeType} {name : String} {size : Int}

theorem Growing.fresh (growing : h.Growing) (some : 0 < h.numNodes) : h.Fresh 0 where
  tree := by
    have top : (h.node 0).parent = none := by
      cases hp : (h.node 0).parent with
      | none => rfl
      | some p => exact absurd (growing.older 0 p hp).1 (Nat.not_lt_zero p)
    have edge : ∀ p c, c ∈ h.layout.children p → p < c ∧ c < h.numNodes := fun p c hc =>
      growing.older c p ((growing.parent_iff p c).mp hc)
    refine ⟨⟨growing.parent_iff, growing.nodup⟩, ⟨some, (growing.orphan 0 some top).2⟩,
      fun n hn => ⟨fun hp => (growing.orphan n hn hp).1, ?_⟩, fun p c hc => ?_, fun p c hc => ?_,
      fun n => h.numNodes - n, fun p c hc => ?_⟩
    · rintro rfl
      exact top
    · obtain ⟨lt, inside⟩ := edge p c hc
      exact ⟨Nat.lt_trans lt inside, inside⟩
    · exact growing.inner c p ((growing.parent_iff p c).mp hc)
    · obtain ⟨lt, inside⟩ := edge p c hc
      exact Nat.sub_lt_sub_left (Nat.lt_trans lt inside) lt
  waits := growing.waits
  unevaluated := growing.unevaluated
  noClass := growing.noClass
  evaluated := growing.evaluated

/-- A heap with a root and nothing else. -/
theorem growing_root (name : String) :
    (TreeCtor.start.heap.newNode .dir name 0).1.Growing := by
  have node : ∀ n, (TreeCtor.start.heap.newNode .dir name 0).1.node n =
      ⟨⟨.dir, if n = 0 then name else "", 0, none, []⟩, none, 0⟩ := by
    intro n
    by_cases hn : n = 0 <;> simp [newNode, setNode, TreeCtor.start, hn]
  constructor
  case orphan =>
    intro n hn _
    exact ⟨Nat.lt_one_iff.mp hn, by rw [node]⟩
  case noClass => exact fun _ => rfl
  case evaluated => rfl
  all_goals simp [node]

section
variable (growing : h.Growing) (hq : q < h.numNodes)

theorem grow_new : (h.grow q type name size).node h.numNodes =
    ⟨⟨type, name, size, some q, []⟩, none, 0⟩ := if_pos rfl

include hq

theorem grow_parent (m : ℕ) : ((h.grow q type name size).node m).parent =
    if m = h.numNodes then some q else (h.node m).parent := by
  by_cases hm : m = h.numNodes
  · subst hm
    simp [grow]
  · by_cases hmq : m = q
    · subst hmq
      simp [grow, hm]
    · simp [grow, hm, hmq]

theorem grow_old {m : ℕ} (hm : m ≠ h.numNodes) :
    ((h.grow q type name size).node m).type = (h.node m).type ∧
      ((h.grow q type name size).node m).name = (h.node m).name ∧
      ((h.grow q type name size).node m).eqClass = (h.node m).eqClass := by
  by_cases hmq : m = q
  · subst hmq
    simp [grow, hm]
  · simp [grow, hm, hmq]

theorem grow_children (childless : (h.node h.numNodes).children = []) (p : ℕ) :
    ((h.grow q type name size).node p).children =
      if p = q then (h.node q).children ++ [h.numNodes] else (h.node p).children := by
  by_cases hp : p = h.numNodes
  · subst hp
    simp [grow, Nat.ne_of_gt hq, childless]
  · by_cases hpq : p = q
    · subst hpq
      simp [grow, hp]
    · simp [grow, hp, hpq]

theorem grow_waits (waits : ∀ n, (h.node n).notEvaluatedChildren = (h.node n).children.length)
    (m : ℕ) : ((h.grow q type name size).node m).notEvaluatedChildren =
      ((h.grow q type name size).node m).children.length := by
  by_cases hm : m = h.numNodes
  · subst hm
    simp [grow]
  · by_cases hmq : m = q
    · subst hmq
      simp [grow, hm, waits]
    · simp [grow, hm, hmq, waits]

omit hq in
theorem Growing.childless (growing : h.Growing) : (h.node h.numNodes).children = [] := by
  apply List.eq_nil_iff_forall_not_mem.mpr
  intro c hc
  have := growing.older c _ ((growing.parent_iff _ c).mp hc)
  omega

include growing

theorem Growing.grow (dir : (h.node q).type = .dir) : (h.grow q type name size).Growing := by
  have unborn : ∀ p, (h.node h.numNodes).parent ≠ some p := fun p hp =>
    Nat.lt_irrefl _ (growing.older _ p hp).2
  have absent : h.numNodes ∉ (h.node q).children := fun hc =>
    unborn q ((growing.parent_iff q _).mp hc)
  constructor
  case parent_iff =>
    intro p c
    rw [grow_children hq growing.childless, grow_parent hq]
    by_cases hp : p = q <;> by_cases hc : c = h.numNodes
    · simp [hp, hc]
    · simp [hp, hc, growing.parent_iff]
    · subst hc
      simp [hp, growing.parent_iff, unborn, Ne.symm hp]
    · simp [hp, hc, growing.parent_iff]
  case nodup =>
    intro p
    rw [grow_children hq growing.childless]
    split
    · apply List.Nodup.append (growing.nodup q) (List.nodup_singleton _)
      simpa using absent
    · exact growing.nodup p
  case older =>
    intro c p hp
    change p < c ∧ c < h.numNodes + 1
    rw [grow_parent hq] at hp
    split at hp
    · cases hp
      omega
    · have := growing.older c p hp
      omega
  case inner =>
    intro c p hp
    rw [grow_parent hq] at hp
    split at hp
    · cases hp
      rw [(grow_old hq (Nat.ne_of_lt hq)).1, dir]
    · have := growing.older c p hp
      rw [(grow_old hq (by omega)).1, growing.inner c p hp]
  case orphan =>
    intro m hm hp
    rw [grow_parent hq] at hp
    split at hp
    · cases hp
    · rename_i old
      rw [(grow_old hq old).1]
      refine growing.orphan m ?_ hp
      have : m < h.numNodes + 1 := hm
      omega
  case waits => exact grow_waits hq growing.waits
  case unevaluated =>
    intro m
    by_cases hm : m = h.numNodes
    · rw [hm, grow_new]
    · rw [(grow_old hq hm).2.2, growing.unevaluated]
  case noClass => exact growing.noClass
  case evaluated => exact growing.evaluated

end

end Heap

/-- A directory that is not evaluated takes a fresh child. -/
theorem TreeCtor.newChild_ok {t : TreeCtor} {q : NodeId} {name : String} (type : NodeType)
    (size : Int) (growing : t.heap.Growing) (hq : q < t.heap.numNodes)
    (dir : (t.heap.node q).type = .dir) (named : name ≠ "") :
    t.newChild q type name size =
      .ok ({ t with heap := t.heap.grow q type name size }, t.heap.numNodes) := by
  have hne : q ≠ t.heap.numNodes := Nat.ne_of_lt hq
  have fresh : (t.heap.newNode type name size).1.node t.heap.numNodes =
      ⟨⟨type, name, size, none, []⟩, none, 0⟩ := Function.update_self ..
  have old : (t.heap.newNode type name size).1.node q = t.heap.node q := Function.update_of_ne hne ..
  have added : (t.heap.newNode type name size).1.addChild q t.heap.numNodes =
      .ok (t.heap.grow q type name size) := by
    unfold Heap.addChild
    rw [ensure_bind (by simp [Heap.IsEvaluated, old, growing.unevaluated]),
      ensure_bind (by rw [fresh]), ensure_bind (by simp [Heap.IsEvaluated, fresh]),
      ensure_bind (by rw [old, dir])]
    apply congrArg Except.ok
    unfold Heap.grow Heap.setNode
    congr 1
    funext m
    by_cases hm : m = t.heap.numNodes
    · subst hm
      simp [fresh, Ne.symm hne]
    · by_cases hmq : m = q
      · subst hmq
        simp [old, hne]
      · simp [Heap.newNode, Heap.setNode, hm, hmq]
  unfold newChild newNode
  rw [ensure_bind named]
  change ((t.heap.newNode type name size).1.addChild q t.heap.numNodes >>= _) = _
  rw [added]
  rfl

/-! ## Nodes and calls -/

namespace Call

/-- The directory in which the call is made. -/
def above : Call → Option Path
  | rootDir _ => none
  | dir path => some path.parentPath
  | file path _ => some path.parentPath

def nodeType : Call → NodeType
  | file _ _ => .file
  | _ => .dir

def nodeName : Call → String
  | rootDir path => path.native
  | dir path => path.filename
  | file path _ => path.filename

def nodeSize : Call → Int
  | file _ info => info.size.toInt
  | _ => 0

/-- The call is about something new inside a directory that is open. -/
structure Follows (before : List Call) (call : Call) : Prop where
  inner : ∀ p, call ≠ rootDir p
  rooted : Rooted before call
  named : call.path.filename ≠ ""
  new : ∀ p, call = dir p → ¬ Opened before p

end Call

theorem getElem?_snoc {α : Type} (l : List α) (x : α) (k : ℕ) :
    (l ++ [x])[k]? = if k = l.length then some x else l[k]? := by
  by_cases hk : k = l.length
  · subst hk
    simp
  · rw [if_neg hk]
    rcases Nat.lt_or_gt_of_ne hk with lt | gt
    · exact List.getElem?_append_left lt
    · rw [List.getElem?_eq_none (by simp; omega), List.getElem?_eq_none (by omega)]

namespace TreeCtor

/-- The nodes are those of the calls, in their order. -/
structure Mirrors (calls : List Call) (handles : Path → NodeId) (t : TreeCtor) : Prop where
  growing : t.heap.Growing
  size : t.heap.numNodes = calls.length
  root : t.root = some 0
  opened : ∀ p, Call.Opened calls p →
    ∃ call, calls[handles p]? = some call ∧ call.path = p ∧ call.nodeType = .dir
  closed : ∀ call ∈ calls, ∀ p ∈ call.above, Call.Opened calls p
  type : ∀ k call, calls[k]? = some call → (t.heap.node k).type = call.nodeType
  name : ∀ k call, calls[k]? = some call → (t.heap.node k).name = call.nodeName
  parent : ∀ k call, calls[k]? = some call → (t.heap.node k).parent = call.above.map handles
  sums : ∀ k sum, (sum, k) ∈ t.sum2Node ↔
    ∃ p info, calls[k]? = some (.file p info) ∧ info.sum = sum
  sums_nodup : (t.sum2Node.map Prod.snd).Nodup

variable {calls before : List Call} {handles : Path → NodeId} {t : TreeCtor} {call : Call}

theorem Mirrors.opened_lt (mirrors : Mirrors calls handles t) {p : Path}
    (opened : Call.Opened calls p) : handles p < calls.length := by
  obtain ⟨call, here, -, -⟩ := mirrors.opened p opened
  exact (List.getElem?_eq_some_iff.mp here).1

theorem Mirrors.opened_dir (mirrors : Mirrors calls handles t) {p : Path}
    (opened : Call.Opened calls p) : (t.heap.node (handles p)).type = .dir := by
  obtain ⟨call, here, -, dir⟩ := mirrors.opened p opened
  rw [mirrors.type _ _ here, dir]

/-- What a new call adds to the checksums. -/
def newSums (n : NodeId) : Call → List (Cksum × NodeId)
  | .file _ info => [(info.sum, n)]
  | _ => []

theorem mem_newSums {n k : NodeId} {sum : Cksum} {call : Call} : (sum, k) ∈ newSums n call ↔
    k = n ∧ ∃ p info, call = .file p info ∧ info.sum = sum := by
  cases call with
  | file path info => simp [newSums, and_comm, eq_comm]
  | rootDir | dir => simp [newSums]

theorem newSums_nodup (n : NodeId) (call : Call) : ((newSums n call).map Prod.snd).Nodup := by
  cases call with
  | file path info => exact List.nodup_singleton _
  | rootDir | dir => exact List.nodup_nil

theorem Mirrors.sums_new (mirrors : Mirrors calls handles t) :
    calls.length ∉ t.sum2Node.map Prod.snd := by
  intro hm
  obtain ⟨⟨sum, k⟩, hs, hk⟩ := List.mem_map.mp hm
  obtain ⟨p, info, here, -⟩ := (mirrors.sums k sum).mp hs
  have := (List.getElem?_eq_some_iff.mp here).1
  simp only at hk
  omega

/-- The node of a new call is a child of the node of its directory. -/
theorem Mirrors.grow (mirrors : Mirrors calls handles t) {handles' : Path → NodeId} {dir : Path}
    (above : call.above = some dir) (opened : Call.Opened calls dir)
    (kept : ∀ p, Call.Opened calls p → handles' p = handles p)
    (new : ∀ p, call = .dir p → handles' p = calls.length) :
    Mirrors (calls ++ [call]) handles'
      { t with
        heap := t.heap.grow (handles dir) call.nodeType call.nodeName call.nodeSize
        sum2Node := t.sum2Node ++ newSums calls.length call } := by
  have hq : handles dir < t.heap.numNodes := mirrors.size ▸ mirrors.opened_lt opened
  have old : ∀ {k call}, calls[k]? = some call → k ≠ t.heap.numNodes := fun here =>
    Nat.ne_of_lt (mirrors.size ▸ (List.getElem?_eq_some_iff.mp here).1)
  have fresh : (t.heap.grow (handles dir) call.nodeType call.nodeName call.nodeSize).node
      t.heap.numNodes =
        ⟨⟨call.nodeType, call.nodeName, call.nodeSize, some (handles dir), []⟩, none, 0⟩ :=
    Heap.grow_new
  have split : ∀ {k : ℕ} {x : Call}, (calls ++ [call])[k]? = some x →
      k = t.heap.numNodes ∧ x = call ∨ calls[k]? = some x := by
    intro k x here
    rw [getElem?_snoc] at here
    split at here
    · exact Or.inl ⟨by rw [mirrors.size]; assumption, (Option.some.inj here).symm⟩
    · exact Or.inr here
  constructor
  case growing => exact mirrors.growing.grow hq (mirrors.opened_dir opened)
  case size =>
    rw [List.length_append, List.length_singleton, ← mirrors.size]
    rfl
  case root => exact mirrors.root
  case opened =>
    intro p hp
    rcases Call.opened_snoc.mp hp with hp | hp
    · obtain ⟨x, here, path, type⟩ := mirrors.opened p hp
      have lt := (List.getElem?_eq_some_iff.mp here).1
      exact ⟨x, by rw [kept p hp, getElem?_snoc, if_neg (Nat.ne_of_lt lt), here], path, type⟩
    · rcases hp with rfl | rfl
      · cases above
      · exact ⟨_, by rw [new p rfl, getElem?_snoc, if_pos rfl], rfl, rfl⟩
  case closed =>
    intro x hx p hp
    rcases List.mem_append.mp hx with hx | hx
    · exact (mirrors.closed x hx p hp).append _
    · obtain rfl := List.mem_singleton.mp hx
      rw [above] at hp
      cases hp
      exact opened.append _
  case type =>
    intro k x here
    rcases split here with ⟨rfl, rfl⟩ | here
    · rw [fresh]
    · rw [(Heap.grow_old hq (old here)).1, mirrors.type k x here]
  case name =>
    intro k x here
    rcases split here with ⟨rfl, rfl⟩ | here
    · rw [fresh]
    · rw [(Heap.grow_old hq (old here)).2.1, mirrors.name k x here]
  case parent =>
    intro k x here
    rcases split here with ⟨rfl, rfl⟩ | here
    · rw [fresh, above, Option.map_some, kept dir opened]
    · rw [Heap.grow_parent hq, if_neg (old here), mirrors.parent k x here]
      cases habove : x.above with
      | none => rfl
      | some p =>
        have := mirrors.closed x (List.mem_of_getElem? here) p habove
        rw [Option.map_some, Option.map_some, kept p this]
  case sums =>
    intro k sum
    rw [List.mem_append, mirrors.sums, mem_newSums, getElem?_snoc]
    by_cases hk : k = calls.length
    · subst hk
      simp
    · simp [hk]
  case sums_nodup =>
    rw [List.map_append]
    apply List.Nodup.append mirrors.sums_nodup (newSums_nodup _ _)
    intro k old new
    obtain ⟨⟨sum, k'⟩, hs, rfl⟩ := List.mem_map.mp new
    exact mirrors.sums_new ((mem_newSums.mp hs).1 ▸ old)

theorem onTree_ok {f : TreeCtor → Except Fault (TreeCtor × NodeId)} {t' : TreeCtor} {n : NodeId}
    (h : f t = .ok (t', n)) : (onTree f).run (.ok t) = (n, .ok t') := by
  change onTree f (.ok t) = _
  simp [onTree, Except.bind, h]

theorem Mirrors.issue (mirrors : Mirrors calls handles t) (follows : call.Follows calls) :
    ∃ handles' t', (Call.issue processor handles call).run (.ok t) = (handles', .ok t') ∧
      Mirrors (calls ++ [call]) handles' t' := by
  obtain ⟨inner, rooted, named, new⟩ := follows
  have child : ∀ {p} type size, Call.Opened calls p → call.path.filename ≠ "" →
      t.newChild (handles p) type call.path.filename size =
        .ok ({ t with heap := t.heap.grow (handles p) type call.path.filename size },
          calls.length) := by
    intro p type size opened named
    rw [newChild_ok type size mirrors.growing (mirrors.size ▸ mirrors.opened_lt opened)
      (mirrors.opened_dir opened) named, mirrors.size]
  cases call with
  | rootDir p => exact absurd rfl (inner p)
  | dir p =>
    obtain ⟨-, opened⟩ := rooted
    have made := child .dir 0 opened named
    refine ⟨Function.update handles p calls.length, _, ?_, mirrors.grow rfl opened ?_ ?_⟩
    · have ran := onTree_ok (f := fun t => t.newChild (handles p.parentPath) .dir p.filename 0) made
      rw [Call.issue, StateT.run_bind]
      change (onTree _).run (.ok t) >>= _ = _
      rw [ran]
      simp only [newSums, List.append_nil]
      rfl
    · intro p' hp'
      apply Function.update_of_ne
      rintro rfl
      exact new p' rfl hp'
    · rintro p' ⟨⟩
      exact Function.update_self ..
  | file p info =>
    obtain ⟨-, opened⟩ := rooted
    have made := child .file info.size.toInt opened named
    refine ⟨handles, _, ?_, mirrors.grow rfl opened (fun _ _ => rfl) (fun p' h => by cases h)⟩
    have file : t.newFile (handles p.parentPath) p.filename info = .ok
        ({ t with
            heap := t.heap.grow (handles p.parentPath) .file p.filename info.size.toInt
            sum2Node := t.sum2Node ++ [(info.sum, calls.length)] }, calls.length) := by
      unfold newFile
      rw [show t.newChild _ _ p.filename _ = _ from made]
      rfl
    have ran := onTree_ok (f := fun t => t.newFile (handles p.parentPath) p.filename info) file
    have told : (processor.file p.filename (handles p.parentPath) info).run (.ok t) = ((), .ok _) :=
      congrArg (fun s : NodeId × Except Fault TreeCtor => ((), s.2)) ran
    rw [Call.issue, StateT.run_bind, told]
    rfl

/-- The run over the calls, each after those before it. -/
theorem Mirrors.issueAll (rest : List Call) (mirrors : Mirrors calls handles t)
    (follows : Justified (fun done call => Call.Follows (calls ++ done) call) rest) :
    ∃ handles' t', (Call.issueAll processor handles rest).run (.ok t) = (handles', .ok t') ∧
      Mirrors (calls ++ rest) handles' t' := by
  induction rest generalizing calls handles t with
  | nil => exact ⟨handles, t, rfl, by rwa [List.append_nil]⟩
  | cons call rest ih =>
    have here : call.Follows calls := by simpa using follows [] call rest rfl
    have later : Justified (fun done x => Call.Follows ((calls ++ [call]) ++ done) x) rest := by
      rintro done x after rfl
      simpa using follows (call :: done) x after rfl
    obtain ⟨handles₁, t₁, ran, mirrors₁⟩ := mirrors.issue here
    obtain ⟨handles₂, t₂, ran', mirrors₂⟩ := ih mirrors₁ later
    refine ⟨handles₂, t₂, ?_, by simpa using mirrors₂⟩
    rw [Call.issueAll, List.foldlM_cons, StateT.run_bind, ran]
    exact ran'

theorem mirrors_root {common : Path} (named : common.native ≠ "") :
    ∃ t, (Call.issue processor (fun _ => default) (.rootDir common)).run (.ok start) =
        (Function.update (fun _ => default) common 0, .ok t) ∧
      Mirrors [.rootDir common] (Function.update (fun _ => default) common 0) t := by
  have made : start.newRoot common =
      .ok (⟨(start.heap.newNode .dir common.native 0).1, [], some 0⟩, 0) := by
    unfold newRoot newNode
    rw [ensure_bind named]
    rfl
  have node : (start.heap.newNode .dir common.native 0).1.node 0 =
      ⟨⟨.dir, common.native, 0, none, []⟩, none, 0⟩ := by
    simp [Heap.newNode, Heap.setNode, start]
  have only : ∀ {k : ℕ} {call : Call}, [Call.rootDir common][k]? = some call →
      k = 0 ∧ call = .rootDir common := by
    intro k call here
    cases k with
    | zero => exact ⟨rfl, (Option.some.inj here).symm⟩
    | succ k => simp at here
  have mirrored : ∀ {k : ℕ} {call : Call}, [Call.rootDir common][k]? = some call →
      ((start.heap.newNode .dir common.native 0).1.node k).type = call.nodeType ∧
        ((start.heap.newNode .dir common.native 0).1.node k).name = call.nodeName ∧
        ((start.heap.newNode .dir common.native 0).1.node k).parent =
          call.above.map (Function.update (fun _ => default) common 0) := by
    intro k call here
    obtain ⟨rfl, rfl⟩ := only here
    rw [node]
    exact ⟨rfl, rfl, rfl⟩
  refine ⟨⟨(start.heap.newNode .dir common.native 0).1, [], some 0⟩, ?_,
    ⟨Heap.growing_root _, rfl, rfl, ?_, ?_, ?_, ?_, ?_, ?_, List.nodup_nil⟩⟩
  · rw [Call.issue, StateT.run_bind]
    change (onTree _).run (.ok start) >>= _ = _
    rw [onTree_ok (f := fun t => t.newRoot common) made]
    rfl
  · rintro p (hp | hp)
    · obtain rfl := Call.rootDir.inj (List.mem_singleton.mp hp)
      exact ⟨.rootDir p, by simp, rfl, rfl⟩
    · simp at hp
  · intro call hc p hp
    obtain rfl := List.mem_singleton.mp hc
    cases hp
  · exact fun k call here => (mirrored here).1
  · exact fun k call here => (mirrored here).2.1
  · exact fun k call here => (mirrored here).2.2
  · intro k sum
    simp only [List.not_mem_nil, false_iff, not_exists, not_and]
    intro p info here
    obtain ⟨-, h⟩ := only here
    cases h

end TreeCtor

end Dupa
