import Dupa.NativePaths
import Dupa.Reports
import Dupa.Returns

/-!
# Two directories at once

`DirCompare` fills its two maps in two threads. Each scans with a pool of its own, and all
use one `HashCache`. For what that returns the maps and the cache do not depend on how the
threads were scheduled, and the report depends on it only in the order of candidates.
-/

namespace Dupa

/-! ## A scan that is not alone -/

namespace Scan

variable {files : FileSystem} {σ H : Type} {n : ℕ} {P : ScanProcessor (StateM σ) H} {root : Path}
  {processor : σ} {cache : Path → Option FileInfo} {made : List Call} {s s' : Scan files σ H n}

/-- What a step does to the cache it does to any. -/
theorem Step.recached (h : Step P s made s') (held : Path → Option FileInfo) :
    ∃ held', Step P { s with cache := held } made { s' with cache := held' } ∧
      (held' = held ∧ s'.cache = s.cache ∨ ∃ path info, files.hash path = some info ∧
        held' = Function.update held path (some info) ∧
        s'.cache = Function.update s.cache path (some info)) := by
  cases h with
  | pool p step => exact ⟨held, .pool p step, Or.inl ⟨rfl, rfl⟩⟩
  | unlistable dir parent rest here top throws =>
    exact ⟨held, .unlistable dir parent rest here top throws, Or.inl ⟨rfl, rfl⟩⟩
  | list dir parent rest names here top listing =>
    exact ⟨held, .list (s := { s with cache := held }) dir parent rest names here top listing,
      Or.inl ⟨rfl, rfl⟩⟩
  | opened dir parent names listing here =>
    exact ⟨held, .opened dir parent names listing here, Or.inl ⟨rfl, rfl⟩⟩
  | skip dir handle name rest here kind =>
    exact ⟨held, .skip dir handle name rest here kind, Or.inl ⟨rfl, rfl⟩⟩
  | push dir handle name rest here kind =>
    exact ⟨held, .push dir handle name rest here kind, Or.inl ⟨rfl, rfl⟩⟩
  | submit dir handle name rest here kind =>
    exact ⟨held, .submit dir handle name rest here kind, Or.inl ⟨rfl, rfl⟩⟩
  | submitted dir handle rest here done =>
    exact ⟨held, .submitted dir handle rest here done, Or.inl ⟨rfl, rfl⟩⟩
  | next dir handle here => exact ⟨held, .next dir handle here, Or.inl ⟨rfl, rfl⟩⟩
  | unlock here empty => exact ⟨held, .unlock here empty, Or.inl ⟨rfl, rfl⟩⟩
  | stop here => exact ⟨held, .stop here, Or.inl ⟨rfl, rfl⟩⟩
  | finish here stopped => exact ⟨held, .finish here stopped, Or.inl ⟨rfl, rfl⟩⟩
  | fail w path parent here throws =>
    exact ⟨held, .fail w path parent here throws, Or.inl ⟨rfl, rfl⟩⟩
  | zero w path parent info here known dropped =>
    exact ⟨_, .zero w path parent info here known dropped, Or.inr ⟨path, info, known, rfl, rfl⟩⟩
  | hashed w path parent info here known kept =>
    exact ⟨_, .hashed (s := { s with cache := held }) w path parent info here known kept,
      Or.inr ⟨path, info, known, rfl, rfl⟩⟩
  | file w path parent info known kept here =>
    exact ⟨held, .file w path parent info known kept here, Or.inl ⟨rfl, rfl⟩⟩

/-- The results in `held` are in `cache` as well. -/
def Covers (files : FileSystem) (held cache : Path → Option FileInfo) : Prop :=
  ∀ path info, files.hash path = some info → held path = some info → cache path = some info

theorem Covers.update {held cache : Path → Option FileInfo} (h : Covers files held cache)
    (path : Path) (info : FileInfo) :
    Covers files (Function.update held path (some info)) (Function.update cache path (some info)) := by
  intro path' info' known' there
  by_cases same : path' = path
  · rw [same, Function.update_self] at there ⊢
    exact there
  · rw [Function.update_of_ne same] at there ⊢
    exact h path' info' known' there

theorem covers_update (cache : Path → Option FileInfo) {path : Path} {info : FileInfo}
    (known : files.hash path = some info) :
    Covers files cache (Function.update cache path (some info)) := by
  intro path' info' known' there
  by_cases same : path' = path
  · rw [same, Function.update_self, ← known, ← known', same]
  · rwa [Function.update_of_ne same]

/-- The state of a scan in a run from an empty `processor`, but for what others have
written to the cache. -/
def Shares (P : ScanProcessor (StateM σ) H) (root : Path) (processor : σ)
    (cache : Path → Option FileInfo) (s : Scan files σ H n) : Prop :=
  ∃ calls held, Run P root processor cache calls { s with cache := held } ∧
    Covers files held s.cache

theorem Shares.other {cache' : Path → Option FileInfo} (h : Shares P root processor cache s)
    (covers : Covers files s.cache cache') :
    Shares P root processor cache { s with cache := cache' } := by
  obtain ⟨calls, held, run, covered⟩ := h
  exact ⟨calls, held, run, fun path info known there => covers path info known
    (covered path info known there)⟩

/-- A step writes results to the cache, for files of the scan. -/
theorem Shares.step [Inhabited H] (h : Shares P root processor cache s) (step : Step P s made s') :
    Shares P root processor cache s' ∧ Covers files s.cache s'.cache ∧
      ∀ path, s'.cache path = s.cache path ∨ s'.cache path = cache path ∨
        files.Regular root path ∧ (files.hash path).isSome ∧ s'.cache path = files.hash path := by
  obtain ⟨calls, held, run, covers⟩ := h
  obtain ⟨held', step', ⟨rfl, same⟩ | ⟨path, info, known, rfl, written⟩⟩ := step.recached held
  · rw [same]
    exact ⟨⟨_, held', run.next step', same ▸ covers⟩, fun _ _ _ there => there, fun _ => Or.inl rfl⟩
  · have run' := run.next step'
    rw [written]
    refine ⟨⟨_, _, run', written ▸ covers.update path info⟩, covers_update s.cache known, ?_⟩
    intro path'
    by_cases here : path' = path
    · have old := run'.cached.old path'
      rw [here] at old ⊢
      simp only [Function.update_self] at old ⊢
      exact Or.inr old
    · rw [Function.update_of_ne here]
      exact Or.inl rfl

/-- Others do not keep a scan from going on. -/
theorem Shares.acts [Inhabited H] (h : Shares P root processor cache s) (alive : s.pc ≠ .returned)
    (workers : 0 < n) : ∃ s', Acts P s s' := by
  obtain ⟨calls, held, run, -⟩ := h
  obtain ⟨t, ⟨made, step⟩, quiet⟩ := run.acts alive (Or.inl workers)
  obtain ⟨held', step', -⟩ := step.recached s.cache
  exact ⟨{ t with cache := held' }, ⟨made, step'⟩, quiet⟩

theorem Shares.lowers [Inhabited H] {depth : ℕ} (h : Shares P root processor cache s)
    (shallow : files.Shallow root depth) (step : Step P s made s') :
    s'.effort depth < s.effort depth ∨
      s.pool.Wakes s'.pool ∧ s'.effort depth = s.effort depth + 1 := by
  obtain ⟨calls, held, run, -⟩ := h
  have course := run.onCourse
  exact step.lowers shallow ⟨course.idle, course.working, course.listed⟩

end Scan

theorem Scan.Shares.filled {files : FileSystem} {n : ℕ} {root : Path}
    {cache : Path → Option FileInfo} {s : Scan files (PathHashes Bytes) Path n}
    (h : s.Shares nativeFiller root .empty cache) (named : files.Named)
    (returned : s.pc = .returned) :
    (∀ k hash, s.processor.find k = some hash ↔ files.Contains root k hash) ∧
      ∀ path, files.Regular root path → (files.hash path).isSome →
        s.cache path = files.hash path := by
  obtain ⟨calls, held, run, covers⟩ := h
  have scanned : Scanned files root calls := run.scanned returned
  have told : Input.nativeHashes calls = s.processor := run.told.2.state
  constructor
  · intro k hash
    rw [← told]
    exact scanned.find_nativeHashes named
  · intro path regular readable
    obtain ⟨info, known⟩ := Option.isSome_iff_exists.mp readable
    rw [known]
    apply covers path info known
    rw [← known]
    exact (run.cache_eq returned path).1 regular readable

/-! ## The two threads -/

/-- The threads `h1filler` and `h2filler` of `DirCompare`. The cache is one: what either
scan writes to it the other sees. -/
structure Fillers (files : FileSystem) (n : ℕ) where
  first : Scan files (PathHashes Bytes) Path n
  second : Scan files (PathHashes Bytes) Path n

namespace Fillers

variable {files : FileSystem} {n : ℕ} {root1 root2 : Path} {cache : Path → Option FileInfo}
  {s s' : Fillers files n}

def start (root1 root2 : Path) (cache : Path → Option FileInfo) : Fillers files n where
  first := .start root1 .empty cache
  second := .start root2 .empty cache

inductive Step (s : Fillers files n) : Fillers files n → Prop
  | first {made : List Call} {scan : Scan files (PathHashes Bytes) Path n}
      (step : s.first.Step nativeFiller made scan) :
      Step s { first := scan, second := { s.second with cache := scan.cache } }
  | second {made : List Call} {scan : Scan files (PathHashes Bytes) Path n}
      (step : s.second.Step nativeFiller made scan) :
      Step s { first := { s.first with cache := scan.cache }, second := scan }

/-- The states of the two threads, in any order of their steps. -/
def Reachable (root1 root2 : Path) (cache : Path → Option FileInfo) (s : Fillers files n) : Prop :=
  Relation.ReflTransGen Step (start root1 root2 cache) s

def Joined (s : Fillers files n) : Prop := s.first.pc = .returned ∧ s.second.pc = .returned

/-- Each scan goes its own way, and the cache takes in the results of both. -/
structure Sound (root1 root2 : Path) (cache : Path → Option FileInfo) (s : Fillers files n) :
    Prop where
  one : s.first.cache = s.second.cache
  first : s.first.Shares nativeFiller root1 .empty cache
  second : s.second.Shares nativeFiller root2 .empty cache
  old : ∀ path, s.first.cache path = cache path ∨
    (files.Regular root1 path ∨ files.Regular root2 path) ∧ (files.hash path).isSome ∧
      s.first.cache path = files.hash path

theorem start_sound : (start root1 root2 cache : Fillers files n).Sound root1 root2 cache where
  one := rfl
  first := ⟨[], cache, .start, fun _ _ _ there => there⟩
  second := ⟨[], cache, .start, fun _ _ _ there => there⟩
  old _ := Or.inl rfl

theorem Step.sound (h : Step s s') (sound : s.Sound root1 root2 cache) :
    s'.Sound root1 root2 cache := by
  cases h with
  | first step =>
    obtain ⟨first, covers, wrote⟩ := sound.first.step step
    refine ⟨rfl, first, sound.second.other (sound.one ▸ covers), fun path => ?_⟩
    rcases wrote path with same | same | ⟨regular, new⟩
    · exact same ▸ sound.old path
    · exact Or.inl same
    · exact Or.inr ⟨Or.inl regular, new⟩
  | second step =>
    obtain ⟨second, covers, wrote⟩ := sound.second.step step
    refine ⟨rfl, sound.first.other (sound.one ▸ covers), second, fun path => ?_⟩
    rcases wrote path with same | same | ⟨regular, new⟩
    · exact same ▸ sound.one ▸ sound.old path
    · exact Or.inl same
    · exact Or.inr ⟨Or.inr regular, new⟩

/-! ## The end of both -/

/-- A thread of one of the pools wakes up without having been notified. -/
def Wakes (s s' : Fillers files n) : Prop :=
  s.Step s' ∧ (s.first.pool.Wakes s'.first.pool ∨ s.second.pool.Wakes s'.second.pool)

/-- Any other step of any thread. -/
def Acts (s s' : Fillers files n) : Prop :=
  s.Step s' ∧ ¬(s.first.pool.Wakes s'.first.pool ∨ s.second.pool.Wakes s'.second.pool)

def effort (depth : ℕ) (s : Fillers files n) : ℕ := s.first.effort depth + s.second.effort depth

theorem Step.lowers {depth : ℕ} (h : Step s s') (sound : s.Sound root1 root2 cache)
    (shallow1 : files.Shallow root1 depth) (shallow2 : files.Shallow root2 depth) :
    s'.effort depth < s.effort depth ∨
      (s.first.pool.Wakes s'.first.pool ∨ s.second.pool.Wakes s'.second.pool) ∧
        s'.effort depth = s.effort depth + 1 := by
  cases h with
  | @first made scan step =>
    have other : effort depth ⟨scan, { s.second with cache := scan.cache }⟩ =
      scan.effort depth + s.second.effort depth := rfl
    rw [other, effort]
    rcases sound.first.lowers shallow1 step with lower | ⟨wakes, upper⟩
    · exact Or.inl (by omega)
    · exact Or.inr ⟨Or.inl wakes, by omega⟩
  | @second made scan step =>
    have other : effort depth ⟨{ s.first with cache := scan.cache }, scan⟩ =
      s.first.effort depth + scan.effort depth := rfl
    rw [other, effort]
    rcases sound.second.lowers shallow2 step with lower | ⟨wakes, upper⟩
    · exact Or.inl (by omega)
    · exact Or.inr ⟨Or.inr wakes, by omega⟩

/-- Until both have returned, one of them can go on. -/
theorem Sound.acts (sound : s.Sound root1 root2 cache) (alive : ¬s.Joined) (workers : 0 < n) :
    ∃ s', Acts s s' := by
  by_cases done : s.first.pc = .returned
  · obtain ⟨t, ⟨made, step⟩, quiet⟩ := sound.second.acts (fun gone => alive ⟨done, gone⟩) workers
    exact ⟨_, .second step, not_or.mpr ⟨fun wakes => wakes.irrefl, quiet⟩⟩
  · obtain ⟨t, ⟨made, step⟩, quiet⟩ := sound.first.acts done workers
    exact ⟨_, .first step, not_or.mpr ⟨quiet, fun wakes => wakes.irrefl⟩⟩

theorem potential {depth : ℕ} (shallow1 : files.Shallow root1 depth)
    (shallow2 : files.Shallow root2 depth) (cache : Path → Option FileInfo) :
    Potential Acts Wakes (fun s : Fillers files n => s.Sound root1 root2 cache) (effort depth) where
  acted := by
    rintro s s' sound ⟨step, quiet⟩
    refine ⟨step.sound sound, ?_⟩
    exact (step.lowers sound shallow1 shallow2).resolve_right fun wakes => quiet wakes.1
  woken := by
    rintro s s' sound ⟨step, -⟩
    refine ⟨step.sound sound, ?_⟩
    rcases step.lowers sound shallow1 shallow2 with lower | ⟨-, upper⟩ <;> omega

theorem Reachable.sound (h : s.Reachable root1 root2 cache) : s.Sound root1 root2 cache := by
  induction h with
  | refl => exact start_sound
  | tail _ step ih => exact step.sound ih

end Fillers

section
variable {files : FileSystem} {n : ℕ} {root1 root2 : Path} {cache : Path → Option FileInfo}
  {s : Fillers files n}

/-- When both threads have been joined, each map holds the files of its directory, and
the cache holds the results for both directories and what it held before. Where
`HashCache` returns the same for the files, the report depends neither on the schedule nor
on the numbers of workers or the order of listings, up to the order of candidates. -/
theorem dirCompare_concurrent (named : files.Named) (run : s.Reachable root1 root2 cache)
    (joined : s.Joined) :
    (∀ k hash, s.first.processor.find k = some hash ↔ files.Contains root1 k hash) ∧
    (∀ k hash, s.second.processor.find k = some hash ↔ files.Contains root2 k hash) ∧
    (∀ path, ((files.Regular root1 path ∨ files.Regular root2 path) → (files.hash path).isSome →
        s.first.cache path = files.hash path) ∧
      (¬((files.Regular root1 path ∨ files.Regular root2 path) ∧ (files.hash path).isSome) →
        s.first.cache path = cache path)) ∧
    ∀ (files' : FileSystem) (n' : ℕ) (cache' : Path → Option FileInfo) (s' : Fillers files' n'),
      files.AgreeOn files' (fun _ => True) → s'.Reachable root1 root2 cache' → s'.Joined →
      ∀ skipRenames,
        (dirCompare skipRenames s.first.processor s.second.processor).map Event.sorted =
          (dirCompare skipRenames s'.first.processor s'.second.processor).map Event.sorted := by
  have sound := run.sound
  obtain ⟨first, cached1⟩ := sound.first.filled named joined.1
  obtain ⟨second, cached2⟩ := sound.second.filled named joined.2
  refine ⟨first, second, fun path => ⟨?_, (sound.old path).resolve_right ∘ ?_⟩, ?_⟩
  · rintro (regular | regular) readable
    · exact cached1 path regular readable
    · exact sound.one ▸ cached2 path regular readable
  · rintro other ⟨regular, readable, -⟩
    exact other ⟨regular, readable⟩
  · intro files' n' cache' s' agree run' joined' skipRenames
    have named' := named.of_agree agree
    obtain ⟨first', -⟩ := run'.sound.first.filled named' joined'.1
    obtain ⟨second', -⟩ := run'.sound.second.filled named' joined'.2
    apply dirCompare_sorted
    · intro k
      apply Option.ext
      intro hash
      rw [first, first']
      exact ⟨agree.contains, agree.symm.contains⟩
    · intro k
      apply Option.ext
      intro hash
      rw [second, second']
      exact ⟨agree.contains, agree.symm.contains⟩

/-- Both threads end: there is a bound for their steps, wakeups apart and those that
each of them costs again, and until both have returned one of them can go on. -/
theorem dirCompare_joins {depth : ℕ} (shallow1 : files.Shallow root1 depth)
    (shallow2 : files.Shallow root2 depth) (workers : 0 < n) :
    ∃ bound : ℕ, ∀ (cache : Path → Option FileInfo) (acts wakes : ℕ) (s : Fillers files n),
      Paced Fillers.Acts Fillers.Wakes (.start root1 root2 cache) acts wakes s →
        acts ≤ bound + wakes ∧ (¬s.Joined → ∃ s', Fillers.Acts s s') ∧
        ∃ s', Relation.ReflTransGen Fillers.Acts s s' ∧ s'.Reachable root1 root2 cache ∧
          s'.Joined := by
  refine ⟨8 * (Work.root root1).visits files depth + 8 * (Work.root root2).visits files depth +
    4 * n + 10, ?_⟩
  intro cache acts wakes s paced
  have pot := Fillers.potential (n := n) shallow1 shallow2 cache
  obtain ⟨sound, bound⟩ := pot.paced Fillers.start_sound paced
  have first : (Fillers.start root1 root2 cache : Fillers files n).effort depth =
      8 * (Work.root root1).visits files depth + 8 * (Work.root root2).visits files depth +
        4 * n + 10 := by
    simp only [Fillers.effort, Fillers.start, Scan.effort_start]
    omega
  refine ⟨by omega, fun alive => sound.acts alive workers, ?_⟩
  obtain ⟨s', steps, sound', stuck⟩ := pot.exists_stuck sound
  refine ⟨s', steps, ?_, ?_⟩
  · have before : s.Reachable root1 root2 cache := paced.reachable And.left And.left
    exact before.trans (Relation.ReflTransGen.mono (fun _ _ acts => acts.1) _ _ steps)
  · by_contra alive
    obtain ⟨t, act⟩ := sound'.acts alive workers
    exact stuck t act

end

/-! ## A directory and itself -/

theorem Fillers.reachable_of_runs {files : FileSystem} {n : ℕ} {root1 root2 : Path}
    {cache : Path → Option FileInfo} {calls1 calls2 : List Call}
    {s1 s2 : Scan files (PathHashes Bytes) Path n}
    (run1 : Scan.Run nativeFiller root1 .empty cache calls1 s1)
    (run2 : Scan.Run nativeFiller root2 .empty s1.cache calls2 s2) :
    Fillers.Reachable root1 root2 cache ⟨{ s1 with cache := s2.cache }, s2⟩ := by
  have first : Fillers.Reachable root1 root2 cache ⟨s1, .start root2 .empty s1.cache⟩ := by
    clear run2
    induction run1 with
    | start => exact .refl
    | next run step ih => exact ih.tail (.first step)
  induction run2 with
  | start => exact first
  | next run step ih => exact ih.tail (.second step)

theorem dirCompare_concurrent_deepFile : ∃ s : Fillers (deepFile ⟨1, 2, 3⟩) 1, s.Joined ∧
    s.first.processor.find (bytes (Path.native ["d", "x"])) = some 3 := by
  obtain ⟨s1, returned1, run1⟩ := deepFile_run ⟨1, 2, 3⟩ nativeFiller .empty fun _ => none
  obtain ⟨s2, returned2, run2⟩ := deepFile_run ⟨1, 2, 3⟩ nativeFiller .empty s1.cache
  have joined : Fillers.Joined ⟨{ s1 with cache := s2.cache }, s2⟩ := ⟨returned1, returned2⟩
  obtain ⟨first, -⟩ := dirCompare_concurrent (deepFile_named _)
    (Fillers.reachable_of_runs run1 run2) joined
  refine ⟨_, joined, (first _ _).mpr ⟨["d", "x"], ⟨1, 2, 3⟩, rfl, ?_⟩⟩
  exact ⟨deepFile_regular _, rfl, by decide, rfl⟩

theorem dirCompare_joins_deepFile :
    ∃ s : Fillers (deepFile ⟨1, 2, 3⟩) 1, s.Reachable ["r"] ["r"] (fun _ => none) ∧ s.Joined := by
  obtain ⟨bound, joins⟩ := @dirCompare_joins (deepFile ⟨1, 2, 3⟩) 1 ["r"] ["r"] 2
    (Scan.deepFile_shallow _) (Scan.deepFile_shallow _) Nat.one_pos
  obtain ⟨-, -, s, -, reached⟩ := joins _ 0 0 _ .start
  exact ⟨s, reached⟩

end Dupa
