import MigrateFlowOnly.MethodBlock
import MigrateFlowOnly.ManagedContext

/-! `main`: the repository root, the manifest, the patched and copied files written into the
target tree, the generated `TFI` facade, and the lines the run prints. -/
namespace MigrateFlowOnly

/-- `a / b` for a relative `b`; a resolved root ends with `/` only when it is `/`. -/
def joinPath (a b : Text) : Text := if ['/'] <:+ a then a ++ b else a ++ '/' :: b

theorem joinPath_inj {a b c : Text} : joinPath a b = joinPath a c ↔ b = c := by
  unfold joinPath; split_ifs <;> simp

/-- A path that is not among `rels` is aimed at none of their target paths. -/
theorem joinPath_ne_of_not_mem {a p : Text} {rels : List Text} (hp : p ∉ rels) :
    ∀ rel ∈ rels, joinPath a p ≠ joinPath a rel := fun _ hrel h => hp (joinPath_inj.1 h ▸ hrel)

/-- The part of the source filesystem the script reads, by absolute path. -/
structure SourceTree where
  isDir : Text → Bool
  isFile : Text → Bool
  /-- `sorted(d.rglob("*.java"))`, each file by its path below `d`. -/
  javaFiles : Text → List Text
  /-- A file's text: what `read_text` returns at the three patched paths, and the file's
  contents, which `copy2` copies, at every other path; the run reads each path in one role. -/
  read : Text → Text

def repoMarker : Text := "src/main/java/com/syy/taskflowinsight".toList

def repoRootError : Text :=
  ("Cannot find repo root (expected src/main/java/com/syy/taskflowinsight). " ++
    "Run this script from the TaskFlowInsight repo.").toList

/-- `_find_repo_root`: the first of `[start, *start.parents]` that holds the source tree. -/
def findRepoRoot (tree : SourceTree) : List Text → Except Text Text
  | [] => .error repoRootError
  | c :: cs => if tree.isDir (joinPath c repoMarker) then .ok c else findRepoRoot tree cs

/-- `_unique_paths`, with `seen` the paths already kept. -/
def uniquePathsFrom (seen : List Text) : List Text → List Text
  | [] => []
  | p :: ps => if p ∈ seen then uniquePathsFrom seen ps else p :: uniquePathsFrom (p :: seen) ps

def uniquePaths (paths : List Text) : List Text := uniquePathsFrom [] paths

theorem mem_uniquePathsFrom {seen ps : List Text} {p : Text} :
    p ∈ uniquePathsFrom seen ps ↔ p ∈ ps ∧ p ∉ seen := by
  induction ps generalizing seen with
  | nil => simp [uniquePathsFrom]
  | cons q ps ih =>
    unfold uniquePathsFrom
    by_cases hpq : p = q
    · subst hpq; split_ifs with hp <;> simp [ih, hp]
    · split_ifs <;> simp [ih, hpq]

theorem uniquePathsFrom_nodup (seen ps : List Text) : (uniquePathsFrom seen ps).Nodup := by
  induction ps generalizing seen with
  | nil => exact List.nodup_nil
  | cons q ps ih =>
    unfold uniquePathsFrom
    split_ifs
    · exact ih seen
    · exact List.nodup_cons.2 ⟨fun h => (mem_uniquePathsFrom.1 h).2 (List.mem_cons_self _ _), ih _⟩

theorem uniquePathsFrom_sublist (seen ps : List Text) :
    List.Sublist (uniquePathsFrom seen ps) ps := by
  induction ps generalizing seen with
  | nil => exact List.Sublist.slnil
  | cons q ps ih =>
    unfold uniquePathsFrom
    split_ifs
    exacts [(ih seen).cons q, (ih _).cons₂ q]

theorem uniquePathsFrom_append_singleton (seen ps : List Text) (p : Text) :
    uniquePathsFrom seen (ps ++ [p]) =
      if p ∈ seen ∨ p ∈ ps then uniquePathsFrom seen ps else uniquePathsFrom seen ps ++ [p] := by
  induction ps generalizing seen with
  | nil => by_cases hp : p ∈ seen <;> simp [uniquePathsFrom, hp]
  | cons q ps ih =>
    rw [List.cons_append, uniquePathsFrom.eq_2, uniquePathsFrom.eq_2]
    by_cases hq : q ∈ seen
    · have hiff : (p ∈ seen ∨ p ∈ ps) ↔ (p ∈ seen ∨ p ∈ q :: ps) := by
        by_cases hpq : p = q <;> simp [hpq, hq]
      rw [if_pos hq, if_pos hq, ih, if_congr hiff rfl rfl]
    · have hiff : (p ∈ q :: seen ∨ p ∈ ps) ↔ (p ∈ seen ∨ p ∈ q :: ps) := by
        simp only [List.mem_cons]; tauto
      rw [if_neg hq, if_neg hq, ih, if_congr hiff rfl rfl]
      split_ifs <;> rfl

/-- `_unique_paths` lists each path once, in the order of its first occurrence: its loop
skips a path already seen and appends a new one. -/
theorem uniquePaths_spec (ps : List Text) :
    (uniquePaths ps).Nodup ∧ List.Sublist (uniquePaths ps) ps ∧
      (∀ p, p ∈ uniquePaths ps ↔ p ∈ ps) ∧
      ∀ p, uniquePaths (ps ++ [p]) = if p ∈ ps then uniquePaths ps else uniquePaths ps ++ [p] :=
  ⟨uniquePathsFrom_nodup [] ps, uniquePathsFrom_sublist [] ps,
    fun p => by simp [uniquePaths, mem_uniquePathsFrom],
    fun p => by simp [uniquePaths, uniquePathsFrom_append_singleton]⟩

/-- One loop of `_collect_sources`: an entry that fails `present` stops the run with
`missing entry`; one that passes adds `found entry`. -/
def collectEach (present : Text → Bool) (found : Text → List Text) (missing : Text → Text) :
    List Text → Except Text (List Text)
  | [] => .ok []
  | e :: es =>
    if present e then (collectEach present found missing es).map (found e ++ ·)
    else .error (missing e)

def includeDirs : List Text :=
  ["src/main/java/com/syy/taskflowinsight/context",
   "src/main/java/com/syy/taskflowinsight/model",
   "src/main/java/com/syy/taskflowinsight/enums",
   "src/main/java/com/syy/taskflowinsight/exporter/json",
   "src/main/java/com/syy/taskflowinsight/exporter/map",
   "src/main/java/com/syy/taskflowinsight/exporter/text"].map String.toList

def includeFiles : List Text :=
  ["src/main/java/com/syy/taskflowinsight/api/NullTaskContext.java",
   "src/main/java/com/syy/taskflowinsight/api/StageFunction.java",
   "src/main/java/com/syy/taskflowinsight/api/TaskContext.java",
   "src/main/java/com/syy/taskflowinsight/api/TaskContextImpl.java",
   "src/main/java/com/syy/taskflowinsight/annotation/TfiTask.java",
   "src/main/java/com/syy/taskflowinsight/config/resolver/ConfigDefaults.java",
   "src/main/java/com/syy/taskflowinsight/util/DiagnosticLogger.java"].map String.toList

def missingDirError (relDir : Text) : Text := "Missing expected source dir: ".toList ++ relDir

def missingFileError (relFile : Text) : Text := "Missing expected source file: ".toList ++ relFile

/-- `_collect_sources`: the `.java` files below each listed directory, then the listed
files, each by its path from the repository root. -/
def collectSources (tree : SourceTree) (root : Text) : Except Text (List Text) := do
  let dirs ← collectEach (fun d => tree.isDir (joinPath root d))
    (fun d => (tree.javaFiles (joinPath root d)).map (joinPath d)) missingDirError includeDirs
  let files ← collectEach (fun f => tree.isFile (joinPath root f)) (fun f => [f])
    missingFileError includeFiles
  pure (uniquePaths (dirs ++ files))

theorem except_map_eq_ok {f : List Text → List Text} {x : Except Text (List Text)}
    {b : List Text} : x.map f = .ok b ↔ ∃ a, x = .ok a ∧ f a = b := by
  cases x <;> simp [Except.map]

theorem except_map_eq_error {f : List Text → List Text} {x : Except Text (List Text)}
    {m : Text} : x.map f = .error m ↔ x = .error m := by
  cases x <;> simp [Except.map]

theorem mem_of_eq_append_cons {l pre post : List Text} {e : Text} (h : l = pre ++ e :: post) :
    e ∈ l :=
  h ▸ List.mem_append_right pre (List.mem_cons_self e post)

theorem collectEach_eq_ok {present : Text → Bool} {found : Text → List Text}
    {missing : Text → Text} {es out : List Text} :
    collectEach present found missing es = .ok out ↔
      (∀ e ∈ es, present e) ∧ es.flatMap found = out := by
  induction es generalizing out with
  | nil => simp [collectEach]
  | cons e es ih =>
    unfold collectEach
    by_cases he : present e
    · simp [he, except_map_eq_ok, ih, and_assoc]
    · simp [he]

/-- A manifest loop fails at its first entry that is not there, and names that entry. -/
theorem collectEach_eq_error {present : Text → Bool} {found : Text → List Text}
    {missing : Text → Text} {es : List Text} {msg : Text} :
    collectEach present found missing es = .error msg ↔
      ∃ pre e post, es = pre ++ e :: post ∧ (∀ x ∈ pre, present x) ∧ present e = false ∧
        msg = missing e := by
  induction es with
  | nil => simp [collectEach]
  | cons q es ih =>
    unfold collectEach
    by_cases hq : present q
    · rw [if_pos hq, except_map_eq_error, ih]
      constructor
      · rintro ⟨pre, e, post, rfl, hpre, he, rfl⟩
        exact ⟨q :: pre, e, post, rfl, by simpa [hq] using hpre, he, rfl⟩
      · rintro ⟨_ | ⟨x, pre⟩, e, post, hes, hpre, he, rfl⟩
        · obtain ⟨rfl, -⟩ := List.cons.inj hes
          simp [hq] at he
        · obtain ⟨-, rfl⟩ := List.cons.inj hes
          exact ⟨pre, e, post, rfl, fun y hy => hpre y (List.mem_cons_of_mem x hy), he, rfl⟩
    · rw [if_neg hq, Except.error.injEq]
      constructor
      · rintro rfl
        exact ⟨[], q, es, rfl, by simp, by simpa using hq, rfl⟩
      · rintro ⟨_ | ⟨x, pre⟩, e, post, hes, hpre, he, rfl⟩
        · rw [(List.cons.inj hes).1]
        · exact absurd (hpre x (List.mem_cons_self x pre)) ((List.cons.inj hes).1 ▸ hq)

theorem collectSources_eq_ok {tree : SourceTree} {root : Text} {srcs : List Text} :
    collectSources tree root = .ok srcs ↔
      (∀ d ∈ includeDirs, tree.isDir (joinPath root d)) ∧
      (∀ f ∈ includeFiles, tree.isFile (joinPath root f)) ∧
      uniquePaths (includeDirs.flatMap
        (fun d => (tree.javaFiles (joinPath root d)).map (joinPath d)) ++ includeFiles) = srcs := by
  unfold collectSources
  cases h₁ : collectEach (fun d => tree.isDir (joinPath root d))
      (fun d => (tree.javaFiles (joinPath root d)).map (joinPath d)) missingDirError includeDirs
  · obtain ⟨pre, d, post, hdirs, -, hd, -⟩ := collectEach_eq_error.1 h₁
    simp only [bind, Except.bind, reduceCtorEq, false_iff]
    exact fun ⟨hall, _⟩ => Bool.eq_false_iff.1 hd (hall d (mem_of_eq_append_cons hdirs))
  · obtain ⟨hall, rfl⟩ := collectEach_eq_ok.1 h₁
    cases h₂ : collectEach (fun f => tree.isFile (joinPath root f)) (fun f => [f])
        missingFileError includeFiles
    · obtain ⟨pre, f, post, hfiles, -, hf, -⟩ := collectEach_eq_error.1 h₂
      simp only [bind, Except.bind, reduceCtorEq, false_iff]
      exact fun ⟨_, hall', _⟩ => Bool.eq_false_iff.1 hf (hall' f (mem_of_eq_append_cons hfiles))
    · obtain ⟨hall', rfl⟩ := collectEach_eq_ok.1 h₂
      simp only [bind, Except.bind, pure, Except.pure, Except.ok.injEq, List.flatMap_singleton']
      exact ⟨fun h => ⟨hall, hall', h⟩, fun h => h.2.2⟩

/-- `_collect_sources` stops at the first manifest entry that is missing, directories
before files, and its message names that entry. -/
theorem collectSources_eq_error (tree : SourceTree) (root msg : Text) :
    collectSources tree root = .error msg ↔
      (∃ pre d post, includeDirs = pre ++ d :: post ∧
          (∀ x ∈ pre, tree.isDir (joinPath root x)) ∧ tree.isDir (joinPath root d) = false ∧
          msg = missingDirError d) ∨
      ((∀ x ∈ includeDirs, tree.isDir (joinPath root x)) ∧
        ∃ pre f post, includeFiles = pre ++ f :: post ∧
          (∀ x ∈ pre, tree.isFile (joinPath root x)) ∧ tree.isFile (joinPath root f) = false ∧
          msg = missingFileError f) := by
  unfold collectSources
  cases h₁ : collectEach (fun d => tree.isDir (joinPath root d))
      (fun d => (tree.javaFiles (joinPath root d)).map (joinPath d)) missingDirError includeDirs
      with
  | error m =>
    obtain ⟨pre, d, post, hdirs, -, hd, -⟩ := collectEach_eq_error.1 h₁
    have hnot : ¬ ∀ x ∈ includeDirs, tree.isDir (joinPath root x) := fun hall =>
      Bool.eq_false_iff.1 hd (hall d (mem_of_eq_append_cons hdirs))
    rw [← collectEach_eq_error, h₁]
    simp [bind, Except.bind, hnot]
  | ok dirs =>
    obtain ⟨hall, -⟩ := collectEach_eq_ok.1 h₁
    have hnot : ¬ ∃ pre d post, includeDirs = pre ++ d :: post ∧
        (∀ x ∈ pre, tree.isDir (joinPath root x)) ∧ tree.isDir (joinPath root d) = false ∧
        msg = missingDirError d := fun ⟨_, d, _, hdirs, _, hd, _⟩ =>
      Bool.eq_false_iff.1 hd (hall d (mem_of_eq_append_cons hdirs))
    rw [or_iff_right hnot, and_iff_right hall, ← collectEach_eq_error]
    cases collectEach (fun f => tree.isFile (joinPath root f)) (fun f => [f]) missingFileError
      includeFiles <;> simp [bind, Except.bind, pure, Except.pure]

/-- The target tree: the text of the file at each path as the run names it, `none` where there
is no file. Directories and symbolic links are left out: a path is written where it is named. -/
abbrev Dest := Text → Option Text

/-- The target once the file at `path` holds `content`. -/
def Dest.set (d : Dest) (path content : Text) : Dest :=
  fun p => if p = path then some content else d p

@[simp] theorem Dest.set_apply (d : Dest) (path content p : Text) :
    d.set path content p = if p = path then some content else d p := rfl

def skipLine (path : Text) : Text := "SKIP  ".toList ++ path ++ " (exists; use --overwrite)".toList

/-- `_write_text` and `_copy_file` act on `path` when no file is there or `--overwrite` is
given. -/
def acts (d : Dest) (path : Text) (overwrite : Bool) : Bool := (d path).isNone || overwrite

/-- The shared body of `_write_text` and `_copy_file`: skip an existing `path` unless
`overwrite`; otherwise print `done` and, unless `dryRun`, put `content` at `path`. The flag
is the function's result, whether it acted. -/
def fileAction (d : Dest) (path content done : Text) (overwrite dryRun : Bool) :
    Dest × Text × Bool :=
  if (d path).isSome && !overwrite then (d, skipLine path, false)
  else if dryRun then (d, done, true)
  else (d.set path content, done, true)

/-- `_write_text`. -/
def writeText (d : Dest) (path content : Text) (overwrite dryRun : Bool) : Dest × Text × Bool :=
  fileAction d path content ("WRITE ".toList ++ path) overwrite dryRun

/-- `_copy_file`: what it copies is the text of the file at `src`. -/
def copyFile (tree : SourceTree) (d : Dest) (src dst : Text) (overwrite dryRun : Bool) :
    Dest × Text × Bool :=
  fileAction d dst (tree.read src) ("COPY  ".toList ++ src ++ " -> ".toList ++ dst) overwrite
    dryRun

theorem fileAction_eq (d : Dest) (path content done : Text) (overwrite dryRun : Bool) :
    fileAction d path content done overwrite dryRun =
      (if acts d path overwrite && !dryRun then d.set path content else d,
        if acts d path overwrite then done else skipLine path, acts d path overwrite) := by
  unfold fileAction acts
  rcases d path with _ | c <;> cases overwrite <;> cases dryRun <;> rfl

def safeContextManagerPath : Text :=
  "src/main/java/com/syy/taskflowinsight/context/SafeContextManager.java".toList

def managedThreadContextPath : Text :=
  "src/main/java/com/syy/taskflowinsight/context/ManagedThreadContext.java".toList

def threadContextPath : Text :=
  "src/main/java/com/syy/taskflowinsight/context/ThreadContext.java".toList

def configureSignature : Text := "public void configureFromTfiConfig(".toList

def managedThreadContextSuffix : Text := "/ManagedThreadContext.java".toList

/-- The dispatch in `main`'s loop: the text written for the source at `rel` whose text is
`text`, or `none` for a source it copies unchanged. -/
def patchedText (rel text : Text) : Option Text :=
  if rel = safeContextManagerPath then some (removeMethodBlock text configureSignature)
  else if rel ∈ [managedThreadContextPath, threadContextPath] then
    some (if managedThreadContextSuffix <:+ rel then
        stripClearAllTrackingInManagedThreadContext text
      else stripClearAllTrackingInThreadContext text)
  else none

theorem patchedText_safeContextManager (text : Text) :
    patchedText safeContextManagerPath text = some (removeMethodBlock text configureSignature) := by
  simp [patchedText]

theorem patchedText_managedThreadContext (text : Text) :
    patchedText managedThreadContextPath text =
      some (stripClearAllTrackingInManagedThreadContext text) := by
  have hm : managedThreadContextPath ≠ safeContextManagerPath ∧
      managedThreadContextSuffix <:+ managedThreadContextPath := by decide
  simp [patchedText, hm]

theorem patchedText_threadContext (text : Text) :
    patchedText threadContextPath text = some (stripClearAllTrackingInThreadContext text) := by
  have ht : threadContextPath ≠ safeContextManagerPath ∧
      ¬ managedThreadContextSuffix <:+ threadContextPath := by decide
  simp [patchedText, ht]

/-- The target after a run that plans the files `plan` over `d`: a file already there stays
unless `overwrite`, and a dry run changes nothing. -/
def overlay (d plan : Dest) (overwrite dryRun : Bool) : Dest := fun p =>
  match plan p with
  | some c => if acts d p overwrite && !dryRun then some c else d p
  | none => d p

theorem overlay_of_not_acts {d P : Dest} {p : Text} {overwrite : Bool} (dryRun : Bool)
    (h : acts d p overwrite = false) : overlay d P overwrite dryRun p = d p := by
  unfold overlay; split <;> simp [h]

theorem overlay_of_acts {d P : Dest} {p c : Text} {overwrite : Bool}
    (h : acts d p overwrite = true) (hP : P p = some c) : overlay d P overwrite false p = some c := by
  simp [overlay, hP, h]

theorem overlay_dryRun (d P : Dest) (overwrite : Bool) : overlay d P overwrite true = d := by
  funext p; unfold overlay; split <;> simp

theorem overlay_idem (d P : Dest) (overwrite dryRun : Bool) :
    overlay (overlay d P overwrite dryRun) P overwrite dryRun = overlay d P overwrite dryRun := by
  funext p
  unfold overlay acts
  cases hP : P p <;> cases hd : d p <;> cases overwrite <;> cases dryRun <;> simp [hP, hd]

/-- Where a run changed the target, it planned a file. -/
theorem exists_plan_of_overlay_ne {d P : Dest} {p : Text} {overwrite dryRun : Bool}
    (h : overlay d P overwrite dryRun p ≠ d p) : ∃ c, P p = some c := by
  unfold overlay at h
  split at h
  · exact ⟨_, ‹_›⟩
  · exact absurd rfl h

/-- After a real run every planned path holds a file: the planned one, or the one that
was there. -/
theorem overlay_isSome {d P : Dest} {p : Text} {overwrite : Bool} (hP : (P p).isSome) :
    (overlay d P overwrite false p).isSome := by
  obtain ⟨c, hc⟩ := Option.isSome_iff_exists.1 hP
  unfold overlay acts
  rw [hc]
  cases hd : d p <;> cases overwrite <;> simp [hd]

/-- Writing one more file after a run adds it to the run's plan, when the plan had no file
there. -/
theorem overlay_then_write {d P : Dest} {q c : Text} {overwrite dryRun : Bool} (hq : P q = none) :
    (if acts (overlay d P overwrite dryRun) q overwrite && !dryRun then
        (overlay d P overwrite dryRun).set q c else overlay d P overwrite dryRun) =
      overlay d (P.set q c) overwrite dryRun := by
  have hov : overlay d P overwrite dryRun q = d q := by simp [overlay, hq]
  funext p
  by_cases hp : p = q
  · subst hp
    simp only [acts, hov]
    split_ifs with h <;> simp [overlay, acts, h, hq]
  · split_ifs <;> simp [overlay, hp]

/-- What `main` has done so far: the target, the lines printed, and its two counters. -/
structure RunState where
  dest : Dest
  out : List Text
  copied : Nat
  written : Nat

/-- The printed part of a run state. -/
def RunState.log (s : RunState) : List Text × Nat × Nat := (s.out, s.copied, s.written)

/-- One pass of `main`'s loop: patch and write the source at `rel`, or copy it. -/
def migrateSource (tree : SourceTree) (root target : Text) (overwrite dryRun : Bool)
    (s : RunState) (rel : Text) : RunState :=
  let src := joinPath root rel
  let dst := joinPath target rel
  match patchedText rel (tree.read src) with
  | some text =>
    let r := writeText s.dest dst text overwrite dryRun
    { s with dest := r.1, out := s.out ++ [r.2.1], written := s.written + r.2.2.toNat }
  | none =>
    let r := copyFile tree s.dest src dst overwrite dryRun
    { s with dest := r.1, out := s.out ++ [r.2.1], copied := s.copied + r.2.2.toNat }

/-- The text a run puts at the target path of the source at `rel`: its patch, or its text. -/
def sourceOutput (tree : SourceTree) (root rel : Text) : Text :=
  (patchedText rel (tree.read (joinPath root rel))).getD (tree.read (joinPath root rel))

/-- The files a run over `rels` plans, before the write policy: at each target path, the
output of the first source aimed at it. -/
def plan (tree : SourceTree) (root target : Text) : List Text → Dest
  | [] => fun _ => none
  | rel :: rels =>
    (plan tree root target rels).set (joinPath target rel) (sourceOutput tree root rel)

/-- The line the pass over `rel` prints when the target it starts from is `d`. -/
def passLine (tree : SourceTree) (root target : Text) (overwrite : Bool) (d : Dest) (rel : Text) :
    Text :=
  if acts d (joinPath target rel) overwrite then
    match patchedText rel (tree.read (joinPath root rel)) with
    | some _ => "WRITE ".toList ++ joinPath target rel
    | none => "COPY  ".toList ++ joinPath root rel ++ " -> ".toList ++ joinPath target rel
  else skipLine (joinPath target rel)

theorem not_prefix_append {p q : Text} (x : Text) (hlen : p.length ≤ q.length) (hpq : ¬ p <+: q) :
    ¬ p <+: q ++ x :=
  fun h => hpq (List.prefix_of_prefix_length_le h (List.prefix_append q x) hlen)

/-- A pass prints a `COPY` line when it copies, and a `WRITE` line when it writes a patch. -/
theorem lineKind_passLine (tree : SourceTree) (root target : Text) (overwrite : Bool) (d : Dest)
    (rel : Text) :
    decide ("COPY  ".toList <+: passLine tree root target overwrite d rel) =
        ((patchedText rel (tree.read (joinPath root rel))).isNone &&
          acts d (joinPath target rel) overwrite) ∧
      decide ("WRITE ".toList <+: passLine tree root target overwrite d rel) =
        ((patchedText rel (tree.read (joinPath root rel))).isSome &&
          acts d (joinPath target rel) overwrite) := by
  unfold passLine skipLine
  cases acts d (joinPath target rel) overwrite <;>
    cases patchedText rel (tree.read (joinPath root rel)) <;>
    simp only [List.append_assoc, Bool.false_eq_true, if_false, if_true, Option.isNone_none,
      Option.isNone_some, Option.isSome_none, Option.isSome_some, Bool.and_true, Bool.and_false,
      decide_eq_false_iff_not, decide_eq_true_eq] <;>
    exact ⟨by first | exact List.prefix_append _ _ | exact not_prefix_append _ (by decide) (by decide),
      by first | exact List.prefix_append _ _ | exact not_prefix_append _ (by decide) (by decide)⟩

/-- `_write_text` prints a `WRITE` line when it acts and a `SKIP` line otherwise. -/
theorem lineKind_writeText (b : Bool) (path : Text) :
    decide ("COPY  ".toList <+: if b then "WRITE ".toList ++ path else skipLine path) = false ∧
      decide ("WRITE ".toList <+: if b then "WRITE ".toList ++ path else skipLine path) = b := by
  unfold skipLine
  cases b <;>
    simp only [List.append_assoc, Bool.false_eq_true, if_false, if_true, decide_eq_false_iff_not,
      decide_eq_true_eq] <;>
    exact ⟨not_prefix_append _ (by decide) (by decide),
      by first | exact List.prefix_append _ _ | exact not_prefix_append _ (by decide) (by decide)⟩

/-- A checkout holding every manifest entry, with no `.java` file below the listed
directories. -/
def manifestOnlyTree : SourceTree := ⟨fun _ => true, fun _ => true, fun _ => [], fun _ => []⟩

section Loop

variable (tree : SourceTree) (root target : Text) (overwrite : Bool)

theorem migrateSource_dest (dryRun : Bool) (s : RunState) (rel : Text) :
    (migrateSource tree root target overwrite dryRun s rel).dest =
      if acts s.dest (joinPath target rel) overwrite && !dryRun then
        s.dest.set (joinPath target rel) (sourceOutput tree root rel)
      else s.dest := by
  simp only [migrateSource, sourceOutput]
  cases patchedText rel (tree.read (joinPath root rel)) <;> simp [writeText, copyFile, fileAction_eq]

theorem migrateSource_dest_of_ne (dryRun : Bool) (s : RunState) {rel p : Text}
    (hp : p ≠ joinPath target rel) :
    (migrateSource tree root target overwrite dryRun s rel).dest p = s.dest p := by
  rw [migrateSource_dest]; split_ifs <;> simp [hp]

/-- What a pass prints and counts depends on the target only at the source's target path,
and not on `dryRun`. -/
theorem migrateSource_log_congr (dry₁ dry₂ : Bool) {s₁ s₂ : RunState} {rel : Text}
    (hlog : s₁.log = s₂.log)
    (hd : s₁.dest (joinPath target rel) = s₂.dest (joinPath target rel)) :
    (migrateSource tree root target overwrite dry₁ s₁ rel).log =
      (migrateSource tree root target overwrite dry₂ s₂ rel).log := by
  simp only [RunState.log, Prod.mk.injEq, migrateSource] at hlog ⊢
  cases patchedText rel (tree.read (joinPath root rel)) <;>
    simp [writeText, copyFile, fileAction_eq, acts, hd, hlog]

theorem migrateSource_out (dryRun : Bool) (s : RunState) (rel : Text) :
    (migrateSource tree root target overwrite dryRun s rel).out =
      s.out ++ [passLine tree root target overwrite s.dest rel] := by
  simp only [migrateSource, passLine]
  cases patchedText rel (tree.read (joinPath root rel)) <;> simp [writeText, copyFile, fileAction_eq]

theorem passLine_congr {d d' : Dest} {rel : Text}
    (h : d (joinPath target rel) = d' (joinPath target rel)) :
    passLine tree root target overwrite d rel = passLine tree root target overwrite d' rel := by
  simp only [passLine, acts, h]

theorem length_filter_cons {p : Text → Bool} (r : Text) (rs : List Text) :
    ((r :: rs).filter p).length = (p r).toNat + (rs.filter p).length := by
  cases h : p r <;> simp [List.filter_cons, h, Nat.add_comm]

/-- A pass counts one copy or one write when it acts. -/
theorem migrateSource_counts (dryRun : Bool) (s : RunState) (rel : Text) :
    (migrateSource tree root target overwrite dryRun s rel).copied =
      s.copied + ((patchedText rel (tree.read (joinPath root rel))).isNone &&
        acts s.dest (joinPath target rel) overwrite).toNat ∧
    (migrateSource tree root target overwrite dryRun s rel).written =
      s.written + ((patchedText rel (tree.read (joinPath root rel))).isSome &&
        acts s.dest (joinPath target rel) overwrite).toNat := by
  simp only [migrateSource]
  cases patchedText rel (tree.read (joinPath root rel)) <;> simp [writeText, copyFile, fileAction_eq]

theorem plan_eq_none {rels : List Text} {p : Text} (hp : ∀ rel ∈ rels, p ≠ joinPath target rel) :
    plan tree root target rels p = none := by
  induction rels with
  | nil => rfl
  | cons r rs ih =>
    simp [plan, hp r (List.mem_cons_self r rs), ih fun q hq => hp q (List.mem_cons_of_mem r hq)]

theorem exists_mem_of_plan_eq_some {rels : List Text} {p c : Text}
    (h : plan tree root target rels p = some c) : ∃ rel ∈ rels, p = joinPath target rel := by
  by_contra hne
  push_neg at hne
  rw [plan_eq_none tree root target hne] at h
  cases h

theorem plan_joinPath {rels : List Text} {rel : Text} (h : rel ∈ rels) :
    plan tree root target rels (joinPath target rel) = some (sourceOutput tree root rel) := by
  induction rels with
  | nil => cases h
  | cons r rs ih =>
    simp only [plan, Dest.set_apply, joinPath_inj]
    split_ifs with hr
    · rw [hr]
    · exact ih ((List.mem_cons.1 h).resolve_left hr)

/-- The loop leaves the overlay of its plan: every source is aimed at its own path. -/
theorem migrateAll_dest (dryRun : Bool) {rels : List Text} (hnd : rels.Nodup) (s : RunState) :
    (rels.foldl (migrateSource tree root target overwrite dryRun) s).dest =
      overlay s.dest (plan tree root target rels) overwrite dryRun := by
  induction rels generalizing s with
  | nil => rfl
  | cons r rs ih =>
    obtain ⟨hr, hrs⟩ := List.nodup_cons.1 hnd
    rw [List.foldl_cons, ih hrs]
    funext p
    by_cases hp : p = joinPath target r
    · subst hp
      have hnone : plan tree root target rs (joinPath target r) = none :=
        plan_eq_none tree root target (joinPath_ne_of_not_mem hr)
      simp only [overlay, plan, Dest.set_apply, if_true, hnone, migrateSource_dest]
      split_ifs <;> simp
    · simp only [overlay, acts, plan, Dest.set_apply, if_neg hp,
        migrateSource_dest_of_ne tree root target overwrite dryRun s hp]

/-- The lines and counters of the loop do not depend on `dryRun`, nor on the target away
from the sources' target paths. -/
theorem migrateAll_log_congr (dry₁ dry₂ : Bool) {rels : List Text} (hnd : rels.Nodup)
    {s₁ s₂ : RunState} (hlog : s₁.log = s₂.log)
    (hd : ∀ r ∈ rels, s₁.dest (joinPath target r) = s₂.dest (joinPath target r)) :
    (rels.foldl (migrateSource tree root target overwrite dry₁) s₁).log =
      (rels.foldl (migrateSource tree root target overwrite dry₂) s₂).log := by
  induction rels generalizing s₁ s₂ with
  | nil => exact hlog
  | cons r rs ih =>
    obtain ⟨hr, hrs⟩ := List.nodup_cons.1 hnd
    refine ih hrs (migrateSource_log_congr tree root target overwrite dry₁ dry₂ hlog
      (hd r (List.mem_cons_self r rs))) fun q hq => ?_
    have hne : joinPath target q ≠ joinPath target r := (joinPath_ne_of_not_mem hr q hq).symm
    rw [migrateSource_dest_of_ne tree root target overwrite dry₁ s₁ hne,
      migrateSource_dest_of_ne tree root target overwrite dry₂ s₂ hne]
    exact hd q (List.mem_cons_of_mem r hq)

/-- The loop prints one line per source, in order, each fixed by the target it started from. -/
theorem migrateAll_out (dryRun : Bool) {rels : List Text} (hnd : rels.Nodup) (s : RunState) :
    (rels.foldl (migrateSource tree root target overwrite dryRun) s).out =
      s.out ++ rels.map (passLine tree root target overwrite s.dest) := by
  induction rels generalizing s with
  | nil => simp
  | cons r rs ih =>
    obtain ⟨hr, hrs⟩ := List.nodup_cons.1 hnd
    rw [List.foldl_cons, ih hrs, migrateSource_out, List.map_cons, List.append_assoc,
      List.singleton_append]
    congr 2
    refine List.map_congr_left fun q hq => passLine_congr tree root target overwrite ?_
    exact migrateSource_dest_of_ne tree root target overwrite dryRun s
      (joinPath_ne_of_not_mem hr q hq).symm

/-- The loop prints one line per source, and its counters count the copies and the writes
it makes. -/
theorem migrateAll_counts (dryRun : Bool) {rels : List Text} (hnd : rels.Nodup) (s : RunState) :
    (rels.foldl (migrateSource tree root target overwrite dryRun) s).out.length =
      s.out.length + rels.length ∧
    (rels.foldl (migrateSource tree root target overwrite dryRun) s).copied = s.copied +
      (rels.filter fun r => (patchedText r (tree.read (joinPath root r))).isNone &&
        acts s.dest (joinPath target r) overwrite).length ∧
    (rels.foldl (migrateSource tree root target overwrite dryRun) s).written = s.written +
      (rels.filter fun r => (patchedText r (tree.read (joinPath root r))).isSome &&
        acts s.dest (joinPath target r) overwrite).length := by
  refine ⟨by rw [migrateAll_out tree root target overwrite dryRun hnd, List.length_append,
    List.length_map], ?_⟩
  induction rels generalizing s with
  | nil => simp
  | cons r rs ih =>
    obtain ⟨hr, hrs⟩ := List.nodup_cons.1 hnd
    obtain ⟨h2, h3⟩ := migrateSource_counts tree root target overwrite dryRun s r
    have hfilt : ∀ b : Option Text → Bool,
        rs.filter (fun q => b (patchedText q (tree.read (joinPath root q))) &&
          acts (migrateSource tree root target overwrite dryRun s r).dest (joinPath target q)
            overwrite) =
        rs.filter (fun q => b (patchedText q (tree.read (joinPath root q))) &&
          acts s.dest (joinPath target q) overwrite) := fun b => List.filter_congr fun q hq => by
      rw [acts, acts, migrateSource_dest_of_ne tree root target overwrite dryRun s
        (joinPath_ne_of_not_mem hr q hq).symm]
    obtain ⟨i2, i3⟩ := ih hrs (migrateSource tree root target overwrite dryRun s r)
    rw [List.foldl_cons, i2, i3, h2, h3, hfilt Option.isNone, hfilt Option.isSome,
      length_filter_cons, length_filter_cons]
    exact ⟨by omega, by omega⟩

/-- The plan depends on which sources there are, not on their order. -/
theorem plan_perm {rels rels' : List Text} (hp : rels.Perm rels') :
    plan tree root target rels = plan tree root target rels' := by
  funext p
  by_cases h : ∃ rel ∈ rels, p = joinPath target rel
  · obtain ⟨rel, hrel, rfl⟩ := h
    rw [plan_joinPath tree root target hrel, plan_joinPath tree root target (hp.subset hrel)]
  · push_neg at h
    rw [plan_eq_none tree root target h,
      plan_eq_none tree root target fun q hq => h q (hp.symm.subset hq)]

/-- The loop does not depend on the order of the sources: any reordering leaves the same
target and the same counters, and prints each source's line, fixed by the target the loop
started from, in the new order. -/
theorem migrateAll_perm (dryRun : Bool) {rels rels' : List Text} (hp : rels.Perm rels')
    (hnd : rels.Nodup) (s : RunState) :
    (rels.foldl (migrateSource tree root target overwrite dryRun) s).dest =
        (rels'.foldl (migrateSource tree root target overwrite dryRun) s).dest ∧
      (rels.foldl (migrateSource tree root target overwrite dryRun) s).copied =
        (rels'.foldl (migrateSource tree root target overwrite dryRun) s).copied ∧
      (rels.foldl (migrateSource tree root target overwrite dryRun) s).written =
        (rels'.foldl (migrateSource tree root target overwrite dryRun) s).written ∧
      (rels'.foldl (migrateSource tree root target overwrite dryRun) s).out =
        s.out ++ rels'.map (passLine tree root target overwrite s.dest) := by
  have hnd' := hp.nodup_iff.1 hnd
  obtain ⟨-, hc, hw⟩ := migrateAll_counts tree root target overwrite dryRun hnd s
  obtain ⟨-, hc', hw'⟩ := migrateAll_counts tree root target overwrite dryRun hnd' s
  refine ⟨?_, by rw [hc, hc', (hp.filter _).length_eq], by rw [hw, hw', (hp.filter _).length_eq], ?_⟩
  · rw [migrateAll_dest tree root target overwrite dryRun hnd,
      migrateAll_dest tree root target overwrite dryRun hnd', plan_perm tree root target hp]
  · exact migrateAll_out tree root target overwrite dryRun hnd' s

theorem migrateAll_perm_sample :
    ["a".toList, "b".toList].Perm ["b".toList, "a".toList] ∧ ["a".toList, "b".toList].Nodup ∧
    (["a".toList, "b".toList].foldl (migrateSource manifestOnlyTree "/r".toList "/t".toList false false)
          ⟨fun _ => none, [], 0, 0⟩).dest =
        (["b".toList, "a".toList].foldl (migrateSource manifestOnlyTree "/r".toList "/t".toList false false)
          ⟨fun _ => none, [], 0, 0⟩).dest ∧
      (["a".toList, "b".toList].foldl (migrateSource manifestOnlyTree "/r".toList "/t".toList false false)
          ⟨fun _ => none, [], 0, 0⟩).copied =
        (["b".toList, "a".toList].foldl (migrateSource manifestOnlyTree "/r".toList "/t".toList false false)
          ⟨fun _ => none, [], 0, 0⟩).copied ∧
      (["a".toList, "b".toList].foldl (migrateSource manifestOnlyTree "/r".toList "/t".toList false false)
          ⟨fun _ => none, [], 0, 0⟩).written =
        (["b".toList, "a".toList].foldl (migrateSource manifestOnlyTree "/r".toList "/t".toList false false)
          ⟨fun _ => none, [], 0, 0⟩).written ∧
      (["b".toList, "a".toList].foldl (migrateSource manifestOnlyTree "/r".toList "/t".toList false false)
          ⟨fun _ => none, [], 0, 0⟩).out =
        ["b".toList, "a".toList].map
          (passLine manifestOnlyTree "/r".toList "/t".toList false fun _ => none) :=
  have hp : ["a".toList, "b".toList].Perm ["b".toList, "a".toList] := List.Perm.swap _ _ []
  have hnd : ["a".toList, "b".toList].Nodup := by decide
  ⟨hp, hnd, migrateAll_perm manifestOnlyTree "/r".toList "/t".toList false false hp hnd _⟩

/-- A source whose target file exists, without `--overwrite`, gets a skip line. -/
theorem skipLine_mem_migrateAll (dryRun : Bool) {rels : List Text} (hnd : rels.Nodup)
    {rel : Text} (hrel : rel ∈ rels) {s : RunState}
    (h : acts s.dest (joinPath target rel) overwrite = false) :
    skipLine (joinPath target rel) ∈
      (rels.foldl (migrateSource tree root target overwrite dryRun) s).out := by
  rw [migrateAll_out tree root target overwrite dryRun hnd]
  refine List.mem_append_right _ (List.mem_map.2 ⟨rel, hrel, ?_⟩)
  simp [passLine, h]

end Loop

/-- The parsed command line; `target` is `Path(args.target).expanduser().resolve()`. -/
structure Args where
  target : Text
  overwrite : Bool
  dryRun : Bool

def tfiPath : Text := "src/main/java/com/syy/taskflowinsight/api/TFI.java".toList

/-- The lines `main` prints after the last file. -/
def summaryLines (copied written : Nat) (target : Text) : List Text :=
  [[], "Done. copied=".toList ++ (toString copied).toList ++ ", written=".toList ++
      (toString written).toList,
    "Target: ".toList ++ target, [], "Notes:".toList,
    "- This is Flow-only; compare/change-tracking packages are intentionally not copied.".toList,
    ("- Ensure your target project has dependencies for: slf4j, lombok (if enabled), " ++
      "jackson-annotations.").toList]

/-- What a run leaves: the target, the lines printed, and the message of a `SystemExit`. -/
structure Outcome where
  dest : Dest
  out : List Text
  error : Option Text

/-- `main`, started in a directory whose chain `[cwd, *cwd.parents]` is `cwdChain`;
`facade` is the text `_generate_flow_only_tfi` returns. -/
def main (tree : SourceTree) (cwdChain : List Text) (facade : Text) (args : Args) (d : Dest) :
    Outcome :=
  match findRepoRoot tree cwdChain with
  | .error msg => ⟨d, [], some msg⟩
  | .ok root =>
    match collectSources tree root with
    | .error msg => ⟨d, [], some msg⟩
    | .ok sources =>
      let s := sources.foldl (migrateSource tree root args.target args.overwrite args.dryRun)
        ⟨d, [], 0, 0⟩
      let r := writeText s.dest (joinPath args.target tfiPath) facade args.overwrite args.dryRun
      ⟨r.1, s.out ++ [r.2.1] ++ summaryLines s.copied (s.written + r.2.2.toNat) args.target,
        none⟩

/-- `_find_repo_root` exits exactly when no directory of the chain holds the source tree. -/
theorem findRepoRoot_eq_error_iff {tree : SourceTree} {cs : List Text} {msg : Text} :
    findRepoRoot tree cs = .error msg ↔
      (∀ c ∈ cs, tree.isDir (joinPath c repoMarker) = false) ∧ msg = repoRootError := by
  induction cs with
  | nil => simpa [findRepoRoot] using eq_comm
  | cons c cs ih =>
    by_cases hc : tree.isDir (joinPath c repoMarker) = true
    · simp [findRepoRoot, hc]
    · simp [findRepoRoot, hc, ih]

theorem findRepoRoot_eq_error {tree : SourceTree} {cs : List Text} {msg : Text}
    (h : findRepoRoot tree cs = .error msg) : msg = repoRootError :=
  (findRepoRoot_eq_error_iff.1 h).2

/-- `_find_repo_root` returns the nearest directory of the chain holding the source tree. -/
theorem findRepoRoot_eq_ok_iff {tree : SourceTree} {cs : List Text} {root : Text} :
    findRepoRoot tree cs = .ok root ↔
      ∃ pre post, cs = pre ++ root :: post ∧
        (∀ c ∈ pre, tree.isDir (joinPath c repoMarker) = false) ∧
        tree.isDir (joinPath root repoMarker) = true := by
  induction cs with
  | nil => simp [findRepoRoot]
  | cons c cs ih =>
    by_cases hc : tree.isDir (joinPath c repoMarker) = true
    · rw [findRepoRoot, if_pos hc, Except.ok.injEq]
      constructor
      · rintro rfl
        exact ⟨[], cs, rfl, by simp, hc⟩
      · rintro ⟨_ | ⟨x, pre⟩, post, hcs, hpre, -⟩
        · exact (List.cons.inj hcs).1
        · obtain ⟨rfl, -⟩ := List.cons.inj hcs
          simp [hc] at hpre
    · rw [findRepoRoot, if_neg hc, ih]
      constructor
      · rintro ⟨pre, post, rfl, hpre, hroot⟩
        refine ⟨c :: pre, post, rfl, fun y hy => ?_, hroot⟩
        rcases List.mem_cons.1 hy with rfl | hy
        · simpa using hc
        · exact hpre y hy
      · rintro ⟨_ | ⟨x, pre⟩, post, hcs, hpre, hroot⟩
        · obtain ⟨rfl, -⟩ := List.cons.inj hcs
          exact absurd hroot hc
        · obtain ⟨rfl, rfl⟩ := List.cons.inj hcs
          exact ⟨pre, post, rfl, fun y hy => hpre y (List.mem_cons_of_mem _ hy), hroot⟩

/-- No manifest directory ends with `/` or lies on the way to the facade's path, and the
facade is no listed file. -/
theorem manifest_avoids_tfiPath :
    (∀ d ∈ includeDirs, ¬ ['/'] <:+ d ∧ ¬ (d ++ ['/']) <+: tfiPath) ∧ tfiPath ∉ includeFiles := by
  decide

/-- A source of the manifest is a listed file or a `.java` file below a listed directory. -/
theorem mem_collectSources {tree : SourceTree} {root : Text} {sources : List Text}
    (h : collectSources tree root = .ok sources) {rel : Text} (hrel : rel ∈ sources) :
    rel ∈ includeFiles ∨
      ∃ dir ∈ includeDirs, ∃ f ∈ tree.javaFiles (joinPath root dir), rel = joinPath dir f := by
  obtain ⟨-, -, rfl⟩ := collectSources_eq_ok.1 h
  rcases List.mem_append.1 (mem_uniquePathsFrom.1 hrel).1 with hm | hm
  · obtain ⟨dir, hdir, hm⟩ := List.mem_flatMap.1 hm
    obtain ⟨f, hf, rfl⟩ := List.mem_map.1 hm
    exact .inr ⟨dir, hdir, f, hf, rfl⟩
  · exact .inl hm

/-- The sources of a run are listed once each, and the facade's path is none of them. -/
theorem collectSources_ok_facts {tree : SourceTree} {root : Text} {sources : List Text}
    (h : collectSources tree root = .ok sources) : sources.Nodup ∧ tfiPath ∉ sources := by
  refine ⟨by obtain ⟨-, -, rfl⟩ := collectSources_eq_ok.1 h; exact uniquePathsFrom_nodup [] _,
    fun hm => ?_⟩
  obtain ⟨hdirs, hfiles⟩ := manifest_avoids_tfiPath
  rcases mem_collectSources h hm with hm | ⟨d, hd, f, -, hf⟩
  · exact hfiles hm
  · rw [joinPath, if_neg (hdirs d hd).1] at hf
    exact (hdirs d hd).2 ⟨f, by rw [hf, List.append_assoc]; rfl⟩

/-- A run either stops before touching anything, or gets a root and a manifest. -/
theorem main_cases (tree : SourceTree) (cwdChain : List Text) (facade : Text) (args : Args)
    (d : Dest) :
    ((main tree cwdChain facade args d).dest = d ∧ (main tree cwdChain facade args d).out = [] ∧
      ∃ msg, (main tree cwdChain facade args d).error = some msg ∧
        (findRepoRoot tree cwdChain = .error msg ∨
          ∃ root, findRepoRoot tree cwdChain = .ok root ∧ collectSources tree root = .error msg)) ∨
    ∃ root sources, findRepoRoot tree cwdChain = .ok root ∧
      collectSources tree root = .ok sources ∧ (main tree cwdChain facade args d).error = none := by
  unfold main
  split
  · exact .inl ⟨rfl, rfl, _, rfl, .inl ‹_›⟩
  · rename_i root hroot
    split
    · exact .inl ⟨rfl, rfl, _, rfl, .inr ⟨root, hroot, ‹_›⟩⟩
    · exact .inr ⟨root, _, hroot, ‹_›, rfl⟩

/-- A run gets past its start-up checks exactly when some directory of the chain holds the
source tree and the nearest such directory holds every manifest entry: an outer checkout is
never tried. -/
theorem main_error_eq_none_iff (tree : SourceTree) (cwdChain : List Text) (facade : Text)
    (args : Args) (d : Dest) :
    (main tree cwdChain facade args d).error = none ↔
      ∃ pre root post, cwdChain = pre ++ root :: post ∧
        (∀ c ∈ pre, tree.isDir (joinPath c repoMarker) = false) ∧
        tree.isDir (joinPath root repoMarker) = true ∧
        (∀ dir ∈ includeDirs, tree.isDir (joinPath root dir) = true) ∧
        (∀ f ∈ includeFiles, tree.isFile (joinPath root f) = true) := by
  constructor
  · intro h
    rcases main_cases tree cwdChain facade args d with ⟨-, -, msg, herr, -⟩ |
      ⟨root, sources, hroot, hsrc, -⟩
    · rw [herr] at h
      cases h
    · obtain ⟨pre, post, hcs, hpre, hr⟩ := findRepoRoot_eq_ok_iff.1 hroot
      obtain ⟨hdirs, hfiles, -⟩ := collectSources_eq_ok.1 hsrc
      exact ⟨pre, root, post, hcs, hpre, hr, hdirs, hfiles⟩
  · rintro ⟨pre, root, post, hcs, hpre, hr, hdirs, hfiles⟩
    have hroot := findRepoRoot_eq_ok_iff.2 ⟨pre, post, hcs, hpre, hr⟩
    have hsrc := collectSources_eq_ok.2 ⟨hdirs, hfiles, rfl⟩
    simp [main, hroot, hsrc]

/-- A run stops with `msg` exactly when the root search or the manifest check reports it. -/
theorem main_error_eq_some {tree : SourceTree} {cwdChain : List Text} {facade : Text} {args : Args}
    {d : Dest} {msg : Text} :
    (main tree cwdChain facade args d).error = some msg ↔
      findRepoRoot tree cwdChain = .error msg ∨
        ∃ root, findRepoRoot tree cwdChain = .ok root ∧ collectSources tree root = .error msg := by
  unfold main
  split <;> rename_i hroot
  · simp [hroot]
  · split <;> rename_i hsrc <;> simp [hroot, hsrc]

/-- A run's exit message names the check that failed and the first entry it failed on: the
repository-root message exactly when no directory of the chain holds the source tree;
otherwise, at the nearest directory that does, the first listed directory missing there, or,
when every listed directory is present, the first listed file missing there. -/
theorem main_error_eq_some_iff (tree : SourceTree) (cwdChain : List Text) (facade : Text)
    (args : Args) (d : Dest) (msg : Text) :
    (main tree cwdChain facade args d).error = some msg ↔
      ((∀ c ∈ cwdChain, tree.isDir (joinPath c repoMarker) = false) ∧ msg = repoRootError) ∨
      ∃ pre root post, cwdChain = pre ++ root :: post ∧
        (∀ c ∈ pre, tree.isDir (joinPath c repoMarker) = false) ∧
        tree.isDir (joinPath root repoMarker) = true ∧
        ((∃ dpre e dpost, includeDirs = dpre ++ e :: dpost ∧
            (∀ x ∈ dpre, tree.isDir (joinPath root x)) ∧ tree.isDir (joinPath root e) = false ∧
            msg = missingDirError e) ∨
          ((∀ x ∈ includeDirs, tree.isDir (joinPath root x)) ∧
            ∃ fpre f fpost, includeFiles = fpre ++ f :: fpost ∧
              (∀ x ∈ fpre, tree.isFile (joinPath root x)) ∧ tree.isFile (joinPath root f) = false ∧
              msg = missingFileError f)) := by
  rw [main_error_eq_some, findRepoRoot_eq_error_iff]
  refine or_congr_right ⟨fun ⟨root, hroot, hsrc⟩ => ?_, fun ⟨pre, root, post, hcs, hpre, hr, hsrc⟩ => ?_⟩
  · obtain ⟨pre, post, hcs, hpre, hr⟩ := findRepoRoot_eq_ok_iff.1 hroot
    exact ⟨pre, root, post, hcs, hpre, hr, (collectSources_eq_error tree root msg).1 hsrc⟩
  · exact ⟨root, findRepoRoot_eq_ok_iff.2 ⟨pre, post, hcs, hpre, hr⟩,
      (collectSources_eq_error tree root msg).2 hsrc⟩

/-- After a successful run the target is the overlay of the planned files: each source's
output at its target path, and the facade at `TFI.java`. -/
theorem main_dest (tree : SourceTree) (cwdChain : List Text) (facade : Text) (args : Args)
    (d : Dest) {root : Text} {sources : List Text}
    (hroot : findRepoRoot tree cwdChain = .ok root) (hsrc : collectSources tree root = .ok sources) :
    (main tree cwdChain facade args d).dest =
      overlay d ((plan tree root args.target sources).set (joinPath args.target tfiPath) facade)
        args.overwrite args.dryRun := by
  obtain ⟨hnd, htfi⟩ := collectSources_ok_facts hsrc
  simp only [main, hroot, hsrc, writeText, fileAction_eq]
  rw [migrateAll_dest tree root args.target args.overwrite args.dryRun hnd]
  exact overlay_then_write (plan_eq_none tree root args.target (joinPath_ne_of_not_mem htfi))

/-- At a source's target path a successful run leaves the source's output, or the file that
was there. -/
theorem main_dest_source (tree : SourceTree) (cwdChain : List Text) (facade : Text) (args : Args)
    (d : Dest) {root : Text} {sources : List Text}
    (hroot : findRepoRoot tree cwdChain = .ok root) (hsrc : collectSources tree root = .ok sources)
    {rel : Text} (hrel : rel ∈ sources) :
    (main tree cwdChain facade args d).dest (joinPath args.target rel) =
      if acts d (joinPath args.target rel) args.overwrite && !args.dryRun then
        some (sourceOutput tree root rel)
      else d (joinPath args.target rel) := by
  obtain ⟨-, htfi⟩ := collectSources_ok_facts hsrc
  rw [main_dest tree cwdChain facade args d hroot hsrc]
  simp [overlay, (joinPath_ne_of_not_mem htfi rel hrel).symm, plan_joinPath tree root args.target hrel]

/-- The loop leaves the facade's path as it was. -/
theorem migrateAll_dest_tfiPath {tree : SourceTree} {root : Text} {sources : List Text}
    (hsrc : collectSources tree root = .ok sources) (target : Text) (overwrite dryRun : Bool)
    (s : RunState) :
    (sources.foldl (migrateSource tree root target overwrite dryRun) s).dest
      (joinPath target tfiPath) = s.dest (joinPath target tfiPath) := by
  obtain ⟨hnd, htfi⟩ := collectSources_ok_facts hsrc
  rw [migrateAll_dest tree root target overwrite dryRun hnd, overlay,
    plan_eq_none tree root target (joinPath_ne_of_not_mem htfi)]

/-- A directory chain with no checkout in it. -/
def emptyTree : SourceTree := ⟨fun _ => false, fun _ => false, fun _ => [], fun _ => []⟩

/-- A successful run prints one line per source and one for the facade, then the summary,
whose counts are the copies and the writes the run made. -/
theorem main_out_summary (tree : SourceTree) (cwdChain : List Text) (facade : Text) (args : Args)
    (d : Dest) {root : Text} {sources : List Text}
    (hroot : findRepoRoot tree cwdChain = .ok root) (hsrc : collectSources tree root = .ok sources) :
    ∃ lines, (main tree cwdChain facade args d).out = lines ++ summaryLines
        (sources.filter fun r => (patchedText r (tree.read (joinPath root r))).isNone &&
          acts d (joinPath args.target r) args.overwrite).length
        ((sources.filter fun r => (patchedText r (tree.read (joinPath root r))).isSome &&
          acts d (joinPath args.target r) args.overwrite).length +
          (acts d (joinPath args.target tfiPath) args.overwrite).toNat)
        args.target ∧
      lines.length = sources.length + 1 := by
  obtain ⟨h1, h2, h3⟩ := migrateAll_counts tree root args.target args.overwrite args.dryRun
    (collectSources_ok_facts hsrc).1 ⟨d, [], 0, 0⟩
  simp only [main, hroot, hsrc, writeText, fileAction_eq, acts, migrateAll_dest_tfiPath hsrc, h2,
    h3, Nat.zero_add]
  exact ⟨_, rfl, by simp [h1]⟩

theorem main_out_summary_sample :
    ∃ lines, (main manifestOnlyTree ["/r".toList] [] ⟨"/t".toList, false, false⟩ fun _ => none).out =
      lines ++ summaryLines
        (includeFiles.filter fun r =>
          (patchedText r (manifestOnlyTree.read (joinPath "/r".toList r))).isNone &&
            acts (fun _ => none) (joinPath "/t".toList r) false).length
        ((includeFiles.filter fun r =>
          (patchedText r (manifestOnlyTree.read (joinPath "/r".toList r))).isSome &&
            acts (fun _ => none) (joinPath "/t".toList r) false).length +
          (acts (fun _ => none) (joinPath "/t".toList tfiPath) false).toNat)
        "/t".toList ∧
      lines.length = includeFiles.length + 1 :=
  main_out_summary manifestOnlyTree ["/r".toList] [] ⟨"/t".toList, false, false⟩ _ rfl rfl

/-- A successful run first prints one line per source, in manifest order, and then the
facade's line; each is fixed by the target the run started from. -/
theorem main_out_lines (tree : SourceTree) (cwdChain : List Text) (facade : Text) (args : Args)
    (d : Dest) {root : Text} {sources : List Text}
    (hroot : findRepoRoot tree cwdChain = .ok root) (hsrc : collectSources tree root = .ok sources) :
    ∃ rest, (main tree cwdChain facade args d).out =
      sources.map (passLine tree root args.target args.overwrite d) ++
        (if acts d (joinPath args.target tfiPath) args.overwrite then
          "WRITE ".toList ++ joinPath args.target tfiPath
        else skipLine (joinPath args.target tfiPath)) :: rest := by
  simp only [main, hroot, hsrc, writeText, fileAction_eq, acts, migrateAll_dest_tfiPath hsrc,
    migrateAll_out tree root args.target args.overwrite args.dryRun (collectSources_ok_facts hsrc).1]
  exact ⟨_, by rw [List.nil_append, List.append_assoc, List.singleton_append]⟩

theorem main_out_lines_sample :
    ∃ rest, (main manifestOnlyTree ["/r".toList] [] ⟨"/t".toList, false, false⟩ fun _ => none).out =
      includeFiles.map (passLine manifestOnlyTree "/r".toList "/t".toList false fun _ => none) ++
        (if acts (fun _ => none) (joinPath "/t".toList tfiPath) false then
          "WRITE ".toList ++ joinPath "/t".toList tfiPath
        else skipLine (joinPath "/t".toList tfiPath)) :: rest := by
  have h := main_out_lines manifestOnlyTree ["/r".toList] [] ⟨"/t".toList, false, false⟩
    (fun _ => none) rfl rfl
  rwa [show (⟨"/t".toList, false, false⟩ : Args).target = "/t".toList from rfl,
    show (⟨"/t".toList, false, false⟩ : Args).overwrite = false from rfl] at h

/-- The summary agrees with the log: the `copied` it prints is the number of `COPY` lines
above it, and `written` the number of `WRITE` lines. -/
theorem main_summary_matches_log (tree : SourceTree) (cwdChain : List Text) (facade : Text)
    (args : Args) (d : Dest) {root : Text} {sources : List Text}
    (hroot : findRepoRoot tree cwdChain = .ok root) (hsrc : collectSources tree root = .ok sources) :
    ∃ lines copied written, (main tree cwdChain facade args d).out =
        lines ++ summaryLines copied written args.target ∧
      copied = (lines.filter fun l => decide ("COPY  ".toList <+: l)).length ∧
      written = (lines.filter fun l => decide ("WRITE ".toList <+: l)).length := by
  obtain ⟨hnd, -⟩ := collectSources_ok_facts hsrc
  obtain ⟨-, h2, h3⟩ := migrateAll_counts tree root args.target args.overwrite args.dryRun hnd
    ⟨d, [], 0, 0⟩
  have hfacade := lineKind_writeText (acts d (joinPath args.target tfiPath) args.overwrite)
    (joinPath args.target tfiPath)
  set lines := sources.map (passLine tree root args.target args.overwrite d) ++
      [if acts d (joinPath args.target tfiPath) args.overwrite then
        "WRITE ".toList ++ joinPath args.target tfiPath else skipLine (joinPath args.target tfiPath)]
  have hc : (lines.filter fun l => decide ("COPY  ".toList <+: l)).length =
      (sources.filter fun r => (patchedText r (tree.read (joinPath root r))).isNone &&
        acts d (joinPath args.target r) args.overwrite).length := by
    simp only [lines, List.filter_append, List.filter_map, List.length_append, List.length_map,
      List.filter_singleton, hfacade.1, Function.comp_def, lineKind_passLine]
    rfl
  have hw : (lines.filter fun l => decide ("WRITE ".toList <+: l)).length =
      (sources.filter fun r => (patchedText r (tree.read (joinPath root r))).isSome &&
        acts d (joinPath args.target r) args.overwrite).length +
        (acts d (joinPath args.target tfiPath) args.overwrite).toNat := by
    simp only [lines, List.filter_append, List.filter_map, List.length_append, List.length_map,
      List.filter_singleton, hfacade.2, Function.comp_def, lineKind_passLine]
    cases acts d (joinPath args.target tfiPath) args.overwrite <;> rfl
  refine ⟨lines, _, _, ?_, rfl, rfl⟩
  rw [hc, hw]
  simp only [main, hroot, hsrc, writeText, fileAction_eq, acts, migrateAll_dest_tfiPath hsrc,
    migrateAll_out tree root args.target args.overwrite args.dryRun hnd, h2, h3, Nat.zero_add]
  simp [lines, acts]

theorem main_summary_matches_log_sample :
    ∃ lines copied written,
      (main manifestOnlyTree ["/r".toList] [] ⟨"/t".toList, false, false⟩ fun _ => none).out =
        lines ++ summaryLines copied written "/t".toList ∧
      copied = (lines.filter fun l => decide ("COPY  ".toList <+: l)).length ∧
      written = (lines.filter fun l => decide ("WRITE ".toList <+: l)).length := by
  have h := main_summary_matches_log manifestOnlyTree ["/r".toList] [] ⟨"/t".toList, false, false⟩
    (fun _ => none) rfl rfl
  rwa [show (⟨"/t".toList, false, false⟩ : Args).target = "/t".toList from rfl] at h

/-- A run without `--overwrite` leaves every existing target file as it was, and prints a
skip line for each one it would have written. -/
theorem main_keeps_existing_file (tree : SourceTree) (cwdChain : List Text) (facade : Text)
    (args : Args) (d : Dest) {p c : Text} (hov : args.overwrite = false) (hp : d p = some c) :
    (main tree cwdChain facade args d).dest p = some c ∧
      ∀ root sources, findRepoRoot tree cwdChain = .ok root →
        collectSources tree root = .ok sources →
        (p = joinPath args.target tfiPath ∨ ∃ rel ∈ sources, p = joinPath args.target rel) →
        skipLine p ∈ (main tree cwdChain facade args d).out := by
  have hacts : acts d p args.overwrite = false := by simp [acts, hp, hov]
  refine ⟨?_, fun root sources hroot hsrc hpath => ?_⟩
  · rcases main_cases tree cwdChain facade args d with ⟨hd, -⟩ | ⟨root, sources, hroot, hsrc, -⟩
    · rw [hd, hp]
    · rw [main_dest tree cwdChain facade args d hroot hsrc, overlay_of_not_acts _ hacts, hp]
  · simp only [main, hroot, hsrc, writeText, fileAction_eq]
    rcases hpath with rfl | ⟨rel, hrel, rfl⟩
    · simp [acts, migrateAll_dest_tfiPath hsrc, hp, hov]
    · exact List.mem_append_left _ (List.mem_append_left _ (skipLine_mem_migrateAll tree root
        args.target args.overwrite args.dryRun (collectSources_ok_facts hsrc).1 hrel hacts))

theorem main_keeps_existing_file_sample :
    (main manifestOnlyTree ["/r".toList] [] ⟨"/t".toList, false, false⟩ fun _ => some []).dest
        (joinPath "/t".toList tfiPath) = some [] ∧
      skipLine (joinPath "/t".toList tfiPath) ∈
        (main manifestOnlyTree ["/r".toList] [] ⟨"/t".toList, false, false⟩ fun _ => some []).out := by
  obtain ⟨hkeep, hskip⟩ := main_keeps_existing_file manifestOnlyTree ["/r".toList] []
    ⟨"/t".toList, false, false⟩ (fun _ => some []) rfl
    (rfl : ((fun _ => some []) : Dest) (joinPath "/t".toList tfiPath) = some [])
  exact ⟨hkeep, hskip _ _ (rfl : findRepoRoot manifestOnlyTree ["/r".toList] = .ok "/r".toList)
    (rfl : collectSources manifestOnlyTree "/r".toList = .ok includeFiles) (.inl rfl)⟩

/-- A dry run leaves the target as it was. -/
theorem main_dryRun_keeps_target (tree : SourceTree) (cwdChain : List Text) (facade : Text)
    (args : Args) (d : Dest) (hdry : args.dryRun = true) :
    (main tree cwdChain facade args d).dest = d := by
  rcases main_cases tree cwdChain facade args d with ⟨hd, -⟩ | ⟨root, sources, hroot, hsrc, -⟩
  · exact hd
  · rw [main_dest tree cwdChain facade args d hroot hsrc, hdry, overlay_dryRun]

/-- A run changes files only below the six listed directories, at the seven listed files and
at the facade `api/TFI.java`, all under the target: nothing else of the checkout, such as
the compare or change-tracking packages, is ever written. -/
theorem main_changes_only_manifest (tree : SourceTree) (cwdChain : List Text) (facade : Text)
    (args : Args) (d : Dest) {p : Text} (hp : (main tree cwdChain facade args d).dest p ≠ d p) :
    ∃ rel, p = joinPath args.target rel ∧
      (rel = tfiPath ∨ rel ∈ includeFiles ∨ ∃ dir ∈ includeDirs, ∃ f, rel = joinPath dir f) := by
  rcases main_cases tree cwdChain facade args d with ⟨hd, -⟩ | ⟨root, sources, hroot, hsrc, -⟩
  · exact absurd (congrFun hd p) hp
  · rw [main_dest tree cwdChain facade args d hroot hsrc] at hp
    obtain ⟨c, hc⟩ := exists_plan_of_overlay_ne hp
    rw [Dest.set_apply] at hc
    split_ifs at hc with htfi
    · exact ⟨tfiPath, htfi, .inl rfl⟩
    · obtain ⟨rel, hrel, rfl⟩ := exists_mem_of_plan_eq_some tree root args.target hc
      rcases mem_collectSources hsrc hrel with h | ⟨dir, hdir, f, -, rfl⟩
      · exact ⟨rel, rfl, .inr (.inl h)⟩
      · exact ⟨_, rfl, .inr (.inr ⟨dir, hdir, f, rfl⟩)⟩

theorem main_changes_only_manifest_sample :
    (main manifestOnlyTree ["/r".toList] [] ⟨"/t".toList, false, false⟩ fun _ => none).dest
        (joinPath "/t".toList tfiPath) ≠ none ∧
    ∃ rel, joinPath "/t".toList tfiPath = joinPath (⟨"/t".toList, false, false⟩ : Args).target rel ∧
      (rel = tfiPath ∨ rel ∈ includeFiles ∨ ∃ dir ∈ includeDirs, ∃ f, rel = joinPath dir f) :=
  have hp : (main manifestOnlyTree ["/r".toList] [] ⟨"/t".toList, false, false⟩ fun _ => none).dest
      (joinPath "/t".toList tfiPath) ≠ none := by
    rw [main_dest manifestOnlyTree ["/r".toList] [] _ _
      (rfl : findRepoRoot manifestOnlyTree ["/r".toList] = .ok "/r".toList)
      (rfl : collectSources manifestOnlyTree "/r".toList = .ok includeFiles)]
    decide
  ⟨hp, main_changes_only_manifest manifestOnlyTree ["/r".toList] [] ⟨"/t".toList, false, false⟩
    (fun _ => none) hp⟩

theorem main_dryRun_keeps_target_sample :
    (⟨"/t".toList, false, true⟩ : Args).dryRun = true ∧
    (main manifestOnlyTree ["/r".toList] [] ⟨"/t".toList, false, true⟩ fun _ => none).dest =
      fun _ => none :=
  ⟨rfl, main_dryRun_keeps_target manifestOnlyTree _ _ _ _ rfl⟩

/-- A dry run prints exactly the lines of the real run, the counts of the summary included. -/
theorem main_dryRun_out (tree : SourceTree) (cwdChain : List Text) (facade target : Text)
    (overwrite : Bool) (d : Dest) :
    (main tree cwdChain facade ⟨target, overwrite, true⟩ d).out =
      (main tree cwdChain facade ⟨target, overwrite, false⟩ d).out := by
  cases hroot : findRepoRoot tree cwdChain with
  | error msg => simp [main, hroot]
  | ok root =>
    cases hsrc : collectSources tree root with
    | error msg => simp [main, hroot, hsrc]
    | ok sources =>
      have hlog := migrateAll_log_congr tree root target overwrite true false
        (collectSources_ok_facts hsrc).1
        (rfl : (⟨d, [], 0, 0⟩ : RunState).log = (⟨d, [], 0, 0⟩ : RunState).log) fun _ _ => rfl
      simp only [RunState.log, Prod.mk.injEq] at hlog
      simp only [main, hroot, hsrc, writeText, fileAction_eq, acts, hlog, migrateAll_dest_tfiPath hsrc]

/-- A real run puts each source's output at its target path, and the facade at `TFI.java`,
wherever the write policy lets it write. -/
theorem main_writes_planned (tree : SourceTree) (cwdChain : List Text) (facade : Text)
    (args : Args) (d : Dest) {root : Text} {sources : List Text}
    (hroot : findRepoRoot tree cwdChain = .ok root) (hsrc : collectSources tree root = .ok sources)
    (hdry : args.dryRun = false) :
    (∀ rel ∈ sources, acts d (joinPath args.target rel) args.overwrite = true →
      (main tree cwdChain facade args d).dest (joinPath args.target rel) =
        some (sourceOutput tree root rel)) ∧
    (acts d (joinPath args.target tfiPath) args.overwrite = true →
      (main tree cwdChain facade args d).dest (joinPath args.target tfiPath) = some facade) := by
  refine ⟨fun rel hrel h => ?_, fun h => ?_⟩
  · rw [main_dest_source tree cwdChain facade args d hroot hsrc hrel, h, hdry]
    rfl
  · rw [main_dest tree cwdChain facade args d hroot hsrc, hdry]
    exact overlay_of_acts h (by simp)

/-- A checkout holding every manifest entry, with one file `SafeContextManager.java`, which
declares `configureFromTfiConfig`, below each listed directory. -/
def safeContextTree : SourceTree :=
  ⟨fun _ => true, fun _ => true, fun _ => ["SafeContextManager.java".toList],
    fun _ => "class C \x7b\n  public void configureFromTfiConfig(TfiConfig c) \x7b\x7d\n\x7d\n".toList⟩

theorem main_writes_planned_sample :
    (main safeContextTree ["/r".toList] [] ⟨"/t".toList, false, false⟩ fun _ => none).dest
        (joinPath "/t".toList safeContextManagerPath) =
      some (sourceOutput safeContextTree "/r".toList safeContextManagerPath) ∧
    (main safeContextTree ["/r".toList] [] ⟨"/t".toList, false, false⟩ fun _ => none).dest
        (joinPath "/t".toList tfiPath) = some [] := by
  obtain ⟨hsrc, htfi⟩ := main_writes_planned safeContextTree ["/r".toList] []
    ⟨"/t".toList, false, false⟩ (fun _ => none) rfl
    (collectSources_eq_ok.2 ⟨fun _ _ => rfl, fun _ _ => rfl, rfl⟩) rfl
  have h1 := hsrc safeContextManagerPath (by decide) rfl
  have h2 := htfi rfl
  rw [show (⟨"/t".toList, false, false⟩ : Args).target = "/t".toList from rfl] at h1 h2
  exact ⟨h1, h2⟩

/-- A checkout holding every manifest entry, with one file `ThreadContext.java` below each
listed directory. -/
def threadContextTree : SourceTree :=
  ⟨fun _ => true, fun _ => true, fun _ => ["ThreadContext.java".toList], fun _ => []⟩

/-- After a real run that may write `ThreadContext.java`, the migrated file holds no
`TFI.clearAllTracking()`. -/
theorem main_thread_context_without_call (tree : SourceTree) (cwdChain : List Text)
    (facade : Text) (args : Args) (d : Dest) {root : Text} {sources : List Text}
    (hroot : findRepoRoot tree cwdChain = .ok root) (hsrc : collectSources tree root = .ok sources)
    (hdry : args.dryRun = false) (hmem : threadContextPath ∈ sources)
    (hacts : acts d (joinPath args.target threadContextPath) args.overwrite = true) :
    ∃ text, (main tree cwdChain facade args d).dest (joinPath args.target threadContextPath) =
      some text ∧ ¬ clearCall <:+: text := by
  refine ⟨_, ?_, clearCall_not_infix_stripThread (tree.read (joinPath root threadContextPath))⟩
  rw [main_dest_source tree cwdChain facade args d hroot hsrc hmem, hacts, hdry]
  simp [sourceOutput, patchedText_threadContext]

theorem main_thread_context_without_call_sample :
    ∃ text, (main threadContextTree ["/r".toList] [] ⟨"/t".toList, false, false⟩ fun _ => none).dest
      (joinPath "/t".toList threadContextPath) = some text ∧ ¬ clearCall <:+: text := by
  have h := main_thread_context_without_call threadContextTree ["/r".toList] []
    ⟨"/t".toList, false, false⟩ (fun _ => none) rfl
    (collectSources_eq_ok.2 ⟨fun _ _ => rfl, fun _ _ => rfl, rfl⟩) rfl (by decide) rfl
  rwa [show (⟨"/t".toList, false, false⟩ : Args).target = "/t".toList from rfl] at h

/-- Running the migration again over its own result changes the target no further. -/
theorem main_idempotent (tree : SourceTree) (cwdChain : List Text) (facade : Text) (args : Args)
    (d : Dest) :
    (main tree cwdChain facade args (main tree cwdChain facade args d).dest).dest =
      (main tree cwdChain facade args d).dest := by
  rcases main_cases tree cwdChain facade args d with ⟨hd, -⟩ | ⟨root, sources, hroot, hsrc, -⟩
  · rw [hd]; exact hd
  · rw [main_dest tree cwdChain facade args _ hroot hsrc,
      main_dest tree cwdChain facade args d hroot hsrc, overlay_idem]

/-- After a real run every planned path holds a file: the one the run wrote, or the one
that was there. -/
theorem main_dest_isSome (tree : SourceTree) (cwdChain : List Text) (facade : Text) (args : Args)
    (d : Dest) {root : Text} {sources : List Text}
    (hroot : findRepoRoot tree cwdChain = .ok root) (hsrc : collectSources tree root = .ok sources)
    (hdry : args.dryRun = false) {rel : Text} (hrel : rel = tfiPath ∨ rel ∈ sources) :
    ((main tree cwdChain facade args d).dest (joinPath args.target rel)).isSome := by
  rw [main_dest tree cwdChain facade args d hroot hsrc, hdry]
  refine overlay_isSome ?_
  rcases hrel with rfl | hrel
  · simp
  · rw [Dest.set_apply, plan_joinPath tree root args.target hrel]
    split_ifs <;> rfl

/-- After a real run, a second run without `--overwrite` skips every file, and its summary
counts no copy and no write. -/
theorem main_rerun_skips (tree : SourceTree) (cwdChain : List Text) (facade : Text) (args : Args)
    (d : Dest) {root : Text} {sources : List Text}
    (hroot : findRepoRoot tree cwdChain = .ok root) (hsrc : collectSources tree root = .ok sources)
    (hdry : args.dryRun = false) (hov : args.overwrite = false) :
    (main tree cwdChain facade args (main tree cwdChain facade args d).dest).out =
      sources.map (fun rel => skipLine (joinPath args.target rel)) ++
        skipLine (joinPath args.target tfiPath) :: summaryLines 0 0 args.target := by
  obtain ⟨target, overwrite, dryRun⟩ := args
  obtain rfl : dryRun = false := hdry
  obtain rfl : overwrite = false := hov
  set d' := (main tree cwdChain facade ⟨target, false, false⟩ d).dest
  have hfull : ∀ rel, rel = tfiPath ∨ rel ∈ sources → acts d' (joinPath target rel) false = false :=
    fun rel hrel => by simpa [acts] using main_dest_isSome tree cwdChain facade _ d hroot hsrc rfl hrel
  have hmap : sources.map (passLine tree root target false d') =
      sources.map fun rel => skipLine (joinPath target rel) :=
    List.map_congr_left fun rel hrel => by simp [passLine, hfull rel (.inr hrel)]
  have hnone : ∀ b : Option Text → Bool, sources.filter (fun r =>
      b (patchedText r (tree.read (joinPath root r))) && acts d' (joinPath target r) false) = [] :=
    fun b => List.filter_eq_nil_iff.2 fun r hr => by simp [hfull r (.inr hr)]
  obtain ⟨hnd, -⟩ := collectSources_ok_facts hsrc
  obtain ⟨-, h2, h3⟩ := migrateAll_counts tree root target false false hnd ⟨d', [], 0, 0⟩
  have htfi : acts (sources.foldl (migrateSource tree root target false false) ⟨d', [], 0, 0⟩).dest
      (joinPath target tfiPath) false = false := by
    rw [acts, migrateAll_dest_tfiPath hsrc]
    exact hfull tfiPath (.inl rfl)
  simp only [main, hroot, hsrc, writeText, fileAction_eq, htfi, h2, h3,
    migrateAll_out tree root target false false hnd, hmap, hnone]
  simp

theorem main_rerun_skips_sample :
    (main manifestOnlyTree ["/r".toList] [] ⟨"/t".toList, false, false⟩
        (main manifestOnlyTree ["/r".toList] [] ⟨"/t".toList, false, false⟩ fun _ => none).dest).out =
      includeFiles.map (fun rel => skipLine (joinPath "/t".toList rel)) ++
        skipLine (joinPath "/t".toList tfiPath) :: summaryLines 0 0 "/t".toList := by
  have h := main_rerun_skips manifestOnlyTree ["/r".toList] [] ⟨"/t".toList, false, false⟩
    (fun _ => none) rfl rfl rfl rfl
  rwa [show (⟨"/t".toList, false, false⟩ : Args).target = "/t".toList from rfl] at h

/-- A run that stops does so before it writes or prints anything, and its message says
why: no repository root was found, or a manifest entry is missing, and it is named. -/
theorem main_aborts_before_mutation (tree : SourceTree) (cwdChain : List Text) (facade : Text)
    (args : Args) (d : Dest) {msg : Text} (h : (main tree cwdChain facade args d).error = some msg) :
    (main tree cwdChain facade args d).dest = d ∧ (main tree cwdChain facade args d).out = [] ∧
      (msg = repoRootError ∨ (∃ e ∈ includeDirs, msg = missingDirError e) ∨
        ∃ e ∈ includeFiles, msg = missingFileError e) := by
  rcases main_cases tree cwdChain facade args d with
    ⟨hd, hout, msg', herr, hwhy⟩ | ⟨_, _, _, _, herr⟩
  · obtain rfl : msg' = msg := Option.some.inj (herr.symm.trans h)
    refine ⟨hd, hout, ?_⟩
    rcases hwhy with hroot | ⟨root, -, hsrc⟩
    · exact .inl (findRepoRoot_eq_error hroot)
    · rcases (collectSources_eq_error tree root msg').1 hsrc with
        ⟨_, e, _, hdirs, -, -, rfl⟩ | ⟨-, _, e, _, hfiles, -, -, rfl⟩
      · exact .inr (.inl ⟨e, mem_of_eq_append_cons hdirs, rfl⟩)
      · exact .inr (.inr ⟨e, mem_of_eq_append_cons hfiles, rfl⟩)
  · simp [herr] at h

theorem main_aborts_before_mutation_sample :
    (main emptyTree ["/r".toList] [] ⟨"/t".toList, false, false⟩ fun _ => none).error =
      some repoRootError ∧
    (main emptyTree ["/r".toList] [] ⟨"/t".toList, false, false⟩ fun _ => none).out = [] :=
  ⟨rfl, (main_aborts_before_mutation emptyTree ["/r".toList] [] ⟨"/t".toList, false, false⟩
    (fun _ => none) rfl).2.1⟩

end MigrateFlowOnly
