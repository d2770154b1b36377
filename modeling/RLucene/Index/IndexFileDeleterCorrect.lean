import Mathlib.Tactic.Abel
import RLucene.Index.IndexFileDeleter
import RLucene.Lib.Loops

/-!
# What deleting index files keeps and removes

The abstract view of a deleter is who refers to files: the live commit points, the last checkpoint
and the holders of external references. Every operation keeps the counts of the deleter equal to
these references, and deletes a file only when nobody refers to it.

`isRelevant` decides from the name which files a deleter may touch at all. The pattern is searched
for anywhere in the name, so this is more than the names of index files.
-/

namespace RLucene.Index

open List Lib Store
open Multiset (mem_add coe_nil coe_add count_add coe_count coe_eq_coe mem_coe)

/-! ## Batches -/

/-- The `segments` files of a batch come before all others. -/
def SegmentsFirst (batch : Batch) : Prop :=
  ∃ commits others, batch = commits ++ others ∧
    (∀ name ∈ commits, FileDeleter.isSegments name = true) ∧
    ∀ name ∈ others, FileDeleter.isSegments name = false

variable {names : List String} {name file : String} {commits : List CommitPoint} {op : DeleterOp}
  {commit : CommitPoint} {batches : List Batch} {currentGen : Int}
  {current current' : Option CommitPoint} {g : Generations} {infos' : SegmentInfos}
  {initialIndexExists : Bool}

namespace FileDeleter

/-- All the files are deleted. -/
theorem mem_deleteFiles : name ∈ deleteFiles names ↔ name ∈ names := by
  unfold deleteFiles
  rw [mem_append, mem_filter, mem_filter]
  cases isSegments name <;> simp

/-- Commits go before other files. -/
theorem segmentsFirst_deleteFiles (names : List String) : SegmentsFirst (deleteFiles names) :=
  ⟨_, _, rfl, fun _ h => (mem_filter.mp h).2, fun _ h => by simpa using (mem_filter.mp h).2⟩

variable {d : FileDeleter} {refs : Multiset String} (h : d.refCounts.Represents refs)

include h

/-- A file exists if it is referenced. -/
theorem existsFile_iff (name : String) : d.existsFile name = true ↔ name ∈ refs := by
  rw [existsFile, decide_eq_true_eq]
  exact h.pos_iff name

/-- Dropping references deletes the files that lose their last one. -/
theorem decRef_spec (hle : (names : Multiset String) ≤ refs) :
    (d.decRef names).2.refCounts.Represents (refs - names) ∧ SegmentsFirst (d.decRef names).1 ∧
      ∀ name, name ∈ (d.decRef names).1 ↔ name ∈ refs ∧ name ∉ refs - names := by
  obtain ⟨hrepr, hreleased⟩ := h.decAll hle
  refine ⟨hrepr, segmentsFirst_deleteFiles _, fun name => ?_⟩
  rw [← hreleased]
  exact mem_deleteFiles

/-- Those without a reference are deleted. -/
theorem mem_deleteFilesIfNoRef :
    name ∈ d.deleteFilesIfNoRef names ↔ name ∈ names ∧ name ∉ refs := by
  rw [deleteFilesIfNoRef, mem_deleteFiles, mem_dedup, mem_filter, ← existsFile_iff h]
  simp

end FileDeleter

/-! ## References -/

/-- Who refers to files. -/
structure References where
  commits : List CommitPoint
  lastFiles : List String
  external : Multiset String

variable {s : References}

namespace References

/-- All references, one for each file of a live commit, of the last checkpoint and of a holder. -/
def refs (s : References) : Multiset String :=
  ((s.commits.flatMap CommitPoint.files : List String) : Multiset String) + s.lastFiles + s.external

/-- The number of live commits that list the file, one more for the last checkpoint, and the
external references. -/
def count (s : References) (name : String) : Nat :=
  s.commits.countP (fun c => name ∈ c.files) + (if name ∈ s.lastFiles then 1 else 0) +
    s.external.count name

/-- The files of commits, each as often as it is listed. -/
def filesOf (commits : List CommitPoint) : Multiset String :=
  (commits.flatMap CommitPoint.files : List String)

theorem filesOf_cons (c : CommitPoint) (commits : List CommitPoint) :
    filesOf (c :: commits) = c.files + filesOf commits := by
  rw [filesOf, flatMap_cons, ← coe_add, filesOf]

/-- Files are listed once by each of those who refer to them. -/
structure Listed (s : References) : Prop where
  commits : ∀ c ∈ s.commits, c.files.Nodup
  lastFiles : s.lastFiles.Nodup

/-- How many commits have a file. -/
theorem count_flatMap_files (h : ∀ c ∈ commits, c.files.Nodup) (name : String) :
    (commits.flatMap CommitPoint.files).count name = commits.countP (fun c => name ∈ c.files) := by
  induction commits with
  | nil => rfl
  | cons c commits ih =>
    rw [flatMap_cons, count_append, ih (forall_mem_cons.mp h).2,
      List.Nodup.count (h c mem_cons_self), countP_cons]
    by_cases hmem : name ∈ c.files
    · simp [hmem, Nat.add_comm]
    · simp [hmem]

/-- The references to a file. -/
theorem count_eq (h : s.Listed) (name : String) : s.refs.count name = s.count name := by
  rw [refs, count_add, count_add, coe_count, coe_count, count_flatMap_files h.commits,
    List.Nodup.count h.lastFiles, count]

end References

/-! ## Operations -/

/-- The operations on an open deleter. -/
inductive DeleterOp where
  | checkpoint (infos : SegmentInfos) (isCommit : Bool) (onCommit : Decision)
  | revisitPolicy (onCommit : Decision)
  | incRef (files : List String)
  | decRef (files : List String)
  | deleteNewFiles (files : List String)
  | refresh (listing : List String)
  | close

namespace IndexFileDeleter

/-- The names that opening and refreshing look at. -/
def isCandidate (name : String) : Bool :=
  !isLockFile name && isRelevant name

/-- One call. -/
def step (d : IndexFileDeleter) : DeleterOp → Result (List Batch × IndexFileDeleter)
  | .checkpoint infos isCommit onCommit => d.checkpoint infos isCommit onCommit
  | .revisitPolicy onCommit => .ok (d.revisitPolicy onCommit)
  | .incRef files => .ok ([], d.incRefFiles files)
  | .decRef files =>
    let (batch, d) := d.decRef files
    .ok ([batch], d)
  | .deleteNewFiles files => .ok ([d.deleteNewFiles files], d)
  | .refresh listing => .ok ([d.refresh listing], d)
  | .close => .ok d.close

end IndexFileDeleter

namespace References

/-- The commits that a decision leaves. -/
def kept (decision : Decision) (commits : List CommitPoint) : List CommitPoint :=
  (commits.mapIdx fun i c => if decision commits i then [] else [c]).flatten

/-- The commit point of segment infos that have been written. -/
def commitPoint (s : References) (infos : SegmentInfos) : CommitPoint :=
  ⟨s.commits.length, infos.files true, infos.getSegmentsFileName.getD "", infos.generation, false⟩

/-- Who refers to files after an operation. -/
def next (s : References) : DeleterOp → References
  | .checkpoint infos true onCommit =>
    { s with commits := kept onCommit (s.commits ++ [s.commitPoint infos]) }
  | .checkpoint infos false _ => { s with lastFiles := infos.files false }
  | .revisitPolicy onCommit => { s with commits := kept onCommit s.commits }
  | .incRef files => { s with external := s.external + files }
  | .decRef files => { s with external := s.external - files }
  | .deleteNewFiles _ => s
  | .refresh _ => s
  | .close => { s with lastFiles := [] }

/-- The references that an operation takes before it drops any. -/
def acquired : DeleterOp → List String
  | .checkpoint infos isCommit _ => infos.files isCommit
  | .incRef files => files
  | _ => []

/-- A commit has been written, and only references that are held are dropped. -/
def Legal (s : References) : DeleterOp → Prop
  | .checkpoint infos true _ => infos.getSegmentsFileName.isSome
  | .decRef files => (files : Multiset String) ≤ s.external
  | _ => True

/-- The files that an operation deletes: sweeps delete files without references, all others those
that lose their last one. -/
def Deletes (s : References) (op : DeleterOp) (name : String) : Prop :=
  match op with
  | .deleteNewFiles files => name ∈ files ∧ name ∉ s.refs
  | .refresh listing => (name ∈ listing ∧ IndexFileDeleter.isCandidate name = true) ∧
      name ∉ s.refs
  | op => name ∈ s.refs + acquired op ∧ name ∉ (s.next op).refs

/-- Each call keeps what the deleter asks of it. -/
def LegalRun (s : References) : List DeleterOp → Prop
  | [] => True
  | op :: ops => s.Legal op ∧ (s.next op).LegalRun ops

/-- Along a run, every operation succeeds, deletes exactly the files it has to and none that is
still referred to, `segments` files first, and leaves the counts of all files equal to the
references. -/
def RunAgrees (s : References) (d : IndexFileDeleter) : List DeleterOp → Prop
  | [] => True
  | op :: ops => ∃ batches d', d.step op = .ok (batches, d') ∧
      (∀ name, name ∈ batches.flatten ↔ s.Deletes op name) ∧
      (∀ name ∈ batches.flatten, (s.next op).count name = 0) ∧
      (∀ batch ∈ batches, SegmentsFirst batch) ∧
      (∀ name, d'.fileDeleter.refCounts.count name = (s.next op).count name) ∧
      (s.next op).RunAgrees d' ops

/-- A deleted file has no reference left. -/
theorem Deletes.notMem_next (h : s.Deletes op name) : name ∉ (s.next op).refs := by
  cases op <;> exact h.2

end References

open References (filesOf filesOf_cons kept)

variable {infos : SegmentInfos}

/-- The commit point stands for segment infos that have been written. -/
structure CommitPoint.IsOf (commit : CommitPoint) (infos : SegmentInfos) : Prop where
  segmentsFileName : infos.getSegmentsFileName = some commit.segmentsFileName
  files : commit.files = infos.files true
  generation : commit.generation = infos.generation

/-- A new commit has the files of its segments. -/
theorem CommitPoint.new_eq_ok {id : Nat} (h : CommitPoint.new id infos = .ok commit) :
    commit.IsOf infos ∧ commit.deleted = false := by
  unfold CommitPoint.new at h
  split at h
  · cases h
  · rename_i hname
    cases h
    exact ⟨⟨hname, rfl, rfl⟩, rfl⟩

/-! ## One operation -/

/-- The deleter stands for the references. -/
structure Agrees (s : References) (d : IndexFileDeleter) : Prop where
  commits_eq : d.commits = s.commits
  last_eq : d.lastFiles = s.lastFiles
  live : ∀ c ∈ d.commits, c.deleted = false
  unmarked : d.commitsToDelete = false
  counts : d.fileDeleter.refCounts.Represents s.refs
  listed : s.Listed

/-- What an operation does to files. -/
structure Effect (before after : Multiset String) (batches : List Batch) (d : FileDeleter) :
    Prop where
  counts : d.refCounts.Represents after
  first : ∀ batch ∈ batches, SegmentsFirst batch
  deleted : ∀ name, name ∈ batches.flatten ↔ name ∈ before ∧ name ∉ after

variable {d : FileDeleter}

/-- Nothing is deleted. -/
theorem Effect.refl {refs : Multiset String} (h : d.refCounts.Represents refs) :
    Effect refs refs [] d :=
  ⟨h, nofun, fun _ => ⟨nofun, fun hboth => absurd hboth.1 hboth.2⟩⟩

theorem Effect.deleted_acquiring_none {before after : Multiset String}
    (h : Effect before after batches d) (name : String) :
    name ∈ batches.flatten ↔
      name ∈ before + (([] : List String) : Multiset String) ∧ name ∉ after := by
  rw [coe_nil, add_zero]
  exact h.deleted name

/-- One batch. -/
theorem Effect.single {refs : Multiset String} (h : d.refCounts.Represents refs)
    (hle : (names : Multiset String) ≤ refs) :
    Effect refs (refs - names) [(d.decRef names).1] (d.decRef names).2 := by
  obtain ⟨hrepr, hfirst, hdeleted⟩ := d.decRef_spec h hle
  exact ⟨hrepr, forall_mem_singleton.mpr hfirst, by simpa using hdeleted⟩

variable {rest : Multiset String}

/-- Dropping references of which the others are known. -/
theorem Effect.drop {refs : Multiset String} (h : d.refCounts.Represents refs)
    (hrefs : refs = names + rest) : Effect refs rest [(d.decRef names).1] (d.decRef names).2 := by
  have hone := Effect.single h (hrefs ▸ Multiset.le_add_right _ _)
  rwa [hrefs, add_tsub_cancel_left, ← hrefs] at hone

/-- The commits that are deleted give up their files. -/
theorem decRefCommits_effect (commits : List CommitPoint) {refs : Multiset String}
    (h : d.refCounts.Represents refs) (hrefs : refs = filesOf commits + rest) :
    Effect refs rest (IndexFileDeleter.decRefCommits d commits).1
      (IndexFileDeleter.decRefCommits d commits).2 := by
  induction commits generalizing d refs with
  | nil =>
    obtain rfl : refs = rest := hrefs.trans (zero_add rest)
    exact Effect.refl h
  | cons c commits ih =>
    rw [filesOf_cons, add_assoc] at hrefs
    have hone := Effect.drop h hrefs
    have hrest := ih hone.counts rfl
    refine ⟨hrest.counts, forall_mem_cons.mpr ⟨hone.first _ mem_cons_self, hrest.first⟩,
      fun name => ?_⟩
    · show name ∈ ((d.decRef c.files).1 ::
        (IndexFileDeleter.decRefCommits (d.decRef c.files).2 commits).1).flatten ↔ _
      have hfirst := hone.deleted name
      rw [flatten_cons, flatten_nil, append_nil] at hfirst
      rw [flatten_cons, mem_append, hfirst, hrest.deleted, hrefs]
      simp only [mem_add]
      tauto

/-! ### Commits that the policy deletes -/

/-- Mark the commits at the chosen places. -/
def marked (chosen : Nat → Bool) (commits : List CommitPoint) : List CommitPoint :=
  commits.mapIdx fun i c => if chosen i then { c with deleted := true } else c

/-- The commits that the policy keeps. -/
def unchosen (chosen : Nat → Bool) (commits : List CommitPoint) : List CommitPoint :=
  (commits.mapIdx fun i c => if chosen i then [] else [c]).flatten

variable (chosen : Nat → Bool)

theorem unchosen_cons (c : CommitPoint) (commits : List CommitPoint) :
    unchosen chosen (c :: commits) =
      (if chosen 0 then [] else [c]) ++ unchosen (fun i => chosen (i + 1)) commits := by
  rw [unchosen, mapIdx_cons, flatten_cons]
  rfl

theorem marked_cons (c : CommitPoint) (commits : List CommitPoint) :
    marked chosen (c :: commits) = (if chosen 0 then { c with deleted := true } else c) ::
      marked (fun i => chosen (i + 1)) commits := by
  rw [marked, mapIdx_cons]
  rfl

/-- The commits that are not chosen stay. -/
theorem marked_filter (hlive : ∀ c ∈ commits, c.deleted = false) :
    (marked chosen commits).filter (fun c => !c.deleted) = unchosen chosen commits := by
  induction commits generalizing chosen with
  | nil => rfl
  | cons c commits ih =>
    have hc := hlive c mem_cons_self
    rw [marked_cons, unchosen_cons, filter_cons, ih _ (forall_mem_cons.mp hlive).2]
    cases chosen 0 <;> simp [hc]

/-- The files of the commits are those of the marked and those of the other ones. -/
theorem marked_files (hlive : ∀ c ∈ commits, c.deleted = false) :
    filesOf commits = filesOf ((marked chosen commits).filter (·.deleted)) +
      filesOf (unchosen chosen commits) := by
  induction commits generalizing chosen with
  | nil => rfl
  | cons c commits ih =>
    have hc := hlive c mem_cons_self
    have hrest := ih (fun i => chosen (i + 1)) (forall_mem_cons.mp hlive).2
    rw [filesOf_cons, hrest, marked_cons, unchosen_cons, filter_cons]
    cases chosen 0 with
    | false => simp [hc, filesOf_cons, add_left_comm]
    | true => simp [filesOf_cons, add_assoc]

theorem unchosen_sublist (commits : List CommitPoint) :
    (unchosen chosen commits).Sublist commits := by
  induction commits generalizing chosen with
  | nil => exact .slnil
  | cons c commits ih =>
    rw [unchosen_cons]
    cases chosen 0 with
    | false => exact (ih _).cons_cons c
    | true => exact (ih _).cons c

/-- If no commit is newly marked, all are left. -/
theorem unchosen_of_not_any (hlive : ∀ c ∈ commits, c.deleted = false)
    (hnone : (commits.mapIdx fun i c => chosen i && !c.deleted).any id = false) :
    unchosen chosen commits = commits ∧ marked chosen commits = commits := by
  induction commits generalizing chosen with
  | nil => exact ⟨rfl, rfl⟩
  | cons c commits ih =>
    have hc := hlive c mem_cons_self
    rw [mapIdx_cons, any_cons, Bool.or_eq_false_iff] at hnone
    have hzero : chosen 0 = false := by simpa [hc] using hnone.1
    obtain ⟨hkept, hmarked⟩ := ih (fun i => chosen (i + 1)) (forall_mem_cons.mp hlive).2 hnone.2
    rw [unchosen_cons, marked_cons, hkept, hmarked, hzero]
    exact ⟨rfl, rfl⟩

variable {d : IndexFileDeleter}

/-- Asking the policy and deleting what it has chosen drops the references of these commits. -/
theorem askPolicy_deleteCommits (onCommit : Decision) (hlive : ∀ c ∈ d.commits, c.deleted = false)
    (hunmarked : d.commitsToDelete = false)
    (hcounts : d.fileDeleter.refCounts.Represents (filesOf d.commits + rest)) :
    ∃ batches d', (d.askPolicy onCommit).deleteCommits = (batches, d') ∧
      d'.commits = kept onCommit d.commits ∧ d'.lastFiles = d.lastFiles ∧
      d'.commitsToDelete = false ∧
      Effect (filesOf d.commits + rest)
        (filesOf (kept onCommit d.commits) + rest) batches
        d'.fileDeleter := by
  have hkept : kept onCommit d.commits = unchosen (onCommit d.commits) d.commits := rfl
  rw [hkept]
  unfold IndexFileDeleter.deleteCommits IndexFileDeleter.askPolicy
  rw [hunmarked, Bool.false_or]
  cases hany : (d.commits.mapIdx fun i c => onCommit d.commits i && !c.deleted).any id with
  | false =>
    obtain ⟨hall, hsame⟩ := unchosen_of_not_any (onCommit d.commits) hlive hany
    refine ⟨_, _, rfl, ?_, rfl, rfl, ?_⟩
    · rw [hall]
      exact hsame
    · rw [hall]
      exact Effect.refl hcounts
  | true =>
    refine ⟨_, _, rfl, marked_filter _ hlive, rfl, rfl, ?_⟩
    refine decRefCommits_effect _ hcounts ?_
    rw [marked_files (onCommit d.commits) hlive, add_assoc]
    rfl

/-! ### Steps and runs -/

theorem References.refs_eq (s : References) :
    s.refs = filesOf s.commits + (s.lastFiles + s.external) :=
  add_assoc _ _ _

/-- One commit more. -/
theorem References.refs_append (s : References) (c : CommitPoint) :
    ({ s with commits := s.commits ++ [c] } : References).refs = s.refs + c.files := by
  show filesOf (s.commits ++ [c]) + s.lastFiles + s.external = _
  rw [filesOf, flatMap_append, flatMap_singleton, ← coe_add, References.refs]
  abel

variable {files : List String}

namespace Agrees

variable (h : Agrees s d)

include h

/-- The policy chooses commits, and these are removed. -/
theorem choose (onCommit : Decision) :
    ∃ batches d', (d.askPolicy onCommit).deleteCommits = (batches, d') ∧
      Agrees { s with commits := kept onCommit s.commits } d' ∧
      Effect s.refs ({ s with commits := kept onCommit s.commits } : References).refs batches
        d'.fileDeleter := by
  have hrefs := s.refs_eq
  rw [← h.commits_eq] at hrefs ⊢
  obtain ⟨batches, d', hdelete, hcommits, hlast, hflag, heffect⟩ :=
    askPolicy_deleteCommits onCommit h.live h.unmarked (hrefs ▸ h.counts)
  have hsub : (kept onCommit d.commits).Sublist d.commits := unchosen_sublist _ _
  rw [← hrefs, ← add_assoc] at heffect
  exact ⟨batches, d', hdelete, ⟨hcommits, hlast.trans h.last_eq,
    fun c hc => h.live c (hsub.subset (hcommits ▸ hc)), hflag, heffect.counts,
    fun c hc => h.listed.commits c (h.commits_eq ▸ hsub.subset hc), h.listed.lastFiles⟩, heffect⟩

/-- A commit is added. -/
theorem addCommit (hfiles : commit.files.Nodup) (hlive : commit.deleted = false) :
    Agrees { s with commits := s.commits ++ [commit] }
      (({ d with commits := d.commits ++ [commit] }).incRefFiles commit.files) := by
  refine ⟨congrArg (· ++ [commit]) h.commits_eq, h.last_eq,
    forall_mem_append.mpr ⟨h.live, forall_mem_singleton.mpr hlive⟩, h.unmarked, ?_,
    forall_mem_append.mpr ⟨h.listed.commits, forall_mem_singleton.mpr hfiles⟩, h.listed.lastFiles⟩
  rw [s.refs_append]
  exact h.counts.incAll commit.files

/-- A commit is added, and those that the policy chooses are removed. -/
theorem checkpoint_commit (onCommit : Decision) (hwritten : infos.getSegmentsFileName.isSome) :
    ∃ batches d', d.checkpoint infos true onCommit = .ok (batches, d') ∧
      Agrees (s.next (.checkpoint infos true onCommit)) d' ∧
      Effect (s.refs + infos.files true) (s.next (.checkpoint infos true onCommit)).refs batches
        d'.fileDeleter := by
  obtain ⟨name, hname⟩ := Option.isSome_iff_exists.mp hwritten
  have hcommit : CommitPoint.new d.commits.length infos = .ok (s.commitPoint infos) := by
    rw [CommitPoint.new, hname, References.commitPoint, hname, h.commits_eq]
    rfl
  have hnodup : (s.commitPoint infos).files.Nodup := nodup_dedup _
  obtain ⟨batches, d', hdelete, hagrees, heffect⟩ := (h.addCommit hnodup rfl).choose onCommit
  rw [s.refs_append] at heffect
  refine ⟨batches, d', ?_, hagrees, heffect⟩
  unfold IndexFileDeleter.checkpoint
  show (CommitPoint.new d.commits.length infos >>= fun commit => _) = _
  rw [hcommit, ok_bind]
  exact congrArg Except.ok hdelete

/-- The references of the new checkpoint take the place of those of the last one. -/
theorem checkpoint_flush (infos : SegmentInfos) (onCommit : Decision) :
    ∃ batches d', d.checkpoint infos false onCommit = .ok (batches, d') ∧
      Agrees (s.next (.checkpoint infos false onCommit)) d' ∧
      Effect (s.refs + infos.files false) (s.next (.checkpoint infos false onCommit)).refs batches
        d'.fileDeleter := by
  have hcounts := h.counts.incAll (infos.files false)
  have hsum : s.refs + (infos.files false : List String) =
      (s.lastFiles : Multiset String) + (s.next (.checkpoint infos false onCommit)).refs := by
    show _ = (s.lastFiles : Multiset String) +
      (filesOf s.commits + (infos.files false : List String) + s.external)
    rw [References.refs_eq]
    abel
  have heffect := Effect.drop (d := d.fileDeleter.incRef (infos.files false)) hcounts hsum
  rw [← h.last_eq] at heffect
  exact ⟨_, _, rfl, ⟨h.commits_eq, rfl, h.live, h.unmarked, heffect.counts, h.listed.commits,
    nodup_dedup _⟩, heffect⟩

/-- The policy is asked. -/
theorem revisitPolicy (onCommit : Decision) :
    ∃ batches d', d.revisitPolicy onCommit = (batches, d') ∧
      Agrees (s.next (.revisitPolicy onCommit)) d' ∧
      Effect s.refs (s.next (.revisitPolicy onCommit)).refs batches d'.fileDeleter := by
  unfold IndexFileDeleter.revisitPolicy
  by_cases hempty : d.commits = []
  · rw [if_pos hempty]
    have hsame : s.next (.revisitPolicy onCommit) = s := by
      have hnil : s.commits = [] := h.commits_eq ▸ hempty
      cases s
      cases hnil
      rfl
    rw [hsame]
    exact ⟨[], d, rfl, h, Effect.refl h.counts⟩
  · rw [if_neg hempty]
    exact h.choose onCommit

/-- The deleter is closed. -/
theorem close :
    ∃ batches d', d.close = (batches, d') ∧ Agrees (s.next .close) d' ∧
      Effect s.refs (s.next .close).refs batches d'.fileDeleter := by
  have hsum : s.refs = (s.lastFiles : Multiset String) + (s.next .close).refs := by
    show _ = (s.lastFiles : Multiset String) +
      (filesOf s.commits + (([] : List String) : Multiset String) + s.external)
    rw [References.refs_eq, coe_nil]
    abel
  unfold IndexFileDeleter.close
  by_cases hempty : d.lastFiles = []
  · rw [if_pos hempty]
    have hsame : s.next .close = s := by
      have hnil : s.lastFiles = [] := h.last_eq ▸ hempty
      cases s
      cases hnil
      rfl
    rw [hsame]
    exact ⟨[], d, rfl, h, Effect.refl h.counts⟩
  · rw [if_neg hempty]
    have heffect := Effect.drop h.counts hsum
    rw [← h.last_eq] at heffect
    exact ⟨_, _, rfl, ⟨h.commits_eq, rfl, h.live, h.unmarked, heffect.counts, h.listed.commits,
      nodup_nil⟩, heffect⟩

/-- References are given up. -/
theorem decRef (hheld : (files : Multiset String) ≤ s.external) :
    Agrees (s.next (.decRef files)) (d.decRef files).2 ∧
      Effect s.refs (s.next (.decRef files)).refs [(d.decRef files).1]
        (d.decRef files).2.fileDeleter := by
  have hsub : s.refs - (files : Multiset String) = (s.next (.decRef files)).refs := by
    rw [References.refs, add_tsub_assoc_of_le hheld]
    rfl
  have hle : (files : Multiset String) ≤ s.refs := hheld.trans (Multiset.le_add_left _ _)
  have heffect := Effect.single h.counts hle
  rw [hsub] at heffect
  exact ⟨⟨h.commits_eq, h.last_eq, h.live, h.unmarked, heffect.counts, h.listed.commits,
    h.listed.lastFiles⟩, heffect⟩

/-- Files are referenced. -/
theorem incRef (files : List String) : Agrees (s.next (.incRef files)) (d.incRefFiles files) := by
  refine ⟨h.commits_eq, h.last_eq, h.live, h.unmarked, ?_, h.listed.commits, h.listed.lastFiles⟩
  have hcounts := h.counts.incAll files
  rw [References.refs, add_assoc] at hcounts
  exact hcounts

/-- A sweep over given names changes nothing and deletes those without references. -/
theorem deleteFilesIfNoRef (names : List String) (name : String) :
    name ∈ [d.fileDeleter.deleteFilesIfNoRef names].flatten ↔ name ∈ names ∧ name ∉ s.refs := by
  rw [flatten_cons, flatten_nil, append_nil]
  exact FileDeleter.mem_deleteFilesIfNoRef h.counts

/-- What a refresh deletes. -/
theorem mem_refreshed (listing : List String) (name : String) :
    name ∈ [d.refresh listing].flatten ↔
      (name ∈ listing ∧ IndexFileDeleter.isCandidate name = true) ∧ name ∉ s.refs := by
  have hexists := FileDeleter.existsFile_iff h.counts name
  rw [IndexFileDeleter.refresh, h.deleteFilesIfNoRef, mem_dedup, mem_filter]
  by_cases href : name ∈ s.refs
  · simp [href]
  · have hnone : d.fileDeleter.existsFile name = false := by
      rw [← Bool.not_eq_true, hexists]
      exact href
    simp [href, hnone, IndexFileDeleter.isCandidate]

/-- One operation. -/
theorem step (hlegal : s.Legal op) :
    ∃ batches d', d.step op = .ok (batches, d') ∧
      (∀ name, name ∈ batches.flatten ↔ s.Deletes op name) ∧
      (∀ batch ∈ batches, SegmentsFirst batch) ∧ Agrees (s.next op) d' := by
  cases op with
  | checkpoint infos isCommit onCommit =>
    cases isCommit with
    | true =>
      obtain ⟨batches, d', hstep, hagrees, heffect⟩ := h.checkpoint_commit onCommit hlegal
      exact ⟨batches, d', hstep, heffect.deleted, heffect.first, hagrees⟩
    | false =>
      obtain ⟨batches, d', hstep, hagrees, heffect⟩ := h.checkpoint_flush infos onCommit
      exact ⟨batches, d', hstep, heffect.deleted, heffect.first, hagrees⟩
  | revisitPolicy onCommit =>
    obtain ⟨batches, d', hstep, hagrees, heffect⟩ := h.revisitPolicy onCommit
    exact ⟨batches, d', congrArg Except.ok hstep, heffect.deleted_acquiring_none, heffect.first,
      hagrees⟩
  | incRef files =>
    refine ⟨[], _, rfl, fun name => ?_, nofun, h.incRef files⟩
    have hrefs : (s.next (.incRef files)).refs = s.refs + files := (add_assoc _ _ _).symm
    show _ ↔ name ∈ s.refs + files ∧ name ∉ (s.next (.incRef files)).refs
    rw [hrefs]
    exact ⟨nofun, fun hboth => absurd hboth.1 hboth.2⟩
  | decRef files =>
    obtain ⟨hagrees, heffect⟩ := h.decRef hlegal
    exact ⟨[(d.decRef files).1], (d.decRef files).2, rfl, heffect.deleted_acquiring_none,
      heffect.first, hagrees⟩
  | deleteNewFiles files =>
    exact ⟨_, d, rfl, h.deleteFilesIfNoRef files,
      forall_mem_singleton.mpr (FileDeleter.segmentsFirst_deleteFiles _), h⟩
  | refresh listing =>
    exact ⟨_, d, rfl, h.mem_refreshed listing,
      forall_mem_singleton.mpr (FileDeleter.segmentsFirst_deleteFiles _), h⟩
  | close =>
    obtain ⟨batches, d', hstep, hagrees, heffect⟩ := h.close
    exact ⟨batches, d', congrArg Except.ok hstep, heffect.deleted_acquiring_none, heffect.first,
      hagrees⟩

/-- The counts are those of the references. -/
theorem count_eq (name : String) : d.fileDeleter.refCounts.count name = s.count name :=
  (h.counts name).trans (References.count_eq h.listed name)

/-- A run of legal calls. -/
theorem run {ops : List DeleterOp} (hlegal : s.LegalRun ops) : s.RunAgrees d ops := by
  induction ops generalizing s d with
  | nil => exact trivial
  | cons op ops ih =>
    obtain ⟨batches, d', hstep, hdeleted, hfirst, hnext⟩ := h.step hlegal.1
    refine ⟨batches, d', hstep, hdeleted, fun name hname => ?_, hfirst, hnext.count_eq,
      ih hnext hlegal.2⟩
    rw [← References.count_eq hnext.listed]
    exact Multiset.count_eq_zero.mpr ((hdeleted name).mp hname).notMem_next

end Agrees

/-! ## Opening -/

/-- A deleter whose references are those of its commits and its last checkpoint. -/
def Opened (d : IndexFileDeleter) : Prop :=
  Agrees ⟨d.commits, d.lastFiles, 0⟩ d

namespace Opened

theorem empty (startingCommitDeleted : Bool) : Opened ⟨[], [], false, startingCommitDeleted, ⟨∅⟩⟩ :=
  ⟨rfl, rfl, nofun, rfl, RefTable.represents_empty, nofun, nodup_nil⟩

theorem initRefCount (h : Opened d) (file : String) :
    Opened { d with fileDeleter := d.fileDeleter.initRefCount file } :=
  ⟨rfl, rfl, h.live, h.unmarked, h.counts.register file, h.listed⟩

/-- Sorting the commits. -/
theorem perm (h : Opened d) (hperm : commits.Perm d.commits) : Opened { d with commits } := by
  refine ⟨rfl, rfl, fun c hc => h.live c (hperm.subset hc), h.unmarked, ?_,
    fun c hc => h.listed.commits c (hperm.subset hc), h.listed.lastFiles⟩
  have hcounts := h.counts
  rw [References.refs, coe_eq_coe.mpr (hperm.symm.flatMap_right CommitPoint.files)] at hcounts
  exact hcounts

end Opened

/-! ### The files of the listing -/

open IndexFileDeleter

/-- The references of an opened deleter. -/
def IndexFileDeleter.refs (d : IndexFileDeleter) : Multiset String :=
  References.refs ⟨d.commits, d.lastFiles, 0⟩

theorem IndexFileDeleter.refs_perm {d : IndexFileDeleter} (hperm : commits.Perm d.commits) :
    IndexFileDeleter.refs { d with commits } = d.refs := by
  unfold IndexFileDeleter.refs References.refs
  rw [coe_eq_coe.mpr (hperm.flatMap_right CommitPoint.files)]

/-- The deleter has looked at a listing. The files it refers to are among the known ones. -/
structure Ready (listing known : List String) (d : IndexFileDeleter) : Prop where
  opened : Opened d
  registered : ∀ name, name ∈ d.fileDeleter.refCounts ↔
    (name ∈ listing ∧ isCandidate name = true) ∨ name ∈ d.refs
  known : ∀ name ∈ d.refs, name ∈ known

/-- The names under which commits are looked for. -/
def isCommitFile (name : String) : Bool :=
  isCandidate name && FileDeleter.isSegments name

/-- The commit point stands for the commit in a `segments` file. -/
def Holds (readCommit : String → Result SegmentInfos) (file : String) (commit : CommitPoint) :
    Prop :=
  ∃ infos, readCommit file = .ok infos ∧ commit.IsOf infos

/-- Commits have been loaded from some files, and there has been no checkpoint yet. -/
structure Loaded (readCommit : String → Result SegmentInfos) (sources listing known : List String)
    (d : IndexFileDeleter) : Prop extends Ready listing known d where
  last_eq : d.lastFiles = []
  commits : Forall₂ (Holds readCommit) sources d.commits

section

variable {readCommit : String → Result SegmentInfos} {sources listing known : List String}
  {d' : IndexFileDeleter}

/-- References to known files are taken. -/
theorem Ready.acquire (h : Ready listing known d) (hopened : Opened d')
    (hrefs : d'.refs = d.refs + names)
    (hcounts : d'.fileDeleter = d.fileDeleter.incRef names)
      (hknown : ∀ name ∈ names, name ∈ known) :
    Ready listing known d' := by
  refine ⟨hopened, fun name => ?_, fun name hname => ?_⟩
  · rw [hcounts, hrefs, mem_add, mem_coe, ← or_assoc, ← h.registered]
    exact RefTable.mem_incAll.trans or_comm
  · rw [hrefs, mem_add] at hname
    exact hname.elim (h.known name) (hknown name)

namespace Loaded

variable (h : Loaded readCommit sources listing known d)

include h

/-- Loading a commit takes the references of its files. -/
theorem loadCommit (hload : loadCommit readCommit d file = .ok (infos, commit, d'))
    (hknown : ∀ infos, readCommit file = .ok infos → ∀ name ∈ infos.files true, name ∈ known) :
    Loaded readCommit (sources ++ [file]) listing known d' := by
  obtain ⟨infos', hread, hload⟩ := bind_eq_ok.mp hload
  obtain ⟨commit', hcommit, hload⟩ := bind_eq_ok.mp hload
  cases hload
  obtain ⟨hof, hlive⟩ := CommitPoint.new_eq_ok hcommit
  have hnodup : commit.files.Nodup := hof.files ▸ nodup_dedup _
  exact ⟨h.acquire (h.opened.addCommit hnodup hlive)
    (References.refs_append ⟨d.commits, d.lastFiles, 0⟩ commit) rfl
    (hof.files ▸ hknown infos hread), h.last_eq,
    rel_append h.commits (.cons ⟨infos, hread, hof⟩ .nil)⟩

/-- A file that is not registered does not count as listed. -/
theorem skip (hout : isCandidate file = false) :
    Loaded readCommit sources (listing ++ [file]) known d := by
  refine ⟨⟨h.opened, fun name => ?_, h.known⟩, h.last_eq, h.commits⟩
  rw [h.registered, mem_append, mem_singleton]
  have hother : name = file → ¬ isCandidate name = true := by
    rintro rfl
    simp [hout]
  tauto

/-- A registered file has no references at first. -/
theorem register (hin : isCandidate file = true) :
    Loaded readCommit sources (listing ++ [file]) known
      { d with fileDeleter := d.fileDeleter.initRefCount file } := by
  refine ⟨⟨h.opened.initRefCount file, fun name => ?_, h.known⟩, h.last_eq, h.commits⟩
  show name ∈ d.fileDeleter.refCounts.register file ↔ _ ∨ name ∈ d.refs
  rw [RefTable.mem_register, h.registered, mem_append, mem_singleton]
  have hthis : name = file → isCandidate name = true := by
    rintro rfl
    exact hin
  tauto

/-- One file of the listing. -/
theorem initFile (hinit : initFile readCommit currentGen (d, current) file = .ok (d', current'))
    (hknown : FileDeleter.isSegments file = true → ∀ infos, readCommit file = .ok infos →
      ∀ name ∈ infos.files true, name ∈ known) :
    Loaded readCommit (sources ++ [file].filter isCommitFile) (listing ++ [file]) known d' := by
  unfold IndexFileDeleter.initFile at hinit
  dsimp only at hinit
  rw [filter_singleton, isCommitFile]
  split at hinit
  · rename_i hlock
    have hout : isCandidate file = false := by simp [isCandidate, hlock]
    cases hinit
    rw [hout, Bool.false_and, cond_false, append_nil]
    exact h.skip hout
  · rename_i hlock
    split at hinit
    · rename_i hrelevant
      have hin : isCandidate file = true := by simp [isCandidate, hlock, hrelevant]
      rw [hin, Bool.true_and]
      split at hinit
      · rename_i hsegments
        obtain ⟨⟨infos, commit, d₁⟩, hload, hrest⟩ := bind_eq_ok.mp hinit
        cases hrest
        rw [FileDeleter.isSegments, hsegments]
        exact (h.register hin).loadCommit hload (hknown hsegments)
      · rename_i hother
        cases hinit
        rw [FileDeleter.isSegments, Bool.eq_false_of_not_eq_true hother, cond_false, append_nil]
        exact h.register hin
    · rename_i hrelevant
      have hout : isCandidate file = false := by simp [isCandidate, hrelevant]
      cases hinit
      rw [hout, Bool.false_and, cond_false, append_nil]
      exact h.skip hout

/-- The listing as a whole. -/
theorem initFiles
    (hinit : files.foldlM (IndexFileDeleter.initFile readCommit currentGen) (d, current) =
      .ok (d', current'))
    (hknown : ∀ file ∈ files, FileDeleter.isSegments file = true → ∀ infos,
      readCommit file = .ok infos → ∀ name ∈ infos.files true, name ∈ known) :
    Loaded readCommit (sources ++ files.filter isCommitFile) (listing ++ files) known d' := by
  induction files generalizing sources listing d current with
  | nil =>
    cases hinit
    rw [filter_nil, append_nil, append_nil]
    exact h
  | cons file files ih =>
    obtain ⟨⟨d₁, current₁⟩, hone, hrest⟩ := bind_eq_ok.mp hinit
    have hnext := ih (h.initFile hone (hknown file mem_cons_self)) hrest
      (forall_mem_cons.mp hknown).2
    rw [append_assoc, append_assoc, ← filter_append] at hnext
    exact hnext

/-- The first checkpoint only takes references. -/
theorem checkpoint (infos : SegmentInfos) (hknown : ∀ name ∈ infos.files false, name ∈ known) :
    ∃ d', d.checkpoint infos false noDecision = .ok ([[]], d') ∧ Ready listing known d' ∧
      d'.commits = d.commits ∧ d'.refs = d.refs + infos.files false := by
  obtain ⟨batches, d', hcheckpoint, hagrees, -⟩ := h.opened.checkpoint_flush infos noDecision
  have hd : d.checkpoint infos false noDecision = .ok ([[]],
      { d.incRefFiles (infos.files false) with lastFiles := infos.files false }) := by
    unfold IndexFileDeleter.checkpoint
    rw [h.last_eq]
    rfl
  rw [hd] at hcheckpoint
  cases hcheckpoint
  have hrefs : IndexFileDeleter.refs
      { d.incRefFiles (infos.files false) with lastFiles := infos.files false } =
        d.refs + infos.files false := by
    unfold IndexFileDeleter.refs References.refs
    rw [h.last_eq]
    rw [coe_nil, add_zero, add_zero, add_zero]
    rfl
  exact ⟨_, hd, h.acquire hagrees hrefs rfl hknown, rfl, hrefs⟩

/-- The files of a commit that has been loaded have references. -/
theorem mem_refs (hfile : file ∈ sources) (hread : readCommit file = .ok infos)
    (hname : name ∈ infos.files true) : name ∈ d.refs := by
  obtain ⟨i, hi⟩ := mem_iff_get.mp hfile
  obtain ⟨infos', hread', hof⟩ := h.commits.get i.2 (h.commits.length_eq ▸ i.2)
  have hsame : readCommit file = .ok infos' := hi ▸ hread'
  cases hread.symm.trans hsame
  have hlisted : name ∈ d.commits.flatMap CommitPoint.files :=
    mem_flatMap.mpr ⟨_, get_mem _ _, hof.files ▸ hname⟩
  exact mem_add.mpr (.inl (mem_add.mpr (.inl (mem_coe.mpr hlisted))))

end Loaded

end

namespace Ready

variable {listing known : List String} (h : Ready listing known d)

include h

/-- The order of the commits does not matter. -/
theorem perm (hperm : commits.Perm d.commits) : Ready listing known { d with commits } := by
  have hrefs := refs_perm hperm
  refine ⟨h.opened.perm hperm, fun name => ?_, fun name hname => ?_⟩
  · rw [hrefs]
    exact h.registered name
  · rw [hrefs] at hname
    exact h.known name hname

/-- Known files without references are those of the listing. -/
theorem mem_swept (name : String) :
    name ∈ d.fileDeleter.deleteFilesIfNoRef d.fileDeleter.getUnrefedFiles ↔
      (name ∈ listing ∧ isCandidate name = true) ∧ name ∉ d.refs := by
  have hcounts : d.fileDeleter.refCounts.Represents d.refs := h.opened.counts
  have hzero : d.fileDeleter.refCounts.count name = 0 ↔ name ∉ d.refs := by
    rw [← hcounts.pos_iff]
    omega
  rw [FileDeleter.mem_deleteFilesIfNoRef hcounts, FileDeleter.getUnrefedFiles, mem_filter,
    decide_eq_true_eq, hzero]
  have hkeys := h.registered name
  rw [AList.mem_keys] at hkeys
  tauto

/-- The end of opening: the policy chooses commits, the infos are protected, and then the commits
are deleted. -/
theorem finish (onInit : Decision) (infos : SegmentInfos)
    (hknown : ∀ name ∈ infos.files false, name ∈ known) :
    ∃ released d₁, (d.askPolicy onInit).checkpoint infos false noDecision = .ok (released, d₁) ∧
      ∀ startingCommitDeleted, ∃ removed d',
        ({ d₁ with startingCommitDeleted } : IndexFileDeleter).deleteCommits = (removed, d') ∧
        Opened d' ∧ d'.commits = kept onInit d.commits ∧ d'.lastFiles = infos.files false ∧
        (∀ batch ∈ released ++ removed, SegmentsFirst batch) ∧
        (∀ name ∈ d'.refs, name ∈ d.refs + infos.files false) ∧
        ∀ name ∈ (released ++ removed).flatten, name ∈ known ∧ name ∉ d'.refs := by
  obtain ⟨released, d₁, hcheckpoint, hagrees, hreleased⟩ :=
    h.opened.checkpoint_flush infos noDecision
  -- marking commits and taking references for the infos do not interfere
  have hmarked : (d.askPolicy onInit).checkpoint infos false noDecision =
      .ok (released, d₁.askPolicy onInit) := by
    cases hcheckpoint
    rfl
  refine ⟨released, _, hmarked, fun startingCommitDeleted => ?_⟩
  obtain ⟨removed, d', hdelete, hchosen, hremoved⟩ := Agrees.choose
    (d := { d₁ with startingCommitDeleted }) ⟨hagrees.commits_eq, hagrees.last_eq, hagrees.live,
      hagrees.unmarked, hagrees.counts, hagrees.listed⟩ onInit
  have hprotected : ∀ name, name ∈ References.refs ⟨d.commits, infos.files false, 0⟩ →
      name ∈ d.refs + infos.files false := by
    intro name hname
    unfold References.refs at hname
    unfold IndexFileDeleter.refs References.refs
    simp only [mem_add] at hname ⊢
    tauto
  have hrefs : d'.refs = References.refs ⟨kept onInit d.commits, infos.files false, 0⟩ := by
    rw [IndexFileDeleter.refs, hchosen.commits_eq, hchosen.last_eq]
    rfl
  -- the commits that are left refer to no other files
  have hfewer : ∀ name ∈ d'.refs, name ∈ References.refs ⟨d.commits, infos.files false, 0⟩ := by
    intro name hname
    have hleft : name ∈ (kept onInit d.commits).flatMap CommitPoint.files →
        name ∈ d.commits.flatMap CommitPoint.files := by
      simp only [mem_flatMap]
      exact fun ⟨c, hc, hin⟩ => ⟨c, (unchosen_sublist _ _).subset hc, hin⟩
    rw [hrefs] at hname
    unfold References.refs at hname ⊢
    simp only [mem_add, mem_coe] at hname ⊢
    exact hname.imp_left (Or.imp_left hleft)
  refine ⟨removed, d', hdelete, ?_, hchosen.commits_eq, hchosen.last_eq,
    forall_mem_append.mpr ⟨hreleased.first, hremoved.first⟩,
    fun name hname => hprotected name (hfewer name hname), fun name hname => ?_⟩
  · rw [Opened, hchosen.commits_eq, hchosen.last_eq]
    exact hchosen
  · have hgone : name ∈ d.refs + infos.files false ∧ name ∉ d'.refs := by
      rw [flatten_append, mem_append] at hname
      rcases hname with hname | hname
      · obtain ⟨hbefore, hafter⟩ := (hreleased.deleted name).mp hname
        exact ⟨hbefore, fun hin => hafter (hfewer name hin)⟩
      · obtain ⟨hbefore, hafter⟩ := (hremoved.deleted name).mp hname
        exact ⟨hprotected name hbefore, fun hin => hafter (hrefs ▸ hin)⟩
    refine ⟨?_, hgone.2⟩
    rcases mem_add.mp hgone.1 with hmem | hmem
    · exact h.known name hmem
    · exact hknown name hmem

end Ready

/-! ### Opening as a whole -/

/-- The files stay the same. -/
theorem inflateSegment_files {info info' : SegmentCommitInfo}
    (h : inflateSegment g info = .ok info') : info'.files = info.files := by
  unfold inflateSegment at h
  split at h
  · cases h
  · cases h
    rfl

theorem mapM_inflateSegment_files {segments segments' : List SegmentCommitInfo}
    (h : segments.mapM (inflateSegment g) = .ok segments') :
    segments'.flatMap SegmentCommitInfo.files = segments.flatMap SegmentCommitInfo.files := by
  induction segments generalizing segments' with
  | nil =>
    cases h
    rfl
  | cons info segments ih =>
    rw [mapM_cons] at h
    obtain ⟨info', hinfo, h⟩ := bind_eq_ok.mp h
    obtain ⟨rest, hrest, h⟩ := bind_eq_ok.mp h
    cases h
    rw [flatMap_cons, flatMap_cons, ih hrest, inflateSegment_files hinfo]

/-- Moving generations on does not change the files of the segments. -/
theorem inflateGens_files
    (h : inflateGens infos files = .ok infos') : infos'.files false = infos.files false := by
  obtain ⟨g, -, h⟩ := bind_eq_ok.mp h
  obtain ⟨infos₁, hnext, h⟩ := bind_eq_ok.mp h
  obtain ⟨segments, hsegments, h⟩ := bind_eq_ok.mp h
  cases h
  have hsame : infos₁.segments = infos.segments := by
    unfold SegmentInfos.setNextWriteGeneration at hnext
    split at hnext <;> cases hnext
    rfl
  have hfiles := mapM_inflateSegment_files hsegments
  rw [hsame] at hfiles
  unfold SegmentInfos.files
  rw [hfiles]
  rfl

namespace IndexFileDeleter

variable (readCommit : String → Result SegmentInfos) (files : List String) (infos : SegmentInfos)

/-- The files of the commit in a `segments` file. -/
def commitFiles (file : String) : List String :=
  match readCommit file with
  | .ok infos => infos.files true
  | .error _ => []

/-- The files that the commits of the directory and the segment infos refer to. -/
def knownFiles : List String :=
  (files.filter FileDeleter.isSegments ++ infos.getSegmentsFileName.toList).flatMap
    (commitFiles readCommit) ++ infos.files false

/-- The listing is looked at only for an index that has a current commit. -/
def seenFiles : List String :=
  if infos.getSegmentsFileName.isSome then files else []

variable {readCommit files infos}

/-- The files of a commit are known. -/
theorem mem_knownFiles_of_readCommit {commit : SegmentInfos} (hread : readCommit file = .ok commit)
    (hname : name ∈ commit.files true)
    (hfile : (file ∈ files ∧ FileDeleter.isSegments file = true) ∨
      infos.getSegmentsFileName = some file) : name ∈ knownFiles readCommit files infos := by
  refine mem_append_left _ (mem_flatMap.mpr ⟨file, ?_, ?_⟩)
  · rw [mem_append, mem_filter, Option.mem_toList]
    exact hfile
  · rw [commitFiles, hread]
    exact hname

/-- The commits of the listing are loaded. -/
theorem initFiles_loaded {d' : IndexFileDeleter}
    (h : Loaded readCommit [] [] (knownFiles readCommit files infos) d)
    (hinit : initFiles readCommit files infos d = .ok (d', current)) :
    Loaded readCommit ((seenFiles files infos).filter isCommitFile) (seenFiles files infos)
      (knownFiles readCommit files infos) d' := by
  unfold initFiles at hinit
  unfold seenFiles
  split at hinit
  · rename_i hsome
    rw [if_pos hsome]
    exact h.initFiles hinit fun file hfile hsegments commit hread name hname =>
      mem_knownFiles_of_readCommit hread hname (.inl ⟨hfile, hsegments⟩)
  · rename_i hnone
    cases hinit
    rw [if_neg hnone]
    exact h

variable {sources listing : List String}

/-- The current commit is loaded if the listing did not show it. -/
theorem forceCurrent_loaded {state state' : IndexFileDeleter × Option CommitPoint}
    (h : Loaded readCommit sources listing (knownFiles readCommit files infos) state.1)
    (hforce : forceCurrent readCommit infos initialIndexExists state = .ok state') :
    ∃ forced, (∀ file ∈ forced, infos.getSegmentsFileName = some file) ∧
      Loaded readCommit (sources ++ forced) listing (knownFiles readCommit files infos)
        state'.1 := by
  unfold forceCurrent at hforce
  split at hforce
  · rename_i file hfile _
    obtain ⟨⟨commit, point, d⟩, hload, hrest⟩ := bind_eq_ok.mp hforce
    cases hrest
    exact ⟨[file], forall_mem_singleton.mpr hfile, h.loadCommit hload
      fun commit hread name hname => mem_knownFiles_of_readCommit hread hname (.inr hfile)⟩
  · cases hforce
    exact ⟨[], nofun, (append_nil sources).symm ▸ h⟩

/-- The files that a successful opening deletes. An opening that fails deletes none. -/
def deletedBy : Result (List Batch × SegmentInfos × IndexFileDeleter) → List String
  | .ok (batches, _, _) => batches.flatten
  | .error _ => []

/-- The infos are those of a reader, or their files are those of commits in the listing. -/
def Backed (readCommit : String → Result SegmentInfos) (files : List String)
    (infos : SegmentInfos) (isReaderInit : Bool) : Prop :=
  isReaderInit = true ∨ ∀ name ∈ infos.files false,
    ∃ file ∈ (seenFiles files infos).filter isCommitFile, name ∈ commitFiles readCommit file

/-- What opening a deleter does. -/
structure Opens (readCommit : String → Result SegmentInfos) (files : List String)
    (onInit : Decision) (infos : SegmentInfos) (isReaderInit : Bool) (batches : List Batch)
    (d : IndexFileDeleter) : Prop where
  opened : Opened d
  first : ∀ batch ∈ batches, SegmentsFirst batch
  /-- The commits are those in the `segments` files of the directory that the policy keeps. -/
  commits : ∃ forced loaded, (∀ file ∈ forced, infos.getSegmentsFileName = some file) ∧
    Forall₂ (Holds readCommit) ((seenFiles files infos).filter isCommitFile ++ forced) loaded ∧
    d.commits = kept onInit (loaded.mergeSort fun a b => a.generation ≤ b.generation)
  last_eq : d.lastFiles = infos.files false
  /-- Files that are deleted are swept from the listing, or were files of commits. -/
  swept : ∃ refs : Multiset String, (∀ name ∈ refs, name ∈ knownFiles readCommit files infos) ∧
    (∀ name ∈ batches.flatten, name ∈ knownFiles readCommit files infos ∨
      (name ∈ seenFiles files infos ∧ isCandidate name = true) ∧ name ∉ refs) ∧
    ∀ name, (name ∈ seenFiles files infos ∧ isCandidate name = true) ∧ name ∉ refs →
      name ∈ batches.flatten
  unneeded : Backed readCommit files infos isReaderInit → ∀ name ∈ batches.flatten, name ∉ d.refs

/-- A reader's infos are protected before anything is deleted. -/
theorem protect_ready {isReaderInit : Bool} {known : List String} {d d' : IndexFileDeleter}
    {protectedFiles : List Batch} (h : Loaded readCommit sources listing known d)
    (hknown : ∀ name ∈ infos.files false, name ∈ known)
    (hprotect : (if isReaderInit then d.checkpoint infos false noDecision else .ok ([], d)) =
      .ok (protectedFiles, d')) :
    protectedFiles.flatten = [] ∧ (∀ batch ∈ protectedFiles, SegmentsFirst batch) ∧
      Ready listing known d' ∧ d'.commits = d.commits ∧ (∀ name ∈ d.refs, name ∈ d'.refs) ∧
      (isReaderInit = true → ∀ name ∈ infos.files false, name ∈ d'.refs) := by
  cases isReaderInit with
  | false =>
    cases hprotect
    exact ⟨rfl, nofun, h.toReady, rfl, fun _ hname => hname, nofun⟩
  | true =>
    obtain ⟨d₁, hcheckpoint, hready, hcommits, hrefs⟩ := h.checkpoint infos hknown
    cases hcheckpoint.symm.trans hprotect
    exact ⟨rfl, forall_mem_singleton.mpr (FileDeleter.segmentsFirst_deleteFiles []), hready,
      hcommits, fun name hname => hrefs ▸ mem_add.mpr (.inl hname),
      fun _ name hname => hrefs ▸ mem_add.mpr (.inr hname)⟩

/-- The files of the infos are among those that have been protected or loaded. -/
theorem mem_refs_of_backed {isReaderInit : Bool} {forced known : List String}
    {d d' : IndexFileDeleter} (h : Loaded readCommit
      ((seenFiles files infos).filter isCommitFile ++ forced) listing known d)
    (hrefs : ∀ name ∈ d.refs, name ∈ d'.refs)
    (hreader : isReaderInit = true → ∀ name ∈ infos.files false, name ∈ d'.refs)
    (hbacked : Backed readCommit files infos isReaderInit) :
    ∀ name ∈ infos.files false, name ∈ d'.refs := by
  intro name hname
  rcases hbacked with hinit | hcommits
  · exact hreader hinit name hname
  · obtain ⟨file, hfile, hlisted⟩ := hcommits name hname
    unfold commitFiles at hlisted
    split at hlisted
    · rename_i infos' hread
      exact hrefs name (h.mem_refs (mem_append_left _ hfile) hread hlisted)
    · cases hlisted

/-- Opening a deleter: the counts are right, and the files that are deleted are candidates of the
listing that nobody refers to, and files of commits. -/
theorem new_spec {pendingDeletions : List String} {onInit : Decision} {isReaderInit : Bool}
    (hnew : new readCommit files pendingDeletions onInit infos initialIndexExists isReaderInit =
      .ok (batches, infos', d)) :
    Opens readCommit files onInit infos isReaderInit batches d := by
  have hempty : Loaded readCommit [] [] (knownFiles readCommit files infos)
      ⟨[], [], false, !initialIndexExists, ⟨∅⟩⟩ :=
    ⟨⟨Opened.empty _, fun name => by simp [IndexFileDeleter.refs, References.refs],
      fun name hname => by simp [IndexFileDeleter.refs, References.refs] at hname⟩, rfl, .nil⟩
  obtain ⟨⟨d₁, current₁⟩, hinit, hnew⟩ := bind_eq_ok.mp hnew
  obtain ⟨⟨d₂, current⟩, hforce, hnew⟩ := bind_eq_ok.mp hnew
  obtain ⟨⟨protectedFiles, d₃⟩, hprotect, hnew⟩ := bind_eq_ok.mp hnew
  obtain ⟨infos₁, hinflate, hnew⟩ := bind_eq_ok.mp hnew
  obtain ⟨forced, hforced, hloaded⟩ :=
    forceCurrent_loaded (initFiles_loaded hempty hinit) hforce
  have hinfos : ∀ name ∈ infos.files false, name ∈ knownFiles readCommit files infos :=
    fun name hname => mem_append_right _ hname
  obtain ⟨hnone, hfirst, hready, hcommits, hrefs, hreader⟩ := protect_ready hloaded hinfos hprotect
  have hperm := mergeSort_perm d₃.commits fun a b => a.generation ≤ b.generation
  dsimp only at hnew
  split at hnew
  · cases hnew
  · have hsame := inflateGens_files hinflate
    obtain ⟨released, d₄, hcheckpoint, hfinish⟩ :=
      (hready.perm hperm).finish onInit infos₁ (hsame.symm ▸ hinfos)
    obtain ⟨⟨released', d₄'⟩, hcheckpoint', hnew⟩ := bind_eq_ok.mp hnew
    rw [hcheckpoint] at hcheckpoint'
    cases hcheckpoint'
    obtain ⟨removed, d', hdelete, hopened, hkept, hlast, hfirst', hfewer, hgone⟩ :=
      hfinish (current.elim false fun c => d₄.commits.any fun c' => c'.id = c.id && c'.deleted)
    rw [hdelete] at hnew
    cases hnew
    rw [refs_perm hperm, hsame] at hfewer
    have hmem : ∀ name, name ∈ (protectedFiles ++
        [d₃.fileDeleter.deleteFilesIfNoRef d₃.fileDeleter.getUnrefedFiles] ++ released ++
          removed).flatten ↔
        ((name ∈ seenFiles files infos ∧ isCandidate name = true) ∧ name ∉ d₃.refs) ∨
          name ∈ (released ++ removed).flatten := by
      intro name
      rw [append_assoc, flatten_append, flatten_append, hnone, nil_append, mem_append,
        flatten_singleton, hready.mem_swept name]
    refine ⟨hopened, fun batch hbatch => ?_, ⟨forced, d₂.commits, hforced, hloaded.commits, ?_⟩,
      hlast.trans hsame, ⟨_, hready.known, fun name hname => ?_, fun name hname => ?_⟩,
      fun hbacked name hname => ?_⟩
    · rw [append_assoc, mem_append, mem_append, mem_singleton] at hbatch
      rcases hbatch with (hbatch | rfl) | hbatch
      · exact hfirst batch hbatch
      · exact FileDeleter.segmentsFirst_deleteFiles _
      · exact hfirst' batch hbatch
    · rw [hkept, hcommits]
    · exact ((hmem name).mp hname).elim .inr fun h => .inl (hgone name h).1
    · exact (hmem name).mpr (.inl hname)
    · rcases (hmem name).mp hname with ⟨-, hout⟩ | hname
      · intro hin
        rcases mem_add.mp (hfewer name hin) with hin | hin
        · exact hout hin
        · exact hout (mem_refs_of_backed hloaded hrefs hreader hbacked name hin)
      · exact (hgone name hname).2

/-- A deleter that has been opened refers to the commits of the directory that the policy keeps and
to the files of the infos, and opening deletes none of them. From then on the counts are the
references of the live commits, of the last checkpoint and of the holders, and files that have
references are deleted exactly when the last one goes away. -/
theorem new_runAgrees {pendingDeletions : List String} {onInit : Decision}
    {initialIndexExists isReaderInit : Bool} {batches : List Batch} {infos' : SegmentInfos}
    {d : IndexFileDeleter}
    (hnew : new readCommit files pendingDeletions onInit infos initialIndexExists isReaderInit =
      .ok (batches, infos', d)) :
    (∃ forced loaded, (∀ file ∈ forced, infos.getSegmentsFileName = some file) ∧
      Forall₂ (Holds readCommit) ((seenFiles files infos).filter isCommitFile ++ forced) loaded ∧
      d.commits = kept onInit (loaded.mergeSort fun a b => a.generation ≤ b.generation)) ∧
      d.lastFiles = infos.files false ∧
      (∀ batch ∈ batches, SegmentsFirst batch) ∧
      (Backed readCommit files infos isReaderInit → ∀ name ∈ batches.flatten,
        d.fileDeleter.refCounts.count name = 0) ∧
      (∀ name, d.fileDeleter.refCounts.count name =
        References.count ⟨d.commits, d.lastFiles, 0⟩ name) ∧
      ∀ ops, References.LegalRun ⟨d.commits, d.lastFiles, 0⟩ ops →
        References.RunAgrees ⟨d.commits, d.lastFiles, 0⟩ d ops := by
  have hopens := new_spec hnew
  refine ⟨hopens.commits, hopens.last_eq, hopens.first, fun hbacked name hname => ?_,
    hopens.opened.count_eq, fun ops hlegal => hopens.opened.run hlegal⟩
  have hout := hopens.unneeded hbacked name hname
  rw [IndexFileDeleter.refs, ← hopens.opened.counts.pos_iff name] at hout
  omega

/-- An index with one commit of one segment. -/
def oneSegment : SegmentInfos :=
  ⟨1, 1, 1, [⟨"_0", ["_0.si", "_0.cfs"], 1, 1, 1⟩]⟩

/-- A directory with one commit. -/
def readOneSegment (file : String) : Result SegmentInfos :=
  if file = "segments_1" then .ok oneSegment else .error (.illegalState "no such file")

/-- The next commit, of another segment. -/
def otherSegment : SegmentInfos :=
  ⟨2, 2, 2, [⟨"_1", ["_1.si", "_1.cfs"], 1, 1, 1⟩]⟩

/-- Only the last commit is kept. -/
def keepOnlyLast : Decision :=
  fun commits i => i + 1 < commits.length

/-- A directory with one commit and a file that nobody needs. -/
theorem new_runAgrees_oneSegment :
    Backed readOneSegment ["segments_1", "_0.si", "_0.cfs", "_9.cfs"] oneSegment false ∧
    ∃ batches infos' d, new readOneSegment ["segments_1", "_0.si", "_0.cfs", "_9.cfs"] []
        noDecision oneSegment true false = .ok (batches, infos', d) ∧
      (∀ name ∈ batches.flatten, d.fileDeleter.refCounts.count name = 0) ∧
      References.RunAgrees ⟨d.commits, d.lastFiles, 0⟩ d
        [.incRef ["_0.cfs"], .checkpoint otherSegment false keepOnlyLast,
          .checkpoint otherSegment true keepOnlyLast, .decRef ["_0.cfs"],
          .deleteNewFiles ["_2.cfs"], .refresh ["segments_2", "_1.si", "_1.cfs", "_2.si"],
          .revisitPolicy keepOnlyLast, .close] := by
  have hbacked : Backed readOneSegment ["segments_1", "_0.si", "_0.cfs", "_9.cfs"] oneSegment
      false := .inr (by decide +kernel)
  have hok : (new readOneSegment ["segments_1", "_0.si", "_0.cfs", "_9.cfs"] [] noDecision
      oneSegment true false).toOption.isSome = true := by decide +kernel
  refine ⟨hbacked, ?_⟩
  cases hnew : new readOneSegment ["segments_1", "_0.si", "_0.cfs", "_9.cfs"] [] noDecision
      oneSegment true false with
  | error e =>
    rw [hnew] at hok
    cases hok
  | ok r =>
    obtain ⟨batches, infos', d⟩ := r
    obtain ⟨-, -, -, hunneeded, -, hrun⟩ := new_runAgrees hnew
    refine ⟨batches, infos', d, rfl, hunneeded hbacked, hrun _ ?_⟩
    refine ⟨trivial, trivial, rfl, ?_, trivial, trivial, trivial, trivial, trivial⟩
    show (["_0.cfs"] : Multiset String) ≤ 0 + ["_0.cfs"]
    rw [zero_add]

/-- A file that never had a reference is deleted by the two sweeps. -/
theorem deleteNewFiles_neverReferenced :
    ((new readOneSegment ["segments_1", "_0.si", "_0.cfs"] [] noDecision oneSegment true false).map
      fun r => (r.2.2.fileDeleter.refCounts.count "_9.cfs", r.2.2.deleteNewFiles ["_9.cfs"],
        r.2.2.refresh ["segments_1", "_0.si", "_0.cfs", "_9.cfs"])) =
      .ok (0, ["_9.cfs"], ["_9.cfs"]) := by
  decide +kernel

/-! ## Files that are not index files -/

/-- A foreign file has not the name of an index file, and nothing refers to it. -/
def IsForeign (readCommit : String → Result SegmentInfos) (files : List String)
    (infos : SegmentInfos) (name : String) : Prop :=
  ¬ IndexFileNames.IsIndexFileName name ∧ name ∉ knownFiles readCommit files infos

/-- Whether it is one can be decided. -/
instance (name : String) : Decidable (IsForeign readCommit files infos name) :=
  inferInstanceAs (Decidable (_ ∧ _))

/-- A file that is not of the index is passed over. -/
theorem initFile_skip (h : isCandidate file = false)
    (state : IndexFileDeleter × Option CommitPoint) :
    initFile readCommit currentGen state file = .ok state := by
  rw [isCandidate, Bool.and_eq_false_iff, Bool.not_eq_false'] at h
  unfold initFile
  dsimp only
  rcases h with h | h
  · rw [if_pos h]
  · split
    · rfl
    · rw [if_neg (by rw [h]; exact Bool.false_ne_true)]

/-- The names of pending deletions from which generations are read. -/
def isCounted (name : String) : Bool :=
  name ≠ "write.lock" && (FileDeleter.isSegments name ||
    IndexFileNames.startsWith name IndexFileNames.pendingSegments ||
    !Generations.isTempFile name.toList)

/-- A file without a number is passed over. -/
theorem note_skip (h : isCounted name = false) (g : Generations) : g.note name = .ok g := by
  unfold isCounted FileDeleter.isSegments at h
  unfold Generations.note
  split
  · rfl
  · rename_i hlock
    simp only [hlock, ne_eq, not_false_eq_true, decide_true, Bool.true_and, Bool.or_eq_false_iff,
      Bool.not_eq_false'] at h
    obtain ⟨⟨hsegments, hpending⟩, htemp⟩ := h
    rw [if_neg (by rw [hsegments]; exact Bool.false_ne_true),
      if_neg (by rw [hpending]; exact Bool.false_ne_true)]
    unfold Generations.noteSegmentFile
    rw [if_pos htemp]
    rfl

section

variable (readCommit : String → Result SegmentInfos) (files : List String) (infos : SegmentInfos)

/-- The listing has no foreign file with a name that is looked at. -/
def CleanListing : Prop :=
  ∀ name ∈ seenFiles files infos, isCandidate name = true → ¬ IsForeign readCommit files infos name

/-- No generation is read from the name of a foreign file whose deletion is pending. -/
def CleanPending (pendingDeletions : List String) : Prop :=
  ∀ name ∈ pendingDeletions, isCounted name = true → ¬ IsForeign readCommit files infos name

/-- The files that are not foreign. -/
def withoutForeign (names : List String) : List String :=
  names.filter fun name => ¬ IsForeign readCommit files infos name

end

/-- Foreign files do not matter for what is tracked. -/
theorem initFiles_withoutForeign (h : CleanListing readCommit files infos) (d : IndexFileDeleter) :
    initFiles readCommit (withoutForeign readCommit files infos files) infos d =
      initFiles readCommit files infos d := by
  unfold initFiles
  split
  · rename_i hsome
    rw [CleanListing, seenFiles, if_pos hsome] at h
    refine foldlM_filter (fun file hfile hdrop => initFile_skip ?_) _
    by_contra hin
    exact of_decide_eq_false hdrop (h file hfile (Bool.eq_true_of_not_eq_false hin))
  · rfl

/-- Nor for the numbers. -/
theorem inflateGens_withoutForeign {pendingDeletions : List String}
    (h : CleanPending readCommit files infos pendingDeletions) (infos₁ : SegmentInfos)
    (registered : List String) :
    inflateGens infos₁ (registered ++ withoutForeign readCommit files infos pendingDeletions) =
      inflateGens infos₁ (registered ++ pendingDeletions) := by
  unfold inflateGens
  rw [foldlM_append, foldlM_append]
  have hsame : ∀ g, (withoutForeign readCommit files infos pendingDeletions).foldlM
      Generations.note g = pendingDeletions.foldlM Generations.note g := by
    refine foldlM_filter fun name hname hdrop => note_skip ?_
    by_contra hin
    exact of_decide_eq_false hdrop (h name hname (Bool.eq_true_of_not_eq_false hin))
  rw [funext hsame]

/-- Refreshing deletes only index files exactly if no unreferenced file that is looked at has
another name. Opening deletes no foreign file exactly if it fails or the listing is clean, and
foreign files have no influence if the pending deletions are clean, too. -/
theorem deletes_notForeign_iff (readCommit : String → Result SegmentInfos)
    (files pendingDeletions : List String) (onInit : Decision) (infos : SegmentInfos)
    (initialIndexExists isReaderInit : Bool) :
    (∀ (d : IndexFileDeleter) (listing : List String),
      (∀ name ∈ d.refresh listing, IndexFileNames.IsIndexFileName name) ↔
        ∀ name ∈ listing, isCandidate name = true → d.fileDeleter.existsFile name = false →
          IndexFileNames.IsIndexFileName name) ∧
    ((∀ name ∈ deletedBy (new readCommit files pendingDeletions onInit infos initialIndexExists
        isReaderInit), ¬ IsForeign readCommit files infos name) ↔
      ∀ r, new readCommit files pendingDeletions onInit infos initialIndexExists isReaderInit =
        .ok r → CleanListing readCommit files infos) ∧
    (CleanListing readCommit files infos →
      CleanPending readCommit files infos pendingDeletions →
      new readCommit (withoutForeign readCommit files infos files)
          (withoutForeign readCommit files infos pendingDeletions) onInit infos initialIndexExists
          isReaderInit =
        new readCommit files pendingDeletions onInit infos initialIndexExists isReaderInit) := by
  refine ⟨fun d listing => ?_, ?_, fun hlisting hpending => ?_⟩
  · have hmem : ∀ name, name ∈ d.refresh listing ↔
        name ∈ listing ∧ isCandidate name = true ∧ d.fileDeleter.existsFile name = false := by
      intro name
      rw [refresh, FileDeleter.deleteFilesIfNoRef, FileDeleter.mem_deleteFiles, mem_dedup,
        mem_filter, mem_dedup, mem_filter, isCandidate]
      cases isLockFile name <;> cases d.fileDeleter.existsFile name <;> simp
    simp only [hmem]
    exact ⟨fun h name hin hcand hexists => h name ⟨hin, hcand, hexists⟩,
      fun h name hin => h name hin.1 hin.2.1 hin.2.2⟩
  · cases hnew : new readCommit files pendingDeletions onInit infos initialIndexExists
      isReaderInit with
    | error e =>
      constructor
      · intro _ _ hr
        cases hr
      · intro _ _ hname
        cases hname
    | ok r =>
      obtain ⟨batches, infos', d⟩ := r
      obtain ⟨refs, hrefs, hdeleted, hswept⟩ := (new_spec hnew).swept
      constructor
      · intro h _ _ name hname hcand hforeign
        have hout : name ∉ refs := fun hin => hforeign.2 (hrefs name hin)
        exact h name (hswept name ⟨⟨hname, hcand⟩, hout⟩) hforeign
      · intro h name hname hforeign
        rcases hdeleted name hname with hknown | ⟨⟨hseen, hcand⟩, -⟩
        · exact hforeign.2 hknown
        · exact h _ rfl name hseen hcand hforeign
  · unfold new
    simp only [initFiles_withoutForeign hlisting, inflateGens_withoutForeign hpending]

/-- A foreign file with an underscore and an extension is deleted, and moves the segment counter. -/
theorem deletes_myNotes :
    ¬ IndexFileNames.IsIndexFileName "my_notes.txt" ∧
    ((new readOneSegment ["segments_1", "_0.si", "_0.cfs", "my_notes.txt"] [] noDecision oneSegment
      true false).map fun r => (r.1.flatten, r.2.1.counter,
        r.2.2.refresh ["segments_1", "_0.si", "_0.cfs", "my_notes.txt"])) =
      .ok (["my_notes.txt"], 35, ["my_notes.txt"]) ∧
    ((new readOneSegment ["segments_1", "_0.si", "_0.cfs"] [] noDecision oneSegment true false).map
      fun r => (r.1.flatten, r.2.1.counter)) = .ok ([], 1) := by
  decide +kernel

end IndexFileDeleter

end RLucene.Index
