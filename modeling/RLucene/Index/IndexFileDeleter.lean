import RLucene.Index.IndexFileNames
import RLucene.Lib.RefTable

/-!
# Deleting index files

`FileDeleter` counts references to files, and `IndexFileDeleter` takes and drops them for commit
points, for the last checkpoint and for whoever asks. The directory is seen through the names it
lists and the files that are deleted from it: every function that deletes returns the batches of
names in the order of their deletion. Deletions succeed, and so do the calls of the deletion policy,
which is a choice among the commits it is shown.
-/

namespace RLucene.Index

open Lib Store

/-! ## Segment infos -/

/-- The parts of a segment that deleting files depends on. -/
structure SegmentCommitInfo where
  name : String
  files : List String
  nextWriteDelGen : Int
  nextWriteFieldInfosGen : Int
  nextWriteDocValuesGen : Int
  deriving DecidableEq, Repr

/-- The part of a commit that the deleter reads. -/
structure SegmentInfos where
  generation : Int
  lastGeneration : Int
  counter : Int
  segments : List SegmentCommitInfo
  deriving DecidableEq, Repr

namespace SegmentInfos

/-- The name of the file that was written last. -/
def getSegmentsFileName (infos : SegmentInfos) : Option String :=
  IndexFileNames.fileNameFromGeneration IndexFileNames.segments "" infos.lastGeneration

/-- The set of all files, as a list without repetitions. -/
def files (infos : SegmentInfos) (includeSegmentsFile : Bool) : List String :=
  ((if includeSegmentsFile then infos.getSegmentsFileName.toList else []) ++
    infos.segments.flatMap SegmentCommitInfo.files).dedup

/-- The generation of the next commit, which must not go back. -/
def setNextWriteGeneration (infos : SegmentInfos) (generation : Int) : Result SegmentInfos :=
  if generation < infos.generation then
    .error (.illegalState
      s!"Cannot decrease generation to {generation} from current generation {infos.generation}")
  else .ok { infos with generation }

end SegmentInfos

/-! ## Counting references -/

/-- The files of a directory and how often each is referenced. -/
structure FileDeleter where
  refCounts : RefTable String

/-- Names in the order in which their files are deleted. -/
abbrev Batch := List String

namespace FileDeleter

/-- Whether a file names a commit. -/
def isSegments (name : String) : Bool :=
  IndexFileNames.startsWith name IndexFileNames.segments

/-- Delete files, the `segments` files first. -/
def deleteFiles (fileNames : List String) : Batch :=
  fileNames.filter isSegments ++ fileNames.filter fun name => !isSegments name

/-- Reference some files. -/
def incRef (d : FileDeleter) (fileNames : List String) : FileDeleter :=
  ⟨d.refCounts.incAll fileNames⟩

/-- Drop references and delete the files that have none left. -/
def decRef (d : FileDeleter) (fileNames : List String) : Batch × FileDeleter :=
  let (toDelete, refCounts) := d.refCounts.decAll fileNames
  (deleteFiles toDelete, ⟨refCounts⟩)

/-- Track a file without a reference. -/
def initRefCount (d : FileDeleter) (fileName : String) : FileDeleter :=
  ⟨d.refCounts.register fileName⟩

/-- The file has references. -/
def existsFile (d : FileDeleter) (fileName : String) : Bool :=
  d.refCounts.count fileName > 0

/-- The files that are tracked. -/
def getAllFiles (d : FileDeleter) : List String :=
  d.refCounts.keys

/-- Files that are known but have no references. -/
def getUnrefedFiles (d : FileDeleter) : List String :=
  d.refCounts.keys.filter fun name => d.refCounts.count name = 0

/-- Delete those that are not referenced. -/
def deleteFilesIfNoRef (d : FileDeleter) (fileNames : List String) : Batch :=
  deleteFiles (fileNames.filter fun name => !d.existsFile name).dedup

end FileDeleter

/-! ## Generations -/

/-- What is known about generations from the names of files. -/
structure Generations where
  maxSegmentGen : Int
  maxSegmentName : Int
  maxPerSegmentGen : List (List Char × Int)
  deriving DecidableEq, Repr

namespace Generations

/-- No file yet. -/
def new : Generations :=
  ⟨-2 ^ 63, -2 ^ 63, []⟩

/-- A `segments` file whose generation cannot be parsed is skipped. -/
def noteSegments (g : Generations) (fileName : String) : Result Generations :=
  match IndexFileNames.generationFromSegmentsFileName fileName with
  | .ok generation => .ok { g with maxSegmentGen := max g.maxSegmentGen generation }
  | .error (.numberFormat _) => .ok g
  | .error e => .error e

/-- Whether it is a temporary file. -/
def isTempFile (fileName : List Char) : Bool :=
  ".tmp".toList.isSuffixOf (fileName.map Char.toLower)

/-- A file of a segment. The error of an unparseable generation is not the one that would be
skipped. -/
def noteSegmentFile (g : Generations) (fileName : String) : Result Generations := do
  let segmentName := IndexFileNames.parseSegmentName fileName.toList
  if isTempFile fileName.toList then return g
  else
    let digits ← IndexFileNames.dropByte segmentName
    match IndexFileNames.fromStrRadix36 digits with
    | none => .error .parseInt
    | some number =>
      let current := (g.maxPerSegmentGen.lookup segmentName).getD 0
      let generation ← (match IndexFileNames.parseGeneration fileName.toList with
        | .ok generation => .ok (max current generation)
        | .error (.numberFormat _) => .ok current
        | .error e => .error e)
      return { g with
        maxSegmentName := max g.maxSegmentName number
        maxPerSegmentGen := (segmentName, generation) :: g.maxPerSegmentGen }

/-- Take in the name of a file. -/
def note (g : Generations) (fileName : String) : Result Generations :=
  if fileName = "write.lock" then .ok g
  else if IndexFileNames.startsWith fileName IndexFileNames.segments then g.noteSegments fileName
  else if IndexFileNames.startsWith fileName IndexFileNames.pendingSegments then
    g.noteSegments (String.ofList (fileName.toList.drop 8))
  else g.noteSegmentFile fileName

end Generations

/-- Move the generations of a segment behind all that have been seen. -/
def inflateSegment (g : Generations) (info : SegmentCommitInfo) : Result SegmentCommitInfo :=
  match g.maxPerSegmentGen.lookup info.name.toList with
  | none => .error (.illegalState s!"missing maximum generation for segment {info.name}")
  | some generation => .ok { info with
      nextWriteDelGen := max info.nextWriteDelGen (asI 64 (generation + 1))
      nextWriteFieldInfosGen := max info.nextWriteFieldInfosGen (asI 64 (generation + 1))
      nextWriteDocValuesGen := max info.nextWriteDocValuesGen (asI 64 (generation + 1)) }

/-- Go on from the greatest numbers that any file of the directory has. -/
def inflateGens (infos : SegmentInfos) (files : List String) : Result SegmentInfos := do
  let g ← files.foldlM Generations.note Generations.new
  let infos ← infos.setNextWriteGeneration (max infos.generation g.maxSegmentGen)
  let segments ← infos.segments.mapM (inflateSegment g)
  return { infos with
    counter := max infos.counter (asI 64 (1 + g.maxSegmentName))
    segments }

/-! ## Commit points -/

/-- A commit point. The identity is that of the shared object. -/
structure CommitPoint where
  id : Nat
  files : List String
  segmentsFileName : String
  generation : Int
  deleted : Bool
  deriving DecidableEq, Repr

/-- The commit of some segments, if they have a file. -/
def CommitPoint.new (id : Nat) (infos : SegmentInfos) : Result CommitPoint :=
  match infos.getSegmentsFileName with
  | none => .error (.illegalState "segment_N file is none")
  | some segmentsFileName =>
    .ok ⟨id, infos.files true, segmentsFileName, infos.generation, false⟩

/-- A decision of the deletion policy: which of the commits it is shown are to be deleted. -/
abbrev Decision := List CommitPoint → Nat → Bool

/-- The commits and the last checkpoint, with the references they hold. -/
structure IndexFileDeleter where
  commits : List CommitPoint
  lastFiles : List String
  commitsToDelete : Bool
  startingCommitDeleted : Bool
  fileDeleter : FileDeleter

namespace IndexFileDeleter

/-- Reference some files. -/
def incRefFiles (d : IndexFileDeleter) (files : List String) : IndexFileDeleter :=
  { d with fileDeleter := d.fileDeleter.incRef files }

/-- Give up references. -/
def decRef (d : IndexFileDeleter) (files : List String) : Batch × IndexFileDeleter :=
  let (batch, fileDeleter) := d.fileDeleter.decRef files
  (batch, { d with fileDeleter })

/-- Let the policy delete commits: they are marked, and so is that there are any. -/
def askPolicy (d : IndexFileDeleter) (decision : Decision) : IndexFileDeleter :=
  { d with
    commits := d.commits.mapIdx fun i c =>
      if decision d.commits i then { c with deleted := true } else c
    commitsToDelete := d.commitsToDelete ||
      (d.commits.mapIdx fun i c => decision d.commits i && !c.deleted).any id }

/-- Drop the references of commits, one after another. -/
def decRefCommits (fileDeleter : FileDeleter) : List CommitPoint → List Batch × FileDeleter
  | [] => ([], fileDeleter)
  | c :: commits =>
    let (batch, fileDeleter) := fileDeleter.decRef c.files
    let (batches, fileDeleter) := decRefCommits fileDeleter commits
    (batch :: batches, fileDeleter)

/-- Remove the commits that have been marked. -/
def deleteCommits (d : IndexFileDeleter) : List Batch × IndexFileDeleter :=
  if !d.commitsToDelete then ([], d)
  else
    let (batches, fileDeleter) := decRefCommits d.fileDeleter (d.commits.filter (·.deleted))
    (batches, { d with
      fileDeleter
      commitsToDelete := false
      commits := d.commits.filter fun c => !c.deleted })

/-- Whether it is the lock of the writer. -/
def isLockFile (fileName : String) : Bool :=
  IndexFileNames.endsWith fileName "write.lock"

/-- The names that are taken for those of index files. -/
def isRelevant (fileName : String) : Bool :=
  IndexFileNames.codecFilePatternIsMatch fileName ||
    IndexFileNames.startsWith fileName IndexFileNames.segments ||
    IndexFileNames.startsWith fileName IndexFileNames.pendingSegments

/-- Delete unreferenced files among those that the directory lists. -/
def refresh (d : IndexFileDeleter) (listing : List String) : Batch :=
  d.fileDeleter.deleteFilesIfNoRef (listing.filter fun name =>
    !isLockFile name && !d.fileDeleter.existsFile name && isRelevant name).dedup

/-- Ask the policy about the commits that are there. -/
def revisitPolicy (d : IndexFileDeleter) (onCommit : Decision) : List Batch × IndexFileDeleter :=
  if d.commits = [] then ([], d) else (d.askPolicy onCommit).deleteCommits

/-- Reference the files of some segments: of a commit, or in place of the last checkpoint. -/
def checkpoint (d : IndexFileDeleter) (infos : SegmentInfos) (isCommit : Bool)
    (onCommit : Decision) : Result (List Batch × IndexFileDeleter) :=
  if isCommit then do
    let d := d.incRefFiles (infos.files true)
    let commit ← CommitPoint.new d.commits.length infos
    return (({ d with commits := d.commits ++ [commit] }).askPolicy onCommit).deleteCommits
  else
    let newFiles := infos.files false
    let (batch, d) := (d.incRefFiles newFiles).decRef d.lastFiles
    .ok ([batch], { d with lastFiles := newFiles })

/-- Delete new files that nobody references. -/
def deleteNewFiles (d : IndexFileDeleter) (files : List String) : Batch :=
  d.fileDeleter.deleteFilesIfNoRef files

/-- Give up the files of the last checkpoint. -/
def close (d : IndexFileDeleter) : List Batch × IndexFileDeleter :=
  if d.lastFiles = [] then ([], d)
  else
    let (batch, d') := d.decRef d.lastFiles
    ([batch], { d' with lastFiles := [] })

/-! ## Opening -/

section

variable (readCommit : String → Result SegmentInfos)

/-- Load a commit point and take its references. -/
def loadCommit (d : IndexFileDeleter) (file : String) :
    Result (SegmentInfos × CommitPoint × IndexFileDeleter) := do
  let infos ← readCommit file
  let commit ← CommitPoint.new d.commits.length infos
  return (infos, commit, ({ d with commits := d.commits ++ [commit] }).incRefFiles commit.files)

/-- A file of the listing is registered, and a commit is loaded. -/
def initFile (currentGen : Int) (state : IndexFileDeleter × Option CommitPoint) (file : String) :
    Result (IndexFileDeleter × Option CommitPoint) :=
  let (d, current) := state
  if isLockFile file then .ok state
  else if isRelevant file then
    let d := { d with fileDeleter := d.fileDeleter.initRefCount file }
    if IndexFileNames.startsWith file IndexFileNames.segments then do
      let (infos, commit, d) ← loadCommit readCommit d file
      return (d, if infos.generation = currentGen then some commit else current)
    else .ok (d, current)
  else .ok state

/-- Track the files of the directory and load its commits. -/
def initFiles (files : List String) (infos : SegmentInfos) (d : IndexFileDeleter) :
    Result (IndexFileDeleter × Option CommitPoint) :=
  if infos.getSegmentsFileName.isSome then
    files.foldlM (initFile readCommit infos.generation) (d, none)
  else .ok (d, none)

/-- Open the current commit that the listing did not show. -/
def forceCurrent (infos : SegmentInfos) (initialIndexExists : Bool)
    (state : IndexFileDeleter × Option CommitPoint) :
    Result (IndexFileDeleter × Option CommitPoint) :=
  match infos.getSegmentsFileName, state.2, initialIndexExists with
  | some file, none, true => do
    let (_, commit, d) ← loadCommit readCommit state.1 file
    return (d, some commit)
  | _, _, _ => .ok state

/-- A policy that keeps all commits. -/
def noDecision : Decision :=
  fun _ _ => false

/-- Open a deleter: load the commits of the directory, delete what none of them refers to, and let
the policy delete commits. The segment infos come back with their generations moved on. -/
def new (files pendingDeletions : List String) (onInit : Decision) (infos : SegmentInfos)
    (initialIndexExists isReaderInit : Bool) :
    Result (List Batch × SegmentInfos × IndexFileDeleter) := do
  let d : IndexFileDeleter := ⟨[], [], false, !initialIndexExists, ⟨∅⟩⟩
  let state ← initFiles readCommit files infos d
  let (d, current) ← forceCurrent readCommit infos initialIndexExists state
  let (protectedFiles, d) ←
    (if isReaderInit then d.checkpoint infos false noDecision else .ok ([], d))
  let d := { d with commits := d.commits.mergeSort (fun a b => a.generation ≤ b.generation) }
  let infos ← inflateGens infos (d.fileDeleter.getAllFiles ++ pendingDeletions)
  let unrefed := d.fileDeleter.getUnrefedFiles
  if unrefed.any FileDeleter.isSegments then
    .error (.illegalState "file \"\x7bfile\x7d\" has refCount=0, which should never happen on init")
  else
    let swept := d.fileDeleter.deleteFilesIfNoRef unrefed
    let d := d.askPolicy onInit
    let (released, d) ← d.checkpoint infos false noDecision
    let isDeleted := fun (c : CommitPoint) => d.commits.any fun c' => c'.id = c.id && c'.deleted
    let d := { d with startingCommitDeleted := current.elim false isDeleted }
    let (removed, d) := d.deleteCommits
    return (protectedFiles ++ [swept] ++ released ++ removed, infos, d)

end

end IndexFileDeleter

end RLucene.Index
