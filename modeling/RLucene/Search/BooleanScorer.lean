import RLucene.Search.DisiWrapper
import RLucene.Util.PriorityQueue

/-!
# The boolean scorer

The bulk scorer of disjunctions, which goes through the documents in windows of 4,096. The clauses
that can start a match are in the queue `head`, by document; one less than `minShouldMatch` of the
others wait in the queue `tail`, by cost. The clauses of a window mark their documents in a bit set
with a bucket for each document, and the set bits are then replayed to the collector. The collector
is the list of the hits it is given. Scores are added as wide numbers and returned as narrow ones;
`ScoreOps` names what is used of the two.

A loop of the source whose rounds are bounded by what it works on recurs on that bound. The loop of
`score` is not bounded so: `score` takes the number of rounds and says nothing if they do not
suffice.
-/

namespace RLucene.Search

open Lib Store Util

/-- The arithmetic of scores: `S` stands for the narrow numbers and `D` for the wide ones. -/
structure ScoreOps (S D : Type) where
  zero : D
  add : D → D → D
  widen : S → D
  narrow : D → S
  /-- The sum of one score is that score. -/
  narrow_add_zero : ∀ score, narrow (add zero (widen score)) = score

/-- A document handed to the collector, with the score if there is one. -/
structure Hit (S : Type) where
  doc : Nat
  score : Option S
  deriving DecidableEq, Repr

/-- The score and the matches of a document. -/
structure Bucket (D : Type) where
  score : D
  freq : Nat

namespace BooleanScorer

/-- The number of documents in a window. -/
def size : Nat := 4096

/-- The number of words in the bit set of a window. -/
def setSize : Nat := 64

end BooleanScorer

/-- The bit set of a window and its buckets, which are there if scores or frequencies are needed. -/
structure ScoringWindow (D : Type) where
  matching : List Word
  buckets : Option (List (Bucket D))

/-- A queue of wrappers. -/
abbrev BooleanScorer.Queue (S : Type) := PriorityQueue (DisiWrapper S)

/-- The clauses, in a head by document and a tail by cost. -/
structure BooleanScorer (S D : Type) where
  window : ScoringWindow D
  head : BooleanScorer.Queue S
  tail : BooleanScorer.Queue S
  minShouldMatch : Nat
  needsScores : Bool
  wordCacheMinCost : Int

namespace BooleanScorer

variable {S D : Type} (ops : ScoreOps S D)

/-- The order of the head. -/
def headLess (a b : DisiWrapper S) : Bool :=
  decide (a.doc < b.doc)

/-- The order of the tail. -/
def tailLess (a b : DisiWrapper S) : Bool :=
  decide (a.cost < b.cost)

/-- The documents accepted by a set of accepted documents; all of them if there is none. -/
def accepted (acceptDocs : Option (Nat → Bool)) (doc : Nat) : Bool :=
  match acceptDocs with
  | some bits => bits doc
  | none => true

/-! ## Creation -/

/-- Place the new wrappers: those that do not fit into the tail go to the head. -/
def place : List (Clause S) → Queue S → Queue S → Result (Queue S × Queue S)
  | [], head, tail => .ok (head, tail)
  | clause :: clauses, head, tail => do
    let (evicted, tail) ← tail.insertWithOverflow tailLess (DisiWrapper.new clause)
    match evicted with
    | some w => do
      let head ← head.add headLess w
      place clauses head tail
    | none => place clauses head tail

/-- The fields `matching` and `buckets` of a new scorer. -/
def newWindow (minShouldMatch : Nat) (needsScores : Bool) : ScoringWindow D where
  matching := List.replicate setSize 0
  buckets :=
    if needsScores ∨ 1 < minShouldMatch then some (List.replicate size ⟨ops.zero, 0⟩) else none

/-- A scorer, if the clauses are enough. -/
def new (clauses : List (Clause S)) (minShouldMatch : Nat) (needsScores : Bool) (maxDoc : Int) :
    Result (BooleanScorer S D) :=
  if minShouldMatch < 1 ∨ clauses.length < minShouldMatch then
    .error (.illegalArgument
      s!"minShouldMatch should be within 1..num_scorers. Got {minShouldMatch}")
  else if clauses.length ≤ 1 then
    .error (.illegalArgument
      s!"This scorer can only be used with two scorers or more, got {clauses.length}")
  else do
    let head ← PriorityQueue.new (clauses.length - minShouldMatch + 1)
    let tail ← PriorityQueue.new (minShouldMatch - 1)
    let (head, tail) ← place clauses head tail
    return {
      window := newWindow ops minShouldMatch needsScores
      head, tail, minShouldMatch, needsScores
      wordCacheMinCost := (maxDoc + 7) / 8 }

/-! ## Scoring into the bit set -/

/-- Mark a position of the window for a document of this score. -/
def mark (needsScores : Bool) (window : ScoringWindow D) (i : Nat) (score : S) :
    ScoringWindow D where
  matching := window.matching.modify (i >>> 6) (· ||| 1#64 <<< (i % 64))
  buckets := window.buckets.map fun buckets => buckets.modify i fun bucket =>
    { freq := bucket.freq + 1
      score := if needsScores then ops.add bucket.score (ops.widen score) else bucket.score }

/-- Mark the accepted documents below `max`. -/
def markDocs (needsScores : Bool) (acceptDocs : Option (Nat → Bool)) (max : Int) :
    Nat → ScoringWindow D → DisiWrapper S → ScoringWindow D × DisiWrapper S
  | 0, window, w => (window, w)
  | fuel + 1, window, w =>
    if w.doc < max then
      let window :=
        if accepted acceptDocs w.doc.toNat then
          mark ops needsScores window (w.doc.toNat % size) (w.clause.score w.doc.toNat)
        else window
      markDocs needsScores acceptDocs max fuel window w.nextDoc
    else (window, w)

/-- Set the bits of the documents below `wordEnd`, which lie in one word. -/
def setBitsOfWord (wordEnd : Int) : Nat → Word → DisiWrapper S → Word × DisiWrapper S
  | 0, bits, w => (bits, w)
  | fuel + 1, bits, w =>
    if w.doc < wordEnd then
      setBitsOfWord wordEnd fuel (bits ||| 1#64 <<< (w.doc.toNat % 64)) w.nextDoc
    else (bits, w)

/-- The end of the word of a document, `(doc | 0x3f).saturating_add(1)`; `noMoreDocs` is the
greatest number of 32 bits. -/
def wordEndOf (doc : Nat) : Int :=
  min ((doc ||| 63 : Nat) + 1) noMoreDocs

/-- Set the bits of the documents below `max`, one word after the other. -/
def setBitsByWord (max : Int) : Nat → List Word → DisiWrapper S → List Word × DisiWrapper S
  | 0, matching, w => (matching, w)
  | fuel + 1, matching, w =>
    if w.doc < max then
      let index := (w.doc.toNat % size) >>> 6
      let wordEnd := min max (wordEndOf w.doc.toNat)
      let result := setBitsOfWord wordEnd (wordEnd - w.doc).toNat (matching.getD index 0) w
      setBitsByWord max fuel (matching.set index result.1) result.2
    else (matching, w)

/-- Collect the documents of a clause in the window. -/
def scoreDisiWrapperIntoBitset (s : BooleanScorer S D) (acceptDocs : Option (Nat → Bool))
    (minDoc maxDoc : Int) (window : ScoringWindow D) (w : DisiWrapper S) :
    ScoringWindow D × DisiWrapper S :=
  let w := w.advanceTo minDoc
  if window.buckets.isNone ∧ acceptDocs.isNone ∧ s.wordCacheMinCost ≤ w.cost then
    let (matching, w) := setBitsByWord maxDoc (maxDoc - w.doc).toNat window.matching w
    ({ window with matching }, w)
  else
    markDocs ops s.needsScores acceptDocs maxDoc (maxDoc - w.doc).toNat window w

/-- Score the wrappers one after another. -/
def scoreWrappers (s : BooleanScorer S D) (acceptDocs : Option (Nat → Bool)) (minDoc maxDoc : Int) :
    ScoringWindow D → List (DisiWrapper S) → ScoringWindow D × List (DisiWrapper S)
  | window, [] => (window, [])
  | window, w :: ws =>
    let (window, w) := s.scoreDisiWrapperIntoBitset ops acceptDocs minDoc maxDoc window w
    let (window, ws) := scoreWrappers s acceptDocs minDoc maxDoc window ws
    (window, w :: ws)

/-! ## Replaying the bit set -/

/-- Hand one position of the window to the collector and clear its bucket. -/
def replayAt (minShouldMatch base i : Nat) (buckets : Option (List (Bucket D))) :
    List (Hit S) × Option (List (Bucket D)) :=
  match buckets with
  | some buckets =>
    let bucket := buckets.getD i ⟨ops.zero, 0⟩
    (if minShouldMatch ≤ bucket.freq then [⟨base ||| i, some (ops.narrow bucket.score)⟩] else [],
      some (buckets.set i ⟨ops.zero, 0⟩))
  | none => ([⟨base ||| i, none⟩], none)

/-- Replay the set bits of the word with this index, the lowest one first. -/
def replayWord (minShouldMatch base idx : Nat) :
    Nat → Word → Option (List (Bucket D)) → List (Hit S) × Option (List (Bucket D))
  | 0, _, buckets => ([], buckets)
  | fuel + 1, bits, buckets =>
    if bits = 0 then ([], buckets)
    else
      let (hits, buckets) :=
        replayAt ops minShouldMatch base (idx <<< 6 ||| trailingZeros bits) buckets
      let (rest, buckets) := replayWord minShouldMatch base idx fuel (bits &&& (bits - 1)) buckets
      (hits ++ rest, buckets)

/-- Replay the words from this index on. -/
def forEach (minShouldMatch base : Nat) :
    Nat → List Word → Option (List (Bucket D)) → List (Hit S) × Option (List (Bucket D))
  | _, [], buckets => ([], buckets)
  | idx, bits :: words, buckets =>
    let (hits, buckets) := replayWord ops minShouldMatch base idx 64 bits buckets
    let (rest, buckets) := forEach minShouldMatch base (idx + 1) words buckets
    (hits ++ rest, buckets)

/-- The hits of a window, the scorer with a clean window, and the wrappers where they stand. -/
def scoreWindowIntoBitsetAndReplay (s : BooleanScorer S D) (acceptDocs : Option (Nat → Bool))
    (base minDoc maxDoc : Int) (scorers : List (DisiWrapper S)) (numScorers : Nat) :
    List (Hit S) × BooleanScorer S D × List (DisiWrapper S) :=
  let (window, scored) :=
    s.scoreWrappers ops acceptDocs minDoc maxDoc s.window (scorers.take numScorers)
  let (hits, buckets) :=
    forEach ops s.minShouldMatch base.toNat 0 window.matching window.buckets
  (hits,
    { s with window := { matching := window.matching.map fun _ => 0, buckets := buckets } },
    scored ++ scorers.drop numScorers)

/-! ## Moving the queues -/

/-- Advance the head until it stands on `minDoc` or beyond; of the tops of the two queues the
cheaper one is advanced. -/
def advanceQueues (minDoc : Int) : Nat → Queue S → Queue S → Result (Queue S × Queue S)
  | 0, head, tail => .ok (head, tail)
  | fuel + 1, head, tail =>
    match head.top with
    | none => .error (.illegalState "head queue is empty")
    | some headTop =>
      if headTop.doc < minDoc then
        match tail.top with
        | none =>
          advanceQueues minDoc fuel
            (head.updateTopWithNewTop headLess (headTop.advance minDoc)) tail
        | some tailTop =>
          if headTop.cost ≤ tailTop.cost then
            advanceQueues minDoc fuel
              (head.updateTopWithNewTop headLess (headTop.advance minDoc))
              (tail.updateTopWithNewTop tailLess tailTop)
          else
            advanceQueues minDoc fuel
              (head.updateTopWithNewTop headLess (tailTop.advance minDoc))
              (tail.updateTopWithNewTop tailLess headTop)
      else .ok (head.updateTopWithNewTop headLess headTop, tail)

/-- Bring the head up to a document. -/
def advance (s : BooleanScorer S D) (minDoc : Int) :
    Result (DisiWrapper S × BooleanScorer S D) := do
  -- each round moves one wrapper to the lower end, and the last one finds the head there
  let (head, tail) ← advanceQueues minDoc (s.head.size + s.tail.size + 1) s.head s.tail
  match head.top with
  | none => .error (.illegalState "head queue is empty")
  | some top => return (top, { s with head, tail })

/-- Take the wrappers before `windowMax` out of the head. -/
def takeLeads (windowMax : Int) :
    Nat → Queue S → List (DisiWrapper S) → Nat → Queue S × List (DisiWrapper S) × Nat
  | 0, head, leads, maxFreq => (head, leads, maxFreq)
  | fuel + 1, head, leads, maxFreq =>
    match head.top with
    | none => (head, leads, maxFreq)
    | some top =>
      if windowMax ≤ top.doc then (head, leads, maxFreq)
      else takeLeads windowMax fuel (head.pop headLess).2 (leads ++ [top]) (maxFreq + 1)

/-- Take candidates out of the tail as long as a match is possible and not yet certain. -/
def takeCandidates (minShouldMatch : Nat) (windowMin windowMax : Int) :
    Nat → Queue S → Queue S → List (DisiWrapper S) → Nat →
      Result (Queue S × Queue S × List (DisiWrapper S) × Nat)
  | 0, head, tail, leads, maxFreq => .ok (head, tail, leads, maxFreq)
  | fuel + 1, head, tail, leads, maxFreq =>
    if maxFreq < minShouldMatch ∧ minShouldMatch ≤ maxFreq + tail.size then
      match tail.pop tailLess with
      | (none, _) => .error (.illegalState "tail.pop returned None")
      | (some candidate, tail) =>
        let candidate := candidate.advanceTo windowMin
        if candidate.doc < windowMax then
          takeCandidates minShouldMatch windowMin windowMax fuel head tail (leads ++ [candidate])
            (maxFreq + 1)
        else do
          let head ← head.add headLess candidate
          takeCandidates minShouldMatch windowMin windowMax fuel head tail leads maxFreq
    else .ok (head, tail, leads, maxFreq)

/-- Give the leads back to the head; what it drops goes to the tail. -/
def giveBack : List (DisiWrapper S) → Queue S → Queue S → Result (Queue S × Queue S)
  | [], head, tail => .ok (head, tail)
  | lead :: leads, head, tail => do
    let (evicted, head) ← head.insertWithOverflow headLess lead
    match evicted with
    | some w => do
      let tail ← tail.add tailLess w
      giveBack leads head tail
    | none => giveBack leads head tail

/-! ## Windows -/

/-- The first document of the window of a document, `doc & !MASK`. -/
def windowBase (doc : Int) : Int :=
  doc - doc % size

/-- A window with several leads. -/
def scoreWindowMultipleScorers (s : BooleanScorer S D) (acceptDocs : Option (Nat → Bool))
    (base windowMin windowMax : Int) (maxFreq : Nat) (leads : List (DisiWrapper S)) :
    Result (List (Hit S) × BooleanScorer S D) := do
  let (head, tail, leads, maxFreq) ←
    takeCandidates s.minShouldMatch windowMin windowMax s.tail.size s.head s.tail leads maxFreq
  if s.minShouldMatch ≤ maxFreq then
    -- the wrappers that are left in the tail may match too
    let (hits, s, leads) :=
      { s with head, tail := { tail with heap := [] } }.scoreWindowIntoBitsetAndReplay
        ops acceptDocs
        base windowMin windowMax (leads ++ tail.heap) (maxFreq + tail.size)
    let (head, tail) ← giveBack leads s.head s.tail
    return (hits, { s with head, tail })
  else
    let (head, tail) ← giveBack leads head tail
    return ([], { s with head, tail })

/-- Hand the accepted documents of one wrapper to the collector. -/
def collectDocs (acceptDocs : Option (Nat → Bool)) (last : Int) :
    Nat → DisiWrapper S → List (Hit S) × DisiWrapper S
  | 0, w => ([], w)
  | fuel + 1, w =>
    if w.doc < last then
      let (rest, w') := collectDocs acceptDocs last fuel w.nextDoc
      if accepted acceptDocs w.doc.toNat then
        (⟨w.doc.toNat, some (w.clause.score w.doc.toNat)⟩ :: rest, w')
      else (rest, w')
    else ([], w)

/-- A window with one lead. -/
def scoreWindowSingleScorer (head : Queue S) (acceptDocs : Option (Nat → Bool))
    (windowMin windowMax maxDoc : Int) (w : DisiWrapper S) :
    Result (List (Hit S) × DisiWrapper S) :=
  match head.top with
  | none => .error (.illegalState "head queue is empty")
  | some top =>
    let last := max windowMax (min maxDoc (windowBase top.doc))
    let w := w.advanceTo windowMin
    .ok (collectDocs acceptDocs last (last - w.doc).toNat w)

variable (checks : Bool)

/-- The hits of the window of `topDoc`, the scorer after it, and where its head stands. `checks`
says whether the build checks additions. -/
def scoreWindow (s : BooleanScorer S D) (topDoc : Int) (acceptDocs : Option (Nat → Bool))
    (minDoc maxDoc : Int) : Result (List (Hit S) × Int × BooleanScorer S D) :=
  let base := windowBase topDoc
  let windowMin := max minDoc base
  -- the end of the window is computed in 32 bits
  let windowMax := min maxDoc (asI 32 (base + size))
  if checks ∧ 2147483647 < base + size then .error .overflow
  else match s.head.pop headLess with
  | (none, _) => .error (.illegalState "head's top() returned None")
  | (some headTop, head) =>
    match takeLeads windowMax head.size head [headTop] 1 with
    | (head, leads, maxFreq) =>
      if s.minShouldMatch = 1 ∧ maxFreq = 1 then do
        let (hits, w) ← scoreWindowSingleScorer head acceptDocs windowMin windowMax maxDoc headTop
        let head ← head.add headLess w
        match head.top with
        | none => .error (.illegalState "priority queue element should exist")
        | some top => return (hits, top.doc, { s with head })
      else do
        let (hits, s) ← { s with head }.scoreWindowMultipleScorers ops acceptDocs base windowMin
          windowMax maxFreq leads
        match s.head.top with
        | none => .error (.illegalState "head's top() returned None")
        | some top => return (hits, top.doc, s)

/-! ## Scoring -/

/-- Score one window after another until the head stands on `maxDoc` or beyond. Nothing is returned
if the rounds do not suffice. -/
def scoreWindows (acceptDocs : Option (Nat → Bool)) (minDoc maxDoc : Int) :
    Nat → BooleanScorer S D → Int → Result (Option (List (Hit S) × Int × BooleanScorer S D))
  | rounds, s, doc =>
    if doc < maxDoc then
      match rounds with
      | 0 => .ok none
      | rounds + 1 => do
        let (hits, doc, s) ← s.scoreWindow ops checks doc acceptDocs minDoc maxDoc
        let rest ← scoreWindows acceptDocs minDoc maxDoc rounds s doc
        return rest.map fun (more, doc, s) => (hits ++ more, doc, s)
    else .ok (some ([], doc, s))

/-- What `score(min, max)` hands to the collector and returns, with the scorer after it, if the
windows are done within the rounds. -/
def score (rounds : Nat) (s : BooleanScorer S D) (acceptDocs : Option (Nat → Bool))
    (minDoc maxDoc : Int) : Result (Option (List (Hit S) × Int × BooleanScorer S D)) := do
  let (top, s) ← s.advance minDoc
  scoreWindows ops checks acceptDocs minDoc maxDoc rounds s top.doc

/-- A sequence of calls, each with what it hands to the collector and what it returns. -/
def scoreCalls (rounds : Nat) (acceptDocs : Option (Nat → Bool)) :
    BooleanScorer S D → List (Int × Int) → Result (Option (List (List (Hit S) × Int)))
  | _, [] => .ok (some [])
  | s, (minDoc, maxDoc) :: calls => do
    match ← s.score ops checks rounds acceptDocs minDoc maxDoc with
    | none => return none
    | some (hits, doc, s) =>
      let rest ← scoreCalls rounds acceptDocs s calls
      return rest.map fun answers => (hits, doc) :: answers

end BooleanScorer

end RLucene.Search
