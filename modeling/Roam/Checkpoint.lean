import Roam.StoreDoc

namespace Roam
set_option autoImplicit true
open Library Library.Fallible

section History
variable (π : Platform)

/-- Blank lines are skipped, and reading stops at the first line that does not parse. -/
def parseMarkers : List Bytes → List Marker
  | [] => []
  | line :: lines =>
    if isBlank line then parseMarkers lines
    else
      match π.markerJson.parse line with
      | .ok marker => marker :: parseMarkers lines
      | .error _ => []

def markers (history : Option Bytes) : Except StorageError (List Marker) :=
  match history with
  | none => .ok []
  | some bytes =>
    if validUtf8 bytes then .ok (parseMarkers π (textLines bytes))
    else .error (.io (π.utf8Error bytes))

/-- The marker written last of those that are not later than a time. -/
def markerBefore (history : Option Bytes) (ts : Int) : Except StorageError (Option Marker) := do
  let all ← markers π history
  pure (all.reverse.find? fun marker => marker.tsMs ≤ ts)

end History

structure CheckpointPlan where
  frontier : String
  dropLines : List (UInt64 × Nat)

def planFromMarker (marker : Marker) : CheckpointPlan where
  frontier := marker.frontier
  dropLines := marker.logLens

def reclaimableBlobBytes (onDisk : List (String × Nat)) (referenced : List String) : Nat :=
  ((onDisk.filter fun blob => blob.1 ∉ referenced).map Prod.snd).sum

def filesetMapId : String := "__roam_fileset__"

/-- How the writes of a checkpoint end. Each file is replaced by renaming a temporary one, so that
a failure leaves the old file. -/
structure CheckpointIo where
  snapshot : Io
  truncate : UInt64 → Io
  remove : String → Io
  history : Io

/-- `split_log_lines_bytes`: a line keeps its terminator. -/
def splitLogLines (log : Bytes) : List Bytes :=
  let pieces := log.splitOn 10
  pieces.dropLast.map (· ++ [10]) ++ (pieces.getLast?.filter fun tail => !tail.isEmpty).toList

structure BackendSnapshot where
  bytes : Bytes
  frontierDigest : Bytes32
  subsumedLines : List (UInt64 × Bytes)
  blobRefs : List String

namespace Store
variable {π : Platform}

def marker (s : Store π) (now : Int) : Marker where
  tsMs := now
  frontier := π.b64Encode (π.frontierBytes (π.oplogFrontier s.doc))
  logLens := s.logLens

section References

/-- The content hashes that the file set names at the version the document shows. -/
def shownHashes (doc : π.Doc) : List String :=
  (π.entries doc filesetMapId).filterMap fun entry => π.contentHash entry.2

def decodeFrontier (π : Platform) (frontier : String) : Except StorageError π.Frontier := do
  let bytes ← (π.b64Decode frontier).mapError .base64
  (π.frontierOf bytes).mapError .crdt

def checkoutHashes (frontier : String) : StoreM π (List String) := do
  let f ← ofResult (decodeFrontier π frontier)
  let s ← get
  let doc ← ofDoc (π.checkout s.doc f)
  set { s with doc }
  pure (shownHashes doc)

/-- The blobs that the file set names at one of the frontiers or now. A frontier that cannot be
shown ends the walk where it is. -/
def referencedHashes (retained : List String) : StoreM π (List String) := do
  let past ← retained.mapM checkoutHashes
  modify fun s => { s with doc := π.checkoutLatest s.doc }
  pure (past.flatten ++ shownHashes (← get).doc)

end References

section Checkpoint

/-- Drop the first lines of an op log that are not blank. No kept line is empty, so the text of
them is empty only if there are none. -/
def truncateLeadingLines (io : Io) (peer : UInt64) (n : Nat) : StoreM π Unit := do
  let s ← get
  match s.disk.ops[peer]? with
  | none => pure ()
  | some bytes =>
    if validUtf8 bytes then do
      ofResult io.result
      set (s.withOps peer (joinLines 10 (((textLines bytes).filter fun l => !isBlank l).drop n)))
    else throw (.io (π.utf8Error bytes))

def truncateLogs (io : UInt64 → Io) (logs : List (UInt64 × Nat)) : StoreM π Unit :=
  logs.forM fun log => truncateLeadingLines (io log.1) log.1 log.2

def removeBlob (io : Io) (hash : String) : StoreM π Unit := do
  ofResult io.result
  modify fun s => { s with disk.blobs := s.disk.blobs.erase hash }

def reclaimBlobs (io : String → Io) (referenced : List String) : StoreM π Nat := do
  let s ← get
  s.disk.blobs.toList.foldlM (fun freed blob =>
    if blob.1 ∈ referenced then pure freed
    else do
      removeBlob (io blob.1) blob.1
      pure (freed + blob.2.length)) 0

def rewriteHistory (io : Io) (all : List Marker) (keepFrom : Int) : StoreM π Unit := do
  ofResult io.result
  modify fun s =>
    { s with disk.history := some (joinLines 10
        ((all.filter fun m => keepFrom ≤ m.tsMs).map π.markerJson.render)) }

def retainedFrontiers (all : List Marker) (target : Marker) : List String :=
  (all.filter fun m => target.tsMs ≤ m.tsMs).map Marker.frontier

def checkpointDryRun (beforeTs : Int) : StoreM π Nat := do
  let history := (← get).disk.history
  match ← ofResult (markerBefore π history beforeTs) with
  | none => pure 0
  | some target =>
    let all ← ofResult (markers π history)
    let referenced ← referencedHashes (retainedFrontiers all target)
    let onDisk := (← get).disk.blobs.toList.map fun blob => (blob.1, blob.2.length)
    pure (reclaimableBlobBytes onDisk referenced)

def shallowAt (target : Marker) : StoreM π Bytes := do
  let frontier ← ofResult (decodeFrontier π target.frontier)
  ofDoc (π.shallowSnapshot (← get).doc frontier)

/-- Fold all that is older than the newest marker not later than `beforeTs` into the snapshot: drop
the lines that the marker counts from each log, the blobs that are not referenced any more and the
older markers. -/
def checkpoint (io : CheckpointIo) (beforeTs : Int) : StoreM π Nat := do
  let history := (← get).disk.history
  match ← ofResult (markerBefore π history beforeTs) with
  | none => pure 0
  | some target =>
    let all ← ofResult (markers π history)
    -- the references need the whole history, so they are collected before anything is dropped
    let referenced ← referencedHashes (retainedFrontiers all target)
    let shallow ← shallowAt target
    saveSnapshot io.snapshot shallow
    truncateLogs io.truncate (planFromMarker target).dropLines
    let freed ← reclaimBlobs io.remove referenced
    rewriteHistory io.history all target.tsMs
    pure freed

/-- A snapshot to upload with the log lines that it replaces and the blobs that it needs. -/
def buildBackendSnapshot (beforeTs : Int) : StoreM π (Option BackendSnapshot) := do
  let history := (← get).disk.history
  match ← ofResult (markerBefore π history beforeTs) with
  | none => pure none
  | some target =>
    let frontier ← ofResult ((π.b64Decode target.frontier).mapError .base64)
    let bytes ← shallowAt target
    let s ← get
    let subsumedLines := (planFromMarker target).dropLines.flatMap fun log =>
      ((splitLogLines (s.exportPeerLog log.1)).take log.2).map fun line => (log.1, line)
    let refs ← referencedHashes [target.frontier]
    pure (some {
      bytes, subsumedLines
      frontierDigest := π.crypto.blake3 frontier
      blobRefs := refs.dedup.mergeSort (· ≤ ·) })

end Checkpoint

end Store

end Roam
