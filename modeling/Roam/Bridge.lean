import Roam.Base
import Roam.Replica
import Roam.Library.Fallible
import Roam.Library.Utf8

namespace Roam.Bridge
set_option autoImplicit true
open Library Library.Fallible Rebase

inductive EntryStatus
  | live
  | tombstoned
deriving DecidableEq

inductive EntryKind
  | text
  | blob
deriving DecidableEq

/-- A value of the file-set map. The hash of a blob is the reference to its bytes. -/
structure FileEntry (K : Type) where
  kind : EntryKind
  status : EntryStatus
  contentHash : String
  renamedFrom : Option K
  tombstonedAt : Option String
deriving DecidableEq

structure SyncOutcome where
  opsApplied : Nat
  changed : Bool
  conflicts : List Conflict
deriving DecidableEq

def SyncOutcome.unchanged : SyncOutcome := ⟨0, false, []⟩

def SyncOutcome.changedNoOps : SyncOutcome := ⟨0, true, []⟩

structure Sidecar where
  lastSyncedHash : String
  lastSyncedText : List Char
deriving DecidableEq

inductive FilesError (K P : Type)
  | storage (msg : String)
  | io (msg : String)
  | pathEscapesVault (file : P)
  | sidecar (msg : String)
  | entry (msg : String)
  | desync (container : K)
  | dirtyFile (file : P)
  | caseCollision (existing incoming : K)
  | reservedName (key : K)
  | readOnly
  | noBlobHistory (file : P)
  | panicked
deriving DecidableEq

/-- What the bridge asks of the file system: the files of the vault, the correspondence of paths and
keys, and the sidecars and blob markers of its own. `read` gives `none` when there is no such
file, and `write` is `create_dir_all` with `atomic_write`. -/
structure FolderApi (K P δ : Type) where
  collectVaultFiles : δ → Except (FilesError K P) (List P)
  containerId : P → Except (FilesError K P) K
  keyToPath : K → P
  withinVault : δ → P → Bool
  read : δ → P → Except (FilesError K P) (Option Bytes)
  pathExists : δ → P → Bool
  write : P → Bytes → δ → Except (FilesError K P) Unit × δ
  removeFile : P → δ → Except (FilesError K P) Unit × δ
  loadSidecar : δ → K → Except (FilesError K P) (Option Sidecar)
  sidecarExists : δ → K → Bool
  storeSidecar : K → Sidecar → δ → Except (FilesError K P) Unit × δ
  removeSidecar : K → δ → Except (FilesError K P) Unit × δ
  markerExists : δ → K → Bool
  writeMarker : K → δ → Except (FilesError K P) Unit × δ
  removeMarker : K → δ → Except (FilesError K P) Unit × δ

/-- The libraries under the bridge: blake3, the character diff, the JSON of entries, and the order
in which the document lists its entries. -/
structure BridgeLib (K V T : Type) [Ord K] where
  hash : Bytes → String
  validHash : String → Bool
  diff : TextDiff
  fromValue : V → Except String (FileEntry K)
  toValue : FileEntry K → V
  eqIgnoreAsciiCase : K → K → Bool
  docVersion : Replica K V T → String
  order : List (K × V) → List (K × V)

/-- What the bridge relies on: hashes do not collide, a diff is an edit script that leaves equal
texts alone, an entry is read back as it was written, and a listing has each entry once. -/
structure BridgeLib.Lawful {K V T : Type} [Ord K] (lib : BridgeLib K V T) : Prop where
  hash_injective : Function.Injective lib.hash
  validHash_hash : ∀ bytes, lib.validHash (lib.hash bytes) = true
  diff_isScript : ∀ a b, IsScript a b (lib.diff a b)
  diff_equal : ∀ t, ∀ c ∈ lib.diff t t, c.tag = .equal
  fromValue_toValue : ∀ entry, lib.fromValue (lib.toValue entry) = .ok entry
  order_perm : ∀ items, (lib.order items).Perm items

inductive StoreCall (K : Type)
  | editText (key : K)
  | setEntry (key : K)
  | putBlob (hash : String)
  | getBlob (hash : String)
  | removeBlob (hash : String)
deriving DecidableEq

structure FolderBridge (K P δ V T : Type) [Ord K] where
  api : FolderApi K P δ
  lib : BridgeLib K V T
  singleVersionThreshold : Option Nat
  refused : StoreCall K → Option String

structure Vault (K δ V T : Type) [Ord K] where
  disk : δ
  doc : Replica K V T
  blobs : Std.TreeMap String Bytes
  mayWrite : Bool

abbrev BridgeM (K P δ V T : Type) [Ord K] := Fallible (FilesError K P) (Vault K δ V T)

namespace FolderBridge
variable {K P δ V T : Type} [Ord K] [DecidableEq K] [DecidableEq P] [DecidableEq V] [TextCrdt T]
variable (B : FolderBridge K P δ V T)

section Store

def afterCall (call : StoreCall K) : BridgeM K P δ V T Unit :=
  match B.refused call with
  | some msg => throw (.storage msg)
  | none => pure ()

def setValue (key : K) (value : V) : BridgeM K P δ V T Unit := do
  modify fun s => { s with doc := s.doc.setEntry key value }
  B.afterCall (.setEntry key)

def setEntry (key : K) (entry : FileEntry K) : BridgeM K P δ V T Unit :=
  B.setValue key (B.lib.toValue entry)

def editText (key : K) (op : TextOp) : BridgeM K P δ V T Unit := do
  let s ← get
  if (op.apply (s.doc.text key)).isSome then
    modify fun s => { s with doc := s.doc.editText key op }
    B.afterCall (.editText key)
  else throw (.storage "position out of bounds")

def applyOps (key : K) : List TextOp → BridgeM K P δ V T Unit
  | [] => pure ()
  | op :: ops => do
    B.editText key op
    applyOps key ops

def putBlob (bytes : Bytes) : BridgeM K P δ V T String := do
  let s ← get
  let hash := B.lib.hash bytes
  if s.blobs.contains hash then pure hash
  else
    B.afterCall (.putBlob hash)
    modify fun s => { s with blobs := s.blobs.insert hash bytes }
    pure hash

def getBlob (hash : String) : BridgeM K P δ V T (Option Bytes) := do
  let s ← get
  if B.lib.validHash hash then
    B.afterCall (.getBlob hash)
    match s.blobs[hash]? with
    | none => pure none
    | some bytes =>
      if B.lib.hash bytes = hash then pure (some bytes)
      else throw (.storage s!"blob {hash} is corrupt: on-disk content does not match its hash")
  else throw (.storage "invalid blob hash")

def removeBlob (hash : String) : BridgeM K P δ V T Unit := do
  if B.lib.validHash hash then
    B.afterCall (.removeBlob hash)
    modify fun s => { s with blobs := s.blobs.erase hash }
  else throw (.storage "invalid blob hash")

def entries (d : Replica K V T) : List (K × V) :=
  B.lib.order (d.entries.toList.map fun p => (p.1, p.2.value))

def entryOf (d : Replica K V T) (key : K) : Option (FileEntry K) :=
  (d.getEntry key).bind fun value => (B.lib.fromValue value).toOption

def parseEntry (value : V) : BridgeM K P δ V T (FileEntry K) :=
  ofResult ((B.lib.fromValue value).mapError fun msg =>
    .entry s!"failed to parse file-set entry: {msg}")

def hashReferenced (d : Replica K V T) (hash : String) : Bool :=
  (B.entries d).any fun p =>
    match B.lib.fromValue p.2 with
    | .ok entry => decide (entry.contentHash = hash)
    | .error _ => false

def liveCaseCollision (d : Replica K V T) (incoming : K) : Option K :=
  ((B.entries d).find? fun p =>
    decide (p.1 ≠ incoming) && B.lib.eqIgnoreAsciiCase p.1 incoming &&
      match B.lib.fromValue p.2 with
      | .ok entry => decide (entry.status = .live)
      | .error _ => false).map Prod.fst

def textHash (text : List Char) : String := B.lib.hash (encodeUtf8 text)

def liveEntry (kind : EntryKind) (contentHash : String) : FileEntry K :=
  ⟨kind, .live, contentHash, none, none⟩

/-- Two operations: the version of the document in the second one includes the first. -/
def writeTombstone (key : K) (kind : EntryKind) (contentHash : String) :
    BridgeM K P δ V T Unit := do
  B.setEntry key ⟨kind, .tombstoned, contentHash, none, none⟩
  let checkpoint := B.lib.docVersion (← get).doc
  B.setEntry key ⟨kind, .tombstoned, contentHash, none, some checkpoint⟩

end Store

section Disk

def onDisk (f : δ → Except (FilesError K P) Unit × δ) : BridgeM K P δ V T Unit :=
  ofFun fun s => ((f s.disk).1, { s with disk := (f s.disk).2 })

def write (file : P) (bytes : Bytes) : BridgeM K P δ V T Unit := onDisk (B.api.write file bytes)

def removeFile (file : P) : BridgeM K P δ V T Unit := onDisk (B.api.removeFile file)

def storeSidecar (key : K) (sidecar : Sidecar) : BridgeM K P δ V T Unit :=
  onDisk (B.api.storeSidecar key sidecar)

def removeSidecar (key : K) : BridgeM K P δ V T Unit := onDisk (B.api.removeSidecar key)

def writeMarker (key : K) : BridgeM K P δ V T Unit := onDisk (B.api.writeMarker key)

def removeMarker (key : K) : BridgeM K P δ V T Unit := onDisk (B.api.removeMarker key)

def synced (text : List Char) : Sidecar := ⟨B.textHash text, text⟩

end Disk

section Import

/-- On success the baseline is the text on disk, else what the store really has. -/
def reconcileSidecar (container : K) (fileText expected actual : List Char) (opsApplied : Nat)
    (applied : Except (FilesError K P) Unit) : BridgeM K P δ V T SyncOutcome :=
  match applied with
  | .ok () =>
    if actual = expected then do
      B.storeSidecar container (B.synced fileText)
      pure ⟨opsApplied, true, []⟩
    else do
      B.storeSidecar container (B.synced actual)
      throw (.desync container)
  | .error err => do
    B.storeSidecar container (B.synced actual)
    throw err

/-- The text that the store should have after the import, from the baseline, the text on disk and
the text of the store. -/
def expectedText (baseline fileText remoteText : List Char) :
    BridgeM K P δ V T (List Char × List Conflict) :=
  if remoteText = baseline then pure (fileText, [])
  else
    match mergeLocalOntoRemote B.lib.diff baseline fileText remoteText with
    | some merged => pure merged
    | none => throw .panicked

/-- The baseline is the last synced text, or the text of the store when there is no sidecar. -/
def baseline (sidecar : Option Sidecar) (remoteText : List Char) : List Char :=
  match sidecar with
  | some sidecar => sidecar.lastSyncedText
  | none => remoteText

def importText (container : K) (fileText : List Char) : BridgeM K P δ V T SyncOutcome := do
  let s ← get
  let sidecar ← ofResult (B.api.loadSidecar s.disk container)
  let remoteText := s.doc.text container
  let (expected, conflicts) ← B.expectedText (baseline sidecar remoteText) fileText remoteText
  let ops := diffToOps B.lib.diff remoteText expected
  if ops = [] then pure .unchanged
  else
    let applied ← attempt (B.applyOps container ops)
    let actual := (← get).doc.text container
    let outcome ← B.reconcileSidecar container fileText expected actual ops.length applied
    B.setEntry container (liveEntry .text (B.textHash fileText))
    pure { outcome with conflicts }

/-- Big blobs keep one version only: the bytes that were superseded are released. -/
def releasePrior (size : Nat) (prior : Option String) (hash : String) : BridgeM K P δ V T Unit := do
  let s ← get
  match B.singleVersionThreshold, prior with
  | some threshold, some prev =>
    if size > threshold ∧ prev ≠ hash ∧ ¬ B.hashReferenced s.doc prev then B.removeBlob prev
    else pure ()
  | _, _ => pure ()

def importBlob (container : K) (bytes : Bytes) : BridgeM K P δ V T SyncOutcome := do
  let s ← get
  let prior := (B.entryOf s.doc container).map FileEntry.contentHash
  let hash ← B.putBlob bytes
  if (B.entryOf s.doc container).any fun entry =>
      entry.status = .tombstoned ∧ entry.kind = .blob ∧ entry.contentHash = hash then
    pure .unchanged
  else
    let value := B.lib.toValue (liveEntry .blob hash)
    if s.doc.getEntry container = some value then pure .unchanged
    else
      B.setValue container value
      B.releasePrior bytes.length prior hash
      pure .changedNoOps

def importFile (file : P) : BridgeM K P δ V T SyncOutcome := do
  let s ← get
  if s.mayWrite then
    let container ← ofResult (B.api.containerId file)
    match B.liveCaseCollision s.doc container with
    | some existing => throw (.caseCollision existing container)
    | none =>
      match ← ofResult (B.api.read s.disk file) with
      | none => throw (.io "not found")
      | some bytes =>
        match decodeUtf8 bytes with
        | some fileText => B.importText container fileText
        | none =>
          let outcome ← B.importBlob container bytes
          B.writeMarker container
          pure outcome
  else throw .readOnly

end Import

section Project

def editedSinceSync (disk : List Char) (sidecar : Option Sidecar) : Bool :=
  match sidecar with
  | some sidecar => disk ≠ sidecar.lastSyncedText
  | none => true

def projectFileInner (file : P) (force : Bool) : BridgeM K P δ V T SyncOutcome := do
  let container ← ofResult (B.api.containerId file)
  let s ← get
  let text := s.doc.text container
  let onDisk := (← ofResult (B.api.read s.disk file)).bind decodeUtf8
  let sidecar ← ofResult (B.api.loadSidecar s.disk container)
  if onDisk = some text ∧ sidecar.map Sidecar.lastSyncedText = some text then pure .unchanged
  else if !force && onDisk.any fun disk => disk ≠ text && editedSinceSync disk sidecar then
    throw (.dirtyFile file)
  else if B.api.withinVault s.disk file then
    B.write file (encodeUtf8 text)
    B.storeSidecar container (B.synced text)
    pure .changedNoOps
  else throw (.pathEscapesVault file)

def projectFile (file : P) : BridgeM K P δ V T SyncOutcome := B.projectFileInner file false

def projectFileForced (file : P) : BridgeM K P δ V T SyncOutcome := B.projectFileInner file true

def projectBlob (file : P) (contentHash : String) : BridgeM K P δ V T SyncOutcome := do
  let s ← get
  if B.api.withinVault s.disk file then
    match ← B.getBlob contentHash with
    | none => pure .unchanged
    | some bytes =>
      if B.api.pathExists s.disk file then pure .unchanged
      else
        B.write file bytes
        let container ← ofResult (B.api.containerId file)
        B.writeMarker container
        pure .changedNoOps
  else throw (.pathEscapesVault file)

/-- Project a file, but leave one alone that has edits which were not imported. -/
def projectUnlessDirty (file : P) : BridgeM K P δ V T (Option SyncOutcome) := do
  match ← attempt (B.projectFile file) with
  | .ok outcome => pure (some outcome)
  | .error (.dirtyFile _) => pure none
  | .error err => throw err

end Project

section Scan

def revertFile (file : P) : BridgeM K P δ V T (Option (P × SyncOutcome)) := do
  let s ← get
  match B.api.read s.disk file with
  | .ok (some bytes) =>
    if (decodeUtf8 bytes).isSome then
      let outcome ← B.projectFileForced file
      pure (if outcome.changed then some (file, outcome) else none)
    else pure none
  | _ => pure none

/-- Step 1b: a present file with a sidecar and no entry at all gets one. -/
def healEntry (key : K) : BridgeM K P δ V T Unit := do
  let s ← get
  if (s.doc.getEntry key).isNone ∧ B.api.sidecarExists s.disk key then
    B.setEntry key (liveEntry .text (B.textHash (s.doc.text key)))
  else pure ()

/-- The hash of the last synced text, or of the store's text if the sidecar cannot be read. -/
def deletedHash (s : Vault K δ V T) (key : K) : String :=
  match B.api.loadSidecar s.disk key with
  | .ok (some sidecar) => sidecar.lastSyncedHash
  | _ => B.textHash (s.doc.text key)

/-- Step 2: a live entry whose file is gone, though this device had it, becomes a tombstone. -/
def detectDeletion (present : List K) (item : K × V) :
    BridgeM K P δ V T (Option (P × SyncOutcome)) := do
  let entry ← B.parseEntry item.2
  let s ← get
  if entry.status ≠ .live ∨ item.1 ∈ present then pure none
  else
    match entry.kind with
    | .blob =>
      if B.api.markerExists s.disk item.1 then
        B.writeTombstone item.1 .blob entry.contentHash
        B.removeMarker item.1
        pure (some (B.api.keyToPath item.1, .changedNoOps))
      else pure none
    | .text =>
      if B.api.sidecarExists s.disk item.1 then
        B.writeTombstone item.1 .text (B.deletedHash s item.1)
        B.removeSidecar item.1
        pure (some (B.api.keyToPath item.1, .changedNoOps))
      else pure none

def applyLive (present : List K) (key : K) (entry : FileEntry K) :
    BridgeM K P δ V T (Option (P × SyncOutcome)) := do
  let s ← get
  let file := B.api.keyToPath key
  match entry.kind with
  | .blob =>
    let outcome ← B.projectBlob file entry.contentHash
    pure (if outcome.changed then some (file, outcome) else none)
  | .text =>
    if key ∈ present then
      match ← B.projectUnlessDirty file with
      | some outcome => pure (if outcome.changed then some (file, outcome) else none)
      | none => pure none
    else if B.api.sidecarExists s.disk key then pure none
    else
      let outcome ← B.projectFile file
      pure (some (file, outcome))

/-- Step 3 for a tombstone. A text that changed since the deletion comes back. -/
def applyTombstone (present : List K) (key : K) (entry : FileEntry K) :
    BridgeM K P δ V T (Option (P × SyncOutcome)) := do
  let s ← get
  let file := B.api.keyToPath key
  match entry.kind with
  | .blob =>
    if key ∈ present then
      B.removeFile file
      B.removeMarker key
      B.removeSidecar key
      pure (some (file, .changedNoOps))
    else
      B.removeMarker key
      B.removeSidecar key
      pure none
  | .text =>
    if key ∈ present then
      let currentHash := B.textHash (s.doc.text key)
      if currentHash = entry.contentHash then
        B.removeFile file
        B.removeSidecar key
        pure (some (file, .changedNoOps))
      else
        B.setEntry key (liveEntry .text currentHash)
        let outcome ← B.projectUnlessDirty file
        pure (some (file, outcome.getD .changedNoOps))
    else
      B.removeSidecar key
      pure none

/-- Step 3: an entry takes effect on disk, unless its path leaves the vault. -/
def applyRemote (present : List K) (item : K × V) :
    BridgeM K P δ V T (Option (P × SyncOutcome)) := do
  let entry ← B.parseEntry item.2
  let s ← get
  if B.api.withinVault s.disk (B.api.keyToPath item.1) then
    match entry.status with
    | .live => B.applyLive present item.1 entry
    | .tombstoned => B.applyTombstone present item.1 entry
  else pure none

def filesToImport (hint : Option (List P)) (files : List P) : List P :=
  match hint with
  | none => files
  | some hinted => files.filter fun file => file ∈ hinted

/-- Steps 1, 1b and 2, which leave the files of a writable vault alone. -/
def flushLocal (hint : Option (List P)) (files : List P) (present : List K) :
    BridgeM K P δ V T (List (P × SyncOutcome)) := do
  let s ← get
  let toImport := filesToImport hint files
  if s.mayWrite then
    let imported ← toImport.mapM fun file => do
      let outcome ← B.importFile file
      pure (file, outcome)
    let _ ← present.mapM B.healEntry
    let s ← get
    let deleted ← (B.entries s.doc).mapM (B.detectDeletion present)
    pure (imported ++ deleted.reduceOption)
  else
    let reverted ← toImport.mapM B.revertFile
    pure reverted.reduceOption

/-- What a scan does before the entries take effect: it walks the vault and flushes it into the
store. It also gives the keys that it found. -/
def flush (hint : Option (List P)) : BridgeM K P δ V T (List K × List (P × SyncOutcome)) := do
  let s ← get
  let files ← ofResult (B.api.collectVaultFiles s.disk)
  let keys ← ofResult (files.mapM B.api.containerId)
  let flushed ← B.flushLocal hint files keys.dedup
  pure (keys.dedup, flushed)

def applyAll (present : List K) : BridgeM K P δ V T (List (Option (P × SyncOutcome))) := do
  let s ← get
  (B.entries s.doc).mapM (B.applyRemote present)

def scanGc (hint : Option (List P)) : BridgeM K P δ V T (List (P × SyncOutcome)) := do
  let (present, flushed) ← B.flush hint
  let applied ← B.applyAll present
  pure (flushed ++ applied.reduceOption)

/-- `scan_hinted` is `scan_gc` as well: the tombstones are no longer collected. -/
def scan : BridgeM K P δ V T (List (P × SyncOutcome)) := B.scanGc none

end Scan

end FolderBridge

end Roam.Bridge
