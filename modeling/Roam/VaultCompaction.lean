import Roam.Reconcile

namespace Roam
set_option autoImplicit true
open Library

structure Checkpointed where
  freed : Nat
  snapshot : Option (String × Bytes)
  compactedWithoutBootstrap : Bool

/-- The snapshot is taken before the logs are cut, with the same cutoff. -/
def checkpointWithBootstrap {π : BackendPlatform} (key : VaultKey) (io : CheckpointIo)
    (beforeTs : Int) (nonce : Bytes) (files : SyncFiles) :
    StoreM π.toPlatform (Checkpointed × SyncFiles) := do
  let (snapshot, files) ← Pass.produceHeldSnapshot key beforeTs nonce files
  let freed ← Store.checkpoint io beforeTs
  let s ← get
  pure ({
    freed, snapshot
    compactedWithoutBootstrap := snapshot.isNone && s.selfRole ≠ some .admin }, files)

def Vault.putBlob {π : Platform} (bytes : Bytes) : StoreM π String := do
  let hash := blobHash π bytes
  modify fun s => { s with disk.blobs := s.disk.blobs.insertIfNew hash bytes }
  pure hash

/-- `Vault::compact`. -/
def Vault.compact {π : Platform} (io : CheckpointIo) (beforeMs : Int) : StoreM π Nat :=
  Store.checkpoint io beforeMs

end Roam
