import Roam.StoreDocSpec
import Roam.Library.Run

namespace Roam
set_option autoImplicit true
open Library Library.Fallible

inductive RosterCall
  | declareFounder (role : Role)
  | addPeer (peer : UInt64) (key : Bytes32) (role : Role)
  | setRole (peer : UInt64) (key : Bytes32) (role : Role)
  | revokePeer (peer : UInt64) (key : Bytes32)
  | setDeviceName (name : String)
  | pinFounder (peer : UInt64)

def RosterCall.run {π : Platform} (orders : RosterOrder × RosterOrder) : RosterCall → StoreM π Unit
  | .declareFounder role => Store.declareFounder orders role
  | .addPeer peer key role => Store.addPeer orders peer key role
  | .setRole peer key role => Store.setRole orders peer key role
  | .revokePeer peer key => Store.revokePeer orders peer key
  | .setDeviceName name => Store.setDeviceName orders name
  | .pinFounder peer => Store.pinFounder orders.2 peer

inductive SyncCall
  | roster (orders : RosterOrder × RosterOrder) (c : RosterCall)
  | importRoster (order : RosterOrder) (author : UInt64) (key : Bytes32) (bytes : Bytes)
  | importBundle (order : RosterOrder) (logs : List (UInt64 × Bytes))
  | importKeylog (author : UInt64) (key : Bytes32) (bytes : Bytes)

def SyncCall.run {π : Platform} : SyncCall → StoreM π Unit
  | .roster orders c => c.run orders
  | .importRoster order author key bytes => Store.importRoster order author key bytes
  | .importBundle order logs => Store.importRosterBundle order logs
  | .importKeylog author key bytes => Store.importKeylog author key bytes

/-- The calls on an open store. Those that write op logs or snapshots say how the writes end. -/
inductive StoreCall (π : Platform)
  | edit (io : Io) (e : DocEdit π.Frontier)
  | importPeer (io : Io) (peer : UInt64) (key : Bytes32) (bytes : Bytes)
  | applyPeerOps (io : Io) (author : UInt64) (key : Bytes32) (appended : Bytes)
  | adoptSnapshot (io : Io) (bytes : Bytes)
  | writeSnapshot (io ioMarker : Io) (now : Int)
  | sync (c : SyncCall)

def StoreCall.run {π : Platform} : StoreCall π → StoreM π Unit
  | .edit io e => Store.editDoc io e
  | .importPeer io peer key bytes => Store.importPeerIo io peer key bytes
  | .applyPeerOps io author key appended => Store.applyPeerOpsIo io author key appended
  | .adoptSnapshot io bytes => Store.adoptSnapshot io bytes
  | .writeSnapshot io ioMarker now => Store.writeSnapshot io ioMarker now
  | .sync c => c.run

namespace Store
variable {π : Platform}

def after (s : Store π) (c : StoreCall π) : Store π := (exec c.run s).2

def result (s : Store π) (c : StoreCall π) : Except StorageError Unit := (exec c.run s).1

theorem rosterCall_rostered (orders : RosterOrder × RosterOrder) (c : RosterCall) (s : Store π) :
    Rostered s (exec (c.run orders) s).1 (exec (c.run orders) s).2 := by
  cases c with
  | addPeer peer key role => exact authorAsAdmin_rostered orders _ peer key s
  | setRole peer key role => exact authorAsAdmin_rostered orders _ peer key s
  | revokePeer peer key => exact authorAsAdmin_rostered orders _ peer key s
  | declareFounder role =>
    rw [RosterCall.run, exec_declareFounder]
    split
    next => exact .unchanged _
    next =>
      split
      next => exact .unchanged _
      next =>
        -- the pin is written before the own roster log is
        rw [exec_authorRoster]
        split
        next => exact .pinned _ _
        next =>
          split
          next => exact .pinned _ _
          next file _ =>
            exact .refreshed ((s.withFounder s.peerId).withRoster s.peerId file) orders.2 rfl
              fun _ => rfl
  | setDeviceName name =>
    rw [RosterCall.run, exec_setDeviceName]
    split
    next => exact .unchanged _
    next => exact authorRoster_rostered orders _ _ _ s
  | pinFounder peer =>
    rw [RosterCall.run, exec_pinFounder]
    split
    next =>
      split
      next => exact .unchanged _
      next => exact .unchanged _
    next => exact .refreshed (s.withFounder peer) orders.2 rfl fun _ => rfl

theorem syncCall_outcome (c : SyncCall) (s : Store π) :
    Rostered s (exec c.run s).1 (exec c.run s).2 ∨
      ∃ author bytes, exec c.run s = (.ok (), s.withKeylog author bytes) := by
  cases c with
  | roster orders c => exact .inl (rosterCall_rostered orders c s)
  | importRoster order author key bytes =>
    exact .inl (importRoster_rostered order author key bytes s)
  | importBundle order logs => exact .inl (importRosterBundle_rostered order logs s)
  | importKeylog author key bytes =>
    rw [SyncCall.run, exec_importKeylog]
    split
    next => exact .inl (.unchanged _)
    next =>
      split
      next => exact .inl (.unchanged _)
      next =>
        split
        next => exact .inl (.unchanged _)
        next => exact .inr ⟨author, bytes, rfl⟩

structure SameDoc (s s' : Store π) : Prop where
  identity : s'.identity = s.identity
  doc : s'.doc = s.doc
  persisted : s'.persisted = s.persisted

structure SameData (s s' : Store π) : Prop extends SameDoc s s' where
  ops : s'.disk.ops = s.disk.ops
  snapshot : s'.disk.snapshot = s.disk.snapshot

theorem SameData.of_content {s s' : Store π} (h : s'.content = s.content) : SameData s s' where
  identity := content_congr Store.identity (fun _ => rfl) h
  doc := content_congr Store.doc (fun _ => rfl) h
  persisted := content_congr Store.persisted (fun _ => rfl) h
  ops := content_congr (fun s => s.disk.ops) (fun _ => rfl) h
  snapshot := content_congr (fun s => s.disk.snapshot) (fun _ => rfl) h

theorem syncCall_sameData (c : SyncCall) (s : Store π) : SameData s (exec c.run s).2 := by
  cases syncCall_outcome c s with
  | inl h => exact .of_content h.content
  | inr h =>
    obtain ⟨author, bytes, h⟩ := h
    rw [h]
    exact ⟨⟨rfl, rfl, rfl⟩, rfl, rfl⟩

theorem putOps_sameDoc (s : Store π) (peer : UInt64) (file : Option Bytes) :
    SameDoc s (s.putOps peer file) := by
  cases file with
  | none => exact ⟨rfl, rfl, rfl⟩
  | some bytes => exact ⟨rfl, rfl, rfl⟩

theorem Imported.identity (h : Imported io peer key bytes s r s') : s'.identity = s.identity := by
  cases h with
  | refused err => rfl
  | unwritten entries err ha hio => exact (putOps_sameDoc s _ _).identity
  | stopped entries merged doc err ha hio hs => rfl
  | merged entries doc ha hio hr => rfl

theorem Edited.identity (h : Edited io e s r s') : s'.identity = s.identity := by
  cases h with
  | refused msg he => rfl
  | unexported doc msg he hd => rfl
  | nothing doc he hv => rfl
  | failed doc delta err he hd hio => exact (putOps_sameDoc (s.withDoc doc) _ _).identity
  | logged doc delta he hd hio => rfl

theorem Adopted.identity (h : Adopted io bytes s r s') : s'.identity = s.identity := by
  cases h with
  | refused msg hi => rfl
  | unsaved doc err hi hu => rfl
  | adopted doc merged hi hm hio => rfl

theorem Adopted.ops (h : Adopted io bytes s r s') : s'.disk.ops = s.disk.ops := by
  cases h with
  | refused msg hi => rfl
  | unsaved doc err hi hu => rfl
  | adopted doc merged hi hm hio => rfl

theorem writeSnapshot_ops (io ioMarker : Io) (now : Int) (s : Store π) :
    (exec (writeSnapshot io ioMarker now) s).2.disk.ops = s.disk.ops :=
  writeSnapshot_outcome (P := (·.disk.ops = s.disk.ops)) io ioMarker now rfl fun _ _ _ => rfl

theorem after_identity (s : Store π) (c : StoreCall π) : (s.after c).identity = s.identity := by
  cases c with
  | edit io e => exact (editDoc_outcome io e s).identity
  | importPeer io peer key bytes => exact (importPeerIo_outcome io peer key bytes s).identity
  | applyPeerOps io author key appended =>
    obtain ⟨_, ho⟩ := applyPeerOpsIo_outcome io author key appended s
    exact ho.identity
  | adoptSnapshot io bytes => exact (adoptSnapshot_outcome io bytes s).identity
  | writeSnapshot io ioMarker now =>
    exact writeSnapshot_outcome (P := (·.identity = s.identity)) io ioMarker now rfl
      fun _ _ _ => rfl
  | sync c => exact (syncCall_sameData c s).identity

end Store

end Roam
