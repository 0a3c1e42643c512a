import Roam.Pairing
import Roam.PlainPlatform

namespace Roam
set_option autoImplicit true
open Library Library.Fallible

structure IdentityFile where
  peerId : UInt64
  secretKey : String

inductive VaultRead
  | identity
  | vaultId
  | founder
  | founderKey
  | roster (author : UInt64)
  | snapshot
  | ops (peer : UInt64)
  | founderAgain
deriving DecidableEq

/-- What the surroundings decide while a vault is opened: the reads that fail with an error other
than `NotFound`, what is generated, and the orders of hash maps. -/
structure VaultIo where
  fails : VaultRead → Bool
  identity : Identity
  vaultId : Bytes32
  order : RosterOrder
  orders : RosterOrder × RosterOrder

def VaultIo.read (io : VaultIo) (r : VaultRead) (content : α) : Except StorageError α :=
  if io.fails r then .error (.io "read failed") else .ok content

structure VaultFiles where
  identity : Option Bytes
  vaultId : Option Bytes
  disk : Disk

namespace Store
variable {π : Platform}

def collectIo (π : Platform) (io : VaultIo) (disk : Disk) (selfId : UInt64) (selfKey : Bytes32)
    (founder : Option UInt64) : Except StorageError (List RosterEntry) := do
  if founder.any (· ≠ selfId) then
    io.read .founderKey ()
  let trusted ← trustSeeds π disk selfId selfKey founder
  let walk : Exploration UInt64 Bytes32 RosterEntry :=
    { read := fun author key => if io.fails (.roster author) then []
      else readRoster π disk author key
      learn := learnSubject }
  pure (walk.explore io.order (walkBound disk) trusted ∅ [])

def replayPeerIo (io : VaultIo) (disk : Disk) (self : UInt64) (doc : π.Doc) (peer : PeerRecord) :
    Except StorageError π.Doc := do
  if peer.status = .active ∧ peer.peerId ≠ self ∧ π.validKey peer.verifyingKey then
    io.read (.ops peer.peerId) ()
  replayPeer disk self doc peer

/-- `Store::open_with_fs` when reads may fail. -/
def openWithFs (io : VaultIo) (disk : Disk) (identity : Identity) : Except StorageError (Store π) :=
  do
  let selfId := identity.peerId π
  let selfKey := identity.verifyingKey π
  let founder ← io.read .founder disk.founder
  let entries ← collectIo π io disk selfId selfKey founder
  let peers := mergeRoster entries founder
  let snapshot ← io.read .snapshot disk.snapshot
  let base ← baseDoc π selfId snapshot
  let ownLog ← io.read (.ops selfId) disk.ops[selfId]?
  let own ← readVerified π (opReader π selfId selfKey) ownLog
  let doc ← replayEntries π base own
  let doc ← peers.foldlM (replayPeerIo io disk selfId) doc
  let doc := π.commit doc
  pure { identity, disk, peers, founder, doc, persisted := π.version doc }

end Store

section Files
variable (π : Platform) (json : Json IdentityFile)

/-- The bytes of `Identity::save_with_fs`. -/
def Identity.save (id : Identity) : Bytes :=
  json.render ⟨id.peerId π, π.b64Encode id.secret.bytes⟩

/-- `Identity::load_with_fs` on the bytes of the file; no caller looks at its error. -/
def Identity.load (bytes : Bytes) : Option Identity := do
  let file ← (json.parse bytes).toOption
  let raw ← (π.b64Decode file.secretKey).toOption
  let secret ← Bytes32.ofBytes? raw
  pure ⟨secret⟩

namespace Wasm

structure Vault (π : Platform) where
  store : Store π
  key : Bytes32
  identity : Identity
  vaultId : Bytes32

inductive VaultError
  | storage (e : StorageError)
  | vaultId (msg : String)

namespace Vault

def loadOrGenerateIdentity (io : VaultIo) (files : VaultFiles) : Identity × VaultFiles :=
  match ((io.read .identity files.identity).toOption.join).bind (Identity.load π json) with
  | some existing => (existing, files)
  | none => (io.identity, { files with identity := some (io.identity.save π json) })

def loadOrGenerateVaultId (io : VaultIo) (files : VaultFiles) :
    Except VaultError Bytes32 × VaultFiles :=
  match (io.read .vaultId files.vaultId).toOption.join with
  | some bytes =>
    match Bytes32.ofBytes? bytes with
    | some id => (.ok id, files)
    | none => (.error (.vaultId s!"/vault/vault.id is {bytes.length} bytes, expected 32"), files)
  | none => (.ok io.vaultId, { files with vaultId := some io.vaultId.bytes })

def openStore (io : VaultIo) (disk : Disk) (identity : Identity) :
    Except StorageError (Store π) × Disk :=
  match Store.openWithFs io disk identity with
  | .error e => (.error e, disk)
  | .ok store =>
    if store.founder.isSome then (.ok store, store.disk)
    else
      match io.read .founderAgain () with
      | .error e => (.error e, store.disk)
      | .ok () =>
        match exec (Store.declareFounder io.orders .admin) store with
        | (.error e, store) => (.error e, store.disk)
        | (.ok (), store) => (.ok store, store.disk)

/-- `Vault::open`, with the files that it leaves. -/
def openFiles (io : VaultIo) (files : VaultFiles) (key : Bytes32) :
    Except VaultError (Vault π) × VaultFiles :=
  let (identity, files) := loadOrGenerateIdentity π json io files
  match loadOrGenerateVaultId io files with
  | (.error e, files) => (.error e, files)
  | (.ok vaultId, files) =>
    match openStore π io files.disk identity with
    | (.error e, disk) => (.error (.storage e), { files with disk })
    | (.ok store, disk) => (.ok ⟨store, key, identity, vaultId⟩, { files with disk })

/-- `Vault::join`. -/
def join (io : VaultIo) (files : VaultFiles) (identity : Identity) (accept : JoinAccept)
    (hostKey : Bytes32) : Except StorageError (Vault π) × VaultFiles :=
  let files := { files with identity := some (identity.save π json) }
  match Store.openWithFs io files.disk identity with
  | .error e => (.error e, files)
  | .ok store =>
    match exec (Store.adoptAccept io.orders accept hostKey) store with
    | (.error e, store) => (.error e, { files with disk := store.disk })
    | (.ok joined, store) =>
      (.ok ⟨store, joined.vaultKey, identity, joined.vault⟩,
        { files with disk := store.disk, vaultId := some joined.vault.bytes })

end Vault

end Wasm

end Files

namespace Store
variable {π : Platform} {s s' : Store π} {io : VaultIo} {disk : Disk} {identity : Identity}

theorem openWithFs_of_reads (h : ∀ r, io.fails r = false) : openWithFs io disk identity =
      (openVault io.order disk identity : Except StorageError (Store π)) := by
  have hread {α : Type} (r : VaultRead) (content : α) : io.read r content = .ok content := by
    rw [VaultIo.read, h]
    rfl
  have hcollect : collectIo π io disk = collectRosterEntries π io.order disk := by
    funext selfId selfKey founder
    simp only [collectIo, collectRosterEntries, hread, h]
    split <;> rfl
  have hpeer : replayPeerIo (π := π) io disk = replayPeer disk := by
    funext self doc peer
    simp only [replayPeerIo, hread]
    split <;> rfl
  simp only [openWithFs, openVault, hread, hcollect, hpeer]
  rfl

theorem openWithFs_ok (h : openWithFs io disk identity = .ok s) :
    s.disk = disk ∧ s.founder = disk.founder := by
  simp only [openWithFs, except_bind_eq_ok] at h
  obtain ⟨founder, hfounder, entries, _, snapshot, _, base, _, log, _, own, _, mid, _, doc, _,
    hs⟩ := h
  cases hs
  refine ⟨rfl, ?_⟩
  rw [VaultIo.read] at hfounder
  split at hfounder
  next => cases hfounder
  next => exact (Except.ok.inj hfounder).symm

theorem founder_of_declareFounder (h : exec (declareFounder orders .admin) s = (.ok (), s')) :
    s'.disk.founder.isSome := by
  rw [exec_declareFounder, if_neg (not_not.2 rfl)] at h
  split at h
  next => cases h
  next =>
    rw [exec_authorRoster] at h
    split at h
    next => cases h
    next =>
      split at h
      next => cases h
      next file _ =>
        have hsame :=
          refreshPeers_sameFiles orders.2 ((s.withFounder s.peerId).withRoster s.peerId file)
        have hs :
            s' = (exec (refreshPeers orders.2) ((s.withFounder s.peerId).withRoster s.peerId
              file)).2 :=
          (congrArg Prod.snd h).symm
        rw [hs, hsame.disk]
        rfl

theorem founder_of_adoptAccept (h : exec (adoptAccept orders accept hostKey) s = (.ok joined, s')) :
    s'.disk.founder.isSome := by
  obtain ⟨_, s₁, hpin, h⟩ := exec_bind_ok h
  obtain ⟨_, s₂, hbundle, h⟩ := exec_bind_ok h
  have hpinned : s₁.disk.founder.isSome := by
    rw [exec_pinFounder] at hpin
    split at hpin
    next existing hexisting =>
      split at hpin
      next => cases hpin
      next =>
        cases hpin
        rw [hexisting]
        rfl
    next =>
      have hsame := refreshPeers_sameFiles orders.1 (s.withFounder accept.founder)
      rw [hpin] at hsame
      rw [hsame.disk]
      rfl
  have hbundled : s₂.disk.founder = s₁.disk.founder := by
    rw [exec_importRosterBundle] at hbundle
    have hsame := refreshPeers_sameFiles orders.2 (s₁.withBundle accept.rosters)
    rw [hbundle] at hsame
    rw [hsame.disk]
    rfl
  rw [← hbundled] at hpinned
  split at h
  next =>
    obtain ⟨_, s₃, hkeys, h⟩ := exec_bind_ok h
    cases h
    rw [exec_importKeylog] at hkeys
    split at hkeys
    next => cases hkeys
    next =>
      split at hkeys
      next => cases hkeys
      next =>
        split at hkeys
        next => cases hkeys
        next =>
          cases hkeys
          exact hpinned
  next =>
    cases h
    exact hpinned

end Store

namespace Wasm.Vault

/-- The three files of a vault: an identity that loads, a vault id and a founder pin. -/
structure Founded (π : Platform) (json : Json IdentityFile) (identity : Identity)
    (vaultId : Bytes32)
    (files : VaultFiles) : Prop where
  identity : ∃ bytes, files.identity = some bytes ∧ Identity.load π json bytes = some identity
  vaultId : files.vaultId = some vaultId.bytes
  founder : files.disk.founder.isSome

/-- Files that a successful `open` or `join` has left, where whatever came after it has kept the
three files that say what the vault is. -/
inductive Left (π : Platform) (json : Json IdentityFile) : Identity → Bytes32 → VaultFiles → Prop
  | opened {io : VaultIo} {files files' : VaultFiles} {v : Vault π} (k : Bytes32)
    (h : openFiles π json io files k = (.ok v, files')) : Left π json v.identity v.vaultId files'
  | joined {io : VaultIo} {files files' : VaultFiles} {v : Vault π} (id : Identity)
    (accept : JoinAccept) (hostKey : Bytes32)
    (h : join π json io files id accept hostKey = (.ok v, files')) :
    Left π json v.identity v.vaultId files'
  | used {id : Identity} {vid : Bytes32} {files : VaultFiles} (disk : Disk)
    (h : Left π json id vid files) (hfounder : disk.founder = files.disk.founder) :
    Left π json id vid { files with disk }

structure Kept (identity : Identity) (vaultId : Bytes32) (files : VaultFiles)
    (out : Except VaultError (Vault π) × VaultFiles) : Prop where
  vault : ∀ v, out.1 = .ok v → v.identity = identity ∧ v.vaultId = vaultId
  identity : out.2.identity = files.identity
  vaultId : out.2.vaultId = files.vaultId
  founder : out.2.disk.founder = files.disk.founder

end Wasm.Vault

section Reopen
variable {π : Platform} {json : Json IdentityFile} {io : VaultIo} {files files' : VaultFiles}
  {identity : Identity} {vaultId : Bytes32}

theorem Identity.load_save (hjson : ∀ file, json.parse (json.render file) = .ok file)
    (hb64 : ∀ bytes, π.b64Decode (π.b64Encode bytes) = .ok bytes) (id : Identity) :
    Identity.load π json (id.save π json) = some id := by
  simp only [Identity.load, Identity.save, hjson, hb64, Except.toOption, Option.bind_eq_bind,
    Option.bind_some, Bytes32.ofBytes?, id.secret.size, ↓reduceDIte]
  rfl

theorem VaultIo.read_eq_some {content : Option α} (h : (io.read r content).toOption.join = some a) :
    content = some a := by
  rw [VaultIo.read] at h
  split at h
  next => cases h
  next => exact h

theorem VaultIo.read_of_fails (h : io.fails r = true) (content : Option α) :
    (io.read r content).toOption.join = none := by
  rw [VaultIo.read, if_pos h]
  rfl

theorem VaultIo.read_of_not_fails (h : io.fails r = false) (content : Option α) :
    (io.read r content).toOption.join = content := by
  rw [VaultIo.read, if_neg (Bool.eq_false_iff.1 h)]
  rfl

theorem Bytes32.ofBytes?_eq_some {bytes : Bytes} {id : Bytes32}
    (h : Bytes32.ofBytes? bytes = some id) :
    bytes = id.bytes := by
  rw [Bytes32.ofBytes?] at h
  split at h
  next hsize =>
    cases h
    rfl
  next => cases h

theorem Bytes32.ofBytes?_bytes (id : Bytes32) : Bytes32.ofBytes? id.bytes = some id := by
  rw [Bytes32.ofBytes?, dif_pos id.size]

namespace Wasm.Vault

theorem loadOrGenerateIdentity_loads
    (hsave : ∀ id, Identity.load π json (Identity.save π json id) = some id)
    (h : loadOrGenerateIdentity π json io files = (identity, files')) :
    (∃ bytes, files'.identity = some bytes ∧ Identity.load π json bytes = some identity) ∧
      files'.disk = files.disk := by
  rw [loadOrGenerateIdentity] at h
  split at h
  next existing hload =>
    cases h
    obtain ⟨bytes, hread, hload⟩ := Option.bind_eq_some_iff.1 hload
    exact ⟨⟨bytes, VaultIo.read_eq_some hread, hload⟩, rfl⟩
  next =>
    cases h
    exact ⟨⟨_, rfl, hsave io.identity⟩, rfl⟩

theorem loadOrGenerateVaultId_ok (h : loadOrGenerateVaultId io files = (.ok vaultId, files')) :
    files'.vaultId = some vaultId.bytes ∧ files'.identity = files.identity ∧
      files'.disk = files.disk := by
  rw [loadOrGenerateVaultId] at h
  split at h
  next bytes hread =>
    split at h
    next id hid =>
      cases h
      rw [VaultIo.read_eq_some hread, Bytes32.ofBytes?_eq_some hid]
      exact ⟨rfl, rfl, rfl⟩
    next => cases h
  next =>
    cases h
    exact ⟨rfl, rfl, rfl⟩

theorem openStore_founder {disk : Disk} {s : Store π}
    (h : (openStore π io disk identity).1 = .ok s) :
    (openStore π io disk identity).2.founder.isSome := by
  rw [openStore] at h ⊢
  cases hopen : Store.openWithFs (π := π) io disk identity with
  | error e =>
    rw [hopen] at h
    cases h
  | ok s =>
    obtain ⟨hdisk, hfounder⟩ := Store.openWithFs_ok hopen
    rw [hopen] at h
    dsimp only at h ⊢
    by_cases hpin : s.founder.isSome
    · rw [if_pos hpin, hdisk, ← hfounder]
      exact hpin
    · rw [if_neg hpin] at h ⊢
      cases hread : io.read .founderAgain () with
      | error e =>
        rw [hread] at h
        cases h
      | ok u =>
        rw [hread] at h
        cases hdeclare : exec (Store.declareFounder io.orders .admin) s with
        | mk r s' =>
          rw [hdeclare] at h
          cases r with
          | error e => cases h
          | ok u => exact Store.founder_of_declareFounder hdeclare

theorem openStore_disk {disk : Disk} (h : disk.founder.isSome) :
    (openStore π io disk identity).2 = disk := by
  rw [openStore]
  cases hopen : Store.openWithFs (π := π) io disk identity with
  | error e => rfl
  | ok s =>
    obtain ⟨hdisk, hfounder⟩ := Store.openWithFs_ok hopen
    dsimp only
    rw [hfounder, if_pos h]
    exact hdisk

theorem Left.founded (hsave : ∀ id, Identity.load π json (Identity.save π json id) = some id)
    (h : Left π json identity vaultId files) : Founded π json identity vaultId files := by
  induction h with
  | @opened io files files' v k h =>
    rw [openFiles] at h
    cases hid : loadOrGenerateIdentity π json io files with
    | mk identity f₁ =>
      cases hvid : loadOrGenerateVaultId io f₁ with
      | mk r f₂ =>
        simp only [hid, hvid] at h
        cases r with
        | error e => cases h
        | ok vaultId =>
          dsimp only at h
          cases hstore : openStore π io f₂.disk identity with
          | mk r disk =>
            rw [hstore] at h
            cases r with
            | error e => cases h
            | ok store =>
              cases h
              obtain ⟨⟨bytes, hbytes, hload⟩, _⟩ := loadOrGenerateIdentity_loads hsave hid
              obtain ⟨hvault, hsame, _⟩ := loadOrGenerateVaultId_ok hvid
              have hpin := openStore_founder (congrArg Prod.fst hstore)
              rw [hstore] at hpin
              exact ⟨⟨bytes, hsame.trans hbytes, hload⟩, hvault, hpin⟩
  | joined id accept hostKey h =>
    rw [join] at h
    dsimp only at h
    split at h
    next => cases h
    next store _ =>
      split at h
      next => cases h
      next joined store' hadopt =>
        cases h
        exact ⟨⟨_, rfl, hsave id⟩, rfl, Store.founder_of_adoptAccept hadopt⟩
  | used disk h hfounder ih => exact ⟨ih.identity, ih.vaultId, hfounder ▸ ih.founder⟩

theorem Founded.loadOrGenerateIdentity_eq (h : Founded π json identity vaultId files) :
    loadOrGenerateIdentity π json io files =
      (if io.fails .identity then io.identity else identity,
        { files with
          identity := if io.fails .identity then some (io.identity.save π json)
            else files.identity }) := by
  obtain ⟨bytes, hbytes, hload⟩ := h.identity
  rw [loadOrGenerateIdentity]
  cases hfails : io.fails .identity with
  | true =>
    rw [VaultIo.read_of_fails hfails]
    rfl
  | false =>
    rw [VaultIo.read_of_not_fails hfails, hbytes, Option.bind_some, hload]
    exact Prod.ext rfl (hbytes ▸ rfl)

theorem loadOrGenerateVaultId_eq (h : files.vaultId = some vaultId.bytes) :
    loadOrGenerateVaultId io files =
      (.ok (if io.fails .vaultId then io.vaultId else vaultId),
        { files with
          vaultId := if io.fails .vaultId then some io.vaultId.bytes else files.vaultId }) := by
  rw [loadOrGenerateVaultId]
  cases hfails : io.fails .vaultId with
  | true =>
    rw [VaultIo.read_of_fails hfails]
    rfl
  | false =>
    rw [VaultIo.read_of_not_fails hfails, h]
    dsimp only
    rw [Bytes32.ofBytes?_bytes]
    exact Prod.ext rfl (h ▸ rfl)

theorem openFiles_of_loads {f₁ f₂ : VaultFiles}
    (hid : loadOrGenerateIdentity π json io files = (identity, f₁))
    (hvid : loadOrGenerateVaultId io f₁ = (.ok vaultId, f₂)) (hpin : f₂.disk.founder.isSome)
    (key : Bytes32) : openFiles π json io files key =
      (((openStore π io f₂.disk identity).1.mapError VaultError.storage).map
        fun store => ⟨store, key, identity, vaultId⟩, f₂) := by
  have hdisk : (openStore π io f₂.disk identity).2 = f₂.disk := openStore_disk hpin
  simp only [openFiles, hid, hvid]
  cases hstore : openStore π io f₂.disk identity with
  | mk r disk =>
    rw [hstore] at hdisk
    subst hdisk
    cases r with
    | error e => rfl
    | ok store => rfl

theorem Founded.openFiles_eq (h : Founded π json identity vaultId files) (key : Bytes32) :
    openFiles π json io files key =
      (((openStore π io files.disk (if io.fails .identity then io.identity
        else identity)).1.mapError
          VaultError.storage).map fun store =>
        { store, key
          identity := if io.fails .identity then io.identity else identity
          vaultId := if io.fails .vaultId then io.vaultId else vaultId },
      { files with
        identity := if io.fails .identity then some (io.identity.save π json) else files.identity
        vaultId := if io.fails .vaultId then some io.vaultId.bytes else files.vaultId }) :=
  openFiles_of_loads h.loadOrGenerateIdentity_eq (loadOrGenerateVaultId_eq h.vaultId) h.founder key

/-- Opening a vault again keeps what it is if and only if neither `identity.key` nor `vault.id`
fails to be read. -/
theorem reopen_kept_iff (hjson : ∀ file, json.parse (json.render file) = .ok file)
    (hb64 : ∀ bytes, π.b64Decode (π.b64Encode bytes) = .ok bytes)
    (h : Left π json identity vaultId files) (io : VaultIo) (key : Bytes32)
    (hid : io.identity ≠ identity) (hvid : io.vaultId ≠ vaultId) :
    Kept identity vaultId files (openFiles π json io files key) ↔
      io.fails .identity = false ∧ io.fails .vaultId = false := by
  have hsave := Identity.load_save (π := π) hjson hb64
  have hf := h.founded hsave
  rw [hf.openFiles_eq key]
  constructor
  · intro hkept
    constructor
    · by_contra hfails
      have heq := hkept.identity
      dsimp only at heq
      rw [if_pos (Bool.eq_true_of_not_eq_false hfails)] at heq
      obtain ⟨bytes, hbytes, hload⟩ := hf.identity
      rw [hbytes, Option.some.injEq] at heq
      rw [← heq, hsave] at hload
      exact hid (Option.some.inj hload)
    · by_contra hfails
      have heq := hkept.vaultId
      dsimp only at heq
      rw [if_pos (Bool.eq_true_of_not_eq_false hfails), hf.vaultId, Option.some.injEq] at heq
      exact hvid (Bytes32.bytes_injective heq)
  · rintro ⟨hreads, hreads'⟩
    rw [hreads, hreads']
    refine ⟨fun v hv => ?_, rfl, rfl, rfl⟩
    simp only [Bool.false_eq_true, ↓reduceIte] at hv
    cases hstore : (openStore π io files.disk identity).1 with
    | error e =>
      rw [hstore] at hv
      cases hv
    | ok store =>
      rw [hstore] at hv
      cases hv
      exact ⟨rfl, rfl⟩

end Wasm.Vault

end Reopen

section Sample
open Wasm

def identityCode : PrefixCode IdentityFile :=
  .via (.pair .uint64 .string) {
    toFun file := (file.peerId, file.secretKey)
    invFun x := ⟨x.1, x.2⟩
    left_inv _ := rfl
    right_inv _ := rfl }

def openingIo (n : UInt8) (fails : VaultRead → Bool) : VaultIo where
  fails
  identity := plainIdentity n
  vaultId := .replicate n
  order := ascending
  orders := (ascending, ascending)

def sampleOpen (n : UInt8) (fails : VaultRead → Bool) (files : VaultFiles) :
    Except VaultError (Vault openPlatform) × VaultFiles :=
  Vault.openFiles openPlatform (plainJson identityCode) (openingIo n fails) files default

def emptyFiles : VaultFiles := ⟨none, none, ⟨none, ∅, ∅, ∅, none, none, ∅⟩⟩

def foundedFiles : VaultFiles := (sampleOpen 1 (fun _ => false) emptyFiles).2

theorem foundedFiles_left :
    Vault.Left openPlatform (plainJson identityCode) (plainIdentity 1) (.replicate 1)
      foundedFiles := by
  have hshown : (sampleOpen 1 (fun _ => false) emptyFiles).1.toOption.map
      (fun v => (v.identity.secret, v.vaultId)) = some (.replicate 1, .replicate 1) := by
    decide +kernel
  obtain ⟨v, hv, hids⟩ := Option.map_eq_some_iff.1 hshown
  obtain ⟨hid, hvid⟩ := Prod.mk.inj hids
  have hok : sampleOpen 1 (fun _ => false) emptyFiles = (.ok v, foundedFiles) := by
    refine Prod.ext ?_ rfl
    cases hopen : (sampleOpen 1 (fun _ => false) emptyFiles).1 with
    | error e =>
      rw [hopen] at hv
      cases hv
    | ok w =>
      rw [hopen] at hv
      cases hv
      rfl
  have hleft := Vault.Left.opened _ hok
  rwa [hvid, show v.identity = plainIdentity 1 from congrArg Identity.mk hid] at hleft

theorem identity_replaced :
    Vault.Left openPlatform (plainJson identityCode) (plainIdentity 1) (.replicate 1) foundedFiles ∧
      (sampleOpen 2 (· = .identity) foundedFiles).1.toOption.map (fun v => v.identity.secret) =
        some (.replicate 2) ∧
      (sampleOpen 2 (· = .identity) foundedFiles).2.identity ≠ foundedFiles.identity :=
  ⟨foundedFiles_left, by decide +kernel, by decide +kernel⟩

theorem reopen_kept_founded :
    Vault.Kept (plainIdentity 1) (.replicate 1) foundedFiles (sampleOpen 2 (· = .founder)
      foundedFiles) :=
  (Vault.reopen_kept_iff (plainJson_lawful identityCode).parse_render
    (plainPlatform_lawful fun _ _ => rfl).b64 foundedFiles_left (openingIo 2 (· = .founder)) default
    (fun h => absurd (congrArg Identity.secret h) (by decide)) (by decide)).2 ⟨rfl, rfl⟩

end Sample

end Roam
